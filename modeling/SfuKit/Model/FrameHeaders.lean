import Mathlib.Tactic

/-! # Frame headers

The two parsers of RTP header extensions, for the AV1 dependency descriptor and for video frame
marking. Each reads the first byte.
-/
namespace SfuKit

structure Av1DdInfo where
  spatialId : UInt8
  temporalId : UInt8
  startOfFrame : Bool
  endOfFrame : Bool
deriving DecidableEq, Repr

structure FrameMarkingInfo where
  startOfFrame : Bool
  endOfFrame : Bool
  independent : Bool
  discardable : Bool
  baseLayerSync : Bool
  temporalId : UInt8
deriving DecidableEq, Repr

def Av1DdInfo.parse (bytes : List UInt8) : Option Av1DdInfo := do
  let first ← bytes.head?
  let startOfFrame := (first >>> 7) &&& 1 == 1
  let endOfFrame := (first >>> 6) &&& 1 == 1
  let templateId := first &&& 0x3F
  let (spatialId, temporalId) :=
    if templateId < 9 then (templateId / 3, templateId % 3) else (0, 0)
  return { spatialId, temporalId, startOfFrame, endOfFrame }

def FrameMarkingInfo.parse (bytes : List UInt8) : Option FrameMarkingInfo := do
  let b ← bytes.head?
  return {
    startOfFrame := (b >>> 7) &&& 1 == 1
    endOfFrame := (b >>> 6) &&& 1 == 1
    independent := (b >>> 5) &&& 1 == 1
    discardable := (b >>> 4) &&& 1 == 1
    baseLayerSync := (b >>> 3) &&& 1 == 1
    temporalId := b &&& 0x07 }

/-- `make_byte` of the tests: the descriptor byte of a template. -/
def Av1DdInfo.makeByte (sof eof : Bool) (templateId : UInt8) : UInt8 :=
  (if sof then (1 : UInt8) <<< 7 else 0) ||| (if eof then (1 : UInt8) <<< 6 else 0) ||| (templateId &&& 0x3F)

/-- `make_byte` of the tests. -/
def FrameMarkingInfo.makeByte (info : FrameMarkingInfo) : UInt8 :=
  info.startOfFrame.toUInt8 <<< 7 ||| info.endOfFrame.toUInt8 <<< 6 |||
    info.independent.toUInt8 <<< 5 ||| info.discardable.toUInt8 <<< 4 |||
    info.baseLayerSync.toUInt8 <<< 3 ||| (info.temporalId &&& 0x07)

end SfuKit
