import Mathlib.Tactic

/-! # Identifiers, instants and media payloads

The opaque newtypes of `ids.rs` and `propagate.rs`, the clock readings of
`std::time`, and the payload of `media.rs` that crosses the fanout. Floats are
read exactly, as rational numbers.
-/
namespace SfuKit

/-- Process-unique identifier of a connected peer. -/
@[ext] structure ClientId where
  raw : ℕ
deriving DecidableEq, Repr

/-- Simulcast layer identifier; any short ASCII tag may be signalled. -/
structure SfuRid where
  tag : List Char
deriving DecidableEq, Repr

structure SfuMid where
  raw : ℕ
deriving DecidableEq, Repr

structure SfuPt where
  raw : ℕ
deriving DecidableEq, Repr

namespace SfuRid

/-- `SfuRid::LOW`, the `q` layer. -/
def low : SfuRid := ⟨['q']⟩
/-- `SfuRid::MEDIUM`, the `h` layer. -/
def medium : SfuRid := ⟨['h']⟩
/-- `SfuRid::HIGH`, the `f` layer. -/
def high : SfuRid := ⟨['f']⟩

end SfuRid

/-- A monotonic clock reading, in nanoseconds. -/
abbrev Instant := ℕ
/-- A span of time, in nanoseconds. -/
abbrev Duration := ℕ

def fromMillis (ms : ℕ) : Duration := ms * 1000000
def fromSecs (s : ℕ) : Duration := s * 1000000000

/-- `Instant::duration_since`, which is zero rather than negative. -/
def durationSince (later earlier : Instant) : Duration := later - earlier

def asMicros (d : Duration) : ℕ := d / 1000

/-- `as_secs_f64() * 1000.0`, exactly. -/
def asMillisF64 (d : Duration) : ℚ := (d : ℚ) / 1000000

/-- `as_millis() as u64`. -/
def asMillis (d : Duration) : ℕ := d / 1000000

def u64Max : ℕ := 2 ^ 64 - 1
/-- `u64` addition of the release profile. -/
def u64Add (a b : ℕ) : ℕ := (a + b) % 2 ^ 64
/-- `f64 as u64`: truncated towards zero and saturating. -/
def asU64 (x : ℚ) : ℕ := min ⌊x⌋.toNat u64Max

/-- `u8::saturating_add(1)`. -/
def u8SaturatingSucc (s : UInt8) : UInt8 := if s = 255 then 255 else s + 1

/-- Below its ceiling the saturating increment is the ordinary one. -/
theorem u8SaturatingSucc_toNat (s : UInt8) :
    (u8SaturatingSucc s).toNat = min (s.toNat + 1) 255 := by
  have hs := s.toNat_lt
  unfold u8SaturatingSucc
  split_ifs with h
  · subst h; rfl
  · have hne : s.toNat ≠ 255 := fun he => h (UInt8.toNat_inj.mp he)
    rw [UInt8.toNat_add]
    simp only [UInt8.toNat_one]
    omega

inductive MediaKind where
  | audio
  | video
deriving DecidableEq, Repr

/-- An RTP timestamp: ticks over its own clock rate. -/
structure MediaTime where
  numer : ℕ
  denom : ℕ
deriving DecidableEq, Repr

def MediaTime.asSeconds (t : MediaTime) : ℚ := (t.numer : ℚ) / t.denom

/-- The negotiated codec parameters, as far as the fanout looks at them. -/
structure PayloadParams where
  format : ℕ
  codecIsVideo : Bool
deriving DecidableEq, Repr

/-- Temporal layer carried by an AV1 dependency descriptor or a frame marking. -/
structure TemporalInfo where
  temporalId : UInt8
deriving DecidableEq, Repr

structure MediaData where
  mid : SfuMid
  pt : SfuPt
  rid : Option SfuRid
  data : List UInt8
  networkTime : Instant
  contiguous : Bool
  time : MediaTime
  params : PayloadParams
  audioLevel : Option ℤ
  keyEpoch : Option ℕ
deriving DecidableEq, Repr

structure SfuMediaPayload where
  mid : SfuMid
  pt : SfuPt
  rid : Option SfuRid
  data : List UInt8
  networkTime : Instant
  contiguous : Bool
  time : MediaTime
  params : PayloadParams
  av1Dd : Option TemporalInfo
  vfmFm : Option TemporalInfo
  audioLevel : Option ℤ
  keyEpoch : Option ℕ
deriving DecidableEq, Repr

namespace SfuMediaPayload

/-- `SfuMediaPayload::from_str0m`; str0m does not surface the two temporal extensions. -/
def fromStr0m (d : MediaData) : SfuMediaPayload where
  mid := d.mid
  pt := d.pt
  rid := d.rid
  data := d.data
  networkTime := d.networkTime
  contiguous := d.contiguous
  time := d.time
  params := d.params
  av1Dd := none
  vfmFm := none
  audioLevel := d.audioLevel
  keyEpoch := d.keyEpoch

def isVideo (p : SfuMediaPayload) : Bool := p.params.codecIsVideo

/-- RTP-timestamp-derived send time, in milliseconds. -/
def rtpSendMs (p : SfuMediaPayload) : ℚ := p.time.asSeconds * 1000

end SfuMediaPayload
end SfuKit
