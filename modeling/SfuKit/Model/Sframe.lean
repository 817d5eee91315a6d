import SfuKit.Model.Ids

/-! # The key-epoch header extension

`KeyEpochSerializer` writes the KID of a packet into an RTP header extension and parses it
back. A buffer is the list of its bytes. str0m's `ExtensionValues`, a map from types to values,
is a parameter of which the value of type `KeyEpoch` matters.
-/
namespace SfuKit

structure KeyEpoch where
  raw : UInt64
deriving DecidableEq, Repr

namespace KeyEpoch

def new (kid : UInt64) : KeyEpoch := ⟨kid⟩

def asU64 (k : KeyEpoch) : UInt64 := k.raw

end KeyEpoch

/-- `SFRAME_KID_WIDTH`, in bytes. -/
abbrev sframeKidWidth : ℕ := 4

/-- The operations of str0m's `ExtensionValues` the serializer uses. -/
class ExtensionValues (E : Type*) where
  /-- `user_values.get::<KeyEpoch>()`. -/
  getKeyEpoch : E → Option KeyEpoch
  /-- `user_values.set`, of a `KeyEpoch`. -/
  setKeyEpoch : E → KeyEpoch → E

/-- The documented effect of the operations: there is one value of a type, the last one set. -/
structure UserValueLaws (E : Type*) [ExtensionValues E] : Prop where
  get_set : ∀ (ev : E) (k : KeyEpoch),
    ExtensionValues.getKeyEpoch (ExtensionValues.setKeyEpoch ev k) = some k

/-- The smallest extension values that behave so. -/
structure UserValues where
  keyEpoch : Option KeyEpoch
deriving DecidableEq

instance : ExtensionValues UserValues where
  getKeyEpoch ev := ev.keyEpoch
  setKeyEpoch _ k := ⟨some k⟩

theorem UserValues.laws : UserValueLaws UserValues where
  get_set _ _ := rfl

def u32Max : ℕ := 2 ^ 32 - 1

/-- `u32::try_from`, of a `u64`. -/
def u32TryFrom (x : UInt64) : Option UInt32 :=
  if x.toNat ≤ u32Max then some x.toUInt32 else none

/-- `<[u8; N]>::try_from`, of a slice. -/
def arrayTryFrom (n : ℕ) (buf : List UInt8) : Option (Vector UInt8 n) :=
  if h : buf.length = n then some ⟨buf.toArray, h⟩ else none

def toBeBytes (x : UInt32) : Vector UInt8 4 :=
  #v[(x >>> 24).toUInt8, (x >>> 16).toUInt8, (x >>> 8).toUInt8, x.toUInt8]

def fromBeBytes (bytes : Vector UInt8 4) : UInt32 :=
  bytes.toList.foldl (fun x b => x <<< 8 ||| b.toUInt32) 0

namespace KeyEpochSerializer
variable {E : Type*} [ExtensionValues E]

/-- `write_to`: the buffer after the call, and how many bytes were written. -/
def writeTo (buf : List UInt8) (ev : E) : List UInt8 × ℕ :=
  match ExtensionValues.getKeyEpoch ev with
  | none => (buf, 0)
  | some ke =>
    match u32TryFrom ke.asU64 with
    -- A wider KID is omitted rather than truncated to a wrong one.
    | none => (buf, 0)
    | some kid32 =>
      if buf.length < sframeKidWidth then (buf, 0)
      else ((toBeBytes kid32).toList ++ buf.drop sframeKidWidth, sframeKidWidth)

/-- `parse_value`: the extension values after the call, and whether the buffer was accepted. -/
def parseValue (buf : List UInt8) (ev : E) : E × Bool :=
  match arrayTryFrom sframeKidWidth buf with
  | none => (ev, false)
  | some bytes =>
    (ExtensionValues.setKeyEpoch ev (.new (fromBeBytes bytes).toUInt64), true)

end KeyEpochSerializer

example : toBeBytes 0x01020304 = #v[1, 2, 3, 4] ∧ fromBeBytes #v[1, 2, 3, 4] = 0x01020304 := by
  decide

end SfuKit
