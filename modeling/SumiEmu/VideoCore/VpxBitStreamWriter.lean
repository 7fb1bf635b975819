/-
# The bit writer of VP9 headers

Values are written with a given count of bits; a signed value is its magnitude and a sign behind it.
A difference of quantizer indices is led by a flag. The reader is the one of the format.
-/

import SumiEmu.VideoCore.BitWriter

namespace SumiEmu.VideoCore

open BitStrings

namespace VpxBitStreamWriter

open BitWriter (Fault)

/-- `WriteBits`. -/
def writeBits (value bitCount : BitVec 32) (w : BitWriter) : Except Fault BitWriter :=
  BitWriter.writeBits (fun value s => value >>> s) value bitCount w

/-- `WriteBit`. -/
def writeBit (state : Bool) (w : BitWriter) : Except Fault BitWriter :=
  writeBits (if state then 1 else 0) 1 w

/-- `WriteU`. -/
def writeU (value valueSize : BitVec 32) (w : BitWriter) : Except Fault BitWriter :=
  writeBits value valueSize w

/-- The magnitude of a value and its sign, in one word. -/
def signedWord (value : BitVec 32) : BitVec 32 :=
  let sign := value.toInt < 0
  let value := if sign then -value else value
  (value <<< 1) ||| (if sign then 1 else 0)

/-- `WriteS`. -/
def writeS (value valueSize : BitVec 32) (w : BitWriter) : Except Fault BitWriter :=
  writeBits (signedWord value) (valueSize + 1) w

/-- `WriteDeltaQ`. -/
def writeDeltaQ (value : BitVec 32) (w : BitWriter) : Except Fault BitWriter := do
  let deltaCoded := value ≠ 0
  let w ← writeBit deltaCoded w
  if deltaCoded then writeBits value 4 w else return w

/-- A call of one of the public functions. -/
inductive Write
  | u (value valueSize : BitVec 32)
  | bit (state : Bool)
  | s (value valueSize : BitVec 32)
  | deltaQ (value : BitVec 32)
  deriving DecidableEq, Repr

/-- One write. -/
def write (w : BitWriter) : Write → Except Fault BitWriter
  | .u value valueSize => writeU value valueSize w
  | .bit state => writeBit state w
  | .s value valueSize => writeS value valueSize w
  | .deltaQ value => writeDeltaQ value w

/-- The bytes of a sequence of calls that `Flush` follows. -/
def compose (writes : List Write) : Except Fault (List (BitVec 8)) := do
  let w ← writes.foldlM write {}
  return w.flush.byteArray

end VpxBitStreamWriter

/-! ## The reader of the format -/

namespace VP9

/-- The descriptors of syntax elements. -/
inductive Descriptor
  | f (n : Nat)
  | su (n : Nat)
  | deltaQ
  deriving DecidableEq, Repr

/-- `su(n)`: a magnitude and a sign. -/
def readSu (n : Nat) (xs : List Bool) : Option (Int × List Bool) := do
  let (value, xs) ← readNat n xs
  let (sign, xs) ← readNat 1 xs
  return (if sign = 1 then -(value : Int) else value, xs)

/-- `delta_q`: a flag, and a signed value when it is set. -/
def readDeltaQ (xs : List Bool) : Option (Int × List Bool) := do
  let (deltaCoded, xs) ← readNat 1 xs
  if deltaCoded = 1 then readSu 4 xs else return (0, xs)

/-- What a descriptor reads. -/
def read : Descriptor → List Bool → Option (Int × List Bool)
  | .f n, xs => (readNat n xs).map fun (value, xs) => (value, xs)
  | .su n, xs => readSu n xs
  | .deltaQ, xs => readDeltaQ xs

end VP9

namespace VpxBitStreamWriter

open VP9 (Descriptor)

namespace Write

/-- How the format reads what a call is meant to write. -/
def descriptor : Write → Descriptor
  | .u _ valueSize => .f valueSize.toNat
  | .bit _ => .f 1
  | .s _ valueSize => .su valueSize.toNat
  | .deltaQ _ => .deltaQ

/-- The value that a call is given. -/
def value : Write → Int
  | .u value _ => value.toNat
  | .bit state => state.toNat
  | .s value _ => value.toInt
  | .deltaQ value => value.toInt

/-- The values that a call is meant for. -/
def Admissible : Write → Prop
  | .u value valueSize => valueSize.toNat ≤ 32 ∧ value.toNat < 2 ^ valueSize.toNat
  | .bit _ => True
  | .s value valueSize => |value.toInt| < 2 ^ valueSize.toNat
  | .deltaQ value => -15 ≤ value.toInt ∧ value.toInt ≤ 15

instance : (w : Write) → Decidable w.Admissible
  | .u _ _ => inferInstanceAs (Decidable (_ ∧ _))
  | .bit _ => inferInstanceAs (Decidable True)
  | .s _ _ => inferInstanceAs (Decidable (_ < _))
  | .deltaQ _ => inferInstanceAs (Decidable (_ ∧ _))

/-- The count of bits of a call. -/
def length : Write → Nat
  | .u _ valueSize => valueSize.toNat
  | .bit _ => 1
  | .s _ valueSize => valueSize.toNat + 1
  | .deltaQ value => if value = 0 then 1 else 5

/-- No shift of a signed value exceeds a word, when so many bits stand before it. -/
def Fits (pos : Nat) : Write → Prop
  | .s _ valueSize => valueSize.toNat + 1 < 32 + (8 - pos % 8)
  | _ => True

end Write

open BitWriter in
/-- The bytes are read back as the values that were given, and the rest of the last byte is zero. -/
def ReadsBack (writes : List Write) : Prop :=
  ∃ bytes tail, compose writes = .ok bytes ∧
    readAll VP9.read (writes.map Write.descriptor) (bytesBits bytes) =
    some (writes.map Write.value, tail) ∧ tail.length < 8 ∧ ∀ x ∈ tail, x = false

/-- No shift of a signed value exceeds a word. -/
def FitAll : Nat → List Write → Prop
  | _, [] => True
  | pos, write :: writes => write.Fits pos ∧ FitAll (pos + write.length) writes

/-- No difference is written other than zero. -/
def NoDelta (writes : List Write) : Prop := ∀ value, .deltaQ value ∈ writes → value = 0

/-- The one difference that is not zero is positive, and behind it come zeros and room in the last
byte. -/
def OnlyZerosAfterDelta (writes : List Write) : Prop :=
  ∃ before delta after, writes = before ++ .deltaQ delta :: after ∧ NoDelta before ∧
    0 < delta.toInt ∧ (∀ write ∈ after, write.value = 0) ∧ (writes.map Write.length).sum % 8 ≠ 0

/-- When the writer writes what the format reads. -/
structure Readable (writes : List Write) : Prop where
  shifts : FitAll 0 writes
  magnitudes : ∀ value valueSize, .s value valueSize ∈ writes → value ≠ BitVec.intMin 32
  differences : NoDelta writes ∨ OnlyZerosAfterDelta writes

end VpxBitStreamWriter

end SumiEmu.VideoCore
