/-
# The compressed sections of kernel processes

A section is decompressed in place and backwards. The last twelve bytes give the sizes; a control
byte says for each of its bits whether a byte follows that stands for itself or a reference to bytes
that are decompressed already. The indices are 64-bit numbers, the sizes 32-bit ones, and nothing
keeps either from wrapping. An index outside of the vector is a fault here, and so is a size that no
vector can have.
-/

import SumiEmu.Foundations.Fallible
import SumiEmu.FileSys.VirtualFile

namespace SumiEmu.FileSys

open Fallible

/-- How the decompression may fail. -/
inductive BlzFault
  | outOfRange
  | lengthError
  | unfinished
  deriving DecidableEq

/-- Where the loops are: at the head of the outer one, or at a bit of a control byte. -/
inductive BlzPoint
  | control
  | bit (control : Byte) (i : Nat)
  deriving DecidableEq

/-- The variables of the loop. -/
structure Blz where
  data : List Byte
  startOffset : Size
  index : Size
  outIndex : Size
  point : BlzPoint
  deriving DecidableEq

namespace Blz

variable (data : List Byte)

/-- A checked access. -/
def at? (i : Nat) : Except BlzFault Byte :=
  match data[i]? with
  | none => .error .outOfRange
  | some byte => .ok byte

/-- A checked write. -/
def set? (i : Nat) (byte : Byte) : Except BlzFault (List Byte) :=
  if i < data.length then .ok (data.set i byte) else .error .outOfRange

/-- A little-endian `u32`. -/
def readU32 (i : Nat) : Except BlzFault (BitVec 32) := do
  let b0 ← at? data i
  let b1 ← at? data (i + 1)
  let b2 ← at? data (i + 2)
  let b3 ← at? data (i + 3)
  return b3 ++ b2 ++ b1 ++ b0

/-- `resize` of a vector. -/
def resize (size : Nat) : Except BlzFault (List Byte) :=
  if 2 ^ 63 ≤ size then .error .lengthError
  else .ok (data.take size ++ List.replicate (size - data.length) 0)

/-- What comes before the loop, for a vector that has room for the sizes. -/
def start : Except BlzFault Blz := do
  let dataSize := data.length - 0xC
  let compressedSize ← readU32 data dataSize
  let initIndex ← readU32 data (dataSize + 0x4)
  let additionalSize ← readU32 data (dataSize + 0x8)
  let startOffset : Size := BitVec.ofNat 64 data.length - compressedSize.setWidth 64
  let data ← resize data ((compressedSize + additionalSize).setWidth 64 + startOffset).toNat
  return {
    data
    startOffset
    index := (compressedSize - initIndex).setWidth 64
    outIndex := (compressedSize + additionalSize).setWidth 64
    point := .control }

/-- The loop over the bytes of a reference, and whether they are all there. -/
def copySegment (startOffset outIndex segmentOffset : Size) :
    Nat → Size → List Byte → Except BlzFault (Bool × List Byte)
  | 0, _, data => .ok (true, data)
  | count + 1, j, data =>
    if data.length ≤ (outIndex + j + segmentOffset + startOffset).toNat then .ok (false, data)
    else do
      let byte ← at? data (outIndex + j + segmentOffset + startOffset).toNat
      let data ← set? data (outIndex + j + startOffset).toNat byte
      copySegment startOffset outIndex segmentOffset count (j + 1) data

/-- The loops go on, or the call returns. -/
abbrev Outcome := Except BlzFault (Blz ⊕ Bool × List Byte)

/-- The end of the inner loop's body. -/
def next (s : Blz) (control : Byte) (i : Nat) : Outcome :=
  .ok (.inl { s with point := if s.outIndex = 0 then .control else .bit control (i + 1) })

def segmentSize (segment : BitVec 16) (outIndex : Size) : Size :=
  let size := ((segment >>> 12) &&& 0xF).setWidth 64 + 3
  if outIndex < size then outIndex else size

/-- The distance of a back reference. -/
def segmentOffset (segment : BitVec 16) : Size := (segment &&& 0xFFF).setWidth 64 + 3

/-- A back reference. -/
def reference (s : Blz) (control : Byte) (i : Nat) : Outcome :=
  if s.index < 2 then .ok (.inr (false, s.data))
  else do
    let index := s.index - 2
    let low ← at? s.data (index + s.startOffset).toNat
    let high ← at? s.data (index + s.startOffset + 1).toNat
    let segment := high ++ low
    let size := segmentSize segment s.outIndex
    -- The size has just been brought down to what is left, so that the check behind it never fails.
    let outIndex := s.outIndex - size
    let (complete, data) ← copySegment s.startOffset outIndex (segmentOffset segment) size.toNat 0
      s.data
    if complete then next { s with data, index, outIndex } control i else .ok (.inr (false, data))

/-- A byte that is copied. -/
def literal (s : Blz) (control : Byte) (i : Nat) : Outcome :=
  if s.outIndex < 1 then .ok (.inr (false, s.data))
  else do
    let outIndex := s.outIndex - 1
    let index := s.index - 1
    let byte ← at? s.data (index + s.startOffset).toNat
    let data ← set? s.data (outIndex + s.startOffset).toNat byte
    next { s with data, index, outIndex } control i

/-- The bit of the control byte is set. -/
def IsReference (control : Byte) (i : Nat) : Prop := (control <<< i) &&& 0x80 ≠ 0

instance (control : Byte) (i : Nat) : Decidable (IsReference control i) :=
  inferInstanceAs (Decidable (_ ≠ _))

/-- One step of the loop. -/
def step (s : Blz) : Outcome :=
  match s.point with
  | .control =>
    if s.outIndex = 0 then .ok (.inr (true, s.data))
    else do
      let index := s.index - 1
      let control ← at? s.data (index + s.startOffset).toNat
      .ok (.inl { s with index, point := .bit control 0 })
  | .bit control i =>
    if i < 8 then
      if IsReference control i then s.reference control i else s.literal control i
    else .ok (.inl { s with point := .control })

/-- The loop, for some steps. -/
def run : Nat → Blz → Except BlzFault (Bool × List Byte)
  | 0, _ => .error .unfinished
  | rounds + 1, s =>
    match s.step with
    | .error fault => .error fault
    | .ok (.inl s) => run rounds s
    | .ok (.inr result) => .ok result

/-- More than the loops have left to do. -/
def roundsLeft (s : Blz) : Nat :=
  match s.point with
  | .control => 3 * s.outIndex.toNat + 1
  | .bit _ i => 3 * s.outIndex.toNat + if i < 8 then 0 else 2

end Blz

/-- Whether the vector is decompressed, and what it is then. -/
def decompressBLZ (data : List Byte) : Except BlzFault (Bool × List Byte) :=
  if data.length < 0xC then .ok (false, data)
  else do
    let s ← Blz.start data
    s.run (s.roundsLeft + 1)

end SumiEmu.FileSys
