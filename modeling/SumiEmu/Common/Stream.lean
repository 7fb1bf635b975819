/-
# Byte streams

A stream is a buffer with a position. Reading moves the position on. Writing appends at the
end; anywhere else the byte is inserted in front of the one at the position, and the position
stays. A position is only moved by seeking while it is not at the end.
-/

import SumiEmu.Foundations.Fallible

namespace SumiEmu.Common

/-- `SeekOrigin`. -/
inductive SeekOrigin where
  | setOrigin
  | fromCurrentPos
  | fromEnd
  deriving DecidableEq

/-- How a use of the stream may fail. -/
inductive StreamFault where
  /-- Attempting to read a byte not within the buffer range. -/
  | outOfRange
  /-- A loop over the stream has not come to its end. -/
  | endless
  deriving DecidableEq

/-- `Stream`. -/
structure Stream where
  buffer : List (BitVec 8) := []
  position : Nat := 0
  deriving DecidableEq

namespace Stream

variable (s : Stream)

/-- `Seek` from the origin. -/
def seekSetOrigin (offset : Int) : Stream :=
  if offset < 0 then { s with position := 0 }
  else if s.buffer.length ≤ s.position then { s with position := s.buffer.length }
  else { s with position := offset.toNat }

/-- Positions stay below `2 ^ 31`, where the casts to `s32` change nothing. -/
def seek (offset : Int) : SeekOrigin → Stream
  | .setOrigin => s.seekSetOrigin offset
  | .fromCurrentPos => s.seekSetOrigin (s.position + offset)
  | .fromEnd => s.seekSetOrigin (s.buffer.length - offset)

/-- `ReadByte`. -/
def readByte : Except StreamFault (BitVec 8 × Stream) :=
  match s.buffer[s.position]? with
  | some byte => .ok (byte, { s with position := s.position + 1 })
  | none => .error .outOfRange

/-- `WriteByte`. -/
def writeByte (byte : BitVec 8) : Stream :=
  if s.position = s.buffer.length then ⟨s.buffer ++ [byte], s.position + 1⟩
  else { s with buffer := s.buffer.insertIdx s.position byte }

/-- At the end of the stream. -/
def AtEnd (s : Stream) : Prop := s.position = s.buffer.length

variable {s}

theorem AtEnd.writeByte (atEnd : AtEnd s) (byte : BitVec 8) :
    AtEnd (s.writeByte byte) ∧ (s.writeByte byte).buffer = s.buffer ++ [byte] := by
  rw [Stream.writeByte, if_pos (show s.position = s.buffer.length from atEnd)]
  exact ⟨by rw [AtEnd, List.length_append, List.length_singleton, atEnd], rfl⟩

/-- From the end a step back leads nowhere. -/
theorem AtEnd.seek_back (atEnd : AtEnd s) : s.seek (-1) .fromCurrentPos = s := by
  rw [seek, seekSetOrigin]
  split
  case isTrue before =>
    have first : s.position = 0 := by omega
    exact congrArg (Stream.mk s.buffer) first.symm
  case isFalse =>
    rw [if_pos (Nat.le_of_eq (Eq.symm atEnd))]
    exact congrArg (Stream.mk s.buffer) (Eq.symm atEnd)

theorem AtEnd.readByte (atEnd : AtEnd s) : s.readByte = .error .outOfRange := by
  rw [Stream.readByte, List.getElem?_eq_none (Nat.le_of_eq (Eq.symm atEnd))]

end Stream

end SumiEmu.Common
