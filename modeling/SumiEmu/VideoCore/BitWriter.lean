/-
# The bit writers of the codecs

`H264BitWriter` and `VpxBitStreamWriter` fill one byte after the other from its highest bit on. They
share the loop that cuts a value at the borders of bytes, and differ in how they shift the value
to the right. A shift by the width of the value or more has no meaning.
-/

import Mathlib.Data.BitVec
import SumiEmu.Foundations.BitStrings
import SumiEmu.Foundations.Fallible

namespace SumiEmu.VideoCore

open BitStrings BitVec Nat List

/-- The members of both writers. -/
structure BitWriter where
  buffer : BitVec 32 := 0
  bufferPos : Nat := 0
  byteArray : List (BitVec 8) := []
  deriving DecidableEq, Repr

namespace BitWriter

/-- How a write may fail. -/
inductive Fault
  | shift
  | endless
  deriving DecidableEq, Repr

/-- `buffer_size`. -/
def bufferSize : Nat := 8

/-- `Flush`. -/
def flush (w : BitWriter) : BitWriter :=
  if w.bufferPos = 0 then w else { byteArray := w.byteArray ++ [w.buffer.setWidth 8] }

/-- `GetFreeBufferBits`. -/
def getFreeBufferBits (w : BitWriter) : Nat × BitWriter :=
  let w := if w.bufferPos = bufferSize then w.flush else w
  (bufferSize - w.bufferPos, w)

section Writing

variable (shiftRight : BitVec 32 → Nat → BitVec 32) (value : BitVec 32)

/-- A round of the loop of `WriteBits`: as many bits as are left go into the buffer, or as many as
are free there. -/
def copyBits (bitCount valuePos remaining : Nat) (w : BitWriter) : Except Fault (Nat × BitWriter) :=
  let (free, w) := w.getFreeBufferBits
  let copySize := if free < remaining then free else remaining
  let mask := (1#32 <<< copySize) - 1
  let srcShift := bitCount - valuePos - copySize
  let dstShift := bufferSize - w.bufferPos - copySize
  if 32 ≤ srcShift then
    .error .shift
  else
    .ok (copySize, { w with
      buffer := w.buffer ||| ((shiftRight value srcShift &&& mask) <<< dstShift)
      bufferPos := w.bufferPos + copySize })

/-- The loop of `WriteBits`, with a bound on its rounds. -/
def writeLoop (bitCount : Nat) : Nat → Nat → Nat → BitWriter → Except Fault BitWriter
  | rounds, valuePos, remaining, w =>
    if remaining = 0 then
      .ok w
    else
      match rounds with
      | 0 => .error .endless
      | rounds + 1 => do
        let (copySize, w) ← copyBits shiftRight value bitCount valuePos remaining w
        writeLoop bitCount rounds (valuePos + copySize) (remaining - copySize) w

/-- `WriteBits`. A count that is negative as a signed number writes nothing. -/
def writeBits (bitCount : BitVec 32) (w : BitWriter) : Except Fault BitWriter :=
  let count := bitCount.toInt.toNat
  writeLoop shiftRight value count count 0 count w

end Writing

/-! ## The string of bits that has been written -/

/-- The bits of a byte in the order of the stream. -/
def byteBits (byte : BitVec 8) : List Bool := bits 8 byte.toNat

/-- The bits of bytes in the order of the stream. -/
def bytesBits (bytes : List (BitVec 8)) : List Bool := bytes.flatMap byteBits

/-- The writer has written a string of bits. -/
structure Holds (w : BitWriter) (xs : List Bool) : Prop where
  pos_le : w.bufferPos ≤ 8
  written : ∃ top < 2 ^ w.bufferPos, w.buffer.toNat = top * 2 ^ (8 - w.bufferPos) ∧
    xs = bytesBits w.byteArray ++ bits w.bufferPos top

variable {w : BitWriter} {xs : List Bool}

theorem holds_new : Holds {} [] := ⟨by decide, 0, by decide, rfl, rfl⟩

theorem length_bytesBits (bytes : List (BitVec 8)) :
    (bytesBits bytes).length = 8 * bytes.length := by
  induction bytes with
  | nil => rfl
  | cons byte bytes ih =>
    rw [bytesBits, flatMap_cons, length_append, byteBits, length_bits, length_cons,
      Nat.mul_succ, Nat.add_comm]
    exact congrArg (· + 8) ih

theorem Holds.length_eq (holds : w.Holds xs) :
    xs.length = 8 * w.byteArray.length + w.bufferPos := by
  obtain ⟨top, _, _, rfl⟩ := holds.written
  rw [length_append, length_bytesBits, length_bits]

/-- What is written is filled up to a byte with zeros. -/
theorem Holds.flush (holds : w.Holds xs) :
    ∃ k < 8, bytesBits w.flush.byteArray = xs ++ List.replicate k false ∧
      w.flush.bufferPos = 0 ∧ w.flush.buffer.toNat = 0 := by
  have fits := holds.pos_le
  obtain ⟨top, small, buffer, rfl⟩ := holds.written
  rw [BitWriter.flush]
  split_ifs with empty
  · rw [empty] at small buffer ⊢
    obtain rfl : top = 0 := by omega
    exact ⟨0, by decide, by rw [bits_zero, List.replicate_zero, List.append_nil,
      append_nil], rfl, by rw [buffer, Nat.zero_mul]⟩
  · refine ⟨8 - w.bufferPos, by omega, ?_, rfl, rfl⟩
    have bound : top * 2 ^ (8 - w.bufferPos) < 2 ^ 8 := by
      have powers : 2 ^ w.bufferPos * 2 ^ (8 - w.bufferPos) = 2 ^ 8 := by
        rw [← Nat.pow_add, Nat.add_sub_cancel' fits]
      rw [← powers]
      exact Nat.mul_lt_mul_of_pos_right small (Nat.two_pow_pos _)
    have byte : byteBits (w.buffer.setWidth 8) =
        bits w.bufferPos top ++ List.replicate (8 - w.bufferPos) false := by
      rw [byteBits, toNat_setWidth, buffer, mod_eq_of_lt bound]
      have zeros : bits (8 - w.bufferPos) (top * 2 ^ (8 - w.bufferPos)) =
          List.replicate (8 - w.bufferPos) false := by
        rw [← bits_mod _ le_rfl, mul_mod_left, bits_of_zero]
      have split := bits_add w.bufferPos (8 - w.bufferPos) (top * 2 ^ (8 - w.bufferPos))
      rwa [Nat.add_sub_cancel' fits, Nat.mul_div_cancel _ (Nat.two_pow_pos _), zeros] at split
    rw [bytesBits, List.flatMap_append, List.flatMap_singleton, byte, ← List.append_assoc]
    rfl

/-- There is room in the buffer, where the bits so far have been flushed when it was full. -/
theorem Holds.getFreeBufferBits (holds : w.Holds xs) :
    ∃ w', w.getFreeBufferBits = (8 - xs.length % 8, w') ∧ w'.Holds xs ∧
      w'.bufferPos = xs.length % 8 := by
  have fits := holds.pos_le
  have length := holds.length_eq
  rw [BitWriter.getFreeBufferBits]
  by_cases full : w.bufferPos = bufferSize
  · have eight : w.bufferPos = 8 := full
    obtain ⟨top, small, buffer, rfl⟩ := holds.written
    obtain ⟨k, short, bytes, position, empty⟩ := holds.flush
    have aligned : k = 0 := by
      have lengths := congrArg List.length bytes
      rw [length_bytesBits, length_append, length, length_replicate, eight] at lengths
      omega
    rw [aligned, List.replicate_zero, List.append_nil] at bytes
    rw [if_pos full, length, eight]
    refine ⟨w.flush, ?_, ⟨by omega, 0, Nat.two_pow_pos _, by rw [empty,
      Nat.zero_mul], ?_⟩, by omega⟩
    · rw [position, bufferSize]
      congr 1
      omega
    · rw [position, bits_zero, append_nil, bytes, eight]
  · have open' : w.bufferPos < 8 := lt_of_le_of_ne fits full
    rw [if_neg full, length]
    refine ⟨w, ?_, holds, by omega⟩
    rw [bufferSize]
    congr 1
    omega

section Writing

variable {shiftRight : BitVec 32 → Nat → BitVec 32} {value : BitVec 32}
  (exact_shift : ∀ s, s < 32 → shiftRight value s = value >>> s)

include exact_shift

/-- The bits of the value that stand next are put behind those written so far. -/
theorem Holds.copyBits (holds : w.Holds xs) {bitCount valuePos remaining : Nat}
    (some : 0 < remaining)
    (rest : valuePos + remaining = bitCount) (narrow : remaining < 32 + (8 - xs.length % 8)) :
    ∃ copySize w',
      BitWriter.copyBits shiftRight value bitCount valuePos remaining w = .ok (copySize, w') ∧
      0 < copySize ∧ copySize ≤ remaining ∧ remaining - copySize < 32 ∧
      w'.Holds (xs ++ bits copySize (value.toNat / 2 ^ (remaining - copySize))) := by
  obtain ⟨w', free, holds', position⟩ := holds.getFreeBufferBits
  have below : w'.bufferPos < 8 := position ▸ mod_lt _ (by decide)
  obtain ⟨top, small, buffer, rfl⟩ := holds'.written
  rw [BitWriter.copyBits, free]
  generalize (bytesBits w'.byteArray ++ bits w'.bufferPos top).length % 8 = pos at narrow position ⊢
  subst position
  obtain ⟨copySize, size⟩ : ∃ copySize, copySize = min (8 - w'.bufferPos) remaining := ⟨_, rfl⟩
  have chosen : (if 8 - w'.bufferPos < remaining then 8 - w'.bufferPos else remaining) =
      copySize := by
    rw [size]
    split_ifs <;> omega
  have here : bitCount - valuePos - copySize = remaining - copySize := by omega
  have within : ¬ 32 ≤ remaining - copySize := by omega
  simp only [chosen, here, if_neg within, bufferSize]
  refine ⟨copySize, _, rfl, by omega, by omega, not_le.1 within, ⟨?_, ?_⟩⟩
  · show w'.bufferPos + copySize ≤ 8
    omega
  -- The chunk fills the highest free bits of the buffer.
  have mask : ((1#32 <<< copySize) - 1).toNat = 2 ^ copySize - 1 := by
    have eight : copySize ≤ 8 := by omega
    have power : (1#32 <<< copySize).toNat = 2 ^ copySize := by
      rw [toNat_shiftLeft, Nat.shiftLeft_eq, show (1#32).toNat = 1 from rfl, Nat.one_mul,
        Nat.mod_eq_of_lt (Nat.pow_lt_pow_right (by decide) (by omega))]
    rw [toNat_sub_of_le, power]
    · rfl
    · rw [le_def, power]
      exact Nat.two_pow_pos _
  obtain ⟨chunk, chunk_eq⟩ : ∃ chunk, chunk =
    value.toNat / 2 ^ (remaining - copySize) % 2 ^ copySize := ⟨_, rfl⟩
  have chunk_lt : chunk < 2 ^ copySize := chunk_eq ▸ Nat.mod_lt _ (Nat.two_pow_pos _)
  have masked : (shiftRight value (remaining - copySize) &&& ((1#32 <<< copySize) - 1)).toNat =
      chunk := by
    rw [exact_shift _ (not_le.1 within), toNat_and, mask, and_two_pow_sub_one_eq_mod,
      toNat_ushiftRight, shiftRight_eq_div_pow, chunk_eq]
  obtain ⟨left, left_eq⟩ : ∃ left, left = 8 - w'.bufferPos - copySize := ⟨_, rfl⟩
  have powers : 2 ^ copySize * 2 ^ left = 2 ^ (8 - w'.bufferPos) := by
    rw [← pow_add]
    congr 1
    omega
  have placed : chunk * 2 ^ left < 2 ^ (8 - w'.bufferPos) := by
    rw [← powers]
    exact Nat.mul_lt_mul_of_pos_right chunk_lt (Nat.two_pow_pos _)
  have room : 2 ^ (8 - w'.bufferPos) ≤ 2 ^ 8 := Nat.pow_le_pow_right (by decide) (Nat.sub_le _ _)
  refine ⟨top * 2 ^ copySize + chunk, ?_, ?_, ?_⟩
  · show top * 2 ^ copySize + chunk < 2 ^ (w'.bufferPos + copySize)
    calc top * 2 ^ copySize + chunk < top * 2 ^ copySize + 2 ^ copySize :=
        Nat.add_lt_add_left chunk_lt _
      _ = (top + 1) * 2 ^ copySize := (succ_mul _ _).symm
      _ ≤ 2 ^ w'.bufferPos * 2 ^ copySize := mul_le_mul_right _ small
      _ = 2 ^ (w'.bufferPos + copySize) := (pow_add 2 _ _).symm
  · show (w'.buffer ||| ((shiftRight value (remaining - copySize) &&& ((1#32 <<< copySize) - 1)) <<<
      (8 - w'.bufferPos - copySize))).toNat = _ * 2 ^ (8 - (w'.bufferPos + copySize))
    rw [toNat_or, toNat_shiftLeft, masked, Nat.shiftLeft_eq, ← left_eq, buffer,
      mod_eq_of_lt (lt_of_lt_of_le placed (room.trans (by decide))), mul_comm top,
      ← Nat.two_pow_add_eq_or_of_lt placed, ← Nat.sub_sub, ← left_eq, ← powers]
    ring
  · show _ = bytesBits w'.byteArray ++ bits (w'.bufferPos + copySize) (top * 2 ^ copySize + chunk)
    have first : (top * 2 ^ copySize + chunk) / 2 ^ copySize = top := by
      rw [Nat.mul_comm, Nat.mul_add_div (Nat.two_pow_pos _), Nat.div_eq_of_lt chunk_lt,
        Nat.add_zero]
    have last : bits copySize (top * 2 ^ copySize + chunk) =
        bits copySize (value.toNat / 2 ^ (remaining - copySize)) := by
      rw [← bits_mod _ le_rfl, mul_add_mod_self_right, chunk_eq, mod_mod, bits_mod _ le_rfl]
    rw [bits_add, first, last, List.append_assoc]

theorem Holds.writeLoop (holds : w.Holds xs) {bitCount rounds valuePos remaining : Nat}
    (rest : valuePos + remaining = bitCount) (enough : remaining ≤ rounds)
    (narrow : remaining < 32 + (8 - xs.length % 8)) :
    ∃ w', BitWriter.writeLoop shiftRight value bitCount rounds valuePos remaining w = .ok w' ∧
      w'.Holds (xs ++ bits remaining value.toNat) := by
  induction rounds generalizing valuePos remaining w xs with
  | zero =>
    obtain rfl := le_zero.1 enough
    exact ⟨w, rfl, by rwa [bits_zero, append_nil]⟩
  | succ rounds ih =>
    rw [BitWriter.writeLoop]
    rcases Nat.eq_zero_or_pos remaining with rfl | some
    · exact ⟨w, if_pos rfl, by rwa [bits_zero, append_nil]⟩
    · rw [if_neg (ne_of_gt some)]
      obtain ⟨copySize, between, copied, positive, within, short, holds⟩ :=
        holds.copyBits exact_shift some rest narrow
      obtain ⟨w', ran, holds⟩ := ih holds
        (show valuePos + copySize + (remaining - copySize) = bitCount by omega) (by omega)
        (by omega)
      refine ⟨w', ?_, ?_⟩
      · simp only [copied, Fallible.ok_bind]
        exact ran
      · rwa [List.append_assoc, ← bits_add, Nat.add_sub_cancel' within] at holds

/-- A value is written as its bits, where no shift exceeds the width of the value. -/
theorem Holds.writeBits (holds : w.Holds xs) {bitCount : BitVec 32}
    (narrow : bitCount.toNat < 32 + (8 - xs.length % 8)) :
    ∃ w', BitWriter.writeBits shiftRight value bitCount w = .ok w' ∧
      w'.Holds (xs ++ bits bitCount.toNat value.toNat) := by
  have count : bitCount.toInt.toNat = bitCount.toNat := by
    rw [toInt_eq_toNat_of_lt (by omega), Int.toNat_natCast]
  rw [BitWriter.writeBits, count]
  exact holds.writeLoop exact_shift (zero_add _) le_rfl narrow

omit exact_shift in
/-- A count that is too large for the shift of its first bits has no meaning. -/
theorem Holds.writeBits_error (holds : w.Holds xs) {bitCount : BitVec 32}
    (wide : 32 + (8 - xs.length % 8) ≤ bitCount.toInt.toNat) :
    BitWriter.writeBits shiftRight value bitCount w = .error .shift := by
  obtain ⟨count, count_eq⟩ : ∃ count, bitCount.toInt.toNat = count := ⟨_, rfl⟩
  rw [count_eq] at wide
  obtain ⟨rounds, rfl⟩ : ∃ rounds, count = rounds + 1 := ⟨count - 1, by omega⟩
  obtain ⟨w', free, _, _⟩ := holds.getFreeBufferBits
  have first : BitWriter.copyBits shiftRight value (rounds + 1) 0 (rounds + 1) w =
      .error .shift := by
    rw [BitWriter.copyBits, free]
    have all : 8 - xs.length % 8 < rounds + 1 := by omega
    have far : 32 ≤ rounds + 1 - 0 - (8 - xs.length % 8) := by omega
    simp only [if_pos all, if_pos far]
  rw [BitWriter.writeBits, count_eq]
  rw [BitWriter.writeLoop, if_neg (succ_ne_zero rounds)]
  simp only [first, Fallible.error_bind]

end Writing

end BitWriter

end SumiEmu.VideoCore
