/-
# Files and memory

A file has a size and a byte at every offset below it. Reading brings the bytes of a range to a
memory, as far as the file has them, and leaves the rest of the memory as it is.
-/

import SumiEmu.Foundations.Numerals
import SumiEmu.Foundations.Scatter

namespace SumiEmu.FileSys

/-- A byte. -/
abbrev Byte : Type := BitVec 8

/-- Sizes and offsets as 64-bit numbers, signed ones and others. -/
abbrev Size : Type := BitVec 64

/-- A memory, by address. -/
abbrev Memory : Type := Nat → Byte

/-- A memory of zeros. -/
def zeros : Memory := fun _ => 0

/-- A file that can be read. -/
structure VirtualFile where
  size : Nat
  byte : Nat → Byte

namespace VirtualFile

/-- Reading fills the memory up to the end of the file. -/
def read (file : VirtualFile) (memory : Memory) (size offset : Nat) : Memory :=
  fun i => if i < size ∧ offset + i < file.size then file.byte (offset + i) else memory i

/-- Reading to a position of a buffer. -/
def readTo (file : VirtualFile) (buffer : Memory) (position size offset : Nat) : Memory :=
  fun i =>
    if position ≤ i then file.read (fun j => buffer (position + j)) size offset (i - position)
      else buffer i

/-- The number of bytes that reading brings, which is what it returns. -/
def available (file : VirtualFile) (size offset : Nat) : Nat := min size (file.size - offset)

variable {file : VirtualFile} {memory buffer : Memory} {position size offset : Nat}

theorem read_eq_writeBlock : file.read memory size offset =
    Scatter.writeBlock memory 0 (file.available size offset) fun j => file.byte (offset + j) := by
  funext i
  have inside : (i < size ∧ offset + i < file.size) ↔
      (0 ≤ i ∧ i < 0 + file.available size offset) := by
    rw [available]
    omega
  rw [read, Scatter.writeBlock, if_congr inside rfl rfl, Nat.sub_zero]

theorem readTo_eq_writeBlock : file.readTo buffer position size offset =
    Scatter.writeBlock buffer position (file.available size offset)
      fun j => file.byte (offset + j) := by
  funext i
  rw [readTo, read_eq_writeBlock]
  by_cases before : position ≤ i
  · rw [if_pos before, Scatter.writeBlock, Scatter.writeBlock, Nat.sub_zero,
      Nat.add_sub_of_le before]
    have inside : (0 ≤ i - position ∧ i - position < 0 + file.available size offset) ↔
        (position ≤ i ∧ i < position + file.available size offset) := by
      omega
    rw [if_congr inside rfl rfl]
  · rw [if_neg before, Scatter.writeBlock, if_neg fun inside => before inside.1]

/-- The whole range is there. -/
theorem available_eq (inside : offset + size ≤ file.size) : file.available size offset = size := by
  rw [available]
  omega

end VirtualFile

/-- What a file is asked for. -/
structure Request where
  offset : Nat
  size : Nat

/-- A file that is a vector of bytes. -/
structure VfsFile where
  name : String
  content : List Byte

/-! ## Numbers as bytes -/

/-- A number as bytes, the high one first. -/
def bigEndianBytes : Nat → BitVec 64 → List Byte
  | 0, _ => []
  | count + 1, value => bigEndianBytes count (value >>> 8) ++ [value.setWidth 8]

theorem value_bigEndianBytes (count : Nat) (value : BitVec 64) :
    BigEndian.value 256 ((bigEndianBytes count value).map BitVec.toNat) =
      value.toNat % 256 ^ count := by
  induction count generalizing value with
  | zero => exact (Nat.mod_one _).symm
  | succ count ih =>
    rw [bigEndianBytes, List.map_append, List.map_singleton, BigEndian.value_concat, ih,
      Nat.pow_succ', Nat.mod_mul, BitVec.toNat_ushiftRight, Nat.shiftRight_eq_div_pow,
      BitVec.toNat_setWidth, Nat.mul_comm, Nat.add_comm]

theorem length_bigEndianBytes (count : Nat) (value : BitVec 64) :
    (bigEndianBytes count value).length = count := by
  induction count generalizing value with
  | zero => rfl
  | succ count ih => rw [bigEndianBytes, List.length_append, ih, List.length_singleton]

end SumiEmu.FileSys
