/-
# A window of a file

A file that stands for a part of another one. Every call goes to the backing file, with the window's
offset added and with the length trimmed to what is left of the window. Both are computed with
64-bit numbers, and the trimming subtracts the offset of the request from the size of the window
whether it lies in the window or not. Only the calls for one byte look at that first.

A vector for the bytes is made before they are read. It is an error if there is no memory for it, or
if no vector can be so long.
-/

import SumiEmu.Foundations.Fallible
import SumiEmu.FileSys.VirtualFile

namespace SumiEmu.FileSys

open Fallible Nat

/-- The bytes of a file that a call moves. Their number is what the call returns. -/
structure Access where
  place : Nat
  count : Nat

/-- A file that can be written. Of the bytes that are to be written it takes as many as it will. -/
structure BackingFile extends VirtualFile where
  takes : (length offset : Nat) → Nat
  takes_le (length offset : Nat) : takes length offset ≤ length

/-- What is thrown when a vector is made. -/
inductive VectorFault
  | lengthError
  | badAlloc
  deriving DecidableEq

/-- `std::vector<u8>(size)`, where it is given which sizes there is memory for. -/
def newVector (allocates : Nat → Bool) (size : Nat) : Except VectorFault Unit :=
  if 2 ^ 63 ≤ size then .error .lengthError else if allocates size then .ok () else .error .badAlloc

theorem newVector_eq_ok {allocates : Nat → Bool} {size : Nat} :
    newVector allocates size = .ok () ↔ size < 2 ^ 63 ∧ allocates size = true := by
  rw [newVector]
  split_ifs with long given
  · exact iff_of_false (by simp) fun fits => absurd fits.1 (not_lt.2 long)
  · exact iff_of_true rfl ⟨not_le.1 long, given⟩
  · exact iff_of_false (by simp) fun fits => given fits.2

namespace BackingFile

variable (file : BackingFile)

/-- `Read` of the file below. -/
def read (data : Memory) (length offset : Nat) : Access × Memory :=
  (⟨offset, file.available length offset⟩, file.toVirtualFile.read data length offset)

/-- The bytes of the file after it is written. -/
def write (data : Memory) (length offset : Nat) : Access × Memory :=
  (⟨offset, file.takes length offset⟩,
    Scatter.writeBlock file.byte offset (file.takes length offset) data)

/-- `ReadByte` of the file below. -/
def readByte (offset : Nat) : Access × Option Byte :=
  let (size, out) := file.read zeros 1 offset
  (size, if size.count = 1 then some (out 0) else none)

/-- What `ReadBytes` reads into its vector. -/
def readVector (size offset : Nat) : Access × List Byte :=
  let (readSize, out) := file.read zeros size offset
  (readSize, (List.range readSize.count).map out)

/-- `ReadBytes` of the file below. -/
def readBytes (allocates : Nat → Bool) (size offset : Nat) :
    Except VectorFault (Access × List Byte) := do
  newVector allocates size
  return file.readVector size offset

/-- `WriteByte` of the file below. -/
def writeByte (data : Byte) (offset : Nat) : Access × Bool × Memory :=
  let (size, bytes) := file.write (fun _ => data) 1 offset
  (size, size.count = 1, bytes)

end BackingFile

/-- `OffsetVfsFile`. -/
structure OffsetVfsFile where
  file : BackingFile
  offset : Size
  size : Size

namespace OffsetVfsFile

variable (f : OffsetVfsFile)

/-- `std::clamp`. -/
def clamp (value lo hi : Size) : Size := if value < lo then lo else if hi < value then hi else value

/-- `TrimToFit`. -/
def trimToFit (rSize rOffset : Size) : Size := clamp rSize 0 (f.size - rOffset)

/-- `Read`. -/
def read (data : Memory) (length rOffset : Size) : Access × Memory :=
  f.file.read data (f.trimToFit length rOffset).toNat (f.offset + rOffset).toNat

/-- `Write`. -/
def write (data : Memory) (length rOffset : Size) : Access × Memory :=
  f.file.write data (f.trimToFit length rOffset).toNat (f.offset + rOffset).toNat

/-- A call that does not reach the backing file moves nothing. -/
def nothing : Access := ⟨0, 0⟩

/-- `ReadByte`. -/
def readByte (rOffset : Size) : Access × Option Byte :=
  if f.size ≤ rOffset then (nothing, none) else f.file.readByte (f.offset + rOffset).toNat

/-- What `ReadBytes` reads when there is memory for the vector. -/
def readVector (rSize rOffset : Size) : Access × List Byte :=
  f.file.readVector (f.trimToFit rSize rOffset).toNat (f.offset + rOffset).toNat

/-- `ReadBytes`. -/
def readBytes (allocates : Nat → Bool) (rSize rOffset : Size) :
    Except VectorFault (Access × List Byte) :=
  f.file.readBytes allocates (f.trimToFit rSize rOffset).toNat (f.offset + rOffset).toNat

/-- `WriteByte`. -/
def writeByte (data : Byte) (rOffset : Size) : Access × Bool × Memory :=
  if rOffset < f.size then f.file.writeByte data (f.offset + rOffset).toNat
  else (nothing, false, f.file.byte)

/-- The bytes to be written are those of a vector. -/
def writeBytes (data : Memory) (dataSize rOffset : Size) : Access × Memory :=
  f.file.write data (f.trimToFit dataSize rOffset).toNat (f.offset + rOffset).toNat

/-- A call of the window. -/
inductive Call
  | read (data : Memory) (length rOffset : Size)
  | write (data : Memory) (length rOffset : Size)
  | readByte (rOffset : Size)
  | readBytes (allocates : Nat → Bool) (rSize rOffset : Size)
  | writeByte (data : Byte) (rOffset : Size)
  | writeBytes (data : Memory) (dataSize rOffset : Size)

/-! ## Calls that stay in the window -/

/-- How much of a request lies in the window. -/
def fit (length rOffset : Size) : Nat := min length.toNat (f.size.toNat - rOffset.toNat)

/-- The byte of the backing file that stands at a place of the request. -/
def requested (rOffset : Size) (i : Nat) : Byte := f.file.byte (f.offset.toNat + rOffset.toNat + i)

/-- As many bytes are moved as lie in the window. Each is at its place, and inside the window. -/
structure Keeps (access : Access) (length rOffset : Size) : Prop where
  count : access.count = f.fit length rOffset
  place : ∀ i < access.count, access.place + i = f.offset.toNat + rOffset.toNat + i
  inside : ∀ i < access.count, f.offset.toNat ≤ access.place + i ∧
    access.place + i < f.offset.toNat + f.size.toNat

/-- The bytes of the backing file after a request is written. -/
def written (data : Memory) (length rOffset : Size) : Memory :=
  Scatter.writeBlock f.file.byte (f.offset.toNat + rOffset.toNat) (f.fit length rOffset) data

/-- A call keeps to the window, and gives or writes the bytes that are requested. -/
def Confined : Call → Prop
  | .read data length rOffset =>
    f.Keeps (f.read data length rOffset).1 length rOffset ∧
      (f.read data length rOffset).2 =
        Scatter.writeBlock data 0 (f.fit length rOffset) (f.requested rOffset)
  | .write data length rOffset =>
    f.Keeps (f.write data length rOffset).1 length rOffset ∧
      (f.write data length rOffset).2 = f.written data length rOffset
  | .readByte rOffset =>
    f.Keeps (f.readByte rOffset).1 1 rOffset ∧
      (f.readByte rOffset).2 = if rOffset < f.size then some (f.requested rOffset 0) else none
  | .readBytes allocates rSize rOffset =>
    ∃ access, f.Keeps access rSize rOffset ∧ f.readBytes allocates rSize rOffset =
      .ok (access, (List.range (f.fit rSize rOffset)).map (f.requested rOffset))
  | .writeByte data rOffset =>
    f.Keeps (f.writeByte data rOffset).1 1 rOffset ∧
      (f.writeByte data rOffset).2 =
      (decide (rOffset < f.size), f.written (fun _ => data) 1 rOffset)
  | .writeBytes data dataSize rOffset =>
    f.Keeps (f.writeBytes data dataSize rOffset).1 dataSize rOffset ∧
      (f.writeBytes data dataSize rOffset).2 = f.written data dataSize rOffset

/-- How much the backing file is asked for. Behind the window it is what lies between the two as a
64-bit difference. -/
def asked (length rOffset : Size) : Nat :=
  if f.size.toNat < rOffset.toNat then min length.toNat (2 ^ 64 - (rOffset.toNat - f.size.toNat))
  else f.fit length rOffset

/-- The backing file has, or takes, all the bytes of the window that are asked for. A request behind
the window is harmless where the backing file moves nothing at the place that it ends up at. If the
place of a request in the window is no 64-bit number, nothing of the window may be asked for. -/
def Served (moves : Nat → Nat → Nat) (length rOffset : Size) : Prop :=
  if f.size.toNat < rOffset.toNat then
    moves (f.asked length rOffset) ((f.offset.toNat + rOffset.toNat) % 2 ^ 64) = 0
  else if 2 ^ 64 ≤ f.offset.toNat + rOffset.toNat then f.fit length rOffset = 0
  else moves (f.fit length rOffset) (f.offset.toNat + rOffset.toNat) = f.fit length rOffset

/-- The calls for one byte are not made behind the window, and a vector has to be had for what is
asked for. -/
def Heeds : Call → Prop
  | .read _ length rOffset => f.Served f.file.available length rOffset
  | .write _ length rOffset => f.Served f.file.takes length rOffset
  | .readByte rOffset => rOffset < f.size → f.Served f.file.available 1 rOffset
  | .readBytes allocates rSize rOffset => f.asked rSize rOffset < 2 ^ 63 ∧
    allocates (f.asked rSize rOffset) = true ∧ f.Served f.file.available rSize rOffset
  | .writeByte _ rOffset => rOffset < f.size → f.Served f.file.takes 1 rOffset
  | .writeBytes _ dataSize rOffset => f.Served f.file.takes dataSize rOffset

variable {f} {length rOffset : Size} {access : Access}

theorem trimToFit_eq_min : (f.trimToFit length rOffset).toNat =
    min length.toNat (f.size - rOffset).toNat := by
  have least : ¬ length < 0 := BitVec.not_lt_zero
  rw [trimToFit, clamp, if_neg least]
  simp only [BitVec.lt_def]
  split <;> omega

theorem trimToFit_toNat (near : rOffset.toNat ≤ f.size.toNat) :
    (f.trimToFit length rOffset).toNat = f.fit length rOffset := by
  rw [trimToFit_eq_min, BitVec.toNat_sub_of_le near, fit]

/-- Behind the window, the difference that a length is trimmed to is next to the largest one. -/
theorem trimToFit_eq_asked : (f.trimToFit length rOffset).toNat = f.asked length rOffset := by
  rw [asked]
  split
  · have small := rOffset.isLt
    rw [trimToFit_eq_min, BitVec.toNat_sub, mod_eq_of_lt (by omega)]
    omega
  · exact trimToFit_toNat (by omega)

/-- For a byte in the window nothing is trimmed. -/
theorem trimToFit_one (inside : rOffset < f.size) : (f.trimToFit 1 rOffset).toNat = 1 := by
  have below : rOffset.toNat < f.size.toNat := inside
  rw [trimToFit_toNat (le_of_lt below), fit]
  exact Nat.min_eq_left (Nat.le_sub_of_add_le' below)

theorem fit_one : f.fit 1 rOffset = if rOffset < f.size then 1 else 0 := by
  have one : (1 : Size).toNat = 1 := rfl
  simp only [fit, one, BitVec.lt_def]
  split <;> omega

theorem keeps_of_count_zero {place : Nat} (due : f.fit length rOffset = 0) :
    f.Keeps ⟨place, 0⟩ length rOffset :=
  ⟨due.symm, fun i below => absurd below (not_lt_zero i),
    fun i below => absurd below (not_lt_zero i)⟩

/-- The bytes that a request moves are the right ones exactly if it is served. -/
theorem keeps_iff {moves : Nat → Nat → Nat}
    (moves_le : ∀ length offset, moves length offset ≤ length) :
    f.Keeps ⟨(f.offset + rOffset).toNat,
      moves (f.trimToFit length rOffset).toNat (f.offset + rOffset).toNat⟩ length rOffset ↔
      f.Served moves length rOffset := by
  rw [Served]
  by_cases behind : f.size.toNat < rOffset.toNat
  · have due : f.fit length rOffset = 0 := by rw [fit]; omega
    rw [if_pos behind, ← trimToFit_eq_asked, ← BitVec.toNat_add]
    constructor
    · intro keeps
      exact keeps.count.trans due
    · intro none
      rw [none]
      exact keeps_of_count_zero due
  · have near : rOffset.toNat ≤ f.size.toNat := not_lt.1 behind
    rw [if_neg behind, trimToFit_toNat near]
    split
    · rename_i wraps
      constructor
      · -- The first byte would have to be at a place that is no 64-bit number.
        intro keeps
        by_contra due
        have some := keeps.count.symm ▸ pos_of_ne_zero due
        have place := keeps.place 0 some
        have small := (f.offset + rOffset).isLt
        dsimp only at place
        omega
      · intro due
        rw [due, le_zero.1 (moves_le 0 _)]
        exact keeps_of_count_zero due
    · rename_i small
      rw [BitVec.toNat_add_of_lt (not_le.1 small)]
      refine ⟨fun keeps => keeps.count, fun served => ⟨served, fun _ _ => rfl, fun i below => ?_⟩⟩
      dsimp only at below ⊢
      rw [served, fit] at below
      omega

/-- Where nothing is moved behind the window, nothing is due there. -/
theorem keeps_nothing (behind : f.size ≤ rOffset) : f.Keeps nothing 1 rOffset :=
  keeps_of_count_zero (by rw [fit_one, if_neg (BitVec.not_lt.2 behind)])

theorem available_le (length offset : Nat) : f.file.available length offset ≤ length :=
  min_le_left _ _

theorem Keeps.read_eq (keeps : f.Keeps access length rOffset) (data : Memory) :
    Scatter.writeBlock data 0 access.count (fun i => f.file.byte (access.place + i)) =
      Scatter.writeBlock data 0 (f.fit length rOffset) (f.requested rOffset) := by
  rw [← keeps.count]
  refine Scatter.writeBlock_congr fun i below => ?_
  rw [keeps.place i below, requested]

theorem Keeps.written_eq (keeps : f.Keeps access length rOffset) (data : Memory) :
    Scatter.writeBlock f.file.byte access.place access.count data =
      f.written data length rOffset := by
  rw [written, ← keeps.count]
  rcases Nat.eq_zero_or_pos access.count with none | some
  · rw [none, Scatter.writeBlock_zero, Scatter.writeBlock_zero]
  · rw [add_right_cancel (keeps.place 0 some)]

/-- The bytes of a block that has been read. -/
theorem map_writeBlock (memory cells : Nat → Byte) (count : Nat) :
    (List.range count).map (Scatter.writeBlock memory 0 count cells) =
    (List.range count).map cells := by
  refine List.map_congr_left fun i below => ?_
  have here : Scatter.writeBlock memory 0 count cells (0 + i) = cells i :=
    Scatter.writeBlock_add (List.mem_range.1 below)
  rwa [zero_add] at here

theorem confined_read_iff {data : Memory} :
    f.Confined (.read data length rOffset) ↔ f.Served f.file.available length rOffset := by
  rw [← keeps_iff available_le]
  refine ⟨And.left, fun keeps => ⟨keeps, ?_⟩⟩
  rw [← keeps.read_eq]
  exact VirtualFile.read_eq_writeBlock

theorem confined_write_iff (data : Memory) :
    f.Confined (.write data length rOffset) ↔ f.Served f.file.takes length rOffset := by
  rw [← keeps_iff f.file.takes_le]
  exact ⟨And.left, fun keeps => ⟨keeps, keeps.written_eq data⟩⟩

theorem Keeps.readVector_eq (keeps : f.Keeps (f.readVector length rOffset).1 length rOffset) :
    (f.readVector length rOffset).2 = (List.range (f.fit length rOffset)).map
    (f.requested rOffset) := by
  rw [← map_writeBlock zeros, ← keeps.read_eq, ← keeps.count]
  show (List.range _).map (f.file.toVirtualFile.read zeros _ _) = _
  rw [VirtualFile.read_eq_writeBlock]
  rfl

theorem confined_readBytes_iff {allocates : Nat → Bool} :
    f.Confined (.readBytes allocates length rOffset) ↔ f.asked length rOffset < 2 ^ 63 ∧
      allocates (f.asked length rOffset) = true ∧ f.Served f.file.available length rOffset := by
  rw [← keeps_iff available_le, ← and_assoc, ← newVector_eq_ok, Confined, ← trimToFit_eq_asked]
  constructor
  · rintro ⟨access, keeps, done⟩
    obtain ⟨⟨⟩, made, done⟩ := bind_eq_ok.1 done
    obtain rfl := congrArg Prod.fst (Except.ok.inj done)
    exact ⟨made, keeps⟩
  · rintro ⟨made, keeps⟩
    refine ⟨_, keeps, ?_⟩
    rw [← keeps.readVector_eq, readBytes, BackingFile.readBytes, made]
    rfl

theorem confined_readByte_iff :
    f.Confined (.readByte rOffset) ↔ (rOffset < f.size → f.Served f.file.available 1 rOffset) := by
  rw [← keeps_iff available_le, Confined, readByte]
  by_cases inside : rOffset < f.size
  · rw [if_neg (BitVec.not_le.2 inside), if_pos inside, trimToFit_one inside]
    refine ⟨fun confined _ => confined.1, fun keeps => ⟨keeps inside, ?_⟩⟩
    have one := (keeps inside).count
    have bytes := (keeps inside).read_eq zeros
    rw [fit_one, if_pos inside] at one bytes
    show (if f.file.available 1 (f.offset + rOffset).toNat = 1 then
      some (f.file.toVirtualFile.read zeros 1 (f.offset + rOffset).toNat 0) else none) = _
    rw [if_pos one, VirtualFile.read_eq_writeBlock, bytes]
    rfl
  · rw [if_pos (BitVec.not_lt.1 inside), if_neg inside]
    exact iff_of_true ⟨keeps_nothing (BitVec.not_lt.1 inside), rfl⟩ fun within =>
      absurd within inside

theorem confined_writeByte_iff {data : Byte} :
    f.Confined (.writeByte data rOffset) ↔
      (rOffset < f.size → f.Served f.file.takes 1 rOffset) := by
  rw [← keeps_iff f.file.takes_le, Confined, writeByte]
  by_cases inside : rOffset < f.size
  · rw [if_pos inside, decide_eq_true inside, trimToFit_one inside]
    refine ⟨fun confined _ => confined.1, fun keeps => ⟨keeps inside, Prod.ext ?_ ?_⟩⟩
    · have one := (keeps inside).count
      rw [fit_one, if_pos inside] at one
      exact decide_eq_true one
    · exact (keeps inside).written_eq fun _ => data
  · rw [if_neg inside, decide_eq_false inside]
    have keeps := keeps_nothing (BitVec.not_lt.1 inside)
    refine iff_of_true ⟨keeps, Prod.ext rfl ?_⟩ fun within => absurd within inside
    rw [← keeps.written_eq]
    dsimp only [nothing]
    rw [Scatter.writeBlock_zero]

/-- A call is confined to the window exactly if it is served. -/
theorem confined_iff_heeds (f : OffsetVfsFile) (call : Call) : f.Confined call ↔ f.Heeds call := by
  cases call with
  | read data length rOffset => exact confined_read_iff
  | write data length rOffset => exact confined_write_iff data
  | readByte rOffset => exact confined_readByte_iff
  | readBytes allocates rSize rOffset => exact confined_readBytes_iff
  | writeByte data rOffset => exact confined_writeByte_iff
  | writeBytes data dataSize rOffset => exact confined_write_iff data

/-- A window of four bytes at the start of sixteen. Four bytes are read eight bytes from its
start. -/
theorem not_confined_behind_window :
    ¬ ∀ (f : OffsetVfsFile) (call : Call), f.Confined call := by
  intro confined
  let f : OffsetVfsFile := ⟨⟨⟨16, fun _ => 1⟩, fun length _ => length, fun _ _ => le_refl _⟩, 0, 4⟩
  have count : (f.read zeros 4 8).1.count = f.fit 4 8 := (confined f (.read zeros 4 8)).1.count
  exact absurd count (by decide)

end OffsetVfsFile

end SumiEmu.FileSys
