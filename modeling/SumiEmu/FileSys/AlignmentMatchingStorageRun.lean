/-
# Requests of any alignment are served exactly

Reading is followed by the part of the buffer that already has the bytes of the base storage,
writing by the part of the base storage that already has those of the buffer. The core comes first,
the head extends it to the front and the tail to the back, a block at a time.
-/

import SumiEmu.FileSys.AlignmentMatchingStorage

namespace SumiEmu.FileSys.AlignmentMatchingStorageImpl

open Kernel Nat

variable {s : AlignmentMatchingStorageImpl} {offset address size : Nat}

/-- A request for whole blocks. -/
def BlockAligned (s : AlignmentMatchingStorageImpl) (request : Request) : Prop :=
  s.dataAlignment ∣ request.offset ∧ s.dataAlignment ∣ request.size

theorem blockAligned_append {requests : List Request} {further : Request}
    (aligned : ∀ request ∈ requests, s.BlockAligned request) (whole : s.BlockAligned further) :
    ∀ request ∈ requests ++ [further], s.BlockAligned request := by
  intro request isOne
  obtain old | new := List.mem_append.1 isOne
  · exact aligned request old
  · rw [List.mem_singleton.1 new]
    exact whole

/-- A request for the block of a place. -/
theorem blockAligned_block (place : Nat) :
    s.BlockAligned ⟨alignDown place s.dataAlignment, s.dataAlignment⟩ :=
  ⟨alignDown_dvd .., dvd_refl _⟩

/-- A core lies inside its request, and begins where the first whole block does. -/
theorem alignedExtents_core (some : 0 < (s.alignedExtents offset size).coreSize) :
    (s.alignedExtents offset size).coveredOffset = alignUp offset s.dataAlignment ∧
      (s.alignedExtents offset size).coreSize + alignUp offset s.dataAlignment ≤ offset + size ∧
      s.dataAlignment ∣ (s.alignedExtents offset size).coreSize := by
  have late := le_alignUp s.dataAlignment_pos offset
  rw [alignedExtents] at some ⊢
  dsimp only at some ⊢
  split at some
  · exact absurd some (lt_irrefl 0)
  · rename_i room
    rw [if_neg room, if_pos some]
    have down := alignDown_le (size - roundUpDifference offset s.dataAlignment) s.dataAlignment
    rw [roundUpDifference] at down room ⊢
    exact ⟨rfl, by omega, alignDown_dvd ..⟩

theorem alignedExtents_noCore (none : ¬ 0 < (s.alignedExtents offset size).coreSize) :
    (s.alignedExtents offset size).coveredOffset = offset := by
  rw [alignedExtents] at none ⊢
  exact if_neg none

variable {e : Extents}

theorem alignedExtents_covered (isExtents : s.alignedExtents offset size = e) :
    offset ≤ e.coveredOffset ∧
      (e.coveredOffset = offset ∨ e.coveredOffset = alignUp offset s.dataAlignment) ∧
      e.coveredOffset - offset + e.coreSize ≤ size := by
  have late := le_alignUp s.dataAlignment_pos offset
  by_cases some : 0 < e.coreSize
  · obtain ⟨covered, fits, -⟩ := alignedExtents_core (isExtents ▸ some)
    rw [isExtents] at covered fits
    exact ⟨by omega, .inr covered, by omega⟩
  · have covered := alignedExtents_noCore (isExtents ▸ some)
    rw [isExtents] at covered
    exact ⟨le_of_eq covered.symm, .inl covered, by omega⟩

/-- The place that the whole blocks begin at is the end of the block of any place before it. -/
theorem alignUp_eq_block (before : offset < alignUp offset s.dataAlignment) :
    alignUp offset s.dataAlignment = alignDown offset s.dataAlignment + s.dataAlignment := by
  by_cases even : offset % s.dataAlignment = 0
  · rw [alignUp_of_dvd (dvd_of_mod_eq_zero even)] at before
    exact absurd before (lt_irrefl _)
  · rw [alignUp, if_neg even, alignDown]

/-! ## Reading -/

variable {base : VirtualFile} {r : Reading} {original : Memory} {lo hi : Nat}

/-- The byte of the base storage for a place of the buffer, if there is one. -/
def Wanted (base : VirtualFile) (offset i : Nat) (byte : Byte) : Prop :=
  offset + i < base.size → byte = base.byte (offset + i)

/-- A part of the buffer is filled, nothing behind the request is touched, and the base storage has
been asked for whole blocks only. -/
structure Fills (s : AlignmentMatchingStorageImpl) (base : VirtualFile) (offset size : Nat)
    (original : Memory) (r : Reading) (lo hi : Nat) : Prop where
  filled : Scatter.Filled (Wanted base offset) r.buffer lo hi
  kept : ∀ i, size ≤ i → r.buffer i = original i
  aligned : ∀ request ∈ r.requests, s.BlockAligned request

variable {memory : Memory}

/-- What a read brings is what is wanted there. -/
theorem wanted_read {count start j k : Nat} (below : j < count)
    (same : offset + k = start + j) : Wanted base offset k (base.read memory count start j) := by
  intro inside
  rw [VirtualFile.read, if_pos ⟨below, by omega⟩, same]

/-- The bytes of a block that the request asks for are brought. -/
theorem Fills.block (fills : s.Fills base offset size original r lo hi) (place source count : Nat)
    (inside : place + count ≤ size)
    (same : offset + place = alignDown (offset + place) s.dataAlignment + source)
    (within : source + count ≤ s.dataAlignment) :
    let r' := (r.fetch base s.dataAlignment (alignDown (offset + place) s.dataAlignment)).memcpy
      place source count
    Scatter.Filled (Wanted base offset) r'.buffer place (place + count) ∧
      (hi ≤ place ∨ place + count ≤ lo → Scatter.Filled (Wanted base offset) r'.buffer lo hi) ∧
      (∀ i, size ≤ i → r'.buffer i = original i) ∧
      ∀ request ∈ r'.requests, s.BlockAligned request := by
  simp only [Reading.memcpy_requests, Reading.memcpy_buffer, Reading.fetch_buffer,
    Reading.fetch_workBuf]
  refine ⟨?_, fun apart => fills.filled.writeBlock_outside apart, fun i behind => ?_, ?_⟩
  · exact Scatter.filled_writeBlock fun j below => wanted_read (by omega) (by omega)
  · rw [Scatter.writeBlock_of_ne fun j below => by omega]
    exact fills.kept i behind
  · exact blockAligned_append fills.aligned (blockAligned_block _)

theorem readTail_spec (size tailOffset remaining : Nat) (r : Reading) (begun : offset ≤ tailOffset)
    (ends : tailOffset + remaining = offset + size)
    (fills : s.Fills base offset size original r 0 (tailOffset - offset)) :
    ∃ r', s.readTail base offset size tailOffset remaining r = some r' ∧
      s.Fills base offset size original r' 0 size := by
  induction remaining using Nat.strongRecOn generalizing tailOffset r with
  | ind remaining ih =>
    rw [readTail]
    by_cases left : 0 < remaining
    · obtain ⟨place, rfl⟩ := Nat.exists_eq_add_of_le begun
      have down := alignDown_le (offset + place) s.dataAlignment
      have block := lt_alignDown_add s.dataAlignment_pos (offset + place)
      rw [Nat.add_sub_cancel_left] at fills
      rw [dif_pos left]
      dsimp only
      rw [Nat.add_sub_cancel_left, if_neg (by omega), if_neg (by omega)]
      obtain ⟨here, before, kept, aligned⟩ := fills.block place
        (offset + place - alignDown (offset + place) s.dataAlignment)
        (min (alignDown (offset + place) s.dataAlignment + s.dataAlignment - (offset + place))
          remaining)
        (by omega) (by omega) (by omega)
      refine ih _ (by omega) _ _ (by omega) (by omega) ⟨?_, kept, aligned⟩
      rw [Nat.add_assoc, Nat.add_sub_cancel_left]
      exact (before (.inl (le_refl _))).append here
    · rw [dif_neg left]
      have complete : tailOffset - offset = size := by omega
      exact ⟨r, rfl, complete ▸ fills⟩

/-- The head ends where the part that is filled begins. -/
theorem readHead_spec (work : s.dataAlignment ≤ s.workBufSize) {covered filledSize : Nat}
    (late : offset ≤ covered)
    (isStart : covered = offset ∨ covered = alignUp offset s.dataAlignment)
    (fits : covered - offset + filledSize ≤ size)
    (fills : s.Fills base offset size original r (covered - offset)
    (covered - offset + filledSize)) : ∃ r', s.readHead base offset covered r = some r' ∧
      s.Fills base offset size original r' 0 (covered - offset + filledSize) := by
  rw [readHead]
  by_cases before : offset < covered
  · have ends : covered = alignDown offset s.dataAlignment + s.dataAlignment := by
      obtain rfl | rfl := isStart
      · exact absurd before (lt_irrefl _)
      · exact alignUp_eq_block before
    have down := alignDown_le offset s.dataAlignment
    rw [if_pos before, roundDownDifference, if_neg (by omega)]
    obtain ⟨here, behind, kept, aligned⟩ := fills.block 0
      (offset - alignDown offset s.dataAlignment) (covered - offset)
      (by omega) (by rw [add_zero]; omega) (by omega)
    rw [add_zero, zero_add] at here behind
    refine ⟨_, rfl, here.append (behind (.inr (le_refl _))), kept, aligned⟩
  · obtain rfl : covered = offset := by omega
    rw [if_neg before]
    rw [Nat.sub_self] at fills ⊢
    exact ⟨r, rfl, fills⟩

theorem Fills.nothing (workBuf buffer : Memory) (place : Nat) :
    s.Fills base offset size buffer ⟨workBuf, buffer, []⟩ place place where
  filled _ low high := absurd high (not_lt.2 low)
  kept _ _ := rfl
  aligned _ isOne := absurd isOne List.not_mem_nil

/-- What is read to a position is wanted there if it is the right part of the base storage. -/
theorem wanted_readTo {position count start i k : Nat} (low : position ≤ k)
    (high : k < position + count) (same : offset + i + position = start + k) :
    Wanted base offset i (base.readTo memory position count start k) := by
  rw [VirtualFile.readTo, if_pos low]
  exact wanted_read (by omega) (by omega)

theorem readTo_behind {position count start i : Nat} (behind : position + count ≤ i) :
    base.readTo memory position count start i = memory i := by
  rw [VirtualFile.readTo_eq_writeBlock]
  refine Scatter.writeBlock_of_ne fun j below => ?_
  rw [VirtualFile.available] at below
  omega

/-- An aligned core is read to its place. -/
theorem readCore_aligned (base : VirtualFile) (isExtents : s.alignedExtents offset size = e)
    (workBuf buffer : Memory) :
    (readCore base e ⟨workBuf, buffer, []⟩).2 = e.coreSize ∧
      s.Fills base offset size buffer (readCore base e ⟨workBuf, buffer, []⟩).1
        (e.coveredOffset - offset) (e.coveredOffset - offset + e.coreSize) := by
  by_cases some : 0 < e.coreSize
  · obtain ⟨covered, fits, whole⟩ := alignedExtents_core (isExtents ▸ some)
    rw [isExtents] at covered fits whole
    have late := le_alignUp s.dataAlignment_pos offset
    have position : e.alignedCoreBuffer = e.coveredOffset - offset := by
      rw [covered, ← isExtents]
      rfl
    have start : e.coreOffset = alignUp offset s.dataAlignment := by
      rw [← isExtents]
      rfl
    have noGap : ¬ (e.offsetGap ≠ 0 ∨ e.bufferGap ≠ 0) := by
      rw [← isExtents]
      exact fun gap => gap.elim (fun offsetGap => offsetGap rfl) fun bufferGap => bufferGap rfl
    rw [readCore, if_pos some, position, start]
    dsimp only
    rw [if_neg noGap]
    refine ⟨rfl, fun i low high => ?_, fun i behind => ?_, ?_⟩
    · exact wanted_readTo low high (by omega)
    · exact readTo_behind (by omega)
    · exact blockAligned_append (fun _ isOne => absurd isOne List.not_mem_nil)
        ⟨alignUp_dvd .., whole⟩
  · rw [readCore, if_neg some, Nat.eq_zero_of_not_pos some]
    exact ⟨rfl, Fills.nothing ..⟩

/-- A core that is not aligned in the buffer is read to where it is, and moved to its start. -/
theorem readCore_moved (base : VirtualFile) (isExtents : s.readExtents offset address size = e)
    (moved : ¬ isAligned (address + roundUpDifference offset s.dataAlignment) s.bufferAlignment)
    (workBuf buffer : Memory) :
    e.coveredOffset = offset ∧ (readCore base e ⟨workBuf, buffer, []⟩).2 ≤ size ∧
      s.Fills base offset size buffer (readCore base e ⟨workBuf, buffer, []⟩).1 0
        (readCore base e ⟨workBuf, buffer, []⟩).2 := by
  obtain ⟨gap, isGap⟩ : ∃ gap, roundUpDifference address s.bufferAlignment = gap := ⟨_, rfl⟩
  obtain ⟨count, isCount⟩ : ∃ count,
      (if size < gap then 0 else alignDown (size - gap) s.dataAlignment) = count := ⟨_, rfl⟩
  obtain rfl : e = ⟨gap, alignDown offset s.dataAlignment, count, gap,
      roundDownDifference offset s.dataAlignment, offset⟩ := by
    rw [← isExtents, ← isCount, readExtents, if_neg moved, isGap]
  rw [readCore]
  refine ⟨rfl, ?_⟩
  by_cases some : 0 < count
  · have down := alignDown_le offset s.dataAlignment
    have block := lt_alignDown_add s.dataAlignment_pos offset
    have fits : gap + count ≤ size ∧ s.dataAlignment ∣ count := by
      split at isCount
      · omega
      · have below := alignDown_le (size - gap) s.dataAlignment
        exact ⟨by omega, isCount ▸ alignDown_dvd ..⟩
    have whole : s.BlockAligned ⟨alignDown offset s.dataAlignment, count⟩ :=
      ⟨alignDown_dvd .., fits.2⟩
    have aligned := blockAligned_append (fun _ isOne => absurd isOne List.not_mem_nil) whole
    rw [if_pos some]
    dsimp only
    rw [Nat.sub_self, roundDownDifference]
    split
    · refine ⟨by omega, fun i low high => ?_, fun i behind => ?_, aligned⟩
      · -- What is moved to a place has been read as much further on as the gaps are wide.
        rw [Reading.memmove_buffer, Scatter.writeBlock, if_pos ⟨low, by omega⟩]
        exact wanted_readTo (by omega) (by omega) (by omega)
      · rw [Reading.memmove_buffer, Scatter.writeBlock_of_ne fun j below => by omega]
        exact readTo_behind (by omega)
    · refine ⟨by omega, fun i low high => ?_, fun i behind => ?_, aligned⟩
      · exact wanted_readTo (by omega) (by omega) (by omega)
      · exact readTo_behind (by omega)
  · rw [if_neg some, Nat.eq_zero_of_not_pos some]
    exact ⟨zero_le _, Fills.nothing ..⟩

/-- The core, if there is one, is at its place in the buffer. -/
theorem readCore_spec (s : AlignmentMatchingStorageImpl) (base : VirtualFile)
    (offset address size : Nat)
    (isExtents : s.readExtents offset address size = e) (workBuf buffer : Memory) :
    offset ≤ e.coveredOffset ∧
      (e.coveredOffset = offset ∨ e.coveredOffset = alignUp offset s.dataAlignment) ∧
      e.coveredOffset - offset + (readCore base e ⟨workBuf, buffer, []⟩).2 ≤ size ∧
      s.Fills base offset size buffer (readCore base e ⟨workBuf, buffer, []⟩).1
        (e.coveredOffset - offset)
        (e.coveredOffset - offset + (readCore base e ⟨workBuf, buffer, []⟩).2) := by
  by_cases inPlace : isAligned (address + roundUpDifference offset s.dataAlignment)
    s.bufferAlignment
  · rw [readExtents, if_pos inPlace] at isExtents
    obtain ⟨count, fills⟩ := readCore_aligned base isExtents workBuf buffer
    obtain ⟨late, isStart, fits⟩ := alignedExtents_covered isExtents
    rw [count]
    exact ⟨late, isStart, fits, fills⟩
  · obtain ⟨covered, fits, fills⟩ := readCore_moved base isExtents inPlace workBuf buffer
    rw [covered, Nat.sub_self, Nat.zero_add]
    exact ⟨le_refl _, .inl rfl, fits, fills⟩

/-- A read brings the bytes of the base storage, as far as it has any. -/
theorem read_spec (work : s.dataAlignment ≤ s.workBufSize) (base : VirtualFile)
    (offset address size : Nat) (workBuf buffer : Memory) :
    ∃ r, s.read base offset address size ⟨workBuf, buffer, []⟩ = some (size, r) ∧
      s.Fills base offset size buffer r 0 size := by
  rw [read, if_neg (not_lt.2 work)]
  by_cases none : size = 0
  · subst none
    rw [if_pos rfl]
    exact ⟨_, rfl, Fills.nothing ..⟩
  · obtain ⟨late, isStart, fits, core⟩ :=
      readCore_spec s base offset address size rfl workBuf buffer
    rw [if_neg none]
    generalize s.readExtents offset address size = e at *
    dsimp only
    generalize readCore base e ⟨workBuf, buffer, []⟩ = brought at *
    obtain ⟨r, head, front⟩ := readHead_spec work late isStart fits core
    obtain ⟨r', tail, whole⟩ := readTail_spec size (e.coveredOffset + brought.2)
      (offset + size - (e.coveredOffset + brought.2)) r (by omega) (by omega)
      (Nat.sub_add_comm late ▸ front)
    exact ⟨r', by simp only [head, tail, Option.bind_eq_bind, Option.bind_some,
      Option.pure_def], whole⟩

/-! ## Writing -/

variable {old : WritableFile} {data : Memory} {w : Writing}

/-- A part of the base storage has the bytes of the buffer, as far as there is room, and what it has
had elsewhere is left. -/
structure Writes (s : AlignmentMatchingStorageImpl) (old : WritableFile) (data : Memory)
    (offset : Nat) (w : Writing) (lo hi : Nat) : Prop where
  room : w.base.room = old.room
  size : old.size ≤ w.base.size
  written : ∀ p, lo ≤ p → p < hi → p < old.room → p < w.base.size ∧
    w.base.byte p = data (p - offset)
  kept : ∀ p < old.size, ¬ (lo ≤ p ∧ p < hi) → w.base.byte p = old.byte p
  aligned : ∀ request ∈ w.requests, s.BlockAligned request

theorem Writes.nothing (old : WritableFile) (data workBuf : Memory) (place : Nat) :
    s.Writes old data offset ⟨old, workBuf, []⟩ place place where
  room := rfl
  size := le_refl _
  written _ low high := absurd high (not_lt.2 low)
  kept _ _ _ := rfl
  aligned _ isOne := absurd isOne List.not_mem_nil

variable {file : WritableFile}

/-- The bytes of a file after a write. -/
theorem write_byte {count start p : Nat} :
    (file.write data count start).byte p =
      if start ≤ p ∧ p < start + count ∧ p < file.room then data (p - start) else file.byte p := by
  show Scatter.writeBlock _ _ _ _ p = _
  rw [Scatter.writeBlock]
  refine if_congr ?_ rfl rfl
  omega

theorem write_size {count start : Nat} :
    (file.write data count start).size = if min count (file.room - start) = 0 then file.size
      else max file.size (start + min count (file.room - start)) := rfl

theorem write_size_le {count start : Nat} :
    file.size ≤ (file.write data count start).size := by
  rw [write_size]
  split <;> omega

/-- What is written is inside the file then. -/
theorem lt_write_size {count start p : Nat} (low : start ≤ p)
    (high : p < start + count) (room : p < file.room) : p < (file.write data count start).size := by
  rw [write_size]
  split <;> omega

/-- Some bytes of a block are replaced by those of the buffer, next to what is written. -/
theorem Writes.modify (writes : s.Writes old data offset w lo hi)
    (lo' hi' start position count : Nat)
    (whole : s.dataAlignment ∣ start)
    (late : offset ≤ start + position) (within : position + count ≤ s.dataAlignment)
    (join : ∀ p, (lo' ≤ p ∧ p < hi') ↔
      (lo ≤ p ∧ p < hi) ∨ (start + position ≤ p ∧ p < start + position + count)) :
    s.Writes old data offset
      (w.modify data s.dataAlignment start position (start + position - offset) count) lo' hi' := by
  have fits := w.base.size_le
  have room := writes.room
  have grows := writes.size
  -- The bytes inside the file, and those that are replaced.
  have byte : ∀ p, p < w.base.size ∨ (start + position ≤ p ∧ p < start + position + count) →
      p < old.room →
      (w.modify data s.dataAlignment start position (start + position - offset) count).base.byte p =
        if start + position ≤ p ∧ p < start + position + count then data (p - offset)
        else w.base.byte p := by
    intro p known below
    rw [Writing.modify_byte, write_byte]
    by_cases inBlock : start ≤ p ∧ p < start + s.dataAlignment
    · rw [if_pos ⟨inBlock.1, inBlock.2, room ▸ below⟩, Scatter.writeBlock]
      by_cases replaced : start + position ≤ p ∧ p < start + position + count
      · rw [if_pos (by omega), if_pos replaced]
        congr 1
        omega
      · rw [if_neg (by omega), if_neg replaced]
        rw [VirtualFile.read, if_pos (by omega), add_sub_of_le inBlock.1]
    · rw [if_neg (by omega), if_neg (by omega)]
  refine ⟨room, grows.trans write_size_le, fun p low high below => ?_, fun p inside apart => ?_, ?_⟩
  · by_cases replaced : start + position ≤ p ∧ p < start + position + count
    · rw [byte p (.inr replaced) below, if_pos replaced]
      refine ⟨lt_write_size (by omega) (by omega) ?_, rfl⟩
      show p < w.base.room
      omega
    · obtain before | now := (join p).1 ⟨low, high⟩
      · obtain ⟨inside, same⟩ := writes.written p before.1 before.2 below
        rw [byte p (.inl inside) below, if_neg replaced]
        exact ⟨inside.trans_le write_size_le, same⟩
      · exact absurd now replaced
  · have neither := (join p).not.1 apart
    rw [byte p (.inl (by omega)) (by omega), if_neg fun now => neither (.inr now)]
    exact writes.kept p inside fun before => neither (.inl before)
  · exact blockAligned_append (blockAligned_append writes.aligned ⟨whole, dvd_refl _⟩)
      ⟨whole, dvd_refl _⟩

theorem writeTail_spec (size tailOffset remaining : Nat) (w : Writing) (begun : offset ≤ tailOffset)
    (ends : tailOffset + remaining = offset + size)
    (writes : s.Writes old data offset w offset tailOffset) :
    ∃ w', s.writeTail data offset size tailOffset remaining w = some w' ∧
      s.Writes old data offset w' offset (offset + size) := by
  induction remaining using Nat.strongRecOn generalizing tailOffset w with
  | ind remaining ih =>
    rw [writeTail]
    by_cases left : 0 < remaining
    · have down := alignDown_le tailOffset s.dataAlignment
      have block := lt_alignDown_add s.dataAlignment_pos tailOffset
      have place : alignDown tailOffset s.dataAlignment +
          roundDownDifference tailOffset s.dataAlignment = tailOffset := by
        rw [roundDownDifference]
        omega
      rw [dif_pos left, if_neg (by omega)]
      dsimp only
      refine ih _ (by omega) _ _ (by omega) (by omega) ?_
      have grown := writes.modify offset
        (tailOffset + min (alignDown tailOffset s.dataAlignment + s.dataAlignment - tailOffset)
          remaining)
        (alignDown tailOffset s.dataAlignment) (roundDownDifference tailOffset s.dataAlignment)
        (min (alignDown tailOffset s.dataAlignment + s.dataAlignment - tailOffset) remaining)
        (alignDown_dvd ..) (by omega) (by omega) (fun p => by omega)
      rwa [place] at grown
    · rw [dif_neg left]
      have complete : tailOffset = offset + size := by omega
      exact ⟨w, rfl, complete ▸ writes⟩

theorem writeHead_spec {covered stop : Nat} (late : offset ≤ covered) (after : covered ≤ stop)
    (isStart : covered = offset ∨ covered = alignUp offset s.dataAlignment)
    (writes : s.Writes old data offset w covered stop) :
    ∃ w', s.writeHead data offset covered w = some w' ∧
      s.Writes old data offset w' offset stop := by
  rw [writeHead]
  by_cases before : offset < covered
  · have ends : covered = alignDown offset s.dataAlignment + s.dataAlignment := by
      obtain rfl | rfl := isStart
      · exact absurd before (lt_irrefl _)
      · exact alignUp_eq_block before
    have down := alignDown_le offset s.dataAlignment
    have place : alignDown offset s.dataAlignment +
        (offset - alignDown offset s.dataAlignment) = offset := by omega
    rw [if_pos before]
    dsimp only
    rw [if_neg (by omega)]
    refine ⟨_, rfl, ?_⟩
    have grown := writes.modify offset stop (alignDown offset s.dataAlignment)
      (offset - alignDown offset s.dataAlignment) (covered - offset)
      (alignDown_dvd ..) (by omega) (by omega) (fun p => by omega)
    rwa [place, Nat.sub_self] at grown
  · obtain rfl : covered = offset := by omega
    rw [if_neg before]
    exact ⟨w, rfl, writes⟩

/-- The core, if there is one, is written from its place in the buffer. -/
theorem writeCore_spec (s : AlignmentMatchingStorageImpl) (offset address size : Nat)
    (isExtents : s.writeExtents offset address size = e)
    (old : WritableFile) (data workBuf : Memory) :
    offset ≤ e.coveredOffset ∧
      (e.coveredOffset = offset ∨ e.coveredOffset = alignUp offset s.dataAlignment) ∧
      e.coveredOffset - offset + e.coreSize ≤ size ∧
      s.Writes old data offset (writeCore data e ⟨old, workBuf, []⟩) e.coveredOffset
        (e.coveredOffset + e.coreSize) := by
  by_cases inPlace : isAligned (address + roundUpDifference offset s.dataAlignment)
    s.bufferAlignment
  · rw [writeExtents, if_pos inPlace] at isExtents
    obtain ⟨late, isStart, fits⟩ := alignedExtents_covered isExtents
    refine ⟨late, isStart, fits, ?_⟩
    by_cases some : 0 < e.coreSize
    · obtain ⟨covered, -, whole⟩ := alignedExtents_core (isExtents ▸ some)
      rw [isExtents] at covered whole
      have position : e.alignedCoreBuffer = e.coveredOffset - offset := by
        rw [covered, ← isExtents]
        rfl
      have start : e.coreOffset = e.coveredOffset := by
        rw [covered, ← isExtents]
        rfl
      rw [writeCore, if_pos some, position, start]
      refine ⟨rfl, write_size_le, fun p low high room => ⟨lt_write_size low high room, ?_⟩,
        fun p inside apart => ?_, ?_⟩
      · refine write_byte.trans ((if_pos ⟨low, high, room⟩).trans ?_)
        congr 1
        omega
      · exact write_byte.trans (if_neg fun now => apart ⟨now.1, now.2.1⟩)
      · exact blockAligned_append (fun _ isOne => absurd isOne List.not_mem_nil)
          ⟨covered ▸ alignUp_dvd .., whole⟩
    · rw [writeCore, if_neg some, Nat.eq_zero_of_not_pos some]
      exact Writes.nothing ..
  · rw [writeExtents, if_neg inPlace] at isExtents
    subst isExtents
    exact ⟨le_refl _, .inl rfl, by simp, Writes.nothing ..⟩

/-- A write replaces the bytes of its range, and no others. -/
theorem write_spec (work : s.dataAlignment ≤ s.workBufSize) (old : WritableFile)
    (offset address size : Nat) (data workBuf : Memory) :
    ∃ w, s.write data offset address size ⟨old, workBuf, []⟩ = some (size, w) ∧
      s.Writes old data offset w offset (offset + size) := by
  rw [write, if_neg (not_lt.2 work)]
  by_cases none : size = 0
  · subst none
    rw [if_pos rfl]
    exact ⟨_, rfl, Writes.nothing ..⟩
  · obtain ⟨late, isStart, fits, core⟩ :=
      writeCore_spec s offset address size rfl old data workBuf
    rw [if_neg none]
    generalize s.writeExtents offset address size = e at *
    dsimp only
    obtain ⟨w, head, front⟩ := writeHead_spec late (le_add_right _ _) isStart core
    obtain ⟨w', tail, whole⟩ := writeTail_spec size (e.coveredOffset + e.coreSize)
      (offset + size - (e.coveredOffset + e.coreSize)) w (by omega) (by omega) front
    exact ⟨w', by simp only [head, tail, Option.bind_eq_bind, Option.bind_some,
      Option.pure_def], whole⟩

/-- A read passes its assertions. It fills the buffer with the bytes of its range. -/
def ReadsExactly (s : AlignmentMatchingStorageImpl) (base : VirtualFile) (offset address size : Nat)
    (workBuf buffer : Memory) : Prop :=
  ∃ r, s.read base offset address size ⟨workBuf, buffer, []⟩ = some (size, r) ∧
    s.Fills base offset size buffer r 0 size

/-- A write passes its assertions. It brings the bytes of the buffer to its range. -/
def WritesExactly (s : AlignmentMatchingStorageImpl) (base : WritableFile)
    (offset address size : Nat)
    (workBuf buffer : Memory) : Prop :=
  ∃ w, s.write buffer offset address size ⟨base, workBuf, []⟩ = some (size, w) ∧
    s.Writes base buffer offset w offset (offset + size)

/-- With a work buffer of a block or more, requests of any alignment read and write exactly their
range, and ask the base storage for whole blocks only. -/
theorem exactly (s : AlignmentMatchingStorageImpl) (work : s.dataAlignment ≤ s.workBufSize)
    (base : WritableFile) (offset address size : Nat) (workBuf buffer : Memory) :
    s.ReadsExactly base.toVirtualFile offset address size workBuf buffer ∧
      s.WritesExactly base offset address size workBuf buffer :=
  ⟨read_spec work base.toVirtualFile offset address size workBuf buffer,
    write_spec work base offset address size buffer workBuf⟩

/-- Blocks of four bytes, a buffer that is not aligned, and a range of two blocks with a part of a
block on either side. -/
theorem exactly_unaligned :
    let s : AlignmentMatchingStorageImpl := ⟨4, 8, 4, ⟨2, rfl⟩, ⟨3, rfl⟩⟩
    let base : WritableFile := ⟨⟨16, fun _ => 7⟩, 16, le_refl _⟩
    s.ReadsExactly base.toVirtualFile 3 1 10 zeros zeros ∧
      s.WritesExactly base 3 1 10 zeros zeros :=
  exactly ⟨4, 8, 4, ⟨2, rfl⟩, ⟨3, rfl⟩⟩ (by decide) ⟨⟨16, fun _ => 7⟩, 16, le_refl _⟩ 3 1 10
    zeros zeros

end SumiEmu.FileSys.AlignmentMatchingStorageImpl
