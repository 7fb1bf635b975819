/-
# Allocating from a page heap

An allocation takes one free block, and frees what it does not need of it. So
it removes exactly the pages that it returns, all of which were free, whichever
block the random choices fall on. When no block is large enough it changes
nothing, not even the generator.
-/

import SumiEmu.Kernel.PageHeapFree

namespace SumiEmu.Kernel.KPageHeap

open Fallible Packing Finset

variable {L : Layout} {h : KPageHeap} {i : Nat}

theorem WellFormed.with_rng (wf : h.WellFormed L) (rng : RandomBitGenerator) :
    WellFormed L { h with rng := rng } :=
  ⟨wf.heapAddress, wf.heapSize, wf.numBlocks, wf.layout, wf.bitmaps, wf.packed, wf.inside⟩

/-- `PopBlock` takes a free block of a size if there is one. -/
theorem popBlock_spec (wf : h.WellFormed L) (inside : i < L.count) (random : Bool) :
    ∃ addr h', h.popBlock i random = .ok (addr, h') ∧
      ((addr = 0 ∧ h' = h ∧ (h.blocks i).getNumFreeBlocks = 0) ∨
        addr ≠ 0 ∧ L.blockSize i ∣ addr ∧ h'.WellFormed L ∧
          span addr (addr + L.blockSize i) ⊆ h.freeSet ∧
          h'.freeSet = h.freeSet \ span addr (addr + L.blockSize i) ∧
          (h.Coalesced L → h'.Coalesced L)) := by
  obtain ⟨found, rng, result, none, same, some⟩ :=
    KPageBitmap.findFreeBlock_spec (wf.bitmaps i inside) random
  rw [popBlock, Block.popBlock, result]
  by_cases empty : found = -1
  · obtain rfl := same empty
    subst empty
    refine ⟨0, h, ?_, .inl ⟨rfl, rfl, ?_⟩⟩
    · exact congrArg (fun blocks => Except.ok (0, { h with blocks := blocks }))
        (Function.update_eq_self i h.blocks)
    · rw [Block.getNumFreeBlocks, (wf.bitmaps i inside).counted, none.mp rfl]
      rfl
  · obtain ⟨offset, rfl, set, -⟩ := some empty
    have bitmap := (wf.bitmaps i inside).with_rng rng
    obtain ⟨bitmap', bits⟩ := KPageBitmap.clearBit_spec bitmap set
    have member : (i, offset) ∈ h.keys := (wf.mem_keys_iff inside).mpr set
    have within : tile (L.unit i) (L.skip i + offset) ⊆ L.space :=
      wf.inside (i, offset) member
    have layout := wf.layout i inside
    have here : ∀ o, (i, o) ∈ h.keys.erase (i, offset) ↔
        o ∈ ((h.blocks i).bitmap.bitSet (L.endOffset i)).erase offset := fun o => by
      simp [wf.mem_keys_iff inside]
    have others : ∀ k : Nat × Nat, k.1 ≠ i → (k ∈ h.keys.erase (i, offset) ↔ k ∈ h.keys) := by
      intro k other
      have : k ≠ (i, offset) := fun same => other (same ▸ rfl)
      simp [this]
    obtain ⟨wf', keys'⟩ := wf.setBlock inside
      (b := { h.blocks i with
        bitmap := { (h.blocks i).bitmap with rng := rng }.clearBit offset })
      ⟨layout.1, layout.2, layout.3, layout.4⟩ bitmap' (fun o => (here o).trans (by rw [bits]; rfl))
      others (wf.packed.subset (erase_subset ..))
      (fun k kept => wf.inside k (mem_of_mem_erase kept))
    refine ⟨_, _, congrArg (fun addr => Except.ok (addr, _)) (layout.address inside offset),
      .inr ⟨?_, Nat.dvd_mul_left .., wf', ?_, ?_, ?_⟩⟩
    · exact (Nat.mul_pos (Layout.number_pos within) Layout.blockSize_pos).ne'
    · rw [← tile_eq_span inside, wf.freeSet_eq, ← Layout.pages_mk]
      exact subset_biUnion_of_mem L.pages member
    · rw [← tile_eq_span inside]
      refine wf'.freeSet_eq.trans ?_
      rw [keys', wf.packed.biUnion_erase member, wf.freeSet_eq, Layout.pages_mk]
    · intro coalesced j next first n number complete
      refine coalesced j next first n number fun o inRange => ?_
      exact mem_of_mem_erase (keys'.subset (complete o inRange))

/-- The outcome of an allocation: nothing, or a range that was free and no longer is. -/
def Takes (L : Layout) (h : KPageHeap) (numPages : Nat) (r : Except Fault (Nat × KPageHeap)) :
    Prop :=
  ∃ addr h', r = .ok (addr, h') ∧ h'.WellFormed L ∧
    ((addr = 0 ∧ h' = h) ∨
      addr ≠ 0 ∧ pageSize ∣ addr ∧ pagesOf addr numPages ⊆ h.freeSet ∧
        h'.freeSet = h.freeSet \ pagesOf addr numPages)

/-- The outcome of an allocation that joins what it gives back, and finds a range if there is
one. -/
def Finds (L : Layout) (h : KPageHeap) (index numPages : Nat) (r : Except Fault (Nat × KPageHeap)) :
    Prop :=
  ∃ addr h', r = .ok (addr, h') ∧ h'.WellFormed L ∧ (h.Coalesced L → h'.Coalesced L) ∧
    ((addr = 0 ∧ h' = h ∧ ∀ k ∈ h.keys, k.1 < index) ∨
      addr ≠ 0 ∧ pageSize ∣ addr ∧ pagesOf addr numPages ⊆ h.freeSet ∧
        h'.freeSet = h.freeSet \ pagesOf addr numPages)

theorem Finds.takes {index numPages : Nat} {r : Except Fault (Nat × KPageHeap)}
    (finds : Finds L h index numPages r) : Takes L h numPages r := by
  obtain ⟨addr, h', result, wf', -, outcome⟩ := finds
  refine ⟨addr, h', result, wf', outcome.imp (fun none => ⟨none.1, none.2.1⟩) id⟩

/-- Taking a range and giving its two ends back takes the middle. -/
theorem sdiff_span_union {s : Finset Nat} {a b c d : Nat} (ab : a ≤ b) (bc : b ≤ c) (cd : c ≤ d)
    (subset : span a d ⊆ s) :
    s \ span a d ∪ span a b ∪ span c d = s \ span b c := by
  ext page
  have member := @subset page
  have := Nat.div_le_div_right (c := pageSize) ab
  have := Nat.div_le_div_right (c := pageSize) bc
  have := Nat.div_le_div_right (c := pageSize) cd
  simp only [span, mem_union, mem_sdiff, mem_Ico] at member ⊢
  constructor
  · rintro ((⟨_, _⟩ | _) | _)
    · exact ⟨‹_›, by omega⟩
    · exact ⟨member (by omega), by omega⟩
    · exact ⟨member (by omega), by omega⟩
  · rintro ⟨_, _⟩
    by_cases inside : a / pageSize ≤ page ∧ page < d / pageSize
    · by_cases lower : page < b / pageSize
      · exact .inl (.inr ⟨by omega, lower⟩)
      · exact .inr ⟨by omega, by omega⟩
    · exact .inl (.inl ⟨‹_›, inside⟩)

/-- Freeing a range between two page addresses, unless it is empty. -/
theorem free_span_merges (wf : h.WellFormed L) {a b : Nat} (ordered : a ≤ b)
    (first : pageSize ∣ a) (last : pageSize ∣ b) (freeable : Freeable L h a b) :
    Merges L h (span a b) (h.free a ((b - a) / pageSize)) := by
  have length : pagesOf a ((b - a) / pageSize) = span a b := by
    rw [pagesOf_eq_span, Nat.div_mul_cancel (Nat.dvd_sub last first), Nat.add_sub_cancel' ordered]
  rw [← length]
  exact free_merges wf first (length ▸ freeable.within) (length ▸ freeable.apart)

/-- Freeing what lies between two page addresses only when there is something between them. -/
theorem freeIf_span_merges (wf : h.WellFormed L) {a b : Nat} {c : Prop} [Decidable c]
    (proper : ¬ c → a = b) (ordered : a ≤ b) (first : pageSize ∣ a) (last : pageSize ∣ b)
    (freeable : Freeable L h a b) :
    Merges L h (span a b) (h.freeIf c a ((b - a) / pageSize)) := by
  rw [freeIf]
  split
  · exact free_span_merges wf ordered first last freeable
  · next empty =>
    rw [proper empty, span_self]
    exact .nothing wf

/-- Pages of a block that was taken can be freed again. -/
theorem freeable_of_taken {s : Finset Nat} {a b c d : Nat} (space : s ⊆ L.space)
    (subset : span a d ⊆ s) (taken : h.freeSet = s \ span a d) (lower : a ≤ b) (upper : c ≤ d) :
    Freeable L h b c := by
  have part : span b c ⊆ span a d := span_subset lower upper
  refine ⟨part.trans (subset.trans space), ?_⟩
  rw [taken]
  exact disjoint_of_subset_left part disjoint_sdiff

theorem pagesOf_unit (inside : i < L.count) (addr : Nat) :
    pagesOf addr (L.unit i) = span addr (addr + L.blockSize i) := by
  rw [pagesOf_eq_span, ← Layout.blockSize_eq inside]

theorem generateRandom_lt (g : RandomBitGenerator) {max : Nat} (positive : 0 < max) :
    (g.generateRandom max).1 < max := by
  rw [RandomBitGenerator.generateRandom]
  dsimp only
  rw [Nat.mul_comm, ← Nat.mod_eq_sub_mul_div]
  exact Nat.mod_lt _ positive

/-- A size without free blocks has no set bit. -/
theorem WellFormed.ne_of_no_blocks (wf : h.WellFormed L) (inside : i < L.count)
    (none : (h.blocks i).getNumFreeBlocks = 0) {k : Nat × Nat} (member : k ∈ h.keys) : k.1 ≠ i := by
  rintro rfl
  rw [Block.getNumFreeBlocks, (wf.bitmaps k.1 inside).counted, card_eq_zero] at none
  have set := (wf.mem_keys_iff inside).mp member
  rw [none] at set
  exact notMem_empty k.2 set

variable {index : Nat}

/-- `AllocateByLinearSearch` from an index on. The sizes before it had no free block. -/
theorem linearSearchFrom_finds (remaining : Nat) (wf : h.WellFormed L)
    (sizes : i + remaining = L.count) (ordered : index ≤ i) (below : index < L.count)
    (searched : ∀ k ∈ h.keys, k.1 < index ∨ i ≤ k.1) :
    Finds L h index (L.unit index) (linearSearchFrom (L.blockSize index) remaining i h) := by
  induction remaining generalizing i with
  | zero =>
    refine ⟨0, h, rfl, wf, id, .inl ⟨rfl, rfl, fun k member => ?_⟩⟩
    have inside : k.1 < L.count := wf.numBlocks ▸ (mem_keys.mp member).1
    exact (searched k member).resolve_right (by omega)
  | succ remaining ih =>
    have inside : i < L.count := by omega
    obtain ⟨addr, h', popped, outcome⟩ := popBlock_spec wf inside false
    rw [linearSearchFrom, popped, ok_bind]
    dsimp only
    rcases outcome with ⟨rfl, rfl, none⟩ | ⟨nonzero, aligned, wf', free, taken, merged⟩
    · rw [if_neg (not_not.mpr rfl)]
      refine ih (by omega) (by omega) fun k member => (searched k member).imp_right fun larger => ?_
      exact lt_of_le_of_ne larger (wf.ne_of_no_blocks inside none member).symm
    · rw [if_pos nonzero, (wf'.layout i inside).getSize]
      have divides := Layout.blockSize_dvd ordered inside
      have fits : L.blockSize index ≤ L.blockSize i := Nat.le_of_dvd Layout.blockSize_pos divides
      have whole := Layout.pageSize_dvd inside
      have whole' := Layout.pageSize_dvd below
      -- the range that the allocation keeps
      have kept : span addr (addr + L.blockSize index) ⊆ h.freeSet :=
        (span_subset le_rfl (by omega)).trans free
      rw [← pagesOf_unit below] at kept
      split
      · obtain ⟨h'', freed, wf'', free'', merged'⟩ := free_span_merges wf'
          (a := addr + L.blockSize index) (b := addr + L.blockSize i) (by omega)
          (Nat.dvd_add (whole.trans aligned) whole') (Nat.dvd_add (whole.trans aligned) whole)
          (freeable_of_taken wf.freeSet_subset free taken (Nat.le_add_right ..) le_rfl)
        rw [Nat.add_sub_add_left] at freed
        refine ⟨addr, h'', by rw [freed]; rfl, wf'', merged' ∘ merged,
          .inr ⟨nonzero, whole.trans aligned, kept, ?_⟩⟩
        have middle := sdiff_span_union (le_refl addr) (Nat.le_add_right addr (L.blockSize index))
          (by omega) free
        rw [span_self, union_empty] at middle
        rw [free'', taken, middle, pagesOf_unit below]
      · have same : L.blockSize i = L.blockSize index := by omega
        refine ⟨addr, h', rfl, wf', merged, .inr ⟨nonzero, whole.trans aligned, kept, ?_⟩⟩
        rw [taken, pagesOf_unit below, same]

/-! ## Random allocation -/

theorem le_countAlignments (h : KPageHeap) (neededSize alignShift remaining i possible : Nat) :
    i ≤ (h.countAlignments neededSize alignShift remaining i possible).2 := by
  induction remaining generalizing i possible with
  | zero => exact le_rfl
  | succ remaining ih =>
    rw [countAlignments]
    split
    · exact Nat.le_succ i
    · exact (Nat.le_succ i).trans (ih ..)

/-- A random alignment below the number that was counted falls on a size with a free block. -/
theorem chooseIndex_spec (neededSize alignShift rnd remaining i possible : Nat)
    (fresh : possible ≤ rnd)
    (counted : rnd < (h.countAlignments neededSize alignShift remaining i possible).1) :
    ∃ j, h.chooseIndex neededSize alignShift rnd
        ((h.countAlignments neededSize alignShift remaining i possible).2 - i) i possible = some j ∧
      i ≤ j ∧ j < i + remaining ∧ (h.blocks j).getNumFreeBlocks ≠ 0 := by
  induction remaining generalizing i possible with
  | zero =>
    have : rnd < possible := counted
    omega
  | succ remaining ih =>
    rw [countAlignments] at counted ⊢
    by_cases here : rnd < possible + h.possibleAlignments neededSize alignShift i
    · have some : (h.blocks i).getNumFreeBlocks ≠ 0 := by
        intro none
        rw [possibleAlignments, none, Nat.mul_zero] at here
        omega
      have rounds : ∀ m, i + 1 ≤ m → m - i = m - (i + 1) + 1 := fun m _ => by omega
      refine ⟨i, ?_, le_rfl, by omega, some⟩
      split
      · rw [Nat.add_sub_cancel_left, chooseIndex]
        exact if_pos here
      · rw [rounds _ (le_countAlignments ..), chooseIndex]
        exact if_pos here
    · -- the random alignment falls on a larger size, so the count went on
      split at counted
      · exact absurd counted here
      · next few =>
        rw [if_neg few]
        obtain ⟨j, choice, lower, upper, some⟩ := ih (i + 1) _ (not_lt.mp here) counted
        have rounds : ∀ m, i + 1 ≤ m → m - i = m - (i + 1) + 1 := fun m _ => by omega
        rw [rounds _ (le_countAlignments ..), chooseIndex]
        exact ⟨j, (if_neg here).trans choice, by omega, by omega, some⟩

/-- When no alignment is counted, no size has a free block. -/
theorem countAlignments_zero {neededSize alignShift remaining i possible : Nat}
    (none : (h.countAlignments neededSize alignShift remaining i possible).1 = 0) :
    possible = 0 ∧ ∀ j, i ≤ j → j < i + remaining → (h.blocks j).getNumFreeBlocks = 0 := by
  induction remaining generalizing i possible with
  | zero => exact ⟨none, fun j lower upper => absurd upper (by omega)⟩
  | succ remaining ih =>
    rw [countAlignments] at none
    split at none
    · dsimp only at none
      omega
    · obtain ⟨zero, others⟩ := ih none
      rw [Nat.add_eq_zero_iff, possibleAlignments, Nat.mul_eq_zero] at zero
      refine ⟨zero.1, fun j lower upper => ?_⟩
      rcases lower.eq_or_lt with rfl | larger
      · exact zero.2.resolve_left (Nat.add_comm .. ▸ Nat.succ_ne_zero _)
      · exact others j larger (by omega)

/-- The count begins with the first size: it stops there only when that has free
blocks enough, or is the last one. -/
theorem countAlignments_one {neededSize alignShift remaining i : Nat}
    (some : (h.countAlignments neededSize alignShift (remaining + 1) i 0).1 ≠ 0)
    (stopped : (h.countAlignments neededSize alignShift (remaining + 1) i 0).2 ≤ i + 1) :
    (h.blocks i).getNumFreeBlocks ≠ 0 := by
  intro none
  have zero : 0 + h.possibleAlignments neededSize alignShift i = 0 := by
    rw [possibleAlignments, none, Nat.mul_zero]
  rw [countAlignments] at some stopped
  rw [zero, if_neg (by decide)] at some stopped
  cases remaining with
  | zero => exact some rfl
  | succ remaining =>
    rw [countAlignments] at stopped
    split at stopped
    · exact absurd stopped (by dsimp only; omega)
    · have := h.le_countAlignments neededSize alignShift remaining (i + 1 + 1)
        (0 + h.possibleAlignments neededSize alignShift (i + 1))
      omega

/-- The size that is selected is at least the given one. When a random number
was taken for it, or any size from the given one on has a free block, there is a
free block of that size. -/
theorem selectIndex_spec (wf : h.WellFormed L) (neededSize alignShift : Nat)
    (below : index < L.count) :
    ∃ j h', h.selectIndex neededSize alignShift index = (j, h') ∧ index ≤ j ∧ j < L.count ∧
      (h' = h ∧ ((h.blocks j).getNumFreeBlocks ≠ 0 ∨
          ∀ j, index ≤ j → j < L.count → (h.blocks j).getNumFreeBlocks = 0) ∨
        (∃ rng, h' = { h with rng := rng }) ∧ (h.blocks j).getNumFreeBlocks ≠ 0) := by
  have sizes : h.numBlocks - index = h.numBlocks - (index + 1) + 1 := by
    rw [wf.numBlocks]
    omega
  rw [selectIndex]
  dsimp only
  split
  · next picks =>
    obtain ⟨j, choice, lower, upper, some⟩ := chooseIndex_spec (h := h) neededSize alignShift
      _ (h.numBlocks - index) index 0 (Nat.zero_le _) (generateRandom_lt h.rng picks.1)
    rw [choice]
    have := wf.numBlocks
    exact ⟨j, _, rfl, lower, by omega, .inr ⟨⟨_, rfl⟩, some⟩⟩
  · next stays =>
    refine ⟨index, h, rfl, le_rfl, below, .inl ⟨rfl, ?_⟩⟩
    by_cases none : (h.countAlignments neededSize alignShift (h.numBlocks - index) index 0).1 = 0
    · refine .inr fun j lower upper => (countAlignments_zero none).2 j lower ?_
      rw [wf.numBlocks]
      omega
    · have stopped := not_lt.mp fun larger => stays ⟨Nat.pos_of_ne_zero none, larger⟩
      rw [sizes] at none stopped
      exact .inl (countAlignments_one none stopped)

/-- Freeing what is left over of a block that was taken keeps the pages that are needed. -/
theorem splitBlock_finds {h' : KPageHeap} {addr numPages alignShift index : Nat}
    (wf : h.WellFormed L)
    (wf' : h'.WellFormed L) (inside : i < L.count) (nonzero : addr ≠ 0)
    (aligned : L.blockSize i ∣ addr) (free : span addr (addr + L.blockSize i) ⊆ h.freeSet)
    (taken : h'.freeSet = h.freeSet \ span addr (addr + L.blockSize i))
    (merged : h.Coalesced L → h'.Coalesced L)
    (fits : numPages * pageSize ≤ L.blockSize i) (pages : 12 ≤ alignShift) :
    Finds L h index numPages (h'.splitBlock addr (numPages * pageSize)
      (L.blockSize i - numPages * pageSize) alignShift) := by
  have whole := Layout.pageSize_dvd inside
  have start := whole.trans aligned
  rw [splitBlock]
  split
  · have leftover : L.blockSize i - numPages * pageSize + numPages * pageSize = L.blockSize i :=
      Nat.sub_add_cancel fits
    generalize L.blockSize i - numPages * pageSize = leftoverSize at leftover
    have rest : pageSize ∣ leftoverSize :=
      (Nat.dvd_add_left (Nat.dvd_mul_left ..)).mp (leftover ▸ whole)
    have bound := generateRandom_lt h'.rng
      (Nat.add_comm .. ▸ Nat.succ_pos _ : 0 < 1 + leftoverSize >>> alignShift)
    dsimp only
    rcases result : h'.rng.generateRandom (1 + leftoverSize >>> alignShift) with ⟨rnd, rng⟩
    rw [result] at bound
    dsimp only at bound ⊢
    -- the random offset is a multiple of the page size that leaves room for the needed size
    have room : rnd <<< alignShift ≤ leftoverSize := by
      rw [Nat.shiftLeft_eq]
      rw [Nat.shiftRight_eq_div_pow] at bound
      exact (Nat.mul_le_mul_right _ (by omega)).trans (Nat.div_mul_le_self ..)
    have offset : pageSize ∣ rnd <<< alignShift := by
      rw [Nat.shiftLeft_eq]
      exact Nat.dvd_mul_left_of_dvd (Nat.pow_dvd_pow 2 pages) _
    generalize rnd <<< alignShift = randomOffset at room offset
    have needed : pageSize ∣ numPages * pageSize := Nat.dvd_mul_left ..
    have taken' : KPageHeap.freeSet { h' with rng := rng } =
        h.freeSet \ span addr (addr + L.blockSize i) := taken
    have freeable {b c : Nat} := freeable_of_taken (b := b) (c := c) wf.freeSet_subset free taken'
    obtain ⟨h₁, freed₁, wf₁, free₁, merged₁⟩ := freeIf_span_merges (wf'.with_rng rng) (a := addr)
      (b := addr + randomOffset) (c := randomOffset ≠ 0) (by omega) (Nat.le_add_right ..) start
      (Nat.dvd_add start offset) (freeable le_rfl (by omega))
    have last : Freeable L h₁ (addr + randomOffset + numPages * pageSize)
        (addr + L.blockSize i) := by
      have upper := freeable (b := addr + randomOffset + numPages * pageSize) (by omega) le_rfl
      refine ⟨upper.within, ?_⟩
      rw [free₁]
      refine disjoint_union_right.mpr ⟨upper.apart, ?_⟩
      exact disjoint_of_subset_left (span_subset (Nat.le_add_right ..) le_rfl)
        (span_disjoint ..).symm
    obtain ⟨h₂, freed₂, wf₂, free₂, merged₂⟩ := freeIf_span_merges wf₁
      (c := randomOffset ≠ leftoverSize) (by omega) (by omega)
      (Nat.dvd_add (Nat.dvd_add start offset) needed) (Nat.dvd_add start whole) last
    have length₂ : addr + L.blockSize i - (addr + randomOffset + numPages * pageSize) =
        leftoverSize - randomOffset := by omega
    rw [Nat.add_sub_cancel_left] at freed₁
    rw [length₂] at freed₂
    refine ⟨addr + randomOffset, h₂, ?_, wf₂, fun coalesced => merged₂ (merged₁ (merged coalesced)),
      .inr ⟨by omega, Nat.dvd_add start offset, ?_, ?_⟩⟩
    · rw [freed₁, ok_bind, freed₂]
      rfl
    · rw [pagesOf_eq_span]
      exact (span_subset (Nat.le_add_right ..) (by omega)).trans free
    · rw [free₂, free₁, taken', sdiff_span_union (Nat.le_add_right ..) (Nat.le_add_right ..)
        (by omega) free, pagesOf_eq_span]
  · have same : L.blockSize i = numPages * pageSize := by omega
    rw [same] at free taken
    rw [← pagesOf_eq_span] at free taken
    exact ⟨addr, h', rfl, wf', merged, .inr ⟨nonzero, start, free, taken⟩⟩

/-- An alignment in whole pages is a shift of at least a page. -/
theorem twelve_le_ctz (alignPages : Nat) :
    12 ≤ (BitVec.ofNat 64 (alignPages * pageSize)).ctz.toNat := by
  by_contra small
  have nonzero : BitVec.ofNat 64 (alignPages * pageSize) ≠ 0 :=
    BitVec.ctz_lt_iff_ne_zero.mp (BitVec.lt_def.mpr ((not_le.mp small).trans (by decide)))
  have bit := BitVec.getLsbD_true_ctz_of_ne_zero nonzero
  have page : pageSize = 2 ^ 12 := rfl
  generalize (BitVec.ofNat 64 (alignPages * pageSize)).ctz.toNat = k at small bit
  rw [BitVec.getLsbD_ofNat, Bool.and_eq_true, page, Nat.testBit_mul_two_pow,
    decide_eq_false small, Bool.false_and] at bit
  exact absurd bit.2 (by decide)

/-- `AllocateByRandom`, of no more than a block of the given size. -/
theorem allocateByRandom_finds (wf : h.WellFormed L) (below : index < L.count)
    {numPages : Nat} (fits : numPages ≤ L.unit index) (alignPages : Nat) :
    Finds L h index numPages (h.allocateByRandom index numPages alignPages) := by
  rw [allocateByRandom]
  dsimp only
  obtain ⟨j, h₁, selected, larger, inside, picked⟩ := selectIndex_spec wf
    (numPages * pageSize) (BitVec.ofNat 64 (alignPages * pageSize)).ctz.toNat below
  rw [selected]
  -- only the generator has changed
  obtain ⟨wf₁, free₁, keys₁, blocks₁⟩ : h₁.WellFormed L ∧ h₁.freeSet = h.freeSet ∧
    h₁.keys = h.keys ∧ h₁.blocks = h.blocks := by
    rcases picked with ⟨rfl, -⟩ | ⟨⟨rng, rfl⟩, -⟩
    · exact ⟨wf, rfl, rfl, rfl⟩
    · exact ⟨wf.with_rng rng, rfl, rfl, rfl⟩
  obtain ⟨addr, h₂, popped, outcome⟩ := popBlock_spec wf₁ inside true
  dsimp only
  rw [popped, ok_bind]
  dsimp only
  rcases outcome with ⟨rfl, rfl, none⟩ | ⟨nonzero, aligned, wf₂, free, taken, merged⟩
  · -- the size that is looked at has a free block, unless no larger one has
    rw [if_neg (not_not.mpr rfl)]
    rw [blocks₁] at none
    rcases picked with ⟨rfl, some | all⟩ | ⟨-, some⟩
    · exact absurd none some
    · refine ⟨0, h₂, rfl, wf, id, .inl ⟨rfl, rfl, fun k member => ?_⟩⟩
      have inside : k.1 < L.count := wf.numBlocks ▸ (mem_keys.mp member).1
      by_contra large
      exact wf.ne_of_no_blocks inside (all k.1 (not_lt.mp large) inside) member rfl
    · exact absurd none some
  · rw [if_pos nonzero, (wf₂.layout j inside).getSize]
    rw [free₁] at free taken
    have merged' : h.Coalesced L → h₂.Coalesced L := fun coalesced => merged (by
      rw [Coalesced, keys₁]
      exact coalesced)
    refine splitBlock_finds wf wf₂ inside nonzero aligned free taken merged' ?_
      (twelve_le_ctz alignPages)
    have divides := Layout.blockSize_dvd larger inside
    calc numPages * pageSize ≤ L.unit index * pageSize := Nat.mul_le_mul_right _ fits
      _ = L.blockSize index := (Layout.blockSize_eq below).symm
      _ ≤ L.blockSize j := Nat.le_of_dvd Layout.blockSize_pos divides

/-- `AllocateBlock`. -/
theorem allocateBlock_finds (wf : h.WellFormed L) (below : index < L.count)
    (random : Bool) : Finds L h index (L.unit index) (h.allocateBlock index random) := by
  have layout := wf.layout index below
  rw [allocateBlock]
  split
  · rw [layout.getNumPages below]
    exact allocateByRandom_finds wf below le_rfl _
  · rw [allocateByLinearSearch, layout.getSize]
    exact linearSearchFrom_finds _ wf (by rw [wf.numBlocks]; omega) le_rfl below
      fun k _ => Nat.lt_or_ge k.1 index

theorem allocateByRandom_takes (wf : h.WellFormed L) (below : index < L.count)
    {numPages : Nat} (fits : numPages ≤ L.unit index) (alignPages : Nat) :
    Takes L h numPages (h.allocateByRandom index numPages alignPages) :=
  (allocateByRandom_finds wf below fits alignPages).takes

theorem allocateBlock_takes (wf : h.WellFormed L) (below : index < L.count)
    (random : Bool) : Takes L h (L.unit index) (h.allocateBlock index random) :=
  (allocateBlock_finds wf below random).takes

end SumiEmu.Kernel.KPageHeap
