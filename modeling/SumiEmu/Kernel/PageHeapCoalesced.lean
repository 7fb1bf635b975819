/-
# Coalescing in a page heap

Freeing a block joins it with its siblings as soon as all of them are free, and
taking a block only takes bits away. So along a run the free blocks that make up
one of the next size are never all free. Then an aligned range of free pages
lies in one free block of its size or a larger one, by induction on the size,
and an allocation of that size finds a block.
-/

import SumiEmu.Kernel.PageHeapRun

namespace SumiEmu.Kernel.KPageHeap

open Fallible Packing Finset Nat

variable {L : Layout} {h : KPageHeap} {i j n m : Nat}

namespace Layout

/-- A block that meets a larger one lies in it. -/
theorem tile_subset (ordered : i ≤ j) (inside : j < L.count) {page : Nat}
    (smaller : page ∈ tile (L.unit i) n) (larger : page ∈ tile (L.unit j) m) :
    tile (L.unit i) n ⊆ tile (L.unit j) m := by
  have split : L.unit j = L.unit i * 2 ^ (L.shift j - L.shift i) := by
    have first := L.twelve_le_shift (ordered.trans_lt inside)
    have next := L.shift_le ordered inside
    have sum : L.shift j - 12 = L.shift i - 12 + (L.shift j - L.shift i) := by omega
    rw [unit, unit, ← pow_add, ← sum]
  intro other member
  rw [mem_tile unit_pos] at smaller larger member ⊢
  rw [split, ← Nat.div_div_eq_div_mul] at larger ⊢
  rw [member, ← smaller, larger]

/-- The blocks of which a block of the next size consists lie in it. -/
theorem tile_subset_succ (inside : i + 1 < L.count) {first offset : Nat}
    (number : L.skip i + first = n * L.ratio i)
    (inRange : offset ∈ Finset.Ico first (first + L.ratio i)) :
    tile (L.unit i) (L.skip i + offset) ⊆ tile (L.unit (i + 1)) n := by
  rw [unit_succ inside, ← biUnion_tile unit_pos ratio_pos number]
  exact subset_biUnion_of_mem (fun o => tile (L.unit i) (L.skip i + o)) inRange

/-- The first of these blocks has a bit, if the block of the next size lies in the heap. -/
theorem exists_first (inside : i + 1 < L.count) (within : tile (L.unit (i + 1)) n ⊆ L.space) :
    ∃ first, L.skip i + first = n * L.ratio i := by
  have part : tile (L.unit i) (0 + n * L.ratio i) ⊆ tile (L.unit (i + 1)) n := by
    rw [unit_succ inside, ← biUnion_tile unit_pos ratio_pos (zero_add (n * L.ratio i))]
    refine subset_biUnion_of_mem (fun o => tile (L.unit i) (0 + o)) ?_
    exact left_mem_Ico.mpr (Nat.lt_add_of_pos_right ratio_pos)
  rw [zero_add] at part
  obtain ⟨first, number, -⟩ := exists_offset (lt_of_succ_lt inside) (part.trans within)
  exact ⟨first, number.symm⟩

end Layout

/-! ## Covering a free range -/

/-- A free block that meets an aligned range of no larger size covers it. -/
theorem WellFormed.covers (wf : h.WellFormed L) {k : Nat × Nat} (member : k ∈ h.keys)
    (larger : i ≤ k.1) {page : Nat} (range : page ∈ tile (L.unit i) n) (block : page ∈ L.pages k) :
    tile (L.unit i) n ⊆ L.pages k :=
  L.tile_subset larger (wf.numBlocks ▸ (mem_keys.mp member).1) range block

/-- In a coalesced heap an aligned range of free pages lies in a free block that
is at least as large. The induction is on the size: a range whose parts all lie
in blocks of their own size would consist of siblings that are all free. -/
theorem Coalesced.exists_key (wf : h.WellFormed L) (coalesced : h.Coalesced L)
    (inside : i < L.count)
    (free : tile (L.unit i) n ⊆ h.freeSet) :
    ∃ k ∈ h.keys, i ≤ k.1 ∧ tile (L.unit i) n ⊆ L.pages k := by
  induction i generalizing n with
  | zero =>
    obtain ⟨page, member⟩ := tile_nonempty L.unit_pos n
    have covered := free member
    rw [wf.freeSet_eq] at covered
    obtain ⟨k, key, block⟩ := mem_biUnion.mp covered
    exact ⟨k, key, zero_le _, wf.covers key (zero_le _) member block⟩
  | succ i ih =>
    obtain ⟨first, number⟩ := L.exists_first inside (free.trans wf.freeSet_subset)
    by_contra none
    refine coalesced i inside first n number fun offset inRange => ?_
    have part := L.tile_subset_succ inside number inRange
    obtain ⟨⟨size, bit⟩, key, larger, block⟩ := ih (lt_of_succ_lt inside) (part.trans free)
    obtain ⟨page, member⟩ := tile_nonempty L.unit_pos (L.skip i + offset)
    rcases larger.eq_or_lt with rfl | larger
    · -- the part is a free block itself
      have same : L.skip i + bit = L.skip i + offset :=
        ((mem_tile L.unit_pos).mp (block member)).symm.trans ((mem_tile L.unit_pos).mp member)
      rwa [← add_left_cancel same]
    · exact absurd ⟨(size, bit), key, larger, wf.covers key larger (part member) (block member)⟩
        none

/-- No other free block covers it. -/
theorem WellFormed.key_unique (wf : h.WellFormed L) {k k' : Nat × Nat} (member : k ∈ h.keys)
    (member' : k' ∈ h.keys) (covers : tile (L.unit i) n ⊆ L.pages k)
    (covers' : tile (L.unit i) n ⊆ L.pages k') : k = k' := by
  by_contra other
  obtain ⟨page, range⟩ := tile_nonempty L.unit_pos n
  exact disjoint_left.mp (wf.packed member member' other) (covers range) (covers' range)

/-- An allocation of the size of an aligned range of free pages finds a block. -/
theorem allocateBlock_of_free (wf : h.WellFormed L) (coalesced : h.Coalesced L)
    (inside : i < L.count) (free : tile (L.unit i) n ⊆ h.freeSet) (random : Bool) :
    ∃ addr h', h.allocateBlock i random = .ok (addr, h') ∧ addr ≠ 0 := by
  obtain ⟨addr, h', result, -, -, outcome⟩ := allocateBlock_finds wf inside random
  refine ⟨addr, h', result, ?_⟩
  rcases outcome with ⟨-, -, smaller⟩ | ⟨nonzero, -⟩
  · obtain ⟨k, key, larger, -⟩ := coalesced.exists_key wf inside free
    exact absurd (smaller k key) (not_lt.mpr larger)
  · exact nonzero

/-! ## Runs -/

theorem initializeHeap_coalesced (L : Layout) (rng : RandomBitGenerator)
    (rngs : Nat → RandomBitGenerator) :
    (initializeHeap rng rngs L.address L.size L.shifts).Coalesced L := by
  obtain ⟨wf, empty⟩ := initializeHeap_wellFormed L rng rngs
  intro i inside first n number complete
  have member := complete first (left_mem_Ico.mpr (Nat.lt_add_of_pos_right L.ratio_pos))
  obtain ⟨page, block⟩ := tile_nonempty L.unit_pos (L.skip i + first)
  have free : page ∈ (initializeHeap rng rngs L.address L.size L.shifts).freeSet := by
    rw [wf.freeSet_eq]
    exact mem_biUnion.mpr ⟨(i, first), member, block⟩
  rw [empty] at free
  exact notMem_empty page free

/-- One admissible call. -/
theorem Coalesced.call (coalesced : h.Coalesced L) (wf : h.WellFormed L)
    (standard : L.shifts = memoryBlockPageShifts) {c : Call} (admissible : c.Admissible h)
    {addr : Nat}
    {h' : KPageHeap} (result : h.call c = .ok (addr, h')) : h'.Coalesced L := by
  have count : L.count = memoryBlockPageShifts.length := congrArg List.length standard
  cases c with
  | free addr numPages =>
    obtain ⟨aligned, within, apart⟩ := admissible
    obtain ⟨h₁, freed, -, -, merged⟩ := free_merges wf aligned (wf.space_eq ▸ within) apart
    rw [KPageHeap.call, freed] at result
    cases result
    exact merged coalesced
  | allocateBlock index random =>
    obtain ⟨numPages, found⟩ := admissible
    obtain ⟨addr₁, h₁, allocated, -, merged, -⟩ :=
      allocateBlock_finds wf (count ▸ blockIndexBelow_lt found) random
    rw [KPageHeap.call, allocated] at result
    cases result
    exact merged coalesced
  | allocateAligned index numPages alignPages =>
    obtain ⟨below, fits⟩ := getAlignedBlockIndex_spec admissible
    rw [← count] at below
    rw [← unit_eq standard below] at fits
    obtain ⟨addr₁, h₁, allocated, -, merged, -⟩ := allocateByRandom_finds wf below fits alignPages
    rw [KPageHeap.call, allocateAligned, allocated] at result
    cases result
    exact merged coalesced

theorem Coalesced.runCalls (coalesced : h.Coalesced L) (wf : h.WellFormed L)
    (standard : L.shifts = memoryBlockPageShifts) {calls : List Call}
    (respects : Respects h calls) :
    ∃ h', KPageHeap.runCalls h calls = .ok h' ∧ h'.WellFormed L ∧ h'.Coalesced L := by
  induction calls generalizing h with
  | nil => exact ⟨h, rfl, wf, coalesced⟩
  | cons c calls ih =>
    obtain ⟨admissible, others⟩ := respects
    obtain ⟨addr, h₁, result, wf₁, -⟩ := call_spec wf standard admissible
    obtain ⟨h₂, run, done⟩ :=
      ih (coalesced.call wf standard admissible result) wf₁ (others addr h₁ result)
    refine ⟨h₂, ?_, done⟩
    rw [KPageHeap.runCalls, result]
    exact run

/-- A group of siblings in the bitmap of a size that has a next one. -/
theorem Coalesced.not_group (coalesced : h.Coalesced L) (wf : h.WellFormed L) (inside : i < L.count)
    (next : (h.blocks i).nextBlockShift ≠ 0) (group : Nat) :
    ¬ ∀ offset < 2 ^ ((h.blocks i).nextBlockShift - (h.blocks i).blockShift),
      (i, group * 2 ^ ((h.blocks i).nextBlockShift - (h.blocks i).blockShift) + offset) ∈
      h.keys := by
  have layout := wf.layout i inside
  rw [layout.nextBlockShift] at next ⊢
  have more : i + 1 < L.count := by
    by_contra last
    exact next (L.nextShift_last (by omega))
  rw [layout.blockShift, L.nextShift_of_lt more]
  obtain ⟨n, number⟩ := L.ratio_dvd_skip more
  intro complete
  refine coalesced i more (group * L.ratio i) (n + group) ?_ fun offset inRange => ?_
  · rw [number, add_mul, mul_comm]
  · obtain ⟨lower, upper⟩ := mem_Ico.mp inRange
    have member := complete (offset - group * L.ratio i) (by rw [← Layout.ratio]; omega)
    rw [← Layout.ratio, Nat.add_sub_cancel' lower] at member
    exact member

/-- Along every run of admissible calls from an initialized heap, no aligned
group of free blocks makes up one of the next size. So an aligned range of free
pages of a block size is covered by exactly one free block of that size or a
larger one, and an allocation of the size, at random or not, finds a block. -/
theorem runCalls_coalesced (rng : RandomBitGenerator) (rngs : Nat → RandomBitGenerator)
    {address size : Nat} (positive : 0 < address) (startAligned : pageSize ∣ address)
    (sizeAligned : pageSize ∣ size) {calls : List Call}
    (respects : Respects (initializeHeap rng rngs address size memoryBlockPageShifts) calls) :
    ∃ h, KPageHeap.runCalls (initializeHeap rng rngs address size memoryBlockPageShifts) calls =
      .ok h ∧ (∀ i < h.numBlocks, (h.blocks i).nextBlockShift ≠ 0 →
      ∀ group, ¬ ∀ offset < 2 ^ ((h.blocks i).nextBlockShift - (h.blocks i).blockShift),
      (i, group * 2 ^ ((h.blocks i).nextBlockShift - (h.blocks i).blockShift) + offset) ∈ h.keys) ∧
      ∀ i < h.numBlocks, ∀ addr, (h.blocks i).getSize ∣ addr →
      pagesOf addr (h.blocks i).getNumPages ⊆ h.freeSet → (∃! k, k ∈ h.keys ∧ i ≤ k.1 ∧
          pagesOf addr (h.blocks i).getNumPages ⊆ (h.blocks k.1).pages k.2) ∧
        ∀ random, ∃ found h', h.allocateBlock i random = .ok (found, h') ∧ found ≠ 0 := by
  have standard : (standardLayout address size positive startAligned sizeAligned).shifts =
      memoryBlockPageShifts := rfl
  generalize layoutEq : standardLayout address size positive startAligned sizeAligned =
    L at standard
  have startWf := (initializeHeap_wellFormed L rng rngs).1
  have startCoalesced := initializeHeap_coalesced L rng rngs
  subst layoutEq
  obtain ⟨h, run, wf, coalesced⟩ := startCoalesced.runCalls startWf standard respects
  refine ⟨h, run, fun i below next group => ?_, fun i below addr aligned free => ?_⟩
  · exact coalesced.not_group wf (wf.numBlocks ▸ below) next group
  · have inside := wf.numBlocks ▸ below
    have layout := wf.layout i inside
    rw [layout.getSize] at aligned
    obtain ⟨n, rfl⟩ := aligned
    rw [layout.getNumPages inside, mul_comm, pagesOf_mul inside] at free ⊢
    refine ⟨?_, allocateBlock_of_free wf coalesced inside free⟩
    obtain ⟨k, key, larger, covers⟩ := coalesced.exists_key wf inside free
    refine ⟨k, ⟨key, larger, (wf.pages_eq key).symm ▸ covers⟩, ?_⟩
    rintro k' ⟨key', -, covers'⟩
    exact wf.key_unique key' key (wf.pages_eq key' ▸ covers') covers

theorem runCalls_coalesced_allocate :
    let start := initializeHeap ⟨fun n => n, 0, 0⟩ (fun _ => ⟨fun n => n, 0, 0⟩) 0x80000000 0x40000
      memoryBlockPageShifts
    ∃ h, KPageHeap.runCalls start
        [.free 0x80001000 0x20, .allocateAligned 1 9 2, .free 0x80000000 1] = .ok h ∧
      (∀ i < h.numBlocks, (h.blocks i).nextBlockShift ≠ 0 → ∀ group,
        ¬ ∀ offset < 2 ^ ((h.blocks i).nextBlockShift - (h.blocks i).blockShift),
          (i, group * 2 ^ ((h.blocks i).nextBlockShift - (h.blocks i).blockShift) + offset) ∈
          h.keys) ∧
      ∀ i < h.numBlocks, ∀ addr, (h.blocks i).getSize ∣ addr →
        pagesOf addr (h.blocks i).getNumPages ⊆ h.freeSet →
        (∃! k, k ∈ h.keys ∧ i ≤ k.1 ∧
          pagesOf addr (h.blocks i).getNumPages ⊆ (h.blocks k.1).pages k.2) ∧
        ∀ random, ∃ found h', h.allocateBlock i random = .ok (found, h') ∧ found ≠ 0 := by
  intro start
  obtain ⟨startWf, noPages⟩ := initializeHeap_wellFormed
    (standardLayout 0x80000000 0x40000 (by decide) (by decide) (by decide))
    ⟨fun n => n, 0, 0⟩ (fun _ => ⟨fun n => n, 0, 0⟩)
  have empty : start.freeSet = ∅ := noPages
  have within : pagesOf 0x80001000 0x20 ⊆ start.space :=
    Ico_subset_Ico (by decide) (by decide)
  have first : (Call.free 0x80001000 0x20).Admissible start :=
    ⟨by decide, within, empty ▸ disjoint_empty_right _⟩
  refine runCalls_coalesced _ _ (by decide) (by decide) (by decide) ⟨first, fun _ h₁ freed =>
    ⟨by simp only [Call.Admissible]; decide, fun _ h₂ allocated => ⟨?_, fun _ _ _ => trivial⟩⟩⟩
  -- the first page was never freed, so it can be freed now
  obtain ⟨_, _, freed', wf₁, free₁⟩ := call_spec startWf rfl first
  cases freed.symm.trans freed'
  obtain ⟨_, _, allocated', wf₂, outcome⟩ := call_spec wf₁ rfl
    (c := .allocateAligned 1 9 2) (by simp only [Call.Admissible]; decide)
  cases allocated.symm.trans allocated'
  have fewer : h₂.freeSet ⊆ h₁.freeSet := by
    rcases outcome with ⟨-, rfl⟩ | ⟨-, -, -, free₂⟩
    · exact subset_rfl
    · exact free₂ ▸ sdiff_subset
  have free₁ : h₁.freeSet = start.freeSet ∪ pagesOf 0x80001000 0x20 := free₁
  rw [empty, empty_union] at free₁
  refine ⟨by decide, ?_, disjoint_of_subset_right (fewer.trans free₁.subset) ?_⟩
  · rw [wf₂.space_eq]
    exact Ico_subset_Ico (by decide) (by decide)
  · exact Ico_disjoint_Ico_consecutive ..

end SumiEmu.Kernel.KPageHeap
