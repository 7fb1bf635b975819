/-
# Runs of a page heap

A run is a list of calls that free ranges which are not free, and of
allocations with a block index that is large enough. Along a run no page is
covered twice, so the size that the heap reports is that of its free pages, and
every call does to the free pages what its caller can expect.
-/

import SumiEmu.Kernel.PageHeapAllocation

namespace SumiEmu.Kernel.KPageHeap

open Fallible Packing Finset

variable {L : Layout} {h : KPageHeap}

/-! ## The reported size -/

theorem sum_keys (h : KPageHeap) (f : Nat → Nat) :
    ∑ k ∈ h.keys, f k.1 = ∑ i ∈ Finset.range h.numBlocks,
      ((h.blocks i).bitmap.bitSet (h.blocks i).endOffset).card * f i := by
  rw [keys, sum_biUnion]
  · refine sum_congr rfl fun i _ => ?_
    rw [sum_image fun a _ b _ same => (Prod.mk.inj same).2]
    exact sum_const_nat fun _ _ => rfl
  · intro i _ j _ other
    refine disjoint_left.mpr fun k first second => other ?_
    obtain ⟨_, -, rfl⟩ := mem_image.mp first
    obtain ⟨_, -, same⟩ := mem_image.mp second
    exact (Prod.mk.inj same).1.symm

theorem getNumFreePages_eq_card (wf : h.WellFormed L) : h.getNumFreePages = h.freeSet.card := by
  rw [wf.freeSet_eq, wf.packed.card_biUnion]
  have units : ∑ k ∈ h.keys, (L.pages k).card = ∑ k ∈ h.keys, L.unit k.1 :=
    sum_congr rfl fun k _ => card_tile ..
  rw [units, sum_keys, getNumFreePages, ← List.sum_toFinset _ List.nodup_range, List.toFinset_range]
  refine sum_congr rfl fun i member => ?_
  have inside : i < L.count := wf.numBlocks ▸ mem_range.mp member
  have layout := wf.layout i inside
  rw [Block.getNumFreePages, Block.getNumFreeBlocks, (wf.bitmaps i inside).counted,
    layout.getNumPages inside, layout.endOffset]

/-! ## Initialization -/

/-- The layout of a heap with the seven block sizes. -/
def standardLayout (address size : Nat) (positive : 0 < address) (startAligned : pageSize ∣ address)
    (sizeAligned : pageSize ∣ size) : Layout where
  address := address
  size := size
  shifts := memoryBlockPageShifts
  positive := positive
  startAligned := startAligned
  sizeAligned := sizeAligned
  nonempty := by decide
  first := rfl
  increasing := fun i inside => by
    have all : ∀ i < 6,
        memoryBlockPageShifts.getD i 0 < memoryBlockPageShifts.getD (i + 1) 0 := by decide
    exact all i (Nat.lt_of_succ_lt_succ inside)

theorem initializeHeap_wellFormed (L : Layout) (rng : RandomBitGenerator)
    (rngs : Nat → RandomBitGenerator) :
    (initializeHeap rng rngs L.address L.size L.shifts).WellFormed L ∧
      (initializeHeap rng rngs L.address L.size L.shifts).freeSet = ∅ := by
  have block : ∀ i, i < L.count → (initializeHeap rng rngs L.address L.size L.shifts).blocks i =
      Block.initializeSize (rngs i) L.address L.size (L.shift i) (L.nextShift i) := fun i inside =>
    if_pos inside
  have noKeys : (initializeHeap rng rngs L.address L.size L.shifts).keys = ∅ := by
    refine eq_empty_of_forall_notMem fun ⟨i, offset⟩ member => ?_
    obtain ⟨inside, set⟩ := mem_keys.mp member
    rw [block i inside] at set
    have empty := (KPageBitmap.initializeBitmap_wellFormed (rngs i) (L.endOffset i)).2
    exact notMem_empty offset (empty ▸ set)
  refine ⟨⟨rfl, rfl, rfl, fun i inside => ?_, fun i inside => ?_, ?_, ?_⟩, ?_⟩
  · rw [block i inside]
    exact ⟨rfl, rfl, rfl, rfl⟩
  · rw [block i inside]
    exact (KPageBitmap.initializeBitmap_wellFormed (rngs i) (L.endOffset i)).1
  · rw [noKeys, Packed, coe_empty]
    exact Set.pairwiseDisjoint_empty
  · rw [noKeys]
    exact fun k absurdity => absurd absurdity (notMem_empty k)
  · rw [freeSet, noKeys, biUnion_empty]

/-! ## Runs -/

/-- A call of a heap, with its arguments. -/
inductive Call
  | free (addr numPages : Nat)
  | allocateBlock (index : Nat) (random : Bool)
  | allocateAligned (index numPages alignPages : Nat)
  deriving DecidableEq, Repr

/-- Make a call. `Free` returns nothing, which is written as 0. -/
def call (h : KPageHeap) : Call → Except Fault (Nat × KPageHeap)
  | .free addr numPages => do
    let h ← h.free addr numPages
    return (0, h)
  | .allocateBlock index random => h.allocateBlock index random
  | .allocateAligned index numPages alignPages => h.allocateAligned index numPages alignPages

/-- The pages inside a heap. -/
def space (h : KPageHeap) : Finset Nat := pagesOf h.heapAddress (h.heapSize / pageSize)

/-- A range that is freed is inside the heap and not free. An index comes from
`GetBlockIndex` or, for an allocation with an alignment, from `GetAlignedBlockIndex`. -/
def Call.Admissible (h : KPageHeap) : Call → Prop
  | .free addr numPages =>
    pageSize ∣ addr ∧ pagesOf addr numPages ⊆ h.space ∧ Disjoint (pagesOf addr numPages) h.freeSet
  | .allocateBlock index _ => ∃ numPages, getBlockIndex numPages = some index
  | .allocateAligned index numPages alignPages =>
    getAlignedBlockIndex numPages alignPages = some index

/-- The pages that a call is about when it returns an address. -/
def Call.pages : Call → Nat → Finset Nat
  | .free addr numPages, _ => pagesOf addr numPages
  | .allocateBlock index _, addr => pagesOf addr (getBlockNumPages index)
  | .allocateAligned _ numPages _, addr => pagesOf addr numPages

/-- What a call may do: freeing adds the pages, and an allocation returns 0 and
changes nothing, or returns and removes pages that were free. -/
def Call.Outcome (h : KPageHeap) (c : Call) (addr : Nat) (h' : KPageHeap) : Prop :=
  match c with
  | .free .. => h'.freeSet = h.freeSet ∪ c.pages addr
  | _ => (addr = 0 ∧ h' = h) ∨
    addr ≠ 0 ∧ pageSize ∣ addr ∧ c.pages addr ⊆ h.freeSet ∧ h'.freeSet = h.freeSet \ c.pages addr

/-- Make the calls of a list in turn. -/
def runCalls : KPageHeap → List Call → Except Fault KPageHeap
  | h, [] => .ok h
  | h, c :: calls => do
    let (_, h) ← h.call c
    runCalls h calls

/-- Every call of the run is admissible where it is made. -/
def Respects : KPageHeap → List Call → Prop
  | _, [] => True
  | h, c :: calls => c.Admissible h ∧ ∀ addr h', h.call c = .ok (addr, h') → Respects h' calls

theorem WellFormed.space_eq (wf : h.WellFormed L) : h.space = L.space := by
  rw [space, wf.heapAddress, wf.heapSize, pagesOf, Layout.space,
    Nat.add_div_of_dvd_left L.sizeAligned]

theorem blockIndexBelow_lt {numPages below index : Nat}
    (found : blockIndexBelow numPages below = some index) : index < below := by
  induction below with
  | zero => cases found
  | succ below ih =>
    rw [blockIndexBelow] at found
    split at found
    · cases found
      exact Nat.lt_succ_self index
    · exact (ih found).trans (Nat.lt_succ_self below)

theorem getAlignedBlockIndex_spec {numPages alignPages index : Nat}
    (found : getAlignedBlockIndex numPages alignPages = some index) :
    index < memoryBlockPageShifts.length ∧ numPages ≤ getBlockNumPages index := by
  obtain ⟨inside, fits, -⟩ := List.findIdx?_eq_some_iff_getElem.mp found
  refine ⟨inside, (Nat.le_max_left numPages alignPages).trans ?_⟩
  rw [decide_eq_true_iff] at fits
  rw [getBlockNumPages, List.getD_eq_getElem _ _ inside]
  exact fits

theorem unit_eq (standard : L.shifts = memoryBlockPageShifts) {index : Nat}
    (below : index < L.count) : L.unit index = getBlockNumPages index := by
  have size := Layout.blockSize_eq below
  rw [Layout.blockSize, Layout.shift, standard] at size
  rw [getBlockNumPages, size, Nat.mul_div_cancel _ (by decide)]

/-- One admissible call on a well-formed heap. -/
theorem call_spec (wf : h.WellFormed L) (standard : L.shifts = memoryBlockPageShifts) {c : Call}
    (admissible : c.Admissible h) :
    ∃ addr h', h.call c = .ok (addr, h') ∧ h'.WellFormed L ∧ c.Outcome h addr h' := by
  have count : L.count = memoryBlockPageShifts.length := congrArg List.length standard
  cases c with
  | free addr numPages =>
    obtain ⟨aligned, within, apart⟩ := admissible
    obtain ⟨h', freed, wf', free'⟩ := free_adds wf aligned (wf.space_eq ▸ within) apart
    refine ⟨0, h', ?_, wf', free'⟩
    rw [call, freed]
    rfl
  | allocateBlock index random =>
    obtain ⟨numPages, found⟩ := admissible
    have below : index < L.count := count ▸ blockIndexBelow_lt found
    have takes := allocateBlock_takes wf below random
    rw [unit_eq standard below] at takes
    exact takes
  | allocateAligned index numPages alignPages =>
    obtain ⟨below, fits⟩ := getAlignedBlockIndex_spec admissible
    rw [← count] at below
    rw [← unit_eq standard below] at fits
    exact allocateByRandom_takes wf below fits alignPages

theorem runCalls_from_wellFormed (wf : h.WellFormed L)
    (standard : L.shifts = memoryBlockPageShifts) {calls : List Call}
    (respects : Respects h calls) : ∃ h', runCalls h calls = .ok h' ∧ h'.WellFormed L := by
  induction calls generalizing h with
  | nil => exact ⟨h, rfl, wf⟩
  | cons c calls ih =>
    obtain ⟨admissible, others⟩ := respects
    obtain ⟨addr, h₁, result, wf₁, -⟩ := call_spec wf standard admissible
    obtain ⟨h₂, run, wf₂⟩ := ih wf₁ (others addr h₁ result)
    refine ⟨h₂, ?_, wf₂⟩
    rw [runCalls, result]
    exact run

/-- Every run of admissible calls from an initialized heap completes. In the
heap it leaves no page is covered by two set bits, and the reported size is that
of the free pages. Whatever admissible call comes next, it completes, and it
adds exactly the pages it frees, or removes exactly the range it returns, which
was free, or returns 0 and changes nothing. -/
theorem runCalls_freeSet (rng : RandomBitGenerator) (rngs : Nat → RandomBitGenerator)
    {address size : Nat} (positive : 0 < address) (startAligned : pageSize ∣ address)
    (sizeAligned : pageSize ∣ size) {calls : List Call}
    (respects : Respects (initializeHeap rng rngs address size memoryBlockPageShifts) calls) :
    (initializeHeap rng rngs address size memoryBlockPageShifts).freeSet = ∅ ∧
    ∃ h, runCalls (initializeHeap rng rngs address size memoryBlockPageShifts) calls = .ok h ∧
      (∀ k ∈ h.keys, ∀ k' ∈ h.keys, k ≠ k' →
        Disjoint ((h.blocks k.1).pages k.2) ((h.blocks k'.1).pages k'.2)) ∧
      h.freeSet ⊆ pagesOf address (size / pageSize) ∧
      h.getFreeSize = pageSize * h.freeSet.card ∧
      ∀ c : Call, c.Admissible h →
        ∃ addr h', h.call c = .ok (addr, h') ∧ c.Outcome h addr h' := by
  have standard : (standardLayout address size positive startAligned sizeAligned).shifts =
      memoryBlockPageShifts := rfl
  obtain ⟨start, empty⟩ :=
    initializeHeap_wellFormed (standardLayout address size positive startAligned sizeAligned) rng
      rngs
  obtain ⟨h, run, wf⟩ := runCalls_from_wellFormed start standard respects
  refine ⟨empty, h, run, fun k member k' member' other => ?_, ?_, ?_, fun c admissible => ?_⟩
  · rw [wf.pages_eq member, wf.pages_eq member']
    exact wf.packed member member' other
  · have space := wf.space_eq
    rw [KPageHeap.space, wf.heapAddress, wf.heapSize] at space
    exact space ▸ wf.freeSet_subset
  · rw [getFreeSize, getNumFreePages_eq_card wf, Nat.mul_comm]
  · obtain ⟨addr, h', result, -, outcome⟩ := call_spec wf standard admissible
    exact ⟨addr, h', result, outcome⟩

theorem runCalls_freeSet_allocate :
    let start := initializeHeap ⟨fun n => n, 0, 0⟩ (fun _ => ⟨fun n => n, 0, 0⟩) 0x80000000 0x40000
      memoryBlockPageShifts
    start.freeSet = ∅ ∧
    ∃ h, runCalls start
        [.free 0x80001000 0x20, .allocateAligned 1 9 2, .allocateBlock 0 true] = .ok h ∧
      (∀ k ∈ h.keys, ∀ k' ∈ h.keys, k ≠ k' →
        Disjoint ((h.blocks k.1).pages k.2) ((h.blocks k'.1).pages k'.2)) ∧
      h.freeSet ⊆ pagesOf 0x80000000 (0x40000 / pageSize) ∧
      h.getFreeSize = pageSize * h.freeSet.card ∧
      ∀ c : Call, c.Admissible h →
        ∃ addr h', h.call c = .ok (addr, h') ∧ c.Outcome h addr h' := by
  intro start
  have empty : start.freeSet = ∅ := (initializeHeap_wellFormed
    (standardLayout 0x80000000 0x40000 (by decide) (by decide) (by decide))
    _ _).2
  have within : pagesOf 0x80001000 0x20 ⊆ start.space :=
    Ico_subset_Ico (by decide) (by decide)
  refine runCalls_freeSet _ _ (by decide) (by decide) (by decide) ⟨⟨by decide, within, ?_⟩,
    fun _ _ _ => ⟨by simp only [Call.Admissible]; decide, fun _ _ _ => ⟨⟨1, by decide⟩,
      fun _ _ _ => trivial⟩⟩⟩
  rw [empty]
  exact disjoint_empty_right _

end SumiEmu.Kernel.KPageHeap
