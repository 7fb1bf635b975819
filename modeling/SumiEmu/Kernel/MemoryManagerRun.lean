/-
# A page group is allocated as a whole, or not at all

Whatever is taken from the managers is what the group records, so the free pages of the managers and
the pages of the group always make up the pages that were free. When a request fails, the pages of
the group go back, but those of a run only up to the end of the manager that it begins in. A run
that reaches into the next manager is not given back as a whole.

A request that finds enough pages and block infos does not fail. One that fails gives everything
back if no free page at the end of a manager meets a free page of the next one.
-/

import SumiEmu.Kernel.MemoryManager

namespace SumiEmu.Kernel.KMemoryManager

open Fallible WordBits Finset Nat
open KPageHeap (Layout memoryBlockPageShifts pagesOf getBlockIndex getBlockNumPages)

variable {L : Layout} {Ls : List Layout} {m m' : Impl} {ms ms' : List Impl} {p p' : Progress}

/-! ## Managers -/

structure Fits (L : Layout) (m : Impl) : Prop where
  standard : L.shifts = memoryBlockPageShifts
  wellFormed : m.heap.WellFormed L

/-- Managers whose heaps are in order and do not overlap. They may well be adjacent. -/
structure Matches (Ls : List Layout) (ms : List Impl) : Prop where
  fits : List.Forall₂ Fits Ls ms
  apart : Ls.Pairwise fun L K => Disjoint L.space K.space

/-- The pages that are free in one of the managers. -/
def freePages : List Impl → Finset Nat
  | [] => ∅
  | m :: ms => m.heap.freeSet ∪ freePages ms

/-- The pages of the managers. -/
def spaces : List Layout → Finset Nat
  | [] => ∅
  | L :: Ls => L.space ∪ spaces Ls

theorem mem_freePages {q : Nat} : q ∈ freePages ms ↔ ∃ m ∈ ms, q ∈ m.heap.freeSet := by
  induction ms with
  | nil => simp [freePages]
  | cons m ms ih => simp [freePages, ih]

theorem mem_spaces {q : Nat} : q ∈ spaces Ls ↔ ∃ L ∈ Ls, q ∈ L.space := by
  induction Ls with
  | nil => simp [spaces]
  | cons L Ls ih => simp [spaces, ih]

theorem Fits.freeSet_subset (fits : Fits L m) : m.heap.freeSet ⊆ L.space :=
  fits.wellFormed.freeSet_subset

theorem Matches.nil : Matches [] [] where
  fits := .nil
  apart := .nil

theorem Matches.cons_iff :
    Matches (L :: Ls) (m :: ms) ↔ Fits L m ∧ Disjoint L.space (spaces Ls) ∧ Matches Ls ms := by
  have across : Disjoint L.space (spaces Ls) ↔ ∀ K ∈ Ls, Disjoint L.space K.space := by
    constructor
    · intro apart K mem
      exact disjoint_of_subset_right (fun q page => mem_spaces.mpr ⟨K, mem, page⟩) apart
    · intro apart
      refine disjoint_left.mpr fun q here there => ?_
      obtain ⟨K, mem, page⟩ := mem_spaces.mp there
      exact disjoint_left.mp (apart K mem) here page
  constructor
  · rintro ⟨fits, apart⟩
    obtain ⟨first, others⟩ := List.forall₂_cons.mp fits
    obtain ⟨front, back⟩ := List.pairwise_cons.mp apart
    exact ⟨first, across.mpr front, others, back⟩
  · rintro ⟨first, front, others, back⟩
    exact ⟨.cons first others, List.pairwise_cons.mpr ⟨across.mp front, back⟩⟩

theorem Matches.freePages_subset (pool : Matches Ls ms) : freePages ms ⊆ spaces Ls := by
  obtain ⟨fits, -⟩ := pool
  induction fits with
  | nil => exact empty_subset _
  | cons first _ ih => exact union_subset_union first.freeSet_subset ih

theorem Matches.reverse (pool : Matches Ls ms) : Matches Ls.reverse ms.reverse where
  fits := List.forall₂_reverse_iff.mpr pool.fits
  apart := List.pairwise_reverse.mpr (pool.apart.imp fun apart => apart.symm)

theorem freePages_reverse (ms : List Impl) : freePages ms.reverse = freePages ms := by
  ext q
  simp only [mem_freePages, List.mem_reverse]

theorem Fits.allocateBlock (fits : Fits L m) {index : Nat}
    (below : index < memoryBlockPageShifts.length) (random : Bool) :
    ∃ block m', m.allocateBlock index random = .ok (block, m') ∧ Fits L m' ∧
      m'.optimizeMap = m.optimizeMap ∧
      ((block = 0 ∧ m' = m ∧ (index = 0 → m.heap.freeSet = ∅)) ∨ block ≠ 0 ∧ pageSize ∣ block ∧
        pagesOf block (getBlockNumPages index) ⊆ m.heap.freeSet ∧
        m'.heap.freeSet = m.heap.freeSet \ pagesOf block (getBlockNumPages index)) := by
  obtain ⟨standard, wf⟩ := fits
  have inside : index < L.count := by
    rw [Layout.count, standard]
    exact below
  obtain ⟨block, heap, taken, wf', -, outcome⟩ := KPageHeap.allocateBlock_finds wf inside random
  rw [KPageHeap.unit_eq standard inside] at outcome
  refine ⟨block, { m with heap }, ?_, ⟨standard, wf'⟩, rfl, ?_⟩
  · rw [Impl.allocateBlock, taken]
    rfl
  · rcases outcome with ⟨none, same, smaller⟩ | some
    · refine Or.inl ⟨none, by rw [same], ?_⟩
      rintro rfl
      -- there is no block that is smaller than a page
      have empty : m.heap.keys = ∅ :=
        eq_empty_of_forall_notMem fun k key => not_lt_zero _ (smaller k key)
      rw [wf.freeSet_eq, empty, biUnion_empty]
    · exact Or.inr some

theorem Fits.free (fits : Fits L m) {addr numPages : Nat} (aligned : pageSize ∣ addr)
    (within : pagesOf addr numPages ⊆ L.space)
    (apart : Disjoint (pagesOf addr numPages) m.heap.freeSet) :
    ∃ m', m.free addr numPages = .ok m' ∧ Fits L m' ∧ m'.optimizeMap = m.optimizeMap ∧
      m'.heap.freeSet = m.heap.freeSet ∪ pagesOf addr numPages := by
  obtain ⟨heap, freed, wf', free'⟩ := KPageHeap.free_adds fits.wellFormed aligned within apart
  refine ⟨{ m with heap }, ?_, ⟨fits.standard, wf'⟩, rfl, free'⟩
  rw [Impl.free, freed]
  rfl

/-! ## The maps -/

/-- A page of the manager whose bit is set in the map. -/
def Impl.Marked (m : Impl) (page : Nat) : Prop :=
  page ∈ m.heap.space ∧ bitAt m.optimizeMap (page - m.heap.heapAddress / pageSize) = true

/-- A page whose bit is set in the map of its manager. -/
def Marked (ms : List Impl) (page : Nat) : Prop := ∃ m ∈ ms, m.Marked page

variable {page : Nat}

theorem marked_cons : Marked (m :: ms) page ↔ m.Marked page ∨ Marked ms page :=
  List.exists_mem_cons_iff ..

theorem Fits.marked_congr (fits : Fits L m) (fits' : Fits L m')
    (same : m'.optimizeMap = m.optimizeMap) : m'.Marked = m.Marked := by
  funext page
  rw [Impl.Marked, Impl.Marked, same, fits.wellFormed.space_eq, fits'.wellFormed.space_eq,
    fits.wellFormed.heapAddress, fits'.wellFormed.heapAddress]

theorem Matches.marked_mem (pool : Matches Ls ms) (marked : Marked ms page) : page ∈ spaces Ls := by
  obtain ⟨fits, -⟩ := pool
  obtain ⟨m, member, within, -⟩ := marked
  induction fits with
  | nil => cases member
  | cons first _ ih =>
    rcases List.mem_cons.mp member with rfl | behind
    · exact mem_union_left _ (first.wellFormed.space_eq ▸ within)
    · exact mem_union_right _ (ih behind)

theorem Fits.base_le (fits : Fits L m) (within : page ∈ L.space) :
    m.heap.heapAddress / pageSize ≤ page := by
  rw [fits.wellFormed.heapAddress]
  exact (mem_Ico.mp within).1

theorem Fits.base_add_getPageOffset (fits : Fits L m) {block numPages : Nat}
    (aligned : pageSize ∣ block)
    (inside : pagesOf block numPages ⊆ L.space) (positive : 0 < numPages) :
    m.heap.heapAddress / pageSize + m.getPageOffset block = block / pageSize := by
  have base := fits.base_le (inside (mem_Ico.mpr ⟨le_rfl, Nat.lt_add_of_pos_right positive⟩))
  have start : pageSize ∣ m.heap.heapAddress := fits.wellFormed.heapAddress ▸ L.startAligned
  rw [Impl.getPageOffset]
  rw [pageSize_eq] at *
  omega

/-- The pages of a run of the manager are told by their offsets. -/
theorem Fits.offset_iff (fits : Fits L m) {block numPages page : Nat} (aligned : pageSize ∣ block)
    (inside : pagesOf block numPages ⊆ L.space) (positive : 0 < numPages)
    (within : page ∈ L.space) : m.getPageOffset block ≤ page - m.heap.heapAddress / pageSize ∧
      page - m.heap.heapAddress / pageSize < m.getPageOffset block + numPages ↔
      page ∈ pagesOf block numPages := by
  have first := fits.base_add_getPageOffset aligned inside positive
  have base := fits.base_le within
  rw [pagesOf, mem_Ico]
  omega

theorem bitAt_trackUnoptimized (map : Nat → BitVec 64) (offset numPages i : Nat) :
    bitAt (Impl.trackUnoptimized map offset numPages) i =
      (bitAt map i && !decide (offset ≤ i ∧ i < offset + numPages)) := by
  induction numPages generalizing map offset with
  | zero =>
    rw [Impl.trackUnoptimized, decide_eq_false (by omega), Bool.not_false, Bool.and_true]
  | succ numPages ih =>
    have first := bitAt_clearAt (by decide : 0 < 64) map offset i
    rw [clearAt] at first
    rw [Impl.trackUnoptimized, ih, first, Bool.and_assoc, ← decide_not, ← decide_not,
      ← Bool.decide_and]
    congr 2
    rw [eq_iff_iff]
    omega

theorem Fits.marked_trackUnoptimized (fits : Fits L m) {block numPages page : Nat}
    (aligned : pageSize ∣ block)
    (inside : pagesOf block numPages ⊆ L.space) (positive : 0 < numPages) :
    (m.trackUnoptimizedAllocation block numPages).Marked page ↔ m.Marked page ∧
    page ∉ pagesOf block numPages := by
  rw [Impl.Marked, Impl.Marked, and_assoc]
  refine and_congr_right fun within => ?_
  have offset := fits.offset_iff aligned inside positive (fits.wellFormed.space_eq ▸ within)
  rw [Impl.trackUnoptimizedAllocation, bitAt_trackUnoptimized, Bool.and_eq_true, Bool.not_eq_true',
    decide_eq_false_iff_not]
  exact and_congr_right fun _ => not_congr offset

/-- The marks of the pages that are taken go, if it is not the optimized process that takes them. -/
def Cleared (unoptimized : Bool) (F F' : Finset Nat) (marks marks' : Nat → Prop) : Prop :=
  ∀ page, marks' page ↔ marks page ∧ ¬ (unoptimized = true ∧ page ∈ F \ F')

namespace Cleared

variable {unoptimized : Bool} {F F' F'' E : Finset Nat} {marks marks' marks'' : Nat → Prop}

theorem refl (unoptimized : Bool) (F : Finset Nat) (marks : Nat → Prop) :
    Cleared unoptimized F F marks marks := by
  intro page
  rw [sdiff_self]
  exact (and_iff_left fun both => notMem_empty page both.2).symm

theorem trans (first : Cleared unoptimized F F' marks marks')
    (second : Cleared unoptimized F' F'' marks' marks'')
    (inside : F' ⊆ F) (inside' : F'' ⊆ F') : Cleared unoptimized F F'' marks marks'' := by
  intro page
  have sub := @inside page
  have sub' := @inside' page
  rw [second page, first page, mem_sdiff, mem_sdiff, mem_sdiff]
  tauto

/-- The marks of pages that were not free stay. -/
theorem lift (cleared : Cleared unoptimized F F' marks marks') (others : Nat → Prop)
    (other : Disjoint F E)
    (apart : ∀ page, others page → page ∉ F) :
    Cleared unoptimized (F ∪ E) (F' ∪ E) (fun page => marks page ∨ others page)
      fun page => marks' page ∨ others page := by
  intro page
  have outside := apart page
  have disjoint : page ∈ F → page ∉ E := fun here => disjoint_left.mp other here
  have step := cleared page
  rw [mem_sdiff] at step
  dsimp only
  rw [mem_sdiff, mem_union, mem_union, step]
  tauto

end Cleared

/-! ## Taking pages -/

/-- What has become of the free pages and of the progress: some pages went from the one to the
other. -/
def Served (F F' : Finset Nat) (p p' : Progress) : Prop :=
  ∃ S ⊆ F, F' = F \ S ∧ Separate p'.group.blocks ∧
    pagesOfBlocks p'.group.blocks = pagesOfBlocks p.group.blocks ∪ S ∧
    p'.numPages + S.card = p.numPages

namespace Served

variable {F F' F'' E : Finset Nat} {p'' : Progress}

theorem refl (separate : Separate p.group.blocks) : Served F F p p :=
  ⟨∅, empty_subset _, sdiff_empty.symm, separate, (union_empty _).symm, rfl⟩

theorem separate (served : Served F F' p p') : Separate p'.group.blocks := by
  obtain ⟨S, -, -, separate, -⟩ := served
  exact separate

theorem numPages_le (served : Served F F' p p') : p'.numPages ≤ p.numPages := by
  obtain ⟨S, -, -, -, -, count⟩ := served
  omega

theorem subset (served : Served F F' p p') : F' ⊆ F := by
  obtain ⟨S, -, left, -⟩ := served
  exact left ▸ sdiff_subset

theorem trans (first : Served F F' p p') (second : Served F' F'' p' p'') : Served F F'' p p'' := by
  obtain ⟨S, inside, left, -, recorded, count⟩ := first
  obtain ⟨S', inside', left', separate, recorded', count'⟩ := second
  rw [left] at inside'
  have apart : Disjoint S S' := (disjoint_of_subset_left inside' sdiff_disjoint).symm
  refine ⟨S ∪ S', union_subset inside (inside'.trans sdiff_subset), ?_, separate, ?_, ?_⟩
  · rw [left', left, Finset.sdiff_sdiff_left']
    ext q
    simp only [mem_sdiff, mem_union, mem_inter]
    tauto
  · rw [recorded', recorded, union_assoc]
  · rw [card_union_of_disjoint apart]
    omega

/-- The pages of the group are not free. -/
theorem disjoint (served : Served F F' p p') (apart : Disjoint (pagesOfBlocks p.group.blocks) F) :
    Disjoint (pagesOfBlocks p'.group.blocks) F' := by
  obtain ⟨S, inside, left, -, recorded, -⟩ := served
  rw [recorded, left]
  exact disjoint_union_left.mpr
    ⟨disjoint_of_subset_right sdiff_subset apart, disjoint_sdiff⟩

theorem disjoint_of_disjoint (served : Served F F' p p')
    (apart : Disjoint (pagesOfBlocks p.group.blocks) E)
    (other : Disjoint F E) : Disjoint (pagesOfBlocks p'.group.blocks) E := by
  obtain ⟨S, inside, -, -, recorded, -⟩ := served
  rw [recorded]
  exact disjoint_union_left.mpr ⟨apart, disjoint_of_subset_left inside other⟩

/-- Other free pages stay free. -/
theorem lift (served : Served F F' p p') (other : Disjoint F E) : Served (F ∪ E) (F' ∪ E) p p' := by
  obtain ⟨S, inside, left, separate, recorded, count⟩ := served
  refine ⟨S, inside.trans subset_union_left, ?_, separate, recorded, count⟩
  rw [left, union_sdiff_distrib,
    sdiff_eq_self_of_disjoint (disjoint_of_subset_left inside other).symm]

end Served

/-- There is a block info for every page that is missing. -/
structure Ample (p : Progress) : Prop where
  infos : p.numPages ≤ p.group.freeInfos
  going : p.failed = false

/-- How the loops end: with enough block infos none is missing, they stop with pages to go, and
those for single pages find all the pages there are. -/
structure Ends (single : Prop) (F' : Finset Nat) (p p' : Progress) : Prop where
  ample : Ample p → Ample p'
  infos : p'.group.freeInfos + p'.group.blocks.length = p.group.freeInfos + p.group.blocks.length
  stopped : p'.failed = true → 0 < p'.numPages
  spent : single → p'.failed = false → p'.numPages = 0 ∨ F' = ∅

namespace Ends

variable {single single' : Prop} {F' F'' : Finset Nat} {p'' : Progress}

theorem refl (going : p.failed = false) (spent : single → p.numPages = 0 ∨ F' = ∅) :
    Ends single F' p p where
  ample := id
  infos := rfl
  stopped failed := absurd (going.symm.trans failed) Bool.false_ne_true
  spent last _ := spent last

theorem trans (first : Ends single' F' p p') (second : Ends single F'' p' p'') :
    Ends single F'' p p'' where
  ample := second.ample ∘ first.ample
  infos := second.infos.trans first.infos
  stopped := second.stopped
  spent := second.spent

end Ends

/-- One more block is recorded. -/
theorem Ends.addBlock {group : KPageGroup} {block pagesPerAlloc : Nat}
    (some_pages : 0 < pagesPerAlloc) (room : pagesPerAlloc ≤ p.numPages) (going : p.failed = false)
    (added : p.group.addBlock block pagesPerAlloc = some group) :
    Ends False ∅ p { p with group, numPages := p.numPages - pagesPerAlloc } := by
  obtain ⟨⟨blocks, freeInfos⟩, numPages, failed⟩ := p
  have left : numPages - pagesPerAlloc ≤ numPages - 1 := Nat.sub_le_sub_left some_pages _
  have stopped : failed = true → 0 < numPages - pagesPerAlloc :=
    fun stopped => absurd (going.symm.trans stopped) Bool.false_ne_true
  rcases KPageGroup.addBlock_cases blocks block some_pages
    with ⟨last, nonempty, longer⟩ | ⟨none, begun⟩
  · rw [longer] at added
    cases added
    refine ⟨fun ample => ⟨?_, going⟩, ?_, stopped, False.elim⟩
    · exact (sub_le _ _).trans ample.infos
    · dsimp only
      rw [List.length_append, List.length_dropLast, List.length_singleton,
        Nat.sub_add_cancel (List.length_pos_of_ne_nil nonempty)]
  · cases freeInfos with
    | zero =>
      rw [none] at added
      cases added
    | succ freeInfos =>
      rw [begun] at added
      cases added
      refine ⟨fun ample => ⟨?_, going⟩, ?_, stopped, False.elim⟩
      · exact left.trans (sub_le_of_le_add ample.infos)
      · dsimp only
        rw [List.length_append, List.length_singleton]
        omega

/-- No block info is left for a block that is refused. -/
theorem Ends.refused {block pagesPerAlloc : Nat} {single : Prop} {F' : Finset Nat}
    (some_pages : 0 < pagesPerAlloc) (room : pagesPerAlloc ≤ p.numPages)
    (refused : p.group.addBlock block pagesPerAlloc = none) :
    Ends single F' p { p with failed := true } where
  ample ample := by
    obtain ⟨⟨blocks, freeInfos⟩, numPages, failed⟩ := p
    obtain ⟨infos, -⟩ := ample
    dsimp only at room infos refused
    rcases KPageGroup.addBlock_cases blocks block some_pages with ⟨last, -, longer⟩ | ⟨-, begun⟩
    · rw [longer] at refused
      cases refused
    · obtain ⟨freeInfos, rfl⟩ := exists_eq_succ_of_ne_zero (show freeInfos ≠ 0 by omega)
      rw [begun] at refused
      cases refused
  infos := rfl
  stopped _ := some_pages.trans_le room
  spent _ going := absurd going.symm Bool.false_ne_true

section

variable {index : Nat} (below : index < memoryBlockPageShifts.length)

include below

theorem getBlockNumPages_pos :
    0 < getBlockNumPages index := by
  revert index
  decide

theorem allocateBlocks_served (unoptimized random : Bool)
    (rounds : Nat) (fits : Fits L m) (room : rounds * getBlockNumPages index ≤ p.numPages)
    (going : p.failed = false) (separate : Separate p.group.blocks)
    (apart : Disjoint (pagesOfBlocks p.group.blocks) m.heap.freeSet) :
    ∃ m' p', allocateBlocks index unoptimized random rounds m p = .ok (m', p') ∧ Fits L m' ∧
      Served m.heap.freeSet m'.heap.freeSet p p' ∧
      Cleared unoptimized m.heap.freeSet m'.heap.freeSet m.Marked m'.Marked ∧
      Ends (index = 0 ∧ p.numPages ≤ rounds) m'.heap.freeSet p p' := by
  have some_pages := getBlockNumPages_pos below
  induction rounds generalizing m p with
  | zero =>
    exact ⟨m, p, rfl, fits, .refl separate, .refl _ _ _,
      .refl going fun last => Or.inl (le_zero.mp last.2)⟩
  | succ rounds ih =>
    obtain ⟨block, m₁, allocated, fits₁, map₁, outcome⟩ := fits.allocateBlock below random
    rw [allocateBlocks, allocated, ok_bind]
    dsimp only
    rw [succ_mul] at room
    rcases outcome with ⟨rfl, same, empty⟩ | ⟨nonzero, aligned, inside, left⟩
    · subst same
      exact ⟨m₁, p, rfl, fits, .refl separate, .refl _ _ _,
        .refl going fun last => Or.inr (empty last.1)⟩
    · rw [if_neg nonzero]
      have fresh := disjoint_of_subset_right inside apart
      cases added : p.group.addBlock block (getBlockNumPages index) with
      | none =>
        -- what was taken is given back at once
        obtain ⟨m₂, freed, fits₂, map₂, free₂⟩ :=
          fits₁.free aligned (inside.trans fits.freeSet_subset) (left ▸ disjoint_sdiff)
        refine ⟨m₂, { p with failed := true }, ?_, fits₂, ?_⟩
        · rw [freed]
          rfl
        · rw [free₂, left, sdiff_union_of_subset inside, fits.marked_congr fits₂ (map₂.trans map₁)]
          exact ⟨.refl separate, .refl _ _ _, .refused some_pages (by omega) added⟩
      | some group =>
        obtain ⟨separate₁, recorded⟩ := separate.addBlock some_pages fresh added
        have tracked : Fits L (if unoptimized
          then m₁.trackUnoptimizedAllocation block (getBlockNumPages index) else m₁) ∧
            (if unoptimized then m₁.trackUnoptimizedAllocation block (getBlockNumPages index)
              else m₁).heap = m₁.heap := by
          cases unoptimized
          · exact ⟨fits₁, rfl⟩
          · exact ⟨⟨fits₁.standard, fits₁.wellFormed⟩, rfl⟩
        have step : Served m.heap.freeSet m₁.heap.freeSet p
            { p with group, numPages := p.numPages - getBlockNumPages index } := by
          refine ⟨_, inside, left, separate₁, recorded, ?_⟩
          rw [pagesOf, card_Ico]
          dsimp only
          omega
        have cleared : Cleared unoptimized m.heap.freeSet m₁.heap.freeSet m.Marked
            (if unoptimized then m₁.trackUnoptimizedAllocation block (getBlockNumPages index)
              else m₁).Marked := by
          intro page
          rw [left, Finset.sdiff_sdiff_eq_self inside, ← fits.marked_congr fits₁ map₁]
          cases unoptimized
          · simp
          · simp [fits₁.marked_trackUnoptimized aligned (inside.trans fits.freeSet_subset)
              some_pages]
        obtain ⟨m₂, p₂, rest, fits₂, served, cleared', ends⟩ :=
          ih (p := { p with group, numPages := p.numPages - getBlockNumPages index }) tracked.1
            (by dsimp only; omega) going separate₁ (by rw [tracked.2]; exact step.disjoint apart)
        rw [tracked.2] at served cleared'
        have recording := Ends.addBlock some_pages (by omega) going added
        refine ⟨m₂, p₂, rest, fits₂, step.trans served,
          cleared.trans cleared' step.subset served.subset,
          { recording.trans ends with spent := fun last => ends.spent ⟨last.1, ?_⟩ }⟩
        have enough := last.2
        dsimp only
        omega

theorem allocateFromManagers_served (unoptimized random : Bool)
    (pool : Matches Ls ms) (going : p.failed = false) (separate : Separate p.group.blocks)
    (apart : Disjoint (pagesOfBlocks p.group.blocks) (freePages ms)) :
    ∃ ms' p', allocateFromManagers index unoptimized random ms p = .ok (ms', p') ∧ Matches Ls ms' ∧
      Served (freePages ms) (freePages ms') p p' ∧
      Cleared unoptimized (freePages ms) (freePages ms') (Marked ms) (Marked ms') ∧
      Ends (index = 0) (freePages ms') p p' := by
  induction ms generalizing Ls p with
  | nil => exact ⟨[], p, rfl, pool, .refl separate, .refl _ _ _, .refl going fun _ => Or.inr rfl⟩
  | cons m ms ih =>
    cases Ls with
    | nil => cases pool.fits
    | cons L Ls =>
      obtain ⟨fits, separated, others⟩ := Matches.cons_iff.mp pool
      have across : Disjoint L.space (freePages ms) :=
        disjoint_of_subset_right others.freePages_subset separated
      have other : Disjoint m.heap.freeSet (freePages ms) :=
        disjoint_of_subset_left fits.freeSet_subset across
      rw [freePages, disjoint_union_right] at apart
      obtain ⟨m₁, p₁, first, fits₁, served, cleared, ends⟩ :=
        allocateBlocks_served below unoptimized random (p.numPages / getBlockNumPages index) fits
        (div_mul_le_self _ _) going separate apart.1
      have step : Cleared unoptimized (freePages (m :: ms)) (freePages (m₁ :: ms))
        (Marked (m :: ms)) (Marked (m₁ :: ms)) := by
        have lifted := cleared.lift (Marked ms) other fun page marked free =>
          disjoint_left.mp separated (fits.freeSet_subset free) (others.marked_mem marked)
        intro page
        rw [marked_cons, marked_cons]
        exact lifted page
      rw [allocateFromManagers, first, ok_bind]
      dsimp only
      split
      · rename_i failed
        exact ⟨m₁ :: ms, p₁, rfl, Matches.cons_iff.mpr ⟨fits₁, separated, others⟩,
          served.lift other, step,
          { ends with spent := fun _ going => absurd (going.symm.trans failed) Bool.false_ne_true }⟩
      · rename_i failed
        have going₁ := Bool.eq_false_iff.mpr failed
        obtain ⟨ms₂, p₂, rest, others₂, served₂, cleared₂, ends₂⟩ :=
          ih others going₁ served.separate (served.disjoint_of_disjoint apart.2 other)
        have other₁ := (disjoint_of_subset_left fits₁.freeSet_subset across).symm
        have lifted := served₂.lift other₁
        rw [union_comm, union_comm (freePages ms₂)] at lifted
        have step₂ : Cleared unoptimized (freePages (m₁ :: ms)) (freePages (m₁ :: ms₂))
          (Marked (m₁ :: ms)) (Marked (m₁ :: ms₂)) := by
          have lifted := cleared₂.lift m₁.Marked other₁ fun page marked free =>
            disjoint_left.mp separated (fits₁.wellFormed.space_eq ▸ marked.1)
              (others.freePages_subset free)
          intro page
          rw [marked_cons, marked_cons, or_comm, or_comm (a := m₁.Marked page)]
          rw [union_comm, union_comm (freePages ms₂)] at lifted
          exact lifted page
        rw [rest]
        refine ⟨m₁ :: ms₂, p₂, rfl, Matches.cons_iff.mpr ⟨fits₁, separated, others₂⟩,
          (served.lift other).trans lifted,
          step.trans step₂ (served.lift other).subset lifted.subset,
          { ends.trans ends₂ with spent := fun single going => ?_ }⟩
        -- one page at a time, this manager has given all its pages, and so have the others
        have whole : p.numPages ≤ p.numPages / getBlockNumPages index := by
          rw [single, show getBlockNumPages 0 = 1 from rfl, Nat.div_one]
        rcases ends.spent ⟨single, whole⟩ going₁ with done | empty
        · exact Or.inl (le_zero.mp (served₂.numPages_le.trans done.le))
        · refine (ends₂.spent single going).imp_right fun empty₂ => ?_
          rw [freePages, empty, empty₂, union_empty]

end

theorem allocateSizes_served (unoptimized random : Bool) (index : Nat)
    (below : index ≤ memoryBlockPageShifts.length) (pool : Matches Ls ms) (going : p.failed = false)
    (separate : Separate p.group.blocks)
    (apart : Disjoint (pagesOfBlocks p.group.blocks) (freePages ms)) :
    ∃ ms' p', allocateSizes unoptimized random index ms p = .ok (ms', p') ∧ Matches Ls ms' ∧
      Served (freePages ms) (freePages ms') p p' ∧
      Cleared unoptimized (freePages ms) (freePages ms') (Marked ms) (Marked ms') ∧
      Ends (0 < index) (freePages ms') p p' := by
  induction index generalizing ms p with
  | zero =>
    exact ⟨ms, p, rfl, pool, .refl separate, .refl _ _ _,
      .refl going fun none => absurd none (lt_irrefl 0)⟩
  | succ index ih =>
    rw [allocateSizes]
    split
    · obtain ⟨ms₁, p₁, first, pool₁, served, cleared, ends⟩ :=
        allocateFromManagers_served below unoptimized random pool going separate apart
      rw [first, ok_bind]
      dsimp only
      split
      · rename_i failed
        exact ⟨ms₁, p₁, rfl, pool₁, served, cleared,
          { ends with spent := fun _ going => absurd (going.symm.trans failed) Bool.false_ne_true }⟩
      · rename_i failed
        have going₁ := Bool.eq_false_iff.mpr failed
        obtain ⟨ms₂, p₂, rest, pool₂, served₂, cleared₂, ends₂⟩ :=
          ih (le_of_lt below) pool₁ going₁ served.separate (served.disjoint apart)
        refine ⟨ms₂, p₂, rest, pool₂, served.trans served₂,
          cleared.trans cleared₂ served.subset served₂.subset,
          { ends.trans ends₂ with spent := fun _ going => ?_ }⟩
        rcases Nat.eq_zero_or_pos index with single | larger
        · -- single pages are asked for last
          subst single
          cases rest
          exact ends.spent rfl going
        · exact ends₂.spent larger going
    · rename_i done
      exact ⟨ms, p, rfl, pool, .refl separate, .refl _ _ _,
        .refl going fun _ => Or.inl (Nat.eq_zero_of_not_pos done)⟩

/-! ## Giving pages back -/

/-- The pages of a block that lie in the manager it begins in. -/
def clip : List Layout → KBlockInfo → Finset Nat
  | [], _ => ∅
  | L :: Ls, b => if b.pageIndex ∈ L.space then b.pages ∩ L.space else clip Ls b

def clipped (Ls : List Layout) : List KBlockInfo → Finset Nat
  | [] => ∅
  | b :: blocks => clip Ls b ∪ clipped Ls blocks

theorem clip_subset (Ls : List Layout) (b : KBlockInfo) : clip Ls b ⊆ b.pages := by
  induction Ls with
  | nil => exact empty_subset _
  | cons L Ls ih =>
    rw [clip]
    split
    · exact inter_subset_left
    · exact ih

theorem clipped_subset (Ls : List Layout) (blocks : List KBlockInfo) :
    clipped Ls blocks ⊆ pagesOfBlocks blocks := by
  induction blocks with
  | nil => exact empty_subset _
  | cons b blocks ih => exact union_subset_union (clip_subset Ls b) ih

/-- The manager of an address is the one that has its page. -/
theorem Fits.has_iff (fits : Fits L m) (b : KBlockInfo) :
    m.heap.heapAddress ≤ b.getAddress ∧ b.getAddress < m.getEndAddress ↔ b.pageIndex ∈ L.space := by
  have start := Nat.div_mul_cancel L.startAligned
  have stop := Nat.div_mul_cancel (Nat.dvd_add L.startAligned L.sizeAligned)
  rw [Impl.getEndAddress, fits.wellFormed.heapAddress, fits.wellFormed.heapSize, Layout.space,
    mem_Ico, KBlockInfo.getAddress]
  rw [pageSize_eq] at *
  omega

/-- What is freed of a block is what lies before the end of the manager. -/
theorem Fits.pagesOf_eq (fits : Fits L m) {b : KBlockInfo} (here : b.pageIndex ∈ L.space) :
    pagesOf b.getAddress (min b.numPages ((m.getEndAddress - b.getAddress) / pageSize)) = b.pages ∩
      L.space := by
  have stop := Nat.div_mul_cancel (Nat.dvd_add L.startAligned L.sizeAligned)
  have rest : (m.getEndAddress - b.getAddress) / pageSize =
      (L.address + L.size) / pageSize - b.pageIndex := by
    rw [Impl.getEndAddress, fits.wellFormed.heapAddress, fits.wellFormed.heapSize,
      KBlockInfo.getAddress, ← stop, ← Nat.sub_mul, Nat.mul_div_cancel _ (by decide),
      Nat.mul_div_cancel _ (by decide)]
  obtain ⟨lower, upper⟩ := mem_Ico.mp here
  rw [rest, pagesOf, KBlockInfo.getAddress, Nat.mul_div_cancel _ (by decide), b.pages_eq,
    Layout.space, Finset.Ico_inter_Ico, max_eq_left lower]
  congr 1
  omega

theorem freeNode_adds {b : KBlockInfo} (pool : Matches Ls ms) (begins : b.pageIndex ∈ spaces Ls)
    (apart : Disjoint b.pages (freePages ms)) :
    ∃ ms', freeNode b ms = .ok ms' ∧ Matches Ls ms' ∧ freePages ms' = freePages ms ∪ clip Ls b ∧
      Marked ms' = Marked ms := by
  induction ms generalizing Ls with
  | nil =>
    cases pool.fits
    exact absurd begins (notMem_empty _)
  | cons m ms ih =>
    cases Ls with
    | nil => cases pool.fits
    | cons L Ls =>
      obtain ⟨fits, separated, others⟩ := Matches.cons_iff.mp pool
      rw [freePages, disjoint_union_right] at apart
      rw [freeNode, clip]
      by_cases here : b.pageIndex ∈ L.space
      · have range := fits.pagesOf_eq here
        obtain ⟨m', freed, fits', map', free'⟩ : ∃ m', m.free b.getAddress
            (min b.numPages ((m.getEndAddress - b.getAddress) / pageSize)) = .ok m' ∧ Fits L m' ∧
            m'.optimizeMap = m.optimizeMap ∧ m'.heap.freeSet = m.heap.freeSet ∪
              pagesOf b.getAddress (min b.numPages ((m.getEndAddress - b.getAddress) / pageSize)) :=
          fits.free (dvd_mul_left _ _) (range ▸ inter_subset_right)
            (range ▸ disjoint_of_subset_left inter_subset_left apart.1)
        rw [if_pos ((fits.has_iff b).mpr here), if_pos here]
        dsimp only
        rw [freed]
        refine ⟨m' :: ms, rfl, Matches.cons_iff.mpr ⟨fits', separated, others⟩, ?_, ?_⟩
        · rw [freePages, freePages, free', range, union_right_comm]
        · funext q
          rw [marked_cons, marked_cons, fits.marked_congr fits' map']
      · have behind : b.pageIndex ∈ spaces Ls := (mem_union.mp begins).resolve_left here
        obtain ⟨ms', freed, others', free', marks⟩ := ih others behind apart.2
        rw [if_neg ((fits.has_iff b).not.mpr here), if_neg here, freed]
        refine ⟨m :: ms', rfl, Matches.cons_iff.mpr ⟨fits, separated, others'⟩, ?_, ?_⟩
        · rw [freePages, freePages, free', union_assoc]
        · funext q
          rw [marked_cons, marked_cons, marks]

theorem freeGroup_adds {blocks : List KBlockInfo} (pool : Matches Ls ms)
    (separate : Separate blocks)
    (begin_inside : pagesOfBlocks blocks ⊆ spaces Ls)
    (apart : Disjoint (pagesOfBlocks blocks) (freePages ms)) :
    ∃ ms', freeGroup blocks ms = .ok ms' ∧ Matches Ls ms' ∧
      freePages ms' = freePages ms ∪ clipped Ls blocks ∧ Marked ms' = Marked ms := by
  induction blocks generalizing ms with
  | nil => exact ⟨ms, rfl, pool, (union_empty _).symm, rfl⟩
  | cons b blocks ih =>
    obtain ⟨some_pages, fresh, others⟩ := Separate.cons_iff.mp separate
    rw [pagesOfBlocks, disjoint_union_left] at apart
    rw [pagesOfBlocks, union_subset_iff] at begin_inside
    have begins : b.pageIndex ∈ spaces Ls := begin_inside.1 (by
      rw [b.pages_eq, mem_Ico]
      omega)
    obtain ⟨ms₁, first, pool₁, free₁, marks₁⟩ := freeNode_adds pool begins apart.1
    have apart₁ : Disjoint (pagesOfBlocks blocks) (freePages ms₁) := by
      rw [free₁]
      exact disjoint_union_right.mpr
        ⟨apart.2, (disjoint_of_subset_left (clip_subset Ls b) fresh).symm⟩
    obtain ⟨ms₂, rest, pool₂, free₂, marks₂⟩ := ih pool₁ others begin_inside.2 apart₁
    refine ⟨ms₂, ?_, pool₂, ?_, marks₂.trans marks₁⟩
    · rw [freeGroup, first]
      exact rest
    · rw [free₂, free₁, union_assoc]
      rfl

/-- A block that lies in one manager is given back as a whole. -/
theorem clip_eq_iff {b : KBlockInfo} (some_pages : 0 < b.numPages)
    (apart : Ls.Pairwise fun L K => Disjoint L.space K.space) :
    b.pages ⊆ clip Ls b ↔ ∃ L ∈ Ls, b.pages ⊆ L.space := by
  have first : b.pageIndex ∈ b.pages := by
    rw [b.pages_eq, mem_Ico]
    omega
  induction Ls with
  | nil =>
    refine ⟨fun inside => absurd (inside first) (notMem_empty _), ?_⟩
    rintro ⟨L, mem, -⟩
    cases mem
  | cons L Ls ih =>
    obtain ⟨front, back⟩ := List.pairwise_cons.mp apart
    rw [clip]
    by_cases here : b.pageIndex ∈ L.space
    · rw [if_pos here, subset_inter_iff, and_iff_right (Finset.Subset.refl _)]
      refine ⟨fun inside => ⟨L, List.mem_cons_self, inside⟩, ?_⟩
      rintro ⟨K, mem, inside⟩
      rcases List.mem_cons.mp mem with rfl | mem
      · exact inside
      · exact absurd (inside first) (disjoint_left.mp (front K mem) here)
    · rw [if_neg here]
      refine (ih back).trans ?_
      constructor
      · rintro ⟨K, mem, inside⟩
        exact ⟨K, List.mem_cons_of_mem _ mem, inside⟩
      · rintro ⟨K, mem, inside⟩
        rcases List.mem_cons.mp mem with rfl | mem
        · exact absurd (inside first) here
        · exact ⟨K, mem, inside⟩

theorem clipped_eq_iff {blocks : List KBlockInfo} (separate : Separate blocks)
    (apart : Ls.Pairwise fun L K => Disjoint L.space K.space) :
    pagesOfBlocks blocks ⊆ clipped Ls blocks ↔ ∀ b ∈ blocks, ∃ L ∈ Ls, b.pages ⊆ L.space := by
  induction blocks with
  | nil => simp [pagesOfBlocks]
  | cons b blocks ih =>
    obtain ⟨some_pages, fresh, others⟩ := Separate.cons_iff.mp separate
    rw [List.forall_mem_cons, ← ih others, ← clip_eq_iff some_pages apart, pagesOfBlocks, clipped,
      union_subset_iff]
    -- what is given back of one block is no page of another
    constructor
    · rintro ⟨here, behind⟩
      constructor
      · intro q page
        refine (mem_union.mp (here page)).resolve_right fun other => ?_
        exact disjoint_left.mp fresh page (clipped_subset Ls blocks other)
      · intro q page
        refine (mem_union.mp (behind page)).resolve_left fun other => ?_
        exact disjoint_left.mp fresh (clip_subset Ls b other) page
    · rintro ⟨here, behind⟩
      exact ⟨here.trans subset_union_left, behind.trans subset_union_right⟩

/-- What has become of the free pages as a whole tells what has become of those of each manager. -/
theorem Matches.freeSets {T : Finset Nat} (pool : Matches Ls ms) (pool' : Matches Ls ms')
    (whole : freePages ms' = freePages ms \ T) :
    List.Forall₂ (fun m m' : Impl => m'.heap.freeSet = m.heap.freeSet \ T) ms ms' := by
  induction Ls generalizing ms ms' with
  | nil =>
    cases pool.fits
    cases pool'.fits
    exact .nil
  | cons L Ls ih =>
    obtain ⟨fits, -⟩ := id pool
    cases fits with
    | @cons _ m _ ms _ _ =>
      obtain ⟨fits', -⟩ := id pool'
      cases fits' with
      | @cons _ m' _ ms' _ _ =>
        obtain ⟨here, separated, others⟩ := Matches.cons_iff.mp pool
        obtain ⟨here', -, others'⟩ := Matches.cons_iff.mp pool'
        have apart {q : Nat} (inside : q ∈ L.space) (behind : q ∈ spaces Ls) : False :=
          disjoint_left.mp separated inside behind
        rw [Finset.ext_iff] at whole
        simp only [freePages, mem_union, mem_sdiff] at whole
        refine .cons ?_ (ih others others' ?_)
        · ext q
          rw [mem_sdiff]
          constructor
          · intro free
            obtain ⟨old, kept⟩ := (whole q).mp (Or.inl free)
            refine ⟨old.resolve_right fun behind => ?_, kept⟩
            exact apart (here'.freeSet_subset free) (others.freePages_subset behind)
          · rintro ⟨old, kept⟩
            refine ((whole q).mpr ⟨Or.inl old, kept⟩).resolve_right fun behind => ?_
            exact apart (here.freeSet_subset old) (others'.freePages_subset behind)
        · ext q
          rw [mem_sdiff]
          constructor
          · intro free
            obtain ⟨old, kept⟩ := (whole q).mp (Or.inr free)
            refine ⟨old.resolve_left fun before => ?_, kept⟩
            exact apart (here.freeSet_subset before) (others'.freePages_subset free)
          · rintro ⟨old, kept⟩
            refine ((whole q).mpr ⟨Or.inr old, kept⟩).resolve_left fun before => ?_
            exact apart (here'.freeSet_subset before) (others.freePages_subset old)

/-! ## The request as a whole -/

/-- A run does not reach from one manager into another. -/
def InOneManager (managers : List Impl) (run : KBlockInfo) : Prop :=
  ∃ m ∈ managers, run.pages ⊆ m.heap.space

/-- What has been promised: with success, the group has as many pages as were asked for, and these
were free and are not any more. Otherwise the group is empty, and the same pages are free as
before. -/
def AllOrNothing (managers : List Impl) (numPages : Nat) : Result × List Impl × KPageGroup → Prop
  | (.success, managers', group) =>
    group.getNumPages = numPages ∧ Separate group.blocks ∧
      pagesOfBlocks group.blocks ⊆ freePages managers ∧
      List.Forall₂ (fun m m' : Impl => m'.heap.freeSet =
        m.heap.freeSet \ pagesOfBlocks group.blocks) managers managers'
  | (_, managers', group) =>
    group.blocks = [] ∧ List.Forall₂ (fun m m' : Impl => m'.heap.freeSet = m.heap.freeSet) managers
      managers'

theorem Matches.order (pool : Matches Ls ms) (dir : Direction) :
    ∃ Ks, Matches Ks (inOrder dir ms) ∧ ∀ order, Matches Ks order →
      Matches Ls (inOrder dir order) := by
  cases dir with
  | fromFront => exact ⟨Ls, pool, fun _ same => same⟩
  | fromBack =>
    refine ⟨Ls.reverse, pool.reverse, fun order same => ?_⟩
    have back := same.reverse
    rw [List.reverse_reverse] at back
    exact back

theorem freePages_inOrder (dir : Direction) (ms : List Impl) :
    freePages (inOrder dir ms) = freePages ms := by
  cases dir with
  | fromFront => rfl
  | fromBack => exact freePages_reverse ms

theorem marked_inOrder (dir : Direction) (ms : List Impl) :
    Marked (inOrder dir ms) = Marked ms := by
  funext q
  cases dir with
  | fromFront => rfl
  | fromBack => simp only [Marked, inOrder, List.mem_reverse]

theorem forall₂_inOrder {R : Impl → Impl → Prop} {order : List Impl} (dir : Direction)
    (related : List.Forall₂ R (inOrder dir ms) order) : List.Forall₂ R ms (inOrder dir order) := by
  cases dir with
  | fromFront => exact related
  | fromBack =>
    have back := List.forall₂_reverse_iff.mpr related
    rw [inOrder, List.reverse_reverse] at back
    exact back

theorem Matches.inOneManager_iff (pool : Matches Ls ms) (run : KBlockInfo) :
    InOneManager ms run ↔ ∃ L ∈ Ls, run.pages ⊆ L.space := by
  obtain ⟨fits, -⟩ := pool
  rw [InOneManager]
  induction fits with
  | nil => simp
  | cons first _ ih =>
    rw [List.exists_mem_cons_iff, List.exists_mem_cons_iff, first.wellFormed.space_eq, ih]

theorem blockIndexBelow_isSome {numPages below : Nat} (some_pages : 0 < numPages)
    (positive : 0 < below) : ∃ index, KPageHeap.blockIndexBelow numPages below = some index := by
  induction below with
  | zero => exact absurd positive (lt_irrefl 0)
  | succ below ih =>
    rw [KPageHeap.blockIndexBelow]
    split
    · exact ⟨below, rfl⟩
    · rename_i small
      cases below with
      | zero => exact absurd some_pages small
      | succ below => exact ih (succ_pos below)

theorem freePages_congr (same : List.Forall₂
    (fun m m' : Impl => m'.heap.freeSet = m.heap.freeSet) ms ms') :
    freePages ms' = freePages ms := by
  induction same with
  | nil => rfl
  | cons first _ ih => rw [freePages, freePages, first, ih]

theorem sdiff_union_eq_iff {F S C : Finset Nat} (inside : S ⊆ F) (within : C ⊆ S) :
    F \ S ∪ C = F ↔ S ⊆ C := by
  constructor
  · intro whole q taken
    have free : q ∈ F \ S ∪ C := by
      rw [whole]
      exact inside taken
    rcases mem_union.mp free with left | back
    · exact absurd taken (mem_sdiff.mp left).2
    · exact back
  · intro back
    rw [Finset.Subset.antisymm within back]
    exact sdiff_union_of_subset inside

theorem inOneManager_inOrder (dir : Direction) (run : KBlockInfo) :
    InOneManager (inOrder dir ms) run ↔ InOneManager ms run := by
  cases dir with
  | fromFront => rfl
  | fromBack => simp only [InOneManager, inOrder, List.mem_reverse]

/-- The free pages of each manager are the same. -/
def SameFreeSets (ms ms' : List Impl) : Prop :=
  List.Forall₂ (fun m m' : Impl => m'.heap.freeSet = m.heap.freeSet) ms ms'

/-- On failure, exactly the runs that lie in one manager are given back. -/
theorem failWith_spec {Ks : List Layout} {order : List Impl} (result : Result) (dir : Direction)
    (before : Matches Ks (inOrder dir ms)) (pool : Matches Ks order)
    (served : Served (freePages (inOrder dir ms)) (freePages order) q p)
    (empty : q.group.blocks = []) :
    ∃ order', failWith result p.group dir order =
      .ok (result, inOrder dir order', p.group.finalize) ∧ Matches Ks order' ∧
      Marked order' = Marked order ∧
      (SameFreeSets ms (inOrder dir order') ↔ ∀ run ∈ p.group.blocks, InOneManager ms run) := by
  obtain ⟨S, inside, left, separate, recorded, -⟩ := served
  rw [empty, pagesOfBlocks, empty_union] at recorded
  obtain ⟨order', freed, pool', free', marks⟩ := freeGroup_adds pool separate
    (recorded ▸ inside.trans before.freePages_subset) (by rw [recorded, left]; exact disjoint_sdiff)
  refine ⟨order', by rw [failWith, freed]; rfl, pool', marks, ?_⟩
  have restored : SameFreeSets ms (inOrder dir order') ↔
      freePages order' = freePages (inOrder dir ms) := by
    constructor
    · intro same
      rw [freePages_inOrder, ← freePages_congr same, freePages_inOrder]
    · intro same
      refine forall₂_inOrder dir ?_
      have whole : freePages order' = freePages (inOrder dir ms) \ ∅ := by rw [same, sdiff_empty]
      refine (before.freeSets pool' whole).imp fun m m' eq => ?_
      rw [eq, sdiff_empty]
  rw [restored, free', left, ← recorded,
    sdiff_union_eq_iff (recorded ▸ inside) (clipped_subset _ _),
    clipped_eq_iff separate before.apart]
  refine forall₂_congr fun run _ => ?_
  rw [← before.inOneManager_iff run, inOneManager_inOrder]

/-- What a request does: it takes the pages `S`. If it fails, these are fewer than were asked for,
and the runs that they make up are given back as far as they lie in one manager. -/
structure Outcome (Ls : List Layout) (ms : List Impl) (freeInfos numPages : Nat)
    (unoptimized : Bool)
    (S : Finset Nat) (r : Result × List Impl × KPageGroup) : Prop where
  taken : S ⊆ freePages ms
  pool : Matches Ls r.2.1
  marked : ∀ page, Marked r.2.1 page ↔ Marked ms page ∧ ¬ (unoptimized = true ∧ page ∈ S)
  success : r.1 = .success → S.card = numPages ∧ Separate r.2.2.blocks ∧
    pagesOfBlocks r.2.2.blocks = S ∧
    List.Forall₂ (fun m m' : Impl => m'.heap.freeSet = m.heap.freeSet \ S) ms r.2.1
  failure : r.1 ≠ .success → r.2.2.blocks = [] ∧ ∃ runs, Separate runs ∧ pagesOfBlocks runs = S ∧
    S.card < numPages ∧ runs.length ≤ freeInfos ∧
    (SameFreeSets ms r.2.1 ↔ ∀ run ∈ runs, InOneManager ms run)
  enough : numPages ≤ (freePages ms).card → numPages ≤ freeInfos → r.1 = .success

theorem allocatePageGroupImpl_outcome {numPages : Nat} (pool : Matches Ls ms)
    (some_pages : 0 < numPages)
    (freeInfos : Nat) (dir : Direction) (unoptimized random : Bool) :
    ∃ S r, allocatePageGroupImpl ms freeInfos numPages dir unoptimized random = .ok r ∧
      Outcome Ls ms freeInfos numPages unoptimized S r := by
  obtain ⟨heapIndex, found⟩ :=
    blockIndexBelow_isSome some_pages (by decide : 0 < memoryBlockPageShifts.length)
  have below : heapIndex + 1 ≤ memoryBlockPageShifts.length := KPageHeap.blockIndexBelow_lt found
  have chosen : getBlockIndex numPages = some heapIndex := found
  obtain ⟨Ks, before, back⟩ := pool.order dir
  have nothing : Separate (Progress.mk { freeInfos } numPages false).group.blocks :=
    ⟨fun b mem => absurd mem List.not_mem_nil, .nil⟩
  obtain ⟨order, p, result, order_pool, served, cleared, ends⟩ :=
    allocateSizes_served unoptimized random (heapIndex + 1) below before rfl nothing
      (disjoint_empty_left _)
  obtain ⟨S, inside, left, separate, recorded, count⟩ := id served
  rw [pagesOfBlocks, empty_union] at recorded
  have marked (page : Nat) : Marked order page ↔ Marked ms page ∧
      ¬ (unoptimized = true ∧ page ∈ S) := by
    have step := cleared page
    rw [left, Finset.sdiff_sdiff_eq_self inside, marked_inOrder] at step
    exact step
  have taken : S ⊆ freePages ms := (freePages_inOrder dir ms) ▸ inside
  have infos : p.group.blocks.length ≤ freeInfos := (le_add_left ..).trans ends.infos.le
  have failing (code : Result) (failed : code ≠ .success) (missing : 0 < p.numPages)
      (none : numPages ≤ (freePages ms).card → numPages ≤ freeInfos → False) :
      ∃ r, failWith code p.group dir order = .ok r ∧
        Outcome Ls ms freeInfos numPages unoptimized S r := by
    obtain ⟨order', given_back, pool', marks, restored⟩ :=
      failWith_spec code dir before order_pool served rfl
    refine ⟨_, given_back, taken, back order' pool', fun page => ?_,
      fun success => absurd success failed,
      fun _ => ⟨rfl, _, separate, recorded, ?_, infos, restored⟩,
      fun pages infos => (none pages infos).elim⟩
    · dsimp only
      rw [marked_inOrder, marks, marked page]
    · dsimp only at count
      omega
  rw [allocatePageGroupImpl, chosen]
  dsimp only
  rw [result, ok_bind]
  dsimp only
  split_ifs with stopped done
  · obtain ⟨r, given_back, outcome⟩ := failing .outOfResource (by decide) (ends.stopped stopped)
      fun _ ample => Bool.false_ne_true ((ends.ample ⟨ample, rfl⟩).going.symm.trans stopped)
    exact ⟨S, r, given_back, outcome⟩
  · refine ⟨S, _, rfl, taken, back order order_pool, fun page => ?_,
      fun _ => ⟨?_, separate, recorded, forall₂_inOrder dir (before.freeSets order_pool left)⟩,
      fun failed => absurd rfl failed, fun _ _ => rfl⟩
    · dsimp only
      rw [marked_inOrder, marked page]
    · dsimp only at count
      omega
  · -- all pages have been taken, and these are too few
    have empty := (ends.spent (succ_pos heapIndex) (Bool.eq_false_iff.mpr stopped)).resolve_left
      done
    rw [left, sdiff_eq_empty_iff_subset, freePages_inOrder] at empty
    have all := card_le_card empty
    have missing := Nat.pos_of_ne_zero done
    dsimp only at count
    obtain ⟨r, given_back, outcome⟩ := failing .outOfMemory (by decide) missing fun pages _ => by
      omega
    exact ⟨S, r, given_back, outcome⟩

/-! ## All or nothing -/

/-- Two free pages that are adjacent are pages of one manager. -/
def BordersApart (managers : List Impl) : Prop :=
  ∀ page ∈ freePages managers, page + 1 ∈ freePages managers → InOneManager managers ⟨page, 2⟩

theorem Matches.unique (pool : Matches Ls ms) {K : Layout} (member : L ∈ Ls) (member' : K ∈ Ls)
    (inside : page ∈ L.space) (inside' : page ∈ K.space) : L = K := by
  by_contra other
  have symm : Std.Symm fun L K : Layout => Disjoint L.space K.space := ⟨fun _ _ apart => apart.symm⟩
  have apart := pool.apart.forall member member' other
  exact disjoint_left.mp apart inside inside'

/-- A run lies in one manager if any two of its pages that are adjacent do. -/
theorem Matches.inOneManager_of_adjacent (pool : Matches Ls ms) {run : KBlockInfo}
    (some_pages : 0 < run.numPages) (free : run.pages ⊆ freePages ms)
    (adjacent : ∀ page ∈ run.pages, page + 1 ∈ run.pages → InOneManager ms ⟨page, 2⟩) :
    InOneManager ms run := by
  have page_iff {page : Nat} : page ∈ run.pages ↔
      run.pageIndex ≤ page ∧ page < run.pageIndex + run.numPages := by
    rw [run.pages_eq, mem_Ico]
  obtain ⟨L, member, first⟩ :=
    mem_spaces.mp (pool.freePages_subset (free (page_iff.mpr ⟨le_rfl, by omega⟩)))
  have inside (k : Nat) (below : k < run.numPages) : run.pageIndex + k ∈ L.space := by
    induction k with
    | zero => exact first
    | succ k ih =>
      have both := adjacent (run.pageIndex + k) (page_iff.mpr (by omega)) (page_iff.mpr (by omega))
      obtain ⟨K, memberK, pair⟩ := (pool.inOneManager_iff _).mp both
      rw [KBlockInfo.pages_eq] at pair
      dsimp only at pair
      obtain rfl := pool.unique member memberK (ih (by omega)) (pair (mem_Ico.mpr (by omega)))
      exact pair (mem_Ico.mpr ⟨by omega, by omega⟩)
  refine (pool.inOneManager_iff run).mpr ⟨L, member, fun page here => ?_⟩
  obtain ⟨low, high⟩ := page_iff.mp here
  have page_inside := inside (page - run.pageIndex) (by omega)
  rwa [Nat.add_sub_cancel' low] at page_inside

/-- A heap of one page, which is not free yet. -/
def pageHeap (address : Nat) : KPageHeap :=
  .initializeHeap ⟨fun n => n, 0, 0⟩ (fun _ => ⟨fun n => n, 0, 0⟩) address pageSize
    memoryBlockPageShifts

/-- A manager of one page, which is free. -/
def singlePage (address : Nat) : Impl where
  heap := ((pageHeap address).free address 1).toOption.getD (pageHeap address)

theorem singlePage_fits (standard : L.shifts = memoryBlockPageShifts) (size : L.size = pageSize) :
    Fits L (singlePage L.address) := by
  obtain ⟨wf, empty⟩ := KPageHeap.initializeHeap_wellFormed L ⟨fun n => n, 0, 0⟩ fun _ =>
    ⟨fun n => n, 0, 0⟩
  rw [size, standard, ← pageHeap] at wf empty
  have within : pagesOf L.address 1 ⊆ L.space := by
    rw [Layout.space, pagesOf, size, add_div_right _ (by decide)]
  obtain ⟨heap, freed, wf', -⟩ :=
    KPageHeap.free_adds wf L.startAligned within (empty ▸ disjoint_empty_right _)
  refine ⟨standard, ?_⟩
  have same : (singlePage L.address).heap = heap := by
    simp only [singlePage, freed, Except.toOption, Option.getD_some]
  exact same ▸ wf'

/-- Two adjacent managers of one page each. -/
theorem singlePage_matches : Matches
    [KPageHeap.standardLayout 0x80000000 pageSize (by decide) (by decide) (by decide),
      KPageHeap.standardLayout 0x80001000 pageSize (by decide) (by decide) (by decide)]
    [singlePage 0x80000000, singlePage 0x80001000] where
  fits := .cons (singlePage_fits rfl rfl) (.cons (singlePage_fits rfl rfl) .nil)
  apart := by
    refine List.pairwise_pair.mpr ?_
    exact Finset.Ico_disjoint_Ico_consecutive _ _ _

end SumiEmu.Kernel.KMemoryManager
