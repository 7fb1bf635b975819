/-
# Allocating adjacent pages

A request for adjacent pages chooses the smallest block size that holds the pages and is aligned as
they must be, and asks the managers of the pool in turn. If there is no such size, its index is -1,
and the request goes on with this index.

So the levels of a heap are looked up with a check of their index here. A page of a manager is told
by its number, and its reference count stands at its distance from the start of the heap.
-/

import SumiEmu.Kernel.MemoryManagerRun

namespace SumiEmu.Kernel

open Fallible Function Nat

/-- An access outside the levels of a heap, a fault of the heap, or a failed assertion on a
reference count. -/
inductive KMemoryManager.ContinuousFault
  | level
  | heap (fault : KPageHeap.Fault)
  | referenceCount
  deriving DecidableEq, Repr

open KMemoryManager (ContinuousFault)

namespace KPageHeap

/-! ## The levels of a heap -/

/-- An index into `m_blocks`. -/
def levelOf (h : KPageHeap) (i : Int) : Except ContinuousFault Nat :=
  if 0 ≤ i ∧ i < h.numBlocks then .ok i.toNat else .error .level

/-- The first loop of `AllocateByRandom`, over the given number of indices from one on. -/
def countAlignmentsAt (h : KPageHeap) (neededSize alignShift : Nat) :
    Nat → Int → Nat → Except ContinuousFault (Nat × Int)
  | 0, i, possible => return (possible, i)
  | remaining + 1, i, possible => do
    let level ← h.levelOf i
    let possible := possible + h.possibleAlignments neededSize alignShift level
    if possible ≥ 4 then return (possible, i + 1)
    else countAlignmentsAt h neededSize alignShift remaining (i + 1) possible

/-- The second loop of `AllocateByRandom`. -/
def chooseIndexAt (h : KPageHeap) (neededSize alignShift rnd : Nat) :
    Nat → Int → Nat → Except ContinuousFault (Option Int)
  | 0, _, _ => return none
  | remaining + 1, i, possible => do
    let level ← h.levelOf i
    let possible := possible + h.possibleAlignments neededSize alignShift level
    if rnd < possible then return some i
    else chooseIndexAt h neededSize alignShift rnd remaining (i + 1) possible

def selectIndexAt (h : KPageHeap) (neededSize alignShift : Nat) (index : Int) :
    Except ContinuousFault (Int × KPageHeap) := do
  let (possible, maxBlocks) ← h.countAlignmentsAt neededSize alignShift (h.numBlocks - index).toNat
    index 0
  if possible > 0 ∧ index + 1 < maxBlocks then
    let (rnd, rng) := h.rng.generateRandom possible
    let choice ← h.chooseIndexAt neededSize alignShift rnd (maxBlocks - index).toNat index 0
    return (choice.getD index, { h with rng })
  else return (index, h)

/-- `AllocateAligned`, and `AllocateByRandom` in it, for any index. -/
def allocateAlignedAt (h : KPageHeap) (index : Int) (numPages alignPages : Nat) :
    Except ContinuousFault (Nat × KPageHeap) := do
  let neededSize := numPages * pageSize
  let alignSize := alignPages * pageSize
  let alignShift := (BitVec.ofNat 64 alignSize).ctz.toNat
  let (index, h) ← h.selectIndexAt neededSize alignShift index
  let level ← h.levelOf index
  let (addr, h) ← (h.popBlock level true).mapError .heap
  if addr ≠ 0 then
    (h.splitBlock addr neededSize ((h.blocks level).getSize - neededSize) alignShift).mapError .heap
  else return (0, h)

variable {L : Layout} {h : KPageHeap} {neededSize alignShift i remaining possible : Nat}

theorem levelOf_natCast (inside : i < h.numBlocks) : h.levelOf i = .ok i := by
  rw [levelOf, if_pos (by omega), Int.toNat_natCast]

section

variable (inside : i + remaining ≤ h.numBlocks)

include inside

theorem countAlignmentsAt_eq :
    h.countAlignmentsAt neededSize alignShift remaining i possible =
      .ok ((h.countAlignments neededSize alignShift remaining i possible).1,
        (h.countAlignments neededSize alignShift remaining i possible).2) := by
  induction remaining generalizing i possible with
  | zero => rfl
  | succ remaining ih =>
    rw [countAlignmentsAt, levelOf_natCast (by omega), ok_bind, countAlignments]
    dsimp only
    split
    · rfl
    · have inside : i + 1 + remaining ≤ h.numBlocks := by omega
      exact ih inside

theorem countAlignments_le :
    (h.countAlignments neededSize alignShift remaining i possible).2 ≤ h.numBlocks := by
  induction remaining generalizing i possible with
  | zero => exact inside
  | succ remaining ih =>
    rw [countAlignments]
    split
    · exact Nat.add_le_of_le_sub' (by omega) (by omega)
    · exact ih (by omega)

theorem chooseIndexAt_eq {rnd : Nat} :
    h.chooseIndexAt neededSize alignShift rnd remaining i possible =
      .ok ((h.chooseIndex neededSize alignShift rnd remaining i possible).map Nat.cast) := by
  induction remaining generalizing i possible with
  | zero => rfl
  | succ remaining ih =>
    rw [chooseIndexAt, levelOf_natCast (by omega), ok_bind, chooseIndex]
    dsimp only
    split
    · rfl
    · have inside : i + 1 + remaining ≤ h.numBlocks := by omega
      exact ih inside

end

theorem selectIndexAt_eq {index : Nat} (inside : index ≤ h.numBlocks) :
    h.selectIndexAt neededSize alignShift index =
      .ok ((h.selectIndex neededSize alignShift index).1,
        (h.selectIndex neededSize alignShift index).2) := by
  have rounds : ((h.numBlocks : Int) - index).toNat = h.numBlocks - index := by omega
  have whole : index + (h.numBlocks - index) ≤ h.numBlocks := by omega
  have upper : (h.countAlignments neededSize alignShift (h.numBlocks - index) index 0).2 ≤
    h.numBlocks :=
    countAlignments_le whole
  have lower := le_countAlignments h neededSize alignShift (h.numBlocks - index) index 0
  rw [selectIndexAt, rounds, countAlignmentsAt_eq (by omega), ok_bind, selectIndex]
  dsimp only
  generalize h.countAlignments neededSize alignShift (h.numBlocks - index) index 0 =
    counted at upper lower
  have rounds' : ((counted.2 : Int) - index).toNat = counted.2 - index := by omega
  have more : (counted.1 > 0 ∧ (index : Int) + 1 < counted.2) ↔ counted.1 > 0 ∧
    index + 1 < counted.2 := by omega
  by_cases picks : counted.1 > 0 ∧ index + 1 < counted.2
  · rw [if_pos (more.mpr picks), if_pos picks, rounds', chooseIndexAt_eq (by omega)]
    cases h.chooseIndex neededSize alignShift (h.rng.generateRandom counted.1).1 (counted.2 - index)
      index 0 with
    | none => rfl
    | some choice => rfl
  · rw [if_neg (picks ∘ more.mp), if_neg picks]
    rfl

/-- With the index of a level no other index is looked at than those of levels. -/
theorem WellFormed.allocateAlignedAt_eq (wf : h.WellFormed L) {index : Nat}
    (below : index < L.count)
    (numPages alignPages : Nat) :
    h.allocateAlignedAt index numPages alignPages =
      (h.allocateByRandom index numPages alignPages).mapError .heap := by
  have inside : index < h.numBlocks := wf.numBlocks ▸ below
  rw [allocateAlignedAt, allocateByRandom]
  dsimp only
  rw [selectIndexAt_eq inside.le, ok_bind]
  obtain ⟨j, h', selected, -, upper, picked⟩ := selectIndex_spec wf (numPages * pageSize)
    (BitVec.ofNat 64 (alignPages * pageSize)).ctz.toNat below
  rw [selected]
  dsimp only
  have same : h'.numBlocks = h.numBlocks := by
    rcases picked with ⟨rfl, -⟩ | ⟨⟨rng, rfl⟩, -⟩
    · rfl
    · rfl
  rw [levelOf_natCast (by rw [same, wf.numBlocks]; exact upper), ok_bind]
  cases h'.popBlock j true with
  | error fault => rfl
  | ok popped =>
    obtain ⟨addr, h''⟩ := popped
    change (if addr ≠ 0 then _ else _) = Except.mapError _ (if addr ≠ 0 then _ else _)
    split
    · rfl
    · rfl

/-- The index -1 is looked at at once. -/
theorem allocateAlignedAt_neg_one (h : KPageHeap) (numPages alignPages : Nat) :
    h.allocateAlignedAt (-1) numPages alignPages = .error .level := by
  have rounds : ((h.numBlocks : Int) - -1).toNat = h.numBlocks + 1 := by omega
  rw [allocateAlignedAt]
  dsimp only
  rw [selectIndexAt, rounds, countAlignmentsAt, levelOf, if_neg (by omega)]
  rfl

/-! ## Alignment -/

theorem ctz_two_pow {k : Nat} (small : k < 64) : (BitVec.ofNat 64 (2 ^ k)).ctz.toNat = k := by
  have bits (j : Nat) : (BitVec.ofNat 64 (2 ^ k)).getLsbD j =
      (decide (j < 64) && decide (k = j)) := by
    rw [BitVec.getLsbD_ofNat, testBit_two_pow]
  have nonzero : BitVec.ofNat 64 (2 ^ k) ≠ 0#64 := by
    intro zero
    have bit := bits k
    rw [zero, decide_eq_true small, decide_eq_true rfl] at bit
    exact absurd bit (by simp)
  have bit := BitVec.getLsbD_true_ctz_of_ne_zero nonzero
  rw [bits, Bool.and_eq_true, decide_eq_true_iff, decide_eq_true_iff] at bit
  exact bit.2.symm

/-- Wherever a block is split, what is kept of it is aligned as the block is. -/
theorem splitBlock_dvd {h' : KPageHeap} {addr addr' leftoverSize : Nat}
    (start : 2 ^ alignShift ∣ addr)
    (result : h.splitBlock addr neededSize leftoverSize alignShift = .ok (addr', h')) :
    2 ^ alignShift ∣ addr' := by
  rw [splitBlock] at result
  split at result
  · dsimp only at result
    obtain ⟨h₁, -, result⟩ := bind_eq_ok.mp result
    obtain ⟨h₂, -, result⟩ := bind_eq_ok.mp result
    cases result
    rw [shiftLeft_eq]
    exact Nat.dvd_add start (Nat.dvd_mul_left ..)
  · cases result
    exact start

theorem WellFormed.allocateByRandom_dvd {h' : KPageHeap} (wf : h.WellFormed L)
    {index k addr numPages : Nat}
    (below : index < L.count) (small : k + 12 < 64) (fits : 2 ^ k ≤ L.unit index)
    (result : h.allocateByRandom index numPages (2 ^ k) = .ok (addr, h')) :
    2 ^ k * pageSize ∣ addr := by
  have align : 2 ^ k * pageSize = 2 ^ (k + 12) := (pow_add 2 k 12).symm
  have unit : 2 ^ (k + 12) ∣ L.blockSize index := by
    rw [Layout.blockSize_eq below, ← align]
    exact Nat.mul_dvd_mul_right
      (Nat.pow_dvd_pow 2 ((Nat.pow_le_pow_iff_right Nat.one_lt_two).mp fits)) _
  rw [allocateByRandom, align] at result
  dsimp only at result
  rw [ctz_two_pow small] at result
  rw [align]
  obtain ⟨j, h₁, selected, larger, inside, picked⟩ :=
    selectIndex_spec wf (numPages * pageSize) (k + 12) below
  have wf₁ : h₁.WellFormed L := by
    rcases picked with ⟨rfl, -⟩ | ⟨⟨rng, rfl⟩, -⟩
    · exact wf
    · exact wf.with_rng rng
  obtain ⟨block, h₂, popped, outcome⟩ := popBlock_spec wf₁ inside true
  rw [selected] at result
  dsimp only at result
  rw [popped, ok_bind] at result
  dsimp only at result
  rcases outcome with ⟨rfl, -⟩ | ⟨nonzero, aligned, -⟩
  · rw [if_neg (not_not.mpr rfl)] at result
    cases result
    exact dvd_zero _
  · rw [if_pos nonzero] at result
    exact splitBlock_dvd ((unit.trans (Layout.blockSize_dvd larger inside)).trans aligned) result

end KPageHeap

namespace KMemoryManager

open KPageHeap (Layout memoryBlockPageShifts pagesOf getAlignedBlockIndex getBlockNumPages)

/-! ## The managers -/

/-- A manager with the reference counts of its pages, which are 16-bit numbers. -/
structure Manager extends Impl where
  pageReferenceCounts : Nat → BitVec 16

/-- The loop of `OpenFirst`, for the given number of pages from an index on. -/
def openFirstFrom (counts : Nat → BitVec 16) (index : Nat) :
    Nat → Except ContinuousFault (Nat → BitVec 16)
  | 0 => return counts
  | numPages + 1 =>
    let refCount := counts index + 1
    if refCount = 1 then openFirstFrom (update counts index refCount) (index + 1) numPages
    else .error .referenceCount

namespace Manager

/-- `OpenFirst`. -/
def openFirst (m : Manager) (address numPages : Nat) : Except ContinuousFault Manager := do
  let pageReferenceCounts ← openFirstFrom m.pageReferenceCounts (m.getPageOffset address) numPages
  return { m with pageReferenceCounts }

/-- `AllocateAligned`. -/
def allocateAligned (m : Manager) (index : Int) (numPages alignPages : Nat) :
    Except ContinuousFault (Nat × Manager) := do
  let (block, heap) ← m.heap.allocateAlignedAt index numPages alignPages
  return (block, { m with heap })

/-- `TrackUnoptimizedAllocation`. -/
def trackUnoptimizedAllocation (m : Manager) (block numPages : Nat) : Manager :=
  { m with toImpl := m.toImpl.trackUnoptimizedAllocation block numPages }

end Manager

/-- The index of `GetAlignedBlockIndex`. -/
def alignedBlockIndex (numPages alignPages : Nat) : Int :=
  match getAlignedBlockIndex numPages alignPages with
  | none => -1
  | some index => index

def Direction.order {α : Type*} (dir : Direction) (managers : List α) : List α :=
  match dir with
  | .fromFront => managers
  | .fromBack => managers.reverse

/-- The loop of `AllocateAndOpenContinuous` over the managers, with what is done to the one that has
a block. -/
def allocateContinuous (heapIndex : Int) (numPages alignPages : Nat) (hasOptimizedProcess : Bool) :
    List Manager → Except ContinuousFault (Nat × List Manager)
  | [] => return (0, [])
  | chosenManager :: rest => do
    let (allocatedBlock, chosenManager) ← chosenManager.allocateAligned heapIndex numPages
      alignPages
    if allocatedBlock ≠ 0 then
      let chosenManager :=
        if hasOptimizedProcess then chosenManager.trackUnoptimizedAllocation allocatedBlock numPages
          else chosenManager
      let chosenManager ← chosenManager.openFirst allocatedBlock numPages
      return (allocatedBlock, chosenManager :: rest)
    else
      let (allocatedBlock, rest) ← allocateContinuous heapIndex numPages alignPages
        hasOptimizedProcess rest
      return (allocatedBlock, chosenManager :: rest)

/-- `AllocateAndOpenContinuous`, with the managers of the pool from the front. -/
def allocateAndOpenContinuous (managers : List Manager) (hasOptimizedProcess : Bool)
    (numPages alignPages : Nat)
    (dir : Direction) : Except ContinuousFault (Nat × List Manager) :=
  if numPages = 0 then return (0, managers)
  else do
    let heapIndex := alignedBlockIndex numPages alignPages
    let (block, order) ← allocateContinuous heapIndex numPages alignPages hasOptimizedProcess
      (dir.order managers)
    return (block, dir.order order)

/-! ## What an allocation does -/

variable {L : Layout} {Ls : List Layout} {m m' : Manager} {managers : List Manager}

/-- The reference count of a page of the manager. -/
def Manager.references (m : Manager) (page : Nat) : BitVec 16 :=
  m.pageReferenceCounts (page - m.heap.heapAddress / pageSize)

/-- A manager whose heap is in order, with no references to the free pages. -/
structure Manager.Sound (L : Layout) (m : Manager) : Prop where
  fits : Fits L m.toImpl
  unreferenced : ∀ page ∈ m.heap.freeSet, m.references page = 0

/-- A run of free pages of a manager is taken, and their first references are opened. -/
structure Manager.Opened (m m' : Manager) (block numPages alignPages : Nat) : Prop where
  aligned : alignPages * pageSize ∣ block
  inside : pagesOf block numPages ⊆ m.heap.space
  free : pagesOf block numPages ⊆ m.heap.freeSet
  taken : m'.heap.freeSet = m.heap.freeSet \ pagesOf block numPages
  references : ∀ page ∈ m.heap.space,
    m'.references page = if page ∈ pagesOf block numPages then 1 else m.references page

/-- A call returns 0 and changes nothing, or one of the managers has opened what it returns. -/
def Serves (managers : List Manager) (numPages alignPages : Nat)
    (r : Except ContinuousFault (Nat × List Manager)) : Prop :=
  ∃ block managers', r = .ok (block, managers') ∧
    ((block = 0 ∧ managers' = managers) ∨ block ≠ 0 ∧
      ∃ before m m' after, managers = before ++ m :: after ∧
      managers' = before ++ m' :: after ∧ m.Opened m' block numPages alignPages)

theorem openFirstFrom_eq {counts : Nat → BitVec 16} {index numPages : Nat}
    (unreferenced : ∀ i, index ≤ i → i < index + numPages → counts i = 0) :
    openFirstFrom counts index numPages =
      .ok fun i => if index ≤ i ∧ i < index + numPages then 1 else counts i := by
  induction numPages generalizing counts index with
  | zero =>
    refine congrArg Except.ok (funext fun i => ?_)
    rw [if_neg (by omega)]
  | succ numPages ih =>
    have first : counts index + 1 = 1 := by
      rw [unreferenced index le_rfl (by omega)]
      rfl
    rw [openFirstFrom, if_pos first, first, ih fun i after before => ?_]
    · refine congrArg Except.ok (funext fun i => ?_)
      by_cases here : i = index
      · subst here
        rw [if_neg (by omega), if_pos (by omega), update_self]
      · rw [update_of_ne here]
        exact if_congr (by omega) rfl rfl
    · rw [update_of_ne (by omega)]
      exact unreferenced i (by omega) (by omega)

/-- `OpenFirst` of a run of pages of the manager that have no references. -/
theorem Manager.openFirst_eq {block numPages : Nat} (fits : Fits L m.toImpl)
    (aligned : pageSize ∣ block)
    (inside : pagesOf block numPages ⊆ m.heap.space) (positive : 0 < numPages)
    (unreferenced : ∀ page ∈ pagesOf block numPages, m.references page = 0) :
    ∃ m', m.openFirst block numPages = .ok m' ∧ m'.toImpl = m.toImpl ∧ ∀ page ∈ m.heap.space,
      m'.references page = if page ∈ pagesOf block numPages then 1 else m.references page := by
  rw [fits.wellFormed.space_eq] at inside
  have first := fits.base_add_getPageOffset aligned inside positive
  have zeros : ∀ i, m.getPageOffset block ≤ i → i < m.getPageOffset block + numPages →
      m.pageReferenceCounts i = 0 := by
    intro i after before
    have count := unreferenced (i + m.heap.heapAddress / pageSize) (Finset.mem_Ico.mpr (by omega))
    rw [Manager.references, Nat.add_sub_cancel] at count
    exact count
  rw [Manager.openFirst, openFirstFrom_eq zeros, ok_bind]
  refine ⟨_, rfl, rfl, fun page within => ?_⟩
  exact if_congr (fits.offset_iff aligned inside positive (fits.wellFormed.space_eq ▸ within)) rfl
    rfl

theorem Manager.Sound.allocateAligned (sound : m.Sound L) {index k numPages : Nat}
    (below : index < memoryBlockPageShifts.length)
    (fits : max numPages (2 ^ k) ≤ getBlockNumPages index) :
    ∃ block m', m.allocateAligned index numPages (2 ^ k) = .ok (block, m') ∧ Fits L m'.toImpl ∧
      m'.pageReferenceCounts = m.pageReferenceCounts ∧
      ((block = 0 ∧ m' = m) ∨ block ≠ 0 ∧ 2 ^ k * pageSize ∣ block ∧ pagesOf block numPages ⊆
      m.heap.freeSet ∧ m'.heap.freeSet = m.heap.freeSet \ pagesOf block numPages) := by
  obtain ⟨standard, wf⟩ := sound.fits
  have inside : index < L.count := by
    rw [Layout.count, standard]
    exact below
  have most : ∀ i < memoryBlockPageShifts.length, getBlockNumPages i ≤ 2 ^ 18 := by decide
  rw [← KPageHeap.unit_eq standard inside] at fits
  have small : 2 ^ k ≤ 2 ^ 18 := by
    rw [KPageHeap.unit_eq standard inside] at fits
    exact (le_max_right ..).trans (fits.trans (most index below))
  have small : k ≤ 18 := (Nat.pow_le_pow_iff_right Nat.one_lt_two).mp small
  obtain ⟨block, heap, taken, wf', outcome⟩ :=
    KPageHeap.allocateByRandom_takes wf inside ((le_max_left ..).trans fits) (2 ^ k)
  have aligned := wf.allocateByRandom_dvd inside (by omega) ((le_max_right ..).trans fits) taken
  refine ⟨block, { m with heap }, ?_, ⟨standard, wf'⟩, rfl, ?_⟩
  · rw [Manager.allocateAligned, wf.allocateAlignedAt_eq inside, taken]
    rfl
  · rcases outcome with ⟨none, same⟩ | ⟨some, -, free, left⟩
    · exact Or.inl ⟨none, by rw [same]⟩
    · exact Or.inr ⟨some, aligned, free, left⟩

theorem allocateContinuous_serves {index k numPages : Nat} (positive : 0 < numPages)
    (below : index < memoryBlockPageShifts.length)
    (fits : max numPages (2 ^ k) ≤ getBlockNumPages index)
    (hasOptimizedProcess : Bool) (sound : List.Forall₂ Manager.Sound Ls managers) :
    Serves managers numPages (2 ^ k)
      (allocateContinuous index numPages (2 ^ k) hasOptimizedProcess managers) := by
  induction sound with
  | nil => exact ⟨0, [], rfl, .inl ⟨rfl, rfl⟩⟩
  | @cons L m Ls rest first _ ih =>
    obtain ⟨block, m₁, allocated, fits₁, counts, outcome⟩ := first.allocateAligned below fits
    rw [allocateContinuous, allocated, ok_bind]
    dsimp only
    rcases outcome with ⟨rfl, rfl⟩ | ⟨nonzero, aligned, free, taken⟩
    · obtain ⟨block, rest', later, outcome⟩ := ih
      rw [if_neg (not_not.mpr rfl), later, ok_bind]
      refine ⟨block, m₁ :: rest', rfl, ?_⟩
      rcases outcome with ⟨none, rfl⟩ | ⟨some, before, m, m', after, rfl, rfl, opened⟩
      · exact Or.inl ⟨none, rfl⟩
      · exact Or.inr ⟨some, m₁ :: before, m, m', after, rfl, rfl, opened⟩
    · rw [if_pos nonzero]
      generalize tracking : (if hasOptimizedProcess
        then m₁.trackUnoptimizedAllocation block numPages else m₁) = m₂
      -- tracking changes neither the heap nor the counts
      have tracked : m₂.heap = m₁.heap ∧ m₂.pageReferenceCounts = m₁.pageReferenceCounts := by
        subst tracking
        cases hasOptimizedProcess
        · exact ⟨rfl, rfl⟩
        · exact ⟨rfl, rfl⟩
      have fits₂ : Fits L m₂.toImpl := ⟨fits₁.standard, tracked.1 ▸ fits₁.wellFormed⟩
      have space : m₂.heap.space = m.heap.space :=
        (fits₂.wellFormed.space_eq).trans first.fits.wellFormed.space_eq.symm
      have references : ∀ page, m₂.references page = m.references page := by
        intro page
        rw [Manager.references, Manager.references, tracked.2, counts, fits₂.wellFormed.heapAddress,
          first.fits.wellFormed.heapAddress]
      have inside : pagesOf block numPages ⊆ m.heap.space := by
        rw [first.fits.wellFormed.space_eq]
        exact free.trans first.fits.freeSet_subset
      obtain ⟨m₃, opened, impl, count⟩ :=
        Manager.openFirst_eq fits₂ ((dvd_mul_left ..).trans aligned) (space ▸ inside) positive
        (fun page member => (references page).trans (first.unreferenced page (free member)))
      rw [opened, ok_bind]
      refine ⟨block, m₃ :: rest, rfl,
        .inr ⟨nonzero, [], m, m₃, rest, rfl, rfl, aligned, inside, free, ?_, ?_⟩⟩
      · rw [impl, tracked.1, taken]
      · intro page within
        rw [count page (space ▸ within), references]

/-! ## The block index -/

theorem alignedBlockIndex_spec (numPages alignPages : Nat) :
    (max numPages alignPages ≤ 2 ^ 18 ∧ ∃ index : Nat,
      alignedBlockIndex numPages alignPages = index ∧
      index < memoryBlockPageShifts.length ∧ max numPages alignPages ≤ getBlockNumPages index) ∨
    2 ^ 18 < max numPages alignPages ∧ alignedBlockIndex numPages alignPages = -1 := by
  rw [alignedBlockIndex]
  cases found : getAlignedBlockIndex numPages alignPages with
  | none =>
    have last := List.findIdx?_eq_none_iff.mp found 0x1E (by decide)
    exact .inr ⟨not_le.mp (of_decide_eq_false last), rfl⟩
  | some index =>
    obtain ⟨inside, fits, -⟩ := List.findIdx?_eq_some_iff_getElem.mp found
    have most : ∀ i < memoryBlockPageShifts.length, getBlockNumPages i ≤ 2 ^ 18 := by decide
    have fits : max numPages alignPages ≤ getBlockNumPages index := by
      rw [getBlockNumPages, List.getD_eq_getElem _ _ inside]
      exact of_decide_eq_true fits
    exact .inl ⟨fits.trans (most index inside), index, rfl, inside, fits⟩

theorem Direction.order_order {α : Type*} (dir : Direction) (managers : List α) :
    dir.order (dir.order managers) = managers := by
  cases dir with
  | fromFront => rfl
  | fromBack => exact List.reverse_reverse managers

theorem Direction.forall₂_order (dir : Direction) (sound : List.Forall₂ Manager.Sound Ls managers) :
    List.Forall₂ Manager.Sound (dir.order Ls) (dir.order managers) := by
  cases dir with
  | fromFront => exact sound
  | fromBack => exact List.forall₂_reverse_iff.mpr sound

theorem Serves.order {numPages alignPages block : Nat} {order : List Manager} (dir : Direction)
    (serves : Serves (dir.order managers) numPages alignPages (.ok (block, order))) :
    Serves managers numPages alignPages (.ok (block, dir.order order)) := by
  obtain ⟨_, _, same, outcome⟩ := serves
  cases same
  refine ⟨block, dir.order order, rfl, ?_⟩
  rcases outcome with ⟨none, rfl⟩ | ⟨some, before, m, m', after, split, rfl, opened⟩
  · exact Or.inl ⟨none, dir.order_order managers⟩
  · refine Or.inr ⟨some, ?_⟩
    cases dir with
    | fromFront => exact ⟨before, m, m', after, split, rfl, opened⟩
    | fromBack =>
      refine ⟨after.reverse, m, m', before.reverse, ?_, ?_, opened⟩
      · rw [← List.reverse_reverse managers, show managers.reverse = _ from split]
        simp
      · simp [Direction.order]

theorem allocateContinuous_neg_one (ne : managers ≠ []) (hasOptimizedProcess : Bool)
    (numPages alignPages : Nat) :
    allocateContinuous (-1) numPages alignPages hasOptimizedProcess managers = .error .level := by
  cases managers with
  | nil => exact absurd rfl ne
  | cons m rest =>
    rw [allocateContinuous, Manager.allocateAligned, KPageHeap.allocateAlignedAt_neg_one]
    rfl

/-- A request is served as it should be just when it asks for no pages, the pool has no managers, or
the greatest block is large enough for the pages and their alignment. -/
theorem allocateAndOpenContinuous_serves_iff (sound : List.Forall₂ Manager.Sound Ls managers)
    (hasOptimizedProcess : Bool) (numPages k : Nat) (dir : Direction) :
    Serves managers numPages (2 ^ k)
      (allocateAndOpenContinuous managers hasOptimizedProcess numPages (2 ^ k) dir) ↔
    numPages = 0 ∨ managers = [] ∨ max numPages (2 ^ k) ≤ 2 ^ 18 := by
  rw [allocateAndOpenContinuous]
  split
  · next zero => exact iff_of_true ⟨0, managers, rfl, .inl ⟨rfl, rfl⟩⟩ (.inl zero)
  · next nonzero =>
    dsimp only
    by_cases empty : managers = []
    · subst empty
      have nothing : dir.order ([] : List Manager) = [] := by
        cases dir
        · rfl
        · rfl
      rw [nothing]
      refine iff_of_true ⟨0, [], ?_, .inl ⟨rfl, rfl⟩⟩ (.inr (.inl rfl))
      exact congrArg (fun order => Except.ok (0, order)) nothing
    · rcases alignedBlockIndex_spec numPages (2 ^ k)
        with ⟨small, index, same, below, fits⟩ | ⟨large, same⟩
      · refine iff_of_true ?_ (.inr (.inr small))
        have serves := allocateContinuous_serves (Nat.pos_of_ne_zero nonzero) below fits
          hasOptimizedProcess (dir.forall₂_order sound)
        rw [same]
        obtain ⟨block, order, result, outcome⟩ := serves
        rw [result]
        exact Serves.order dir ⟨block, order, rfl, outcome⟩
      · refine iff_of_false ?_ (not_or.mpr ⟨nonzero, not_or.mpr ⟨empty, not_le.mpr large⟩⟩)
        have some : dir.order managers ≠ [] := by
          intro none
          refine empty ?_
          rw [← dir.order_order managers, none]
          cases dir
          · rfl
          · rfl
        rw [same, allocateContinuous_neg_one some]
        rintro ⟨_, _, absurdity, _⟩
        cases absurdity

/-! ## A request that is too large -/

def freshManager : Manager where
  heap := KPageHeap.initializeHeap ⟨fun n => n, 0, 0⟩ (fun _ => ⟨fun n => n, 0, 0⟩) 0x80000000
    0x40000 memoryBlockPageShifts
  pageReferenceCounts := fun _ => 0

/-- Its layout. -/
def freshLayout : Layout :=
  KPageHeap.standardLayout 0x80000000 0x40000 (by decide) (by decide) (by decide)

/-- The manager after its first 64 pages have been freed. -/
def freedManager : Manager :=
  { freshManager with heap := (freshManager.heap.free 0x80000000 64).toOption.getD freshManager.heap
      }

theorem freedManager_sound :
    freedManager.Sound freshLayout ∧ freedManager.heap.freeSet = pagesOf 0x80000000 64 := by
  obtain ⟨wf, empty⟩ := KPageHeap.initializeHeap_wellFormed freshLayout ⟨fun n => n, 0, 0⟩ fun _ =>
    ⟨fun n => n, 0, 0⟩
  have within : pagesOf 0x80000000 64 ⊆ freshLayout.space := by
    refine Finset.Ico_subset_Ico le_rfl ?_
    decide
  obtain ⟨heap, freed, wf', added⟩ :=
    KPageHeap.free_adds wf (by decide) within (empty ▸ Finset.disjoint_empty_right _)
  have same : freedManager.heap = heap := by
    have free : freshManager.heap.free 0x80000000 64 = .ok heap := freed
    simp only [freedManager, free, Except.toOption, Option.getD_some]
  refine ⟨⟨⟨rfl, same ▸ wf'⟩, fun _ _ => rfl⟩, ?_⟩
  rw [same, added, empty]
  rfl

theorem allocateAndOpenContinuous_serves_iff_freed :
    freedManager.heap.freeSet = pagesOf 0x80000000 64 ∧
      (Serves [freedManager] 3 (2 ^ 1)
        (allocateAndOpenContinuous [freedManager] true 3 (2 ^ 1) .fromBack) ↔ 3 = 0 ∨
        [freedManager] = [] ∨ max 3 (2 ^ 1) ≤ 2 ^ 18) :=
  ⟨freedManager_sound.2,
    allocateAndOpenContinuous_serves_iff (.cons freedManager_sound.1 .nil) true 3 1 .fromBack⟩

/-- One page more than the greatest block has. -/
theorem not_serves_large :
    ¬ Serves [freshManager] (2 ^ 18 + 1) 1
      (allocateAndOpenContinuous [freshManager] false (2 ^ 18 + 1) 1 .fromFront) := by
  rintro ⟨block, managers, result, -⟩
  have index : alignedBlockIndex (2 ^ 18 + 1) 1 = -1 := by decide
  rw [allocateAndOpenContinuous, if_neg (by decide)] at result
  dsimp only at result
  rw [index, Direction.order, allocateContinuous_neg_one (List.cons_ne_nil _ _)] at result
  cases result

end KMemoryManager

end SumiEmu.Kernel
