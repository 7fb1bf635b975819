/-
# Allocating for a process

A process that is the optimized one of a pool is not given pages to fill that it has had before: the
map of each manager has a bit for such pages. The pages of a run that are new are filled, and if
there are any, the whole run is marked. For another process all the pages are filled.

A run may reach through several managers, so it is walked in pieces, one for each manager. Whether
there are new pages is asked of each piece, and the answer of the last one stands for the run. A
request of another process clears the bits of what it takes, also of what it has to give back.
-/

import SumiEmu.Kernel.MemoryManagerContinuous

namespace SumiEmu.Kernel.KMemoryManager

open Fallible WordBits Finset Nat List
open KPageHeap (Layout pagesOf getBlockIndex memoryBlockPageShifts)

/-- The memory, by byte. -/
abbrev Memory : Type := Nat → BitVec 8

/-- `std::memset`. -/
def memset (memory : Memory) (address length : Nat) (pattern : BitVec 8) : Memory :=
  fun a => if address ≤ a ∧ a < address + length then pattern else memory a

namespace Impl

/-- `GetPageOffsetToEnd`. -/
def getPageOffsetToEnd (m : Impl) (address : Nat) : Nat := (m.getEndAddress - address) / pageSize

/-- The loop of `TrackOptimizedAllocation`, for the given number of pages from an offset on. -/
def trackOptimized (map : Nat → BitVec 64) (offset : Nat) : Nat → Nat → BitVec 64
  | 0 => map
  | numPages + 1 =>
    trackOptimized
      (Function.update map (offset / 64) (map (offset / 64) ||| 1#64 <<< (offset % 64)))
        (offset + 1) numPages

/-- `TrackOptimizedAllocation`. -/
def trackOptimizedAllocation (m : Impl) (block numPages : Nat) : Impl :=
  { m with optimizeMap := trackOptimized m.optimizeMap (m.getPageOffset block) numPages }

/-- The loop of `ProcessOptimizedAllocation`, for the given number of pages from an offset on. -/
def processOptimized (m : Impl) (fillPattern : BitVec 8) (offset : Nat) :
    Nat → Bool × Memory → Bool × Memory
  | 0, s => s
  | numPages + 1, (anyNew, memory) =>
    if m.optimizeMap (offset / 64) &&& (1#64 <<< (offset % 64)) = 0#64 then
      processOptimized m fillPattern (offset + 1) numPages
        (true, memset memory (m.heap.heapAddress + offset * pageSize) pageSize fillPattern)
    else processOptimized m fillPattern (offset + 1) numPages (anyNew, memory)

/-- `ProcessOptimizedAllocation`. -/
def processOptimizedAllocation (m : Impl) (memory : Memory) (block numPages : Nat)
    (fillPattern : BitVec 8) : Bool × Memory :=
  processOptimized m fillPattern (m.getPageOffset block) numPages (false, memory)

end Impl

/-- What is done to the manager of an address, which `GetManager` finds. -/
def withManager {σ : Type} (address : Nat) (body : Impl → Impl × σ) :
    List Impl → Except Fault (List Impl × σ)
  | [] => .error .noManager
  | manager :: rest =>
    if manager.heap.heapAddress ≤ address ∧ address < manager.getEndAddress then
      let (manager, s) := body manager
      return (manager :: rest, s)
    else do
      let (rest, s) ← withManager address body rest
      return (manager :: rest, s)

/-- The loop over the pieces of a run, with what is done to each. A piece has at least one page,
which bounds the rounds. -/
def walkRun {σ : Type} (body : Impl → Nat → Nat → σ → Impl × σ) :
    Nat → Nat → Nat → List Impl → σ → Except Fault (List Impl × σ)
  | 0, _, _, managers, s => return (managers, s)
  | rounds + 1, curAddress, remainingPages, managers, s =>
    if remainingPages > 0 then do
      let (managers, curPages, s) ← withManager curAddress (fun manager =>
        let curPages := min remainingPages (manager.getPageOffsetToEnd curAddress)
        let (manager, s) := body manager curAddress curPages s
        (manager, curPages, s)) managers
      walkRun body rounds (curAddress + curPages * pageSize) (remainingPages - curPages) managers s
    else return (managers, s)

/-- Fill the new pages of a piece. The flag is the one of this piece. -/
def fillPiece (fillPattern : BitVec 8) (manager : Impl) (curAddress curPages : Nat)
    (s : Bool × Memory) : Impl × Bool × Memory :=
  (manager, manager.processOptimizedAllocation s.2 curAddress curPages fillPattern)

/-- A piece is noted as optimized. -/
def trackPiece (manager : Impl) (curAddress curPages : Nat) (s : Unit) : Impl × Unit :=
  (manager.trackOptimizedAllocation curAddress curPages, s)

/-- The loop over the runs of the group for the optimized process. -/
def trackGroup (fillPattern : BitVec 8) :
    List KBlockInfo → List Impl → Memory → Except Fault (List Impl × Memory)
  | [], managers, memory => return (managers, memory)
  | block :: blocks, managers, memory =>
    if block.numPages = 0 then trackGroup fillPattern blocks managers memory
    else do
      let (managers, anyNew, memory) ←
        walkRun (fillPiece fillPattern) block.numPages block.getAddress block.numPages managers
          (false, memory)
      if anyNew then
        let (managers, _) ← walkRun trackPiece block.numPages block.getAddress block.numPages
          managers ()
        trackGroup fillPattern blocks managers memory
      else trackGroup fillPattern blocks managers memory

/-- The loop over the runs of the group for another process, with `ClearBackingRegion`. -/
def clearGroup (fillPattern : BitVec 8) : List KBlockInfo → Memory → Memory
  | [], memory => memory
  | block :: blocks, memory =>
    clearGroup fillPattern blocks
      (memset memory block.getAddress (block.numPages * pageSize) fillPattern)

/-- `AllocateForProcess`, with the managers of the pool. -/
def allocateForProcess (managers : List Impl) (freeInfos numPages : Nat) (dir : Direction)
    (hasOptimizedProcess : Bool) (optimizedProcessId processId : BitVec 64) (fillPattern : BitVec 8)
    (memory : Memory) : Except Fault (Result × List Impl × KPageGroup × Memory) := do
  let isOptimized := optimizedProcessId == processId
  let (result, managers, group) ←
    allocatePageGroupImpl managers freeInfos numPages dir (hasOptimizedProcess && !isOptimized)
      false
  if result ≠ .success then return (result, managers, group, memory)
  else if hasOptimizedProcess && isOptimized then
    let (managers, memory) ← trackGroup fillPattern group.blocks managers memory
    return (.success, managers, group, memory)
  else return (.success, managers, group, clearGroup fillPattern group.blocks memory)

/-! ## Filling -/

/-- The pages of a kind are filled with the pattern, and nothing else is written. -/
def Filled (pattern : BitVec 8) (kind : Nat → Prop) (memory memory' : Memory) : Prop :=
  ∀ a, (kind (a / pageSize) → memory' a = pattern) ∧ (¬ kind (a / pageSize) → memory' a = memory a)

namespace Filled

variable {pattern : BitVec 8} {kind kind' : Nat → Prop} {memory memory' memory'' : Memory}

theorem nothing (none : ∀ page, ¬ kind page) : Filled pattern kind memory memory :=
  fun _ => ⟨fun absurdity => absurd absurdity (none _), fun _ => rfl⟩

theorem congr (filled : Filled pattern kind memory memory')
    (same : ∀ page, kind' page ↔ kind page) : Filled pattern kind' memory memory' :=
  fun a => ⟨fun inside => (filled a).1 ((same _).mp inside),
    fun outside => (filled a).2 (outside ∘ (same _).mpr)⟩

theorem trans (first : Filled pattern kind memory memory')
    (second : Filled pattern kind' memory' memory'') :
    Filled pattern (fun page => kind page ∨ kind' page) memory memory'' := by
  intro a
  constructor
  · rintro (early | late)
    · by_cases again : kind' (a / pageSize)
      · exact (second a).1 again
      · exact ((second a).2 again).trans ((first a).1 early)
    · exact (second a).1 late
  · intro outside
    obtain ⟨early, late⟩ := not_or.mp outside
    exact ((second a).2 late).trans ((first a).2 early)

end Filled

theorem memset_filled (pattern : BitVec 8) (memory : Memory) (page numPages : Nat) :
    Filled pattern (fun q => page ≤ q ∧ q < page + numPages) memory
      (memset memory (page * pageSize) (numPages * pageSize) pattern) := by
  intro a
  have range : page * pageSize ≤ a ∧ a < page * pageSize + numPages * pageSize ↔
      page ≤ a / pageSize ∧ a / pageSize < page + numPages := by
    rw [← add_mul, le_div_iff_mul_le (by decide), div_lt_iff_lt_mul (by decide)]
  rw [memset]
  exact ⟨fun inside => if_pos (range.mpr inside), fun outside => if_neg (outside ∘ range.mp)⟩

variable {L : Layout} {Ls : List Layout} {m m' : Impl} {ms ms' : List Impl}

/-- The pages whose bits are clear are filled, and the flag tells whether there are any. -/
theorem Impl.processOptimized_spec (m : Impl) (start : pageSize ∣ m.heap.heapAddress)
    (pattern : BitVec 8)
    (offset numPages : Nat) (s : Bool × Memory) :
    ((m.processOptimized pattern offset numPages s).1 = true ↔
      s.1 = true ∨ ∃ i, offset ≤ i ∧ i < offset + numPages ∧ bitAt m.optimizeMap i = false) ∧
    Filled pattern (fun page => ∃ i, offset ≤ i ∧ i < offset + numPages ∧
      bitAt m.optimizeMap i = false ∧ page = m.heap.heapAddress / pageSize + i) s.2
      (m.processOptimized pattern offset numPages s).2 := by
  induction numPages generalizing offset s with
  | zero =>
    rw [processOptimized]
    refine ⟨(or_iff_left ?_).symm, .nothing ?_⟩
    · rintro ⟨i, low, high, -⟩
      omega
    · rintro page ⟨i, low, high, -⟩
      omega
  | succ numPages ih =>
    obtain ⟨anyNew, memory⟩ := s
    have split (P : Nat → Prop) : (∃ i, offset ≤ i ∧ i < offset + (numPages + 1) ∧ P i) ↔
        P offset ∨ ∃ i, offset + 1 ≤ i ∧ i < offset + 1 + numPages ∧ P i := by
      constructor
      · rintro ⟨i, low, high, here⟩
        rcases eq_or_lt_of_le low with rfl | later
        · exact Or.inl here
        · exact Or.inr ⟨i, later, by omega, here⟩
      · rintro (here | ⟨i, low, high, here⟩)
        · exact ⟨offset, le_rfl, by omega, here⟩
        · exact ⟨i, by omega, by omega, here⟩
    have clear := and_one_shiftLeft_eq_zero_iff (by decide : 0 < 64) m.optimizeMap offset
    rw [processOptimized, split]
    by_cases new : bitAt m.optimizeMap offset = false
    · rw [if_pos (clear.mpr new)]
      obtain ⟨flag, filled⟩ := ih (offset + 1)
        (true, memset memory (m.heap.heapAddress + offset * pageSize) pageSize pattern)
      refine ⟨flag.trans (iff_of_true (.inl rfl) (.inr (.inl new))), ?_⟩
      have page : m.heap.heapAddress + offset * pageSize =
          (m.heap.heapAddress / pageSize + offset) * pageSize := by
        rw [Nat.add_mul, Nat.div_mul_cancel start]
      have first := memset_filled pattern memory (m.heap.heapAddress / pageSize + offset) 1
      rw [← page, one_mul] at first
      refine (first.trans filled).congr fun q => ?_
      rw [split]
      refine or_congr_left ?_
      rw [and_iff_right new]
      omega
    · rw [if_neg (new ∘ clear.mp)]
      obtain ⟨flag, filled⟩ := ih (offset + 1) (anyNew, memory)
      refine ⟨flag.trans (or_congr_right (or_iff_right new).symm), filled.congr fun q => ?_⟩
      rw [split]
      exact or_iff_right fun both => new both.1

theorem Impl.bitAt_trackOptimized (map : Nat → BitVec 64) (offset numPages i : Nat) :
    bitAt (trackOptimized map offset numPages) i =
      (decide (offset ≤ i ∧ i < offset + numPages) || bitAt map i) := by
  induction numPages generalizing map offset with
  | zero => rw [trackOptimized, decide_eq_false (by omega), Bool.false_or]
  | succ numPages ih =>
    have first := bitAt_setAt (by decide : 0 < 64) map offset i
    rw [setAt] at first
    rw [trackOptimized, ih, first, ← Bool.or_assoc, ← Bool.decide_or]
    congr 2
    rw [eq_iff_iff]
    omega

/-! ## One piece -/

theorem Fits.start (fits : Fits L m) : pageSize ∣ m.heap.heapAddress :=
  fits.wellFormed.heapAddress ▸ L.startAligned

theorem Fits.processOptimizedAllocation (fits : Fits L m) {block numPages : Nat}
    (aligned : pageSize ∣ block)
    (inside : pagesOf block numPages ⊆ L.space) (positive : 0 < numPages) (pattern : BitVec 8)
    (memory : Memory) : ((m.processOptimizedAllocation memory block numPages pattern).1 = true ↔
      ∃ page ∈ pagesOf block numPages, ¬ m.Marked page) ∧
    Filled pattern (fun page => page ∈ pagesOf block numPages ∧ ¬ m.Marked page) memory
      (m.processOptimizedAllocation memory block numPages pattern).2 := by
  have first := fits.base_add_getPageOffset aligned inside positive
  have kind (page : Nat) : (page ∈ pagesOf block numPages ∧ ¬ m.Marked page) ↔
    ∃ i, m.getPageOffset block ≤ i ∧ i < m.getPageOffset block + numPages ∧
    bitAt m.optimizeMap i = false ∧ page = m.heap.heapAddress / pageSize + i := by
    constructor
    · rintro ⟨member, clear⟩
      have within := inside member
      obtain ⟨low, high⟩ := (fits.offset_iff aligned inside positive within).mpr member
      refine ⟨_, low, high, ?_, (Nat.add_sub_cancel' (fits.base_le within)).symm⟩
      rw [Impl.Marked, and_iff_right (fits.wellFormed.space_eq ▸ within), Bool.not_eq_true] at clear
      exact clear
    · rintro ⟨i, low, high, clear, rfl⟩
      refine ⟨mem_Ico.mpr (by omega), fun marked => ?_⟩
      rw [Impl.Marked, Nat.add_sub_cancel_left, clear] at marked
      exact Bool.false_ne_true marked.2
  obtain ⟨flag, filled⟩ :=
    m.processOptimized_spec fits.start pattern (m.getPageOffset block) numPages (false, memory)
  refine ⟨flag.trans ?_, filled.congr kind⟩
  rw [or_iff_right Bool.false_ne_true]
  constructor
  · rintro ⟨i, low, high, clear⟩
    exact ⟨_, (kind _).mpr ⟨i, low, high, clear, rfl⟩⟩
  · rintro ⟨page, both⟩
    obtain ⟨i, low, high, clear, -⟩ := (kind page).mp both
    exact ⟨i, low, high, clear⟩

theorem Fits.marked_trackOptimized (fits : Fits L m) {block numPages page : Nat}
    (aligned : pageSize ∣ block)
    (inside : pagesOf block numPages ⊆ L.space) (positive : 0 < numPages) :
    (m.trackOptimizedAllocation block numPages).Marked page ↔ m.Marked page ∨
    page ∈ pagesOf block numPages := by
  rw [Impl.Marked, Impl.Marked]
  change page ∈ m.heap.space ∧
    bitAt (Impl.trackOptimized m.optimizeMap (m.getPageOffset block) numPages)
    (page - m.heap.heapAddress / pageSize) = true ↔ _
  rw [Impl.bitAt_trackOptimized, Bool.or_eq_true, decide_eq_true_iff]
  by_cases within : page ∈ L.space
  · rw [fits.wellFormed.space_eq, and_iff_right within, and_iff_right within,
      fits.offset_iff aligned inside positive within, or_comm]
  · rw [fits.wellFormed.space_eq]
    refine iff_of_false (fun both => within both.1) (not_or.mpr ⟨fun both => within both.1, ?_⟩)
    exact fun member => within (inside member)

/-! ## The pieces of a run -/

/-- The manager of a page is found, and the others have no say about its pages. -/
theorem Matches.withManager {σ : Type} (pool : Matches Ls ms) {page : Nat}
    (member : page ∈ spaces Ls)
    (body : Impl → Impl × σ) :
    ∃ L ∈ Ls, ∃ before m after, Fits L m ∧ page ∈ L.space ∧ ms = before ++ m :: after ∧
      withManager (page * pageSize) body ms = .ok (before ++ (body m).1 :: after, (body m).2) ∧
      (∀ q ∈ L.space, ¬ Marked (before ++ after) q) ∧ ∀ m', Fits L m' →
      Matches Ls (before ++ m' :: after) := by
  induction ms generalizing Ls with
  | nil =>
    cases pool.fits
    exact absurd member (notMem_empty _)
  | cons m ms ih =>
    cases Ls with
    | nil => cases pool.fits
    | cons L Ls =>
      obtain ⟨fits, separated, others⟩ := Matches.cons_iff.mp pool
      have owner : m.heap.heapAddress ≤ page * pageSize ∧ page * pageSize < m.getEndAddress ↔
        page ∈ L.space :=
        fits.has_iff ⟨page, 0⟩
      rw [KMemoryManager.withManager]
      by_cases here : page ∈ L.space
      · rw [if_pos (owner.mpr here)]
        refine ⟨L, mem_cons_self, [], m, ms, fits, here, rfl, rfl, fun q within marked => ?_,
          fun m' fits' => ?_⟩
        · exact disjoint_left.mp separated within (others.marked_mem marked)
        · exact Matches.cons_iff.mpr ⟨fits', separated, others⟩
      · rw [if_neg (here ∘ owner.mp)]
        obtain ⟨K, mem, before, m₁, after, fits₁, within, rfl, found, alone, replaced⟩ :=
          ih others ((mem_union.mp member).resolve_left here)
        refine ⟨K, mem_cons_of_mem _ mem, m :: before, m₁, after, fits₁, within, rfl, ?_,
          fun q inside => ?_, fun m' fits' =>
          Matches.cons_iff.mpr ⟨fits, separated, replaced m' fits'⟩⟩
        · rw [found]
          rfl
        · rw [cons_append, marked_cons, not_or]
          refine ⟨fun marked => ?_, alone q inside⟩
          have behind : q ∈ spaces Ls := mem_spaces.mpr ⟨K, mem, inside⟩
          exact disjoint_left.mp separated (fits.wellFormed.space_eq ▸ marked.1) behind

theorem marked_middle {before after : List Impl} {page : Nat} :
    Marked (before ++ m :: after) page ↔ m.Marked page ∨ Marked (before ++ after) page := by
  simp only [Marked, List.mem_append, List.mem_cons, or_and_right, exists_or, exists_eq_left]
  exact or_left_comm

/-- The piece of a run that lies in the manager where the run ends. -/
def LastPiece (Ls : List Layout) (run : KBlockInfo) (page : Nat) : Prop :=
  page ∈ run.pages ∧ ∃ L ∈ Ls, page ∈ L.space ∧ run.pageIndex + run.numPages - 1 ∈ L.space

section

variable {page remaining : Nat} (pool : Matches Ls ms)

include pool

/-- A run is walked in pieces, each of which ends with its manager or with the run. -/
theorem Matches.piece (positive : 0 < remaining) (member : L ∈ Ls)
    (fits : Fits L m) (within : page ∈ L.space) :
    ∃ curPages, min remaining (m.getPageOffsetToEnd (page * pageSize)) = curPages ∧
      0 < curPages ∧ curPages ≤ remaining ∧
      pagesOf (page * pageSize) curPages = Finset.Ico page (page + curPages) ∧
      Finset.Ico page (page + curPages) ⊆ L.space ∧
      (curPages = remaining → ∀ q, LastPiece Ls ⟨page, remaining⟩ q ↔
        q ∈ Finset.Ico page (page + curPages)) ∧
        (curPages < remaining → ∀ q, LastPiece Ls ⟨page, remaining⟩ q ↔
        LastPiece Ls ⟨page + curPages, remaining - curPages⟩ q) := by
  have range := fits.pagesOf_eq (b := ⟨page, remaining⟩) within
  generalize cur : min remaining (m.getPageOffsetToEnd (page * pageSize)) = curPages
  have cut : pagesOf (page * pageSize) curPages = Finset.Ico page (page + curPages) := by
    rw [pagesOf, Nat.mul_div_cancel _ (by decide)]
  have most : curPages ≤ remaining := cur ▸ min_le_left ..
  change pagesOf (page * pageSize) (min remaining (m.getPageOffsetToEnd (page * pageSize))) =
    _ at range
  rw [cur, cut, KBlockInfo.pages_eq] at range
  have inside (q : Nat) : page ≤ q ∧ q < page + curPages ↔ (page ≤ q ∧ q < page + remaining) ∧
      q ∈ L.space := by
    have same := Finset.ext_iff.mp range q
    rw [mem_inter, mem_Ico, mem_Ico] at same
    exact same
  have some : 0 < curPages := by
    have first := (inside page).mpr ⟨by omega, within⟩
    omega
  refine ⟨curPages, rfl, some, most, cut, range ▸ inter_subset_right, fun whole q => ?_,
    fun part q => ?_⟩
  · subst whole
    have last := ((inside (page + curPages - 1)).mp (by omega)).2
    rw [LastPiece, KBlockInfo.pages_eq]
    refine and_iff_left_of_imp fun here => ⟨L, member, ?_, last⟩
    exact ((inside q).mp (mem_Ico.mp here)).2
  · rw [LastPiece, LastPiece, KBlockInfo.pages_eq, KBlockInfo.pages_eq, mem_Ico, mem_Ico]
    dsimp only
    have same : page + curPages + (remaining - curPages) = page + remaining := by omega
    rw [same]
    constructor
    · rintro ⟨here, K, mem, owns, last⟩
      refine ⟨⟨?_, here.2⟩, K, mem, owns, last⟩
      by_contra early
      -- a page of this piece would have the run end in this manager
      obtain rfl := pool.unique member mem ((inside q).mp (by omega)).2 owns
      have ends := (inside (page + remaining - 1)).mpr ⟨by omega, last⟩
      omega
    · rintro ⟨here, others⟩
      exact ⟨by omega, others⟩

/-- Filling the new pages of a run. The flag is that of the last piece. -/
theorem walkRun_fillPiece (pattern : BitVec 8) (rounds : Nat)
    (enough : remaining ≤ rounds) (inside : Finset.Ico page (page + remaining) ⊆ spaces Ls)
    (s : Bool × Memory) :
    ∃ s', walkRun (fillPiece pattern) rounds (page * pageSize) remaining ms s = .ok (ms, s') ∧
      Filled pattern (fun q => q ∈ Finset.Ico page (page + remaining) ∧ ¬ Marked ms q) s.2 s'.2 ∧
      (0 < remaining → (s'.1 = true ↔ ∃ q, LastPiece Ls ⟨page, remaining⟩ q ∧ ¬ Marked ms q)) := by
  induction rounds generalizing page remaining s with
  | zero =>
    obtain rfl := le_zero.mp enough
    exact ⟨s, rfl, .nothing (by simp), fun absurdity => absurd absurdity (lt_irrefl 0)⟩
  | succ rounds ih =>
    rw [walkRun]
    by_cases positive : remaining > 0
    · have first : page ∈ Finset.Ico page (page + remaining) := mem_Ico.mpr ⟨le_rfl, by omega⟩
      obtain ⟨L, member, before, m, after, fits, within, rfl, found, alone, -⟩ :=
        pool.withManager (inside first) fun manager =>
          let curPages := min remaining (manager.getPageOffsetToEnd (page * pageSize))
          let (manager, s) := fillPiece pattern manager (page * pageSize) curPages s
          (manager, curPages, s)
      obtain ⟨curPages, cur, some, most, cut, owned, whole, part⟩ :=
        pool.piece positive member fits within
      rw [if_pos positive, found, ok_bind]
      dsimp only [fillPiece]
      rw [cur]
      have marked {q : Nat} (within : q ∈ L.space) : Marked (before ++ m :: after) q ↔
          m.Marked q := by
        rw [marked_middle]
        exact or_iff_left (alone q within)
      obtain ⟨flag, filled⟩ :=
        fits.processOptimizedAllocation (dvd_mul_left pageSize page) (cut ▸ owned) some pattern s.2
      rw [cut] at flag filled
      generalize m.processOptimizedAllocation s.2 (page * pageSize) curPages pattern =
        s₁ at flag filled
      have next : page * pageSize + curPages * pageSize = (page + curPages) * pageSize :=
        (add_mul ..).symm
      have rest : Finset.Ico (page + curPages) (page + curPages + (remaining - curPages)) ⊆
          Finset.Ico page (page + remaining) := Finset.Ico_subset_Ico (by omega) (by omega)
      obtain ⟨s₂, walked, filled₂, flag₂⟩ := ih (by omega) (rest.trans inside) s₁
      refine ⟨s₂, by rw [next]; exact walked, (filled.trans filled₂).congr fun q => ?_, fun _ => ?_⟩
      · by_cases early : q ∈ Finset.Ico page (page + curPages)
        · have here := marked (owned early)
          rw [mem_Ico] at early
          rw [here, mem_Ico, mem_Ico, mem_Ico]
          refine ⟨fun both => .inl ⟨early, both.2⟩, ?_⟩
          rintro (both | both)
          · exact ⟨by omega, both.2⟩
          · exact ⟨by omega, both.2⟩
        · rw [mem_Ico] at early
          rw [mem_Ico, mem_Ico, mem_Ico]
          constructor
          · rintro ⟨here, clear⟩
            exact Or.inr ⟨by omega, clear⟩
          · rintro (both | both)
            · exact absurd both.1 early
            · exact ⟨by omega, both.2⟩
      · rcases most.eq_or_lt with last | more
        · -- the walk ends here
          have done : remaining - curPages = 0 := by omega
          have same : s₂ = s₁ := by
            rw [done] at walked
            cases rounds with
            | zero =>
              cases walked
              rfl
            | succ rounds =>
              rw [walkRun, if_neg (lt_irrefl 0)] at walked
              cases walked
              rfl
          rw [same, flag]
          constructor
          · rintro ⟨q, early, clear⟩
            exact ⟨q, (whole last q).mpr early, clear ∘ (marked (owned early)).mp⟩
          · rintro ⟨q, piece, clear⟩
            have early := (whole last q).mp piece
            exact ⟨q, early, clear ∘ (marked (owned early)).mpr⟩
        · rw [flag₂ (by omega)]
          exact exists_congr fun q => and_congr_left fun _ => (part more q).symm
    · rw [if_neg positive]
      obtain rfl : remaining = 0 := by omega
      exact ⟨s, rfl, .nothing (by simp), fun absurdity => absurd absurdity (lt_irrefl 0)⟩

/-- Tracking the pages of a run. -/
theorem walkRun_trackPiece (rounds : Nat) (enough : remaining ≤ rounds)
    (inside : Finset.Ico page (page + remaining) ⊆ spaces Ls) :
    ∃ ms', walkRun trackPiece rounds (page * pageSize) remaining ms () = .ok (ms', ()) ∧
      Matches Ls ms' ∧ ∀ q, Marked ms' q ↔ Marked ms q ∨
      q ∈ Finset.Ico page (page + remaining) := by
  induction rounds generalizing page remaining ms with
  | zero =>
    obtain rfl := le_zero.mp enough
    exact ⟨ms, rfl, pool, by simp⟩
  | succ rounds ih =>
    rw [walkRun]
    by_cases positive : remaining > 0
    · have first : page ∈ Finset.Ico page (page + remaining) := mem_Ico.mpr ⟨le_rfl, by omega⟩
      obtain ⟨L, member, before, m, after, fits, within, rfl, found, alone, replaced⟩ :=
        pool.withManager (inside first) fun manager =>
          let curPages := min remaining (manager.getPageOffsetToEnd (page * pageSize))
          let (manager, s) := trackPiece manager (page * pageSize) curPages ()
          (manager, curPages, s)
      obtain ⟨curPages, cur, some, most, cut, owned, -, -⟩ := pool.piece positive member fits within
      rw [if_pos positive, found, ok_bind]
      dsimp only [trackPiece]
      rw [cur]
      have tracked (q : Nat) : (m.trackOptimizedAllocation (page * pageSize) curPages).Marked q ↔
        _ :=
        fits.marked_trackOptimized (dvd_mul_left pageSize page) (cut ▸ owned) some
      have fits' : Fits L (m.trackOptimizedAllocation (page * pageSize) curPages) :=
        ⟨fits.standard, fits.wellFormed⟩
      have next : page * pageSize + curPages * pageSize = (page + curPages) * pageSize :=
        (add_mul ..).symm
      have rest : Finset.Ico (page + curPages) (page + curPages + (remaining - curPages)) ⊆
          Finset.Ico page (page + remaining) := Finset.Ico_subset_Ico (by omega) (by omega)
      obtain ⟨ms', walked, pool', marked'⟩ := ih (replaced _ fits') (by omega) (rest.trans inside)
      refine ⟨ms', by rw [next]; exact walked, pool', fun q => ?_⟩
      rw [marked' q, marked_middle, marked_middle, tracked, cut, mem_Ico, mem_Ico, mem_Ico]
      have split : page ≤ q ∧ q < page + remaining ↔ (page ≤ q ∧ q < page + curPages) ∨
          (page + curPages ≤ q ∧ q < page + curPages + (remaining - curPages)) := by omega
      rw [split]
      tauto
    · rw [if_neg positive]
      obtain rfl : remaining = 0 := by omega
      exact ⟨ms, rfl, pool, by simp⟩

end

/-! ## The runs of a group -/

/-- The last piece of the run has a new page. -/
def Noticed (Ls : List Layout) (ms : List Impl) (run : KBlockInfo) : Prop :=
  ∃ q, LastPiece Ls run q ∧ ¬ Marked ms q

theorem noticed_congr {run : KBlockInfo} (same : ∀ q ∈ run.pages, Marked ms' q ↔ Marked ms q) :
    Noticed Ls ms' run ↔ Noticed Ls ms run :=
  exists_congr fun q => and_congr_right fun piece => not_congr (same q piece.1)

/-- New pages are filled, and the runs in whose last pieces they are noticed are marked. -/
theorem trackGroup_spec (pool : Matches Ls ms) (pattern : BitVec 8) {blocks : List KBlockInfo}
    (separate : Separate blocks) (inside : pagesOfBlocks blocks ⊆ spaces Ls) (memory : Memory) :
    ∃ ms' memory', trackGroup pattern blocks ms memory = .ok (ms', memory') ∧
      Filled pattern (fun q => q ∈ pagesOfBlocks blocks ∧ ¬ Marked ms q) memory memory' ∧
      ∀ q, Marked ms' q ↔ Marked ms q ∨ ∃ run ∈ blocks, q ∈ run.pages ∧ Noticed Ls ms run := by
  induction blocks generalizing ms memory with
  | nil => exact ⟨ms, memory, rfl, .nothing (by simp [pagesOfBlocks]), by simp⟩
  | cons b blocks ih =>
    obtain ⟨some_pages, fresh, others⟩ := Separate.cons_iff.mp separate
    rw [pagesOfBlocks, union_subset_iff] at inside
    have range : Finset.Ico b.pageIndex (b.pageIndex + b.numPages) = b.pages := b.pages_eq.symm
    obtain ⟨⟨anyNew, memory₁⟩, walked, filled, flag⟩ :=
      walkRun_fillPiece pool pattern b.numPages le_rfl (range ▸ inside.1) (false, memory)
    have flag : anyNew = true ↔ Noticed Ls ms b := flag some_pages
    rw [range] at filled
    obtain ⟨ms₁, first, pool₁, marked₁⟩ : ∃ ms₁, trackGroup pattern (b :: blocks) ms memory =
        trackGroup pattern blocks ms₁ memory₁ ∧ Matches Ls ms₁ ∧
        ∀ q, Marked ms₁ q ↔ Marked ms q ∨ q ∈ b.pages ∧ Noticed Ls ms b := by
      rw [trackGroup, if_neg some_pages.ne', KBlockInfo.getAddress, walked, ok_bind]
      dsimp only
      cases anyNew with
      | false =>
        have unnoticed : ¬ Noticed Ls ms b := fun new => Bool.false_ne_true (flag.mpr new)
        exact ⟨ms, rfl, pool, fun q => (or_iff_left fun both => unnoticed both.2).symm⟩
      | true =>
        have new := flag.mp rfl
        obtain ⟨ms₁, tracked, pool₁, marked₁⟩ :=
          walkRun_trackPiece pool b.numPages le_rfl (range ▸ inside.1)
        rw [if_pos rfl, tracked, ok_bind]
        refine ⟨ms₁, rfl, pool₁, fun q => ?_⟩
        rw [marked₁ q, range, and_iff_left new]
    -- the other runs have other pages
    have same : ∀ q ∈ pagesOfBlocks blocks, Marked ms₁ q ↔ Marked ms q := by
      intro q member
      rw [marked₁ q]
      exact or_iff_left fun both => disjoint_left.mp fresh both.1 member
    obtain ⟨ms₂, memory₂, rest, filled₂, marked₂⟩ := ih pool₁ others inside.2 memory₁
    refine ⟨ms₂, memory₂, first.trans rest, (filled.trans filled₂).congr fun q => ?_, fun q => ?_⟩
    · rw [pagesOfBlocks, mem_union, or_and_right]
      exact or_congr_right (and_congr_right fun member => not_congr (same q member).symm)
    · rw [marked₂ q, marked₁ q, exists_mem_cons_iff, or_assoc]
      refine or_congr_right (or_congr_right
        (exists_congr fun run => and_congr_right fun member => ?_))
      exact and_congr_right fun _ => noticed_congr fun p page =>
        same p (mem_pagesOfBlocks.mpr ⟨run, member, page⟩)

theorem clearGroup_filled (pattern : BitVec 8) (blocks : List KBlockInfo) (memory : Memory) :
    Filled pattern (fun q => q ∈ pagesOfBlocks blocks) memory
      (clearGroup pattern blocks memory) := by
  induction blocks generalizing memory with
  | nil => exact .nothing (by simp [pagesOfBlocks])
  | cons b blocks ih =>
    refine ((memset_filled pattern memory b.pageIndex b.numPages).trans (ih _)).congr fun q => ?_
    rw [pagesOfBlocks, mem_union, b.pages_eq, mem_Ico]

/-! ## The whole call -/

/-- The pages that the optimized process has not had before are filled, and all of its pages are
marked; another process has all of its pages filled and, if there is an optimized one, not
marked. -/
structure FillsAndTracks (managers managers' : List Impl) (pages : Finset Nat)
    (hasOptimizedProcess isOptimized : Bool)
    (pattern : BitVec 8) (memory memory' : Memory) : Prop where
  filled : Filled pattern (fun q => q ∈ pages ∧
    ¬ ((hasOptimizedProcess && isOptimized) = true ∧ Marked managers q)) memory memory'
  tracked : (hasOptimizedProcess && isOptimized) = true → ∀ q ∈ pages, Marked managers' q
  untracked : (hasOptimizedProcess && !isOptimized) = true → ∀ q ∈ pages, ¬ Marked managers' q
  others : ∀ q, q ∉ pages → (Marked managers' q ↔ Marked managers q)

/-- A call comes to an end, and the pages of its group are filled and tracked. When it fails, the
group has none. -/
def ServesProcess (managers : List Impl) (hasOptimizedProcess isOptimized : Bool)
    (pattern : BitVec 8) (memory : Memory)
    (r : Except Fault (Result × List Impl × KPageGroup × Memory)) : Prop :=
  ∃ result managers' group memory', r = .ok (result, managers', group, memory') ∧
    (result ≠ .success → group.blocks = []) ∧
    FillsAndTracks managers managers' (pagesOfBlocks group.blocks) hasOptimizedProcess isOptimized
    pattern memory memory'

/-- Where a free page that begins a manager is marked, so are the free pages before it, as far as a
run of the given number of pages reaches. -/
def MarkedBefore (managers : List Impl) (numPages : Nat) : Prop :=
  ∀ m ∈ managers, ∀ page, page < m.heap.heapAddress / pageSize →
    m.heap.heapAddress / pageSize < page + numPages →
    (∀ q, page ≤ q → q ≤ m.heap.heapAddress / pageSize → q ∈ freePages managers) →
    Marked managers (m.heap.heapAddress / pageSize) → Marked managers page

/-- A run of free pages in whose last piece nothing is new is marked as a whole. -/
theorem MarkedBefore.marked {numPages : Nat} (pool : Matches Ls ms)
    (before : MarkedBefore ms numPages)
    {run : KBlockInfo} (free : run.pages ⊆ freePages ms) (fits : run.numPages ≤ numPages)
    (last : ∀ q, LastPiece Ls run q → Marked ms q) {q : Nat} (page : q ∈ run.pages) :
    Marked ms q := by
  have page_iff {q : Nat} : q ∈ run.pages ↔ run.pageIndex ≤ q ∧
      q < run.pageIndex + run.numPages := by
    rw [run.pages_eq, mem_Ico]
  obtain ⟨low, high⟩ := page_iff.mp page
  have final := pool.freePages_subset (free (page_iff.mpr (by omega : run.pageIndex ≤
    run.pageIndex + run.numPages - 1 ∧ run.pageIndex + run.numPages - 1 <
    run.pageIndex + run.numPages)))
  obtain ⟨L, member, front, m, after, fits_m, ends, rfl, -⟩ :=
    pool.withManager final fun m => (m, ())
  have base : m.heap.heapAddress / pageSize = L.address / pageSize := by
    rw [fits_m.wellFormed.heapAddress]
  rw [Layout.space, mem_Ico] at ends
  have piece {q : Nat} (here : L.address / pageSize ≤ q ∧ run.pageIndex ≤ q)
      (inside : q < run.pageIndex + run.numPages) : LastPiece Ls run q := by
    refine ⟨page_iff.mpr ⟨here.2, inside⟩, L, member, ?_, ?_⟩
    · exact mem_Ico.mpr (by omega)
    · exact mem_Ico.mpr ends
  by_cases late : L.address / pageSize ≤ q
  · exact last q (piece ⟨late, low⟩ high)
  · -- the manager of the last piece begins behind the page
    refine before m (mem_append_right _ mem_cons_self) q (by omega) (by omega)
      (fun r above below => free (page_iff.mpr (by omega))) (last _ (piece ?_ ?_))
    · omega
    · omega

/-- Two adjacent managers of one free page each, with their maps. -/
def twoManagers (first second : BitVec 64) : List Impl :=
  [{ singlePage 0x80000000 with optimizeMap := fun _ => first },
    { singlePage 0x80001000 with optimizeMap := fun _ => second }]

def twoLayouts : List Layout :=
  [KPageHeap.standardLayout 0x80000000 pageSize freshLayout.positive freshLayout.startAligned
    (by decide), KPageHeap.standardLayout 0x80001000 pageSize (by decide) (by decide) (by decide)]

theorem twoManagers_matches (first second : BitVec 64) :
    Matches twoLayouts (twoManagers first second) := by
  obtain ⟨fits, apart⟩ := singlePage_matches
  obtain ⟨front, others⟩ := forall₂_cons.mp fits
  obtain ⟨back, -⟩ := forall₂_cons.mp others
  exact ⟨.cons ⟨front.standard, front.wellFormed⟩ (.cons ⟨back.standard, back.wellFormed⟩ .nil),
    apart⟩

theorem twoManagers_markedBefore : MarkedBefore (twoManagers 1 0) 2 := by
  intro m member page early near free marked
  rcases mem_pair.mp member with rfl | rfl
  · -- there is nothing before the first manager
    have base : (singlePage 0x80000000).heap.heapAddress / pageSize = 0x80000 := by decide +kernel
    dsimp only at early near free
    rw [base] at early near free
    obtain rfl : page = 0x7FFFF := by omega
    have outside : 0x7FFFF ∉ freePages (twoManagers 1 0) := by decide +kernel
    exact absurd (free _ le_rfl (by decide)) outside
  · have clear : (twoManagers 1 0).all (fun m =>
      !bitAt m.optimizeMap (0x80001 - m.heap.heapAddress / pageSize) || 0x80001 ∉ m.heap.space) =
      true := by decide +kernel
    have base : (singlePage 0x80001000).heap.heapAddress / pageSize = 0x80001 := by decide +kernel
    dsimp only at marked
    rw [base] at marked
    obtain ⟨m, mem, within, bit⟩ := marked
    have unset := all_eq_true.mp clear m mem
    rw [bit] at unset
    simp [within] at unset

end SumiEmu.Kernel.KMemoryManager
