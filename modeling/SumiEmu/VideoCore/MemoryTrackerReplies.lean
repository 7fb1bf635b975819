/-
# What the tracker answers

An operation that asks goes over the regions of its range and combines what their managers
answer. Up to a region, the combined answer is the right one for the pages before it.
-/

import SumiEmu.VideoCore.MemoryTrackerVisits

namespace SumiEmu.VideoCore.MemoryTrackerBase

open WordManager Nat

variable {t : MemoryTrackerBase} {m : WordManager} {type : PageType} {cpuAddr size : Nat}
  {createRegionOnFail : Bool}

/-- The pages of a part that its manager finds modified. -/
theorem inRange_iff (type : PageType) {t' : MemoryTrackerBase} {part : RegionPart}
    (positive : 0 < size)
    (here : t'.topTier part.pageIndex = some m) (same : t'.page = t.page) (fits : Fits part)
    (selected : ∀ x < 1024, InPart part x ↔ cpuAddr / 4096 ≤ part.pageIndex * 1024 + x ∧
      part.pageIndex * 1024 + x < (cpuAddr + size + 4095) / 4096) (x : Nat) :
    m.InRange type part.pageOffset part.copyAmount x ↔
      x < 1024 ∧ Modified t.page type cpuAddr size (part.pageIndex * 1024 + x) := by
  have region (low : x < 1024) : (part.pageIndex * 1024 + x) / 1024 = part.pageIndex := by omega
  have inside (low : x < 1024) : (part.pageIndex * 1024 + x) % 1024 = x := by omega
  have page_eq (low : x < 1024) : t.page (part.pageIndex * 1024 + x) = m.page x := by
    rw [← same, page_some ((congrArg t'.topTier (region low)).trans here), inside low]
  constructor
  · rintro ⟨chosen, modified⟩
    have low : x < 1024 := by
      have := fits.inside
      omega
    refine ⟨low, touches_iff.mpr ⟨positive, (selected x low).mp chosen⟩, ?_⟩
    rwa [page_eq low]
  · rintro ⟨low, touched, modified⟩
    rw [page_eq low] at modified
    exact ⟨(selected x low).mpr (touches_iff.mp touched).2, modified⟩

/-- What is asked for is not found in a region without a manager. -/
def Finds (type : PageType) (createRegionOnFail : Bool) : Prop :=
  createRegionOnFail = true ∨ PageState.initial.modified type = false

/-- In a region that stays without a manager no page is modified. -/
theorem not_modified_of_absent (finds : Finds type createRegionOnFail) (consistent : t.Consistent)
    {r : Nat} (absent : (t.ready createRegionOnFail r).topTier r = none) {q : Nat}
    (region : q / 1024 = r) : ¬ Modified t.page type cpuAddr size q := by
  obtain ⟨_, same, made⟩ := ready_spec consistent createRegionOnFail r
  rintro ⟨_, modified⟩
  rw [← page_eq_of_view same, page_none (region ▸ absent)] at modified
  rcases finds with create | clear
  · rw [made absent] at create
    cases create
  · rw [clear] at modified
    cases modified

/-- A hull of pages, as `IteratePairs` keeps it. -/
def pairOf (hull : Option (Nat × Nat)) : Nat × Nat :=
  hull.elim (2 ^ 64 - 1, 0) fun pages => (pages.1 * 4096, (pages.2 + 1) * 4096)

/-- `execute` takes the hull of a region to what has been found so far. -/
theorem widenPair_spec (t : MemoryTrackerBase) (func : WordManager → Nat → Nat → Nat × Nat)
    (hull : Option (Nat × Nat)) {hull' : Option (Nat × Nat)} {r offset amount : Nat}
    (small : r < 2 ^ 12)
    (region : func m offset amount =
      hull'.elim (0, 0) fun pages => (pages.1 * 4096, (pages.2 + 1) * 4096))
    (bounded : ∀ pages ∈ hull', pages.1 < 1024) :
    widenPair func (t, pairOf hull) r m offset amount = (t, pairOf (Runs.join hull
      (hull'.map fun pages => (r * 1024 + pages.1, r * 1024 + pages.2)))) := by
  rw [widenPair, region]
  cases hull' with
  | none => cases hull <;> rfl
  | some pages =>
    have first : pages.1 < 1024 := bounded pages rfl
    have nonzero : pages.1 * 4096 ≠ 0 ∨ (pages.2 + 1) * 4096 ≠ 0 := Or.inr (by omega)
    change (if pages.1 * 4096 ≠ 0 ∨ (pages.2 + 1) * 4096 ≠ 0 then _ else _) = _
    rw [if_pos nonzero]
    cases hull with
    | none =>
      simp only [pairOf, Option.elim, Option.map, Runs.join, Prod.mk.injEq, true_and,
        higherPageSize, higherPageBits]
      omega
    | some earlier =>
      simp only [pairOf, Option.elim, Option.map, Runs.join, Prod.mk.injEq, true_and,
        higherPageSize, higherPageBits]
      omega

section Regions

theorem anyRegion_spec (finds : Finds type createRegionOnFail) (positive : 0 < size)
    {first last : Nat} {l : List RegionPart}
    (sweep : Sweep 1024 (cpuAddr / 4096)
    ((cpuAddr + size + 4095) / 4096) RegionPart.pageIndex InPart
      first l last) (fits : ∀ part ∈ l, Fits part) (writable : type ≠ .untracked)
    (consistent : t.Consistent) :
    let s := anyRegion createRegionOnFail (fun manager offset size =>
      manager.isRegionModified type offset size) l t
    s.1.Consistent ∧ s.1.view = t.view ∧ (s.2 = true ↔ ∃ q, first ≤ q / 1024 ∧ q / 1024 < last ∧
      Modified t.page type cpuAddr size q) := by
  induction sweep generalizing t with
  | done i =>
    refine ⟨consistent, rfl, iff_of_false Bool.false_ne_true ?_⟩
    rintro ⟨q, above, below, _⟩
    omega
  | piece here selected later ih =>
    rename_i part i last rest
    subst here
    have below := later.first_le
    obtain ⟨ready, same, _⟩ := ready_spec consistent createRegionOnFail part.pageIndex
    have later := ih (fun part member => fits part (List.mem_cons_of_mem _ member)) ready
    rw [same, page_eq_of_view same] at later
    -- a modified page is in this region or in a later one
    have split (clear : ∀ q, q / 1024 = part.pageIndex → ¬ Modified t.page type cpuAddr size q) :
        (∃ q, part.pageIndex + 1 ≤ q / 1024 ∧ q / 1024 < last ∧
          Modified t.page type cpuAddr size q) ↔ ∃ q, part.pageIndex ≤ q / 1024 ∧ q / 1024 < last ∧
          Modified t.page type cpuAddr size q := by
      refine exists_congr fun q => ⟨fun found => ⟨le_of_succ_le found.1, found.2⟩, fun found => ?_⟩
      refine ⟨lt_of_le_of_ne found.1 fun equal => ?_, found.2⟩
      exact clear q equal.symm found.2.2
    rw [anyRegion]
    cases manager : (t.ready createRegionOnFail part.pageIndex).topTier part.pageIndex with
    | none =>
      exact ⟨later.1, later.2.1,
        later.2.2.trans (split fun q => not_modified_of_absent finds consistent manager)⟩
    | some m =>
      have fit := fits part List.mem_cons_self
      have found := isRegionModified_iff (ready.manages _ m manager) fit.positive fit.inside
        writable
      have inRange := inRange_iff type positive manager (page_eq_of_view same) fit selected
      dsimp only
      by_cases modified : m.isRegionModified type part.pageOffset part.copyAmount = true
      · rw [if_pos modified]
        obtain ⟨x, chosen⟩ := found.mp modified
        obtain ⟨low, chosen⟩ := (inRange x).mp chosen
        exact ⟨ready, same, iff_of_true rfl ⟨_, by omega, by omega, chosen⟩⟩
      · rw [if_neg modified]
        refine ⟨later.1, later.2.1, later.2.2.trans (split fun q region chosen => modified ?_)⟩
        refine found.mpr ⟨q % 1024, (inRange _).mpr ⟨mod_lt q (by decide), ?_⟩⟩
        rwa [← region, mul_comm, div_add_mod]

/-- A visit of a region in `IteratePairs`. -/
theorem visitRegions_widenPair (finds : Finds type createRegionOnFail) (positive : 0 < size)
    (writable : type ≠ .untracked) {part : RegionPart} (fits : Fits part)
    (selected : ∀ x < 1024, InPart part x ↔ cpuAddr / 4096 ≤ part.pageIndex * 1024 + x ∧
      part.pageIndex * 1024 + x < (cpuAddr + size + 4095) / 4096)
    (consistent : t.Consistent) {hull : Option (Nat × Nat)}
    (known : Runs.Hull (fun q => q / 1024 < part.pageIndex ∧ Modified t.page type cpuAddr size q)
    hull) : let s := visitRegions createRegionOnFail (widenPair fun manager offset size =>
      manager.modifiedRegion type offset size) (t, pairOf hull) part
    s.1.Consistent ∧ s.1.view = t.view ∧ ∃ hull', s.2 = pairOf hull' ∧
      Runs.Hull (fun q => q / 1024 < part.pageIndex + 1 ∧ Modified t.page type cpuAddr size q)
      hull' := by
  obtain ⟨ready, same, _⟩ := ready_spec consistent createRegionOnFail part.pageIndex
  rw [visitRegions]
  cases manager : (t.ready createRegionOnFail part.pageIndex).topTier part.pageIndex with
  | none =>
    refine ⟨ready, same, hull, rfl, known.congr fun q => and_congr_left fun chosen => ?_⟩
    have other : q / 1024 ≠ part.pageIndex := fun region =>
      not_modified_of_absent finds consistent manager region chosen
    omega
  | some m =>
    obtain ⟨hull', found, region⟩ :=
      modifiedRegion_hull (ready.manages _ m manager) fits.positive fits.inside writable
    have inRange := inRange_iff type positive manager (page_eq_of_view same) fits selected
    have here := (found.congr inRange).shift (part.pageIndex * 1024)
    have split_iff (q : Nat) : (q / 1024 < part.pageIndex + 1 ∧
      Modified t.page type cpuAddr size q) ↔
      (q / 1024 < part.pageIndex ∧ Modified t.page type cpuAddr size q) ∨
      part.pageIndex * 1024 ≤ q ∧ q - part.pageIndex * 1024 < 1024 ∧ Modified t.page type cpuAddr
      size (part.pageIndex * 1024 + (q - part.pageIndex * 1024)) := by
      by_cases before : q < part.pageIndex * 1024
      · refine ⟨fun chosen => Or.inl ⟨by omega, chosen.2⟩, fun chosen => ?_⟩
        rcases chosen with chosen | chosen
        · exact ⟨by omega, chosen.2⟩
        · omega
      · rw [Nat.add_sub_cancel' (Nat.le_of_not_lt before)]
        refine ⟨fun chosen => Or.inr ⟨by omega, by omega, chosen.2⟩, fun chosen => ?_⟩
        rcases chosen with chosen | chosen
        · omega
        · exact ⟨by omega, chosen.2.2⟩
    have whole := (known.join here).congr fun q => (split_iff q).symm
    have bounded : ∀ pages ∈ hull', pages.1 < 1024 := by
      rintro pages rfl
      exact ((inRange _).mp found.1).1
    have widened := widenPair_spec (t.ready createRegionOnFail part.pageIndex)
      (fun manager offset size => manager.modifiedRegion type offset size) hull fits.index_lt region
        bounded
    exact ⟨by simp only [widened]; exact ready, by simp only [widened]; exact same, _,
      by simp only [widened], whole⟩

/-- `IteratePairs` gives the tight region of the modified pages. -/
theorem iteratePairs_spec (type : PageType) (finds : Finds type createRegionOnFail)
    (writable : type ≠ .untracked)
    (inSpace : size = 0 ∨ cpuAddr + size ≤ 2 ^ 34) (consistent : t.Consistent) :
    let s := t.iteratePairs createRegionOnFail cpuAddr size fun manager offset size =>
      manager.modifiedRegion type offset size
    s.1.Consistent ∧ s.1.view = t.view ∧
      IsRegion (Modified t.page type cpuAddr size) (.region s.2.1 s.2.2) := by
  rcases Nat.eq_zero_or_pos size with rfl | positive
  · rw [iteratePairs, iteratePages, parts, regionParts, dif_pos rfl]
    exact ⟨consistent, rfl, none, fun q chosen => Nat.lt_irrefl 0 (touches_iff.mp chosen.1).1, rfl⟩
  · obtain ⟨last, sweep, _, upper⟩ := sweep_parts positive cpuAddr
    have inside := inSpace.resolve_left positive.ne'
    have swept := sweep.foldl
      (f := visitRegions createRegionOnFail (widenPair fun manager offset size =>
        manager.modifiedRegion type offset size))
      (I := fun i s => s.1.Consistent ∧ s.1.view = t.view ∧ ∃ hull, s.2 = pairOf hull ∧
        Runs.Hull (fun q => q / 1024 < i ∧ Modified t.page type cpuAddr size q) hull)
      (s := (t, 2 ^ 64 - 1, 0)) (fun part member s _ selected known => ?_)
      ⟨consistent, rfl, none, rfl, fun q chosen => ?_⟩
    · obtain ⟨kept, same, hull, pair, found⟩ := swept
      refine ⟨kept, same, hull, found.congr fun q => and_iff_right_of_imp fun chosen => ?_, ?_⟩
      · have := (touches_iff.mp chosen.1).2
        omega
      · rw [iteratePairs, iteratePages, pair]
        cases hull with
        | none => rfl
        | some pages =>
          have ordered : pages.1 ≤ pages.2 := (found.2.2 _ found.1).2
          have proper : pages.1 * 4096 < (pages.2 + 1) * 4096 :=
            Nat.mul_lt_mul_of_pos_right (Nat.lt_succ_of_le ordered) (by decide)
          have region : (if pages.1 * 4096 < (pages.2 + 1) * 4096 then
              (pages.1 * 4096, (pages.2 + 1) * 4096) else (0, 0)) =
              (pages.1 * 4096, (pages.2 + 1) * 4096) := if_pos proper
          exact congrArg (fun p : Nat × Nat => Reply.region p.1 p.2) region
    · obtain ⟨kept, same, hull, pair, found⟩ := known
      rw [← page_eq_of_view same] at found ⊢
      rw [← same]
      have visited := visitRegions_widenPair finds positive writable (fits_of_mem inside member)
        selected kept found
      rwa [← pair] at visited
    · have := (touches_iff.mp chosen.2.1).2
      omega

/-- The operations that ask whether a region is modified. -/
theorem isRegionModified_spec (type : PageType) (finds : Finds type createRegionOnFail)
    (writable : type ≠ .untracked)
    (inSpace : size = 0 ∨ cpuAddr + size ≤ 2 ^ 34) (consistent : t.Consistent) :
    let s := t.isRegionModified cpuAddr size type createRegionOnFail
    s.1.Consistent ∧ s.1.view = t.view ∧ IsFlag (Modified t.page type cpuAddr size) s.2 := by
  rw [isRegionModified]
  rcases Nat.eq_zero_or_pos size with rfl | positive
  · rw [parts, regionParts, dif_pos rfl]
    refine ⟨consistent, rfl, false, rfl, iff_of_false Bool.false_ne_true ?_⟩
    rintro ⟨q, touched, _⟩
    exact Nat.lt_irrefl 0 (touches_iff.mp touched).1
  · obtain ⟨last, sweep, _, upper⟩ := sweep_parts positive cpuAddr
    obtain ⟨kept, same, found⟩ := anyRegion_spec finds positive sweep
      (fun part member => fits_of_mem (inSpace.resolve_left positive.ne') member) writable
        consistent
    refine ⟨kept, same, _, rfl, found.trans (exists_congr fun q => ⟨fun chosen => chosen.2.2, ?_⟩)⟩
    intro chosen
    have := (touches_iff.mp chosen.1).2
    exact ⟨by omega, by omega, chosen⟩

end Regions

section Ranges

variable {m : WordManager} {clear : Bool}

/-- What a visit for ranges does to a page. -/
def cleared (type : PageType) (clear : Bool) (s : PageState) : PageState :=
  if clear then s.clear type else s

theorem visitRanges_changes (writable : type ≠ .untracked) (plain : type ≠ .cachedCpu)
    (clear : Bool) : Changes InPart (cleared type clear) (visitRanges type clear) := by
  intro s part m consistent here fits
  have manages := consistent.manages _ m here
  cases clear
  · obtain ⟨manager, log⟩ :=
      forEachModifiedRange_unchanged m type part.pageOffset part.copyAmount s.1.log
    have stored : Pointwise (fun q => q / 1024 = part.pageIndex ∧ InPart part (q % 1024))
        (notified (cleared type false)) s.1.view (s.1.store part.pageIndex m s.1.log).view := by
      rw [view_store, ← view_eq_regionView here]
      exact ⟨fun q _ => (notified_of_eq rfl).symm, fun _ _ => rfl⟩
    rw [visitRanges, manager, log]
    exact ⟨consistent.store manages stored fun _ cached => cached, stored⟩
  · obtain ⟨kept, change⟩ := forEachModifiedRange_spec manages fits.positive fits.inside writable
      s.1.page s.1.log
    have stored := pointwise_store here (change.congr fun q => inPart_iff fits q)
    refine ⟨consistent.store kept stored fun state => ?_, stored⟩
    cases type <;> simp_all [PageState.clear, PageState.change, PageState.unmarkCpu]

/-- The calls up to a region are the runs of modified pages before it. -/
def Called (t : MemoryTrackerBase) (type : PageType) (cpuAddr size i : Nat)
    (s : MemoryTrackerBase × List (Nat × Nat)) : Prop :=
  s.1.Consistent ∧ (∀ q, i ≤ q / 1024 → s.1.page q = t.page q) ∧ ∃ runs, s.2 = runs.map byteRange ∧
    Runs.Cut (pagesPerRegion ∣ ·) (Modified t.page type cpuAddr size) 0 (i * 1024) runs

theorem Called.visitRegions (finds : Finds type createRegionOnFail)
    (fixed : createRegionOnFail = true ∨ cleared type clear PageState.initial = PageState.initial)
    (positive : 0 < size) (writable : type ≠ .untracked) (plain : type ≠ .cachedCpu)
    {part : RegionPart} (fits : Fits part)
    (selected : ∀ x < 1024, InPart part x ↔ cpuAddr / 4096 ≤ part.pageIndex * 1024 + x ∧
      part.pageIndex * 1024 + x < (cpuAddr + size + 4095) / 4096)
    {s : MemoryTrackerBase × List (Nat × Nat)}
    (called : Called t type cpuAddr size part.pageIndex s) :
    Called t type cpuAddr size (part.pageIndex + 1)
      (visitRegions createRegionOnFail (visitRanges type clear) s part) := by
  obtain ⟨consistent, fresh, runs, calls, cut⟩ := called
  obtain ⟨kept, change⟩ := (visitRanges_changes writable plain clear).visitRegions fixed
    (s := s) consistent fits
  have border : pagesPerRegion ∣ part.pageIndex * 1024 := dvd_mul_left ..
  have forward : part.pageIndex * 1024 ≤ (part.pageIndex + 1) * 1024 := by omega
  have alone : ∀ b, pagesPerRegion ∣ b → b ≤ part.pageIndex * 1024 ∨
      (part.pageIndex + 1) * 1024 ≤ b := by
    rintro b ⟨k, rfl⟩
    simp only [pagesPerRegion]
    omega
  -- it is enough to find the runs of the region
  suffices ∃ runs', (MemoryTrackerBase.visitRegions createRegionOnFail (visitRanges type clear) s
    part).2 = s.2 ++ runs'.map byteRange ∧ Runs.Describes (Modified t.page type cpuAddr size)
    (part.pageIndex * 1024) ((part.pageIndex + 1) * 1024) runs' by
    obtain ⟨runs', calls', described⟩ := this
    refine ⟨kept, fun q above => ?_, runs ++ runs', ?_, cut.append
      (Runs.Cut.of_describes described alone) (zero_le _) forward border⟩
    · rw [← fresh q (le_of_succ_le above)]
      exact congrArg Prod.fst (change.miss q fun chosen => absurd chosen.1 (by omega))
    · rw [calls', calls, List.map_append]
  have modified_iff (q : Nat) (region : q / 1024 = part.pageIndex) :
      Modified s.1.page type cpuAddr size q ↔ Modified t.page type cpuAddr size q := by
    rw [Modified, fresh q region.ge, Modified]
  obtain ⟨ready, same, _⟩ := ready_spec consistent createRegionOnFail part.pageIndex
  rw [MemoryTrackerBase.visitRegions]
  cases manager : (s.1.ready createRegionOnFail part.pageIndex).topTier part.pageIndex with
  | none =>
    refine ⟨[], (List.append_nil _).symm,
      (Runs.Describes.nil _).skip forward fun q above below => ?_⟩
    have region : q / 1024 = part.pageIndex := by omega
    rw [← modified_iff q region]
    exact not_modified_of_absent finds consistent manager region
  | some m =>
    obtain ⟨runs', calls', described⟩ := forEachModifiedRange_calls (ready.manages _ m manager)
      fits.positive fits.inside writable clear (s.1.ready createRegionOnFail part.pageIndex).log
    have inRange := inRange_iff type positive manager (page_eq_of_view same) fits selected
    refine ⟨runs', congrArg (s.2 ++ ·) calls', described.congr fun q above below => ?_⟩
    have region : q / 1024 = part.pageIndex := by omega
    rw [inRange, Nat.add_sub_cancel' above, modified_iff q region]
    exact and_iff_right (by omega)

/-- The operations that call a function on ranges. -/
theorem forEachRange_spec (type : PageType) (finds : Finds type createRegionOnFail)
    (fixed : createRegionOnFail = true ∨ cleared type clear PageState.initial = PageState.initial)
    (writable : type ≠ .untracked) (plain : type ≠ .cachedCpu)
    (inSpace : size = 0 ∨ cpuAddr + size ≤ 2 ^ 34) (consistent : t.Consistent) :
    let s := t.forEachRange cpuAddr size type clear createRegionOnFail
    s.1.Consistent ∧ Pointwise (Touches cpuAddr size) (notified (cleared type clear)) t.view
      s.1.view ∧ AreCalls (Modified t.page type cpuAddr size) s.2 := by
  obtain ⟨kept, change⟩ :=
    (visitRanges_changes writable plain clear).touches fixed inSpace consistent []
  refine ⟨kept, change, ?_⟩
  rw [forEachRange, iteratePages]
  rcases Nat.eq_zero_or_pos size with rfl | positive
  · rw [parts, regionParts, dif_pos rfl]
    exact ⟨[], rfl, .empty fun q _ _ chosen => Nat.lt_irrefl 0 (touches_iff.mp chosen.1).1⟩
  · obtain ⟨last, sweep, bound, upper⟩ := sweep_parts positive cpuAddr
    have inside := inSpace.resolve_left positive.ne'
    obtain ⟨_, _, runs, calls, cut⟩ := sweep.foldl
      (f := MemoryTrackerBase.visitRegions createRegionOnFail (visitRanges type clear))
      (I := Called t type cpuAddr size) (s := (t, []))
      (fun part member s _ selected called =>
        called.visitRegions finds fixed positive writable plain (fits_of_mem inside member)
          selected)
      ⟨consistent, fun _ _ => rfl, [], rfl, .empty fun q _ below chosen => by
        have := (touches_iff.mp chosen.1).2
        omega⟩
    refine ⟨runs, congrArg Reply.calls calls, ?_⟩
    -- behind the last region of the range there is nothing to call
    have whole := cut.append (.empty fun q above _ chosen => ?_) (Nat.zero_le _)
      (show last * 1024 ≤ 2 ^ (maxCpuPageBits - 12) by
        simp only [maxCpuPageBits]
        omega) (Nat.dvd_mul_left ..)
    · rwa [List.append_nil] at whole
    · have := (touches_iff.mp chosen.1).2
      omega

end Ranges

end SumiEmu.VideoCore.MemoryTrackerBase
