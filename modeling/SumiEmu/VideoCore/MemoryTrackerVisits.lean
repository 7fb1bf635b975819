/-
# Visits of the regions of a range

The parts of a range are a sweep over regions of 1024 pages. A visit of a region changes
its manager, and with it the pages of the region as the tracker numbers them; what the
device tracker is told for a page goes with its state.
-/

import SumiEmu.VideoCore.MemoryTracker
import SumiEmu.VideoCore.WordManagerRanges

namespace SumiEmu.VideoCore.MemoryTrackerBase

open WordManager Function Nat

/-- The state of a page, which is the initial one in a region without a manager. -/
def page (t : MemoryTrackerBase) (q : Nat) : PageState :=
  match t.topTier (q / 1024) with
  | none => PageState.initial
  | some manager => manager.page (q % 1024)

variable (t : MemoryTrackerBase)

/-- The pages, each with what has been told of it. -/
def view (q : Nat) : PageState × List Int := (t.page q, deltas t.log q)

/-- A manager stands at its region, and a region with a cached write is in the set. -/
structure Consistent (t : MemoryTrackerBase) : Prop where
  manages : ∀ r m, t.topTier r = some m → m.Manages r
  cached : ∀ q, (t.page q).cachedCpu = true → q / 1024 ∈ t.cachedPages

variable {t : MemoryTrackerBase} {m : WordManager} {r : Nat} {cpuAddr size : Nat}

theorem page_some {q : Nat} (here : t.topTier (q / 1024) = some m) :
    t.page q = m.page (q % 1024) := by
  rw [page, here]

theorem page_none {q : Nat} (absent : t.topTier (q / 1024) = none) :
    t.page q = PageState.initial := by
  rw [page, absent]

theorem page_congr {t' : MemoryTrackerBase} {q : Nat}
    (same : t'.topTier (q / 1024) = t.topTier (q / 1024)) : t'.page q = t.page q := by
  rw [page, page, same]

@[simp]
theorem store_topTier_self (r : Nat) (m : WordManager) (log : List Update) :
    (t.store r m log).topTier r = some m := update_self ..

theorem store_topTier_of_ne {i : Nat} (other : i ≠ r) (log : List Update) :
    (t.store r m log).topTier i = t.topTier i := update_of_ne other ..

theorem createRegion_topTier_self (r : Nat) : (t.createRegion r).topTier r =
    some (WordManager.new (r * higherPageSize) higherPageSize) := update_self ..

theorem createRegion_topTier_of_ne {i : Nat} (other : i ≠ r) :
    (t.createRegion r).topTier i = t.topTier i := update_of_ne other ..

theorem view_eq_regionView (here : t.topTier r = some m) :
    t.view = regionView r t.page (m, t.log) := by
  funext q
  by_cases inside : q / 1024 = r
  · subst inside
    rw [view, regionView, if_pos rfl, page_some here]
  · rw [view, regionView, if_neg inside]

theorem view_store (r : Nat) (m : WordManager) (log : List Update) :
    (t.store r m log).view = regionView r t.page (m, log) := by
  funext q
  by_cases inside : q / 1024 = r
  · subst inside
    rw [view, regionView, if_pos rfl, page_some (store_topTier_self ..)]
    rfl
  · rw [view, regionView, if_neg inside, page_congr (store_topTier_of_ne inside log)]
    rfl

/-- Making a manager changes no page. -/
theorem view_createRegion (absent : t.topTier r = none) : (t.createRegion r).view = t.view := by
  funext q
  by_cases inside : q / 1024 = r
  · subst inside
    rw [view, view, page_none absent, page_some (createRegion_topTier_self ..), page_new]
    rfl
  · rw [view, view, page_congr (createRegion_topTier_of_ne inside)]
    rfl

theorem page_eq_of_view {t' : MemoryTrackerBase} (same : t'.view = t.view) : t'.page = t.page :=
  funext fun q => congrArg Prod.fst (congrFun same q)

theorem Consistent.createRegion (consistent : t.Consistent) (absent : t.topTier r = none) :
    (t.createRegion r).Consistent where
  manages i m here := by
    by_cases same : i = r
    · subst same
      rw [createRegion_topTier_self] at here
      cases here
      exact ⟨rfl, rfl⟩
    · rw [createRegion_topTier_of_ne same] at here
      exact consistent.manages i m here
  cached q := by
    rw [page_eq_of_view (view_createRegion absent)]
    exact consistent.cached q

/-- What a visit finds: the pages as they were, and a manager unless none is to be made. -/
theorem ready_spec (consistent : t.Consistent) (createRegionOnFail : Bool) (r : Nat) :
    (t.ready createRegionOnFail r).Consistent ∧ (t.ready createRegionOnFail r).view = t.view ∧
      ((t.ready createRegionOnFail r).topTier r = none → createRegionOnFail = false) := by
  by_cases missing : createRegionOnFail ∧ t.topTier r = none
  · rw [ready, if_pos missing, createRegion_topTier_self]
    exact ⟨consistent.createRegion missing.2, view_createRegion missing.2, fun absurdity => by
      cases absurdity⟩
  · rw [ready, if_neg missing]
    refine ⟨consistent, rfl, fun absent => ?_⟩
    cases createRegionOnFail
    · rfl
    · exact absurd ⟨rfl, absent⟩ missing

/-- The pages of a region that a part of a range meets. -/
abbrev InPart (part : RegionPart) (x : Nat) : Prop :=
  part.pageOffset / 4096 ≤ x ∧ x < (part.pageOffset + part.copyAmount + 4095) / 4096

/-- The parts of a range, as a sweep over the pages that it meets. -/
theorem sweep_regionParts (lo hi pageIndex : Nat) (pageOffset : Fin higherPageSize)
    (remainingSize : Nat)
    (lower : ∀ x : Nat, pageOffset.val / 4096 ≤ x ↔ lo ≤ pageIndex * 1024 + x)
    (upper : 0 < remainingSize →
      hi = (pageIndex * 2 ^ 22 + pageOffset.val + remainingSize + 4095) / 4096) :
    ∃ last, Sweep 1024 lo hi RegionPart.pageIndex InPart pageIndex
        (regionParts pageIndex pageOffset remainingSize) last ∧
      (0 < remainingSize → last * 2 ^ 22 <
        pageIndex * 2 ^ 22 + pageOffset.val + remainingSize + 2 ^ 22 ∧
        pageIndex * 2 ^ 22 + pageOffset.val + remainingSize ≤ last * 2 ^ 22) := by
  induction pageIndex, pageOffset, remainingSize using regionParts.induct with
  | case1 pageIndex pageOffset =>
    rw [regionParts, dif_pos rfl]
    exact ⟨pageIndex, .done _, fun absurdity => absurd absurdity (Nat.lt_irrefl 0)⟩
  | case2 pageIndex pageOffset remainingSize more copyAmount ih =>
    rw [regionParts, dif_neg more]
    have inside : pageOffset.val < 2 ^ 22 := pageOffset.isLt
    have amount : copyAmount = min (2 ^ 22 - pageOffset.val) remainingSize := rfl
    change ∃ last, Sweep 1024 lo hi RegionPart.pageIndex InPart pageIndex
      (⟨pageIndex, pageOffset, copyAmount⟩ ::
        regionParts (pageIndex + 1) 0 (remainingSize - copyAmount)) last ∧ _
    clear_value copyAmount
    have positive := Nat.pos_of_ne_zero more
    have end_eq := upper positive
    have advanced : 0 < remainingSize - copyAmount → (pageIndex + 1) * 2 ^ 22 + 0 +
        (remainingSize - copyAmount) = pageIndex * 2 ^ 22 + pageOffset.val + remainingSize := by
      omega
    obtain ⟨last, sweep, reached⟩ := ih
      (fun x => by
        have further := lower (1024 + x)
        rw [show ((0 : Fin higherPageSize).val) = 0 from rfl]
        omega)
      (fun left => by
        rw [end_eq, show ((0 : Fin higherPageSize).val) = 0 from rfl, advanced left])
    refine ⟨last, .piece rfl (fun x small => ?_) sweep, fun _ => ?_⟩
    · have start := lower x
      simp only [InPart]
      omega
    · rcases Nat.eq_zero_or_pos (remainingSize - copyAmount) with none | left
      · -- the region of the last part is the last one
        rw [none, regionParts, dif_pos rfl] at sweep
        cases sweep
        rw [Nat.add_one_mul]
        generalize pageIndex * 2 ^ 22 = base
        omega
      · have bounds := reached left
        rwa [show ((0 : Fin higherPageSize).val) = 0 from rfl, advanced left] at bounds

variable {part : RegionPart}

/-- A part is not empty and stays inside its region and inside the range. -/
theorem mem_regionParts (pageIndex : Nat) (pageOffset : Fin higherPageSize)
    (remainingSize : Nat) (member : part ∈ regionParts pageIndex pageOffset remainingSize) :
    0 < part.copyAmount ∧ part.pageOffset + part.copyAmount ≤ 2 ^ 22 ∧
      part.pageIndex * 2 ^ 22 + part.pageOffset + part.copyAmount ≤
        pageIndex * 2 ^ 22 + pageOffset.val + remainingSize := by
  induction pageIndex, pageOffset, remainingSize using regionParts.induct with
  | case1 pageIndex pageOffset =>
    rw [regionParts, dif_pos rfl] at member
    cases member
  | case2 pageIndex pageOffset remainingSize more copyAmount ih =>
    have inside : pageOffset.val < 2 ^ 22 := pageOffset.isLt
    have amount : copyAmount = min (2 ^ 22 - pageOffset.val) remainingSize := rfl
    rw [regionParts, dif_neg more] at member
    rcases List.mem_cons.mp member with rfl | later
    · change 0 < copyAmount ∧ pageOffset.val + copyAmount ≤ 2 ^ 22 ∧ _ + copyAmount ≤ _
      simp only
      omega
    · have bounds := ih later
      rw [show ((0 : Fin higherPageSize).val) = 0 from rfl] at bounds
      have left : remainingSize - copyAmount ≠ 0 := by
        intro none
        have empty : part ∈ regionParts (pageIndex + 1) 0 (remainingSize - copyAmount) := later
        rw [none, regionParts, dif_pos rfl] at empty
        cases empty
      clear_value copyAmount
      have advanced : (pageIndex + 1) * 2 ^ 22 + 0 + (remainingSize - copyAmount) =
          pageIndex * 2 ^ 22 + pageOffset.val + remainingSize := by omega
      rwa [advanced] at bounds

section Parts

variable (positive : 0 < size)
include positive

/-- The regions of a range, as a sweep over the pages that the range meets. -/
theorem sweep_parts (cpuAddr : Nat) : ∃ last,
    Sweep 1024 (cpuAddr / 4096) ((cpuAddr + size + 4095) / 4096)
      RegionPart.pageIndex InPart (cpuAddr / 2 ^ 22) (parts cpuAddr size) last ∧
    last * 2 ^ 22 < cpuAddr + size + 2 ^ 22 ∧ cpuAddr + size ≤ last * 2 ^ 22 := by
  have whole : cpuAddr / 2 ^ 22 * 2 ^ 22 + cpuAddr % 2 ^ 22 = cpuAddr := div_add_mod' ..
  obtain ⟨last, sweep, bounds⟩ := sweep_regionParts (cpuAddr / 4096)
    ((cpuAddr + size + 4095) / 4096) (cpuAddr / 2 ^ 22)
    ⟨cpuAddr % 2 ^ 22, mod_lt _ (by decide)⟩ size (fun x => by simp only; omega)
    (fun _ => by simp only [whole])
  simp only [whole] at bounds
  exact ⟨last, sweep, bounds positive⟩

end Parts

theorem mem_parts (member : part ∈ parts cpuAddr size) :
    0 < part.copyAmount ∧ part.pageOffset + part.copyAmount ≤ 2 ^ 22 ∧
      part.pageIndex * 2 ^ 22 + part.pageOffset + part.copyAmount ≤ cpuAddr + size := by
  have whole : cpuAddr / 2 ^ 22 * 2 ^ 22 + cpuAddr % 2 ^ 22 = cpuAddr := div_add_mod' ..
  have bounds := mem_regionParts _ _ _ member
  simp only [higherPageSize, higherPageBits, whole] at bounds
  exact bounds

/-- A part of a range that lies in the address space. -/
structure Fits (part : RegionPart) : Prop where
  positive : 0 < part.copyAmount
  inside : part.pageOffset + part.copyAmount ≤ 2 ^ 22
  index_lt : part.pageIndex < 2 ^ 12

theorem fits_of_mem (inSpace : cpuAddr + size ≤ 2 ^ 34)
    (member : part ∈ parts cpuAddr size) : Fits part := by
  obtain ⟨positive, inside, bound⟩ := mem_parts member
  refine ⟨positive, inside, ?_⟩
  by_contra high
  have : 2 ^ 12 * 2 ^ 22 ≤ part.pageIndex * 2 ^ 22 := Nat.mul_le_mul_right _ (Nat.le_of_not_lt high)
  omega

section Visits

variable {α : Type} {func : MemoryTrackerBase × α → Nat → WordManager → Nat → Nat →
    MemoryTrackerBase × α}
  {G : PageState → PageState} {selects : RegionPart → Nat → Prop} {createRegionOnFail : Bool}

/-- A visitor changes the pages of the region that it selects. -/
def Changes (selects : RegionPart → Nat → Prop) (G : PageState → PageState)
    (func : MemoryTrackerBase × α → Nat → WordManager → Nat → Nat → MemoryTrackerBase × α) : Prop :=
  ∀ s part m, s.1.Consistent → s.1.topTier part.pageIndex = some m → Fits part →
    (func s part.pageIndex m part.pageOffset part.copyAmount).1.Consistent ∧
      Pointwise (fun q => q / 1024 = part.pageIndex ∧ selects part (q % 1024)) (notified G) s.1.view
        (func s part.pageIndex m part.pageOffset part.copyAmount).1.view

theorem Changes.visitRegions (changes : Changes selects G func)
    (absent : createRegionOnFail = true ∨ G PageState.initial = PageState.initial)
    {s : MemoryTrackerBase × α} {part : RegionPart} (consistent : s.1.Consistent)
    (fits : Fits part) : (visitRegions createRegionOnFail func s part).1.Consistent ∧
      Pointwise (fun q => q / 1024 = part.pageIndex ∧ selects part (q % 1024)) (notified G) s.1.view
        (visitRegions createRegionOnFail func s part).1.view := by
  obtain ⟨ready, same, made⟩ := ready_spec consistent createRegionOnFail part.pageIndex
  unfold MemoryTrackerBase.visitRegions
  cases here : (s.1.ready createRegionOnFail part.pageIndex).topTier part.pageIndex with
  | none =>
    simp only [here]
    refine ⟨ready, same ▸ ⟨fun q chosen => ?_, fun _ _ => rfl⟩⟩
    -- the pages of the region are in their initial state, which the operation does not change
    have fixed : G PageState.initial = PageState.initial :=
      absent.resolve_left fun create => absurd (create.symm.trans (made here)) (by decide)
    refine (notified_of_eq ?_).symm
    rw [view, page_none (chosen.1 ▸ here)]
    exact fixed
  | some m =>
    simp only [here]
    rw [← same]
    exact changes (_, s.2) part m ready here fits

theorem Changes.iteratePages (changes : Changes selects G func)
    (absent : createRegionOnFail = true ∨ G PageState.initial = PageState.initial)
    (inSpace : cpuAddr + size ≤ 2 ^ 34) {lo hi first last : Nat}
    (sweep : Sweep 1024 lo hi RegionPart.pageIndex selects first (parts cpuAddr size) last)
    (lower : first * 1024 ≤ lo) (upper : hi ≤ last * 1024) (consistent : t.Consistent) (start : α) :
    (t.iteratePages createRegionOnFail cpuAddr size start func).1.Consistent ∧
      Pointwise (fun q => lo ≤ q ∧ q < hi) (notified G) t.view
        (t.iteratePages createRegionOnFail cpuAddr size start func).1.view :=
  sweep.pointwise (by decide) lower upper (fun s : MemoryTrackerBase × α => s.1.Consistent)
    (fun s => s.1.view) (fun _ member _ _ kept =>
    changes.visitRegions absent kept (fits_of_mem inSpace member)) consistent

/-- An operation on a range of bytes changes the pages that the range meets. -/
theorem Changes.touches (changes : Changes InPart G func)
    (absent : createRegionOnFail = true ∨ G PageState.initial = PageState.initial)
    (inSpace : size = 0 ∨ cpuAddr + size ≤ 2 ^ 34) (consistent : t.Consistent) (start : α) :
    (t.iteratePages createRegionOnFail cpuAddr size start func).1.Consistent ∧
      Pointwise (Touches cpuAddr size) (notified G) t.view
        (t.iteratePages createRegionOnFail cpuAddr size start func).1.view := by
  rcases Nat.eq_zero_or_pos size with rfl | positive
  · rw [MemoryTrackerBase.iteratePages, parts, regionParts, dif_pos rfl]
    exact ⟨consistent, .none fun q touched => absurd (touches_iff.mp touched).1 (Nat.lt_irrefl 0)⟩
  · obtain ⟨last, sweep, _, upper⟩ := sweep_parts positive cpuAddr
    obtain ⟨kept, change⟩ := changes.iteratePages absent (inSpace.resolve_left positive.ne') sweep
      (by omega) (by omega) consistent start
    exact ⟨kept, change.congr fun q => (touches_iff.trans (and_iff_right positive)).symm⟩

end Visits

/-- A change of the pages of a region is one of the pages of the tracker. -/
theorem pointwise_store {N : PageState × List Int → PageState × List Int} {T : Nat → Prop}
    {p : WordManager × List Update} (here : t.topTier r = some m)
    (change : Pointwise T N (regionView r t.page (m, t.log)) (regionView r t.page p)) :
    Pointwise T N t.view (t.store r p.1 p.2).view := by
  rw [view_eq_regionView here, view_store]
  exact change

theorem Consistent.manages_store (consistent : t.Consistent) (manages : m.Manages r)
    (log : List Update) (i : Nat) (m' : WordManager)
    (here : (t.store r m log).topTier i = some m') : m'.Manages i := by
  by_cases same : i = r
  · subst same
    rw [store_topTier_self] at here
    cases here
    exact manages
  · rw [store_topTier_of_ne same] at here
    exact consistent.manages i m' here

/-- Putting a manager back after a change that caches nothing. -/
theorem Consistent.store {G : PageState → PageState} {T : Nat → Prop} {log : List Update}
    (consistent : t.Consistent) (manages : m.Manages r)
    (change : Pointwise T (notified G) t.view (t.store r m log).view)
    (keeps : ∀ s, (G s).cachedCpu = true → s.cachedCpu = true) : (t.store r m log).Consistent where
  manages := consistent.manages_store manages log
  cached q cached := by
    refine consistent.cached q ?_
    by_cases chosen : T q
    · have new : (t.store r m log).page q = G (t.page q) := congrArg Prod.fst (change.hit q chosen)
      exact keeps _ (new ▸ cached)
    · have old : (t.store r m log).page q = t.page q := congrArg Prod.fst (change.miss q chosen)
      exact old ▸ cached

/-- The pages that a part meets, counted by the tracker. -/
theorem inPart_iff (fits : Fits part) (q : Nat) :
    (part.pageIndex * 1024 + part.pageOffset / 4096 ≤ q ∧
      q < part.pageIndex * 1024 + (part.pageOffset + part.copyAmount + 4095) / 4096) ↔
      q / 1024 = part.pageIndex ∧ InPart part (q % 1024) := by
  have := fits.inside
  simp only [InPart]
  omega

theorem changeState_changes (type : PageType) (enable : Bool) (writable : type ≠ .untracked)
    (plain : type ≠ .cachedCpu) :
    Changes InPart (fun s => s.change type enable) (changeState type enable) := by
  intro s part m consistent here fits
  obtain ⟨manages, change⟩ := changeRegionState_spec s.1.page (consistent.manages _ m here) writable
    enable s.1.log fits.positive fits.inside
  have stored := pointwise_store here (change.congr fun q => inPart_iff fits q)
  refine ⟨consistent.store manages stored fun state => ?_, stored⟩
  cases type <;> cases enable <;>
    simp_all [PageState.change, PageState.markCpu, PageState.unmarkCpu]

theorem writeCached_changes : Changes InPart PageState.writeCached writeCached := by
  intro s part m consistent here fits
  obtain ⟨manages, change⟩ := changeRegionState_spec s.1.page (consistent.manages _ m here)
    (show PageType.cachedCpu ≠ .untracked by decide) true s.1.log fits.positive fits.inside
  have stored := pointwise_store here (change.congr fun q => inPart_iff fits q)
  have id : (m.cpuAddr + part.pageOffset) / 2 ^ 22 % 2 ^ 32 = part.pageIndex := by
    have := fits.index_lt
    have := fits.inside
    have := fits.positive
    rw [(consistent.manages _ m here).cpuAddr]
    omega
  refine ⟨⟨consistent.manages_store manages (m.changeRegionState .cachedCpu true
    (m.cpuAddr + part.pageOffset) part.copyAmount s.1.log).2, fun q cached => ?_⟩, stored⟩
  change q / 1024 ∈ s.1.cachedPages.insert ((m.cpuAddr + part.pageOffset) / 2 ^ 22 % 2 ^ 32)
  rw [id, List.mem_insert_iff]
  by_cases chosen : q / 1024 = part.pageIndex ∧ InPart part (q % 1024)
  · exact Or.inl chosen.1
  · have old : (s.1.store part.pageIndex _ _).page q = s.1.page q :=
      congrArg Prod.fst (stored.miss q chosen)
    exact Or.inr (consistent.cached q (old ▸ cached))

theorem flush_region (consistent : t.Consistent) (here : t.topTier r = some m) (offset size : Nat) :
    (flush (t, ()) r m offset size).1.Consistent ∧
      Pointwise (fun q => q / 1024 = r) (notified PageState.flush) t.view
        (flush (t, ()) r m offset size).1.view := by
  obtain ⟨manages, change⟩ :=
    WordManager.flushCachedWrites_spec t.page (consistent.manages _ m here) t.log
  have stored := pointwise_store here change
  refine ⟨consistent.store manages stored fun state cached => ?_, stored⟩
  cases cached

theorem flush_changes : Changes (fun _ _ => True) PageState.flush flush := by
  intro s part m consistent here fits
  obtain ⟨kept, change⟩ := flush_region consistent here part.pageOffset part.copyAmount
  exact ⟨kept, change.congr fun q => (and_iff_left trivial).symm⟩

/-- The regions of a list are flushed. -/
theorem foldl_flush (ids : List Nat) (consistent : t.Consistent) :
    let t' := ids.foldl (fun t id => match t.topTier id with
      | none => t
      | some manager => (flush (t, ()) id manager 0 0).1) t
    t'.Consistent ∧ Pointwise (fun q => q / 1024 ∈ ids) (notified PageState.flush) t.view
      t'.view := by
  induction ids generalizing t with
  | nil => exact ⟨consistent, .none fun q absurdity => by cases absurdity⟩
  | cons id ids ih =>
    obtain ⟨kept, first⟩ : (match t.topTier id with
        | none => t
        | some manager => (flush (t, ()) id manager 0 0).1).Consistent ∧
        Pointwise (fun q => q / 1024 = id) (notified PageState.flush) t.view
        (match t.topTier id with
        | none => t
        | some manager => (flush (t, ()) id manager 0 0).1).view := by
      cases here : t.topTier id with
      | none =>
        refine ⟨consistent, fun q inside => (notified_of_eq ?_).symm, fun _ _ => rfl⟩
        rw [view, page_none (inside ▸ here)]
        rfl
      | some m => exact flush_region consistent here 0 0
    obtain ⟨kept', later⟩ := ih kept
    refine ⟨kept', fun q chosen => ?_, fun q other => ?_⟩
    · rw [List.foldl_cons]
      by_cases again : q / 1024 ∈ ids
      · rw [later.hit q again]
        by_cases same : q / 1024 = id
        · rw [first.hit q same, notified_flush_flush]
        · rw [first.miss q same]
      · rw [later.miss q again, first.hit q ((List.mem_cons.mp chosen).resolve_right again)]
    · rw [List.foldl_cons, later.miss q fun again => other (List.mem_cons_of_mem _ again),
        first.miss q fun same => other (List.mem_cons.mpr (Or.inl same))]

/-- `FlushCachedWrites` of everything: outside the cached regions there is nothing to flush. -/
theorem flushCachedWrites_spec (consistent : t.Consistent) : t.flushCachedWrites.Consistent ∧
    ∀ q, t.flushCachedWrites.view q = notified PageState.flush (t.view q) := by
  obtain ⟨kept, change⟩ := foldl_flush t.cachedPages consistent
  have flushed := change.everywhere fun q other => notified_of_eq (by
    have clear : (t.page q).cachedCpu = false :=
      Bool.eq_false_iff.mpr fun cached => other (consistent.cached q cached)
    rw [PageState.flush]
    ext <;> simp [view, clear])
  refine ⟨⟨kept.manages, fun q cached => ?_⟩, flushed⟩
  have page_eq : t.flushCachedWrites.page q = (t.page q).flush := congrArg Prod.fst (flushed q)
  rw [page_eq] at cached
  cases cached

end SumiEmu.VideoCore.MemoryTrackerBase
