/-
# Runs of the memory tracker

The tracker is its pages: after any operations the state of each page is the one that the
operations give it, and every reply is right for these states. The device tracker counts
each page that is not untracked once, at every moment of the run.
-/

import SumiEmu.VideoCore.MemoryTrackerReplies

namespace SumiEmu.VideoCore.MemoryTrackerBase

open List

variable {t : MemoryTrackerBase} {cpuAddr size : Nat} {ops : List Op} {op : Op}

/-- `FlushCachedWrites` on a range goes for the whole of every region of the range. -/
theorem flush_range (inSpace : size = 0 ∨ cpuAddr + size ≤ 2 ^ 34) (consistent : t.Consistent) :
    (t.iteratePages false cpuAddr size () flush).1.Consistent ∧
      Pointwise (TouchesRegion cpuAddr size) (notified PageState.flush) t.view
        (t.iteratePages false cpuAddr size () flush).1.view := by
  rcases Nat.eq_zero_or_pos size with rfl | positive
  · rw [iteratePages, parts, regionParts, dif_pos rfl]
    exact ⟨consistent, .none fun q touched => Nat.lt_irrefl 0 (touchesRegion_iff.mp touched).1⟩
  · obtain ⟨last, sweep, bound, upper⟩ := sweep_parts positive cpuAddr
    obtain ⟨kept, change⟩ :=
      flush_changes.iteratePages (.inr rfl) (inSpace.resolve_left positive.ne') sweep.whole
      (Nat.le_refl _) (Nat.le_refl _) consistent ()
    refine ⟨kept, change.congr fun q => ?_⟩
    rw [touchesRegion_iff]
    omega

/-- An operation that changes no page. -/
theorem pointwise_id {T : Nat → Prop} {v v' : Nat → PageState × List Int} (same : v' = v) :
    Pointwise T (notified id) v v' where
  hit q _ := by rw [same, notified_of_eq rfl]
  miss q _ := by rw [same]

/-- One operation does to the pages what it says, and its reply is right. -/
theorem step_spec (consistent : t.Consistent) (inSpace : op.InSpace) : (t.step op).1.Consistent ∧
    Pointwise op.Reaches (notified op.effect) t.view (t.step op).1.view ∧
      op.Answers t.page (t.step op).2 := by
  cases op with
  | flushCachedWrites =>
    obtain ⟨kept, flushed⟩ := flushCachedWrites_spec consistent
    exact ⟨kept, ⟨fun q _ => flushed q, fun q other => absurd trivial other⟩, rfl⟩
  | range op cpuAddr size =>
    have changed {G : PageState → PageState} {func} (changes : Changes InPart G func) :=
      changes.touches (.inl rfl) inSpace consistent ()
    cases op with
    | modifiedCpuRegion =>
      obtain ⟨kept, same, answer⟩ := iteratePairs_spec .cpu (.inl rfl) (by decide) inSpace
        consistent
      exact ⟨kept, pointwise_id same, answer⟩
    | modifiedGpuRegion =>
      obtain ⟨kept, same, answer⟩ := iteratePairs_spec .gpu (.inr rfl) (by decide) inSpace
        consistent
      exact ⟨kept, pointwise_id same, answer⟩
    | isRegionCpuModified =>
      obtain ⟨kept, same, answer⟩ := isRegionModified_spec .cpu (.inl rfl) (by decide) inSpace
        consistent
      exact ⟨kept, pointwise_id same, answer⟩
    | isRegionGpuModified =>
      obtain ⟨kept, same, answer⟩ := isRegionModified_spec .gpu (.inr rfl) (by decide) inSpace
        consistent
      exact ⟨kept, pointwise_id same, answer⟩
    | isRegionPreflushable =>
      obtain ⟨kept, same, answer⟩ :=
        isRegionModified_spec .preflushable (.inr rfl) (by decide) inSpace consistent
      exact ⟨kept, pointwise_id same, answer⟩
    | markRegionAsCpuModified =>
      obtain ⟨kept, change⟩ := changed (changeState_changes .cpu true (by decide) (by decide))
      exact ⟨kept, change, rfl⟩
    | unmarkRegionAsCpuModified =>
      obtain ⟨kept, change⟩ := changed (changeState_changes .cpu false (by decide) (by decide))
      exact ⟨kept, change, rfl⟩
    | markRegionAsGpuModified =>
      obtain ⟨kept, change⟩ := changed (changeState_changes .gpu true (by decide) (by decide))
      exact ⟨kept, change, rfl⟩
    | markRegionAsPreflushable =>
      obtain ⟨kept, change⟩ :=
        changed (changeState_changes .preflushable true (by decide) (by decide))
      exact ⟨kept, change, rfl⟩
    | unmarkRegionAsGpuModified =>
      obtain ⟨kept, change⟩ := changed (changeState_changes .gpu false (by decide) (by decide))
      exact ⟨kept, change, rfl⟩
    | unmarkRegionAsPreflushable =>
      obtain ⟨kept, change⟩ :=
        changed (changeState_changes .preflushable false (by decide) (by decide))
      exact ⟨kept, change, rfl⟩
    | cachedCpuWrite =>
      obtain ⟨kept, change⟩ := changed writeCached_changes
      exact ⟨kept, change, rfl⟩
    | flushCachedWrites =>
      obtain ⟨kept, change⟩ := flush_range inSpace consistent
      exact ⟨kept, change, rfl⟩
    | forEachUploadRange =>
      exact forEachRange_spec .cpu (.inl rfl) (.inl rfl) (by decide) (by decide)
        inSpace consistent
    | forEachDownloadRange clear =>
      cases clear
      · exact forEachRange_spec .gpu (.inr rfl) (.inr rfl) (by decide) (by decide)
          inSpace consistent
      · exact forEachRange_spec .gpu (.inr rfl) (.inr rfl) (by decide) (by decide)
          inSpace consistent
    | forEachDownloadRangeAndClear =>
      exact forEachRange_spec .gpu (.inr rfl) (.inr rfl) (by decide) (by decide)
        inSpace consistent

theorem run_append (ops : List Op) (op : Op) : run (ops ++ [op]) = ((run ops).step op).1 :=
  foldl_append ..

theorem pagesAfter_append (ops : List Op) (op : Op) :
    pagesAfter (ops ++ [op]) = op.pagesAfter (pagesAfter ops) :=
  foldl_append ..

/-- What has been told of a page, at any moment, counts it at most once. -/
structure Balanced (untracked : Bool) (told : List Int) : Prop where
  sum : told.sum = if untracked then 0 else 1
  bounded : ∀ earlier, earlier <+: told → earlier.sum = 0 ∨ earlier.sum = 1

theorem Balanced.append {untracked untracked' : Bool} {told : List Int} {delta : Int}
    (balanced : Balanced untracked told)
    (sum : told.sum + delta = if untracked' then 0 else 1) :
    Balanced untracked' (told ++ [delta]) := by
  have whole : (told ++ [delta]).sum = if untracked' then 0 else 1 := by
    rw [sum_append, sum_singleton, sum]
  refine ⟨whole, fun earlier before => ?_⟩
  rcases prefix_concat_iff.mp before with rfl | before
  · cases untracked'
    · exact Or.inr whole
    · exact Or.inl whole
  · exact balanced.bounded earlier before

theorem Balanced.transition {before : Bool} {told : List Int} (balanced : Balanced before told)
    (after : Bool) : Balanced after (told ++ transition before after) := by
  have sum := balanced.sum
  cases before <;> cases after
  · exact (append_nil told).symm ▸ balanced
  · exact balanced.append (by rw [sum]; rfl)
  · exact balanced.append (by rw [sum]; rfl)
  · exact (append_nil told).symm ▸ balanced

/-- Everything that holds after a run. -/
theorem run_consistent (inSpace : ∀ op ∈ ops, op.InSpace) : (run ops).Consistent ∧
    (run ops).page = pagesAfter ops ∧
      ∀ q, Balanced ((run ops).page q).untracked (deltas (run ops).log q) := by
  induction ops using List.reverseRecOn with
  | nil =>
    refine ⟨⟨fun r m here => (by cases here), fun q cached => (by cases cached)⟩, rfl,
      fun q => ⟨rfl, ?_⟩⟩
    intro earlier before
    cases prefix_nil.mp before
    exact Or.inl rfl
  | append_singleton ops op ih =>
    obtain ⟨consistent, pages, balanced⟩ :=
      ih fun op member => inSpace op (mem_append_left _ member)
    obtain ⟨kept, change, _⟩ := step_spec consistent (inSpace op (by simp))
    rw [run_append, pagesAfter_append, ← pages]
    refine ⟨kept, funext fun q => ?_, fun q => ?_⟩
    · rw [Op.pagesAfter]
      exact (congrArg Prod.fst (change.eq_ite q)).trans (apply_ite Prod.fst ..)
    · have known := change.eq_ite q
      by_cases reached : op.Reaches q
      · rw [if_pos reached] at known
        have state : ((run ops).step op).1.page q = op.effect ((run ops).page q) :=
          congrArg Prod.fst known
        have told : deltas ((run ops).step op).1.log q = _ := congrArg Prod.snd known
        rw [state, told]
        exact (balanced q).transition _
      · rw [if_neg reached] at known
        have state : ((run ops).step op).1.page q = (run ops).page q := congrArg Prod.fst known
        have told : deltas ((run ops).step op).1.log q = deltas (run ops).log q :=
          congrArg Prod.snd known
        rw [state, told]
        exact balanced q

/-- After any operations, the pages are as the operations leave them and the next reply is
right for them. -/
theorem run_refines (ops : List Op) (op : Op) (inSpace : ∀ o ∈ ops ++ [op], o.InSpace) :
    (run (ops ++ [op])).page = pagesAfter (ops ++ [op]) ∧
      op.Answers (pagesAfter ops) ((run ops).step op).2 := by
  obtain ⟨consistent, pages, _⟩ := run_consistent fun o member =>
    inSpace o (mem_append_left _ member)
  refine ⟨(run_consistent inSpace).2.1, ?_⟩
  rw [← pages]
  exact (step_spec consistent (inSpace op (by simp))).2.2

/-- A flush of one page also flushes the cached write of its neighbour. -/
theorem run_flush_neighbour : ¬ Touches 0 4096 1 ∧
    (run [.range .unmarkRegionAsCpuModified 4096 4096, .range .cachedCpuWrite 4096 4096,
      .range .flushCachedWrites 0 4096]).page 1 ≠
    (run [.range .unmarkRegionAsCpuModified 4096 4096, .range .cachedCpuWrite 4096 4096]).page
    1 := by
  rw [(run_consistent (by decide)).2.1, (run_consistent (by decide)).2.1]
  decide

/-- Four modified pages about the border of two regions are uploaded. -/
theorem run_refines_upload :
    let ops : List Op := [.range .unmarkRegionAsCpuModified 0 (2 ^ 23),
      .range .markRegionAsCpuModified 0x3FE000 0x4000]
    let upload : Op := .range .forEachUploadRange 4096 (2 ^ 22)
    (pagesAfter ops 0x400).cpu = true ∧ (run (ops ++ [upload])).page =
    pagesAfter (ops ++ [upload]) ∧ upload.Answers (pagesAfter ops) ((run ops).step upload).2 :=
  ⟨by decide, run_refines _ _ (by decide)⟩

/-- What the device tracker has been told of a page, all in all. -/
def count (log : List Update) (page : Nat) : Int := (deltas log page).sum

/-- An operation that is no flush and no mark leaves a cached write waiting. -/
theorem effect_waiting {op : Op} (quiet : ¬ op.IsCpuMark ∧ ¬ op.IsFlush) {s : PageState}
    (waiting : s.cpu = false ∧ s.cachedCpu = true) :
    (op.effect s).cpu = false ∧ (op.effect s).cachedCpu = true := by
  cases op with
  | flushCachedWrites => exact absurd trivial quiet.2
  | range op cpuAddr size =>
    cases op with
    | markRegionAsCpuModified => exact absurd trivial quiet.1
    | flushCachedWrites => exact absurd trivial quiet.2
    | forEachDownloadRange clear => cases clear <;> exact waiting
    | unmarkRegionAsCpuModified | forEachUploadRange =>
      simp [Op.effect, RangeOp.effect, PageState.unmarkCpu, waiting]
    | cachedCpuWrite => exact ⟨waiting.1, rfl⟩
    | _ => exact waiting

theorem pagesAfter_waiting (before between : List Op) {q : Nat}
    (quiet : ∀ op ∈ between, op.Reaches q → ¬ op.IsCpuMark ∧ ¬ op.IsFlush)
    (waiting : (pagesAfter before q).cpu = false ∧ (pagesAfter before q).cachedCpu = true) :
    (pagesAfter (before ++ between) q).cpu = false ∧
      (pagesAfter (before ++ between) q).cachedCpu = true := by
  induction between using List.reverseRecOn with
  | nil => rwa [append_nil]
  | append_singleton between op ih =>
    have known := ih fun op member => quiet op (mem_append_left _ member)
    rw [← append_assoc, pagesAfter_append, Op.pagesAfter]
    by_cases reached : op.Reaches q
    · rw [if_pos reached]
      exact effect_waiting (quiet op (by simp) reached) known
    · rwa [if_neg reached]

/-- The counts of the device tracker are right at every moment, and a cached write becomes
a modification with the next flush of its region. -/
theorem run_counts (ops : List Op) (inSpace : ∀ op ∈ ops, op.InSpace) (q : Nat) :
    count (run ops).log q = (if ((run ops).page q).untracked then 0 else 1) ∧
    (∀ log, log <+: (run ops).log → count log q = 0 ∨ count log q = 1) ∧
    ∀ before between cpuAddr size flush,
      ops = before ++ [.range .cachedCpuWrite cpuAddr size] ++ between ++ [flush] →
      Touches cpuAddr size q → ((run before).page q).cpu = false →
      (∀ op ∈ between, op.Reaches q → ¬ op.IsCpuMark ∧ ¬ op.IsFlush) →
      flush.IsFlush → flush.Reaches q → ((run ops).page q).cpu = true := by
  obtain ⟨_, pages, balanced⟩ := run_consistent inSpace
  refine ⟨(balanced q).sum, fun log earlier => (balanced q).bounded _ ?_, ?_⟩
  · exact (earlier.filter _).map _
  · intro before between cpuAddr size flush split touched clear quiet isFlush reached
    have early : ∀ op ∈ before, op.InSpace := fun op member => inSpace op (by simp [split, member])
    rw [(run_consistent early).2.1] at clear
    have written : (pagesAfter (before ++ [.range .cachedCpuWrite cpuAddr size]) q).cpu = false ∧
        (pagesAfter (before ++ [.range .cachedCpuWrite cpuAddr size]) q).cachedCpu = true := by
      have reached : (Op.range .cachedCpuWrite cpuAddr size).Reaches q := touched
      rw [pagesAfter_append, Op.pagesAfter, if_pos reached]
      exact ⟨clear, rfl⟩
    have waiting := pagesAfter_waiting _ between quiet written
    have flushes : flush.effect = PageState.flush := by
      cases flush with
      | flushCachedWrites => rfl
      | range op cpuAddr size =>
        cases op with
        | flushCachedWrites => rfl
        | _ => exact absurd isFlush id
    rw [pages, split, pagesAfter_append, Op.pagesAfter, if_pos reached, flushes,
      PageState.flush, waiting.2, Bool.or_true]

theorem run_counts_flush : let ops : List Op := [.range .unmarkRegionAsCpuModified 0 4096,
      .range .cachedCpuWrite 0 1, .flushCachedWrites];
    count (run ops).log 0 = 0 ∧ ((run ops).page 0).cpu = true := by
  intro ops
  have inSpace : ∀ op ∈ ops, op.InSpace := by decide
  obtain ⟨counted, _, modified⟩ := run_counts ops inSpace 0
  refine ⟨counted.trans ?_, ?_⟩
  · rw [(run_consistent inSpace).2.1]
    decide
  · refine modified [.range .unmarkRegionAsCpuModified 0 4096] [] 0 1 _ rfl (by decide) ?_ ?_
      trivial trivial
    · rw [(run_consistent (by decide)).2.1]
      decide
    · exact fun _ absurdity => by cases absurdity

/-- A flush of a range and an unmark come between the cached write and the next flush of
everything, and no mark does. -/
theorem run_flush_twice : let ops : List Op := [.range .unmarkRegionAsCpuModified 0 4096,
      .range .cachedCpuWrite 0 4096, .range .flushCachedWrites 0 1,
      .range .unmarkRegionAsCpuModified 0 4096, .flushCachedWrites];
    (run [.range .unmarkRegionAsCpuModified 0 4096] |>.page 0).cpu = false ∧
      ¬ ((run ops).page 0).cpu = true := by
  intro ops
  rw [(run_consistent (by decide)).2.1, (run_consistent (by decide)).2.1]
  decide

end SumiEmu.VideoCore.MemoryTrackerBase
