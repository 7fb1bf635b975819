/-
# Queries and ranges of modified pages

A query of a region looks at the modified pages of a range. The function that is given to
a loop over modified ranges is called once for each run of such pages, also where a run
goes on from one word to the next, and the pages may be cleared on the way.
-/

import SumiEmu.Common.BitSet
import SumiEmu.Foundations.Runs
import SumiEmu.VideoCore.WordManagerPages

namespace SumiEmu.VideoCore.WordManager

open RangeWalk BitVec Nat List

variable {m : WordManager} {log : List Update} {type : PageType} {index : Nat} {mask : BitVec 64}
  {r : Nat} {s : RangeWalk} {pages : Nat × Nat}

theorem visitPages_kept (index : Nat) (s : RangeWalk) (pages : Nat × Nat) :
    (visitPages index s pages).manager = s.manager ∧ (visitPages index s pages).log = s.log := by
  cases pending : s.pending <;>
    by_cases touching : s.pendingPointer = index * pagesPerWord + pages.1 <;>
    simp [visitPages, reset, release, pending, touching]

/-- Collecting ranges leaves the manager and the log alone. -/
theorem foldl_visitPages_kept (index : Nat) (runs : List (Nat × Nat)) (s : RangeWalk) :
    (runs.foldl (visitPages index) s).manager = s.manager ∧
      (runs.foldl (visitPages index) s).log = s.log := by
  induction runs generalizing s with
  | nil => exact ⟨rfl, rfl⟩
  | cons pages runs ih =>
    obtain ⟨manager, log⟩ := visitPages_kept index s pages
    rw [foldl_cons, (ih _).1, (ih _).2, manager, log]
    exact ⟨rfl, rfl⟩

/-- The mask that a loop over modified ranges looks at. -/
def rangeMask (m : WordManager) (type : PageType) (word : Nat × BitVec 64) : BitVec 64 :=
  if type = .gpu then word.2 &&& ~~~m.words .untracked word.1 else word.2

theorem page_clearWord (writable : type ≠ .untracked) (word : Nat × BitVec 64) (j : Nat) :
    (s.clearWord type word.1 (s.manager.rangeMask type word)
      (s.manager.modifiedBits type word)).manager.page j =
      if selects word.1 word.2 j = true then (s.manager.page j).clear type
      else s.manager.page j := by
  cases chosen : selects word.1 word.2 j
  · cases type <;>
      simp [clearWord, rangeMask, modifiedBits, PageType.Tracks, page, bit_modify_andNot,
        selects_and, selects_andNot, chosen]
  · cases type <;>
      simp_all [clearWord, rangeMask, modifiedBits, PageType.Tracks, page, bit_modify_andNot,
        selects_and, selects_andNot, PageState.clear, PageState.change, PageState.unmarkCpu]

/-- What a visit of a word leaves of the manager and the log. -/
theorem visitWord_kept (type : PageType) (clear : Bool) (s : RangeWalk) (word : Nat × BitVec 64) :
    let t := if clear then s.clearWord type word.1 (s.manager.rangeMask type word)
      (s.manager.modifiedBits type word) else s
    (s.visitWord type clear word).manager = t.manager ∧ (s.visitWord type clear word).log = t.log :=
  foldl_visitPages_kept word.1 _ _

theorem visitWord_spec (rest : Nat → PageState) (manages : s.manager.Manages r)
    (writable : type ≠ .untracked) (word : Nat × BitVec 64) (low : word.1 < 16) :
    (s.visitWord type true word).manager.Manages r ∧
      Pointwise (fun q => q / 64 = r * 16 + word.1 ∧ InMask word (q % 64))
        (notified fun s => s.clear type) (regionView r rest (s.manager, s.log))
        (regionView r rest ((s.visitWord type true word).manager,
          (s.visitWord type true word).log)) := by
  obtain ⟨manager, log⟩ := visitWord_kept type true s word
  rw [manager, log, if_pos rfl]
  refine ⟨?_, pointwise_word rest low (page_clearWord writable word) fun q => ?_⟩
  · cases type <;> exact ⟨manages.cpuAddr, manages.sizeBytes⟩
  · rw [PageState.untracked_clear _ writable]
    by_cases tracks : type.Tracks
    · have plain : s.manager.rangeMask type word = word.2 := by
        rcases tracks with rfl | rfl <;> rfl
      have told := told_notifyRasterizer manages.cpuAddr low true word.2 s.log q
      simp only [clearWord, tracks, if_true, plain]
      exact told
    · simp only [clearWord, tracks, if_false, transition_self, ite_self, append_nil]

/-- The ranges that have been found so far, in pages of the region. -/
def Collected (P : Nat → Prop) (c : Nat) (s : RangeWalk) : Prop :=
  ∃ done, s.calls = done.map (fun pages : Nat × Nat => (s.manager.cpuAddr + pages.1 * bytesPerPage,
      (pages.2 - pages.1) * bytesPerPage)) ∧
    Runs.Describes P 0 c (done ++ if s.pending then [(s.pendingOffset, s.pendingPointer)] else []) ∧
    (s.pending = false → done = [])

/-- Pages outside the predicate are passed over. -/
theorem Collected.skip {P : Nat → Prop} {c c' : Nat} (forward : c ≤ c')
    (clear : ∀ i, c ≤ i → i < c' → ¬ P i) (collected : Collected P c s) : Collected P c' s := by
  obtain ⟨done, calls, described, first⟩ := collected
  exact ⟨done, calls, described.skip forward clear, first⟩

/-- A run of pages that follows is collected. -/
theorem Collected.visitPages {P : Nat → Prop} {index c c' : Nat} (forward : c < c')
    (set : ∀ i, c ≤ i → i < c' → P (index * 64 + i)) (collected : Collected P (index * 64 + c) s) :
    Collected P (index * 64 + c') (visitPages index s (c, c' - c)) := by
  obtain ⟨done, calls, described, first⟩ := collected
  have reached : index * 64 + c + (c' - c) = index * 64 + c' := by omega
  have further : index * 64 + c < index * 64 + c' := by omega
  have set' : ∀ i, index * 64 + c ≤ i → i < index * 64 + c' → P i := by
    intro i above below
    have here := set (i - index * 64) (by omega) (by omega)
    rwa [Nat.add_sub_cancel' (by omega)] at here
  cases pending : s.pending
  · -- the first run
    cases first pending
    rw [pending, if_neg (by decide), nil_append] at described
    refine ⟨[], ?_, ?_, fun absurdity => ?_⟩
    · simp [WordManager.RangeWalk.visitPages, pending, reset, calls]
    · have one := described.append (fun _ absurdity => by cases absurdity) (zero_le _) further set'
      simpa [WordManager.RangeWalk.visitPages, pending, reset, reached] using one
    · simp [WordManager.RangeWalk.visitPages, pending] at absurdity
  · rw [pending, if_pos rfl] at described
    by_cases touching : s.pendingPointer = index * 64 + c
    · -- the run goes on in the next word
      rw [touching] at described
      refine ⟨done, ?_, ?_, fun absurdity => ?_⟩
      · simp [WordManager.RangeWalk.visitPages, pending, touching, calls]
      · have grown := described.extend further set'
        simpa [WordManager.RangeWalk.visitPages, pending, touching, reached] using grown
      · simp [WordManager.RangeWalk.visitPages, pending, touching] at absurdity
    · -- the pending run is over
      have last := described.within _ (mem_append_right _ (mem_singleton.mpr rfl))
      have gap : ∀ r ∈ done ++ [(s.pendingOffset, s.pendingPointer)], r.2 < index * 64 + c := by
        intro r member
        rcases mem_append.mp member with earlier | final
        · have before := (pairwise_append.mp described.apart).2.2 r earlier _
            (mem_singleton.mpr rfl)
          simp only at before last
          omega
        · cases mem_singleton.mp final
          exact lt_of_le_of_ne last.2.2 touching
      have one := described.append gap (zero_le _) further set'
      refine ⟨done ++ [(s.pendingOffset, s.pendingPointer)], ?_, ?_, fun absurdity => ?_⟩
      · simp [WordManager.RangeWalk.visitPages, pending, touching, calls, release, reset]
      · simpa [WordManager.RangeWalk.visitPages, pending, touching, release, reset, reached]
          using one
      · simp [WordManager.RangeWalk.visitPages, pending, touching, release, reset] at absurdity

/-- The bits of a word that a range or a query sees are its modified pages. -/
theorem selects_modifiedBits (m : WordManager) (writable : type ≠ .untracked)
    (word : Nat × BitVec 64) (j : Nat) : selects word.1 (m.modifiedBits type word) j =
      (selects word.1 word.2 j && (m.page j).modified type) := by
  cases type <;>
    simp_all [modifiedBits, selects_and, selects_andNot, page, PageState.modified, Bool.and_comm,
      Bool.and_assoc]

/-- The modified bits of a word as pages of the region. -/
theorem getLsbD_modifiedBits (m : WordManager) (writable : type ≠ .untracked)
    (word : Nat × BitVec 64) {b : Nat} (low : b < 64) :
    (m.modifiedBits type word).getLsbD b =
      (word.2.getLsbD b && (m.page (word.1 * 64 + b)).modified type) := by
  have chosen := selects_modifiedBits m writable word (word.1 * 64 + b)
  have word_eq : (word.1 * 64 + b) / 64 = word.1 := by omega
  have bit_eq : (word.1 * 64 + b) % 64 = b := by omega
  simpa only [selects, word_eq, bit_eq, decide_true, Bool.true_and] using chosen

/-- The pages of a word that no visit has reached yet are collected in their old state. -/
theorem Collected.visitWord {m : WordManager} {lo hi : Nat} (writable : type ≠ .untracked)
    (clear : Bool) (word : Nat × BitVec 64)
    (selected : ∀ x < 64, InMask word x ↔ lo ≤ word.1 * 64 + x ∧ word.1 * 64 + x < hi)
    (fresh : ∀ j, word.1 * 64 ≤ j → s.manager.page j = m.page j)
    (collected : Collected (fun j => (lo ≤ j ∧ j < hi) ∧ (m.page j).modified type = true)
      (word.1 * 64) s) :
    (∀ j, (word.1 + 1) * 64 ≤ j → (s.visitWord type clear word).manager.page j = m.page j) ∧
      Collected (fun j => (lo ≤ j ∧ j < hi) ∧ (m.page j).modified type = true)
        ((word.1 + 1) * 64) (s.visitWord type clear word) := by
  constructor
  · intro j above
    rw [(visitWord_kept type clear s word).1]
    cases clear
    · exact fresh j (by omega)
    · rw [if_pos rfl, page_clearWord writable, if_neg, fresh j (by omega)]
      intro chosen
      rw [selects, Bool.and_eq_true, decide_eq_true_eq] at chosen
      omega
  · have bits (b : Nat) (low : b < 64) : (s.manager.modifiedBits type word).getLsbD b = true ↔
        (lo ≤ word.1 * 64 + b ∧ word.1 * 64 + b < hi) ∧
          (m.page (word.1 * 64 + b)).modified type = true := by
      rw [getLsbD_modifiedBits s.manager writable word low, Bool.and_eq_true,
        fresh _ (le_add_right _ _)]
      exact and_congr_left fun _ => selected b low
    have start : Collected (fun j => (lo ≤ j ∧ j < hi) ∧ (m.page j).modified type = true)
        (word.1 * 64 + 0) (if clear then s.clearWord type word.1 (s.manager.rangeMask type word)
          (s.manager.modifiedBits type word) else s) := by
      obtain ⟨done, calls, described, first⟩ := collected
      cases clear
      · exact ⟨done, calls, described, first⟩
      · refine ⟨done, calls.trans ?_, described, first⟩
        cases type <;> rfl
    rw [Nat.add_mul, Nat.one_mul]
    refine foldl_pageRuns (I := fun c s => Collected _ (word.1 * 64 + c) s)
      (fun b => (s.manager.modifiedBits type word).getLsbD b = true)
      (fun c c' s' forward within none known => ?_) (fun c c' s' forward within set known => ?_) 0
      (s.manager.modifiedBits type word) (fun b => by rw [zero_add]) (by decide)
        (fun b chosen => ?_)
      start
    · refine known.skip (Nat.add_le_add_left forward _) fun i above below chosen => ?_
      have bit := (bits (i - word.1 * 64) (by omega)).mpr (by rwa [Nat.add_sub_cancel' (by omega)])
      exact none (i - word.1 * 64) (by omega) (by omega) bit
    · refine known.visitPages forward fun b above below => ?_
      exact (bits b (by omega)).mp (set b above below)
    · by_contra high
      rw [getLsbD_of_ge _ _ (Nat.le_of_not_lt high)] at chosen
      cases chosen


/-- The pages of a region that meet a range and are modified. -/
abbrev InRange (m : WordManager) (type : PageType) (offset size j : Nat) : Prop :=
  (offset / 4096 ≤ j ∧ j < (offset + size + 4095) / 4096) ∧ (m.page j).modified type = true

theorem visitWord_cpuAddr (type : PageType) (clear : Bool) (s : RangeWalk)
    (word : Nat × BitVec 64) :
    (s.visitWord type clear word).manager.cpuAddr = s.manager.cpuAddr := by
  rw [(visitWord_kept type clear s word).1]
  cases clear
  · rfl
  · cases type <;> rfl

/-- A word that is not zero has a bit. -/
theorem exists_bit {word : BitVec 64} (nonzero : word ≠ 0) : ∃ b < 64, word.getLsbD b = true :=
  ⟨word.ctz.toNat, lt_def.mp (ctz_lt_iff_ne_zero.mpr nonzero),
    getLsbD_true_ctz_of_ne_zero nonzero⟩

/-- The first and the last bit of a word that is not zero. -/
theorem hull_word {word : BitVec 64} (nonzero : word ≠ 0) :
    Runs.Hull (fun b => word.getLsbD b = true) (some (word.ctz.toNat, 63 - word.clz.toNat)) := by
  obtain ⟨small, last, above⟩ := Common.BitSet.clz_spec nonzero
  refine ⟨getLsbD_true_ctz_of_ne_zero nonzero, last,
    fun b (set : word.getLsbD b = true) => ⟨?_, ?_⟩⟩
  · by_contra before
    rw [getLsbD_false_of_lt_ctz (Nat.lt_of_not_le before)] at set
    cases set
  · by_contra after
    have low : b < 64 := by
      by_contra high
      rw [getLsbD_of_ge _ _ (Nat.le_of_not_lt high)] at set
      cases set
    have clear := above (63 - b) (by omega)
    rw [show 63 - (63 - b) = b by omega, set] at clear
    cases clear

/-- One more word of a query. -/
theorem widenRegion_hull (m : WordManager) (writable : type ≠ .untracked) {lo hi : Nat}
    (word : Nat × BitVec 64) (low : word.1 < 16)
    (selected : ∀ x < 64, InMask word x ↔ lo ≤ word.1 * 64 + x ∧ word.1 * 64 + x < hi)
    {h : Option (Nat × Nat)} (hull : Runs.Hull (fun j => j < word.1 * 64 ∧
      (lo ≤ j ∧ j < hi) ∧ (m.page j).modified type = true) h) :
    ∃ h', Runs.Hull (fun j => j < (word.1 + 1) * 64 ∧
        (lo ≤ j ∧ j < hi) ∧ (m.page j).modified type = true) h' ∧
      m.widenRegion type (h.elim (2 ^ 64 - 1, 0) fun pages => (pages.1, pages.2 + 1)) word =
        h'.elim (2 ^ 64 - 1, 0) fun pages => (pages.1, pages.2 + 1) := by
  have bits (j : Nat) (above : word.1 * 64 ≤ j) (below : j < (word.1 + 1) * 64) :
      (m.modifiedBits type word).getLsbD (j - word.1 * 64) = true ↔
        (lo ≤ j ∧ j < hi) ∧ (m.page j).modified type = true := by
    have small : j - word.1 * 64 < 64 := by omega
    rw [getLsbD_modifiedBits m writable word small, Bool.and_eq_true,
      show (word.2.getLsbD (j - word.1 * 64) = true) = InMask word (j - word.1 * 64) from rfl,
      selected _ small, Nat.add_sub_cancel' above]
  have bounded (j : Nat) (bit : (m.modifiedBits type word).getLsbD (j - word.1 * 64) = true) :
      j < (word.1 + 1) * 64 := by
    by_contra high
    rw [getLsbD_of_ge _ _ (by omega)] at bit
    cases bit
  by_cases zero : m.modifiedBits type word = 0
  · refine ⟨h, hull.congr fun j => ⟨fun both => ⟨by omega, both.2⟩, fun both => ⟨?_, both.2⟩⟩, ?_⟩
    · by_contra above
      have bit := (bits j (Nat.le_of_not_lt above) both.1).mpr both.2
      rw [show m.modifiedBits type word = 0#64 from zero, getLsbD_zero] at bit
      cases bit
    · rw [widenRegion, if_pos zero]
  · refine ⟨_, (hull.join ((hull_word zero).shift (word.1 * 64))).congr fun j => ?_, ?_⟩
    · by_cases above : word.1 * 64 ≤ j
      · constructor
        · rintro (before | ⟨_, bit⟩)
          · omega
          · exact ⟨bounded j bit, (bits j above (bounded j bit)).mp bit⟩
        · exact fun both => Or.inr ⟨above, (bits j above both.1).mpr both.2⟩
      · refine ⟨fun both => ?_, fun both => Or.inl ⟨by omega, both.2⟩⟩
        rcases both with before | ⟨here, _⟩
        · exact ⟨by omega, before.2⟩
        · exact absurd here above
    · have first : (m.modifiedBits type word).ctz.toNat < 64 :=
        lt_def.mp (ctz_lt_iff_ne_zero.mpr zero)
      have last : (m.modifiedBits type word).clz.toNat < 64 := (Common.BitSet.clz_spec zero).1
      rw [widenRegion, if_neg zero]
      cases h with
      | none =>
        simp only [Option.elim, Option.map, Runs.join, Prod.mk.injEq, pagesPerWord]
        omega
      | some pages =>
        -- what was found before is in earlier words
        have earlier : pages.2 < word.1 * 64 := hull.2.1.1
        simp only [Option.elim, Option.map, Runs.join, Prod.mk.injEq, pagesPerWord]
        exact ⟨trivial, by omega⟩

/-- The last call leaves the manager and the log of the loop alone. -/
theorem forEachModifiedRange_kept (m : WordManager) (type : PageType) (clear : Bool)
    (offset size : Nat) (log : List Update) :
    let t := m.forEachModifiedRange type clear (m.cpuAddr + offset) size log
    let s := (m.iterateWords offset size).foldl (visitWord type clear) { manager := m, log }
    t.manager = s.manager ∧ t.log = s.log := by
  rw [forEachModifiedRange, iterateWords_address]
  simp only
  split <;> exact ⟨rfl, rfl⟩

/-- Without clearing nothing is changed. -/
theorem forEachModifiedRange_unchanged (m : WordManager) (type : PageType) (offset size : Nat)
    (log : List Update) : let t := m.forEachModifiedRange type false (m.cpuAddr + offset) size log
    t.manager = m ∧ t.log = log := by
  obtain ⟨manager, log_eq⟩ := forEachModifiedRange_kept m type false offset size log
  simp only [manager, log_eq]
  suffices unchanged : ∀ (words : List (Nat × BitVec 64)) (s : RangeWalk),
      (words.foldl (visitWord type false) s).manager = s.manager ∧
        (words.foldl (visitWord type false) s).log = s.log from unchanged _ _
  intro words
  induction words with
  | nil => exact fun s => ⟨rfl, rfl⟩
  | cons word words ih =>
    intro s
    obtain ⟨manager, log⟩ := visitWord_kept type false s word
    rw [foldl_cons, (ih _).1, (ih _).2, manager, log]
    exact ⟨rfl, rfl⟩

section Range

variable {offset size : Nat} (manages : m.Manages r) (positive : 0 < size)
  (fits : offset + size ≤ 2 ^ 22)
include manages positive fits

/-- The words of a range, as a sweep that does not leave the region. -/
theorem exists_sweep : ∃ first last,
    Sweep 64 (offset / 4096) ((offset + size + 4095) / 4096) Prod.fst InMask first
      (m.iterateWords offset size) last ∧ first * 64 ≤ offset / 4096 ∧
      (offset + size + 4095) / 4096 ≤ last * 64 ∧ last ≤ 16 := by
  have sweep := m.sweep_iterateWords positive (fits.trans_eq manages.sizeBytes.symm)
  rwa [manages.numWords] at sweep

variable (writable : type ≠ .untracked)
include writable

/-- `ForEachModifiedRange` clears the pages that meet the range when it is asked to. -/
theorem forEachModifiedRange_spec (rest : Nat → PageState) (log : List Update) :
    let t := m.forEachModifiedRange type true (m.cpuAddr + offset) size log
    t.manager.Manages r ∧ Pointwise
      (fun q => r * 1024 + offset / 4096 ≤ q ∧ q < r * 1024 + (offset + size + 4095) / 4096)
      (notified fun s => s.clear type) (regionView r rest (m, log))
      (regionView r rest (t.manager, t.log)) := by
  obtain ⟨first, last, sweep, lower, upper, bound⟩ := exists_sweep manages positive fits
  have whole := (sweep.shift (r * 16)).pointwise (by decide) (by omega) (by omega)
    (fun s : RangeWalk => s.manager.Manages r) (fun s => regionView r rest (s.manager, s.log))
    (fun word _ s below kept => visitWord_spec rest kept writable word (by omega))
    (s := { manager := m, log }) manages
  obtain ⟨manager, log_eq⟩ := forEachModifiedRange_kept m type true offset size log
  simp only [manager, log_eq]
  exact ⟨whole.1, whole.2.congr fun q => by omega⟩

/-- The function is called on the runs of modified pages that meet the range. -/
theorem forEachModifiedRange_calls (clear : Bool) (log : List Update) : ∃ runs,
    (m.forEachModifiedRange type clear (m.cpuAddr + offset) size log).calls =
      runs.map (fun pages : Nat × Nat => (pages.1 * 4096, (pages.2 - pages.1) * 4096)) ∧
    Runs.Describes (fun q => m.InRange type offset size (q - r * 1024)) (r * 1024)
      ((r + 1) * 1024) runs := by
  obtain ⟨first, last, sweep, lower, upper, bound⟩ := exists_sweep manages positive fits
  -- up to a word the pages before it are collected and those from it on are as they were
  have collected := sweep.foldl (f := visitWord type clear)
    (I := fun i s => (∀ j, i * 64 ≤ j → s.manager.page j = m.page j) ∧
      s.manager.cpuAddr = m.cpuAddr ∧ Collected (m.InRange type offset size) (i * 64) s)
    (fun word _ s _ selected known => by
      obtain ⟨fresh, found⟩ := known.2.2.visitWord writable clear word selected known.1
      exact ⟨fresh, (visitWord_cpuAddr ..).trans known.2.1, found⟩)
    (s := { manager := m, log })
    ⟨fun _ _ => rfl, rfl, [], rfl, (Runs.Describes.nil 0).skip (zero_le _)
      (fun i _ below chosen => absurd chosen.1.1 (by omega)), fun _ => rfl⟩
  obtain ⟨_, cpuAddr, done, calls, described, _⟩ := collected
  rw [forEachModifiedRange, iterateWords_address]
  revert cpuAddr calls described
  generalize (m.iterateWords offset size).foldl (visitWord type clear) { manager := m, log } = s
  intro cpuAddr calls described
  have toEnd : last * 64 ≤ 1024 := by omega
  have whole := (described.skip toEnd
    fun i above _ chosen => absurd chosen.1.2 (by omega)).shift (r * 1024)
  rw [add_zero, ← add_one_mul] at whole
  refine ⟨_, ?_, whole⟩
  have address (pages : Nat × Nat) : m.cpuAddr + pages.1 * bytesPerPage =
      (r * 1024 + pages.1) * 4096 := by
    rw [manages.cpuAddr, show bytesPerPage = 4096 from rfl]
    omega
  cases pending : s.pending
  · simp [calls, cpuAddr, address, Nat.add_sub_add_left]
  · simp [calls, cpuAddr, address, pending, release, Nat.add_sub_add_left]
    exact address (s.pendingOffset, s.pendingPointer)

/-- `IsRegionModified`. -/
theorem isRegionModified_iff :
    m.isRegionModified type offset size = true ↔ ∃ j, m.InRange type offset size j := by
  obtain ⟨first, last, sweep, lower, upper, bound⟩ := exists_sweep manages positive fits
  rw [isRegionModified, any_eq_true]
  constructor
  · rintro ⟨word, member, some⟩
    obtain ⟨b, low, bit⟩ := exists_bit (bne_iff_ne.mp some)
    rw [getLsbD_modifiedBits m writable word low, Bool.and_eq_true] at bit
    exact ⟨word.1 * 64 + b, sweep.of_mem member low bit.1, bit.2⟩
  · rintro ⟨j, inside, modified⟩
    obtain ⟨word, member, here, chosen⟩ :=
      sweep.exists_piece (by decide) (q := j) (by omega) (by omega) inside
    refine ⟨word, member, bne_iff_ne.mpr fun zero => ?_⟩
    have bit := getLsbD_modifiedBits m writable word (mod_lt j (by decide))
    rw [show m.modifiedBits type word = 0#64 from zero, getLsbD_zero, chosen, here,
      mul_comm, div_add_mod, modified] at bit
    cases bit

/-- `ModifiedRegion`. -/
theorem modifiedRegion_hull : ∃ h, Runs.Hull (m.InRange type offset size) h ∧
    m.modifiedRegion type offset size =
      h.elim (0, 0) fun pages => (pages.1 * 4096, (pages.2 + 1) * 4096) := by
  obtain ⟨first, last, sweep, lower, upper, bound⟩ := exists_sweep manages positive fits
  -- up to a word, the region spans the modified pages before it
  obtain ⟨h, hull, region⟩ := sweep.foldl (f := m.widenRegion type)
    (I := fun i region => ∃ h, Runs.Hull (fun j => j < i * 64 ∧ m.InRange type offset size j) h ∧
      region = h.elim (2 ^ 64 - 1, 0) fun pages => (pages.1, pages.2 + 1))
    (fun word _ region below selected known => by
      obtain ⟨h, hull, rfl⟩ := known
      exact widenRegion_hull m writable word (by omega) selected hull)
    (s := (2 ^ 64 - 1, 0)) ⟨none, fun i chosen => by
      have := chosen.2.1.1
      omega, rfl⟩
  refine ⟨h, hull.congr fun j => and_iff_right_of_imp fun chosen => ?_, ?_⟩
  · have := chosen.1.2
    omega
  · rw [modifiedRegion, region]
    cases h with
    | none => rfl
    | some pages =>
      have ordered : pages.1 ≤ pages.2 := (hull.2.2 _ hull.1).2
      exact if_pos (lt_succ_of_le ordered)

end Range

end SumiEmu.VideoCore.WordManager
