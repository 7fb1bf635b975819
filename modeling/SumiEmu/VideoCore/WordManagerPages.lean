/-
# Operations on the pages of a region

An operation on one word changes the pages in its mask, and what it tells the device
tracker is the transition of each of these pages. An operation on a range does this for
the pages that meet the range.
-/

import SumiEmu.VideoCore.PageState

namespace SumiEmu.VideoCore.WordManager

open Nat

/-- The bit of a page. -/
def bit (m : WordManager) (type : PageType) (j : Nat) : Bool :=
  (m.words type (j / 64)).getLsbD (j % 64)

/-- The state of a page of the region. -/
def page (m : WordManager) (j : Nat) : PageState where
  cpu := m.bit .cpu j
  gpu := m.bit .gpu j
  cachedCpu := m.bit .cachedCpu j
  untracked := m.bit .untracked j
  preflushable := m.bit .preflushable j

variable {m : WordManager} {log : List Update} {type : PageType} {index : Nat} {mask : BitVec 64}
  {r : Nat}

/-- Whether a page of the region is in the mask of a word. -/
def selects (index : Nat) (mask : BitVec 64) (j : Nat) : Bool :=
  decide (j / 64 = index) && mask.getLsbD (j % 64)

section

variable (m : WordManager)

theorem bit_modify (type type' : PageType) (index : Nat) (f : BitVec 64 → BitVec 64)
    (j : Nat) : (m.modify type index f).bit type' j =
      if type' = type ∧ j / 64 = index then (f (m.words type index)).getLsbD (j % 64)
      else m.bit type' j := by
  by_cases same : type' = type
  · subst same
    by_cases here : j / 64 = index
    · subst here
      simp [bit, modify]
    · simp [bit, modify, here]
  · simp [bit, modify, same]

/-- Setting the bits in a mask. -/
theorem bit_modify_or (type type' : PageType) (index : Nat) (mask : BitVec 64)
    (j : Nat) : (m.modify type index (· ||| mask)).bit type' j =
      (m.bit type' j || (decide (type' = type) && selects index mask j)) := by
  rw [bit_modify]
  by_cases here : type' = type ∧ j / 64 = index
  · obtain ⟨rfl, rfl⟩ := here
    simp only [selects, and_self, if_true, decide_true, Bool.true_and, BitVec.getLsbD_or, bit]
  · rw [if_neg here, selects, ← Bool.and_assoc, ← Bool.decide_and, decide_eq_false here,
      Bool.false_and, Bool.or_false]

/-- Clearing the bits in a mask. -/
theorem bit_modify_andNot (type type' : PageType) (index : Nat)
    (mask : BitVec 64) (j : Nat) : (m.modify type index (· &&& ~~~mask)).bit type' j =
      (m.bit type' j && !(decide (type' = type) && selects index mask j)) := by
  rw [bit_modify]
  by_cases here : type' = type ∧ j / 64 = index
  · obtain ⟨rfl, rfl⟩ := here
    have low : j % 64 < 64 := mod_lt j (by decide)
    simp only [selects, and_self, if_true, decide_true, Bool.true_and, BitVec.getLsbD_and,
      BitVec.getLsbD_not, low, bit]
  · rw [if_neg here, selects, ← Bool.and_assoc, ← Bool.decide_and, decide_eq_false here,
      Bool.false_and, Bool.not_false, Bool.and_true]

/-- Clearing a whole word. -/
theorem bit_modify_zero (type type' : PageType) (index j : Nat) :
    (m.modify type index fun _ => 0#64).bit type' j =
      (m.bit type' j && !(decide (type' = type) && decide (j / 64 = index))) := by
  rw [bit_modify, ← Bool.decide_and]
  by_cases here : type' = type ∧ j / 64 = index
  · rw [if_pos here, decide_eq_true here, Bool.not_true, Bool.and_false]
    exact BitVec.getLsbD_zero
  · rw [if_neg here, decide_eq_false here, Bool.not_false, Bool.and_true]

/-- Part of a mask. -/
theorem selects_and (type : PageType) (index : Nat) (mask : BitVec 64) (j : Nat) :
    selects index (m.words type index &&& mask) j = (m.bit type j && selects index mask j) := by
  by_cases here : j / 64 = index
  · subst here
    simp only [selects, BitVec.getLsbD_and, bit, decide_true, Bool.true_and]
  · simp only [selects, here, decide_false, Bool.false_and, Bool.and_false]

theorem selects_andNot (type : PageType) (index : Nat) (mask : BitVec 64) (j : Nat) :
    selects index (mask &&& ~~~m.words type index) j = (selects index mask j && !m.bit type j) := by
  by_cases here : j / 64 = index
  · subst here
    have low : j % 64 < 64 := mod_lt j (by decide)
    simp only [selects, BitVec.getLsbD_and, BitVec.getLsbD_not, low, bit, decide_true,
      Bool.true_and]
  · simp only [selects, here, decide_false, Bool.false_and]

/-- The bits of a word as a mask of their own. -/
theorem selects_words (type : PageType) (index j : Nat) :
    selects index (m.words type index) j = (decide (j / 64 = index) && m.bit type j) := by
  by_cases here : j / 64 = index
  · subst here
    rfl
  · simp only [selects, here, decide_false, Bool.false_and]

end

theorem selects_allOnes (index j : Nat) :
    selects index (BitVec.allOnes 64) j = decide (j / 64 = index) := by
  rw [selects, BitVec.getLsbD_allOnes, decide_eq_true (mod_lt j (by decide)), Bool.and_true]

/-- The words of a fresh region. -/
theorem page_new (cpuAddr : Nat) (j : Nat) : (new cpuAddr (2 ^ 22)).page j = PageState.initial := by
  have ones (i : Nat) : (BitVec.allOnes 64).getLsbD (i % 64) = true := by
    rw [BitVec.getLsbD_allOnes]
    exact decide_eq_true (mod_lt i (by decide))
  have last : lastWord (2 ^ 22) = BitVec.allOnes 64 := by decide
  have full (type : PageType) (chosen : type = .cpu ∨ type = .untracked) (i : Nat) :
      (new cpuAddr (2 ^ 22)).words type i = BitVec.allOnes 64 := by
    rcases chosen with rfl | rfl
    all_goals
      simp only [new, last]
      rw [Function.update_apply, ite_self]
  simp only [page, bit, full _ (.inl rfl), full _ (.inr rfl), ones]
  simp [new, PageState.initial]

/-- Each set bit is told once, as the runs of a word are told. -/
theorem deltas_foldl_pageRuns (base : Nat) (delta : Int) (changed : BitVec 64) (log : List Update)
    (q : Nat) :
    deltas ((pageRuns 0 changed).foldl (fun log run => log ++
        [⟨base * 4096 + run.1 * bytesPerPage, run.2 * bytesPerPage, delta⟩]) log) q =
      deltas log q ++ if base ≤ q ∧ q < base + 64 ∧ changed.getLsbD (q - base) = true
        then [delta] else [] := by
  -- up to a cursor, each set bit has been told once
  refine foldl_pageRuns
    (I := fun c log' => deltas log' q = deltas log q ++
      if base ≤ q ∧ q < base + c ∧ changed.getLsbD (q - base) = true then [delta] else [])
    (fun i => changed.getLsbD i = true) (fun c c' log' forward _ clear known => ?_)
    (fun c c' log' forward _ set known => ?_) 0 changed (fun j => by rw [zero_add]) (by decide)
    (fun i chosen => ?_) ?_
  · rw [known]
    congr 2
    refine propext (and_congr_right fun above => ?_)
    by_cases before : q < base + c
    · have : q < base + c' := by omega
      simp only [before, this]
    · refine iff_of_false (fun both => before both.1) fun both => ?_
      exact clear (q - base) (by omega) (by omega) both.2
  · rw [deltas_append, known, List.append_assoc]
    congr 1
    have covers : (⟨base * 4096 + c * bytesPerPage, (c' - c) * bytesPerPage, delta⟩ : Update).Covers
      q ↔ base + c ≤ q ∧ q < base + c' := by
      simp only [Update.Covers, bytesPerPage]
      omega
    by_cases inside : base + c ≤ q ∧ q < base + c'
    · have chosen : changed.getLsbD (q - base) = true := set (q - base) (by omega) (by omega)
      rw [if_neg (by omega), if_pos (covers.mpr inside), if_pos ⟨by omega, inside.2, chosen⟩]
      rfl
    · rw [if_neg (mt covers.mp inside), List.append_nil]
      have same : q < base + c' ↔ q < base + c := by omega
      simp only [same]
  · by_contra high
    rw [BitVec.getLsbD_of_ge _ _ (Nat.le_of_not_lt high)] at chosen
    cases chosen
  · rw [if_neg (by omega), List.append_nil]

/-- The runs of changed bits are told as one update each. -/
theorem deltas_notifyRasterizer (region : m.cpuAddr = r * 2 ^ 22) (add : Bool)
    (current new : BitVec 64) (log : List Update) (q : Nat) :
    deltas (m.notifyRasterizer add index current new log) q = deltas log q ++
      if q / 64 = r * 16 + index ∧
        ((if add then current else ~~~current) &&& new).getLsbD (q % 64) = true
      then [if add then 1 else -1] else [] := by
  have base : m.cpuAddr + index * bytesPerWord = (r * 16 + index) * 64 * 4096 := by
    rw [region, show bytesPerWord = 2 ^ 18 from rfl]
    omega
  rw [notifyRasterizer, iteratePages, base, deltas_foldl_pageRuns]
  congr 2
  refine propext ?_
  by_cases here : q / 64 = r * 16 + index
  · have low : q - (r * 16 + index) * 64 = q % 64 := by omega
    simp only [here, low, true_and]
    refine (and_iff_right (by omega)).trans (and_iff_right (by omega))
  · exact iff_of_false (by omega) fun both => here both.1

theorem page_changeWord (writable : type ≠ .untracked) (enable : Bool) (j : Nat) :
    (changeWord type enable (m, log) (index, mask)).1.page j =
      if selects index mask j = true then (m.page j).change type enable else m.page j := by
  cases chosen : selects index mask j
  · cases type <;> cases enable <;>
      simp [changeWord, PageType.Tracks, page, bit_modify_or, bit_modify_andNot, selects_and,
        chosen]
  · cases type <;> cases enable <;>
      simp_all [changeWord, PageType.Tracks, page, bit_modify_or, bit_modify_andNot, selects_and,
        PageState.change, PageState.markCpu, PageState.unmarkCpu, PageState.writeCached]

/-- A page as the tracker numbers it, in a word of the region. -/
theorem word_iff {q index : Nat} (low : index < 16) :
    q / 64 = r * 16 + index ↔ q / 1024 = r ∧ q % 1024 / 64 = index := by
  omega

/-- Each page in the mask is told its transition to the new tracking state. -/
theorem told_notifyRasterizer (region : m.cpuAddr = r * 2 ^ 22) (low : index < 16) (add : Bool)
    (new : BitVec 64) (log : List Update) (q : Nat) :
    deltas (m.notifyRasterizer add index (m.words .untracked index) new log) q = deltas log q ++
      if q / 64 = r * 16 + index ∧ new.getLsbD (q % 64) = true
        then transition (m.page (q % 1024)).untracked (!add) else [] := by
  rw [deltas_notifyRasterizer region]
  congr 1
  by_cases here : q / 64 = r * 16 + index
  · obtain ⟨_, word⟩ := (word_iff low).mp here
    have small : q % 64 < 64 := mod_lt q (by decide)
    have current : (m.words .untracked index).getLsbD (q % 64) = (m.page (q % 1024)).untracked := by
      rw [← word, ← mod_mod_of_dvd q (by decide : 64 ∣ 1024)]
      rfl
    have changed : ((if add = true then m.words .untracked index
      else ~~~m.words .untracked index) &&& new).getLsbD (q % 64) =
      (((m.page (q % 1024)).untracked == add) && new.getLsbD (q % 64)) := by
      cases add
      · rw [if_neg (by decide), BitVec.getLsbD_and, BitVec.getLsbD_not, current,
          decide_eq_true small, Bool.true_and]
        cases (m.page (q % 1024)).untracked <;> rfl
      · rw [if_pos rfl, BitVec.getLsbD_and, current]
        cases (m.page (q % 1024)).untracked <;> rfl
    rw [changed]
    cases add <;> cases (m.page (q % 1024)).untracked <;> cases new.getLsbD (q % 64) <;>
      simp [here, transition]
  · rw [if_neg fun both => here both.1, if_neg fun both => here both.1]

/-- The pages of a region among those of the tracker, with what has been told of them. -/
def regionView (r : Nat) (rest : Nat → PageState) (s : WordManager × List Update) (q : Nat) :
    PageState × List Int :=
  (if q / 1024 = r then s.1.page (q % 1024) else rest q, deltas s.2 q)

/-- A change of the pages in a mask, each told its transition. -/
theorem pointwise_word {G : PageState → PageState} {s s' : WordManager × List Update}
    (rest : Nat → PageState) (low : index < 16)
    (pages : ∀ j, s'.1.page j = if selects index mask j = true then G (s.1.page j) else s.1.page j)
    (told : ∀ q, deltas s'.2 q = deltas s.2 q ++
      if q / 64 = r * 16 + index ∧ mask.getLsbD (q % 64) = true
        then transition (s.1.page (q % 1024)).untracked (G (s.1.page (q % 1024))).untracked
          else []) :
    Pointwise (fun q => q / 64 = r * 16 + index ∧ InMask (index, mask) (q % 64)) (notified G)
      (regionView r rest s) (regionView r rest s') where
  hit q chosen := by
    obtain ⟨region, word⟩ := (word_iff low).mp chosen.1
    have selected : selects index mask (q % 1024) = true := by
      rw [selects, word, mod_mod_of_dvd q (by decide : 64 ∣ 1024), chosen.2, decide_eq_true rfl,
        Bool.and_true]
    rw [regionView, regionView, notified, told, if_pos region, if_pos region, if_pos chosen, pages,
      if_pos selected]
  miss q other := by
    rw [regionView, regionView, told, if_neg other, List.append_nil, pages]
    by_cases region : q / 1024 = r
    · rw [if_pos region, if_pos region, if_neg]
      intro selected
      rw [selects, Bool.and_eq_true, decide_eq_true_eq,
        mod_mod_of_dvd q (by decide : 64 ∣ 1024)] at selected
      exact other ⟨(word_iff low).mpr ⟨region, selected.1⟩, selected.2⟩
    · rw [if_neg region, if_neg region]

/-- The manager stands for a region of the tracker. -/
structure Manages (m : WordManager) (r : Nat) : Prop where
  cpuAddr : m.cpuAddr = r * 2 ^ 22
  sizeBytes : m.sizeBytes = 2 ^ 22

theorem Manages.numWords (manages : m.Manages r) : m.numWords = 16 := by
  rw [WordManager.numWords, manages.sizeBytes]
  rfl

section Changes

variable (rest : Nat → PageState)

theorem changeWord_spec {s : WordManager × List Update} (manages : s.1.Manages r)
    (writable : type ≠ .untracked) (enable : Bool) (word : Nat × BitVec 64) (low : word.1 < 16) :
    (changeWord type enable s word).1.Manages r ∧
      Pointwise (fun q => q / 64 = r * 16 + word.1 ∧ InMask word (q % 64))
        (notified fun s => s.change type enable) (regionView r rest s)
        (regionView r rest (changeWord type enable s word)) := by
  refine ⟨?_, pointwise_word rest low (page_changeWord writable enable) fun q => ?_⟩
  · cases type <;> cases enable <;> exact ⟨manages.cpuAddr, manages.sizeBytes⟩
  · have log_eq : (changeWord type enable s word).2 = if type.Tracks then
        s.1.notifyRasterizer (!enable) word.1 (s.1.words .untracked word.1) word.2 s.2
          else s.2 := by
      cases enable <;> rfl
    rw [log_eq, PageState.untracked_change _ writable]
    by_cases tracks : type.Tracks
    · rw [if_pos tracks, if_pos tracks, told_notifyRasterizer manages.cpuAddr low, Bool.not_not]
    · rw [if_neg tracks, if_neg tracks, transition_self, ite_self, List.append_nil]

/-- `ChangeRegionState` changes the pages that meet the range. -/
theorem changeRegionState_spec (manages : m.Manages r) (writable : type ≠ .untracked)
    (enable : Bool)
    (log : List Update) {offset size : Nat} (positive : 0 < size) (fits : offset + size ≤ 2 ^ 22) :
    (m.changeRegionState type enable (m.cpuAddr + offset) size log).1.Manages r ∧ Pointwise
      (fun q => r * 1024 + offset / 4096 ≤ q ∧ q < r * 1024 + (offset + size + 4095) / 4096)
      (notified fun s => s.change type enable) (regionView r rest (m, log))
      (regionView r rest (m.changeRegionState type enable (m.cpuAddr + offset) size log)) := by
  obtain ⟨first, last, sweep, lower, upper, bound⟩ :=
    m.sweep_iterateWords positive (fits.trans_eq manages.sizeBytes.symm)
  rw [manages.numWords] at bound
  have whole := (sweep.shift (r * 16)).pointwise (by decide) (by omega) (by omega)
    (fun s => s.1.Manages r) (regionView r rest) (fun word _ s below kept =>
      changeWord_spec rest kept writable enable word (by omega)) (s := (m, log)) manages
  rw [changeRegionState, iterateWords_address]
  refine ⟨whole.1, whole.2.congr fun q => ?_⟩
  omega

theorem page_flushWord (s : WordManager × List Update) (index j : Nat) :
    (flushWord s index).1.page j =
      if selects index (BitVec.allOnes 64) j = true then (s.1.page j).flush else s.1.page j := by
  rw [selects_allOnes]
  by_cases here : j / 64 = index
  · simp [flushWord, page, bit_modify_or, bit_modify_zero, selects_words, PageState.flush, here]
  · simp [flushWord, page, bit_modify_or, bit_modify_zero, selects_words, here]

theorem flushWord_spec {s : WordManager × List Update} (manages : s.1.Manages r) (index : Nat)
    (low : index < 16) :
    (flushWord s index).1.Manages r ∧
      Pointwise (fun q => q / 64 = r * 16 + index ∧ True) (notified PageState.flush)
        (regionView r rest s) (regionView r rest (flushWord s index)) := by
  refine ⟨⟨manages.cpuAddr, manages.sizeBytes⟩, ?_⟩
  have full (q : Nat) : (BitVec.allOnes 64).getLsbD (q % 64) = true := by
    rw [BitVec.getLsbD_allOnes, decide_eq_true (mod_lt q (by decide))]
  refine (pointwise_word rest low (page_flushWord s index) fun q => ?_).congr fun q =>
    and_congr_right fun _ => iff_true_intro (full q)
  have told := told_notifyRasterizer manages.cpuAddr low false (s.1.words .cachedCpu index) s.2 q
  refine told.trans (congrArg _ ?_)
  simp only [full, and_true]
  by_cases here : q / 64 = r * 16 + index
  · -- only the pages with a cached write change their tracking state
    obtain ⟨_, word⟩ := (word_iff low).mp here
    have cached : (s.1.words .cachedCpu index).getLsbD (q % 64) =
        (s.1.page (q % 1024)).cachedCpu := by
      rw [← word, ← mod_mod_of_dvd q (by decide : 64 ∣ 1024)]
      rfl
    rw [cached]
    cases chosen : (s.1.page (q % 1024)).cachedCpu <;>
      simp [here, PageState.flush, chosen, transition_self]
  · simp [here]

/-- `FlushCachedWrites` changes every page of the region. -/
theorem flushCachedWrites_spec (manages : m.Manages r) (log : List Update) :
    (m.flushCachedWrites log).1.Manages r ∧
      Pointwise (fun q => q / 1024 = r) (notified PageState.flush) (regionView r rest (m, log))
        (regionView r rest (m.flushCachedWrites log)) := by
  have sweep : Sweep 64 0 1024 id (fun _ _ => True) 0 (List.range' 0 16) (0 + 16) :=
    sweep_range' 0 16 (by decide)
  have whole := (sweep.shift (r * 16)).pointwise (by decide) (by omega) (by omega)
    (fun s => s.1.Manages r) (regionView r rest) (fun index _ s below kept =>
      flushWord_spec rest kept index (Nat.lt_of_add_lt_add_left below)) (s := (m, log)) manages
  rw [flushCachedWrites, manages.numWords, List.range_eq_range']
  refine ⟨whole.1, whole.2.congr fun q => ?_⟩
  omega

end Changes

end SumiEmu.VideoCore.WordManager
