/-
# The pages of one region

A word manager keeps one bit of each type for every page of its region, packed into
words of 64 pages. A range of bytes is handled word by word, each word with the mask of
its pages that meet the range; where pages start or stop being tracked, the runs of such
pages are told to the device tracker.

The words of a type are a function of the word index. The calls that reach the device
tracker are collected in a log, in their order. The two places where the words can be
stored are not told apart.
-/

import Mathlib.Data.BitVec
import SumiEmu.Foundations.Sweep

namespace SumiEmu.VideoCore

open BitVec Nat

abbrev pagesPerWord : Nat := 64

/-- `BYTES_PER_PAGE`, a device page. -/
abbrev bytesPerPage : Nat := 4096

abbrev bytesPerWord : Nat := pagesPerWord * bytesPerPage

/-- `Type`. -/
inductive PageType where
  | cpu
  | gpu
  | cachedCpu
  | untracked
  | preflushable
deriving DecidableEq

/-- Whether a change of the type is also a change of what is tracked. -/
def PageType.Tracks (type : PageType) : Prop := type = .cpu ∨ type = .cachedCpu

instance (type : PageType) : Decidable type.Tracks := inferInstanceAs (Decidable (_ ∨ _))

/-- A call of `UpdatePagesCachedCount`. -/
structure Update where
  addr : Nat
  size : Nat
  delta : Int

/-- A manager with its `Words`, of which `Span<type>` is a member. -/
structure WordManager where
  cpuAddr : Nat
  sizeBytes : Nat
  words : PageType → Nat → BitVec 64

namespace WordManager

variable (m : WordManager)

/-- `NumWords`, a rounded up quotient. -/
def numWords : Nat := (m.sizeBytes + bytesPerWord - 1) / bytesPerWord

/-- The last word of a new region, without the bits behind the region. -/
def lastWord (sizeBytes : Nat) : BitVec 64 :=
  let lastWordSize := sizeBytes % bytesPerWord
  let lastLocalPage := (lastWordSize + bytesPerPage - 1) / bytesPerPage
  let shift := (pagesPerWord - lastLocalPage) % pagesPerWord
  (BitVec.allOnes 64 <<< shift) >>> shift

/-- The constructor: every page is modified by the CPU and not tracked. -/
def new (cpuAddr sizeBytes : Nat) : WordManager where
  cpuAddr
  sizeBytes
  words
    | .cpu | .untracked => Function.update (fun _ => BitVec.allOnes 64)
        ((sizeBytes + bytesPerWord - 1) / bytesPerWord - 1) (lastWord sizeBytes)
    | .gpu | .cachedCpu | .preflushable => fun _ => 0

variable (type : PageType)

/-- Change one word of one type. -/
def modify (index : Nat) (f : BitVec 64 → BitVec 64) : WordManager :=
  { m with words :=
      Function.update m.words type (Function.update (m.words type) index (f (m.words type index))) }

/-- `ExtractBits`. -/
def extractBits (word : BitVec 64) (pageStart pageEnd : Nat) : BitVec 64 :=
  let limitPageEnd := 64 - min pageEnd 64
  let bits := (word >>> pageStart) <<< pageStart
  (bits <<< limitPageEnd) >>> limitPageEnd

/-- `GetWordPage`. -/
def getWordPage (address : Nat) : Nat × Nat :=
  (address / bytesPerWord, address % bytesPerWord / bytesPerPage)

/-- The loop of `IterateWords` over `count` words: each with the mask of its pages. -/
def wordMasks : Nat → Nat → Nat → Nat → List (Nat × BitVec 64)
  | 0, _, _, _ => []
  | count + 1, wordIndex, startPage, endPage =>
    (wordIndex, extractBits (BitVec.allOnes 64) startPage endPage) ::
      wordMasks count (wordIndex + 1) 0 (endPage - pagesPerWord)

/-- `IterateWords`: what its function is called with, in this order. -/
def iterateWords (offset : Int) (size : Nat) : List (Nat × BitVec 64) :=
  let start := (max offset 0).toNat
  let stop := (max (offset + size) 0).toNat
  if m.sizeBytes ≤ start ∨ stop ≤ start then []
  else
    let startWord := min (getWordPage start).1 m.numWords
    let startPage := (getWordPage start).2
    let endWord := min (getWordPage (stop + bytesPerPage - 1)).1 m.numWords
    let endPage := (getWordPage (stop + bytesPerPage - 1)).2
    let diff := endWord - startWord
    let stopWord := min (endWord + (endPage + pagesPerWord - 1) / pagesPerWord) m.numWords
    wordMasks (stopWord - startWord) startWord startPage (endPage + diff * pagesPerWord)

/-- A word without its empty low bits starts with a run. -/
theorem continuousBits_pos {mask : BitVec 64} (nonzero : mask ≠ 0) :
    0 < (~~~(mask >>> mask.ctz.toNat)).ctz.toNat := by
  have low : (mask >>> mask.ctz.toNat).getLsbD 0 = true := by
    rw [getLsbD_ushiftRight, add_zero]
    exact getLsbD_true_ctz_of_ne_zero nonzero
  apply Nat.pos_of_ne_zero
  intro none
  have clear : (~~~(mask >>> mask.ctz.toNat)).getLsbD (~~~(mask >>> mask.ctz.toNat)).ctz.toNat =
      true := by
    apply getLsbD_true_ctz_of_ne_zero
    apply ctz_lt_iff_ne_zero.mp
    rw [lt_def, none]
    decide
  rw [none, getLsbD_not, low] at clear
  cases clear

theorem shifted_lt {mask : BitVec 64} (nonzero : mask ≠ 0) :
    let shifted := mask >>> mask.ctz.toNat
    let continuousBits := (~~~shifted).ctz.toNat
    (if continuousBits < pagesPerWord then shifted >>> continuousBits else 0).toNat <
    mask.toNat := by
  intro shifted continuousBits
  have positive : 0 < mask.toNat := Nat.pos_of_ne_zero (toNat_ne_iff_ne.mpr nonzero)
  have some : 0 < continuousBits := continuousBits_pos nonzero
  by_cases more : continuousBits < pagesPerWord
  · rw [if_pos more, toNat_ushiftRight, toNat_ushiftRight, ← Nat.shiftRight_add,
      shiftRight_eq_div_pow]
    exact Nat.div_lt_self positive (Nat.one_lt_two_pow (by omega))
  · rw [if_neg more]
    exact positive

/-- The loop of `IteratePages` from an offset on: the runs of set bits, as offset and length. -/
def pageRuns (offset : Nat) (mask : BitVec 64) : List (Nat × Nat) :=
  if _ : mask = 0 then []
  else
    let emptyBits := mask.ctz.toNat
    let shifted := mask >>> emptyBits
    let continuousBits := (~~~shifted).ctz.toNat
    (offset + emptyBits, continuousBits) ::
      pageRuns (offset + emptyBits + continuousBits)
        (if continuousBits < pagesPerWord then shifted >>> continuousBits else 0)
termination_by mask.toNat
decreasing_by exact shifted_lt ‹_›

/-- `IteratePages`. -/
def iteratePages (mask : BitVec 64) : List (Nat × Nat) := pageRuns 0 mask

/-- `NotifyRasterizer`. -/
def notifyRasterizer (addToTracker : Bool) (wordIndex : Nat)
    (currentBits newBits : BitVec 64) (log : List Update) : List Update :=
  let changedBits := (if addToTracker then currentBits else ~~~currentBits) &&& newBits
  let addr := m.cpuAddr + wordIndex * bytesPerWord
  (iteratePages changedBits).foldl (fun log run => log ++
    [⟨addr + run.1 * bytesPerPage, run.2 * bytesPerPage, if addToTracker then 1 else -1⟩]) log

/-- The body of `ChangeRegionState` for one word. -/
def changeWord (enable : Bool) (s : WordManager × List Update)
    (word : Nat × BitVec 64) : WordManager × List Update :=
  let (m, log) := s
  let (index, mask) := word
  let log := if type.Tracks then m.notifyRasterizer (!enable) index (m.words .untracked index) mask
    log else log
  if enable then
    let m := m.modify type index (· ||| mask)
    let m := if type.Tracks then m.modify .untracked index (· ||| mask) else m
    (if type = .cpu then m.modify .cachedCpu index (· &&& ~~~mask) else m, log)
  else
    let modified := m.words type index &&& mask
    let m := if type = .cpu then m.modify .cachedCpu index (· &&& ~~~modified) else m
    let m := m.modify type index (· &&& ~~~mask)
    (if type.Tracks then m.modify .untracked index (· &&& ~~~mask) else m, log)

/-- `ChangeRegionState`. -/
def changeRegionState (enable : Bool) (dirtyAddr size : Nat)
    (log : List Update) : WordManager × List Update :=
  (m.iterateWords (dirtyAddr - m.cpuAddr) size).foldl (changeWord type enable) (m, log)

/-- The variables of `ForEachModifiedRange`, with the calls of its function so far. -/
structure RangeWalk where
  manager : WordManager
  log : List Update
  pending : Bool := false
  pendingOffset : Nat := 0
  pendingPointer : Nat := 0
  calls : List (Nat × Nat) := []

namespace RangeWalk

/-- `release`. -/
def release (s : RangeWalk) : RangeWalk :=
  { s with calls := s.calls ++ [(s.manager.cpuAddr + s.pendingOffset * bytesPerPage,
      (s.pendingPointer - s.pendingOffset) * bytesPerPage)] }

/-- `reset`. -/
def reset (s : RangeWalk) (offset size : Nat) : RangeWalk :=
  { s with pendingOffset := offset, pendingPointer := offset + size }

/-- The body of the loop over the pages of one word. -/
def visitPages (index : Nat) (s : RangeWalk) (pages : Nat × Nat) : RangeWalk :=
  let offset := index * pagesPerWord + pages.1
  if !s.pending then { s.reset offset pages.2 with pending := true }
  else if s.pendingPointer = offset then { s with pendingPointer := s.pendingPointer + pages.2 }
  else s.release.reset offset pages.2

/-- The pages of a word that are turned off and notified about. -/
def clearWord (type : PageType) (index : Nat) (mask modified : BitVec 64) (s : RangeWalk) :
    RangeWalk :=
  let m := s.manager
  let log := if type.Tracks then
      m.notifyRasterizer true index (m.words .untracked index) mask s.log
    else s.log
  let m := m.modify type index (· &&& ~~~mask)
  let m := if type.Tracks then m.modify .untracked index (· &&& ~~~mask) else m
  { s with
    log
    manager := if type = .cpu then m.modify .cachedCpu index (· &&& ~~~modified) else m }

/-- The body of `ForEachModifiedRange` for one word. -/
def visitWord (type : PageType) (clear : Bool) (s : RangeWalk) (word : Nat × BitVec 64) :
    RangeWalk :=
  let (index, mask) := word
  let mask := if type = .gpu then mask &&& ~~~s.manager.words .untracked index else mask
  let modified := s.manager.words type index &&& mask
  (iteratePages modified).foldl (visitPages index)
    (if clear then s.clearWord type index mask modified else s)

end RangeWalk

/-- `ForEachModifiedRange`, which keeps the calls of its function. -/
def forEachModifiedRange (clear : Bool)
    (queryCpuRange size : Nat) (log : List Update) : RangeWalk :=
  let s := (m.iterateWords (queryCpuRange - m.cpuAddr) size).foldl (RangeWalk.visitWord type clear)
    { manager := m, log }
  if s.pending then s.release else s

/-- The bits of a word that `IsRegionModified` and `ModifiedRegion` look at. -/
def modifiedBits (word : Nat × BitVec 64) : BitVec 64 :=
  let mask := if type = .gpu then word.2 &&& ~~~m.words .untracked word.1 else word.2
  m.words type word.1 &&& mask

/-- `IsRegionModified`. -/
def isRegionModified (offset size : Nat) : Bool :=
  (m.iterateWords offset size).any fun word => m.modifiedBits type word != 0

/-- The body of `ModifiedRegion` for one word. -/
def widenRegion (region : Nat × Nat) (word : Nat × BitVec 64) : Nat × Nat :=
  let bits := m.modifiedBits type word
  if bits = 0 then region
  else
    let localPageBegin := bits.ctz.toNat
    let localPageEnd := pagesPerWord - bits.clz.toNat
    let pageIndex := word.1 * pagesPerWord
    (min region.1 (pageIndex + localPageBegin), pageIndex + localPageEnd)

/-- `ModifiedRegion`. -/
def modifiedRegion (offset size : Nat) : Nat × Nat :=
  let region := (m.iterateWords offset size).foldl (m.widenRegion type) (2 ^ 64 - 1, 0)
  if region.1 < region.2 then (region.1 * bytesPerPage, region.2 * bytesPerPage) else (0, 0)

/-- The body of `FlushCachedWrites` for one word. -/
def flushWord (s : WordManager × List Update) (wordIndex : Nat) : WordManager × List Update :=
  let (m, log) := s
  let cachedBits := m.words .cachedCpu wordIndex
  let log := m.notifyRasterizer false wordIndex (m.words .untracked wordIndex) cachedBits log
  let m := m.modify .untracked wordIndex (· ||| cachedBits)
  let m := m.modify .cpu wordIndex (· ||| cachedBits)
  (m.modify .cachedCpu wordIndex fun _ => 0, log)

/-- `FlushCachedWrites`. -/
def flushCachedWrites (log : List Update) : WordManager × List Update :=
  (List.range m.numWords).foldl flushWord (m, log)

end WordManager

end SumiEmu.VideoCore

/-!
## The loops of a word manager

Each mask of a range holds the pages of its word that meet the range, and the words follow
each other, so that a range is a sweep over words of 64 pages. The runs of a mask are found
by a scan of its bits from the lowest one up.
-/

namespace SumiEmu.VideoCore.WordManager

open BitVec Nat

theorem getLsbD_extractBits {word : BitVec 64} {pageStart pageEnd j : Nat} (inside : j < 64) :
    (extractBits word pageStart pageEnd).getLsbD j =
      (decide (pageStart ≤ j ∧ j < pageEnd) && word.getLsbD j) := by
  simp only [extractBits, getLsbD_ushiftRight, getLsbD_shiftLeft]
  by_cases upper : j < pageEnd
  · have fits : 64 - min pageEnd 64 + j < 64 := by omega
    by_cases lower : pageStart ≤ j
    · simp [fits, inside, lower, upper, not_lt.mpr lower]
    · simp [fits, lower, Nat.lt_of_not_le lower]
  · have high : ¬ 64 - min pageEnd 64 + j < 64 := by omega
    simp [high, upper]

/-- A page of the word is in the mask of the word. -/
abbrev InMask (word : Nat × BitVec 64) (j : Nat) : Prop := word.2.getLsbD j = true

/-- The masks of consecutive words sweep over the pages from `lo` to `hi`. -/
theorem sweep_wordMasks {lo hi : Nat} (count wordIndex startPage endPage : Nat)
    (lower : ∀ x, startPage ≤ x ↔ lo ≤ wordIndex * 64 + x) (upper : hi = wordIndex * 64 + endPage)
    (enough : (count - 1) * 64 ≤ endPage) (small : startPage ≤ 64) :
    Sweep 64 lo hi Prod.fst InMask wordIndex (wordMasks count wordIndex startPage endPage)
      (wordIndex + count) := by
  induction count generalizing wordIndex startPage endPage with
  | zero => exact .done _
  | succ count ih =>
    refine .piece rfl (fun x inside => ?_) ?_
    · rw [InMask, getLsbD_extractBits inside, getLsbD_allOnes]
      simp only [inside, decide_true, Bool.and_true, decide_eq_true_eq, lower x]
      omega
    · rw [← Nat.add_assoc, Nat.add_right_comm]
      rcases Nat.eq_zero_or_pos count with rfl | more
      · exact .done _
      · refine ih (wordIndex + 1) 0 (endPage - 64) (fun x => ?_) ?_ ?_ (by decide)
        · have above := lower (64 + x)
          omega
        · omega
        · omega

/-- A range that ends inside the manager is a sweep over the pages that it meets. -/
theorem sweep_iterateWords (m : WordManager) {offset size : Nat} (positive : 0 < size)
    (fits : offset + size ≤ m.sizeBytes) :
    ∃ first last, Sweep 64 (offset / 4096) ((offset + size + 4095) / 4096) Prod.fst InMask first
      (m.iterateWords offset size) last ∧ first * 64 ≤ offset / 4096 ∧
      (offset + size + 4095) / 4096 ≤ last * 64 ∧ last ≤ m.numWords := by
  have start : (max (offset : Int) 0).toNat = offset := by omega
  have stop : (max ((offset : Int) + size) 0).toNat = offset + size := by omega
  rw [iterateWords, start, stop]
  simp only [getWordPage, numWords]
  rw [if_neg (by omega)]
  refine ⟨_, _, sweep_wordMasks _ _ _ _ (fun x => ?_) ?_ ?_ ?_, ?_, ?_, ?_⟩
  all_goals simp only [bytesPerWord, pagesPerWord, bytesPerPage]
  · omega
  · omega
  · omega
  · omega
  · omega
  · omega
  · omega

/-- The words of a range that is given by its address. -/
theorem iterateWords_address (m : WordManager) (offset size : Nat) :
    m.iterateWords ((m.cpuAddr + offset : Nat) - m.cpuAddr) size = m.iterateWords offset size := by
  rw [cast_add, add_sub_cancel_left]

/-- The low bits of a word: empty ones, then a run, then those that are looked at next. -/
theorem getLsbD_run (mask : BitVec 64) :
    let shifted := mask >>> mask.ctz.toNat
    let continuousBits := (~~~shifted).ctz.toNat
    (∀ j < mask.ctz.toNat, mask.getLsbD j = false) ∧
      (∀ j < continuousBits, mask.getLsbD (mask.ctz.toNat + j) = true) ∧
      ∀ j, (if continuousBits < pagesPerWord then shifted >>> continuousBits else 0).getLsbD j =
        mask.getLsbD (mask.ctz.toNat + continuousBits + j) := by
  intro shifted continuousBits
  refine ⟨fun j => getLsbD_false_of_lt_ctz, fun j before => ?_, fun j => ?_⟩
  · have short : continuousBits ≤ 64 := by
      have bound := le_def.mp (clz_le (x := (~~~shifted).reverse))
      rwa [← ctz_eq_reverse_clz] at bound
    have bit : (~~~shifted).getLsbD j = false := getLsbD_false_of_lt_ctz before
    rw [getLsbD_not, decide_eq_true (lt_of_lt_of_le before short), Bool.true_and,
      Bool.not_eq_false', getLsbD_ushiftRight] at bit
    exact bit
  · by_cases more : continuousBits < pagesPerWord
    · rw [if_pos more, getLsbD_ushiftRight, getLsbD_ushiftRight, add_assoc]
    · rw [if_neg more, show (0 : BitVec 64) = 0#64 from rfl, getLsbD_zero, getLsbD_of_ge]
      exact Nat.le_trans (Nat.le_of_not_lt more) (by omega)

/-- Whatever is kept when a cursor passes over clear bits and when a run of set bits is
visited, is kept by the loop over a word. -/
theorem foldl_pageRuns {σ : Type} {I : Nat → σ → Prop} {f : σ → Nat × Nat → σ} (set : Nat → Prop)
    (skip : ∀ c c' s, c ≤ c' → c' ≤ 64 → (∀ i, c ≤ i → i < c' → ¬ set i) → I c s → I c' s)
    (visit : ∀ c c' s, c < c' → c' ≤ 64 → (∀ i, c ≤ i → i < c' → set i) → I c s →
      I c' (f s (c, c' - c)))
    (offset : Nat) (mask : BitVec 64) (here : ∀ j, mask.getLsbD j = true ↔ set (offset + j))
    (low : offset ≤ 64) (top : ∀ i, set i → i < 64) {s : σ} (start : I offset s) :
    I 64 ((pageRuns offset mask).foldl f s) := by
  induction offset, mask using pageRuns.induct generalizing s with
  | case1 offset =>
    rw [pageRuns, dif_pos rfl]
    refine skip offset 64 s low (le_refl 64) (fun i above _ chosen => ?_) start
    have bit := (here (i - offset)).mpr (by rwa [Nat.add_sub_cancel' above])
    rw [show (0 : BitVec 64) = 0#64 from rfl, getLsbD_zero] at bit
    cases bit
  | case2 offset mask nonzero emptyBits shifted continuousBits =>
    rename_i ih
    simp only [dite_eq_ite] at ih
    obtain ⟨empty, run, next⟩ := getLsbD_run mask
    have some : 0 < continuousBits := continuousBits_pos nonzero
    have run_set {i : Nat} (above : offset + emptyBits ≤ i)
        (below : i < offset + emptyBits + continuousBits) : set i := by
      have bit := run (i - (offset + emptyBits)) (Nat.sub_lt_left_of_lt_add above below)
      rw [here] at bit
      rwa [← Nat.add_assoc, Nat.add_sub_cancel' above] at bit
    have fits : offset + emptyBits + continuousBits ≤ 64 := by
      have last : set (offset + emptyBits + continuousBits - 1) := run_set (by omega) (by omega)
      have := top _ last
      omega
    rw [pageRuns, dif_neg nonzero, List.foldl_cons]
    -- first the empty bits are passed over, then the run is visited
    have passed : I (offset + emptyBits) s := by
      refine skip offset _ s (le_add_right _ _) (le_of_add_right_le fits)
        (fun i above below chosen => ?_) start
      have bit := (here (i - offset)).mpr (by rwa [Nat.add_sub_cancel' above])
      rw [empty (i - offset) (Nat.sub_lt_left_of_lt_add above below)] at bit
      cases bit
    have visited := visit _ (offset + emptyBits + continuousBits) s (Nat.lt_add_of_pos_right some)
      fits (fun i => run_set) passed
    rw [Nat.add_sub_cancel_left] at visited
    refine ih (fun j => ?_) fits visited
    rw [next, here, ← add_assoc, ← add_assoc]

end SumiEmu.VideoCore.WordManager
