/-
# Bit sets that are searched from the front

A bit set stores its first flag in the most significant bit of its first word, so that counting the
leading zeros of a word finds the first flag of that word that is set. The search for the flag
behind a given one hides the flags up to it with a mask. The mask is meant for the first word
examined, and the code applies it to the words after it too.
-/

import SumiEmu.Foundations.WordBits

namespace SumiEmu.Common

open WordBits Function Nat List

/-- `BitSet<Storage, N>`, for a type of words of `w` bits. -/
structure BitSet (w n : Nat) where
  words : Nat → BitVec w := fun _ => 0

/-- `BitSet64<N>`. -/
abbrev BitSet64 (n : Nat) := BitSet 64 n

namespace BitSet

variable {w n : Nat}

/-- `NumWords`. -/
def numWords (w n : Nat) : Nat := (n + (w - 1)) / w

/-- The number of flags in all words, which is the result of a search that finds none. -/
def paddedSize (w n : Nat) : Nat := w * numWords w n

/-- `GetBitMask`. -/
def getBitMask (bit : Nat) : BitVec w := 1#w <<< (w - 1 - bit)

variable (s : BitSet w n)

/-- `SetBit`. -/
def setBit (i : Nat) : BitSet w n :=
  { s with words := update s.words (i / w) (s.words (i / w) ||| getBitMask (i % w)) }

/-- `ClearBit`. -/
def clearBit (i : Nat) : BitSet w n :=
  { s with words := update s.words (i / w) (s.words (i / w) &&& ~~~getBitMask (i % w)) }

/-- `CountLeadingZeroImpl`, which counts in the widest type of words. -/
def countLeadingZeroImpl (word : BitVec w) : Nat := (word.setWidth 64).clz.toNat - (64 - w)

/-- The first word of a range that is not zero, once masked, decides the search. -/
def firstSet (word : Nat → BitVec w) (n : Nat) (range : List Nat) : Nat :=
  match range.find? fun i => word i != 0 with
  | some i => w * i + countLeadingZeroImpl (word i)
  | none => w * numWords w n

/-- `CountLeadingZero`. -/
def countLeadingZero : Nat := firstSet s.words n (List.range (numWords w n))

/-- `GetNextSet`. -/
def getNextSet (i : Nat) : Nat :=
  let word j :=
    if (i + 1) % w ≠ 0 then s.words j &&& (getBitMask (i % w) - 1) else s.words j
  firstSet word n (List.range' ((i + 1) / w) (numWords w n - (i + 1) / w))

/-- A flag of the set. -/
def test (i : Nat) : Bool := (s.words (i / w)).getLsbD (w - 1 - i % w)

@[simp] theorem test_empty (i : Nat) : (({} : BitSet w n).test i) = false := by
  simp [test]

/-! ## Single flags -/

theorem getLsbD_getBitMask {bit j : Nat} (inside : bit < w) (inside' : j < w) :
    (getBitMask bit : BitVec w).getLsbD (w - 1 - j) = decide (j = bit) := by
  rw [getBitMask, getLsbD_one_shiftLeft (by omega)]
  congr 1
  rw [eq_iff_iff]
  omega

/-- A flag in a word is known by its place. -/
theorem mod_eq_iff {i j : Nat} (word : j / w = i / w) : j % w = i % w ↔ j = i := by
  constructor
  · intro place
    rw [← div_add_mod j w, ← div_add_mod i w, word, place]
  · rintro rfl
    rfl

section Flags

variable (positive : 0 < w)
include positive

theorem test_setBit (s : BitSet w n) (i j : Nat) :
    (s.setBit i).test j = (decide (j = i) || s.test j) := by
  have inside := mod_lt i positive
  have inside' := mod_lt j positive
  simp only [test, setBit]
  by_cases word : j / w = i / w
  · rw [word, update_self, BitVec.getLsbD_or, getLsbD_getBitMask inside inside',
      Bool.or_comm]
    simp only [mod_eq_iff word]
  · have other : j ≠ i := fun same => word (same ▸ rfl)
    rw [update_of_ne word]
    simp [other]

theorem test_clearBit (s : BitSet w n) (i j : Nat) :
    (s.clearBit i).test j = (s.test j && decide (j ≠ i)) := by
  have inside := mod_lt i positive
  have inside' := mod_lt j positive
  simp only [test, clearBit]
  by_cases word : j / w = i / w
  · have low : w - 1 - j % w < w := by omega
    rw [word, update_self, BitVec.getLsbD_and, BitVec.getLsbD_not,
      getLsbD_getBitMask inside inside']
    simp [mod_eq_iff word, low]
  · have other : j ≠ i := fun same => word (same ▸ rfl)
    rw [update_of_ne word]
    simp [other]

end Flags

/-! ## The search of a word -/

/-- The flag that counting leading zeros finds in a word, and the flags before it. -/
theorem clz_spec {word : BitVec 64} (nonzero : word ≠ 0) :
    word.clz.toNat < 64 ∧ word.getLsbD (63 - word.clz.toNat) = true ∧
      ∀ j, j < word.clz.toNat → word.getLsbD (63 - j) = false := by
  have small : word.clz.toNat < 64 := BitVec.clz_lt_iff_ne_zero.mpr nonzero
  refine ⟨small, BitVec.getLsbD_true_clz_of_ne_zero (by decide) nonzero, fun j before => ?_⟩
  apply testBit_lt_two_pow
  refine lt_of_lt_of_le BitVec.toNat_lt_two_pow_sub_clz ?_
  exact Nat.pow_le_pow_right (by decide) (by omega)

theorem countLeadingZeroImpl_spec (wide : w ≤ 64) {word : BitVec w} (nonzero : word ≠ 0) :
    countLeadingZeroImpl word < w ∧ word.getLsbD (w - 1 - countLeadingZeroImpl word) = true ∧
      ∀ j, j < countLeadingZeroImpl word → word.getLsbD (w - 1 - j) = false := by
  have nonzero' : word.setWidth 64 ≠ 0 := by
    intro zero
    refine nonzero (BitVec.eq_of_toNat_eq ?_)
    rw [← BitVec.toNat_setWidth_of_le wide, zero]
    rfl
  obtain ⟨small, set, clear⟩ := clz_spec nonzero'
  rw [BitVec.getLsbD_setWidth, Bool.and_eq_true] at set
  have low := BitVec.lt_of_getLsbD set.2
  have place : w - 1 - countLeadingZeroImpl word = 63 - (word.setWidth 64).clz.toNat := by
    rw [countLeadingZeroImpl]
    omega
  refine ⟨?_, place ▸ set.2, fun j before => ?_⟩
  · rw [countLeadingZeroImpl]
    omega
  · rw [countLeadingZeroImpl] at before
    have unset := clear (j + (64 - w)) (by omega)
    rw [BitVec.getLsbD_setWidth, decide_eq_true (by omega), Bool.true_and] at unset
    rwa [show w - 1 - j = 63 - (j + (64 - w)) by omega]

/-! ## The search of a set -/

/-- A result is the first flag from an index on, or the padded size when there is none. -/
structure IsFirst (s : BitSet w n) (start result : Nat) : Prop where
  start_le : start ≤ result
  le : result ≤ paddedSize w n
  set : result < paddedSize w n → s.test result = true
  clear : ∀ j, start ≤ j → j < result → s.test j = false

theorem IsFirst.unique {s : BitSet w n} {start result result' : Nat}
    (first : s.IsFirst start result)
    (first' : s.IsFirst start result') : result = result' := by
  rcases lt_trichotomy result result' with before | same | before
  · cases (first.set (before.trans_le first'.le)).symm.trans
      (first'.clear result first.start_le before)
  · exact same
  · cases (first'.set (before.trans_le first.le)).symm.trans
      (first.clear result' first'.start_le before)

section Search

variable (positive : 0 < w) (wide : w ≤ 64) {s : BitSet w n} {i start result : Nat}
include positive

theorem le_paddedSize : n ≤ paddedSize w n := by
  have split := div_add_mod (n + (w - 1)) w
  have small := mod_lt (n + (w - 1)) positive
  rw [paddedSize, numWords]
  omega

theorem lt_paddedSize {i : Nat} : i < paddedSize w n ↔ i / w < numWords w n := by
  rw [paddedSize, mul_comm, div_lt_iff_lt_mul positive]

theorem word_le {k i : Nat} : w * k ≤ i ↔ k ≤ i / w := by
  rw [mul_comm, le_div_iff_mul_le positive]

include wide

/-- The search of words finds the first flag of the set that they stand for. -/
theorem firstSet_isFirst (word : Nat → BitVec w) {k : Nat} (inside : k ≤ numWords w n) :
    IsFirst (⟨word⟩ : BitSet w n) (w * k) (firstSet word n (List.range' k (numWords w n - k))) := by
  have skipped : ∀ j, word (j / w) = 0 → (⟨word⟩ : BitSet w n).test j = false := by
    intro j zero
    change (word (j / w)).getLsbD _ = false
    rw [zero]
    exact BitVec.getLsbD_zero
  cases searched : (List.range' k (numWords w n - k)).find? fun i => word i != 0 with
  | none =>
    have found : firstSet word n (List.range' k (numWords w n - k)) = paddedSize w n := by
      rw [firstSet, searched, paddedSize]
    rw [found]
    refine ⟨mul_le_mul_left w inside, le_rfl, fun absurdity => absurd absurdity (lt_irrefl _),
      fun j later before => skipped j ?_⟩
    have here := (lt_paddedSize positive).mp before
    have first := (word_le positive).mp later
    have zero := List.find?_eq_none.mp searched (j / w) (mem_range'_1.mpr ⟨first, by omega⟩)
    simpa using zero
  | some i =>
    obtain ⟨nonzero, member, before⟩ := List.find?_range'_eq_some.mp searched
    obtain ⟨lower, upper⟩ := mem_range'_1.mp member
    obtain ⟨small, set, clear⟩ := countLeadingZeroImpl_spec wide (bne_iff_ne.mp nonzero)
    have found : firstSet word n (List.range' k (numWords w n - k)) =
        w * i + countLeadingZeroImpl (word i) := by
      rw [firstSet, searched]
    have here : (w * i + countLeadingZeroImpl (word i)) / w = i := by
      rw [mul_add_div positive, div_eq_of_lt small, add_zero]
    have place : (w * i + countLeadingZeroImpl (word i)) % w = countLeadingZeroImpl (word i) := by
      rw [mul_add_mod, mod_eq_of_lt small]
    rw [found]
    refine ⟨(word_le positive).mpr (by omega), ((lt_paddedSize positive).mpr (by omega)).le,
      fun _ => ?_, fun j later before' => ?_⟩
    · rw [test, here, place]
      exact set
    · have first := (word_le positive).mp later
      rcases lt_or_ge (j / w) i with passed | reached
      · have zero := before (j / w) first passed
        exact skipped j (by simpa using zero)
      · have last : j / w ≤ i := here ▸ Nat.div_le_div_right before'.le
        obtain rfl : i = j / w := le_antisymm reached last
        have split := div_add_mod j w
        exact clear (j % w) (by omega)

theorem countLeadingZero_isFirst : s.IsFirst 0 s.countLeadingZero := by
  have first := firstSet_isFirst positive wide s.words (zero_le (numWords w n))
  rw [Nat.sub_zero, ← range_eq_range'] at first
  exact first

/-- The set as the search for the next flag sees it. -/
def masked (s : BitSet w n) (i : Nat) : BitSet w n where
  words j := if (i + 1) % w ≠ 0 then s.words j &&& (getBitMask (i % w) - 1) else s.words j

omit wide in
/-- The mask keeps the places behind that of the flag, in every word. -/
theorem test_masked (s : BitSet w n) (i j : Nat) :
    (s.masked i).test j = (s.test j && decide ((i + 1) % w = 0 ∨ i % w < j % w)) := by
  have inside := mod_lt j positive
  rw [test, masked, test]
  dsimp only
  split
  · next unaligned =>
    have small : w - 1 - i % w < w := by omega
    have mask : (((1#w <<< (w - 1 - i % w)) - 1#w) <<< 0).getLsbD (w - 1 - j % w) =
        decide (0 ≤ w - 1 - j % w ∧ w - 1 - j % w < 0 + (w - 1 - i % w)) :=
      getLsbD_range_mask small (by omega)
    rw [BitVec.shiftLeft_zero] at mask
    rw [BitVec.getLsbD_and, getBitMask]
    change (_ && ((1#w <<< (w - 1 - i % w)) - 1#w).getLsbD (w - 1 - j % w)) = _
    rw [mask]
    congr 2
    rw [eq_iff_iff]
    omega
  · next aligned =>
    rw [decide_eq_true (.inl (not_not.mp aligned)), Bool.and_true]

/-- The next flag behind another one is at a place that the mask does not hide. -/
def SeesNext (s : BitSet w n) (i : Nat) : Prop :=
  ∀ j, s.IsFirst (i + 1) j → j < paddedSize w n → (i + 1) % w = 0 ∨ i % w < j % w

omit positive wide in
/-- There is a first flag from an index on. -/
theorem exists_isFirst (inside : start ≤ paddedSize w n) : ∃ result, s.IsFirst start result := by
  by_cases any : ∃ j, start ≤ j ∧ j < paddedSize w n ∧ s.test j = true
  · obtain ⟨lower, upper, set⟩ := Nat.find_spec any
    refine ⟨Nat.find any, lower, upper.le, fun _ => set, fun j later before => ?_⟩
    have missing := Nat.find_min any before
    rw [← Bool.not_eq_true]
    exact fun set' => missing ⟨later, before.trans upper, set'⟩
  · refine ⟨paddedSize w n, inside, le_rfl, fun absurdity => absurd absurdity (lt_irrefl _),
      fun j later before => ?_⟩
    rw [← Bool.not_eq_true]
    exact fun set => any ⟨j, later, before, set⟩

/-- The search for the next flag is right exactly where the mask does not hide it. -/
theorem getNextSet_isFirst_iff (inside : i < paddedSize w n) :
    s.IsFirst (i + 1) (s.getNextSet i) ↔ s.SeesNext i := by
  have word : (i + 1) / w ≤ numWords w n := by
    have here := (lt_paddedSize positive).mp inside
    have step : (i + 1) / w ≤ (i + w) / w := Nat.div_le_div_right (by omega)
    rw [add_div_right i positive] at step
    omega
  have first : (s.masked i).IsFirst (w * ((i + 1) / w)) (s.getNextSet i) :=
    firstSet_isFirst positive wide (s.masked i).words word
  constructor
  · intro right j next below
    obtain rfl : j = s.getNextSet i := next.unique right
    have set := first.set below
    rw [test_masked positive, Bool.and_eq_true, decide_eq_true_iff] at set
    exact set.2
  · intro sees
    have start : i + 1 ≤ s.getNextSet i := by
      rcases lt_or_ge (s.getNextSet i) (paddedSize w n) with below | none
      · have set := first.set below
        rw [test_masked positive, Bool.and_eq_true, decide_eq_true_iff] at set
        rcases set.2 with aligned | behind
        · rw [← Nat.mul_div_cancel' (Nat.dvd_of_mod_eq_zero aligned)]
          exact first.start_le
        · by_contra before
          have le : s.getNextSet i ≤ i := by omega
          have words : s.getNextSet i / w = i / w := by
            refine Nat.le_antisymm (Nat.div_le_div_right le) ?_
            exact (Nat.div_le_div_right (Nat.le_succ i)).trans
              ((word_le positive).mp first.start_le)
          have here := div_add_mod i w
          have there := div_add_mod (s.getNextSet i) w
          rw [words] at there
          omega
      · omega
    refine ⟨start, first.le, fun below => ?_, ?_⟩
    · have set := first.set below
      rw [test_masked positive, Bool.and_eq_true] at set
      exact set.1
    · obtain ⟨j, next⟩ : ∃ j, s.IsFirst (i + 1) j := s.exists_isFirst inside
      have reached : s.getNextSet i ≤ j := by
        by_contra before
        have below : j < paddedSize w n := by
          have le := first.le
          omega
        have hidden := first.clear j ((mul_div_le (i + 1) w).trans next.start_le) (by omega)
        rw [test_masked positive, next.set below, decide_eq_true (sees j next below)] at hidden
        cases hidden
      exact fun k later before => next.clear k later (by omega)

omit wide in
/-- Two flags of one word are never hidden from one another. -/
theorem seesNext_of_last (last : i / w + 1 = numWords w n) : s.SeesNext i := by
  intro j next below
  have here := (lt_paddedSize positive).mp below
  have order := Nat.div_le_div_right (c := w) (Nat.le_of_succ_le next.start_le)
  have same : j / w = i / w := by omega
  have split := div_add_mod i w
  have split' := div_add_mod j w
  have after := next.start_le
  rw [same] at split'
  omega

end Search

/-! ## Sets of one word -/

theorem getNextSet_isFirst (s : BitSet64 64) {i : Nat} (small : i < 64) :
    s.IsFirst (i + 1) (s.getNextSet i) := by
  have last : i / 64 + 1 = numWords 64 64 := by
    rw [div_eq_of_lt small]
    rfl
  exact (getNextSet_isFirst_iff (by decide) le_rfl small).mpr (seesNext_of_last (by decide) last)

/-! ## Enumerating a set -/

/-- The flags that the searches visit, one after the other, with a bound on the rounds. -/
def visit (s : BitSet w n) : Nat → Nat → List Nat
  | 0, _ => []
  | rounds + 1, i => if i < paddedSize w n then i :: s.visit rounds (s.getNextSet i) else []

/-- The calls that change a set, at flags that it has. -/
inductive Call (size : Nat)
  | setBit (i : Fin size)
  | clearBit (i : Fin size)

/-- What a call does. -/
def apply : Call (paddedSize w n) → BitSet w n
  | .setBit i => s.setBit i
  | .clearBit i => s.clearBit i

/-- The set after some calls. -/
def run (calls : List (Call (paddedSize w n))) : BitSet w n := calls.foldl apply {}

def change {size : Nat} (flags : Finset Nat) : Call size → Finset Nat
  | .setBit i => insert i.val flags
  | .clearBit i => flags.erase i

/-- The flags that calls leave set. -/
def members {size : Nat} (calls : List (Call size)) : Finset Nat := calls.foldl change ∅

/-- The searches of a set of flags are right: they find the first flag, and the first one behind any
of the `n` flags, and one search after the other visits all flags in ascending order. -/
structure ScansExactly (calls : List (Call (paddedSize w n))) : Prop where
  flags : ∀ i, (run calls).test i = true ↔ i ∈ members calls
  leading : (run calls).IsFirst 0 (run calls).countLeadingZero
  next : ∀ i < n, (run calls).IsFirst (i + 1) ((run calls).getNextSet i)
  enumerates : (run calls).visit (paddedSize w n) (run calls).countLeadingZero =
    (List.range (paddedSize w n)).filter (· ∈ members calls)

theorem test_apply (positive : 0 < w) {s : BitSet w n} {flags : Finset Nat}
    (call : Call (paddedSize w n))
    (same : ∀ i, s.test i = true ↔ i ∈ flags) (i : Nat) :
    (s.apply call).test i = true ↔ i ∈ change flags call := by
  cases call with
  | setBit k =>
    rw [apply, change, test_setBit positive, Bool.or_eq_true, decide_eq_true_iff, same,
      Finset.mem_insert]
  | clearBit k =>
    rw [apply, change, test_clearBit positive, Bool.and_eq_true, decide_eq_true_iff, same,
      Finset.mem_erase, and_comm]

theorem test_run (positive : 0 < w) (calls : List (Call (paddedSize w n))) (i : Nat) :
    (run calls).test i = true ↔ i ∈ members calls := by
  have runs : ∀ (s : BitSet w n) (flags : Finset Nat), (∀ i, s.test i = true ↔ i ∈ flags) →
      ∀ i, (calls.foldl apply s).test i = true ↔ i ∈ calls.foldl change flags := by
    induction calls with
    | nil => exact fun s flags same => same
    | cons call calls ih => exact fun s flags same => ih _ _ (test_apply positive call same)
  exact runs {} ∅ (fun i => by simp [test]) i

/-- Searches that are right visit the flags from the first one found on. -/
theorem visit_eq {s : BitSet w n} (right : ∀ i < paddedSize w n, s.IsFirst (i + 1) (s.getNextSet i))
    {rounds start i : Nat} (first : s.IsFirst start i) (enough : paddedSize w n ≤ rounds + start) :
    s.visit rounds i = (List.range' start (paddedSize w n - start)).filter s.test := by
  induction rounds generalizing start i with
  | zero =>
    rw [visit, Nat.sub_eq_zero_of_le (by omega)]
    rfl
  | succ rounds ih =>
    have le := first.le
    have start_le := first.start_le
    have skipped : (List.range' start (i - start)).filter s.test = [] := by
      rw [filter_eq_nil_iff]
      intro j member
      obtain ⟨lower, upper⟩ := mem_range'_1.mp member
      rw [first.clear j lower (by omega)]
      exact Bool.false_ne_true
    have split : List.range' start (paddedSize w n - start) =
        List.range' start (i - start) ++ List.range' i (paddedSize w n - i) := by
      have joined := List.range'_append_1 (s := start) (m := i - start) (n := paddedSize w n - i)
      rw [show start + (i - start) = i by omega, show i - start + (paddedSize w n -
        i) = paddedSize w n - start by omega] at joined
      exact joined.symm
    rw [visit, split, filter_append, skipped, nil_append]
    split_ifs with below
    · rw [show paddedSize w n - i = paddedSize w n - (i + 1) + 1 by omega, List.range'_succ,
        filter_cons_of_pos (first.set below), ih (right i below) (by omega)]
    · rw [Nat.sub_eq_zero_of_le (by omega)]
      rfl

/-- The searches are right exactly for the sets in which no next flag is hidden by the mask. -/
theorem scansExactly_iff (positive : 0 < w) (wide : w ≤ 64) (calls : List (Call (paddedSize w n))) :
    ScansExactly calls ↔ ∀ i < n, (run calls).SeesNext i := by
  have flags := test_run positive calls
  have leading : (run calls).IsFirst 0 (run calls).countLeadingZero :=
    countLeadingZero_isFirst positive wide
  constructor
  · intro scans i inside
    exact (getNextSet_isFirst_iff positive wide (inside.trans_le (le_paddedSize positive))).mp
      (scans.next i inside)
  · intro sees
    have right : ∀ i < paddedSize w n, (run calls).IsFirst (i + 1) ((run calls).getNextSet i) := by
      intro i inside
      refine (getNextSet_isFirst_iff positive wide inside).mpr ?_
      rcases lt_or_ge i n with flag | padding
      · exact sees i flag
      · -- What fills up the last word has all flags before it in earlier words or its own.
        have words : numWords w n ≤ (i + w) / w := Nat.div_le_div_right (by omega)
        have here := (lt_paddedSize positive).mp inside
        rw [add_div_right i positive] at words
        exact seesNext_of_last positive (by omega)
    refine ⟨flags, leading, fun i inside => right i (inside.trans_le (le_paddedSize positive)), ?_⟩
    rw [visit_eq right leading (Nat.le_add_right ..), Nat.sub_zero, ← range_eq_range']
    refine filter_congr fun i _ => ?_
    rw [Bool.eq_iff_iff, flags, decide_eq_true_iff]

/-- The first flag of a set of two words, and one flag more. -/
def twoFlags (second : Fin 16) : List (Call (paddedSize 8 16)) :=
  [.setBit (0 : Fin 16), .setBit second]

theorem scansExactly_iff_two : ScansExactly (twoFlags 9) ↔
    ∀ i < 16, (run (twoFlags 9)).SeesNext i :=
  scansExactly_iff (by decide) (by decide) (twoFlags 9)

/-- The first flag of the second word is hidden from the first flag of the set. -/
theorem not_scansExactly_two : ¬ ScansExactly (twoFlags 8) := by
  intro scans
  have none : (run (twoFlags 8)).getNextSet 0 = 16 := by decide
  have set : (run (twoFlags 8)).test 8 = true := by decide
  have first := scans.next 0 (by decide)
  rw [none] at first
  cases set.symm.trans (first.clear 8 (by decide) (by decide))

end BitSet

end SumiEmu.Common
