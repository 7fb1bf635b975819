/-
# Bisection

A property that holds of the first numbers of an interval and of no later one has a border,
and halving the interval finds it. The loop keeps the first number that is still in question
and how many there are.
-/

import Mathlib.Order.Lattice

namespace SumiEmu.Bisection

open Nat

variable {p : Nat → Bool} {pos count : Nat}

/-- The loop, with at least as many rounds allowed as there are numbers. -/
def search (p : Nat → Bool) : Nat → Nat → Nat → Nat
  | 0, pos, _ => pos
  | rounds + 1, pos, count =>
    if count = 0 then pos
    else if p (pos + count / 2) then search p rounds (pos + count / 2 + 1) (count - (count / 2 + 1))
    else search p rounds pos (count / 2)

/-- The border in the `count` numbers from `pos` on. -/
def upperBound (p : Nat → Bool) (pos count : Nat) : Nat := search p count pos count

/-- The border found, and what lies before and behind it. -/
structure Border (p : Nat → Bool) (pos count border : Nat) : Prop where
  lower : pos ≤ border
  upper : border ≤ pos + count
  before : ∀ i, pos ≤ i → i < border → p i = true
  behind : ∀ i, border ≤ i → i < pos + count → p i = false

section

variable (downward : ∀ i j, pos ≤ i → i ≤ j → j < pos + count → p j = true → p i = true)

include downward

theorem search_border
    {rounds : Nat} (enough : count ≤ rounds) : Border p pos count (search p rounds pos count) := by
  induction rounds generalizing pos count with
  | zero =>
    have empty : count = 0 := le_zero.mp enough
    subst empty
    rw [search]
    exact ⟨le_refl _, le_refl _, fun i lower upper => by omega, fun i lower upper => by omega⟩
  | succ rounds ih =>
    rw [search]
    split_ifs with empty here
    · subst empty
      exact ⟨le_refl _, le_refl _, fun i lower upper => by omega, fun i lower upper => by omega⟩
    · have right : Border p (pos + count / 2 + 1) (count - (count / 2 + 1)) _ :=
        ih (fun i j above le inside => downward i j (by omega) le (by omega)) (by omega)
      have end' : pos + count / 2 + 1 + (count - (count / 2 + 1)) = pos + count := by omega
      refine ⟨?_, end' ▸ right.upper, fun i lower upper => ?_, fun i lower upper => ?_⟩
      · have := right.lower
        omega
      · by_cases left : i ≤ pos + count / 2
        · exact downward i _ lower left (by omega) here
        · exact right.before i (by omega) upper
      · exact right.behind i lower (by omega)
    · have left : Border p pos (count / 2) _ :=
        ih (fun i j above le inside => downward i j above le (by omega)) (by omega)
      refine ⟨left.lower, ?_, left.before, fun i lower upper => ?_⟩
      · have := left.upper
        omega
      · by_cases inside : i < pos + count / 2
        · exact left.behind i lower inside
        · -- the property fails at the middle, so it fails behind it
          cases holds : p i with
          | false => rfl
          | true => exact absurd (downward _ i (by omega) (by omega) upper holds) here

theorem upperBound_border :
    Border p pos count (upperBound p pos count) :=
  search_border downward (le_refl _)

end

section Ascending

variable {α : Type*} [LinearOrder α] {x : Nat → α} {v : α}

theorem le_of_ascending (ascending : ∀ i, pos ≤ i → i + 1 < pos + count → x i < x (i + 1))
    {i j : Nat}
    (above : pos ≤ i) (le : i ≤ j) (inside : j < pos + count) : x i ≤ x j := by
  induction le with
  | refl => exact le_refl _
  | step le ih => exact le_trans (ih (by omega)) (le_of_lt (ascending _ (le_trans above le) inside))

theorem ascending_border (ascending : ∀ i, pos ≤ i → i + 1 < pos + count → x i < x (i + 1)) :
    Border (fun i => decide (x i ≤ v)) pos count
      (upperBound (fun i => decide (x i ≤ v)) pos count) := by
  refine upperBound_border fun i j above le inside holds => ?_
  rw [decide_eq_true_iff] at holds ⊢
  exact le_trans (le_of_ascending ascending above le inside) holds

/-- In ascending values of which the first is not too large, the search stops behind the last
one that is not. -/
theorem upperBound_ascending (ascending : ∀ i, pos ≤ i → i + 1 < pos + count → x i < x (i + 1))
    (some : 0 < count)
    (low : x pos ≤ v) :
    ∃ i, pos ≤ i ∧ i < pos + count ∧ upperBound (fun i => decide (x i ≤ v)) pos count = i + 1 ∧
      x i ≤ v ∧ (i + 1 < pos + count → v < x (i + 1)) := by
  have border := ascending_border (v := v) ascending
  generalize upperBound (fun i => decide (x i ≤ v)) pos count = found at *
  have positive : pos < found := by
    by_contra empty
    have fails := border.behind pos (Nat.le_of_not_lt empty) (by omega)
    exact of_decide_eq_false fails low
  have upper := border.upper
  refine ⟨found - 1, by omega, by omega, by omega, ?_, fun inside => ?_⟩
  · exact of_decide_eq_true (border.before (found - 1) (by omega) (by omega))
  · exact not_le.mp (of_decide_eq_false (border.behind _ (by omega) inside))

/-- When already the first value is too large, the search stops there. -/
theorem upperBound_eq_of_lt (ascending : ∀ i, pos ≤ i → i + 1 < pos + count → x i < x (i + 1))
    (high : v < x pos) : upperBound (fun i => decide (x i ≤ v)) pos count = pos := by
  have border := ascending_border (v := v) ascending
  generalize upperBound (fun i => decide (x i ≤ v)) pos count = found at *
  by_contra moved
  have here := border.before pos (le_refl _) (lt_of_le_of_ne border.lower (Ne.symm moved))
  exact not_le.mpr high (of_decide_eq_true here)

end Ascending

/-- Only the numbers of the interval are looked at. -/
theorem search_congr {p q : Nat → Bool} {rounds : Nat}
    (same : ∀ i, pos ≤ i → i < pos + count → p i = q i) :
    search p rounds pos count = search q rounds pos count := by
  induction rounds generalizing pos count with
  | zero => rfl
  | succ rounds ih =>
    rw [search, search]
    by_cases empty : count = 0
    · rw [if_pos empty, if_pos empty]
    · rw [if_neg empty, if_neg empty, same (pos + count / 2) (by omega) (by omega)]
      split_ifs
      · exact ih fun i lower upper => same i (by omega) (by omega)
      · exact ih fun i lower upper => same i lower (by omega)

end SumiEmu.Bisection
