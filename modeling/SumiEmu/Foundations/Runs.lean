/-
# Maximal runs of a predicate

The numbers of an interval that satisfy a predicate fall into runs of consecutive
numbers. A scan that moves a cursor upwards collects them: it passes over numbers that do
not satisfy the predicate, starts a new run, or lengthens the run that it has just left.
Scans of neighbouring intervals can be put one after the other, and then a run may end at
the border between them although it goes on behind it.
-/

import Mathlib.Data.List.Pairwise

namespace SumiEmu.Runs

open List

/-- The runs, each from its first number to the number behind its last one, are those of the
interval from `lo` to `hi`. -/
structure Describes (P : Nat → Prop) (lo hi : Nat) (runs : List (Nat × Nat)) : Prop where
  within : ∀ r ∈ runs, lo ≤ r.1 ∧ r.1 < r.2 ∧ r.2 ≤ hi
  apart : runs.Pairwise fun r r' => r.2 < r'.1
  exact : ∀ i, lo ≤ i → i < hi → (P i ↔ ∃ r ∈ runs, r.1 ≤ i ∧ i < r.2)

namespace Describes

variable {P P' : Nat → Prop} {lo hi c c' : Nat} {runs : List (Nat × Nat)}

theorem nil (lo : Nat) : Describes P lo lo [] where
  within _ absurdity := by cases absurdity
  apart := List.Pairwise.nil
  exact i lower upper := by omega

theorem congr (described : Describes P lo hi runs) (same : ∀ i, lo ≤ i → i < hi → (P i ↔ P' i)) :
    Describes P' lo hi runs where
  within := described.within
  apart := described.apart
  exact i lower upper := (same i lower upper).symm.trans (described.exact i lower upper)

/-- The cursor passes over numbers outside the predicate. -/
theorem skip (described : Describes P lo c runs) (forward : c ≤ c')
    (clear : ∀ i, c ≤ i → i < c' → ¬ P i) : Describes P lo c' runs where
  within r member := by
    have := described.within r member
    omega
  apart := described.apart
  exact i lower upper := by
    by_cases before : i < c
    · exact described.exact i lower before
    · refine iff_of_false (clear i (Nat.le_of_not_lt before) upper) ?_
      rintro ⟨r, member, covers⟩
      have := described.within r member
      omega

/-- A run that does not touch the earlier ones is a new one. -/
theorem append (described : Describes P lo c runs) (gap : ∀ r ∈ runs, r.2 < c) (start : lo ≤ c)
    (forward : c < c') (set : ∀ i, c ≤ i → i < c' → P i) :
    Describes P lo c' (runs ++ [(c, c')]) where
  within r member := by
    rcases mem_append.mp member with member | member
    · have := described.within r member
      omega
    · cases mem_singleton.mp member
      exact ⟨start, forward, Nat.le_refl c'⟩
  apart := by
    refine pairwise_append.mpr ⟨described.apart, pairwise_singleton _ _, ?_⟩
    intro r member r' last
    cases mem_singleton.mp last
    exact gap r member
  exact i lower upper := by
    by_cases before : i < c
    · rw [described.exact i lower before]
      constructor
      · rintro ⟨r, member, covers⟩
        exact ⟨r, mem_append_left _ member, covers⟩
      · rintro ⟨r, member, covers⟩
        rcases mem_append.mp member with member | member
        · exact ⟨r, member, covers⟩
        · cases mem_singleton.mp member
          exact absurd before (Nat.not_lt.mpr covers.1)
    · have behind : c ≤ i := Nat.le_of_not_lt before
      exact iff_of_true (set i behind upper)
        ⟨(c, c'), mem_append_right _ (mem_singleton.mpr rfl), behind, upper⟩

/-- The last run grows when the scan has just left it. -/
theorem extend {a : Nat} (described : Describes P lo c (runs ++ [(a, c)])) (forward : c < c')
    (set : ∀ i, c ≤ i → i < c' → P i) : Describes P lo c' (runs ++ [(a, c')]) where
  within r member := by
    have last := described.within (a, c) (mem_append_right _ (mem_singleton.mpr rfl))
    rcases mem_append.mp member with member | member
    · have := described.within r (mem_append_left _ member)
      omega
    · cases mem_singleton.mp member
      exact ⟨last.1, Nat.lt_trans last.2.1 forward, Nat.le_refl c'⟩
  apart := by
    obtain ⟨earlier, _, gap⟩ := pairwise_append.mp described.apart
    refine pairwise_append.mpr ⟨earlier, pairwise_singleton _ _, ?_⟩
    intro r member r' last
    cases mem_singleton.mp last
    exact gap r member (a, c) (mem_singleton.mpr rfl)
  exact i lower upper := by
    have last := described.within (a, c) (mem_append_right _ (mem_singleton.mpr rfl))
    by_cases before : i < c
    · rw [described.exact i lower before]
      -- below the old cursor the old and the new run cover the same numbers
      have same : (∃ r ∈ [(a, c)], r.1 ≤ i ∧ i < r.2) ↔ ∃ r ∈ [(a, c')], r.1 ≤ i ∧ i < r.2 := by
        simp only [mem_singleton, exists_eq_left]
        omega
      simp only [mem_append, or_and_right, exists_or]
      exact or_congr_right same
    · refine iff_of_true (set i (Nat.le_of_not_lt before) upper)
        ⟨(a, c'), mem_append_right _ (mem_singleton.mpr rfl), ?_, upper⟩
      have := last.2.1
      simp only at this ⊢
      omega

section

variable (described : Describes P lo hi runs)

include described

/-- Two runs are the same or there is a gap between them. -/
theorem eq_or_gap {r r' : Nat × Nat} (member : r ∈ runs)
    (member' : r' ∈ runs) : r = r' ∨ r.2 < r'.1 ∨ r'.2 < r.1 := by
  have either : runs.Pairwise fun r r' => r.2 < r'.1 ∨ r'.2 < r.1 := described.apart.imp Or.inl
  have : Std.Symm fun r r' : Nat × Nat => r.2 < r'.1 ∨ r'.2 < r.1 := ⟨fun _ _ => Or.symm⟩
  rcases eq_or_ne r r' with same | other
  · exact Or.inl same
  · exact Or.inr (either.forall member member' other)

/-- There is no number of the predicate in front of a run. -/
theorem not_before {r : Nat × Nat} (member : r ∈ runs) (inner : lo < r.1) : ¬ P (r.1 - 1) := by
  have inside := described.within r member
  rw [described.exact (r.1 - 1) (by omega) (by omega)]
  rintro ⟨r', member', covers⟩
  rcases described.eq_or_gap member member' with rfl | gap
  · omega
  · have := described.within r' member'
    omega

/-- There is no number of the predicate behind a run. -/
theorem not_behind {r : Nat × Nat} (member : r ∈ runs) (inner : r.2 < hi) : ¬ P r.2 := by
  have inside := described.within r member
  rw [described.exact r.2 (by omega) inner]
  rintro ⟨r', member', covers⟩
  rcases described.eq_or_gap member member' with rfl | gap
  · omega
  · omega

/-- The same runs, counted from another number on. -/
theorem shift (k : Nat) :
    Describes (fun i => P (i - k)) (k + lo) (k + hi) (runs.map fun r => (k + r.1, k + r.2)) where
  within r member := by
    obtain ⟨r', member', rfl⟩ := mem_map.mp member
    have := described.within r' member'
    simp only
    omega
  apart := by
    refine pairwise_map.mpr (described.apart.imp fun gap => ?_)
    exact Nat.add_lt_add_left gap k
  exact i lower upper := by
    rw [described.exact (i - k) (by omega) (by omega)]
    constructor
    · rintro ⟨r, member, covers⟩
      refine ⟨_, mem_map_of_mem member, ?_⟩
      simp only
      omega
    · rintro ⟨r', member, covers⟩
      obtain ⟨r, member', rfl⟩ := mem_map.mp member
      refine ⟨r, member', ?_⟩
      simp only at covers
      omega

end

end Describes

/-- The runs are those of the interval from `lo` to `hi`, cut at the borders. -/
structure Cut (border P : Nat → Prop) (lo hi : Nat) (runs : List (Nat × Nat)) : Prop where
  within : ∀ r ∈ runs, lo ≤ r.1 ∧ r.1 < r.2 ∧ r.2 ≤ hi
  ascending : runs.Pairwise fun r r' => r.2 ≤ r'.1
  exact : ∀ i, lo ≤ i → i < hi → (P i ↔ ∃ r ∈ runs, r.1 ≤ i ∧ i < r.2)
  unbroken : ∀ r ∈ runs, ∀ b, border b → b ≤ r.1 ∨ r.2 ≤ b
  maximal : ∀ r ∈ runs, (lo < r.1 → P (r.1 - 1) → border r.1) ∧ (r.2 < hi → P r.2 → border r.2)

namespace Cut

variable {border P : Nat → Prop} {lo mid hi : Nat} {runs runs' : List (Nat × Nat)}

/-- Where the predicate fails everywhere there is no run. -/
theorem empty (clear : ∀ i, lo ≤ i → i < hi → ¬ P i) : Cut border P lo hi [] where
  within _ absurdity := by cases absurdity
  ascending := List.Pairwise.nil
  exact i lower upper := iff_of_false (clear i lower upper) fun ⟨_, absurdity, _⟩ => by
    cases absurdity
  unbroken _ absurdity := by cases absurdity
  maximal _ absurdity := by cases absurdity

/-- Without a border inside, the runs are not cut. -/
theorem of_describes (described : Describes P lo hi runs)
    (clear : ∀ b, border b → b ≤ lo ∨ hi ≤ b) : Cut border P lo hi runs where
  within := described.within
  ascending := described.apart.imp Nat.le_of_lt
  exact := described.exact
  unbroken r member b cut := by
    have := described.within r member
    have := clear b cut
    omega
  maximal r member := ⟨fun inner here => absurd here (described.not_before member inner),
    fun inner here => absurd here (described.not_behind member inner)⟩

/-- Neighbouring intervals meet at a border. -/
theorem append (cut : Cut border P lo mid runs) (next : Cut border P mid hi runs')
    (lower : lo ≤ mid) (upper : mid ≤ hi) (here : border mid) :
    Cut border P lo hi (runs ++ runs') where
  within r member := by
    rcases mem_append.mp member with member | member
    · have := cut.within r member
      omega
    · have := next.within r member
      omega
  ascending := by
    refine pairwise_append.mpr ⟨cut.ascending, next.ascending, ?_⟩
    intro r member r' member'
    exact Nat.le_trans (cut.within r member).2.2 (next.within r' member').1
  exact i above below := by
    simp only [mem_append, or_and_right, exists_or]
    by_cases before : i < mid
    · rw [cut.exact i above before]
      refine (or_iff_left ?_).symm
      rintro ⟨r, member, covers⟩
      have := next.within r member
      omega
    · rw [next.exact i (Nat.le_of_not_lt before) below]
      refine (or_iff_right ?_).symm
      rintro ⟨r, member, covers⟩
      have := cut.within r member
      omega
  unbroken r member := by
    rcases mem_append.mp member with member | member
    · exact cut.unbroken r member
    · exact next.unbroken r member
  maximal r member := by
    rcases mem_append.mp member with member | member
    · have inside := cut.within r member
      refine ⟨(cut.maximal r member).1, fun _ further => ?_⟩
      rcases Nat.lt_or_eq_of_le inside.2.2 with inner | last
      · exact (cut.maximal r member).2 inner further
      · exact last ▸ here
    · have inside := next.within r member
      refine ⟨fun _ further => ?_, (next.maximal r member).2⟩
      rcases Nat.lt_or_eq_of_le inside.1 with inner | first
      · exact (next.maximal r member).1 inner further
      · exact first ▸ here

end Cut

/-- The first and the last number of a predicate, if there is one. -/
def Hull (P : Nat → Prop) : Option (Nat × Nat) → Prop
  | none => ∀ i, ¬ P i
  | some (first, last) => P first ∧ P last ∧ ∀ i, P i → first ≤ i ∧ i ≤ last

/-- The hull of two hulls. -/
def join : Option (Nat × Nat) → Option (Nat × Nat) → Option (Nat × Nat)
  | none, h => h
  | h, none => h
  | some (a, b), some (c, d) => some (min a c, max b d)

namespace Hull

variable {P Q : Nat → Prop} {h h' : Option (Nat × Nat)}

theorem congr (hull : Hull P h) (same : ∀ i, P i ↔ Q i) : Hull Q h := by
  have equal : P = Q := funext fun i => propext (same i)
  exact equal ▸ hull

theorem join (hull : Hull P h) (hull' : Hull Q h') : Hull (fun i => P i ∨ Q i) (join h h') := by
  cases h with
  | none => exact hull'.congr fun i => (or_iff_right (hull i)).symm
  | some outer =>
    cases h' with
    | none => exact hull.congr fun i => (or_iff_left (hull' i)).symm
    | some outer' =>
      obtain ⟨first, last, within⟩ := hull
      obtain ⟨first', last', within'⟩ := hull'
      refine ⟨?_, ?_, fun i chosen => ?_⟩
      · rcases Nat.le_total outer.1 outer'.1 with below | below
        · rw [Nat.min_eq_left below]
          exact Or.inl first
        · rw [Nat.min_eq_right below]
          exact Or.inr first'
      · rcases Nat.le_total outer.2 outer'.2 with below | below
        · rw [Nat.max_eq_right below]
          exact Or.inr last'
        · rw [Nat.max_eq_left below]
          exact Or.inl last
      · rcases chosen with chosen | chosen
        · have := within i chosen
          omega
        · have := within' i chosen
          omega

/-- The hull, counted from another number on. -/
theorem shift (hull : Hull P h) (k : Nat) :
    Hull (fun i => k ≤ i ∧ P (i - k)) (h.map fun r => (k + r.1, k + r.2)) := by
  cases h with
  | none => exact fun i chosen => hull _ chosen.2
  | some outer =>
    obtain ⟨first, last, within⟩ := hull
    refine ⟨⟨Nat.le_add_right _ _, ?_⟩, ⟨Nat.le_add_right _ _, ?_⟩, fun i chosen => ?_⟩
    · rwa [Nat.add_sub_cancel_left]
    · rwa [Nat.add_sub_cancel_left]
    · have := within _ chosen.2
      omega

end Hull

end SumiEmu.Runs
