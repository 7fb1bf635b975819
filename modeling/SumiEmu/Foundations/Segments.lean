/-
# Values on segments

A list of segments, each with a value, denotes a partial function: the value of the segment that an
argument lies in. The segments are not empty and stand in ascending order. A window cuts out the
segments that meet an interval.
-/

import Mathlib.Order.Lattice

namespace SumiEmu.Segments

open List

/-- A run of numbers with a value. -/
structure Segment (β : Type*) where
  lower : Nat
  upper : Nat
  value : β
  deriving DecidableEq

variable {β : Type*} {l : List (Segment β)} {s t : Segment β} {lo hi x : Nat} {v : β}

/-- The number is in the segment. -/
def Segment.Contains (s : Segment β) (x : Nat) : Prop := s.lower ≤ x ∧ x < s.upper

instance (s : Segment β) (x : Nat) : Decidable (s.Contains x) := inferInstanceAs (Decidable (_ ∧ _))

structure Ordered (l : List (Segment β)) : Prop where
  filled : ∀ s ∈ l, s.lower < s.upper
  ascending : l.Pairwise fun s t => s.upper ≤ t.lower

/-- The value at a number. -/
def valueAt (l : List (Segment β)) (x : Nat) : Option β :=
  (l.find? fun s => s.Contains x).map Segment.value

theorem ordered_nil : Ordered ([] : List (Segment β)) :=
  ⟨fun _ member => (not_mem_nil member).elim, .nil⟩

theorem ordered_cons : Ordered (s :: l) ↔ s.lower < s.upper ∧ (∀ t ∈ l, s.upper ≤ t.lower) ∧
    Ordered l := by
  constructor
  · intro ordered
    obtain ⟨first, rest⟩ := pairwise_cons.mp ordered.ascending
    refine ⟨ordered.filled s mem_cons_self, first, fun t member => ?_, rest⟩
    exact ordered.filled t (mem_cons_of_mem _ member)
  · rintro ⟨filled, first, ordered⟩
    exact ⟨forall_mem_cons.mpr ⟨filled, ordered.filled⟩,
      pairwise_cons.mpr ⟨first, ordered.ascending⟩⟩

theorem Ordered.sublist {l' : List (Segment β)} (ordered : Ordered l) (sub : l'.Sublist l) :
    Ordered l' :=
  ⟨fun s member => ordered.filled s (sub.subset member), ordered.ascending.sublist sub⟩

/-- An argument lies in one segment at most. -/
theorem Ordered.unique (ordered : Ordered l) (member : s ∈ l) (member' : t ∈ l)
    (inside : s.Contains x)
    (inside' : t.Contains x) : s = t := by
  induction l with
  | nil => cases member
  | cons first l ih =>
    obtain ⟨_, later, rest⟩ := ordered_cons.mp ordered
    rcases mem_cons.mp member with same | behind <;> rcases mem_cons.mp member' with same' | behind'
    · rw [same, same']
    · subst same
      exact absurd (later t behind') (Nat.not_le.mpr (inside'.1.trans_lt inside.2))
    · subst same'
      exact absurd (later s behind) (Nat.not_le.mpr (inside.1.trans_lt inside'.2))
    · exact ih rest behind behind'

theorem Ordered.valueAt_eq_some (ordered : Ordered l) :
    valueAt l x = some v ↔ ∃ s ∈ l, s.Contains x ∧ s.value = v := by
  rw [valueAt, Option.map_eq_some_iff]
  constructor
  · rintro ⟨s, found, same⟩
    exact ⟨s, mem_of_find?_eq_some found, by simpa using List.find?_some found, same⟩
  · rintro ⟨s, member, inside, same⟩
    have some : (l.find? fun s => s.Contains x).isSome :=
      List.find?_isSome.mpr ⟨s, member, decide_eq_true inside⟩
    obtain ⟨t, found⟩ := Option.isSome_iff_exists.mp some
    have inside' : t.Contains x := by simpa using List.find?_some found
    exact ⟨t, found, ordered.unique (mem_of_find?_eq_some found) member inside' inside ▸ same⟩

theorem valueAt_eq_none : valueAt l x = none ↔ ∀ s ∈ l, ¬ s.Contains x := by
  simp [valueAt]

@[simp] theorem valueAt_nil : valueAt ([] : List (Segment β)) x = none := rfl

theorem valueAt_cons : valueAt (s :: l) x = if s.Contains x then some s.value else valueAt l x := by
  by_cases inside : s.Contains x
  · simp [valueAt, inside]
  · simp [valueAt, inside]

theorem valueAt_before (after : ∀ s ∈ l, hi ≤ s.lower) (before : x < hi) : valueAt l x = none :=
  valueAt_eq_none.mpr fun s member inside => Nat.not_le.mpr before ((after s member).trans inside.1)

/-- Two lists of segments denote the same function when the same values are found in both. -/
theorem valueAt_congr {f : Option β} (ordered : Ordered l)
    (same : ∀ v, (∃ s ∈ l, s.Contains x ∧ s.value = v) ↔ f = some v) : valueAt l x = f := by
  ext v
  exact ordered.valueAt_eq_some.trans (same v)

/-! ## Windows -/

/-- The segments from the first one that ends behind the start of an interval to the last one that
begins before its end. -/
def window (lo hi : Nat) (l : List (Segment β)) : List (Segment β) :=
  (l.dropWhile fun s => s.upper ≤ lo).takeWhile fun s => s.lower < hi

/-- The segment meets a range. -/
def Segment.Meets (lo hi : Nat) (s : Segment β) : Prop := lo < s.upper ∧ s.lower < hi

instance (lo hi : Nat) (s : Segment β) : Decidable (s.Meets lo hi) :=
  inferInstanceAs (Decidable (_ ∧ _))

theorem Ordered.dropWhile_eq (ordered : Ordered l) :
    (l.dropWhile fun s => s.upper ≤ lo) = l.filter fun s => lo < s.upper := by
  induction l with
  | nil => rfl
  | cons s l ih =>
    obtain ⟨filled, later, rest⟩ := ordered_cons.mp ordered
    by_cases before : s.upper ≤ lo
    · simp [before, ih rest, Nat.not_lt.mpr before]
    · have reached : ∀ t ∈ l, lo < t.upper := fun t member =>
        (Nat.not_le.mp before).trans_le ((later t member).trans (rest.filled t member).le)
      simp only [dropWhile_cons, before, decide_false, Bool.false_eq_true, if_false]
      rw [filter_eq_self.mpr]
      exact forall_mem_cons.mpr
        ⟨by simpa using before, fun t member => decide_eq_true (reached t member)⟩

theorem Ordered.takeWhile_eq (ordered : Ordered l) :
    (l.takeWhile fun s => s.lower < hi) = l.filter fun s => s.lower < hi := by
  induction l with
  | nil => rfl
  | cons s l ih =>
    obtain ⟨filled, later, rest⟩ := ordered_cons.mp ordered
    by_cases before : s.lower < hi
    · simp [before, ih rest]
    · have passed : l.filter (fun t => t.lower < hi) = [] := by
        rw [filter_eq_nil_iff]
        intro t member inside
        exact before ((filled.trans_le (later t member)).trans (of_decide_eq_true inside))
      simp [before, passed]

theorem Ordered.window_eq (ordered : Ordered l) :
    window lo hi l = l.filter fun s => s.Meets lo hi := by
  rw [window, ordered.dropWhile_eq, (ordered.sublist filter_sublist).takeWhile_eq, filter_filter]
  refine filter_congr fun s _ => ?_
  rw [Bool.eq_iff_iff, Bool.and_eq_true, decide_eq_true_iff, decide_eq_true_iff, decide_eq_true_iff]
  exact and_comm

/-- A segment as far as it lies in an interval. -/
def Segment.clamp (lo hi : Nat) (s : Segment β) : Segment β where
  lower := if s.lower < lo then lo else s.lower
  upper := if s.upper > hi then hi else s.upper
  value := s.value

theorem Segment.contains_clamp : (s.clamp lo hi).Contains x ↔ s.Contains x ∧ lo ≤ x ∧ x < hi := by
  rw [Contains, Contains, clamp]
  dsimp only
  split_ifs <;> omega

theorem Ordered.clamp (ordered : Ordered l) (filled : lo < hi) :
    Ordered ((window lo hi l).map (Segment.clamp lo hi)) := by
  rw [ordered.window_eq]
  have kept := ordered.sublist (filter_sublist (p := fun s => s.Meets lo hi))
  constructor
  · intro t member
    obtain ⟨s, inside, rfl⟩ := mem_map.mp member
    have order := kept.filled s inside
    obtain ⟨behind, before⟩ : s.Meets lo hi := of_decide_eq_true (mem_filter.mp inside).2
    rw [Segment.clamp]
    dsimp only
    split_ifs <;> omega
  · rw [pairwise_map]
    refine kept.ascending.imp fun order => ?_
    rw [Segment.clamp, Segment.clamp]
    dsimp only
    split_ifs <;> omega

/-- What is found in the window of an interval is what is found in the interval. -/
theorem Ordered.valueAt_clamp (ordered : Ordered l) (filled : lo < hi) :
    valueAt ((window lo hi l).map (Segment.clamp lo hi)) x = if lo ≤ x ∧
      x < hi then valueAt l x else none := by
  refine valueAt_congr (ordered.clamp filled) fun v => ?_
  rw [ordered.window_eq]
  have inWindow : (∃ t ∈ (l.filter fun s => s.Meets lo hi).map (Segment.clamp lo hi), t.Contains x ∧
    t.value = v) ↔ (lo ≤ x ∧ x < hi) ∧ ∃ s ∈ l, s.Contains x ∧ s.value = v := by
    constructor
    · rintro ⟨t, member, inside, same⟩
      obtain ⟨s, kept, rfl⟩ := mem_map.mp member
      obtain ⟨inside, range⟩ := Segment.contains_clamp.mp inside
      exact ⟨range, s, (mem_filter.mp kept).1, inside, same⟩
    · rintro ⟨range, s, member, inside, same⟩
      have meets : s.Meets lo hi := ⟨range.1.trans_lt inside.2, inside.1.trans_lt range.2⟩
      exact ⟨s.clamp lo hi, mem_map_of_mem (mem_filter.mpr ⟨member, decide_eq_true meets⟩),
        Segment.contains_clamp.mpr ⟨inside, range⟩, same⟩
  rw [inWindow, ← ordered.valueAt_eq_some]
  split_ifs with range
  · exact and_iff_right range
  · simp [range]

end SumiEmu.Segments
