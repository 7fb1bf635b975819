/-
# Step functions

An ascending list of steps, each a key and the value from there on, denotes a function:
it goes through the steps up to an argument and keeps the last value. A list is reduced
when each step changes the value, and then every step marks a place where the function
really changes.
-/

import Mathlib.Data.List.Chain
import Mathlib.Order.Lattice

namespace SumiEmu.StepFunction

open List

variable {κ β : Type*} {v w : β} {xs mid ys l : List (κ × β)} {a b k x : κ}

/-- The value behind all steps. -/
def lastValue (v : β) (l : List (κ × β)) : β := l.foldl (fun _ step => step.2) v

theorem lastValue_append : lastValue v (xs ++ ys) = lastValue (lastValue v xs) ys := foldl_append

/-- The value behind a list that is not empty does not depend on the value before it. -/
theorem lastValue_of_getLast? {step : κ × β} (last : l.getLast? = some step) :
    lastValue v l = step.2 := by
  obtain ⟨front, rfl⟩ := List.getLast?_eq_some_iff.mp last
  exact lastValue_append

theorem map_getLast? (v : β) (nonempty : l ≠ []) :
    l.getLast?.map Prod.snd = some (lastValue v l) := by
  obtain ⟨step, last⟩ := List.getLast?_isSome.mpr nonempty |> Option.isSome_iff_exists.mp
  rw [last, lastValue_of_getLast? last]
  rfl

/-- Each step changes the value. -/
def Reduced (l : List (κ × β)) : Prop := l.IsChain fun step next => step.2 ≠ next.2

/-- The steps behind the first ones start from the value behind these. -/
theorem reduced_append (nonempty : xs ≠ []) : Reduced (xs ++ ys) ↔
    Reduced xs ∧ Reduced ys ∧ ∀ next ∈ ys.head?, lastValue v xs ≠ next.2 := by
  obtain ⟨step, last⟩ := List.getLast?_isSome.mpr nonempty |> Option.isSome_iff_exists.mp
  rw [Reduced, isChain_append, lastValue_of_getLast? last, last]
  simp [Reduced]

section Replace

variable [DecidableEq β]

/-- A step, if it changes the value. -/
def stepIf (v : β) (k : κ) (w : β) : List (κ × β) := if v ≠ w then [(k, w)] else []

theorem mem_stepIf {step : κ × β} (member : step ∈ stepIf v k w) : step.1 = k := by
  rw [stepIf] at member
  split at member
  · rw [mem_singleton.mp member]
  · cases member

@[simp]
theorem lastValue_stepIf (v : β) (k : κ) (w : β) : lastValue v (stepIf v k w) = w := by
  rw [stepIf]
  split
  · rfl
  · exact not_not.mp ‹_›

/-- A step that is added only when it is needed keeps a list reduced. -/
theorem reduced_stepIf (nonempty : xs ≠ []) (reduced : Reduced xs) :
    Reduced (xs ++ stepIf (lastValue v xs) k w) := by
  rw [stepIf]
  split
  · exact (reduced_append nonempty).mpr ⟨reduced, isChain_singleton _, by simpa⟩
  · rwa [append_nil]

/-- A value is put in the place of some steps: a step to it and a step back, where needed. -/
def replace (v : β) (xs mid ys : List (κ × β)) (a b : κ) (w : β) : List (κ × β) :=
  xs ++ stepIf (lastValue v xs) a w ++ stepIf w b (lastValue v (xs ++ mid)) ++ ys

theorem lastValue_replace_start : lastValue v (xs ++ stepIf (lastValue v xs) a w) = w := by
  rw [lastValue_append, lastValue_stepIf]

/-- Behind the steps nothing is changed. -/
theorem lastValue_replace :
    lastValue v (replace v xs mid ys a b w) = lastValue v (xs ++ mid ++ ys) := by
  rw [replace, lastValue_append, lastValue_append, lastValue_replace_start, lastValue_stepIf,
    ← lastValue_append]

theorem replace_ne_nil (nonempty : xs ≠ []) : replace v xs mid ys a b w ≠ [] := by
  simp [replace, nonempty]

/-- The keys of the steps are old ones and those of the two borders. -/
theorem key_of_mem_replace {step : κ × β} (member : step ∈ replace v xs mid ys a b w) :
    step ∈ xs ++ mid ++ ys ∨ step.1 = a ∨ step.1 = b := by
  simp only [replace, mem_append] at member
  rcases member with ((member | member) | member) | member
  · exact Or.inl (by simp [member])
  · exact Or.inr (Or.inl (mem_stepIf member))
  · exact Or.inr (Or.inr (mem_stepIf member))
  · exact Or.inl (by simp [member])

/-- A reduced list stays reduced. -/
theorem reduced_replace (nonempty : xs ≠ []) (reduced : Reduced (xs ++ mid ++ ys)) :
    Reduced (replace v xs mid ys a b w) := by
  obtain ⟨front, back, joint⟩ := (reduced_append (v := v) (by simp [nonempty])).mp reduced
  have start := reduced_stepIf (k := a) (v := v) (w := w) nonempty
    ((reduced_append (v := v) nonempty).mp front).1
  have full := reduced_stepIf (k := b) (v := v) (w := lastValue v (xs ++ mid)) (by simp [nonempty])
    start
  rw [lastValue_replace_start] at full
  refine (reduced_append (v := v) (by simp [nonempty])).mpr ⟨full, back, ?_⟩
  rwa [lastValue_append, lastValue_replace_start, lastValue_stepIf]

end Replace

variable [LinearOrder κ]

/-- The value at an argument, after a value that holds before all steps. -/
def valueAt (v : β) (l : List (κ × β)) (x : κ) : β :=
  l.foldl (fun v step => if step.1 ≤ x then step.2 else v) v

theorem valueAt_append (v : β) (xs ys : List (κ × β)) (x : κ) :
    valueAt v (xs ++ ys) x = valueAt (valueAt v xs x) ys x :=
  foldl_append

theorem valueAt_cons {step : κ × β} :
    valueAt v (step :: l) x = valueAt (if step.1 ≤ x then step.2 else v) l x := rfl

theorem valueAt_before (later : ∀ step ∈ l, x < step.1) : valueAt v l x = v := by
  induction l generalizing v with
  | nil => rfl
  | cons step l ih =>
    rw [valueAt_cons, if_neg (not_le.mpr (later step mem_cons_self))]
    exact ih fun step member => later step (mem_cons_of_mem _ member)

theorem valueAt_behind (earlier : ∀ step ∈ l, step.1 ≤ x) : valueAt v l x = lastValue v l := by
  induction l generalizing v with
  | nil => rfl
  | cons step l ih =>
    rw [valueAt_cons, if_pos (earlier step mem_cons_self)]
    exact ih fun step member => earlier step (mem_cons_of_mem _ member)

/-- The steps are in strictly ascending order. -/
def Ascending (l : List (κ × β)) : Prop := l.Pairwise fun step next => step.1 < next.1

theorem Ascending.split (ascending : Ascending l) (k : κ) : ∃ lower upper, l = lower ++ upper ∧
    (∀ step ∈ lower, step.1 < k) ∧ ∀ step ∈ upper, k ≤ step.1 := by
  induction l with
  | nil => exact ⟨[], [], rfl, by simp, by simp⟩
  | cons step l ih =>
    obtain ⟨first, rest⟩ := pairwise_cons.mp ascending
    by_cases before : step.1 < k
    · obtain ⟨lower, upper, rfl, below, above⟩ := ih rest
      exact ⟨step :: lower, upper, rfl, forall_mem_cons.mpr ⟨before, below⟩, above⟩
    · refine ⟨[], step :: l, rfl, by simp, forall_mem_cons.mpr ⟨not_lt.mp before, ?_⟩⟩
      exact fun next member => (not_lt.mp before).trans (first next member).le

section Interval

variable [DecidableEq β] (ordered : a < b) (below : ∀ step ∈ xs, step.1 < a)
  (within : ∀ step ∈ mid, a ≤ step.1 ∧ step.1 ≤ b) (above : ∀ step ∈ ys, b < step.1)
include ordered below within above

omit within in
theorem ascending_replace (lower : Ascending xs) (upper : Ascending ys) :
    Ascending (replace v xs mid ys a b w) := by
  have single {v w : β} {k : κ} : Ascending (stepIf v k w) := by
    rw [stepIf]
    split
    · exact pairwise_singleton ..
    · exact List.Pairwise.nil
  refine pairwise_append.mpr ⟨pairwise_append.mpr ⟨pairwise_append.mpr
    ⟨lower, single, ?_⟩, single, ?_⟩, upper, ?_⟩
  · intro step member next member'
    exact (below step member).trans_eq (mem_stepIf member').symm
  · intro step member next member'
    rw [mem_stepIf member']
    rcases mem_append.mp member with member | member
    · exact (below step member).trans ordered
    · exact (mem_stepIf member).trans_lt ordered
  · intro step member next member'
    refine lt_of_le_of_lt ?_ (above next member')
    rcases mem_append.mp member with member | member
    · rcases mem_append.mp member with member | member
      · exact ((below step member).trans ordered).le
      · exact (mem_stepIf member).trans_le ordered.le
    · exact (mem_stepIf member).le

/-- The function is changed on the interval and nowhere else. -/
theorem valueAt_replace : valueAt v (replace v xs mid ys a b w) x =
    if a ≤ x ∧ x < b then w else valueAt v (xs ++ mid ++ ys) x := by
  have split : valueAt v (xs ++ mid ++ ys) x = valueAt (valueAt v (xs ++ mid) x) ys x :=
    valueAt_append ..
  rw [split, replace, valueAt_append _ _ ys]
  by_cases inner : a ≤ x
  · have start : valueAt v (xs ++ stepIf (lastValue v xs) a w) x = w := by
      rw [valueAt_behind, lastValue_replace_start]
      intro step member
      rcases mem_append.mp member with member | member
      · exact (below step member).le.trans inner
      · exact (mem_stepIf member).trans_le inner
    rw [valueAt_append, start]
    rcases lt_or_ge x b with before | behind
    · rw [if_pos ⟨inner, before⟩,
        valueAt_before fun step member => before.trans (above step member),
        valueAt_before fun step member => before.trans_eq (mem_stepIf member).symm]
    · rw [if_neg fun inside => absurd inside.2 (not_lt.mpr behind),
        valueAt_behind fun step member => (mem_stepIf member).trans_le behind, lastValue_stepIf,
        valueAt_behind (l := xs ++ mid)]
      intro step member
      rcases mem_append.mp member with member | member
      · exact (below step member).le.trans inner
      · exact (within step member).2.trans behind
  · -- in front of the interval there are the first steps only
    have small : x < a := not_le.mp inner
    rw [if_neg fun inside => inner inside.1, append_assoc xs,
      valueAt_append, valueAt_append _ xs]
    congr 1
    rw [valueAt_before fun step member => small.trans_le (within step member).1]
    refine valueAt_before fun step member => ?_
    rcases mem_append.mp member with member | member
    · exact small.trans_eq (mem_stepIf member).symm
    · exact (small.trans ordered).trans_eq (mem_stepIf member).symm

end Interval

end SumiEmu.StepFunction

/-!
## Sorted lists of breakpoints

A list of points, each with a start, denotes a piecewise function: what holds at
an argument is said by the last point that starts at or before it.
-/

namespace SumiEmu.Breakpoints

open List

variable {β : Type*} {start : β → Nat} {xs ys l : List β} {b : β} {x k : Nat}

/-- The last point that starts at or before an argument. -/
def lastAt (start : β → Nat) (l : List β) (x : Nat) : Option β :=
  (l.filter (start · ≤ x)).getLast?

@[simp] theorem lastAt_nil : lastAt start [] x = none := rfl

theorem lastAt_append : lastAt start (xs ++ ys) x = (lastAt start ys x).or (lastAt start xs x) := by
  rw [lastAt, filter_append, List.getLast?_append]
  rfl

theorem lastAt_cons :
    lastAt start (b :: l) x = (lastAt start l x).or (if start b ≤ x then some b else none) := by
  rw [← singleton_append, lastAt_append]
  by_cases before : start b ≤ x <;> simp [lastAt, before]

theorem lastAt_eq_none (later : ∀ b ∈ l, x < start b) : lastAt start l x = none := by
  rw [lastAt, filter_eq_nil_iff.mpr, List.getLast?_nil]
  intro b member
  simpa using later b member

theorem lastAt_eq_getLast? (earlier : ∀ b ∈ l, start b ≤ x) : lastAt start l x = l.getLast? := by
  rw [lastAt, filter_eq_self.mpr]
  intro b member
  simpa using earlier b member

theorem lastAt_eq_none_iff : lastAt start l x = none ↔ ∀ b ∈ l, x < start b := by
  simp [lastAt]

/-- The points are in strictly ascending order. -/
def Ascending (start : β → Nat) (l : List β) : Prop := l.Pairwise (start · < start ·)

/-- An ascending list splits at any argument. -/
theorem Ascending.split (ascending : Ascending start l) (k : Nat) :
    ∃ lower upper, l = lower ++ upper ∧ (∀ b ∈ lower, start b < k) ∧ ∀ b ∈ upper, k ≤ start b := by
  induction l with
  | nil => exact ⟨[], [], rfl, by simp, by simp⟩
  | cons b l ih =>
    obtain ⟨first, rest⟩ := pairwise_cons.mp ascending
    by_cases before : start b < k
    · obtain ⟨lower, upper, rfl, below, above⟩ := ih rest
      refine ⟨b :: lower, upper, rfl, fun c member => ?_, above⟩
      rcases mem_cons.mp member with rfl | member
      · exact before
      · exact below c member
    · refine ⟨[], b :: l, rfl, by simp, fun c member => ?_⟩
      rcases mem_cons.mp member with rfl | member
      · exact not_lt.mp before
      · exact Nat.le_trans (Nat.le_of_not_lt before) (Nat.le_of_lt (first c member))

theorem Ascending.append (lower : Ascending start xs) (upper : Ascending start ys)
    (below : ∀ b ∈ xs, start b < k) (above : ∀ b ∈ ys, k ≤ start b) : Ascending start (xs ++ ys) :=
  pairwise_append.mpr ⟨lower, upper, fun b member c member' =>
    Nat.lt_of_lt_of_le (below b member) (above c member')⟩

/-- The first point of a list that does not start before an argument. -/
theorem findIdx_append (start : β → Nat) (below : ∀ b ∈ xs, start b < k)
    (above : ∀ b ∈ ys, k ≤ start b) : (xs ++ ys).findIdx (k ≤ start ·) = xs.length := by
  rw [List.findIdx_append]
  have none : xs.findIdx (k ≤ start ·) = xs.length := by
    refine List.findIdx_eq_length.mpr fun b member => ?_
    simpa using below b member
  have first : ys.findIdx (k ≤ start ·) = 0 := by
    cases ys with
    | nil => rfl
    | cons b ys => simp [List.findIdx_cons, above b List.mem_cons_self]
  rw [none, first, if_neg (Nat.lt_irrefl _), Nat.zero_add]

end SumiEmu.Breakpoints
