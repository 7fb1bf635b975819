/-
# Ranges that are counted where they overlap

The set counts for each address how many ranges have been added over it. It keeps the counts in an
interval map, which adds a value over an interval, also where it has none yet. Subtracting adds a
negative value and erases the pieces that are not positive any more, one after the other, with a new
search after each. The interval map's addition is a parameter.
-/

import Mathlib.Algebra.Group.Int.Defs
import Mathlib.Algebra.Group.Nat.Defs
import Mathlib.Data.List.Find
import SumiEmu.Foundations.Segments

namespace SumiEmu.Common

open Segments List

/-- A count of the interval map wraps around as 32-bit numbers do. -/
def s32 (n : Int) : Int := n.bmod (2 ^ 32)

/-- `std::numeric_limits<s32>::max()`. -/
def s32Max : Nat := 2 ^ 31 - 1

abbrev IntervalSet : Type := List (Segment Int)

/-- A range of addresses of `w` bits that is not empty and does not wrap around. -/
structure Range (w : Nat) where
  baseAddress : Nat
  size : Nat
  filled : 0 < size
  fits : baseAddress + size < 2 ^ w

namespace Range

variable {w : Nat} (r : Range w) {x : Nat}

/-- `base_address + size`. -/
def endAddress : Nat := (r.baseAddress + r.size) % 2 ^ w

/-- The range contains an address. -/
def Contains (x : Nat) : Prop := r.baseAddress ≤ x ∧ x < r.endAddress

instance : Decidable (r.Contains x) := inferInstanceAs (Decidable (_ ∧ _))

theorem base_lt_end : r.baseAddress < r.endAddress := by
  have filled := r.filled
  rw [endAddress, Nat.mod_eq_of_lt r.fits]
  omega

end Range

namespace OverlapRangeSet

/-! ## The set -/

section Calls

variable {w : Nat} (plus : IntervalSet → Nat → Nat → Int → IntervalSet)

variable (m : IntervalSet)

variable (r : Range w)

/-- `Add`. -/
def add : IntervalSet := plus m r.baseAddress r.endAddress 1

/-- The rounds that erase the first piece that is not positive, with the calls of `on_delete`. Each
erases a piece, which bounds their number. -/
def eraseLoop (lo hi : Nat) : Nat → IntervalSet → List (Nat × Nat) → IntervalSet × List (Nat × Nat)
  | 0, m, deleted => (m, deleted)
  | rounds + 1, m, deleted =>
    match (window lo hi m).find? fun piece => piece.value ≤ 0 with
    | none => (m, deleted)
    | some piece => eraseLoop lo hi rounds (m.erase piece)
        (if piece.value = 0 then deleted ++ [(piece.lower, piece.upper)] else deleted)

/-- `Subtract` of an amount. -/
def subtractAmount (amount : Int) : IntervalSet × List (Nat × Nat) :=
  if m = [] then (m, [])
  else
    let m := plus m r.baseAddress r.endAddress (s32 (-amount))
    eraseLoop r.baseAddress r.endAddress m.length m []

/-- `Subtract`, with the ranges that `on_delete` is called with. -/
def subtract : IntervalSet × List (Nat × Nat) := subtractAmount plus m r 1

/-- `DeleteAll`. -/
def deleteAll : IntervalSet := (subtractAmount plus m r s32Max).1

/-- What `ForEach` reports. -/
def forEach : List (Segment Int) := m

/-- What `ForEachInRange` reports. -/
def forEachInRange : List (Segment Int) :=
  (window r.baseAddress r.endAddress m).map (Segment.clamp r.baseAddress r.endAddress)

/-- A call of the set. -/
inductive Call (w : Nat)
  | add (r : Range w)
  | subtract (r : Range w)
  | deleteAll (r : Range w)

/-- What a call does. -/
def apply : Call w → IntervalSet
  | .add r => add plus m r
  | .subtract r => (subtract plus m r).1
  | .deleteAll r => deleteAll plus m r

/-- The pieces after some calls. -/
def run (calls : List (Call w)) : IntervalSet := calls.foldl (apply plus) []

end Calls

/-! ## Counting -/

section Counting

variable {w : Nat}

/-- What a call does to the counts of the addresses. -/
def Call.effect (counts : Nat → Nat) : Call w → Nat → Nat
  | .add r, x => if r.Contains x then counts x + 1 else counts x
  | .subtract r, x => if r.Contains x then counts x - 1 else counts x
  | .deleteAll r, x => if r.Contains x then 0 else counts x

def countsAfter (calls : List (Call w)) : Nat → Nat := calls.foldl Call.effect fun _ => 0

/-- The interval map adds a value pointwise over an interval. -/
structure AddsPointwise (plus : IntervalSet → Nat → Nat → Int → IntervalSet) : Prop where
  ordered : ∀ {m lo hi} v, Ordered m → lo < hi → Ordered (plus m lo hi v)
  valueAt : ∀ {m lo hi} v x, Ordered m → lo < hi → Segments.valueAt (plus m lo hi v) x =
    if lo ≤ x ∧ x < hi then some (match Segments.valueAt m x with
      | none => v
      | some n => s32 (n + v))
    else Segments.valueAt m x

/-- The value of the interval map that stands for a count. -/
def held (count : Nat) : Option Int := if count = 0 then none else some count

/-- No count that an addition raises is the greatest 32-bit number already. -/
def Call.Fits (counts : Nat → Nat) : Call w → Prop
  | .add r => ∀ x, r.Contains x → counts x < s32Max
  | .subtract _ => True
  | .deleteAll _ => True

def FitAll (counts : Nat → Nat) : List (Call w) → Prop
  | [] => True
  | call :: calls => call.Fits counts ∧ FitAll (call.effect counts) calls

/-- The set counts the overlaps: what it reports is ascending and holds the addresses with a
positive count, with this count, in all or in a range; and subtracting calls back for the addresses
whose count it brings from one to zero. -/
structure CountsExactly (plus : IntervalSet → Nat → Nat → Int → IntervalSet) (m : IntervalSet)
    (w : Nat)
    (counts : Nat → Nat) : Prop where
  ascending : Ordered (forEach m)
  covers : ∀ x, Segments.valueAt (forEach m) x = held (counts x)
  ascendingIn : ∀ r : Range w, Ordered (forEachInRange m r)
  coversIn : ∀ (r : Range w) (x : Nat), Segments.valueAt (forEachInRange m r) x =
    if r.Contains x then held (counts x) else none
  apart : ∀ r : Range w, (subtract plus m r).2.Pairwise fun call next => call.2 ≤ next.1
  deletes : ∀ (r : Range w) (x : Nat), (∃ call ∈ (subtract plus m r).2, call.1 ≤ x ∧ x < call.2) ↔
    r.Contains x ∧ counts x = 1

theorem s32_eq {n : Int} (lower : -(2 ^ 31) ≤ n) (upper : n < 2 ^ 31) : s32 n = n :=
  Int.bmod_eq_of_le (by omega) (by omega)

variable {m : IntervalSet}

theorem find?_window {lo hi : Nat} (ordered : Ordered m)
    (meets : ∀ piece ∈ m, piece.value ≤ 0 → piece.Meets lo hi) :
    (window lo hi m).find? (fun piece => piece.value ≤ 0) = m.find? fun piece =>
    piece.value ≤ 0 := by
  rw [ordered.window_eq, find?_filter]
  refine find?_congr fun piece member => ?_
  by_cases spent : piece.value ≤ 0
  · simp [spent, meets piece member spent]
  · simp [spent]

/-- What the rounds leave, and what they call back for. -/
def kept (m : IntervalSet) : IntervalSet := m.filter fun piece => 0 < piece.value

def emptied (m : IntervalSet) : List (Nat × Nat) :=
  (m.filter fun piece => piece.value = 0).map fun piece => (piece.lower, piece.upper)

theorem of_positive (positive : ∀ piece ∈ m, 0 < piece.value) : kept m = m ∧ emptied m = [] := by
  have zeros : m.filter (fun piece => piece.value = 0) = [] :=
    filter_eq_nil_iff.mpr fun piece member => by simpa using (positive piece member).ne'
  refine ⟨filter_eq_self.mpr fun piece member => decide_eq_true (positive piece member), ?_⟩
  rw [emptied, zeros, map_nil]

/-- The pieces that are not positive go, where all of them meet the interval. -/
theorem eraseLoop_eq {lo hi : Nat} (ordered : Ordered m)
    (meets : ∀ piece ∈ m, piece.value ≤ 0 → piece.Meets lo hi) (deleted : List (Nat × Nat))
    {rounds : Nat}
    (enough : (m.filter fun piece => piece.value ≤ 0).length ≤ rounds) :
    eraseLoop lo hi rounds m deleted = (kept m, deleted ++ emptied m) := by
  induction rounds generalizing m deleted with
  | zero =>
    have none := eq_nil_of_length_eq_zero (Nat.le_zero.mp enough)
    obtain ⟨same, nothing⟩ := of_positive fun piece member => by
      simpa using filter_eq_nil_iff.mp none piece member
    rw [eraseLoop, same, nothing, append_nil]
  | succ rounds ih =>
    rw [eraseLoop, find?_window ordered meets]
    cases found : m.find? fun piece => piece.value ≤ 0 with
    | none =>
      obtain ⟨same, nothing⟩ := of_positive fun piece member => by
        simpa using find?_eq_none.mp found piece member
      rw [same, nothing, append_nil]
    | some piece =>
      obtain ⟨first, front, back, rfl, before⟩ := find?_eq_some_iff_append.mp found
      have spent : piece.value ≤ 0 := of_decide_eq_true first
      have positive : ∀ other ∈ front, 0 < other.value := fun other member => by
        simpa using before other member
      have absent : piece ∉ front := fun member => Int.not_lt.mpr spent (positive piece member)
      have sub : (front ++ back).Sublist (front ++ piece :: back) :=
        (sublist_cons_self piece back).append_left front
      have fewer : ((front ++ back).filter fun piece => piece.value ≤ 0).length ≤ rounds := by
        simp only [filter_append, length_append, filter_cons, spent, decide_true, if_true,
          length_cons] at enough ⊢
        omega
      dsimp only
      rw [erase_append_right _ absent, erase_cons_head,
        ih (ordered.sublist sub) (fun other member => meets other (sub.subset member)) _ fewer]
      obtain ⟨same, nothing⟩ := of_positive positive
      simp only [kept, emptied] at same nothing
      simp only [kept, emptied, filter_append, filter_cons, map_append, same, nothing,
        Int.not_lt.mpr spent, decide_false, Bool.false_eq_true, if_false, nil_append]
      by_cases zero : piece.value = 0
      · simp [zero]
      · simp [zero]

/-- The map holds the counts, which are 32-bit numbers. -/
structure Represents (m : IntervalSet) (counts : Nat → Nat) : Prop where
  ordered : Ordered m
  held : ∀ x, Segments.valueAt m x = held (counts x)
  small : ∀ x, counts x ≤ s32Max

theorem held_eq_some {count : Nat} {n : Int} :
    OverlapRangeSet.held count = some n ↔ 0 < n ∧ n = count := by
  rw [OverlapRangeSet.held]
  split_ifs with zero
  · constructor
    · intro absurdity
      cases absurdity
    · omega
  · rw [Option.some.injEq]
    omega

variable {plus : IntervalSet → Nat → Nat → Int → IntervalSet} {m : IntervalSet} {counts : Nat → Nat}

section

variable (lawful : AddsPointwise plus)

include lawful

section

variable (represents : Represents m counts)

include represents

theorem Represents.add (r : Range w)
    (fits : (Call.add r).Fits counts) : Represents (add plus m r) ((Call.add r).effect counts) := by
  refine ⟨lawful.ordered 1 represents.ordered r.base_lt_end, fun x => ?_, fun x => ?_⟩
  · rw [OverlapRangeSet.add, lawful.valueAt 1 x represents.ordered r.base_lt_end, represents.held,
      Call.effect]
    by_cases inside : r.Contains x
    · have room : counts x < 2 ^ 31 - 1 := fits x inside
      rw [if_pos inside, if_pos (show r.baseAddress ≤ x ∧ x < r.endAddress from inside)]
      refine (held_eq_some.mpr ?_).symm
      rw [OverlapRangeSet.held]
      split_ifs with zero
      · rw [zero]
        decide
      · dsimp only
        rw [s32_eq (by omega) (by omega)]
        omega
    · rw [if_neg inside, if_neg (show ¬ (r.baseAddress ≤ x ∧ x < r.endAddress) from inside)]
  · rw [Call.effect]
    split_ifs with inside
    · exact fits x inside
    · exact represents.small x

/-- A negative amount is added to what is held, and is held where there was nothing. -/
theorem Represents.valueAt_minus (r : Range w)
    {amount : Nat} (small : amount ≤ s32Max) (x : Nat) :
    valueAt (plus m r.baseAddress r.endAddress (-amount)) x =
      if r.Contains x then some ((counts x : Int) - amount)
      else OverlapRangeSet.held (counts x) := by
  have bound : counts x ≤ 2 ^ 31 - 1 := represents.small x
  have small : amount ≤ 2 ^ 31 - 1 := small
  rw [lawful.valueAt _ x represents.ordered r.base_lt_end, represents.held]
  by_cases inside : r.Contains x
  · rw [if_pos inside, if_pos (show r.baseAddress ≤ x ∧ x < r.endAddress from inside),
      OverlapRangeSet.held]
    split_ifs with zero
    · rw [zero]
      simp
    · dsimp only
      rw [s32_eq (by omega) (by omega), Int.sub_eq_add_neg]
  · rw [if_neg inside, if_neg (show ¬ (r.baseAddress ≤ x ∧ x < r.endAddress) from inside)]

/-- Subtracting an amount leaves what it leaves of the counts, and the pieces that it empties are
where the count is the amount. -/
theorem Represents.subtractAmount (r : Range w)
    {amount : Nat} (positive : 0 < amount) (small : amount ≤ s32Max) :
    Represents (subtractAmount plus m r amount).1
      (fun x => if r.Contains x then counts x - amount else counts x) ∧
      (subtractAmount plus m r amount).2.Pairwise (fun call next => call.2 ≤ next.1) ∧
      ∀ x, (∃ call ∈ (subtractAmount plus m r amount).2, call.1 ≤ x ∧ x < call.2) ↔ r.Contains x ∧
      counts x = amount := by
  have bounded : ∀ x, (if r.Contains x then counts x - amount else counts x) ≤ s32Max := by
    intro x
    have bound := represents.small x
    split_ifs <;> omega
  by_cases blank : m = []
  · subst blank
    have zero : ∀ x, counts x = 0 := by
      intro x
      by_contra filled
      have nothing := represents.held x
      rw [OverlapRangeSet.held, if_neg filled] at nothing
      cases nothing
    rw [OverlapRangeSet.subtractAmount, if_pos rfl]
    refine ⟨⟨ordered_nil, fun x => ?_, bounded⟩, .nil, fun x => ?_⟩
    · rw [zero, Nat.zero_sub, ite_self]
      rfl
    · rw [zero]
      exact iff_of_false (by simp) fun both => by omega
  · have small' : amount ≤ 2 ^ 31 - 1 := small
    have ordered := lawful.ordered (-(amount : Int)) represents.ordered r.base_lt_end
    have value := represents.valueAt_minus lawful r small
    rw [OverlapRangeSet.subtractAmount, if_neg blank, s32_eq (by omega) (by omega)]
    generalize plus m r.baseAddress r.endAddress (-amount) = m' at ordered value
    have meets : ∀ piece ∈ m', piece.value ≤ 0 → piece.Meets r.baseAddress r.endAddress := by
      intro piece member spent
      have filled := ordered.filled piece member
      have here := ordered.valueAt_eq_some.mpr ⟨piece, member, ⟨le_rfl, filled⟩, rfl⟩
      rw [value] at here
      split_ifs at here with inside
      · exact ⟨inside.1.trans_lt filled, inside.2⟩
      · exact absurd (held_eq_some.mp here).1 (Int.not_lt.mpr spent)
    dsimp only
    rw [eraseLoop_eq ordered meets [] (length_filter_le _ _), nil_append]
    have sub : (kept m').Sublist m' := filter_sublist
    refine ⟨⟨ordered.sublist sub, fun x => valueAt_congr (ordered.sublist sub) fun v => ?_,
      bounded⟩, ?_, fun x => ?_⟩
    · have found : (∃ piece ∈ kept m', piece.Contains x ∧ piece.value = v) ↔ 0 < v ∧
          valueAt m' x = some v := by
        rw [ordered.valueAt_eq_some]
        constructor
        · rintro ⟨piece, member, inside, rfl⟩
          obtain ⟨member, more⟩ := mem_filter.mp member
          exact ⟨of_decide_eq_true more, piece, member, inside, rfl⟩
        · rintro ⟨more, piece, member, inside, rfl⟩
          exact ⟨piece, mem_filter.mpr ⟨member, decide_eq_true more⟩, inside, rfl⟩
      rw [found, value]
      split_ifs with inside
      · rw [held_eq_some, Option.some.injEq]
        omega
      · rw [held_eq_some]
        omega
    · rw [emptied, pairwise_map]
      exact ordered.ascending.sublist filter_sublist
    · have found : (∃ call ∈ emptied m', call.1 ≤ x ∧ x < call.2) ↔ valueAt m' x = some 0 := by
        rw [ordered.valueAt_eq_some]
        constructor
        · rintro ⟨call, called, inside⟩
          obtain ⟨piece, member, rfl⟩ := mem_map.mp called
          obtain ⟨member, zero⟩ := mem_filter.mp member
          exact ⟨piece, member, inside, of_decide_eq_true zero⟩
        · rintro ⟨piece, member, inside, zero⟩
          have called : (piece.lower, piece.upper) ∈ emptied m' :=
            mem_map.mpr ⟨piece, mem_filter.mpr ⟨member, decide_eq_true zero⟩, rfl⟩
          exact ⟨_, called, inside⟩
      rw [found, value]
      split_ifs with inside
      · rw [Option.some.injEq, and_iff_right inside]
        omega
      · rw [held_eq_some]
        exact iff_of_false (fun both => absurd both.1 (lt_irrefl _)) fun both => inside both.1

theorem Represents.apply {call : Call w}
    (fits : call.Fits counts) : Represents (apply plus m call) (call.effect counts) := by
  cases call with
  | add r => exact represents.add lawful r fits
  | subtract r =>
    have subtracted := represents.subtractAmount lawful r Nat.one_pos (show 1 ≤ s32Max by decide)
    exact subtracted.1
  | deleteAll r =>
    have deleted := (represents.subtractAmount lawful r (show 0 < s32Max by decide) le_rfl).1
    have none : (fun x => if r.Contains x then counts x - s32Max else counts x) =
        (Call.deleteAll r).effect counts := by
      funext x
      rw [Call.effect, Nat.sub_eq_zero_of_le (represents.small x)]
    rw [none] at deleted
    exact deleted

theorem Represents.run {calls : List (Call w)}
    (fits : FitAll counts calls) :
    Represents (calls.foldl (OverlapRangeSet.apply plus) m) (calls.foldl Call.effect counts) := by
  induction calls generalizing m counts with
  | nil => exact represents
  | cons call calls ih =>
    obtain ⟨fitsFirst, fitsRest⟩ := fits
    exact ih (represents.apply lawful fitsFirst) fitsRest

end

end

theorem represents_nil : Represents [] fun _ => 0 :=
  ⟨ordered_nil, fun _ => rfl, fun _ => Nat.zero_le _⟩

theorem Represents.countsExactly (lawful : AddsPointwise plus) (represents : Represents m counts) :
    CountsExactly plus m w counts := by
  have subtracted (r : Range w) :=
    represents.subtractAmount lawful r Nat.one_pos (show 1 ≤ s32Max by decide)
  refine ⟨represents.ordered, represents.held, fun r => represents.ordered.clamp r.base_lt_end,
    fun r x => ?_, fun r => (subtracted r).2.1, fun r => (subtracted r).2.2⟩
  rw [forEachInRange, represents.ordered.valueAt_clamp r.base_lt_end, represents.held]
  rfl

/-- In a run in which no count grows beyond the 32-bit numbers, the set counts the overlaps. -/
theorem run_countsExactly (lawful : AddsPointwise plus) (calls : List (Call w))
    (fits : FitAll (fun _ => 0) calls) :
    CountsExactly plus (run plus calls) w (countsAfter calls) :=
  (represents_nil.run lawful fits).countsExactly lawful

/-- An addition that splits: the pieces that the interval meets are split at its ends, and the gaps
between them are filled. -/
def splitPlus : IntervalSet → Nat → Nat → Int → IntervalSet
  | [], lo, hi, v => if lo < hi then [⟨lo, hi, v⟩] else []
  | s :: l, lo, hi, v =>
    if hi ≤ lo then s :: l
    else if s.upper ≤ lo then s :: splitPlus l lo hi v
    else if hi ≤ s.lower then ⟨lo, hi, v⟩ :: s :: l
    else
      let both : Segment Int := ⟨max lo s.lower, min hi s.upper, s32 (s.value + v)⟩
      let both := if hi < s.upper then both :: ⟨hi, s.upper, s.value⟩ :: l
        else both :: splitPlus l s.upper hi v
      if lo < s.lower then ⟨lo, s.lower, v⟩ :: both
      else if s.lower < lo then ⟨s.lower, lo, s.value⟩ :: both
      else both

theorem splitPlus_after {b lo hi : Nat} (v : Int) (after : ∀ s ∈ m, b ≤ s.lower) (start : b ≤ lo) :
    ∀ s ∈ splitPlus m lo hi v, b ≤ s.lower := by
  induction m generalizing lo b with
  | nil =>
    rw [splitPlus]
    split_ifs
    · simpa using start
    · simp
  | cons s l ih =>
    obtain ⟨first, rest⟩ := forall_mem_cons.mp after
    rw [splitPlus]
    dsimp only
    split_ifs <;> simp only [forall_mem_cons, first, start, true_and] <;> grind

theorem splitPlus_ordered {lo hi : Nat} (v : Int) (ordered : Ordered m) :
    Ordered (splitPlus m lo hi v) := by
  induction m generalizing lo with
  | nil =>
    rw [splitPlus]
    split_ifs with filled
    · exact ordered_cons.mpr ⟨filled, by simp, ordered_nil⟩
    · exact ordered_nil
  | cons s l ih =>
    obtain ⟨filled, later, rest⟩ := ordered_cons.mp ordered
    have after (b lo : Nat) (later : ∀ t ∈ l, b ≤ t.lower) (start : b ≤ lo) :
        ∀ t ∈ splitPlus l lo hi v, b ≤ t.lower := splitPlus_after v later start
    rw [splitPlus]
    dsimp only
    split_ifs <;> simp only [ordered_cons, forall_mem_cons] <;> grind

theorem splitPlus_valueAt {lo hi : Nat} (v : Int) (x : Nat) (ordered : Ordered m) :
    Segments.valueAt (splitPlus m lo hi v) x =
    if lo ≤ x ∧ x < hi then some (match Segments.valueAt m x with
      | none => v
      | some n => s32 (n + v))
    else Segments.valueAt m x := by
  induction m generalizing lo with
  | nil =>
    rw [splitPlus]
    split_ifs <;> simp [valueAt_cons, Segment.Contains] <;> grind
  | cons s l ih =>
    obtain ⟨filled, later, rest⟩ := ordered_cons.mp ordered
    have none := valueAt_before (x := x) later
    rw [splitPlus]
    dsimp only
    split_ifs <;> simp only [valueAt_cons, Segment.Contains, ih rest] <;> grind

theorem splitPlus_addsPointwise : AddsPointwise splitPlus where
  ordered v ordered _ := splitPlus_ordered v ordered
  valueAt v x ordered _ := splitPlus_valueAt v x ordered

/-- The first byte. -/
def oneByte : Range 64 := ⟨0, 1, by decide, by decide⟩

theorem run_countsExactly_thrice : CountsExactly splitPlus
    (run splitPlus [.add oneByte, .add oneByte, .subtract oneByte]) 64
    (countsAfter [.add oneByte, .add oneByte, .subtract oneByte]) := by
  refine run_countsExactly splitPlus_addsPointwise
    _ ⟨fun x _ => ?_, fun x inside => ?_, trivial, trivial⟩
  · exact (by decide : 0 < s32Max)
  · rw [Call.effect, if_pos inside]
    decide

theorem run_replicate_add (n : Nat) :
    run splitPlus (replicate (n + 1) (.add oneByte)) = [⟨0, 1, s32 (n + 1)⟩] := by
  induction n with
  | zero => rfl
  | succ n ih =>
    have once (v : Int) : apply splitPlus [⟨0, 1, v⟩] (.add oneByte) = [⟨0, 1, s32 (v + 1)⟩] := rfl
    rw [run] at ih
    rw [run, replicate_succ', foldl_append, ih, foldl_cons, foldl_nil, once, s32, s32,
      Int.bmod_add_bmod]
    rfl

theorem countsAfter_replicate_add (n : Nat) : countsAfter (replicate n (.add oneByte)) 0 = n := by
  induction n with
  | zero => rfl
  | succ n ih =>
    rw [countsAfter] at ih
    rw [countsAfter, replicate_succ', foldl_append, foldl_cons, foldl_nil, Call.effect,
      if_pos (show oneByte.Contains 0 by decide), ih]

/-- After 2³¹ additions of one byte the set holds a negative count for it. -/
theorem not_countsExactly_wrapped : AddsPointwise splitPlus ∧
    ¬ CountsExactly splitPlus (run splitPlus (replicate (2 ^ 31) (.add oneByte))) 64
      (countsAfter (replicate (2 ^ 31) (.add oneByte))) := by
  refine ⟨splitPlus_addsPointwise, fun counted => ?_⟩
  have covers := counted.covers 0
  rw [show 2 ^ 31 = 2147483647 + 1 from rfl, countsAfter_replicate_add, forEach, run_replicate_add]
    at covers
  exact absurd covers (by decide)

end Counting

end OverlapRangeSet

end SumiEmu.Common
