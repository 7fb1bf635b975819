/-
# Runs of the flat allocator

A sequence of calls has a list of the ranges that are allocated after it. Each
of them is covered by a block of its own, and nothing else is allocated.
-/

import SumiEmu.Common.FlatAllocator

namespace SumiEmu.Common.FlatAllocator

open Fallible Breakpoints AddressSpace FlatAddressSpaceMap List Nat

variable {p : Params Bool} {a a' : FlatAllocator} {live : List (Nat × Nat)} {virt size va : Nat}

/-- An address lies in a range. -/
def Within (va : Nat) (r : Nat × Nat) : Prop := r.1 ≤ va ∧ va < r.1 + r.2

/-- Two ranges do not meet. -/
def Apart (r r' : Nat × Nat) : Prop := r.1 + r.2 ≤ r'.1 ∨ r'.1 + r'.2 ≤ r.1

/-- The allocated ranges are those of the list, each in a block of its own. -/
structure Tidy (p : Params Bool) (a : FlatAllocator) (live : List (Nat × Nat)) : Prop where
  kind : p.unmappedPa = false
  fixed : p.paContigSplit = false
  limit : a.vaLimit ≤ p.vaMaximum
  start : p.unmappedVa < a.virtStart
  consistent : a.toFlatAddressSpaceMap.Consistent p
  alternate : Alternate p a.blocks
  bounds : ∀ x, Started a.blocks x → x = p.unmappedVa ∨ a.virtStart ≤ x ∧ x ≤ a.vaLimit
  linear : a.virtStart ≤ a.currentLinearAllocEnd
  linear' : a.currentLinearAllocEnd < 2 ^ p.vaBits
  whole : ∀ r ∈ live, Whole a.blocks r
  proper : ∀ r ∈ live, 0 < r.2 ∧ a.virtStart ≤ r.1 ∧ r.1 + r.2 ≤ a.vaLimit
  apart : live.Pairwise Apart
  allocated : ∀ va, Allocated p a.blocks va ↔ ∃ r ∈ live, Within va r

/-- Two ranges meet only at a common address. -/
theorem apart_of_disjoint {r r' : Nat × Nat} (positive : 0 < r.2) (positive' : 0 < r'.2)
    (disjoint : ∀ va, Within va r → ¬ Within va r') : Apart r r' := by
  by_contra meet
  have := disjoint (max r.1 r'.1)
  simp only [Within, Apart] at this meet
  omega

theorem Apart.symm {r r' : Nat × Nat} (apart : Apart r r') : Apart r' r := Or.symm apart

variable {blocks blocks' : List (Block Bool Unit)}

/-- A block boundary at the ends of a new range leaves the ranges apart from it whole. -/
theorem Whole.map {r : Nat × Nat} (whole : Whole blocks r)
    (apart : Apart r (virt, size)) (proper : 0 < r.2) (proper' : 0 < size)
    (starts : ∀ x, Started blocks' x ↔
      x = virt ∨ x = virt + size ∨ Started blocks x ∧ (x < virt ∨ virt + size ≤ x)) :
    Whole blocks' r := by
  obtain ⟨first, ends, between⟩ := whole
  have apart : r.1 + r.2 ≤ virt ∨ virt + size ≤ r.1 := apart
  refine ⟨(starts _).mpr ?_, (starts _).mpr ?_, fun x started behind => ?_⟩
  · by_cases here : r.1 = virt
    · exact .inl here
    · exact .inr (.inr ⟨first, by omega⟩)
  · by_cases here : r.1 + r.2 = virt
    · exact .inl here
    · exact .inr (.inr ⟨ends, by omega⟩)
  · rcases (starts x).mp started with rfl | rfl | ⟨started, -⟩
    · omega
    · omega
    · exact between x started behind

/-- The marks of the blocks as a map to whether an address is allocated. -/
theorem allocated_of_denote {mark : Nat → Bool × Unit} (denotes : ∀ va, p.denote blocks' va =
      if virt ≤ va ∧ va < virt + size then some (mark va) else p.denote blocks va) (va : Nat) :
    Allocated p blocks' va ↔ Within va (virt, size) ∨ Allocated p blocks va := by
  rw [Allocated, denotes]
  by_cases inside : virt ≤ va ∧ va < virt + size
  · rw [if_pos inside]
    exact iff_of_true (by simp) (.inl inside)
  · rw [if_neg inside]
    exact ⟨.inr, fun either => either.resolve_left inside⟩

theorem Tidy.cutsReal (tidy : Tidy p a live) (va : Nat) : CutsReal p a.blocks va := by
  intro b _ mapped
  rw [Params.physAt, tidy.fixed]
  exact mapped

/-- A free range is allocated. -/
theorem Tidy.map (tidy : Tidy p a live) (proper : 0 < size) (lower : a.virtStart ≤ virt)
    (fits : virt + size ≤ a.vaLimit)
    (free : ∀ va, Within va (virt, size) → ¬ Allocated p a.blocks va)
    {linear : Nat} (order : a.virtStart ≤ linear) (order' : linear < 2 ^ p.vaBits) :
    ∃ base, a.toFlatAddressSpaceMap.mapLocked p virt true size () = .ok base ∧
      base.vaLimit = a.vaLimit ∧
      Tidy p { a with toFlatAddressSpaceMap := base, currentLinearAllocEnd := linear }
        ((virt, size) :: live) := by
  have start : p.unmappedVa < virt := tidy.start.trans_le lower
  obtain ⟨before, predecessor, inside, after, last, cut⟩ := tidy.consistent.cut start (virt + size)
  obtain ⟨tail, after', mapped⟩ := mapLocked_of_cut true () cut tidy.limit proper
    fits
  obtain ⟨m', mapped', consistent, limit', denotes⟩ := tidy.consistent.mapLocked true ()
    tidy.limit start proper fits (by simp [tidy.kind]) (tidy.cutsReal _)
  have starts := started_map cut after'
  have allocated := allocated_of_denote denotes
  have apart : ∀ r ∈ live, Apart r (virt, size) := fun r member =>
    apart_of_disjoint (tidy.proper r member).1 proper fun va within within' =>
      free va within' ((tidy.allocated va).mpr ⟨r, member, within⟩)
  obtain rfl : _ = m' := Except.ok.inj (mapped.symm.trans mapped')
  refine ⟨_, mapped, rfl, {
    kind := tidy.kind
    fixed := tidy.fixed
    limit := tidy.limit
    start := tidy.start
    consistent
    alternate := alternate_map cut after' tidy.alternate tidy.kind tidy.fixed
    bounds := fun x started => ?_
    linear := order
    linear' := order'
    whole := fun r member => ?_
    proper := fun r member => ?_
    apart := pairwise_cons.mpr ⟨fun r member => (apart r member).symm, tidy.apart⟩
    allocated := fun va => ?_ }⟩
  · rcases (starts x).mp started with rfl | rfl | ⟨started, -⟩
    · exact .inr ⟨lower, (le_add_right _ _).trans fits⟩
    · exact .inr ⟨lower.trans (le_add_right _ _), fits⟩
    · exact tidy.bounds x started
  · rcases mem_cons.mp member with rfl | member
    · refine ⟨(starts _).mpr (.inl rfl), (starts _).mpr (.inr (.inl rfl)),
        fun x started behind => ?_⟩
      have := (starts x).mp started
      simp only at behind ⊢
      omega
    · exact (tidy.whole r member).map (apart r member) (tidy.proper r member).1 proper starts
  · rcases mem_cons.mp member with rfl | member
    · exact ⟨proper, lower, fits⟩
    · exact tidy.proper r member
  · rw [allocated va, tidy.allocated va]
    simp

/-- A release leaves the other ranges whole. -/
theorem Whole.unmap {r : Nat × Nat} (whole : Whole blocks r)
    (starts : ∀ x, Started blocks' x → Started blocks x)
    (first : Started blocks r.1 → Started blocks' r.1)
    (ends : Started blocks (r.1 + r.2) → Started blocks' (r.1 + r.2)) : Whole blocks' r :=
  ⟨first whole.starts, ends whole.ends, fun x started => whole.between x (starts x started)⟩

/-- An allocated range is released, next to another allocation or to free space on its right. -/
theorem Tidy.unmap (tidy : Tidy p a live) (member : (virt, size) ∈ live)
    (regular : Allocated p a.blocks (virt - 1) ∨ ¬ Allocated p a.blocks (virt + size)) :
    ∃ base, a.toFlatAddressSpaceMap.unmapLocked p virt size = .ok base ∧ base.vaLimit = a.vaLimit ∧
      Tidy p { a with toFlatAddressSpaceMap := base } (live.erase (virt, size)) := by
  obtain ⟨proper, lower, fits⟩ := tidy.proper _ member
  have start : p.unmappedVa < virt := tidy.start.trans_le lower
  obtain ⟨before, predecessor, inside, after, last, cut⟩ := tidy.consistent.cut start (virt + size)
  obtain ⟨rfl, start', next, more, rfl, here, later⟩ := (tidy.whole _ member).cut cut proper
  have whole : a.blocks = before ++ predecessor :: last :: next :: more := cut.whole
  have behind : ∀ b ∈ next :: more, virt < b.virt := fun b member => by
    have := cut.above b member
    omega
  have mapped : ¬ p.Unmapped last := by
    have split : a.blocks = (before ++ [predecessor]) ++ last :: next :: more := by
      simpa using whole
    refine (allocated_iff split start'.le behind).mp ((tidy.allocated virt).mpr ⟨_, member, ?_⟩)
    exact ⟨le_rfl, by simp only; omega⟩
  have left := allocated_before cut (by omega) (by omega)
  have right : Allocated p a.blocks (virt + size) ↔ ¬ p.Unmapped next := by
    have split : a.blocks = (before ++ [predecessor, last]) ++ next :: more := by simpa using whole
    exact allocated_iff split here.le later
  have alternate := whole ▸ tidy.alternate
  have hits : ¬ UnmapMisses p virt (virt + size) predecessor [last] (next :: more) := by
    refine unmapMisses_of_whole alternate mapped ?_
    rw [left, right] at regular
    exact regular.imp_right not_not.mp
  obtain ⟨hole, rest, hole', after', unmapped⟩ := unmapLocked_of_cut cut tidy.limit proper fits hits
  obtain ⟨m', unmapped', consistent, limit', denotes⟩ :=
    tidy.consistent.unmapLocked tidy.limit start proper fits (tidy.cutsReal _)
    fun _ _ _ _ _ cut' => by
      obtain ⟨front, rfl, rfl⟩ := cut'.parts (by omega)
      obtain ⟨front', inner, outer⟩ := cut.parts (by omega)
      obtain ⟨-, same⟩ := append_inj' (front.symm.trans front') rfl
      cases same
      rwa [inner, outer]
  have starts := started_unmap cut mapped here start' hole' after'
  obtain rfl : _ = m' := Except.ok.inj (unmapped.symm.trans unmapped')
  have apart : ∀ r ∈ live.erase (virt, size), Apart r (virt, size) := fun r other =>
    have pairwise := ((perm_cons_erase member).pairwise_iff Apart.symm).mp tidy.apart
    ((pairwise_cons.mp pairwise).1 r other).symm
  refine ⟨_, unmapped, rfl, {
    kind := tidy.kind
    fixed := tidy.fixed
    limit := tidy.limit
    start := tidy.start
    consistent
    alternate := alternate_unmap alternate mapped here hole' after'
    bounds := fun x started => tidy.bounds x ((starts x).1 started)
    linear := tidy.linear
    linear' := tidy.linear'
    whole := fun r other => ?_
    proper := fun r other => tidy.proper r (mem_of_mem_erase other)
    apart := tidy.apart.sublist erase_sublist
    allocated := fun va => ?_ }⟩
  · have member' := mem_of_mem_erase other
    obtain ⟨proper', -, -⟩ := tidy.proper r member'
    have apart : r.1 + r.2 ≤ virt ∨ virt + size ≤ r.1 := apart r other
    have covered : ∀ va, Within va r → Allocated p a.blocks va := fun va within =>
      (tidy.allocated va).mpr ⟨r, member', within⟩
    refine (tidy.whole r member').unmap (fun x => (starts x).1) (fun started => ?_) fun started =>
      ?_
    · refine (starts _).2 started (fun same => by omega) fun same => right.mp ?_
      exact same ▸ covered r.1 ⟨le_rfl, by omega⟩
    · refine (starts _).2 started (fun same => left.mp ?_) (fun same => by omega)
      exact covered (virt - 1) ⟨by omega, by omega⟩
  · have cleared : Allocated p (before ++ predecessor :: (hole ++ rest)) va ↔
        ¬ Within va (virt, size) ∧ Allocated p a.blocks va := by
      rw [Allocated, show p.denote (before ++ predecessor :: (hole ++ rest)) va = _ from denotes va]
      by_cases inside : virt ≤ va ∧ va < virt + size
      · rw [if_pos inside]
        exact iff_of_false (by simp) fun both => both.1 inside
      · rw [if_neg inside]
        exact ⟨fun allocated => ⟨inside, allocated⟩, And.right⟩
    rw [cleared, tidy.allocated va]
    constructor
    · rintro ⟨outside, r, member', within⟩
      have other : r ≠ (virt, size) := by
        rintro rfl
        exact outside within
      exact ⟨r, (mem_erase_of_ne other).mpr member', within⟩
    · rintro ⟨r, other, within⟩
      refine ⟨fun inside => ?_, r, mem_of_mem_erase other, within⟩
      have apart : r.1 + r.2 ≤ virt ∨ virt + size ≤ r.1 := apart r other
      simp only [Within] at inside within
      omega

section Searching

/-- A range that could be allocated. -/
structure FreeRun (p : Params Bool) (a : FlatAllocator) (virt size : Nat) : Prop where
  lower : a.virtStart ≤ virt
  fits : virt + size ≤ a.vaLimit
  free : ∀ va, Within va (virt, size) → ¬ Allocated p a.blocks va

/-- An unmapped block that is neither the first nor the last one is large enough. -/
def InnerGap (p : Params Bool) (a : FlatAllocator) (size : Nat) : Prop :=
  ∃ first before b c after, a.blocks = first :: (before ++ b :: c :: after) ∧
    p.Unmapped b ∧ b.virt + size ≤ c.virt

theorem searchGap_some {blocks : List (Block Bool Unit)} {virt : Nat}
    (found : searchGap p size blocks = some virt) :
    ∃ before b c after, blocks = before ++ b :: c :: after ∧ p.Unmapped b ∧ b.virt = virt ∧
      size ≤ c.virt - b.virt := by
  induction blocks with
  | nil => cases found
  | cons b blocks ih =>
    cases blocks with
    | nil => cases found
    | cons c blocks =>
      rw [searchGap] at found
      split at found
      · obtain ⟨before, b', c', after, split, rest⟩ := ih found
        exact ⟨b :: before, b', c', after, by rw [split]; rfl, rest⟩
      · rename_i fine
        obtain ⟨large, unmapped⟩ := not_or.mp fine
        exact ⟨[], b, c, blocks, rfl, not_not.mp unmapped, Option.some.inj found, not_lt.mp large⟩

variable {before after : List (Block Bool Unit)}

theorem searchGap_none {b c : Block Bool Unit}
    (none : searchGap p size (before ++ b :: c :: after) = none) (unmapped : p.Unmapped b) :
    c.virt - b.virt < size := by
  induction before with
  | nil =>
    rw [nil_append, searchGap] at none
    split at none
    · rename_i either
      exact either.resolve_right (not_not.mpr unmapped)
    · cases none
  | cons x before ih =>
    have next : ∃ y rest, before ++ b :: c :: after = y :: rest := by
      cases before with
      | nil => exact ⟨b, _, rfl⟩
      | cons y before => exact ⟨y, _, rfl⟩
    obtain ⟨y, rest, split⟩ := next
    rw [cons_append, split, searchGap, ← split] at none
    split at none
    · exact ih none
    · cases none

/-- A gap that the search finds can be allocated. -/
theorem Tidy.freeRun_of_gap (tidy : Tidy p a live) {first b c : Block Bool Unit}
    (split : a.blocks = first :: (before ++ b :: c :: after))
    (unmapped : p.Unmapped b) (large : size ≤ c.virt - b.virt) (proper : 0 < size) :
    FreeRun p a b.virt size := by
  have sorted := tidy.consistent.sorted
  have first' := tidy.consistent.first
  rw [split] at sorted first'
  obtain ⟨above, sorted'⟩ := pairwise_cons.mp sorted
  have behind := above b (by simp)
  have order : b.virt < c.virt := by omega
  have later : ∀ x ∈ c :: after, c.virt ≤ x.virt := by
    intro x member
    rcases mem_cons.mp member with rfl | member
    · exact le_rfl
    · have := (pairwise_cons.mp (pairwise_cons.mp
        (pairwise_append.mp sorted').2.1).2).1 x member
      exact le_of_lt this
  have start : first.virt = p.unmappedVa := by simpa using first'
  have bound := tidy.bounds b.virt ⟨b, by rw [split]; simp, rfl⟩
  have bound' := tidy.bounds c.virt ⟨c, by rw [split]; simp, rfl⟩
  refine ⟨by omega, by omega, fun va within => ?_⟩
  have within : b.virt ≤ va ∧ va < b.virt + size := within
  rw [allocated_iff (split.trans (cons_append ..).symm) within.1 fun x member => ?_]
  · exact not_not.mpr unmapped
  · have := later x member
    omega

/-- What the sum of two values of `VaType` says about the limit. -/
theorem Tidy.fits_iff (tidy : Tidy p a live) (small : size < 2 ^ p.vaBits) :
    (a.currentLinearAllocEnd ≤ p.add a.currentLinearAllocEnd size ∧
      p.add a.currentLinearAllocEnd size ≤ a.vaLimit) ↔
    a.currentLinearAllocEnd + size ≤ a.vaLimit := by
  by_cases fits : a.currentLinearAllocEnd + size ≤ a.vaLimit
  · rw [add_eq tidy.limit fits]
    exact iff_of_true ⟨by omega, fits⟩ fits
  · refine iff_of_false (fun ⟨order, bound⟩ => fits ?_) fits
    rw [Params.add] at order bound
    have := tidy.linear'
    rcases lt_or_ge (a.currentLinearAllocEnd + size) (2 ^ p.vaBits) with below | beyond
    · rwa [mod_eq_of_lt below] at bound
    · rw [mod_eq_sub_mod beyond, mod_eq_of_lt (by omega)] at order
      omega

theorem linearPass_read {i : Nat} {b : Block Bool Unit} {virtEnd : Nat}
    (fits : a.currentLinearAllocEnd ≤ p.add a.currentLinearAllocEnd size ∧
      p.add a.currentLinearAllocEnd size ≤ a.vaLimit)
    (end' : p.add a.currentLinearAllocEnd size = virtEnd)
    (place : lowerBound a.blocks virtEnd = i + 1)
    (read : deref a.blocks i = .ok b) :
    linearPass p a size = .ok (if b.virt ≤ a.currentLinearAllocEnd then a.currentLinearAllocEnd
      else skipFixed p a.vaLimit size (a.blocks.drop i)) := by
  rw [linearPass, if_pos fits, end', place]
  simp only [assert_of (succ_ne_zero _), ok_bind, prev_succ, read]
  split <;> rfl

/-- The linear pass takes the range behind the last allocation when it is free. -/
theorem Tidy.linearPass_free (tidy : Tidy p a live) (small : size < 2 ^ p.vaBits)
    (proper : 0 < size)
    (free : FreeRun p a a.currentLinearAllocEnd size) :
    linearPass p a size = .ok a.currentLinearAllocEnd := by
  have fits := (tidy.fits_iff small).mpr free.fits
  have start := tidy.start.trans_le tidy.linear
  obtain ⟨before, predecessor, inside, after, last, cut⟩ := tidy.consistent.cut start
    (a.currentLinearAllocEnd + size)
  have place : lowerBound a.blocks (a.currentLinearAllocEnd + size) =
      before.length + inside.length + 1 := by
    rw [cut.whole]
    exact lowerBound_range cut.below cut.within cut.above (by omega)
  obtain ⟨init, split⟩ := getLast?_eq_some_iff.mp cut.isLast
  have read : deref a.blocks (before.length + inside.length) = .ok last := by
    have whole : a.blocks = (before ++ init) ++ last :: after := by
      rw [cut.whole, ← cons_append, split]
      simp
    have length : inside.length = init.length := by
      have := congrArg length split
      simpa using this
    rw [whole, length, ← length_append]
    exact deref_append
  -- a block that starts in the free range would be behind another unmapped one
  have reach : last.virt ≤ a.currentLinearAllocEnd := by
    by_contra beyond
    have inner : last ∈ inside := by
      have member : last ∈ predecessor :: inside := mem_of_getLast? cut.isLast
      rcases mem_cons.mp member with rfl | member
      · have := cut.below last (by simp)
        omega
      · exact member
    obtain ⟨-, upper⟩ := cut.within last inner
    rcases eq_nil_or_concat init with rfl | ⟨init, q, rfl⟩
    · obtain ⟨-, none⟩ := cons_eq_cons.mp split
      rw [none] at inner
      cases inner
    · have whole : a.blocks = (before ++ init) ++ q :: last :: after := by
        rw [cut.whole, ← cons_append, split]
        simp
      have order : q.virt < last.virt := by
        have sorted := tidy.consistent.sorted
        rw [whole] at sorted
        exact (pairwise_cons.mp (pairwise_append.mp sorted).2.1).1 last (by simp)
      have later : ∀ c ∈ after, last.virt < c.virt := fun c member => by
        have := cut.above c member
        omega
      have unmapped : p.Unmapped q := by
        by_contra mapped
        refine free.free (last.virt - 1) ⟨by simp only; omega, by simp only; omega⟩
          ((allocated_iff whole (by omega) fun c member => ?_).mpr mapped)
        rcases mem_cons.mp member with rfl | member
        · omega
        · have := later c member
          omega
      have whole' : a.blocks = (before ++ init ++ [q]) ++ last :: after := by simpa using whole
      refine free.free last.virt ⟨by simp only; omega, upper⟩ ?_
      exact (allocated_iff whole' le_rfl later).mpr (tidy.alternate.next whole unmapped)
  rw [linearPass_read fits (add_eq tidy.limit free.fits) place read, if_pos reach]

/-- The linear pass gives up when the last block starts behind the last allocation, too close for
the size. -/
theorem Tidy.linearPass_last (tidy : Tidy p a live) (small : size < 2 ^ p.vaBits)
    (fits : a.currentLinearAllocEnd + size ≤ a.vaLimit) {b : Block Bool Unit}
    (isLast : a.blocks.getLast? = some b) (behind : a.currentLinearAllocEnd < b.virt)
    (close : b.virt < a.currentLinearAllocEnd + size) : linearPass p a size = .ok p.unmappedVa := by
  obtain ⟨init, split⟩ := getLast?_eq_some_iff.mp isLast
  have sorted := tidy.consistent.sorted
  rw [split] at sorted
  have place : lowerBound a.blocks (a.currentLinearAllocEnd + size) = init.length + 1 := by
    have earlier : ∀ c ∈ init ++ [b], c.virt < a.currentLinearAllocEnd + size := by
      intro c member
      rcases mem_append.mp member with member | member
      · have := (pairwise_append.mp sorted).2.2 c member b (by simp)
        omega
      · rwa [mem_singleton.mp member]
    have := lowerBound_append _ [] earlier (by simp)
    rw [split]
    simpa using this
  have read : deref a.blocks init.length = .ok b := by
    rw [split]
    exact deref_append
  rw [linearPass_read ((tidy.fits_iff small).mpr fits) (add_eq tidy.limit fits) place read,
    if_neg (not_le.mpr behind), split, drop_left]
  rfl

/-- The linear pass gives up at the limit. -/
theorem Tidy.linearPass_full (tidy : Tidy p a live) (small : size < 2 ^ p.vaBits)
    (full : ¬ a.currentLinearAllocEnd + size ≤ a.vaLimit) :
    linearPass p a size = .ok p.unmappedVa := by
  rw [linearPass, if_neg (mt (tidy.fits_iff small).mp full)]
  rfl

end Searching

section Calls

/-- The search for a gap does right: there is an inner gap, or no free range at all. -/
def SearchRegular (p : Params Bool) (a : FlatAllocator) (size : Nat) : Prop :=
  2 < a.blocks.length ∧ (InnerGap p a size ∨ ∀ virt, ¬ FreeRun p a virt size)

/-- `Allocate` does right: the range behind the last linear allocation is free, or the linear pass
gives up, at the limit or since the last block starts too close behind, and the search does
right. -/
def AllocateRegular (p : Params Bool) (a : FlatAllocator) (size : Nat) : Prop :=
  FreeRun p a a.currentLinearAllocEnd size ∨
    ((a.currentLinearAllocEnd + size ≤ a.vaLimit → ∃ b, a.blocks.getLast? = some b ∧
      a.currentLinearAllocEnd < b.virt ∧ b.virt < a.currentLinearAllocEnd + size) ∧
    SearchRegular p a size)

/-- An address is allocated when it was before or lies in the new range. -/
theorem Tidy.allocated_cons {a' : FlatAllocator} (tidy : Tidy p a live)
    (tidy' : Tidy p a' ((virt, size) :: live)) (va : Nat) :
    Allocated p a'.blocks va ↔ Allocated p a.blocks va ∨ Within va (virt, size) := by
  rw [tidy.allocated, tidy'.allocated, exists_mem_cons_iff, or_comm]

/-- `Allocate` returns a free range, or zero when there is none. -/
theorem Tidy.allocate (tidy : Tidy p a live) (proper : 0 < size) (small : size < 2 ^ p.vaBits)
    (regular : AllocateRegular p a size) :
    ∃ r a', allocate p a size = .ok (r, a') ∧ a'.virtStart = a.virtStart ∧ a'.vaLimit = a.vaLimit ∧
      (r ≠ 0 ∧ FreeRun p a r size ∧ Tidy p a' ((r, size) :: live) ∨
        r = 0 ∧ a' = a ∧ ∀ virt, ¬ FreeRun p a virt size) := by
  have atGap : ∀ r linear, a.virtStart ≤ linear → linear < 2 ^ p.vaBits → FreeRun p a r size →
      ∃ a', allocateAt p { a with currentLinearAllocEnd := linear } r size = .ok (r, a') ∧
        a'.virtStart = a.virtStart ∧ a'.vaLimit = a.vaLimit ∧ r ≠ 0 ∧
        Tidy p a' ((r, size) :: live) := by
    intro r linear order order' run
    obtain ⟨base, mapped, limit, tidy'⟩ := tidy.map proper run.lower run.fits run.free order order'
    have positive : r ≠ 0 := by
      have := tidy.start
      have := run.lower
      omega
    refine ⟨{ a with toFlatAddressSpaceMap := base, currentLinearAllocEnd := linear }, ?_, rfl,
      limit, positive, tidy'⟩
    show (FlatAddressSpaceMap.mapLocked p a.toFlatAddressSpaceMap r true size () >>= _) = _
    rw [mapped]
    rfl
  rcases regular with run | ⟨gives, enough, search⟩
  · have full : p.add a.currentLinearAllocEnd size = a.currentLinearAllocEnd + size :=
      add_eq tidy.limit run.fits
    obtain ⟨a', allocated, rest, limit, positive, tidy'⟩ := atGap a.currentLinearAllocEnd
      (p.add a.currentLinearAllocEnd size) (full ▸ tidy.linear.trans (le_add_right _ _))
      (Nat.mod_lt _ (Nat.two_pow_pos _)) run
    refine ⟨_, a', ?_, rest, limit, .inl ⟨positive, run, tidy'⟩⟩
    rw [FlatAllocator.allocate, tidy.linearPass_free small proper run, ok_bind,
      if_pos (tidy.start.trans_le tidy.linear).ne', allocated]
  · have pass : linearPass p a size = .ok p.unmappedVa := by
      by_cases fits : a.currentLinearAllocEnd + size ≤ a.vaLimit
      · obtain ⟨b, isLast, behind, close⟩ := gives fits
        exact tidy.linearPass_last small fits isLast behind close
      · exact tidy.linearPass_full small fits
    rw [FlatAllocator.allocate, pass, ok_bind, if_neg (not_not.mpr rfl), assert_of enough, ok_bind]
    obtain ⟨first, blocks, split⟩ := exists_cons_of_ne_nil
      (ne_nil_of_length_pos (zero_lt_of_lt enough))
    have behind : a.blocks.drop 1 = blocks := by rw [split]; rfl
    rw [behind]
    cases found : searchGap p size blocks with
    | some r =>
      obtain ⟨before, b, c, after, whole, unmapped, rfl, large⟩ := searchGap_some found
      have run := tidy.freeRun_of_gap (split.trans (congrArg _ whole)) unmapped large proper
      obtain ⟨a', allocated, rest, limit, positive, tidy'⟩ := atGap b.virt a.currentLinearAllocEnd
        tidy.linear tidy.linear' run
      exact ⟨_, a', allocated, rest, limit, .inl ⟨positive, run, tidy'⟩⟩
    | none =>
      refine ⟨0, a, rfl, rfl, rfl, .inr ⟨rfl, rfl, search.resolve_left ?_⟩⟩
      rintro ⟨first', before, b, c, after, whole, unmapped, large⟩
      obtain ⟨-, rfl⟩ := cons_eq_cons.mp (split.symm.trans whole)
      have := searchGap_none found unmapped
      omega

/-- One call. -/
inductive Op
  | allocate (size : Nat)
  | allocateFixed (virt size : Nat)
  | free (virt size : Nat)

namespace Op

/-- A fixed range is free, and what is released was allocated. -/
def Valid (p : Params Bool) (a : FlatAllocator) (live : List (Nat × Nat)) : Op → Prop
  | allocate size => 0 < size ∧ size < 2 ^ p.vaBits
  | allocateFixed virt size => 0 < size ∧ FreeRun p a virt size
  | free virt size => (virt, size) ∈ live

/-- The call keeps clear of the defects: `Allocate` does right, and what is released does not lie
between free space and another allocation. -/
def Regular (p : Params Bool) (a : FlatAllocator) : Op → Prop
  | allocate size => AllocateRegular p a size
  | allocateFixed _ _ => True
  | free virt size => Allocated p a.blocks (virt - 1) ∨ ¬ Allocated p a.blocks (virt + size)

end Op

/-- A call, and the ranges that are allocated after it. -/
def step (p : Params Bool) (s : FlatAllocator × List (Nat × Nat)) :
    Op → Except Fault (FlatAllocator × List (Nat × Nat))
  | .allocate size => do
    let (r, a) ← s.1.allocate p size
    return (a, if r = 0 then s.2 else (r, size) :: s.2)
  | .allocateFixed virt size => do
    let a ← s.1.allocateFixed p virt size
    return (a, (virt, size) :: s.2)
  | .free virt size => do
    let a ← s.1.free p virt size
    return (a, s.2.erase (virt, size))

/-- A sequence of calls. -/
def run (p : Params Bool) (s : FlatAllocator × List (Nat × Nat)) (ops : List Op) :
    Except Fault (FlatAllocator × List (Nat × Nat)) :=
  ops.foldlM (step p) s

theorem Tidy.step (tidy : Tidy p a live) {op : Op} (valid : op.Valid p a live)
    (regular : op.Regular p a) :
    ∃ s, FlatAllocator.step p (a, live) op = .ok s ∧ Tidy p s.1 s.2 ∧ s.1.virtStart = a.virtStart ∧
      s.1.vaLimit = a.vaLimit := by
  cases op with
  | allocate size =>
    obtain ⟨r, a', allocated, start, limit, ⟨some, -, tidy'⟩ | ⟨none, rfl, -⟩⟩ :=
      tidy.allocate valid.1 valid.2 regular
    · refine ⟨(a', (r, size) :: live), ?_, tidy', start, limit⟩
      simp only [FlatAllocator.step, allocated, ok_bind, if_neg some]
      rfl
    · refine ⟨(a', live), ?_, tidy, start, limit⟩
      simp only [FlatAllocator.step, allocated, ok_bind, if_pos none]
      rfl
  | allocateFixed virt size =>
    obtain ⟨proper, range⟩ := valid
    obtain ⟨base, mapped, limit, tidy'⟩ :=
      tidy.map proper range.lower range.fits range.free tidy.linear tidy.linear'
    refine ⟨(_, (virt, size) :: live), ?_, tidy', rfl, limit⟩
    rw [FlatAllocator.step, FlatAllocator.allocateFixed, mapped]
    rfl
  | free virt size =>
    obtain ⟨base, unmapped, limit, tidy'⟩ := tidy.unmap valid regular
    refine ⟨(_, live.erase (virt, size)), ?_, tidy', rfl, limit⟩
    rw [FlatAllocator.step, FlatAllocator.free, unmapped]
    rfl

theorem Tidy.run (tidy : Tidy p a live) {ops : List Op}
    (valid : ∀ done op more, ops = done ++ op :: more → ∀ s,
      FlatAllocator.run p (a, live) done = .ok s → op.Valid p s.1 s.2 ∧ op.Regular p s.1) :
    ∃ s, FlatAllocator.run p (a, live) ops = .ok s ∧ Tidy p s.1 s.2 ∧ s.1.virtStart = a.virtStart ∧
      s.1.vaLimit = a.vaLimit := by
  induction ops using reverseRecOn with
  | nil => exact ⟨(a, live), rfl, tidy, rfl, rfl⟩
  | append_singleton ops op ih =>
    obtain ⟨s, ran, tidy', start, limit⟩ := ih fun done op' more split =>
      valid done op' (more ++ [op]) (by simp [split])
    obtain ⟨valid', regular⟩ := valid ops op [] rfl s ran
    obtain ⟨s', stepped, tidy'', start', limit'⟩ := tidy'.step valid' regular
    refine ⟨s', ?_, tidy'', start'.trans start, limit'.trans limit⟩
    rw [FlatAllocator.run, foldlM_append]
    change (FlatAllocator.run p (a, live) ops >>= _) = _
    rw [ran, ok_bind, foldlM_cons, stepped]
    rfl

/-- The allocator before the first call. -/
theorem tidy_new {virtStart vaLimit : Nat} (kind : p.unmappedPa = false)
    (fixed : p.paContigSplit = false)
    (start : p.unmappedVa < virtStart) (small : virtStart < 2 ^ p.vaBits)
    (new' : new p virtStart vaLimit = .ok a) :
    Tidy p a [] ∧ a.virtStart = virtStart ∧ a.vaLimit = vaLimit := by
  obtain ⟨base, made, same⟩ := bind_eq_ok.mp new'
  cases same
  obtain ⟨consistent, rfl, limit, empty⟩ := consistent_new made
  obtain ⟨_, -, made'⟩ := bind_eq_ok.mp made
  have blocks : base.blocks = [⟨p.unmappedVa, p.unmappedPa, default⟩] := by
    rw [← Except.ok.inj made']
  exact ⟨{
    kind, fixed, limit, start, consistent
    alternate := by
      rw [Alternate, blocks]
      exact isChain_singleton _
    bounds := by
      rintro x ⟨b, member, rfl⟩
      rw [blocks] at member
      exact .inl (by rw [mem_singleton.mp member])
    linear := le_rfl
    linear' := small
    whole := by simp
    proper := by simp
    apart := .nil
    allocated := fun va => by simp [Allocated, empty] }, rfl, rfl⟩

/-- After any calls that keep clear of the defects, `Allocate` either returns a free range between
`virt_start` and the limit, which is then allocated as the only change, or returns zero and there is
no such range. -/
theorem allocate_free {vaBits unmappedVa addressSpaceBits virtStart vaLimit : Nat}
    {valid : addressSpaceBits ≤ vaBits} {a₀ : FlatAllocator} {ops : List Op}
    (new' : new (params vaBits unmappedVa addressSpaceBits valid) virtStart vaLimit = .ok a₀)
    (start : unmappedVa < virtStart) (small : virtStart < 2 ^ vaBits)
    (calls : ∀ done op more, ops = done ++ op :: more → ∀ s,
      run (params vaBits unmappedVa addressSpaceBits valid) (a₀, []) done = .ok s →
      op.Valid (params vaBits unmappedVa addressSpaceBits valid) s.1 s.2 ∧
      op.Regular (params vaBits unmappedVa addressSpaceBits valid) s.1) :
    let p := params vaBits unmappedVa addressSpaceBits valid
    ∃ s, run p (a₀, []) ops = .ok s ∧
      (∀ va, Allocated p s.1.blocks va ↔ ∃ r ∈ s.2, Within va r) ∧
      ∀ size, 0 < size → size < 2 ^ vaBits → AllocateRegular p s.1 size →
        ∃ r a, allocate p s.1 size = .ok (r, a) ∧
          (r ≠ 0 ∧ virtStart ≤ r ∧ r + size ≤ vaLimit ∧
            (∀ va, Within va (r, size) → ¬ Allocated p s.1.blocks va) ∧
            (∀ va, Allocated p a.blocks va ↔ Allocated p s.1.blocks va ∨ Within va (r, size)) ∨
          r = 0 ∧ a = s.1 ∧ ∀ virt, virtStart ≤ virt → virt + size ≤ vaLimit →
            ∃ va, Within va (virt, size) ∧ Allocated p s.1.blocks va) := by
  intro p
  obtain ⟨tidy, rfl, rfl⟩ := tidy_new rfl rfl start small new'
  obtain ⟨s, ran, tidy', start', limit'⟩ := tidy.run calls
  refine ⟨s, ran, tidy'.allocated, fun size proper small' regular => ?_⟩
  obtain ⟨r, a, allocated, -, -, ⟨some, range, tidy''⟩ | ⟨none, same, full⟩⟩ :=
    tidy'.allocate proper small' regular
  · exact ⟨r, a, allocated, .inl ⟨some, start' ▸ range.lower, limit' ▸ range.fits, range.free,
      tidy'.allocated_cons tidy''⟩⟩
  · refine ⟨r, a, allocated, .inr ⟨none, same, fun virt lower fits => ?_⟩⟩
    by_contra free
    refine full virt ⟨start'.le.trans lower, fits.trans limit'.ge, fun va within allocated => ?_⟩
    exact free ⟨va, within, allocated⟩

/-- The parameters of the allocators in use. -/
def params32 : Params Bool := params 32 0 32 (Nat.le_refl 32)

/-- A second allocation goes behind the first one. -/
theorem allocate_free_twice :
    ∃ s, run params32 (⟨⟨[⟨0, false, ()⟩], 100, []⟩, 10, 10⟩, []) [.allocate 10] =
    .ok s ∧ ∃ r a, allocate params32 s.1 10 = .ok (r, a) ∧ r ≠ 0 ∧
    Allocated params32 a.blocks r := by
  have first : FreeRun params32 ⟨⟨[⟨0, false, ()⟩], 100, []⟩, 10, 10⟩ 10 10 := by
    refine ⟨le_rfl, by decide, fun va within => ?_⟩
    exact mt (allocated_iff (show _ = [] ++ ⟨0, false, ()⟩ :: [] from rfl) (zero_le va)
      (by simp)).mp (not_not.mpr rfl)
  have calls : ∀ done op more, [.allocate 10] = done ++ op :: more → ∀ s,
      run params32 (⟨⟨[⟨0, false, ()⟩], 100, []⟩, 10, 10⟩, []) done = .ok s →
      op.Valid params32 s.1 s.2 ∧ op.Regular params32 s.1 := by
    intro done op more split s ran
    rcases done with _ | ⟨_, done⟩
    · cases split
      cases ran
      exact ⟨⟨by decide, by decide⟩, .inl first⟩
    · simp at split
  have new' : new (params 32 0 32 le_rfl) 10 100 = .ok ⟨⟨[⟨0, false, ()⟩], 100, []⟩, 10, 10⟩ := rfl
  obtain ⟨s, ran, -, next⟩ := allocate_free new' (by decide) (by decide) calls
  have second : FreeRun params32 s.1 20 10 := by
    cases ran
    refine ⟨by decide, by decide, fun va within => ?_⟩
    have behind : (20 : Nat) ≤ va := within.1
    exact mt (allocated_iff
      (show _ = [⟨0, false, ()⟩, ⟨10, true, ()⟩] ++ ⟨20, false, ()⟩ :: [] from rfl) behind
      (by simp)).mp (not_not.mpr rfl)
  have linear : s.1.currentLinearAllocEnd = 20 := by
    cases ran
    rfl
  obtain ⟨r, a, allocated, ⟨some, -, -, -, spread⟩ | ⟨none, -, full⟩⟩ :=
    next 10 (by decide) (by decide) (.inl (linear.symm ▸ second))
  · exact ⟨s, ran, r, a, allocated, some, (spread r).mpr (.inr ⟨le_rfl, by simp⟩)⟩
  · obtain ⟨va, within, taken⟩ := full 20 (by decide) (by decide)
    exact absurd taken (second.free va within)

/-- Behind a fixed range that is close, `Allocate` returns an allocated address, and next to a fixed
range at the start it returns zero although there is room. -/
theorem allocate_occupied :
    (∃ s a, run params32 (⟨⟨[⟨0, false, ()⟩], 100, []⟩, 10, 10⟩, []) [.allocateFixed 20 10] =
      .ok s ∧ allocate params32 s.1 15 = .ok (20, a) ∧ Allocated params32 s.1.blocks 20) ∧
    ∃ s, run params32 (⟨⟨[⟨0, false, ()⟩], 100, []⟩, 10, 10⟩, []) [.allocateFixed 10 10] = .ok s ∧
      allocate params32 s.1 15 = .ok (0, s.1) ∧ FreeRun params32 s.1 20 15 := by
  refine ⟨⟨_, _, rfl, rfl, Option.some_ne_none _⟩,
    ⟨_, rfl, rfl, by decide, by decide, fun va within => ?_⟩⟩
  have behind : (20 : Nat) ≤ va := within.1
  exact mt (allocated_iff
    (show _ = [⟨0, false, ()⟩, ⟨10, true, ()⟩] ++ ⟨20, false, ()⟩ :: [] from rfl) behind
    (by simp)).mp (not_not.mpr rfl)

end Calls

end SumiEmu.Common.FlatAllocator
