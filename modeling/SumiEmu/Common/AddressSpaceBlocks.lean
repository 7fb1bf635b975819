/-
# What the operations do to the blocks

A range cuts the vector into the blocks before it, those that start inside it,
and those after it. Where no block starts at the end of the range, the last one
before the end goes on behind it, and the operations leave a tail of it there.
-/

import SumiEmu.Common.AddressSpace

namespace SumiEmu.Common.AddressSpace

open Fallible Breakpoints List Nat

variable {π ε : Type} {blocks before inside after xs ys : List (Block π ε)} {b last t : Block π ε}
  {virt virtEnd : Nat}

section Vector

@[simp] theorem deref_append : deref (xs ++ b :: ys) xs.length = .ok b := by
  simp [deref]

@[simp] theorem prev_succ (i : Nat) : prev (i + 1) = .ok i := rfl

@[simp] theorem insert_append (xs ys new : List (Block π ε)) :
    insert (xs ++ ys) xs.length new = xs ++ (new ++ ys) := by
  simp [insert]

@[simp] theorem set_append (c : Block π ε) : (xs ++ b :: ys).set xs.length c = xs ++ c :: ys := by
  simp

theorem erase_append (xs mid ys : List (Block π ε)) :
    erase (xs ++ (mid ++ ys)) xs.length (xs.length + mid.length) = xs ++ ys := by
  simp [erase, drop_append]

/-- Nothing is erased when there is nothing between. -/
theorem erase_of_ne {i j : Nat} :
    (if i ≠ j then erase blocks i j else blocks) = erase blocks i j := by
  by_cases same : i = j <;> simp [same, erase]

theorem erase_behind (xs : List (Block π ε)) (b : Block π ε) (mid ys : List (Block π ε)) :
    erase (xs ++ (b :: mid ++ ys)) (xs.length + 1) (xs.length + (b :: mid).length) =
      xs ++ b :: ys := by
  have := erase_append (xs ++ [b]) mid ys
  simpa [add_assoc, add_comm 1] using this

theorem lowerBound_append (xs ys : List (Block π ε)) (below : ∀ b ∈ xs, b.virt < virtEnd)
    (above : ∀ b ∈ ys, virtEnd ≤ b.virt) : lowerBound (xs ++ ys) virtEnd = xs.length :=
  Breakpoints.findIdx_append Block.virt below above

/-- When no block starts at the end of the range, all blocks after it start later. -/
theorem later_of_ne {h : Block π ε} (above : ∀ b ∈ h :: after, virtEnd ≤ b.virt)
    (sorted : Ascending Block.virt (h :: after)) (away : h.virt ≠ virtEnd) :
    ∀ b ∈ h :: after, virtEnd < b.virt := by
  have first : virtEnd < h.virt := lt_of_le_of_ne (above h mem_cons_self) (Ne.symm away)
  intro b member
  rcases mem_cons.mp member with rfl | member
  · exact first
  · exact first.trans ((pairwise_cons.mp sorted).1 b member)

@[simp] theorem assert_of {condition : Prop} [Decidable condition] (holds : condition) :
    assert condition = .ok () := if_pos holds

/-- The walk stops behind the last block that starts before the range. -/
theorem walkToSuccessor_eq (some : before ≠ []) (below : ∀ b ∈ before, b.virt < virt)
    (within : ∀ b ∈ inside, virt ≤ b.virt) :
    walkToSuccessor (before ++ (inside ++ after)) virt (before.length + inside.length) =
      .ok before.length := by
  induction inside using reverseRecOn generalizing after with
  | nil =>
    rcases eq_nil_or_concat before with rfl | ⟨init, b, rfl⟩
    · exact absurd rfl some
    · have small : ¬ virt ≤ b.virt := not_le.mpr (below b (by simp))
      simp [walkToSuccessor, small]
  | append_singleton init b ih =>
    have large : virt ≤ b.virt := within b (by simp)
    have read : deref (before ++ (init ++ [b] ++ after)) (before.length + init.length) = .ok b := by
      rw [← length_append, ← append_assoc, ← append_assoc, append_assoc _ [b]]
      exact deref_append
    rw [length_append, length_singleton, ← add_assoc, walkToSuccessor, read, ok_bind,
      if_pos large, append_assoc]
    exact ih fun c member => within c (by simp [member])

/-- The walk stops at the last block that starts before the range. -/
theorem walkBackToPredecessor_eq (before inside after : List (Block π ε)) (below : b.virt < virt)
    (within : ∀ b ∈ inside, virt ≤ b.virt) :
    walkBackToPredecessor (before ++ b :: (inside ++ after)) virt (before.length + inside.length) =
      .ok before.length := by
  induction inside using reverseRecOn generalizing after with
  | nil =>
    unfold walkBackToPredecessor
    simp [not_le.mpr below]
  | append_singleton init c ih =>
    have large : virt ≤ c.virt := within c (by simp)
    have read : deref (before ++ b :: (init ++ [c] ++ after)) (before.length + init.length + 1) =
        .ok c := by
      have place : before.length + init.length + 1 = (before ++ b :: init).length := by
        simp [add_assoc]
      rw [place, show before ++ b :: (init ++ [c] ++ after) =
        (before ++ b :: init) ++ c :: after by simp]
      exact deref_append
    rw [length_append, length_singleton, ← add_assoc, walkBackToPredecessor, read,
      ok_bind, if_pos large, append_assoc]
    exact ih _ fun d member => within d (by simp [member])

end Vector

section Map

variable [DecidableEq π] [AddAction ℕ π] {p : Params π} {vaLimit : Nat}

/-- What follows the range: nothing new when a block starts at its end, or else a tail of the last
block that starts before the end. -/
inductive Tail (p : Params π) (last : Block π ε) (virtEnd : Nat) :
    List (Block π ε) → List (Block π ε) → Prop
  | none (h : Block π ε) (rest : List (Block π ε)) (here : h.virt = virtEnd) :
      Tail p last virtEnd (h :: rest) []
  | cut (after : List (Block π ε)) (t : Block π ε) (later : ∀ b ∈ after, virtEnd < b.virt)
      (here : t.virt = virtEnd) (unmapped : p.Unmapped last → p.Unmapped t)
      (mapped : ¬ p.Unmapped last → t.phys = p.physAt last virtEnd ∧ t.extraInfo = last.extraInfo) :
      Tail p last virtEnd after [t]

omit [DecidableEq π] [AddAction ℕ π] in
/-- The blocks that start inside the range give way to the new one. -/
theorem mapStart_eq {phys : π} {extraInfo : ε} (some : before ≠ [])
    (below : ∀ b ∈ before, b.virt < virt) (within : ∀ b ∈ inside, virt ≤ b.virt ∧ b.virt < virtEnd)
    (here : t.virt = virtEnd) :
    mapStart (before ++ (inside ++ t :: after)) virt phys extraInfo virtEnd
      (before.length + inside.length) = .ok (before ++ ⟨virt, phys, extraInfo⟩ :: t :: after) := by
  rw [mapStart, walkToSuccessor_eq some below fun b member => (within b member).1, ok_bind]
  cases inside with
  | nil => simp [here]
  | cons b rest =>
    obtain ⟨-, small⟩ := within b mem_cons_self
    have read : deref (before ++ (b :: rest ++ t :: after)) before.length = .ok b := deref_append
    rw [read, ok_bind, if_neg (not_lt.mpr small.le), if_neg small.ne]
    show Except.ok ((if _ then _ else _ : List (Block π ε)).set _ _) = _
    rw [erase_of_ne, erase_behind, set_append]

/-- `MapLocked` leaves the new block between the blocks before the range and those after it. -/
theorem mapBlocks_eq [Inhabited ε] {size : Nat} (phys : π) (extraInfo : ε) (some : before ≠ [])
    (below : ∀ b ∈ before, b.virt < virt) (within : ∀ b ∈ inside, virt ≤ b.virt ∧ b.virt < virtEnd)
    (above : ∀ b ∈ after, virtEnd ≤ b.virt) (sorted : Ascending Block.virt after)
    (end' : p.add virt size = virtEnd) (proper : virt < virtEnd) (limit : virtEnd ≤ vaLimit)
    (isLast : (before ++ inside).getLast? = .some last) (ended : after = [] → p.Unmapped last) :
    ∃ tail, Tail p last virtEnd after tail ∧
      mapBlocks p vaLimit (before ++ (inside ++ after)) virt phys size extraInfo =
        .ok (before ++ ⟨virt, phys, extraInfo⟩ :: (tail ++ after)) := by
  have earlier : ∀ b ∈ before ++ inside, b.virt < virtEnd := by
    intro b member
    rcases mem_append.mp member with member | member
    · exact (below b member).trans proper
    · exact (within b member).2
  obtain ⟨pre, split⟩ := getLast?_eq_some_iff.mp isLast
  have place : lowerBound (before ++ (inside ++ after)) virtEnd = pre.length + 1 := by
    rw [← append_assoc, lowerBound_append _ _ earlier above, split]
    simp
  have read : deref (before ++ (inside ++ after)) pre.length = .ok last := by
    rw [← append_assoc, split, append_assoc]
    exact deref_append
  rw [mapBlocks, end', place]
  simp only [assert_of limit, assert_of (succ_ne_zero _), ok_bind, prev_succ, read]
  have next : ∀ h rest, after = h :: rest →
      pre.length + 1 ≠ (before ++ (inside ++ after)).length ∧
      deref (before ++ (inside ++ after)) (pre.length + 1) = .ok h := by
    rintro h rest rfl
    have whole : before ++ (inside ++ h :: rest) = (pre ++ [last]) ++ h :: rest := by
      rw [← split, append_assoc]
    have place : pre.length + 1 = (pre ++ [last]).length := by simp
    rw [whole, place]
    exact ⟨by simp, deref_append⟩
  have final : after = [] → ¬ pre.length + 1 ≠ (before ++ (inside ++ after)).length := by
    rintro rfl
    rw [append_nil, split]
    simp
  let tail : Block π ε := ⟨virtEnd, if p.Unmapped last then last.phys else p.physAt last virtEnd,
    last.extraInfo⟩
  have cut : (∀ b ∈ after, virtEnd < b.virt) → Tail p last virtEnd after [tail] := fun later =>
    .cut after tail later rfl (fun unmapped => (if_pos unmapped).trans unmapped)
      fun mapped => ⟨if_neg mapped, rfl⟩
  -- either the last block starts inside the range and is moved, or two blocks are inserted
  have split' : (¬ (pre.length ≠ 0 ∧ virt ≤ last.virt) ∧
      ∀ new, insert (before ++ (inside ++ after)) (pre.length + 1) new = before ++ (new ++ after)) ∨
      ((pre.length ≠ 0 ∧ virt ≤ last.virt) ∧ ∀ t : Block π ε, t.virt = virtEnd →
        mapStart ((before ++ (inside ++ after)).set pre.length t) virt phys extraInfo virtEnd
          pre.length = .ok (before ++ ⟨virt, phys, extraInfo⟩ :: t :: after)) := by
    rcases eq_nil_or_concat inside with rfl | ⟨init, last', rfl⟩
    · refine .inl ⟨fun large => ?_, fun new => ?_⟩
      · exact absurd large.2 (not_le.mpr (below last (mem_of_getLast? (by simpa using isLast))))
      · have place : pre.length + 1 = before.length := by
          rw [← append_nil before, split]
          simp
        rw [place]
        exact insert_append _ _ new
    · rw [concat_eq_append] at within split
      obtain ⟨rfl, same⟩ := append_inj' ((append_assoc ..).trans split) rfl
      cases same
      have some' : before.length ≠ 0 := by simpa using some
      refine .inr ⟨⟨by simp [some'], (within last (by simp)).1⟩, fun t here => ?_⟩
      have moved : (before ++ (init.concat last ++ after)).set (before ++ init).length t =
          before ++ (init ++ t :: after) := by
        simp
      rw [moved, length_append]
      exact mapStart_eq some below (fun b member => within b (by simp [member])) here
  cases after with
  | nil =>
    rw [if_neg (final rfl)]
    rcases split' with ⟨keep, inserted⟩ | ⟨move, moved⟩
    · refine ⟨_, .cut [] ⟨virtEnd, p.unmappedPa, default⟩ (by simp) rfl (fun _ => rfl)
        fun mapped => absurd (ended rfl) mapped, ?_⟩
      rw [if_neg keep, inserted]
      rfl
    · refine ⟨_, .cut [] { last with virt := virtEnd } (by simp) rfl id
        fun mapped => absurd (ended rfl) mapped, ?_⟩
      rw [if_pos move, moved _ rfl]
      rfl
  | cons h rest =>
    obtain ⟨more, read'⟩ := next h rest rfl
    rw [if_pos more, read', ok_bind]
    by_cases here : h.virt = virtEnd
    · have place : pre.length + 1 = before.length + inside.length := by
        rw [← length_append, split]
        simp
      refine ⟨[], .none h rest here, ?_⟩
      rw [if_neg (not_not.mpr here), place, mapStart_eq some below within here]
      rfl
    · have later := later_of_ne above sorted here
      refine ⟨[tail], cut later, ?_⟩
      rcases split' with ⟨keep, inserted⟩ | ⟨move, moved⟩
      · rw [if_pos here, if_neg keep, inserted]
        rfl
      · rw [if_pos here, if_pos move, moved tail rfl]
        rfl

end Map

section Unmap

variable [DecidableEq π] [AddAction ℕ π] [Inhabited ε] {p : Params π} {vaLimit : Nat}
  {predecessor : Block π ε} {rest mid init : List (Block π ε)}

omit [DecidableEq π] [AddAction ℕ π] [Inhabited ε] in
/-- The block behind some others is read. -/
theorem deref_behind (before : List (Block π ε)) (predecessor : Block π ε) (mid : List (Block π ε))
    (last : Block π ε) (rest : List (Block π ε)) :
    deref (before ++ predecessor :: (mid ++ last :: rest))
    (before.length + (mid.length + 1)) = .ok last := by
  have place : before.length + (mid.length + 1) = (before ++ predecessor :: mid).length := by simp
  rw [place, show before ++ predecessor :: (mid ++ last :: rest) =
    (before ++ predecessor :: mid) ++ last :: rest by simp]
  exact deref_append

omit [DecidableEq π] [AddAction ℕ π] [Inhabited ε] in
theorem walkBackToPredecessor_behind (before : List (Block π ε)) (last : Block π ε)
    (rest : List (Block π ε)) (below : predecessor.virt < virt)
    (within : ∀ b ∈ mid, virt ≤ b.virt) (ends : virt ≤ last.virt) :
    walkBackToPredecessor (before ++ predecessor :: (mid ++ last :: rest)) virt
      (before.length + (mid.length + 1)) = .ok before.length := by
  have walk := walkBackToPredecessor_eq before (mid ++ [last]) rest below fun b member => by
      rcases mem_append.mp member with member | member
      · exact within b member
      · rwa [mem_singleton.mp member]
  simpa only [append_assoc, singleton_append, length_append, length_singleton]
    using walk

omit [AddAction ℕ π] [Inhabited ε] in
/-- An unmapped predecessor takes over everything up to the end of the unmapped block. -/
theorem eraseBlocksWithEndUnmapped_unmapped (before : List (Block π ε)) (last : Block π ε)
    (rest : List (Block π ε)) (below : predecessor.virt < virt)
    (within : ∀ b ∈ mid, virt ≤ b.virt) (ends : virt ≤ last.virt)
    (unmapped : p.Unmapped predecessor)
    (mapped : ∀ b ∈ rest.head?, ¬ p.Unmapped b) :
    eraseBlocksWithEndUnmapped p (before ++ predecessor :: (mid ++ last :: rest)) virt
      (before.length + (mid.length + 1)) = .ok (before ++ predecessor :: rest) := by
  have next : (before ++ predecessor :: (mid ++ last :: rest))[before.length + (mid.length + 1) +
    1]? = rest.head? := by
    rw [Nat.add_assoc, getElem?_append_right (by simp), Nat.add_sub_cancel_left,
      getElem?_cons_succ, getElem?_append_right (by simp), Nat.add_sub_cancel_left]
    cases rest <;> rfl
  have alone : (rest.head?.any fun b => decide (p.Unmapped b)) = false := by
    rw [Option.any_eq_false]
    simpa using mapped
  have erased : erase (before ++ predecessor :: (mid ++ last :: rest)) (before.length + 1)
      (before.length + (mid.length + 1) + 1) = before ++ predecessor :: rest := by
    have := erase_behind before predecessor (mid ++ [last]) rest
    simpa [add_assoc] using this
  rw [eraseBlocksWithEndUnmapped, walkBackToPredecessor_behind before last rest below within ends,
    ok_bind, deref_append, ok_bind, deref_behind, ok_bind]
  simp only [if_pos unmapped, next, alone]
  rw [assert_of (by simp), ok_bind, erased]
  rfl

omit [AddAction ℕ π] [Inhabited ε] in
/-- Behind a mapped predecessor, the unmapped block moves back to the start of the range. -/
theorem eraseBlocksWithEndUnmapped_mapped (before : List (Block π ε)) (last : Block π ε)
    (rest : List (Block π ε)) (some : mid ≠ []) (below : predecessor.virt < virt)
    (within : ∀ b ∈ mid, virt ≤ b.virt) (ends : virt ≤ last.virt)
    (mapped : ¬ p.Unmapped predecessor) :
    eraseBlocksWithEndUnmapped p (before ++ predecessor :: (mid ++ last :: rest)) virt
      (before.length + (mid.length + 1)) =
        .ok (before ++ predecessor :: { last with virt := virt } :: rest) := by
  have moved : (before ++ predecessor :: (mid ++ last :: rest)).set
    (before.length + (mid.length + 1))
      { last with virt := virt } = before ++ predecessor ::
          (mid ++ { last with virt := virt } :: rest) := by
    simp
  have erased : erase (before ++ predecessor :: (mid ++ { last with virt := virt } :: rest))
      (before.length + 1) (before.length + (mid.length + 1)) =
        before ++ predecessor :: { last with virt := virt } :: rest := by
    have := erase_behind before predecessor mid ({ last with virt := virt } :: rest)
    simpa using this
  rw [eraseBlocksWithEndUnmapped, walkBackToPredecessor_behind before last rest below within ends,
    ok_bind, deref_append, ok_bind, deref_behind, ok_bind]
  simp only [if_neg mapped, moved]
  rw [assert_of (by simp [some, mapped]), ok_bind, erased]
  rfl

omit [AddAction ℕ π] in
/-- No block starts inside the range. -/
theorem unmapStart_nil (before : List (Block π ε)) (t : Block π ε) (rest : List (Block π ε))
    (below : predecessor.virt < virt) (proper : virt < virtEnd)
    (here : t.virt = virtEnd) (i : Nat) :
    unmapStart p (before ++ predecessor :: t :: rest) virt virtEnd (before.length + 1) i =
      .ok (before ++ predecessor ::
        ((if p.Unmapped predecessor then [] else [⟨virt, p.unmappedPa, default⟩]) ++ t :: rest)) :=
        by
  have walk := @walkBackToPredecessor_behind _ _ virt predecessor [] before t rest below (by simp)
    (by omega)
  have read := deref_behind before predecessor [] t rest
  simp only [nil_append, length_nil, zero_add] at walk read
  rw [unmapStart, walk, ok_bind, deref_append, ok_bind, read, ok_bind, if_neg (by omega),
    if_pos here]
  by_cases unmapped : p.Unmapped predecessor
  · rw [if_pos unmapped, if_pos unmapped]
    rfl
  · have inserted := insert_append (before ++ [predecessor]) (t :: rest)
      [⟨virt, p.unmappedPa, default⟩]
    rw [if_neg unmapped, if_neg unmapped]
    simpa using inserted

omit [AddAction ℕ π] in
/-- Behind a mapped predecessor, the first block of the range becomes the unmapped one. -/
theorem unmapStart_mapped (before : List (Block π ε)) (t : Block π ε) (rest : List (Block π ε))
    {first : Block π ε} (below : predecessor.virt < virt)
    (within : ∀ b ∈ first :: mid, virt ≤ b.virt ∧ b.virt < virtEnd) (here : t.virt = virtEnd)
    (mapped : ¬ p.Unmapped predecessor) (i : Nat) :
    unmapStart p (before ++ predecessor :: (first :: mid ++ t :: rest)) virt virtEnd
      (before.length + ((first :: mid).length + 1)) i =
      .ok (before ++ predecessor :: { first with virt := virt, phys := p.unmappedPa } :: t ::
        rest) := by
  obtain ⟨-, small⟩ := within first mem_cons_self
  have walk := walkBackToPredecessor_behind before t rest below
    (fun b member => (within b member).1) (by have := within first mem_cons_self; omega)
  have read : deref (before ++ predecessor :: (first :: mid ++ t :: rest)) (before.length + 1) =
      .ok first := deref_behind before predecessor [] first _
  have erased : erase (before ++ predecessor :: (first :: mid ++ t :: rest)) (before.length + 1 + 1)
      (before.length + ((first :: mid).length + 1)) =
        before ++ predecessor :: first :: t :: rest := by
    have := erase_behind (before ++ [predecessor]) first mid (t :: rest)
    simpa [add_assoc, add_comm 1] using this
  rw [unmapStart, walk, ok_bind, deref_append, ok_bind, read, ok_bind, if_neg (by omega),
    if_neg (by omega), if_neg mapped]
  show Except.ok ((if _ then _ else _ : List (Block π ε)).set _ _) = _
  rw [erase_of_ne, erased]
  simp

omit [AddAction ℕ π] in
/-- Behind an unmapped predecessor, the last block that starts inside the range is left. -/
theorem unmapStart_unmapped (before : List (Block π ε)) (t : Block π ε) (rest : List (Block π ε))
    (below : predecessor.virt < virt)
    (within : ∀ b ∈ init ++ [last], virt ≤ b.virt ∧ b.virt < virtEnd) (here : t.virt = virtEnd)
    (unmapped : p.Unmapped predecessor) :
    unmapStart p (before ++ predecessor :: (init ++ last :: t :: rest)) virt virtEnd
      (before.length + (init.length + 2)) (before.length + (init.length + 1)) =
      .ok (before ++ predecessor :: last :: t :: rest) := by
  have walk : walkBackToPredecessor (before ++ predecessor :: (init ++ last :: t :: rest)) virt
      (before.length + (init.length + 2)) = .ok before.length := by
    have proper := within last (by simp)
    have := walkBackToPredecessor_behind before t rest below
      (fun b member => (within b member).1) (by omega)
    simpa using this
  obtain ⟨first, member, read⟩ : ∃ first ∈ init ++ [last],
      deref (before ++ predecessor :: (init ++ last :: t :: rest)) (before.length + 1) =
      .ok first := by
    cases init with
    | nil => exact ⟨last, by simp, deref_behind before predecessor [] last _⟩
    | cons first init => exact ⟨first, by simp, deref_behind before predecessor [] first _⟩
  obtain ⟨-, small⟩ := within first member
  have erased : erase (before ++ predecessor :: (init ++ last :: t :: rest)) (before.length + 1)
      (before.length + (init.length + 1)) = before ++ predecessor :: last :: t :: rest := by
    have := erase_append (before ++ [predecessor]) init (last :: t :: rest)
    simpa [add_assoc, add_comm 1] using this
  rw [unmapStart, walk, ok_bind, deref_append, ok_bind, read, ok_bind, if_neg (by omega),
    if_neg (by omega), if_pos unmapped, erased]
  rfl

end Unmap

end SumiEmu.Common.AddressSpace
