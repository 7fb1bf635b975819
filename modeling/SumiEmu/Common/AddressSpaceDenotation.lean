/-
# The map that the blocks denote

A block speaks for the addresses up to the next one. What `MapLocked` leaves says
the same as before outside of the range, and so does what `UnmapLocked` leaves
away from its defects.
-/

import SumiEmu.Common.AddressSpaceUnmap

namespace SumiEmu.Common.AddressSpace

open Fallible Breakpoints List

variable {π ε : Type} [DecidableEq π] [AddAction ℕ π] {p : Params π} {virt virtEnd va : Nat}
  {before inside after xs ys tail hole rest : List (Block π ε)} {predecessor last b t : Block π ε}

/-- What a block says about an address. -/
def Params.translate (p : Params π) (va : Nat) (b : Block π ε) : Option (π × ε) :=
  if p.Unmapped b then none else some (p.physAt b va, b.extraInfo)

/-- The map from virtual addresses that the blocks denote. -/
def Params.denote (p : Params π) (blocks : List (Block π ε)) (va : Nat) : Option (π × ε) :=
  (lastAt Block.virt blocks va).bind (p.translate va)

section Denotation

theorem denote_append_of_none (none : lastAt Block.virt ys va = none) :
    p.denote (xs ++ ys) va = p.denote xs va := by
  rw [Params.denote, lastAt_append, none, Option.none_or]
  rfl

theorem denote_append_of_some (some : lastAt Block.virt ys va = some b) :
    p.denote (xs ++ ys) va = p.translate va b := by
  rw [Params.denote, lastAt_append, some, Option.some_or]
  rfl

/-- The last of some blocks that all start before an address speaks for it. -/
theorem denote_of_getLast? (earlier : ∀ b ∈ xs, b.virt ≤ va) (isLast : xs.getLast? = some b) :
    p.denote xs va = p.translate va b := by
  rw [Params.denote, lastAt_eq_getLast? earlier, isLast]
  rfl

theorem translate_of_unmapped (unmapped : p.Unmapped b) : p.translate va b = none := if_pos unmapped

/-- A tail goes on where the block that was cut left off. -/
theorem translate_cut (here : t.virt = virtEnd) (reach : last.virt ≤ virtEnd)
    (behind : virtEnd ≤ va)
    (unmapped : p.Unmapped last → p.Unmapped t)
    (mapped : ¬ p.Unmapped last → t.phys = p.physAt last virtEnd ∧ t.extraInfo = last.extraInfo)
    (regular : ¬ p.Unmapped last → p.physAt last virtEnd ≠ p.unmappedPa) :
    p.translate va t = p.translate va last := by
  by_cases unmapped' : p.Unmapped last
  · rw [translate_of_unmapped unmapped', translate_of_unmapped (unmapped unmapped')]
  · obtain ⟨phys, extraInfo⟩ := mapped unmapped'
    have mapped' : ¬ p.Unmapped t := fun same => regular unmapped' (phys ▸ same)
    have moved : p.physAt t va = p.physAt last va := by
      rw [Params.physAt, Params.physAt, here, phys, Params.physAt]
      split
      · rw [← add_vadd, Nat.sub_add_sub_cancel behind reach]
      · rfl
    rw [Params.translate, Params.translate, if_neg mapped', if_neg unmapped', moved, extraInfo]

/-- Behind the range nothing has changed. -/
theorem Tail.denote (ys : List (Block π ε)) (after' : Tail p last virtEnd after tail)
    (below : ∀ b ∈ xs, b.virt < virtEnd)
    (isLast : xs.getLast? = some last) (behind : virtEnd ≤ va)
    (regular : ¬ p.Unmapped last → (∀ b ∈ after, virtEnd < b.virt) →
      p.physAt last virtEnd ≠ p.unmappedPa) :
    p.denote (ys ++ (tail ++ after)) va = p.denote (xs ++ after) va := by
  cases found : lastAt Block.virt after va with
  | some b =>
    rw [← append_assoc, denote_append_of_some found, denote_append_of_some found]
  | none =>
    rw [← append_assoc, denote_append_of_none found, denote_append_of_none found,
      denote_of_getLast? (fun b member => (below b member).le.trans behind) isLast]
    cases after' with
    | none h rest here =>
      exact absurd (lastAt_eq_none_iff.mp found h mem_cons_self) (not_lt.mpr (here.le.trans behind))
    | cut _ t later here unmapped mapped =>
      have reach : last.virt ≤ virtEnd := (below last (mem_of_getLast? isLast)).le
      have first : lastAt Block.virt [t] va = some t := by
        rw [lastAt_eq_getLast? (by simpa [here] using behind)]
        rfl
      rw [denote_append_of_some first]
      exact translate_cut here reach behind unmapped mapped fun mapped => regular mapped later

omit [DecidableEq π] in
/-- The blocks after a range say nothing about the addresses before its end. -/
theorem Tail.later (after' : Tail p last virtEnd after tail)
    (above : ∀ b ∈ after, virtEnd ≤ b.virt) : ∀ b ∈ tail ++ after, virtEnd ≤ b.virt := by
  cases after' with
  | none => exact above
  | cut _ t _ here =>
    intro b member
    rcases mem_cons.mp member with rfl | member
    · exact here.ge
    · exact above b member

omit [AddAction ℕ π] [DecidableEq π] in
/-- An address before the range is not touched. -/
theorem lastAt_before (above : ∀ b ∈ ys, virt ≤ b.virt) (small : va < virt) :
    lastAt Block.virt ys va = none :=
  lastAt_eq_none fun b member => small.trans_le (above b member)

/-- The new block speaks for the addresses of its range, and for no others. -/
theorem denote_map {phys : π} {extraInfo : ε} (below : ∀ b ∈ before, b.virt < virt)
    (within : ∀ b ∈ inside, virt ≤ b.virt ∧ b.virt < virtEnd)
    (above : ∀ b ∈ after, virtEnd ≤ b.virt)
    (proper : virt < virtEnd) (isLast : (before ++ inside).getLast? = some last)
    (after' : Tail p last virtEnd after tail) (real : phys ≠ p.unmappedPa)
    (regular : ¬ p.Unmapped last → (∀ b ∈ after, virtEnd < b.virt) →
      p.physAt last virtEnd ≠ p.unmappedPa) (va : Nat) :
    p.denote (before ++ ⟨virt, phys, extraInfo⟩ :: (tail ++ after)) va =
      if virt ≤ va ∧ va < virtEnd then some (p.physAt ⟨virt, phys, extraInfo⟩ va, extraInfo)
      else p.denote (before ++ (inside ++ after)) va := by
  let new : Block π ε := ⟨virt, phys, extraInfo⟩
  have later := after'.later above
  rcases lt_or_ge va virt with small | large
  · have unread : lastAt Block.virt (new :: (tail ++ after)) va = none := by
      refine lastAt_before (fun b member => ?_) small
      rcases mem_cons.mp member with rfl | member
      · exact le_rfl
      · exact proper.le.trans (later b member)
    have unread' : lastAt Block.virt (inside ++ after) va = none := by
      refine lastAt_before (fun b member => ?_) small
      rcases mem_append.mp member with member | member
      · exact (within b member).1
      · exact proper.le.trans (above b member)
    rw [if_neg (by omega), denote_append_of_none unread, denote_append_of_none unread']
  · rcases lt_or_ge va virtEnd with small | behind
    · have read : lastAt Block.virt (new :: (tail ++ after)) va = some new := by
        rw [lastAt_cons, lastAt_before later small, if_pos large]
        rfl
      rw [if_pos ⟨large, small⟩, denote_append_of_some read]
      exact if_neg real
    · have earlier : ∀ b ∈ before ++ inside, b.virt < virtEnd := by
        intro b member
        rcases mem_append.mp member with member | member
        · exact (below b member).trans proper
        · exact (within b member).2
      have same := after'.denote (before ++ [new]) earlier isLast behind regular
      rw [if_neg (by omega), ← append_assoc, ← same, append_assoc]
      rfl

omit [DecidableEq π] [AddAction ℕ π] in
theorem Hole.lower (hole' : Hole p virt virtEnd predecessor inside hole) :
    ∀ b ∈ hole, virt ≤ b.virt := by
  cases hole' with
  | none => simp
  | one u _ lower => simpa using lower

omit [DecidableEq π] [AddAction ℕ π] in
theorem Hole.upper (hole' : Hole p virt virtEnd predecessor inside hole) :
    ∀ b ∈ hole, b.virt < virtEnd := by
  cases hole' with
  | none => simp
  | one u _ _ upper => simpa using upper

omit [DecidableEq π] [AddAction ℕ π] in
theorem Hole.sorted (hole' : Hole p virt virtEnd predecessor inside hole) :
    Ascending Block.virt hole := by
  cases hole' with
  | none => exact .nil
  | one u => exact pairwise_singleton ..

/-- Nothing is left of the range. -/
theorem denote_hole (hole' : Hole p virt virtEnd predecessor inside hole)
    (below : ∀ b ∈ before ++ [predecessor], b.virt < virt) (reach : virt ≤ va) :
    p.denote (before ++ predecessor :: hole) va = none := by
  have read : lastAt Block.virt [predecessor] va = some predecessor := by
    rw [lastAt_eq_getLast? (by simpa using (below predecessor (by simp)).le.trans reach)]
    rfl
  cases hole' with
  | none unmapped =>
    rw [denote_append_of_some read, translate_of_unmapped unmapped]
  | one u unmapped lower upper starts =>
    rw [← singleton_append, ← append_assoc]
    by_cases here : u.virt ≤ va
    · have read' : lastAt Block.virt [u] va = some u := by
        rw [lastAt_eq_getLast? (by simpa using here)]
        rfl
      rw [denote_append_of_some read', translate_of_unmapped unmapped]
    · have unread : lastAt Block.virt [u] va = none := lastAt_eq_none (by simpa using here)
      have unmapped' : p.Unmapped predecessor := by
        by_contra mapped
        exact here ((starts mapped).trans_le reach)
      rw [denote_append_of_none unread, denote_append_of_some read, translate_of_unmapped unmapped']

omit [DecidableEq π] in
theorem Rest.later (after' : Rest p virtEnd last after rest)
    (above : ∀ b ∈ after, virtEnd ≤ b.virt) : ∀ b ∈ rest, virtEnd ≤ b.virt := by
  cases after' with
  | unmapped => exact above
  | merged u rest => exact fun b member => above b (mem_cons_of_mem u member)
  | tail _ tail tail' => exact tail'.later above

/-- The addresses of the range are cleared, and no others. -/
theorem denote_unmap (below : ∀ b ∈ before ++ [predecessor], b.virt < virt)
    (within : ∀ b ∈ inside, virt ≤ b.virt ∧ b.virt < virtEnd)
    (above : ∀ b ∈ after, virtEnd ≤ b.virt)
    (proper : virt < virtEnd) (isLast : (predecessor :: inside).getLast? = some last)
    (hole' : Hole p virt virtEnd predecessor inside hole) (after' : Rest p virtEnd last after rest)
    (regular : ¬ p.Unmapped last → (∀ b ∈ after, virtEnd < b.virt) →
      p.physAt last virtEnd ≠ p.unmappedPa) (va : Nat) :
    p.denote (before ++ predecessor :: (hole ++ rest)) va =
      if virt ≤ va ∧ va < virtEnd then none
      else p.denote (before ++ predecessor :: (inside ++ after)) va := by
  have later := after'.later above
  have isLast' : (before ++ predecessor :: inside).getLast? = some last := by
    rw [List.getLast?_append, isLast]
    rfl
  rcases lt_or_ge va virt with small | large
  · have unread : lastAt Block.virt (hole ++ rest) va = none := by
      refine lastAt_before (fun b member => ?_) small
      rcases mem_append.mp member with member | member
      · exact hole'.lower b member
      · exact proper.le.trans (later b member)
    have unread' : lastAt Block.virt (inside ++ after) va = none := by
      refine lastAt_before (fun b member => ?_) small
      rcases mem_append.mp member with member | member
      · exact (within b member).1
      · exact proper.le.trans (above b member)
    rw [if_neg (by omega), append_cons, append_cons before predecessor (inside ++ after),
      denote_append_of_none unread, denote_append_of_none unread']
  · have cleared := denote_hole hole' below large
    rcases lt_or_ge va virtEnd with small | behind
    · rw [if_pos ⟨large, small⟩, ← cons_append, ← append_assoc,
        denote_append_of_none (lastAt_before later small), cleared]
    · have earlier : ∀ b ∈ before ++ predecessor :: inside, b.virt < virtEnd := by
        intro b member
        rw [append_cons] at member
        rcases mem_append.mp member with member | member
        · exact (below b member).trans proper
        · exact (within b member).2
      have old : p.denote (before ++ predecessor :: inside) va = p.translate va last :=
        denote_of_getLast? (fun b member => (earlier b member).le.trans behind) isLast'
      rw [if_neg (by omega), ← cons_append, ← cons_append, ← append_assoc,
        ← append_assoc]
      cases after' with
      | unmapped _ unmapped =>
        cases found : lastAt Block.virt after va with
        | some b => rw [denote_append_of_some found, denote_append_of_some found]
        | none =>
          rw [denote_append_of_none found, denote_append_of_none found, cleared, old,
            translate_of_unmapped unmapped]
      | merged u rest here unmapped =>
        have read : lastAt Block.virt (u :: rest) va = (lastAt Block.virt rest va).or (some u) := by
          rw [lastAt_cons, if_pos (here.le.trans behind)]
        cases found : lastAt Block.virt rest va with
        | some b =>
          rw [found] at read
          rw [denote_append_of_some found, denote_append_of_some read]
        | none =>
          rw [found] at read
          rw [denote_append_of_none found, denote_append_of_some read, cleared,
            translate_of_unmapped unmapped]
      | tail _ tail tail' => exact tail'.denote _ earlier isLast' behind regular

end Denotation

end SumiEmu.Common.AddressSpace
