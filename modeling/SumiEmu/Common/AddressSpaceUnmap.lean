/-
# What unmapping leaves

`UnmapLocked` clears its range, except where an assertion fires though nothing
is wrong, or where a mapped block is left standing.
-/

import SumiEmu.Common.AddressSpaceBlocks

namespace SumiEmu.Common.AddressSpace

open Fallible Breakpoints Nat List

variable {π ε : Type} [DecidableEq π] [AddAction ℕ π] {p : Params π} {vaLimit virt virtEnd : Nat}
  {before inside after : List (Block π ε)} {predecessor last : Block π ε}

/-- Where `UnmapLocked` goes wrong, by the last block before the range, the blocks that start inside
the range, and those after it. -/
inductive UnmapMisses (p : Params π) (virt virtEnd : Nat) :
    Block π ε → List (Block π ε) → List (Block π ε) → Prop
  /-- The range cuts off the end of a mapping, and goes on in the unmapped block behind it. The
  assertion on contiguous unmapped regions fires. -/
  | end (predecessor u : Block π ε) (after : List (Block π ε)) (mapped : ¬ p.Unmapped predecessor)
      (unmapped : p.Unmapped u) (behind : virt < u.virt) : UnmapMisses p virt virtEnd predecessor
        [u] after
  /-- The range cuts off the end of a mapping, and ends with it. The same assertion fires. -/
  | endAtEnd (predecessor u : Block π ε) (rest : List (Block π ε))
      (mapped : ¬ p.Unmapped predecessor) (unmapped : p.Unmapped u)
      (here : u.virt = virtEnd) : UnmapMisses p virt virtEnd predecessor [] (u :: rest)
  /-- The last block of the range is mapped, and another mapping follows at once. The last block
  is not erased. -/
  | kept (predecessor last next : Block π ε) (init rest : List (Block π ε))
      (unmapped : p.Unmapped predecessor) (mapped : ¬ p.Unmapped last) (here : next.virt = virtEnd)
      (follows : ¬ p.Unmapped next) :
      UnmapMisses p virt virtEnd predecessor (init ++ [last]) (next :: rest)
  /-- The last block of the range is mapped and is cut, and so is the one in front of it, which is
  not erased. -/
  | keptFront (predecessor front last : Block π ε) (init after : List (Block π ε))
      (unmapped : p.Unmapped predecessor) (kept : ¬ p.Unmapped front) (mapped : ¬ p.Unmapped last)
      (later : ∀ b ∈ after, virtEnd < b.virt) :
      UnmapMisses p virt virtEnd predecessor (init ++ [front, last]) after
  /-- There are two unmapped blocks in a row. -/
  | contiguous (predecessor u next : Block π ε) (init rest : List (Block π ε))
      (unmapped : p.Unmapped predecessor) (unmapped' : p.Unmapped u) (behind : virt < u.virt)
      (follows : p.Unmapped next) :
      UnmapMisses p virt virtEnd predecessor (init ++ [u]) (next :: rest)
  | contiguousAtEnd (predecessor last u next : Block π ε) (init rest : List (Block π ε))
      (unmapped : p.Unmapped predecessor) (mapped : ¬ p.Unmapped last) (unmapped' : p.Unmapped u)
      (here : u.virt = virtEnd) (follows : p.Unmapped next) :
      UnmapMisses p virt virtEnd predecessor (init ++ [last]) (u :: next :: rest)

/-- What is left of the range: at most one unmapped block. Behind an unmapped predecessor it was
there before. -/
inductive Hole (p : Params π) (virt virtEnd : Nat) (predecessor : Block π ε)
    (inside : List (Block π ε)) : List (Block π ε) → Prop
  | none (unmapped : p.Unmapped predecessor) : Hole p virt virtEnd predecessor inside []
  | one (u : Block π ε) (unmapped : p.Unmapped u) (lower : virt ≤ u.virt) (upper : u.virt < virtEnd)
      (starts : ¬ p.Unmapped predecessor → u.virt = virt)
        (kept : p.Unmapped predecessor → u ∈ inside) : Hole p virt virtEnd predecessor inside [u]

omit [DecidableEq π] [AddAction ℕ π] in
/-- An unmapped block at the start of the range. -/
theorem Hole.start {u : Block π ε} (unmapped : p.Unmapped u) (here : u.virt = virt)
    (proper : virt < virtEnd) (mapped : ¬ p.Unmapped predecessor) :
    Hole p virt virtEnd predecessor inside [u] :=
  .one u unmapped here.ge (here.trans_lt proper) (fun _ => here) fun unmapped' =>
    absurd unmapped' mapped

/-- What is left behind the range. -/
inductive Rest (p : Params π) (virtEnd : Nat) (last : Block π ε) :
    List (Block π ε) → List (Block π ε) → Prop
  | unmapped (after : List (Block π ε)) (unmapped : p.Unmapped last) : Rest p virtEnd last after
      after
  /-- The unmapped block behind the range becomes a part of it. -/
  | merged (u : Block π ε) (rest : List (Block π ε)) (here : u.virt = virtEnd)
      (unmapped : p.Unmapped u) : Rest p virtEnd last (u :: rest) rest
  | tail (after tail : List (Block π ε)) (tail' : Tail p last virtEnd after tail)
      (follows : ∀ b ∈ after.head?, b.virt = virtEnd → ¬ p.Unmapped b) :
      Rest p virtEnd last after (tail ++ after)

section Reads

variable [Inhabited ε] {blocks : List (Block π ε)} {size i : Nat} {h : Block π ε}

/-- The last block before the end of the range is unmapped. -/
theorem unmapBlocks_unmapped (end' : p.add virt size = virtEnd) (limit : virtEnd ≤ vaLimit)
    (place : lowerBound blocks virtEnd = i + 1) (read : deref blocks i = .ok last)
    (unmapped : p.Unmapped last) :
    unmapBlocks p vaLimit blocks virt size =
      if virt < last.virt then eraseBlocksWithEndUnmapped p blocks virt i else .ok blocks := by
  rw [unmapBlocks, end', place]
  simp only [assert_of limit, assert_of (succ_ne_zero _), ok_bind, prev_succ, read, if_pos unmapped]
  rfl

/-- The last block before the end of the range is mapped, and ends where another one starts. -/
theorem unmapBlocks_mapped (end' : p.add virt size = virtEnd) (limit : virtEnd ≤ vaLimit)
    (place : lowerBound blocks virtEnd = i + 1) (read : deref blocks i = .ok last)
    (mapped : ¬ p.Unmapped last) (read' : deref blocks (i + 1) = .ok h) (here : h.virt = virtEnd) :
    unmapBlocks p vaLimit blocks virt size =
      if p.Unmapped h then eraseBlocksWithEndUnmapped p blocks virt (i + 1)
      else unmapStart p blocks virt virtEnd (i + 1) i := by
  rw [unmapBlocks, end', place]
  simp only [assert_of limit, assert_of (succ_ne_zero _), ok_bind, prev_succ, read, read',
    if_neg mapped, here, true_and, ne_eq, not_true, if_false]

/-- The last block before the end of the range is mapped, and goes on behind it. -/
theorem unmapBlocks_cut (end' : p.add virt size = virtEnd) (limit : virtEnd ≤ vaLimit)
    (place : lowerBound blocks virtEnd = i + 1) (read : deref blocks i = .ok last)
    (mapped : ¬ p.Unmapped last) (read' : deref blocks (i + 1) = .ok h) (later : h.virt ≠ virtEnd) :
    unmapBlocks p vaLimit blocks virt size =
      if virt ≤ last.virt then do
        let i' ← prev i
        unmapStart p (blocks.set i { last with virt := virtEnd, phys := p.physAt last virtEnd })
          virt virtEnd i i'
      else .ok (insert blocks (i + 1) [⟨virt, p.unmappedPa, default⟩,
        ⟨virtEnd, p.physAt last virtEnd, last.extraInfo⟩]) := by
  rw [unmapBlocks, end', place]
  simp only [assert_of limit, assert_of (succ_ne_zero _), ok_bind, prev_succ, read, read',
    if_neg mapped, later, false_and, if_false, ne_eq, not_false_eq_true, if_true]
  rfl

end Reads

section Range

variable [Inhabited ε] {size : Nat} {init : List (Block π ε)} {h : Block π ε}
    {rest : List (Block π ε)}

omit [DecidableEq π] [AddAction ℕ π] [Inhabited ε] in
/-- Where the binary search stops. -/
theorem lowerBound_range (below : ∀ b ∈ before ++ [predecessor], b.virt < virt)
    (within : ∀ b ∈ inside, virt ≤ b.virt ∧ b.virt < virtEnd)
    (above : ∀ b ∈ after, virtEnd ≤ b.virt)
    (proper : virt < virtEnd) :
    lowerBound (before ++ predecessor :: (inside ++ after)) virtEnd =
      before.length + inside.length + 1 := by
  have earlier : ∀ b ∈ before ++ [predecessor] ++ inside, b.virt < virtEnd := by
    intro b member
    rcases mem_append.mp member with member | member
    · exact (below b member).trans proper
    · exact (within b member).2
  have := lowerBound_append _ _ earlier above
  simpa [add_assoc, add_comm 1] using this

omit [DecidableEq π] [Inhabited ε] in
/-- A cut block leaves a tail. -/
theorem Rest.of_cut (later : ∀ b ∈ after, virtEnd < b.virt) (mapped : ¬ p.Unmapped last) :
    Rest p virtEnd last after ([⟨virtEnd, p.physAt last virtEnd, last.extraInfo⟩] ++ after) :=
  .tail after _ (.cut after _ later rfl (fun unmapped => absurd unmapped mapped) fun _ =>
    ⟨rfl, rfl⟩) fun b member here => absurd (later b (mem_of_mem_head? member)) here.not_gt

/-- No block starts inside the range. -/
theorem unmapBlocks_nil (below : ∀ b ∈ before ++ [predecessor], b.virt < virt)
    (above : ∀ b ∈ after, virtEnd ≤ b.virt) (sorted : Ascending Block.virt after)
    (end' : p.add virt size = virtEnd) (proper : virt < virtEnd) (limit : virtEnd ≤ vaLimit)
    (ended : after = [] → p.Unmapped predecessor)
    (regular : ¬ UnmapMisses p virt virtEnd predecessor [] after) :
    ∃ hole rest, Hole p virt virtEnd predecessor [] hole ∧ Rest p virtEnd predecessor after rest ∧
      unmapBlocks p vaLimit (before ++ predecessor :: after) virt size =
        .ok (before ++ predecessor :: (hole ++ rest)) := by
  have below' : predecessor.virt < virt := below predecessor (by simp)
  have place : lowerBound (before ++ predecessor :: after) virtEnd = before.length + 1 :=
    lowerBound_range below (fun _ member => absurd member not_mem_nil) above proper
  have read : deref (before ++ predecessor :: after) before.length = .ok predecessor := deref_append
  by_cases unmapped : p.Unmapped predecessor
  · refine ⟨[], after, .none unmapped, .unmapped after unmapped, ?_⟩
    rw [unmapBlocks_unmapped end' limit place read unmapped, if_neg (not_lt.mpr below'.le)]
    rfl
  · have hole : Hole p virt virtEnd predecessor [] [⟨virt, p.unmappedPa, default⟩] :=
      .start rfl rfl proper unmapped
    cases after with
    | nil => exact absurd (ended rfl) unmapped
    | cons h rest =>
      have read' : deref (before ++ predecessor :: h :: rest) (before.length + 1) = .ok h :=
        deref_behind before predecessor [] h rest
      by_cases here : h.virt = virtEnd
      · have follows : ¬ p.Unmapped h :=
          fun unmapped' => regular (.endAtEnd _ h rest unmapped unmapped' here)
        refine ⟨_, _, hole, .tail _ [] (.none h rest here) (by simpa using fun _ => follows), ?_⟩
        rw [unmapBlocks_mapped end' limit place read unmapped read' here, if_neg follows,
          unmapStart_nil before h rest below' proper here, if_neg unmapped]
        rfl
      · have later := later_of_ne above sorted here
        have inserted := insert_append (before ++ [predecessor]) (h :: rest)
          [⟨virt, p.unmappedPa, default⟩,
            ⟨virtEnd, p.physAt predecessor virtEnd, predecessor.extraInfo⟩]
        refine ⟨_, _, hole, .of_cut later unmapped, ?_⟩
        rw [unmapBlocks_cut end' limit place read unmapped read' here, if_neg (not_le.mpr below')]
        simpa using inserted

/-- The last block that starts inside the range is unmapped. -/
theorem unmapBlocks_append_unmapped (below : ∀ b ∈ before ++ [predecessor], b.virt < virt)
    (within : ∀ b ∈ init ++ [last], virt ≤ b.virt ∧ b.virt < virtEnd)
    (above : ∀ b ∈ after, virtEnd ≤ b.virt) (sorted : Ascending Block.virt (init ++ [last]))
    (end' : p.add virt size = virtEnd) (proper : virt < virtEnd) (limit : virtEnd ≤ vaLimit)
    (unmapped : p.Unmapped last)
    (regular : ¬ UnmapMisses p virt virtEnd predecessor (init ++ [last]) after) :
    ∃ hole rest, Hole p virt virtEnd predecessor (init ++ [last]) hole ∧
      Rest p virtEnd last after rest ∧
      unmapBlocks p vaLimit (before ++ predecessor :: (init ++ last :: after)) virt size =
      .ok (before ++ predecessor :: (hole ++ rest)) := by
  have below' : predecessor.virt < virt := below predecessor (by simp)
  obtain ⟨lower, upper⟩ := within last (by simp)
  have within' : ∀ b ∈ init, virt ≤ b.virt := fun b member => (within b (by simp [member])).1
  have place : lowerBound (before ++ predecessor :: (init ++ last :: after)) virtEnd =
      before.length + (init.length + 1) + 1 := by
    have := lowerBound_range below within above proper
    simpa using this
  have read : deref (before ++ predecessor :: (init ++ last :: after))
      (before.length + (init.length + 1)) = .ok last := deref_behind ..
  have rest : Rest p virtEnd last after after := .unmapped after unmapped
  rw [unmapBlocks_unmapped end' limit place read unmapped]
  by_cases behind : virt < last.virt
  · rw [if_pos behind]
    by_cases unmapped' : p.Unmapped predecessor
    · have follows : ∀ b ∈ after.head?, ¬ p.Unmapped b := by
        cases after with
        | nil => simp
        | cons next more =>
          rintro b same follows
          cases same
          exact regular (.contiguous _ last _ init more unmapped' unmapped behind follows)
      exact ⟨[], after, .none unmapped', rest,
        eraseBlocksWithEndUnmapped_unmapped before last after below' within' lower unmapped'
        follows⟩
    · have some : init ≠ [] := by
        rintro rfl
        exact regular (.end _ last after unmapped' unmapped behind)
      exact ⟨_, after, .start (u := { last with virt := virt }) unmapped rfl proper unmapped', rest,
        eraseBlocksWithEndUnmapped_mapped before last after some below' within' lower unmapped'⟩
  · have same : last.virt = virt := le_antisymm (not_lt.mp behind) lower
    have none : init = [] := by
      rw [eq_nil_iff_forall_not_mem]
      intro b member
      have order := (pairwise_append.mp sorted).2.2 b member last (by simp)
      exact absurd (within' b member) (not_le.mpr (order.trans_eq same))
    rw [if_neg behind, none]
    exact ⟨[last], after, .one last unmapped lower upper (fun _ => same)
      fun _ => by simp, rest, rfl⟩

omit [DecidableEq π] [AddAction ℕ π] [Inhabited ε] in
/-- The end of the range, and the blocks on both sides of it. -/
theorem range_reads (below : ∀ b ∈ before ++ [predecessor], b.virt < virt)
    (within : ∀ b ∈ init ++ [last], virt ≤ b.virt ∧ b.virt < virtEnd)
    (above : ∀ b ∈ h :: rest, virtEnd ≤ b.virt) (proper : virt < virtEnd) :
    lowerBound (before ++ predecessor :: (init ++ last :: h :: rest)) virtEnd =
      before.length + (init.length + 1) + 1 ∧
    deref (before ++ predecessor :: (init ++ last :: h :: rest))
      (before.length + (init.length + 1)) = .ok last ∧
    deref (before ++ predecessor :: (init ++ last :: h :: rest))
      (before.length + (init.length + 1) + 1) = .ok h := by
  refine ⟨?_, deref_behind .., ?_⟩
  · have := lowerBound_range below within above proper
    simpa using this
  · have := deref_behind before predecessor (init ++ [last]) h rest
    simpa [add_assoc] using this

section

variable (below : ∀ b ∈ before ++ [predecessor], b.virt < virt)

include below

/-- The last block that starts inside the range is mapped, and ends with the range. -/
theorem unmapBlocks_append_mapped
    (within : ∀ b ∈ init ++ [last], virt ≤ b.virt ∧ b.virt < virtEnd)
    (above : ∀ b ∈ h :: rest, virtEnd ≤ b.virt) (end' : p.add virt size = virtEnd)
    (proper : virt < virtEnd) (limit : virtEnd ≤ vaLimit) (mapped : ¬ p.Unmapped last)
    (here : h.virt = virtEnd)
    (regular : ¬ UnmapMisses p virt virtEnd predecessor (init ++ [last]) (h :: rest)) :
    ∃ hole rest', Hole p virt virtEnd predecessor (init ++ [last]) hole ∧
      Rest p virtEnd last (h :: rest) rest' ∧
      unmapBlocks p vaLimit (before ++ predecessor :: (init ++ last :: h :: rest)) virt size =
      .ok (before ++ predecessor :: (hole ++ rest')) := by
  have below' : predecessor.virt < virt := below predecessor (by simp)
  have within' : ∀ b ∈ init ++ [last], virt ≤ b.virt := fun b member => (within b member).1
  obtain ⟨place, read, read'⟩ := range_reads below within above proper
  rw [unmapBlocks_mapped end' limit place read mapped read' here]
  by_cases unmapped' : p.Unmapped h
  · rw [if_pos unmapped']
    have merged : Rest p virtEnd last (h :: rest) rest := .merged h rest here unmapped'
    by_cases unmapped : p.Unmapped predecessor
    · have follows : ∀ b ∈ rest.head?, ¬ p.Unmapped b := by
        cases rest with
        | nil => simp
        | cons next more =>
          rintro b same follows
          cases same
          exact regular (.contiguousAtEnd _ last h _ init more unmapped mapped unmapped' here
            follows)
      have erased := eraseBlocksWithEndUnmapped_unmapped before h rest
        below' within' (proper.le.trans here.ge) unmapped follows
      exact ⟨[], rest, .none unmapped, merged, by simpa [add_assoc] using erased⟩
    · have erased := eraseBlocksWithEndUnmapped_mapped before h rest
        (by simp) below' within' (proper.le.trans here.ge) unmapped
      exact ⟨_, rest, .start (u := { h with virt := virt }) unmapped' rfl proper unmapped, merged,
        by simpa [add_assoc] using erased⟩
  · have tail : Rest p virtEnd last (h :: rest) ([] ++ h :: rest) :=
      .tail _ [] (.none h rest here) (by simpa using fun _ => unmapped')
    by_cases unmapped : p.Unmapped predecessor
    · exact absurd (.kept _ last h init rest unmapped mapped here unmapped') regular
    · obtain ⟨first, mid, split⟩ := exists_cons_of_ne_nil (concat_ne_nil last init)
      have hole : Hole p virt virtEnd predecessor (init ++ [last])
          [{ first with virt := virt, phys := p.unmappedPa }] := .start rfl rfl proper unmapped
      have moved := unmapStart_mapped before h rest below'
        (fun b member => within b (split ▸ member)) here unmapped
          (before.length + (init.length + 1))
      refine ⟨_, _, hole, tail, ?_⟩
      rw [if_neg unmapped']
      rw [← split] at moved
      simpa [add_assoc] using moved

/-- The last block that starts inside the range is mapped, and goes on behind it. -/
theorem unmapBlocks_append_cut (within : ∀ b ∈ init ++ [last], virt ≤ b.virt ∧ b.virt < virtEnd)
    (later : ∀ b ∈ h :: rest, virtEnd < b.virt) (end' : p.add virt size = virtEnd)
    (proper : virt < virtEnd) (limit : virtEnd ≤ vaLimit) (mapped : ¬ p.Unmapped last)
    (regular : ¬ UnmapMisses p virt virtEnd predecessor (init ++ [last]) (h :: rest)) :
    ∃ hole rest', Hole p virt virtEnd predecessor (init ++ [last]) hole ∧
      Rest p virtEnd last (h :: rest) rest' ∧
      unmapBlocks p vaLimit (before ++ predecessor :: (init ++ last :: h :: rest)) virt size =
      .ok (before ++ predecessor :: (hole ++ rest')) := by
  have below' : predecessor.virt < virt := below predecessor (by simp)
  have lower : virt ≤ last.virt := (within last (by simp)).1
  obtain ⟨place, read, read'⟩ :=
    range_reads below within (fun b member => (later b member).le) proper
  have away : h.virt ≠ virtEnd := (later h mem_cons_self).ne'
  have tail := Rest.of_cut later mapped
  let t : Block π ε := ⟨virtEnd, p.physAt last virtEnd, last.extraInfo⟩
  have reused : (before ++ predecessor :: (init ++ last :: h :: rest)).set
      (before.length + (init.length + 1)) t =
        before ++ predecessor :: (init ++ t :: h :: rest) := by
    simp
  rw [unmapBlocks_cut end' limit place read mapped read' away, if_pos lower, reused, ← add_assoc,
    prev_succ, ok_bind]
  rcases eq_nil_or_concat init with rfl | ⟨init, front, rfl⟩
  · have started := unmapStart_nil (p := p) before t (h :: rest) below'
      proper rfl before.length
    by_cases unmapped : p.Unmapped predecessor
    · rw [if_pos unmapped] at started
      exact ⟨[], _, .none unmapped, tail, started⟩
    · rw [if_neg unmapped] at started
      exact ⟨_, _, .start (u := ⟨virt, p.unmappedPa, default⟩) rfl rfl proper unmapped, tail,
        started⟩
  · rw [concat_eq_append] at within regular ⊢
    have within' : ∀ b ∈ init ++ [front], virt ≤ b.virt ∧ b.virt < virtEnd :=
      fun b member => within b (mem_append_left _ member)
    by_cases unmapped : p.Unmapped predecessor
    · have kept : p.Unmapped front := by
        by_contra kept
        refine regular ?_
        have misses : UnmapMisses p virt virtEnd predecessor (init ++ [front, last]) (h :: rest) :=
          .keptFront predecessor front last init (h :: rest) unmapped kept mapped later
        simpa using misses
      have started := unmapStart_unmapped before t (h :: rest) below' within'
        rfl unmapped
      obtain ⟨lower', upper'⟩ := within' front (by simp)
      refine ⟨_, _, .one front kept lower' upper' (fun mapped => absurd unmapped mapped)
        fun _ => by simp, tail, ?_⟩
      simpa [add_assoc] using started
    · obtain ⟨first, mid, split⟩ := exists_cons_of_ne_nil (concat_ne_nil front init)
      have hole : Hole p virt virtEnd predecessor (init ++ [front] ++ [last])
          [{ first with virt := virt, phys := p.unmappedPa }] := .start rfl rfl proper unmapped
      have moved := unmapStart_mapped before t (h :: rest) below'
        (fun b member => within' b (split ▸ member)) rfl unmapped
          (before.length + (init.length + 1))
      refine ⟨_, _, hole, tail, ?_⟩
      rw [← split] at moved
      simpa [add_assoc] using moved

/-- `UnmapLocked` leaves at most one unmapped block in its range. -/
theorem unmapBlocks_eq
    (within : ∀ b ∈ inside, virt ≤ b.virt ∧ b.virt < virtEnd)
    (above : ∀ b ∈ after, virtEnd ≤ b.virt)
    (sorted : Ascending Block.virt (inside ++ after)) (end' : p.add virt size = virtEnd)
    (proper : virt < virtEnd) (limit : virtEnd ≤ vaLimit)
    (isLast : (predecessor :: inside).getLast? = some last) (ended : after = [] → p.Unmapped last)
    (regular : ¬ UnmapMisses p virt virtEnd predecessor inside after) :
    ∃ hole rest, Hole p virt virtEnd predecessor inside hole ∧ Rest p virtEnd last after rest ∧
      unmapBlocks p vaLimit (before ++ predecessor :: (inside ++ after)) virt size =
        .ok (before ++ predecessor :: (hole ++ rest)) := by
  obtain ⟨sortedInside, sortedAfter, -⟩ := pairwise_append.mp sorted
  rcases eq_nil_or_concat inside with rfl | ⟨init, last', rfl⟩
  · cases isLast
    exact unmapBlocks_nil below above sortedAfter end' proper limit ended regular
  · rw [concat_eq_append] at *
    obtain rfl : last' = last := by
      rw [← cons_append, List.getLast?_concat] at isLast
      exact Option.some.inj isLast
    rw [append_assoc, singleton_append]
    by_cases unmapped : p.Unmapped last'
    · exact unmapBlocks_append_unmapped below within above sortedInside end' proper limit unmapped
        regular
    · cases after with
      | nil => exact absurd (ended rfl) unmapped
      | cons h rest =>
        by_cases here : h.virt = virtEnd
        · exact unmapBlocks_append_mapped below within above end' proper limit unmapped here regular
        · exact unmapBlocks_append_cut below within (later_of_ne above sortedAfter here) end' proper
            limit unmapped regular

end

end Range

end SumiEmu.Common.AddressSpace
