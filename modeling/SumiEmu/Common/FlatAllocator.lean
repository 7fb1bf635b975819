/-
# The flat allocator

An address space map whose blocks are either allocated or not. It first allocates
one range behind the other, and looks for a gap when that leads past the limit.
-/

import SumiEmu.Common.AddressSpaceRun

namespace SumiEmu.Common

open AddressSpace

/-- The mark of a block is never advanced. -/
instance flagAction : AddAction ℕ Bool where
  vadd _ mark := mark
  zero_vadd _ := rfl
  add_vadd _ _ _ := rfl

/-- `FlatAllocator`. -/
structure FlatAllocator extends FlatAddressSpaceMap Bool Unit where
  virtStart : Nat
  currentLinearAllocEnd : Nat

namespace FlatAllocator

/-- The template parameters of the base class. -/
def params (vaBits unmappedVa addressSpaceBits : Nat) (valid : addressSpaceBits ≤ vaBits) :
    Params Bool where
  vaBits
  unmappedVa
  unmappedPa := false
  paContigSplit := false
  addressSpaceBits
  valid

/-- An address space may have all the bits of a word. -/
theorem wholeWord : 32 ≤ 32 := Nat.le_refl 32

/-- The constructor. -/
def new (p : Params Bool) (virtStart vaLimit : Nat) : Except Fault FlatAllocator := do
  let base ← FlatAddressSpaceMap.new p vaLimit
  return { base with virtStart, currentLinearAllocEnd := virtStart }

/-- The loop of the linear pass over the mappings in front, from the predecessor on. It returns
`UnmappedVa` when it finds no place. -/
def skipFixed (p : Params Bool) (vaLimit size : Nat) : List (Block Bool Unit) → Nat
  | predecessor :: successor :: rest =>
    if successor.virt - predecessor.virt < size ∨ ¬ p.Unmapped predecessor then predecessor.virt
    else
      match rest with
      | [] =>
        let allocEnd := p.add successor.virt size
        if successor.virt ≤ allocEnd ∧ allocEnd ≤ vaLimit then successor.virt else p.unmappedVa
      | _ => skipFixed p vaLimit size (successor :: rest)
  | _ => p.unmappedVa

variable (p : Params Bool)

variable (a : FlatAllocator)

/-- The linear pass. -/
def linearPass (size : Nat) : Except Fault Nat := do
  let allocEnd := p.add a.currentLinearAllocEnd size
  if a.currentLinearAllocEnd ≤ allocEnd ∧ allocEnd ≤ a.vaLimit then
    let allocEndSuccessor := lowerBound a.blocks allocEnd
    assert (allocEndSuccessor ≠ 0)
    let allocEndPredecessor ← prev allocEndSuccessor
    let predecessor ← deref a.blocks allocEndPredecessor
    if predecessor.virt ≤ a.currentLinearAllocEnd then return a.currentLinearAllocEnd
    else return skipFixed p a.vaLimit size (a.blocks.drop allocEndPredecessor)
  else return p.unmappedVa

/-- The search for a gap, from the predecessor on. -/
def searchGap (p : Params Bool) (size : Nat) : List (Block Bool Unit) → Option Nat
  | predecessor :: successor :: rest =>
    if successor.virt - predecessor.virt < size ∨ ¬ p.Unmapped predecessor then
      searchGap p size (successor :: rest)
    else some predecessor.virt
  | _ => none

/-- The end of `Allocate`. -/
def allocateAt (allocStart size : Nat) : Except Fault (Nat × FlatAllocator) := do
  let base ← a.toFlatAddressSpaceMap.mapLocked p allocStart true size ()
  return (allocStart, { a with toFlatAddressSpaceMap := base })

/-- `Allocate`. -/
def allocate (size : Nat) : Except Fault (Nat × FlatAllocator) := do
  let allocStart ← linearPass p a size
  if allocStart ≠ p.unmappedVa then
    allocateAt p { a with currentLinearAllocEnd := p.add allocStart size } allocStart size
  else
    assert (2 < a.blocks.length)
    match searchGap p size (a.blocks.drop 1) with
    | some allocStart => allocateAt p a allocStart size
    | none => return (0, a)

/-- `AllocateFixed`. -/
def allocateFixed (virt size : Nat) : Except Fault FlatAllocator := do
  let base ← a.toFlatAddressSpaceMap.mapLocked p virt true size ()
  return { a with toFlatAddressSpaceMap := base }

/-- `Free`. -/
def free (virt size : Nat) : Except Fault FlatAllocator := do
  let base ← a.toFlatAddressSpaceMap.unmapLocked p virt size
  return { a with toFlatAddressSpaceMap := base }

end FlatAllocator

end SumiEmu.Common

/-!
## The blocks of the flat allocator

Each allocated range is one block, and no two unmapped blocks follow each other.
An allocation of a free range keeps this so, and so does the release of a range
unless it lies between free space and another allocation.
-/

namespace SumiEmu.Common.FlatAllocator

open Breakpoints AddressSpace FlatAddressSpaceMap List

variable {p : Params Bool} {m : FlatAddressSpaceMap Bool Unit} {virt size virtEnd va : Nat}
  {before inside after tail hole rest blocks : List (Block Bool Unit)}
  {predecessor last b c : Block Bool Unit}

/-- A block starts at an address. -/
def Started (blocks : List (Block Bool Unit)) (x : Nat) : Prop := ∃ b ∈ blocks, b.virt = x

/-- No two unmapped blocks follow each other. -/
def Alternate (p : Params Bool) (blocks : List (Block Bool Unit)) : Prop :=
  blocks.IsChain fun b c => p.Unmapped b → ¬ p.Unmapped c

/-- A range is covered by one block. -/
structure Whole (blocks : List (Block Bool Unit)) (r : Nat × Nat) : Prop where
  starts : Started blocks r.1
  ends : Started blocks (r.1 + r.2)
  between : ∀ x, Started blocks x → r.1 < x → r.1 + r.2 ≤ x

/-- An address is allocated. -/
def Allocated (p : Params Bool) (blocks : List (Block Bool Unit)) (va : Nat) : Prop :=
  p.denote blocks va ≠ none

section Reading

/-- A block speaks for the addresses up to the next one. -/
theorem allocated_iff (whole : blocks = before ++ b :: after) (reach : b.virt ≤ va)
    (later : ∀ c ∈ after, va < c.virt) : Allocated p blocks va ↔ ¬ p.Unmapped b := by
  have read : lastAt Block.virt (b :: after) va = some b := by
    rw [lastAt_cons, lastAt_eq_none later, if_pos reach]
    rfl
  rw [Allocated, whole, denote_append_of_some read, Params.translate]
  by_cases unmapped : p.Unmapped b <;> simp [unmapped]

theorem Alternate.next (alternate : Alternate p blocks) (whole : blocks = before ++ b :: c :: after)
    (unmapped : p.Unmapped b) : ¬ p.Unmapped c := by
  rw [Alternate, whole] at alternate
  exact (isChain_append_cons_cons.mp alternate).2.1 unmapped

/-- The address before a range belongs to the last block before it. -/
theorem allocated_before (cut : Cut p blocks virt virtEnd before predecessor inside after last)
    (positive : 0 < virt) (order : virt ≤ virtEnd) :
    Allocated p blocks (virt - 1) ↔ ¬ p.Unmapped predecessor := by
  have below := cut.below predecessor (by simp)
  refine allocated_iff cut.whole (by omega) fun c member => ?_
  rcases mem_append.mp member with member | member
  · have := (cut.within c member).1
    omega
  · have := cut.above c member
    omega

end Reading

section Mapping

variable (cut : Cut p blocks virt virtEnd before predecessor inside after last)
  (after' : Tail p last virtEnd after tail)

include cut after'

/-- Blocks start at both ends of what was mapped, and nowhere between. -/
theorem started_map (x : Nat) :
    Started ((before ++ [predecessor]) ++ ⟨virt, true, ()⟩ :: (tail ++ after)) x ↔
      x = virt ∨ x = virtEnd ∨ Started blocks x ∧ (x < virt ∨ virtEnd ≤ x) := by
  have ends : Started (tail ++ after) virtEnd := by
    cases after' with
    | none h rest here => exact ⟨h, by simp, here⟩
    | cut _ t _ here => exact ⟨t, by simp, here⟩
  have here : ∀ t ∈ tail, t.virt = virtEnd := by
    cases after' with
    | none => simp
    | cut _ t _ here => simpa using here
  constructor
  · rintro ⟨b, member, rfl⟩
    rcases mem_append.mp member with member | member
    · refine .inr (.inr ⟨⟨b, ?_, rfl⟩, .inl (cut.below b member)⟩)
      rw [cut.whole, append_cons]
      exact mem_append_left _ member
    · rcases mem_cons.mp member with rfl | member
      · exact .inl rfl
      · rcases mem_append.mp member with member | member
        · exact .inr (.inl (here b member))
        · refine .inr (.inr ⟨⟨b, ?_, rfl⟩, .inr (cut.above b member)⟩)
          rw [cut.whole]
          simp [member]
  · rintro (rfl | rfl | ⟨⟨b, member, rfl⟩, away⟩)
    · exact ⟨⟨x, true, ()⟩, by simp, rfl⟩
    · obtain ⟨b, member, here⟩ := ends
      exact ⟨b, mem_append_right _ (mem_cons_of_mem _ member), here⟩
    · refine ⟨b, ?_, rfl⟩
      rw [cut.whole, append_cons] at member
      rcases mem_append.mp member with member | member
      · exact mem_append_left _ member
      · rcases mem_append.mp member with member | member
        · have := cut.within b member
          omega
        · simp [member]

/-- A new allocation keeps the unmapped blocks apart. -/
theorem alternate_map (alternate : Alternate p blocks) (kind : p.unmappedPa = false)
    (fixed : p.paContigSplit = false) :
    Alternate p ((before ++ [predecessor]) ++ ⟨virt, true, ()⟩ :: (tail ++ after)) := by
  have mapped : ¬ p.Unmapped (⟨virt, true, ()⟩ : Block Bool Unit) := by
    simp [Params.Unmapped, kind]
  have parts := alternate
  rw [Alternate, cut.whole, append_cons, ← append_assoc] at parts
  obtain ⟨front, behind, joint⟩ := isChain_append.mp parts
  have isLast : ((before ++ [predecessor]) ++ inside).getLast? = some last := by
    rw [append_assoc, getLast?_append, singleton_append, cut.isLast]
    rfl
  refine isChain_append.mpr ⟨(isChain_append.mp front).1, ?_, ?_⟩
  · have tail' : Alternate p (tail ++ after) := by
      cases after' with
      | none => exact behind
      | cut _ t later here unmapped mapped =>
        refine isChain_cons.mpr ⟨fun h head unmapped' => joint last isLast h head ?_, behind⟩
        by_contra mapped'
        have same := (mapped mapped').1
        rw [Params.physAt, fixed] at same
        exact mapped' (same.symm.trans unmapped')
    exact isChain_cons.mpr ⟨fun _ _ unmapped => absurd unmapped mapped, tail'⟩
  · intro x _ y head _
    cases head
    exact mapped

end Mapping

section Releasing

/-- The cut around an allocated range. -/
theorem Whole.cut (whole : Whole blocks (virt, size))
    (cut : Cut p blocks virt (virt + size) before predecessor inside after last)
    (proper : 0 < size) : inside = [last] ∧ last.virt = virt ∧
      ∃ next more, after = next :: more ∧ next.virt = virt + size ∧
      ∀ b ∈ more, virt + size < b.virt := by
  obtain ⟨⟨b, member, here⟩, ⟨c, member', here'⟩, between⟩ := whole
  obtain ⟨sortedInside, sortedAfter, -⟩ := pairwise_append.mp cut.sortedBehind
  have only : ∀ x ∈ inside, x.virt = virt := by
    intro x member
    obtain ⟨lower, upper⟩ := cut.within x member
    have := between x.virt ⟨x, by rw [cut.whole]; simp [member], rfl⟩
    omega
  have inner : b ∈ inside := by
    rw [cut.whole, append_cons] at member
    rcases mem_append.mp member with member | member
    · have := cut.below b member
      omega
    · rcases mem_append.mp member with member | member
      · exact member
      · have := cut.above b member
        omega
  have outer : c ∈ after := by
    rw [cut.whole, append_cons] at member'
    rcases mem_append.mp member' with member | member
    · have := cut.below c member
      omega
    · rcases mem_append.mp member with member | member
      · have := cut.within c member
        omega
      · exact member
  obtain ⟨next, more, rfl⟩ := exists_cons_of_ne_nil (ne_nil_of_mem outer)
  have order := (pairwise_cons.mp sortedAfter).1
  have first : next.virt = virt + size := by
    have := cut.above next mem_cons_self
    rcases mem_cons.mp outer with rfl | member
    · exact here'
    · have := order c member
      omega
  have single : inside = [b] := by
    rcases inside with _ | ⟨x, _ | ⟨y, inside⟩⟩
    · cases inner
    · rw [mem_singleton.mp inner]
    · have := (pairwise_cons.mp sortedInside).1 y (by simp)
      have := only x (by simp)
      have := only y (by simp)
      omega
  have isLast := cut.isLast
  rw [single] at isLast
  obtain rfl : b = last := by simpa using isLast
  exact ⟨single, here, next, more, rfl, first, fun x member => first ▸ order x member⟩

variable {next : Block Bool Unit} {more : List (Block Bool Unit)}

/-- The release of an allocated range misses only between free space and another allocation. -/
theorem unmapMisses_of_whole
    (alternate : Alternate p (before ++ predecessor :: last :: next :: more))
    (mapped : ¬ p.Unmapped last)
    (regular : ¬ p.Unmapped predecessor ∨ p.Unmapped next) :
    ¬ UnmapMisses p virt virtEnd predecessor [last] (next :: more) := by
  intro misses
  generalize single : [last] = inside at misses
  generalize behind : next :: more = after at misses
  cases misses with
  | «end» u after mapped' unmapped =>
    cases single
    exact mapped unmapped
  | endAtEnd => cases single
  | kept last' next' init rest unmapped _ _ follows =>
    cases behind
    exact regular.elim (absurd unmapped) follows
  | keptFront front last init =>
    have short := congrArg length single
    simp at short
  | contiguous u next' init rest _ unmapped =>
    cases (append_inj' (nil_append _ |>.trans single) rfl).2
    exact mapped unmapped
  | contiguousAtEnd last' u next' init rest _ _ unmapped _ follows =>
    cases behind
    have split : before ++ predecessor :: last :: next :: next' :: rest =
        (before ++ [predecessor, last]) ++ next :: next' :: rest := by simp
    exact alternate.next split unmapped follows

/-- The blocks after a release. -/
theorem release_cases (mapped : ¬ p.Unmapped last) (here : next.virt = virtEnd)
    (hole' : Hole p virt virtEnd predecessor [last] hole)
    (after' : Rest p virtEnd last (next :: more) rest) :
    (hole = [] ∧ p.Unmapped predecessor ∨
      ∃ u, hole = [u] ∧ p.Unmapped u ∧ u.virt = virt ∧ ¬ p.Unmapped predecessor) ∧
    (rest = more ∧ p.Unmapped next ∨ rest = next :: more ∧ ¬ p.Unmapped next) := by
  refine ⟨?_, ?_⟩
  · cases hole' with
    | none unmapped => exact .inl ⟨rfl, unmapped⟩
    | one u unmapped _ _ starts kept =>
      have mapped' : ¬ p.Unmapped predecessor := fun unmapped' =>
        mapped (mem_singleton.mp (kept unmapped') ▸ unmapped)
      exact .inr ⟨u, rfl, unmapped, starts mapped', mapped'⟩
  · cases after' with
    | unmapped _ unmapped => exact absurd unmapped mapped
    | merged _ _ _ unmapped => exact .inl ⟨rfl, unmapped⟩
    | tail _ tail tail' follows =>
      cases tail' with
      | none => exact .inr ⟨rfl, follows next rfl here⟩
      | cut _ _ later => exact absurd (later next mem_cons_self) here.not_gt

theorem alternate_unmap (alternate : Alternate p (before ++ predecessor :: last :: next :: more))
    (mapped : ¬ p.Unmapped last) (here : next.virt = virtEnd)
    (hole' : Hole p virt virtEnd predecessor [last] hole)
    (after' : Rest p virtEnd last (next :: more) rest) :
    Alternate p (before ++ predecessor :: (hole ++ rest)) := by
  have parts := alternate
  rw [Alternate, append_cons, append_cons _ last] at parts
  obtain ⟨front, behind, -⟩ := isChain_append.mp parts
  have front := (isChain_append.mp front).1
  obtain ⟨follows, behind'⟩ := isChain_cons.mp behind
  obtain ⟨left, right⟩ := release_cases mapped here hole' after'
  -- what follows the range is not unmapped
  have start : ∀ b ∈ rest.head?, ¬ p.Unmapped b := by
    rcases right with ⟨rfl, unmapped⟩ | ⟨rfl, mapped'⟩
    · exact fun b member => follows b member unmapped
    · rintro b same
      cases same
      exact mapped'
  have rest' : Alternate p rest := by
    rcases right with ⟨rfl, -⟩ | ⟨rfl, -⟩
    · exact behind'
    · exact behind
  rw [append_cons]
  refine isChain_append.mpr ⟨front, ?_, ?_⟩
  · rcases left with ⟨rfl, -⟩ | ⟨u, rfl, -⟩
    · exact rest'
    · exact isChain_cons.mpr ⟨fun b member _ => start b member, rest'⟩
  · intro x isLast y head unmapped
    obtain rfl : predecessor = x := by simpa using isLast
    rcases left with ⟨rfl, -⟩ | ⟨u, rfl, -, -, mapped'⟩
    · exact start y head
    · exact absurd unmapped mapped'

/-- A release takes away no start but those of its own block and of the free block behind it. -/
theorem started_unmap (cut : Cut p blocks virt virtEnd before predecessor [last]
    (next :: more) last)
    (mapped : ¬ p.Unmapped last) (here : next.virt = virtEnd) (start : last.virt = virt)
    (hole' : Hole p virt virtEnd predecessor [last] hole)
    (after' : Rest p virtEnd last (next :: more) rest) (x : Nat) :
    (Started (before ++ predecessor :: (hole ++ rest)) x → Started blocks x) ∧
    (Started blocks x → (x = virt → ¬ p.Unmapped predecessor) → (x = virtEnd → ¬ p.Unmapped next) →
      Started (before ++ predecessor :: (hole ++ rest)) x) := by
  obtain ⟨left, right⟩ := release_cases mapped here hole' after'
  rw [cut.whole]
  refine ⟨?_, ?_⟩
  · rintro ⟨b, member, rfl⟩
    rw [append_cons] at member
    rcases mem_append.mp member with member | member
    · exact ⟨b, by rw [append_cons]; exact mem_append_left _ member, rfl⟩
    · rcases mem_append.mp member with member | member
      · rcases left with ⟨rfl, -⟩ | ⟨u, rfl, -, at', -⟩
        · cases member
        · exact ⟨last, by simp, by rw [mem_singleton.mp member, at', start]⟩
      · rcases right with ⟨rfl, -⟩ | ⟨rfl, -⟩
        · exact ⟨b, by simp [member], rfl⟩
        · exact ⟨b, mem_append_right _ (by simpa using .inr (.inr (mem_cons.mp member))), rfl⟩
  · rintro ⟨b, member, rfl⟩ kept kept'
    rw [append_cons] at member
    rcases mem_append.mp member with member | member
    · exact ⟨b, by rw [append_cons]; exact mem_append_left _ member, rfl⟩
    · rcases mem_cons.mp member with rfl | member
      · rcases left with ⟨-, unmapped⟩ | ⟨u, rfl, -, at', -⟩
        · exact absurd unmapped (kept start)
        · exact ⟨u, by simp, at'.trans start.symm⟩
      · rcases right with ⟨rfl, unmapped⟩ | ⟨rfl, -⟩
        · rcases mem_cons.mp member with rfl | member
          · exact absurd unmapped (kept' here)
          · exact ⟨b, by simp [member], rfl⟩
        · exact ⟨b, mem_append_right _ (mem_cons_of_mem _ (mem_append_right _ member)), rfl⟩

end Releasing

end SumiEmu.Common.FlatAllocator
