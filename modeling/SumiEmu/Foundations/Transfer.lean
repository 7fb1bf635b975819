/-
# Block transfers between buffers

A move copies one block of cells from a source buffer to a target buffer; it fails
when the block leaves either of them. A sequence of moves reads one source throughout.

The content of a cell after a sequence is known when every move that covers it brings
the same value. When the target blocks do not overlap, moving everything there and
then back restores each cell that some block covers.
-/

import Mathlib.Data.List.Basic

namespace SumiEmu.Transfer

open List

variable {α : Type}

/-- A block to be moved: where it goes and where it comes from. -/
structure Move where
  target : Nat
  source : Nat
  deriving DecidableEq, Repr

namespace Move

/-- The same block on its way back. -/
def back (move : Move) : Move := ⟨move.source, move.target⟩

/-- The block covers a cell of the target. -/
def Covers (unit : Nat) (move : Move) (i : Nat) : Prop := move.target ≤ i ∧ i < move.target + unit

/-- The cell of the source that goes to a covered cell. -/
def origin (move : Move) (i : Nat) : Nat := move.source + (i - move.target)

/-- The block lies inside a target and a source of the given lengths. -/
def Within (unit targetLength sourceLength : Nat) (move : Move) : Prop :=
  move.target + unit ≤ targetLength ∧ move.source + unit ≤ sourceLength

end Move

/-- Copy one block between buffers. -/
def copyBlock (unit : Nat) (source target : List α) (move : Move) : Option (List α) :=
  if move.target + unit ≤ target.length ∧ move.source + unit ≤ source.length then
    some (target.take move.target ++ (source.drop move.source).take unit ++
      target.drop (move.target + unit))
  else
    none

/-- Copy a sequence of blocks from one source. -/
def copyBlocks (unit : Nat) (source target : List α) (moves : List Move) : Option (List α) :=
  moves.foldlM (copyBlock unit source) target

variable {unit : Nat} {source target : List α} {moves : List Move}

theorem copyBlock_spec {move : Move} (within : move.Within unit target.length source.length) :
    ∃ result, copyBlock unit source target move = some result ∧ result.length = target.length ∧
      (∀ i, move.Covers unit i → result[i]? = source[move.origin i]?) ∧
      ∀ i, ¬ move.Covers unit i → result[i]? = target[i]? := by
  obtain ⟨inTarget, inSource⟩ := within
  have pasted : ((source.drop move.source).take unit).length = unit := by
    rw [length_take, length_drop]
    omega
  have front : (target.take move.target).length = move.target := by
    rw [length_take]
    omega
  refine ⟨_, if_pos ⟨inTarget, inSource⟩, ?_, fun i ⟨lower, upper⟩ => ?_, fun i outside => ?_⟩
  · rw [length_append, length_append, pasted, front, length_drop]
    omega
  · rw [append_assoc, getElem?_append_right (by omega), front,
      getElem?_append_left (by omega), getElem?_take_of_lt (by omega),
      getElem?_drop]
    rfl
  · by_cases before : i < move.target
    · rw [append_assoc, getElem?_append_left (by omega),
        getElem?_take_of_lt before]
    · have after : move.target + unit ≤ i := by
        by_contra inside
        exact outside ⟨by omega, by omega⟩
      rw [getElem?_append_right (by rw [length_append]; omega), length_append,
        pasted, front, getElem?_drop]
      congr 1
      omega

/-- A cell has the value that every move covering it brings, once some move covers it. -/
theorem copyBlocks_spec (within : ∀ move ∈ moves, move.Within unit target.length source.length) :
    ∃ result, copyBlocks unit source target moves = some result ∧ result.length = target.length ∧
      ∀ i value, (∀ move ∈ moves, move.Covers unit i → source[move.origin i]? = value) →
        (target[i]? = value ∨ ∃ move ∈ moves, move.Covers unit i) → result[i]? = value := by
  induction moves generalizing target with
  | nil =>
    refine ⟨target, rfl, rfl, fun i value _ known => ?_⟩
    rcases known with known | ⟨move, absurdity, _⟩
    · exact known
    · cases absurdity
  | cons move moves ih =>
    obtain ⟨between, copied, length, covered, kept⟩ :=
      copyBlock_spec (within move mem_cons_self)
    obtain ⟨result, ran, lengthRan, final⟩ := @ih between fun other member => by
      rw [length]
      exact within other (mem_cons_of_mem _ member)
    refine ⟨result, ?_, lengthRan.trans length, fun i value agree known => ?_⟩
    · rw [copyBlocks, foldlM_cons, copied]
      exact ran
    · refine final i value (fun other member => agree other (mem_cons_of_mem _ member)) ?_
      by_cases covers : move.Covers unit i
      · exact .inl ((covered i covers).trans (agree move mem_cons_self covers))
      · rcases known with known | ⟨other, member, otherCovers⟩
        · exact .inl ((kept i covers).trans known)
        · rcases mem_cons.mp member with rfl | member
          · exact absurd otherCovers covers
          · exact .inr ⟨other, member, otherCovers⟩

/-- A sequence is copied if and only if each of its blocks lies inside both buffers. -/
theorem exists_copyBlocks_iff : (∃ result, copyBlocks unit source target moves = some result) ↔
    ∀ move ∈ moves, move.Within unit target.length source.length := by
  constructor
  · rintro ⟨result, copied⟩
    induction moves generalizing target with
    | nil => exact fun move absurdity => absurd absurdity not_mem_nil
    | cons move moves ih =>
      rw [copyBlocks, foldlM_cons] at copied
      obtain ⟨between, first, rest⟩ := Option.bind_eq_some_iff.mp copied
      have within : move.Within unit target.length source.length := by
        by_contra outside
        cases first.symm.trans (if_neg outside)
      obtain ⟨between', first', length, -⟩ := copyBlock_spec within
      cases first.symm.trans first'
      intro other member
      rcases mem_cons.mp member with rfl | member
      · exact within
      · rw [← length]
        exact ih rest other member
  · intro within
    obtain ⟨result, copied, -⟩ := copyBlocks_spec within
    exact ⟨result, copied⟩

/-- No two blocks share a cell of the target. -/
def Apart (unit : Nat) (moves : List Move) : Prop :=
  ∀ move ∈ moves, ∀ other ∈ moves, ∀ i, move.Covers unit i → other.Covers unit i → move = other

/-- Moving blocks that do not overlap there and back restores them, whatever the two
targets contained. -/
theorem copyBlocks_back (home : List α) (apart : Apart unit moves)
    (within : ∀ move ∈ moves, move.Within unit target.length source.length)
    (fits : ∀ move ∈ moves, move.source + unit ≤ home.length) :
    ∃ result restored, copyBlocks unit source target moves = some result ∧
      result.length = target.length ∧
      copyBlocks unit result home (moves.map Move.back) = some restored ∧
      restored.length = home.length ∧
      ∀ i, (∃ move ∈ moves, move.back.Covers unit i) → restored[i]? = source[i]? := by
  obtain ⟨result, there, length, placed⟩ := copyBlocks_spec within
  have withinBack : ∀ move ∈ moves.map Move.back,
      move.Within unit home.length result.length := by
    intro move member
    obtain ⟨forth, forthMember, rfl⟩ := mem_map.mp member
    exact ⟨fits forth forthMember, by rw [length]; exact (within forth forthMember).1⟩
  obtain ⟨restored, back, lengthBack, returned⟩ := copyBlocks_spec withinBack
  refine ⟨result, restored, there, length, back, lengthBack, fun i ⟨move, member, covers⟩ => ?_⟩
  refine returned i _ (fun other otherMember otherCovers => ?_)
    (.inr ⟨move.back, mem_map_of_mem member, covers⟩)
  obtain ⟨forth, forthMember, rfl⟩ := mem_map.mp otherMember
  -- the cell that comes back was filled from the cell it returns to
  have image : forth.Covers unit (forth.back.origin i) := by
    obtain ⟨lower, upper⟩ := otherCovers
    simp only [Move.Covers, Move.origin, Move.back] at lower upper ⊢
    omega
  refine placed _ _ (fun rival rivalMember rivalCovers => ?_) (.inr ⟨forth, forthMember, image⟩)
  rw [apart rival rivalMember forth forthMember _ rivalCovers image]
  congr 1
  have lower := otherCovers.1
  simp only [Move.origin, Move.back] at lower ⊢
  omega

end SumiEmu.Transfer
