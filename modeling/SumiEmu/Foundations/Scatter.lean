/-
# Delivering cells to scattered places

A memory maps places to cells. Writing a block changes the cells of consecutive places. A list of
cells is delivered to a family of places when each of them is at its place and nothing else has
changed. It is delivered block by block if the blocks are the places in order, and if a place that
occurs twice is to receive the same cell both times.
-/

import Mathlib.Data.Nat.Basic

namespace SumiEmu.Scatter

variable {α : Type*}

/-- The memory after some cells are written to consecutive places. -/
def writeBlock (memory : Nat → α) (start count : Nat) (cells : Nat → α) : Nat → α := fun place =>
  if start ≤ place ∧ place < start + count then cells (place - start) else memory place

variable {memory old : Nat → α} {start count : Nat} {cells : Nat → α}

theorem writeBlock_add {j : Nat} (below : j < count) :
    writeBlock memory start count cells (start + j) = cells j := by
  rw [writeBlock, if_pos ⟨Nat.le_add_right .., by omega⟩, Nat.add_sub_cancel_left]

theorem writeBlock_of_ne {place : Nat} (outside : ∀ j < count, start + j ≠ place) :
    writeBlock memory start count cells place = memory place := by
  refine if_neg fun inside => outside (place - start) (by omega) (by omega)

@[simp] theorem writeBlock_zero : writeBlock memory start 0 cells = memory := by
  funext place
  exact writeBlock_of_ne fun j below => absurd below (Nat.not_lt_zero j)

variable {cells' : Nat → α}

theorem writeBlock_congr (same : ∀ j < count, cells j = cells' j) :
    writeBlock memory start count cells = writeBlock memory start count cells' := by
  funext place
  rw [writeBlock, writeBlock]
  split
  · exact same _ (by omega)
  · rfl

/-- A block that follows another one makes a longer block with it. -/
theorem writeBlock_writeBlock {more : Nat} :
    writeBlock (writeBlock memory start count cells) (start + count) more cells' =
      writeBlock memory start (count + more)
        fun j => if j < count then cells j else cells' (j - count) := by
  funext place
  simp only [writeBlock]
  by_cases front : start ≤ place ∧ place < start + count
  · rw [if_neg (by omega), if_pos front, if_pos (by omega), if_pos (by omega)]
  · by_cases back : start + count ≤ place ∧ place < start + count + more
    · rw [if_pos back, if_pos (by omega), if_neg (by omega), Nat.sub_add_eq]
    · rw [if_neg back, if_neg front, if_neg (by omega)]

/-! ## Ranges of cells that are as wanted -/

/-- The cells of the places from `lo` up to `hi` are as wanted. -/
def Filled (wanted : Nat → α → Prop) (memory : Nat → α) (lo hi : Nat) : Prop :=
  ∀ place, lo ≤ place → place < hi → wanted place (memory place)

variable {wanted : Nat → α → Prop} {lo mid hi : Nat}

theorem Filled.append (front : Filled wanted memory lo mid) (back : Filled wanted memory mid hi) :
    Filled wanted memory lo hi := fun place low high =>
  (Nat.lt_or_ge place mid).elim (front place low) fun late => back place late high

/-- A block outside the range leaves it filled. -/
theorem Filled.writeBlock_outside (filled : Filled wanted memory lo hi)
    (apart : hi ≤ start ∨ start + count ≤ lo) :
    Filled wanted (writeBlock memory start count cells) lo hi := by
  intro place low high
  rw [writeBlock_of_ne fun j below same => by omega]
  exact filled place low high

theorem filled_writeBlock (right : ∀ j < count, wanted (start + j) (cells j)) :
    Filled wanted (writeBlock memory start count cells) start (start + count) := by
  intro place low high
  obtain ⟨j, rfl⟩ := Nat.exists_eq_add_of_le low
  have below : j < count := Nat.lt_of_add_lt_add_left high
  rw [writeBlock_add below]
  exact right j below

/-- A filled range grows by a block at its end. -/
theorem Filled.extend (filled : Filled wanted memory lo start)
    (right : ∀ j < count, wanted (start + j) (cells j)) :
    Filled wanted (writeBlock memory start count cells) lo (start + count) :=
  (filled.writeBlock_outside (.inl (Nat.le_refl _))).append (filled_writeBlock right)

/-! ## Delivering -/

/-- The first cells of a list are at their places, and no other place has changed. -/
structure Delivered (old memory : Nat → α) (place : Nat → Nat) (cells : Nat → α) (count : Nat) :
    Prop where
  written : ∀ i < count, memory (place i) = cells i
  kept : ∀ q, (∀ i < count, place i ≠ q) → memory q = old q

variable {place : Nat → Nat} {total : Nat}

theorem Delivered.nothing (old : Nat → α) (place : Nat → Nat) (cells : Nat → α) :
    Delivered old old place cells 0 :=
  ⟨fun i below => absurd below (Nat.not_lt_zero i), fun _ _ => rfl⟩

/-- Each place is to receive one cell only. -/
def Consistent (place : Nat → Nat) (cells : Nat → α) (total : Nat) : Prop :=
  ∀ i < total, ∀ j < total, place i = place j → cells i = cells j

/-- A further block is delivered. -/
theorem Delivered.block {done : Nat} (delivered : Delivered old memory place cells done)
    (consistent : Consistent place cells total) (within : done + count ≤ total)
    (run : ∀ j < count, place (done + j) = start + j) {block : Nat → α}
    (brought : ∀ j < count, block j = cells (done + j)) :
    Delivered old (writeBlock memory start count block) place cells (done + count) where
  written i below := by
    by_cases inside : ∃ j < count, start + j = place i
    · obtain ⟨j, inRun, same⟩ := inside
      rw [← same, writeBlock_add inRun, brought j inRun]
      exact consistent _ (by omega) _ (by omega) ((run j inRun).trans same)
    · have early : i < done := by
        by_contra late
        refine inside ⟨i - done, by omega, ?_⟩
        rw [← run (i - done) (by omega), Nat.add_sub_cancel' (by omega)]
      rw [writeBlock_of_ne fun j inRun same => inside ⟨j, inRun, same⟩, delivered.written i early]
  kept q apart := by
    rw [writeBlock_of_ne fun j inRun => run j inRun ▸ apart (done + j) (by omega)]
    exact delivered.kept q fun i below => apart i (by omega)

theorem Delivered.congr {place' : Nat → Nat} (delivered : Delivered old memory place cells count)
    (places : ∀ i < count, place i = place' i) (same : ∀ i < count, cells i = cells' i) :
    Delivered old memory place' cells' count where
  written i below := by rw [← places i below, delivered.written i below, same i below]
  kept q apart := delivered.kept q fun i below => places i below ▸ apart i below

end SumiEmu.Scatter
