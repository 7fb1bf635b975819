/-
# Bits stored in words

A function from indices to machine words stores a bit for every natural, `w`
of them to a word. One such store summarises another when its bits say which
words of the other are not zero. Summaries stack: a tower of stores in which
each level summarises the next finds a set bit of the last level by walking
down one word on each.
-/

import Mathlib.Data.BitVec
import Mathlib.Data.Nat.Bitwise

namespace SumiEmu.WordBits

open Function Nat

variable {w : Nat}

/-- The bit with a given index. -/
def bitAt (s : Nat → BitVec w) (i : Nat) : Bool := (s (i / w)).getLsbD (i % w)

/-- The store with one more bit set. -/
def setAt (s : Nat → BitVec w) (i : Nat) : Nat → BitVec w :=
  update s (i / w) (s (i / w) ||| 1#w <<< (i % w))

/-- The store with one bit cleared. -/
def clearAt (s : Nat → BitVec w) (i : Nat) : Nat → BitVec w :=
  update s (i / w) (s (i / w) &&& ~~~(1#w <<< (i % w)))

theorem getLsbD_one_shiftLeft {j k : Nat} (inside : k < w) :
    (1#w <<< k).getLsbD j = decide (j = k) := by
  rw [BitVec.getLsbD_shiftLeft, BitVec.getLsbD_one]
  by_cases same : j = k
  · simp [same, inside]
    omega
  · simp [same]
    omega

/-- The mask of `count` bits from `shift` on. -/
theorem getLsbD_range_mask {count shift j : Nat} (small : count < w) (inside : j < w) :
    (((1#w <<< count) - 1#w) <<< shift).getLsbD j = decide (shift ≤ j ∧ j < shift + count) := by
  have power : (1#w <<< count).toNat = 2 ^ count := by
    have : 2 ^ count < 2 ^ w := Nat.pow_lt_pow_right (by decide) small
    have : 1 < 2 ^ w := Nat.one_lt_two_pow (by omega)
    rw [BitVec.toNat_shiftLeft, BitVec.toNat_ofNat, mod_eq_of_lt this, one_shiftLeft,
      mod_eq_of_lt ‹2 ^ count < 2 ^ w›]
  have ones : ((1#w <<< count) - 1#w).toNat = 2 ^ count - 1 := by
    have : 1 < 2 ^ w := Nat.one_lt_two_pow (by omega)
    have one : (1#w).toNat = 1 := by rw [BitVec.toNat_ofNat, mod_eq_of_lt this]
    rw [BitVec.toNat_sub_of_le, power, one]
    rw [BitVec.le_def, power, one]
    exact Nat.one_le_two_pow
  rw [BitVec.getLsbD_shiftLeft]
  by_cases lower : shift ≤ j
  · have bit : ((1#w <<< count) - 1#w).getLsbD (j - shift) = decide (j - shift < count) := by
      rw [BitVec.getLsbD, ones, testBit_two_pow_sub_one]
    simp only [bit, inside, lower, not_lt.mpr lower, decide_true, decide_false, Bool.not_false,
      Bool.true_and, true_and]
    congr 1
    simp only [eq_iff_iff]
    omega
  · simp [lower, not_le.mp lower]

/-- Within the word that holds a range, membership in the range is membership in its mask. -/
theorem mem_range_iff {offset count i : Nat} (word : i / w = offset / w) :
    (offset ≤ i ∧ i < offset + count) ↔ offset % w ≤ i % w ∧ i % w < offset % w + count := by
  have first := div_add_mod offset w
  have here := div_add_mod i w
  rw [word] at here
  omega

section Bits

variable (positive : 0 < w)
include positive

variable (s : Nat → BitVec w)

theorem bitAt_setAt (i j : Nat) : bitAt (setAt s i) j = (decide (j = i) || bitAt s j) := by
  have inside := mod_lt i positive
  simp only [bitAt, setAt]
  by_cases word : j / w = i / w
  · have same : j % w = i % w ↔ j = i := by
      constructor
      · intro offset
        rw [← div_add_mod j w, ← div_add_mod i w, word, offset]
      · rintro rfl
        rfl
    rw [word, update_self, BitVec.getLsbD_or, getLsbD_one_shiftLeft inside, Bool.or_comm]
    simp only [same]
  · have other : j ≠ i := fun same => word (same ▸ rfl)
    rw [update_of_ne word]
    simp [other]

theorem bitAt_clearAt (i j : Nat) : bitAt (clearAt s i) j = (bitAt s j && decide (j ≠ i)) := by
  have inside := mod_lt i positive
  have inside' := mod_lt j positive
  simp only [bitAt, clearAt]
  by_cases word : j / w = i / w
  · have same : j % w = i % w ↔ j = i := by
      constructor
      · intro offset
        rw [← div_add_mod j w, ← div_add_mod i w, word, offset]
      · rintro rfl
        rfl
    rw [word, update_self, BitVec.getLsbD_and, BitVec.getLsbD_not,
      getLsbD_one_shiftLeft inside]
    simp [same, inside']
  · have other : j ≠ i := fun same => word (same ▸ rfl)
    rw [update_of_ne word]
    simp [other]

theorem and_one_shiftLeft_eq_zero_iff (i : Nat) :
    s (i / w) &&& 1#w <<< (i % w) = 0#w ↔ bitAt s i = false := by
  have inside := mod_lt i positive
  rw [bitAt]
  constructor
  · intro zero
    have bit := congrArg (fun v => v.getLsbD (i % w)) zero
    simpa [BitVec.getLsbD_and, getLsbD_one_shiftLeft inside] using bit
  · intro clear
    refine BitVec.eq_of_getLsbD_eq fun j _ => ?_
    rw [BitVec.getLsbD_and, getLsbD_one_shiftLeft inside, BitVec.getLsbD_zero]
    by_cases here : j = i % w
    · rw [here, clear, Bool.false_and]
    · rw [decide_eq_false here, Bool.and_false]

theorem word_index {k j : Nat} (inside : j < w) : (k * w + j) / w = k ∧ (k * w + j) % w = j := by
  constructor
  · rw [mul_comm, mul_add_div positive, div_eq_of_lt inside, add_zero]
  · rw [mul_comm, mul_add_mod, mod_eq_of_lt inside]

theorem bitAt_word {k j : Nat} (inside : j < w) : bitAt s (k * w + j) = (s k).getLsbD j := by
  obtain ⟨word, offset⟩ := word_index positive (k := k) inside
  rw [bitAt, word, offset]

/-- A word is zero when none of its bits is set. -/
theorem word_eq_zero_iff (k : Nat) : s k = 0 ↔ ∀ i, i / w = k → bitAt s i = false := by
  constructor
  · rintro zero i rfl
    simp [bitAt, zero]
  · intro clear
    refine BitVec.eq_of_getLsbD_eq fun j inside => ?_
    rw [← bitAt_word positive s inside, clear _ (word_index positive inside).1]
    simp

/-- A word is full when all of its bits are set. -/
theorem word_eq_allOnes_iff (k : Nat) : s k = ~~~0#w ↔ ∀ i, i / w = k → bitAt s i := by
  constructor
  · rintro full i rfl
    simp [bitAt, full, mod_lt i positive]
  · intro set
    refine BitVec.eq_of_getLsbD_eq fun j inside => ?_
    rw [← bitAt_word positive s inside, set _ (word_index positive inside).1]
    simp [inside]

theorem word_of_mem_range {offset count i : Nat} (fits : offset % w + count ≤ w)
    (lower : offset ≤ i) (upper : i < offset + count) : i / w = offset / w := by
  have first := div_add_mod offset w
  have inside : offset % w + (i - offset) < w := by omega
  have split : i = offset / w * w + (offset % w + (i - offset)) := by
    rw [mul_comm]
    omega
  rw [split]
  exact (word_index positive inside).1

/-- A range within one word is set when the word covers its mask. -/
theorem range_set_iff {offset count : Nat} (small : count < w) (fits : offset % w + count ≤ w) :
    s (offset / w) &&& ((1#w <<< count) - 1#w) <<< (offset % w) =
        ((1#w <<< count) - 1#w) <<< (offset % w) ↔
      ∀ i, offset ≤ i → i < offset + count → bitAt s i := by
  constructor
  · intro covers i lower upper
    have word := word_of_mem_range positive fits lower upper
    have bit := congrArg (fun v => v.getLsbD (i % w)) covers
    have masked := (mem_range_iff word).mp ⟨lower, upper⟩
    simp only [BitVec.getLsbD_and, getLsbD_range_mask small (mod_lt i positive), masked,
      and_self, decide_true, Bool.and_true] at bit
    rw [bitAt, word, bit]
  · intro set
    refine BitVec.eq_of_getLsbD_eq fun j inside => ?_
    rw [BitVec.getLsbD_and, getLsbD_range_mask small inside, ← bitAt_word positive s inside]
    obtain ⟨word, offset'⟩ := word_index positive (k := offset / w) inside
    by_cases masked : offset % w ≤ j ∧ j < offset % w + count
    · have range := (mem_range_iff word).mpr (by rwa [offset'])
      rw [set _ range.1 range.2, Bool.true_and]
    · simp [masked]

/-- Clearing the mask of a range clears the range. -/
theorem bitAt_clear_range {offset count : Nat} (small : count < w)
    (fits : offset % w + count ≤ w) (i : Nat) :
    bitAt (update s (offset / w)
        (s (offset / w) &&& ~~~(((1#w <<< count) - 1#w) <<< (offset % w)))) i =
      (bitAt s i && !decide (offset ≤ i ∧ i < offset + count)) := by
  have inside := mod_lt i positive
  by_cases word : i / w = offset / w
  · rw [bitAt, word, update_self, BitVec.getLsbD_and, BitVec.getLsbD_not,
      getLsbD_range_mask small inside, bitAt, word]
    simp only [inside, decide_true, Bool.true_and, mem_range_iff word]
  · have outside : ¬ (offset ≤ i ∧ i < offset + count) := fun range =>
      word (word_of_mem_range positive fits range.1 range.2)
    rw [bitAt, update_of_ne word]
    simp [bitAt, outside]

end Bits

/-! ## Summaries -/

/-- The bits of `up` say which words of `down` are not zero. -/
def Summarises (up down : Nat → BitVec w) : Prop := ∀ i, bitAt up i = (down i != 0)

section Summary

variable {up down : Nat → BitVec w}

/-- A word that does not become zero or cease to be needs no change above it. -/
theorem Summarises.update_same (summary : Summarises up down) {i : Nat} {v : BitVec w}
    (same : v = 0 ↔ down i = 0) : Summarises up (update down i v) := by
  intro j
  by_cases here : j = i
  · subst here
    rw [update_self, summary j, Bool.eq_iff_iff, bne_iff_ne, bne_iff_ne]
    exact not_congr same.symm
  · rw [update_of_ne here, summary j]

variable (positive : 0 < w)
include positive

theorem Summarises.set (summary : Summarises up down) {i : Nat} {v : BitVec w} (nonzero : v ≠ 0) :
    Summarises (setAt up i) (update down i v) := by
  intro j
  rw [bitAt_setAt positive]
  by_cases here : j = i
  · subst here
    simpa using nonzero
  · rw [update_of_ne here, ← summary j]
    simp [here]

theorem Summarises.clear (summary : Summarises up down) (i : Nat) :
    Summarises (clearAt up i) (update down i 0) := by
  intro j
  rw [bitAt_clearAt positive]
  by_cases here : j = i
  · subst here
    simp
  · rw [update_of_ne here, ← summary j]
    simp [here]

end Summary

end SumiEmu.WordBits
