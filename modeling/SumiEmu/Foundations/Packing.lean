/-
# Packings of aligned blocks

A block of `unit` cells with number `n` is the set of the cells whose quotient
by `unit` is `n`. Blocks of one size are disjoint, and a run of them that starts
at a multiple of its length is one larger block.

A finite set of keys is packed when the cell sets of its keys are disjoint.
What a packing covers grows by one key and shrinks by one key exactly as its
keys do, and replacing keys by one that covers the same cells changes nothing.
-/

import Mathlib.Algebra.BigOperators.Group.Finset.Basic
import Mathlib.Data.BitVec
import Mathlib.Order.Interval.Finset.Nat

namespace SumiEmu.Packing

open Finset

/-! ## Aligned blocks -/

/-- The cells of an aligned block. -/
def tile (unit n : Nat) : Finset Nat := Finset.Ico (n * unit) (n * unit + unit)

theorem mem_tile {unit : Nat} (positive : 0 < unit) {n x : Nat} :
    x ∈ tile unit n ↔ x / unit = n := by
  rw [tile, mem_Ico, Nat.div_eq_iff positive]
  omega

@[simp] theorem card_tile (unit n : Nat) : (tile unit n).card = unit := by
  rw [tile, Nat.card_Ico, Nat.add_sub_cancel_left]

theorem tile_nonempty {unit : Nat} (positive : 0 < unit) (n : Nat) : (tile unit n).Nonempty :=
  nonempty_Ico.mpr (Nat.lt_add_of_pos_right positive)

/-- A run of blocks that starts at a multiple of its length is one larger block. -/
theorem biUnion_tile {unit count : Nat} (unitPositive : 0 < unit) (countPositive : 0 < count)
    {first skip n : Nat} (aligned : skip + first = n * count) :
    (Finset.Ico first (first + count)).biUnion (fun o => tile unit (skip + o)) =
      tile (unit * count) n := by
  ext x
  have quotient : x / (unit * count) = x / unit / count := (Nat.div_div_eq_div_mul ..).symm
  rw [mem_biUnion, mem_tile (Nat.mul_pos unitPositive countPositive), quotient,
    Nat.div_eq_iff countPositive]
  simp only [mem_tile unitPositive, mem_Ico]
  constructor
  · rintro ⟨o, ⟨lower, upper⟩, number⟩
    omega
  · rintro ⟨lower, upper⟩
    exact ⟨x / unit - skip, by omega, by omega⟩

/-! ## Packings -/

section Keys

variable {κ α : Type*} {cells : κ → Finset α} {keys : Finset κ}

/-- No cell belongs to two keys. -/
def Packed (cells : κ → Finset α) (keys : Finset κ) : Prop :=
  (keys : Set κ).PairwiseDisjoint cells

theorem Packed.subset (packed : Packed cells keys) {fewer : Finset κ} (subset : fewer ⊆ keys) :
    Packed cells fewer :=
  Set.PairwiseDisjoint.subset packed (coe_subset.mpr subset)

variable [DecidableEq α]

/-- The number of cells that a packing covers. -/
theorem Packed.card_biUnion (packed : Packed cells keys) :
    (keys.biUnion cells).card = ∑ k ∈ keys, (cells k).card :=
  Finset.card_biUnion packed

theorem notMem_of_disjoint {k : κ} (nonempty : (cells k).Nonempty)
    (apart : Disjoint (cells k) (keys.biUnion cells)) : k ∉ keys := by
  intro member
  have self := (disjoint_biUnion_right ..).mp apart k member
  exact nonempty.ne_empty (disjoint_self.mp self)

variable [DecidableEq κ]

theorem Packed.insert (packed : Packed cells keys) {k : κ}
    (apart : Disjoint (cells k) (keys.biUnion cells)) : Packed cells (insert k keys) := by
  rw [Packed, coe_insert]
  refine Set.PairwiseDisjoint.insert packed fun other member _ => ?_
  exact (disjoint_biUnion_right ..).mp apart other member

/-- What the remaining keys cover when some are taken away. -/
theorem Packed.biUnion_sdiff (packed : Packed cells keys) {taken : Finset κ}
    (subset : taken ⊆ keys) :
    (keys \ taken).biUnion cells = keys.biUnion cells \ taken.biUnion cells := by
  ext x
  simp only [mem_biUnion, mem_sdiff, not_exists, not_and]
  constructor
  · rintro ⟨k, ⟨member, kept⟩, cell⟩
    refine ⟨⟨k, member, cell⟩, fun other taken cell' => ?_⟩
    refine disjoint_left.mp (packed member (subset taken) ?_) cell cell'
    rintro rfl
    exact kept taken
  · rintro ⟨⟨k, member, cell⟩, others⟩
    exact ⟨k, ⟨member, fun taken => others k taken cell⟩, cell⟩

theorem Packed.biUnion_erase (packed : Packed cells keys) {k : κ} (member : k ∈ keys) :
    (keys.erase k).biUnion cells = keys.biUnion cells \ cells k := by
  rw [erase_eq, packed.biUnion_sdiff (singleton_subset_iff.mpr member),
    singleton_biUnion]

end Keys

end SumiEmu.Packing

/-!
## Fields packed into words

A word holds fields of one width side by side. Setting a field is seen
by reading that field and by no other.
-/

namespace SumiEmu.PackedFields

open BitVec

variable {w : Nat}

/-- The mask of the lowest field. -/
def ones (b : Nat) : BitVec w := BitVec.ofNat w (2 ^ b - 1)

/-- Read a field. -/
def field (b : Nat) (word : BitVec w) (k : Nat) : BitVec w := (word >>> (b * k)) &&& ones b

/-- Replace a field. -/
def setField (b : Nat) (word : BitVec w) (k : Nat) (v : BitVec w) : BitVec w :=
  (~~~(ones b <<< (b * k)) &&& word) ||| (v <<< (b * k))

theorem getLsbD_ones (b : Nat) {i : Nat} (inside : i < w) :
    (ones b : BitVec w).getLsbD i = decide (i < b) := by
  rw [ones, getLsbD_ofNat, decide_eq_true inside, Bool.true_and, Nat.testBit_two_pow_sub_one]

variable {b k j n : Nat} {word v : BitVec w}

theorem getLsbD_field (inside : n < w) :
    (field b word k).getLsbD n = (word.getLsbD (b * k + n) && decide (n < b)) := by
  rw [field, getLsbD_and, getLsbD_ushiftRight, getLsbD_ones b inside]

/-- A value that fits the field has no bit above it. -/
theorem getLsbD_eq_false (small : v &&& ones b = v) (above : b ≤ n) : v.getLsbD n = false := by
  by_cases inside : n < w
  · rw [← small, getLsbD_and, getLsbD_ones b inside, decide_eq_false (by omega),
      Bool.and_false]
  · exact getLsbD_of_ge v n (by omega)

/-- Setting changes the bits of the field and no others. -/
theorem getLsbD_setField (small : v &&& ones b = v) (inside : n < w) :
    (setField b word k v).getLsbD n =
      if b * k ≤ n ∧ n < b * k + b then v.getLsbD (n - b * k) else word.getLsbD n := by
  rw [setField, getLsbD_or, getLsbD_and, getLsbD_not, decide_eq_true inside,
    getLsbD_shiftLeft, getLsbD_shiftLeft, decide_eq_true inside]
  by_cases before : n < b * k
  · rw [decide_eq_true before, if_neg (by omega)]
    simp
  · rw [decide_eq_false before, getLsbD_ones b (by omega)]
    by_cases within : n - b * k < b
    · rw [decide_eq_true within, if_pos (by omega)]
      simp
    · rw [decide_eq_false within, getLsbD_eq_false small (by omega), if_neg (by omega)]
      simp

/-- The field that was put is read back. -/
theorem field_setField_same (fits : b * k + b ≤ w) (small : v &&& ones b = v) :
    field b (setField b word k v) k = v := by
  apply eq_of_getLsbD_eq
  intro n inside
  rw [getLsbD_field inside]
  by_cases low : n < b
  · rw [getLsbD_setField small (by omega), if_pos (by omega), Nat.add_sub_cancel_left,
      decide_eq_true low, Bool.and_true]
  · rw [decide_eq_false low, getLsbD_eq_false small (by omega), Bool.and_false]

/-- Every other field keeps its value. -/
theorem field_setField_other (distinct : j ≠ k) (small : v &&& ones b = v) :
    field b (setField b word k v) j = field b word j := by
  apply eq_of_getLsbD_eq
  intro n inside
  rw [getLsbD_field inside, getLsbD_field inside]
  by_cases low : n < b
  · have outside : ¬ (b * k ≤ b * j + n ∧ b * j + n < b * k + b) := by
      rintro ⟨lower, upper⟩
      apply distinct
      have quotient : (b * j + n) / b = j := by
        rw [Nat.mul_add_div (by omega), Nat.div_eq_of_lt low, Nat.add_zero]
      rw [← quotient, Nat.div_eq_iff (by omega), Nat.mul_comm]
      omega
    by_cases within : b * j + n < w
    · rw [getLsbD_setField small within, if_neg outside]
    · rw [getLsbD_of_ge _ _ (by omega), getLsbD_of_ge _ _ (by omega)]
  · rw [decide_eq_false low, Bool.and_false, Bool.and_false]

end SumiEmu.PackedFields
