/-
# Depositing bits

A list of places sends bits of a word to new positions. When the targets ascend, the
deposited word is the sum of the powers that its bits contribute. Deposits with no
common target have no common bit, and a word under a mask is the deposit that leaves
every bit of the mask where it is.
-/

import Mathlib.Data.BitVec
import Mathlib.Algebra.BigOperators.Group.List.Basic

namespace SumiEmu.Deposit

open Nat List

variable {w : Nat}

/-- Add the bit of one place: a source position and a target position. -/
def place (value result : BitVec w) (p : Nat × Nat) : BitVec w :=
  if value.getLsbD p.1 then result ||| BitVec.twoPow w p.2 else result

/-- Send the bits of a word to their targets. -/
def deposit (places : List (Nat × Nat)) (value : BitVec w) : BitVec w :=
  places.foldl (place value) 0

/-- What the places contribute to the number of the deposited word. -/
def weight (places : List (Nat × Nat)) (n : Nat) : Nat :=
  (places.map fun p => n / 2 ^ p.1 % 2 * 2 ^ p.2).sum

variable {places others : List (Nat × Nat)} {value result : BitVec w} {p : Nat × Nat}

theorem getLsbD_eq_div (value : BitVec w) (i : Nat) :
    value.getLsbD i = decide (value.toNat / 2 ^ i % 2 = 1) := by
  rw [BitVec.getLsbD, testBit_eq_decide_div_mod_eq]

theorem toNat_place (value : BitVec w) (fits : p.2 < w) (below : result.toNat < 2 ^ p.2) :
    (place value result p).toNat = result.toNat + value.toNat / 2 ^ p.1 % 2 * 2 ^ p.2 := by
  have bit := mod_two_eq_zero_or_one (value.toNat / 2 ^ p.1)
  rw [place, getLsbD_eq_div]
  rcases bit with bit | bit
  · rw [bit, if_neg (by decide), zero_mul, add_zero]
  · rw [bit, if_pos (by decide), BitVec.toNat_or, BitVec.toNat_twoPow_of_lt fits, Nat.or_comm,
      one_mul, add_comm]
    have joined := two_pow_add_eq_or_of_lt below 1
    rw [mul_one] at joined
    exact joined.symm

private theorem toNat_foldl_place (fits : ∀ p ∈ places, p.2 < w)
    (ascending : places.Pairwise fun p q => p.2 < q.2)
    (below : ∀ p ∈ places, result.toNat < 2 ^ p.2) :
    (places.foldl (place value) result).toNat = result.toNat + weight places value.toNat := by
  induction places generalizing result with
  | nil => rfl
  | cons p rest ih =>
    obtain ⟨first, ascending⟩ := pairwise_cons.mp ascending
    have step := toNat_place value (fits p mem_cons_self) (below p mem_cons_self)
    rw [foldl_cons, ih (fun q member => fits q (mem_cons_of_mem _ member)) ascending,
      step, weight, weight, map_cons, sum_cons, add_assoc]
    intro q member
    -- the new bit stands below the next target
    have room : 2 ^ (p.2 + 1) ≤ 2 ^ q.2 := Nat.pow_le_pow_right (by decide) (first q member)
    have small := below p mem_cons_self
    have bit : value.toNat / 2 ^ p.1 % 2 * 2 ^ p.2 ≤ 1 * 2 ^ p.2 :=
      Nat.mul_le_mul_right _ (Nat.lt_succ_iff.mp (Nat.mod_lt _ (by decide)))
    rw [pow_succ] at room
    omega

/-- A deposit with ascending targets is the sum of what its places contribute. -/
theorem toNat_deposit (fits : ∀ p ∈ places, p.2 < w)
    (ascending : places.Pairwise fun p q => p.2 < q.2) (value : BitVec w) :
    (deposit places value).toNat = weight places value.toNat := by
  rw [deposit, toNat_foldl_place fits ascending]
  · exact zero_add _
  · intro p _
    exact Nat.two_pow_pos p.2

private theorem getLsbD_foldl_place (k : Nat) :
    (places.foldl (place value) result).getLsbD k = true ↔
      result.getLsbD k = true ∨ k < w ∧ ∃ p ∈ places, p.2 = k ∧ value.getLsbD p.1 = true := by
  induction places generalizing result with
  | nil => simp
  | cons p rest ih =>
    rw [foldl_cons, ih, place]
    by_cases set : value.getLsbD p.1 = true
    · rw [if_pos set]
      simp only [BitVec.getLsbD_or, BitVec.getLsbD_twoPow, Bool.or_eq_true, Bool.and_eq_true,
        decide_eq_true_eq, mem_cons, exists_eq_or_imp, set, and_true]
      grind
    · rw [if_neg set]
      simp only [mem_cons, exists_eq_or_imp, set]
      grind

/-- A bit of a deposit is set when a set bit was sent there. -/
theorem getLsbD_deposit (places : List (Nat × Nat)) (value : BitVec w) (k : Nat) :
    (deposit places value).getLsbD k = true ↔
      k < w ∧ ∃ p ∈ places, p.2 = k ∧ value.getLsbD p.1 = true := by
  rw [deposit, getLsbD_foldl_place]
  simp

/-- Deposits with no common target have no common bit. -/
theorem deposit_and_deposit (apart : ∀ p ∈ places, ∀ q ∈ others, p.2 ≠ q.2) (a b : BitVec w) :
    deposit places a &&& deposit others b = 0 := by
  apply BitVec.eq_of_getLsbD_eq
  intro k _
  rw [BitVec.getLsbD_and, show (0 : BitVec w).getLsbD k = false from BitVec.getLsbD_zero,
    Bool.and_eq_false_iff]
  by_contra both
  simp only [not_or, Bool.not_eq_false] at both
  obtain ⟨_, p, pMember, pTarget, _⟩ := (getLsbD_deposit places a k).mp both.1
  obtain ⟨_, q, qMember, qTarget, _⟩ := (getLsbD_deposit others b k).mp both.2
  exact apart p pMember q qMember (pTarget.trans qTarget.symm)

/-- A mask that has every target keeps the deposit. -/
theorem deposit_and {mask : BitVec w} (inside : ∀ p ∈ places, mask.getLsbD p.2 = true)
    (value : BitVec w) : deposit places value &&& mask = deposit places value := by
  apply BitVec.eq_of_getLsbD_eq
  intro k _
  rw [BitVec.getLsbD_and, Bool.and_eq_left_iff_imp]
  intro set
  obtain ⟨_, p, member, rfl, _⟩ := (getLsbD_deposit places value k).mp set
  exact inside p member

/-- Masking keeps the bits of the mask where they are. -/
theorem and_eq_deposit {mask : BitVec w} {bits : List Nat}
    (selects : ∀ k < w, mask.getLsbD k = decide (k ∈ bits)) (value : BitVec w) :
    value &&& mask = deposit (bits.map fun k => (k, k)) value := by
  apply BitVec.eq_of_getLsbD_eq
  intro k inside
  rw [BitVec.getLsbD_and, selects k inside, Bool.eq_iff_iff, getLsbD_deposit]
  simp [inside, and_comm]

end SumiEmu.Deposit
