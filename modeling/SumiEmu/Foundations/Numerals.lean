/-
# Numbers with the first digit the highest

The digits of a number are given from the highest to the lowest one, as bytes in a stream or
bits of a byte are.
-/

import Mathlib.Algebra.BigOperators.Group.List.Basic
import Mathlib.Data.List.Induction
import Mathlib.Data.Nat.Digits.Defs

namespace SumiEmu.BigEndian

open Nat List

variable {b d : Nat} {xs ys : List Nat}

/-- The number that digits stand for. -/
def value (b : Nat) (xs : List Nat) : Nat := Nat.ofDigits b xs.reverse

@[simp]
theorem value_nil : value b [] = 0 := rfl

theorem value_append : value b (xs ++ ys) = value b xs * b ^ ys.length + value b ys := by
  rw [value, reverse_append, ofDigits_append, length_reverse, value, value]
  ring

theorem value_singleton : value b [d] = d := ofDigits_singleton

/-- A digit that is put behind the others. -/
theorem value_concat : value b (xs ++ [d]) = value b xs * b + d := by
  rw [value_append, value_singleton, length_singleton, pow_one]

theorem value_cons : value b (d :: xs) = d * b ^ xs.length + value b xs := by
  rw [← singleton_append, value_append, value_singleton]

theorem value_lt (large : 1 < b) (digits : ∀ d ∈ xs, d < b) : value b xs < b ^ xs.length := by
  have bound := ofDigits_lt_base_pow_length (l := xs.reverse) large fun d member =>
    digits d (mem_reverse.mp member)
  rwa [length_reverse] at bound

/-- Digits that stand for groups of digits to a smaller base. -/
theorem value_flatMap {α : Type*} {l : List α} {c n : Nat} {f : α → List Nat} {g : α → Nat}
    (length : ∀ a ∈ l, (f a).length = n) (group : ∀ a ∈ l, value c (f a) = g a) :
    (l.flatMap f).length = n * l.length ∧ value c (l.flatMap f) = value (c ^ n) (l.map g) := by
  induction l using List.reverseRecOn with
  | nil => exact ⟨rfl, rfl⟩
  | append_singleton l a ih =>
    have last : a ∈ l ++ [a] := mem_append_right _ (mem_singleton_self _)
    obtain ⟨length', value'⟩ := ih (fun e member => length e (mem_append_left _ member))
      fun e member => group e (mem_append_left _ member)
    rw [flatMap_append, flatMap_singleton]
    constructor
    · rw [length_append, length', length a last, length_append, length_singleton, mul_succ]
    · rw [value_append, value', length a last, group a last, map_append, map_singleton,
        value_concat]

end SumiEmu.BigEndian

/-!
## Numbers in a mixed radix

A leading part is extended by digits, each below a radix of its own. The number
determines the leading part and all digits, and it lies below the product of the
radices with any bound of the leading part.
-/

namespace SumiEmu.MixedRadix

open Nat List

/-- The number with a leading part and the given pairs of a radix and a digit. -/
def value (lead : Nat) : List (Nat × Nat) → Nat
  | [] => lead
  | (radix, digit) :: rest => value (lead * radix + digit) rest

/-- Every digit lies below its radix. -/
def Proper (digits : List (Nat × Nat)) : Prop := ∀ d ∈ digits, d.2 < d.1

theorem proper_cons {d : Nat × Nat} {digits : List (Nat × Nat)} :
    Proper (d :: digits) ↔ d.2 < d.1 ∧ Proper digits := forall_mem_cons

theorem proper_nil : Proper [] := fun _ absurdity => absurd absurdity not_mem_nil

/-- One digit and what stands before it are the remainder and the quotient. -/
theorem lead_digit_inj {radix a b d e : Nat} (dBelow : d < radix) (eBelow : e < radix)
    (same : a * radix + d = b * radix + e) : a = b ∧ d = e := by
  have positive : 0 < radix := by omega
  have remainder := congrArg (· % radix) same
  simp only [mul_add_mod_of_lt dBelow, mul_add_mod_of_lt eBelow] at remainder
  rw [mul_comm a, mul_comm b] at same
  have quotient := congrArg (· / radix) same
  simp only [mul_add_div positive, div_eq_of_lt dBelow, div_eq_of_lt eBelow,
    add_zero] at quotient
  exact ⟨quotient, remainder⟩

/-- A number determines its leading part and its digits. -/
theorem value_inj {a b : Nat} {digits others : List (Nat × Nat)} (proper : Proper digits)
    (otherProper : Proper others) (radices : digits.map Prod.fst = others.map Prod.fst)
    (same : value a digits = value b others) : a = b ∧ digits = others := by
  induction digits generalizing others a b with
  | nil =>
    cases others with
    | nil => exact ⟨same, rfl⟩
    | cons => cases radices
  | cons d digits ih =>
    cases others with
    | nil => cases radices
    | cons e others =>
      obtain ⟨radix, digit⟩ := d
      obtain ⟨radix', digit'⟩ := e
      obtain ⟨rfl, rest⟩ := List.cons.inj radices
      obtain ⟨below, proper⟩ := proper_cons.mp proper
      obtain ⟨below', otherProper⟩ := proper_cons.mp otherProper
      obtain ⟨leads, rfl⟩ := ih proper otherProper rest same
      obtain ⟨rfl, rfl⟩ := lead_digit_inj below below' leads
      exact ⟨rfl, rfl⟩

theorem value_lt {a bound : Nat} {digits : List (Nat × Nat)} (proper : Proper digits)
    (below : a < bound) : value a digits < bound * (digits.map Prod.fst).prod := by
  induction digits generalizing a bound with
  | nil => simpa [value] using below
  | cons d digits ih =>
    obtain ⟨small, proper⟩ := proper_cons.mp proper
    have step : a * d.1 + d.2 < bound * d.1 := by
      calc a * d.1 + d.2 < a * d.1 + d.1 := Nat.add_lt_add_left small _
        _ = (a + 1) * d.1 := (succ_mul a d.1).symm
        _ ≤ bound * d.1 := mul_le_mul_right _ below
    rw [map_cons, prod_cons, ← mul_assoc]
    exact ih proper step

end SumiEmu.MixedRadix

/-!
## Words written as hex digits

A word of eight hex digits, the digit at each place, and a value of up to sixteen digits taken
apart into a word and the digits above it.
-/

namespace SumiEmu.Foundations

open BitVec Nat

variable {w : Nat}

/-- The hex digit at a place, the last digit being at place `0`. -/
def hexDigit (x : BitVec w) (k : Nat) : BitVec 4 := x.extractLsb' (4 * k) 4

/-- The word with these digits, from left to right. -/
def hexWord (a b c d e f g h : BitVec 4) : BitVec 32 := a ++ b ++ c ++ d ++ e ++ f ++ g ++ h

theorem toNat_hexDigit (x : BitVec w) (k : Nat) :
    (hexDigit x k).toNat = x.toNat / 2 ^ (4 * k) % 16 := by
  simp [hexDigit, shiftRight_eq_div_pow]

theorem toNat_append_add {v : Nat} (x : BitVec w) (y : BitVec v) :
    (x ++ y).toNat = x.toNat * 2 ^ v + y.toNat := by
  rw [toNat_append, Nat.shiftLeft_eq, Nat.mul_comm, Nat.two_pow_add_eq_or_of_lt y.isLt]

theorem toNat_hexWord (a b c d e f g h : BitVec 4) :
    (hexWord a b c d e f g h).toNat =
      a.toNat * 2 ^ 28 + b.toNat * 2 ^ 24 + c.toNat * 2 ^ 20 + d.toNat * 2 ^ 16 +
        e.toNat * 2 ^ 12 + f.toNat * 2 ^ 8 + g.toNat * 2 ^ 4 + h.toNat := by
  simp only [hexWord, toNat_append_add]
  omega

/-- The number that the digits from a place on make, without those from another place on. -/
theorem toNat_shiftRight_and (x : BitVec 32) (k n : Nat) (m : BitVec 32)
    (mask : m.toNat = 2 ^ n - 1) : ((x >>> k) &&& m).toNat = x.toNat / 2 ^ k % 2 ^ n := by
  rw [toNat_and, mask, and_two_pow_sub_one_eq_mod, toNat_ushiftRight, shiftRight_eq_div_pow]

theorem toNat_and_mask (x : BitVec 32) (n : Nat) (m : BitVec 32) (mask : m.toNat = 2 ^ n - 1) :
    (x &&& m).toNat = x.toNat % 2 ^ n := by
  rw [toNat_and, mask, and_two_pow_sub_one_eq_mod]

/-- Two words put together, the high one first. -/
theorem toNat_highLow (high low : BitVec 32) :
    ((high.setWidth 64 <<< 32) ||| low.setWidth 64).toNat = high.toNat * 2 ^ 32 + low.toNat := by
  have highLt := high.isLt
  have lowLt := low.isLt
  rw [toNat_or, toNat_shiftLeft, toNat_setWidth, toNat_setWidth,
    mod_eq_of_lt (by omega : high.toNat < 2 ^ 64), mod_eq_of_lt (by omega : low.toNat < 2 ^ 64),
    Nat.shiftLeft_eq, Nat.mod_eq_of_lt (by omega), Nat.mul_comm, Nat.two_pow_add_eq_or_of_lt lowLt]

end SumiEmu.Foundations
