/-
# Words made of two halves

A word of twice the width is the concatenation of its high and its low half. Sums and differences
take a carry or a borrow from the low half to the high one. A shift by less than the width moves
bits from one half to the other, and a shift by at least the width leaves only bits of one half.
-/

import Mathlib.Data.BitVec
import Mathlib.Tactic.Ring

namespace SumiEmu.WordHalves

open Nat

variable {w : Nat} {hi lo hi' lo' : BitVec w} {s : Nat}

theorem toNat_append (hi lo : BitVec w) : (hi ++ lo).toNat = hi.toNat * 2 ^ w + lo.toNat := by
  rw [BitVec.toNat_append, shiftLeft_eq, mul_comm, two_pow_add_eq_or_of_lt lo.isLt]

/-- Two halves of a number, each reduced on its own. -/
theorem mod_halves {b x y : Nat} (small : y < b) : (x * b + y) % (b * b) = x % b * b + y := by
  have positive : 0 < b := zero_lt_of_lt small
  rw [mod_mul, mul_comm x b, mul_add_mod, mod_eq_of_lt small,
    mul_add_div positive, div_eq_of_lt small, add_zero, add_comm, mul_comm]

theorem append_eq_of_toNat {x : BitVec (w + w)} {h l : Nat} (low : lo.toNat = l % 2 ^ w)
    (high : hi.toNat = (h + l / 2 ^ w) % 2 ^ w)
    (whole : x.toNat = (h * 2 ^ w + l) % 2 ^ (w + w)) : x = hi ++ lo := by
  apply BitVec.eq_of_toNat_eq
  have split := div_add_mod l (2 ^ w)
  have small := Nat.mod_lt l (Nat.two_pow_pos w)
  have regroup : h * 2 ^ w + l = (h + l / 2 ^ w) * 2 ^ w + l % 2 ^ w := by
    rw [add_mul, mul_comm (l / 2 ^ w)]
    omega
  rw [whole, toNat_append, low, high, regroup, pow_add, mod_halves small]

/-! ## Sums and differences -/

/-- The carry out of a sum. -/
def carry (x y : BitVec w) : Bool := 2 ^ w ≤ x.toNat + y.toNat

theorem div_eq_carry (x y : BitVec w) : (x.toNat + y.toNat) / 2 ^ w = (carry x y).toNat := by
  have smallX := x.isLt
  have smallY := y.isLt
  rw [carry]
  by_cases wraps : 2 ^ w ≤ x.toNat + y.toNat
  · rw [decide_eq_true wraps, Bool.toNat_true]
    exact Nat.div_eq_of_lt_le (by omega) (by omega)
  · rw [decide_eq_false wraps, Bool.toNat_false]
    exact div_eq_of_lt (by omega)

theorem append_add (hi lo hi' lo' : BitVec w) : (hi ++ lo) + (hi' ++ lo') =
    (hi + hi' + BitVec.ofNat w (carry lo lo').toNat) ++ (lo + lo') := by
  refine append_eq_of_toNat (h := hi.toNat + hi'.toNat) (l := lo.toNat + lo'.toNat) ?_ ?_ ?_
  · exact BitVec.toNat_add ..
  · rw [div_eq_carry, BitVec.toNat_add, BitVec.toNat_add, BitVec.toNat_ofNat, mod_add_mod,
      add_mod_mod]
  · rw [BitVec.toNat_add, toNat_append, toNat_append]
    congr 1
    ring

theorem append_not (hi lo : BitVec w) : ~~~(hi ++ lo) = ~~~hi ++ ~~~lo := BitVec.not_append

theorem toNat_sub_of_lt {x y : BitVec w} (below : x.toNat < y.toNat) :
    (x - y).toNat = 2 ^ w - y.toNat + x.toNat := by
  have smallY := y.isLt
  rw [BitVec.toNat_sub, mod_eq_of_lt (by omega)]

/-- A difference borrows exactly when it is larger than what was subtracted from. -/
theorem ult_sub (x y : BitVec w) : x.ult (x - y) = x.ult y := by
  have smallY := y.isLt
  rw [BitVec.ult_eq_decide, BitVec.ult_eq_decide, decide_eq_decide]
  by_cases below : x.toNat < y.toNat
  · rw [toNat_sub_of_lt below]
    omega
  · rw [BitVec.toNat_sub_of_le (BitVec.le_def.2 (Nat.le_of_not_lt below))]
    omega

/-- Adding back what was subtracted carries exactly when the difference borrowed. -/
theorem carry_sub (x y : BitVec w) : carry (x - y) y = x.ult y := by
  have smallX := x.isLt
  have smallY := y.isLt
  rw [carry, BitVec.ult_eq_decide, decide_eq_decide]
  by_cases below : x.toNat < y.toNat
  · rw [toNat_sub_of_lt below]
    omega
  · rw [BitVec.toNat_sub_of_le (BitVec.le_def.2 (Nat.le_of_not_lt below))]
    omega

theorem append_sub (hi lo hi' lo' : BitVec w) : (hi ++ lo) - (hi' ++ lo') =
    (hi - hi' - BitVec.ofNat w (lo.ult lo').toNat) ++ (lo - lo') := by
  rw [BitVec.sub_eq_iff_eq_add, append_add, carry_sub, BitVec.sub_add_cancel]
  congr 1
  rw [BitVec.sub_eq_add_neg (hi - hi'), BitVec.add_assoc _ _ hi', BitVec.add_comm _ hi',
    ← BitVec.add_assoc, BitVec.sub_add_cancel, ← BitVec.sub_eq_add_neg, BitVec.sub_add_cancel]

theorem append_neg (hi lo : BitVec w) : -(hi ++ lo) =
    (~~~hi + BitVec.ofNat w (carry (~~~lo) 1#w).toNat) ++ (~~~lo + 1#w) := by
  have one : 1#(w + w) = 0#w ++ 1#w := by
    apply append_eq_of_toNat (h := 0) (l := 1)
    · exact BitVec.toNat_ofNat 1 w
    · cases w <;> simp [div_eq_of_lt]
    · rw [zero_mul, zero_add]
      exact BitVec.toNat_ofNat 1 (w + w)
  rw [BitVec.neg_eq_not_add, append_not, one, append_add, BitVec.add_zero]

/-! ## Shifts -/

/-- The bits of the whole are those of the halves. -/
theorem eq_append_of_bits {x : BitVec (w + w)}
    (low : ∀ i, i < w → x.getLsbD i = lo.getLsbD i)
    (high : ∀ i, i < w → x.getLsbD (w + i) = hi.getLsbD i) : x = hi ++ lo := by
  apply BitVec.eq_of_getLsbD_eq
  intro i inside
  rw [BitVec.getLsbD_append]
  by_cases below : i < w
  · rw [if_pos below, low i below]
  · have moved := high (i - w) (by omega)
    rw [Nat.add_sub_of_le (Nat.le_of_not_lt below)] at moved
    rw [if_neg below, moved]

theorem getLsbD_low (hi lo : BitVec w) {i : Nat} (inside : i < w) :
    (hi ++ lo).getLsbD i = lo.getLsbD i := by
  rw [BitVec.getLsbD_append, if_pos inside]

theorem getLsbD_high (hi lo : BitVec w) {i : Nat} (beyond : w ≤ i) :
    (hi ++ lo).getLsbD i = hi.getLsbD (i - w) := by
  rw [BitVec.getLsbD_append, if_neg (not_lt.2 beyond)]

theorem setWidth_append_low (hi lo : BitVec w) : (hi ++ lo).setWidth w = lo := by
  apply BitVec.eq_of_getLsbD_eq
  intro i inside
  rw [BitVec.getLsbD_setWidth, getLsbD_low hi lo inside]
  simp [inside]

theorem setWidth_append_high (hi lo : BitVec w) : ((hi ++ lo) >>> w).setWidth w = hi := by
  apply BitVec.eq_of_getLsbD_eq
  intro i inside
  rw [BitVec.getLsbD_setWidth, BitVec.getLsbD_ushiftRight, getLsbD_high hi lo (by omega),
    Nat.add_sub_cancel_left]
  simp [inside]

theorem append_halves (x : BitVec (w + w)) : (x >>> w).setWidth w ++ x.setWidth w = x := by
  symm
  apply eq_append_of_bits
  · intro i inside
    rw [BitVec.getLsbD_setWidth]
    simp [inside]
  · intro i inside
    rw [BitVec.getLsbD_setWidth, BitVec.getLsbD_ushiftRight]
    simp [inside]

theorem append_shiftLeft (small : s ≤ w) :
    (hi ++ lo) <<< s = (hi <<< s ||| lo >>> (w - s)) ++ (lo <<< s) := by
  apply eq_append_of_bits
  · intro i inside
    have inWhole : i < w + w := by omega
    rw [BitVec.getLsbD_shiftLeft, BitVec.getLsbD_shiftLeft, getLsbD_low hi lo (by omega)]
    simp only [inside, inWhole]
  · intro i inside
    have inWhole : w + i < w + w := by omega
    have notLow : ¬ w + i < s := by omega
    rw [BitVec.getLsbD_shiftLeft, BitVec.getLsbD_or, BitVec.getLsbD_shiftLeft,
      BitVec.getLsbD_ushiftRight]
    by_cases fromLow : i < s
    · rw [getLsbD_low hi lo (by omega), show w + i - s = w - s + i by omega]
      simp [inWhole, notLow, fromLow]
    · rw [getLsbD_high hi lo (by omega), show w + i - s - w = i - s by omega,
        BitVec.getLsbD_of_ge lo (w - s + i) (by omega)]
      simp [inside, notLow, fromLow]

theorem append_shiftLeft_of_le (long : w ≤ s) :
    (hi ++ lo) <<< s = (lo <<< (s - w)) ++ 0#w := by
  apply eq_append_of_bits
  · intro i inside
    have shiftedOut : i < s := by omega
    rw [BitVec.getLsbD_shiftLeft, BitVec.getLsbD_zero]
    simp [shiftedOut]
  · intro i inside
    rw [BitVec.getLsbD_shiftLeft, BitVec.getLsbD_shiftLeft, show i - (s - w) = w + i - s by omega]
    by_cases shiftedOut : w + i < s
    · have alsoOut : i < s - w := by omega
      simp [shiftedOut, alsoOut]
    · have alsoIn : ¬ i < s - w := by omega
      rw [getLsbD_low hi lo (by omega)]
      simp [shiftedOut, alsoIn, inside]

theorem append_ushiftRight (small : s ≤ w) :
    (hi ++ lo) >>> s = (hi >>> s) ++ (lo >>> s ||| hi <<< (w - s)) := by
  apply eq_append_of_bits
  · intro i inside
    rw [BitVec.getLsbD_ushiftRight, BitVec.getLsbD_or, BitVec.getLsbD_ushiftRight,
      BitVec.getLsbD_shiftLeft]
    by_cases fromLow : s + i < w
    · have notMoved : i < w - s := by omega
      rw [getLsbD_low hi lo fromLow]
      simp [notMoved]
    · have moved : ¬ i < w - s := by omega
      rw [getLsbD_high hi lo (by omega), BitVec.getLsbD_of_ge lo (s + i) (by omega),
        show s + i - w = i - (w - s) by omega]
      simp [inside, moved]
  · intro i inside
    rw [BitVec.getLsbD_ushiftRight, BitVec.getLsbD_ushiftRight, getLsbD_high hi lo (by omega),
      show s + (w + i) - w = s + i by omega]

theorem append_ushiftRight_of_le (long : w ≤ s) :
    (hi ++ lo) >>> s = 0#w ++ (hi >>> (s - w)) := by
  apply eq_append_of_bits
  · intro i inside
    rw [BitVec.getLsbD_ushiftRight, BitVec.getLsbD_ushiftRight, getLsbD_high hi lo (by omega),
      show s + i - w = s - w + i by omega]
  · intro i inside
    rw [BitVec.getLsbD_ushiftRight, BitVec.getLsbD_zero]
    exact BitVec.getLsbD_of_ge _ _ (by omega)

/-- A bit of an arithmetic shift, read inside the word. -/
theorem getLsbD_sshiftRight {n : Nat} (x : BitVec n) {i : Nat} (inside : i < n) :
    (x.sshiftRight s).getLsbD i = if s + i < n then x.getLsbD (s + i) else x.msb := by
  rw [BitVec.getLsbD_sshiftRight]
  simp [not_le.2 inside]

theorem msb_halves (positive : 0 < w) (hi lo : BitVec w) : (hi ++ lo).msb = hi.msb := by
  rw [BitVec.msb_append, if_neg (ne_of_gt positive)]

theorem append_sshiftRight (positive : 0 < w) (small : s ≤ w) :
    (hi ++ lo).sshiftRight s = (hi.sshiftRight s) ++ (lo >>> s ||| hi <<< (w - s)) := by
  apply eq_append_of_bits
  · intro i inside
    -- The low half never sees the sign, so it is that of the logical shift.
    have logical : ((hi ++ lo) >>> s).getLsbD i = (lo >>> s ||| hi <<< (w - s)).getLsbD i := by
      rw [append_ushiftRight small, getLsbD_low _ _ inside]
    rw [getLsbD_sshiftRight _ (by omega), if_pos (by omega)]
    rw [BitVec.getLsbD_ushiftRight] at logical
    exact logical
  · intro i inside
    rw [getLsbD_sshiftRight _ (by omega), getLsbD_sshiftRight _ inside, msb_halves positive]
    by_cases fromHigh : s + i < w
    · rw [if_pos fromHigh, if_pos (by omega), getLsbD_high hi lo (by omega),
        show s + (w + i) - w = s + i by omega]
    · rw [if_neg fromHigh, if_neg (by omega)]

theorem append_sshiftRight_of_le (positive : 0 < w) (long : w ≤ s) : (hi ++ lo).sshiftRight s =
    (hi.sshiftRight (w - 1)) ++ (hi.sshiftRight (s - w)) := by
  apply eq_append_of_bits
  · intro i inside
    rw [getLsbD_sshiftRight _ (by omega), getLsbD_sshiftRight _ inside, msb_halves positive]
    by_cases fromHigh : s - w + i < w
    · rw [if_pos fromHigh, if_pos (by omega), getLsbD_high hi lo (by omega),
        show s + i - w = s - w + i by omega]
    · rw [if_neg fromHigh, if_neg (by omega)]
  · intro i inside
    rw [getLsbD_sshiftRight _ (by omega), getLsbD_sshiftRight _ inside, msb_halves positive,
      if_neg (by omega)]
    by_cases top : w - 1 + i < w
    · -- Only the topmost bit itself is still inside, and it is the sign.
      rw [if_pos top, show w - 1 + i = w - 1 by omega, BitVec.msb_eq_getLsbD_last]
    · rw [if_neg top]

end SumiEmu.WordHalves
