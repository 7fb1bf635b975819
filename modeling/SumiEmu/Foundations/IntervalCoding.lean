/-
# Interval coding of bits

An interval of numbers is split in two for each bit, and the part of the bit is taken and
scaled up again. Any number of the last interval, written with as many digits as the scaling
asks for, leads a decoder that splits its own ranges in the same way back to the bits.
-/

import SumiEmu.Foundations.Numerals

namespace SumiEmu.IntervalCoding

open Nat List

variable {π : Type*}

/-- How ranges are split and scaled. -/
structure Splitting (π : Type*) where
  split : Nat → π → Nat
  shift : Nat → Nat
  proper : Nat → Prop
  split_le {range : Nat} (p : π) : proper range → split range p ≤ range
  proper_low {range : Nat} (p : π) : proper range →
    proper (split range p * 2 ^ shift (split range p))
  proper_high {range : Nat} (p : π) :
    proper range → proper ((range - split range p) * 2 ^ shift (range - split range p))

/-- The numbers from the lower end on, as many as the range is long, at some scale. -/
structure Interval where
  low : Nat
  range : Nat
  scale : Nat
  deriving DecidableEq

namespace Splitting

variable (c : Splitting π)

/-- The part of the interval that stands for a bit, before it is scaled up. -/
def part (i : Interval) (w : Bool × π) : Nat × Nat :=
  if w.1 then (i.low + c.split i.range w.2, i.range - c.split i.range w.2)
    else (i.low, c.split i.range w.2)

/-- One bit is coded. -/
def encode (i : Interval) (w : Bool × π) : Interval :=
  let (low, range) := c.part i w
  ⟨low * 2 ^ c.shift range, range * 2 ^ c.shift range, i.scale + c.shift range⟩

/-- Several bits are coded. -/
def encodeAll (i : Interval) (ws : List (Bool × π)) : Interval := ws.foldl c.encode i

end Splitting

/-- Bits are taken into a number from its low end on. -/
def refill : Nat → Nat → List Nat → Option (Nat × List Nat)
  | 0, value, bits => some (value, bits)
  | _ + 1, _, [] => none
  | n + 1, value, b :: bits => refill n (2 * value + b) bits

theorem refill_append {front bits : List Nat} : ∀ {value : Nat},
    refill front.length value (front ++ bits) =
    some (value * 2 ^ front.length + BigEndian.value 2 front, bits) := by
  induction front with
  | nil =>
    intro value
    simp [refill]
  | cons b front ih =>
    intro value
    rw [length_cons, cons_append, refill, ih, BigEndian.value_cons]
    congr 2
    ring

namespace Splitting

variable (c : Splitting π)

/-- The decoder compares the number that it has with the split. -/
def decodeBit (value range : Nat) (bits : List Nat) (p : π) :
    Option (Bool × Nat × Nat × List Nat) :=
  let s := c.split range p
  let (bit, value, range) := if value < s then (false, value, s) else (true, value - s, range - s)
  (refill (c.shift range) value bits).map fun (value, bits) =>
    (bit, value, range * 2 ^ c.shift range, bits)

/-- Several bits are decoded. -/
def decodeAll : Nat → Nat → List Nat → List π → Option (List Bool)
  | _, _, _, [] => some []
  | value, range, bits, p :: ps => do
    let (bit, value, range, bits) ← c.decodeBit value range bits p
    let rest ← decodeAll value range bits ps
    return bit :: rest

variable {c} {i : Interval} {w : Bool × π} {ws : List (Bool × π)}

theorem proper_encode (proper : c.proper i.range) : c.proper (c.encode i w).range := by
  obtain ⟨bit, p⟩ := w
  cases bit with
  | false => exact c.proper_low p proper
  | true => exact c.proper_high p proper

theorem scale_encode : (c.encode i w).scale = i.scale + c.shift (c.part i w).2 := rfl

/-- The part lies inside of the interval. -/
theorem part_inside (proper : c.proper i.range) :
    i.low ≤ (c.part i w).1 ∧ (c.part i w).1 + (c.part i w).2 ≤ i.low + i.range := by
  obtain ⟨bit, p⟩ := w
  have within := c.split_le p proper
  cases bit with
  | false => exact ⟨Nat.le_refl _, Nat.add_le_add_left within _⟩
  | true =>
    change i.low ≤ i.low + c.split i.range p ∧
      i.low + c.split i.range p + (i.range - c.split i.range p) ≤ i.low + i.range
    omega

/-- Later intervals lie inside of the earlier ones, scaled up. -/
theorem encodeAll_inside (ws : List (Bool × π)) : ∀ {i : Interval}, c.proper i.range →
    ∃ n, (c.encodeAll i ws).scale = i.scale + n ∧ i.low * 2 ^ n ≤ (c.encodeAll i ws).low ∧
      (c.encodeAll i ws).low + (c.encodeAll i ws).range ≤ (i.low + i.range) * 2 ^ n := by
  induction ws with
  | nil => exact fun _ => ⟨0, rfl, by simp [encodeAll], by simp [encodeAll]⟩
  | cons w ws ih =>
    intro i proper
    obtain ⟨n, scale, lower, upper⟩ := ih (proper_encode proper (w := w))
    obtain ⟨low, high⟩ := part_inside proper (w := w)
    refine ⟨c.shift (c.part i w).2 + n, ?_, ?_, ?_⟩
    · rw [encodeAll, foldl_cons, ← encodeAll, scale, scale_encode, add_assoc]
    · calc i.low * 2 ^ (c.shift (c.part i w).2 + n) ≤
        (c.part i w).1 * 2 ^ (c.shift (c.part i w).2 + n) :=
            mul_le_mul_right _ low
        _ = (c.encode i w).low * 2 ^ n := by
            rw [encode, pow_add, ← mul_assoc]
        _ ≤ _ := lower
    · calc _ ≤ ((c.encode i w).low + (c.encode i w).range) * 2 ^ n := upper
        _ = ((c.part i w).1 + (c.part i w).2) * 2 ^ (c.shift (c.part i w).2 + n) := by
            rw [encode, pow_add]
            ring
        _ ≤ _ := mul_le_mul_right _ high

theorem proper_decodeBit {value range value' range' : Nat} {bits bits' : List Nat} {bit : Bool}
    {p : π}
    (proper : c.proper range)
    (decoded : c.decodeBit value range bits p = some (bit, value', range', bits')) :
    c.proper range' := by
  unfold decodeBit at decoded
  by_cases low : value < c.split range p
  · simp only [if_pos low, Option.map_eq_some_iff, Prod.mk.injEq] at decoded
    obtain ⟨filled, -, -, -, rfl, -⟩ := decoded
    exact c.proper_low p proper
  · simp only [if_neg low, Option.map_eq_some_iff, Prod.mk.injEq] at decoded
    obtain ⟨filled, -, -, -, rfl, -⟩ := decoded
    exact c.proper_high p proper

/-- A number with its digits lies in an interval that has been scaled up just where its leading
part lies in the interval. -/
theorem lead_between {code lead low range rest r : Nat} (split : code = lead * 2 ^ r + rest)
    (small : rest < 2 ^ r)
    (lower : low * 2 ^ r ≤ code) (upper : code < (low + range) * 2 ^ r) :
    low ≤ lead ∧ lead < low + range := by
  subst split
  constructor
  · by_contra below
    have step : (lead + 1) * 2 ^ r ≤ low * 2 ^ r := Nat.mul_le_mul_right _ (Nat.lt_of_not_le below)
    rw [add_mul, one_mul] at step
    omega
  · by_contra above
    have step : (low + range) * 2 ^ r ≤ lead * 2 ^ r :=
      Nat.mul_le_mul_right _ (Nat.le_of_not_lt above)
    omega

/-- The decoder finds the bit of the part in which its number lies. -/
theorem decodeBit_eq {value : Nat} {front bits : List Nat}
    (length : front.length = c.shift (c.part i w).2)
    (lower : (c.part i w).1 ≤ i.low + value)
    (upper : i.low + value < (c.part i w).1 + (c.part i w).2) :
    c.decodeBit value i.range (front ++ bits) w.2 =
      some (w.1, (i.low + value - (c.part i w).1) * 2 ^ front.length + BigEndian.value 2 front,
        (c.encode i w).range, bits) := by
  obtain ⟨bit, p⟩ := w
  unfold decodeBit
  cases bit with
  | false =>
    change front.length = c.shift (c.split i.range p) at length
    change i.low + value < i.low + c.split i.range p at upper
    have low : value < c.split i.range p := by omega
    simp only [if_pos low]
    rw [← length, refill_append, Option.map_some]
    change some (false, value * 2 ^ front.length + _, _, bits) =
      some (false, (i.low + value - i.low) * 2 ^ front.length + _,
        c.split i.range p * 2 ^ c.shift (c.split i.range p), bits)
    rw [← length, Nat.add_sub_cancel_left]
  | true =>
    change front.length = c.shift (i.range - c.split i.range p) at length
    change i.low + c.split i.range p ≤ i.low + value at lower
    have high : ¬ value < c.split i.range p := by omega
    simp only [if_neg high]
    rw [← length, refill_append, Option.map_some]
    change some (true, (value - c.split i.range p) * 2 ^ front.length + _, _, bits) =
      some (true, (i.low + value - (i.low + c.split i.range p)) * 2 ^ front.length + _,
        (i.range - c.split i.range p) * 2 ^ c.shift (i.range - c.split i.range p), bits)
    rw [← length, Nat.add_sub_add_left]

/-- A number of the last interval is decoded to the bits. -/
theorem decodeAll_encodeAll (ws : List (Bool × π)) :
    ∀ {i : Interval} {value n : Nat} {bits : List Nat},
    c.proper i.range → (∀ b ∈ bits, b < 2) → (c.encodeAll i ws).scale + n = i.scale + bits.length →
    (c.encodeAll i ws).low * 2 ^ n ≤ (i.low + value) * 2 ^ bits.length + BigEndian.value 2 bits →
    (i.low + value) * 2 ^ bits.length + BigEndian.value 2 bits <
      ((c.encodeAll i ws).low + (c.encodeAll i ws).range) * 2 ^ n →
    c.decodeAll value i.range bits (ws.map Prod.snd) = some (ws.map Prod.fst) := by
  induction ws with
  | nil => exact fun _ _ _ _ _ => rfl
  | cons w ws ih =>
    intro i value n bits proper digits scale lower upper
    obtain ⟨k, scale', lower', upper'⟩ := encodeAll_inside ws (proper_encode proper (w := w))
    rw [encodeAll, foldl_cons, ← encodeAll] at scale lower upper
    have total : c.shift (c.part i w).2 + (k + n) = bits.length := by
      rw [scale', scale_encode] at scale
      omega
    have scaled : ∀ x : Nat, x * 2 ^ c.shift (c.part i w).2 * 2 ^ k * 2 ^ n =
        x * 2 ^ bits.length := by
      intro x
      rw [← total, pow_add, pow_add]
      ring
    have low : (c.part i w).1 * 2 ^ bits.length ≤
        (i.low + value) * 2 ^ bits.length + BigEndian.value 2 bits := by
      rw [← scaled]
      exact (mul_le_mul_right _ lower').trans lower
    have high : (i.low + value) * 2 ^ bits.length + BigEndian.value 2 bits <
        ((c.part i w).1 + (c.part i w).2) * 2 ^ bits.length := by
      rw [← scaled ((c.part i w).1 + (c.part i w).2), add_mul (c.part i w).1]
      exact upper.trans_le (mul_le_mul_right _ upper')
    obtain ⟨begins, ends⟩ := lead_between rfl (BigEndian.value_lt (by decide) digits) low high
    -- The decoder takes as many bits as the part is scaled up by.
    obtain ⟨front, back, rfl, length⟩ : ∃ front back, bits = front ++ back ∧
      front.length = c.shift (c.part i w).2 :=
      ⟨bits.take _, bits.drop _, (take_append_drop ..).symm, length_take_of_le (by omega)⟩
    have moved : (c.encode i w).low +
      ((i.low + value - (c.part i w).1) * 2 ^ front.length + BigEndian.value 2 front) =
      (i.low + value) * 2 ^ front.length + BigEndian.value 2 front := by
      change (c.part i w).1 * 2 ^ c.shift (c.part i w).2 + _ = _
      rw [← length, ← Nat.add_assoc, ← Nat.add_mul, Nat.add_sub_cancel' begins]
    have code : ((c.encode i w).low +
      ((i.low + value - (c.part i w).1) * 2 ^ front.length + BigEndian.value 2 front)) *
      2 ^ back.length + BigEndian.value 2 back =
      (i.low + value) * 2 ^ (front ++ back).length + BigEndian.value 2 (front ++ back) := by
      rw [moved, BigEndian.value_append, length_append, pow_add]
      ring
    rw [length_append] at total
    have rest := ih (proper_encode proper (w := w))
      (fun b member => digits b (mem_append_right _ member))
      (by rw [scale', scale_encode]; omega) (code ▸ lower) (code ▸ upper)
    rw [map_cons, decodeAll, decodeBit_eq length begins ends]
    simp only [Option.bind_eq_bind, Option.bind_some, rest, map_cons]
    rfl

end Splitting

end SumiEmu.IntervalCoding
