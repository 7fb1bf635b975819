/-
# Strings of bits

Numbers are written with a given count of bits, the highest first, and read back from the front
of a string. A sequence of fields is read field by field; it comes back when each field does with
anything behind it.
-/

import SumiEmu.Foundations.Numerals

namespace SumiEmu.BitStrings

open List

variable {m n v : Nat} {xs ys : List Bool}

/-! ## Numbers -/

/-- The lowest bits of a number, the highest of them first. -/
def bits : Nat → Nat → List Bool
  | 0, _ => []
  | n + 1, v => v.testBit n :: bits n v

/-- The number that bits stand for. -/
def number (xs : List Bool) : Nat := BigEndian.value 2 (xs.map Bool.toNat)

@[simp]
theorem bits_zero : bits 0 v = [] := rfl

@[simp]
theorem length_bits : (bits n v).length = n := by
  induction n with
  | zero => rfl
  | succ n ih => rw [bits, length_cons, ih]

/-- The bits that are left when the lower ones are taken off, and those. -/
theorem bits_add (m n v : Nat) : bits (m + n) v = bits m (v / 2 ^ n) ++ bits n v := by
  induction m with
  | zero => rw [Nat.zero_add, bits_zero, nil_append]
  | succ m ih => rw [Nat.succ_add, bits, ih, bits, Nat.testBit_div_two_pow, cons_append]

theorem bits_congr (same : ∀ i < n, v.testBit i = m.testBit i) : bits n v = bits n m := by
  induction n with
  | zero => rfl
  | succ n ih =>
    rw [bits, bits, same n n.lt_succ_self, ih fun i inside => same i (Nat.lt_succ_of_lt inside)]

theorem bits_mod (v : Nat) (within : n ≤ m) : bits n (v % 2 ^ m) = bits n v := by
  apply bits_congr
  intro i inside
  rw [Nat.testBit_mod_two_pow, decide_eq_true (Nat.lt_of_lt_of_le inside within), Bool.true_and]

/-- A leading one does not show below it. -/
theorem bits_sub_two_pow (lower : 2 ^ n ≤ v) : bits n (v - 2 ^ n) = bits n v := by
  have above : v = 2 ^ n + (v - 2 ^ n) := (Nat.add_sub_cancel' lower).symm
  rw [← bits_mod v le_rfl]
  conv_rhs => rw [above, Nat.add_mod_left, bits_mod _ le_rfl]

/-- A number without bits is written as zeros. -/
theorem bits_of_zero : bits n 0 = replicate n false := by
  induction n with
  | zero => rfl
  | succ n ih => rw [bits, ih, Nat.zero_testBit, replicate_succ]

@[simp]
theorem number_nil : number [] = 0 := rfl

theorem number_cons (x : Bool) : number (x :: xs) = x.toNat * 2 ^ xs.length + number xs := by
  rw [number, map_cons, BigEndian.value_cons, length_map]
  rfl

theorem number_lt (xs : List Bool) : number xs < 2 ^ xs.length := by
  have bound : BigEndian.value 2 (xs.map Bool.toNat) < 2 ^ (xs.map Bool.toNat).length :=
    BigEndian.value_lt (by decide) fun d member => by
      obtain ⟨x, _, rfl⟩ := mem_map.1 member
      exact Bool.toNat_lt x
  rwa [length_map] at bound

theorem number_bits (n v : Nat) : number (bits n v) = v % 2 ^ n := by
  induction n with
  | zero => rw [bits_zero, number_nil, Nat.pow_zero, Nat.mod_one]
  | succ n ih =>
    rw [bits, number_cons, length_bits, ih, Nat.toNat_testBit, Nat.mod_pow_succ]
    ring

theorem bits_number (xs : List Bool) : bits xs.length (number xs) = xs := by
  induction xs with
  | nil => rfl
  | cons x xs ih =>
    have below := number_lt xs
    have rest : bits xs.length (x.toNat * 2 ^ xs.length + number xs) = xs := by
      rw [← bits_mod _ le_rfl, Nat.mul_add_mod_self_right, bits_mod _ le_rfl, ih]
    have first : (x.toNat * 2 ^ xs.length + number xs).testBit xs.length = x := by
      rw [Nat.mul_comm, Nat.testBit_two_pow_mul_add _ below, if_neg (lt_irrefl _), Nat.sub_self]
      cases x <;> rfl
    rw [length_cons, number_cons, bits, first, rest]

/-- As many bits with the same number are the same bits. -/
theorem eq_bits_of_number (length : xs.length = n) (same : number xs = v) : xs = bits n v := by
  rw [← length, ← same, bits_number]

/-! ## Reading -/

/-- Read a number with a given count of bits. -/
def readNat (n : Nat) (xs : List Bool) : Option (Nat × List Bool) :=
  if n ≤ xs.length then some (number (xs.take n), xs.drop n) else none

theorem readNat_append (small : v < 2 ^ n) (rest : List Bool) :
    readNat n (bits n v ++ rest) = some (v, rest) := by
  rw [readNat, if_pos, take_left' length_bits, drop_left' length_bits, number_bits,
    Nat.mod_eq_of_lt small]
  rw [length_append, length_bits]
  exact Nat.le_add_right n _

theorem readNat_eq_some {rest : List Bool} :
    readNat n xs = some (v, rest) ↔ v < 2 ^ n ∧ xs = bits n v ++ rest := by
  constructor
  · intro read
    rw [readNat] at read
    split_ifs at read with enough
    obtain ⟨rfl, rfl⟩ := Prod.mk.inj (Option.some.inj read)
    have length : (xs.take n).length = n := length_take_of_le enough
    have below := number_lt (xs.take n)
    rw [length] at below
    refine ⟨below, ?_⟩
    rw [← eq_bits_of_number length rfl, take_append_drop]
  · rintro ⟨small, rfl⟩
    exact readNat_append small rest

section Fields

variable {φ α χ : Type*} (read : φ → List Bool → Option (α × List Bool))

/-- Read fields one after the other. -/
def readAll : List φ → List Bool → Option (List α × List Bool)
  | [], xs => some ([], xs)
  | f :: fields, xs => do
    let (a, xs) ← read f xs
    let (as, xs) ← readAll fields xs
    return (a :: as, xs)

variable {read} {f : φ} {fields others : List φ} {a : α} {as : List α}

theorem readAll_cons_eq_some {rest : List Bool} :
    readAll read (f :: fields) xs = some (a :: as, rest) ↔
      ∃ between, read f xs = some (a, between) ∧ readAll read fields between = some (as, rest) := by
  simp only [readAll, Option.bind_eq_bind, Option.bind_eq_some_iff, Option.pure_def,
    Option.some.injEq, Prod.mk.injEq, cons.injEq, Prod.exists]
  constructor
  · rintro ⟨_, between, one, _, _, all, ⟨rfl, rfl⟩, rfl⟩
    exact ⟨between, one, all⟩
  · rintro ⟨between, one, all⟩
    exact ⟨a, between, one, as, rest, all, ⟨rfl, rfl⟩, rfl⟩

/-- Fields that come back one by one come back all together. -/
theorem readAll_flatMap {items : List χ} {field : χ → φ} {item : χ → α} {code : χ → List Bool}
    (back : ∀ x ∈ items, ∀ rest, read (field x) (code x ++ rest) = some (item x, rest))
    (rest : List Bool) :
    readAll read (items.map field) (items.flatMap code ++ rest) = some (items.map item, rest) := by
  induction items with
  | nil => rfl
  | cons x items ih =>
    rw [map_cons, map_cons, flatMap_cons, append_assoc, readAll_cons_eq_some]
    exact ⟨_, back x mem_cons_self _, ih fun y member => back y (mem_cons_of_mem x member)⟩

theorem readAll_append_eq_some {bs : List α} {rest : List Bool}
    (length : fields.length = as.length) :
    readAll read (fields ++ others) xs = some (as ++ bs, rest) ↔
      ∃ between, readAll read fields xs = some (as, between) ∧
        readAll read others between = some (bs, rest) := by
  induction fields generalizing as xs with
  | nil =>
    obtain rfl := length_eq_zero_iff.1 length.symm
    simp [readAll]
  | cons f fields ih =>
    obtain _ | ⟨a, as⟩ := as
    · exact absurd length (Nat.succ_ne_zero _)
    · rw [cons_append, cons_append, readAll_cons_eq_some]
      simp only [readAll_cons_eq_some, ih (Nat.succ.inj length)]
      constructor
      · rintro ⟨middle, one, between, all, last⟩
        exact ⟨between, ⟨middle, one, all⟩, last⟩
      · rintro ⟨between, ⟨middle, one, all⟩, last⟩
        exact ⟨middle, one, between, all, last⟩

end Fields

/-! ## Zeros -/

/-- A string that begins again behind its own start, with nothing but zeros behind it, is all
zeros. -/
theorem eq_zeros_of_prefix_drop {k z : Nat} (shifted : 0 < k)
    (again : xs <+: (xs ++ replicate z false).drop k) : xs = replicate xs.length false := by
  have later : ∀ i, xs[i]? = some true → xs[i + k]? = some true := by
    intro i here
    obtain ⟨rest, whole⟩ := again
    have inside := (List.getElem?_eq_some_iff.1 here).1
    have there : ((xs ++ replicate z false).drop k)[i]? = some true := by
      rw [← whole, getElem?_append_left inside, here]
    rw [getElem?_drop, Nat.add_comm] at there
    by_cases within : i + k < xs.length
    · rwa [getElem?_append_left within] at there
    · rw [getElem?_append_right (Nat.not_lt.1 within)] at there
      have zero := eq_of_mem_replicate (mem_of_getElem? there)
      cases zero
  -- A one would be followed by ones without an end.
  have none_set : ∀ d i, xs.length ≤ i + d → xs[i]? ≠ some true := by
    intro d
    induction d with
    | zero =>
      intro i behind here
      rw [getElem?_eq_none (by omega)] at here
      cases here
    | succ d ih =>
      intro i near here
      exact ih (i + k) (by omega) (later i here)
  rw [eq_replicate_iff]
  refine ⟨rfl, fun x member => ?_⟩
  obtain ⟨i, here⟩ := getElem?_of_mem member
  cases x with
  | false => rfl
  | true => exact absurd here (none_set xs.length i (Nat.le_add_left _ _))

end SumiEmu.BitStrings
