/-
# Converting between the encodings of Unicode

A string of UTF-16 is written in UTF-8 and read back. A surrogate without its other half is written
in three bytes, as if it were a character, and bytes that begin no sequence are skipped. Reading
stops at a sequence that the string is too short for. An access beyond the end is a fault here.
-/

import Mathlib.Data.Nat.Bitwise
import SumiEmu.Foundations.Fallible

namespace SumiEmu.Common

open Fallible List Nat

/-- How a conversion may fail. -/
inductive UtfFault
  | outOfRange
  | unfinished
  deriving DecidableEq

namespace Utf

/-- A checked access. -/
def at? {α : Type} (input : List α) (i : Nat) : Except UtfFault α :=
  match input[i]? with
  | some a => .ok a
  | none => .error .outOfRange

/-! ## Writing UTF-8 -/

variable (input : List UInt16)

/-- The code point at a position, and the position behind it. -/
def codePointAt (i : Nat) : Except UtfFault (Nat × Nat) := do
  let unit ← at? input i
  if i + 1 < input.length then
    let next ← at? input (i + 1)
    if unit.toNat &&& 0xFC00 = 0xD800 ∧ next.toNat &&& 0xFC00 = 0xDC00 then
      return (0x10000 + ((unit.toNat &&& 0x3FF) <<< 10) + (next.toNat &&& 0x3FF), i + 2)
    else return (unit.toNat, i + 1)
  else return (unit.toNat, i + 1)

/-- A code point in UTF-8. -/
def encodePoint (codePoint : Nat) : List UInt8 :=
  if codePoint < 0x80 then [.ofNat codePoint]
  else if codePoint < 0x800 then
    [.ofNat ((codePoint >>> 6) ||| 0xC0), .ofNat ((codePoint &&& 0x3F) ||| 0x80)]
  else if codePoint < 0x10000 then
    [.ofNat ((codePoint >>> 12) ||| 0xE0), .ofNat (((codePoint >>> 6) &&& 0x3F) ||| 0x80),
      .ofNat ((codePoint &&& 0x3F) ||| 0x80)]
  else
    [.ofNat ((codePoint >>> 18) ||| 0xF0), .ofNat (((codePoint >>> 12) &&& 0x3F) ||| 0x80),
      .ofNat (((codePoint >>> 6) &&& 0x3F) ||| 0x80), .ofNat ((codePoint &&& 0x3F) ||| 0x80)]

/-- The loop over the UTF-16 units. -/
def encodeLoop (input : List UInt16) : Nat → Nat → List UInt8 → Except UtfFault (List UInt8)
  | 0, _, _ => .error .unfinished
  | rounds + 1, i, result =>
    if i < input.length then do
      let (codePoint, i) ← codePointAt input i
      encodeLoop input rounds i (result ++ encodePoint codePoint)
    else .ok result

/-- `UTF16ToUTF8`. Each round takes a unit. -/
def utf16ToUtf8 : Except UtfFault (List UInt8) :=
  encodeLoop input (input.length + 1) 0 []

/-! ## Reading UTF-8 -/

/-- What the decoder finds. -/
inductive Step
  | point (codePoint next : Nat)
  | skip (next : Nat)
  | stop

/-- The decoder at an index. -/
def decodeAt (input : List UInt8) (i : Nat) : Except UtfFault Step := do
  let byte ← at? input i
  if byte.toNat < 0x80 then return .point byte.toNat (i + 1)
  else if byte.toNat &&& 0xE0 = 0xC0 then
    if i + 1 ≥ input.length then return .stop
    else do
      let second ← at? input (i + 1)
      return .point (((byte.toNat &&& 0x1F) <<< 6) ||| (second.toNat &&& 0x3F)) (i + 2)
  else if byte.toNat &&& 0xF0 = 0xE0 then
    if i + 2 ≥ input.length then return .stop
    else do
      let second ← at? input (i + 1)
      let third ← at? input (i + 2)
      return .point (((byte.toNat &&& 0x0F) <<< 12) ||| ((second.toNat &&& 0x3F) <<< 6) |||
        (third.toNat &&& 0x3F)) (i + 3)
  else if byte.toNat &&& 0xF8 = 0xF0 then
    if i + 3 ≥ input.length then return .stop
    else do
      let second ← at? input (i + 1)
      let third ← at? input (i + 2)
      let fourth ← at? input (i + 3)
      return .point (((byte.toNat &&& 0x07) <<< 18) ||| ((second.toNat &&& 0x3F) <<< 12) |||
        ((third.toNat &&& 0x3F) <<< 6) ||| (fourth.toNat &&& 0x3F)) (i + 4)
  else return .skip (i + 1)

/-- The loop that both decoders share, with what is put out for a code point. -/
def decodeLoop {β : Type} (put : Nat → List β) (input : List UInt8) :
    Nat → Nat → List β → Except UtfFault (List β)
  | 0, _, _ => .error .unfinished
  | rounds + 1, i, result =>
    if i < input.length then do
      match ← decodeAt input i with
      | .point codePoint next => decodeLoop put input rounds next (result ++ put codePoint)
      | .skip next => decodeLoop put input rounds next result
      | .stop => .ok result
    else .ok result

/-- The units of a code point: a surrogate pair, or the code point itself. -/
def putUnits (codePoint : Nat) : List UInt16 :=
  if codePoint ≤ 0xFFFF then [.ofNat codePoint]
  else
    let codePoint := codePoint - 0x10000
    [.ofNat (0xD800 + (codePoint >>> 10)), .ofNat (0xDC00 + (codePoint &&& 0x3FF))]

/-- `UTF8ToUTF16`. Each round takes a byte. -/
def utf8ToUtf16 (input : List UInt8) : Except UtfFault (List UInt16) :=
  decodeLoop putUnits input (input.length + 1) 0 []

/-- `UTF8ToUTF32`. -/
def utf8ToUtf32 (input : List UInt8) : Except UtfFault (List Nat) :=
  decodeLoop (fun codePoint => [codePoint]) input (input.length + 1) 0 []

/-! ## Bits and numbers -/

/-- The bits of a mask, as a number. -/
theorem and_mask (n k m : Nat) : n &&& ((2 ^ k - 1) <<< m) = n / 2 ^ m % 2 ^ k * 2 ^ m := by
  have high : (n &&& ((2 ^ k - 1) <<< m)) / 2 ^ m = n / 2 ^ m % 2 ^ k := by
    rw [← shiftRight_eq_div_pow, shiftRight_and_distrib, shiftLeft_shiftRight,
      shiftRight_eq_div_pow, and_two_pow_sub_one_eq_mod]
  have low : (n &&& ((2 ^ k - 1) <<< m)) % 2 ^ m = 0 := by
    rw [and_mod_two_pow, shiftLeft_eq, mul_mod_left, and_zero]
  rw [← div_add_mod (n &&& ((2 ^ k - 1) <<< m)) (2 ^ m), high, low, add_zero, mul_comm]

theorem or_eq_add {high low k : Nat} (multiple : high % 2 ^ k = 0) (small : low < 2 ^ k) :
    high ||| low = high + low := by
  have whole := Nat.mul_div_cancel' (Nat.dvd_of_mod_eq_zero multiple)
  rw [← whole, two_pow_add_eq_or_of_lt small]

section

variable (n : Nat)

theorem and_07 : n &&& 0x07 = n % 8 := and_two_pow_sub_one_eq_mod n 3
theorem and_0F : n &&& 0x0F = n % 16 := and_two_pow_sub_one_eq_mod n 4
theorem and_1F : n &&& 0x1F = n % 32 := and_two_pow_sub_one_eq_mod n 5
theorem and_3F : n &&& 0x3F = n % 64 := and_two_pow_sub_one_eq_mod n 6
theorem and_3FF : n &&& 0x3FF = n % 1024 := and_two_pow_sub_one_eq_mod n 10
theorem and_E0 : n &&& 0xE0 = n / 32 % 8 * 32 := and_mask n 3 5
theorem and_F0 : n &&& 0xF0 = n / 16 % 16 * 16 := and_mask n 4 4
theorem and_F8 : n &&& 0xF8 = n / 8 % 32 * 8 := and_mask n 5 3
theorem and_FC00 : n &&& 0xFC00 = n / 1024 % 64 * 1024 := and_mask n 6 10

end

theorem toNat_byte {n : Nat} (small : n < 256) : (UInt8.ofNat n).toNat = n := by
  rw [UInt8.toNat_ofNat', mod_eq_of_lt small]

theorem toNat_unit {n : Nat} (small : n < 65536) : (UInt16.ofNat n).toNat = n := by
  rw [UInt16.toNat_ofNat', mod_eq_of_lt small]

/-- The bytes of a code point, by quotients and remainders. -/
theorem encodePoint_eq {codePoint : Nat} (small : codePoint < 0x110000) : encodePoint codePoint =
    if codePoint < 0x80 then [.ofNat codePoint]
    else if codePoint < 0x800 then [.ofNat (codePoint / 64 + 192), .ofNat (codePoint % 64 + 128)]
    else if codePoint < 0x10000 then
      [.ofNat (codePoint / 4096 + 224), .ofNat (codePoint / 64 % 64 + 128),
        .ofNat (codePoint % 64 + 128)]
    else [.ofNat (codePoint / 262144 + 240), .ofNat (codePoint / 4096 % 64 + 128),
      .ofNat (codePoint / 64 % 64 + 128), .ofNat (codePoint % 64 + 128)] := by
  have tail : ∀ n : Nat, n % 64 ||| 0x80 = n % 64 + 128 := fun n => by
    rw [lor_comm, or_eq_add (by decide : 0x80 % 2 ^ 6 = 0) (show n % 64 < 2 ^ 6 by omega), add_comm]
  rw [encodePoint]
  simp only [and_3F, tail, shiftRight_eq_div_pow]
  split_ifs with one two three
  · rfl
  · rw [lor_comm, or_eq_add (by decide : 0xC0 % 2 ^ 6 = 0) (by omega), add_comm]
  · rw [lor_comm, or_eq_add (by decide : 0xE0 % 2 ^ 5 = 0) (by omega), add_comm]
  · rw [lor_comm, or_eq_add (by decide : 0xF0 % 2 ^ 4 = 0) (by omega), add_comm]

/-! ## One sequence -/

section Sequences

variable {front rest : List UInt8} {a b c d : UInt8}

theorem at?_append {α : Type} (front tail : List α) (k : Nat) :
    at? (front ++ tail) (front.length + k) = at? tail k := by
  rw [at?, at?, getElem?_append_right (Nat.le_add_right ..), Nat.add_sub_cancel_left]

theorem at?_front {α : Type} (front tail : List α) :
    at? (front ++ tail) front.length = at? tail 0 := at?_append front tail 0

theorem decodeAt_one (lead : a.toNat < 0x80) :
    decodeAt (front ++ a :: rest) front.length = .ok (.point a.toNat (front.length + 1)) := by
  rw [decodeAt, at?_front]
  exact if_pos lead

theorem decodeAt_two (lead : 0xC0 ≤ a.toNat) (lead' : a.toNat < 0xE0) :
    decodeAt (front ++ a :: b :: rest) front.length =
      .ok (.point (a.toNat % 32 * 64 + b.toNat % 64) (front.length + 2)) := by
  have joined : (a.toNat % 32) <<< 6 ||| b.toNat % 64 = a.toNat % 32 * 64 + b.toNat % 64 := by
    rw [← shiftLeft_add_eq_or_of_lt (mod_lt _ (by decide)), shiftLeft_eq]
  rw [decodeAt, at?_front, at?_append]
  simp only [at?, getElem?_cons_zero, getElem?_cons_succ, ok_bind, and_E0, and_1F, and_3F, joined]
  rw [if_neg (by omega), if_pos (by omega), if_neg (by simp)]
  rfl

theorem decodeAt_three (lead : 0xE0 ≤ a.toNat) (lead' : a.toNat < 0xF0) :
    decodeAt (front ++ a :: b :: c :: rest) front.length =
      .ok (.point ((a.toNat % 16 * 64 + b.toNat % 64) * 64 + c.toNat % 64) (front.length + 3)) := by
  have joined : (a.toNat % 16) <<< 12 ||| (b.toNat % 64) <<< 6 ||| c.toNat % 64 =
      (a.toNat % 16 * 64 + b.toNat % 64) * 64 + c.toNat % 64 := by
    simp only [shiftLeft_eq]
    rw [or_eq_add (by omega : a.toNat % 16 * 2 ^ 12 % 2 ^ 12 = 0) (by omega),
      or_eq_add (k := 6) (by omega) (by omega)]
    omega
  rw [decodeAt, at?_front, at?_append, at?_append]
  simp only [at?, getElem?_cons_zero, getElem?_cons_succ, ok_bind, and_E0, and_F0, and_0F, and_3F,
    joined]
  rw [if_neg (by omega), if_neg (by omega), if_pos (by omega), if_neg (by simp)]
  rfl

theorem decodeAt_four (lead : 0xF0 ≤ a.toNat) (lead' : a.toNat < 0xF8) :
    decodeAt (front ++ a :: b :: c :: d :: rest) front.length =
      .ok (.point (((a.toNat % 8 * 64 + b.toNat % 64) * 64 + c.toNat % 64) * 64 + d.toNat % 64)
        (front.length + 4)) := by
  have joined : (a.toNat % 8) <<< 18 ||| (b.toNat % 64) <<< 12 ||| (c.toNat % 64) <<< 6 |||
    d.toNat % 64 = ((a.toNat % 8 * 64 + b.toNat % 64) * 64 + c.toNat % 64) * 64 + d.toNat % 64 := by
    simp only [shiftLeft_eq]
    rw [or_eq_add (by omega : a.toNat % 8 * 2 ^ 18 % 2 ^ 18 = 0) (by omega),
      or_eq_add (by omega : (a.toNat % 8 * 2 ^ 18 + b.toNat % 64 * 2 ^ 12) % 2 ^ 12 = 0)
        (by omega : c.toNat % 64 * 2 ^ 6 < 2 ^ 12),
      or_eq_add (k := 6) (by omega) (by omega)]
    omega
  rw [decodeAt, at?_front, at?_append, at?_append, at?_append]
  simp only [at?, getElem?_cons_zero, getElem?_cons_succ, ok_bind, and_E0, and_F0, and_F8, and_07,
    and_3F, joined]
  rw [if_neg (by omega), if_neg (by omega), if_neg (by omega), if_pos (by omega), if_neg (by simp)]
  rfl

/-- A code point that has been written is read back, whatever stands around it. -/
theorem decodeAt_encodePoint (front rest : List UInt8) {codePoint : Nat}
    (small : codePoint < 0x110000) :
    decodeAt (front ++ (encodePoint codePoint ++ rest)) front.length =
      .ok (.point codePoint (front ++ encodePoint codePoint).length) := by
  rw [encodePoint_eq small]
  split_ifs with one two three
  · rw [singleton_append, decodeAt_one (by rw [toNat_byte (by omega)]; exact one),
      toNat_byte (by omega), length_append, length_singleton]
  · have first := toNat_byte (show codePoint / 64 + 192 < 256 by omega)
    have second := toNat_byte (show codePoint % 64 + 128 < 256 by omega)
    rw [cons_append, singleton_append, decodeAt_two (by omega) (by omega), first, second]
    congr 2
    · omega
    · simp
  · have first := toNat_byte (show codePoint / 4096 + 224 < 256 by omega)
    have second := toNat_byte (show codePoint / 64 % 64 + 128 < 256 by omega)
    have third := toNat_byte (show codePoint % 64 + 128 < 256 by omega)
    rw [cons_append, cons_append, singleton_append, decodeAt_three (by omega) (by omega), first,
      second, third]
    congr 2
    · omega
    · simp
  · have first := toNat_byte (show codePoint / 262144 + 240 < 256 by omega)
    have second := toNat_byte (show codePoint / 4096 % 64 + 128 < 256 by omega)
    have third := toNat_byte (show codePoint / 64 % 64 + 128 < 256 by omega)
    have fourth := toNat_byte (show codePoint % 64 + 128 < 256 by omega)
    rw [cons_append, cons_append, cons_append, singleton_append,
      decodeAt_four (by omega) (by omega), first, second, third, fourth]
    congr 2
    · omega
    · simp

end Sequences

/-! ## Whole strings -/

/-- A step stops, or goes on behind the position and inside the string. -/
def Step.Passes (input : List UInt8) (i : Nat) : Step → Prop
  | .point _ next => i < next ∧ next ≤ input.length
  | .skip next => i < next ∧ next ≤ input.length
  | .stop => True

/-- No byte beyond the end is looked at. -/
theorem decodeAt_ok {input : List UInt8} {i : Nat} (inside : i < input.length) :
    ∃ step, decodeAt input i = .ok step ∧ step.Passes input i := by
  have read : ∀ k, k < input.length → ∃ byte, at? input k = .ok byte := fun k inside =>
    ⟨input[k], by rw [at?, getElem?_eq_getElem inside]⟩
  obtain ⟨byte, first⟩ := read i inside
  rw [decodeAt, first, ok_bind]
  split_ifs with one two short three short four short
  · exact ⟨_, rfl, lt_succ_self i, inside⟩
  · exact ⟨.stop, rfl, trivial⟩
  · obtain ⟨_, second⟩ := read (i + 1) (by omega)
    rw [second, ok_bind]
    exact ⟨_, rfl, by omega, by omega⟩
  · exact ⟨.stop, rfl, trivial⟩
  · obtain ⟨_, second⟩ := read (i + 1) (by omega)
    obtain ⟨_, third⟩ := read (i + 2) (by omega)
    rw [second, ok_bind, third, ok_bind]
    exact ⟨_, rfl, by omega, by omega⟩
  · exact ⟨.stop, rfl, trivial⟩
  · obtain ⟨_, second⟩ := read (i + 1) (by omega)
    obtain ⟨_, third⟩ := read (i + 2) (by omega)
    obtain ⟨_, fourth⟩ := read (i + 3) (by omega)
    rw [second, ok_bind, third, ok_bind, fourth, ok_bind]
    exact ⟨_, rfl, by omega, by omega⟩
  · exact ⟨_, rfl, lt_succ_self i, inside⟩

theorem decodeLoop_ok {β : Type} (put : Nat → List β) (input : List UInt8) {rounds i : Nat}
    (result : List β)
    (inside : i ≤ input.length) (enough : input.length < rounds + i) :
    ∃ output, decodeLoop put input rounds i result = .ok output := by
  induction rounds generalizing i result with
  | zero => omega
  | succ rounds ih =>
    rw [decodeLoop]
    split_ifs with more
    · obtain ⟨step, read, passes⟩ := decodeAt_ok more
      rw [read, ok_bind]
      cases step with
      | point codePoint next => exact ih _ passes.2 (by have := passes.1; omega)
      | skip next => exact ih _ passes.2 (by have := passes.1; omega)
      | stop => exact ⟨result, rfl⟩
    · exact ⟨result, rfl⟩

theorem length_encodePoint_pos (codePoint : Nat) : 0 < (encodePoint codePoint).length := by
  rw [encodePoint]
  split_ifs
  all_goals exact succ_pos _

/-- Code points that have been written are read back. -/
theorem decodeLoop_flatMap {β : Type} (put : Nat → List β) {codePoints : List Nat}
    (small : ∀ codePoint ∈ codePoints, codePoint < 0x110000) (front : List UInt8) (result : List β)
    {rounds : Nat}
    (enough : (codePoints.flatMap encodePoint).length < rounds) :
    decodeLoop put (front ++ codePoints.flatMap encodePoint) rounds front.length result =
      .ok (result ++ codePoints.flatMap put) := by
  induction codePoints generalizing front result rounds with
  | nil =>
    obtain ⟨rounds, rfl⟩ : ∃ n, rounds = n + 1 := exists_eq_succ_of_ne_zero (by omega)
    rw [flatMap_nil, flatMap_nil, append_nil, append_nil, decodeLoop, if_neg (lt_irrefl _)]
  | cons codePoint codePoints ih =>
    have positive := length_encodePoint_pos codePoint
    rw [flatMap_cons, length_append] at enough
    obtain ⟨rounds, rfl⟩ : ∃ n, rounds = n + 1 := exists_eq_succ_of_ne_zero (by omega)
    have behind := ih (fun c member => small c (mem_cons_of_mem _ member))
      (front ++ encodePoint codePoint) (result ++ put codePoint)
      (show (codePoints.flatMap encodePoint).length < rounds by omega)
    rw [append_assoc, append_assoc] at behind
    rw [flatMap_cons, flatMap_cons, decodeLoop, if_pos (by simp only [length_append]; omega),
      decodeAt_encodePoint front _ (small codePoint mem_cons_self), ok_bind]
    exact behind

/-! ## Units and code points -/

/-- The code points of a string of UTF-16, unpaired surrogates among them. -/
def points : List UInt16 → List Nat
  | [] => []
  | [unit] => [unit.toNat]
  | unit :: next :: rest =>
    if unit.toNat &&& 0xFC00 = 0xD800 ∧ next.toNat &&& 0xFC00 = 0xDC00 then
      (0x10000 + ((unit.toNat &&& 0x3FF) <<< 10) + (next.toNat &&& 0x3FF)) :: points rest
    else unit.toNat :: points (next :: rest)

theorem codePointAt_last (front : List UInt16) (unit : UInt16) :
    codePointAt (front ++ [unit]) front.length = .ok (unit.toNat, front.length + 1) := by
  have first : at? (front ++ [unit]) front.length = .ok unit := at?_front front [unit]
  rw [codePointAt, first, ok_bind, if_neg (by simp)]
  rfl

theorem codePointAt_cons (front : List UInt16) (unit next : UInt16) (rest : List UInt16) :
    codePointAt (front ++ unit :: next :: rest) front.length =
      if unit.toNat &&& 0xFC00 = 0xD800 ∧ next.toNat &&& 0xFC00 = 0xDC00 then
        .ok (0x10000 + ((unit.toNat &&& 0x3FF) <<< 10) + (next.toNat &&& 0x3FF), front.length + 2)
      else .ok (unit.toNat, front.length + 1) := by
  have first : at? (front ++ unit :: next :: rest) front.length = .ok unit :=
    at?_front front (unit :: next :: rest)
  have second : at? (front ++ unit :: next :: rest) (front.length + 1) = .ok next :=
    at?_append front (unit :: next :: rest) 1
  rw [codePointAt, first, ok_bind, if_pos (by simp), second]
  rfl

theorem encodeLoop_eq (front tail : List UInt16) (result : List UInt8) {rounds : Nat}
    (enough : tail.length < rounds) :
    encodeLoop (front ++ tail) rounds front.length result =
      .ok (result ++ (points tail).flatMap encodePoint) := by
  induction tail using points.induct generalizing front result rounds with
  | case1 =>
    obtain ⟨rounds, rfl⟩ : ∃ n, rounds = n + 1 := exists_eq_succ_of_ne_zero (by omega)
    rw [append_nil, encodeLoop, if_neg (lt_irrefl _), points, flatMap_nil, append_nil]
  | case2 unit =>
    rw [length_singleton] at enough
    obtain ⟨rounds, rfl⟩ : ∃ n, rounds = n + 2 := Nat.exists_eq_add_of_le' enough
    rw [encodeLoop, if_pos (by simp), codePointAt_last, ok_bind]
    dsimp only
    rw [encodeLoop, if_neg (by simp), points, flatMap_singleton]
  | case3 unit next rest pair ih =>
    rw [length_cons, length_cons] at enough
    obtain ⟨rounds, rfl⟩ : ∃ n, rounds = n + 1 := exists_eq_succ_of_ne_zero (by omega)
    have behind := ih (front ++ [unit, next])
      (result ++ encodePoint (0x10000 + ((unit.toNat &&& 0x3FF) <<< 10) + (next.toNat &&& 0x3FF)))
      (show rest.length < rounds by omega)
    rw [append_assoc, append_assoc, length_append] at behind
    rw [encodeLoop, if_pos (by simp), codePointAt_cons, if_pos pair, ok_bind, points, if_pos pair,
      flatMap_cons]
    exact behind
  | case4 unit next rest single ih =>
    rw [length_cons] at enough
    obtain ⟨rounds, rfl⟩ : ∃ n, rounds = n + 1 := exists_eq_succ_of_ne_zero (by omega)
    have behind := ih (front ++ [unit]) (result ++ encodePoint unit.toNat)
      (show (next :: rest).length < rounds by omega)
    rw [append_assoc, append_assoc, length_append] at behind
    rw [encodeLoop, if_pos (by simp), codePointAt_cons, if_neg single, ok_bind, points,
      if_neg single, flatMap_cons]
    exact behind

theorem points_lt : ∀ codePoint ∈ points input, codePoint < 0x110000 := by
  induction input using points.induct with
  | case1 => simp [points]
  | case2 unit =>
    have small := unit.toNat_lt
    simp only [points, mem_singleton, forall_eq]
    omega
  | case3 unit next rest pair ih =>
    rw [points, if_pos pair, forall_mem_cons]
    refine ⟨?_, ih⟩
    rw [and_3FF, and_3FF, shiftLeft_eq]
    omega
  | case4 unit next rest single ih =>
    have small := unit.toNat_lt
    rw [points, if_neg single, forall_mem_cons]
    exact ⟨by omega, ih⟩

theorem putUnits_toNat (unit : UInt16) : putUnits unit.toNat = [unit] := by
  have small := unit.toNat_lt
  rw [putUnits, if_pos (by omega), UInt16.ofNat_toNat]

theorem putUnits_pair {unit next : UInt16}
    (pair : unit.toNat &&& 0xFC00 = 0xD800 ∧ next.toNat &&& 0xFC00 = 0xDC00) :
    putUnits (0x10000 + ((unit.toNat &&& 0x3FF) <<< 10) + (next.toNat &&& 0x3FF)) =
      [unit, next] := by
  obtain ⟨high, low⟩ := pair
  have small := unit.toNat_lt
  have small' := next.toNat_lt
  rw [and_FC00] at high low
  rw [and_3FF, and_3FF, shiftLeft_eq, putUnits, if_neg (by omega)]
  simp only [and_3FF, shiftRight_eq_div_pow]
  rw [show 0xD800 + (0x10000 + unit.toNat % 1024 * 2 ^ 10 + next.toNat % 1024 - 0x10000) / 2 ^ 10 =
    unit.toNat by omega, show 0xDC00 + (0x10000 + unit.toNat % 1024 * 2 ^ 10 + next.toNat % 1024 -
    0x10000) % 1024 = next.toNat by omega, UInt16.ofNat_toNat, UInt16.ofNat_toNat]

theorem flatMap_putUnits_points : (points input).flatMap putUnits = input := by
  induction input using points.induct with
  | case1 => rfl
  | case2 unit => rw [points, flatMap_singleton, putUnits_toNat]
  | case3 unit next rest pair ih =>
      rw [points, if_pos pair, flatMap_cons, putUnits_pair pair, ih]; rfl
  | case4 unit next rest single ih =>
      rw [points, if_neg single, flatMap_cons, putUnits_toNat, ih]; rfl

theorem points_cons {unit : UInt16} (plain : unit.toNat &&& 0xFC00 ≠ 0xD800) (rest : List UInt16) :
    points (unit :: rest) = unit.toNat :: points rest := by
  cases rest with
  | nil => rfl
  | cons next rest => rw [points, if_neg fun pair => plain pair.1]

/-- A character is no surrogate. -/
theorem char_cases (c : Char) : c.toNat < 0xD800 ∨ 0xDFFF < c.toNat ∧ c.toNat < 0x110000 := c.valid

/-- Characters are read as they have been written, for none of them is a surrogate. -/
theorem points_flatMap_putUnits (cs : List Char) :
    points ((cs.map Char.toNat).flatMap putUnits) = cs.map Char.toNat := by
  induction cs with
  | nil => rfl
  | cons c cs ih =>
    have valid := char_cases c
    rw [map_cons, flatMap_cons]
    by_cases plain : c.toNat ≤ 0xFFFF
    · have unit := toNat_unit (show c.toNat < 65536 by omega)
      have notHigh : (UInt16.ofNat c.toNat).toNat &&& 0xFC00 ≠ 0xD800 := by
        rw [unit, and_FC00]
        omega
      rw [putUnits, if_pos plain, singleton_append, points_cons notHigh, unit, ih]
    · have high := toNat_unit (show 0xD800 + (c.toNat - 0x10000) / 2 ^ 10 < 65536 by omega)
      have low := toNat_unit (show 0xDC00 + (c.toNat - 0x10000) % 1024 < 65536 by omega)
      have whole : 0x10000 + (0xD800 + (c.toNat - 0x10000) / 2 ^ 10) % 1024 * 2 ^ 10 +
          (0xDC00 + (c.toNat - 0x10000) % 1024) % 1024 = c.toNat := by
        omega
      rw [putUnits, if_neg plain]
      simp only [and_3FF, shiftRight_eq_div_pow]
      rw [cons_append, singleton_append, points, if_pos, ih, high, low, and_3FF, and_3FF,
        shiftLeft_eq, whole]
      rw [high, low, and_FC00, and_FC00]
      omega

theorem encodePoint_toNat (c : Char) : encodePoint c.toNat = String.utf8EncodeChar c := by
  have valid := char_cases c
  obtain ⟨n, same⟩ : ∃ n, c.toNat = n := ⟨_, rfl⟩
  have same' : c.val.toNat = n := same
  rw [same] at valid
  rw [same, encodePoint_eq (by omega)]
  simp only [String.utf8EncodeChar, same']
  split_ifs
  all_goals first | omega | skip
  · rfl
  · congr 2
    omega
  · congr 2
    omega
  · congr 2
    omega

/-- Both directions keep all strings that they are meant for, and any string of bytes is read. -/
theorem converts :
    (∀ input : List UInt16, ∃ bytes, utf16ToUtf8 input = .ok bytes ∧
      utf8ToUtf16 bytes = .ok input) ∧
    (∀ cs : List Char, ∃ units, utf8ToUtf16 (cs.flatMap String.utf8EncodeChar) = .ok units ∧
      utf16ToUtf8 units = .ok (cs.flatMap String.utf8EncodeChar) ∧
      utf8ToUtf32 (cs.flatMap String.utf8EncodeChar) = .ok (cs.map Char.toNat)) ∧
    ∀ input : List UInt8, (∃ units, utf8ToUtf16 input = .ok units) ∧
      ∃ codePoints, utf8ToUtf32 input = .ok codePoints := by
  have encodes : ∀ input : List UInt16, utf16ToUtf8 input =
    .ok ((points input).flatMap encodePoint) := fun input =>
    encodeLoop_eq [] input [] (lt_succ_self _)
  refine ⟨fun input => ⟨_, encodes input, ?_⟩, fun cs => ?_, fun input => ⟨?_, ?_⟩⟩
  · have read := decodeLoop_flatMap putUnits (points_lt input) [] [] (lt_succ_self _)
    rw [flatMap_putUnits_points] at read
    exact read
  · have small : ∀ codePoint ∈ cs.map Char.toNat, codePoint < 0x110000 := by
      intro codePoint member
      obtain ⟨c, -, rfl⟩ := mem_map.mp member
      have valid := char_cases c
      omega
    have written : cs.flatMap String.utf8EncodeChar = (cs.map Char.toNat).flatMap encodePoint := by
      rw [flatMap_map]
      exact congrArg (cs.flatMap ·) (funext fun c => (encodePoint_toNat c).symm)
    rw [written]
    refine ⟨_, decodeLoop_flatMap putUnits small [] [] (lt_succ_self _), ?_, ?_⟩
    · rw [nil_append, encodes, points_flatMap_putUnits]
    · have read := decodeLoop_flatMap (fun codePoint => [codePoint]) small [] [] (lt_succ_self _)
      rw [flatMap_singleton'] at read
      exact read
  · exact decodeLoop_ok putUnits input [] (zero_le _) (lt_succ_self _)
  · exact decodeLoop_ok _ input [] (zero_le _) (lt_succ_self _)

end Utf

end SumiEmu.Common
