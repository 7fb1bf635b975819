/-
# When VP9 headers read back

A difference that is not zero is written without its sign, so that the format reads one bit more
than there is. From there on the reader is ahead of the writer, and stays ahead: it takes no fewer
bits than have been written. What comes last among the ones that follow is then read as something
else, since only zeros follow it. So there are none, and the sign that is read is that of a
positive value.
-/

import SumiEmu.VideoCore.VpxBitStreamWriter

namespace SumiEmu.VideoCore

open BitStrings BitWriter List Option Nat

namespace VP9

variable {xs rest : List Bool} {n : Nat} {value : Int}

/-! ## The reader -/

/-- A magnitude with a sign. -/
def ofSign (sign : Bool) (magnitude : Nat) : Int := if sign then -magnitude else magnitude

theorem bits_one (v : Nat) : bits 1 v = [v.testBit 0] := rfl

theorem readNat_one (x : Bool) : readNat 1 (x :: xs) = some (x.toNat, xs) := by
  cases x <;> rfl

theorem readSu_eq_some :
    readSu n xs = some (value, rest) ↔ ∃ magnitude sign, magnitude < 2 ^ n ∧
      xs = bits n magnitude ++ sign :: rest ∧ value = ofSign sign magnitude := by
  constructor
  · intro read
    simp only [readSu, Option.bind_eq_bind, Option.bind_eq_some_iff, Option.pure_def,
      Option.some.injEq, Prod.exists, Prod.mk.injEq] at read
    obtain ⟨magnitude, between, first, sign, _, second, rfl, rfl⟩ := read
    obtain ⟨small, rfl⟩ := readNat_eq_some.1 first
    obtain ⟨single, rfl⟩ := readNat_eq_some.1 second
    refine ⟨magnitude, sign.testBit 0, small, rfl, ?_⟩
    have bit : sign = 0 ∨ sign = 1 := by omega
    rcases bit with rfl | rfl <;> rfl
  · rintro ⟨magnitude, sign, small, rfl, rfl⟩
    rw [readSu, readNat_append small]
    cases sign <;> rfl

theorem readDeltaQ_eq_some :
    readDeltaQ xs = some (value, rest) ↔ (xs = false :: rest ∧ value = 0) ∨
      ∃ magnitude sign, magnitude < 2 ^ 4 ∧ xs = true :: (bits 4 magnitude ++ sign :: rest) ∧
        value = ofSign sign magnitude := by
  cases xs with
  | nil =>
    constructor
    · intro read
      cases read
    · rintro (⟨absurdity, _⟩ | ⟨_, _, _, absurdity, _⟩) <;> cases absurdity
  | cons x xs =>
    cases x with
    | false =>
      have flag : readDeltaQ (false :: xs) = some (0, xs) := by
        rw [readDeltaQ, readNat_one]
        rfl
      rw [flag, Option.some.injEq, Prod.mk.injEq, cons.injEq]
      constructor
      · rintro ⟨rfl, rfl⟩
        exact .inl ⟨⟨rfl, rfl⟩, rfl⟩
      · rintro (⟨⟨_, rfl⟩, rfl⟩ | ⟨_, _, _, absurdity, _⟩)
        · exact ⟨rfl, rfl⟩
        · cases absurdity
    | true =>
      have flag : readDeltaQ (true :: xs) = readSu 4 xs := by
        rw [readDeltaQ, readNat_one]
        rfl
      rw [flag, readSu_eq_some]
      constructor
      · rintro ⟨magnitude, sign, small, rfl, rfl⟩
        exact .inr ⟨magnitude, sign, small, rfl, rfl⟩
      · rintro (⟨absurdity, _⟩ | ⟨magnitude, sign, small, same, rfl⟩)
        · cases absurdity
        · obtain ⟨_, rfl⟩ := cons.inj same
          exact ⟨magnitude, sign, small, rfl, rfl⟩

end VP9

namespace VpxBitStreamWriter

variable {w : BitWriter} {xs : List Bool} {value valueSize : BitVec 32}

/-! ## The words that are written -/

theorem signedWord_intMin : signedWord (BitVec.intMin 32) = 1 := by decide

theorem toNat_signedWord (inRange : value ≠ BitVec.intMin 32) :
    (signedWord value).toNat = 2 * value.toInt.natAbs + (decide (value.toInt < 0)).toNat := by
  have below := value.isLt
  have range : value.toNat ≠ 2 ^ 31 := fun least => inRange (BitVec.eq_of_toNat_eq least)
  have magnitude : (if value.toInt < 0 then -value else value).toNat = value.toInt.natAbs := by
    split_ifs with negative
    · rw [BitVec.toNat_neg]
      rw [BitVec.toInt_eq_toNat_cond] at negative ⊢
      split_ifs at negative ⊢ <;> omega
    · rw [BitVec.toInt_eq_toNat_cond] at negative ⊢
      split_ifs at negative ⊢ <;> omega
  have bound : value.toInt.natAbs < 2 ^ 31 := by
    rw [BitVec.toInt_eq_toNat_cond]
    split_ifs <;> omega
  have doubled : ((if value.toInt < 0 then -value else value) <<< 1).toNat =
      2 * value.toInt.natAbs := by
    rw [BitVec.toNat_shiftLeft, magnitude, shiftLeft_eq, mod_eq_of_lt (by omega)]
    omega
  have sign : (if value.toInt < 0 then 1 else 0 : BitVec 32).toNat =
      (decide (value.toInt < 0)).toNat := by
    by_cases negative : value.toInt < 0
    · rw [if_pos negative, decide_eq_true negative]
      rfl
    · rw [if_neg negative, decide_eq_false negative]
      rfl
  have joined := two_pow_add_eq_or_of_lt (i := 1) (Bool.toNat_lt (decide (value.toInt < 0)))
    value.toInt.natAbs
  rw [signedWord, BitVec.toNat_or, doubled, sign, ← joined]

/-- The count of a signed value is one more than its size, unless nothing is written at all. -/
theorem count_cases (valueSize : BitVec 32) :
    (valueSize + 1).toInt.toNat = valueSize.toNat + 1 ∨
      (valueSize + 1).toInt.toNat = 0 ∧ 2 ^ 31 ≤ valueSize.toNat + 1 := by
  have below := valueSize.isLt
  have sum : (valueSize + 1).toNat = (valueSize.toNat + 1) % 2 ^ 32 := BitVec.toNat_add _ _
  rw [BitVec.toInt_eq_toNat_cond]
  split_ifs <;> omega

theorem toNat_count (valueSize : BitVec 32) (small : valueSize.toNat + 1 < 2 ^ 31) :
    (valueSize + 1).toNat = valueSize.toNat + 1 := by
  rw [BitVec.toNat_add, show (1 : BitVec 32).toNat = 1 from rfl, mod_eq_of_lt (by omega)]

namespace Write

/-- The bits that a call writes. -/
def code : Write → List Bool
  | .u value valueSize => bits valueSize.toNat value.toNat
  | .bit state => [state]
  | .s value valueSize => bits (valueSize + 1).toInt.toNat (signedWord value).toNat
  | .deltaQ value => if value = 0 then [false] else true :: bits 4 value.toNat

/-- A call writes as many bits as it is meant to. -/
def Complete (write : Write) : Prop := write.code.length = write.length

variable {write : Write}

theorem complete_or (write : Write) :
    write.Complete ∨ write.code = [] ∧ 2 ^ 31 ≤ write.length := by
  cases write with
  | u value valueSize => exact .inl length_bits
  | bit state => exact .inl rfl
  | s value valueSize =>
    obtain count | ⟨count, giant⟩ := count_cases valueSize
    · refine .inl ?_
      rw [Complete, code, length_bits, count, Write.length]
    · refine .inr ⟨?_, giant⟩
      rw [code, count, bits_zero]
  | deltaQ value =>
    refine .inl ?_
    rw [Complete, code, Write.length]
    split_ifs
    · rfl
    · rw [length_cons, length_bits]

theorem Fits.complete {pos : Nat} (fits : write.Fits pos) : write.Complete := by
  obtain complete | ⟨_, giant⟩ := write.complete_or
  · exact complete
  · cases write with
    | s value valueSize =>
      have small : valueSize.toNat + 1 < 32 + (8 - pos % 8) := fits
      rw [Write.length] at giant
      omega
    | u value valueSize => exact length_bits
    | bit state => rfl
    | deltaQ value =>
      rw [Write.length] at giant
      split_ifs at giant <;> omega

/-- A signed value in range is written as its magnitude and its sign. -/
theorem code_s (inRange : value ≠ BitVec.intMin 32)
    (complete : (Write.s value valueSize).Complete) : (Write.s value valueSize).code =
      bits valueSize.toNat value.toInt.natAbs ++ [decide (value.toInt < 0)] := by
  have count : (valueSize + 1).toInt.toNat = valueSize.toNat + 1 := by
    rwa [Complete, code, length_bits, Write.length] at complete
  rw [code, count, toNat_signedWord inRange, bits_add, pow_one, VP9.bits_one]
  cases decide (value.toInt < 0)
  · rw [Bool.toNat_false, Nat.add_zero, Nat.mul_div_cancel_left _ (by decide), Nat.testBit_zero,
      mul_mod_right]
    rfl
  · rw [Bool.toNat_true, mul_add_div (by decide), testBit_zero, mul_add_mod]
    rfl

end Write

/-! ## The writer -/

theorem holds_writeBits (holds : w.Holds xs) (value bitCount : BitVec 32)
    (narrow : bitCount.toNat < 32 + (8 - xs.length % 8)) :
    ∃ w', writeBits value bitCount w = .ok w' ∧ w'.Holds (xs ++ bits bitCount.toNat value.toNat) :=
  holds.writeBits (fun _ _ => rfl) narrow

theorem holds_writeBit (holds : w.Holds xs) (state : Bool) :
    ∃ w', writeBit state w = .ok w' ∧ w'.Holds (xs ++ [state]) := by
  have bit : bits (1 : BitVec 32).toNat (if state then 1 else 0 : BitVec 32).toNat = [state] := by
    cases state <;> rfl
  have written := holds_writeBits holds (if state then 1 else 0) 1
    (by rw [show (1 : BitVec 32).toNat = 1 from rfl]; omega)
  rwa [bit] at written

/-- A call either fails, as the shift of a signed value is too large, or writes its code. -/
theorem write_cases (holds : w.Holds xs) {write : Write} (admissible : write.Admissible) :
    (∃ w', VpxBitStreamWriter.write w write = .ok w' ∧ w'.Holds (xs ++ write.code) ∧
      (write.Complete → write.Fits xs.length)) ∨
    VpxBitStreamWriter.write w write = .error .shift ∧ ¬ write.Fits xs.length := by
  have room := mod_lt xs.length (show 0 < 8 by decide)
  cases write with
  | u value valueSize =>
    obtain ⟨few, _⟩ := admissible
    obtain ⟨w', written, holds⟩ := holds_writeBits holds value valueSize (by omega)
    exact .inl ⟨w', written, holds, fun _ => trivial⟩
  | bit state =>
    obtain ⟨w', written, holds⟩ := holds_writeBit holds state
    exact .inl ⟨w', written, holds, fun _ => trivial⟩
  | s value valueSize =>
    obtain count | ⟨count, giant⟩ := count_cases valueSize
    · by_cases narrow : valueSize.toNat + 1 < 32 + (8 - xs.length % 8)
      · have same := toNat_count valueSize (by omega)
        obtain ⟨w', written, holds⟩ :=
          holds_writeBits holds (signedWord value) (valueSize + 1) (by omega)
        refine .inl ⟨w', written, ?_, fun _ => narrow⟩
        rwa [Write.code, count, ← same]
      · exact .inr ⟨holds.writeBits_error (by omega), narrow⟩
    · refine .inl ⟨w, ?_, ?_, fun complete => ?_⟩
      · show BitWriter.writeBits _ _ _ w = _
        rw [BitWriter.writeBits, count]
        rfl
      · rwa [Write.code, count, bits_zero, append_nil]
      · rw [Write.Complete, Write.code, count, bits_zero, length_nil, Write.length] at complete
        omega
  | deltaQ value =>
    obtain ⟨between, first, holds⟩ := holds_writeBit holds (decide (value ≠ 0))
    by_cases zero : value = 0
    · rw [decide_eq_false (not_not.2 zero)] at first holds
      refine .inl ⟨between, ?_, ?_, fun _ => trivial⟩
      · show writeDeltaQ value w = _
        simp only [writeDeltaQ, ne_eq, zero, not_true_eq_false, decide_false, first,
          Fallible.ok_bind, if_false, Fallible.pure_eq_ok]
      · rwa [Write.code, if_pos zero]
    · rw [decide_eq_true zero] at first holds
      have room := mod_lt (xs ++ [true]).length (show 0 < 8 by decide)
      obtain ⟨w', second, holds⟩ := holds_writeBits holds value 4
        (by rw [show (4 : BitVec 32).toNat = 4 from rfl]; omega)
      refine .inl ⟨w', ?_, ?_, fun _ => trivial⟩
      · show writeDeltaQ value w = _
        simp only [writeDeltaQ, ne_eq, zero, not_false_eq_true, decide_true, first,
          Fallible.ok_bind, if_true, second]
      · rw [Write.code, if_neg zero]
        rwa [append_assoc] at holds

variable {writes : List Write}

/-- Where all shifts fit, the codes are written one behind the other. -/
theorem holds_foldlM (holds : w.Holds xs)
    (admissible : ∀ write ∈ writes, write.Admissible) (fits : FitAll xs.length writes) :
    ∃ w', writes.foldlM write w = .ok w' ∧ w'.Holds (xs ++ writes.flatMap Write.code) := by
  induction writes generalizing w xs with
  | nil => exact ⟨w, rfl, by rwa [flatMap_nil, append_nil]⟩
  | cons write writes ih =>
    obtain ⟨first, later⟩ := fits
    obtain ⟨between, written, holds, _⟩ | ⟨_, wide⟩ :=
      write_cases holds (admissible write mem_cons_self)
    · have complete : write.code.length = write.length := first.complete
      obtain ⟨w', others, holds⟩ :=
        ih holds (fun other member => admissible other (mem_cons_of_mem _ member))
        (by rwa [length_append, complete])
      refine ⟨w', ?_, ?_⟩
      · rw [foldlM_cons, written, Fallible.ok_bind, others]
      · rwa [append_assoc, ← flatMap_cons] at holds
    · exact absurd first wide

/-- What does not fail writes its codes, and then all shifts fit. -/
theorem holds_of_foldlM {w' : BitWriter} (holds : w.Holds xs)
    (admissible : ∀ write ∈ writes, write.Admissible) (ran : writes.foldlM write w = .ok w') :
    w'.Holds (xs ++ writes.flatMap Write.code) ∧
      ((∀ write ∈ writes, write.Complete) → FitAll xs.length writes) := by
  induction writes generalizing w xs with
  | nil =>
    cases ran
    exact ⟨by rwa [flatMap_nil, append_nil], fun _ => trivial⟩
  | cons write writes ih =>
    rw [foldlM_cons, Fallible.bind_eq_ok] at ran
    obtain ⟨between, written, ran⟩ := ran
    obtain ⟨_, same, holds, fits⟩ | ⟨failed, _⟩ :=
      write_cases holds (admissible write mem_cons_self)
    · cases written.symm.trans same
      obtain ⟨holds, later⟩ :=
        ih holds (fun other member => admissible other (mem_cons_of_mem _ member)) ran
      refine ⟨?_, fun complete => ⟨fits (complete write mem_cons_self), ?_⟩⟩
      · rwa [append_assoc, ← flatMap_cons] at holds
      · have whole : write.code.length = write.length := complete write mem_cons_self
        have rest := later fun other member => complete other (mem_cons_of_mem _ member)
        rwa [length_append, whole] at rest
    · cases written.symm.trans failed

/-! ## Reading -/

namespace Write

variable {write : Write} {rest : List Bool}

/-- The call is not given a difference or a value that the writer gets wrong. -/
def Faithful : Write → Prop
  | .s value _ => value ≠ BitVec.intMin 32
  | .deltaQ value => value = 0
  | _ => True

theorem read_code (admissible : write.Admissible) (complete : write.Complete)
    (faithful : write.Faithful)
    (rest : List Bool) :
    VP9.read write.descriptor (write.code ++ rest) = some (write.value, rest) := by
  cases write with
  | u value valueSize =>
    rw [descriptor, VP9.read, code, readNat_append admissible.2, map_some, Write.value]
  | bit state => cases state <;> rfl
  | s value valueSize =>
    have magnitude : value.toInt.natAbs < 2 ^ valueSize.toNat := by
      have small : |value.toInt| < 2 ^ valueSize.toNat := admissible
      rw [Int.abs_eq_natAbs] at small
      exact_mod_cast small
    rw [descriptor, VP9.read, code_s faithful complete, append_assoc, VP9.readSu_eq_some]
    refine ⟨_, _, magnitude, rfl, ?_⟩
    by_cases negative : value.toInt < 0
    · rw [decide_eq_true negative, Write.value, VP9.ofSign, if_pos rfl]
      omega
    · rw [decide_eq_false negative, Write.value, VP9.ofSign, if_neg Bool.false_ne_true]
      omega
  | deltaQ value =>
    obtain rfl : value = 0 := faithful
    rfl

/-- What is read as the value of a call has at least as many bits as the call has written, and one
more where the call has left out a sign. -/
theorem used_of_read {xs : List Bool}
    (read : VP9.read write.descriptor xs = some (write.value, rest)) :
    ∃ used, xs = used ++ rest ∧ write.length ≤ used.length ∧
      (∀ value, write = .deltaQ value → value ≠ 0 → used.length = 6) := by
  cases write with
  | u value valueSize =>
    obtain ⟨⟨number, between⟩, first, same⟩ := map_eq_some_iff.1 read
    obtain ⟨_, rfl⟩ := Prod.mk.inj same
    exact ⟨_, (readNat_eq_some.1 first).2, length_bits.ge, fun _ absurdity => by cases absurdity⟩
  | bit state =>
    obtain ⟨⟨number, between⟩, first, same⟩ := map_eq_some_iff.1 read
    obtain ⟨_, rfl⟩ := Prod.mk.inj same
    exact ⟨_, (readNat_eq_some.1 first).2, length_bits.ge, fun _ absurdity => by cases absurdity⟩
  | s value valueSize =>
    obtain ⟨magnitude, sign, _, rfl, _⟩ := VP9.readSu_eq_some.1 read
    refine ⟨bits valueSize.toNat magnitude ++ [sign], ?_, ?_, fun _ absurdity => by cases absurdity⟩
    · rw [append_assoc, singleton_append]
    · rw [length_append, length_bits]
      exact le_rfl
  | deltaQ value =>
    obtain ⟨rfl, zero⟩ | ⟨magnitude, sign, _, rfl, _⟩ := VP9.readDeltaQ_eq_some.1 read
    · obtain rfl : value = 0 := BitVec.eq_of_toInt_eq zero
      refine ⟨[false], rfl, le_rfl, ?_⟩
      rintro _ ⟨⟩ nonzero
      exact absurd rfl nonzero
    · refine ⟨true :: (bits 4 magnitude ++ [sign]), ?_, ?_, fun _ _ _ => ?_⟩
      · rw [cons_append, append_assoc, singleton_append]
      · rw [Write.length, length_cons, length_append, length_bits, length_singleton]
        split_ifs <;> decide
      · rw [length_cons, length_append, length_bits, length_singleton]

end Write

variable {rest : List Bool}

theorem used_of_readAll
    (read : readAll VP9.read (writes.map Write.descriptor) xs =
    some (writes.map Write.value, rest)) :
    ∃ used, xs = used ++ rest ∧ (writes.map Write.length).sum ≤ used.length := by
  induction writes generalizing xs with
  | nil =>
    cases read
    exact ⟨[], rfl, le_rfl⟩
  | cons write writes ih =>
    obtain ⟨between, first, others⟩ := readAll_cons_eq_some.1 read
    obtain ⟨used, rfl, enough, _⟩ := Write.used_of_read first
    obtain ⟨later, rfl, enough'⟩ := ih others
    refine ⟨used ++ later, (append_assoc _ _ _).symm, ?_⟩
    rw [map_cons, sum_cons, length_append]
    exact Nat.add_le_add enough enough'

/-- A string with zeros behind it, read from further on. -/
theorem getElem?_shifted {code used rest : List Bool} {k z : Nat}
    (shifted : (code ++ replicate z false).drop k = used ++ rest) {i : Nat} {x : Bool}
    (here : used[i]? = some x) (behind : code.length ≤ k + i) : x = false := by
  have inside := (List.getElem?_eq_some_iff.1 here).1
  have there := congrArg (·[i]?) shifted
  simp only [getElem?_drop, getElem?_append_left inside, here,
    getElem?_append_right behind] at there
  exact eq_of_mem_replicate (mem_of_getElem? there)

/-- A value that is read from further on in its own code, with only zeros behind that, is zero. -/
theorem Write.eq_zero_of_shifted {write : Write} (complete : write.Complete) {k z : Nat}
    (ahead : 0 < k)
    (read : VP9.read write.descriptor ((write.code ++ replicate z false).drop k) =
      some (write.value, rest)) :
    write.value = 0 ∧ write.code = replicate write.code.length false := by
  cases write with
  | u value valueSize =>
    obtain ⟨⟨number, between⟩, first, same⟩ := map_eq_some_iff.1 read
    obtain ⟨number_eq, rfl⟩ := Prod.mk.inj same
    obtain rfl : number = value.toNat := Int.ofNat_inj.1 number_eq
    obtain ⟨small, shifted⟩ := readNat_eq_some.1 first
    have zeros := eq_zeros_of_prefix_drop ahead ⟨_, shifted.symm⟩
    refine ⟨?_, zeros⟩
    have number : BitStrings.number (bits valueSize.toNat value.toNat) =
        BitStrings.number (bits valueSize.toNat 0) := by
      have all : bits valueSize.toNat value.toNat = replicate valueSize.toNat false := by
        rwa [length_bits] at zeros
      rw [all, bits_of_zero]
    rw [number_bits, number_bits, zero_mod, mod_eq_of_lt small] at number
    rw [Write.value, number]
    rfl
  | bit state =>
    obtain ⟨⟨number, between⟩, first, same⟩ := map_eq_some_iff.1 read
    obtain ⟨number_eq, rfl⟩ := Prod.mk.inj same
    obtain rfl : number = state.toNat := Int.ofNat_inj.1 number_eq
    obtain ⟨small, shifted⟩ := readNat_eq_some.1 first
    have single : bits 1 state.toNat = [state] := by cases state <;> rfl
    rw [single] at shifted
    have zeros : [state] = replicate 1 false := eq_zeros_of_prefix_drop ahead ⟨_, shifted.symm⟩
    obtain rfl : state = false := (cons.inj zeros).1
    exact ⟨rfl, rfl⟩
  | s value valueSize =>
    obtain ⟨magnitude, sign, small, shifted, value_eq⟩ := VP9.readSu_eq_some.1 read
    have shifted' : ((Write.s value valueSize).code ++ replicate z false).drop k =
        (bits valueSize.toNat magnitude ++ [sign]) ++ rest := by
      rw [shifted, append_assoc, singleton_append]
    have last : (bits valueSize.toNat magnitude ++ [sign])[valueSize.toNat]? = some sign := by
      rw [getElem?_append_right length_bits.le, length_bits, Nat.sub_self]
      rfl
    -- The sign is read behind the code.
    obtain rfl : sign = false := getElem?_shifted shifted' last (by
      rw [show (Write.s value valueSize).code.length = valueSize.toNat + 1 from complete]
      omega)
    rw [Write.value, VP9.ofSign, if_neg Bool.false_ne_true] at value_eq
    have inRange : value ≠ BitVec.intMin 32 := by
      rintro rfl
      have least : (BitVec.intMin 32).toInt = -2 ^ 31 := by decide
      omega
    have written : (Write.s value valueSize).code = bits valueSize.toNat magnitude ++ [false] := by
      rw [code_s inRange complete, value_eq, decide_eq_false (by omega), Int.natAbs_natCast]
    have zeros := eq_zeros_of_prefix_drop ahead ⟨_, (written ▸ shifted').symm⟩
    rw [← written] at zeros
    refine ⟨?_, zeros⟩
    have number : BitStrings.number (bits valueSize.toNat magnitude) = 0 := by
      have all : bits valueSize.toNat magnitude = replicate valueSize.toNat false := by
        rw [written, length_append, length_bits, length_singleton,
          replicate_succ'] at zeros
        exact (append_inj' zeros rfl).1
      rw [all, ← bits_of_zero, number_bits, zero_mod]
    rw [number_bits, mod_eq_of_lt small] at number
    rw [Write.value, value_eq, number]
    rfl
  | deltaQ value =>
    by_cases zero : value = 0
    · subst zero
      exact ⟨rfl, rfl⟩
    exfalso
    have written : (Write.deltaQ value).code = true :: bits 4 value.toNat := if_neg zero
    obtain ⟨_, value_eq⟩ | ⟨magnitude, sign, small, shifted, value_eq⟩ :=
      VP9.readDeltaQ_eq_some.1 read
    · exact zero (BitVec.eq_of_toInt_eq value_eq)
    have shifted' : ((Write.deltaQ value).code ++ replicate z false).drop k =
        (true :: (bits 4 magnitude ++ [sign])) ++ rest := by
      rw [shifted, cons_append, append_assoc, singleton_append]
    have last : (true :: (bits 4 magnitude ++ [sign]))[5]? = some sign := by
      rw [getElem?_cons_succ, getElem?_append_right length_bits.le, length_bits]
      rfl
    obtain rfl : sign = false := getElem?_shifted shifted' last (by
      rw [written, length_cons, length_bits]
      omega)
    have same : bits 4 magnitude = bits 4 value.toNat := by
      have number : value.toInt = magnitude := value_eq
      rw [BitVec.toInt_eq_toNat_cond] at number
      split_ifs at number
      · rw [Int.ofNat_inj.1 number]
      · have below := value.isLt
        omega
    rw [written, same] at shifted'
    have again : true :: bits 4 value.toNat <+:
        ((true :: bits 4 value.toNat) ++ replicate z false).drop k := by
      refine ⟨[false] ++ rest, ?_⟩
      rw [shifted']
      simp only [cons_append, append_assoc, nil_append]
    cases (cons.inj (eq_zeros_of_prefix_drop ahead again)).1

/-- A reader that is ahead of the writer reads nothing but zeros. -/
theorem eq_zero_of_ahead (complete : ∀ write ∈ writes, write.Complete) {k z : Nat}
    (ahead : 0 < k) (read : readAll VP9.read (writes.map Write.descriptor)
      ((writes.flatMap Write.code ++ replicate z false).drop k) =
      some (writes.map Write.value, rest)) :
    (∀ write ∈ writes, write.value = 0) ∧
      ∃ n, writes.flatMap Write.code = replicate n false := by
  induction writes generalizing k with
  | nil => exact ⟨fun _ absurdity => (not_mem_nil absurdity).elim, 0, rfl⟩
  | cons write writes ih =>
    have whole : write.code.length = write.length := complete write mem_cons_self
    obtain ⟨between, first, others⟩ := readAll_cons_eq_some.1 read
    obtain ⟨used, shifted, enough, _⟩ := Write.used_of_read first
    -- What is left begins further behind the code of this call.
    have later : between =
        (writes.flatMap Write.code ++ replicate z false).drop
        (k + used.length - write.code.length) := by
      have dropped := congrArg (drop used.length) shifted
      rw [drop_left, drop_drop, flatMap_cons, append_assoc, drop_append,
        drop_eq_nil_of_le (by omega), nil_append] at dropped
      exact dropped.symm
    rw [later] at others
    obtain ⟨values, n, zeros⟩ := ih (fun other member => complete other (mem_cons_of_mem _ member))
      (by omega) others
    rw [flatMap_cons, zeros, append_assoc, replicate_append_replicate] at first
    obtain ⟨value, code⟩ := Write.eq_zero_of_shifted whole ahead first
    refine ⟨?_, write.code.length + n, ?_⟩
    · intro other member
      obtain rfl | member := mem_cons.1 member
      · exact value
      · exact values other member
    · rw [flatMap_cons, zeros, code, length_replicate, replicate_append_replicate]

/-! ## When the values come back -/

/-- What the calls write is no longer than it is meant to be, and shorter by far when one of them
writes nothing at all. -/
theorem length_codes (writes : List Write) :
    (writes.flatMap Write.code).length ≤ (writes.map Write.length).sum ∧
      ((∃ write ∈ writes, ¬ write.Complete) →
        (writes.flatMap Write.code).length + 2 ^ 31 ≤ (writes.map Write.length).sum) := by
  induction writes with
  | nil => exact ⟨le_rfl, fun ⟨_, absurdity, _⟩ => (not_mem_nil absurdity).elim⟩
  | cons write writes ih =>
    obtain ⟨le, less⟩ := ih
    rw [flatMap_cons, length_append, map_cons, sum_cons]
    obtain complete | ⟨empty, giant⟩ := write.complete_or
    · have same : write.code.length = write.length := complete
      refine ⟨by omega, ?_⟩
      rintro ⟨other, member, incomplete⟩
      obtain rfl | member := mem_cons.1 member
      · exact absurd complete incomplete
      · have shorter := less ⟨other, member, incomplete⟩
        omega
    · rw [empty, length_nil]
      exact ⟨by omega, fun _ => by omega⟩

theorem length_codes_of_complete (complete : ∀ write ∈ writes, write.Complete) :
    (writes.flatMap Write.code).length = (writes.map Write.length).sum := by
  rw [length_flatMap]
  exact congrArg sum (map_congr_left complete)

/-- The first call that the writer gets wrong. -/
theorem exists_first_unfaithful (writes : List Write) :
    (∀ write ∈ writes, write.Faithful) ∨ ∃ before write after, writes = before ++ write :: after ∧
      (∀ earlier ∈ before, earlier.Faithful) ∧ ¬ write.Faithful := by
  induction writes with
  | nil => exact .inl fun _ absurdity => (not_mem_nil absurdity).elim
  | cons write writes ih =>
    by_cases faithful : write.Faithful
    · obtain all | ⟨before, first, after, rfl, earlier, unfaithful⟩ := ih
      · exact .inl (forall_mem_cons.2 ⟨faithful, all⟩)
      · exact .inr ⟨write :: before, first, after, rfl, forall_mem_cons.2 ⟨faithful, earlier⟩,
          unfaithful⟩
    · exact .inr ⟨[], write, writes, rfl, fun _ absurdity => (not_mem_nil absurdity).elim, faithful⟩

/-- Faithful calls are read back with anything behind them. -/
theorem readAll_codes (admissible : ∀ write ∈ writes, write.Admissible)
    (complete : ∀ write ∈ writes, write.Complete) (faithful : ∀ write ∈ writes, write.Faithful)
    (rest : List Bool) :
    readAll VP9.read (writes.map Write.descriptor) (writes.flatMap Write.code ++ rest) =
      some (writes.map Write.value, rest) :=
  readAll_flatMap (fun write member =>
    Write.read_code (admissible write member) (complete write member) (faithful write member)) rest

theorem Write.code_of_zero {write : Write} (complete : write.Complete) (zero : write.value = 0) :
    write.Faithful ∧ write.code = replicate write.length false := by
  cases write with
  | u value valueSize =>
    refine ⟨trivial, ?_⟩
    rw [code, Int.ofNat_eq_zero.1 zero, bits_of_zero, Write.length]
  | bit state =>
    cases state with
    | false => exact ⟨trivial, rfl⟩
    | true => cases zero
  | s value valueSize =>
    obtain rfl : value = 0 := BitVec.eq_of_toInt_eq zero
    have least : (0 : BitVec 32) ≠ BitVec.intMin 32 := by decide
    refine ⟨least, ?_⟩
    rw [code_s least complete, show (0 : BitVec 32).toInt = 0 from rfl, Int.natAbs_zero,
      bits_of_zero, Write.length, replicate_succ']
    rfl
  | deltaQ value =>
    obtain rfl : value = 0 := BitVec.eq_of_toInt_eq zero
    exact ⟨rfl, rfl⟩

theorem codes_of_zero (complete : ∀ write ∈ writes, write.Complete)
    (zero : ∀ write ∈ writes, write.value = 0) :
    writes.flatMap Write.code = replicate (writes.map Write.length).sum false := by
  induction writes with
  | nil => rfl
  | cons write writes ih =>
    rw [flatMap_cons, map_cons, sum_cons, ← replicate_append_replicate,
      (Write.code_of_zero (complete write mem_cons_self) (zero write mem_cons_self)).2,
      ih (fun other member => complete other (mem_cons_of_mem _ member))
        fun other member => zero other (mem_cons_of_mem _ member)]

/-- The least value is written as one, which is read as a zero with a sign. -/
theorem not_read_intMin (complete : (Write.s (BitVec.intMin 32) valueSize).Complete)
    (rest tail : List Bool) :
    VP9.read (.su valueSize.toNat) ((Write.s (BitVec.intMin 32) valueSize).code ++ rest) ≠
      some ((BitVec.intMin 32).toInt, tail) := by
  have count : (valueSize + 1).toInt.toNat = valueSize.toNat + 1 := by
    rwa [Write.Complete, Write.code, length_bits, Write.length] at complete
  have code : (Write.s (BitVec.intMin 32) valueSize).code = bits valueSize.toNat 0 ++ [true] := by
    rw [Write.code, count, signedWord_intMin, bits_add]
    rfl
  have read : VP9.read (.su valueSize.toNat) (bits valueSize.toNat 0 ++ [true] ++ rest) =
      some (0, rest) := by
    rw [VP9.read, append_assoc, VP9.readSu_eq_some]
    exact ⟨0, true, Nat.two_pow_pos _, rfl, rfl⟩
  rw [code, read]
  intro same
  cases (Prod.mk.inj (Option.some.inj same)).1

theorem complete_of_fitAll {pos : Nat} (fits : FitAll pos writes) :
    ∀ write ∈ writes, write.Complete := by
  induction writes generalizing pos with
  | nil => exact fun _ absurdity => (not_mem_nil absurdity).elim
  | cons write writes ih => exact forall_mem_cons.2 ⟨fits.1.complete, ih fits.2⟩

theorem faithful_of {writes : List Write}
    (magnitudes : ∀ value valueSize, .s value valueSize ∈ writes → value ≠ BitVec.intMin 32)
    (none : NoDelta writes) : ∀ write ∈ writes, write.Faithful
  | .u _ _, _ => trivial
  | .bit _, _ => trivial
  | .s value valueSize, member => magnitudes value valueSize member
  | .deltaQ value, member => none value member

/-- A positive difference is read with the sign that the zeros behind it stand for. -/
theorem read_positive {delta : BitVec 32} (admissible : (Write.deltaQ delta).Admissible)
    (positive : 0 < delta.toInt) (rest : List Bool) :
    VP9.read .deltaQ ((Write.deltaQ delta).code ++ false :: rest) = some (delta.toInt, rest) := by
  have number : delta.toInt = delta.toNat := by
    have below := delta.isLt
    rw [BitVec.toInt_eq_toNat_cond] at positive ⊢
    split_ifs at positive ⊢ <;> omega
  have small : delta.toNat < 2 ^ 4 := by
    have bound := admissible.2
    omega
  have nonzero : delta ≠ 0 := by
    rintro rfl
    exact lt_irrefl _ positive
  rw [Write.code, if_neg nonzero, VP9.read, VP9.readDeltaQ_eq_some]
  exact .inr ⟨delta.toNat, false, small, by rw [cons_append], number⟩

/-- The bytes of a sequence of calls are read back as the values that the calls were given just in
case no shift exceeds a word, the least value is not among the signed ones, and no difference is
written but zero, or the one that is is positive and has zeros and some room of the last byte behind
it. -/
theorem readsBack_iff (writes : List Write) (admissible : ∀ write ∈ writes, write.Admissible) :
    ReadsBack writes ↔ Readable writes := by
  constructor
  · rintro ⟨bytes, tail, composed, read, short, _⟩
    obtain ⟨w, ran, flushed⟩ := Fallible.bind_eq_ok.1 composed
    obtain rfl : w.flush.byteArray = bytes := Except.ok.inj flushed
    obtain ⟨holds, fits⟩ := holds_of_foldlM holds_new admissible ran
    rw [nil_append] at holds
    obtain ⟨k, few, bytes_eq, _, _⟩ := holds.flush
    have border := congrArg length bytes_eq
    rw [length_bytesBits, length_append, length_replicate] at border
    rw [bytes_eq] at read
    have complete : ∀ write ∈ writes, write.Complete := by
      by_contra incomplete
      push Not at incomplete
      obtain ⟨used, whole, enough⟩ := used_of_readAll read
      have lengths := congrArg length whole
      rw [length_append, length_append, length_replicate] at lengths
      have giant := (length_codes writes).2 incomplete
      omega
    have total := length_codes_of_complete complete
    obtain faithful | ⟨before, write, after, rfl, faithful, unfaithful⟩ :=
      exists_first_unfaithful writes
    · exact ⟨fits complete, fun _ _ member => faithful _ member,
        .inl fun _ member => faithful _ member⟩
    -- What stands before the first call that goes wrong is read as it was written.
    have admissible' : ∀ earlier ∈ before, earlier.Admissible :=
      fun _ member => admissible _ (mem_append_left _ member)
    have complete' : ∀ earlier ∈ before, earlier.Complete :=
      fun _ member => complete _ (mem_append_left _ member)
    have complete'' : ∀ later ∈ after, later.Complete :=
      fun _ member => complete _ (mem_append_right _ (mem_cons_of_mem _ member))
    rw [map_append, map_append, readAll_append_eq_some (by rw [length_map, length_map]),
      flatMap_append, append_assoc] at read
    obtain ⟨between, first, others⟩ := read
    rw [readAll_codes admissible' complete' faithful] at first
    obtain rfl := (Prod.mk.inj (Option.some.inj first)).2
    rw [map_cons, map_cons, readAll_cons_eq_some, flatMap_cons, append_assoc] at others
    obtain ⟨behind, wrong, others⟩ := others
    have here := complete write (mem_append_right _ mem_cons_self)
    cases write with
    | u value valueSize => exact absurd trivial unfaithful
    | bit state => exact absurd trivial unfaithful
    | s value valueSize =>
      obtain rfl : value = BitVec.intMin 32 := not_not.1 unfaithful
      exact absurd wrong (not_read_intMin here _ _)
    | deltaQ value =>
      have nonzero : value ≠ 0 := unfaithful
      have code : (Write.deltaQ value).code = true :: bits 4 value.toNat := if_neg nonzero
      rw [code] at wrong
      obtain ⟨absurdity, _⟩ | ⟨magnitude, sign, _, shifted, value_eq⟩ :=
        VP9.readDeltaQ_eq_some.1 wrong
      · cases absurdity
      obtain ⟨_, parts⟩ := cons.inj shifted
      obtain ⟨_, rest⟩ := append_inj parts (by rw [length_bits, length_bits])
      have ahead : behind = (after.flatMap Write.code ++ replicate k false).drop 1 := by
        rw [rest]
        rfl
      have reading := others
      rw [ahead] at others
      obtain ⟨zero, n, zeros⟩ := eq_zero_of_ahead complete'' one_pos others
      have positive : 0 < value.toInt := by
        have last : sign ∈ replicate (n + k) false := by
          rw [← replicate_append_replicate, ← zeros, rest]
          exact mem_cons_self
        rw [eq_of_mem_replicate last] at value_eq
        have number : value.toInt = magnitude := value_eq
        have other : value.toInt ≠ 0 := fun same => nonzero (BitVec.eq_of_toInt_eq same)
        omega
      refine ⟨fits complete, ?_,
        .inr ⟨before, value, after, rfl, fun _ member => faithful _ member, positive, zero, ?_⟩⟩
      · rintro least valueSize member rfl
        obtain member | member := mem_append.1 member
        · exact faithful _ member rfl
        · obtain absurdity | member := mem_cons.1 member
          · cases absurdity
          · cases zero _ member
      · -- The bit that is read too much needs room.
        intro full
        obtain ⟨used, whole, enough⟩ := used_of_readAll reading
        have lengths := congrArg length rest
        have lengths' := congrArg length whole
        rw [length_append, length_replicate, length_cons,
          length_codes_of_complete complete''] at lengths
        rw [length_append] at lengths'
        omega
  · rintro ⟨shifts, magnitudes, differences⟩
    obtain ⟨w, ran, holds⟩ := holds_foldlM holds_new admissible shifts
    rw [nil_append] at holds
    obtain ⟨k, few, bytes_eq, _, _⟩ := holds.flush
    have border := congrArg length bytes_eq
    rw [length_bytesBits, length_append, length_replicate] at border
    have complete : ∀ write ∈ writes, write.Complete := complete_of_fitAll shifts
    have total := length_codes_of_complete complete
    have composed : compose writes = .ok w.flush.byteArray := by
      rw [compose, ran]
      rfl
    obtain none | ⟨before, delta, after, rfl, none, positive, zero, room⟩ := differences
    · refine ⟨_, replicate k false, composed, ?_, by rwa [length_replicate],
        fun _ member => eq_of_mem_replicate member⟩
      rw [bytes_eq]
      exact readAll_codes admissible complete (faithful_of magnitudes none) _
    · have admissible' : ∀ earlier ∈ before, earlier.Admissible :=
        fun _ member => admissible _ (mem_append_left _ member)
      have complete' : ∀ earlier ∈ before, earlier.Complete :=
        fun _ member => complete _ (mem_append_left _ member)
      have later {write : Write} (member : write ∈ after) : write ∈
        before ++ .deltaQ delta :: after :=
        mem_append_right _ (mem_cons_of_mem _ member)
      have complete'' : ∀ write ∈ after, write.Complete := fun _ member => complete _ (later member)
      have faithful' : ∀ earlier ∈ before, earlier.Faithful :=
        faithful_of (fun value valueSize member =>
          magnitudes value valueSize (mem_append_left _ member)) none
      have faithful'' : ∀ write ∈ after, write.Faithful :=
        fun _ member => (Write.code_of_zero (complete'' _ member) (zero _ member)).1
      have here : (Write.deltaQ delta) ∈ before ++ .deltaQ delta :: after :=
        mem_append_right _ mem_cons_self
      obtain ⟨spare, rfl⟩ : ∃ spare, k = spare + 1 := ⟨k - 1, by omega⟩
      -- One of the zeros of the last byte takes the place of the sign.
      have moved : after.flatMap Write.code ++ replicate (spare + 1) false =
          false :: (after.flatMap Write.code ++ replicate spare false) := by
        rw [codes_of_zero complete'' zero, replicate_append_replicate, replicate_append_replicate,
          ← add_assoc, replicate_succ]
      refine ⟨_, replicate spare false, composed, ?_, by rw [length_replicate]; omega,
        fun _ member => eq_of_mem_replicate member⟩
      rw [bytes_eq, map_append, map_append,
        readAll_append_eq_some (by rw [length_map, length_map]), flatMap_append, append_assoc]
      refine ⟨_, readAll_codes admissible' complete' faithful' _, ?_⟩
      rw [map_cons, map_cons, readAll_cons_eq_some, flatMap_cons, append_assoc, moved]
      refine ⟨_, read_positive (admissible _ here) positive _, ?_⟩
      exact readAll_codes (fun _ member => admissible _ (later member)) complete'' faithful'' _

/-- The differences of a frame and a few fields around them. -/
theorem readsBack_iff_zero :
    ReadsBack [.u 100 8, .deltaQ 0, .deltaQ 0, .s (-3) 6, .bit true] ↔
      Readable [.u 100 8, .deltaQ 0, .deltaQ 0, .s (-3) 6, .bit true] :=
  readsBack_iff [.u 100 8, .deltaQ 0, .deltaQ 0, .s (-3) 6, .bit true] (by decide)

/-- A difference before a field that is not zero does not come back. -/
theorem not_readsBack_of_delta :
    ¬ ∀ writes : List Write, (∀ write ∈ writes, write.Admissible) → ReadsBack writes := by
  intro all
  obtain ⟨bytes, tail, composed, read, _, _⟩ := all [.deltaQ 5, .u 1 1] (by decide)
  have same : compose [.deltaQ 5, .u 1 1] = .ok [0xac] := by decide +kernel
  obtain rfl := Except.ok.inj (composed.symm.trans same)
  have wrong : readAll VP9.read [.deltaQ, .f 1] (bytesBits [0xac]) = some ([-5, 0], [false]) := by
    decide +kernel
  cases (Prod.mk.inj (Option.some.inj (wrong.symm.trans read))).1

end VpxBitStreamWriter

end SumiEmu.VideoCore
