/-
# The lowered operations compute 64-bit results

The words of a sum, a difference and a negation are those of the halves, with the carry or the
borrow between them. For a shift the three cases of the code are the three shapes of the result: the
operand itself, a word moved across the middle, and bits moved from one word into the other. Each
piece is well defined in the case that selects it, so an arbitrary word is never selected.
-/

import SumiEmu.ShaderRecompiler.LowerInt64ToInt32Meaning

namespace SumiEmu.ShaderRecompiler.LowerInt64ToInt32

open SumiEmu.WordHalves BitVec Option Nat
open IREmitter

variable {ctx : Context} {insts : List Inst} {a b shift : Value} {lo hi lo' hi' n : BitVec 32}

/-! ## The 64-bit meaning -/

/-- An operand of 64 bits: an immediate, or a composite of its words. -/
def operand64 (ctx : Context) : Value → Option (BitVec 64)
  | .imm64 value => some value
  | .given .u32x2 index => some ((ctx.u32x2 index).2 ++ (ctx.u32x2 index).1)
  | _ => none

/-- A shift amount, when it is a position of a 64-bit word. -/
def shiftAmount (ctx : Context) : Value → Option Nat
  | .imm32 value => if value.toNat < 64 then some value.toNat else none
  | .given .u32 index => if (ctx.u32 index).toNat < 64 then some (ctx.u32 index).toNat else none
  | _ => none

/-- The result of a 64-bit operation. -/
def result64 (ctx : Context) (inst : Lowered) : Option (BitVec 64) :=
  match inst.op, inst.args with
  | .iAdd64, [a, b] => do pure ((← operand64 ctx a) + (← operand64 ctx b))
  | .iSub64, [a, b] => do pure ((← operand64 ctx a) - (← operand64 ctx b))
  | .iNeg64, [a] => do pure (-(← operand64 ctx a))
  | .shiftLeftLogical64, [a, b] => do pure ((← operand64 ctx a) <<< (← shiftAmount ctx b))
  | .shiftRightLogical64, [a, b] => do pure ((← operand64 ctx a) >>> (← shiftAmount ctx b))
  | .shiftRightArithmetic64, [a, b] => do
    pure ((← operand64 ctx a).sshiftRight (← shiftAmount ctx b))
  | _, _ => none

/-- The low and the high word of a 64-bit result. -/
def words (result : BitVec 64) : Datum :=
  .u32x2 (result.setWidth 32) ((result >>> 32).setWidth 32)

theorem words_append (hi lo : BitVec 32) : words (hi ++ lo) = .u32x2 lo hi := by
  rw [words]
  exact congrArg₂ Datum.u32x2 (setWidth_append_low hi lo) (setWidth_append_high hi lo)

/-! ## Operands -/

/-- Both words of an operand. -/
structure IsPair (ctx : Context) (insts : List Inst) (pair : Value × Value)
    (lo hi : BitVec 32) : Prop where
  lo : Has ctx insts pair.1 (.u32 lo)
  hi : Has ctx insts pair.2 (.u32 hi)

theorem compositeExtract_emits {index : Nat} {element x : BitVec 32}
    (reads : ∀ arbitrary, wordOperation arbitrary .compositeExtractU32x2
      [ctx.given .u32x2 index, .u32 element] = some (.u32 x)) :
    Emits insts (compositeExtract (.given .u32x2 index) element)
      (fun value => Has ctx insts value (.u32 x)) :=
  emits_datum (by decide) (.cons ⟨none, 0, by rw [evaluate]⟩ (.cons has_imm32 .nil)) reads

variable {x : BitVec 64}

variable (insts) in
theorem unpack_emits (operand : operand64 ctx a = some x) :
    ∃ hi lo : BitVec 32, x = hi ++ lo ∧
      Emits insts (unpack a) (fun pair => IsPair ctx insts pair lo hi) := by
  unfold operand64 at operand
  split at operand
  · next value =>
    obtain rfl := Option.some.inj operand
    exact ⟨_, _, (append_halves (w := 32) value).symm, Emits.pure ⟨has_imm32, has_imm32⟩⟩
  · next index =>
    obtain rfl := Option.some.inj operand
    refine ⟨_, _, rfl, ?_⟩
    apply Emits.bind (compositeExtract_emits (fun _ => rfl))
    intro low lowHas
    apply Emits.bind (compositeExtract_emits (fun _ => rfl))
    intro high highHas
    exact Emits.pure ⟨lowHas, highHas⟩
  · contradiction

variable {amount : Nat}

variable (insts) in
theorem typedU32_emits (operand : shiftAmount ctx shift = some amount) :
    ∃ n : BitVec 32, n.toNat = amount ∧ amount < 64 ∧
      Emits insts (typedU32 shift) (fun value => Has ctx insts value (.u32 n)) := by
  unfold shiftAmount at operand
  split at operand
  · next value =>
    obtain ⟨inside, same⟩ := ite_none_right_eq_some.1 operand
    obtain rfl := Option.some.inj same
    exact ⟨value, rfl, inside, Emits.pure has_imm32⟩
  · next index =>
    obtain ⟨inside, same⟩ := ite_none_right_eq_some.1 operand
    obtain rfl := Option.some.inj same
    exact ⟨ctx.u32 index, rfl, inside, Emits.pure ⟨none, 0, by rw [evaluate]; rfl⟩⟩
  · contradiction

/-! ## Sums, differences and negations -/

/-- A bit selected as a word. -/
theorem select_bit_emits {bit : Bool} {c : Value} (condition : Has ctx insts c (.u1 bit)) :
    Emits insts (select c (.imm32 1) (.imm32 0))
      (fun value => Has ctx insts value (.u32 (BitVec.ofNat 32 bit.toNat))) := by
  refine (select_emits condition has_imm32 has_imm32).weaken ?_
  intro value has
  cases bit <;> exact has

theorem iadd64To32_emits {x y : BitVec 64} (first : operand64 ctx a = some x)
    (second : operand64 ctx b = some y) :
    Emits insts (iadd64To32 a b) (fun value => Has ctx insts value (words (x + y))) := by
  obtain ⟨aHi, aLo, rfl, unpackA⟩ := unpack_emits insts first
  obtain ⟨bHi, bLo, rfl, unpackB⟩ := unpack_emits insts second
  apply Emits.bind unpackA
  rintro ⟨a0, a1⟩ aWords
  apply Emits.bind unpackB
  rintro ⟨b0, b1⟩ bWords
  apply Emits.bind (iadd_emits aWords.lo bWords.lo)
  intro retLo sum
  apply Emits.bind (getCarryFromOp_emits sum)
  intro carryBit carryBitHas
  apply Emits.bind (select_bit_emits carryBitHas)
  intro carryWord carryHas
  apply Emits.bind (iadd_emits aWords.hi bWords.hi)
  intro sumHi sumHiHas
  apply Emits.bind (iadd_emits ⟨_, sumHiHas⟩ carryHas)
  intro retHi retHiHas
  rw [show (aHi ++ aLo : BitVec 64) + (bHi ++ bLo) = _ from append_add aHi aLo bHi bLo,
    words_append]
  exact compositeConstruct_emits ⟨_, sum⟩ ⟨_, retHiHas⟩

theorem isub64To32_emits {x y : BitVec 64} (first : operand64 ctx a = some x)
    (second : operand64 ctx b = some y) :
    Emits insts (isub64To32 a b) (fun value => Has ctx insts value (words (x - y))) := by
  obtain ⟨aHi, aLo, rfl, unpackA⟩ := unpack_emits insts first
  obtain ⟨bHi, bLo, rfl, unpackB⟩ := unpack_emits insts second
  apply Emits.bind unpackA
  rintro ⟨a0, a1⟩ aWords
  apply Emits.bind unpackB
  rintro ⟨b0, b1⟩ bWords
  apply Emits.bind (isub_emits aWords.lo bWords.lo)
  intro retLo retLoHas
  apply Emits.bind (igreaterThan_emits retLoHas aWords.lo)
  intro underflow underflowHas
  -- The low difference exceeds the low word of the first operand exactly when it borrowed.
  rw [ult_sub] at underflowHas
  apply Emits.bind (select_bit_emits underflowHas)
  intro underflowBit underflowBitHas
  apply Emits.bind (isub_emits aWords.hi bWords.hi)
  intro differenceHi differenceHiHas
  apply Emits.bind (isub_emits differenceHiHas underflowBitHas)
  intro retHi retHiHas
  rw [show (aHi ++ aLo : BitVec 64) - (bHi ++ bLo) = _ from append_sub aHi aLo bHi bLo,
    words_append]
  exact compositeConstruct_emits retLoHas retHiHas

theorem ineg64To32_emits (operand : operand64 ctx a = some x) :
    Emits insts (ineg64To32 a) (fun value => Has ctx insts value (words (-x))) := by
  obtain ⟨aHi, aLo, rfl, unpackA⟩ := unpack_emits insts operand
  apply Emits.bind unpackA
  rintro ⟨a0, a1⟩ aWords
  apply Emits.bind (bitwiseNot_emits aWords.lo)
  intro notLo notLoHas
  apply Emits.bind (bitwiseNot_emits aWords.hi)
  intro notHi notHiHas
  apply Emits.bind (iadd_emits notLoHas has_imm32)
  intro retLo sum
  apply Emits.bind (getCarryFromOp_emits sum)
  intro carryBit carryBitHas
  apply Emits.bind (select_bit_emits carryBitHas)
  intro carryWord carryHas
  apply Emits.bind (iadd_emits notHiHas carryHas)
  intro retHi retHiHas
  rw [show -(aHi ++ aLo : BitVec 64) = _ from append_neg aHi aLo, words_append]
  exact compositeConstruct_emits ⟨_, sum⟩ ⟨_, retHiHas⟩

/-! ## The cases of a shift -/

/-- The word of a result that the selections choose. -/
def chosen (isZero isLong : Bool) (zero long short : BitVec 32) : BitVec 32 :=
  bif isZero then zero else bif isLong then long else short

theorem chosen_emits {isZero isLong zeroLo zeroHi longLo longHi shortLo shortHi : Value}
    {zeroBit longBit : Bool} {zl zh ll lh sl sh : BitVec 32}
    (isZeroHas : Has ctx insts isZero (.u1 zeroBit))
    (isLongHas : Has ctx insts isLong (.u1 longBit))
    (zeroLoHas : Has ctx insts zeroLo (.u32 zl)) (zeroHiHas : Has ctx insts zeroHi (.u32 zh))
    (longLoHas : Has ctx insts longLo (.u32 ll)) (longHiHas : Has ctx insts longHi (.u32 lh))
    (shortLoHas : Has ctx insts shortLo (.u32 sl)) (shortHiHas : Has ctx insts shortHi (.u32 sh)) :
    Emits insts (do
      let nonZeroLo ← select isLong longLo shortLo
      let nonZeroHi ← select isLong longHi shortHi
      let retLo ← select isZero zeroLo nonZeroLo
      let retHi ← select isZero zeroHi nonZeroHi
      compositeConstruct retLo retHi)
      (fun value => Has ctx insts value
        (.u32x2 (chosen zeroBit longBit zl ll sl) (chosen zeroBit longBit zh lh sh))) := by
  apply Emits.bind (select_emits isLongHas longLoHas shortLoHas)
  intro nonZeroLo nonZeroLoHas
  apply Emits.bind (select_emits isLongHas longHiHas shortHiHas)
  intro nonZeroHi nonZeroHiHas
  apply Emits.bind (select_emits isZeroHas zeroLoHas nonZeroLoHas)
  intro retLo retLoHas
  apply Emits.bind (select_emits isZeroHas zeroHiHas nonZeroHiHas)
  intro retHi retHiHas
  exact compositeConstruct_emits retLoHas retHiHas

/-- The amount less the width of a word. -/
theorem toNat_sub_32 (long : 32 ≤ n.toNat) : (n - 32).toNat = n.toNat - 32 :=
  toNat_sub_of_le (le_def.2 long)

theorem toNat_complement (short : n.toNat ≤ 32) : (32 - n).toNat = 32 - n.toNat :=
  toNat_sub_of_le (le_def.2 short)

/-- The signed comparison sees whether the amount reaches the high word. -/
theorem isLong_eq (inside : n.toNat < 64) :
    (0 : BitVec 32).sle (n - 32) = decide (32 ≤ n.toNat) := by
  rw [sle_eq_decide, decide_eq_decide, show (0 : BitVec 32).toInt = 0 from rfl,
    toInt_eq_toNat_cond]
  by_cases long : 32 ≤ n.toNat
  · rw [toNat_sub_32 long, if_pos (by omega)]
    omega
  · have wrapped : (n - 32).toNat = 2 ^ 32 - 32 + n.toNat :=
      toNat_sub_of_lt (Nat.lt_of_not_le long)
    rw [wrapped, if_neg (by omega)]
    omega

theorem isZero_eq : (n == 0) = decide (n.toNat = 0) := by
  rw [Bool.beq_eq_decide_eq, decide_eq_decide]
  exact toNat_eq

/-- A shift is right when each piece is, in the case that selects it. -/
theorem chosen_append (result : BitVec 64) {zl zh ll lh sl sh : BitVec 32}
    (inside : n.toNat < 64) (zero : n.toNat = 0 → result = zh ++ zl)
    (long : 32 ≤ n.toNat → result = lh ++ ll)
    (short : 0 < n.toNat → n.toNat < 32 → result = sh ++ sl) :
    result = chosen (n == 0) ((0 : BitVec 32).sle (n - 32)) zh lh sh ++
      chosen (n == 0) ((0 : BitVec 32).sle (n - 32)) zl ll sl := by
  rw [isZero_eq, isLong_eq inside, chosen, chosen]
  by_cases none : n.toNat = 0
  · rw [decide_eq_true none, cond_true, cond_true]
    exact zero none
  · rw [decide_eq_false none, cond_false, cond_false]
    by_cases reaches : 32 ≤ n.toNat
    · rw [decide_eq_true reaches, cond_true, cond_true]
      exact long reaches
    · rw [decide_eq_false reaches, cond_false, cond_false]
      exact short (Nat.pos_of_ne_zero none) (Nat.lt_of_not_le reaches)

/-! ## Bit fields at the ends of a word -/

/-- The topmost bits, extracted. -/
theorem fieldExtract_top {base : BitVec 32} {count : Nat} (inside : count ≤ 32) :
    fieldExtract base (32 - count) count = base >>> (32 - count) := by
  apply eq_of_getLsbD_eq
  intro i below
  rw [fieldExtract, getLsbD_setWidth, getLsbD_extractLsb', getLsbD_ushiftRight]
  by_cases field : i < count
  · simp [below, field]
  · rw [getLsbD_of_ge base (32 - count + i) (by omega)]
    simp [field]

/-- A field at the top of a word that a shift has cleared. -/
theorem fieldInsert_top {base insert : BitVec 32} {count : Nat} (inside : count ≤ 32) :
    fieldInsert (base >>> count) (fieldExtract insert 0 count) (32 - count) count =
      base >>> count ||| insert <<< (32 - count) := by
  apply eq_of_getLsbD_eq
  intro i below
  rw [fieldInsert, fieldExtract]
  simp only [getLsbD_or, getLsbD_and, getLsbD_not, getLsbD_shiftLeft,
    getLsbD_setWidth, getLsbD_extractLsb', getLsbD_allOnes,
    getLsbD_ushiftRight, below, decide_true, Bool.true_and, zero_add]
  by_cases field : i < 32 - count
  · simp [field]
  · have inField : i - (32 - count) < count := by omega
    have inWord : i - (32 - count) < 32 := by omega
    rw [getLsbD_of_ge base (count + i) (by omega)]
    simp [field, inField, inWord]

/-! ## Shifts -/

theorem shiftLeftLogical64To32_emits
    (operand : operand64 ctx a = some x) (position : shiftAmount ctx shift = some amount) :
    Emits insts (shiftLeftLogical64To32 a shift)
      (fun value => Has ctx insts value (words (x <<< amount))) := by
  obtain ⟨hi, lo, rfl, unpackA⟩ := unpack_emits insts operand
  obtain ⟨n, rfl, inside, typed⟩ := typedU32_emits insts position
  apply Emits.bind unpackA
  rintro ⟨loValue, hiValue⟩ pair
  apply Emits.bind typed
  intro shift shiftHas
  apply Emits.bind (shiftLeftLogical_emits pair.lo shiftHas)
  rintro shiftedLo ⟨shiftedLoWord, shiftedLoHas, shiftedLoDefined⟩
  apply Emits.bind (shiftLeftLogical_emits pair.hi shiftHas)
  rintro shiftedHi ⟨shiftedHiWord, shiftedHiHas, shiftedHiDefined⟩
  apply Emits.bind (isub_emits shiftHas has_imm32)
  intro invShift invShiftHas
  apply Emits.bind (igreaterThanEqual_emits invShiftHas has_imm32)
  intro isLong isLongHas
  apply Emits.bind (iequal_emits shiftHas has_imm32)
  intro isZero isZeroHas
  apply Emits.bind (shiftLeftLogical_emits pair.lo invShiftHas)
  rintro longRetHi ⟨longHi, longHiHas, longHiDefined⟩
  apply Emits.bind (isub_emits has_imm32 shiftHas)
  intro shiftComplement complementHas
  apply Emits.bind (bitFieldExtract_emits pair.lo complementHas shiftHas)
  rintro loExtract ⟨extracted, extractedHas, extractedDefined⟩
  apply Emits.bind (bitwiseOr_emits shiftedHiHas extractedHas)
  intro shortRetHi shortHiHas
  refine (chosen_emits isZeroHas isLongHas pair.lo pair.hi has_imm32 longHiHas shiftedLoHas
    shortHiHas).weaken ?_
  intro value has
  rw [chosen_append ((hi ++ lo) <<< n.toNat) inside ?_ ?_ ?_, words_append]
  · exact has
  · intro none
    rw [none]
    exact shiftLeft_zero ..
  · intro long
    have less := toNat_sub_32 long
    rw [longHiDefined (by omega), less]
    exact append_shiftLeft_of_le long
  · intro positive short
    have complement := toNat_complement (le_of_lt short)
    rw [shiftedLoDefined short, shiftedHiDefined short, extractedDefined (by omega), complement,
      fieldExtract_top (le_of_lt short)]
    exact append_shiftLeft (le_of_lt short)

/-- The low word of a short right shift, from its pieces. -/
theorem shortLo_eq {shifted extracted short : BitVec 32} (inside : n.toNat < 32)
    (shiftedDefined : n.toNat < 32 → shifted = lo >>> n.toNat)
    (extractedDefined : (0 : BitVec 32).toNat + n.toNat ≤ 32 →
      extracted = fieldExtract hi (0 : BitVec 32).toNat n.toNat)
    (shortDefined : (32 - n).toNat + n.toNat ≤ 32 →
      short = fieldInsert shifted extracted (32 - n).toNat n.toNat) :
    short = lo >>> n.toNat ||| hi <<< (32 - n.toNat) := by
  have complement := toNat_complement (le_of_lt inside)
  have none : (0 : BitVec 32).toNat = 0 := rfl
  rw [shortDefined (by omega), complement, shiftedDefined inside, extractedDefined (by omega), none,
    fieldInsert_top (le_of_lt inside)]

theorem shiftRightLogical64To32_emits
    (operand : operand64 ctx a = some x) (position : shiftAmount ctx shift = some amount) :
    Emits insts (shiftRightLogical64To32 a shift)
      (fun value => Has ctx insts value (words (x >>> amount))) := by
  obtain ⟨hi, lo, rfl, unpackA⟩ := unpack_emits insts operand
  obtain ⟨n, rfl, inside, typed⟩ := typedU32_emits insts position
  apply Emits.bind unpackA
  rintro ⟨loValue, hiValue⟩ pair
  apply Emits.bind typed
  intro shift shiftHas
  apply Emits.bind (shiftRightLogical_emits pair.lo shiftHas)
  rintro shiftedLo ⟨shiftedLoWord, shiftedLoHas, shiftedLoDefined⟩
  apply Emits.bind (shiftRightLogical_emits pair.hi shiftHas)
  rintro shiftedHi ⟨shiftedHiWord, shiftedHiHas, shiftedHiDefined⟩
  apply Emits.bind (isub_emits shiftHas has_imm32)
  intro invShift invShiftHas
  apply Emits.bind (igreaterThanEqual_emits invShiftHas has_imm32)
  intro isLong isLongHas
  apply Emits.bind (iequal_emits shiftHas has_imm32)
  intro isZero isZeroHas
  apply Emits.bind (shiftRightLogical_emits pair.hi invShiftHas)
  rintro longRetLo ⟨longLo, longLoHas, longLoDefined⟩
  apply Emits.bind (isub_emits has_imm32 shiftHas)
  intro shiftComplement complementHas
  apply Emits.bind (bitFieldExtract_emits pair.hi has_imm32 shiftHas)
  rintro shortHiExtract ⟨extracted, extractedHas, extractedDefined⟩
  apply Emits.bind (bitFieldInsert_emits shiftedLoHas extractedHas complementHas shiftHas)
  rintro shortRetLo ⟨shortLo, shortLoHas, shortLoDefined⟩
  refine (chosen_emits isZeroHas isLongHas pair.lo pair.hi longLoHas has_imm32 shortLoHas
    shiftedHiHas).weaken ?_
  intro value has
  rw [chosen_append ((hi ++ lo) >>> n.toNat) inside ?_ ?_ ?_, words_append]
  · exact has
  · intro none
    rw [none]
    exact ushiftRight_zero ..
  · intro long
    have less := toNat_sub_32 long
    rw [longLoDefined (by omega), less]
    exact append_ushiftRight_of_le long
  · intro positive short
    rw [shiftedHiDefined short, shortLo_eq short shiftedLoDefined extractedDefined shortLoDefined]
    exact append_ushiftRight (le_of_lt short)

theorem shiftRightArithmetic64To32_emits
    (operand : operand64 ctx a = some x) (position : shiftAmount ctx shift = some amount) :
    Emits insts (shiftRightArithmetic64To32 a shift)
      (fun value => Has ctx insts value (words (x.sshiftRight amount))) := by
  obtain ⟨hi, lo, rfl, unpackA⟩ := unpack_emits insts operand
  obtain ⟨n, rfl, inside, typed⟩ := typedU32_emits insts position
  apply Emits.bind unpackA
  rintro ⟨loValue, hiValue⟩ pair
  apply Emits.bind typed
  intro shift shiftHas
  apply Emits.bind (shiftRightLogical_emits pair.lo shiftHas)
  rintro shiftedLo ⟨shiftedLoWord, shiftedLoHas, shiftedLoDefined⟩
  apply Emits.bind (shiftRightArithmetic_emits pair.hi shiftHas)
  rintro shiftedHi ⟨shiftedHiWord, shiftedHiHas, shiftedHiDefined⟩
  apply Emits.bind (shiftRightArithmetic_emits pair.hi has_imm32)
  rintro signExtension ⟨sign, signHas, signDefined⟩
  apply Emits.bind (isub_emits shiftHas has_imm32)
  intro invShift invShiftHas
  apply Emits.bind (igreaterThanEqual_emits invShiftHas has_imm32)
  intro isLong isLongHas
  apply Emits.bind (iequal_emits shiftHas has_imm32)
  intro isZero isZeroHas
  apply Emits.bind (shiftRightArithmetic_emits pair.hi invShiftHas)
  rintro longRetLo ⟨longLo, longLoHas, longLoDefined⟩
  apply Emits.bind (isub_emits has_imm32 shiftHas)
  intro shiftComplement complementHas
  apply Emits.bind (bitFieldExtract_emits pair.hi has_imm32 shiftHas)
  rintro shortHiExtract ⟨extracted, extractedHas, extractedDefined⟩
  apply Emits.bind (bitFieldInsert_emits shiftedLoHas extractedHas complementHas shiftHas)
  rintro shortRetLo ⟨shortLo, shortLoHas, shortLoDefined⟩
  refine (chosen_emits isZeroHas isLongHas pair.lo pair.hi longLoHas signHas shortLoHas
    shiftedHiHas).weaken ?_
  intro value has
  rw [chosen_append ((hi ++ lo).sshiftRight n.toNat) inside ?_ ?_ ?_, words_append]
  · exact has
  · intro none
    rw [none]
    exact sshiftRight_zero
  · intro long
    have less := toNat_sub_32 long
    rw [longLoDefined (by omega), less, signDefined (by decide)]
    exact append_sshiftRight_of_le (by decide) long
  · intro positive short
    rw [shiftedHiDefined short, shortLo_eq short shiftedLoDefined extractedDefined shortLoDefined]
    exact append_sshiftRight (by decide) (le_of_lt short)

/-! ## The lowering -/

section

variable {inst : Lowered} (unasked : inst.hasAssociatedPseudoOperation = false)

include unasked

theorem checkPseudoInstructions_emits {name : String} :
    Emits insts (checkPseudoInstructions inst name) (fun _ => True) := by
  rw [checkPseudoInstructions, unasked]
  exact Emits.pure trivial

theorem lowerBinary_emits {name : String}
    {lowering : Value → Value → Emitter Value} {post : Value → Prop}
    (args : inst.args = [a, b]) (lowered : Emits insts (lowering a b) post) :
    Emits insts (lowerBinary inst name lowering)
      (fun replacement => ∃ value, replacement = .usesWith value ∧ post value) := by
  rw [lowerBinary, args]
  apply Emits.bind (checkPseudoInstructions_emits unasked)
  intro _ _
  apply Emits.bind lowered
  intro value holds
  exact Emits.pure ⟨value, rfl, holds⟩

theorem lowerUnary_emits {name : String} {lowering : Value → Emitter Value} {post : Value → Prop}
    (args : inst.args = [a]) (lowered : Emits insts (lowering a) post) :
    Emits insts (lowerUnary inst name lowering)
      (fun replacement => ∃ value, replacement = .usesWith value ∧ post value) := by
  rw [lowerUnary, args]
  apply Emits.bind (checkPseudoInstructions_emits unasked)
  intro _ _
  apply Emits.bind lowered
  intro value holds
  exact Emits.pure ⟨value, rfl, holds⟩

theorem lower_emits {result : BitVec 64} (defined : result64 ctx inst = some result) :
    Emits insts (lower inst) (fun replacement => ∃ value, replacement = .usesWith value ∧
      Has ctx insts value (words result)) := by
  unfold result64 at defined
  split at defined
  · next a b isOp isArgs =>
    obtain ⟨x, first, rest⟩ := bind_eq_some_iff.1 defined
    obtain ⟨y, second, same⟩ := bind_eq_some_iff.1 rest
    obtain rfl := Option.some.inj same
    rw [lower, isOp]
    exact lowerBinary_emits unasked isArgs (iadd64To32_emits first second)
  · next a b isOp isArgs =>
    obtain ⟨x, first, rest⟩ := bind_eq_some_iff.1 defined
    obtain ⟨y, second, same⟩ := bind_eq_some_iff.1 rest
    obtain rfl := Option.some.inj same
    rw [lower, isOp]
    exact lowerBinary_emits unasked isArgs (isub64To32_emits first second)
  · next a isOp isArgs =>
    obtain ⟨x, operand, same⟩ := bind_eq_some_iff.1 defined
    obtain rfl := Option.some.inj same
    rw [lower, isOp]
    exact lowerUnary_emits unasked isArgs (ineg64To32_emits operand)
  · next a b isOp isArgs =>
    obtain ⟨x, operand, rest⟩ := bind_eq_some_iff.1 defined
    obtain ⟨amount, position, same⟩ := bind_eq_some_iff.1 rest
    obtain rfl := Option.some.inj same
    rw [lower, isOp]
    exact lowerBinary_emits unasked isArgs (shiftLeftLogical64To32_emits operand position)
  · next a b isOp isArgs =>
    obtain ⟨x, operand, rest⟩ := bind_eq_some_iff.1 defined
    obtain ⟨amount, position, same⟩ := bind_eq_some_iff.1 rest
    obtain rfl := Option.some.inj same
    rw [lower, isOp]
    exact lowerBinary_emits unasked isArgs (shiftRightLogical64To32_emits operand position)
  · next a b isOp isArgs =>
    obtain ⟨x, operand, rest⟩ := bind_eq_some_iff.1 defined
    obtain ⟨amount, position, same⟩ := bind_eq_some_iff.1 rest
    obtain rfl := Option.some.inj same
    rw [lower, isOp]
    exact lowerBinary_emits unasked isArgs (shiftRightArithmetic64To32_emits operand position)
  · contradiction

end

/-- An instruction with a 64-bit result is replaced by a value that has its words, whatever the
arbitrary words are and whatever is emitted afterwards. -/
theorem lower_exact (ctx : Context) (inst : Lowered) (result : BitVec 64) (before : List Inst)
    (unasked : inst.hasAssociatedPseudoOperation = false)
    (defined : result64 ctx inst = some result) :
    ∃ value after, (lower inst).run before = (.ok (.usesWith value), after) ∧
      before <+: after ∧
      ∀ insts, after <+: insts → Has ctx insts value
        (.u32x2 (result.setWidth 32) ((result >>> 32).setWidth 32)) := by
  obtain ⟨_, returned, value, rfl, _⟩ :=
    lower_emits unasked defined before (List.prefix_refl ((lower inst).run before).2)
  refine ⟨value, ((lower inst).run before).2, Prod.ext returned rfl,
    (lower inst).appends before, ?_⟩
  intro insts grows
  obtain ⟨_, again, value', rfl, has⟩ := lower_emits unasked defined before grows
  rw [returned] at again
  cases again
  exact has

theorem lower_exact_shift : ∃ value after,
    (lower ⟨.shiftLeftLogical64, [.given .u32x2 0, .imm32 33], false⟩).run [] =
      (.ok (.usesWith value), after) ∧ [] <+: after ∧
      ∀ insts, after <+: insts →
        Has ⟨fun _ => false, fun _ => 0, fun _ => (3, 5), fun _ => 0, fun _ => 7⟩ insts value
          (.u32x2 0 6) :=
  lower_exact ⟨fun _ => false, fun _ => 0, fun _ => (3, 5), fun _ => 0, fun _ => 7⟩
    ⟨.shiftLeftLogical64, [.given .u32x2 0, .imm32 33], false⟩ 0x600000000 [] rfl (by decide)

end SumiEmu.ShaderRecompiler.LowerInt64ToInt32
