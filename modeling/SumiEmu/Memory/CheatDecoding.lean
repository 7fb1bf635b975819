/-
# Decoding undoes the encoding

Decoding gives back every instruction whose register the code looks for at the digit where it is
documented. What is read successfully does not depend on the words behind it, so an instruction
that the program ends in is not decoded.
-/
import SumiEmu.Memory.CheatEncoding

namespace SumiEmu.Memory

open Foundations List Nat

/-! ## Digits -/

theorem digit_hexWord (a b c d e f g h : BitVec 4) :
    digit (hexWord a b c d e f g h) 28 = Digit.index a ∧
      digit (hexWord a b c d e f g h) 24 = Digit.index b ∧ digit (hexWord a b c d e f g h) 20 =
      Digit.index c ∧ digit (hexWord a b c d e f g h) 16 = Digit.index d ∧
    digit (hexWord a b c d e f g h) 12 = Digit.index e ∧
      digit (hexWord a b c d e f g h) 8 = Digit.index f ∧ digit (hexWord a b c d e f g h) 4 =
      Digit.index g ∧ hexWord a b c d e f g h &&& 0xF = Digit.index h := by
  have last : hexWord a b c d e f g h &&& 0xF = Digit.index h := by
    apply BitVec.eq_of_toNat_eq
    rw [toNat_and_mask _ 4 _ (by rfl), toNat_hexWord, Digit.index, BitVec.toNat_setWidth]
    omega
  refine ⟨?_, ?_, ?_, ?_, ?_, ?_, ?_, last⟩
  all_goals
    apply BitVec.eq_of_toNat_eq
    rw [digit, toNat_shiftRight_and _ _ 4 _ (by rfl), toNat_hexWord, Digit.index,
      BitVec.toNat_setWidth]
    omega

theorem index_eq_iff (d c : Digit) : d.index = c.index ↔ d = c := by
  constructor
  · intro same
    have toNatSame := congrArg BitVec.toNat same
    simp only [Digit.index, BitVec.toNat_setWidth] at toNatSame
    apply BitVec.eq_of_toNat_eq
    omega
  · rintro rfl
    rfl

theorem index_flag (b : Bool) :
    decide (Digit.index (flag b) ≠ 0) = b ∧ decide (Digit.index (flag b) = 1) = b := by
  cases b <;> decide

theorem opcodeType_hexWord (a b c d e f g h : BitVec 4) :
    opcodeType (hexWord a b c d e f g h) =
      if a.toNat < 12 then a.toNat
      else if a.toNat * 16 + b.toNat < 240 then a.toNat * 16 + b.toNat
      else (a.toNat * 16 + b.toNat) * 16 + c.toNat := by
  obtain ⟨first, second, third, -⟩ := digit_hexWord a b c d e f g h
  have toNatIndex (d : Digit) : d.index.toNat = d.toNat := by
    rw [Digit.index, BitVec.toNat_setWidth]
    omega
  rw [opcodeType, first, second, third, toNatIndex, toNatIndex, toNatIndex]
  split_ifs <;> omega

/-! ## Reading words that are there -/

section Reading

variable {program rest : List Word} {r : Reader}

theorem getNextDword_eq {w : Word} (words : program.drop r.instructionPtr = w :: rest) :
    getNextDword program r = (w, { r with instructionPtr := r.instructionPtr + 1 }) := by
  have next : program[r.instructionPtr]? = some w := by
    rw [← head?_drop, words, head?_cons]
  rw [getNextDword, next]

theorem drop_succ_eq {w : Word} {p : Nat} (words : program.drop p = w :: rest) :
    program.drop (p + 1) = rest := by
  rw [← drop_drop, words, drop_one, tail_cons]

theorem getNextQword_eq (v : BitVec 64)
    (words : program.drop r.instructionPtr = lowWord (v >>> 32) :: lowWord v :: rest) :
    getNextQword program r = (v, { r with instructionPtr := r.instructionPtr + 2 }) := by
  have value : ((lowWord (v >>> 32)).setWidth 64 <<< 32) ||| (lowWord v).setWidth 64 = v := by
    apply BitVec.eq_of_toNat_eq
    rw [toNat_highLow]
    simp only [lowWord, BitVec.toNat_setWidth, BitVec.toNat_ushiftRight, shiftRight_eq_div_pow]
    omega
  rw [getNextQword, getNextDword_eq words]
  dsimp only
  rw [getNextDword_eq (drop_succ_eq words), value]

theorem getNextVmInt_eq (bitWidth : Digit) (v : BitVec 64)
    (words : program.drop r.instructionPtr = immediateWords bitWidth v ++ rest) :
    getNextVmInt program bitWidth.index r =
      (vmInt bitWidth v, { r with instructionPtr := r.instructionPtr +
        (immediateWords bitWidth v).length }) := by
  have widths (c : Digit) : bitWidth.index = c.index ↔ bitWidth = c := index_eq_iff bitWidth c
  have one : bitWidth.index = 1 ↔ bitWidth = 1 := widths 1
  have two : bitWidth.index = 2 ↔ bitWidth = 2 := widths 2
  have four : bitWidth.index = 4 ↔ bitWidth = 4 := widths 4
  have eight : bitWidth.index = 8 ↔ bitWidth = 8 := widths 8
  by_cases long : bitWidth = 8
  · subst long
    rw [immediateWords, if_pos rfl] at words ⊢
    have qword := getNextQword_eq v words
    simpa [getNextVmInt, getNextQword, vmInt, Digit.index] using qword
  · rw [immediateWords, if_neg long] at words ⊢
    have low (n : Nat) (bound : n ≤ 32) : (lowWord v).setWidth n = v.setWidth n := by
      apply BitVec.eq_of_toNat_eq
      simp only [lowWord, BitVec.toNat_setWidth]
      exact mod_mod_of_dvd _ (pow_dvd_pow 2 bound)
    rw [getNextVmInt, getNextDword_eq words]
    simp only [one, two, four, eight, vmInt, long, if_false, low 8 (by omega), low 16 (by omega)]
    split_ifs <;> rfl

theorem getNextAddress_eq {w : Nat} (a : BitVec w) (upper : Word) (bound : w ≤ 64)
    (digits : upper.toNat = a.toNat / 2 ^ 32)
    (words : program.drop r.instructionPtr = lowWord a :: rest) :
    getNextAddress program upper r =
      (a.setWidth 64, { r with instructionPtr := r.instructionPtr + 1 }) := by
  have value : (upper.setWidth 64 <<< 32) ||| (lowWord a).setWidth 64 = a.setWidth 64 := by
    apply BitVec.eq_of_toNat_eq
    have small : a.toNat < 2 ^ 64 :=
      Nat.lt_of_lt_of_le a.isLt (Nat.pow_le_pow_right (by omega) bound)
    rw [toNat_highLow, digits, lowWord, BitVec.toNat_setWidth, BitVec.toNat_setWidth,
      mod_eq_of_lt small]
    omega
  rw [getNextAddress, getNextDword_eq words]
  dsimp only
  rw [value]

/-- The address whose two upper digits end the first word. -/
theorem getNextAddress_twoDigits (a : BitVec 40) (c d e f g h : BitVec 4)
    (words : program.drop r.instructionPtr = lowWord a :: rest) :
    getNextAddress program (hexWord c d e f g h (hexDigit a 9) (hexDigit a 8) &&& 0xFF) r =
      (a.setWidth 64, { r with instructionPtr := r.instructionPtr + 1 }) := by
  refine getNextAddress_eq a _ (by omega) ?_ words
  have bound := a.isLt
  rw [toNat_and_mask _ 8 _ (by rfl), toNat_hexWord, toNat_hexDigit, toNat_hexDigit]
  omega

/-- The address whose upper digit ends the first word. -/
theorem getNextAddress_oneDigit (a : BitVec 36)
    (words : program.drop r.instructionPtr = lowWord a :: rest) :
    getNextAddress program (Digit.index (hexDigit a 8)) r =
      (a.setWidth 64, { r with instructionPtr := r.instructionPtr + 1 }) := by
  refine getNextAddress_eq a _ (by omega) ?_ words
  have bound := a.isLt
  rw [Digit.index, BitVec.toNat_setWidth, toNat_hexDigit]
  omega

theorem getMemoryOperand_eq (m : MemoryOperand) (a b c d e f kind x y : Digit) (words : List Word)
    (digits : m.digits = (kind, x, y, words))
    (there : program.drop r.instructionPtr = words ++ rest) :
    getMemoryOperand program (hexWord a b c d e f x y) kind.index r =
      (m.operand, { r with instructionPtr := r.instructionPtr + words.length }) ∧
      kind.index = m.kind := by
  obtain ⟨-, -, -, -, -, -, seventh, last⟩ := digit_hexWord a b c d e f x y
  cases m with
  | region memType relAddress =>
    obtain ⟨rfl, rfl, rfl, rfl⟩ : _ ∧ _ ∧ _ ∧ _ := by simpa [MemoryOperand.digits] using digits
    have address := getNextAddress_oneDigit relAddress there
    exact ⟨by rw [getMemoryOperand, last, seventh, address]; rfl, rfl⟩
  | regionRegister memType ofsReg =>
    obtain ⟨rfl, rfl, rfl, rfl⟩ : _ ∧ _ ∧ _ ∧ _ := by simpa [MemoryOperand.digits] using digits
    exact ⟨by rw [getMemoryOperand, last, seventh]; rfl, rfl⟩
  | register addrReg relAddress =>
    obtain ⟨rfl, rfl, rfl, rfl⟩ : _ ∧ _ ∧ _ ∧ _ := by simpa [MemoryOperand.digits] using digits
    have address := getNextAddress_oneDigit relAddress there
    exact ⟨by rw [getMemoryOperand, last, seventh, address]; rfl, rfl⟩
  | registerRegister addrReg ofsReg =>
    obtain ⟨rfl, rfl, rfl, rfl⟩ : _ ∧ _ ∧ _ ∧ _ := by simpa [MemoryOperand.digits] using digits
    exact ⟨by rw [getMemoryOperand, last, seventh]; rfl, rfl⟩

end Reading

/-! ## Decoding an instruction that is there -/

/-- The instruction that is read. The register of a control loop is documented at the fourth digit
and read from the third. -/
def Instruction.asRead : Instruction → Instruction
  | .startLoop _ numIters => .startLoop 0 numIters
  | .endLoop _ => .endLoop 0
  | i => i

section Opcodes

variable {program words rest : List Word} {r : Reader}

theorem opcodeType_encode {first : Word} (i : Instruction) (encoded : i.encode = first :: words) :
    opcodeType first = i.type := by
  cases i with
  | performArithmeticRegister t c reg s operand =>
    cases operand <;>
    · obtain ⟨rfl, -⟩ := cons.inj encoded
      exact opcodeType_hexWord ..
  | _ =>
    obtain ⟨rfl, -⟩ := cons.inj encoded
    exact opcodeType_hexWord ..

theorem decodeStoreRegisterToAddress_eq (t s reg : Digit) (i : Bool) (offset : StoreOffset)
    (o x a : Digit)
    (digits : offset.digits = (o, x, a, words))
    (there : program.drop r.instructionPtr = words ++ rest) :
    let decoded := decodeStoreRegisterToAddress program (hexWord 0xA t s reg (flag i) o x a) r
    Opcode.storeRegisterToAddress decoded.1 =
      (Instruction.storeRegisterToAddress t s reg i offset).opcode ∧
      decoded.2 = { r with instructionPtr := r.instructionPtr + words.length } := by
  cases offset with
  | none | register _ | region _ =>
    cases digits
    simp only [decodeStoreRegisterToAddress, digit_hexWord, index_flag]
    exact ⟨rfl, rfl⟩
  | immediate relAddress | regionImmediate _ relAddress | regionImmediateRegister _ relAddress =>
    cases digits
    have address := getNextAddress_oneDigit relAddress there
    simp only [decodeStoreRegisterToAddress, digit_hexWord, index_flag, address]
    exact ⟨rfl, rfl⟩

theorem decodeBeginRegisterConditional_eq (t c s : Digit) (operand : CompareOperand)
    (kind x a : Digit)
    (digits : operand.digits t = (kind, x, a, words))
    (there : program.drop r.instructionPtr = words ++ rest) :
    let decoded := decodeBeginRegisterConditional program (hexWord 0xC 0 t c s kind x a) r
    Opcode.beginRegisterConditional decoded.1 =
      (Instruction.beginRegisterConditional t c s operand).opcode ∧
      decoded.2 = { r with instructionPtr := r.instructionPtr + words.length } := by
  cases operand with
  | memory m =>
    obtain ⟨read, kindEq⟩ := getMemoryOperand_eq m 0xC 0 t c s kind kind x a words digits there
    rw [kindEq] at read
    have notValue : m.kind ≠ 4 ∧ m.kind ≠ 5 := by
      cases m <;> simp [MemoryOperand.kind]
    simp only [decodeBeginRegisterConditional, digit_hexWord, kindEq, if_neg notValue.1,
      if_neg notValue.2, read]
    exact ⟨rfl, trivial⟩
  | staticValue v =>
    cases digits
    have immediate := getNextVmInt_eq t v there
    simp only [decodeBeginRegisterConditional, digit_hexWord, immediate]
    exact ⟨rfl, rfl⟩
  | otherRegister reg =>
    cases digits
    simp only [decodeBeginRegisterConditional, digit_hexWord]
    exact ⟨rfl, rfl⟩

theorem decodeDebugLog_eq (t i : Digit) (operand : LogOperand) (kind x a : Digit)
    (digits : operand.digits = (kind, x, a, words))
    (there : program.drop r.instructionPtr = words ++ rest) :
    let decoded := decodeDebugLog program (hexWord 0xF 0xF 0xF t i kind x a) r
    Opcode.debugLog decoded.1 = (Instruction.debugLog t i operand).opcode ∧
    decoded.2 = { r with instructionPtr := r.instructionPtr + words.length } := by
  cases operand with
  | memory m =>
    obtain ⟨read, kindEq⟩ := getMemoryOperand_eq m 0xF 0xF 0xF t i kind kind x a words digits there
    rw [kindEq] at read
    have notValue : m.kind ≠ 4 := by
      cases m <;> simp [MemoryOperand.kind]
    simp only [decodeDebugLog, digit_hexWord, kindEq, if_neg notValue, read]
    exact ⟨rfl, trivial⟩
  | registerValue reg =>
    cases digits
    simp only [decodeDebugLog, digit_hexWord]
    exact ⟨rfl, rfl⟩

theorem decodeOpcode_encode {first : Word} (i : Instruction) (encoded : i.encode = first :: words)
    (there : program.drop r.instructionPtr = words ++ rest) :
    decodeOpcode program first r =
      (i.asRead.opcode, { r with instructionPtr := r.instructionPtr + words.length }) := by
  have type := opcodeType_encode i encoded
  cases i with
  | storeStatic t m reg a y =>
    obtain ⟨rfl, rfl⟩ := cons.inj encoded
    have address := getNextAddress_twoDigits a 0 t m reg 0 0 there
    have immediate := getNextVmInt_eq (r := ⟨r.instructionPtr + 1, r.valid⟩) t y
      (drop_succ_eq there)
    simp only [decodeOpcode, type, Instruction.type, digit_hexWord, address, immediate, length_cons]
    rw [add_assoc, add_comm 1]
    rfl
  | beginConditional t m c a y =>
    obtain ⟨rfl, rfl⟩ := cons.inj encoded
    have address := getNextAddress_twoDigits a 1 t m c 0 0 there
    have immediate := getNextVmInt_eq (r := ⟨r.instructionPtr + 1, r.valid⟩) t y
      (drop_succ_eq there)
    simp only [decodeOpcode, type, Instruction.type, digit_hexWord, address, immediate, length_cons]
    rw [add_assoc, add_comm 1]
    rfl
  | endConditional isElse =>
    obtain ⟨rfl, rfl⟩ := cons.inj encoded
    simp only [decodeOpcode, type, Instruction.type, digit_hexWord, index_flag]
    rfl
  | startLoop reg v =>
    obtain ⟨rfl, rfl⟩ := cons.inj encoded
    simp only [decodeOpcode, type, Instruction.type, digit_hexWord, getNextDword_eq there]
    rfl
  | endLoop reg =>
    obtain ⟨rfl, rfl⟩ := cons.inj encoded
    simp only [decodeOpcode, type, Instruction.type, digit_hexWord]
    rfl
  | loadRegisterStatic reg v =>
    obtain ⟨rfl, rfl⟩ := cons.inj encoded
    simp only [decodeOpcode, type, Instruction.type, digit_hexWord, getNextQword_eq v there]
    rfl
  | loadRegisterMemory t m reg i a =>
    obtain ⟨rfl, rfl⟩ := cons.inj encoded
    have address := getNextAddress_twoDigits a 5 t m reg (flag i) 0 there
    simp only [decodeOpcode, type, Instruction.type, digit_hexWord, index_flag, address]
    rfl
  | storeStaticToAddress t reg i o ofs v =>
    obtain ⟨rfl, rfl⟩ := cons.inj encoded
    simp only [decodeOpcode, type, Instruction.type, digit_hexWord, index_flag,
      getNextQword_eq v there]
    rfl
  | performArithmeticStatic t reg c v =>
    obtain ⟨rfl, rfl⟩ := cons.inj encoded
    simp only [decodeOpcode, type, Instruction.type, digit_hexWord, getNextDword_eq there]
    rfl
  | beginKeypressConditional k =>
    obtain ⟨rfl, rfl⟩ := cons.inj encoded
    have mask : hexWord 8 (hexDigit k 6) (hexDigit k 5) (hexDigit k 4) (hexDigit k 3) (hexDigit k 2)
      (hexDigit k 1) (hexDigit k 0) &&& 0x0FFFFFFF = k.setWidth 32 := by
      apply BitVec.eq_of_toNat_eq
      have bound := k.isLt
      rw [toNat_and_mask _ 28 _ (by rfl), toNat_hexWord, BitVec.toNat_setWidth]
      simp only [toNat_hexDigit]
      omega
    rw [decodeOpcode, type, Instruction.type]
    show (Opcode.beginKeypressConditional { keyMask := _ }, r) = _
    rw [mask]
    rfl
  | performArithmeticRegister t c reg s operand =>
    cases operand with
    | register src =>
      obtain ⟨rfl, rfl⟩ := cons.inj encoded
      simp only [decodeOpcode, type, Instruction.type, digit_hexWord]
      rfl
    | immediate v =>
      obtain ⟨rfl, rfl⟩ := cons.inj encoded
      simp only [decodeOpcode, type, Instruction.type, digit_hexWord, getNextVmInt_eq t v there]
      rfl
  | storeRegisterToAddress t s reg i offset =>
    obtain ⟨o, x, a, further, digits⟩ : ∃ o x a further, offset.digits = (o, x, a, further) :=
      ⟨_, _, _, _, rfl⟩
    simp only [Instruction.encode, digits] at encoded
    obtain ⟨rfl, rfl⟩ := cons.inj encoded
    have decoded := decodeStoreRegisterToAddress_eq t s reg i offset o x a digits there
    simp only [decodeOpcode, type, Instruction.type]
    exact Prod.ext decoded.1 decoded.2
  | beginRegisterConditional t c s operand =>
    obtain ⟨kind, x, a, further, digits⟩ : ∃ kind x a further,
      operand.digits t = (kind, x, a, further) :=
      ⟨_, _, _, _, rfl⟩
    simp only [Instruction.encode, digits] at encoded
    obtain ⟨rfl, rfl⟩ := cons.inj encoded
    have decoded := decodeBeginRegisterConditional_eq t c s operand kind x a digits there
    simp only [decodeOpcode, type, Instruction.type]
    exact Prod.ext decoded.1 decoded.2
  | saveRestoreRegister d s x =>
    obtain ⟨rfl, rfl⟩ := cons.inj encoded
    simp only [decodeOpcode, type, Instruction.type, digit_hexWord]
    rfl
  | saveRestoreRegisterMask x mask =>
    obtain ⟨rfl, rfl⟩ := cons.inj encoded
    have bits : (hexWord 0xC 2 x 0 (hexDigit mask 3) (hexDigit mask 2) (hexDigit mask 1)
        (hexDigit mask 0)).setWidth 16 = mask := by
      apply BitVec.eq_of_toNat_eq
      rw [BitVec.toNat_setWidth, toNat_hexWord]
      simp only [toNat_hexDigit]
      omega
    simp only [decodeOpcode, type, Instruction.type, digit_hexWord, bits]
    rfl
  | readWriteStaticRegister i x =>
    obtain ⟨rfl, rfl⟩ := cons.inj encoded
    have index : (hexWord 0xC 3 0 0 0 (hexDigit i 1) (hexDigit i 0) x >>> 4) &&& 0xFF =
        i.setWidth 32 := by
      apply BitVec.eq_of_toNat_eq
      rw [toNat_shiftRight_and _ _ 8 _ (by rfl), toNat_hexWord, BitVec.toNat_setWidth]
      simp only [toNat_hexDigit]
      omega
    simp only [decodeOpcode, type, Instruction.type, digit_hexWord, index]
    rfl
  | pauseProcess u =>
    obtain ⟨rfl, rfl⟩ := cons.inj encoded
    simp only [decodeOpcode, type, Instruction.type]
    rfl
  | resumeProcess u =>
    obtain ⟨rfl, rfl⟩ := cons.inj encoded
    simp only [decodeOpcode, type, Instruction.type]
    rfl
  | debugLog t i operand =>
    obtain ⟨kind, x, a, further, digits⟩ : ∃ kind x a further,
      operand.digits = (kind, x, a, further) :=
      ⟨_, _, _, _, rfl⟩
    simp only [Instruction.encode, digits] at encoded
    obtain ⟨rfl, rfl⟩ := cons.inj encoded
    have decoded := decodeDebugLog_eq t i operand kind x a digits there
    simp only [decodeOpcode, type, Instruction.type]
    exact Prod.ext decoded.1 decoded.2

end Opcodes

/-! ## Reading words that are not there -/

/-- Reading goes forward inside the program, and what is read successfully does not depend on the
words behind it. -/
def Stable {α : Type} (read : List Word → Reader → α × Reader) : Prop :=
  ∀ program behind r, r.instructionPtr ≤ program.length →
    r.instructionPtr ≤ (read program r).2.instructionPtr ∧
    (read program r).2.instructionPtr ≤ program.length ∧
    ((read program r).2.valid = true → r.valid = true ∧ read (program ++ behind) r = read program r)

section Stable

variable {α β : Type}

theorem Stable.pure (a : α) : Stable fun _ r => (a, r) :=
  fun _ _ _ inside => ⟨le_refl _, inside, fun valid => ⟨valid, rfl⟩⟩

variable {read : List Word → Reader → α × Reader}

theorem Stable.bind {next : α → List Word → Reader → β × Reader}
    (first : Stable read) (following : ∀ a, Stable (next a)) :
    Stable fun program r => next (read program r).1 program (read program r).2 := by
  intro program behind r inside
  obtain ⟨firstForward, firstInside, firstSame⟩ := first program behind r inside
  obtain ⟨nextForward, nextInside, nextSame⟩ :=
    following (read program r).1 program behind (read program r).2 firstInside
  refine ⟨le_trans firstForward nextForward, nextInside, ?_⟩
  intro valid
  obtain ⟨readValid, same⟩ := nextSame valid
  obtain ⟨startValid, sameRead⟩ := firstSame readValid
  refine ⟨startValid, ?_⟩
  dsimp only
  rw [sameRead, same]

theorem Stable.map (first : Stable read) (f : α → β) :
    Stable fun program r => (f (read program r).1, (read program r).2) :=
  first.bind fun a => Stable.pure (f a)

theorem Stable.ite {p : Prop} [Decidable p] {read other : List Word → Reader → α × Reader}
    (first : Stable read)
    (second : Stable other) : Stable fun program r =>
    if p then read program r else other program r := by
  by_cases condition : p
  · simpa only [if_pos condition] using first
  · simpa only [if_neg condition] using second

theorem getNextDword_stable : Stable getNextDword := by
  intro program behind r inside
  unfold getNextDword
  cases here : program[r.instructionPtr]? with
  | none => exact ⟨le_refl _, inside, fun valid => absurd valid Bool.false_ne_true⟩
  | some word =>
    have bound := (List.getElem?_eq_some_iff.mp here).1
    refine ⟨le_succ _, bound, fun valid => ⟨valid, ?_⟩⟩
    rw [getElem?_append_left bound, here]

theorem getNextQword_stable : Stable getNextQword :=
  getNextDword_stable.bind fun high => getNextDword_stable.map fun low =>
    (high.setWidth 64 <<< 32) ||| low.setWidth 64

theorem getNextVmInt_stable (bitWidth : Word) :
    Stable fun program r => getNextVmInt program bitWidth r :=
  getNextDword_stable.bind fun first =>
    (Stable.pure ((first.setWidth 8).setWidth 64)).ite <|
    (Stable.pure ((first.setWidth 16).setWidth 64)).ite <|
    (Stable.pure (first.setWidth 64)).ite <|
    (getNextDword_stable.map fun low => (first.setWidth 64 <<< 32) ||| low.setWidth 64).ite
    (Stable.pure 0)

theorem getNextAddress_stable (upper : Word) :
    Stable fun program r => getNextAddress program upper r :=
  getNextDword_stable.map fun low => (upper.setWidth 64 <<< 32) ||| low.setWidth 64

theorem getMemoryOperand_stable (firstDword kind : Word) :
    Stable fun program r => getMemoryOperand program firstDword kind r :=
  ((getNextAddress_stable _).map _).ite <| (Stable.pure _).ite <|
    ((getNextAddress_stable _).map _).ite <| (Stable.pure _).ite (Stable.pure _)

variable (firstDword : Word)

theorem decodeStoreRegisterToAddress_stable :
    Stable fun program r => decodeStoreRegisterToAddress program firstDword r :=
  (Stable.pure _).ite <| ((getNextAddress_stable _).map _).ite <| (Stable.pure _).ite <|
    ((getNextAddress_stable _).map _).ite (Stable.pure _)

theorem decodeBeginRegisterConditional_stable :
    Stable fun program r => decodeBeginRegisterConditional program firstDword r :=
  ((getNextVmInt_stable _).map _).ite <| (Stable.pure _).ite <|
    (getMemoryOperand_stable firstDword (digit firstDword 8)).map fun operand : Operand =>
      ({ bitWidth := digit firstDword 20, condType := digit firstDword 16
         valRegIndex := digit firstDword 12, compType := digit firstDword 8
         memType := operand.memType, addrRegIndex := operand.addrRegIndex
         ofsRegIndex := operand.ofsRegIndex
         relAddress := operand.relAddress } : BeginRegisterConditionalOpcode)

theorem decodeDebugLog_stable : Stable fun program r => decodeDebugLog program firstDword r :=
  (Stable.pure _).ite <|
    (getMemoryOperand_stable firstDword (digit firstDword 8)).map fun operand : Operand =>
      ({ bitWidth := digit firstDword 16, logId := digit firstDword 12
         valType := digit firstDword 8
         memType := operand.memType, addrRegIndex := operand.addrRegIndex
         ofsRegIndex := operand.ofsRegIndex, relAddress := operand.relAddress } : DebugLogOpcode)

theorem decodeOpcode_stable : Stable fun program r => decodeOpcode program firstDword r := by
  intro program behind r inside
  unfold decodeOpcode
  split
  · exact (getNextAddress_stable (firstDword &&& 0xFF)).bind (fun relAddress =>
      (getNextVmInt_stable (digit firstDword 24)).map fun value => Opcode.storeStatic
        { bitWidth := digit firstDword 24, memType := digit firstDword 20
          offsetRegister := digit firstDword 16
          relAddress, value }) program behind r inside
  · exact (getNextAddress_stable (firstDword &&& 0xFF)).bind (fun relAddress =>
      (getNextVmInt_stable (digit firstDword 24)).map fun value => Opcode.beginConditional
        { bitWidth := digit firstDword 24, memType := digit firstDword 20
          condType := digit firstDword 16
          relAddress, value }) program behind r inside
  · exact Stable.pure _ program behind r inside
  · exact (getNextDword_stable.map fun numIters => Opcode.controlLoop
        { startLoop := true, regIndex := digit firstDword 20, numIters }).ite (Stable.pure _)
      program behind r inside
  · exact getNextQword_stable.map (fun value => Opcode.loadRegisterStatic
        { regIndex := digit firstDword 16, value })
      program behind r inside
  · exact (getNextAddress_stable (firstDword &&& 0xFF)).map (fun relAddress =>
      Opcode.loadRegisterMemory
        { bitWidth := digit firstDword 24, memType := digit firstDword 20
          regIndex := digit firstDword 16
          loadFromReg := digit firstDword 12 ≠ 0, relAddress }) program behind r inside
  · exact getNextQword_stable.map (fun value => Opcode.storeStaticToAddress
        { bitWidth := digit firstDword 24, regIndex := digit firstDword 16
          incrementReg := digit firstDword 12 ≠ 0
          addOffsetReg := digit firstDword 8 ≠ 0, offsetRegIndex := digit firstDword 4, value })
          program behind r inside
  · exact getNextDword_stable.map (fun value => Opcode.performArithmeticStatic
        { bitWidth := digit firstDword 24, regIndex := digit firstDword 16
          mathType := digit firstDword 12, value })
      program behind r inside
  · exact Stable.pure _ program behind r inside
  · exact ((getNextVmInt_stable (digit firstDword 24)).map fun value =>
      Opcode.performArithmeticRegister
        { bitWidth := digit firstDword 24, mathType := digit firstDword 20
          dstRegIndex := digit firstDword 16
          srcReg1Index := digit firstDword 12, hasImmediate := digit firstDword 8 ≠ 0, value }).ite
          (Stable.pure _)
      program behind r inside
  · exact (decodeStoreRegisterToAddress_stable firstDword).map Opcode.storeRegisterToAddress
      program behind r inside
  · exact (decodeBeginRegisterConditional_stable firstDword).map Opcode.beginRegisterConditional
      program behind r inside
  · exact Stable.pure _ program behind r inside
  · exact Stable.pure _ program behind r inside
  · exact Stable.pure _ program behind r inside
  · exact Stable.pure _ program behind r inside
  · exact Stable.pure _ program behind r inside
  · exact (decodeDebugLog_stable firstDword).map Opcode.debugLog program behind r inside
  · exact ⟨le_refl _, inside, fun valid => absurd valid Bool.false_ne_true⟩

end Stable

/-! ## Decoding the next opcode -/

theorem beginsConditionalBlock_encode {first : Word} {words : List Word} (i : Instruction)
    (encoded : i.encode = first :: words) : beginsConditionalBlock first = i.isConditional := by
  rw [beginsConditionalBlock, opcodeType_encode i encoded]
  cases i <;> rfl

theorem encode_ne_nil (i : Instruction) : ∃ first words, i.encode = first :: words := by
  cases i with
  | performArithmeticRegister t c reg s operand => cases operand <;> exact ⟨_, _, rfl⟩
  | _ => exact ⟨_, _, rfl⟩

variable {s : ProgramState}

/-- A call that finds a first word and reads further words from it. -/
theorem decodeNextOpcode_eq {first : Word} (words : List Word) {rest : List Word}
    {opcode : Opcode} (success : s.decodeSuccess = true)
    (there : s.program.drop s.instructionPtr = first :: (words ++ rest))
    (further : decodeOpcode s.program first ⟨s.instructionPtr + 1, s.decodeSuccess⟩ =
      (opcode, ⟨s.instructionPtr + 1 + words.length, s.decodeSuccess⟩)) :
    decodeNextOpcode s = (some ⟨beginsConditionalBlock first, opcode⟩,
      { s with instructionPtr := s.instructionPtr + (words.length + 1) }) := by
  have firstRead := getNextDword_eq (r := ⟨s.instructionPtr, s.decodeSuccess⟩) there
  simp only [decodeNextOpcode, firstRead, further]
  simp only [success, if_true, Bool.and_self]
  rw [add_assoc, add_comm 1]

theorem decodeNextOpcode_encode {rest : List Word} (i : Instruction)
    (success : s.decodeSuccess = true)
    (there : s.program.drop s.instructionPtr = i.encode ++ rest) :
    decodeNextOpcode s = (some ⟨i.isConditional, i.asRead.opcode⟩,
      { s with instructionPtr := s.instructionPtr + i.encode.length }) := by
  obtain ⟨first, words, encoded⟩ := encode_ne_nil i
  rw [encoded, cons_append] at there
  have furtherRead := decodeOpcode_encode (r := ⟨s.instructionPtr + 1, s.decodeSuccess⟩) i encoded
    (drop_succ_eq there)
  rw [decodeNextOpcode_eq words success there furtherRead, beginsConditionalBlock_encode i encoded,
    encoded, length_cons]

/-- A successful call goes at least one word forward. -/
theorem decodeNextOpcode_forward {opcode : CheatVmOpcode}
    (success : (decodeNextOpcode s).1 = some opcode) :
    (decodeNextOpcode s).2.program = s.program ∧
    s.instructionPtr < (decodeNextOpcode s).2.instructionPtr ∧
    (decodeNextOpcode s).2.instructionPtr ≤ s.program.length := by
  cases there : s.program[s.instructionPtr]? with
  | none =>
    simp only [decodeNextOpcode, getNextDword, there] at success
    exact absurd success (Option.some_ne_none _).symm
  | some word =>
    have bound := (List.getElem?_eq_some_iff.mp there).1
    obtain ⟨forward, inside, -⟩ :=
      decodeOpcode_stable word s.program [] ⟨s.instructionPtr + 1, s.decodeSuccess⟩ bound
    simp only [decodeNextOpcode, getNextDword, there] at success ⊢
    split at success
    · rename_i valid
      rw [if_pos valid]
      exact ⟨rfl, forward, inside⟩
    · exact absurd success (Option.some_ne_none _).symm

theorem decodeNextOpcode_failed (failed : s.decodeSuccess = false) :
    (decodeNextOpcode s).1 = none ∧ (decodeNextOpcode s).2.decodeSuccess = false := by
  have invalid : (getNextDword s.program ⟨s.instructionPtr, s.decodeSuccess⟩).2.valid = false := by
    unfold getNextDword
    split
    · rfl
    · exact failed
  simp only [decodeNextOpcode, invalid]
  exact ⟨rfl, Bool.and_false _⟩

/-- The results of further calls, each at any place of the program. -/
def laterResults (s : ProgramState) : List Nat → List (Option CheatVmOpcode)
  | [] => []
  | p :: ptrs =>
    let (out, s) := decodeNextOpcode { s with instructionPtr := p }
    out :: laterResults s ptrs

theorem laterResults_failed (ptrs : List Nat) (failed : s.decodeSuccess = false) :
    ∀ out ∈ laterResults s ptrs, out = none := by
  induction ptrs generalizing s with
  | nil => simp [laterResults]
  | cons p ptrs ih =>
    obtain ⟨noneNow, failedStill⟩ :=
      decodeNextOpcode_failed (s := { s with instructionPtr := p }) failed
    intro out mem
    rcases mem_cons.mp mem with rfl | later
    · exact noneNow
    · exact ih failedStill out later

theorem decodeNextOpcode_cut {behind : List Word} (i : Instruction)
    (cut : s.program.drop s.instructionPtr ++ behind = i.encode) (missing : behind ≠ []) :
    (decodeNextOpcode s).1 = none ∧ (decodeNextOpcode s).2.decodeSuccess = false := by
  obtain ⟨first, words, encoded⟩ := encode_ne_nil i
  cases there : s.program.drop s.instructionPtr with
  | nil =>
    have outside : s.program[s.instructionPtr]? = none := by
      rw [← head?_drop, there, head?_nil]
    simp only [decodeNextOpcode, getNextDword, outside, Bool.and_false]
    exact ⟨rfl, rfl⟩
  | cons w rest =>
    have inside : s.instructionPtr < s.program.length := by
      refine Nat.lt_of_not_le fun outside => ?_
      rw [drop_eq_nil_of_le outside] at there
      exact cons_ne_nil _ _ there.symm
    rw [there, encoded, cons_append] at cut
    obtain ⟨rfl, wordsEq⟩ := cons.inj cut
    have firstRead := getNextDword_eq (r := ⟨s.instructionPtr, s.decodeSuccess⟩) there
    -- With the missing words behind the program the whole instruction is read, past the program's
    -- end.
    have wholeThere : (s.program ++ behind).drop (s.instructionPtr + 1) = words ++ [] := by
      rw [drop_append_of_le_length inside, drop_succ_eq there, wordsEq, append_nil]
    have whole := decodeOpcode_encode (r := ⟨s.instructionPtr + 1, s.decodeSuccess⟩) i encoded
      wholeThere
    have stable := decodeOpcode_stable w s.program behind ⟨s.instructionPtr + 1, s.decodeSuccess⟩
      inside
    have lengths : s.instructionPtr + 1 + words.length > s.program.length := by
      have restLength := congrArg length (drop_succ_eq there)
      have wordsLength := congrArg length wordsEq
      have behindLength := length_pos_iff.mpr missing
      rw [length_drop] at restLength
      rw [length_append] at wordsLength
      omega
    have invalid : (decodeOpcode s.program w ⟨s.instructionPtr + 1, s.decodeSuccess⟩).2.valid =
        false := by
      refine Bool.eq_false_iff.mpr fun valid => ?_
      obtain ⟨-, readInside, same⟩ := stable
      replace same := (same valid).2
      dsimp only at same readInside
      rw [← same, whole] at readInside
      dsimp only at readInside
      omega
    simp only [decodeNextOpcode, firstRead, invalid, Bool.and_false]
    split
    · exact ⟨rfl, rfl⟩
    · rename_i failed
      exact ⟨rfl, by simpa using failed⟩

/-- What decoding promises for an instruction: where its words are they are read as the instruction,
and where the program ends in them the call fails and so do all later calls. -/
structure DecodedBack (i : Instruction) : Prop where
  whole : ∀ (s : ProgramState) (rest : List Word), s.decodeSuccess = true →
    s.program.drop s.instructionPtr = i.encode ++ rest →
    decodeNextOpcode s =
      (some ⟨i.isConditional, i.opcode⟩,
        { s with instructionPtr := s.instructionPtr + i.encode.length })
  cut : ∀ (s : ProgramState) (behind : List Word), s.decodeSuccess = true → behind ≠ [] →
    s.program.drop s.instructionPtr ++ behind = i.encode →
    (decodeNextOpcode s).1 = none ∧
    ∀ ptrs, ∀ out ∈ laterResults (decodeNextOpcode s).2 ptrs, out = none

theorem asRead_opcode_iff (i : Instruction) :
    i.asRead.opcode = i.opcode ↔ ∀ reg, i.loopRegister? = some reg → reg = 0 := by
  cases i with
  | startLoop reg numIters | endLoop reg =>
    constructor
    · intro same other eq
      obtain rfl : reg = other := Option.some.inj eq
      have indices : Digit.index 0 = reg.index := by
        injection same with loops
        injection loops
      exact ((index_eq_iff 0 reg).mp indices).symm
    · intro zero
      rw [zero reg rfl]
      rfl
  | _ => exact ⟨fun _ _ eq => absurd eq (Option.some_ne_none _).symm, fun _ => rfl⟩

/-- Decoding undoes the documented encoding of exactly the instructions other than control loops,
and of control loops on register `0`. -/
theorem decodedBack_iff (i : Instruction) :
    DecodedBack i ↔ ∀ reg, i.loopRegister? = some reg → reg = 0 := by
  rw [← asRead_opcode_iff]
  constructor
  · intro back
    have there : i.encode.drop 0 = i.encode ++ [] := (append_nil _).symm
    have documented := back.whole ⟨i.encode, 0, true⟩ [] rfl there
    rw [decodeNextOpcode_encode i rfl there] at documented
    exact (CheatVmOpcode.mk.inj (Option.some.inj (Prod.mk.inj documented).1)).2
  · intro same
    refine ⟨fun s rest success there => ?_, fun s behind success missing cut => ?_⟩
    · rw [decodeNextOpcode_encode i success there, same]
    · obtain ⟨failsNow, failed⟩ := decodeNextOpcode_cut i cut missing
      exact ⟨failsNow, fun ptrs => laterResults_failed ptrs failed⟩

/-- A loop on register `1` is read as one on register `0`. -/
theorem decoded_startLoop : ¬ DecodedBack (.startLoop 1 5) := by
  intro back
  have documented := back.whole ⟨[0x30010000, 5], 0, true⟩ [] rfl (by decide)
  exact absurd documented (by decide)

end SumiEmu.Memory
