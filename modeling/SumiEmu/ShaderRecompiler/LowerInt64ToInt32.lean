/-
# Lowering of 64-bit integers in shaders

A host without 64-bit integers runs shaders in which every such integer is a pair of 32-bit words.
`LowerInt64ToInt32` walks the instructions and replaces the 64-bit operations by sequences of 32-bit
ones: an addition recovers its carry with a pseudo-operation, a subtraction its borrow with a
comparison, and a shift is stitched from pieces of both words and selected by three cases.

Instructions are emitted at the end of a list, and a value refers to an emitted instruction by its
position. Values of earlier instructions are given: a composite of two words, or one word.
-/

import SumiEmu.Foundations.Fallible
import SumiEmu.Foundations.WordHalves

namespace SumiEmu.ShaderRecompiler.LowerInt64ToInt32

open SumiEmu.WordHalves (carry)

/-! ## The intermediate representation -/

/-- The types of the values that lowering handles. -/
inductive ValueType
  | u1
  | u32
  | u32x2
  | u64
  deriving DecidableEq

inductive Opcode
  | identity
  | compositeConstructU32x2
  | compositeExtractU32x2
  | selectU32
  | getCarryFromOp
  | iAdd32
  | iAdd64
  | iSub32
  | iSub64
  | iNeg64
  | shiftLeftLogical32
  | shiftLeftLogical64
  | shiftRightLogical32
  | shiftRightLogical64
  | shiftRightArithmetic32
  | shiftRightArithmetic64
  | bitwiseOr32
  | bitFieldInsert
  | bitFieldUExtract
  | bitwiseNot32
  | iEqual
  | uGreaterThan
  | sGreaterThanEqual
  | packUint2x32
  | unpackUint2x32
  | sharedAtomicExchange64
  | sharedAtomicExchange32x2
  | globalAtomicIAdd64
  | globalAtomicIAdd32x2
  | globalAtomicSMin64
  | globalAtomicSMin32x2
  | globalAtomicUMin64
  | globalAtomicUMin32x2
  | globalAtomicSMax64
  | globalAtomicSMax32x2
  | globalAtomicUMax64
  | globalAtomicUMax32x2
  | globalAtomicAnd64
  | globalAtomicAnd32x2
  | globalAtomicOr64
  | globalAtomicOr32x2
  | globalAtomicXor64
  | globalAtomicXor32x2
  | globalAtomicExchange64
  | globalAtomicExchange32x2
  deriving DecidableEq

/-- An operand: an immediate, an instruction of the program that was there before, with its type, or
an instruction emitted by the lowering, by its position. An identity is the value that it stands
for. -/
inductive Value
  | imm32 (imm_u32 : BitVec 32)
  | imm64 (imm_u64 : BitVec 64)
  | given (type : ValueType) (index : Nat)
  | inst (index : Nat)
  deriving DecidableEq

/-- An instruction that is emitted. -/
structure Inst where
  op : Opcode
  args : List Value
  deriving DecidableEq

/-- An instruction that is lowered. -/
structure Lowered where
  op : Opcode
  args : List Value
  hasAssociatedPseudoOperation : Bool

/-- How the pass may fail. -/
inductive Fault
  | notImplementedException (message : String)
  | invalidArgument
  deriving DecidableEq

/-! ## The emitter -/

/-- A computation that appends instructions. What it has emitted stays when it throws. -/
structure Emitter (α : Type) where
  run : List Inst → Except Fault α × List Inst
  appends : ∀ insts, insts <+: (run insts).2

namespace Emitter

/-- What follows a computation that has returned or thrown. -/
def resume {α β : Type} (next : α → Emitter β) :
    Except Fault α × List Inst → Except Fault β × List Inst
  | (.ok a, insts) => (next a).run insts
  | (.error fault, insts) => (.error fault, insts)

theorem resume_appends {α β : Type} (next : α → Emitter β) (result : Except Fault α × List Inst) :
    result.2 <+: (resume next result).2 := by
  obtain ⟨fault | a, insts⟩ := result
  · exact List.prefix_refl insts
  · exact (next a).appends insts

instance : Monad Emitter where
  pure a := ⟨fun insts => (.ok a, insts), fun insts => List.prefix_refl insts⟩
  bind m next :=
    { run := fun insts => resume next (m.run insts)
      appends := fun insts => (m.appends insts).trans (resume_appends next (m.run insts)) }

theorem run_bind {α β : Type} (m : Emitter α) (next : α → Emitter β) (insts : List Inst) :
    (m >>= next).run insts = resume next (m.run insts) := rfl

/-- The emission fails. -/
def throw {α : Type} (fault : Fault) : Emitter α where
  run insts := (.error fault, insts)
  appends insts := List.prefix_refl insts

end Emitter

/-- Appends one instruction. Its value is its position. -/
def emit (op : Opcode) (args : List Value) : Emitter Value where
  run insts := (.ok (.inst insts.length), insts ++ [⟨op, args⟩])
  appends insts := List.prefix_append insts [⟨op, args⟩]

namespace IREmitter

/-- `CompositeConstruct`. -/
def compositeConstruct (e1 e2 : Value) : Emitter Value :=
  emit .compositeConstructU32x2 [e1, e2]

/-- Only a composite has elements. -/
def compositeExtract (vector : Value) (element : BitVec 32) : Emitter Value :=
  match vector with
  | .given .u32x2 _ => emit .compositeExtractU32x2 [vector, .imm32 element]
  | _ => Emitter.throw .invalidArgument

/-- `IAdd`. -/
def iadd (a b : Value) : Emitter Value := emit .iAdd32 [a, b]
/-- `ISub`. -/
def isub (a b : Value) : Emitter Value := emit .iSub32 [a, b]
/-- `BitwiseNot`. -/
def bitwiseNot (value : Value) : Emitter Value := emit .bitwiseNot32 [value]
/-- `BitwiseOr`. -/
def bitwiseOr (a b : Value) : Emitter Value := emit .bitwiseOr32 [a, b]

/-- `ShiftLeftLogical`. -/
def shiftLeftLogical (base shift : Value) : Emitter Value :=
  emit .shiftLeftLogical32 [base, shift]

/-- `ShiftRightLogical`. -/
def shiftRightLogical (base shift : Value) : Emitter Value :=
  emit .shiftRightLogical32 [base, shift]

/-- `ShiftRightArithmetic`. -/
def shiftRightArithmetic (base shift : Value) : Emitter Value :=
  emit .shiftRightArithmetic32 [base, shift]

/-- `BitFieldInsert`. -/
def bitFieldInsert (base insert offset count : Value) : Emitter Value :=
  emit .bitFieldInsert [base, insert, offset, count]

/-- The unsigned extraction. -/
def bitFieldExtract (base offset count : Value) : Emitter Value :=
  emit .bitFieldUExtract [base, offset, count]

/-- The unsigned comparison. -/
def igreaterThan (lhs rhs : Value) : Emitter Value := emit .uGreaterThan [lhs, rhs]

/-- The signed comparison. -/
def igreaterThanEqual (lhs rhs : Value) : Emitter Value := emit .sGreaterThanEqual [lhs, rhs]

/-- `IEqual`. -/
def iequal (lhs rhs : Value) : Emitter Value := emit .iEqual [lhs, rhs]

/-- `Select`. -/
def select (condition trueValue falseValue : Value) : Emitter Value :=
  emit .selectU32 [condition, trueValue, falseValue]

/-- `GetCarryFromOp`. -/
def getCarryFromOp (op : Value) : Emitter Value := emit .getCarryFromOp [op]

end IREmitter

open IREmitter

/-! ## The lowering of each operation -/

/-- `Unpack`. -/
def unpack (packed : Value) : Emitter (Value × Value) :=
  match packed with
  | .imm64 value => pure (.imm32 (value.setWidth 32), .imm32 ((value >>> 32).setWidth 32))
  | packed => do
    let lo ← compositeExtract packed 0
    let hi ← compositeExtract packed 1
    pure (lo, hi)

/-- An operand that must be one word, as an argument of type `U32` is. -/
def typedU32 (value : Value) : Emitter Value :=
  match value with
  | .imm32 _ | .given .u32 _ => pure value
  | _ => Emitter.throw .invalidArgument

variable (inst : Lowered)

/-- The check with which each lowering starts. -/
def checkPseudoInstructions (name : String) : Emitter PUnit :=
  if inst.hasAssociatedPseudoOperation then
    Emitter.throw (.notImplementedException (name ++ " emulation with pseudo instructions"))
  else
    pure ⟨⟩

/-- `IAdd64To32`. -/
def iadd64To32 (a b : Value) : Emitter Value := do
  let (aLo, aHi) ← unpack a
  let (bLo, bHi) ← unpack b
  let retLo ← iadd aLo bLo
  let carryBit ← getCarryFromOp retLo
  let carry ← select carryBit (.imm32 1) (.imm32 0)
  let sumHi ← iadd aHi bHi
  let retHi ← iadd sumHi carry
  compositeConstruct retLo retHi

/-- `ISub64To32`. -/
def isub64To32 (a b : Value) : Emitter Value := do
  let (aLo, aHi) ← unpack a
  let (bLo, bHi) ← unpack b
  let retLo ← isub aLo bLo
  let underflow ← igreaterThan retLo aLo
  let underflowBit ← select underflow (.imm32 1) (.imm32 0)
  let differenceHi ← isub aHi bHi
  let retHi ← isub differenceHi underflowBit
  compositeConstruct retLo retHi

/-- `INeg64To32`. -/
def ineg64To32 (a : Value) : Emitter Value := do
  let (lo, hi) ← unpack a
  let lo ← bitwiseNot lo
  let hi ← bitwiseNot hi
  let lo ← iadd lo (.imm32 1)
  let carryBit ← getCarryFromOp lo
  let carry ← select carryBit (.imm32 1) (.imm32 0)
  let hi ← iadd hi carry
  compositeConstruct lo hi

/-- `ShiftLeftLogical64To32`. -/
def shiftLeftLogical64To32 (a shift : Value) : Emitter Value := do
  let (lo, hi) ← unpack a
  let shift ← typedU32 shift
  let shiftedLo ← shiftLeftLogical lo shift
  let shiftedHi ← shiftLeftLogical hi shift
  let invShift ← isub shift (.imm32 32)
  let isLong ← igreaterThanEqual invShift (.imm32 0)
  let isZero ← iequal shift (.imm32 0)
  let longRetLo := Value.imm32 0
  let longRetHi ← shiftLeftLogical lo invShift
  let shiftComplement ← isub (.imm32 32) shift
  let loExtract ← bitFieldExtract lo shiftComplement shift
  let shortRetLo := shiftedLo
  let shortRetHi ← bitwiseOr shiftedHi loExtract
  let zeroRetLo := lo
  let zeroRetHi := hi
  let nonZeroLo ← select isLong longRetLo shortRetLo
  let nonZeroHi ← select isLong longRetHi shortRetHi
  let retLo ← select isZero zeroRetLo nonZeroLo
  let retHi ← select isZero zeroRetHi nonZeroHi
  compositeConstruct retLo retHi

/-- `ShiftRightLogical64To32`. -/
def shiftRightLogical64To32 (a shift : Value) : Emitter Value := do
  let (lo, hi) ← unpack a
  let shift ← typedU32 shift
  let shiftedLo ← shiftRightLogical lo shift
  let shiftedHi ← shiftRightLogical hi shift
  let invShift ← isub shift (.imm32 32)
  let isLong ← igreaterThanEqual invShift (.imm32 0)
  let isZero ← iequal shift (.imm32 0)
  let longRetHi := Value.imm32 0
  let longRetLo ← shiftRightLogical hi invShift
  let shiftComplement ← isub (.imm32 32) shift
  let shortHiExtract ← bitFieldExtract hi (.imm32 0) shift
  let shortRetHi := shiftedHi
  let shortRetLo ← bitFieldInsert shiftedLo shortHiExtract shiftComplement shift
  let zeroRetLo := lo
  let zeroRetHi := hi
  let nonZeroLo ← select isLong longRetLo shortRetLo
  let nonZeroHi ← select isLong longRetHi shortRetHi
  let retLo ← select isZero zeroRetLo nonZeroLo
  let retHi ← select isZero zeroRetHi nonZeroHi
  compositeConstruct retLo retHi

/-- `ShiftRightArithmetic64To32`. -/
def shiftRightArithmetic64To32 (a shift : Value) : Emitter Value := do
  let (lo, hi) ← unpack a
  let shift ← typedU32 shift
  let shiftedLo ← shiftRightLogical lo shift
  let shiftedHi ← shiftRightArithmetic hi shift
  let signExtension ← shiftRightArithmetic hi (.imm32 31)
  let invShift ← isub shift (.imm32 32)
  let isLong ← igreaterThanEqual invShift (.imm32 0)
  let isZero ← iequal shift (.imm32 0)
  let longRetHi := signExtension
  let longRetLo ← shiftRightArithmetic hi invShift
  let shiftComplement ← isub (.imm32 32) shift
  let shortHiExtract ← bitFieldExtract hi (.imm32 0) shift
  let shortRetHi := shiftedHi
  let shortRetLo ← bitFieldInsert shiftedLo shortHiExtract shiftComplement shift
  let zeroRetLo := lo
  let zeroRetHi := hi
  let nonZeroLo ← select isLong longRetLo shortRetLo
  let nonZeroHi ← select isLong longRetHi shortRetHi
  let retLo ← select isZero zeroRetLo nonZeroLo
  let retHi ← select isZero zeroRetHi nonZeroHi
  compositeConstruct retLo retHi

/-! ## The dispatch -/

/-- What happens to the lowered instruction. -/
inductive Replacement
  | usesWith (value : Value)
  | opcode (op : Opcode)
  | none
  deriving DecidableEq

/-- A lowering of an operation of two operands, after its check. -/
def lowerBinary (name : String) (lowering : Value → Value → Emitter Value) :
    Emitter Replacement := do
  checkPseudoInstructions inst name
  match inst.args with
  | [a, b] => do
    let value ← lowering a b
    pure (.usesWith value)
  | _ => Emitter.throw .invalidArgument

/-- A lowering of an operation of one operand, after its check. -/
def lowerUnary (name : String) (lowering : Value → Emitter Value) : Emitter Replacement := do
  checkPseudoInstructions inst name
  match inst.args with
  | [a] => do
    let value ← lowering a
    pure (.usesWith value)
  | _ => Emitter.throw .invalidArgument

/-- `Lower`. -/
def lower : Emitter Replacement :=
  match inst.op with
  | .packUint2x32 | .unpackUint2x32 => pure (.opcode .identity)
  | .iAdd64 => lowerBinary inst "IAdd64" iadd64To32
  | .iSub64 => lowerBinary inst "ISub64" isub64To32
  | .iNeg64 => lowerUnary inst "INeg64" ineg64To32
  | .shiftLeftLogical64 => lowerBinary inst "ShiftLeftLogical64" shiftLeftLogical64To32
  | .shiftRightLogical64 => lowerBinary inst "ShiftRightLogical64" shiftRightLogical64To32
  | .shiftRightArithmetic64 =>
    lowerBinary inst "ShiftRightArithmetic64" shiftRightArithmetic64To32
  | .sharedAtomicExchange64 => pure (.opcode .sharedAtomicExchange32x2)
  | .globalAtomicIAdd64 => pure (.opcode .globalAtomicIAdd32x2)
  | .globalAtomicSMin64 => pure (.opcode .globalAtomicSMin32x2)
  | .globalAtomicUMin64 => pure (.opcode .globalAtomicUMin32x2)
  | .globalAtomicSMax64 => pure (.opcode .globalAtomicSMax32x2)
  | .globalAtomicUMax64 => pure (.opcode .globalAtomicUMax32x2)
  | .globalAtomicAnd64 => pure (.opcode .globalAtomicAnd32x2)
  | .globalAtomicOr64 => pure (.opcode .globalAtomicOr32x2)
  | .globalAtomicXor64 => pure (.opcode .globalAtomicXor32x2)
  | .globalAtomicExchange64 => pure (.opcode .globalAtomicExchange32x2)
  | _ => pure .none

end SumiEmu.ShaderRecompiler.LowerInt64ToInt32
