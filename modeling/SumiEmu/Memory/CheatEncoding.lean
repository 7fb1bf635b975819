/-
# The documented encoding of cheat instructions

Each instruction with its fields, its words as the comments of the decoder lay out their hex
digits, and the opcode with these fields. Digits that no field of an instruction has are zeros.
-/
import SumiEmu.Foundations.Numerals
import SumiEmu.Memory.CheatOpcode

namespace SumiEmu.Memory

open Foundations

/-- A hexadecimal digit. -/
abbrev Digit : Type := BitVec 4

/-! ## Instructions -/

/-- An operand in memory. An address with a digit in the first word has nine of them. -/
inductive MemoryOperand where
  | region (memType : Digit) (relAddress : BitVec 36)
  | regionRegister (memType ofsReg : Digit)
  | register (addrReg : Digit) (relAddress : BitVec 36)
  | registerRegister (addrReg ofsReg : Digit)

/-- What a register is compared with. -/
inductive CompareOperand where
  | memory (operand : MemoryOperand)
  | staticValue (value : BitVec 64)
  | otherRegister (reg : Digit)

/-- What is logged. -/
inductive LogOperand where
  | memory (operand : MemoryOperand)
  | registerValue (reg : Digit)

inductive MathOperand where
  | register (reg : Digit)
  | immediate (value : BitVec 64)

inductive StoreOffset where
  | none
  | register (reg : Digit)
  | immediate (relAddress : BitVec 36)
  | region (memType : Digit)
  | regionImmediate (memType : Digit) (relAddress : BitVec 36)
  | regionImmediateRegister (memType : Digit) (relAddress : BitVec 36)

/-- The instructions of the cheat language. An immediate has 32 bits, or 64 for the width eight. -/
inductive Instruction where
  | storeStatic (bitWidth memType offsetReg : Digit) (relAddress : BitVec 40) (value : BitVec 64)
  | beginConditional (bitWidth memType condType : Digit) (relAddress : BitVec 40)
      (value : BitVec 64)
  | endConditional (isElse : Bool)
  | startLoop (reg : Digit) (numIters : BitVec 32)
  | endLoop (reg : Digit)
  | loadRegisterStatic (reg : Digit) (value : BitVec 64)
  | loadRegisterMemory (bitWidth memType reg : Digit) (loadFromReg : Bool) (relAddress : BitVec 40)
  | storeStaticToAddress (bitWidth reg : Digit) (incrementReg addOffsetReg : Bool)
      (offsetReg : Digit) (value : BitVec 64)
  | performArithmeticStatic (bitWidth reg mathType : Digit) (value : BitVec 32)
  | beginKeypressConditional (keyMask : BitVec 28)
  | performArithmeticRegister (bitWidth mathType dstReg srcReg : Digit) (operand : MathOperand)
  | storeRegisterToAddress (bitWidth strReg addrReg : Digit) (incrementReg : Bool)
      (offset : StoreOffset)
  | beginRegisterConditional (bitWidth condType valReg : Digit) (operand : CompareOperand)
  | saveRestoreRegister (dst src opType : Digit)
  | saveRestoreRegisterMask (opType : Digit) (shouldOperate : BitVec 16)
  | readWriteStaticRegister (staticIdx : BitVec 8) (reg : Digit)
  | pauseProcess (unused : BitVec 20)
  | resumeProcess (unused : BitVec 20)
  | debugLog (bitWidth logId : Digit) (operand : LogOperand)

/-! ## Words -/

/-- A flag as a digit. -/
def flag (b : Bool) : Digit := if b then 1 else 0

/-- The low word of a value. -/
def lowWord {w : Nat} (x : BitVec w) : Word := x.setWidth 32

/-- The words of an immediate of this width, the high word first. -/
def immediateWords (bitWidth : Digit) (value : BitVec 64) : List Word :=
  if bitWidth = 8 then [lowWord (value >>> 32), lowWord value] else [lowWord value]

/-- The two last digits of the first word, and the further words. -/
def MemoryOperand.digits : MemoryOperand → Digit × Digit × Digit × List Word
  | .region m a => (0, m, hexDigit a 8, [lowWord a])
  | .regionRegister m r => (1, m, r, [])
  | .register r a => (2, r, hexDigit a 8, [lowWord a])
  | .registerRegister r o => (3, r, o, [])

def CompareOperand.digits (bitWidth : Digit) : CompareOperand → Digit × Digit × Digit × List Word
  | .memory operand => operand.digits
  | .staticValue v => (4, 0, 0, immediateWords bitWidth v)
  | .otherRegister r => (5, r, 0, [])

/-- The same for what is logged. -/
def LogOperand.digits : LogOperand → Digit × Digit × Digit × List Word
  | .memory operand => operand.digits
  | .registerValue r => (4, r, 0, [])

/-- The same for an offset. -/
def StoreOffset.digits : StoreOffset → Digit × Digit × Digit × List Word
  | .none => (0, 0, 0, [])
  | .register r => (1, r, 0, [])
  | .immediate a => (2, 0, hexDigit a 8, [lowWord a])
  | .region m => (3, m, 0, [])
  | .regionImmediate m a => (4, m, hexDigit a 8, [lowWord a])
  | .regionImmediateRegister m a => (5, m, hexDigit a 8, [lowWord a])

/-- The words of an instruction, digit by digit as documented. -/
def Instruction.encode : Instruction → List Word
  | .storeStatic t m r a y =>
    hexWord 0 t m r 0 0 (hexDigit a 9) (hexDigit a 8) :: lowWord a :: immediateWords t y
  | .beginConditional t m c a y =>
    hexWord 1 t m c 0 0 (hexDigit a 9) (hexDigit a 8) :: lowWord a :: immediateWords t y
  | .endConditional isElse => [hexWord 2 (flag isElse) 0 0 0 0 0 0]
  | .startLoop r v => [hexWord 3 0 0 r 0 0 0 0, v]
  | .endLoop r => [hexWord 3 1 0 r 0 0 0 0]
  | .loadRegisterStatic r v => [hexWord 4 0 0 r 0 0 0 0, lowWord (v >>> 32), lowWord v]
  | .loadRegisterMemory t m r i a =>
    [hexWord 5 t m r (flag i) 0 (hexDigit a 9) (hexDigit a 8), lowWord a]
  | .storeStaticToAddress t r i o ofs v =>
    [hexWord 6 t 0 r (flag i) (flag o) ofs 0, lowWord (v >>> 32), lowWord v]
  | .performArithmeticStatic t r c v => [hexWord 7 t 0 r c 0 0 0, v]
  | .beginKeypressConditional k =>
    [hexWord 8 (hexDigit k 6) (hexDigit k 5) (hexDigit k 4) (hexDigit k 3) (hexDigit k 2)
    (hexDigit k 1)
      (hexDigit k 0)]
  | .performArithmeticRegister t c r s (.register reg) => [hexWord 9 t c r s 0 reg 0]
  | .performArithmeticRegister t c r s (.immediate v) =>
      hexWord 9 t c r s 1 0 0 :: immediateWords t v
  | .storeRegisterToAddress t s r i offset =>
    let (o, x, a, words) := offset.digits
    hexWord 0xA t s r (flag i) o x a :: words
  | .beginRegisterConditional t c s operand =>
    let (kind, x, a, words) := operand.digits t
    hexWord 0xC 0 t c s kind x a :: words
  | .saveRestoreRegister d s x => [hexWord 0xC 1 0 d 0 s x 0]
  | .saveRestoreRegisterMask x mask =>
    [hexWord 0xC 2 x 0 (hexDigit mask 3) (hexDigit mask 2) (hexDigit mask 1) (hexDigit mask 0)]
  | .readWriteStaticRegister i x => [hexWord 0xC 3 0 0 0 (hexDigit i 1) (hexDigit i 0) x]
  | .pauseProcess u =>
    [hexWord 0xF 0xF 0 (hexDigit u 4) (hexDigit u 3) (hexDigit u 2) (hexDigit u 1) (hexDigit u 0)]
  | .resumeProcess u =>
    [hexWord 0xF 0xF 1 (hexDigit u 4) (hexDigit u 3) (hexDigit u 2) (hexDigit u 1) (hexDigit u 0)]
  | .debugLog t i operand =>
    let (kind, x, a, words) := operand.digits
    hexWord 0xF 0xF 0xF t i kind x a :: words

/-! ## The opcode of an instruction -/

/-- A digit as a register index. -/
def Digit.index (d : Digit) : Word := d.setWidth 32

/-- An immediate cut to its width. -/
def vmInt (bitWidth : Digit) (value : BitVec 64) : VmInt :=
  if bitWidth = 1 then (value.setWidth 8).setWidth 64
  else if bitWidth = 2 then (value.setWidth 16).setWidth 64
  else if bitWidth = 4 then (value.setWidth 32).setWidth 64
  else if bitWidth = 8 then value
  else 0

/-- The number of a kind of operand. -/
def MemoryOperand.kind : MemoryOperand → Word
  | .region .. => 0
  | .regionRegister .. => 1
  | .register .. => 2
  | .registerRegister .. => 3

/-- The fields that an operand sets. -/
def MemoryOperand.operand : MemoryOperand → Operand
  | .region m a => { memType := m.index, relAddress := a.setWidth 64 }
  | .regionRegister m r => { memType := m.index, ofsRegIndex := r.index }
  | .register r a => { addrRegIndex := r.index, relAddress := a.setWidth 64 }
  | .registerRegister r o => { addrRegIndex := r.index, ofsRegIndex := o.index }

def Instruction.opcode : Instruction → Opcode
  | .storeStatic t m r a y =>
    .storeStatic
      { bitWidth := t.index, memType := m.index, offsetRegister := r.index
        relAddress := a.setWidth 64
        value := vmInt t y }
  | .beginConditional t m c a y =>
    .beginConditional
      { bitWidth := t.index, memType := m.index, condType := c.index, relAddress := a.setWidth 64
        value := vmInt t y }
  | .endConditional isElse => .endConditional { isElse }
  | .startLoop r v => .controlLoop { startLoop := true, regIndex := r.index, numIters := v }
  | .endLoop r => .controlLoop { startLoop := false, regIndex := r.index }
  | .loadRegisterStatic r v => .loadRegisterStatic { regIndex := r.index, value := v }
  | .loadRegisterMemory t m r i a =>
    .loadRegisterMemory
      { bitWidth := t.index, memType := m.index, regIndex := r.index, loadFromReg := i,
        relAddress := a.setWidth 64 }
  | .storeStaticToAddress t r i o ofs v =>
    .storeStaticToAddress
      { bitWidth := t.index, regIndex := r.index, incrementReg := i, addOffsetReg := o
        offsetRegIndex := ofs.index
        value := v }
  | .performArithmeticStatic t r c v =>
    .performArithmeticStatic { bitWidth := t.index, regIndex := r.index, mathType := c.index,
                               value := v }
  | .beginKeypressConditional k => .beginKeypressConditional { keyMask := k.setWidth 32 }
  | .performArithmeticRegister t c r s (.register reg) =>
    .performArithmeticRegister
      { bitWidth := t.index, mathType := c.index, dstRegIndex := r.index, srcReg1Index := s.index
        srcReg2Index := reg.index, hasImmediate := false }
  | .performArithmeticRegister t c r s (.immediate v) =>
    .performArithmeticRegister
      { bitWidth := t.index, mathType := c.index, dstRegIndex := r.index, srcReg1Index := s.index
        hasImmediate := true, value := vmInt t v }
  | .storeRegisterToAddress t s r i offset =>
    let strRegister (ofsType : Word) (x : Digit) : StoreRegisterToAddressOpcode :=
      { bitWidth := t.index, strRegIndex := s.index, addrRegIndex := r.index
        incrementReg := i, ofsType
        ofsRegIndex := x.index }
    -- The digit of a memory type is also kept as the offset register, which its kinds do not have.
    match offset with
    | .none => .storeRegisterToAddress (strRegister 0 0)
    | .register x => .storeRegisterToAddress (strRegister 1 x)
    | .immediate a => .storeRegisterToAddress { strRegister 2 0 with relAddress := a.setWidth 64 }
    | .region m => .storeRegisterToAddress { strRegister 3 m with memType := m.index }
    | .regionImmediate m a =>
      .storeRegisterToAddress { strRegister 4 m with
        memType := m.index, relAddress := a.setWidth 64 }
    | .regionImmediateRegister m a =>
      .storeRegisterToAddress { strRegister 5 m with
        memType := m.index, relAddress := a.setWidth 64 }
  | .beginRegisterConditional t c s operand =>
    let beginRegCond (compType : Word) : BeginRegisterConditionalOpcode :=
      { bitWidth := t.index, condType := c.index, valRegIndex := s.index, compType }
    match operand with
    | .memory m =>
      .beginRegisterConditional
        { beginRegCond m.kind with
          memType := m.operand.memType, addrRegIndex := m.operand.addrRegIndex
          ofsRegIndex := m.operand.ofsRegIndex, relAddress := m.operand.relAddress }
    | .staticValue v => .beginRegisterConditional { beginRegCond 4 with value := vmInt t v }
    | .otherRegister x => .beginRegisterConditional { beginRegCond 5 with otherRegIndex := x.index }
  | .saveRestoreRegister d s x =>
    .saveRestoreRegister { dstIndex := d.index, srcIndex := s.index, opType := x.index }
  | .saveRestoreRegisterMask x mask =>
      .saveRestoreRegisterMask { opType := x.index, shouldOperate := mask }
  | .readWriteStaticRegister i x =>
      .readWriteStaticRegister { staticIdx := i.setWidth 32, idx := x.index }
  | .pauseProcess _ => .pauseProcess
  | .resumeProcess _ => .resumeProcess
  | .debugLog t i operand =>
    let debugLog (valType : Word) : DebugLogOpcode :=
      { bitWidth := t.index, logId := i.index, valType }
    match operand with
    | .memory m =>
      .debugLog
        { debugLog m.kind with
          memType := m.operand.memType, addrRegIndex := m.operand.addrRegIndex
          ofsRegIndex := m.operand.ofsRegIndex, relAddress := m.operand.relAddress }
    | .registerValue x => .debugLog { debugLog 4 with valRegIndex := x.index }

/-- The type that the first digits of an instruction are. -/
def Instruction.type : Instruction → Nat
  | .storeStatic .. => 0
  | .beginConditional .. => 1
  | .endConditional .. => 2
  | .startLoop .. | .endLoop .. => 3
  | .loadRegisterStatic .. => 4
  | .loadRegisterMemory .. => 5
  | .storeStaticToAddress .. => 6
  | .performArithmeticStatic .. => 7
  | .beginKeypressConditional .. => 8
  | .performArithmeticRegister .. => 9
  | .storeRegisterToAddress .. => 10
  | .beginRegisterConditional .. => 0xC0
  | .saveRestoreRegister .. => 0xC1
  | .saveRestoreRegisterMask .. => 0xC2
  | .readWriteStaticRegister .. => 0xC3
  | .pauseProcess .. => 0xFF0
  | .resumeProcess .. => 0xFF1
  | .debugLog .. => 0xFFF

/-- The instruction opens a block. -/
def Instruction.isConditional : Instruction → Bool
  | .beginConditional .. | .beginKeypressConditional .. | .beginRegisterConditional .. => true
  | _ => false

/-- The register of a control loop. -/
def Instruction.loopRegister? : Instruction → Option Digit
  | .startLoop r _ | .endLoop r => some r
  | _ => none

end SumiEmu.Memory
