/-
# Decoding cheat opcodes

A cheat is a list of words. The first hex digits of an instruction are its type, with two
levels of escapes, and its type and some of its fields tell how many words it has. Reading
behind the program makes the decoding fail for good.
-/

namespace SumiEmu.Memory

/-- A word of a cheat. -/
abbrev Word : Type := BitVec 32

/-! ## Opcodes -/

/-- The enumerations of the fields hold any digit, whether it is named or not. -/
abbrev MemoryAccessType : Type := Word
/-- The comparison of a condition. -/
abbrev ConditionalComparisonType : Type := Word
abbrev RegisterArithmeticType : Type := Word
abbrev StoreRegisterOffsetType : Type := Word
/-- What a register is compared with. -/
abbrev CompareRegisterValueType : Type := Word
abbrev SaveRestoreRegisterOpType : Type := Word
/-- What is logged. -/
abbrev DebugLogValueType : Type := Word

namespace MemoryAccessType
/-- `MainNso`. -/
def mainNso : MemoryAccessType := 0
/-- `Heap`. -/
def heap : MemoryAccessType := 1
/-- `Alias`. -/
def aliasRegion : MemoryAccessType := 2
/-- `Aslr`. -/
def aslr : MemoryAccessType := 3
end MemoryAccessType

/-- The value of an immediate, with zeros above its width. -/
abbrev VmInt : Type := BitVec 64

/-- Opcode 0. -/
structure StoreStaticOpcode where
  bitWidth : Word
  memType : MemoryAccessType
  offsetRegister : Word
  relAddress : BitVec 64
  value : VmInt
  deriving DecidableEq

/-- Opcode 1. -/
structure BeginConditionalOpcode where
  bitWidth : Word
  memType : MemoryAccessType
  condType : ConditionalComparisonType
  relAddress : BitVec 64
  value : VmInt
  deriving DecidableEq

/-- Opcode 2. -/
structure EndConditionalOpcode where
  isElse : Bool
  deriving DecidableEq

/-- Opcode 3. -/
structure ControlLoopOpcode where
  startLoop : Bool
  regIndex : Word
  numIters : Word := 0
  deriving DecidableEq

/-- Opcode 4. -/
structure LoadRegisterStaticOpcode where
  regIndex : Word
  value : BitVec 64
  deriving DecidableEq

/-- Opcode 5. -/
structure LoadRegisterMemoryOpcode where
  bitWidth : Word
  memType : MemoryAccessType
  regIndex : Word
  loadFromReg : Bool
  relAddress : BitVec 64
  deriving DecidableEq

/-- Opcode 6. -/
structure StoreStaticToAddressOpcode where
  bitWidth : Word
  regIndex : Word
  incrementReg : Bool
  addOffsetReg : Bool
  offsetRegIndex : Word
  value : BitVec 64
  deriving DecidableEq

/-- Opcode 7. -/
structure PerformArithmeticStaticOpcode where
  bitWidth : Word
  regIndex : Word
  mathType : RegisterArithmeticType
  value : Word
  deriving DecidableEq

/-- Opcode 8. -/
structure BeginKeypressConditionalOpcode where
  keyMask : Word
  deriving DecidableEq

/-- Opcode 9. -/
structure PerformArithmeticRegisterOpcode where
  bitWidth : Word
  mathType : RegisterArithmeticType
  dstRegIndex : Word
  srcReg1Index : Word
  srcReg2Index : Word := 0
  hasImmediate : Bool
  value : VmInt := 0
  deriving DecidableEq

/-- Opcode 10. -/
structure StoreRegisterToAddressOpcode where
  bitWidth : Word
  strRegIndex : Word
  addrRegIndex : Word
  incrementReg : Bool
  ofsType : StoreRegisterOffsetType
  memType : MemoryAccessType := MemoryAccessType.mainNso
  ofsRegIndex : Word
  relAddress : BitVec 64 := 0
  deriving DecidableEq

/-- Opcode 0xC0. -/
structure BeginRegisterConditionalOpcode where
  bitWidth : Word
  condType : ConditionalComparisonType
  valRegIndex : Word
  compType : CompareRegisterValueType
  memType : MemoryAccessType := MemoryAccessType.mainNso
  addrRegIndex : Word := 0
  otherRegIndex : Word := 0
  ofsRegIndex : Word := 0
  relAddress : BitVec 64 := 0
  value : VmInt := 0
  deriving DecidableEq

/-- Opcode 0xC1. -/
structure SaveRestoreRegisterOpcode where
  dstIndex : Word
  srcIndex : Word
  opType : SaveRestoreRegisterOpType
  deriving DecidableEq

/-- Which registers are operated on is one bit for each. -/
structure SaveRestoreRegisterMaskOpcode where
  opType : SaveRestoreRegisterOpType
  shouldOperate : BitVec 16
  deriving DecidableEq

/-- Opcode 0xC3. -/
structure ReadWriteStaticRegisterOpcode where
  staticIdx : Word
  idx : Word
  deriving DecidableEq

/-- Opcode 0xFFF. -/
structure DebugLogOpcode where
  bitWidth : Word
  logId : Word
  valType : DebugLogValueType
  memType : MemoryAccessType := MemoryAccessType.mainNso
  addrRegIndex : Word := 0
  valRegIndex : Word := 0
  ofsRegIndex : Word := 0
  relAddress : BitVec 64 := 0
  deriving DecidableEq

/-- The variant of an opcode. -/
inductive Opcode where
  | storeStatic (o : StoreStaticOpcode)
  | beginConditional (o : BeginConditionalOpcode)
  | endConditional (o : EndConditionalOpcode)
  | controlLoop (o : ControlLoopOpcode)
  | loadRegisterStatic (o : LoadRegisterStaticOpcode)
  | loadRegisterMemory (o : LoadRegisterMemoryOpcode)
  | storeStaticToAddress (o : StoreStaticToAddressOpcode)
  | performArithmeticStatic (o : PerformArithmeticStaticOpcode)
  | beginKeypressConditional (o : BeginKeypressConditionalOpcode)
  | performArithmeticRegister (o : PerformArithmeticRegisterOpcode)
  | storeRegisterToAddress (o : StoreRegisterToAddressOpcode)
  | beginRegisterConditional (o : BeginRegisterConditionalOpcode)
  | saveRestoreRegister (o : SaveRestoreRegisterOpcode)
  | saveRestoreRegisterMask (o : SaveRestoreRegisterMaskOpcode)
  | readWriteStaticRegister (o : ReadWriteStaticRegisterOpcode)
  | pauseProcess
  | resumeProcess
  | debugLog (o : DebugLogOpcode)
  | unrecognized (type : Nat)
  deriving DecidableEq

/-- `CheatVmOpcode`. -/
structure CheatVmOpcode where
  beginConditionalBlock : Bool
  opcode : Opcode
  deriving DecidableEq

/-! ## Reading words -/

/-- Where the next word is, and whether all words so far were there. -/
structure Reader where
  instructionPtr : Nat
  valid : Bool
  deriving DecidableEq

variable (program : List Word)

/-- `GetNextDword`. -/
def getNextDword (r : Reader) : Word × Reader :=
  match program[r.instructionPtr]? with
  | none => (0, { r with valid := false })
  | some word => (word, { r with instructionPtr := r.instructionPtr + 1 })

/-- Two words, the high one first. -/
def getNextQword (r : Reader) : BitVec 64 × Reader :=
  let (high, r) := getNextDword program r
  let (low, r) := getNextDword program r
  ((high.setWidth 64 <<< 32) ||| low.setWidth 64, r)

/-- `GetNextVmInt`. -/
def getNextVmInt (bitWidth : Word) (r : Reader) : VmInt × Reader :=
  let (firstDword, r) := getNextDword program r
  if bitWidth = 1 then ((firstDword.setWidth 8).setWidth 64, r)
  else if bitWidth = 2 then ((firstDword.setWidth 16).setWidth 64, r)
  else if bitWidth = 4 then (firstDword.setWidth 64, r)
  else if bitWidth = 8 then
    let (low, r) := getNextDword program r
    ((firstDword.setWidth 64 <<< 32) ||| low.setWidth 64, r)
  else (0, r)

/-- A hex digit of a word. -/
def digit (word : Word) (shift : Nat) : Word := (word >>> shift) &&& 0xF

/-- An address whose upper digits are the last ones of the first word. -/
def getNextAddress (upper : Word) (r : Reader) : BitVec 64 × Reader :=
  let (low, r) := getNextDword program r
  ((upper.setWidth 64 <<< 32) ||| low.setWidth 64, r)

/-! ## Decoding -/

/-- The type is the first digit, or the first two or three. -/
def opcodeType (firstDword : Word) : Nat :=
  let opcodeType := (digit firstDword 28).toNat
  let opcodeType := if 12 ≤ opcodeType then opcodeType * 16 + (digit firstDword 24).toNat
    else opcodeType
  if 0xF0 ≤ opcodeType then opcodeType * 16 + (digit firstDword 20).toNat else opcodeType

/-- What the operand of a conditional or of a log is. -/
structure Operand where
  memType : MemoryAccessType := MemoryAccessType.mainNso
  addrRegIndex : Word := 0
  ofsRegIndex : Word := 0
  relAddress : BitVec 64 := 0

/-- The four kinds of operands in memory, which two opcodes have in common. -/
def getMemoryOperand (firstDword kind : Word) (r : Reader) : Operand × Reader :=
  if kind = 0 then
    let (relAddress, r) := getNextAddress program (firstDword &&& 0xF) r
    ({ memType := digit firstDword 4, relAddress }, r)
  else if kind = 1 then ({ memType := digit firstDword 4, ofsRegIndex := firstDword &&& 0xF }, r)
  else if kind = 2 then
    let (relAddress, r) := getNextAddress program (firstDword &&& 0xF) r
    ({ addrRegIndex := digit firstDword 4, relAddress }, r)
  else if kind = 3 then ({ addrRegIndex := digit firstDword 4, ofsRegIndex := firstDword &&& 0xF },
    r)
  else ({}, r)

variable (firstDword : Word)

/-- Case 10 of `DecodeNextOpcode`. -/
def decodeStoreRegisterToAddress (r : Reader) : StoreRegisterToAddressOpcode × Reader :=
  let strRegister : StoreRegisterToAddressOpcode :=
    { bitWidth := digit firstDword 24, strRegIndex := digit firstDword 20
      addrRegIndex := digit firstDword 16, incrementReg := digit firstDword 12 ≠ 0
      ofsType := digit firstDword 8, ofsRegIndex := digit firstDword 4 }
  if strRegister.ofsType = 0 ∨ strRegister.ofsType = 1 then (strRegister, r)
  else if strRegister.ofsType = 2 then
    let (relAddress, r) := getNextAddress program (firstDword &&& 0xF) r
    ({ strRegister with relAddress }, r)
  else if strRegister.ofsType = 3 then ({ strRegister with memType := digit firstDword 4 }, r)
  else if strRegister.ofsType = 4 ∨ strRegister.ofsType = 5 then
    let (relAddress, r) := getNextAddress program (firstDword &&& 0xF) r
    ({ strRegister with memType := digit firstDword 4, relAddress }, r)
  else ({ strRegister with ofsType := 0 }, r)

/-- Case 0xC0 of `DecodeNextOpcode`. -/
def decodeBeginRegisterConditional (r : Reader) : BeginRegisterConditionalOpcode × Reader :=
  let beginRegCond : BeginRegisterConditionalOpcode :=
    { bitWidth := digit firstDword 20, condType := digit firstDword 16
      valRegIndex := digit firstDword 12, compType := digit firstDword 8 }
  if beginRegCond.compType = 4 then
    let (value, r) := getNextVmInt program beginRegCond.bitWidth r
    ({ beginRegCond with value }, r)
  else if beginRegCond.compType = 5 then
    ({ beginRegCond with otherRegIndex := digit firstDword 4 }, r)
  else
    let (operand, r) := getMemoryOperand program firstDword beginRegCond.compType r
    ({ beginRegCond with
      memType := operand.memType, addrRegIndex := operand.addrRegIndex
      ofsRegIndex := operand.ofsRegIndex, relAddress := operand.relAddress }, r)

/-- Case 0xFFF of `DecodeNextOpcode`. -/
def decodeDebugLog (r : Reader) : DebugLogOpcode × Reader :=
  let debugLog : DebugLogOpcode :=
    { bitWidth := digit firstDword 16, logId := digit firstDword 12, valType := digit firstDword 8 }
  if debugLog.valType = 4 then ({ debugLog with valRegIndex := digit firstDword 4 }, r)
  else
    let (operand, r) := getMemoryOperand program firstDword debugLog.valType r
    ({ debugLog with
      memType := operand.memType, addrRegIndex := operand.addrRegIndex
      ofsRegIndex := operand.ofsRegIndex, relAddress := operand.relAddress }, r)

/-- The opcode that begins with a word; the further words are read. -/
def decodeOpcode (r : Reader) : Opcode × Reader :=
  match opcodeType firstDword with
  | 0 =>
    let (relAddress, r) := getNextAddress program (firstDword &&& 0xFF) r
    let (value, r) := getNextVmInt program (digit firstDword 24) r
    (.storeStatic
      { bitWidth := digit firstDword 24, memType := digit firstDword 20
        offsetRegister := digit firstDword 16
        relAddress, value }, r)
  | 1 =>
    let (relAddress, r) := getNextAddress program (firstDword &&& 0xFF) r
    let (value, r) := getNextVmInt program (digit firstDword 24) r
    (.beginConditional
      { bitWidth := digit firstDword 24, memType := digit firstDword 20
        condType := digit firstDword 16
        relAddress, value }, r)
  | 2 => (.endConditional { isElse := digit firstDword 24 = 1 }, r)
  | 3 =>
    -- The register is read from the digit in front of the documented one.
    if digit firstDword 24 = 0 then
      let (numIters, r) := getNextDword program r
      (.controlLoop { startLoop := true, regIndex := digit firstDword 20, numIters }, r)
    else (.controlLoop { startLoop := false, regIndex := digit firstDword 20 }, r)
  | 4 =>
    let (value, r) := getNextQword program r
    (.loadRegisterStatic { regIndex := digit firstDword 16, value }, r)
  | 5 =>
    let (relAddress, r) := getNextAddress program (firstDword &&& 0xFF) r
    (.loadRegisterMemory
      { bitWidth := digit firstDword 24, memType := digit firstDword 20
        regIndex := digit firstDword 16
        loadFromReg := digit firstDword 12 ≠ 0, relAddress }, r)
  | 6 =>
    let (value, r) := getNextQword program r
    (.storeStaticToAddress
      { bitWidth := digit firstDword 24, regIndex := digit firstDword 16
        incrementReg := digit firstDword 12 ≠ 0
        addOffsetReg := digit firstDword 8 ≠ 0, offsetRegIndex := digit firstDword 4, value }, r)
  | 7 =>
    let (value, r) := getNextDword program r
    (.performArithmeticStatic
      { bitWidth := digit firstDword 24, regIndex := digit firstDword 16,
        mathType := digit firstDword 12, value }, r)
  | 8 => (.beginKeypressConditional { keyMask := firstDword &&& 0x0FFFFFFF }, r)
  | 9 =>
    let performMathReg : PerformArithmeticRegisterOpcode :=
      { bitWidth := digit firstDword 24, mathType := digit firstDword 20
        dstRegIndex := digit firstDword 16
        srcReg1Index := digit firstDword 12, hasImmediate := digit firstDword 8 ≠ 0 }
    if performMathReg.hasImmediate then
      let (value, r) := getNextVmInt program performMathReg.bitWidth r
      (.performArithmeticRegister { performMathReg with value }, r)
    else (.performArithmeticRegister { performMathReg with srcReg2Index := digit firstDword 4 }, r)
  | 10 =>
    let (strRegister, r) := decodeStoreRegisterToAddress program firstDword r
    (.storeRegisterToAddress strRegister, r)
  | 0xC0 =>
    let (beginRegCond, r) := decodeBeginRegisterConditional program firstDword r
    (.beginRegisterConditional beginRegCond, r)
  | 0xC1 =>
    (.saveRestoreRegister
      { dstIndex := digit firstDword 16, srcIndex := digit firstDword 8,
        opType := digit firstDword 4 }, r)
  | 0xC2 =>
    (.saveRestoreRegisterMask
      { opType := digit firstDword 20, shouldOperate := firstDword.setWidth 16 }, r)
  | 0xC3 =>
    (.readWriteStaticRegister
      { staticIdx := (firstDword >>> 4) &&& 0xFF, idx := firstDword &&& 0xF }, r)
  | 0xFF0 => (.pauseProcess, r)
  | 0xFF1 => (.resumeProcess, r)
  | 0xFFF =>
    let (debugLog, r) := decodeDebugLog program firstDword r
    (.debugLog debugLog, r)
  | type => (.unrecognized type, { r with valid := false })

/-- The conditional blocks begin with one of three types. -/
def beginsConditionalBlock : Bool :=
  opcodeType firstDword = 1 ∨ opcodeType firstDword = 8 ∨ opcodeType firstDword = 0xC0

/-- The part of the VM that decoding uses. -/
structure ProgramState where
  program : List Word
  instructionPtr : Nat := 0
  decodeSuccess : Bool := true
  deriving DecidableEq

/-- The next opcode, unless the decoding fails now or has failed before. -/
def decodeNextOpcode (s : ProgramState) : Option CheatVmOpcode × ProgramState :=
  let (firstDword, r) := getNextDword s.program ⟨s.instructionPtr, s.decodeSuccess⟩
  if r.valid then
    let (opcode, r) := decodeOpcode s.program firstDword r
    (if r.valid then some ⟨beginsConditionalBlock firstDword, opcode⟩ else none,
      { s with instructionPtr := r.instructionPtr, decodeSuccess := s.decodeSuccess && r.valid })
  else (none, { s with
      instructionPtr := r.instructionPtr, decodeSuccess := s.decodeSuccess && r.valid })

end SumiEmu.Memory
