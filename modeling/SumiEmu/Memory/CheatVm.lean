/-
# The cheat VM

One round of the VM decodes an opcode and executes it. Conditional blocks are skipped by decoding
up to their end with a count of the blocks that are open, and loops jump back to the place that
their register remembers. The texts of the log are left out.
-/

import SumiEmu.Memory.CheatDecoding

namespace SumiEmu.Memory

abbrev VAddr : Type := BitVec 64

/-! ## The process -/

/-- The bases of a process. -/
structure CheatProcessMetadata where
  mainNsoBase : BitVec 64
  heapBase : BitVec 64
  aliasBase : BitVec 64
  aslrBase : BitVec 64

/-- What the VM runs in: the callbacks on a memory, the keys, and what the language leaves open
about a shift by the width or more. A read yields the bytes at an address as one little-endian
value. -/
structure Environment (M : Type) where
  metadata : CheatProcessMetadata
  kDown : BitVec 64
  memoryReadUnsafe : M → VAddr → Word → BitVec 64
  memoryWriteUnsafe : M → VAddr → BitVec 64 → Word → M
  overlongLeftShift : BitVec 64 → BitVec 64 → BitVec 64
  overlongRightShift : BitVec 64 → BitVec 64 → BitVec 64

/-- The calls that the VM makes to the process. -/
inductive Call where
  | memoryReadUnsafe (address : VAddr) (size : Word)
  | memoryWriteUnsafe (address : VAddr) (value : BitVec 64) (size : Word)
  | pauseProcess
  | resumeProcess
  | debugLog (id : BitVec 8) (value : BitVec 64)
  deriving DecidableEq

/-- The registers and the memory, with the calls so far in their order. -/
structure Machine (M : Type) where
  registers : Word → BitVec 64
  savedValues : Word → BitVec 64
  staticRegisters : Word → BitVec 64
  memory : M
  calls : List Call

/-- The place of a register gets a value. -/
def store {α : Type} (values : Word → α) (index : Word) (value : α) : Word → α :=
  fun i => if i = index then value else values i

/-- `GetVmInt`. -/
def getVmInt (value : VmInt) (bitWidth : Word) : BitVec 64 :=
  if bitWidth = 1 then (value.setWidth 8).setWidth 64
  else if bitWidth = 2 then (value.setWidth 16).setWidth 64
  else if bitWidth = 4 then (value.setWidth 32).setWidth 64
  else if bitWidth = 8 then value
  else 0

/-- `GetCheatProcessAddress`. -/
def getCheatProcessAddress (metadata : CheatProcessMetadata) (memType : MemoryAccessType)
    (relAddress : BitVec 64) : VAddr :=
  if memType = MemoryAccessType.heap then metadata.heapBase + relAddress
  else if memType = MemoryAccessType.aliasRegion then metadata.aliasBase + relAddress
  else if memType = MemoryAccessType.aslr then metadata.aslrBase + relAddress
  else metadata.mainNsoBase + relAddress

/-- Memory is read and written for four widths only. -/
def validWidth (bitWidth : Word) : Prop := bitWidth = 1 ∨ bitWidth = 2 ∨ bitWidth = 4 ∨ bitWidth = 8

instance (bitWidth : Word) : Decidable (validWidth bitWidth) :=
  inferInstanceAs (Decidable (_ ∨ _))

/-- A variable whose low bytes are read into. -/
def overwriteLow (old read : BitVec 64) (size : Word) : BitVec 64 :=
  let mask := ~~~(BitVec.allOnes 64 <<< (8 * size.toNat))
  (old &&& ~~~mask) ||| (read &&& mask)

/-- A value cut to a width, where the width is one of the four. -/
def applyBitWidth (bitWidth : Word) (value : BitVec 64) : BitVec 64 :=
  if bitWidth = 1 then (value.setWidth 8).setWidth 64
  else if bitWidth = 2 then (value.setWidth 16).setWidth 64
  else if bitWidth = 4 then (value.setWidth 32).setWidth 64
  else value

section Perform

variable {M : Type} (env : Environment M)

/-- A read of a valid width. -/
def readMemory (address : VAddr) (old : BitVec 64) (bitWidth : Word) (m : Machine M) :
    BitVec 64 × Machine M :=
  if validWidth bitWidth then
    (overwriteLow old (env.memoryReadUnsafe m.memory address bitWidth) bitWidth,
      { m with calls := m.calls ++ [.memoryReadUnsafe address bitWidth] })
  else (old, m)

/-- A write of a valid width. -/
def writeMemory (address : VAddr) (value : BitVec 64) (bitWidth : Word) (m : Machine M) :
    Machine M :=
  if validWidth bitWidth then
    { m with
      memory := env.memoryWriteUnsafe m.memory address value bitWidth
      calls := m.calls ++ [.memoryWriteUnsafe address value bitWidth] }
  else m

def leftShift (x y : BitVec 64) : BitVec 64 :=
  if y.toNat < 64 then x <<< y else env.overlongLeftShift x y

def rightShift (x y : BitVec 64) : BitVec 64 :=
  if y.toNat < 64 then x >>> y else env.overlongRightShift x y

/-- The address of an operand in memory, `0` for a kind that does not exist. -/
def operandAddress (kind : Word) (memType : MemoryAccessType) (addrRegIndex ofsRegIndex : Word)
    (relAddress : BitVec 64) (m : Machine M) : VAddr :=
  if kind = 0 then getCheatProcessAddress env.metadata memType relAddress
  else if kind = 1 then getCheatProcessAddress env.metadata memType (m.registers ofsRegIndex)
  else if kind = 2 then m.registers addrRegIndex + relAddress
  else if kind = 3 then m.registers addrRegIndex + m.registers ofsRegIndex
  else 0

/-! ## Conditions -/

/-- The comparison of a condition. -/
def compare (condType : ConditionalComparisonType) (src cond : BitVec 64) : Bool :=
  if condType = 1 then cond.toNat < src.toNat
  else if condType = 2 then cond.toNat ≤ src.toNat
  else if condType = 3 then src.toNat < cond.toNat
  else if condType = 4 then src.toNat ≤ cond.toNat
  else if condType = 5 then src = cond
  else if condType = 6 then src ≠ cond
  else false

/-- Whether the condition of a block is met; evaluating it may read memory. -/
def conditionMet : Opcode → Machine M → Bool × Machine M
  | .beginConditional o, m =>
    let (srcValue, m) :=
      readMemory env (getCheatProcessAddress env.metadata o.memType o.relAddress) 0 o.bitWidth m
    (compare o.condType srcValue (getVmInt o.value o.bitWidth), m)
  | .beginKeypressConditional o, m =>
      ((o.keyMask.setWidth 64 &&& env.kDown) = o.keyMask.setWidth 64, m)
  | .beginRegisterConditional o, m =>
    let srcValue := getVmInt (m.registers o.valRegIndex) o.bitWidth
    let (condValue, m) :=
      if o.compType = 4 then (getVmInt o.value o.bitWidth, m)
      else if o.compType = 5 then (getVmInt (m.registers o.otherRegIndex) o.bitWidth, m)
      else
        readMemory env (operandAddress env o.compType o.memType o.addrRegIndex o.ofsRegIndex
          o.relAddress m) 0 o.bitWidth m
    (compare o.condType srcValue condValue, m)
  | _, m => (true, m)

/-! ## Effects on the registers and the memory -/

def performArithmeticStatic (o : PerformArithmeticStaticOpcode) (m : Machine M) : Machine M :=
  let x := m.registers o.regIndex
  let y := o.value.setWidth 64
  let result :=
    if o.mathType = 0 then x + y
    else if o.mathType = 1 then x - y
    else if o.mathType = 2 then x * y
    else if o.mathType = 3 then leftShift env x y
    else if o.mathType = 4 then rightShift env x y
    else x
  { m with registers := store m.registers o.regIndex (applyBitWidth o.bitWidth result) }

def performArithmeticRegister (o : PerformArithmeticRegisterOpcode) (m : Machine M) : Machine M :=
  let x := m.registers o.srcReg1Index
  let y := if o.hasImmediate then getVmInt o.value o.bitWidth else m.registers o.srcReg2Index
  let result :=
    if o.mathType = 0 then x + y
    else if o.mathType = 1 then x - y
    else if o.mathType = 2 then x * y
    else if o.mathType = 3 then leftShift env x y
    else if o.mathType = 4 then rightShift env x y
    else if o.mathType = 5 then x &&& y
    else if o.mathType = 6 then x ||| y
    else if o.mathType = 7 then ~~~x
    else if o.mathType = 8 then x ^^^ y
    else if o.mathType = 9 then x
    else 0
  { m with registers := store m.registers o.dstRegIndex (applyBitWidth o.bitWidth result) }

def storeRegisterToAddress (o : StoreRegisterToAddressOpcode) (m : Machine M) : Machine M :=
  let dstAddress :=
    if o.ofsType = 1 then m.registers o.addrRegIndex + m.registers o.ofsRegIndex
    else if o.ofsType = 2 then m.registers o.addrRegIndex + o.relAddress
    else if o.ofsType = 3 then getCheatProcessAddress env.metadata o.memType
      (m.registers o.addrRegIndex)
    else if o.ofsType = 4 then getCheatProcessAddress env.metadata o.memType o.relAddress
    else if o.ofsType = 5 then
      getCheatProcessAddress env.metadata o.memType (m.registers o.addrRegIndex + o.relAddress)
    else m.registers o.addrRegIndex
  let m := writeMemory env dstAddress (m.registers o.strRegIndex) o.bitWidth m
  if o.incrementReg then
    { m with
      registers := store m.registers o.addrRegIndex
        (m.registers o.addrRegIndex + o.bitWidth.setWidth 64) }
  else m

/-- Case `SaveRestoreRegisterOpcode`. -/
def saveRestoreRegister (o : SaveRestoreRegisterOpcode) (m : Machine M) : Machine M :=
  if o.opType = 3 then { m with registers := store m.registers o.dstIndex 0 }
  else if o.opType = 2 then { m with savedValues := store m.savedValues o.dstIndex 0 }
  else if o.opType = 1 then
    { m with savedValues := store m.savedValues o.dstIndex (m.registers o.srcIndex) }
  else { m with registers := store m.registers o.dstIndex (m.savedValues o.srcIndex) }

/-- The registers whose bits are set are operated on. -/
def saveRestoreRegisterMask (o : SaveRestoreRegisterMaskOpcode) (m : Machine M) : Machine M :=
  let masked (dst src : Word → BitVec 64) : Word → BitVec 64 :=
    fun i => if o.shouldOperate.getLsbD i.toNat then src i else dst i
  if o.opType = 2 then { m with savedValues := masked m.savedValues fun _ => 0 }
  else if o.opType = 1 then { m with savedValues := masked m.savedValues m.registers }
  else if o.opType = 3 then { m with registers := masked m.registers fun _ => 0 }
  else { m with registers := masked m.registers m.savedValues }

/-- Case `DebugLogOpcode`. -/
def debugLog (o : DebugLogOpcode) (m : Machine M) : Machine M :=
  let (logValue, m) :=
    if o.valType = 4 then (getVmInt (m.registers o.valRegIndex) o.bitWidth, m)
    else
      readMemory env (operandAddress env o.valType o.memType o.addrRegIndex o.ofsRegIndex
        o.relAddress m) 0 o.bitWidth m
  { m with calls := m.calls ++ [.debugLog (o.logId.setWidth 8) logValue] }

/-- The effect of an opcode that has none on the flow of control. -/
def perform : Opcode → Machine M → Machine M
  | .storeStatic o, m =>
    writeMemory env (getCheatProcessAddress env.metadata o.memType
      (o.relAddress + m.registers o.offsetRegister)) (getVmInt o.value o.bitWidth) o.bitWidth m
  | .loadRegisterStatic o, m => { m with registers := store m.registers o.regIndex o.value }
  | .loadRegisterMemory o, m =>
    let srcAddress :=
      if o.loadFromReg then m.registers o.regIndex + o.relAddress
      else getCheatProcessAddress env.metadata o.memType o.relAddress
    -- The register keeps its bytes above the width.
    let (value, m) := readMemory env srcAddress (m.registers o.regIndex) o.bitWidth m
    { m with registers := store m.registers o.regIndex value }
  | .storeStaticToAddress o, m =>
    let dstAddress :=
      if o.addOffsetReg then m.registers o.regIndex + m.registers o.offsetRegIndex
        else m.registers o.regIndex
    let m := writeMemory env dstAddress o.value o.bitWidth m
    if o.incrementReg then
      { m with
        registers := store m.registers o.regIndex
          (m.registers o.regIndex + o.bitWidth.setWidth 64) }
    else m
  | .performArithmeticStatic o, m => performArithmeticStatic env o m
  | .performArithmeticRegister o, m => performArithmeticRegister env o m
  | .storeRegisterToAddress o, m => storeRegisterToAddress env o m
  | .saveRestoreRegister o, m => saveRestoreRegister o m
  | .saveRestoreRegisterMask o, m => saveRestoreRegisterMask o m
  | .readWriteStaticRegister o, m =>
    if o.staticIdx.toNat < 0x80 then
      { m with registers := store m.registers o.idx (m.staticRegisters o.staticIdx) }
    else { m with staticRegisters := store m.staticRegisters o.staticIdx (m.registers o.idx) }
  | .pauseProcess, m => { m with calls := m.calls ++ [.pauseProcess] }
  | .resumeProcess, m => { m with calls := m.calls ++ [.resumeProcess] }
  | .debugLog o, m => debugLog env o m
  | _, m => m

end Perform

/-! ## The VM -/

structure DmntCheatVm (M : Type) where
  state : ProgramState
  conditionDepth : Nat
  loopTops : Word → Nat
  machine : Machine M

/-- Opcodes are decoded until fewer blocks are open than before, or up to an `Else` of the block
itself when a block is skipped whose condition is not met. -/
def skipWhile (desiredDepth : Nat) (isIf : Bool) (s : ProgramState) (conditionDepth : Nat) :
    ProgramState × Nat :=
  if desiredDepth < conditionDepth then
    match decoded : decodeNextOpcode s with
    | (none, s') => (s', conditionDepth)
    | (some opcode, s') =>
      have : s'.program.length - s'.instructionPtr < s.program.length - s.instructionPtr := by
        have forward := decodeNextOpcode_forward (congrArg Prod.fst decoded)
        rw [decoded] at forward
        obtain ⟨same, further, inside⟩ := forward
        dsimp only at same further inside
        rw [same]
        omega
      if opcode.beginConditionalBlock then skipWhile desiredDepth isIf s' (conditionDepth + 1)
      else match opcode.opcode with
        | .endConditional endCond =>
          if !endCond.isElse then skipWhile desiredDepth isIf s' (conditionDepth - 1)
          else if isIf && conditionDepth - 1 = desiredDepth then (s', conditionDepth)
          else skipWhile desiredDepth isIf s' conditionDepth
        | _ => skipWhile desiredDepth isIf s' conditionDepth
  else (s, conditionDepth)
termination_by s.program.length - s.instructionPtr

section Execute

variable {M : Type} (env : Environment M)

/-- Outside of blocks there is nothing to skip; the code only asserts that this does not happen. -/
def skipConditionalBlock (isIf : Bool) (vm : DmntCheatVm M) : DmntCheatVm M :=
  if 0 < vm.conditionDepth then
    let (state, conditionDepth) := skipWhile (vm.conditionDepth - 1) isIf vm.state vm.conditionDepth
    { vm with state, conditionDepth }
  else vm

/-- `ResetState`. -/
def resetState (vm : DmntCheatVm M) : DmntCheatVm M :=
  { vm with
    state := { vm.state with instructionPtr := 0, decodeSuccess := true }
    conditionDepth := 0
    loopTops := fun _ => 0
    machine := { vm.machine with registers := fun _ => 0, savedValues := fun _ => 0 } }

/-- Case `ControlLoopOpcode`. -/
def executeControlLoop (o : ControlLoopOpcode) (vm : DmntCheatVm M) : DmntCheatVm M :=
  let m := vm.machine
  if o.startLoop then
    { vm with
      machine := { m with registers := store m.registers o.regIndex (o.numIters.setWidth 64) }
      loopTops := store vm.loopTops o.regIndex vm.state.instructionPtr }
  else
    let registers := store m.registers o.regIndex (m.registers o.regIndex - 1)
    let vm := { vm with machine := { m with registers } }
    if registers o.regIndex ≠ 0 then
      { vm with state := { vm.state with instructionPtr := vm.loopTops o.regIndex } }
    else vm

def executeOpcode (opcode : CheatVmOpcode) (vm : DmntCheatVm M) : DmntCheatVm M :=
  let vm := if opcode.beginConditionalBlock then { vm with conditionDepth := vm.conditionDepth + 1 }
    else vm
  match opcode.opcode with
  | .beginConditional _ | .beginKeypressConditional _ | .beginRegisterConditional _ =>
    let (met, machine) := conditionMet env opcode.opcode vm.machine
    if met then { vm with machine } else skipConditionalBlock true { vm with machine }
  | .endConditional endCond =>
    if endCond.isElse then skipConditionalBlock false vm
    else { vm with conditionDepth := vm.conditionDepth - 1 }
  | .controlLoop ctrlLoop => executeControlLoop ctrlLoop vm
  | other => { vm with machine := perform env other vm.machine }

/-- One round of the VM's loop, unless no opcode is decoded. -/
def DmntCheatVm.step (vm : DmntCheatVm M) : Option (DmntCheatVm M) :=
  match decodeNextOpcode vm.state with
  | (none, _) => none
  | (some opcode, state) => some (executeOpcode env opcode { vm with state })

/-- The VM after some rounds, unless it has come to its end before. -/
def execute (vm : DmntCheatVm M) : Nat → Option (DmntCheatVm M)
  | 0 => some (resetState vm)
  | n + 1 => (execute vm n).bind (DmntCheatVm.step env)

end Execute

end SumiEmu.Memory

/-!
## Structured cheat programs

A well-nested program as a tree, its instructions in their order with the number of conditional
blocks around each, and what it does when it is read as blocks and loops.
-/

namespace SumiEmu.Memory

open Foundations

/-- An instruction that neither begins or ends a block nor starts or ends a loop. -/
def Instruction.isPlain : Instruction → Bool
  | .beginConditional .. | .beginKeypressConditional .. | .beginRegisterConditional .. => false
  | .endConditional _ | .startLoop .. | .endLoop _ => false
  | _ => true

/-- A sequence of instructions, conditional blocks and loops. -/
inductive Tree where
  | done
  | plain (i : Instruction) (isPlain : i.isPlain = true) (next : Tree)
  | block (condition : Instruction) (conditional : condition.isConditional = true)
      (body next : Tree)
  | blockElse (condition : Instruction) (conditional : condition.isConditional = true)
      (body otherwise next : Tree)
  | loop (reg : Digit) (numIters : Word) (body next : Tree)

/-- The instructions of a tree inside `depth` conditional blocks, each with its own depth. -/
def Tree.listing (depth : Nat) : Tree → List (Nat × Instruction)
  | .done => []
  | .plain i _ next => (depth, i) :: next.listing depth
  | .block c _ body next =>
    (depth, c) :: (body.listing (depth + 1) ++ (depth + 1, .endConditional false) ::
    next.listing depth)
  | .blockElse c _ body otherwise next =>
    (depth, c) :: (body.listing (depth + 1) ++ (depth + 1, .endConditional true) ::
      (otherwise.listing (depth + 1) ++ (depth + 1, .endConditional false) :: next.listing depth))
  | .loop r n body next =>
    (depth, .startLoop r n) :: (body.listing depth ++ (depth, .endLoop r) :: next.listing depth)

/-- A way to write instructions as words, with the instruction that the decoder reads from each.
Only the register of a loop may be read differently. -/
structure Encoding where
  words : Instruction → List Word
  asRead : Instruction → Instruction
  decoded : ∀ (i : Instruction) (s : ProgramState) (rest : List Word), s.decodeSuccess = true →
    s.program.drop s.instructionPtr = words i ++ rest →
    decodeNextOpcode s =
      (some ⟨i.isConditional, (asRead i).opcode⟩,
        { s with instructionPtr := s.instructionPtr + (words i).length })
  asRead_of_noLoop : ∀ i, i.loopRegister? = none → asRead i = i
  asRead_startLoop : ∀ r n, ∃ r', asRead (.startLoop r n) = .startLoop r' n
  asRead_endLoop : ∀ r, ∃ r', asRead (.endLoop r) = .endLoop r'

/-- The encoding that the comments of the decoder lay out. -/
def Encoding.documented : Encoding where
  words := Instruction.encode
  asRead := Instruction.asRead
  decoded i _ _ success there := decodeNextOpcode_encode i success there
  asRead_of_noLoop i noLoop := by
    cases i <;> first | rfl | exact absurd noLoop (Option.some_ne_none _)
  asRead_startLoop _ _ := ⟨0, rfl⟩
  asRead_endLoop _ := ⟨0, rfl⟩

/-- The words of instructions, one instruction after the other. -/
def Encoding.wordsOf (enc : Encoding) (code : List (Nat × Instruction)) : List Word :=
  code.flatMap fun entry => enc.words entry.2

/-- The program that encodes a tree. -/
def Tree.words (enc : Encoding) (t : Tree) : List Word := enc.wordsOf (t.listing 0)

/-- The depth of the instruction at a place of the program. -/
def Encoding.staticDepth (enc : Encoding) : List (Nat × Instruction) → Nat → Option Nat
  | [], _ => none
  | (depth, i) :: code, place =>
    if place = 0 then some depth
    else if place < (enc.words i).length then none
    else enc.staticDepth code (place - (enc.words i).length)

/-- Loops that are nested are on distinct registers. -/
def Tree.DistinctLoops (outer : List Digit) : Tree → Prop
  | .done => True
  | .plain _ _ next => next.DistinctLoops outer
  | .block _ _ body next => body.DistinctLoops outer ∧ next.DistinctLoops outer
  | .blockElse _ _ body otherwise next =>
    body.DistinctLoops outer ∧ otherwise.DistinctLoops outer ∧ next.DistinctLoops outer
  | .loop r _ body next => r ∉ outer ∧ body.DistinctLoops (r :: outer) ∧ next.DistinctLoops outer

/-! ## The structured reading -/

/-- What remains to be done: a sequence, leaving a block, or deciding on another round of a loop. -/
inductive Work where
  | run (t : Tree)
  | leave
  | again (reg : Digit) (body : Tree)

section Structured

variable {M : Type} (env : Environment M)

/-- One step. A body is executed if its condition holds at that moment, the other part if it does
not, and a loop goes on until its register is zero at the end of a round. -/
def structuredStep : List Work → Machine M → Option (List Work × Machine M)
  | [], _ => none
  | .run .done :: rest, m => structuredStep rest m
  | .run (.plain i _ next) :: rest, m => some (.run next :: rest, perform env i.opcode m)
  | .run (.block c _ body next) :: rest, m =>
    let (met, m) := conditionMet env c.opcode m
    if met then some (.run body :: .leave :: .run next :: rest, m) else some (.run next :: rest, m)
  | .run (.blockElse c _ body otherwise next) :: rest, m =>
    let (met, m) := conditionMet env c.opcode m
    if met then some (.run body :: .leave :: .run next :: rest, m)
    else some (.run otherwise :: .leave :: .run next :: rest, m)
  | .run (.loop r n body next) :: rest, m =>
    some (.run body :: .again r body :: .run next :: rest,
      { m with registers := store m.registers r.index (n.setWidth 64) })
  | .leave :: rest, m => some (rest, m)
  | .again r body :: rest, m =>
    let registers := store m.registers r.index (m.registers r.index - 1)
    if registers r.index ≠ 0 then some (.run body :: .again r body :: rest, { m with registers })
    else some (rest, { m with registers })

/-- The structured reading of a tree after some steps, unless it has come to its end before. -/
def structuredRun (t : Tree) (m : Machine M) : Nat → Option (List Work × Machine M)
  | 0 => some ([.run t], m)
  | n + 1 => (structuredRun t m n).bind fun now => structuredStep env now.1 now.2

end Structured

/-- The register of the loop instruction that is executed next, if one is. -/
def nextLoopRegister? : List Work → Option Digit
  | [] => none
  | .run .done :: rest => nextLoopRegister? rest
  | .run (.loop r _ _ _) :: _ => some r
  | .run _ :: _ => none
  | .leave :: _ => none
  | .again r _ :: _ => some r

end SumiEmu.Memory
