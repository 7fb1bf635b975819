/-
# The cheat VM executes structured programs as they read

What the VM does on the program that encodes a tree, round for round, is what the tree does when it
is read as blocks and loops, as long as the loops that are executed are on registers that the
decoder reads.
-/
import SumiEmu.Memory.CheatVm

namespace SumiEmu.Memory

open List Nat Bool

section Code

variable {enc : Encoding} {code before rest : List (Nat × Instruction)} {program : List Word}
    {place depth : Nat}
  {i : Instruction}

/-! ## Places of the program -/

theorem Encoding.length_pos (enc : Encoding) (i : Instruction) : 0 < (enc.words i).length := by
  have read := enc.decoded i ⟨enc.words i, 0, true⟩ [] rfl (append_nil _).symm
  have forward := decodeNextOpcode_forward (s := ⟨enc.words i, 0, true⟩) (congrArg Prod.fst read)
  rw [read] at forward
  simpa using forward.2.1

theorem Encoding.wordsOf_append (enc : Encoding) (first second : List (Nat × Instruction)) :
    enc.wordsOf (first ++ second) = enc.wordsOf first ++ enc.wordsOf second := flatMap_append

theorem Encoding.wordsOf_cons (enc : Encoding) (entry : Nat × Instruction)
    (code : List (Nat × Instruction)) :
    enc.wordsOf (entry :: code) = enc.words entry.2 ++ enc.wordsOf code := flatMap_cons

/-- The remaining words at a place are those of these instructions. -/
def Encoding.There (enc : Encoding) (program : List Word) (place : Nat)
    (code : List (Nat × Instruction)) : Prop :=
  program.drop place = enc.wordsOf code

theorem Encoding.There.drop (there : enc.There program place (before ++ rest)) :
    enc.There program (place + (enc.wordsOf before).length) rest := by
  rw [Encoding.There, ← drop_drop, there, enc.wordsOf_append, drop_left]

theorem Encoding.There.next (there : enc.There program place ((depth, i) :: rest)) :
    enc.There program (place + (enc.words i).length) rest := by
  rw [Encoding.There, ← drop_drop, there, enc.wordsOf_cons, drop_left]

theorem Encoding.There.decoded (there : enc.There program place ((depth, i) :: rest)) :
    decodeNextOpcode ⟨program, place, true⟩ =
      (some ⟨i.isConditional, (enc.asRead i).opcode⟩,
        ⟨program, place + (enc.words i).length, true⟩) := by
  rw [Encoding.There, enc.wordsOf_cons] at there
  exact enc.decoded i ⟨program, place, true⟩ _ rfl there

theorem Encoding.There.finished (there : enc.There program place []) :
    (decodeNextOpcode ⟨program, place, true⟩).1 = none := by
  have outside : program[place]? = none := by
    rw [← head?_drop, there]
    rfl
  simp only [decodeNextOpcode, getNextDword, outside]
  rfl

/-- These instructions remain at a place of the program. -/
def Encoding.Placed (enc : Encoding) (code : List (Nat × Instruction)) (place : Nat)
    (rest : List (Nat × Instruction)) : Prop :=
  ∃ before, code = before ++ rest ∧ (enc.wordsOf before).length = place

theorem Encoding.Placed.there (placed : enc.Placed code place rest) :
    enc.There (enc.wordsOf code) place rest := by
  obtain ⟨before, rfl, rfl⟩ := placed
  rw [Encoding.There, enc.wordsOf_append, drop_left]

theorem Encoding.Placed.drop (placed : enc.Placed code place (before ++ rest)) :
    enc.Placed code (place + (enc.wordsOf before).length) rest := by
  obtain ⟨first, rfl, rfl⟩ := placed
  exact ⟨first ++ before, (append_assoc ..).symm, by rw [enc.wordsOf_append, length_append]⟩

theorem Encoding.Placed.next (placed : enc.Placed code place ((depth, i) :: rest)) :
    enc.Placed code (place + (enc.words i).length) rest := by
  have oneWords : (enc.wordsOf [(depth, i)]).length = (enc.words i).length := by
    rw [enc.wordsOf_cons, Encoding.wordsOf, flatMap_nil, append_nil]
  rw [← oneWords]
  exact placed.drop

theorem Encoding.Placed.staticDepth (placed : enc.Placed code place ((depth, i) :: rest)) :
    enc.staticDepth code place = some depth := by
  obtain ⟨before, rfl, rfl⟩ := placed
  induction before with
  | nil => rfl
  | cons entry before ih =>
    have positive := enc.length_pos entry.2
    rw [cons_append, Encoding.staticDepth, enc.wordsOf_cons, length_append, if_neg (by omega),
      if_neg (by omega), Nat.add_sub_cancel_left]
    exact ih

/-! ## Skipping a block -/

theorem skipWhile_next {desired : Nat} {isIf : Bool} {s s' : ProgramState} {opcode : CheatVmOpcode}
    (inside : desired < depth) (decoded : decodeNextOpcode s = (some opcode, s')) :
    skipWhile desired isIf s depth =
      if opcode.beginConditionalBlock then skipWhile desired isIf s' (depth + 1)
      else match opcode.opcode with
        | .endConditional endCond =>
          if !endCond.isElse then skipWhile desired isIf s' (depth - 1)
          else if isIf && depth - 1 = desired then (s', depth)
          else skipWhile desired isIf s' depth
        | _ => skipWhile desired isIf s' depth := by
  rw [skipWhile, if_pos inside]
  split
  · rename_i nothing
    rw [decoded] at nothing
    exact absurd (congrArg Prod.fst nothing) (Option.some_ne_none _)
  · rename_i other s'' something
    rw [decoded] at something
    obtain ⟨rfl, rfl⟩ : opcode = other ∧ s' = s'' := by
      have both := Prod.mk.inj something
      exact ⟨Option.some.inj both.1, both.2⟩
    rfl

theorem plain_noLoop (isPlain : i.isPlain = true) :
    i.loopRegister? = none ∧ i.isConditional = false := by
  cases i <;> first | exact ⟨rfl, rfl⟩ | exact absurd isPlain false_ne_true

section Skip

variable {desired : Nat} {isIf : Bool} (inside : desired < depth)
include inside

variable {d : Nat}

theorem skipWhile_plain (isPlain : i.isPlain = true)
    (there : enc.There program place ((d, i) :: rest)) :
    skipWhile desired isIf ⟨program, place, true⟩ depth =
      skipWhile desired isIf ⟨program, place + (enc.words i).length, true⟩ depth := by
  obtain ⟨noLoop, notConditional⟩ := plain_noLoop isPlain
  rw [skipWhile_next inside there.decoded, notConditional, enc.asRead_of_noLoop i noLoop]
  cases i with
  | performArithmeticRegister t c r s operand => cases operand <;> rfl
  | storeRegisterToAddress t s r j offset => cases offset <;> rfl
  | debugLog t j operand => cases operand <;> rfl
  | beginConditional | beginKeypressConditional | beginRegisterConditional | endConditional
      | startLoop | endLoop =>
    exact absurd isPlain false_ne_true
  | _ => rfl

theorem skipWhile_conditional (conditional : i.isConditional = true)
    (there : enc.There program place ((d, i) :: rest)) :
    skipWhile desired isIf ⟨program, place, true⟩ depth =
      skipWhile desired isIf ⟨program, place + (enc.words i).length, true⟩ (depth + 1) := by
  rw [skipWhile_next inside there.decoded, conditional]
  rfl

theorem skipWhile_startLoop {r : Digit} {n : Word}
    (there : enc.There program place ((d, .startLoop r n) :: rest)) :
    skipWhile desired isIf ⟨program, place, true⟩ depth =
      skipWhile desired isIf ⟨program, place + (enc.words (.startLoop r n)).length, true⟩
      depth := by
  obtain ⟨r', read⟩ := enc.asRead_startLoop r n
  rw [skipWhile_next inside there.decoded, read]
  rfl

theorem skipWhile_endLoop {r : Digit} (there : enc.There program place ((d, .endLoop r) :: rest)) :
    skipWhile desired isIf ⟨program, place, true⟩ depth =
      skipWhile desired isIf ⟨program, place + (enc.words (.endLoop r)).length, true⟩ depth := by
  obtain ⟨r', read⟩ := enc.asRead_endLoop r
  rw [skipWhile_next inside there.decoded, read]
  rfl

theorem skipWhile_end (there : enc.There program place ((d, .endConditional false) :: rest)) :
    skipWhile desired isIf ⟨program, place, true⟩ depth =
      skipWhile desired isIf ⟨program, place + (enc.words (.endConditional false)).length, true⟩
      (depth - 1) := by
  rw [skipWhile_next inside there.decoded, enc.asRead_of_noLoop _ rfl]
  rfl

theorem skipWhile_else (there : enc.There program place ((d, .endConditional true) :: rest)) :
    skipWhile desired isIf ⟨program, place, true⟩ depth =
      if isIf && depth - 1 = desired then
      (⟨program, place + (enc.words (.endConditional true)).length, true⟩, depth)
      else skipWhile desired isIf ⟨program, place + (enc.words (.endConditional true)).length, true⟩
        depth := by
  rw [skipWhile_next inside there.decoded, enc.asRead_of_noLoop _ rfl]
  rfl

end Skip

/-- Skipping goes past a whole tree: blocks inside it end again, and an `Else` inside it belongs to
one of them. -/
theorem skipWhile_listing (t : Tree) {desired d : Nat} {isIf : Bool} (inside : desired < depth)
    (there : enc.There program place (t.listing d ++ rest)) :
    skipWhile desired isIf ⟨program, place, true⟩ depth =
      skipWhile desired isIf ⟨program, place + (enc.wordsOf (t.listing d)).length, true⟩ depth := by
  induction t generalizing place depth d rest with
  | done => rfl
  | plain j isPlain next ih =>
    rw [skipWhile_plain inside isPlain there, ih inside there.next]
    simp only [Tree.listing, enc.wordsOf_cons, length_append, add_assoc]
  | block c conditional body next ihBody ihNext =>
    simp only [Tree.listing, cons_append, append_assoc] at there
    rw [skipWhile_conditional inside conditional there, ihBody (by omega) there.next,
      skipWhile_end (by omega) there.next.drop, Nat.add_sub_cancel,
      ihNext inside there.next.drop.next]
    simp only [Tree.listing, enc.wordsOf_cons, enc.wordsOf_append, length_append, add_assoc]
  | blockElse c conditional body otherwise next ihBody ihOtherwise ihNext =>
    simp only [Tree.listing, cons_append, append_assoc] at there
    have deeper : ¬ (isIf && decide (depth + 1 - 1 = desired)) = true := by
      simp only [and_eq_true, decide_eq_true_eq]
      omega
    rw [skipWhile_conditional inside conditional there, ihBody (by omega) there.next,
      skipWhile_else (by omega) there.next.drop, if_neg deeper,
      ihOtherwise (by omega) there.next.drop.next,
      skipWhile_end (by omega) there.next.drop.next.drop, Nat.add_sub_cancel,
      ihNext inside there.next.drop.next.drop.next]
    simp only [Tree.listing, enc.wordsOf_cons, enc.wordsOf_append, length_append, add_assoc]
  | loop r n body next ihBody ihNext =>
    simp only [Tree.listing, cons_append, append_assoc] at there
    rw [skipWhile_startLoop inside there, ihBody inside there.next,
      skipWhile_endLoop inside there.next.drop, ihNext inside there.next.drop.next]
    simp only [Tree.listing, enc.wordsOf_cons, enc.wordsOf_append, length_append, add_assoc]

/-- Skipping a block to its end. -/
theorem skipWhile_toEnd (t : Tree) {isIf : Bool}
    (there : enc.There program place
    (t.listing (depth + 1) ++ (depth + 1, .endConditional false) :: rest)) :
    skipWhile depth isIf ⟨program, place, true⟩ (depth + 1) =
      (⟨program, place + (enc.wordsOf (t.listing (depth + 1))).length +
        (enc.words (.endConditional false)).length, true⟩, depth) := by
  rw [skipWhile_listing t (lt_succ_self _) there, skipWhile_end (lt_succ_self _) there.drop,
    skipWhile, if_neg (by omega)]
  rfl

/-- Skipping a block whose condition is not met to its `Else`. -/
theorem skipWhile_toElse (t : Tree)
    (there : enc.There program place
    (t.listing (depth + 1) ++ (depth + 1, .endConditional true) :: rest)) :
    skipWhile depth true ⟨program, place, true⟩ (depth + 1) =
      (⟨program, place + (enc.wordsOf (t.listing (depth + 1))).length +
        (enc.words (.endConditional true)).length, true⟩, depth + 1) := by
  rw [skipWhile_listing t (lt_succ_self _) there, skipWhile_else (lt_succ_self _) there.drop,
    if_pos (by simp)]

end Code

/-! ## Where the VM is in the structured reading -/

/-- The registers of the loops that are under way. -/
def openLoops : List Work → List Digit
  | [] => []
  | .again r _ :: work => r :: openLoops work
  | .run _ :: work => openLoops work
  | .leave :: work => openLoops work

/-- The work that remains is that of the instructions that remain, with the loops that are under way
starting at the places that their registers remember. -/
def Located (enc : Encoding) (code : List (Nat × Instruction)) (loopTops : Word → Nat) :
    List Work → Nat → List (Nat × Instruction) → Prop
  | [], depth, rest => depth = 0 ∧ rest = []
  | .run t :: work, depth, rest =>
    t.DistinctLoops (openLoops work) ∧
    ∃ after, rest = t.listing depth ++ after ∧ Located enc code loopTops work depth after
  | .leave :: work, depth, rest =>
    ∃ outer after, depth = outer + 1 ∧ Located enc code loopTops work outer after ∧
      (rest = (depth, .endConditional false) :: after ∨
        ∃ otherwise : Tree, rest =
          (depth, .endConditional true) ::
          (otherwise.listing depth ++ (depth, .endConditional false) :: after))
  | .again r body :: work, depth, rest =>
    r ∉ openLoops work ∧ body.DistinctLoops (r :: openLoops work) ∧
    enc.Placed code (loopTops r.index) (body.listing depth ++ rest) ∧
    ∃ after, rest = (depth, .endLoop r) :: after ∧ Located enc code loopTops work depth after

section Located

variable {enc : Encoding} {code : List (Nat × Instruction)} {loopTops : Word → Nat}

/-- A loop that starts leaves alone where the loops under way start. -/
theorem Located.store_top {r : Digit} {top : Nat} (work : List Work) (distinct : r ∉ openLoops work)
    {depth : Nat}
    {rest : List (Nat × Instruction)} (located : Located enc code loopTops work depth rest) :
    Located enc code (store loopTops r.index top) work depth rest := by
  induction work generalizing depth rest with
  | nil => exact located
  | cons item work ih =>
    cases item with
    | run t =>
      obtain ⟨loops, after, restEq, located⟩ := located
      exact ⟨loops, after, restEq, ih distinct located⟩
    | leave =>
      obtain ⟨outer, after, depthEq, located, closes⟩ := located
      exact ⟨outer, after, depthEq, ih distinct located, closes⟩
    | again other body =>
      obtain ⟨notOpen, loops, top', after, restEq, located⟩ := located
      obtain ⟨notThis, notRest⟩ := not_or.mp (mt mem_cons.mpr distinct)
      have same : store loopTops r.index top other.index = loopTops other.index :=
        if_neg fun eq => notThis ((index_eq_iff other r).mp eq).symm
      refine ⟨notOpen, loops, ?_, after, restEq, ih notRest located⟩
      rw [same]
      exact top'

end Located

/-- The VM is at the place of the program that the structured reading has come to, with the same
machine. -/
structure Simulates {M : Type} (enc : Encoding) (code : List (Nat × Instruction))
    (vm : DmntCheatVm M)
    (work : List Work) (m : Machine M) : Prop where
  placed : ∃ place rest, vm.state = ⟨enc.wordsOf code, place, true⟩ ∧ enc.Placed code place rest ∧
    Located enc code vm.loopTops work vm.conditionDepth rest
  machine : vm.machine = m

/-- A loop on this register is read as it is meant. -/
def Encoding.ReadsLoop (enc : Encoding) (r : Digit) : Prop :=
  (∀ n, enc.asRead (.startLoop r n) = .startLoop r n) ∧ enc.asRead (.endLoop r) = .endLoop r

/-! ## One round of the VM -/

section Step

variable {M : Type} {env : Environment M} {enc : Encoding}
    {code after rest : List (Nat × Instruction)}
  {vm : DmntCheatVm M} {work : List Work} {m : Machine M} {place : Nat}

variable {i : Instruction}

theorem step_at {program : List Word} {d : Nat} (state : vm.state = ⟨program, place, true⟩)
    (there : enc.There program place ((d, i) :: rest)) :
    vm.step env = some (executeOpcode env ⟨i.isConditional, (enc.asRead i).opcode⟩
      { vm with state := ⟨program, place + (enc.words i).length, true⟩ }) := by
  rw [DmntCheatVm.step, state, there.decoded]

theorem executeOpcode_plain (isPlain : i.isPlain = true) :
    executeOpcode env ⟨false, i.opcode⟩ vm =
      { vm with machine := perform env i.opcode vm.machine } := by
  cases i with
  | performArithmeticRegister t c r s operand => cases operand <;> rfl
  | storeRegisterToAddress t s r j offset => cases offset <;> rfl
  | debugLog t j operand => cases operand <;> rfl
  | beginConditional | beginKeypressConditional | beginRegisterConditional | endConditional
      | startLoop | endLoop =>
    exact absurd isPlain false_ne_true
  | _ => rfl

variable {c : Instruction}

theorem executeOpcode_conditional (conditional : c.isConditional = true) :
    executeOpcode env ⟨true, c.opcode⟩ vm =
      let inBlock := { vm with
        conditionDepth := vm.conditionDepth + 1
        machine := (conditionMet env c.opcode vm.machine).2 }
      if (conditionMet env c.opcode vm.machine).1 then inBlock
        else skipConditionalBlock true inBlock := by
  cases c with
  | beginConditional | beginKeypressConditional => rfl
  | beginRegisterConditional t c s operand => cases operand <;> rfl
  | _ => exact absurd conditional false_ne_true

theorem conditional_asRead (conditional : c.isConditional = true) : enc.asRead c = c := by
  apply enc.asRead_of_noLoop
  cases c <;> first | rfl | exact absurd conditional false_ne_true

/-- The VM goes on in a block whose condition is met, and else where skipping stops. -/
theorem step_conditional {program : List Word} {d : Nat} (conditional : c.isConditional = true)
    (state : vm.state = ⟨program, place, true⟩) (there : enc.There program place ((d, c) :: rest)) :
    let inside := place + (enc.words c).length
    let machine := (conditionMet env c.opcode vm.machine).2
    vm.step env = some (
      if (conditionMet env c.opcode vm.machine).1 then
        { vm with
          state := ⟨program, inside, true⟩, conditionDepth := vm.conditionDepth + 1, machine }
      else
        let skipped := skipWhile vm.conditionDepth true ⟨program, inside, true⟩
          (vm.conditionDepth + 1)
        { vm with state := skipped.1, conditionDepth := skipped.2, machine }) := by
  rw [step_at state there, conditional, conditional_asRead conditional,
    executeOpcode_conditional conditional]
  dsimp only
  split
  · rfl
  · rw [skipConditionalBlock, if_pos (succ_pos _)]
    rfl

theorem Simulates.step_plain {isPlain : i.isPlain = true} {next : Tree}
    (sim : Simulates enc code vm (.run (.plain i isPlain next) :: work) m) :
    ∃ vm', vm.step env = some vm' ∧
      Simulates enc code vm' (.run next :: work) (perform env i.opcode m) := by
  obtain ⟨⟨place, _, state, placed, loops, after, rfl, located⟩, rfl⟩ := sim
  obtain ⟨noLoop, notConditional⟩ := plain_noLoop isPlain
  refine ⟨_, step_at state placed.there, ?_⟩
  rw [notConditional, enc.asRead_of_noLoop i noLoop, executeOpcode_plain isPlain]
  exact ⟨⟨_, _, rfl, placed.next, loops, after, rfl, located⟩, rfl⟩

variable {conditional : c.isConditional = true}

variable (env) in
theorem Simulates.step_block {body next : Tree}
    (sim : Simulates enc code vm (.run (.block c conditional body next) :: work) m) :
    ∃ vm', vm.step env = some vm' ∧
      Simulates enc code vm'
        (if (conditionMet env c.opcode m).1 then .run body :: .leave :: .run next :: work
          else .run next :: work)
        (conditionMet env c.opcode m).2 := by
  obtain ⟨⟨place, _, state, placed, loops, after, rfl, located⟩, rfl⟩ := sim
  simp only [Tree.listing, cons_append, append_assoc] at placed
  refine ⟨_, step_conditional conditional state placed.there, ?_⟩
  have nextLocated : Located enc code vm.loopTops (.run next :: work) vm.conditionDepth
      (next.listing vm.conditionDepth ++ after) := ⟨loops.2, after, rfl, located⟩
  split
  · exact ⟨⟨_, _, rfl, placed.next, loops.1, _, rfl, _, _, rfl, nextLocated, .inl rfl⟩, rfl⟩
  · rw [skipWhile_toEnd body placed.there.next]
    exact ⟨⟨_, _, rfl, placed.next.drop.next, nextLocated⟩, rfl⟩

variable (env) in
theorem Simulates.step_blockElse {body otherwise next : Tree}
    (sim : Simulates enc code vm (.run (.blockElse c conditional body otherwise next) :: work) m) :
    ∃ vm', vm.step env = some vm' ∧
      Simulates enc code vm'
        (.run (if (conditionMet env c.opcode m).1 then body else otherwise) :: .leave ::
          .run next :: work)
        (conditionMet env c.opcode m).2 := by
  obtain ⟨⟨place, _, state, placed, loops, after, rfl, located⟩, rfl⟩ := sim
  simp only [Tree.listing, cons_append, append_assoc] at placed
  refine ⟨_, step_conditional conditional state placed.there, ?_⟩
  have nextLocated : Located enc code vm.loopTops (.run next :: work) vm.conditionDepth
      (next.listing vm.conditionDepth ++ after) := ⟨loops.2.2, after, rfl, located⟩
  split
  · exact ⟨⟨_, _, rfl, placed.next, loops.1, _, rfl, _, _, rfl, nextLocated,
      .inr ⟨otherwise, rfl⟩⟩, rfl⟩
  · -- Skipping stops at the `Else`, still inside the block.
    rw [skipWhile_toElse body placed.there.next]
    exact ⟨⟨_, _, rfl, placed.next.drop.next, loops.2.1, _, rfl, _, _, rfl, nextLocated, .inl rfl⟩,
      rfl⟩

theorem Simulates.step_leave (sim : Simulates enc code vm (.leave :: work) m) :
    ∃ vm', vm.step env = some vm' ∧ Simulates enc code vm' work m := by
  obtain ⟨⟨place, rest, state, placed, outer, after, depthEq, located, closes⟩, rfl⟩ := sim
  rcases closes with rfl | ⟨otherwise, rfl⟩
  · refine ⟨_, step_at state placed.there, ?_⟩
    rw [enc.asRead_of_noLoop _ rfl]
    refine ⟨⟨_, _, rfl, placed.next, ?_⟩, rfl⟩
    show Located enc code vm.loopTops work (vm.conditionDepth - 1) after
    rw [depthEq]
    exact located
  · refine ⟨_, step_at state placed.there, ?_⟩
    rw [enc.asRead_of_noLoop _ rfl]
    show Simulates enc code (skipConditionalBlock false { vm with state := _ }) work vm.machine
    rw [depthEq] at placed
    rw [skipConditionalBlock, if_pos (by rw [depthEq]; exact succ_pos outer)]
    dsimp only
    rw [depthEq, Nat.add_sub_cancel, skipWhile_toEnd otherwise placed.there.next]
    exact ⟨⟨_, _, rfl, placed.next.drop.next, located⟩, rfl⟩

theorem Simulates.step_loop {r : Digit} {n : Word} {body next : Tree}
    (sim : Simulates enc code vm (.run (.loop r n body next) :: work) m)
    (readable : enc.ReadsLoop r) : ∃ vm', vm.step env = some vm' ∧
      Simulates enc code vm' (.run body :: .again r body :: .run next :: work)
        { m with registers := store m.registers r.index (n.setWidth 64) } := by
  obtain ⟨⟨place, _, state, placed, loops, after, rfl, located⟩, rfl⟩ := sim
  obtain ⟨notOpen, bodyLoops, nextLoops⟩ := loops
  simp only [Tree.listing, cons_append, append_assoc] at placed
  refine ⟨_, step_at state placed.there, ?_⟩
  rw [readable.1 n]
  refine ⟨⟨_, _, rfl, placed.next, bodyLoops, _, rfl, notOpen, bodyLoops, ?_, _, rfl, nextLoops,
    after, rfl, ?_⟩, rfl⟩
  · show enc.Placed code (store vm.loopTops r.index _ r.index) _
    rw [store, if_pos rfl]
    exact placed.next
  · exact located.store_top work notOpen

variable (env) in
theorem Simulates.step_again {r : Digit} {body : Tree}
    (sim : Simulates enc code vm (.again r body :: work) m)
    (readable : enc.ReadsLoop r) :
    let registers := store m.registers r.index (m.registers r.index - 1)
    ∃ vm', vm.step env = some vm' ∧
      Simulates enc code vm' (if registers r.index ≠ 0 then .run body :: .again r body :: work
        else work)
        { m with registers } := by
  obtain ⟨⟨place, _, state, placed, notOpen, bodyLoops, top, after, rfl, located⟩, rfl⟩ := sim
  refine ⟨_, step_at state placed.there, ?_⟩
  rw [readable.2]
  show Simulates enc code (executeControlLoop ⟨false, r.index, 0⟩ { vm with state := _ }) _ _
  rw [executeControlLoop, if_neg Bool.false_ne_true]
  dsimp only
  split
  · exact ⟨⟨_, _, rfl, top, bodyLoops, _, rfl, notOpen, bodyLoops, top, after, rfl, located⟩, rfl⟩
  · exact ⟨⟨_, _, rfl, placed.next, located⟩, rfl⟩

variable (env) in
/-- One round of the VM is one step of the structured reading. -/
theorem Simulates.step (work : List Work) (sim : Simulates enc code vm work m)
    (readable : ∀ r, nextLoopRegister? work = some r → enc.ReadsLoop r) :
    match structuredStep env work m with
    | none => vm.step env = none
    | some now => ∃ vm', vm.step env = some vm' ∧ Simulates enc code vm' now.1 now.2 := by
  induction work with
  | nil =>
    obtain ⟨⟨place, rest, state, placed, -, rfl⟩, -⟩ := sim
    rw [structuredStep]
    dsimp only
    have ended := placed.there.finished
    rw [← state] at ended
    unfold DmntCheatVm.step
    split
    · rfl
    · rename_i opcode state' decoded
      rw [decoded] at ended
      exact absurd ended (Option.some_ne_none _)
  | cons item work ih =>
    cases item with
    | leave => exact sim.step_leave
    | again r body =>
      have stepped := sim.step_again env (readable r rfl)
      rw [structuredStep]
      dsimp only at stepped ⊢
      by_cases nonzero : store m.registers r.index (m.registers r.index - 1) r.index ≠ 0
      · rw [if_pos nonzero] at stepped ⊢
        exact stepped
      · rw [if_neg nonzero] at stepped ⊢
        exact stepped
    | run t =>
      cases t with
      | done =>
        obtain ⟨⟨place, rest, state, placed, -, after, rfl, located⟩, machine⟩ := sim
        exact ih ⟨⟨place, _, state, placed, located⟩, machine⟩ readable
      | plain i isPlain next => exact sim.step_plain
      | block c conditional body next =>
        have stepped := sim.step_block env
        rw [structuredStep]
        cases met : (conditionMet env c.opcode m).1 <;>
          simp only [met, if_true, false_eq_true, if_false] at stepped ⊢
        all_goals exact stepped
      | blockElse c conditional body otherwise next =>
        have stepped := sim.step_blockElse env
        rw [structuredStep]
        cases met : (conditionMet env c.opcode m).1 <;>
          simp only [met, if_true, false_eq_true, if_false] at stepped ⊢
        all_goals exact stepped
      | loop r n body next => exact sim.step_loop (readable r rfl)

/-- An instruction that is executed is inside as many blocks as the VM counts. -/
theorem Simulates.staticDepth (work : List Work) (sim : Simulates enc code vm work m)
    (goesOn : structuredStep env work m ≠ none) :
    enc.staticDepth code vm.state.instructionPtr = some vm.conditionDepth := by
  induction work with
  | nil => exact absurd rfl goesOn
  | cons item work ih =>
    obtain ⟨⟨place, rest, state, placed, located⟩, machine⟩ := sim
    cases item with
    | leave =>
      obtain ⟨outer, after, -, -, rfl | ⟨otherwise, rfl⟩⟩ := located
      all_goals
        rw [state]
        exact placed.staticDepth
    | again r body =>
      obtain ⟨-, -, -, after, rfl, -⟩ := located
      rw [state]
      exact placed.staticDepth
    | run t =>
      obtain ⟨-, after, rfl, located⟩ := located
      cases t with
      | done => exact ih ⟨⟨place, _, state, placed, located⟩, machine⟩ goesOn
      | plain | block | blockElse | loop =>
        rw [state]
        exact placed.staticDepth

end Step

/-! ## Whole runs -/

section Runs

variable {M : Type} (env : Environment M)

/-- The VM and the structured reading of a tree agree: both have come to their end, or they have the
same machine and what is executed next, if anything is, is inside as many blocks as the VM
counts. -/
def Agree (enc : Encoding) (t : Tree) : Option (DmntCheatVm M) → Option (List Work × Machine M) →
    Prop
  | none, none => True
  | some vm, some (work, m) =>
    vm.machine = m ∧
    (structuredStep env work m ≠ none →
      enc.staticDepth (t.listing 0) vm.state.instructionPtr = some vm.conditionDepth)
  | _, _ => False

/-- In the first steps of the structured reading, every loop instruction that is executed is on a
register with this property. -/
def LoopsOn (p : Digit → Prop) (t : Tree) (m : Machine M) (n : Nat) : Prop :=
  ∀ j < n, ∀ now, structuredRun env t m j = some now → ∀ r, nextLoopRegister? now.1 = some r → p r

variable {env}

/-- As long as only loops are executed that are read as they are meant, the VM does what the tree
does. -/
theorem execute_agrees (enc : Encoding) (t : Tree) (distinct : t.DistinctLoops [])
    (vm : DmntCheatVm M)
    (loaded : vm.state.program = t.words enc) (n : Nat)
    (readable : LoopsOn env enc.ReadsLoop t (resetState vm).machine n) :
    Agree env enc t (execute env vm n) (structuredRun env t (resetState vm).machine n) := by
  have simulated : Option.Rel (fun vm now => Simulates enc (t.listing 0) vm now.1 now.2)
    (execute env vm n) (structuredRun env t (resetState vm).machine n) := by
    induction n with
    | zero =>
      refine .some ⟨⟨0, t.listing 0, ?_, ⟨[], rfl, rfl⟩, distinct, [], (append_nil _).symm, rfl,
        rfl⟩, rfl⟩
      show ProgramState.mk vm.state.program 0 true = _
      rw [loaded, Tree.words]
    | succ n ih =>
      have before := ih fun j lt => readable j (lt_succ_of_lt lt)
      rw [execute, structuredRun]
      cases vmNow : execute env vm n with
      | none =>
        cases structuredNow : structuredRun env t (resetState vm).machine n with
        | none => exact .none
        | some now =>
          rw [vmNow, structuredNow] at before
          cases before
      | some vmNow' =>
        cases structuredNow : structuredRun env t (resetState vm).machine n with
        | none =>
          rw [vmNow, structuredNow] at before
          cases before
        | some now =>
          rw [vmNow, structuredNow, Option.rel_some_some] at before
          have stepped := Simulates.step env now.1 before
            (readable n (lt_succ_self n) now structuredNow)
          rw [Option.bind_some, Option.bind_some]
          cases next : structuredStep env now.1 now.2 with
          | none =>
            rw [next] at stepped
            dsimp only at stepped
            rw [stepped]
            exact .none
          | some now' =>
            rw [next] at stepped
            obtain ⟨vm', vmStep, sim⟩ := stepped
            rw [vmStep]
            exact .some sim
  cases vmNow : execute env vm n with
  | none =>
    cases structuredNow : structuredRun env t (resetState vm).machine n with
    | none => trivial
    | some now =>
      rw [vmNow, structuredNow] at simulated
      cases simulated
  | some vmNow' =>
    cases structuredNow : structuredRun env t (resetState vm).machine n with
    | none =>
      rw [vmNow, structuredNow] at simulated
      cases simulated
    | some now =>
      rw [vmNow, structuredNow, Option.rel_some_some] at simulated
      exact ⟨simulated.machine, simulated.staticDepth now.1⟩

/-- On the documented encoding of a tree, the VM does what the tree does as long as the loops that
are executed are on register `0`. -/
theorem execute_documented (t : Tree) (distinct : t.DistinctLoops []) (vm : DmntCheatVm M)
    (loaded : vm.state.program = t.words .documented) (n : Nat)
    (onZero : LoopsOn env (fun r => r = 0) t (resetState vm).machine n) :
    Agree env .documented t (execute env vm n) (structuredRun env t (resetState vm).machine n) := by
  refine execute_agrees .documented t distinct vm loaded n ?_
  intro j lt now eq r next
  obtain rfl := onZero j lt now eq r next
  exact ⟨fun _ => rfl, rfl⟩

end Runs

/-- A process without memory, for runs on fixed programs. -/
def quietEnvironment : Environment Unit where
  metadata := ⟨0, 0, 0, 0⟩
  kDown := 0
  memoryReadUnsafe _ _ _ := 0
  memoryWriteUnsafe m _ _ _ := m
  overlongLeftShift _ _ := 0
  overlongRightShift _ _ := 0

/-- The machine before a program. -/
def startOf (program : List Word) : DmntCheatVm Unit where
  state := { program }
  conditionDepth := 0
  loopTops _ := 0
  machine := ⟨fun _ => 0, fun _ => 0, fun _ => 0, (), []⟩

/-- Two rounds that add one to a register as the key of their condition is not held, and an
instruction behind them. -/
def countRounds : Tree :=
  .loop 0 2
    (.blockElse (.beginKeypressConditional 1) rfl (.plain (.loadRegisterStatic 1 7) rfl .done)
      (.plain (.performArithmeticStatic 8 2 0 1) rfl .done) .done)
    (.plain (.loadRegisterStatic 3 9) rfl .done)

/-- The run ends after ten steps, with two rounds counted. -/
theorem execute_documented_countRounds :
    let vm := startOf (countRounds.words .documented)
    let read := structuredRun quietEnvironment countRounds (resetState vm).machine
    (read 10).map (fun now => (now.2.registers 2, now.2.registers 3)) = some (2, 9) ∧
    read 11 = none ∧
      ∀ n ≤ 11, Agree quietEnvironment .documented countRounds (execute quietEnvironment vm n)
      (read n) := by
  have loops : ∀ j < 11, ((structuredRun quietEnvironment countRounds
      (resetState (startOf (countRounds.words .documented))).machine j).bind fun now =>
        nextLoopRegister? now.1).all (· = 0) = true := by decide
  refine ⟨by decide, rfl, fun n few => ?_⟩
  refine execute_documented countRounds ⟨not_mem_nil, ⟨trivial, trivial, trivial⟩, trivial⟩ _ rfl n
    ?_
  intro j lt now eq r next
  have onZero := loops j (lt_of_lt_of_le lt few)
  rw [eq, Option.bind_some, next] at onZero
  exact of_decide_eq_true onZero

/-- A loop of two rounds with nothing inside, on a register. -/
def emptyLoop (r : Digit) : Tree := .loop r 2 .done .done

/-- The documented loop on register `1` counts in register `0`. -/
theorem execute_emptyLoop_disagrees :
    ¬ ∀ n, Agree quietEnvironment .documented (emptyLoop 1)
      (execute quietEnvironment (startOf ((emptyLoop 1).words .documented)) n)
      (structuredRun quietEnvironment (emptyLoop 1)
        (resetState (startOf ((emptyLoop 1).words .documented))).machine n) := by
  intro agree
  have registers := congrArg (fun m => m.registers 1) (agree 1).1
  exact absurd registers (by decide)

end SumiEmu.Memory
