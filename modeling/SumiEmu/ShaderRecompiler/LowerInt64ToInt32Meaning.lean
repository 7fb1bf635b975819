/-
# The meaning of emitted instructions

A value is evaluated by following the operands of the instruction that it refers to. A shift by an
amount that is no position of the word, and a bit field that leaves it, yield an arbitrary word, one
for each instruction. The rules below say what the value of each emitted instruction is in the list
that emission ends with, so that a fact about a value is stated once and holds from then on.
-/

import SumiEmu.ShaderRecompiler.LowerInt64ToInt32

namespace SumiEmu.ShaderRecompiler.LowerInt64ToInt32

open Option

open SumiEmu.WordHalves (carry)

/-! ## Evaluation -/

/-- A value at run time. -/
inductive Datum
  | u1 (value : Bool)
  | u32 (value : BitVec 32)
  | u32x2 (lo hi : BitVec 32)
  | u64 (value : BitVec 64)
  deriving DecidableEq

/-- What an instruction leaves: its value, and for an addition the carry that a pseudo-operation can
ask for. -/
structure Outcome where
  datum : Datum
  carry : Option Bool
  deriving DecidableEq

/-- The values of the instructions that were there before, and the arbitrary words. -/
structure Context where
  u1 : Nat → Bool
  u32 : Nat → BitVec 32
  u32x2 : Nat → BitVec 32 × BitVec 32
  u64 : Nat → BitVec 64
  undefined : Nat → BitVec 32

/-- The value of a given operand. -/
def Context.given (ctx : Context) : ValueType → Nat → Datum
  | .u1, index => .u1 (ctx.u1 index)
  | .u32, index => .u32 (ctx.u32 index)
  | .u32x2, index => .u32x2 (ctx.u32x2 index).1 (ctx.u32x2 index).2
  | .u64, index => .u64 (ctx.u64 index)

/-- The field of `count` bits from `offset`, at the bottom of a word. -/
def fieldExtract (base : BitVec 32) (offset count : Nat) : BitVec 32 :=
  (base.extractLsb' offset count).setWidth 32

/-- The word with the field of `count` bits from `offset` replaced. -/
def fieldInsert (base insert : BitVec 32) (offset count : Nat) : BitVec 32 :=
  let mask := (BitVec.allOnes count).setWidth 32 <<< offset
  (base &&& ~~~mask) ||| (insert <<< offset &&& mask)

/-- The operation on words, with the arbitrary word it may yield. -/
def wordOperation (arbitrary : BitVec 32) : Opcode → List Datum → Option Datum
  | .compositeConstructU32x2, [.u32 lo, .u32 hi] => some (.u32x2 lo hi)
  | .compositeExtractU32x2, [.u32x2 lo hi, .u32 element] =>
    if element = 0 then some (.u32 lo) else if element = 1 then some (.u32 hi) else none
  | .selectU32, [.u1 condition, .u32 trueValue, .u32 falseValue] =>
    some (.u32 (bif condition then trueValue else falseValue))
  | .iAdd32, [.u32 a, .u32 b] => some (.u32 (a + b))
  | .iSub32, [.u32 a, .u32 b] => some (.u32 (a - b))
  | .bitwiseNot32, [.u32 value] => some (.u32 (~~~value))
  | .bitwiseOr32, [.u32 a, .u32 b] => some (.u32 (a ||| b))
  | .shiftLeftLogical32, [.u32 base, .u32 shift] =>
    some (.u32 (if shift.toNat < 32 then base <<< shift.toNat else arbitrary))
  | .shiftRightLogical32, [.u32 base, .u32 shift] =>
    some (.u32 (if shift.toNat < 32 then base >>> shift.toNat else arbitrary))
  | .shiftRightArithmetic32, [.u32 base, .u32 shift] =>
    some (.u32 (if shift.toNat < 32 then base.sshiftRight shift.toNat else arbitrary))
  | .bitFieldUExtract, [.u32 base, .u32 offset, .u32 count] =>
    some (.u32 (if offset.toNat + count.toNat ≤ 32 then
      fieldExtract base offset.toNat count.toNat else arbitrary))
  | .bitFieldInsert, [.u32 base, .u32 insert, .u32 offset, .u32 count] =>
    some (.u32 (if offset.toNat + count.toNat ≤ 32 then
      fieldInsert base insert offset.toNat count.toNat else arbitrary))
  | .iEqual, [.u32 lhs, .u32 rhs] => some (.u1 (lhs == rhs))
  | .uGreaterThan, [.u32 lhs, .u32 rhs] => some (.u1 (rhs.ult lhs))
  | .sGreaterThanEqual, [.u32 lhs, .u32 rhs] => some (.u1 (rhs.sle lhs))
  | _, _ => none

/-- Only an addition leaves a carry. -/
def carryOf : Opcode → List Datum → Option Bool
  | .iAdd32, [.u32 a, .u32 b] => some (carry a b)
  | _, _ => none

/-- What an instruction computes. -/
def operation (arbitrary : BitVec 32) (op : Opcode) (args : List Outcome) : Option Outcome :=
  match op, args with
  | .getCarryFromOp, [sum] => sum.carry.map (fun bit => ⟨.u1 bit, none⟩)
  | op, args =>
    let data := args.map Outcome.datum
    (wordOperation arbitrary op data).map (fun datum => ⟨datum, carryOf op data⟩)

/-- The outcome of a value, following at most `fuel` instructions one from the other. -/
def evaluate (ctx : Context) (insts : List Inst) : Nat → Value → Option Outcome
  | _, .imm32 value => some ⟨.u32 value, none⟩
  | _, .imm64 value => some ⟨.u64 value, none⟩
  | _, .given type index => some ⟨ctx.given type index, none⟩
  | 0, .inst _ => none
  | fuel + 1, .inst index => do
    let inst ← insts[index]?
    let args ← inst.args.mapM (evaluate ctx insts fuel)
    operation (ctx.undefined index) inst.op args

/-- The value has the outcome. -/
def Computes (ctx : Context) (insts : List Inst) (value : Value) (outcome : Outcome) : Prop :=
  ∃ fuel, evaluate ctx insts fuel value = some outcome

/-- The value has the datum, whatever else its instruction leaves. -/
def Has (ctx : Context) (insts : List Inst) (value : Value) (datum : Datum) : Prop :=
  ∃ carry, Computes ctx insts value ⟨datum, carry⟩

variable {ctx : Context} {insts : List Inst} {value a b : Value} {outcome : Outcome}
  {args : List Value} {op : Opcode} {index : Nat}

/-! ## More fuel changes nothing -/

theorem mapM_mono {α β : Type*} {f g : α → Option β}
    (more : ∀ x y, f x = some y → g x = some y) :
    ∀ {xs : List α} {ys : List β}, xs.mapM f = some ys → xs.mapM g = some ys
  | [], _, done => done
  | x :: xs, ys, done => by
    rw [List.mapM_cons] at done ⊢
    obtain ⟨y, head, rest⟩ := bind_eq_some_iff.1 done
    obtain ⟨zs, tail, whole⟩ := bind_eq_some_iff.1 rest
    rw [more x y head, bind_eq_bind, bind_some, mapM_mono more tail]
    exact whole

theorem evaluate_succ : ∀ {fuel : Nat} {value : Value} {outcome : Outcome},
    evaluate ctx insts fuel value = some outcome →
    evaluate ctx insts (fuel + 1) value = some outcome
  | _, .imm32 _, _, done | _, .imm64 _, _, done | _, .given _ _, _, done => by
    rw [← done, evaluate, evaluate]
  | 0, .inst _, _, done => by
    rw [evaluate] at done
    contradiction
  | fuel + 1, .inst index, outcome, done => by
    rw [evaluate] at done ⊢
    obtain ⟨inst, found, rest⟩ := bind_eq_some_iff.1 done
    obtain ⟨outcomes, operands, result⟩ := bind_eq_some_iff.1 rest
    rw [found, bind_eq_bind, bind_some,
      mapM_mono (fun _ _ => evaluate_succ) operands]
    exact result

theorem evaluate_mono {fuel more : Nat} (enough : fuel ≤ more)
    (done : evaluate ctx insts fuel value = some outcome) :
    evaluate ctx insts more value = some outcome := by
  induction more, enough using Nat.le_induction with
  | base => exact done
  | succ more _ ih => exact evaluate_succ ih

variable {outcomes : List Outcome}

/-- Operands with outcomes have them with one fuel. -/
theorem operands_evaluate (operands : List.Forall₂ (Computes ctx insts) args outcomes) :
    ∃ fuel, args.mapM (evaluate ctx insts fuel) = some outcomes := by
  induction operands with
  | nil => exact ⟨0, rfl⟩
  | cons head tail ih =>
    obtain ⟨fuel, first⟩ := head
    obtain ⟨fuel', others⟩ := ih
    refine ⟨max fuel fuel', ?_⟩
    rw [List.mapM_cons, evaluate_mono (Nat.le_max_left fuel fuel') first, bind_eq_bind,
      bind_some,
      mapM_mono (fun _ _ => evaluate_mono (Nat.le_max_right fuel fuel')) others]
    rfl

theorem Computes.inst (found : insts[index]? = some ⟨op, args⟩)
    (operands : List.Forall₂ (Computes ctx insts) args outcomes)
    (result : operation (ctx.undefined index) op outcomes = some outcome) :
    Computes ctx insts (.inst index) outcome := by
  obtain ⟨fuel, evaluated⟩ := operands_evaluate operands
  refine ⟨fuel + 1, ?_⟩
  rw [evaluate, found, bind_eq_bind, bind_some, evaluated]
  exact result

/-! ## What emission establishes -/

/-- In every list of instructions that the emission's list grows into, the computation has returned
a value with the property. -/
def Emits {α : Type} (insts : List Inst) (m : Emitter α) (post : α → Prop) : Prop :=
  ∀ before, (m.run before).2 <+: insts → ∃ a, (m.run before).1 = .ok a ∧ post a

theorem Emits.pure {α : Type} {post : α → Prop} {a : α} (holds : post a) :
    Emits insts (Pure.pure a) post :=
  fun _ _ => ⟨a, rfl, holds⟩

theorem Emits.bind {α β : Type} {m : Emitter α} {next : α → Emitter β} {mid : α → Prop}
    {post : β → Prop} (first : Emits insts m mid)
    (second : ∀ a, mid a → Emits insts (next a) post) : Emits insts (m >>= next) post := by
  intro before grows
  rw [Emitter.run_bind] at grows ⊢
  obtain ⟨a, returned, holds⟩ := first before ((Emitter.resume_appends next _).trans grows)
  have runs : m.run before = (.ok a, (m.run before).2) := Prod.ext returned rfl
  rw [runs] at grows ⊢
  exact second a holds (m.run before).2 grows

theorem emits_emit : Emits insts (emit op args)
    (fun value => ∃ index, value = .inst index ∧ insts[index]? = some ⟨op, args⟩) := by
  intro before grows
  refine ⟨.inst before.length, rfl, before.length, rfl, ?_⟩
  obtain ⟨rest, rfl⟩ := grows
  change ((before ++ [⟨op, args⟩]) ++ rest)[before.length]? = _
  rw [List.append_assoc, List.getElem?_append_right (Nat.le_refl _), Nat.sub_self]
  rfl

variable {data : List Datum}

/-- An operand with a datum is one with an outcome that has the datum. -/
theorem outcomes_of_data (operands : List.Forall₂ (Has ctx insts) args data) :
    ∃ outcomes, List.Forall₂ (Computes ctx insts) args outcomes ∧
      outcomes.map Outcome.datum = data := by
  induction operands with
  | nil => exact ⟨[], .nil, rfl⟩
  | cons head tail ih =>
    obtain ⟨carry, first⟩ := head
    obtain ⟨outcomes, others, data⟩ := ih
    exact ⟨⟨_, carry⟩ :: outcomes, .cons first others, by rw [List.map_cons, data]⟩

/-- An operation on words, other than the pseudo-operation, works on the data alone. -/
theorem operation_eq {arbitrary : BitVec 32}
    (proper : op ≠ .getCarryFromOp) : operation arbitrary op outcomes =
      (wordOperation arbitrary op (outcomes.map Outcome.datum)).map
        (fun datum => ⟨datum, carryOf op (outcomes.map Outcome.datum)⟩) := by
  unfold operation
  split
  · exact absurd rfl proper
  · rfl

/-- The outcome of an emitted operation, for some arbitrary word. -/
theorem emits_outcome {result : BitVec 32 → Datum}
    (proper : op ≠ .getCarryFromOp) (operands : List.Forall₂ (Has ctx insts) args data)
    (defined : ∀ arbitrary, wordOperation arbitrary op data = some (result arbitrary)) :
    Emits insts (emit op args) (fun value => ∃ arbitrary,
      Computes ctx insts value ⟨result arbitrary, carryOf op data⟩) := by
  intro before grows
  obtain ⟨value, returned, index, rfl, found⟩ := emits_emit before grows
  obtain ⟨outcomes, computed, rfl⟩ := outcomes_of_data operands
  refine ⟨.inst index, returned, ctx.undefined index, Computes.inst found computed ?_⟩
  rw [operation_eq proper, defined]
  rfl

theorem Emits.weaken {α : Type} {m : Emitter α} {post post' : α → Prop}
    (first : Emits insts m post) (weaker : ∀ a, post a → post' a) : Emits insts m post' := by
  intro before grows
  obtain ⟨a, returned, holds⟩ := first before grows
  exact ⟨a, returned, weaker a holds⟩

/-- An operation that is defined on all its operands. -/
theorem emits_datum {result : Datum} (proper : op ≠ .getCarryFromOp)
    (operands : List.Forall₂ (Has ctx insts) args data)
    (defined : ∀ arbitrary, wordOperation arbitrary op data = some result) :
    Emits insts (emit op args) (fun value => Has ctx insts value result) :=
  (emits_outcome proper operands defined).weaken (fun _ ⟨_, computed⟩ => ⟨_, computed⟩)

/-! ## The operations of the emitter -/

namespace IREmitter

variable {c : Value} {x y z n m : BitVec 32} {bit : Bool}

theorem has_imm32 : Has ctx insts (.imm32 x) (.u32 x) := ⟨none, 0, by rw [evaluate]⟩

theorem compositeConstruct_emits (lo : Has ctx insts a (.u32 x)) (hi : Has ctx insts b (.u32 y)) :
    Emits insts (compositeConstruct a b) (fun value => Has ctx insts value (.u32x2 x y)) :=
  emits_datum (by decide) (.cons lo (.cons hi .nil)) (fun _ => rfl)

theorem iadd_emits (first : Has ctx insts a (.u32 x)) (second : Has ctx insts b (.u32 y)) :
    Emits insts (iadd a b)
      (fun value => Computes ctx insts value ⟨.u32 (x + y), some (carry x y)⟩) :=
  (emits_outcome (by decide) (.cons first (.cons second .nil)) (fun _ => rfl)).weaken
    (fun _ ⟨_, computed⟩ => computed)

theorem isub_emits (first : Has ctx insts a (.u32 x)) (second : Has ctx insts b (.u32 y)) :
    Emits insts (isub a b) (fun value => Has ctx insts value (.u32 (x - y))) :=
  emits_datum (by decide) (.cons first (.cons second .nil)) (fun _ => rfl)

theorem bitwiseNot_emits (operand : Has ctx insts a (.u32 x)) :
    Emits insts (bitwiseNot a) (fun value => Has ctx insts value (.u32 (~~~x))) :=
  emits_datum (by decide) (.cons operand .nil) (fun _ => rfl)

theorem bitwiseOr_emits (first : Has ctx insts a (.u32 x)) (second : Has ctx insts b (.u32 y)) :
    Emits insts (bitwiseOr a b) (fun value => Has ctx insts value (.u32 (x ||| y))) :=
  emits_datum (by decide) (.cons first (.cons second .nil)) (fun _ => rfl)

theorem igreaterThan_emits (lhs : Has ctx insts a (.u32 x)) (rhs : Has ctx insts b (.u32 y)) :
    Emits insts (igreaterThan a b) (fun value => Has ctx insts value (.u1 (y.ult x))) :=
  emits_datum (by decide) (.cons lhs (.cons rhs .nil)) (fun _ => rfl)

theorem igreaterThanEqual_emits (lhs : Has ctx insts a (.u32 x))
    (rhs : Has ctx insts b (.u32 y)) :
    Emits insts (igreaterThanEqual a b) (fun value => Has ctx insts value (.u1 (y.sle x))) :=
  emits_datum (by decide) (.cons lhs (.cons rhs .nil)) (fun _ => rfl)

theorem iequal_emits (lhs : Has ctx insts a (.u32 x)) (rhs : Has ctx insts b (.u32 y)) :
    Emits insts (iequal a b) (fun value => Has ctx insts value (.u1 (x == y))) :=
  emits_datum (by decide) (.cons lhs (.cons rhs .nil)) (fun _ => rfl)

theorem select_emits (condition : Has ctx insts c (.u1 bit)) (whenTrue : Has ctx insts a (.u32 x))
    (whenFalse : Has ctx insts b (.u32 y)) :
    Emits insts (select c a b) (fun value => Has ctx insts value (.u32 (bif bit then x else y))) :=
  emits_datum (by decide) (.cons condition (.cons whenTrue (.cons whenFalse .nil))) (fun _ => rfl)

theorem getCarryFromOp_emits (sum : Computes ctx insts a ⟨.u32 x, some bit⟩) :
    Emits insts (getCarryFromOp a) (fun value => Has ctx insts value (.u1 bit)) := by
  refine emits_emit.weaken ?_
  rintro value ⟨index, rfl, found⟩
  exact ⟨none, Computes.inst found (.cons sum .nil) rfl⟩

/-! A shift or a bit field yields some word, which is the one meant where the amounts are inside. -/

section

variable (base : Has ctx insts a (.u32 x))

include base

theorem shiftLeftLogical_emits (shift : Has ctx insts b (.u32 n)) :
    Emits insts (shiftLeftLogical a b) (fun value => ∃ r, Has ctx insts value (.u32 r) ∧
      (n.toNat < 32 → r = x <<< n.toNat)) :=
  (emits_outcome (by decide) (.cons base (.cons shift .nil)) (fun _ => rfl)).weaken
    (fun _ ⟨_, computed⟩ => ⟨_, ⟨_, computed⟩, fun inside => if_pos inside⟩)

theorem shiftRightLogical_emits (shift : Has ctx insts b (.u32 n)) :
    Emits insts (shiftRightLogical a b) (fun value => ∃ r, Has ctx insts value (.u32 r) ∧
      (n.toNat < 32 → r = x >>> n.toNat)) :=
  (emits_outcome (by decide) (.cons base (.cons shift .nil)) (fun _ => rfl)).weaken
    (fun _ ⟨_, computed⟩ => ⟨_, ⟨_, computed⟩, fun inside => if_pos inside⟩)

theorem shiftRightArithmetic_emits (shift : Has ctx insts b (.u32 n)) :
    Emits insts (shiftRightArithmetic a b) (fun value => ∃ r, Has ctx insts value (.u32 r) ∧
      (n.toNat < 32 → r = x.sshiftRight n.toNat)) :=
  (emits_outcome (by decide) (.cons base (.cons shift .nil)) (fun _ => rfl)).weaken
    (fun _ ⟨_, computed⟩ => ⟨_, ⟨_, computed⟩, fun inside => if_pos inside⟩)

theorem bitFieldExtract_emits (offset : Has ctx insts b (.u32 n))
    (count : Has ctx insts c (.u32 m)) :
    Emits insts (bitFieldExtract a b c) (fun value => ∃ r, Has ctx insts value (.u32 r) ∧
      (n.toNat + m.toNat ≤ 32 → r = fieldExtract x n.toNat m.toNat)) :=
  (emits_outcome (by decide) (.cons base (.cons offset (.cons count .nil))) (fun _ => rfl)).weaken
    (fun _ ⟨_, computed⟩ => ⟨_, ⟨_, computed⟩, fun inside => if_pos inside⟩)

theorem bitFieldInsert_emits {d : Value}
    (insert : Has ctx insts b (.u32 y)) (offset : Has ctx insts c (.u32 n))
    (count : Has ctx insts d (.u32 m)) :
    Emits insts (bitFieldInsert a b c d) (fun value => ∃ r, Has ctx insts value (.u32 r) ∧
      (n.toNat + m.toNat ≤ 32 → r = fieldInsert x y n.toNat m.toNat)) :=
  (emits_outcome (by decide) (.cons base (.cons insert (.cons offset (.cons count .nil))))
    (fun _ => rfl)).weaken
    (fun _ ⟨_, computed⟩ => ⟨_, ⟨_, computed⟩, fun inside => if_pos inside⟩)

end

end IREmitter

end SumiEmu.ShaderRecompiler.LowerInt64ToInt32
