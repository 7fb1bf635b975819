/-
# The decoder of the DMA pusher

A command list is a list of words. A header word names a method, a subchannel, a
count and a mode, and is followed by that many argument words, which may be spread
over several lists. The decoder passes the arguments of an incrementing command on
one by one, and those of a non-incrementing command in batches that end with the
list at the latest.

The counts and methods stay far below the range of their types, so they are
naturals. The engines that the calls go to are left out, other than the mask that
says which methods they run at once. It is the same for a whole run, so a method of
the puller that binds another engine does not change it.
-/

import Mathlib.Data.BitVec
import SumiEmu.Foundations.Transducer

namespace SumiEmu.VideoCore

open Transducer

/-- `CommandHeader`. -/
abbrev CommandHeader := BitVec 32

/-- `SubmissionMode`. -/
inductive SubmissionMode
  | increasingOld
  | increasing
  | nonIncreasingOld
  | nonIncreasing
  | inline
  | increaseOnce
  deriving DecidableEq, Repr

namespace CommandHeader

variable (header : CommandHeader)

/-- Its field `method`. -/
def method : Nat := header.toNat % 2 ^ 13

/-- Its field `subchannel`. -/
def subchannel : Nat := header.toNat / 2 ^ 13 % 2 ^ 3

/-- Its field `arg_count`. -/
def argCount : Nat := header.toNat / 2 ^ 16 % 2 ^ 13

/-- Its field `method_count`. -/
def methodCount : Nat := header.toNat / 2 ^ 16 % 2 ^ 13

/-- The mode field, when its value is one of the enumeration. -/
def mode : Option SubmissionMode :=
  match header.toNat / 2 ^ 29 with
  | 0 => some .increasingOld
  | 1 => some .increasing
  | 2 => some .nonIncreasingOld
  | 3 => some .nonIncreasing
  | 4 => some .inline
  | 5 => some .increaseOnce
  | _ => none

end CommandHeader

/-- `DmaState`, with the flag `dma_increment_once` of the pusher. -/
structure DmaPusher where
  method : Nat := 0
  subchannel : Nat := 0
  methodCount : Nat := 0
  dmaGet : BitVec 64 := 0
  dmaWordOffset : BitVec 64 := 0
  nonIncrementing : Bool := false
  isLastCall : Bool := false
  dmaIncrementOnce : Bool := false

namespace DmaPusher

/-- `non_puller_methods`. -/
def nonPullerMethods : Nat := 0x40

/-- What the pusher hands to the puller, to an engine, or to the sink of an engine. -/
inductive Call
  | puller (method : Nat) (argument : BitVec 32) (subchannel methodCount : Nat)
  | pullerMulti (method subchannel : Nat) (arguments : List (BitVec 32)) (methodCount : Nat)
  | sink (subchannel method : Nat) (argument : BitVec 32)
  | engine (subchannel method : Nat) (argument : BitVec 32) (isLastCall : Bool)
      (segment : BitVec 64)
  | engineMulti (subchannel method : Nat) (arguments : List (BitVec 32)) (methodCount : Nat)
      (segment : BitVec 64)

/-- `SetState`. -/
def setState (s : DmaPusher) (header : CommandHeader) : DmaPusher :=
  { s with
    method := header.method
    subchannel := header.subchannel
    methodCount := header.methodCount }

section Decoder

variable (executionMask : Nat → Nat → Bool)

/-- `CallMethod`. -/
def callMethod (s : DmaPusher) (argument : BitVec 32) : Call :=
  if s.method < nonPullerMethods then
    .puller s.method argument s.subchannel s.methodCount
  else if executionMask s.subchannel s.method = false then
    .sink s.subchannel s.method argument
  else
    .engine s.subchannel s.method argument s.isLastCall (s.dmaGet + s.dmaWordOffset)

/-- `CallMultiMethod`. -/
def callMultiMethod (s : DmaPusher) (arguments : List (BitVec 32)) : Call :=
  if s.method < nonPullerMethods then
    .pullerMulti s.method s.subchannel arguments s.methodCount
  else
    .engineMulti s.subchannel s.method arguments s.methodCount (s.dmaGet + s.dmaWordOffset)

/-- The loop of `ProcessCommands`, from an index of the list on. -/
def processFrom (s : DmaPusher) (index : Nat) : List CommandHeader → DmaPusher × List Call
  | [] => (s, [])
  | header :: rest =>
    if s.methodCount ≠ 0 then
      let s := { s with dmaWordOffset := BitVec.ofNat 64 (index * 4 % 2 ^ 32) }
      if s.nonIncrementing then
        let size := index + (header :: rest).length
        let maxWrite := min (index + s.methodCount) size - index
        let call := s.callMultiMethod ((header :: rest).take maxWrite)
        let s := { s with methodCount := s.methodCount - maxWrite, isLastCall := true }
        let (s, calls) := processFrom s (index + maxWrite) ((header :: rest).drop maxWrite)
        (s, call :: calls)
      else
        let s := { s with isLastCall := s.methodCount ≤ 1 }
        let call := s.callMethod executionMask header
        let s := if !s.nonIncrementing then { s with method := s.method + 1 } else s
        let s := if s.dmaIncrementOnce then { s with nonIncrementing := true } else s
        let s := { s with methodCount := s.methodCount - 1 }
        let (s, calls) := processFrom s (index + 1) rest
        (s, call :: calls)
    else
      -- No command active: this is the first word of a new one.
      match header.mode with
      | some .increasing =>
        processFrom { s.setState header with nonIncrementing := false, dmaIncrementOnce := false }
          (index + 1) rest
      | some .nonIncreasing =>
        processFrom { s.setState header with nonIncrementing := true, dmaIncrementOnce := false }
          (index + 1) rest
      | some .inline =>
        let s := { s with
          method := header.method
          subchannel := header.subchannel
          dmaWordOffset := -s.dmaGet }
        let call := s.callMethod executionMask (BitVec.ofNat 32 header.argCount)
        let s := { s with nonIncrementing := true, dmaIncrementOnce := false }
        let (s, calls) := processFrom s (index + 1) rest
        (s, call :: calls)
      | some .increaseOnce =>
        processFrom { s.setState header with nonIncrementing := false, dmaIncrementOnce := true }
          (index + 1) rest
      | _ => processFrom s (index + 1) rest
termination_by l => l.length
decreasing_by
  all_goals simp only [List.length_drop, List.length_cons]
  all_goals omega

/-- `ProcessCommands`. -/
def processCommands (s : DmaPusher) (commands : List CommandHeader) : DmaPusher × List Call :=
  processFrom executionMask s 0 commands

/-- Command lists one after the other. Between them `Step` sets the segment that is
read, and `DispatchCalls` the flag for the last call. -/
def processLists (s : DmaPusher) :
    List (BitVec 64 × Bool × List CommandHeader) → DmaPusher × List Call
  | [] => (s, [])
  | (dmaGet, isLastCall, commands) :: lists =>
    let (s, calls) := processCommands executionMask { s with dmaGet, isLastCall } commands
    let (s, calls') := processLists s lists
    (s, calls ++ calls')

end Decoder

end DmaPusher

end SumiEmu.VideoCore

/-!
## What the DMA pusher decodes

The reference decoder counts how many arguments of the last header it has passed
on. The method of an argument follows from that count and the mode alone. The
pusher, which batches arguments and survives the ends of lists, delivers the same
arguments to the same methods, however the words are cut into lists.
-/

namespace SumiEmu.VideoCore.DmaPusher

open Transducer List

/-- An argument that is delivered to a method of a subchannel. -/
structure Delivery where
  subchannel : Nat
  method : Nat
  argument : BitVec 32
  deriving DecidableEq, Repr

/-- What a call delivers, one argument at a time. -/
def Call.deliveries : Call → List Delivery
  | .puller method argument subchannel _ => [⟨subchannel, method, argument⟩]
  | .pullerMulti method subchannel arguments _ => arguments.map fun a => ⟨subchannel, method, a⟩
  | .sink subchannel method argument => [⟨subchannel, method, argument⟩]
  | .engine subchannel method argument _ _ => [⟨subchannel, method, argument⟩]
  | .engineMulti subchannel method arguments _ _ => arguments.map fun a => ⟨subchannel, method, a⟩

/-- What a sequence of calls delivers. -/
def deliveries (calls : List Call) : List Delivery := calls.flatMap Call.deliveries

/-- The part of the state that decoding depends on. -/
structure Core where
  method : Nat
  subchannel : Nat
  methodCount : Nat
  nonIncrementing : Bool
  dmaIncrementOnce : Bool
  deriving DecidableEq, Repr

variable (s : DmaPusher)

/-- What the decoder keeps. -/
def core : Core :=
  ⟨s.method, s.subchannel, s.methodCount, s.nonIncrementing, s.dmaIncrementOnce⟩

/-! ## The reference decoder -/

/-- How the method moves with the arguments of a command. -/
inductive Mode
  | increasing
  | nonIncreasing
  | increaseOnce
  deriving DecidableEq, Repr

/-- How far the method has moved after some arguments. -/
def Mode.offset : Mode → Nat → Nat
  | .increasing, sent => sent
  | .nonIncreasing, _ => 0
  | .increaseOnce, sent => min sent 1

/-- The last header, and how many of its arguments were delivered. -/
structure Decoder where
  mode : Mode := .increasing
  method : Nat := 0
  subchannel : Nat := 0
  count : Nat := 0
  sent : Nat := 0

namespace Decoder

/-- A header that announces arguments. -/
def ofHeader (mode : Mode) (header : CommandHeader) : Decoder :=
  { mode
    method := header.method
    subchannel := header.subchannel
    count := header.methodCount }

/-- Read one word. -/
def step (d : Decoder) (word : CommandHeader) : Decoder × List Delivery :=
  if d.sent < d.count then
    ({ d with sent := d.sent + 1 }, [⟨d.subchannel, d.method + d.mode.offset d.sent, word⟩])
  else
    match word.mode with
    | some .increasing => (ofHeader .increasing word, [])
    | some .nonIncreasing => (ofHeader .nonIncreasing word, [])
    | some .increaseOnce => (ofHeader .increaseOnce word, [])
    | some .inline =>
      ({ mode := .nonIncreasing, method := word.method, subchannel := word.subchannel },
        [⟨word.subchannel, word.method, BitVec.ofNat 32 word.argCount⟩])
    | _ => (d, [])

/-- The state of the pusher that a state of the reference decoder stands for. -/
def core (d : Decoder) : Core where
  method := d.method + d.mode.offset d.sent
  subchannel := d.subchannel
  methodCount := d.count - d.sent
  nonIncrementing :=
    match d.mode with
    | .increasing => false
    | .nonIncreasing => true
    | .increaseOnce => decide (0 < d.sent)
  dmaIncrementOnce := d.mode == .increaseOnce

end Decoder

/-! ## The pusher word by word -/

/-- What the pusher would do if it passed every argument on by itself. -/
def Core.step (s : Core) (word : CommandHeader) : Core × List Delivery :=
  if s.methodCount ≠ 0 then
    ({ s with
        method := if s.nonIncrementing then s.method else s.method + 1
        methodCount := s.methodCount - 1
        nonIncrementing := s.nonIncrementing || s.dmaIncrementOnce },
      [⟨s.subchannel, s.method, word⟩])
  else
    match word.mode with
    | some .increasing => (⟨word.method, word.subchannel, word.methodCount, false, false⟩, [])
    | some .nonIncreasing => (⟨word.method, word.subchannel, word.methodCount, true, false⟩, [])
    | some .increaseOnce => (⟨word.method, word.subchannel, word.methodCount, false, true⟩, [])
    | some .inline => (⟨word.method, word.subchannel, 0, true, false⟩,
        [⟨word.subchannel, word.method, BitVec.ofNat 32 word.argCount⟩])
    | _ => (s, [])

variable {e : Nat → Nat → Bool}

theorem deliveries_callMethod (argument : BitVec 32) :
    (s.callMethod e argument).deliveries = [⟨s.subchannel, s.method, argument⟩] := by
  rw [callMethod]
  split
  · rfl
  · split <;> rfl

theorem deliveries_callMultiMethod (arguments : List (BitVec 32)) :
    (s.callMultiMethod arguments).deliveries =
      arguments.map fun a => ⟨s.subchannel, s.method, a⟩ := by
  rw [callMultiMethod]
  split <;> rfl

/-- A batch is worth as many words. -/
theorem run_step_batch (c : Core) (words : List CommandHeader) (nonIncrementing : c.nonIncrementing)
    (small : words.length ≤ c.methodCount) :
    run Core.step c words = ({ c with methodCount := c.methodCount - words.length },
      words.map fun a => ⟨c.subchannel, c.method, a⟩) := by
  induction words generalizing c with
  | nil => rfl
  | cons word words ih =>
    rw [length_cons] at small
    have step : Core.step c word = ({ c with methodCount := c.methodCount - 1 },
        [⟨c.subchannel, c.method, word⟩]) := by
      rw [Core.step, if_pos (by omega), if_pos nonIncrementing, nonIncrementing, Bool.true_or]
    rw [run_cons, step, ih { c with methodCount := c.methodCount - 1 } nonIncrementing
      (by dsimp only; omega)]
    simp only [length_cons, map_cons, singleton_append, Prod.mk.injEq, and_true]
    congr 1
    omega

/-- The loop of `ProcessCommands` reads its list word by word. -/
theorem processFrom_run (index : Nat) (commands : List CommandHeader) :
    ((processFrom e s index commands).1.core,
      deliveries (processFrom e s index commands).2) =
      run Core.step s.core commands := by
  fun_induction processFrom e s index commands with
  | case1 s index => rfl
  | case2 s index header rest active s₁ nonIncrementing size maxWrite call s₂ s' calls result ih =>
    have length : ((header :: rest).take maxWrite).length = maxWrite := by
      rw [length_take]
      omega
    rw [← take_append_drop maxWrite (header :: rest), run_append,
      run_step_batch s.core _ nonIncrementing
        (by rw [length]; exact Nat.sub_le_iff_le_add'.mpr (Nat.min_le_left ..)), length]
    rw [result] at ih
    change (s'.core, deliveries (call :: calls)) =
      ((run Core.step s₂.core _).1, _ ++ (run Core.step s₂.core _).2)
    rw [← ih, deliveries, flatMap_cons, deliveries_callMultiMethod]
    rfl
  | case3 s index header rest active s₁ incrementing s₂ call s₃ s₄ s₅ s' calls result ih =>
    have incrementing : s.nonIncrementing = false := Bool.eq_false_iff.mpr incrementing
    have step : Core.step s.core header =
        (s₅.core, [⟨s.subchannel, s.method, header⟩]) := by
      rw [Core.step, if_pos (show s.core.methodCount ≠ 0 from active)]
      cases once : s.dmaIncrementOnce <;>
        simp [s₅, s₄, s₃, s₂, s₁, core, incrementing, once]
    rw [result] at ih
    rw [run_cons, step, ← ih]
    change (s'.core, deliveries (call :: calls)) = _
    rw [deliveries, flatMap_cons, deliveries_callMethod]
    rfl
  | case4 s index header rest idle mode ih | case5 s index header rest idle mode ih
  | case7 s index header rest idle mode ih =>
    rw [run_cons, Core.step, if_neg (show ¬ s.core.methodCount ≠ 0 from idle), mode]
    exact ih
  | case6 s index header rest idle mode s₁ call s₂ s' calls result ih =>
    have none : s.methodCount = 0 := not_not.mp idle
    have step : Core.step s.core header = (s₂.core,
        [⟨header.subchannel, header.method, BitVec.ofNat 32 header.argCount⟩]) := by
      rw [Core.step, if_neg (show ¬ s.core.methodCount ≠ 0 from idle), mode]
      simp [s₂, s₁, core, none]
    rw [result] at ih
    rw [run_cons, step, ← ih]
    change (s'.core, deliveries (call :: calls)) = _
    rw [deliveries, flatMap_cons, deliveries_callMethod]
    rfl
  | case8 s index header rest idle increasing nonIncreasing inline increaseOnce ih =>
    have step : Core.step s.core header = (s.core, []) := by
      rw [Core.step, if_neg (show ¬ s.core.methodCount ≠ 0 from idle)]
      cases mode : header.mode with
      | none => rfl
      | some mode' =>
        cases mode' with
        | increasing => exact (increasing mode).elim
        | nonIncreasing => exact (nonIncreasing mode).elim
        | inline => exact (inline mode).elim
        | increaseOnce => exact (increaseOnce mode).elim
        | increasingOld | nonIncreasingOld => rfl
    rw [run_cons, step]
    exact ih

/-! ## Any splitting into lists -/

theorem processLists_cons (dmaGet : BitVec 64) (isLastCall : Bool)
    (commands : List CommandHeader) (lists : List (BitVec 64 × Bool × List CommandHeader)) :
    processLists e s ((dmaGet, isLastCall, commands) :: lists) =
      ((processLists e (processCommands e { s with dmaGet, isLastCall } commands).1 lists).1,
        (processCommands e { s with dmaGet, isLastCall } commands).2 ++
          (processLists e (processCommands e { s with dmaGet, isLastCall } commands).1 lists).2) :=
  rfl

theorem processLists_run (lists : List (BitVec 64 × Bool × List CommandHeader)) :
    ((processLists e s lists).1.core, deliveries (processLists e s lists).2) =
      run Core.step s.core (lists.flatMap fun list => list.2.2) := by
  induction lists generalizing s with
  | nil => rfl
  | cons list lists ih =>
    obtain ⟨dmaGet, isLastCall, commands⟩ := list
    have first : (_, _) = run Core.step s.core commands :=
      processFrom_run (e := e) { s with dmaGet, isLastCall } 0 commands
    rw [processLists_cons, flatMap_cons, run_append, ← first, deliveries, flatMap_append]
    exact congrArg (fun r : Core × List Delivery => (r.1, _ ++ r.2))
      (ih (processCommands e { s with dmaGet, isLastCall } commands).1)

theorem Decoder.step_core (d : Decoder) (word : CommandHeader) :
    Core.step d.core word = ((d.step word).1.core, (d.step word).2) := by
  rw [Core.step, Decoder.step]
  by_cases active : d.sent < d.count
  · rw [if_pos (show d.core.methodCount ≠ 0 by change d.count - d.sent ≠ 0; omega), if_pos active]
    cases mode : d.mode with
    | increasing => simp [Decoder.core, mode, Mode.offset, Nat.add_assoc, Nat.sub_sub]
    | nonIncreasing => simp [Decoder.core, mode, Mode.offset, Nat.sub_sub]
    | increaseOnce =>
      by_cases first : d.sent = 0
      · simp [Decoder.core, mode, Mode.offset, first]
      · have later : 0 < d.sent := Nat.pos_of_ne_zero first
        simp [Decoder.core, mode, Mode.offset, later, Nat.sub_sub]
        omega
  · rw [if_neg (show ¬ d.core.methodCount ≠ 0 by change ¬ d.count - d.sent ≠ 0; omega),
      if_neg active]
    cases word.mode with
    | none => rfl
    | some mode => cases mode <;> rfl

/-- From any state, command lists deliver what their concatenation would in one list,
and leave the decoder in the same state. From the initial state, that is what the
reference decoder delivers, and the state that it stands for. -/
theorem processLists_decodes (executionMask : Nat → Nat → Bool)
    (lists : List (BitVec 64 × Bool × List CommandHeader)) :
    let words := lists.flatMap fun list => list.2.2
    (∀ s : DmaPusher,
      (processLists executionMask s lists).1.core =
          (processCommands executionMask s words).1.core ∧
        deliveries (processLists executionMask s lists).2 =
          deliveries (processCommands executionMask s words).2) ∧
      (processLists executionMask {} lists).1.core = (run Decoder.step {} words).1.core ∧
        deliveries (processLists executionMask {} lists).2 = (run Decoder.step {} words).2 := by
  intro words
  refine ⟨fun s => ?_, ?_⟩
  · have whole := processFrom_run (e := executionMask) s 0 words
    exact Prod.ext_iff.mp ((processLists_run s lists).trans whole.symm)
  · have initial : ({} : DmaPusher).core = ({} : Decoder).core := rfl
    have decoded := processLists_run (e := executionMask) {} lists
    rw [initial, run_simulates Decoder.core Decoder.step_core] at decoded
    exact Prod.ext_iff.mp decoded

example : (run Decoder.step {} [0xA0020010#32, 7, 8]).2 = [⟨0, 0x10, 7⟩, ⟨0, 0x11, 8⟩] := by decide

end SumiEmu.VideoCore.DmaPusher
