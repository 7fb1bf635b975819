/-
# The queue of one producer and one consumer

The indices run freely modulo 2^64. A step of the model is one load or store of an index, one access
to a slot, or one step on a mutex or a condition variable, of either side; a side that is asleep may
also wake up by itself. Someone else may request the consumer to stop, before a call or during it.

The history holds what has been pushed and popped, from the store of an index on, and how many
values were unread where a call that does not wait has given up.
-/

import Mathlib.Algebra.Group.Nat.Defs
import SumiEmu.Foundations.Monitor

namespace SumiEmu.Common.SPSCQueue

open Monitor

/-- A number of slots that is a power of two, and fits the indices. -/
structure Capacity where
  slots : Nat
  bits : Nat
  small : bits < 64
  powerOfTwo : slots = 2 ^ bits

/-- `PushMode`. -/
inductive PushMode
  | tryNow
  | wait
  deriving DecidableEq

/-- `PopMode`. -/
inductive PopMode
  | tryNow
  | wait
  | waitWithStopToken
  deriving DecidableEq

/-- Where a side is in a call: what it has loaded of its own index, and what it holds. -/
inductive Phase (μ α β : Type*)
  | idle
  | loaded (mode : μ) (item : α) (index : BitVec 64)
  | locked (mode : μ) (item : α) (index : BitVec 64)
  | refused (mode : μ) (item : α) (index : BitVec 64)
  | asleep (mode : μ) (item : α) (index : BitVec 64)
  | woken (mode : μ) (item : α) (index : BitVec 64)
  | admitted (mode : μ) (item : α) (index : BitVec 64)
  | ready (item : α) (index : BitVec 64)
  | accessed (item : β) (index : BitVec 64)
  | published
  | notifying
  | notified

structure History (T : Type*) where
  pushed : List T := []
  popped : List T := []
  refusedPushes : List Nat := []
  refusedPops : List Nat := []

/-- The items that are not popped yet. -/
def History.unread {T : Type*} (h : History T) : Nat := h.pushed.length - h.popped.length

/-- A slot is empty until a value is constructed in it, and again when the value is moved out. The
mutexes are those of the condition variables that the sides wait on. -/
structure State (T : Type*) where
  readIndex : BitVec 64 := 0
  writeIndex : BitVec 64 := 0
  data : Nat → Option T := fun _ => none
  producerCvMutex : Option Side := none
  consumerCvMutex : Option Side := none
  producer : Phase PushMode T T := .idle
  consumer : Phase PopMode Unit T := .idle
  stopRequested : Bool := false
  history : History T := {}

/-- The producer. -/
def producerSide : Side := .first
/-- The consumer. -/
def consumerSide : Side := .second

variable {T : Type*}

/-- A notification of a condition variable wakes the side that waits on it. -/
def Phase.wake {μ α β : Type*} : Phase μ α β → Phase μ α β
  | .asleep mode item index => .woken mode item index
  | phase => phase

/-- A request to stop wakes a side that waits with a token for it. -/
def Phase.stop {α β : Type*} : Phase PopMode α β → Phase PopMode α β
  | .asleep .waitWithStopToken item index => .woken .waitWithStopToken item index
  | phase => phase

/-- A step of `Emplace` behind its first load. -/
def emplace (capacity : Nat) (s : State T) : Option (State T) :=
  match s.producer with
  | .idle => none
  | .loaded .tryNow item index =>
    if index - s.readIndex = BitVec.ofNat 64 capacity then
      some { s with
        producer := .idle
        history := { s.history with refusedPushes := s.history.refusedPushes ++ [s.history.unread] }
          }
    else some { s with producer := .ready item index }
  | .loaded .wait item index =>
    if s.producerCvMutex = none then
      some { s with producerCvMutex := some producerSide, producer := .locked .wait item index }
    else none
  | .locked mode item index =>
    if (index - s.readIndex).toNat < capacity
      then some { s with producer := .admitted mode item index }
    else some { s with producer := .refused mode item index }
  | .refused mode item index =>
      some { s with producerCvMutex := none, producer := .asleep mode item index }
  | .asleep .. => none
  | .woken mode item index =>
    if s.producerCvMutex = none then
      some { s with producerCvMutex := some producerSide, producer := .locked mode item index }
    else none
  | .admitted _ item index => some { s with producerCvMutex := none, producer := .ready item index }
  | .ready item index =>
    some { s with
      data := Function.update s.data (index.toNat % capacity) (some item)
      producer := .accessed item index }
  | .accessed item _ =>
    some { s with
      writeIndex := s.writeIndex + 1
      producer := .published
      history := { s.history with pushed := s.history.pushed ++ [item] } }
  | .published =>
    if s.consumerCvMutex = none then some
      { s with consumerCvMutex := some producerSide, producer := .notifying }
    else none
  | .notifying => some { s with producer := .notified, consumer := s.consumer.wake }
  | .notified => some { s with consumerCvMutex := none, producer := .idle }

/-- A step of `Pop` behind its first load. With a token, a wait also ends when a stop is requested,
and then the call gives up. -/
def pop (capacity : Nat) (s : State T) : Option (State T) :=
  match s.consumer with
  | .idle => none
  | .loaded .tryNow item index =>
    if index = s.writeIndex then
      some { s with
        consumer := .idle
        history := { s.history with refusedPops := s.history.refusedPops ++ [s.history.unread] } }
    else some { s with consumer := .ready item index }
  | .loaded mode item index =>
    if s.consumerCvMutex = none then
      some { s with consumerCvMutex := some consumerSide, consumer := .locked mode item index }
    else none
  | .locked mode item index =>
    if index ≠ s.writeIndex then some { s with consumer := .admitted mode item index }
    else some { s with consumer := .refused mode item index }
  | .refused mode item index =>
    if mode = .waitWithStopToken ∧ s.stopRequested = true
      then some { s with consumerCvMutex := none, consumer := .idle }
    else some { s with consumerCvMutex := none, consumer := .asleep mode item index }
  | .asleep .. => none
  | .woken mode item index =>
    if s.consumerCvMutex = none then
      some { s with consumerCvMutex := some consumerSide, consumer := .locked mode item index }
    else none
  | .admitted mode item index =>
    if mode = .waitWithStopToken ∧ s.stopRequested = true
      then some { s with consumerCvMutex := none, consumer := .idle }
    else some { s with consumerCvMutex := none, consumer := .ready item index }
  | .ready _ index =>
    match s.data (index.toNat % capacity) with
    | some item =>
      some { s with
        data := Function.update s.data (index.toNat % capacity) none
        consumer := .accessed item index }
    | none => none
  | .accessed item _ =>
    some { s with
      readIndex := s.readIndex + 1
      consumer := .published
      history := { s.history with popped := s.history.popped ++ [item] } }
  | .published =>
    if s.producerCvMutex = none then some
      { s with producerCvMutex := some consumerSide, consumer := .notifying }
    else none
  | .notifying => some { s with consumer := .notified, producer := s.producer.wake }
  | .notified => some { s with producerCvMutex := none, consumer := .idle }

/-- What may happen next. -/
inductive Action (T : Type*)
  | beginEmplace (mode : PushMode) (item : T)
  | emplace
  | wakeProducer
  | beginPop (mode : PopMode) (stopRequested : Bool)
  | pop
  | wakeConsumer
  | requestStop

/-- One step. There is none for a side that is not where the action happens. -/
def step (capacity : Nat) (s : State T) : Action T → Option (State T)
  | .beginEmplace mode item =>
    match s.producer with
    | .idle => some { s with producer := .loaded mode item s.writeIndex }
    | _ => none
  | .emplace => emplace capacity s
  | .wakeProducer =>
    match s.producer with
    | .asleep mode item index => some { s with producer := .woken mode item index }
    | _ => none
  | .beginPop mode stopRequested =>
    match s.consumer with
    | .idle => some { s with consumer := .loaded mode () s.readIndex, stopRequested }
    | _ => none
  | .pop => pop capacity s
  | .wakeConsumer =>
    match s.consumer with
    | .asleep mode item index => some { s with consumer := .woken mode item index }
    | _ => none
  | .requestStop => some { s with stopRequested := true, consumer := s.consumer.stop }

/-- The states that the steps of the two sides lead to, in any order. -/
inductive Reached (capacity : Nat) : State T → Prop
  | start : Reached capacity {}
  | step {s s' : State T} (action : Action T) (reached : Reached capacity s)
      (taken : step capacity s action = some s') : Reached capacity s'

end SumiEmu.Common.SPSCQueue
