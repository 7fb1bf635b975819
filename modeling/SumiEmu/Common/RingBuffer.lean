/-
# The ring buffer

One thread pushes slots and another pops them. The indices run freely modulo 2^64, and a
call copies its slots one by one, in no particular order, between the loads of the indices
and the store that makes the copy visible. A step of the model is one load, one store or
the copy of one slot, of either thread. Either thread may also ask for the size, for which
the order of the two loads is not said.

The history of the calls that have returned is kept beside the state; what a call has seen
in it is counted in slots, not computed from the indices.
-/

import Mathlib.Algebra.Group.Nat.Defs
import Mathlib.Data.List.Basic

namespace SumiEmu.Common

/-- A number of slots that the static assertions of the class accept. -/
structure Capacity where
  slots : Nat
  positive : 0 < slots
  sensible : slots < (2 ^ 64 - 1) / 2
  powerOfTwo : slots &&& (slots - 1) = 0

namespace RingBuffer

/-- The first load of `Size`: the other index is loaded next. -/
inductive Sizing where
  | write (index : BitVec 64)
  | read (index : BitVec 64)
  deriving DecidableEq

/-- Where the thread that pushes is: between two calls, behind the load of the write index,
copying what has not been copied yet, or in a call of `Size`. -/
inductive Producer (T : Type*) where
  | idle
  | loaded (newSlots : List T) (writeIndex : BitVec 64)
  | copying (newSlots : List T) (writeIndex : BitVec 64) (pushCount free : Nat) (left : List Nat)
  | sizing (first : Sizing)
  deriving DecidableEq

/-- Where the thread that pops is. -/
inductive Consumer (T : Type*) where
  | idle
  | loaded (maxSlots : Nat) (readIndex : BitVec 64)
  | copying (maxSlots : Nat) (readIndex : BitVec 64) (popCount filled : Nat)
      (output : Nat → Option T) (left : List Nat)
  | sizing (first : Sizing)

/-- A call of `Push` that has returned, with the free slots at its load of the read index. -/
structure Pushed (T : Type*) where
  newSlots : List T
  free : Nat
  pushCount : Nat

/-- A call of `Pop` that has returned, with the filled slots at its load of the write index. -/
structure Popped (T : Type*) where
  maxSlots : Nat
  filled : Nat
  popCount : Nat
  output : List T

structure History (T : Type*) where
  pushes : List (Pushed T) := []
  pops : List (Popped T) := []
  sizes : List Nat := []

namespace History

variable {T : Type*}

/-- The slots that have been pushed so far. -/
def pushed (h : History T) : List T := h.pushes.flatMap fun call =>
    call.newSlots.take call.pushCount

/-- The slots that have been popped so far. -/
def popped (h : History T) : List T := h.pops.flatMap Popped.output

end History

structure State (T : Type*) where
  readIndex : BitVec 64 := 0
  writeIndex : BitVec 64 := 0
  data : Nat → T
  producer : Producer T := .idle
  consumer : Consumer T := .idle
  history : History T := {}

/-- Where a copy of `count` slots from an index on puts or finds its slot `i`: up to the
physical end of the array, and then from its beginning on. -/
def position (capacity : Nat) (index : BitVec 64) (count i : Nat) : Nat :=
  let pos := index.toNat % capacity
  let firstCopy := min (capacity - pos) count
  if i < firstCopy then pos + i else i - firstCopy

/-- The steps of the two threads. -/
inductive Action (T : Type*) where
  | push (newSlots : List T)
  | pushLoad
  | pushCopy (i : Nat)
  | pushStore
  | pop (maxSlots : Nat)
  | popLoad
  | popCopy (i : Nat)
  | popStore
  | producerSize (writeFirst : Bool)
  | producerSizeLoad
  | consumerSize (writeFirst : Bool)
  | consumerSizeLoad
  deriving DecidableEq

variable {T : Type*}

/-- The load that begins a call of `Size`. -/
def beginSize (s : State T) (writeFirst : Bool) : Sizing :=
  if writeFirst then .write s.writeIndex else .read s.readIndex

/-- The second load of `Size`, and what it returns. -/
def endSize (s : State T) : Sizing → Nat
  | .write index => (index - s.readIndex).toNat
  | .read index => (s.writeIndex - index).toNat

/-- One step. There is none for a thread that is not where the action happens. -/
def step (capacity : Nat) (s : State T) : Action T → Option (State T)
  | .push newSlots =>
    match s.producer with
    | .idle =>
      if newSlots.length < 2 ^ 64 then some { s with producer := .loaded newSlots s.writeIndex }
        else none
    | _ => none
  | .pushLoad =>
    match s.producer with
    | .loaded newSlots writeIndex =>
      let slotsFree := BitVec.ofNat 64 capacity + s.readIndex - writeIndex
      let pushCount := min newSlots.length slotsFree.toNat
      let free := capacity - (s.history.pushed.length - s.history.popped.length)
      some { s with
        producer := .copying newSlots writeIndex pushCount free (List.range pushCount) }
    | _ => none
  | .pushCopy i =>
    match s.producer with
    | .copying newSlots writeIndex pushCount free left =>
      match newSlots[i]? with
      | none => none
      | some slot =>
        if i ∈ left then
          some { s with
            data := Function.update s.data (position capacity writeIndex pushCount i) slot
            producer := .copying newSlots writeIndex pushCount free (left.erase i) }
        else none
    | _ => none
  | .pushStore =>
    match s.producer with
    | .copying newSlots writeIndex pushCount free [] =>
      some { s with
        writeIndex := writeIndex + BitVec.ofNat 64 pushCount
        producer := .idle
        history := { s.history with pushes := s.history.pushes ++ [⟨newSlots, free, pushCount⟩] } }
    | _ => none
  | .pop maxSlots =>
    match s.consumer with
    | .idle => if maxSlots < 2 ^ 64 then some { s with consumer := .loaded maxSlots s.readIndex }
        else none
    | _ => none
  | .popLoad =>
    match s.consumer with
    | .loaded maxSlots readIndex =>
      let slotsFilled := s.writeIndex - readIndex
      let popCount := min slotsFilled.toNat maxSlots
      let filled := s.history.pushed.length - s.history.popped.length
      some { s with
        consumer := .copying maxSlots readIndex popCount filled (fun _ => none)
          (List.range popCount) }
    | _ => none
  | .popCopy i =>
    match s.consumer with
    | .copying maxSlots readIndex popCount filled output left =>
      if i ∈ left then
        let output := Function.update output i
          (some (s.data (position capacity readIndex popCount i)))
        some { s with consumer := .copying maxSlots readIndex popCount filled output (left.erase i)
          }
      else none
    | _ => none
  | .popStore =>
    match s.consumer with
    | .copying maxSlots readIndex popCount filled output [] =>
      let call := ⟨maxSlots, filled, popCount, (List.range popCount).filterMap output⟩
      some { s with
        readIndex := readIndex + BitVec.ofNat 64 popCount
        consumer := .idle
        history := { s.history with pops := s.history.pops ++ [call] } }
    | _ => none
  | .producerSize writeFirst =>
    match s.producer with
    | .idle => some { s with producer := .sizing (beginSize s writeFirst) }
    | _ => none
  | .producerSizeLoad =>
    match s.producer with
    | .sizing first =>
      some { s with
        producer := .idle
        history := { s.history with sizes := s.history.sizes ++ [endSize s first] } }
    | _ => none
  | .consumerSize writeFirst =>
    match s.consumer with
    | .idle => some { s with consumer := .sizing (beginSize s writeFirst) }
    | _ => none
  | .consumerSizeLoad =>
    match s.consumer with
    | .sizing first =>
      some { s with
        consumer := .idle
        history := { s.history with sizes := s.history.sizes ++ [endSize s first] } }
    | _ => none

/-- The state after an interleaving of steps, from an array with any contents. -/
def run (capacity : Nat) (data : Nat → T) (actions : List (Action T)) : Option (State T) :=
  actions.foldlM (step capacity) { data }

end RingBuffer

end SumiEmu.Common
