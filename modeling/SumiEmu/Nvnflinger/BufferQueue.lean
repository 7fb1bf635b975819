/-
# The buffer queue

One producer dequeues slots, fills their buffers and queues them; one consumer acquires the
queued items and releases their slots. A step of the model is one section of a call that is
run with the mutex held: most calls are one section, and `DequeueBuffer` is cut where it
waits for a slot and where it allocates a buffer without the mutex.

A buffer is known by the address it was made at, and two pointers are equal when the
addresses are. Times are integers, so a time to present within a second of the ends of their
64 bits does not wrap around. The items that leave the queue are written to a log beside the
state, at the places where the code itself logs them.
-/

import Mathlib.Data.Fintype.Card

namespace SumiEmu.Nvnflinger

/-- `NUM_BUFFER_SLOTS`. -/
def numBufferSlots : Nat := 64

/-- The index of a slot. -/
abbrev Slot : Type := Fin numBufferSlots

/-- The status codes. Two of the flags that `DequeueBuffer` returns share their values with
other codes. -/
abbrev Status : Type := Int

namespace Status

/-- `NoError`. -/
def noError : Status := 0
/-- `StaleBufferSlot`. -/
def staleBufferSlot : Status := 1
/-- `NoBufferAvailable`. -/
def noBufferAvailable : Status := 2
/-- `PresentLater`. -/
def presentLater : Status := 3
/-- `WouldBlock`. -/
def wouldBlock : Status := -11
/-- `NoInit`. -/
def noInit : Status := -19
/-- `BadValue`. -/
def badValue : Status := -22
/-- `InvalidOperation`. -/
def invalidOperation : Status := -38
/-- `BufferNeedsReallocation`. -/
def bufferNeedsReallocation : Nat := 1
/-- `ReleaseAllBuffers`. -/
def releaseAllBuffers : Nat := 2

end Status

/-- `NvFence`. -/
structure NvFence where
  id : Int := 0
  value : UInt32 := 0
  deriving DecidableEq

/-- `Fence`. -/
structure Fence where
  numFences : UInt32 := 0
  fences : List NvFence := List.replicate 4 {}
  deriving DecidableEq

/-- No syncpoint to wait for. -/
def Fence.noFence : Fence := { fences := List.replicate 4 { id := -1 } }

/-- What is read of a buffer, and where it was made. -/
structure GraphicBuffer where
  address : Nat
  width : UInt32 := 0
  height : UInt32 := 0
  format : UInt32 := 0
  usage : UInt32 := 0
  deriving DecidableEq

/-- `Common::Rectangle<s32>`. -/
structure Rectangle where
  left : Int := 0
  top : Int := 0
  right : Int := 0
  bottom : Int := 0
  deriving DecidableEq

/-- The part of a rectangle that lies in another one, which may be turned inside out. -/
def Rectangle.intersect (r other : Rectangle) : Rectangle where
  left := max r.left other.left
  top := max r.top other.top
  right := min r.right other.right
  bottom := min r.bottom other.bottom

/-- The rectangle of a whole buffer; its sides are read as signed. -/
def GraphicBuffer.rect (buffer : GraphicBuffer) : Rectangle where
  right := buffer.width.toBitVec.toInt
  bottom := buffer.height.toBitVec.toInt

structure BufferItem where
  graphicBuffer : Option GraphicBuffer
  fence : Fence := {}
  crop : Rectangle := {}
  transform : UInt32 := 0
  scalingMode : UInt32 := 0
  timestamp : Int := 0
  isAutoTimestamp : Bool := false
  frameNumber : Nat
  slot : Slot
  isDroppable : Bool := false
  acquireCalled : Bool := false
  transformToDisplayInverse : Bool := false
  swapInterval : Int := 0
  deriving DecidableEq

/-- `BufferState`. -/
inductive BufferState where
  | free
  | dequeued
  | queued
  | acquired
  deriving DecidableEq

/-- `BufferSlot`. -/
structure BufferSlot where
  graphicBuffer : Option GraphicBuffer := none
  bufferState : BufferState := .free
  requestBufferCalled : Bool := false
  frameNumber : Nat := 0
  fence : Fence := {}
  acquireCalled : Bool := false
  needsCleanupOnRelease : Bool := false
  attachedByConsumer : Bool := false
  isPreallocated : Bool := false
  deriving DecidableEq

/-- `QueueBufferInput`. -/
structure QueueBufferInput where
  timestamp : Int := 0
  isAutoTimestamp : Bool := false
  crop : Rectangle := {}
  scalingMode : Int := 0
  transform : UInt32 := 0
  stickyTransform : UInt32 := 0
  async : Bool := false
  swapInterval : Int := 0
  fence : Fence := {}
  deriving DecidableEq

/-- `QueueBufferOutput`. -/
structure QueueBufferOutput where
  width : UInt32
  height : UInt32
  transformHint : UInt32
  numPendingBuffers : UInt32
  deriving DecidableEq

/-- What happens to an item of the queue. -/
inductive Event where
  | acquired (item : BufferItem)
  | replaced (front item : BufferItem)
  | dropped (front next : BufferItem) (expectedPresent : Int)
  | cleared (items : List BufferItem)
  deriving DecidableEq

/-- The arguments of a call of `DequeueBuffer` that waits, and its flags so far. -/
structure Dequeuing where
  async : Bool
  width : UInt32
  height : UInt32
  format : UInt32
  usage : UInt32
  returnFlags : Nat
  deriving DecidableEq

/-- A call of `DequeueBuffer` that allocates a buffer for its slot. -/
structure Allocating where
  slot : Slot
  fence : Fence
  width : UInt32
  height : UInt32
  format : UInt32
  usage : UInt32
  attachedByConsumer : Bool
  returnFlags : Nat
  deriving DecidableEq

/-- Where the producer is. -/
inductive Producer where
  | idle
  | waiting (call : Dequeuing)
  | allocating (call : Allocating)
  deriving DecidableEq

/-- The core of the queue, with the members of the producer that its calls use. Frames are
counted in 64 bits, which no run is long enough to fill. -/
structure State where
  isAbandoned : Bool := false
  consumerControlledByApp : Bool := false
  hasConsumerListener : Bool := false
  connectedApi : Int := 0
  slots : Slot → BufferSlot := fun _ => {}
  queue : List BufferItem := []
  overrideMaxBufferCount : Int := 0
  dequeuePossible : Bool := false
  dequeueBufferCannotBlock : Bool := false
  defaultBufferFormat : UInt32 := 1
  defaultWidth : UInt32 := 1
  defaultHeight : UInt32 := 1
  bufferHasBeenQueued : Bool := false
  frameCounter : Nat := 0
  stickyTransform : UInt32 := 0
  nextAddress : Nat := 0
  producer : Producer := .idle
  log : List Event := []

/-- What a section gives back: the results of a call, or where the call goes on. -/
inductive Reply where
  | status (status : Status)
  | requested (buffer : Option GraphicBuffer)
  | waiting
  | allocating (slot : Slot)
  | dequeued (slot : Slot) (fence : Fence) (returnFlags : Nat)
  | output (output : QueueBufferOutput)
  | acquired (item : BufferItem)
  deriving DecidableEq

/-- A slot that an argument names. -/
def slotAt (slot : Int) : Option Slot :=
  if h : 0 ≤ slot ∧ slot.toNat < numBufferSlots then some ⟨slot.toNat, h.2⟩ else none

/-! ## The core -/

-- These two are constant members of the core, and the next one is never assigned.
/-- `use_async_buffer`. -/
def useAsyncBuffer : Bool := false
/-- `max_acquired_buffer_count`. -/
def maxAcquiredBufferCount : Int := 0
/-- `default_max_buffer_count`. -/
def defaultMaxBufferCount : Int := 2

/-- The consumer never sets its usage bits and the transform hint stays zero. -/
def consumerUsageBit : UInt32 := 0
/-- `transform_hint`. -/
def transformHint : UInt32 := 0

/-- `UINT32_MAX`. -/
def uint32Max : Nat := 4294967295

namespace State

variable (s : State)

/-- `SignalDequeueCondition`. -/
def signalDequeueCondition : State := { s with dequeuePossible := true }

def getMinUndequeuedBufferCountLocked (async : Bool) : Int :=
  if !useAsyncBuffer then 0
  else if s.dequeueBufferCannotBlock || async then maxAcquiredBufferCount + 1
  else maxAcquiredBufferCount

/-- `GetMinMaxBufferCountLocked`. -/
def getMinMaxBufferCountLocked (async : Bool) : Int := s.getMinUndequeuedBufferCountLocked async

/-- Slots that the producer holds or that wait for the consumer are counted in. -/
def getMaxBufferCountLocked (async : Bool) : Int :=
  let maxBufferCount := max defaultMaxBufferCount (s.getMinMaxBufferCountLocked async)
  if s.overrideMaxBufferCount ≠ 0 then s.overrideMaxBufferCount
  else (List.finRange numBufferSlots).foldl (fun count slot =>
    if maxBufferCount ≤ slot.val ∧
        ((s.slots slot).bufferState = .queued ∨ (s.slots slot).bufferState = .dequeued)
        then slot.val + 1
    else count) maxBufferCount

/-- The slots that satisfy a condition, counted. -/
def countSlots (condition : BufferSlot → Bool) : Nat :=
  (Finset.univ.filter fun slot => condition (s.slots slot)).card

def getPreallocatedBufferCountLocked : Nat := s.countSlots (·.isPreallocated)

end State

def BufferSlot.freeBufferLocked (slot : BufferSlot) : BufferSlot :=
  { slot with
    graphicBuffer := none
    needsCleanupOnRelease := slot.bufferState = .acquired || slot.needsCleanupOnRelease
    bufferState := .free
    frameNumber := uint32Max
    acquireCalled := false
    fence := .noFence }

/-- The slot has a buffer that need not be allocated anew. -/
def BufferSlot.fits (slot : BufferSlot) (width height format usage : UInt32) : Bool :=
  match slot.graphicBuffer with
  | none => false
  | some buffer =>
    buffer.width = width ∧ buffer.height = height ∧ buffer.format = format ∧
      buffer.usage &&& usage = usage

/-- The item and its slot point to the same buffer. -/
def StillTracking (slots : Slot → BufferSlot) (item : BufferItem) : Prop :=
  (slots item.slot).graphicBuffer ≠ none ∧
    item.graphicBuffer.map (·.address) = (slots item.slot).graphicBuffer.map (·.address)

instance decidableStillTracking (slots : Slot → BufferSlot) (item : BufferItem) :
    Decidable (StillTracking slots item) := inferInstanceAs (Decidable (_ ∧ _))

namespace State

variable (s : State)

/-- A slot is written. -/
def setSlot (slot : Slot) (f : BufferSlot → BufferSlot) : State :=
  { s with slots := Function.update s.slots slot (f (s.slots slot)) }

/-- The slot of an item is written if the item still tracks it. -/
def setTracked (item : BufferItem) (f : BufferSlot → BufferSlot) : State :=
  if StillTracking s.slots item then s.setSlot item.slot f else s

/-- `FreeBufferLocked`. -/
def freeBufferLocked (slot : Slot) : State := s.setSlot slot .freeBufferLocked

/-- The loop over all slots changes each one on its own. -/
def freeAllBuffersLocked : State :=
  { s with bufferHasBeenQueued := false, slots := fun slot => (s.slots slot).freeBufferLocked }

end State

/-! ## The producer -/

namespace State

variable (s : State)

/-- `RequestBuffer`. -/
def requestBuffer (slot : Int) : State × Reply :=
  if s.isAbandoned then (s, .status .noInit)
  else match slotAt slot with
    | none => (s, .status .badValue)
    | some n =>
      if (s.slots n).bufferState ≠ .dequeued then (s, .status .badValue)
      else (s.setSlot n ({ · with requestBufferCalled := true }),
        .requested (s.slots n).graphicBuffer)

/-- `SetBufferCount`. -/
def setBufferCount (bufferCount : Int) : State × Reply :=
  if s.isAbandoned then (s, .status .noInit)
  else if numBufferSlots < bufferCount then (s, .status .badValue)
  else if ∃ slot, (s.slots slot).bufferState = .dequeued then (s, .status .badValue)
  else if bufferCount = 0 then
    ({ s with overrideMaxBufferCount := 0 }.signalDequeueCondition, .status .noError)
  else if bufferCount < s.getMinMaxBufferCountLocked false then (s, .status .badValue)
  else
    let s := if s.getPreallocatedBufferCountLocked ≤ 0 then s.freeAllBuffersLocked else s
    ({ s with overrideMaxBufferCount := bufferCount }.signalDequeueCondition, .status .noError)

/-- A buffer that is kept behind the last slot in use. -/
def BeyondCount (maxBufferCount : Int) (slot : Slot) : Prop :=
  maxBufferCount ≤ slot.val ∧ (s.slots slot).graphicBuffer ≠ none ∧
    (s.slots slot).bufferState = .free ∧ (s.slots slot).isPreallocated = false

instance decidableBeyondCount (maxBufferCount : Int) :
    DecidablePred (s.BeyondCount maxBufferCount) :=
  fun _ => inferInstanceAs (Decidable (_ ∧ _))

def freeBeyondCount (maxBufferCount : Int) : State :=
  { s with slots := fun slot =>
      if s.BeyondCount maxBufferCount slot then (s.slots slot).freeBufferLocked else s.slots slot }

/-- The search takes a free slot if it has none yet or the frame is older. -/
def olderFree (maxBufferCount : Int) (found : Option Slot) (slot : Slot) : Option Slot :=
  if slot.val < maxBufferCount ∧ (s.slots slot).bufferState = .free then
    match found with
    | none => some slot
    | some best => if (s.slots slot).frameNumber < (s.slots best).frameNumber then some slot
        else found
  else found

/-- The free slot with the oldest frame, the first one of several. -/
def findFreeSlot (maxBufferCount : Int) : Option Slot :=
  (List.finRange numBufferSlots).foldl (s.olderFree maxBufferCount) none

/-- The slots up to the last one in use that are in some state, counted. -/
def countBelow (maxBufferCount : Int) (state : BufferState) : Nat :=
  (Finset.univ.filter fun slot : Slot =>
    slot.val < maxBufferCount ∧ (s.slots slot).bufferState = state).card

/-- How one pass of the loop in `WaitForFreeSlotThenRelock` ends. -/
inductive Found where
  | failed (status : Status)
  | found (slot : Slot)
  | tryAgain

/-- One pass of that loop: the state, the flags and how it ends. The assertion that the slots
behind the last one are free only logs. -/
def findSlot (async : Bool) (returnFlags : Nat) : State × Nat × Found :=
  if s.isAbandoned then (s, returnFlags, .failed .noInit)
  else
    let maxBufferCount := s.getMaxBufferCountLocked async
    if async ∧ s.overrideMaxBufferCount ≠ 0 ∧ s.overrideMaxBufferCount < maxBufferCount then
      (s, returnFlags, .failed .badValue)
    else
      let returnFlags := if ∃ slot, s.BeyondCount maxBufferCount slot then
        returnFlags ||| Status.releaseAllBuffers else returnFlags
      let s := s.freeBeyondCount maxBufferCount
      let dequeuedCount := s.countBelow maxBufferCount .dequeued
      if s.overrideMaxBufferCount = 0 ∧ dequeuedCount ≠ 0 then
        (s, returnFlags, .failed .invalidOperation)
      else if s.bufferHasBeenQueued ∧
          maxBufferCount - (dequeuedCount + 1) < s.getMinUndequeuedBufferCountLocked async then
        (s, returnFlags, .failed .invalidOperation)
      else
        let again : Found :=
          if s.dequeueBufferCannotBlock ∧
              s.countBelow maxBufferCount .acquired ≤ maxAcquiredBufferCount
              then .failed .wouldBlock
          else .tryAgain
        match s.findFreeSlot maxBufferCount with
        | some slot =>
          -- Too many queued items may be left from before a disconnect.
          (s, returnFlags, if maxBufferCount < s.queue.length then again else .found slot)
        | none => (s, returnFlags, again)

/-- The condition may already be signalled when the call comes to wait: then it goes on at
once, and the second pass finds it cleared. -/
def waitForFreeSlotThenRelock (async : Bool) (returnFlags : Nat) : State × Nat × Found :=
  match s.findSlot async returnFlags with
  | (s, returnFlags, .tryAgain) =>
    if s.dequeuePossible then { s with dequeuePossible := false }.findSlot async returnFlags
    else (s, returnFlags, .tryAgain)
  | result => result

/-- The found slot is handed to the producer, who first has to allocate a buffer if that of
the slot does not fit. -/
def dequeueFound (call : Dequeuing) (found : Slot) : State × Reply :=
  let useDefaultSize : Prop := call.width = 0 ∧ call.height = 0
  let width := if useDefaultSize then s.defaultWidth else call.width
  let height := if useDefaultSize then s.defaultHeight else call.height
  if (s.slots found).fits width height call.format call.usage then
    ({ s.setSlot found ({ · with bufferState := .dequeued, fence := .noFence }) with producer :=
  .idle }, .dequeued found (s.slots found).fence call.returnFlags)
  else
    ({ s.setSlot found ({ · with
          bufferState := .dequeued, acquireCalled := false, graphicBuffer := none,
          requestBufferCalled := false, fence := .noFence }) with
        producer := .allocating
          { slot := found, fence := .noFence, width, height, format := call.format
            usage := call.usage
            attachedByConsumer := (s.slots found).attachedByConsumer
            returnFlags := call.returnFlags ||| Status.bufferNeedsReallocation } },
      .allocating found)

/-- The section of `DequeueBuffer` that looks for a slot, up to where it waits again. -/
def dequeueSection (call : Dequeuing) : State × Reply :=
  match s.waitForFreeSlotThenRelock call.async call.returnFlags with
  | (s, _, .failed status) => ({ s with producer := .idle }, .status status)
  | (s, returnFlags, .found slot) => s.dequeueFound { call with returnFlags } slot
  | (s, returnFlags, .tryAgain) =>
    ({ s with producer := .waiting { call with returnFlags } }, .waiting)

/-- `DequeueBuffer`, up to its wait. -/
def dequeueBuffer (async : Bool) (width height format usage : UInt32) : State × Reply :=
  if (width ≠ 0 ∧ height = 0) ∨ (width = 0 ∧ height ≠ 0) then (s, .status .badValue)
  else
    let format := if format = 0 then s.defaultBufferFormat else format
    s.dequeueSection { async, width, height, format, usage := usage ||| consumerUsageBit,
                       returnFlags := 0 }

/-- The section behind the allocation puts the new buffer into the slot. -/
def dequeueAllocated (call : Allocating) : State × Reply :=
  if s.isAbandoned then ({ s with producer := .idle }, .status .noInit)
  else
    let buffer : GraphicBuffer :=
      { address := s.nextAddress, width := call.width, height := call.height, format := call.format
        usage := call.usage }
    ({ s.setSlot call.slot ({ · with frameNumber := uint32Max, graphicBuffer := some buffer }) with
        nextAddress := s.nextAddress + 1, producer := .idle },
      .dequeued call.slot call.fence
        (if call.attachedByConsumer then call.returnFlags ||| Status.bufferNeedsReallocation
        else call.returnFlags))

/-- `DetachBuffer`. -/
def detachBuffer (slot : Int) : State × Reply :=
  if s.isAbandoned then (s, .status .noInit)
  else match slotAt slot with
    | none => (s, .status .badValue)
    | some n =>
      if (s.slots n).bufferState ≠ .dequeued then (s, .status .badValue)
      else if (s.slots n).requestBufferCalled = false then (s, .status .badValue)
      else ((s.freeBufferLocked n).signalDequeueCondition, .status .noError)

/-- What a call of `QueueBuffer` checks before it changes anything: the slot and its buffer.
The code does not ask whether the slot has a buffer, so that there is no result without one. -/
def checkQueueBuffer (slot : Int) (input : QueueBufferInput) :
    Option (Except Status (Slot × GraphicBuffer)) :=
  if ¬ (0 ≤ input.scalingMode ∧ input.scalingMode ≤ 4) then some (.error .badValue)
  else if s.isAbandoned then some (.error .noInit)
  else
    let maxBufferCount := s.getMaxBufferCountLocked input.async
    if input.async ∧ s.overrideMaxBufferCount ≠ 0 ∧ s.overrideMaxBufferCount < maxBufferCount then
      some (.error .badValue)
    else if slot < 0 ∨ maxBufferCount ≤ slot then some (.error .badValue)
    else do
      let n ← slotAt slot
      if (s.slots n).bufferState ≠ .dequeued then return .error .badValue
      else if (s.slots n).requestBufferCalled = false then return .error .badValue
      else
        let graphicBuffer ← (s.slots n).graphicBuffer
        if input.crop.intersect graphicBuffer.rect ≠ input.crop then return .error .badValue
        else return .ok (n, graphicBuffer)

/-- The item of a frame. -/
def newItem (n : Slot) (input : QueueBufferInput) : BufferItem where
  acquireCalled := (s.slots n).acquireCalled
  graphicBuffer := (s.slots n).graphicBuffer
  crop := input.crop
  transform := input.transform &&& ~~~8
  transformToDisplayInverse := input.transform &&& 8 ≠ 0
  scalingMode := UInt32.ofNat input.scalingMode.toNat
  timestamp := input.timestamp
  isAutoTimestamp := input.isAutoTimestamp
  frameNumber := s.frameCounter + 1
  slot := n
  fence := input.fence
  isDroppable := s.dequeueBufferCannotBlock || input.async
  swapInterval := input.swapInterval

def output (s : State) : QueueBufferOutput where
  width := s.defaultWidth
  height := s.defaultHeight
  transformHint := transformHint
  numPendingBuffers := UInt32.ofNat s.queue.length

/-- The item goes into the queue: in the place of the front, if that may be dropped, and to the
end if not. -/
def pushItem (item : BufferItem) : State :=
  match s.queue with
  | [] => { s with queue := [item] }
  | front :: rest =>
    if front.isDroppable then
      let s := s.setTracked front ({ · with bufferState := .free, frameNumber := 0 })
      { s with queue := item :: rest, log := s.log ++ [.replaced front item] }
    else { s with queue := s.queue ++ [item] }

/-- The slot of a new frame is marked. -/
def markQueued (n : Slot) (input : QueueBufferInput) : State :=
  { s.setSlot n ({ · with
      fence := input.fence, bufferState := .queued, frameNumber := s.frameCounter + 1 }) with
    frameCounter := s.frameCounter + 1, stickyTransform := input.stickyTransform }

/-- `QueueBuffer`. -/
def queueBuffer (slot : Int) (input : QueueBufferInput) : Option (State × Reply) := do
  match ← s.checkQueueBuffer slot input with
  | .error status => return (s, .status status)
  | .ok (n, _) =>
    let s := { (s.markQueued n input).pushItem (s.newItem n input) with
      bufferHasBeenQueued := true }.signalDequeueCondition
    return (s, .output s.output)

/-- `CancelBuffer`. -/
def cancelBuffer (slot : Int) (fence : Fence) : State × Reply :=
  if s.isAbandoned then (s, .status .noInit)
  else match slotAt slot with
    | none => (s, .status .badValue)
    | some n =>
      if (s.slots n).bufferState ≠ .dequeued then (s, .status .badValue)
      else ((s.setSlot n ({ · with
        bufferState := .free, frameNumber := 0, fence })).signalDequeueCondition,
        .status .noError)

/-- The clients that may connect: EGL, the processor, media and the camera. -/
def IsApi (api : Int) : Prop := 1 ≤ api ∧ api ≤ 4

instance decidableIsApi (api : Int) : Decidable (IsApi api) := inferInstanceAs (Decidable (_ ∧ _))

/-- An unknown client is refused, but the two flags are set all the same. -/
def connect (api : Int) (producerControlledByApp : Bool) : State × Reply :=
  if s.isAbandoned then (s, .status .noInit)
  else if s.hasConsumerListener = false then (s, .status .noInit)
  else if s.connectedApi ≠ 0 then (s, .status .badValue)
  else
    let dequeueBufferCannotBlock := s.consumerControlledByApp && producerControlledByApp
    if IsApi api then
      ({ s with connectedApi := api, bufferHasBeenQueued := false, dequeueBufferCannotBlock },
        .output s.output)
    else ({ s with bufferHasBeenQueued := false, dequeueBufferCannotBlock }, .status .badValue)

/-- `Disconnect`. -/
def disconnect (api : Int) : State × Reply :=
  if s.isAbandoned then (s, .status .noError)
  else if IsApi api ∧ s.connectedApi = api then
    ({ s with queue := [], log := s.log ++ [Event.cleared s.queue], connectedApi := 0 }
      |>.freeAllBuffersLocked.signalDequeueCondition, .status .noError)
  else (s, .status .badValue)

/-- The properties of a buffer that is preallocated, if one is given. -/
structure Preallocated where
  width : UInt32
  height : UInt32
  format : UInt32
  usage : UInt32
  deriving DecidableEq

/-- `SetPreallocatedBuffer`. -/
def setPreallocatedBuffer (slot : Int) (buffer : Option Preallocated) : State × Reply :=
  match slotAt slot with
  | none => (s, .status .badValue)
  | some n =>
    let graphicBuffer : GraphicBuffer := match buffer with
      | none => { address := s.nextAddress }
      | some b =>
        { address := s.nextAddress, width := b.width, height := b.height, format := b.format,
          usage := b.usage }
    let s := { s.setSlot n fun _ =>
        { fence := .noFence, graphicBuffer := some graphicBuffer, isPreallocated := buffer.isSome }
            with
      nextAddress := s.nextAddress + 1 }
    let s := match buffer with
      | none => s
      | some b => { s with
          overrideMaxBufferCount := s.getPreallocatedBufferCountLocked
          defaultWidth := b.width, defaultHeight := b.height, defaultBufferFormat := b.format }
    (s.signalDequeueCondition, .status .noError)

/-! ## The consumer -/

/-- One second, the bound of a sensible time to present. -/
def maxReasonableNsec : Int := 1000000000

/-- The loop that drops the front as long as the next item is timely. -/
def dropTimely (expectedPresent : Int) (s : State) : List BufferItem → State
  | front :: next :: rest =>
    if front.isAutoTimestamp ∨ next.timestamp < expectedPresent - maxReasonableNsec ∨
        expectedPresent < next.timestamp then { s with queue := front :: next :: rest }
    else
      let s := s.setTracked front ({ · with bufferState := .free })
      dropTimely expectedPresent { s with log := s.log ++ [.dropped front next expectedPresent] }
        (next :: rest)
  | queue => { s with queue }

/-- The slots that the consumer has. -/
def numAcquiredBuffers : Nat := s.countSlots (·.bufferState = .acquired)

def acquireFront (front : BufferItem) (rest : List BufferItem) : State × Reply :=
  let acquired := s.setTracked front ({ · with
    acquireCalled := true, needsCleanupOnRelease := false, bufferState := .acquired })
  ({ acquired with queue := rest, log := s.log ++ [Event.acquired front] }.signalDequeueCondition,
    .acquired (if front.acquireCalled then { front with graphicBuffer := none } else front))

/-- The item given back has no buffer when the consumer has seen it before. -/
def acquireBuffer (expectedPresent : Int) : State × Reply :=
  if maxAcquiredBufferCount + 1 ≤ s.numAcquiredBuffers then (s, .status .invalidOperation)
  else
    let s := if expectedPresent = 0 then s else s.dropTimely expectedPresent s.queue
    match s.queue with
    | [] => (s, .status .noBufferAvailable)
    | front :: rest =>
      -- An item whose time is near is left for later; nothing is signalled, even if items were
      -- dropped.
      if expectedPresent ≠ 0 ∧ expectedPresent < front.timestamp ∧
          front.timestamp < expectedPresent + maxReasonableNsec then (s, .status .presentLater)
      else s.acquireFront front rest

/-- `ReleaseBuffer`. -/
def releaseBuffer (slot : Int) (frameNumber : Nat) : State × Reply :=
  match slotAt slot with
  | none => (s, .status .badValue)
  | some n =>
    if frameNumber ≠ (s.slots n).frameNumber then (s, .status .staleBufferSlot)
    else if ∃ item ∈ s.queue, item.slot = n then (s, .status .badValue)
    else if (s.slots n).bufferState = .acquired then
      ((s.setSlot n ({ · with bufferState := .free })).signalDequeueCondition, .status .noError)
    else if (s.slots n).needsCleanupOnRelease then
      (s.setSlot n ({ · with needsCleanupOnRelease := false }), .status .staleBufferSlot)
    else (s, .status .badValue)

/-! ## Runs -/

end State

/-- The sections of the calls. -/
inductive Action where
  | requestBuffer (slot : Int)
  | setBufferCount (bufferCount : Int)
  | dequeueBuffer (async : Bool) (width height format usage : UInt32)
  | dequeueWoken
  | dequeueAllocated
  | detachBuffer (slot : Int)
  | queueBuffer (slot : Int) (input : QueueBufferInput)
  | cancelBuffer (slot : Int) (fence : Fence)
  | connect (api : Int) (producerControlledByApp : Bool)
  | disconnect (api : Int)
  | setPreallocatedBuffer (slot : Int) (buffer : Option State.Preallocated)
  | acquireBuffer (expectedPresent : Int)
  | releaseBuffer (slot : Int) (frameNumber : Nat)
  deriving DecidableEq

namespace State

variable (s : State)

/-- A new call of the producer, who makes one call at a time. -/
def call (result : Option (State × Reply)) : Option (State × Reply) :=
  if s.producer = .idle then result else none

/-- One section; none if its call is not there, or where the code would read through a null
pointer or past the slots. -/
def step : Action → Option (State × Reply)
  | .requestBuffer slot => s.call (s.requestBuffer slot)
  | .setBufferCount bufferCount => s.call (s.setBufferCount bufferCount)
  | .dequeueBuffer async width height format usage =>
    s.call (s.dequeueBuffer async width height format usage)
  | .dequeueWoken =>
    match s.producer with
    | .waiting call =>
      if s.dequeuePossible then ({ s with dequeuePossible := false }).dequeueSection call else none
    | _ => none
  | .dequeueAllocated =>
    match s.producer with
    | .allocating call => s.dequeueAllocated call
    | _ => none
  | .detachBuffer slot => s.call (s.detachBuffer slot)
  | .queueBuffer slot input => s.call (s.queueBuffer slot input)
  | .cancelBuffer slot fence => s.call (s.cancelBuffer slot fence)
  | .connect api producerControlledByApp => s.call (s.connect api producerControlledByApp)
  | .disconnect api => s.call (s.disconnect api)
  | .setPreallocatedBuffer slot buffer => s.call (s.setPreallocatedBuffer slot buffer)
  | .acquireBuffer expectedPresent => s.acquireBuffer expectedPresent
  | .releaseBuffer slot frameNumber => s.releaseBuffer slot frameNumber

/-- Sections one after the other. -/
def run (s : State) (actions : List Action) : Option State :=
  actions.foldlM (fun s action => (s.step action).map Prod.fst) s

end State

/-- A queue that nothing has been done with, after its consumer has connected or not. It is
abandoned only when the consumer disconnects. -/
def start (hasConsumerListener consumerControlledByApp : Bool) : State :=
  { hasConsumerListener, consumerControlledByApp }

end SumiEmu.Nvnflinger
