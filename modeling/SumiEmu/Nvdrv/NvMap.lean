/-
# Handles of the device's memory

A handle stands for memory of an application. It is mapped for the device when it is pinned first
and stays mapped when nothing pins it any more, in a queue of handles that may be unmapped when the
device runs out of addresses. Handles are shared, so the queue and the table of handles refer to
objects. An access to an element that the queue does not have is a fault here.
-/

import Mathlib.Algebra.Group.Nat.Defs
import Mathlib.Algebra.Order.Group.Int
import SumiEmu.Foundations.Fallible

namespace SumiEmu.Nvdrv

open Fallible

/-- How a call may fail to return. -/
inductive NvMapFault
  | emptyQueue
  | danglingEntry
  | unfinished
  deriving DecidableEq

/-- Where a handle is in memory, by its object. -/
abbrev Ref : Type := Nat

def pageSize : Nat := 2 ^ 12
def bigPageSize : Nat := pageSize * 16

/-- `Common::AlignUp`. -/
def alignUp (value size : Nat) : Nat :=
  if value % size = 0 then value else value - value % size + size

/-- `NvMap::Handle`. -/
structure Handle where
  size : Nat
  alignedSize : Nat
  dupes : Int
  internalDupes : Int
  id : Nat
  pins : Int
  pinVirtAddress : Nat
  unmapQueueEntry : Option Nat
  mapUncached : Bool
  address : Nat
  allocated : Bool
  inHeap : Bool
  sessionId : Nat
  dAddress : Nat
  deriving DecidableEq

/-- What a handle needs of a session: its heap, and the process for the device. -/
structure Session where
  hasPreallocatedArea : Bool
  mapperAddress : Nat
  mapperSize : Nat
  asid : Nat

/-- `IsInBounds` of the mapper of a session. -/
def Session.isInBounds (session : Session) (start size : Nat) : Prop :=
  session.mapperAddress ≤ start ∧ (start + size) % 2 ^ 64 ≤
    (session.mapperAddress + session.mapperSize) % 2 ^ 64

instance (session : Session) (start size : Nat) : Decidable (session.isInBounds start size) :=
  inferInstanceAs (Decidable (_ ∧ _))

/-- The calls that are made on the device, with what they return and the device that they leave. -/
structure Host1x (D : Type*) where
  session : Nat → Session
  smmuAllocate : Nat → D → Nat × D
  smmuFree : Nat → Nat → D → D
  smmuMap : Nat → Nat → Nat → Nat → D → D
  smmuUnmap : Nat → Nat → D → D
  gmmuAllocate : Nat → D → Nat × D
  gmmuFree : Nat → Nat → D → D
  gmmuMap : Nat → Nat → Nat → D → D
  gmmuUnmap : Nat → Nat → D → D
  mapperMap : Nat → Nat → Nat → D → Nat × D
  mapperUnmap : Nat → Nat → Nat → D → D

/-- The elements of the queue are nodes, each with its own number. -/
structure NvMap (D : Type*) where
  handles : Nat → Option Ref
  object : Ref → Handle
  unmapQueue : List (Nat × Ref)
  nextHandleId : Nat
  nextRef : Ref
  nextNode : Nat
  device : D

namespace NvMap

variable {D : Type*} (host1x : Host1x D)

variable (map : NvMap D)

/-- A handle is written. -/
def setObject (ref : Ref) (handle : Handle) : NvMap D :=
  { map with object := Function.update map.object ref handle }

/-- The end of an element of the queue. -/
def eraseNode (node : Nat) : Except NvMapFault (NvMap D) :=
  if map.unmapQueue.any (·.1 = node) then .ok
    { map with unmapQueue := map.unmapQueue.filter (·.1 ≠ node) }
  else .error .danglingEntry

/-- The handle is taken from the queue if it is in it. -/
def leaveQueue (ref : Ref) : Except NvMapFault (NvMap D) :=
  match (map.object ref).unmapQueueEntry with
  | none => .ok map
  | some node => do
    let map ← map.eraseNode node
    return map.setObject ref { map.object ref with unmapQueueEntry := none }

/-- The calls of `UnmapHandle` on the device. -/
def releaseDevice (handle : Handle) (device : D) : D :=
  let device :=
    if handle.pinVirtAddress ≠ 0 then
      host1x.gmmuFree handle.pinVirtAddress (handle.alignedSize % 2 ^ 32)
        (host1x.gmmuUnmap handle.pinVirtAddress handle.alignedSize device)
    else device
  if handle.inHeap then host1x.mapperUnmap handle.sessionId handle.address handle.alignedSize device
  else
    host1x.smmuFree handle.dAddress (alignUp handle.alignedSize bigPageSize)
      (host1x.smmuUnmap handle.dAddress handle.alignedSize device)

/-- `UnmapHandle`. -/
def unmapHandle (ref : Ref) : Except NvMapFault (NvMap D) := do
  let map ← map.leaveQueue ref
  let handle := map.object ref
  return { map.setObject ref { handle with pinVirtAddress := 0, dAddress := 0, inHeap := false }
    with
    device := releaseDevice host1x handle map.device }

/-! ## Pinning -/

def mapLowArea (ref : Ref) : NvMap D :=
  let handle := map.object ref
  if handle.pinVirtAddress = 0 then
    let (address, device) := host1x.gmmuAllocate (handle.alignedSize % 2 ^ 32) map.device
    { map.setObject ref { handle with pinVirtAddress := address } with
      device := host1x.gmmuMap address handle.dAddress handle.alignedSize device }
  else map

/-- What a round of the loop below frees. It tests the handle that is pinned. -/
def freeFront (ref freeHandleDesc : Ref) : Except NvMapFault (NvMap D) :=
  if (map.object ref).dAddress ≠ 0 then map.unmapHandle host1x freeHandleDesc else .ok map

/-- The loop of `PinHandle` that frees handles until an allocation succeeds. -/
def allocateLoop (ref : Ref) (alignedUp : Nat) : Nat → NvMap D → Except NvMapFault (Nat × NvMap D)
  | rounds, map =>
    let (address, device) := host1x.smmuAllocate alignedUp map.device
    let map := { map with device }
    if address ≠ 0 then .ok (address, map)
    else
      match rounds with
      | 0 => .error .unfinished
      | rounds + 1 =>
        match map.unmapQueue with
        | [] => .error .emptyQueue
        | (_, freeHandleDesc) :: _ => do
          let map ← map.freeFront host1x ref freeHandleDesc
          allocateLoop ref alignedUp rounds map

/-- A handle that is not mapped is given an address. -/
def mapNew (rounds : Nat) (map : NvMap D) (ref : Ref) : Except NvMapFault (NvMap D) := do
  let handle := map.object ref
  let session := host1x.session handle.sessionId
  if session.hasPreallocatedArea ∧ session.isInBounds handle.address handle.alignedSize then
    let (address, device) :=
      host1x.mapperMap handle.sessionId handle.address handle.alignedSize map.device
    return { map.setObject ref { handle with dAddress := address, inHeap := true } with device }
  else
    let (address, map) ← allocateLoop host1x ref (alignUp handle.alignedSize bigPageSize) rounds map
    return { map.setObject ref { map.object ref with dAddress := address, inHeap := false } with
      device := host1x.smmuMap address handle.address handle.alignedSize session.asid map.device }

/-- The end of `PinHandle`: the handle is mapped for the low area too, and has one pin more. -/
def finishPin (ref : Ref) (lowAreaPin : Bool) : Nat × NvMap D :=
  let map := if lowAreaPin then map.mapLowArea host1x ref else map
  let handle := map.object ref
  (if lowAreaPin then handle.pinVirtAddress else handle.dAddress,
    map.setObject ref { handle with pins := handle.pins + 1 })

def pinHandle (rounds : Nat) (map : NvMap D) (id : Nat) (lowAreaPin : Bool) :
    Except NvMapFault (Nat × NvMap D) :=
  match map.handles id with
  | none => .ok (0, map)
  | some ref =>
    if (map.object ref).pins = 0 then
      if (map.object ref).unmapQueueEntry.isSome then do
        let map ← map.leaveQueue ref
        return map.finishPin host1x ref lowAreaPin
      else do
        let map ← map.mapNew host1x rounds ref
        return map.finishPin host1x ref lowAreaPin
    else .ok (map.finishPin host1x ref lowAreaPin)

end NvMap

end SumiEmu.Nvdrv
