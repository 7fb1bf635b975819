/-
# The device memory manager

Pages of the device are mapped to pages of the physical memory, several of them maybe to the same
one. For each physical page a reverse entry holds the one device page that is mapped to it, or the
start of a list of them in a container that all lists share. For each device page a continuity
tracker holds how many pages from there on lie behind each other in the memory of the host.
-/

import Mathlib.Algebra.Group.Nat.Defs
import SumiEmu.Foundations.Fallible

namespace SumiEmu.Core

open Fallible Function

/-! ## The container of device addresses -/

/-- An access to an entry that is none, or a loop that has not ended in as many rounds as there are
entries. -/
inductive ContainerFault
  | outOfRange
  | unfinished
  deriving DecidableEq

/-- A value with the id of the next entry of its list. -/
structure Entry where
  nextEntry : Nat
  value : Nat

/-- Entries are numbered from one, and zero is none of them. -/
structure MultiAddressContainer where
  storage : Nat → Entry
  size : Nat
  freeEntries : List Nat

namespace MultiAddressContainer

variable (container : MultiAddressContainer)

/-- The entry of an id. The ids begin with 1. -/
def entry (id : Nat) : Except ContainerFault Entry :=
  if 0 < id ∧ id ≤ container.size then .ok (container.storage id) else .error .outOfRange

/-- An entry is written. -/
def setEntry (id : Nat) (entry : Entry) : MultiAddressContainer :=
  { container with storage := update container.storage id entry }

/-- The values of the entries behind one. -/
def gatherLoop : Nat → Entry → Except ContainerFault (List Nat)
  | rounds, current =>
    if current.nextEntry = 0 then .ok []
    else
      match rounds with
      | 0 => .error .unfinished
      | rounds + 1 => do
        let current ← container.entry current.nextEntry
        let values ← gatherLoop rounds current
        return current.value :: values

/-- `GatherValues`. -/
def gatherValues (startEntry : Nat) : Except ContainerFault (List Nat) := do
  let current ← container.entry startEntry
  let values ← container.gatherLoop container.size current
  return current.value :: values

/-- `GetNewEntry`: a free entry, or a new one. -/
def getNewEntry : Nat × MultiAddressContainer :=
  match container.freeEntries with
  | result :: freeEntries => (result, { container with freeEntries })
  | [] => (container.size + 1, { container with size := container.size + 1 })

/-- `RegisterImplementation`. -/
def registerImplementation (value : Nat) : Nat × MultiAddressContainer :=
  let (entryId, container) := container.getNewEntry
  (entryId, container.setEntry entryId ⟨0, value⟩)

/-- The last entry of a list. -/
def lastLoop : Nat → Nat → Except ContainerFault Nat
  | rounds, iterEntry => do
    let current ← container.entry iterEntry
    if current.nextEntry = 0 then return iterEntry
    else
      match rounds with
      | 0 => .error .unfinished
      | rounds + 1 => lastLoop rounds current.nextEntry

/-- `Register` into a list. -/
def register (value startEntry : Nat) : Except ContainerFault MultiAddressContainer := do
  let (entryId, container) := container.registerImplementation value
  let last ← container.lastLoop container.size startEntry
  let current ← container.entry last
  return container.setEntry last { current with nextEntry := entryId }

/-- The entry with a value, the entry before it, and how many are before it. -/
def findLoop (value : Nat) : Nat → Nat → Option Nat → Nat →
    Except ContainerFault (Nat × Option Nat × Nat)
  | rounds, iterEntry, previous, count => do
    let current ← container.entry iterEntry
    if current.value = value then return (iterEntry, previous, count)
    else
      match rounds with
      | 0 => .error .unfinished
      | rounds + 1 => findLoop value rounds current.nextEntry (some iterEntry) (count + 1)

/-- What `Unregister` leaves: whether more than one entry remains, and where the list starts. -/
structure Unregistered where
  container : MultiAddressContainer
  moreThanOneRemaining : Bool
  resultStart : Nat

/-- Whether more than one entry remains, as the entries next to the one that is removed tell it. -/
def moreThanOne (current : Entry) (previous : Option Nat) : Except ContainerFault Bool :=
  if current.nextEntry ≠ 0 then do
    let next ← container.entry current.nextEntry
    return decide (next.nextEntry ≠ 0) || previous.isSome
  else .ok false

/-- The list without an entry, and where it starts. -/
def unlink (current : Entry) (startEntry : Nat) :
    Option Nat → Except ContainerFault (MultiAddressContainer × Nat)
  | some previous => do
    let entry ← container.entry previous
    return (container.setEntry previous { entry with nextEntry := current.nextEntry }, startEntry)
  | none => .ok (container, current.nextEntry)

/-- `Unregister`. -/
def unregister (value startEntry : Nat) : Except ContainerFault Unregistered := do
  let (iterEntry, previous, count) ← container.findLoop value container.size startEntry none 0
  let current ← container.entry iterEntry
  let moreThanOneRemaining ← container.moreThanOne current previous
  let (unlinked, resultStart) ← container.unlink current startEntry previous
  return ⟨{ unlinked with freeEntries := unlinked.freeEntries ++ [iterEntry] },
    moreThanOneRemaining || decide (1 < count), resultStart⟩

/-- `ReleaseEntry`. -/
def releaseEntry (startEntry : Nat) : Except ContainerFault (Nat × MultiAddressContainer) := do
  let current ← container.entry startEntry
  return (current.value, { container with freeEntries := container.freeEntries ++ [startEntry] })

end MultiAddressContainer

/-! ## The manager -/

def pageBits : Nat := 12
def pageSize : Nat := 2 ^ pageBits
def multiFlagBits : Nat := 31
def multiFlag : Nat := 2 ^ multiFlagBits
def multiMask : Nat := multiFlag - 1
def asidStartBit : Nat := 39

/-- The tables of the manager, for pages of the device and of the physical memory by their
number. -/
structure DeviceMemoryManager where
  compressedPhysicalPtr : Nat → Nat
  compressedDeviceAddr : Nat → Nat
  continuityTracker : Nat → Nat
  cpuBackingAddress : Nat → Nat
  multiDevAddress : MultiAddressContainer

/-- The physical address that the memory of a process has behind a virtual one, if any. -/
abbrev ProcessMemory : Type := Nat → Option Nat

namespace DeviceMemoryManager

/-- A manager after its construction. -/
def new : DeviceMemoryManager where
  compressedPhysicalPtr := fun _ => 0
  compressedDeviceAddr := fun _ => 0
  continuityTracker := fun _ => 1
  cpuBackingAddress := fun _ => 0
  multiDevAddress := ⟨fun _ => ⟨0, 0⟩, 0, []⟩

variable (manager : DeviceMemoryManager)

/-- An entry of `compressed_device_addr` is written. -/
def setDeviceAddr (page value : Nat) : DeviceMemoryManager :=
  { manager with compressedDeviceAddr := update manager.compressedDeviceAddr page value }

/-- An entry of `compressed_physical_ptr` is written. -/
def setPhysicalPtr (page value : Nat) : DeviceMemoryManager :=
  { manager with compressedPhysicalPtr := update manager.compressedPhysicalPtr page value }

/-- `InsertCPUBacking`. -/
def insertCpuBacking (page address asid : Nat) : DeviceMemoryManager :=
  { manager with
    cpuBackingAddress := update manager.cpuBackingAddress page (address ||| asid <<< asidStartBit) }

/-- A device page is entered for a physical page. -/
def insertReverse (newDev physicalPage : Nat) : Except ContainerFault DeviceMemoryManager := do
  let baseDev := manager.compressedDeviceAddr physicalPage
  if baseDev = 0 then return manager.setDeviceAddr physicalPage newDev
  else
    let (startId, manager) :=
      if baseDev >>> multiFlagBits = 0 then
        let (startId, container) := manager.multiDevAddress.registerImplementation baseDev
        (startId, { manager with multiDevAddress := container }.setDeviceAddr physicalPage
          (multiFlag ||| startId))
      else (baseDev &&& multiMask, manager)
    let container ← manager.multiDevAddress.register newDev startId
    return { manager with multiDevAddress := container }

/-- A round of `Map`. -/
def mapPage (processMemory : ProcessMemory) (asid page virtualAddress : Nat) :
    Except ContainerFault DeviceMemoryManager :=
  match processMemory virtualAddress with
  | none => .ok (manager.setPhysicalPtr page 0)
  | some ptr =>
    let physAddr := ((ptr >>> pageBits) % 2 ^ 32 + 1) % 2 ^ 32
    ((manager.setPhysicalPtr page physAddr).insertCpuBacking page virtualAddress asid).insertReverse
    page (physAddr - 1)

/-- A page without its device page. -/
def removeReverse (dev physicalPage : Nat) : Except ContainerFault DeviceMemoryManager := do
  let baseDev := manager.compressedDeviceAddr physicalPage
  if baseDev >>> multiFlagBits = 0 then return manager.setDeviceAddr physicalPage 0
  else
    let result ← manager.multiDevAddress.unregister dev (baseDev &&& multiMask)
    if result.moreThanOneRemaining then
      return { manager with multiDevAddress := result.container }.setDeviceAddr physicalPage
        (result.resultStart ||| multiFlag)
    else
      let (value, container) ← result.container.releaseEntry result.resultStart
      return { manager with multiDevAddress := container }.setDeviceAddr physicalPage value

/-- A round of `Unmap`. -/
def unmapPage (page : Nat) : Except ContainerFault DeviceMemoryManager :=
  let physAddr := manager.compressedPhysicalPtr page
  let manager := manager.setPhysicalPtr page 0
  let manager := { manager with cpuBackingAddress := update manager.cpuBackingAddress page 0 }
  if physAddr ≠ 0 then manager.removeReverse page (physAddr - 1) else .ok manager

/-- The loop of `Map`. -/
def mapLoop (processMemory : ProcessMemory) (asid startPageD virtualAddress : Nat) :
    Nat → Nat → DeviceMemoryManager → Except ContainerFault DeviceMemoryManager
  | 0, _, manager => .ok manager
  | count + 1, i, manager => do
    let manager ← manager.mapPage processMemory asid (startPageD + i)
      (virtualAddress + i * pageSize)
    mapLoop processMemory asid startPageD virtualAddress count (i + 1) manager

/-- The loop of `Unmap`. -/
def unmapLoop (startPageD : Nat) : Nat → Nat → DeviceMemoryManager →
    Except ContainerFault DeviceMemoryManager
  | 0, _, manager => .ok manager
  | count + 1, i, manager => do
    let manager ← manager.unmapPage (startPageD + i)
    unmapLoop startPageD count (i + 1) manager

/-- The pages of a size, rounded up. -/
def numPages (size : Nat) : Nat := ((size + (pageSize - 1)) / pageSize * pageSize) >>> pageBits

variable (physicalBase : Nat)

/-- The pointers of the host, of which the null pointer is zero. -/
def hostPointer : Option Nat → Nat
  | none => 0
  | some address => physicalBase + address

/-- The rounds of `TrackContinuityImpl`, from the last page to the first. -/
def trackLoop (physicalBase : Nat) (processMemory : ProcessMemory)
    (startPageD virtualAddress : Nat) : Nat → Nat → Nat → DeviceMemoryManager → DeviceMemoryManager
  | 0, _, _, manager => manager
  | index + 1, lastPtr, pageCount, manager =>
    let newPtr := hostPointer physicalBase (processMemory (virtualAddress + index * pageSize))
    let pageCount := if newPtr + pageSize = lastPtr then pageCount + 1 else 1
    trackLoop physicalBase processMemory startPageD virtualAddress index newPtr pageCount
      { manager with
        continuityTracker := update manager.continuityTracker (startPageD + index)
          (pageCount % 2 ^ 32) }

/-- `TrackContinuityImpl`. -/
def trackContinuityImpl (processMemory : ProcessMemory)
    (address virtualAddress size : Nat) : DeviceMemoryManager :=
  manager.trackLoop physicalBase processMemory (address >>> pageBits) virtualAddress (numPages size)
    0 1

/-- `Map`. -/
def map (processMemory : ProcessMemory) (asid address virtualAddress size : Nat) (track : Bool) :
    Except ContainerFault DeviceMemoryManager := do
  let manager ← manager.mapLoop processMemory asid (address >>> pageBits) virtualAddress
    (numPages size) 0
  return if track then manager.trackContinuityImpl physicalBase processMemory address virtualAddress
    size else manager

/-- `Unmap`. -/
def unmap (address size : Nat) : Except ContainerFault DeviceMemoryManager :=
  manager.unmapLoop (address >>> pageBits) (numPages size) 0

/-- `InnerGatherDeviceAddresses` of a physical page. -/
def innerGatherDeviceAddresses (physAddr : Nat) : Except ContainerFault (List Nat) :=
  let backing := manager.compressedDeviceAddr physAddr
  if backing >>> multiFlagBits ≠ 0 then manager.multiDevAddress.gatherValues (backing &&& multiMask)
  else .ok [backing]

/-! ## Access to blocks -/

/-- `GetPointer`: an address of the host, or the null pointer. -/
def getPointer (physicalBase address : Nat) : Option Nat :=
  let physAddr := manager.compressedPhysicalPtr (address >>> pageBits)
  if physAddr = 0 then none
    else some (physicalBase + ((physAddr - 1) <<< pageBits + address % pageSize))

/-- `GetSpan`. -/
def getSpan (physicalBase srcAddr size : Nat) : Option Nat :=
  let pageIndex := srcAddr >>> pageBits
  let subbits := srcAddr % pageSize
  if (size + subbits) % 2 ^ 64 ≤ manager.continuityTracker pageIndex <<< pageBits then
    manager.getPointer physicalBase srcAddr
  else none

/-- `WalkBlock`, whose rounds are no more than the bytes. What its functions log is left out. -/
def walkBlock {σ : Type} (physicalBase : Nat) (onUnmapped : Nat → σ → σ)
    (onMemory : Nat → Nat → σ → σ)
    (increment : Nat → σ → σ) : Nat → Nat → Nat → Nat → σ → Option σ
  | rounds, pageIndex, pageOffset, remainingSize, state =>
    if remainingSize = 0 then some state
    else
      match rounds with
      | 0 => none
      | rounds + 1 =>
        let nextPages := manager.continuityTracker pageIndex
        let copyAmount := min (nextPages <<< pageBits - pageOffset) remainingSize
        let physAddr := manager.compressedPhysicalPtr pageIndex
        let state :=
          if physAddr = 0 then onUnmapped copyAmount state
          else onMemory copyAmount (physicalBase + ((physAddr - 1) <<< pageBits + pageOffset)) state
        walkBlock physicalBase onUnmapped onMemory increment rounds (pageIndex + nextPages) 0
          (remainingSize - copyAmount) (increment copyAmount state)

/-- Bytes by their address. -/
abbrev Bytes : Type := Nat → UInt8

/-- `std::memset`. -/
def memset (dest : Bytes) (destPointer : Nat) (value : UInt8) (amount : Nat) : Bytes := fun i =>
  if destPointer ≤ i ∧ i < destPointer + amount then value else dest i

/-- `std::memcpy`. -/
def memcpy (dest : Bytes) (destPointer : Nat) (src : Bytes) (srcPointer amount : Nat) : Bytes :=
  fun i =>
  if destPointer ≤ i ∧ i < destPointer + amount then src (srcPointer + (i - destPointer))
    else dest i

/-- The bytes that a walk writes to, and the pointer that it moves. -/
structure Copying where
  bytes : Bytes
  pointer : Nat

/-- The pointer is moved on. -/
def Copying.increment (amount : Nat) (copying : Copying) : Copying :=
  { copying with pointer := copying.pointer + amount }

/-- `ReadBlockUnsafe` from the memory of the host into a buffer. -/
def readBlockUnsafe (memory : Bytes) (address : Nat) (dest : Bytes)
    (destPointer size : Nat) : Option Copying :=
  manager.walkBlock physicalBase
    (fun copyAmount copying =>
    { copying with bytes := memset copying.bytes copying.pointer 0 copyAmount })
    (fun copyAmount srcPtr copying =>
    { copying with bytes := memcpy copying.bytes copying.pointer memory srcPtr copyAmount })
    Copying.increment size (address >>> pageBits) (address % pageSize) size ⟨dest, destPointer⟩

/-- `WriteBlockUnsafe` from a buffer into the memory of the host. -/
def writeBlockUnsafe (memory : Bytes) (address : Nat) (src : Bytes)
    (srcPointer size : Nat) : Option Copying :=
  manager.walkBlock physicalBase (fun _ copying => copying)
    (fun copyAmount dstPtr copying =>
    { copying with bytes := memcpy copying.bytes dstPtr src copying.pointer copyAmount })
    Copying.increment size (address >>> pageBits) (address % pageSize) size ⟨memory, srcPointer⟩

end DeviceMemoryManager

end SumiEmu.Core
