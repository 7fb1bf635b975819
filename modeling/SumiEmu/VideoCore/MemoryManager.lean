/-
# The memory manager of the GPU

Two page tables are overlaid: one of big pages and one of small pages. Every page of
either is free, reserved or mapped, and a mapped page has a page number of the device
memory. Entries are packed two bits to a page.

An address is translated through the big page when that is mapped and through the
small page otherwise. A block transfer walks the big pages; only below a free big page
does it walk the small ones.
-/

import Mathlib.Algebra.Order.Floor.Div
import Mathlib.Data.BitVec
import Mathlib.GroupTheory.GroupAction.Ring

namespace SumiEmu.VideoCore

open Function

/-! ## The device memory -/

/-- The physical memory, by byte. -/
abbrev PhysicalMemory := Nat → UInt8

/-- The bytes that a copy from memory reads. -/
def PhysicalMemory.load (memory : PhysicalMemory) (pointer amount : Nat) : List UInt8 :=
  (List.range amount).map fun i => memory (pointer + i)

/-- Copy bytes to memory. -/
def PhysicalMemory.store (memory : PhysicalMemory) (pointer : Nat) (bytes : List UInt8) :
    PhysicalMemory :=
  fun address =>
    if pointer ≤ address then (bytes[address - pointer]?).getD (memory address) else memory address

/-- The tables of `DeviceMemoryManager` that a transfer reads: the physical page behind each
device page, one up from its number, and the length of the run of physical pages from it on. -/
structure DeviceMemory where
  compressedPhysicalPtr : Nat → BitVec 32
  continuityTracker : Nat → BitVec 32

namespace DeviceMemory

variable (device : DeviceMemory)

def pageBits : Nat := 12

/-- `GetPointer`; a page without a physical page has none. -/
def getPointer (address : Nat) : Option Nat :=
  let physAddr := device.compressedPhysicalPtr (address / 2 ^ pageBits)
  if physAddr = 0 then none
  else some ((physAddr.toNat - 1) * 2 ^ pageBits + address % 2 ^ pageBits)

variable {σ : Type}

/-- The loop of `WalkBlock`, with a bound on its rounds that it does not exceed when no run is
empty. -/
def walkLoop (onUnmapped : Nat → σ → Option σ) (onMemory : Nat → Nat → σ → Option σ) :
    Nat → Nat → Nat → Nat → σ → Option σ
  | 0, _, _, remainingSize, state => if remainingSize = 0 then some state else none
  | rounds + 1, pageIndex, pageOffset, remainingSize, state =>
    if remainingSize = 0 then
      some state
    else do
      let nextPages := (device.continuityTracker pageIndex).toNat
      -- the difference is taken in 64 bits
      let copyAmount := min ((nextPages * 2 ^ pageBits + 2 ^ 64 - pageOffset) % 2 ^ 64)
        remainingSize
      let physAddr := device.compressedPhysicalPtr pageIndex
      let state ←
        if physAddr = 0 then onUnmapped copyAmount state
        else onMemory copyAmount ((physAddr.toNat - 1) * 2 ^ pageBits + pageOffset) state
      walkLoop onUnmapped onMemory rounds (pageIndex + nextPages) 0 (remainingSize - copyAmount)
        state

/-- `WalkBlock`. -/
def walkBlock (onUnmapped : Nat → σ → Option σ) (onMemory : Nat → Nat → σ → Option σ)
    (address size : Nat) (state : σ) : Option σ :=
  device.walkLoop onUnmapped onMemory size (address / 2 ^ pageBits) (address % 2 ^ pageBits) size
    state

/-- `ReadBlockUnsafe`, which appends what it reads to the destination. -/
def readBlockUnsafe (memory : PhysicalMemory) (address size : Nat) (dest : List UInt8) :
    Option (List UInt8) :=
  device.walkBlock (fun copyAmount dest => some (dest ++ List.replicate copyAmount 0))
    (fun copyAmount srcPtr dest => some (dest ++ memory.load srcPtr copyAmount)) address size dest

/-- The source of a write that is still to be copied, and the memory. -/
abbrev Writing := List UInt8 × PhysicalMemory

/-- Move the source pointer past bytes that are not written. -/
def skip (copyAmount : Nat) (writing : Writing) : Option Writing :=
  if writing.1.length < copyAmount then none else some (writing.1.drop copyAmount, writing.2)

/-- Copy from the source to memory and move the source pointer. -/
def copy (copyAmount dstPtr : Nat) (writing : Writing) : Option Writing :=
  if writing.1.length < copyAmount then none
  else some (writing.1.drop copyAmount, writing.2.store dstPtr (writing.1.take copyAmount))

/-- `WriteBlockUnsafe`. -/
def writeBlockUnsafe (address size : Nat) (writing : Writing) : Option Writing :=
  device.walkBlock skip copy address size writing

end DeviceMemory

/-! ## The page tables -/

/-- The bits of an address space and of its big pages. -/
structure Geometry where
  addressSpaceBits : Nat
  bigPageBits : Nat
  page_le : DeviceMemory.pageBits ≤ bigPageBits
  big_le : bigPageBits ≤ addressSpaceBits

/-- `EntryType`. -/
inductive EntryType
  | free
  | reserved
  | mapped
  deriving DecidableEq, Repr

namespace EntryType

/-- The number of an entry type. -/
def code : EntryType → BitVec 64
  | free => 0
  | reserved => 1
  | mapped => 2

/-- The entry type of a field; the walks take what is neither mapped nor reserved as free. -/
def ofCode (field : BitVec 64) : EntryType :=
  if field = 2 then mapped else if field = 1 then reserved else free

end EntryType

/-- The tables of `MemoryManager`. -/
structure MemoryManager where
  entries : Nat → BitVec 64 := fun _ => 0
  bigEntries : Nat → BitVec 64 := fun _ => 0
  pageTable : Nat → BitVec 32 := fun _ => 0
  bigPageTableDev : Nat → BitVec 32 := fun _ => 0
  bigPageContinuous : Nat → BitVec 64 := fun _ => 0

namespace MemoryManager

/-- Both the small pages of every manager and the pages of the device have 12 bits. -/
def pageBits : Nat := DeviceMemory.pageBits

def cpuPageBits : Nat := DeviceMemory.pageBits

def continuousBits : Nat := 64

variable (g : Geometry) (m : MemoryManager)

/-- The bits of the pages in use. -/
def usedPageBits (isBigPage : Bool) : Nat := if isBigPage then g.bigPageBits else pageBits

/-- `GetEntry`. -/
def getEntry (isBigPage : Bool) (position : Nat) : EntryType :=
  let position := position / 2 ^ usedPageBits g isBigPage
  let entryMask := (if isBigPage then m.bigEntries else m.entries) (position / 32)
  let subIndex := position % 32
  .ofCode ((entryMask >>> (2 * subIndex)) &&& 3)

/-- `SetEntry`. -/
def setEntry (isBigPage : Bool) (position : Nat) (entry : EntryType) : MemoryManager :=
  let position := position / 2 ^ usedPageBits g isBigPage
  let entryMask := (if isBigPage then m.bigEntries else m.entries) (position / 32)
  let subIndex := position % 32
  let changed := (~~~(3#64 <<< (2 * subIndex)) &&& entryMask) ||| (entry.code <<< (2 * subIndex))
  if isBigPage then { m with bigEntries := update m.bigEntries (position / 32) changed }
  else { m with entries := update m.entries (position / 32) changed }

/-- `PageEntryIndex`. -/
def pageEntryIndex (isBigPage : Bool) (gpuAddr : Nat) : Nat :=
  gpuAddr / 2 ^ usedPageBits g isBigPage % 2 ^ (g.addressSpaceBits - usedPageBits g isBigPage)

/-- `IsBigPageContinuous`. -/
def isBigPageContinuous (bigPageIndex : Nat) : Bool :=
  let entryMask := m.bigPageContinuous (bigPageIndex / continuousBits)
  let subIndex := bigPageIndex % continuousBits
  (entryMask >>> subIndex) &&& 1 != 0

/-- `SetBigPageContinuous`. -/
def setBigPageContinuous (bigPageIndex : Nat) (value : Bool) : MemoryManager :=
  let continuousMask := m.bigPageContinuous (bigPageIndex / continuousBits)
  let subIndex := bigPageIndex % continuousBits
  { m with
    bigPageContinuous := update m.bigPageContinuous (bigPageIndex / continuousBits)
      ((~~~(1#64 <<< subIndex) &&& continuousMask) ||| (if value then 1#64 <<< subIndex else 0)) }

/-! ## Changing the tables -/

variable (device : DeviceMemory)

/-- The lambda of `BigPageTableOp`: the small pages of a big page follow each other in memory. -/
def isContinuous (currentDevAddr : Nat) : Bool :=
  match device.getPointer currentDevAddr with
  | none => false
  | some basePtr => (List.range (2 ^ (g.bigPageBits - pageBits) - 1)).all fun i =>
      device.getPointer (currentDevAddr + (i + 1) * 2 ^ pageBits) ==
        some (basePtr + (i + 1) * 2 ^ pageBits)

/-- One round of `PageTableOp`. -/
def pageTableStep (entryType : EntryType) (gpuAddr devAddr : Nat) (m : MemoryManager) (i : Nat) :
    MemoryManager :=
  let offset := i * 2 ^ pageBits
  let currentGpuAddr := gpuAddr + offset
  let m := m.setEntry g false currentGpuAddr entryType
  if entryType = .mapped then
    let currentDevAddr := devAddr + offset
    { m with
      pageTable := update m.pageTable (pageEntryIndex g false currentGpuAddr)
        (BitVec.ofNat 32 (currentDevAddr / 2 ^ cpuPageBits)) }
  else
    m

/-- `PageTableOp`. -/
def pageTableOp (entryType : EntryType) (gpuAddr devAddr size : Nat) : MemoryManager :=
  (List.range (size ⌈/⌉ 2 ^ pageBits)).foldl (pageTableStep g entryType gpuAddr devAddr) m

/-- One round of `BigPageTableOp`. -/
def bigPageTableStep (entryType : EntryType) (gpuAddr devAddr : Nat) (m : MemoryManager) (i : Nat) :
    MemoryManager :=
  let offset := i * 2 ^ g.bigPageBits
  let currentGpuAddr := gpuAddr + offset
  let m := m.setEntry g true currentGpuAddr entryType
  if entryType = .mapped then
    let currentDevAddr := devAddr + offset
    let index := pageEntryIndex g true currentGpuAddr
    { m with
      bigPageTableDev := update m.bigPageTableDev index
        (BitVec.ofNat 32 (currentDevAddr / 2 ^ cpuPageBits)) : MemoryManager }.setBigPageContinuous
      index (isContinuous g device currentDevAddr)
  else
    m

/-- `BigPageTableOp`. -/
def bigPageTableOp (entryType : EntryType) (gpuAddr devAddr size : Nat) : MemoryManager :=
  (List.range (size ⌈/⌉ 2 ^ g.bigPageBits)).foldl
    (bigPageTableStep g device entryType gpuAddr devAddr) m

/-- `Map`. -/
def map (gpuAddr devAddr size : Nat) (isBigPages : Bool) : MemoryManager :=
  if isBigPages then m.bigPageTableOp g device .mapped gpuAddr devAddr size
  else m.pageTableOp g .mapped gpuAddr devAddr size

/-- `MapSparse`. -/
def mapSparse (gpuAddr size : Nat) (isBigPages : Bool) : MemoryManager :=
  if isBigPages then m.bigPageTableOp g device .reserved gpuAddr 0 size
  else m.pageTableOp g .reserved gpuAddr 0 size

/-- `Unmap`. -/
def unmap (gpuAddr size : Nat) : MemoryManager :=
  if size = 0 then m
  else (m.bigPageTableOp g device .free gpuAddr 0 size).pageTableOp g .free gpuAddr 0 size

/-! ## Translation -/

/-- `GpuToCpuAddress`. -/
def gpuToCpuAddress (gpuAddr : Nat) : Option Nat :=
  if ¬ gpuAddr < 2 ^ g.addressSpaceBits then
    none
  else if m.getEntry g true gpuAddr ≠ .mapped then
    if m.getEntry g false gpuAddr ≠ .mapped then
      none
    else
      let devAddrBase := (m.pageTable (pageEntryIndex g false gpuAddr)).toNat * 2 ^ cpuPageBits
      some (devAddrBase + gpuAddr % 2 ^ pageBits)
  else
    let devAddrBase := (m.bigPageTableDev (pageEntryIndex g true gpuAddr)).toNat * 2 ^ cpuPageBits
    some (devAddrBase + gpuAddr % 2 ^ g.bigPageBits)

/-! ## Block transfers -/

variable {σ : Type}

/-- The loop of `MemoryOperation`. -/
def memoryLoop (isBigPages : Bool) (funcMapped funcReserved funcUnmapped :
    Nat → Nat → Nat → σ → Option σ) (pageIndex : Nat)
      (pageOffset : Fin (2 ^ usedPageBits g isBigPages))
    (remainingSize currentAddress : Nat) (state : σ) : Option σ :=
  if remainingSize = 0 then
    some state
  else
    let copyAmount := min (2 ^ usedPageBits g isBigPages - pageOffset.val) remainingSize
    let step :=
      match m.getEntry g isBigPages currentAddress with
      | .mapped => funcMapped pageIndex pageOffset copyAmount state
      | .reserved => funcReserved pageIndex pageOffset copyAmount state
      | .free => funcUnmapped pageIndex pageOffset copyAmount state
    step >>= fun state =>
      memoryLoop isBigPages funcMapped funcReserved funcUnmapped (pageIndex + 1)
        ⟨0, Nat.two_pow_pos _⟩ (remainingSize - copyAmount) (currentAddress + copyAmount) state
termination_by remainingSize
decreasing_by
  have := pageOffset.isLt
  omega

/-- `MemoryOperation`, for functions that never stop the walk. -/
def memoryOperation (isBigPages : Bool) (gpuSrcAddr size : Nat) (funcMapped funcReserved
    funcUnmapped : Nat → Nat → Nat → σ → Option σ) (state : σ) : Option σ :=
  m.memoryLoop g isBigPages funcMapped funcReserved funcUnmapped
    (gpuSrcAddr / 2 ^ usedPageBits g isBigPages)
    ⟨gpuSrcAddr % 2 ^ usedPageBits g isBigPages, Nat.mod_lt _ (Nat.two_pow_pos _)⟩ size gpuSrcAddr
        state

/-- `ReadBlockUnsafe`: the bytes in the destination buffer, in order. A copy from a null
pointer fails. -/
def readBlockUnsafe (memory : PhysicalMemory) (gpuSrcAddr size : Nat) : Option (List UInt8) :=
  let setToZero (_ _ copyAmount : Nat) (dest : List UInt8) : Option (List UInt8) :=
    some (dest ++ List.replicate copyAmount 0)
  let mappedNormal (pageIndex offset copyAmount : Nat) (dest : List UInt8) := do
    let devAddrBase := (m.pageTable pageIndex).toNat * 2 ^ cpuPageBits + offset
    let physical ← device.getPointer devAddrBase
    some (dest ++ memory.load physical copyAmount)
  let mappedBig (pageIndex offset copyAmount : Nat) (dest : List UInt8) := do
    let devAddrBase := (m.bigPageTableDev pageIndex).toNat * 2 ^ cpuPageBits + offset
    if ¬ m.isBigPageContinuous pageIndex then
      device.readBlockUnsafe memory devAddrBase copyAmount dest
    else
      let physical ← device.getPointer devAddrBase
      some (dest ++ memory.load physical copyAmount)
  let readShortPages (pageIndex offset copyAmount : Nat) (dest : List UInt8) :=
    let base := pageIndex * 2 ^ g.bigPageBits + offset
    m.memoryOperation g false base copyAmount mappedNormal setToZero setToZero dest
  m.memoryOperation g true gpuSrcAddr size mappedBig setToZero readShortPages []

/-- `WriteBlockUnsafe`: the memory after the transfer. -/
def writeBlockUnsafe (memory : PhysicalMemory) (gpuDestAddr : Nat) (srcBuffer : List UInt8)
    (size : Nat) : Option PhysicalMemory := do
  let justAdvance (_ _ copyAmount : Nat) (writing : DeviceMemory.Writing) :=
    DeviceMemory.skip copyAmount writing
  let mappedNormal (pageIndex offset copyAmount : Nat) (writing : DeviceMemory.Writing) := do
    let devAddrBase := (m.pageTable pageIndex).toNat * 2 ^ cpuPageBits + offset
    let physical ← device.getPointer devAddrBase
    DeviceMemory.copy copyAmount physical writing
  let mappedBig (pageIndex offset copyAmount : Nat) (writing : DeviceMemory.Writing) := do
    let devAddrBase := (m.bigPageTableDev pageIndex).toNat * 2 ^ cpuPageBits + offset
    if ¬ m.isBigPageContinuous pageIndex then
      device.writeBlockUnsafe devAddrBase copyAmount writing
    else
      let physical ← device.getPointer devAddrBase
      DeviceMemory.copy copyAmount physical writing
  let writeShortPages (pageIndex offset copyAmount : Nat) (writing : DeviceMemory.Writing) :=
    let base := pageIndex * 2 ^ g.bigPageBits + offset
    m.memoryOperation g false base copyAmount mappedNormal justAdvance justAdvance writing
  let writing ← m.memoryOperation g true gpuDestAddr size mappedBig justAdvance writeShortPages
    (srcBuffer, memory)
  some writing.2

end MemoryManager

end SumiEmu.VideoCore
