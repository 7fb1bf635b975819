/-
# Address spaces of the GPU

An address space keeps the mappings of buffers by their offsets, and the allocations into which
buffers can be mapped at fixed offsets. Such a mapping is kept a second time, in the list of its
allocation. Pages come from two allocators, and the page tables are those of a memory manager. A
failed assertion is logged and the call goes on.
-/

import SumiEmu.Foundations.OrderedMap
import SumiEmu.Nvdrv.NvMap
import SumiEmu.VideoCore.MemoryManager

namespace SumiEmu.Nvdrv

open Foundations VideoCore

/-- `NvResult`. -/
inductive NvResult
  | success
  | notImplemented
  | badValue
  | insufficientMemory
  deriving DecidableEq

/-! ## The data -/

namespace Vm

def sumiPageSize : Nat := 0x1000
def pageSizeBits : Nat := 12

end Vm

namespace MappingFlags

/-- The flag for a given address. -/
def fixed (flags : BitVec 32) : Bool := flags.getLsbD 0
/-- The flag of a sparse mapping. -/
def sparse (flags : BitVec 32) : Bool := flags.getLsbD 1
/-- The flag of a remapping. -/
def remap (flags : BitVec 32) : Bool := flags.getLsbD 8

end MappingFlags

/-- `IoctlAllocSpace`. -/
structure IoctlAllocSpace where
  pages : BitVec 32
  pageSize : Nat
  flags : BitVec 32
  offset : Nat

/-- `IoctlFreeSpace`. -/
structure IoctlFreeSpace where
  offset : Nat
  pages : BitVec 32
  pageSize : Nat

/-- The offset in the buffer is signed, and stands here by its 64 bits. -/
structure IoctlMapBufferEx where
  flags : BitVec 32
  handle : Nat
  bufferOffset : Nat
  mappingSize : Nat
  offset : Nat

/-- `Mapping`. -/
structure Mapping where
  handle : Nat
  ptr : Nat
  offset : Nat
  size : Nat
  fixed : Bool
  bigPage : Bool
  sparseAlloc : Bool
  deriving DecidableEq

/-- `Allocation`. -/
structure Allocation where
  size : Nat := 0
  mappings : List Mapping := []
  pageSize : Nat := 0
  sparse : Bool := false
  bigPages : Bool := false

/-- What a mapping reads of a handle. -/
structure HandleDescription where
  origSize : Nat
  align : Nat

/-- The calls that are made on the handles and on an allocator of pages, with what they return and
what they leave, and the memory of the device. -/
structure Container (N A : Type*) where
  getHandle : Nat → N → Option HandleDescription
  pinHandle : Nat → N → Nat × N
  unpinHandle : Nat → N → N
  deviceMemory : N → DeviceMemory
  allocate : Nat → A → Nat × A
  allocateFixed : Nat → Nat → A → A
  free : Nat → Nat → A → A

/-- The handles `N` belong to the container, and `A` is an allocator. -/
structure NvhostAsGpu (N A : Type*) where
  initialised : Bool
  mappingMap : OrderedMap Nat Mapping
  allocationMap : OrderedMap Nat Allocation
  smallPageAllocator : A
  bigPageAllocator : A
  gmmu : MemoryManager
  nvmap : N

namespace NvhostAsGpu

variable {N A : Type*} (container : Container N A) (g : Geometry)

variable (as : NvhostAsGpu N A)

/-- The allocator of a page size. -/
def allocator (big : Bool) : A :=
  if big then as.bigPageAllocator else as.smallPageAllocator

/-- An allocator is written. -/
def setAllocator (big : Bool) (allocator : A) : NvhostAsGpu N A :=
  if big then { as with bigPageAllocator := allocator }
    else { as with smallPageAllocator := allocator }

/-- The bits of a page size. -/
def pageSizeBits (big : Bool) : Nat := if big then g.bigPageBits else Vm.pageSizeBits

/-- The size of pages is that of the big ones. Small pages are asked for first. -/
def isBig (pageSize : Nat) : Bool := pageSize ≠ Vm.sumiPageSize

/-! ## Allocations -/

def addAllocation (params : IoctlAllocSpace) : NvhostAsGpu N A :=
  let size := params.pages.toNat * params.pageSize
  let sparse := MappingFlags.sparse params.flags
  { as with
    gmmu :=
      if sparse then as.gmmu.mapSparse g (container.deviceMemory as.nvmap) params.offset size true
        else as.gmmu
    allocationMap := as.allocationMap.insert params.offset
      { size, mappings := [], pageSize := params.pageSize, sparse,
        bigPages := isBig params.pageSize } }

/-- `AllocateSpace`. -/
def allocateSpace (params : IoctlAllocSpace) : NvResult × IoctlAllocSpace × NvhostAsGpu N A :=
  if ¬ as.initialised then (.badValue, params, as)
  else if params.pageSize ≠ Vm.sumiPageSize ∧
    params.pageSize ≠ 2 ^ g.bigPageBits then (.badValue, params, as)
  else if params.pageSize ≠ 2 ^ g.bigPageBits ∧ MappingFlags.sparse params.flags then
    (.notImplemented, params, as)
  else
    let big := isBig params.pageSize
    if MappingFlags.fixed params.flags then
      let allocator := container.allocateFixed (params.offset / 2 ^ pageSizeBits g big % 2 ^ 32)
        params.pages.toNat (as.allocator big)
      (.success, params, (as.setAllocator big allocator).addAllocation container g params)
    else
      let (page, allocator) := container.allocate params.pages.toNat (as.allocator big)
      let params := { params with offset := page * 2 ^ pageSizeBits g big }
      if params.offset = 0 then (.insufficientMemory, params, as.setAllocator big allocator)
      else (.success, params, (as.setAllocator big allocator).addAllocation container g params)

/-! ## Mappings that are freed -/

/-- Pages of a sparse allocation stay reserved. -/
def releasePages (offset : Nat) (mapping : Mapping) : NvhostAsGpu N A :=
  let device := container.deviceMemory as.nvmap
  { as with
    gmmu :=
      if mapping.sparseAlloc then as.gmmu.mapSparse g device offset mapping.size mapping.bigPage
      else as.gmmu.unmap g device offset mapping.size }

/-- There is no result where `mapping_map.at` throws. -/
def freeMappingLocked (offset : Nat) : Option (NvhostAsGpu N A) :=
  match as.mappingMap.get? offset with
  | none => none
  | some mapping =>
    let bits := pageSizeBits g mapping.bigPage
    let alignedSize := alignUp mapping.size (2 ^ bits) % 2 ^ 64
    let freed := container.free (mapping.offset / 2 ^ bits % 2 ^ 32)
      (alignedSize / 2 ^ bits % 2 ^ 32) (as.allocator mapping.bigPage)
    let as := if mapping.fixed then as else as.setAllocator mapping.bigPage freed
    let as := { as with nvmap := container.unpinHandle mapping.handle as.nvmap }
    let as := as.releasePages container g offset mapping
    some { as with mappingMap := as.mappingMap.erase offset }

/-- The loop over the mappings of an allocation, and whether it has come to its end. What has been
freed when it throws stays so. -/
def freeMappings : List Mapping → NvhostAsGpu N A → Bool × NvhostAsGpu N A
  | [], as => (true, as)
  | mapping :: rest, as =>
    match as.freeMappingLocked container g mapping.offset with
    | none => (false, as)
    | some as => freeMappings rest as

/-- What `FreeSpace` does when the mappings have been freed. -/
def freeAllocation (params : IoctlFreeSpace) (allocation : Allocation) : NvhostAsGpu N A :=
  let gmmu :=
    if allocation.sparse then
      as.gmmu.unmap g (container.deviceMemory as.nvmap) params.offset allocation.size
    else as.gmmu
  let big := isBig params.pageSize
  let bits := pageSizeBits g big
  let freed := container.free (params.offset / 2 ^ bits % 2 ^ 32)
    (allocation.size / 2 ^ bits % 2 ^ 32) (as.allocator big)
  { as.setAllocator big freed with gmmu, allocationMap := as.allocationMap.erase params.offset }

/-- `allocation_map[offset]`, which adds an allocation where there is none. -/
def allocationAt (offset : Nat) : Allocation × NvhostAsGpu N A :=
  match as.allocationMap.get? offset with
  | some allocation => (allocation, as)
  | none => ({}, { as with allocationMap := as.allocationMap.insert offset {} })

/-- `FreeSpace`. -/
def freeSpace (params : IoctlFreeSpace) : NvResult × NvhostAsGpu N A :=
  if ¬ as.initialised then (.badValue, as)
  else
    let (allocation, as) := as.allocationAt params.offset
    if allocation.pageSize ≠ params.pageSize ∨
      allocation.size ≠ params.pages.toNat * params.pageSize then
      (.badValue, as)
    else
      match as.freeMappings container g allocation.mappings with
      | (false, as) => (.badValue, as)
      | (true, as) => (.success, as.freeAllocation container g params allocation)

/-! ## Buffers -/

/-- A region of an existing mapping is mapped anew. -/
def remapBuffer (params : IoctlMapBufferEx) : NvResult × NvhostAsGpu N A :=
  match as.mappingMap.get? params.offset with
  | none => (.badValue, as)
  | some mapping =>
    if mapping.size < params.mappingSize then (.badValue, as)
    else
      let gpuAddress := (params.offset + params.bufferOffset) % 2 ^ 64
      let deviceAddress := (mapping.ptr + params.bufferOffset) % 2 ^ 64
      (.success, { as with
        gmmu := as.gmmu.map g (container.deviceMemory as.nvmap) gpuAddress deviceAddress
          params.mappingSize mapping.bigPage })

/-- The size that is mapped. -/
def bufferSize (params : IoctlMapBufferEx) (handle : HandleDescription) : Nat :=
  if params.mappingSize ≠ 0 then params.mappingSize else handle.origSize

/-- Alignments below that of small pages are asserted away, and taken for small pages. -/
def isBigPage (handle : HandleDescription) : Bool := handle.align % 2 ^ g.bigPageBits = 0

/-- The buffer is mapped at an offset in an allocation. -/
def mapFixed (params : IoctlMapBufferEx) (deviceAddress size : Nat)
    (bigPage : Bool) : NvResult × NvhostAsGpu N A :=
  match as.allocationMap.floor? params.offset with
  | none => (.badValue, as)
  | some (first, allocation) =>
    if (params.offset - first + size) % 2 ^ 64 > allocation.size then (.badValue, as)
    else
      let useBigPages := allocation.bigPages && bigPage
      let mapping : Mapping :=
        ⟨params.handle, deviceAddress, params.offset, size, true, useBigPages, allocation.sparse⟩
      (.success, { as with
        gmmu := as.gmmu.map g (container.deviceMemory as.nvmap) params.offset deviceAddress size
          useBigPages
        allocationMap := as.allocationMap.insert first
          { allocation with mappings := allocation.mappings ++ [mapping] }
        mappingMap := as.mappingMap.insert params.offset mapping })

/-- The buffer is mapped where pages are free. -/
def mapAnywhere (params : IoctlMapBufferEx) (deviceAddress size : Nat)
    (bigPage : Bool) : NvResult × IoctlMapBufferEx × NvhostAsGpu N A :=
  let bits := pageSizeBits g bigPage
  let alignedSize := alignUp size (2 ^ bits) % 2 ^ 64
  let (page, allocator) :=
    container.allocate (alignedSize / 2 ^ bits % 2 ^ 32) (as.allocator bigPage)
  let as := as.setAllocator bigPage allocator
  let params := { params with offset := page * 2 ^ bits }
  if params.offset = 0 then (.insufficientMemory, params, as)
  else
    let mapping : Mapping :=
      ⟨params.handle, deviceAddress, params.offset, size, false, bigPage, false⟩
    (.success, params, { as with
      gmmu := as.gmmu.map g (container.deviceMemory as.nvmap) params.offset deviceAddress
        alignedSize bigPage
      mappingMap := as.mappingMap.insert params.offset mapping })

/-- `MapBufferEx`. -/
def mapBufferEx (params : IoctlMapBufferEx) : NvResult × IoctlMapBufferEx × NvhostAsGpu N A :=
  if ¬ as.initialised then (.badValue, params, as)
  else if MappingFlags.remap params.flags then
    let (result, as) := as.remapBuffer container g params
    (result, params, as)
  else
    match container.getHandle params.handle as.nvmap with
    | none => (.badValue, params, as)
    | some handle =>
      let (address, nvmap) := container.pinHandle params.handle as.nvmap
      let as := { as with nvmap }
      let deviceAddress := (address + params.bufferOffset) % 2 ^ 64
      let size := bufferSize params handle
      let bigPage := isBigPage g handle
      if MappingFlags.fixed params.flags then
        let (result, as) := as.mapFixed container g params deviceAddress size bigPage
        (result, params, as)
      else as.mapAnywhere container g params deviceAddress size bigPage

/-- The size that goes back to the allocator is not aligned here. -/
def unmapBuffer (offset : Nat) : NvResult × NvhostAsGpu N A :=
  if ¬ as.initialised then (.badValue, as)
  else
    match as.mappingMap.get? offset with
    | none => (.success, as)
    | some mapping =>
      let bits := pageSizeBits g mapping.bigPage
      let freed := container.free (mapping.offset / 2 ^ bits % 2 ^ 32)
        (mapping.size / 2 ^ bits % 2 ^ 32) (as.allocator mapping.bigPage)
      let as := if mapping.fixed then as else as.setAllocator mapping.bigPage freed
      let as := as.releasePages container g offset mapping
      let as := { as with nvmap := container.unpinHandle mapping.handle as.nvmap }
      (.success, { as with mappingMap := as.mappingMap.erase offset })

end NvhostAsGpu

end SumiEmu.Nvdrv
