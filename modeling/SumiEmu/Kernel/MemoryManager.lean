/-
# The memory manager

The physical memory of a pool is divided among managers, each of which has a page heap. A request
for a page group takes the largest blocks that it has use for from the managers in turn, then
smaller ones, and so on. If a block cannot be recorded, or there are not enough pages, everything
that the group has is freed again.

The managers of a pool are a list, from the front. The manager of an address is found by its
extents, since the regions that the memory layout attributes to a manager are those. The map of a
manager has a bit for each of its pages that the optimized process has allocated.
-/

import SumiEmu.Kernel.PageGroup
import SumiEmu.Kernel.PageHeapRun

namespace SumiEmu.Kernel.KMemoryManager

open Fallible
open KPageHeap (getBlockIndex getBlockNumPages)

/-- A fault of a page heap, or an address that no manager has. -/
inductive Fault
  | heap (fault : KPageHeap.Fault)
  | noManager
  deriving DecidableEq, Repr

/-- `Direction`. -/
inductive Direction
  | fromFront
  | fromBack
  deriving DecidableEq, Repr

/-- `KMemoryManager::Impl`. -/
structure Impl where
  heap : KPageHeap
  optimizeMap : Nat → BitVec 64 := fun _ => 0

namespace Impl

/-- `GetEndAddress`. -/
def getEndAddress (m : Impl) : Nat := m.heap.heapAddress + m.heap.heapSize

/-- `GetPageOffset`. -/
def getPageOffset (m : Impl) (address : Nat) : Nat := (address - m.heap.heapAddress) / pageSize

/-- `AllocateBlock`. -/
def allocateBlock (m : Impl) (index : Nat) (random : Bool) : Except Fault (Nat × Impl) := do
  let (block, heap) ← (m.heap.allocateBlock index random).mapError .heap
  return (block, { m with heap })

/-- `Free`. -/
def free (m : Impl) (addr numPages : Nat) : Except Fault Impl := do
  let heap ← (m.heap.free addr numPages).mapError .heap
  return { m with heap }

/-- The loop of `TrackUnoptimizedAllocation`, for the given number of pages from an offset on. -/
def trackUnoptimized (map : Nat → BitVec 64) (offset : Nat) : Nat → Nat → BitVec 64
  | 0 => map
  | numPages + 1 =>
    trackUnoptimized
      (Function.update map (offset / 64) (map (offset / 64) &&& ~~~(1#64 <<< (offset % 64))))
        (offset + 1) numPages

/-- `TrackUnoptimizedAllocation`. -/
def trackUnoptimizedAllocation (m : Impl) (block numPages : Nat) : Impl :=
  { m with optimizeMap := trackUnoptimized m.optimizeMap (m.getPageOffset block) numPages }

end Impl

/-- How far an allocation has come: the group, how many pages are missing, and whether a block could
not be recorded. -/
structure Progress where
  group : KPageGroup
  numPages : Nat
  failed : Bool := false
  deriving DecidableEq, Repr

/-- The innermost loop of `AllocatePageGroupImpl`, which takes blocks from one manager. -/
def allocateBlocks (index : Nat) (unoptimized random : Bool) :
    Nat → Impl → Progress → Except Fault (Impl × Progress)
  | 0, curManager, p => return (curManager, p)
  | rounds + 1, curManager, p => do
    let pagesPerAlloc := getBlockNumPages index
    let (allocatedBlock, curManager) ← curManager.allocateBlock index random
    if allocatedBlock = 0 then return (curManager, p)
    else
      match p.group.addBlock allocatedBlock pagesPerAlloc with
      | none => do
        -- the block is not leaked
        let curManager ← curManager.free allocatedBlock pagesPerAlloc
        return (curManager, { p with failed := true })
      | some group =>
        let curManager :=
          if unoptimized then curManager.trackUnoptimizedAllocation allocatedBlock pagesPerAlloc
            else curManager
        allocateBlocks index unoptimized random rounds curManager
          { p with group, numPages := p.numPages - pagesPerAlloc }

/-- The loop over the managers. The inner loop runs as often as a block is not too large. -/
def allocateFromManagers (index : Nat) (unoptimized random : Bool) :
    List Impl → Progress → Except Fault (List Impl × Progress)
  | [], p => return ([], p)
  | curManager :: rest, p => do
    let (curManager, p) ← allocateBlocks index unoptimized random
      (p.numPages / getBlockNumPages index) curManager p
    if p.failed then return (curManager :: rest, p)
    else
      let (rest, p) ← allocateFromManagers index unoptimized random rest p
      return (curManager :: rest, p)

/-- The loop over the block sizes below an index. -/
def allocateSizes (unoptimized random : Bool) :
    Nat → List Impl → Progress → Except Fault (List Impl × Progress)
  | 0, managers, p => return (managers, p)
  | index + 1, managers, p =>
    if p.numPages > 0 then do
      let (managers, p) ← allocateFromManagers index unoptimized random managers p
      if p.failed then return (managers, p) else allocateSizes unoptimized random index managers p
    else return (managers, p)

/-- One round of the loop that frees the group: `GetManager`, and what of the block lies before the
end of the manager. -/
def freeNode (it : KBlockInfo) : List Impl → Except Fault (List Impl)
  | [] => .error .noManager
  | manager :: rest =>
    if manager.heap.heapAddress ≤ it.getAddress ∧ it.getAddress < manager.getEndAddress then do
      let nodeNumPages := min it.numPages ((manager.getEndAddress - it.getAddress) / pageSize)
      let manager ← manager.free it.getAddress nodeNumPages
      return manager :: rest
    else do
      let rest ← freeNode it rest
      return manager :: rest

/-- Every node of a group is freed. -/
def freeGroup : List KBlockInfo → List Impl → Except Fault (List Impl)
  | [], managers => return managers
  | it :: rest, managers => do
    let managers ← freeNode it managers
    freeGroup rest managers

/-- The results of an allocation. -/
inductive Result
  | success
  | outOfMemory
  | outOfResource
  deriving DecidableEq, Repr

/-- The managers in the order in which they are asked. -/
def inOrder (dir : Direction) (managers : List Impl) : List Impl :=
  match dir with
  | .fromFront => managers
  | .fromBack => managers.reverse

/-- What is done on failure. -/
def failWith (result : Result) (group : KPageGroup) (dir : Direction) (order : List Impl) :
    Except Fault (Result × List Impl × KPageGroup) := do
  let order ← freeGroup group.blocks order
  return (result, inOrder dir order, group.finalize)

/-- `AllocatePageGroupImpl`, with an empty group. -/
def allocatePageGroupImpl (managers : List Impl) (freeInfos numPages : Nat) (dir : Direction)
    (unoptimized random : Bool) : Except Fault (Result × List Impl × KPageGroup) :=
  match getBlockIndex numPages with
  | none => return (.outOfMemory, managers, { freeInfos })
  | some heapIndex => do
    let (order, p) ← allocateSizes unoptimized random (heapIndex + 1) (inOrder dir managers)
      ⟨{ freeInfos }, numPages, false⟩
    if p.failed then failWith .outOfResource p.group dir order
    else if p.numPages = 0 then return (.success, inOrder dir order, p.group)
    else failWith .outOfMemory p.group dir order

end SumiEmu.Kernel.KMemoryManager
