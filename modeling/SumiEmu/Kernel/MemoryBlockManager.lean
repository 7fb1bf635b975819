/-
# The memory block manager

The manager keeps the blocks of an address space in a red-black tree ordered by
address. Here the tree is the list of its blocks in order, and an iterator is
the suffix of the list from the block it points at. A new block that `Split`
fills in takes the pages just before the block it was split from, so inserting
it into the tree puts it immediately before that block.

The four update functions share one loop. It walks the blocks that meet the
range, leaves alone those that need no change, splits the others at the two
ends of the range and changes what lies inside. Afterwards `CoalesceForUpdate`
walks the same blocks again, from the one before the range on, and merges the
neighbours that can be merged.

Two things can go wrong, and both are faults of the model: the update allocator
can run out of blocks, and an iterator can be stepped off an end of the tree,
which dereferences a null node.
-/

import SumiEmu.Foundations.Fallible
import SumiEmu.Kernel.MemoryBlock

namespace SumiEmu.Kernel

/-- The two ways an update can go wrong. -/
inductive KMemoryBlockManager.Fault
  | allocatorExhausted
  | nullIterator
  deriving DecidableEq, Repr

open KMemoryBlockManager (Fault)

/-- `KMemoryBlockManagerUpdateAllocator`: the blocks from `index` on are left. -/
structure KMemoryBlockManagerUpdateAllocator where
  index : Nat := 0
  deriving DecidableEq, Repr

namespace KMemoryBlockManagerUpdateAllocator

/-- `MaxBlocks`. -/
def maxBlocks : Nat := 2

/-- `Allocate`, with its assertion that a block is left. -/
def allocate (a : KMemoryBlockManagerUpdateAllocator) :
    Except Fault KMemoryBlockManagerUpdateAllocator :=
  if a.index < maxBlocks then .ok ⟨a.index + 1⟩ else .error .allocatorExhausted

/-- `Free`. A full allocator hands the block to the slab. -/
def free (a : KMemoryBlockManagerUpdateAllocator) : KMemoryBlockManagerUpdateAllocator :=
  ⟨a.index - 1⟩

end KMemoryBlockManagerUpdateAllocator

open KMemoryBlockManagerUpdateAllocator (maxBlocks)

/-- `KMemoryBlockManager`, its tree as the list of its blocks in order. -/
structure KMemoryBlockManager where
  blocks : List KMemoryBlock
  startAddress : Nat
  endAddress : Nat
  deriving DecidableEq, Repr

namespace KMemoryBlockManager

/-- `Initialize`. -/
def initializeManager (st nd : Nat) : KMemoryBlockManager where
  blocks := [.initializeBlock st ((nd - st) / pageSize) KMemoryState.free 0 0]
  startAddress := st
  endAddress := nd

/-- Whether `find` stops at a block: it compares as equal to a block of one
page at the address. -/
def found (address : Nat) (b : KMemoryBlock) : Bool :=
  (KMemoryBlock.initializeBlock address 1 KMemoryState.free 0 0).compare b == .eq

variable (m : KMemoryBlockManager)

/-- The blocks before the one `FindIterator` returns. -/
def beforeIterator (address : Nat) : List KMemoryBlock :=
  m.blocks.takeWhile fun b => !found address b

/-- `FindIterator`: the blocks from the one that contains the address on. -/
def findIterator (address : Nat) : List KMemoryBlock :=
  m.blocks.dropWhile fun b => !found address b

/-- The loop of `CoalesceForUpdate`, from the pair of `prev` and the block after it. -/
def coalesceLoop (stopAddress : Nat) : KMemoryBlock → List KMemoryBlock →
    KMemoryBlockManagerUpdateAllocator → List KMemoryBlock × KMemoryBlockManagerUpdateAllocator
  | prev, [], allocator => ([prev], allocator)
  | prev, it :: rest, allocator =>
    if prev.canMergeWith it then
      if stopAddress < (prev.add it).endAddress then (prev.add it :: rest, allocator.free)
      else coalesceLoop stopAddress (prev.add it) rest allocator.free
    else if stopAddress < it.endAddress then (prev :: it :: rest, allocator)
    else
      let (rest, allocator) := coalesceLoop stopAddress it rest allocator
      (prev :: rest, allocator)

/-- `CoalesceForUpdate`. Stepping back from the first block, or from the end of
the tree, yields a null iterator, and the loop begins by stepping it forward. -/
def coalesceForUpdate (allocator : KMemoryBlockManagerUpdateAllocator) (address numPages : Nat) :
    Except Fault (KMemoryBlockManager × KMemoryBlockManagerUpdateAllocator) :=
  let stopAddress := address + numPages * pageSize
  match m.findIterator address with
  | [] => .error .nullIterator
  | it :: rest =>
    if address = m.startAddress then
      let (blocks, allocator) := coalesceLoop stopAddress it rest allocator
      .ok ({ m with blocks := m.beforeIterator address ++ blocks }, allocator)
    else
      match (m.beforeIterator address).getLast? with
      | none => .error .nullIterator
      | some prev =>
        let (blocks, allocator) := coalesceLoop stopAddress prev (it :: rest) allocator
        .ok ({ m with blocks := (m.beforeIterator address).dropLast ++ blocks }, allocator)

/-- Create a new block before the range and insert it, if the block starts before it. -/
def splitBefore (it : KMemoryBlock) (curAddress : Nat)
    (allocator : KMemoryBlockManagerUpdateAllocator) :
    Except Fault (List KMemoryBlock × KMemoryBlock × KMemoryBlockManagerUpdateAllocator) :=
  if it.address ≠ curAddress then do
    let allocator ← allocator.allocate
    let (newBlock, it) := it.split curAddress
    return ([newBlock], it, allocator)
  else return ([], it, allocator)

/-- Create a new block for the pages of the range and insert it, if the block
ends after it. The new block is the one to change, the old one is left behind it. -/
def splitAfter (it : KMemoryBlock) (remainingSize : Nat)
    (allocator : KMemoryBlockManagerUpdateAllocator) :
    Except Fault (KMemoryBlock × Option KMemoryBlock × KMemoryBlockManagerUpdateAllocator) :=
  if it.size > remainingSize then do
    let allocator ← allocator.allocate
    let (newBlock, it) := it.split (it.address + remainingSize)
    return (newBlock, some it, allocator)
  else return (it, none, allocator)

/-- The loop of the four update functions, from the block `it` points at. A
block is skipped when it needs no change, and otherwise changed by `visit`. -/
def updateLoop (skip : KMemoryBlock → Bool) (visit : KMemoryBlock → KMemoryBlock) :
    List KMemoryBlock → Nat → Nat → KMemoryBlockManagerUpdateAllocator →
      Except Fault (List KMemoryBlock × KMemoryBlockManagerUpdateAllocator)
  | it, _, 0, allocator => return (it, allocator)
  | [], _, _ + 1, _ => .error .nullIterator
  | it :: rest, curAddress, remaining + 1, allocator =>
    let remainingSize := (remaining + 1) * pageSize
    if skip it then
      if curAddress + remainingSize < it.endAddress then return (it :: rest, allocator)
      else do
        let (rest, allocator) ← updateLoop skip visit rest it.endAddress
          ((curAddress + remainingSize - it.endAddress) / pageSize) allocator
        return (it :: rest, allocator)
    else do
      let (before, it, allocator) ← splitBefore it curAddress allocator
      let (it, after, allocator) ← splitAfter it remainingSize allocator
      match after with
      -- the new block holds all the remaining pages, so the loop ends here
      | some after => return (before ++ visit it :: after :: rest, allocator)
      | none =>
        let (rest, allocator) ← updateLoop skip visit rest (it.address + it.size)
          (remaining + 1 - it.numPages) allocator
        return (before ++ visit it :: rest, allocator)

/-- What the four update functions share: find the first block, run the loop,
and coalesce. -/
def updateBlocks (skip : KMemoryBlock → Bool) (visit : KMemoryBlock → KMemoryBlock)
    (m : KMemoryBlockManager) (allocator : KMemoryBlockManagerUpdateAllocator)
    (address numPages : Nat) :
    Except Fault (KMemoryBlockManager × KMemoryBlockManagerUpdateAllocator) := do
  let (it, allocator) ←
    updateLoop skip visit (m.findIterator address) address numPages allocator
  coalesceForUpdate { m with blocks := m.beforeIterator address ++ it } allocator address numPages

/-- `Update`. -/
def update (m : KMemoryBlockManager) (allocator : KMemoryBlockManagerUpdateAllocator)
    (address numPages : Nat) (state : KMemoryState) (perm : KMemoryPermission)
    (attr : KMemoryAttribute)
    (setDisableAttr clearDisableAttr : KMemoryBlockDisableMergeAttribute) :
    Except Fault (KMemoryBlockManager × KMemoryBlockManagerUpdateAllocator) :=
  m.updateBlocks (fun b => b.hasProperties state perm attr)
    (fun b => b.update state perm attr (b.address == address) setDisableAttr clearDisableAttr)
    allocator address numPages

/-- `UpdateIfMatch`. -/
def updateIfMatch (allocator : KMemoryBlockManagerUpdateAllocator)
    (address numPages : Nat) (testState : KMemoryState) (testPerm : KMemoryPermission)
    (testAttr : KMemoryAttribute) (state : KMemoryState) (perm : KMemoryPermission)
    (attr : KMemoryAttribute)
    (setDisableAttr clearDisableAttr : KMemoryBlockDisableMergeAttribute) :
    Except Fault (KMemoryBlockManager × KMemoryBlockManagerUpdateAllocator) :=
  m.updateBlocks
    (fun b => !(b.hasProperties testState testPerm testAttr && !b.hasProperties state perm attr))
    (fun b => b.update state perm attr false setDisableAttr clearDisableAttr)
    allocator address numPages

/-- `UpdateLock`. -/
def updateLock (allocator : KMemoryBlockManagerUpdateAllocator) (address numPages : Nat)
    (lockFunc : KMemoryBlock → KMemoryPermission → Bool → Bool → KMemoryBlock)
    (perm : KMemoryPermission) :
    Except Fault (KMemoryBlockManager × KMemoryBlockManagerUpdateAllocator) :=
  m.updateBlocks (fun _ => false)
    (fun b => lockFunc b perm (b.address == address)
      (b.endAddress == address + numPages * pageSize))
    allocator address numPages

/-- `UpdateAttribute`. -/
def updateAttribute (m : KMemoryBlockManager) (allocator : KMemoryBlockManagerUpdateAllocator)
    (address numPages : Nat) (mask attr : KMemoryAttribute) :
    Except Fault (KMemoryBlockManager × KMemoryBlockManagerUpdateAllocator) :=
  m.updateBlocks (fun b => (b.memoryAttribute &&& mask) == attr)
    (fun b => b.updateAttribute mask attr) allocator address numPages

/-- The test `CheckState` makes of a single block: a lock or share attribute
comes with a count. -/
def checkCounts (b : KMemoryBlock) : Bool :=
  !((b.memoryAttribute &&& KMemoryAttribute.ipcLocked) != 0 && b.ipcLockCount == 0) &&
    !((b.memoryAttribute &&& KMemoryAttribute.deviceShared) != 0 && b.deviceUseCount == 0)

/-- The loop of `CheckState`, and the check of the last block after it. -/
def checkLoop : KMemoryBlock → List KMemoryBlock → Bool
  | prev, [] => checkCounts prev
  | prev, it :: rest =>
    !prev.canMergeWith it && prev.endAddress == it.address && checkCounts it && checkLoop it rest

/-- `CheckState`. -/
def checkState : Bool :=
  match m.blocks with
  | [] => true
  | prev :: rest => checkLoop prev rest

end KMemoryBlockManager

end SumiEmu.Kernel
