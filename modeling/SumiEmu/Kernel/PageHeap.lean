/-
# The page heap

A page heap keeps the free pages of a range of physical memory as free blocks
of a few sizes, one bitmap for each size. A block that is freed joins the other
free blocks that together make up one block of the next size, and a block that
is larger than an allocation needs is split and its remainder freed.

A physical address of zero stands for no block. Addresses are naturals, as the
end of the heap, rounded up to the largest block size, is a 64-bit address. The
size in use at initialization, which only a report reads, and the storage of
the bitmaps are left out.
-/

import SumiEmu.Kernel.PageBitmap

namespace SumiEmu.Kernel

open Fallible
open KPageBitmap (initializeBitmap)

/-- What the heap asserts or relies on: the search of a bitmap, that no block of
the largest size is passed on to a next size, and that some block size fits
into a range that is freed. -/
inductive KPageHeap.Fault
  | bitmap (fault : KPageBitmap.Fault)
  | pastLastSize
  | bigIndexAssertion
  deriving DecidableEq, Repr

open KPageHeap (Fault)

/-- `KPageHeap::Block`: the free blocks of one size. -/
structure KPageHeap.Block where
  bitmap : KPageBitmap
  heapAddress : Nat := 0
  endOffset : Nat := 0
  blockShift : Nat := 0
  nextBlockShift : Nat := 0

namespace KPageHeap.Block

variable (b : Block)

/-- `GetSize`. -/
def getSize : Nat := 2 ^ b.blockShift

/-- `GetNumPages`. -/
def getNumPages : Nat := b.getSize / pageSize

/-- `GetNumFreeBlocks`. -/
def getNumFreeBlocks : Nat := b.bitmap.numBits

/-- `GetNumFreePages`. -/
def getNumFreePages : Nat := b.getNumFreeBlocks * b.getNumPages

/-- `Initialize`. -/
def initializeSize (rng : RandomBitGenerator) (addr size blockShift nextBlockShift : Nat) : Block :=
  let stop := addr + size
  let align := if nextBlockShift ≠ 0 then 2 ^ nextBlockShift else 2 ^ blockShift
  let addr := alignDown addr align
  let stop := alignUp stop align
  let endOffset := (stop - addr) / 2 ^ blockShift
  { bitmap := initializeBitmap rng endOffset
    heapAddress := addr
    endOffset := endOffset
    blockShift := blockShift
    nextBlockShift := nextBlockShift }

/-- `PushBlock`: the address of the block of the next size that is now free as a whole, or 0. -/
def pushBlock (address : Nat) : Nat × Block :=
  let offset := (address - b.heapAddress) >>> b.blockShift
  let bitmap := b.bitmap.setBit offset
  if b.nextBlockShift ≠ 0 then
    let diff := 2 ^ (b.nextBlockShift - b.blockShift)
    let offset := alignDown offset diff
    match bitmap.clearRange offset diff with
    | (true, bitmap) => (b.heapAddress + offset <<< b.blockShift, { b with bitmap := bitmap })
    | (false, bitmap) => (0, { b with bitmap := bitmap })
  else (0, { b with bitmap := bitmap })

/-- `PopBlock`. -/
def popBlock (random : Bool) : Except KPageBitmap.Fault (Nat × Block) := do
  let (soffset, bitmap) ← b.bitmap.findFreeBlock random
  if soffset < 0 then return (0, { b with bitmap := bitmap })
  else
    let offset := soffset.toNat
    return (b.heapAddress + offset <<< b.blockShift,
      { b with bitmap := bitmap.clearBit offset })

end KPageHeap.Block

/-- `KPageHeap`. -/
structure KPageHeap where
  heapAddress : Nat
  heapSize : Nat
  numBlocks : Nat
  blocks : Nat → KPageHeap.Block
  rng : RandomBitGenerator

namespace KPageHeap

/-- `MemoryBlockPageShifts`. -/
def memoryBlockPageShifts : List Nat := [0xC, 0x10, 0x15, 0x16, 0x19, 0x1D, 0x1E]

/-- `GetAlignedBlockIndex`, where `none` is -1. -/
def getAlignedBlockIndex (numPages alignPages : Nat) : Option Nat :=
  let targetPages := max numPages alignPages
  memoryBlockPageShifts.findIdx? fun shift => targetPages ≤ 2 ^ shift / pageSize

/-- The loop of `GetBlockIndex`, over the indices below the given one. -/
def blockIndexBelow (numPages : Nat) : Nat → Option Nat
  | 0 => none
  | i + 1 =>
    if numPages ≥ 2 ^ memoryBlockPageShifts.getD i 0 / pageSize then some i
    else blockIndexBelow numPages i

/-- `GetBlockIndex`, where `none` is -1. -/
def getBlockIndex (numPages : Nat) : Option Nat :=
  blockIndexBelow numPages memoryBlockPageShifts.length

/-- `GetBlockNumPages`. -/
def getBlockNumPages (index : Nat) : Nat := 2 ^ memoryBlockPageShifts.getD index 0 / pageSize

/-- `Initialize`, with the generators of the heap and of its bitmaps. From 64 GiB on a bitmap has a
fifth depth, at which the assertion of its `Initialize` stops; a heap of no size has bitmaps without
words. -/
def initializeHeap (rng : RandomBitGenerator) (rngs : Nat → RandomBitGenerator)
    (address size : Nat) (blockShifts : List Nat) : KPageHeap where
  heapAddress := address
  heapSize := size
  numBlocks := blockShifts.length
  blocks := fun i =>
    if i < blockShifts.length then
      let curBlockShift := blockShifts.getD i 0
      let nextBlockShift := if i ≠ blockShifts.length - 1 then blockShifts.getD (i + 1) 0 else 0
      Block.initializeSize (rngs i) address size curBlockShift nextBlockShift
    else { bitmap := { rng := rngs i, usedDepths := 0 } }
  rng := rng

/-- `GetNumFreePages`. -/
def getNumFreePages (h : KPageHeap) : Nat :=
  ((List.range h.numBlocks).map fun i => (h.blocks i).getNumFreePages).sum

variable (h : KPageHeap)

/-- `GetFreeSize`. -/
def getFreeSize : Nat := h.getNumFreePages * pageSize

/-- Put back one of the blocks. -/
def setBlock (index : Nat) (b : Block) : KPageHeap :=
  { h with blocks := Function.update h.blocks index b }

/-- The loop of `FreeBlock`, over the given number of sizes. -/
def freeBlockFrom : Nat → KPageHeap → Nat → Nat → Except Fault KPageHeap
  | 0, _, _, _ => .error .pastLastSize
  | remaining + 1, h, block, index =>
    match (h.blocks index).pushBlock block with
    | (block, b) =>
      let h := h.setBlock index b
      if block ≠ 0 then freeBlockFrom remaining h block (index + 1) else .ok h

/-- `FreeBlock`. -/
def freeBlock (block index : Nat) : Except Fault KPageHeap :=
  freeBlockFrom (h.numBlocks - index) h block index

/-- The first loop of `Free`, over the indices below the given one: the largest
block size of which there is a block in the range, and where such blocks begin
and end. -/
def findBig (h : KPageHeap) (start stop : Nat) : Nat → Option (Nat × Nat × Nat)
  | 0 => none
  | i + 1 =>
    let blockSize := (h.blocks i).getSize
    let bigStart := alignUp start blockSize
    let bigEnd := alignDown stop blockSize
    if bigStart < bigEnd then some (i, bigStart, bigEnd) else findBig h start stop i

/-- Free the given number of adjacent blocks, from an address upwards. -/
def freeUp (blockSize index : Nat) : Nat → Nat → KPageHeap → Except Fault KPageHeap
  | 0, _, h => .ok h
  | n + 1, block, h => do
    let h ← h.freeBlock block index
    freeUp blockSize index n (block + blockSize) h

/-- Free the given number of adjacent blocks, from an address downwards. -/
def freeDown (blockSize index : Nat) : Nat → Nat → KPageHeap → Except Fault KPageHeap
  | 0, _, h => .ok h
  | n + 1, beforeEnd, h => do
    let h ← h.freeBlock (beforeEnd - blockSize) index
    freeDown blockSize index n (beforeEnd - blockSize) h

/-- Free space before the big blocks, in blocks of the sizes below the given
index. The inner loop runs as often as a block fits. -/
def freeBefore : Nat → Nat → Nat → KPageHeap → Except Fault KPageHeap
  | 0, _, _, h => .ok h
  | i + 1, beforeStart, beforeEnd, h => do
    let blockSize := (h.blocks i).getSize
    let rounds := (beforeEnd - beforeStart) / blockSize
    let h ← freeDown blockSize i rounds beforeEnd h
    freeBefore i beforeStart (beforeEnd - rounds * blockSize) h

/-- Free space after the big blocks. -/
def freeAfter : Nat → Nat → Nat → KPageHeap → Except Fault KPageHeap
  | 0, _, _, h => .ok h
  | i + 1, afterStart, afterEnd, h => do
    let blockSize := (h.blocks i).getSize
    let rounds := (afterEnd - afterStart) / blockSize
    let h ← freeUp blockSize i rounds afterStart h
    freeAfter i (afterStart + rounds * blockSize) afterEnd h

/-- `Free`. -/
def free (addr numPages : Nat) : Except Fault KPageHeap :=
  if numPages = 0 then .ok h
  else
    let start := addr
    let stop := addr + numPages * pageSize
    match h.findBig start stop h.numBlocks with
    | none => .error .bigIndexAssertion
    | some (bigIndex, bigStart, bigEnd) => do
      let blockSize := (h.blocks bigIndex).getSize
      let h ← freeUp blockSize bigIndex ((bigEnd - bigStart) / blockSize) bigStart h
      let h ← freeBefore bigIndex start bigStart h
      freeAfter bigIndex bigEnd stop h

/-- `Free`, under a condition. -/
def freeIf (condition : Prop) [Decidable condition] (addr numPages : Nat) :
    Except Fault KPageHeap :=
  if condition then h.free addr numPages else .ok h

/-- `PopBlock` of one of the blocks. -/
def popBlock (h : KPageHeap) (index : Nat) (random : Bool) : Except Fault (Nat × KPageHeap) := do
  let (addr, b) ← ((h.blocks index).popBlock random).mapError .bitmap
  return (addr, h.setBlock index b)

/-- The loop of `AllocateByLinearSearch`, over the given number of sizes from an index on. -/
def linearSearchFrom (neededSize : Nat) : Nat → Nat → KPageHeap → Except Fault (Nat × KPageHeap)
  | 0, _, h => return (0, h)
  | remaining + 1, i, h => do
    let (addr, h) ← h.popBlock i false
    if addr ≠ 0 then
      let allocatedSize := (h.blocks i).getSize
      if allocatedSize > neededSize then
        let h ← h.free (addr + neededSize) ((allocatedSize - neededSize) / pageSize)
        return (addr, h)
      else return (addr, h)
    else linearSearchFrom neededSize remaining (i + 1) h

/-- `AllocateByLinearSearch`. -/
def allocateByLinearSearch (index : Nat) : Except Fault (Nat × KPageHeap) :=
  linearSearchFrom (h.blocks index).getSize (h.numBlocks - index) index h

/-- The possible alignments from blocks of one size. -/
def possibleAlignments (neededSize alignShift i : Nat) : Nat :=
  (1 + ((h.blocks i).getSize - neededSize) >>> alignShift) * (h.blocks i).getNumFreeBlocks

/-- The first loop of `AllocateByRandom`, over the given number of sizes from an
index on: the possible alignments, and the first size not to look at. -/
def countAlignments (h : KPageHeap) (neededSize alignShift : Nat) : Nat → Nat → Nat → Nat × Nat
  | 0, i, possible => (possible, i)
  | remaining + 1, i, possible =>
    let possible := possible + h.possibleAlignments neededSize alignShift i
    -- with enough of them, larger blocks are not looked at
    if possible ≥ 4 then (possible, i + 1)
    else countAlignments h neededSize alignShift remaining (i + 1) possible

/-- The second loop of `AllocateByRandom`: the size that a random alignment
falls on, if there is one. -/
def chooseIndex (h : KPageHeap) (neededSize alignShift rnd : Nat) : Nat → Nat → Nat → Option Nat
  | 0, _, _ => none
  | remaining + 1, i, possible =>
    let possible := possible + h.possibleAlignments neededSize alignShift i
    if rnd < possible then some i
    else chooseIndex h neededSize alignShift rnd remaining (i + 1) possible

/-- The part of `AllocateByRandom` that decides on a block to allocate from. -/
def selectIndex (neededSize alignShift index : Nat) : Nat × KPageHeap :=
  let (possible, maxBlocks) :=
    h.countAlignments neededSize alignShift (h.numBlocks - index) index 0
  if possible > 0 ∧ index + 1 < maxBlocks then
    let (rnd, rng) := h.rng.generateRandom possible
    ((h.chooseIndex neededSize alignShift rnd (maxBlocks - index) index 0).getD index,
      { h with rng := rng })
  else (index, h)

/-- The part of `AllocateByRandom` that frees what is left over of a block. -/
def splitBlock (addr neededSize leftoverSize alignShift : Nat) :
    Except Fault (Nat × KPageHeap) := do
  if leftoverSize > 0 then
    let possible := 1 + leftoverSize >>> alignShift
    let (rnd, rng) := h.rng.generateRandom possible
    let randomOffset := rnd <<< alignShift
    let h := { h with rng := rng }
    let h ← h.freeIf (randomOffset ≠ 0) addr (randomOffset / pageSize)
    let addr := addr + randomOffset
    let h ← h.freeIf (randomOffset ≠ leftoverSize) (addr + neededSize)
      ((leftoverSize - randomOffset) / pageSize)
    return (addr, h)
  else return (addr, h)

/-- `AllocateByRandom`. -/
def allocateByRandom (index numPages alignPages : Nat) : Except Fault (Nat × KPageHeap) := do
  let neededSize := numPages * pageSize
  let alignSize := alignPages * pageSize
  let alignShift := (BitVec.ofNat 64 alignSize).ctz.toNat
  let (index, h) := h.selectIndex neededSize alignShift index
  let (addr, h) ← h.popBlock index true
  if addr ≠ 0 then
    h.splitBlock addr neededSize ((h.blocks index).getSize - neededSize) alignShift
  else return (0, h)

/-- `AllocateBlock`. -/
def allocateBlock (index : Nat) (random : Bool) : Except Fault (Nat × KPageHeap) :=
  if random then
    let blockPages := (h.blocks index).getNumPages
    h.allocateByRandom index blockPages blockPages
  else h.allocateByLinearSearch index

/-- `AllocateAligned`. -/
def allocateAligned (index numPages alignPages : Nat) : Except Fault (Nat × KPageHeap) :=
  h.allocateByRandom index numPages alignPages

end KPageHeap

end SumiEmu.Kernel
