/-
# Copies between linear memory and a buffer

The four copies between the pages of a range and another buffer, of the kernel or of the current
process, traverse the range page by page. Pages that lie behind each other in physical memory are
gathered into a run, and each run is copied when the next one begins. The last run is cut to the
size that is left.

They differ in how a run is copied: in which direction, and, for a buffer of the current process, in
two accesses, the first of whole words, each of which may fail. The other buffer is memory of its
own. Physical addresses are naturals, as no memory lies near the end of their range. The state
check, with the masks of the caller, and the access check of the current process are parameters.
-/

import SumiEmu.Common.PageTable
import SumiEmu.Foundations.Fallible
import SumiEmu.Foundations.Scatter

namespace SumiEmu.Kernel

open Common Fallible Scatter

namespace KPageTableBase

/-- `ResultInvalidCurrentMemory`, another result of the state check, or a traversal that is not
valid. -/
inductive Fault
  | invalidCurrentMemory
  | invalidState
  | traverseValid
  deriving DecidableEq, Repr

end KPageTableBase

open KPageTableBase (Fault)

/-- The parts of `KPageTableBase` that the copies use. -/
structure KPageTableBase where
  impl : PageTable
  addressSpaceStart : Nat
  addressSpaceEnd : Nat
  checkMemoryStateContiguous : Nat → Nat → Except Fault Unit
  isLinearMappedPhysicalAddress : Nat → Bool
  isHeapPhysicalAddress : Nat → Bool

namespace KPageTableBase

variable (p : KPageTableBase)

/-- `Contains`. -/
def Contains (addr size : Nat) : Prop :=
  p.addressSpaceStart ≤ addr ∧ addr < (addr + size) % 2 ^ 64 ∧
    (addr + size) % 2 ^ 64 - 1 ≤ p.addressSpaceEnd - 1

instance (p : KPageTableBase) (addr size : Nat) : Decidable (p.Contains addr size) :=
  inferInstanceAs (Decidable (_ ∧ _ ∧ _))

/-- The memory that a copy reads and writes. -/
structure CopyMemory where
  physical : Nat → UInt8
  buffer : Nat → UInt8

namespace CopyMemory

/-- Copy a block of physical memory into the buffer. -/
def toBuffer (m : CopyMemory) (pointer addr count : Nat) : CopyMemory :=
  { m with buffer := writeBlock m.buffer pointer count fun j => m.physical (addr + j) }

/-- Copy a block of the buffer into physical memory. -/
def toPhysical (m : CopyMemory) (pointer addr count : Nat) : CopyMemory :=
  { m with physical := writeBlock m.physical addr count fun j => m.buffer (pointer + j) }

end CopyMemory

/-- The variables of a copy: the place in the buffer that `buffer`, `dst_addr` or `src_addr` holds,
and the run. -/
structure Cursor where
  memory : CopyMemory
  pointer : Nat
  curAddr : Nat
  curSize : Nat

/-- `PerformCopy` between linear memory and the kernel. -/
def performKernelCopy (transfer : CopyMemory → Nat → Nat → Nat → CopyMemory)
    (c : Cursor) : Except Fault Cursor := do
  if !p.isLinearMappedPhysicalAddress c.curAddr then throw .invalidCurrentMemory
  return { c with memory := transfer c.memory c.pointer c.curAddr c.curSize }

/-- `PerformCopy` between linear memory and the current process. -/
def performUserCopy (access : Nat → Nat → Bool)
    (transfer : CopyMemory → Nat → Nat → Nat → CopyMemory) (c : Cursor) : Except Fault Cursor := do
  if !p.isLinearMappedPhysicalAddress c.curAddr then throw .invalidCurrentMemory
  let c ←
    if c.curSize ≥ 4 then
      let copySize := alignDown c.curSize 4
      if access c.pointer copySize then
        pure ⟨transfer c.memory c.pointer c.curAddr copySize, c.pointer + copySize,
          c.curAddr + copySize, c.curSize - copySize⟩
      else throw .invalidCurrentMemory
    else pure c
  if c.curSize > 0 then
    if access c.pointer c.curSize then
      return { c with memory := transfer c.memory c.pointer c.curAddr c.curSize }
    else throw .invalidCurrentMemory
  else return c

/-- Add a page to the run if it lies behind it. Otherwise perform the copy of the run and
advance. -/
def gatherPage (performCopy : Cursor → Except Fault Cursor) (next : PageTable.TraversalEntry)
    (c : Cursor) : Except Fault Cursor :=
  if next.physAddr ≠ c.curAddr + c.curSize then do
    let c ← performCopy c
    return ⟨c.memory, c.pointer + c.curSize, next.physAddr, next.blockSize⟩
  else return { c with curSize := c.curSize + next.blockSize }

theorem blockSize_continueTraversal (t : PageTable) (context : PageTable.TraversalContext) :
    (t.continueTraversal context).2.1.blockSize = pageSize := by
  rw [PageTable.continueTraversal]
  dsimp only
  split
  · rfl
  · split
    · rfl
    · rfl

/-- The loop of the copies: the cursor with the last run, and `tot_size`. -/
def copyRuns (t : PageTable) (performCopy : Cursor → Except Fault Cursor) (size : Nat)
    (context : PageTable.TraversalContext) (totSize : Nat) (c : Cursor) :
    Except Fault (Cursor × Nat) :=
  if totSize < size then
    let step := t.continueTraversal context
    let next := step.2.1
    if step.1 then do
      let c ← gatherPage performCopy next c
      copyRuns t performCopy size step.2.2 (totSize + next.blockSize) c
    else .error .traverseValid
  else .ok (c, totSize)
termination_by size - totSize
decreasing_by
  have := blockSize_continueTraversal t context
  rw [this, pageSize_eq]
  omega

/-- The copies from the first entry of the traversal on. -/
def copyFrom (t : PageTable) (performCopy : Cursor → Except Fault Cursor) (size pointer : Nat)
    (memory : CopyMemory) (nextEntry : PageTable.TraversalEntry)
    (context : PageTable.TraversalContext) : Except Fault CopyMemory := do
  let curAddr := nextEntry.physAddr
  let curSize := nextEntry.blockSize - (curAddr &&& (nextEntry.blockSize - 1))
  let (c, totSize) ← copyRuns t performCopy size context curSize ⟨memory, pointer, curAddr, curSize⟩
  -- the right size for the last block
  let c ← performCopy
    (if totSize > size then { c with curSize := c.curSize - (totSize - size) } else c)
  return c.memory

/-- What the four copies share. -/
def copyLinear (performCopy : Cursor → Except Fault Cursor) (addr size pointer : Nat)
    (memory : CopyMemory) : Except Fault CopyMemory :=
  if p.Contains addr size then do
    p.checkMemoryStateContiguous addr size
    let step := p.impl.beginTraversal addr
    if step.1 then copyFrom p.impl performCopy size pointer memory step.2.1 step.2.2
    else throw .traverseValid
  else .error .invalidCurrentMemory

/-- `CopyMemoryFromLinearToUser`. -/
def copyMemoryFromLinearToUser (access : Nat → Nat → Bool)
    (dstAddr size srcAddr : Nat) : CopyMemory → Except Fault CopyMemory :=
  p.copyLinear (p.performUserCopy access CopyMemory.toBuffer) srcAddr size dstAddr

/-- `CopyMemoryFromLinearToKernel`. -/
def copyMemoryFromLinearToKernel (buffer size srcAddr : Nat) :
    CopyMemory → Except Fault CopyMemory :=
  p.copyLinear (p.performKernelCopy CopyMemory.toBuffer) srcAddr size buffer

/-- `CopyMemoryFromUserToLinear`. -/
def copyMemoryFromUserToLinear (access : Nat → Nat → Bool)
    (dstAddr size srcAddr : Nat) : CopyMemory → Except Fault CopyMemory :=
  p.copyLinear (p.performUserCopy access CopyMemory.toPhysical) dstAddr size srcAddr

/-- `CopyMemoryFromKernelToLinear`. -/
def copyMemoryFromKernelToLinear (dstAddr size buffer : Nat) :
    CopyMemory → Except Fault CopyMemory :=
  p.copyLinear (p.performKernelCopy CopyMemory.toPhysical) dstAddr size buffer

end KPageTableBase

end SumiEmu.Kernel
