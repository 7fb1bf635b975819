/-
# Requests of any alignment to a storage of whole blocks

A storage that is only asked for whole blocks serves requests of any offset and size. What a request
has of whole blocks goes straight between the base storage and the buffer of the caller, if the
alignment of the buffer allows it or after the blocks are moved inside the buffer. The rest goes
block by block through a work buffer. Offsets and sizes are those of ranges in a storage, whose ends
are numbers of the machine.
-/

import SumiEmu.FileSys.VirtualFile
import SumiEmu.Kernel.MemoryTypes

namespace SumiEmu.FileSys

open Kernel

/-- A file that takes bytes up to its room, and grows for them. -/
structure WritableFile extends VirtualFile where
  room : Nat
  size_le : size ≤ room

/-- The file after it has taken what there is room for. -/
def WritableFile.write (file : WritableFile) (data : Memory) (size offset : Nat) :
    WritableFile where
  size := if min size (file.room - offset) = 0 then file.size
    else max file.size (offset + min size (file.room - offset))
  byte := Scatter.writeBlock file.byte offset (min size (file.room - offset)) data
  room := file.room
  size_le := by
    have fits := file.size_le
    split <;> omega

/-- `Common::IsAligned`. -/
def isAligned (value alignment : Nat) : Bool := value &&& (alignment - 1) = 0

/-- `GetRoundDownDifference`. -/
def roundDownDifference (x align : Nat) : Nat := x - alignDown x align

/-- `GetRoundUpDifference`. -/
def roundUpDifference (x align : Nat) : Nat := alignUp x align - x

/-- The alignments are powers of two, as the storages that use them assert. -/
structure AlignmentMatchingStorageImpl where
  dataAlignment : Nat
  bufferAlignment : Nat
  workBufSize : Nat
  dataAlignment_eq : ∃ order, dataAlignment = 2 ^ order
  bufferAlignment_eq : ∃ order, bufferAlignment = 2 ^ order

/-- The memory of a call that reads: the buffer of the caller from its address on, and the work
buffer. -/
structure Reading where
  workBuf : Memory
  buffer : Memory
  requests : List Request

namespace Reading

variable (r : Reading) (base : VirtualFile)

/-- Blocks are read to the work buffer. -/
def fetch (size offset : Nat) : Reading :=
  { r with workBuf := base.read r.workBuf size offset, requests := r.requests ++ [⟨offset, size⟩] }

/-- Blocks are read to a position of the buffer. -/
def readTo (position size offset : Nat) : Reading :=
  { r with buffer := base.readTo r.buffer position size offset,
           requests := r.requests ++ [⟨offset, size⟩] }

/-- Bytes are moved inside the buffer. -/
def memmove (destination source count : Nat) : Reading :=
  { r with buffer := Scatter.writeBlock r.buffer destination count fun j => r.buffer (source + j) }

/-- Bytes are copied from the work buffer. -/
def memcpy (position source count : Nat) : Reading :=
  { r with buffer := Scatter.writeBlock r.buffer position count fun j => r.workBuf (source + j) }

variable {r base} {size offset position source count : Nat}

theorem fetch_workBuf : (r.fetch base size offset).workBuf = base.read r.workBuf size offset := rfl

theorem fetch_buffer : (r.fetch base size offset).buffer = r.buffer := rfl

theorem memcpy_buffer : (r.memcpy position source count).buffer =
    Scatter.writeBlock r.buffer position count fun j => r.workBuf (source + j) := rfl

theorem memmove_buffer {destination : Nat} : (r.memmove destination source count).buffer =
    Scatter.writeBlock r.buffer destination count fun j => r.buffer (source + j) := rfl

theorem memcpy_requests : ((r.fetch base size offset).memcpy position source count).requests =
    r.requests ++ [⟨offset, size⟩] := rfl

end Reading

/-- The memory of a call that writes, and the base storage. -/
structure Writing where
  base : WritableFile
  workBuf : Memory
  requests : List Request

namespace Writing

variable (w : Writing) (buffer : Memory)

def fetch (size offset : Nat) : Writing :=
  { w with workBuf := w.base.read w.workBuf size offset,
           requests := w.requests ++ [⟨offset, size⟩] }

/-- The storage below is written. -/
def store (data : Memory) (size offset : Nat) : Writing :=
  { w with base := w.base.write data size offset, requests := w.requests ++ [⟨offset, size⟩] }

/-- Bytes of the buffer are copied to the work buffer. -/
def memcpy (position source count : Nat) : Writing :=
  { w with workBuf := Scatter.writeBlock w.workBuf position count fun j => buffer (source + j) }

/-- Some bytes of a block are replaced. -/
def modify (size offset position source count : Nat) : Writing :=
  let w := (w.fetch size offset).memcpy buffer position source count
  w.store w.workBuf size offset

variable {w buffer}

theorem modify_byte {size offset position source count p : Nat} :
    (w.modify buffer size offset position source count).base.byte p =
      (w.base.write (Scatter.writeBlock (w.base.read w.workBuf size offset) position count
        fun j => buffer (source + j)) size offset).byte p := rfl

end Writing

/-- The extents of a request. The buffer of the core is a position in the buffer of the caller. -/
structure Extents where
  alignedCoreBuffer : Nat
  coreOffset : Nat
  coreSize : Nat
  bufferGap : Nat
  offsetGap : Nat
  coveredOffset : Nat

namespace AlignmentMatchingStorageImpl

variable (s : AlignmentMatchingStorageImpl)

theorem dataAlignment_pos : 0 < s.dataAlignment := by
  obtain ⟨order, power⟩ := s.dataAlignment_eq
  exact power ▸ Nat.two_pow_pos order

/-- The extents if the core and its place in the buffer are both aligned. -/
def alignedExtents (offset size : Nat) : Extents :=
  let offsetRoundUpDifference := roundUpDifference offset s.dataAlignment
  let coreSize :=
    if size < offsetRoundUpDifference then 0
    else alignDown (size - offsetRoundUpDifference) s.dataAlignment
  { alignedCoreBuffer := offsetRoundUpDifference
    coreOffset := alignUp offset s.dataAlignment
    coreSize
    bufferGap := 0
    offsetGap := 0
    coveredOffset := if 0 < coreSize then alignUp offset s.dataAlignment else offset }

/-- The extents of a `Read`. -/
def readExtents (offset address size : Nat) : Extents :=
  if isAligned (address + roundUpDifference offset s.dataAlignment) s.bufferAlignment then
    s.alignedExtents offset size
  else
    let bufferRoundUpDifference := roundUpDifference address s.bufferAlignment
    { alignedCoreBuffer := bufferRoundUpDifference
      coreOffset := alignDown offset s.dataAlignment
      coreSize :=
        if size < bufferRoundUpDifference then 0
        else alignDown (size - bufferRoundUpDifference) s.dataAlignment
      bufferGap := bufferRoundUpDifference
      offsetGap := roundDownDifference offset s.dataAlignment
      coveredOffset := offset }

/-- The core portion, and how much of the request it brings. -/
def readCore (base : VirtualFile) (e : Extents) (r : Reading) : Reading × Nat :=
  if 0 < e.coreSize then
    let r := r.readTo base e.alignedCoreBuffer e.coreSize e.coreOffset
    if e.offsetGap ≠ 0 ∨ e.bufferGap ≠ 0 then
      (r.memmove (e.alignedCoreBuffer - e.bufferGap) (e.alignedCoreBuffer + e.offsetGap)
        (e.coreSize - e.offsetGap), e.coreSize - e.offsetGap)
    else (r, e.coreSize)
  else (r, e.coreSize)

/-- The head of a `Read`. -/
def readHead (base : VirtualFile) (offset coveredOffset : Nat) (r : Reading) : Option Reading :=
  if offset < coveredOffset then
    let headOffset := alignDown offset s.dataAlignment
    let headSize := coveredOffset - offset
    if s.workBufSize < roundDownDifference offset s.dataAlignment + headSize then none
    else
      let r := r.fetch base s.dataAlignment headOffset
      some (r.memcpy 0 (roundDownDifference offset s.dataAlignment) headSize)
  else some r

/-- The tail portion, block by block. -/
def readTail (base : VirtualFile) (offset size tailOffset remainingTailSize : Nat) (r : Reading) :
    Option Reading :=
  if _left : 0 < remainingTailSize then
    let alignedTailOffset := alignDown tailOffset s.dataAlignment
    let curSize := min (alignedTailOffset + s.dataAlignment - tailOffset) remainingTailSize
    let r := r.fetch base s.dataAlignment alignedTailOffset
    if size < tailOffset - offset + curSize then none
    else if s.dataAlignment < tailOffset - alignedTailOffset + curSize then none
    else
      let r := r.memcpy (tailOffset - offset) (tailOffset - alignedTailOffset) curSize
      readTail base offset size (tailOffset + curSize) (remainingTailSize - curSize) r
  else some r
termination_by remainingTailSize
decreasing_by
  have block := lt_alignDown_add s.dataAlignment_pos tailOffset
  omega

/-- What a call that reads returns, unless an assertion fails. -/
def read (base : VirtualFile) (offset address size : Nat) (r : Reading) : Option (Nat × Reading) :=
  if s.workBufSize < s.dataAlignment then none
  else if size = 0 then some (size, r)
  else do
    let e := s.readExtents offset address size
    let (r, coreSize) := readCore base e r
    let r ← s.readHead base offset e.coveredOffset r
    let tailOffset := e.coveredOffset + coreSize
    let r ← s.readTail base offset size tailOffset (offset + size - tailOffset) r
    return (size, r)

/-- The extents of a `Write`. -/
def writeExtents (offset address size : Nat) : Extents :=
  if isAligned (address + roundUpDifference offset s.dataAlignment) s.bufferAlignment then
    s.alignedExtents offset size
  else
    { alignedCoreBuffer := 0
      coreOffset := alignDown offset s.dataAlignment
      coreSize := 0
      bufferGap := 0
      offsetGap := 0
      coveredOffset := offset }

/-- The core of a `Write`. -/
def writeCore (buffer : Memory) (e : Extents) (w : Writing) : Writing :=
  if 0 < e.coreSize then
    w.store (fun j => buffer (e.alignedCoreBuffer + j)) e.coreSize e.coreOffset
  else w

/-- The head of a `Write`. -/
def writeHead (buffer : Memory) (offset coveredOffset : Nat) (w : Writing) : Option Writing :=
  if offset < coveredOffset then
    let headOffset := alignDown offset s.dataAlignment
    let headSize := coveredOffset - offset
    if s.dataAlignment < offset - headOffset + headSize then none
    else some (w.modify buffer s.dataAlignment headOffset (offset - headOffset) 0 headSize)
  else some w

def writeTail (buffer : Memory) (offset size tailOffset remainingTailSize : Nat) (w : Writing) :
    Option Writing :=
  if _left : 0 < remainingTailSize then
    if size ≤ tailOffset - offset then none
    else
      let alignedTailOffset := alignDown tailOffset s.dataAlignment
      let curSize := min (alignedTailOffset + s.dataAlignment - tailOffset) remainingTailSize
      let w := w.modify buffer s.dataAlignment alignedTailOffset
        (roundDownDifference tailOffset s.dataAlignment) (tailOffset - offset) curSize
      writeTail buffer offset size (tailOffset + curSize) (remainingTailSize - curSize) w
  else some w
termination_by remainingTailSize
decreasing_by
  have block := lt_alignDown_add s.dataAlignment_pos tailOffset
  omega

/-- What a call that writes returns, unless an assertion fails. -/
def write (buffer : Memory) (offset address size : Nat) (w : Writing) : Option (Nat × Writing) :=
  if s.workBufSize < s.dataAlignment then none
  else if size = 0 then some (size, w)
  else do
    let e := s.writeExtents offset address size
    let w := writeCore buffer e w
    let w ← s.writeHead buffer offset e.coveredOffset w
    let tailOffset := e.coveredOffset + e.coreSize
    let w ← s.writeTail buffer offset size tailOffset (offset + size - tailOffset) w
    return (size, w)

end AlignmentMatchingStorageImpl

end SumiEmu.FileSys
