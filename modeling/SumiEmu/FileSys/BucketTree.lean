/-
# The bucket tree

A table of entries that is sorted by a virtual offset, laid out in nodes of one size. The
entry sets hold the entries, and the first node of the other storage, `L1`, holds the offset
of each entry set; where there are too many of them it holds the offsets of further nodes,
`L2`, and behind these what room is left is used for the offsets of the first entry sets.

A visitor stands on an entry. It is found by a search on each level, which reads a whole node
into a pooled buffer when the buffer is large enough, and single offsets otherwise.
-/

import SumiEmu.FileSys.AesCtrStorage
import SumiEmu.Foundations.Bisection
import SumiEmu.Foundations.Fallible

namespace SumiEmu.FileSys

/-! ## Numbers in memory -/

/-- The number that the bytes from an address on make, the low one first. -/
def littleEndian (memory : Memory) : Nat → Nat → Nat
  | _, 0 => 0
  | address, size + 1 => (memory address).toNat + 256 * littleEndian memory (address + 1) size

/-- An `s64` of the memory. -/
def s64At (memory : Memory) (address : Nat) : Int :=
  (BitVec.ofNat 64 (littleEndian memory address 8)).toInt

/-- An `s32` of the memory. -/
def s32At (memory : Memory) (address : Nat) : Int :=
  (BitVec.ofNat 32 (littleEndian memory address 4)).toInt

/-- The bytes from an address on. -/
def bytesAt (memory : Memory) (address size : Nat) : List Byte :=
  (List.range size).map fun i => memory (address + i)

theorem bytesAt_getD {memory : Memory} {address size i : Nat} (below : i < size) :
    (bytesAt memory address size).getD i 0 = memory (address + i) := by
  rw [bytesAt, List.getD_eq_getElem?_getD, List.getElem?_map, List.getElem?_range below]
  rfl

namespace BucketTree

/-- The results that are not success. -/
inductive Failure
  | outOfRange
  | invalidArgument
  | invalidOffset
  | invalidSize
  | invalidBucketTreeNodeIndex
  | invalidBucketTreeNodeEntryCount
  | invalidBucketTreeNodeOffset
  | invalidBucketTreeEntryOffset
  | invalidBucketTreeEntrySetOffset
  | invalidBucketTreeVirtualOffset
  | invalidIndirectEntryOffset
  | invalidIndirectEntryStorageIndex
  | invalidIndirectStorageSize
  | indirectStorageCorrupted
  deriving DecidableEq

/-- The check `R_UNLESS`. -/
def rUnless (condition : Prop) [Decidable condition] (failure : Failure) : Except Failure Unit :=
  if condition then .ok () else .error failure

/-! ## Nodes -/

/-- `NodeHeader`. -/
structure NodeHeader where
  index : Int
  count : Int
  offset : Int
  deriving DecidableEq

/-- `sizeof(NodeHeader)`. -/
def nodeHeaderSize : Nat := 0x10

/-- The header at an address. -/
def NodeHeader.at (memory : Memory) (address : Nat) : NodeHeader :=
  ⟨s32At memory address, s32At memory (address + 4), s64At memory (address + 8)⟩

/-- `Verify`. -/
def NodeHeader.verify (header : NodeHeader) (nodeIndex : Int) (nodeSize entrySize : Nat) :
    Except Failure Unit := do
  rUnless (header.index = nodeIndex) .invalidBucketTreeNodeIndex
  rUnless (entrySize ≠ 0 ∧ entrySize + nodeHeaderSize ≤ nodeSize) .invalidSize
  let maxEntryCount := (nodeSize - nodeHeaderSize) / entrySize
  rUnless (0 < header.count ∧ header.count.toNat ≤ maxEntryCount) .invalidBucketTreeNodeEntryCount
  rUnless (0 ≤ header.offset) .invalidBucketTreeNodeOffset

/-- A header with the first offset behind it, which for an entry set is where the set starts. The
offset in the header is where it ends. -/
structure EntrySetHeader where
  header : NodeHeader
  start : Int
  deriving DecidableEq

/-- The header of an entry set at an address. -/
def EntrySetHeader.at (memory : Memory) (address : Nat) : EntrySetHeader :=
  ⟨NodeHeader.at memory address, s64At memory (address + nodeHeaderSize)⟩

/-- An array of offsets, each at the beginning of `stride` bytes. -/
structure StorageNode where
  start : Nat
  stride : Nat
  count : Nat

namespace StorageNode

/-- The bisection of `Find`, over the entries that are left. -/
def findLoop (offsetAt : Nat → Int) (stride : Nat) (virtualAddress : Int) : Nat → Nat → Nat → Nat
  | 0, pos, _ => pos
  | rounds + 1, pos, last =>
    if last = 0 then pos
    else
      let half := last / 2
      let mid := pos + half * stride
      if offsetAt mid ≤ virtualAddress then
        findLoop offsetAt stride virtualAddress rounds (mid + stride) (last - (half + 1))
      else findLoop offsetAt stride virtualAddress rounds pos half

/-- The index of the last offset up to an address, or -1. -/
def find (node : StorageNode) (offsetAt : Nat → Int) (virtualAddress : Int) : Int :=
  let pos := findLoop offsetAt node.stride virtualAddress node.count node.start node.count
  ((pos - node.start) / node.stride : Nat) - 1

/-- In a buffer. -/
def findInBuffer (node : StorageNode) (buffer : Memory) (virtualAddress : Int) : Int :=
  node.find (s64At buffer) virtualAddress

/-- In a storage, of which one offset is read at a time. -/
def findInStorage (node : StorageNode) (storage : VirtualFile) (virtualAddress : Int) : Int :=
  node.find (fun offset => s64At (storage.read zeros 8 offset) 0) virtualAddress

end StorageNode

/-! ## The tree -/

/-- `Offsets`. -/
structure Offsets where
  startOffset : Int
  endOffset : Int
  deriving DecidableEq

namespace Offsets

variable (offsets : Offsets)

/-- `IsInclude` of an offset. -/
def isInclude (offset : Int) : Prop := offsets.startOffset ≤ offset ∧ offset < offsets.endOffset

instance : DecidablePred offsets.isInclude := fun _ => inferInstanceAs (Decidable (_ ∧ _))

/-- `IsInclude` of a range. -/
def isIncludeRange (offset size : Int) : Prop :=
  0 < size ∧ offsets.startOffset ≤ offset ∧ size ≤ offsets.endOffset - offset

instance (offset size : Int) : Decidable (offsets.isIncludeRange offset size) :=
  inferInstanceAs (Decidable (_ ∧ _))

end Offsets

/-- A signed number of 32 bits, which wraps. -/
def wrap32 (value : Int) : Int := value.bmod (2 ^ 32)

/-- `Common::DivideUp` on signed numbers of 32 bits, of which the sum wraps. -/
def divideUp (x y : Int) : Int := (wrap32 (x + (y - 1))).tdiv y

/-- `GetEntryCount`: the entries of a node. -/
def getEntryCount (nodeSize entrySize : Nat) : Nat := (nodeSize - nodeHeaderSize) / entrySize

/-- `GetOffsetCount`: the offsets of a node. -/
def getOffsetCount (nodeSize : Nat) : Nat := (nodeSize - nodeHeaderSize) / 8

/-- `GetEntrySetCount`, in `s32`. -/
def getEntrySetCount (nodeSize entrySize entryCount : Nat) : Int :=
  divideUp entryCount (getEntryCount nodeSize entrySize)

/-- `GetBucketTreeEntryOffset`. -/
def getBucketTreeEntryOffset (entrySetOffset entrySize entryIndex : Nat) : Nat :=
  entrySetOffset + nodeHeaderSize + entryIndex * entrySize

end BucketTree

open BucketTree Fallible

/-- `BucketTree`, initialized. -/
structure BucketTree where
  nodeStorage : VirtualFile
  entryStorage : VirtualFile
  nodeL1 : Memory
  nodeSize : Nat
  entrySize : Nat
  entryCount : Nat
  offsetCount : Nat
  entrySetCount : Int
  offsets : Offsets

namespace BucketTree

/-- The header of the first node. -/
def l1Header (nodeL1 : Memory) : NodeHeader := NodeHeader.at nodeL1 0

/-- The offsets behind the header of the first node. -/
def l1Offset (nodeL1 : Memory) (i : Nat) : Int := s64At nodeL1 (nodeHeaderSize + i * 8)

/-- Where the table starts. The first entry sets are behind the nodes of the second level. -/
def l1StartOffset (nodeL1 : Memory) (offsetCount : Nat) (entrySetCount : Int) : Int :=
  if offsetCount < entrySetCount ∧ (l1Header nodeL1).count < offsetCount then
    l1Offset nodeL1 (l1Header nodeL1).count.toNat
  else l1Offset nodeL1 0

/-- `Initialize`, with what the memory allocated for the first node holds. -/
def initializeTree (nodeStorage entryStorage : VirtualFile) (nodeSize entrySize entryCount : Nat)
    (memory : Memory) : Except Failure BucketTree := do
  rUnless (0 < entryCount) .invalidArgument
  let nodeL1 := nodeStorage.read memory nodeSize 0
  let header := l1Header nodeL1
  header.verify 0 nodeSize 8
  let offsetCount := getOffsetCount nodeSize
  let entrySetCount := getEntrySetCount nodeSize entrySize entryCount
  let startOffset := l1StartOffset nodeL1 offsetCount entrySetCount
  let endOffset := header.offset
  rUnless (0 ≤ startOffset ∧ startOffset ≤ l1Offset nodeL1 0) .invalidBucketTreeEntryOffset
  rUnless (startOffset < endOffset) .invalidBucketTreeEntryOffset
  return {
    nodeStorage, entryStorage, nodeL1, nodeSize, entrySize, entryCount, offsetCount, entrySetCount
    offsets := ⟨startOffset, endOffset⟩ }

variable (tree : BucketTree)

/-- `IsExistL2`. -/
def isExistL2 : Prop := tree.offsetCount < tree.entrySetCount

instance : Decidable tree.isExistL2 := inferInstanceAs (Decidable (_ < _))

/-- `IsExistOffsetL2OnL1`. -/
def isExistOffsetL2OnL1 : Prop := tree.isExistL2 ∧ (l1Header tree.nodeL1).count < tree.offsetCount

instance : Decidable tree.isExistOffsetL2OnL1 := inferInstanceAs (Decidable (_ ∧ _))

/-- `GetEntrySetIndex`. -/
def getEntrySetIndex (nodeIndex offsetIndex : Int) : Int :=
  wrap32 ((tree.offsetCount - (l1Header tree.nodeL1).count) + tree.offsetCount * nodeIndex +
    offsetIndex)

/-! ## The visitor -/

/-- What a visitor holds of the entry that it stands on. -/
structure Visitor where
  offsets : Offsets
  entry : List Byte
  entryIndex : Int
  entrySetCount : Int
  entrySet : EntrySetHeader
  deriving DecidableEq

/-- `FindEntrySetWithBuffer`. -/
def findEntrySetWithBuffer (virtualAddress : Int) (nodeIndex : Nat) (memory : Memory) :
    Except Failure Int := do
  let nodeOffset := (nodeIndex + 1) * tree.nodeSize
  let buffer := tree.nodeStorage.read memory tree.nodeSize nodeOffset
  let header := NodeHeader.at buffer 0
  header.verify nodeIndex tree.nodeSize 8
  let node : StorageNode := ⟨nodeHeaderSize, 8, header.count.toNat⟩
  let index := node.findInBuffer buffer virtualAddress
  rUnless (0 ≤ index) .invalidBucketTreeVirtualOffset
  return tree.getEntrySetIndex header.index index

/-- `FindEntrySetWithoutBuffer`. -/
def findEntrySetWithoutBuffer (virtualAddress : Int) (nodeIndex : Nat) : Except Failure Int := do
  let nodeOffset := (nodeIndex + 1) * tree.nodeSize
  let header := NodeHeader.at (tree.nodeStorage.read zeros nodeHeaderSize nodeOffset) 0
  header.verify nodeIndex tree.nodeSize 8
  let node : StorageNode := ⟨nodeHeaderSize + nodeOffset, 8, header.count.toNat⟩
  let index := node.findInStorage tree.nodeStorage virtualAddress
  rUnless (0 ≤ index) .outOfRange
  return tree.getEntrySetIndex header.index index

/-- A pooled buffer and what its memory holds. -/
structure Pool where
  buffer : PooledBuffer
  memory : Memory

variable (pool : Pool)

/-- `FindEntrySet`. -/
def findEntrySet (virtualAddress : Int) (nodeIndex : Nat) : Except Failure Int :=
  if tree.nodeSize ≤ pool.buffer.size then tree.findEntrySetWithBuffer virtualAddress nodeIndex
    pool.memory
  else tree.findEntrySetWithoutBuffer virtualAddress nodeIndex

variable (visitor : Visitor)

/-- `FindEntryWithBuffer`. -/
def findEntryWithBuffer (virtualAddress : Int) (entrySetIndex : Nat)
    (memory : Memory) : Except Failure Visitor := do
  let entrySetOffset := entrySetIndex * tree.nodeSize
  let buffer := tree.entryStorage.read memory tree.nodeSize entrySetOffset
  let entrySet := EntrySetHeader.at buffer 0
  entrySet.header.verify entrySetIndex tree.nodeSize tree.entrySize
  let node : StorageNode := ⟨nodeHeaderSize, tree.entrySize, entrySet.header.count.toNat⟩
  let index := node.findInBuffer buffer virtualAddress
  rUnless (0 ≤ index) .outOfRange
  let entryOffset := getBucketTreeEntryOffset 0 tree.entrySize index.toNat
  return { visitor with
    entry := bytesAt buffer entryOffset tree.entrySize, entrySet, entryIndex := index }

/-- `FindEntryWithoutBuffer`. -/
def findEntryWithoutBuffer (virtualAddress : Int) (entrySetIndex : Nat) :
    Except Failure Visitor := do
  let entrySetOffset := entrySetIndex * tree.nodeSize
  let entrySet := EntrySetHeader.at
    (tree.entryStorage.read zeros (nodeHeaderSize + 8) entrySetOffset) 0
  entrySet.header.verify entrySetIndex tree.nodeSize tree.entrySize
  let node : StorageNode :=
    ⟨nodeHeaderSize + entrySetOffset, tree.entrySize, entrySet.header.count.toNat⟩
  let index := node.findInStorage tree.entryStorage virtualAddress
  rUnless (0 ≤ index) .outOfRange
  let entryOffset := getBucketTreeEntryOffset entrySetOffset tree.entrySize index.toNat
  let entry := bytesAt (tree.entryStorage.read zeros tree.entrySize entryOffset) 0 tree.entrySize
  return { visitor with entry, entrySet, entryIndex := index }

/-- `FindEntry`. -/
def findEntry (visitor : Visitor) (virtualAddress : Int) (entrySetIndex : Nat) :
    Except Failure Visitor :=
  if tree.nodeSize ≤ pool.buffer.size then
    tree.findEntryWithBuffer visitor virtualAddress entrySetIndex pool.memory
  else tree.findEntryWithoutBuffer visitor virtualAddress entrySetIndex

/-- The first offset behind an address among the offsets of the first node from `start` on, as
`std::upper_bound` finds it. -/
def upperBoundL1 (virtualAddress : Int) (start count : Nat) : Nat :=
  Bisection.upperBound (fun i => decide (l1Offset tree.nodeL1 i ≤ virtualAddress)) start count

/-- Which entry set holds an address. -/
def findEntrySetIndex (virtualAddress : Int) : Except Failure Int :=
  let header := l1Header tree.nodeL1
  if tree.isExistOffsetL2OnL1 ∧ virtualAddress < l1Offset tree.nodeL1 0 then do
    let start := header.count.toNat
    let pos := tree.upperBoundL1 virtualAddress start (tree.offsetCount - start)
    rUnless (start < pos) .outOfRange
    return (pos - 1 - start : Nat)
  else do
    let pos := tree.upperBoundL1 virtualAddress 0 header.count.toNat
    rUnless (0 < pos) .outOfRange
    if tree.isExistL2 then do
      let nodeIndex := pos - 1
      rUnless (nodeIndex < tree.offsetCount) .invalidBucketTreeNodeOffset
      tree.findEntrySet pool virtualAddress nodeIndex
    else return (pos - 1 : Nat)

/-- `Visitor::Find`. -/
def visitorFind (visitor : Visitor) (virtualAddress : Int) : Except Failure Visitor := do
  rUnless (virtualAddress < (l1Header tree.nodeL1).offset) .outOfRange
  let entrySetIndex ← tree.findEntrySetIndex pool virtualAddress
  rUnless (0 ≤ entrySetIndex ∧ entrySetIndex < tree.entrySetCount) .invalidBucketTreeNodeOffset
  let found ← tree.findEntry pool visitor virtualAddress entrySetIndex.toNat
  return { found with entrySetCount := tree.entrySetCount }

/-- `BucketTree::Find` with a new visitor. -/
def find (virtualAddress : Int) : Except Failure Visitor := do
  rUnless (0 ≤ virtualAddress) .invalidOffset
  rUnless (tree.entrySize ≠ 0) .outOfRange
  tree.visitorFind pool ⟨tree.offsets, [], -1, 0, ⟨⟨0, 0, 0⟩, 0⟩⟩ virtualAddress

/-- The entry at an index of an entry set. -/
def readEntry (entrySetIndex entryIndex : Nat) : List Byte :=
  let entryOffset := getBucketTreeEntryOffset (entrySetIndex * tree.nodeSize) tree.entrySize
    entryIndex
  bytesAt (tree.entryStorage.read zeros tree.entrySize entryOffset) 0 tree.entrySize

namespace Visitor

/-- `IsValid`. -/
def isValid (visitor : Visitor) : Prop := 0 ≤ visitor.entryIndex

instance (visitor : Visitor) : Decidable visitor.isValid := inferInstanceAs (Decidable (_ ≤ _))

/-- `CanMoveNext`. -/
def canMoveNext (visitor : Visitor) : Prop :=
  visitor.isValid ∧ (visitor.entryIndex + 1 < visitor.entrySet.header.count ∨
    visitor.entrySet.header.index + 1 < visitor.entrySetCount)

instance (visitor : Visitor) : Decidable visitor.canMoveNext := inferInstanceAs (Decidable (_ ∧ _))

/-- `CanMovePrevious`. -/
def canMovePrevious (visitor : Visitor) : Prop :=
  visitor.isValid ∧ (0 < visitor.entryIndex ∨ 0 < visitor.entrySet.header.index)

instance (visitor : Visitor) : Decidable visitor.canMovePrevious :=
  inferInstanceAs (Decidable (_ ∧ _))

end Visitor

/-- The visitor stands on an entry of its entry set. -/
def moveTo (entryIndex : Int) : Visitor :=
  { visitor with
    entry := tree.readEntry visitor.entrySet.header.index.toNat entryIndex.toNat
    entryIndex }

/-- The visitor goes to another entry set, which has to touch the one that it comes from. The
visitor is the invalid one of a failure, where it has been touched. -/
def moveToSet (entrySetIndex : Int) (touches : EntrySetHeader → Prop)
    [DecidablePred touches] : Except (Failure × Visitor) Visitor :=
  let entrySet :=
    EntrySetHeader.at (tree.entryStorage.read zeros (nodeHeaderSize + 8)
      (entrySetIndex.toNat * tree.nodeSize)) 0
  let visitor := { visitor with entryIndex := -1, entrySet }
  match entrySet.header.verify entrySetIndex tree.nodeSize tree.entrySize with
  | .error failure => .error (failure, visitor)
  | .ok () =>
    if touches entrySet ∧ entrySet.start < entrySet.header.offset then .ok visitor
    else .error (.invalidBucketTreeEntrySetOffset, visitor)

/-- `MoveNext`. A failure keeps the visitor that it leaves. -/
def moveNext : Except (Failure × Visitor) Visitor :=
  if ¬ visitor.isValid then .error (.outOfRange, visitor)
  else
    let entryIndex := visitor.entryIndex + 1
    if entryIndex = visitor.entrySet.header.count then
      let entrySetIndex := visitor.entrySet.header.index + 1
      if ¬ entrySetIndex < visitor.entrySetCount then .error (.outOfRange, visitor)
      else do
        let last := visitor.entrySet.header.offset
        let visitor ← tree.moveToSet visitor entrySetIndex fun entrySet => entrySet.start = last
        return tree.moveTo visitor 0
    else .ok (tree.moveTo visitor entryIndex)

/-- `MovePrevious`. -/
def movePrevious : Except (Failure × Visitor) Visitor :=
  if ¬ visitor.isValid then .error (.outOfRange, visitor)
  else if visitor.entryIndex = 0 then
    if ¬ 0 < visitor.entrySet.header.index then .error (.outOfRange, visitor)
    else do
      let start := visitor.entrySet.start
      let entrySetIndex := visitor.entrySet.header.index - 1
      let visitor ← tree.moveToSet visitor entrySetIndex fun entrySet =>
        entrySet.header.offset = start
      return tree.moveTo visitor (visitor.entrySet.header.count - 1)
  else .ok (tree.moveTo visitor (visitor.entryIndex - 1))

end BucketTree

end SumiEmu.FileSys

/-!
## Well-formed images of a bucket tree

A table gives the offset of each entry, with the end of the table behind the last one, and
how its entries are spread over the entry sets. An image is well-formed when the nodes of both
storages hold what the table says; what else is in the bytes does not matter.
-/

namespace SumiEmu.FileSys

open Nat

/-! ## Reading -/

section Reading

variable {file : VirtualFile} {memory memory' : Memory} {address address' size offset : Nat}

theorem littleEndian_congr {count : Nat}
    (same : ∀ i, i < count → memory (address + i) = memory' (address' + i)) :
    littleEndian memory address count = littleEndian memory' address' count := by
  induction count generalizing address address' with
  | zero => rfl
  | succ count ih =>
    have low : memory address = memory' address' := same 0 (succ_pos _)
    have high : littleEndian memory (address + 1) count =
        littleEndian memory' (address' + 1) count := by
      refine ih fun i inside => ?_
      rw [add_assoc, add_assoc, add_comm 1]
      exact same (i + 1) (succ_lt_succ inside)
    rw [littleEndian, littleEndian, low, high]

theorem s64At_congr (same : ∀ i, i < 8 → memory (address + i) = memory' (address' + i)) :
    s64At memory address = s64At memory' address' := by
  rw [s64At, s64At, littleEndian_congr same]

theorem s32At_congr (same : ∀ i, i < 4 → memory (address + i) = memory' (address' + i)) :
    s32At memory address = s32At memory' address' := by
  rw [s32At, s32At, littleEndian_congr same]

/-- Within a file, what is read is what the file holds. -/
theorem VirtualFile.read_apply {i : Nat} (inside : i < size) (there : offset + i < file.size) :
    file.read memory size offset i = file.byte (offset + i) := if_pos ⟨inside, there⟩

variable (inside : address + 8 ≤ size) (there : offset + address + 8 ≤ file.size)

include inside there in
theorem s64At_read : s64At (file.read memory size offset) address =
    s64At file.byte (offset + address) := by
  refine s64At_congr fun i below => ?_
  rw [VirtualFile.read_apply (by omega) (by omega), add_assoc]

theorem s32At_read (inside : address + 4 ≤ size) (there : offset + address + 4 ≤ file.size) :
    s32At (file.read memory size offset) address = s32At file.byte (offset + address) := by
  refine s32At_congr fun i below => ?_
  rw [VirtualFile.read_apply (by omega) (by omega), add_assoc]

theorem bytesAt_read {count : Nat} (inside : address + count ≤ size)
    (there : offset + address + count ≤ file.size) :
    bytesAt (file.read memory size offset) address count =
      bytesAt file.byte (offset + address) count := by
  refine List.map_congr_left fun i below => ?_
  have := List.mem_range.mp below
  rw [VirtualFile.read_apply (by omega) (by omega), add_assoc]

namespace BucketTree

theorem NodeHeader.at_read (inside : 16 ≤ size) (there : offset + 16 ≤ file.size) :
    NodeHeader.at (file.read memory size offset) 0 = NodeHeader.at file.byte offset := by
  rw [NodeHeader.at, NodeHeader.at, s32At_read (by omega) (by omega),
    s32At_read (by omega) (by omega), s64At_read (by omega) (by omega)]
  simp only [add_zero, zero_add]

theorem EntrySetHeader.at_read (inside : 24 ≤ size) (there : offset + 24 ≤ file.size) :
    EntrySetHeader.at (file.read memory size offset) 0 = EntrySetHeader.at file.byte offset := by
  rw [EntrySetHeader.at, EntrySetHeader.at, NodeHeader.at_read (by omega) (by omega),
    nodeHeaderSize, s64At_read (by omega) (by omega), zero_add]

end BucketTree

end Reading

namespace BucketTree

/-! ## Tables -/

/-- The offsets of the entries, with the end behind them, and the number of entries that lie
before each entry set. -/
structure Table where
  offset : Nat → Int
  first : Nat → Nat

namespace Table

variable (table : Table)

/-- Where an entry set starts. -/
def start (entrySet : Nat) : Int := table.offset (table.first entrySet)

/-- The entries of a set. -/
def count (entrySet : Nat) : Nat := table.first (entrySet + 1) - table.first entrySet

end Table

/-- The two storages with the parameters of the tree. -/
structure Image where
  nodeStorage : VirtualFile
  entryStorage : VirtualFile
  nodeSize : Nat
  entrySize : Nat
  entryCount : Nat

/-- How many chunks of `y` there are up to `x`, the last one of which may not be full. -/
def chunks (x y : Nat) : Nat := (x + (y - 1)) / y

/-- `NodeSizeMin`. -/
def nodeSizeMin : Nat := 1024
/-- `NodeSizeMax`. -/
def nodeSizeMax : Nat := 512 * 1024

namespace Image

variable (image : Image)

/-- The offsets of a node. -/
def offsetCount : Nat := getOffsetCount image.nodeSize

/-- The sets that the entries fill. -/
def entrySetCount : Nat := chunks image.entryCount (getEntryCount image.nodeSize image.entrySize)

/-- How many nodes the second level has, whose offsets leave room for others in the first node. -/
def nodeL2Count : Nat :=
  if image.entrySetCount ≤ image.offsetCount then 0
  else
    let nodeL2Count := chunks image.entrySetCount image.offsetCount
    chunks (image.entrySetCount - (image.offsetCount - (nodeL2Count - 1))) image.offsetCount

/-- How many offsets the first node has, of entry sets or of further nodes. -/
def l1Count : Nat := if image.entrySetCount ≤ image.offsetCount then image.entrySetCount
    else image.nodeL2Count

/-- How many offsets of entry sets are left for the first node where there is a second level. -/
def onL1 : Nat := image.offsetCount - image.nodeL2Count

/-- How many offsets a node of the second level has. -/
def countL2 (j : Nat) : Nat :=
  min image.offsetCount (image.entrySetCount - (image.onL1 + j * image.offsetCount))

/-- `QueryNodeStorageSize`. -/
def queryNodeStorageSize : Nat := (1 + image.nodeL2Count) * image.nodeSize

/-- `QueryEntryStorageSize`. -/
def queryEntryStorageSize : Nat := image.entrySetCount * image.nodeSize

/-- The parameters that `Initialize` asserts, and enough room for two levels. -/
structure Sized : Prop where
  entry : 8 ≤ image.entrySize
  node : image.entrySize + nodeHeaderSize ≤ image.nodeSize
  min : nodeSizeMin ≤ image.nodeSize
  max : image.nodeSize ≤ nodeSizeMax
  power : ∃ k, image.nodeSize = 2 ^ k
  levels : chunks image.entrySetCount image.offsetCount ≤ image.offsetCount

/-- The entries of a table in order, over as many entry sets as there have to be. Their number is
a signed one of 32 bits. -/
structure Spread (table : Table) : Prop where
  positive : 0 < image.entryCount
  signed : image.entryCount < 2 ^ 31
  ascending : ∀ g, g < image.entryCount → table.offset g < table.offset (g + 1)
  nonneg : 0 ≤ table.offset 0
  first : table.first 0 = 0
  last : table.first image.entrySetCount = image.entryCount
  filled : ∀ k, k < image.entrySetCount → 0 < table.count k
  fits : ∀ k, k < image.entrySetCount → table.count k ≤ getEntryCount image.nodeSize image.entrySize

/-- The entry sets hold the entries. -/
structure EntrySets (table : Table) : Prop where
  size : image.queryEntryStorageSize ≤ image.entryStorage.size
  header : ∀ k, k < image.entrySetCount →
    NodeHeader.at image.entryStorage.byte (k * image.nodeSize) =
    ⟨k, table.count k, table.start (k + 1)⟩
  entry : ∀ k, k < image.entrySetCount → ∀ i, i < table.count k →
    s64At image.entryStorage.byte
    (getBucketTreeEntryOffset (k * image.nodeSize) image.entrySize i) =
    table.offset (table.first k + i)

/-- The nodes hold where the entry sets start: the first node all of them, or where each further
node starts, and the first entry sets behind that. -/
structure Nodes (table : Table) : Prop where
  size : image.queryNodeStorageSize ≤ image.nodeStorage.size
  header : l1Header image.nodeStorage.byte =
    ⟨0, image.l1Count, table.offset image.entryCount⟩
  single : image.entrySetCount ≤ image.offsetCount → ∀ k, k < image.entrySetCount →
    l1Offset image.nodeStorage.byte k = table.start k
  node : image.offsetCount < image.entrySetCount → ∀ j, j < image.nodeL2Count →
    l1Offset image.nodeStorage.byte j = table.start (image.onL1 + j * image.offsetCount)
  behind : image.offsetCount < image.entrySetCount → ∀ k, k < image.onL1 →
    l1Offset image.nodeStorage.byte (image.nodeL2Count + k) = table.start k
  headerL2 : image.offsetCount < image.entrySetCount → ∀ j, j < image.nodeL2Count →
    ∃ last, 0 ≤ last ∧
      NodeHeader.at image.nodeStorage.byte ((j + 1) * image.nodeSize) = ⟨j, image.countL2 j, last⟩
  offsetL2 : image.offsetCount < image.entrySetCount → ∀ j, j < image.nodeL2Count →
    ∀ i, i < image.countL2 j →
    s64At image.nodeStorage.byte ((j + 1) * image.nodeSize + nodeHeaderSize + i * 8) =
      table.start (image.onL1 + j * image.offsetCount + i)

/-- An image that holds a table. -/
structure WellFormed (table : Table) : Prop where
  sized : image.Sized
  spread : image.Spread table
  entrySets : image.EntrySets table
  nodes : image.Nodes table

/-- The entry count leaves room for what is added to it when it is rounded up. -/
def CountFits : Prop := image.entryCount + (getEntryCount image.nodeSize image.entrySize - 1) <
    2 ^ 31

instance : Decidable image.CountFits := inferInstanceAs (Decidable (_ < _))

end Image

end BucketTree

end SumiEmu.FileSys
