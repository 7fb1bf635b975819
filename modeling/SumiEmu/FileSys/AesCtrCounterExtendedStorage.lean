/-
# A storage encrypted in counter mode, with a generation for each entry of a table

The entries of a bucket tree tell for each range of the storage whether it is encrypted, and which
generation goes into the upper half of the counter. The lower half goes on with the offset. A range
is read at once, and then decrypted in place entry by entry.
-/

import SumiEmu.FileSys.BucketTreeVisitor
import SumiEmu.Foundations.WordHalves

namespace SumiEmu.FileSys

open BucketTree Fallible

/-! ## Initial values of counters -/

/-- An assertion. -/
def asserted (condition : Prop) [Decidable condition] : Option Unit :=
  if condition then some () else none

/-- `AesCtrStorage::MakeIv`. The offset is a signed number of 64 bits. -/
def makeIv (upper : BitVec 64) (offset : Int) : Option (List Byte) := do
  let offset := (BitVec.ofInt 64 offset).toInt
  asserted (0 ≤ offset)
  return bigEndianBytes 8 upper ++ bigEndianBytes 8 (BitVec.ofInt 64 (offset / blockSize))

/-- `NcaAesCtrUpperIv`. -/
def upperIv (secureValue generation : BitVec 32) : BitVec 64 := secureValue ++ generation

/-! ## The storage -/

/-- The block function is AES under the key of the storage. -/
structure AesCtrCounterExtendedStorage where
  table : BucketTree
  dataStorage : VirtualFile
  aes : BitVec 128 → BitVec 128
  secureValue : BitVec 32
  counterOffset : Int

namespace AesCtrCounterExtendedStorage

def nodeSize : Nat := 16 * 1024
def entrySize : Nat := 0x10

/-- A tree without entries. -/
def emptyTree (endOffset : Int) : BucketTree where
  nodeStorage := ⟨0, zeros⟩
  entryStorage := ⟨0, zeros⟩
  nodeL1 := zeros
  nodeSize := nodeSize
  entrySize := 0
  entryCount := 0
  offsetCount := 0
  entrySetCount := 0
  offsets := ⟨0, endOffset⟩

/-- `Initialize`. -/
def initializeStorage (aes : BitVec 128 → BitVec 128) (secureValue : BitVec 32)
    (counterOffset : Int)
    (dataStorage nodeStorage entryStorage : VirtualFile) (entryCount : Nat) (memory : Memory) :
    Except Failure AesCtrCounterExtendedStorage := do
  let table ← if 0 < entryCount then
      initializeTree nodeStorage entryStorage nodeSize entrySize entryCount memory
    else .ok (emptyTree 0)
  return ⟨table, dataStorage, aes, secureValue, counterOffset⟩

/-- `Entry`. -/
structure Entry where
  offset : Int
  encryptionValue : Byte
  generation : Int
  deriving DecidableEq

namespace Entry

/-- `Encryption::Encrypted`. -/
def encrypted : Byte := 0

/-- The entry at an address. -/
def read (memory : Memory) (address : Nat) : Entry :=
  ⟨s64At memory address, memory (address + 8), s32At memory (address + 12)⟩

/-- The entry that a visitor holds. -/
def ofBytes (bytes : List Byte) : Entry := Entry.read (fun i => bytes.getD i 0) 0

end Entry

/-- A signed number as an unsigned one of 64 bits. -/
def asSize (value : Int) : Int := value % 2 ^ 64

/-- Where the decryption has come to, and the buffer with what has been read. -/
structure Cursor where
  visitor : Visitor
  curOffset : Int
  buffer : Memory

variable (storage : AesCtrCounterExtendedStorage)

/-- The visitor on the next entry, if there is one, and where the next entry starts. -/
def moveOn (visitor : Visitor) : Option (Visitor × Int) :=
  if visitor.canMoveNext then
    match storage.table.moveNext visitor with
    | .error _ => none
    | .ok visitor => do
      let nextEntryOffset := (Entry.ofBytes visitor.entry).offset
      asserted (storage.table.offsets.isInclude nextEntryOffset)
      return (visitor, nextEntryOffset)
  else some (visitor, storage.table.offsets.endOffset)

/-- Bytes of the buffer are decrypted in place. -/
def decrypt (iv : List Byte) (buffer : Memory) (position size : Nat) : Memory :=
  Scatter.writeBlock buffer position size
    fun j => (transcode storage.aes iv (bytesAt buffer position size)).getD j 0

/-- One entry of the range. -/
def readEntry (offset size : Nat) (cursor : Cursor) : Option Cursor := do
  let curEntry := Entry.ofBytes cursor.visitor.entry
  asserted (asSize curEntry.offset ≤ cursor.curOffset)
  let next ← storage.moveOn cursor.visitor
  asserted (next.2 % blockSize = 0)
  asserted (cursor.curOffset < asSize next.2)
  let dataOffset := cursor.curOffset - curEntry.offset
  let dataSize := (next.2 - curEntry.offset) - dataOffset
  asserted (0 < dataSize)
  let remainingSize := ((offset + size : Nat) : Int) - cursor.curOffset
  let curSize := min remainingSize dataSize
  asserted (curSize ≤ size)
  if curEntry.encryptionValue = Entry.encrypted then
    let counterOffset := storage.counterOffset + curEntry.offset + dataOffset
    let iv ← makeIv (upperIv storage.secureValue (BitVec.ofInt 32 curEntry.generation))
      counterOffset
    return ⟨next.1, cursor.curOffset + curSize,
      storage.decrypt iv cursor.buffer (cursor.curOffset - offset).toNat curSize.toNat⟩
  else return ⟨next.1, cursor.curOffset + curSize, cursor.buffer⟩

/-- Each round takes at least one byte of the range. -/
def readLoop (offset size : Nat) : Nat → Cursor → Option Memory
  | 0, cursor => some cursor.buffer
  | rounds + 1, cursor =>
    if cursor.curOffset < ((offset + size : Nat) : Int) then do
      let cursor ← storage.readEntry offset size cursor
      readLoop offset size rounds cursor
    else some cursor.buffer

/-- What a read returns and the buffer, unless an assertion fails. The search gets a pooled
buffer. -/
def read (pool : Pool) (buffer : Memory) (size offset : Nat) : Option (Nat × Memory) :=
  if size = 0 then some (0, buffer)
  else do
    asserted (offset % blockSize = 0)
    asserted (size % blockSize = 0)
    let tableOffsets := storage.table.offsets
    asserted (tableOffsets.isIncludeRange offset size)
    let buffer := storage.dataStorage.read buffer size offset
    match storage.table.find pool offset with
    | .error _ => none
    | .ok visitor => do
      let entryOffset := (Entry.ofBytes visitor.entry).offset
      asserted (entryOffset % blockSize = 0)
      asserted (0 ≤ entryOffset ∧ tableOffsets.isInclude entryOffset)
      let buffer ← storage.readLoop offset size size ⟨visitor, offset, buffer⟩
      return (size, buffer)

end AesCtrCounterExtendedStorage

end SumiEmu.FileSys

/-!
## Each block of a range is decrypted under its own counter

The counter of a block is told by the entry that covers the block and by its offset in the storage.
A read goes on entry by entry. What is in front of the cursor has been decrypted, and what is behind
it is still as in the data storage.
-/

namespace SumiEmu.FileSys

open BucketTree Fallible BitVec Nat List Option

/-! ## Counters -/

/-- The halves of an initial value are the halves of the counter. -/
theorem counterBlock_bigEndianBytes (upper lower : BitVec 64) :
    counterBlock (bigEndianBytes 8 upper ++ bigEndianBytes 8 lower) = upper ++ lower := by
  have small : ∀ half : BitVec 64, half.toNat % 256 ^ 8 = half.toNat := fun half =>
    mod_eq_of_lt (half.isLt.trans_eq (by decide))
  apply eq_of_toNat_eq
  rw [counterBlock, map_append, BigEndian.value_append, value_bigEndianBytes,
    value_bigEndianBytes, small, small, length_map, length_bigEndianBytes,
    WordHalves.toNat_append, toNat_ofNat]
  exact mod_eq_of_lt (by have := upper.isLt; have := lower.isLt; omega)

theorem makeIv_eq (upper : BitVec 64) {offset : Int} (nonneg : 0 ≤ offset)
    (small : offset < 2 ^ 63) : ∃ iv, makeIv upper offset = some iv ∧
      counterBlock iv = upper ++ BitVec.ofInt 64 (offset / blockSize) := by
  have same : (BitVec.ofInt 64 offset).toInt = offset := by
    rw [toInt_ofInt, Int.bmod_eq_of_le (by omega) (by omega)]
  refine ⟨_, ?_, counterBlock_bigEndianBytes ..⟩
  simp only [makeIv, same, asserted, if_pos nonneg]
  rfl

/-- Counting on inside of the lower half. -/
theorem append_add_ofNat {upper : BitVec 64} {lower : Int} {blocks : Nat} (nonneg : 0 ≤ lower)
    (small : lower + blocks < 2 ^ 64) :
    (upper ++ BitVec.ofInt 64 lower) + BitVec.ofNat 128 blocks =
      upper ++ BitVec.ofInt 64 (lower + blocks) := by
  obtain ⟨low, rfl⟩ := Int.eq_ofNat_of_zero_le nonneg
  rw [← Int.natCast_add, ofInt_natCast, ofInt_natCast]
  apply eq_of_toNat_eq
  have high := upper.isLt
  rw [toNat_add, WordHalves.toNat_append, WordHalves.toNat_append, toNat_ofNat,
    toNat_ofNat, toNat_ofNat]
  omega

/-- Counter mode, byte for byte. -/
theorem getD_transcode (aes : BitVec 128 → BitVec 128) (ctr : List Byte) {src : List Byte} {i : Nat}
    (inside : i < src.length) : (transcode aes ctr src).getD i 0 =
      src.getD i 0 ^^^ byteAt (aes (counterBlock ctr + BitVec.ofNat 128 (i / 16))) (i % 16) := by
  rw [getD_eq_getElem _ _ inside, getD_eq_getElem _ _ (by rwa [transcode, length_mapIdx])]
  exact getElem_mapIdx ..

namespace AesCtrCounterExtendedStorage

theorem Entry.read_congr {memory memory' : Memory} {address address' : Nat}
    (same : ∀ i, i < entrySize → memory (address + i) = memory' (address' + i)) :
    Entry.read memory address = Entry.read memory' address' := by
  have within : ∀ {k i : Nat}, k + i < 16 →
      memory (address + k + i) = memory' (address' + k + i) := by
    intro k i below
    rw [add_assoc, add_assoc]
    exact same (k + i) below
  have offset : s64At memory address = s64At memory' address' :=
    s64At_congr fun i below => same i (by unfold entrySize; omega)
  have value : memory (address + 8) = memory' (address' + 8) := same 8 (by decide)
  have generation : s32At memory (address + 12) = s32At memory' (address' + 12) :=
    s32At_congr fun i below => within (by omega)
  rw [Entry.read, Entry.read, offset, value, generation]

/-! ## Generation tables -/

/-- What the table of a storage says. -/
structure Generations where
  table : Table
  encryptionValue : Nat → Byte
  generation : Nat → Int

/-- An image of the entries of a table, which start at the borders of blocks. -/
structure Generations.WellFormed (generations : Generations) (image : Image) : Prop where
  formed : image.WellFormed generations.table
  nodeSize : image.nodeSize = nodeSize
  entrySize : image.entrySize = entrySize
  entry : ∀ k, k < image.entrySetCount → ∀ i, i < generations.table.count k →
    Entry.read image.entryStorage.byte
    (getBucketTreeEntryOffset (k * image.nodeSize) image.entrySize i) =
    ⟨generations.table.offset (generations.table.first k + i),
    generations.encryptionValue (generations.table.first k + i),
    generations.generation (generations.table.first k + i)⟩
  aligned : ∀ g, g ≤ image.entryCount → generations.table.offset g % blockSize = 0

variable (storage : AesCtrCounterExtendedStorage)

/-- The counter of the block of a place under a generation. -/
def counter (generation : Int) (place : Nat) : BitVec 128 :=
  upperIv storage.secureValue (BitVec.ofInt 32 generation) ++
    BitVec.ofInt 64 ((storage.counterOffset + (place / blockSize * blockSize : Nat)) / blockSize)

/-- The byte at a place of the storage: the entry that covers the place tells whether the byte of
the data storage is combined with the key stream of its block. -/
def Decrypts (image : Image) (generations : Generations) (place : Nat) (byte : Byte) : Prop :=
  ∃ g, g < image.entryCount ∧ generations.table.offset g ≤ place ∧
    (place : Int) < generations.table.offset (g + 1) ∧
    byte = if generations.encryptionValue g = Entry.encrypted then
        storage.dataStorage.byte place ^^^
          byteAt (storage.aes (storage.counter (generations.generation g) place))
            (place % blockSize)
      else storage.dataStorage.byte place

/-- The places of the table have counter offsets, which are signed numbers. -/
def Counts (image : Image) (generations : Generations) : Prop :=
  0 ≤ storage.counterOffset ∧
    storage.counterOffset + generations.table.offset image.entryCount ≤ 2 ^ 63

/-- A range of whole blocks inside the table. -/
structure Inside (image : Image) (generations : Generations) (size offset : Nat) : Prop where
  offset_aligned : offset % blockSize = 0
  size_aligned : size % blockSize = 0
  first : generations.table.offset 0 ≤ (offset : Int)
  last : ((offset + size : Nat) : Int) ≤ generations.table.offset image.entryCount

variable {storage} {image : Image} {generations : Generations} {memory : Memory} {visitor : Visitor}
  {offset size g p : Nat} {cursor : Cursor} {buffer : Memory}

theorem s64At_lt (memory : Memory) (address : Nat) : s64At memory address < 2 ^ 63 :=
  toInt_lt

section Formed

variable (formed : generations.WellFormed image)
  (isTree : storage.table = image.tree generations.table memory)

include formed

theorem Generations.WellFormed.ofBytes_eq (on : On image generations.table visitor g) :
    Entry.ofBytes visitor.entry =
      ⟨generations.table.offset g, generations.encryptionValue g, generations.generation g⟩ := by
  obtain ⟨k, i, inside, below, rfl, rfl⟩ := on
  rw [← formed.entry k inside i below, Entry.ofBytes, Image.visitorAt]
  refine Entry.read_congr fun j within => ?_
  rw [zero_add, bytesAt_getD (formed.entrySize ▸ within)]

/-- The offsets of a table are numbers of 63 bits. -/
theorem Generations.WellFormed.offset_bounds (inside : g ≤ image.entryCount) :
    0 ≤ generations.table.offset g ∧
      generations.table.offset g ≤ generations.table.offset image.entryCount ∧
      generations.table.offset image.entryCount < 2 ^ 63 := by
  have spread := formed.formed.spread
  have header := formed.formed.nodes.header
  rw [l1Header, NodeHeader.at] at header
  obtain ⟨-, -, last⟩ := NodeHeader.mk.inj header
  refine ⟨spread.nonneg.trans (spread.offset_le (zero_le g) inside),
    spread.offset_le inside (le_refl _), ?_⟩
  rw [← last]
  exact s64At_lt _ _

theorem Generations.WellFormed.asSize_eq (inside : g ≤ image.entryCount) :
    asSize (generations.table.offset g) = generations.table.offset g := by
  obtain ⟨nonneg, le, small⟩ := formed.offset_bounds inside
  exact Int.emod_eq_of_lt nonneg (by omega)

include isTree in
/-- The next entry starts where this one ends, and so does the end of the table. -/
theorem Generations.WellFormed.moveOn_eq (on : On image generations.table visitor g) :
    ∃ visitor', storage.moveOn visitor = some (visitor', generations.table.offset (g + 1)) ∧
      (g + 1 < image.entryCount → On image generations.table visitor' (g + 1)) := by
  have spread := formed.formed.spread
  have moved := formed.formed.moveNext_eq memory on
  rw [moveOn]
  by_cases more : g + 1 < image.entryCount
  · rw [if_pos more] at moved
    obtain ⟨visitor', next, on'⟩ := moved
    have included : storage.table.offsets.isInclude (generations.table.offset (g + 1)) := by
      rw [isTree]
      exact ⟨spread.offset_le (zero_le _) (le_of_lt more), spread.offset_lt more (le_refl _)⟩
    refine ⟨visitor', ?_, fun _ => on'⟩
    rw [if_pos ((formed.formed.canMoveNext_iff on).2 more), isTree, next]
    dsimp only
    rw [formed.ofBytes_eq on', asserted, ← isTree, if_pos included]
    rfl
  · have last : g + 1 = image.entryCount := by
      have inside := formed.formed.on_lt on
      omega
    refine ⟨visitor, ?_, fun less => absurd less more⟩
    rw [if_neg fun possible => more ((formed.formed.canMoveNext_iff on).1 possible), isTree, last]
    rfl

/-! ## Decrypting -/

omit formed in
/-- The blocks of a part of the buffer are decrypted under the counters of their places. -/
theorem decrypt_apply {generation : Int} {place position count j : Nat} {iv : List Byte}
    (isIv : counterBlock iv = upperIv storage.secureValue (BitVec.ofInt 32 generation) ++
      BitVec.ofInt 64 ((storage.counterOffset + place) / blockSize))
    (nonneg : 0 ≤ storage.counterOffset) (aligned : place % blockSize = 0) (below : j < count)
    (small : storage.counterOffset + ((place + j : Nat) : Int) < 2 ^ 63) :
    storage.decrypt iv buffer position count (position + j) = buffer (position + j) ^^^
      byteAt (storage.aes (storage.counter generation (place + j))) ((place + j) % blockSize) := by
  have length : (bytesAt buffer position count).length = count := by
    rw [bytesAt, length_map, length_range]
  have block : (storage.counterOffset + ((place + j) / blockSize * blockSize : Nat)) / blockSize =
      (storage.counterOffset + place) / blockSize + (j / 16 : Nat) := by
    unfold blockSize at *
    omega
  have byte : (place + j) % blockSize = j % 16 := by
    unfold blockSize at *
    omega
  rw [decrypt, Scatter.writeBlock_add below, getD_transcode _ _ (length.symm ▸ below),
    bytesAt_getD below, counter, block, byte, isIv, append_add_ofNat]
  · unfold blockSize
    omega
  · unfold blockSize
    omega

/-- The cursor is in the range of an entry. -/
structure Standing (image : Image) (generations : Generations) (offset g p : Nat)
    (cursor : Cursor) : Prop where
  curOffset : cursor.curOffset = ((offset + p : Nat) : Int)
  on : On image generations.table cursor.visitor g
  low : generations.table.offset g ≤ ((offset + p : Nat) : Int)
  high : ((offset + p : Nat) : Int) < generations.table.offset (g + 1)

/-- The first bytes have been decrypted, and the others of the range have been read. -/
structure Progress (storage : AesCtrCounterExtendedStorage) (image : Image)
    (generations : Generations) (offset size : Nat) (original : Memory) (p : Nat)
    (buffer : Memory) : Prop where
  reached : p ≤ size
  aligned : p % blockSize = 0
  done : ∀ i, i < p → offset + i < storage.dataStorage.size →
    storage.Decrypts image generations (offset + i) (buffer i)
  raw : ∀ i, p ≤ i → i < size → offset + i < storage.dataStorage.size →
    buffer i = storage.dataStorage.byte (offset + i)
  beyond : ∀ i, size ≤ i → buffer i = original i

omit formed in
theorem Progress.extend {original result : Memory} {width : Nat}
    (progress : Progress storage image generations offset size original p buffer)
    (upTo : p + width ≤ size) (aligned : (p + width) % blockSize = 0)
    (right : ∀ j, j < width → offset + (p + j) < storage.dataStorage.size →
      storage.Decrypts image generations (offset + (p + j)) (result (p + j)))
    (kept : ∀ i, i < p ∨ p + width ≤ i → result i = buffer i) :
    Progress storage image generations offset size original (p + width) result where
  reached := upTo
  aligned := aligned
  done i before there := by
    by_cases earlier : i < p
    · rw [kept i (.inl earlier)]
      exact progress.done i earlier there
    · obtain ⟨j, rfl⟩ := Nat.exists_eq_add_of_le (Nat.not_lt.1 earlier)
      exact right j (by omega) there
  raw i behind inside there := by
    rw [kept i (.inr behind)]
    exact progress.raw i (by omega) inside there
  beyond i behind := by
    rw [kept i (.inr (by omega))]
    exact progress.beyond i behind

include isTree in
/-- One entry of the range, up to the next one or to the end of the range. -/
theorem Generations.WellFormed.readEntry_eq (counts : storage.Counts image generations)
    (inside : Inside image generations size offset) {original : Memory} (unread : p < size)
    (standing : Standing image generations offset g p cursor)
    (progress : Progress storage image generations offset size original p cursor.buffer) :
    ∃ cursor' width, storage.readEntry offset size cursor = some cursor' ∧ 0 < width ∧
      cursor'.curOffset = ((offset + (p + width) : Nat) : Int) ∧
      Progress storage image generations offset size original (p + width) cursor'.buffer ∧
      (p + width < size → Standing image generations offset (g + 1) (p + width) cursor') := by
  have number := formed.formed.on_lt standing.on
  have low := standing.low
  have high := standing.high
  have current := standing.curOffset
  have last := inside.last
  obtain ⟨visitor, moved, next⟩ := formed.moveOn_eq isTree standing.on
  have bounds := formed.offset_bounds (succ_le_of_lt number)
  have nextAligned := formed.aligned (g + 1) number
  obtain ⟨width, isWidth⟩ :=
    Int.eq_ofNat_of_zero_le (a := min (((offset + size : Nat) : Int) - cursor.curOffset)
    (generations.table.offset (g + 1) - generations.table.offset g -
    (cursor.curOffset - generations.table.offset g))) (by omega)
  have widthAligned : (p + width) % blockSize = 0 := by
    have first := inside.offset_aligned
    have whole := inside.size_aligned
    have here := progress.aligned
    unfold blockSize at *
    omega
  have place : storage.counterOffset + generations.table.offset g +
      (cursor.curOffset - generations.table.offset g) =
        storage.counterOffset + ((offset + p : Nat) : Int) := by omega
  have fits := counts.2
  have started : asSize (generations.table.offset g) ≤ cursor.curOffset := by
    rw [formed.asSize_eq (le_of_lt number), current]
    exact low
  have ends : cursor.curOffset < asSize (generations.table.offset (g + 1)) := by
    rw [formed.asSize_eq number, current]
    exact high
  have some : 0 < generations.table.offset (g + 1) - generations.table.offset g -
      (cursor.curOffset - generations.table.offset g) := by omega
  have short : (width : Int) ≤ size := by omega
  have position : (cursor.curOffset - (offset : Int)).toNat = p := by omega
  have stands : ∀ result : Memory, p + width < size →
      Standing image generations offset (g + 1) (p + width)
        ⟨visitor, cursor.curOffset + width, result⟩ := by
    intro result more
    have further : g + 1 < image.entryCount := by
      by_contra final
      have same : g + 1 = image.entryCount := by omega
      rw [same] at isWidth
      omega
    have less := formed.formed.spread.ascending (g + 1) further
    have width_eq : cursor.curOffset + width = generations.table.offset (g + 1) := by omega
    refine ⟨?_, next further, ?_, ?_⟩
    · dsimp only
      omega
    · omega
    · omega
  rw [readEntry]
  simp only [formed.ofBytes_eq standing.on, moved, asserted, if_pos started, if_pos nextAligned,
    if_pos ends, if_pos some, isWidth, if_pos short, bind_eq_bind, bind_some,
    Option.pure_def, position, Int.toNat_natCast, place]
  by_cases encrypted : generations.encryptionValue g = Entry.encrypted
  · obtain ⟨iv, made, isIv⟩ := makeIv_eq
      (upperIv storage.secureValue (BitVec.ofInt 32 (generations.generation g)))
      (show 0 ≤ storage.counterOffset + ((offset + p : Nat) : Int) by have := counts.1; omega)
        (by omega)
    rw [if_pos encrypted, made]
    refine ⟨_, width, rfl, by omega, by dsimp only; omega, ?_, stands _⟩
    refine progress.extend (by omega) widthAligned (fun j below there => ?_) fun i outside => ?_
    · refine ⟨g, number, by omega, by omega, ?_⟩
      have blocks : (offset + p) % blockSize = 0 := by
        have first := inside.offset_aligned
        have here := progress.aligned
        unfold blockSize at *
        omega
      dsimp only
      rw [if_pos encrypted, decrypt_apply isIv counts.1 blocks below (by omega),
        progress.raw _ (le_add_right _ _) (by omega) there, add_assoc]
    · dsimp only
      rw [decrypt, Scatter.writeBlock_of_ne]
      intro j below
      omega
  · rw [if_neg encrypted]
    refine ⟨_, width, rfl, by omega, by dsimp only; omega, ?_, stands _⟩
    refine progress.extend (by omega) widthAligned (fun j below there => ?_) fun i _ => rfl
    refine ⟨g, number, by omega, by omega, ?_⟩
    rw [if_neg encrypted]
    exact progress.raw _ (le_add_right _ _) (by omega) there

include isTree in
theorem Generations.WellFormed.readLoop_eq (counts : storage.Counts image generations)
    (inside : Inside image generations size offset) {original : Memory} (rounds : Nat)
    (standing : p < size → ∃ g, Standing image generations offset g p cursor)
    (current : cursor.curOffset = ((offset + p : Nat) : Int))
    (progress : Progress storage image generations offset size original p cursor.buffer)
    (enough : size ≤ p + rounds) :
    ∃ result, storage.readLoop offset size rounds cursor = some result ∧
      Progress storage image generations offset size original size result := by
  induction rounds generalizing p cursor with
  | zero =>
    obtain rfl : p = size := le_antisymm progress.reached enough
    exact ⟨cursor.buffer, rfl, progress⟩
  | succ rounds ih =>
    rw [readLoop]
    by_cases unread : p < size
    · obtain ⟨g, stands⟩ := standing unread
      obtain ⟨cursor', width, step, some, current', progress', stands'⟩ :=
        formed.readEntry_eq isTree counts inside unread stands progress
      rw [if_pos (by omega), step]
      exact ih (fun more => ⟨g + 1, stands' more⟩) current' progress' (by omega)
    · obtain rfl : p = size := le_antisymm progress.reached (not_lt.1 unread)
      rw [if_neg (by omega)]
      exact ⟨cursor.buffer, rfl, progress⟩

include isTree in
theorem Generations.WellFormed.read_eq (counts : storage.Counts image generations)
    (inside : Inside image generations size offset) (pool : Pool) (buffer : Memory) :
    ∃ result, storage.read pool buffer size offset = some (size, result) ∧
      (∀ i, i < size → offset + i < storage.dataStorage.size →
        storage.Decrypts image generations (offset + i) (result i)) ∧
      ∀ i, size ≤ i → result i = buffer i := by
  rw [read]
  by_cases none : size = 0
  · subst none
    exact ⟨buffer, if_pos rfl, fun i below => absurd below (not_lt_zero i), fun _ _ => rfl⟩
  have first := inside.first
  have last := inside.last
  obtain ⟨visitor, g, found, on, low, high⟩ := formed.formed.find_eq memory first (by omega) pool
  have number := formed.formed.on_lt on
  have spread := formed.formed.spread
  have range : storage.table.offsets.isIncludeRange offset size := by
    rw [isTree]
    show 0 < (size : Int) ∧ generations.table.offset 0 ≤ (offset : Int) ∧
      (size : Int) ≤ generations.table.offset image.entryCount - offset
    omega
  have started := formed.aligned g (le_of_lt number)
  have included : 0 ≤ generations.table.offset g ∧
      storage.table.offsets.isInclude (generations.table.offset g) := by
    rw [isTree]
    exact ⟨(formed.offset_bounds (le_of_lt number)).1,
      spread.offset_le (zero_le g) (le_of_lt number), spread.offset_lt number (le_refl _)⟩
  have progress : Progress storage image generations offset size buffer 0
      (storage.dataStorage.read buffer size offset) := by
    refine ⟨zero_le _, rfl, fun i before => absurd before (not_lt_zero i),
      fun i _ below there => VirtualFile.read_apply below there, fun i behind => ?_⟩
    rw [VirtualFile.read, if_neg (by omega)]
  have standing : 0 < size → ∃ g, Standing image generations offset g 0
      ⟨visitor, offset, storage.dataStorage.read buffer size offset⟩ :=
    fun _ => ⟨g, rfl, on, low, high⟩
  obtain ⟨result, run, whole⟩ := formed.readLoop_eq isTree counts inside size standing rfl progress
    (le_add_left _ _)
  have found' : storage.table.find pool offset = .ok visitor := isTree ▸ found
  refine ⟨result, ?_, fun i below => whole.done i below, whole.beyond⟩
  rw [if_neg none]
  simp only [asserted, if_pos inside.offset_aligned, if_pos inside.size_aligned, if_pos range,
    found', formed.ofBytes_eq on, if_pos started, if_pos included, run, bind_eq_bind,
    Option.bind_some, Option.pure_def]

end Formed

/-- A storage over an image reads each block of a range decrypted under the counter of its place and
generation, or as it is where the entry is not encrypted. -/
def ReadsDecrypted (image : Image) (generations : Generations) (data : VirtualFile)
    (aes : BitVec 128 → BitVec 128) (secureValue : BitVec 32) (counterOffset : Int)
    (memory : Memory) : Prop :=
  ∃ storage, initializeStorage aes secureValue counterOffset data image.nodeStorage
    image.entryStorage image.entryCount memory = .ok storage ∧
    ∀ (pool : Pool) (buffer : Memory) (size offset : Nat), Inside image generations size offset →
    ∃ result, storage.read pool buffer size offset = some (size, result) ∧
        (∀ i, i < size → offset + i < data.size →
          storage.Decrypts image generations (offset + i) (result i)) ∧ ∀ i, size ≤ i →
          result i = buffer i

section Decrypted

variable {data : VirtualFile} {aes : BitVec 128 → BitVec 128} {secureValue : BitVec 32}
    {counterOffset : Int}

/-- The first block is not read where the entry sets are not counted. -/
theorem ReadsDecrypted.countFits (formed : generations.WellFormed image)
    (reads : ReadsDecrypted image generations data aes secureValue counterOffset memory) :
    image.CountFits := by
  obtain ⟨storage, made, reads⟩ := reads
  have spread := formed.formed.spread
  have first := formed.aligned 0 (zero_le _)
  have next := formed.aligned 1 spread.positive
  have less : generations.table.offset 0 < generations.table.offset 1 :=
    spread.ascending 0 spread.positive
  have last := spread.offset_le (g := 1) spread.positive (le_refl _)
  obtain ⟨offset, start⟩ := Int.eq_ofNat_of_zero_le spread.nonneg
  unfold blockSize at first next
  have inside : Inside image generations 16 offset :=
    ⟨by unfold blockSize; omega, rfl, Int.le_of_eq start, by omega⟩
  obtain ⟨result, done, -⟩ := reads ⟨⟨1, one_pos⟩, zeros⟩ zeros 16 offset inside
  simp only [initializeStorage, if_pos spread.positive, bind_eq_ok] at made
  obtain ⟨table, made, isStorage⟩ := made
  obtain rfl := Except.ok.inj isStorage
  rw [read, if_neg (by decide)] at done
  simp only [bind_eq_bind, bind_eq_some_iff] at done
  obtain ⟨_, -, _, -, _, -, done⟩ := done
  cases found : table.find ⟨⟨1, one_pos⟩, zeros⟩ offset with
  | error failure =>
    rw [found] at done
    cases done
  | ok visitor =>
    rw [← formed.nodeSize, ← formed.entrySize] at made
    exact formed.formed.countFits made found

end Decrypted

/-- A storage over a well-formed table decrypts what it reads if and only if the entry count can be
rounded up. -/
theorem read_decrypts_iff (image : Image) (generations : Generations)
    (formed : generations.WellFormed image) (data : VirtualFile) (aes : BitVec 128 → BitVec 128)
    (secureValue : BitVec 32) (counterOffset : Int) (nonneg : 0 ≤ counterOffset)
    (small : counterOffset + generations.table.offset image.entryCount ≤ 2 ^ 63) (memory : Memory) :
    ReadsDecrypted image generations data aes secureValue counterOffset memory ↔
      image.CountFits := by
  refine ⟨fun reads => reads.countFits formed, fun fits => ?_⟩
  refine ⟨⟨image.tree generations.table memory, data, aes, secureValue, counterOffset⟩, ?_, ?_⟩
  · have tree := formed.formed.initializeTree_eq fits memory
    rw [formed.nodeSize, formed.entrySize] at tree
    rw [initializeStorage, if_pos formed.formed.spread.positive, tree]
    rfl
  · intro pool buffer size offset inside
    exact formed.read_eq rfl ⟨nonneg, small⟩ inside pool buffer

/-- The entries of a packed table, of which every other block is encrypted. -/
def packedGenerations (entryCount : Nat) : Generations :=
  ⟨packedTable entryCount, fun g => BitVec.ofNat 8 (g % 2), fun g => ((g % 2 ^ 31 : Nat) : Int)⟩

/-- What the image of a packed table holds behind the offsets of the entries. -/
def packedValue (g : Nat) : Nat := g % 2 + 2 ^ 32 * (g % 2 ^ 31)

theorem packedValue_half (g : Nat) : packedValue g / 256 ^ 4 % 256 ^ 4 = g % 2 ^ 31 := by
  rw [packedValue, show 256 ^ 4 = 2 ^ 32 from rfl, add_mul_div_left _ _ (by decide),
    div_eq_of_lt (by omega), zero_add, mod_eq_of_lt (by omega)]

theorem packedGenerations_wellFormed {entryCount : Nat} (positive : 0 < entryCount)
    (signed : entryCount < 2 ^ 31) :
    (packedGenerations entryCount).WellFormed (packedImage entryCount packedValue) where
  formed := packedImage_wellFormed packedValue positive signed
  nodeSize := rfl
  entrySize := rfl
  entry k inside i below := by
    have formed := packedImage_wellFormed packedValue positive signed
    have few : (packedTable entryCount).count k ≤ 1023 :=
      packedImage_perNode packedValue ▸ formed.spread.fits k inside
    have within : i < 1023 := lt_of_lt_of_le below few
    have place : getBucketTreeEntryOffset (k * 16384) 16 i = k * 16384 + (2 * i + 2) * 8 := by
      unfold getBucketTreeEntryOffset nodeHeaderSize
      omega
    have odd : (2 * i + 1) % 2 = 1 ∧ (2 * i + 1) / 2 = i := by omega
    have word : entrySetWords entryCount packedValue k (2 * i + 3) =
        packedValue (packedFirst entryCount k + i) := by
      simp only [entrySetWords, nodeWords, odd]
      rfl
    have known := formed.entrySets.entry k inside i below
    have value : BitVec.ofNat 8 (packedValue (packedFirst entryCount k + i)) =
        BitVec.ofNat 8 ((packedFirst entryCount k + i) % 2) := by
      refine eq_of_toNat_eq ?_
      simp only [toNat_ofNat, packedValue]
      omega
    rw [Entry.read, known]
    show Entry.mk _ ((storageOf _ (entrySetWords entryCount packedValue)).byte
      (getBucketTreeEntryOffset (k * 16384) 16 i + 8)) (s32At (storageOf _ _).byte
        (getBucketTreeEntryOffset (k * 16384) 16 i + 12)) = _
    rw [byte_storageOf (n := k) (w := 2 * i + 3) (by omega) (by omega), word, value,
      s32At_storageOf (n := k) (w := 2 * i + 3) (b := 4) (by omega) (by decide) (by omega)
        (word ▸ packedValue_half _) (by omega)]
    rfl
  aligned g _ := by
    show ((16 * g : Nat) : Int) % blockSize = 0
    unfold blockSize
    omega

/-- A table of two levels. -/
theorem read_decrypts_twoLevels :
    ReadsDecrypted (packedImage 5000000 packedValue) (packedGenerations 5000000) ⟨80000000, zeros⟩
      id 5 0 zeros :=
  (read_decrypts_iff _ _ (packedGenerations_wellFormed (by decide) (by decide)) _ id 5 0 (by decide)
    (by decide) zeros).2 (by decide)

/-- With the largest entry count there is, nothing is read. -/
theorem not_readsDecrypted_largest :
    (packedGenerations (2 ^ 31 - 1)).WellFormed (packedImage (2 ^ 31 - 1) packedValue) ∧
      ¬ ReadsDecrypted (packedImage (2 ^ 31 - 1) packedValue) (packedGenerations (2 ^ 31 - 1))
      ⟨80000000, zeros⟩ id 5 0 zeros :=
  have formed := packedGenerations_wellFormed (by decide) (by decide)
  ⟨formed, fun reads => absurd (reads.countFits formed) (by decide)⟩

end AesCtrCounterExtendedStorage

end SumiEmu.FileSys
