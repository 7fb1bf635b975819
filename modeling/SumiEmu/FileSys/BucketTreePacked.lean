/-
# Images of packed tables

A table of entries that are 16 bytes apart, in nodes of 16 KiB that are filled one after the
other. What the nodes hold is told in words of 64 bits. For every number of entries that a tree
can be asked for, the image of the table is well-formed.
-/

import SumiEmu.FileSys.BucketTreeFind

namespace SumiEmu.FileSys.BucketTree

open Nat

/-! ## Nodes of words -/

/-- The header of a node and the words behind it. -/
def nodeWords (index count last : Nat) (word : Nat → Nat) : Nat → Nat
  | 0 => index + 2 ^ 32 * count
  | 1 => last
  | w + 2 => word w

/-- A storage of nodes whose words are given. -/
def storageOf (nodes : Nat) (words : Nat → Nat → Nat) : VirtualFile :=
  ⟨nodes * 16384, fun address =>
    BitVec.ofNat 8 (words (address / 16384) (address % 16384 / 8) / 256 ^ (address % 8))⟩

section Words

variable {nodes n w : Nat} {words : Nat → Nat → Nat}

theorem littleEndian_eq_mod {memory : Memory} {address size value : Nat}
    (digits : ∀ i, i < size → (memory (address + i)).toNat = value / 256 ^ i % 256) :
    littleEndian memory address size = value % 256 ^ size := by
  induction size generalizing address value with
  | zero => rw [littleEndian, pow_zero, mod_one]
  | succ size ih =>
    have low := digits 0 (succ_pos _)
    have high : littleEndian memory (address + 1) size = value / 256 % 256 ^ size :=
        ih fun i below => by
      have digit := digits (i + 1) (succ_lt_succ below)
      rw [Nat.pow_succ', ← Nat.div_div_eq_div_mul] at digit
      rw [add_assoc, add_comm 1]
      exact digit
    rw [Nat.pow_zero, Nat.div_one, Nat.add_zero] at low
    rw [littleEndian, low, high, pow_succ', mod_mul]

/-- The bytes of a word of a node. -/
theorem littleEndian_storageOf {b size : Nat} (inside : w < 2048) (within : b + size ≤ 8) :
    littleEndian (storageOf nodes words).byte (n * 16384 + w * 8 + b) size =
      words n w / 256 ^ b % 256 ^ size := by
  refine littleEndian_eq_mod fun i below => ?_
  have node : (n * 16384 + w * 8 + b + i) / 16384 = n := by omega
  have word : (n * 16384 + w * 8 + b + i) % 16384 / 8 = w := by omega
  have byte : (n * 16384 + w * 8 + b + i) % 8 = b + i := by omega
  simp only [storageOf, node, word, byte, BitVec.toNat_ofNat]
  rw [Nat.pow_add, Nat.div_div_eq_div_mul]

/-- Its first byte. -/
theorem byte_storageOf {address : Nat} (inside : w < 2048) (place : address = n * 16384 + w * 8) :
    (storageOf nodes words).byte address = BitVec.ofNat 8 (words n w) := by
  have node : address / 16384 = n ∧ address % 16384 / 8 = w ∧ address % 8 = 0 := by omega
  simp only [storageOf, node, Nat.pow_zero, Nat.div_one]

theorem s64At_storageOf {address value : Nat} (inside : w < 2048)
    (place : address = n * 16384 + w * 8) (word : words n w = value) (small : value < 2 ^ 63) :
    s64At (storageOf nodes words).byte address = value := by
  have bytes : littleEndian (storageOf nodes words).byte (n * 16384 + w * 8 + 0) 8 =
      words n w / 256 ^ 0 % 256 ^ 8 := littleEndian_storageOf inside (le_refl _)
  rw [Nat.add_zero, word, Nat.pow_zero, Nat.div_one, Nat.mod_eq_of_lt (by omega), ← place] at bytes
  rw [s64At, bytes, BitVec.toInt_ofNat']
  exact Int.bmod_eq_of_le (by omega) (by omega)

theorem s32At_storageOf {address b value : Nat} (inside : w < 2048) (within : b + 4 ≤ 8)
    (place : address = n * 16384 + w * 8 + b) (half : words n w / 256 ^ b % 256 ^ 4 = value)
    (small : value < 2 ^ 31) : s32At (storageOf nodes words).byte address = value := by
  rw [place, s32At, littleEndian_storageOf inside within, half, BitVec.toInt_ofNat']
  exact Int.bmod_eq_of_le (by omega) (by omega)

theorem header_storageOf {index count last : Nat} {word : Nat → Nat}
    (node : words n = nodeWords index count last word) (small : index < 2 ^ 31)
    (small' : count < 2 ^ 31) (small'' : last < 2 ^ 63) :
    NodeHeader.at (storageOf nodes words).byte (n * 16384) = ⟨index, count, last⟩ := by
  have first : words n 0 = index + 2 ^ 32 * count := congrFun node 0
  have second : words n 1 = last := congrFun node 1
  have low : words n 0 / 256 ^ 0 % 256 ^ 4 = index := by omega
  have high : words n 0 / 256 ^ 4 % 256 ^ 4 = count := by omega
  rw [NodeHeader.at, s32At_storageOf (by decide) (by decide) (by omega) low small,
    s32At_storageOf (by decide) (by decide) (by omega) high small',
    s64At_storageOf (by decide) (by omega) second small'']

end Words

/-! ## The image of a packed table -/

variable (entryCount : Nat)

/-- The number of entries before an entry set. -/
def packedFirst (k : Nat) : Nat := min (1023 * k) entryCount

def packedTable : Table := ⟨fun g => (16 * g : Nat), packedFirst entryCount⟩

/-- Where the entry set begins that an offset of the first node is for. -/
def Image.l1Word (image : Image) (i : Nat) : Nat :=
  16 * packedFirst image.entryCount
    (if image.entrySetCount ≤ image.offsetCount then i
    else if i < image.nodeL2Count then image.onL1 + i * image.offsetCount
    else i - image.nodeL2Count)

/-- The first node, and behind it those of the second level. -/
def Image.levelWords (image : Image) : Nat → Nat → Nat
  | 0 => nodeWords 0 image.l1Count (16 * image.entryCount) image.l1Word
  | j + 1 => nodeWords j (image.countL2 j) 0 fun i =>
      16 * packedFirst image.entryCount (image.onL1 + j * image.offsetCount + i)

/-- An entry set, with what the entries hold behind their offsets. -/
def entrySetWords (value : Nat → Nat) (k : Nat) : Nat → Nat :=
  let first := packedFirst entryCount
  nodeWords k (first (k + 1) - first k) (16 * first (k + 1)) fun w =>
    if w % 2 = 0 then 16 * (first k + w / 2) else value (first k + w / 2)

/-- The image of a packed table. How its nodes are laid out does not depend on the storages. -/
def packedImage (value : Nat → Nat) : Image :=
  let shape : Image := ⟨⟨0, zeros⟩, ⟨0, zeros⟩, 16384, 16, entryCount⟩
  { shape with
    nodeStorage := storageOf (1 + shape.nodeL2Count) shape.levelWords
    entryStorage := storageOf shape.entrySetCount (entrySetWords entryCount value) }

variable {entryCount} (value : Nat → Nat)

theorem packedImage_offsetCount : (packedImage entryCount value).offsetCount = 2046 :=
  (by decide : getOffsetCount 16384 = 2046)

theorem packedImage_perNode :
    getEntryCount (packedImage entryCount value).nodeSize (packedImage entryCount value).entrySize =
      1023 :=
  (by decide : getEntryCount 16384 16 = 1023)

theorem packedImage_entrySetCount :
    (packedImage entryCount value).entrySetCount = (entryCount + 1022) / 1023 := by
  rw [Image.entrySetCount, packedImage_perNode]
  rfl

theorem packedTable_count (k : Nat) : (packedTable entryCount).count k =
    min (1023 * (k + 1)) entryCount - min (1023 * k) entryCount := rfl

theorem packedTable_start (k : Nat) :
    (packedTable entryCount).start k = (16 * packedFirst entryCount k : Nat) := rfl

section WellFormed

variable (positive : 0 < entryCount) (signed : entryCount < 2 ^ 31)

include signed

theorem packedFirst_lt (k : Nat) : 16 * packedFirst entryCount k < 2 ^ 63 := by
  unfold packedFirst
  omega

theorem packedImage_sized : (packedImage entryCount value).Sized := by
  refine ⟨(by decide : 8 ≤ 16), (by decide : 16 + nodeHeaderSize ≤ 16384),
    (by decide : nodeSizeMin ≤ 16384), (by decide : 16384 ≤ nodeSizeMax), ⟨14, rfl⟩, ?_⟩
  rw [packedImage_offsetCount, packedImage_entrySetCount, chunks]
  omega

include positive in
theorem packedImage_spread : (packedImage entryCount value).Spread (packedTable entryCount) := by
  refine ⟨positive, signed, fun g _ => ?_, Int.le_refl _, zero_min _, ?_, fun k inside => ?_,
    fun k _ => ?_⟩
  · exact Int.ofNat_lt.mpr (mul_lt_mul_of_pos_left (lt_succ_self g) (by decide))
  · rw [packedImage_entrySetCount]
    exact min_eq_right (by omega)
  · rw [packedImage_entrySetCount] at inside
    rw [packedTable_count]
    omega
  · rw [packedImage_perNode, packedTable_count]
    omega

theorem packedImage_entrySets :
    (packedImage entryCount value).EntrySets (packedTable entryCount) := by
  refine ⟨le_refl _, fun k inside => ?_, fun k inside i below => ?_⟩
  · rw [packedImage_entrySetCount] at inside
    rw [packedTable_count, packedTable_start]
    exact header_storageOf rfl (by omega) (by omega) (packedFirst_lt signed _)
  · have word : (2 * i) % 2 = 0 ∧ 2 * i / 2 = i := by omega
    rw [packedTable_count] at below
    show _ = ((16 * (packedFirst entryCount k + i) : Nat) : Int)
    refine s64At_storageOf (n := k) (w := 2 * i + 2) (by omega) ?_ ?_ (by unfold packedFirst; omega)
    · show k * 16384 + 16 + i * 16 = _
      omega
    · simp only [entrySetWords, nodeWords, word, if_true]

/-- The nodes of the second level fit the first one. -/
theorem packedImage_nodeL2Count (deep : 2046 < (packedImage entryCount value).entrySetCount) :
    (packedImage entryCount value).nodeL2Count ≤ 2046 := by
  have levels := (packedImage_sized value signed).levels
  rw [packedImage_offsetCount] at levels
  have bounds := nodeL2Count_bounds (by decide) deep levels
  rw [Image.nodeL2Count, packedImage_offsetCount, if_neg (not_le.mpr deep)]
  exact bounds.2.1

theorem packedImage_nodes : (packedImage entryCount value).Nodes (packedTable entryCount) := by
  have room : (packedImage entryCount value).offsetCount = 2046 := packedImage_offsetCount value
  have few := packedImage_nodeL2Count value signed
  have small := packedFirst_lt signed
  have wide (j : Nat) : (packedImage entryCount value).countL2 j ≤ 2046 := by
    unfold Image.countL2
    omega
  refine ⟨le_refl _, ?_, fun single k inside => ?_, fun deep j inside => ?_,
    fun deep k inside => ?_, fun deep j inside => ⟨0, Int.le_refl 0, ?_⟩,
    fun deep j inside i below => ?_⟩
  · have count : (packedImage entryCount value).l1Count ≤ 2046 := by
      unfold Image.l1Count
      split_ifs <;> omega
    exact header_storageOf (n := 0) rfl (by decide) (by omega)
      (show 16 * entryCount < 2 ^ 63 by omega)
  · refine s64At_storageOf (n := 0) (w := k + 2) (by omega) ?_ ?_ (small k)
    · show 16 + k * 8 = _
      omega
    · exact congrArg (16 * packedFirst entryCount ·) (if_pos single)
  · have := few (room ▸ deep)
    refine s64At_storageOf (n := 0) (w := j + 2) (by omega) ?_ ?_ (small _)
    · show 16 + j * 8 = _
      omega
    · exact congrArg (16 * packedFirst entryCount ·)
        ((if_neg (not_le.mpr deep)).trans (if_pos inside))
  · have := few (room ▸ deep)
    unfold Image.onL1 at inside
    refine s64At_storageOf (n := 0) (w := (packedImage entryCount value).nodeL2Count + k + 2)
      (by omega) ?_ ?_ (small k)
    · show 16 + (_ + k) * 8 = _
      omega
    · exact congrArg (16 * packedFirst entryCount ·) ((if_neg (not_le.mpr deep)).trans
        ((if_neg (Nat.not_lt.mpr (Nat.le_add_right ..))).trans (Nat.add_sub_cancel_left ..)))
  · have := few (room ▸ deep)
    have := wide j
    exact header_storageOf rfl (by omega) (by omega) (by decide)
  · have := wide j
    refine s64At_storageOf (n := j + 1) (w := i + 2) (by omega) ?_ rfl (small _)
    show (j + 1) * 16384 + 16 + i * 8 = _
    omega

include positive in
/-- The image of a packed table is well-formed, whatever the entries hold behind their offsets. -/
theorem packedImage_wellFormed :
    (packedImage entryCount value).WellFormed (packedTable entryCount) :=
  ⟨packedImage_sized value signed, packedImage_spread value positive signed,
      packedImage_entrySets value signed, packedImage_nodes value signed⟩

end WellFormed

end SumiEmu.FileSys.BucketTree
