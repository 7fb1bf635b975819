/-
# The search finds the last entry up to an address

On each level the search returns the last offset up to the address, and the offset behind it
on the next level lies behind the address too. So the entry set that is found holds the
address, and with it the entry.
-/

import SumiEmu.FileSys.BucketTree

namespace SumiEmu.FileSys.BucketTree

open Bisection Fallible Nat Int

/-! ## Counting -/

theorem chunks_bounds {x y : Nat} (positive : 0 < y) (some : 0 < x) :
    0 < chunks x y ∧ (chunks x y - 1) * y < x ∧ x ≤ chunks x y * y := by
  have split := div_add_mod (x + (y - 1)) y
  have below := mod_lt (x + (y - 1)) positive
  rw [mul_comm] at split
  have least : 0 < chunks x y := div_pos (by omega) positive
  refine ⟨least, ?_, ?_⟩
  · rw [Nat.sub_mul, Nat.one_mul, chunks]
    omega
  · rw [chunks]
    omega

theorem wrap32_eq {value : Int} (low : 0 ≤ value) (high : value < 2 ^ 31) : wrap32 value = value :=
  bmod_eq_of_le (by omega) (by omega)

/-- Where the sum fits, dividing rounds up. -/
theorem divideUp_eq {x y : Nat} (positive : 0 < y) (fits : x + (y - 1) < 2 ^ 31) :
    divideUp x y = chunks x y := by
  have sum : (x : Int) + (y - 1) = (x + (y - 1) : Nat) := by omega
  rw [divideUp, sum, wrap32_eq (by omega) (by omega)]
  rfl

/-- Where it does not, the result is not positive. -/
theorem divideUp_nonpos {x y : Nat} (signed : x < 2 ^ 31) (signed' : y < 2 ^ 31)
    (wraps : 2 ^ 31 ≤ x + (y - 1)) : divideUp x y ≤ 0 := by
  have negative : wrap32 (x + (y - 1)) ≤ 0 := by
    rw [wrap32, Int.bmod]
    split_ifs <;> omega
  have := Int.tdiv_nonneg (Int.neg_nonneg_of_nonpos negative) (Int.natCast_nonneg y)
  rwa [Int.neg_tdiv, Int.neg_nonneg] at this

/-- With the offsets that are left for the first node, the second level has a node for each
`offsetCount` of the others. -/
theorem nodeL2Count_bounds {O S : Nat} (room : 0 < O) (deep : O < S) (levels : chunks S O ≤ O) :
    let L := chunks (S - (O - (chunks S O - 1))) O
    0 < L ∧ L ≤ O ∧ O - L + (L - 1) * O < S ∧ S ≤ O - L + L * O := by
  intro L
  obtain ⟨_, above, enough⟩ := chunks_bounds room (lt_trans room deep)
  obtain ⟨least, above', enough'⟩ : 0 < L ∧ (L - 1) * O < S - (O - (chunks S O - 1)) ∧
    S - (O - (chunks S O - 1)) ≤ L * O := chunks_bounds room (by omega)
  generalize chunks S O = N at *
  have two : 2 ≤ N := by
    by_contra single
    have : N * O ≤ 1 * O := mul_le_mul_right O (by omega)
    omega
  have most : L ≤ N := by
    by_contra more
    have : N * O ≤ (L - 1) * O := mul_le_mul_right O (by omega)
    omega
  have fewest : N ≤ L + 1 := by
    by_contra fewer
    have : (L + 1) * O ≤ (N - 1) * O := mul_le_mul_right O (by omega)
    rw [add_mul] at this
    omega
  have product : L * O = (L - 1) * O + O := by
    rw [Nat.sub_mul, Nat.one_mul]
    have : 1 * O ≤ L * O := mul_le_mul_right O least
    omega
  refine ⟨least, by omega, by omega, ?_⟩
  rcases lt_or_ge L N with fewer | equal
  · omega
  · have : L = N := by omega
    subst this
    omega

/-! ## Searching -/

theorem findLoop_eq (offsetAt : Nat → Int) (stride : Nat) (v : Int) (start : Nat)
    {rounds k last : Nat} :
    StorageNode.findLoop offsetAt stride v rounds (start + k * stride) last =
      start + search (fun i => decide (offsetAt (start + i * stride) ≤ v)) rounds k last *
      stride := by
  induction rounds generalizing k last with
  | zero => rfl
  | succ rounds ih =>
    rw [StorageNode.findLoop, search]
    by_cases empty : last = 0
    · rw [if_pos empty, if_pos empty]
    · have mid : start + k * stride + last / 2 * stride = start + (k + last / 2) * stride := by
        rw [add_mul]
        omega
      have next : start + (k + last / 2) * stride + stride =
          start + (k + last / 2 + 1) * stride := by
        rw [add_mul _ 1]
        omega
      rw [if_neg empty, if_neg empty]
      simp only [mid, next, decide_eq_true_eq]
      split_ifs
      · exact ih
      · exact ih

/-- The search in a node whose offsets are known. -/
theorem StorageNode.find_eq {node : StorageNode} {offsetAt : Nat → Int} {x : Nat → Int} (v : Int)
    (stride : 0 < node.stride)
    (known : ∀ i, i < node.count → offsetAt (node.start + i * node.stride) = x i) :
    node.find offsetAt v = (upperBound (fun i => decide (x i ≤ v)) 0 node.count : Nat) - 1 := by
  have loop : StorageNode.findLoop offsetAt node.stride v node.count (node.start + 0 * node.stride)
    node.count = node.start + search _ node.count 0 node.count * node.stride :=
    findLoop_eq offsetAt node.stride v node.start
  rw [zero_mul, add_zero] at loop
  have same : search (fun i => decide (offsetAt (node.start + i * node.stride) ≤ v)) node.count 0
    node.count = search (fun i => decide (x i ≤ v)) node.count 0 node.count := by
    refine search_congr fun i _ below => ?_
    rw [known i (by omega)]
  rw [StorageNode.find, loop, same, Nat.add_sub_cancel_left, Nat.mul_div_cancel _ stride,
    upperBound]

/-- A node of a file, with an array of known offsets. -/
structure NodeAt (file : VirtualFile) (base nodeSize stride count : Nat) (x : Nat → Int) :
    Prop where
  within : base + nodeSize ≤ file.size
  fits : nodeHeaderSize + count * stride ≤ nodeSize
  long : 8 ≤ stride
  known : ∀ i, i < count → s64At file.byte (base + nodeHeaderSize + i * stride) = x i

namespace NodeAt

variable {file : VirtualFile} {base nodeSize stride count : Nat} {x : Nat → Int}
  (node : NodeAt file base nodeSize stride count x)

include node

theorem inside {i : Nat} (below : i < count) : nodeHeaderSize + i * stride + stride ≤ nodeSize := by
  have : (i + 1) * stride ≤ count * stride := mul_le_mul_right stride below
  have := node.fits
  rw [add_mul] at *
  omega

/-- A node that is read as a whole holds the offsets. -/
theorem findInBuffer_eq (memory : Memory) (v : Int) :
    StorageNode.findInBuffer ⟨nodeHeaderSize, stride, count⟩ (file.read memory nodeSize base) v =
      (upperBound (fun i => decide (x i ≤ v)) 0 count : Nat) - 1 := by
  have long := node.long
  refine StorageNode.find_eq v (lt_of_lt_of_le (by decide) long) fun i below => ?_
  have := node.inside below
  have := node.within
  dsimp only
  rw [s64At_read (by omega) (by omega), ← node.known i below, add_assoc]

/-- And so do the single reads. -/
theorem findInStorage_eq (v : Int) :
    StorageNode.findInStorage ⟨nodeHeaderSize + base, stride, count⟩ file v =
      (upperBound (fun i => decide (x i ≤ v)) 0 count : Nat) - 1 := by
  have long := node.long
  refine StorageNode.find_eq v (lt_of_lt_of_le (by decide) long) fun i below => ?_
  have := node.inside below
  have := node.within
  dsimp only
  rw [s64At_read (by omega) (by omega), ← node.known i below, add_zero, add_comm nodeHeaderSize]

end NodeAt

/-! ## Checks -/

theorem rUnless_pos {condition : Prop} [Decidable condition] (failure : Failure)
    (holds : condition) : rUnless condition failure = .ok () := if_pos holds

theorem rUnless_neg {condition : Prop} [Decidable condition] (failure : Failure)
    (fails : ¬ condition) : rUnless condition failure = .error failure := if_neg fails

/-- A header that tells what it should is let through. -/
theorem verify_ok {header : NodeHeader} {index : Int} {nodeSize entrySize : Nat}
    (same : header.index = index)
    (size : entrySize ≠ 0) (fits : entrySize + nodeHeaderSize ≤ nodeSize) (some : 0 < header.count)
    (most : header.count.toNat ≤ (nodeSize - nodeHeaderSize) / entrySize)
    (nonneg : 0 ≤ header.offset) : header.verify index nodeSize entrySize = .ok () := by
  have entries : entrySize ≠ 0 ∧ entrySize + nodeHeaderSize ≤ nodeSize := ⟨size, fits⟩
  have number : 0 < header.count ∧ header.count.toNat ≤ (nodeSize - nodeHeaderSize) / entrySize :=
    ⟨some, most⟩
  simp only [NodeHeader.verify, rUnless_pos _ same, rUnless_pos _ entries, rUnless_pos _ number,
    rUnless_pos _ nonneg, ok_bind]

/-! ## The table -/

section Table

variable {image : Image} {table : Table} (spread : image.Spread table)

include spread in
theorem Image.Spread.offset_lt {g g' : Nat} (less : g < g') (inside : g' ≤ image.entryCount) :
    table.offset g < table.offset g' := by
  induction less with
  | refl => exact spread.ascending g inside
  | step less ih => exact lt_trans (ih (by omega)) (spread.ascending _ inside)

include spread in
theorem Image.Spread.offset_le {g g' : Nat} (le : g ≤ g') (inside : g' ≤ image.entryCount) :
    table.offset g ≤ table.offset g' := by
  rcases lt_or_eq_of_le le with less | rfl
  · exact le_of_lt (spread.offset_lt less inside)
  · exact le_refl _

include spread in
theorem Image.Spread.first_lt {k : Nat} (inside : k < image.entrySetCount) :
    table.first k < table.first (k + 1) := Nat.lt_of_sub_pos (spread.filled k inside)

include spread in
theorem Image.Spread.first_le {k k' : Nat} (le : k ≤ k') (inside : k' ≤ image.entrySetCount) :
    table.first k ≤ table.first k' := by
  induction le with
  | refl => exact le_refl _
  | step le ih => exact le_trans (ih (by omega)) (le_of_lt (spread.first_lt inside))

include spread in
theorem Image.Spread.first_le_entryCount {k : Nat} (inside : k ≤ image.entrySetCount) :
    table.first k ≤ image.entryCount := spread.last ▸ spread.first_le inside (le_refl _)

include spread in
theorem Image.Spread.start_lt {k : Nat} (inside : k < image.entrySetCount) :
    table.start k < table.start (k + 1) :=
  spread.offset_lt (spread.first_lt inside) (spread.first_le_entryCount inside)

include spread in
theorem Image.Spread.start_le {k k' : Nat} (le : k ≤ k') (inside : k' ≤ image.entrySetCount) :
    table.start k ≤ table.start k' :=
  spread.offset_le (spread.first_le le inside) (spread.first_le_entryCount inside)

include spread in
theorem Image.Spread.start_zero : table.start 0 = table.offset 0 := by
  rw [Table.start, spread.first]

include spread in
theorem Image.Spread.start_last :
    table.start image.entrySetCount = table.offset image.entryCount := by
  rw [Table.start, spread.last]

include spread in
theorem Image.Spread.entrySetCount_pos : 0 < image.entrySetCount := by
  by_contra none
  have zero : image.entrySetCount = 0 := by omega
  have := spread.positive
  rw [← spread.last, zero, spread.first] at this
  omega

end Table

/-! ## The first node -/

section Nodes

variable {image : Image} {table : Table} {memory : Memory}

/-- The tree that an image is initialized to. -/
def Image.tree (image : Image) (table : Table) (memory : Memory) : BucketTree where
  nodeStorage := image.nodeStorage
  entryStorage := image.entryStorage
  nodeL1 := image.nodeStorage.read memory image.nodeSize 0
  nodeSize := image.nodeSize
  entrySize := image.entrySize
  entryCount := image.entryCount
  offsetCount := image.offsetCount
  entrySetCount := image.entrySetCount
  offsets := ⟨table.offset 0, table.offset image.entryCount⟩

section Fields

variable (image : Image) (table : Table) (memory : Memory)

@[simp]
theorem Image.tree_nodeStorage : (image.tree table memory).nodeStorage = image.nodeStorage := rfl

@[simp]
theorem Image.tree_entryStorage : (image.tree table memory).entryStorage = image.entryStorage := rfl

@[simp]
theorem Image.tree_nodeL1 :
    (image.tree table memory).nodeL1 = image.nodeStorage.read memory image.nodeSize 0 := rfl

@[simp]
theorem Image.tree_nodeSize : (image.tree table memory).nodeSize = image.nodeSize := rfl

@[simp]
theorem Image.tree_entrySize : (image.tree table memory).entrySize = image.entrySize := rfl

@[simp]
theorem Image.tree_offsetCount : (image.tree table memory).offsetCount = image.offsetCount := rfl

@[simp]
theorem Image.tree_entrySetCount :
    (image.tree table memory).entrySetCount = (image.entrySetCount : Int) := rfl

end Fields

theorem Image.Sized.room (sized : image.Sized) :
    0 < image.offsetCount ∧ nodeHeaderSize + image.offsetCount * 8 ≤ image.nodeSize := by
  have := sized.entry
  have := sized.node
  unfold Image.offsetCount getOffsetCount
  unfold nodeHeaderSize at *
  omega

variable (formed : image.WellFormed table)

include formed

/-- An entry set has room for at least one entry. -/
theorem Image.WellFormed.perNode_pos : 0 < getEntryCount image.nodeSize image.entrySize := by
  have := formed.sized.entry
  have := formed.sized.node
  exact div_pos (by omega) (by omega)

/-- There are no more entry sets than entries. -/
theorem Image.WellFormed.entrySetCount_le : image.entrySetCount ≤ image.entryCount := by
  have := (chunks_bounds formed.perNode_pos formed.spread.positive).2.1
  have : (image.entrySetCount - 1) * 1 ≤ (image.entrySetCount - 1) * _ :=
    mul_le_mul_left _ formed.perNode_pos
  unfold Image.entrySetCount at *
  omega

theorem Image.WellFormed.levels (deep : image.offsetCount < image.entrySetCount) :
    0 < image.nodeL2Count ∧ image.nodeL2Count ≤ image.offsetCount ∧
      image.onL1 + (image.nodeL2Count - 1) * image.offsetCount < image.entrySetCount ∧
      image.entrySetCount ≤ image.onL1 + image.nodeL2Count * image.offsetCount := by
  have bounds := nodeL2Count_bounds formed.sized.room.1 deep formed.sized.levels
  have count : image.nodeL2Count =
      chunks (image.entrySetCount -
        (image.offsetCount - (chunks image.entrySetCount image.offsetCount - 1)))
        image.offsetCount := if_neg (not_le.mpr deep)
  rw [Image.onL1, count]
  exact bounds

/-- The offsets of the first node come from the file. -/
theorem Image.WellFormed.l1Offset_read {i : Nat} (inside : i < image.offsetCount) :
    l1Offset (image.nodeStorage.read memory image.nodeSize 0) i =
      l1Offset image.nodeStorage.byte i := by
  have room := formed.sized.room.2
  have size := formed.nodes.size
  rw [Image.queryNodeStorageSize, add_mul] at size
  rw [l1Offset, s64At_read (by omega) (by omega), zero_add]
  rfl

theorem Image.WellFormed.l1Header_read :
    l1Header (image.nodeStorage.read memory image.nodeSize 0) =
      ⟨0, image.l1Count, table.offset image.entryCount⟩ := by
  have room := formed.sized.room.2
  have size := formed.nodes.size
  rw [Image.queryNodeStorageSize, add_mul] at size
  unfold nodeHeaderSize at room
  rw [l1Header, NodeHeader.at_read (by omega) (by omega)]
  exact formed.nodes.header

/-- The first node has room for its offsets, and there is at least one. -/
theorem Image.WellFormed.l1Count_bounds :
    0 < image.l1Count ∧ image.l1Count ≤ image.offsetCount := by
  unfold Image.l1Count
  split_ifs with single
  · exact ⟨formed.spread.entrySetCount_pos, single⟩
  · have levels := formed.levels (not_le.mp single)
    exact ⟨levels.1, levels.2.1⟩

theorem Image.WellFormed.l1Header_verify :
    (l1Header (image.nodeStorage.read memory image.nodeSize 0)).verify 0 image.nodeSize 8 =
    .ok () := by
  have room := formed.sized.room
  have bounds := formed.l1Count_bounds
  have nonneg : 0 ≤ table.offset image.entryCount :=
    le_trans formed.spread.nonneg (formed.spread.offset_le (zero_le _) (le_refl _))
  rw [formed.l1Header_read]
  exact verify_ok rfl (by decide) (by omega) (natCast_pos.mpr bounds.1) bounds.2 nonneg

/-- The table is found to start at its first entry, whichever way the first node is laid out. -/
theorem Image.WellFormed.l1StartOffset_eq (memory : Memory) :
    l1StartOffset (image.nodeStorage.read memory image.nodeSize 0) image.offsetCount
      image.entrySetCount = table.offset 0 ∧
      table.offset 0 ≤ l1Offset (image.nodeStorage.read memory image.nodeSize 0) 0 := by
  have spread := formed.spread
  rw [l1StartOffset, formed.l1Header_read, formed.l1Offset_read formed.sized.room.1]
  by_cases single : image.entrySetCount ≤ image.offsetCount
  · have zero := formed.nodes.single single 0 spread.entrySetCount_pos
    rw [if_neg (fun both => not_lt.mpr single (Int.ofNat_lt.mp both.1)), zero, spread.start_zero]
    exact ⟨rfl, le_refl _⟩
  · have deep := not_le.mp single
    have count : image.l1Count = image.nodeL2Count := if_neg single
    obtain ⟨least, most, within, _⟩ := formed.levels deep
    have zero := formed.nodes.node deep 0 least
    rw [zero_mul, add_zero] at zero
    have le : table.offset 0 ≤ table.start image.onL1 :=
      spread.start_zero ▸ spread.start_le (zero_le _) (by omega)
    rw [zero, count]
    refine ⟨?_, le⟩
    split_ifs with behind
    · have less : image.nodeL2Count < image.offsetCount := Int.ofNat_lt.mp behind.2
      have first := formed.nodes.behind deep 0 (Nat.sub_pos_of_lt less)
      rw [toNat_natCast, formed.l1Offset_read less]
      exact first.trans spread.start_zero
    · have full : image.offsetCount ≤ image.nodeL2Count := by
        by_contra fewer
        exact behind ⟨Int.ofNat_lt.mpr deep, Int.ofNat_lt.mpr (not_le.mp fewer)⟩
      have none : image.onL1 = 0 := Nat.sub_eq_zero_of_le full
      rw [none, spread.start_zero]

/-- The entry sets are counted where the sum fits. -/
theorem Image.WellFormed.getEntrySetCount_eq (fits : image.CountFits) :
    getEntrySetCount image.nodeSize image.entrySize image.entryCount = image.entrySetCount :=
  divideUp_eq formed.perNode_pos fits

theorem Image.WellFormed.initializeTree_eq (fits : image.CountFits) (memory : Memory) :
    initializeTree image.nodeStorage image.entryStorage image.nodeSize image.entrySize
      image.entryCount memory = .ok (image.tree table memory) := by
  obtain ⟨begins, le⟩ := formed.l1StartOffset_eq memory
  have less : table.offset 0 < table.offset image.entryCount :=
    formed.spread.offset_lt formed.spread.positive (le_refl _)
  have last : (l1Header (image.nodeStorage.read memory image.nodeSize 0)).offset =
      table.offset image.entryCount := by
    rw [formed.l1Header_read]
  have bounds : 0 ≤ table.offset 0 ∧ table.offset 0 ≤ _ := ⟨formed.spread.nonneg, le⟩
  unfold Image.offsetCount at begins
  simp only [initializeTree, rUnless_pos _ formed.spread.positive, formed.l1Header_verify, ok_bind,
    formed.getEntrySetCount_eq fits, begins, last,
    rUnless_pos _ bounds, rUnless_pos _ less]
  rfl

/-! ## The second level -/

/-- The entry sets whose offsets a node of the second level has. -/
theorem Image.WellFormed.node_bounds (deep : image.offsetCount < image.entrySetCount) {j : Nat}
    (inside : j < image.nodeL2Count) :
    image.onL1 + j * image.offsetCount < image.entrySetCount ∧
      (j + 1 < image.nodeL2Count → image.onL1 + (j + 1) * image.offsetCount <
        image.entrySetCount) := by
  obtain ⟨_, _, within, _⟩ := formed.levels deep
  have upto (i : Nat) (le : i ≤ image.nodeL2Count - 1) :
      image.onL1 + i * image.offsetCount < image.entrySetCount := by
    have := mul_le_mul_right image.offsetCount le
    omega
  exact ⟨upto j (by omega), fun next => upto (j + 1) (by omega)⟩

theorem Image.WellFormed.nodeL2 (deep : image.offsetCount < image.entrySetCount) {j : Nat}
    (inside : j < image.nodeL2Count) :
    NodeAt image.nodeStorage ((j + 1) * image.nodeSize) image.nodeSize 8 (image.countL2 j)
      fun i => table.start (image.onL1 + j * image.offsetCount + i) where
  within := by
    have size := formed.nodes.size
    have : (j + 1 + 1) * image.nodeSize ≤ (1 + image.nodeL2Count) * image.nodeSize :=
      mul_le_mul_right _ (by omega)
    rw [Image.queryNodeStorageSize] at size
    rw [add_mul (j + 1), one_mul] at this
    omega
  fits := by
    have := formed.sized.room.2
    have : image.countL2 j * 8 ≤ image.offsetCount * 8 := mul_le_mul_right 8 (min_le_left _ _)
    omega
  long := le_refl 8
  known := formed.nodes.offsetL2 deep j inside

section

variable (memory : Memory)

/-- Both ways to search a node of the second level find the entry set that holds an address,
if it is not before the node. -/
theorem Image.WellFormed.findEntrySet_eq (deep : image.offsetCount < image.entrySetCount) {j : Nat}
    (inside : j < image.nodeL2Count) {v : Int}
    (low : table.start (image.onL1 + j * image.offsetCount) ≤ v)
    (high : v < table.start (min image.entrySetCount (image.onL1 + (j + 1) * image.offsetCount)))
    (pool : Pool) :
    ∃ k, k < image.entrySetCount ∧ (image.tree table memory).findEntrySet pool v j = .ok (k : Int) ∧
      table.start k ≤ v ∧ v < table.start (k + 1) := by
  have room := formed.sized.room
  have placed := (formed.node_bounds deep inside).1
  have node := formed.nodeL2 deep inside
  have within := node.within
  obtain ⟨last, nonneg, header⟩ := formed.nodes.headerL2 deep j inside
  have product := add_mul j 1 image.offsetCount
  have most : image.countL2 j ≤ image.offsetCount := min_le_left _ _
  have some : 0 < image.countL2 j := Nat.lt_min.mpr ⟨room.1, Nat.sub_pos_of_lt placed⟩
  have upper : image.onL1 + j * image.offsetCount + image.countL2 j =
      min image.entrySetCount (image.onL1 + (j + 1) * image.offsetCount) := by
    unfold Image.countL2
    omega
  let x (i : Nat) : Int := table.start (image.onL1 + j * image.offsetCount + i)
  have ascending (i : Nat) (_ : 0 ≤ i) (next : i + 1 < 0 + image.countL2 j) : x i < x (i + 1) :=
    formed.spread.start_lt (by omega)
  obtain ⟨i, _, below, found, low', high'⟩ := upperBound_ascending ascending some low
  unfold nodeHeaderSize at room
  have verified : (⟨j, image.countL2 j, last⟩ : NodeHeader).verify j image.nodeSize 8 = .ok () := by
    exact verify_ok rfl (by decide) (by unfold nodeHeaderSize; omega) (natCast_pos.mpr some)
      most nonneg
  have count : image.l1Count = image.nodeL2Count := if_neg (not_le.mpr deep)
  have index : (image.tree table memory).getEntrySetIndex j i =
      (image.onL1 + j * image.offsetCount + i : Nat) := by
    have := (formed.levels deep).2.1
    have index : (image.offsetCount : Int) - image.nodeL2Count + image.offsetCount * j + i =
        (image.onL1 + j * image.offsetCount + i : Nat) := by
      rw [Image.onL1]
      push_cast [this]
      ring
    have := formed.entrySetCount_le
    have := formed.spread.signed
    rw [getEntrySetIndex, Image.tree, formed.l1Header_read, count, index,
      wrap32_eq (by omega) (by omega)]
  have buffered := node.findInBuffer_eq pool.memory v
  have unbuffered := node.findInStorage_eq v
  rw [found, Int.natCast_succ, Int.add_sub_cancel] at buffered unbuffered
  have read (memory : Memory) (size : Nat) (whole : 16 ≤ size) :
      NodeHeader.at (image.nodeStorage.read memory size ((j + 1) * image.nodeSize)) 0 =
        ⟨j, image.countL2 j, last⟩ :=
    (NodeHeader.at_read whole (by omega)).trans header
  have whole : 16 ≤ image.nodeSize := by omega
  refine ⟨image.onL1 + j * image.offsetCount + i, by omega, ?_, low', ?_⟩
  · rw [findEntrySet]
    split_ifs with pooled
    · simp only [findEntrySetWithBuffer, Image.tree_nodeStorage, Image.tree_nodeSize,
        read _ _ whole, verified, ok_bind, toNat_natCast, buffered,
        rUnless_pos _ (natCast_nonneg i), index, pure_eq_ok]
    · simp only [findEntrySetWithoutBuffer, Image.tree_nodeStorage, Image.tree_nodeSize,
        read zeros nodeHeaderSize (le_refl 16), verified, ok_bind, toNat_natCast, unbuffered,
        rUnless_pos _ (natCast_nonneg i), index, pure_eq_ok]
  · rcases lt_or_eq_of_le (succ_le_of_lt below) with next | final
    · exact high' (by omega)
    · have : image.onL1 + j * image.offsetCount + i + 1 =
          min image.entrySetCount (image.onL1 + (j + 1) * image.offsetCount) := by omega
      rw [this]
      exact high

/-! ## The entry set -/

/-- The offsets of the first node, where it has those of all entry sets. -/
theorem Image.WellFormed.l1_single (single : image.entrySetCount ≤ image.offsetCount)
    {k : Nat} (inside : k < image.entrySetCount) :
    l1Offset (image.nodeStorage.read memory image.nodeSize 0) k = table.start k := by
  rw [formed.l1Offset_read (lt_of_lt_of_le inside single)]
  exact formed.nodes.single single k inside

/-- Where there is a second level, it has those of the nodes. -/
theorem Image.WellFormed.l1_node (deep : image.offsetCount < image.entrySetCount) {j : Nat}
    (inside : j < image.nodeL2Count) :
    l1Offset (image.nodeStorage.read memory image.nodeSize 0) j =
      table.start (image.onL1 + j * image.offsetCount) := by
  rw [formed.l1Offset_read (lt_of_lt_of_le inside (formed.levels deep).2.1)]
  exact formed.nodes.node deep j inside

/-- And behind them those of the first entry sets. -/
theorem Image.WellFormed.l1_behind (deep : image.offsetCount < image.entrySetCount) {k : Nat}
    (inside : k < image.onL1) :
    l1Offset (image.nodeStorage.read memory image.nodeSize 0) (image.nodeL2Count + k) =
      table.start k := by
  have : image.nodeL2Count + k < image.offsetCount := by
    unfold Image.onL1 at inside
    omega
  rw [formed.l1Offset_read this]
  exact formed.nodes.behind deep k inside

theorem Image.WellFormed.ascending_single (single : image.entrySetCount ≤ image.offsetCount)
    (i : Nat) (_ : 0 ≤ i)
    (next : i + 1 < 0 + image.entrySetCount) :
    l1Offset (image.nodeStorage.read memory image.nodeSize 0) i <
      l1Offset (image.nodeStorage.read memory image.nodeSize 0) (i + 1) := by
  rw [formed.l1_single memory single (by omega), formed.l1_single memory single (by omega)]
  exact formed.spread.start_lt (by omega)

theorem Image.WellFormed.ascending_node (deep : image.offsetCount < image.entrySetCount) (i : Nat)
    (_ : 0 ≤ i)
    (next : i + 1 < 0 + image.nodeL2Count) :
    l1Offset (image.nodeStorage.read memory image.nodeSize 0) i <
      l1Offset (image.nodeStorage.read memory image.nodeSize 0) (i + 1) := by
  have room := formed.sized.room.1
  have upper := (formed.node_bounds deep (j := i) (by omega)).2 (by omega)
  have product := add_mul i 1 image.offsetCount
  have above : table.start (image.onL1 + i * image.offsetCount) <
      table.start (image.onL1 + i * image.offsetCount + 1) := formed.spread.start_lt (by omega)
  rw [formed.l1_node memory deep (by omega), formed.l1_node memory deep (by omega)]
  exact lt_of_lt_of_le above (formed.spread.start_le (by omega) (by omega))

theorem Image.WellFormed.ascending_behind (deep : image.offsetCount < image.entrySetCount) (i : Nat)
    (above : image.nodeL2Count ≤ i)
    (next : i + 1 < image.nodeL2Count + (image.offsetCount - image.nodeL2Count)) :
    l1Offset (image.nodeStorage.read memory image.nodeSize 0) i <
      l1Offset (image.nodeStorage.read memory image.nodeSize 0) (i + 1) := by
  obtain ⟨k, rfl⟩ := Nat.exists_eq_add_of_le above
  have := (formed.levels deep).2.2.1
  have inside : k + 1 < image.onL1 := by
    unfold Image.onL1
    omega
  rw [add_assoc, formed.l1_behind memory deep (by omega), formed.l1_behind memory deep inside]
  exact formed.spread.start_lt (by omega)

/-- The first level leads to the entry set that holds an address. -/
theorem Image.WellFormed.findEntrySetIndex_eq {v : Int} (low : table.offset 0 ≤ v)
    (high : v < table.offset image.entryCount) (pool : Pool) :
    ∃ k, k < image.entrySetCount ∧ (image.tree table memory).findEntrySetIndex pool v =
      .ok (k : Int) ∧ table.start k ≤ v ∧ v < table.start (k + 1) := by
  have spread := formed.spread
  rw [← spread.start_zero] at low
  rw [← spread.start_last] at high
  by_cases single : image.entrySetCount ≤ image.offsetCount
  · have shallow : ¬ (image.tree table memory).isExistL2 := Int.not_lt.mpr (Int.ofNat_le.mpr single)
    have count : image.l1Count = image.entrySetCount := if_pos single
    have first := formed.l1_single memory single spread.entrySetCount_pos
    obtain ⟨k, _, below, found, low', high'⟩ :=
      upperBound_ascending (formed.ascending_single memory single) spread.entrySetCount_pos
      (first.symm ▸ low)
    rw [Nat.zero_add] at below high'
    rw [formed.l1_single memory single below] at low'
    have bound : (image.tree table memory).upperBoundL1 v 0 image.entrySetCount = k + 1 := found
    refine ⟨k, below, ?_, low', ?_⟩
    · rw [findEntrySetIndex, if_neg fun both => shallow both.1.1]
      simp only [Image.tree_nodeL1, formed.l1Header_read, count, toNat_natCast, bound,
        rUnless_pos _ (Nat.succ_pos k), ok_bind, if_neg shallow, Nat.add_sub_cancel, pure_eq_ok]
    · rcases Nat.lt_or_eq_of_le (Nat.succ_le_of_lt below) with next | last
      · have := high' next
        rwa [formed.l1_single memory single next] at this
      · rw [← Nat.succ_eq_add_one, last]
        exact high
  · have deep : image.offsetCount < image.entrySetCount := Nat.not_le.mp single
    have level : (image.tree table memory).isExistL2 := Int.ofNat_lt.mpr deep
    have count : image.l1Count = image.nodeL2Count := if_neg single
    obtain ⟨least, most, within, upper⟩ := formed.levels deep
    have zero := formed.l1_node memory deep least
    rw [Nat.zero_mul, Nat.add_zero] at zero
    by_cases behind : image.nodeL2Count < image.offsetCount ∧ v < table.start image.onL1
    · -- among the first entry sets, behind the offsets of the nodes
      have some : 0 < image.onL1 := Nat.sub_pos_of_lt behind.1
      have first := formed.l1_behind memory deep some
      rw [Nat.add_zero] at first
      obtain ⟨i, above, below, found, low', high'⟩ :=
        upperBound_ascending (formed.ascending_behind memory deep) some (first.symm ▸ low)
      obtain ⟨k, rfl⟩ := Nat.exists_eq_add_of_le above
      have inside : k < image.onL1 := by
        unfold Image.onL1
        omega
      rw [formed.l1_behind memory deep inside] at low'
      have both : (image.tree table memory).isExistOffsetL2OnL1 ∧
          v < l1Offset (image.tree table memory).nodeL1 0 := by
        rw [isExistOffsetL2OnL1, Image.tree_nodeL1, formed.l1Header_read, count, zero]
        exact ⟨⟨level, Int.ofNat_lt.mpr behind.1⟩, behind.2⟩
      have bound : (image.tree table memory).upperBoundL1 v image.nodeL2Count
          (image.offsetCount - image.nodeL2Count) = image.nodeL2Count + k + 1 := found
      have moved : image.nodeL2Count < image.nodeL2Count + k + 1 := by omega
      refine ⟨k, by omega, ?_, low', ?_⟩
      · rw [findEntrySetIndex, if_pos both]
        simp only [Image.tree_nodeL1, Image.tree_offsetCount, formed.l1Header_read, count,
          toNat_natCast, bound, rUnless_pos _ moved, ok_bind, Nat.add_sub_cancel,
          Nat.add_sub_cancel_left, pure_eq_ok]
      · rcases Nat.lt_or_eq_of_le (Nat.succ_le_of_lt inside) with next | last
        · have := high' (by unfold Image.onL1 at next; omega)
          rwa [Nat.add_assoc, formed.l1_behind memory deep next] at this
        · rw [← Nat.succ_eq_add_one, last]
          exact behind.2
    · -- in a node of the second level
      have low' : table.start image.onL1 ≤ v := by
        by_cases room : image.nodeL2Count < image.offsetCount
        · exact not_lt.mp fun less => behind ⟨room, less⟩
        · have none : image.onL1 = 0 := Nat.sub_eq_zero_of_le (Nat.not_lt.mp room)
          rw [none]
          exact low
      obtain ⟨j, _, below, found, low', high'⟩ :=
        upperBound_ascending (formed.ascending_node memory deep) least (zero.symm ▸ low')
      rw [Nat.zero_add] at below high'
      rw [formed.l1_node memory deep below] at low'
      have high'' : v < table.start
          (min image.entrySetCount (image.onL1 + (j + 1) * image.offsetCount)) := by
        rcases Nat.lt_or_eq_of_le (Nat.succ_le_of_lt below) with next | last
        · have := high' next
          rw [formed.l1_node memory deep next] at this
          rwa [Nat.min_eq_right (Nat.le_of_lt ((formed.node_bounds deep below).2 next))]
        · rw [Nat.min_eq_left (by rw [Nat.succ_eq_add_one] at last; rw [last]; exact upper)]
          exact high
      have neither : ¬ ((image.tree table memory).isExistOffsetL2OnL1 ∧
          v < l1Offset (image.tree table memory).nodeL1 0) := by
        rw [isExistOffsetL2OnL1, Image.tree_nodeL1, formed.l1Header_read, count, zero]
        exact fun both => behind ⟨Int.ofNat_lt.mp both.1.2, both.2⟩
      have bound : (image.tree table memory).upperBoundL1 v 0 image.nodeL2Count = j + 1 := found
      obtain ⟨k, inside, entrySet, bounds⟩ :=
        formed.findEntrySet_eq memory deep below low' high'' pool
      refine ⟨k, inside, ?_, bounds⟩
      rw [findEntrySetIndex, if_neg neither]
      simp only [Image.tree_nodeL1, Image.tree_offsetCount, formed.l1Header_read, count,
        toNat_natCast, bound, rUnless_pos _ (Nat.succ_pos j), ok_bind, if_pos level,
        Nat.add_sub_cancel, rUnless_pos _ (Nat.lt_of_lt_of_le below most), entrySet]

end

end Nodes

end SumiEmu.FileSys.BucketTree
