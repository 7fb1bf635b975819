/-
# The free blocks of a page heap

The free pages of a heap are those that its free blocks cover. Freeing a block
of free pages adds its pages, whichever blocks it joins on the way up, and
taking a free block removes its pages. Freeing a range takes it apart into
aligned blocks, so it adds exactly the pages of the range.
-/

import SumiEmu.Foundations.Packing
import SumiEmu.Kernel.PageBitmapSearch
import SumiEmu.Kernel.PageHeap

namespace SumiEmu.Kernel.KPageHeap

open Fallible Packing Finset Nat

/-- The pages of a range of whole pages. -/
def pagesOf (address numPages : Nat) : Finset Nat :=
  Finset.Ico (address / pageSize) (address / pageSize + numPages)

/-- The pages of the block with a given bit. -/
def Block.pages (b : Block) (offset : Nat) : Finset Nat :=
  pagesOf (b.heapAddress + offset <<< b.blockShift) b.getNumPages

variable (h : KPageHeap)

/-- The set bits of all block sizes, each with the index of its size. -/
def keys : Finset (Nat × Nat) :=
  (Finset.range h.numBlocks).biUnion fun i =>
    ((h.blocks i).bitmap.bitSet (h.blocks i).endOffset).image (Prod.mk i)

/-- The pages that the set bits cover. -/
def freeSet : Finset Nat :=
  h.keys.biUnion fun k => (h.blocks k.1).pages k.2

@[simp] theorem numBlocks_setBlock (i : Nat) (b : Block) :
    (h.setBlock i b).numBlocks = h.numBlocks := rfl

@[simp] theorem blocks_setBlock_self (i : Nat) (b : Block) :
    (h.setBlock i b).blocks i = b := Function.update_self ..

theorem blocks_setBlock_of_ne {i j : Nat} (b : Block) (other : j ≠ i) :
    (h.setBlock i b).blocks j = h.blocks j := Function.update_of_ne other ..

theorem mem_keys {h : KPageHeap} {i offset : Nat} :
    (i, offset) ∈ h.keys ↔
      i < h.numBlocks ∧ offset ∈ (h.blocks i).bitmap.bitSet (h.blocks i).endOffset := by
  simp [keys]

/-! ## Layouts -/

/-- Where a heap lies, and the shifts of its block sizes. -/
structure Layout where
  address : Nat
  size : Nat
  shifts : List Nat
  positive : 0 < address
  startAligned : pageSize ∣ address
  sizeAligned : pageSize ∣ size
  nonempty : 0 < shifts.length
  first : shifts.getD 0 0 = 12
  increasing : ∀ i, i + 1 < shifts.length → shifts.getD i 0 < shifts.getD (i + 1) 0

namespace Layout

variable (L : Layout)

/-- The number of block sizes. -/
def count : Nat := L.shifts.length

/-- The shift of a block size. -/
def shift (i : Nat) : Nat := L.shifts.getD i 0

def nextShift (i : Nat) : Nat := if i ≠ L.count - 1 then L.shift (i + 1) else 0

/-- The bytes of a block. -/
def blockSize (i : Nat) : Nat := 2 ^ L.shift i

/-- The pages of a block. -/
def unit (i : Nat) : Nat := 2 ^ (L.shift i - 12)

def align (i : Nat) : Nat := if L.nextShift i ≠ 0 then 2 ^ L.nextShift i else L.blockSize i

/-- The address of the first bit. -/
def base (i : Nat) : Nat := alignDown L.address (L.align i)

/-- The blocks up to the aligned end. -/
def endOffset (i : Nat) : Nat :=
  (alignUp (L.address + L.size) (L.align i) - L.base i) / L.blockSize i

/-- The number of the block of the first bit, among all blocks of the size. -/
def skip (i : Nat) : Nat := L.base i / L.blockSize i

/-- The pages of the block of a bit. -/
def pages (k : Nat × Nat) : Finset Nat := tile (L.unit k.1) (L.skip k.1 + k.2)

/-- The pages of the heap. -/
def space : Finset Nat := Finset.Ico (L.address / pageSize) ((L.address + L.size) / pageSize)

variable {L} {i j : Nat}

theorem pages_mk (i offset : Nat) : L.pages (i, offset) = tile (L.unit i) (L.skip i + offset) :=
  rfl

theorem blockSize_pos : 0 < L.blockSize i := Nat.two_pow_pos _

theorem unit_pos : 0 < L.unit i := Nat.two_pow_pos _

theorem shift_le (ordered : i ≤ j) (inside : j < L.count) : L.shift i ≤ L.shift j := by
  induction j, ordered using le_induction with
  | base => exact le_rfl
  | succ j _ ih => exact (ih (by omega)).trans (L.increasing j inside).le

theorem twelve_le_shift (inside : i < L.count) : 12 ≤ L.shift i :=
  L.first.symm.trans_le (shift_le (zero_le i) inside)

theorem blockSize_eq (inside : i < L.count) : L.blockSize i = L.unit i * pageSize := by
  have page : pageSize = 2 ^ 12 := rfl
  rw [page, unit, blockSize, ← pow_add, Nat.sub_add_cancel (twelve_le_shift inside)]

theorem pageSize_dvd (inside : i < L.count) : pageSize ∣ L.blockSize i :=
  blockSize_eq inside ▸ dvd_mul_left ..

theorem blockSize_zero : L.blockSize 0 = pageSize := congrArg (2 ^ ·) L.first

theorem blockSize_dvd (ordered : i ≤ j) (inside : j < L.count) :
    L.blockSize i ∣ L.blockSize j :=
  pow_dvd_pow 2 (shift_le ordered inside)

theorem nextShift_of_lt (inside : i + 1 < L.count) : L.nextShift i = L.shift (i + 1) :=
  if_pos (by omega)

theorem nextShift_last (last : i + 1 = L.count) : L.nextShift i = 0 :=
  if_neg (by omega)

theorem align_of_lt (inside : i + 1 < L.count) : L.align i = L.blockSize (i + 1) := by
  have := twelve_le_shift inside
  rw [align, nextShift_of_lt inside, if_pos (by omega), blockSize]

theorem blockSize_dvd_align (inside : i < L.count) : L.blockSize i ∣ L.align i := by
  by_cases next : i + 1 < L.count
  · rw [align_of_lt next]
    exact blockSize_dvd (by omega) next
  · rw [align, nextShift_last (by omega), if_neg (by simp)]

theorem align_pos : 0 < L.align i := by
  rw [align]
  split
  · exact Nat.two_pow_pos _
  · exact blockSize_pos

theorem base_eq (inside : i < L.count) : L.base i = L.skip i * L.blockSize i :=
  (Nat.div_mul_cancel ((blockSize_dvd_align inside).trans (alignDown_dvd ..))).symm

/-- How many blocks make up one of the next size. -/
def ratio (L : Layout) (i : Nat) : Nat := 2 ^ (L.shift (i + 1) - L.shift i)

theorem ratio_pos : 0 < L.ratio i := Nat.two_pow_pos _

section

variable (inside : i + 1 < L.count)

include inside

theorem blockSize_succ :
    L.blockSize (i + 1) = L.blockSize i * L.ratio i := by
  rw [blockSize, blockSize, ratio, ← pow_add, Nat.add_sub_cancel' (shift_le (by omega) inside)]

theorem unit_succ : L.unit (i + 1) = L.unit i * L.ratio i := by
  have := twelve_le_shift (L := L) (i := i) (by omega)
  have := shift_le (L := L) (le_add_right i 1) inside
  have split : L.shift (i + 1) - 12 = L.shift i - 12 + (L.shift (i + 1) - L.shift i) := by omega
  rw [unit, unit, ratio, ← pow_add, ← split]

theorem ratio_dvd_skip : L.ratio i ∣ L.skip i := by
  have next : L.blockSize (i + 1) ∣ L.base i := align_of_lt inside ▸ alignDown_dvd ..
  rw [base_eq (by omega), blockSize_succ inside, mul_comm] at next
  exact Nat.dvd_of_mul_dvd_mul_right blockSize_pos next

/-- The bits of a size make up whole blocks of the next one. -/
theorem ratio_dvd_endOffset : L.ratio i ∣ L.endOffset i := by
  refine dvd_div_of_mul_dvd ?_
  rw [← blockSize_succ inside, ← align_of_lt inside]
  exact dvd_sub (alignUp_dvd ..) (alignDown_dvd ..)

end

/-- The bits of a size are enough for the blocks inside the heap. -/
theorem exists_offset (inside : i < L.count) {n : Nat} (within : tile (L.unit i) n ⊆ L.space) :
    ∃ offset, n = L.skip i + offset ∧ offset < L.endOffset i := by
  have size := blockSize_eq inside
  have unitPos : 0 < L.unit i := unit_pos
  have lower := mem_Ico.mp (within (mem_Ico.mpr ⟨le_rfl, by omega⟩))
  have upper := mem_Ico.mp
    (within (mem_Ico.mpr ⟨by omega, sub_one_lt (by omega : n * L.unit i + L.unit i ≠ 0)⟩))
  have start := Nat.div_mul_cancel L.startAligned
  have stop := Nat.div_mul_cancel (Nat.dvd_add L.startAligned L.sizeAligned)
  have first : L.skip i * L.blockSize i ≤ n * L.blockSize i := by
    rw [← base_eq inside]
    calc L.base i ≤ L.address := alignDown_le ..
      _ = L.address / pageSize * pageSize := start.symm
      _ ≤ n * L.unit i * pageSize := mul_le_mul_right _ lower.1
      _ = n * L.blockSize i := by rw [size, mul_assoc]
  have last : (n + 1) * L.blockSize i ≤ alignUp (L.address + L.size) (L.align i) := by
    calc (n + 1) * L.blockSize i = (n * L.unit i + L.unit i) * pageSize := by
          rw [size, ← mul_assoc, succ_mul]
      _ ≤ (L.address + L.size) / pageSize * pageSize := mul_le_mul_right _ (by omega)
      _ = L.address + L.size := stop
      _ ≤ _ := le_alignUp align_pos _
  obtain ⟨offset, rfl⟩ := Nat.exists_eq_add_of_le (Nat.le_of_mul_le_mul_right first blockSize_pos)
  refine ⟨offset, rfl, ?_⟩
  rw [add_assoc, add_mul, add_comm] at last
  rw [endOffset, base_eq inside, lt_iff_add_one_le, le_div_iff_mul_le blockSize_pos]
  exact le_sub_of_add_le last

/-- No block of the heap has the address zero. -/
theorem number_pos {n : Nat} (within : tile (L.unit i) n ⊆ L.space) : 0 < n := by
  have lower := mem_Ico.mp
    (within (left_mem_Ico.mpr (Nat.lt_add_of_pos_right unit_pos)))
  have firstPage : 0 < L.address / pageSize :=
    div_pos (le_of_dvd L.positive L.startAligned) (by decide)
  by_contra zero
  rw [Nat.eq_zero_of_not_pos zero, Nat.zero_mul] at lower
  omega

end Layout

/-! ## The invariant -/

/-- A block size of a heap lies where its layout says. -/
structure Block.HasLayout (L : Layout) (i : Nat) (b : Block) : Prop where
  heapAddress : b.heapAddress = L.base i
  endOffset : b.endOffset = L.endOffset i
  blockShift : b.blockShift = L.shift i
  nextBlockShift : b.nextBlockShift = L.nextShift i

/-- The invariant of a heap. -/
structure WellFormed (L : Layout) (h : KPageHeap) : Prop where
  heapAddress : h.heapAddress = L.address
  heapSize : h.heapSize = L.size
  numBlocks : h.numBlocks = L.count
  layout : ∀ i, i < L.count → (h.blocks i).HasLayout L i
  bitmaps : ∀ i, i < L.count → (h.blocks i).bitmap.WellFormed (L.endOffset i)
  packed : Packed L.pages h.keys
  inside : ∀ k ∈ h.keys, L.pages k ⊆ L.space

/-- The blocks that make up one of the next size are never all free. -/
def Coalesced (L : Layout) (h : KPageHeap) : Prop :=
  ∀ i, i + 1 < L.count → ∀ first n, L.skip i + first = n * L.ratio i →
    ¬ ∀ offset ∈ Finset.Ico first (first + L.ratio i), (i, offset) ∈ h.keys

variable {L : Layout} {h : KPageHeap} {i : Nat}

section

variable {b : Block} (layout : b.HasLayout L i)

include layout

theorem Block.HasLayout.getSize :
    b.getSize = L.blockSize i := by
  rw [Block.getSize, layout.blockShift, Layout.blockSize]

theorem Block.HasLayout.getNumPages (inside : i < L.count) : b.getNumPages = L.unit i := by
  rw [Block.getNumPages, layout.getSize, Layout.blockSize_eq inside,
    Nat.mul_div_cancel _ (by decide)]

theorem Block.HasLayout.address (inside : i < L.count) (offset : Nat) :
    b.heapAddress + offset <<< b.blockShift = (L.skip i + offset) * L.blockSize i := by
  rw [layout.heapAddress, layout.blockShift, Layout.base_eq inside, shiftLeft_eq, add_mul,
    Layout.blockSize]

end

theorem pagesOf_mul (inside : i < L.count) (n : Nat) :
    pagesOf (n * L.blockSize i) (L.unit i) = tile (L.unit i) n := by
  rw [pagesOf, Layout.blockSize_eq inside, ← Nat.mul_assoc, Nat.mul_div_cancel _ (by decide), tile]

theorem Block.HasLayout.pages {b : Block} (layout : b.HasLayout L i) (inside : i < L.count)
    (offset : Nat) : b.pages offset = L.pages (i, offset) := by
  rw [Block.pages, layout.address inside, layout.getNumPages inside, pagesOf_mul inside,
    Layout.pages]

namespace WellFormed

section

variable (wf : h.WellFormed L)

include wf

theorem mem_keys_iff (inside : i < L.count) {offset : Nat} :
    (i, offset) ∈ h.keys ↔ offset ∈ (h.blocks i).bitmap.bitSet (L.endOffset i) := by
  rw [mem_keys, wf.numBlocks, (wf.layout i inside).endOffset]
  exact and_iff_right inside

theorem pages_eq {k : Nat × Nat} (member : k ∈ h.keys) :
    (h.blocks k.1).pages k.2 = L.pages k := by
  have inside : k.1 < L.count := wf.numBlocks ▸ (mem_keys.mp member).1
  exact (wf.layout k.1 inside).pages inside k.2

theorem freeSet_eq : h.freeSet = h.keys.biUnion L.pages :=
  biUnion_congr rfl fun _ member => wf.pages_eq member

theorem freeSet_subset : h.freeSet ⊆ L.space := by
  rw [wf.freeSet_eq]
  exact biUnion_subset.mpr wf.inside

/-- Changing one of the block sizes. -/
theorem setBlock (inside : i < L.count) {b : Block} {s : Finset (Nat × Nat)}
    (layout : b.HasLayout L i) (bitmap : b.bitmap.WellFormed (L.endOffset i))
    (here : ∀ offset, (i, offset) ∈ s ↔ offset ∈ b.bitmap.bitSet (L.endOffset i))
    (others : ∀ k, k.1 ≠ i → (k ∈ s ↔ k ∈ h.keys)) (packed : Packed L.pages s)
    (within : ∀ k ∈ s, L.pages k ⊆ L.space) :
    (h.setBlock i b).WellFormed L ∧ (h.setBlock i b).keys = s := by
  have same : (h.setBlock i b).keys = s := by
    ext ⟨j, offset⟩
    rw [mem_keys, numBlocks_setBlock]
    by_cases size : j = i
    · subst size
      rw [blocks_setBlock_self, here, layout.endOffset, wf.numBlocks]
      exact and_iff_right inside
    · rw [blocks_setBlock_of_ne _ _ size, others _ size, mem_keys]
  refine ⟨⟨wf.heapAddress, wf.heapSize, wf.numBlocks, fun j below => ?_, fun j below => ?_,
    same ▸ packed, same ▸ within⟩, same⟩
  · by_cases size : j = i
    · subst size
      rwa [blocks_setBlock_self]
    · rw [blocks_setBlock_of_ne _ _ size]
      exact wf.layout j below
  · by_cases size : j = i
    · subst size
      rwa [blocks_setBlock_self]
    · rw [blocks_setBlock_of_ne _ _ size]
      exact wf.bitmaps j below

end

end WellFormed

/-! ## Freeing a block -/

/-- An aligned range whose length is a power of two passes the assertions of `ClearRange`. -/
theorem rangeAsserted_of_dvd {k offset : Nat} (aligned : 2 ^ k ∣ offset) :
    KPageBitmap.RangeAsserted offset (2 ^ k) := by
  have word : (64 : Nat) = 2 ^ 6 := rfl
  rw [KPageBitmap.RangeAsserted]
  split
  · next small =>
    have fits : 2 ^ k ∣ 64 := word ▸ pow_dvd_pow 2
      ((Nat.pow_lt_pow_iff_right (by decide)).mp (word ▸ small)).le
    have rest : 2 ^ k ∣ 64 - offset % 64 := dvd_sub fits ((dvd_mod_iff fits).mpr aligned)
    have := le_of_dvd (by omega) rest
    omega
  · next large =>
    have whole : 64 ∣ 2 ^ k := word ▸ pow_dvd_pow 2
      ((Nat.pow_le_pow_iff_right (by decide)).mp (word ▸ not_lt.mp large))
    exact ⟨mod_eq_zero_of_dvd (whole.trans aligned), mod_eq_zero_of_dvd whole⟩

/-- `PushBlock` sets the bit of the block, or clears the bits of the blocks that
make up one of the next size and returns that one. -/
theorem pushBlock_spec {b : Block} (layout : b.HasLayout L i) (inside : i < L.count)
    (bitmap : b.bitmap.WellFormed (L.endOffset i)) {offset : Nat} (below : offset < L.endOffset i)
    (clear : offset ∉ b.bitmap.bitSet (L.endOffset i)) :
    ∃ r b', b.pushBlock ((L.skip i + offset) * L.blockSize i) = (r, b') ∧ b'.HasLayout L i ∧
      b'.bitmap.WellFormed (L.endOffset i) ∧
      ((r = 0 ∧ b'.bitmap.bitSet (L.endOffset i) =
            insert offset (b.bitmap.bitSet (L.endOffset i)) ∧
          (i + 1 < L.count → ∀ first n, L.skip i + first = n * L.ratio i →
            offset ∈ Finset.Ico first (first + L.ratio i) →
            ¬ Finset.Ico first (first + L.ratio i) ⊆
            insert offset (b.bitmap.bitSet (L.endOffset i)))) ∨
        i + 1 < L.count ∧ ∃ first n, L.skip i + first = n * L.ratio i ∧
          offset ∈ Finset.Ico first (first + L.ratio i) ∧
          Finset.Ico first (first + L.ratio i) ⊆ insert offset (b.bitmap.bitSet (L.endOffset i)) ∧
          b'.bitmap.bitSet (L.endOffset i) =
            insert offset (b.bitmap.bitSet (L.endOffset i)) \ Finset.Ico first (first + L.ratio i) ∧
          r = n * L.blockSize (i + 1)) := by
  obtain ⟨set, bits⟩ := KPageBitmap.setBit_spec bitmap below clear
  have found : ((L.skip i + offset) * L.blockSize i - b.heapAddress) >>> b.blockShift = offset := by
    rw [layout.heapAddress, Layout.base_eq inside, ← Nat.sub_mul, Nat.add_sub_cancel_left,
      layout.blockShift, shiftRight_eq_div_pow]
    exact Nat.mul_div_cancel _ Layout.blockSize_pos
  rw [Block.pushBlock, found]
  dsimp only
  by_cases next : i + 1 < L.count
  · have nonzero : b.nextBlockShift ≠ 0 := by
      have := Layout.twelve_le_shift next
      rw [layout.nextBlockShift, Layout.nextShift_of_lt next]
      omega
    have diff : 2 ^ (b.nextBlockShift - b.blockShift) = L.ratio i := by
      rw [layout.nextBlockShift, layout.blockShift, Layout.nextShift_of_lt next, Layout.ratio]
    rw [if_pos nonzero, diff]
    have aligned : L.ratio i ∣ alignDown offset (L.ratio i) := alignDown_dvd ..
    have last : alignDown offset (L.ratio i) + L.ratio i ≤ L.endOffset i :=
      Nat.le_of_lt_add_of_dvd (Nat.add_lt_add_right ((alignDown_le ..).trans_lt below) _)
        (Nat.dvd_add aligned dvd_rfl) (Layout.ratio_dvd_endOffset next)
    obtain ⟨cleared, kept, bits'⟩ := KPageBitmap.clearRange_spec set (rangeAsserted_of_dvd aligned)
      ((alignDown_le ..).trans_lt below) last
    rw [← Layout.ratio] at cleared kept bits'
    rcases result : (b.bitmap.setBit offset).clearRange (alignDown offset (L.ratio i)) (L.ratio i)
      with ⟨_ | _, bitmap'⟩
    · simp only [result, Bool.false_eq_true, if_false, false_iff] at cleared kept bits'
      rw [bits] at cleared
      refine ⟨_, _, rfl, ⟨layout.1, layout.2, layout.3, layout.4⟩, kept,
        .inl ⟨rfl, bits'.trans bits, ?_⟩⟩
      intro _ first n number member
      -- the only group that the block belongs to is the one that was looked at
      have multiple : L.ratio i ∣ first :=
        (Nat.dvd_add_right (Layout.ratio_dvd_skip next)).mp (number ▸ Nat.dvd_mul_left ..)
      rw [eq_alignDown multiple (mem_Ico.mp member).1 (mem_Ico.mp member).2]
      exact cleared
    · simp only [result, true_iff, if_true] at cleared kept bits'
      rw [bits] at cleared bits'
      obtain ⟨n, number⟩ := Nat.dvd_add (Layout.ratio_dvd_skip next) aligned
      have here : offset ∈ Finset.Ico (alignDown offset (L.ratio i))
        (alignDown offset (L.ratio i) + L.ratio i) :=
        mem_Ico.mpr ⟨alignDown_le .., lt_alignDown_add Layout.ratio_pos offset⟩
      refine ⟨_, _, rfl, ⟨layout.1, layout.2, layout.3, layout.4⟩, kept,
        .inr ⟨next, _, n, number.trans (mul_comm ..), here, cleared, bits', ?_⟩⟩
      rw [layout.address inside, number, Layout.blockSize_succ next, mul_comm (L.ratio i),
        mul_assoc, mul_comm (L.ratio i)]
  · have last : b.nextBlockShift = 0 := by
      rw [layout.nextBlockShift, Layout.nextShift_last (by omega)]
    rw [if_neg (not_not.mpr last)]
    exact ⟨_, _, rfl, ⟨layout.1, layout.2, layout.3, layout.4⟩, set,
      .inl ⟨rfl, bits, fun absurdity => absurd absurdity next⟩⟩

/-- Freeing a block whose pages are not free adds them. -/
theorem freeBlockFrom_spec (remaining : Nat) (wf : h.WellFormed L) {n : Nat}
    (sizes : i + remaining = L.count) (inside : i < L.count)
    (within : tile (L.unit i) n ⊆ L.space) (apart : Disjoint (tile (L.unit i) n) h.freeSet) :
    ∃ h', freeBlockFrom remaining h (n * L.blockSize i) i = .ok h' ∧ h'.WellFormed L ∧
      h'.freeSet = h.freeSet ∪ tile (L.unit i) n ∧ (h.Coalesced L → h'.Coalesced L) := by
  induction remaining generalizing h i n with
  | zero => omega
  | succ remaining ih =>
    obtain ⟨offset, rfl, below⟩ := Layout.exists_offset inside within
    rw [wf.freeSet_eq] at apart ⊢
    have some : (L.pages (i, offset)).Nonempty := tile_nonempty Layout.unit_pos _
    have fresh : (i, offset) ∉ h.keys := notMem_of_disjoint some apart
    have packed : Packed L.pages (insert (i, offset) h.keys) := wf.packed.insert apart
    have space : ∀ k ∈ insert (i, offset) h.keys, L.pages k ⊆ L.space := by
      intro k member
      rcases mem_insert.mp member with rfl | member
      · exact within
      · exact wf.inside k member
    have covered : (insert (i, offset) h.keys).biUnion L.pages =
        h.keys.biUnion L.pages ∪ tile (L.unit i) (L.skip i + offset) := by
      rw [biUnion_insert, union_comm]
      rfl
    obtain ⟨r, b', pushed, layout, bitmap, outcome⟩ := pushBlock_spec (wf.layout i inside) inside
      (wf.bitmaps i inside) below (fun set => fresh ((wf.mem_keys_iff inside).mpr set))
    rw [freeBlockFrom, pushed]
    dsimp only
    rcases outcome with ⟨rfl, bits, incomplete⟩ | ⟨next, first, n, number, joins, group, bits, rfl⟩
    · obtain ⟨wf', keys'⟩ := wf.setBlock inside layout bitmap (s := insert (i, offset) h.keys)
        (fun o => by simp [bits, wf.mem_keys_iff inside]) (fun k other => by
          rw [mem_insert, or_iff_right]
          rintro rfl
          exact other rfl) packed space
      refine ⟨_, if_neg (not_not.mpr rfl), wf', ?_,
        fun coalesced j next first n number complete => ?_⟩
      · rw [wf'.freeSet_eq, keys', covered]
      · -- a complete group would contain the new block, and that one is incomplete
        rw [keys'] at complete
        have new : ∃ o ∈ Finset.Ico first (first + L.ratio j), (j, o) ∉ h.keys := by
          by_contra old
          push Not at old
          exact coalesced j next first n number old
        obtain ⟨o, inRange, absent⟩ := new
        obtain ⟨rfl, rfl⟩ := Prod.mk.inj ((mem_insert.mp (complete o inRange)).resolve_right absent)
        refine incomplete next first n number inRange fun o' inRange' => ?_
        rcases mem_insert.mp (complete o' inRange') with same | old
        · exact mem_insert.mpr (Or.inl (Prod.mk.inj same).2)
        · exact mem_insert_of_mem ((wf.mem_keys_iff inside).mp old)
    · have group' : (Finset.Ico first (first + L.ratio i)).image (Prod.mk i) ⊆
          insert (i, offset) h.keys := by
        intro k member
        obtain ⟨o, inRange, rfl⟩ := mem_image.mp member
        rcases mem_insert.mp (group inRange) with rfl | old
        · exact mem_insert_self ..
        · exact mem_insert_of_mem ((wf.mem_keys_iff inside).mpr old)
      have joined : ((Finset.Ico first (first + L.ratio i)).image (Prod.mk i)).biUnion L.pages =
          tile (L.unit (i + 1)) n := by
        have run := biUnion_tile (L.unit_pos (i := i)) L.ratio_pos number
        rw [image_biUnion, Layout.unit_succ next, ← run]
        rfl
      have within' : tile (L.unit (i + 1)) n ⊆ L.space := by
        rw [← joined]
        exact biUnion_subset.mpr fun k member => space k (group' member)
      obtain ⟨wf', keys'⟩ := wf.setBlock inside layout bitmap
        (s := insert (i, offset) h.keys \ (Finset.Ico first (first + L.ratio i)).image (Prod.mk i))
        (fun o => by simp [bits, wf.mem_keys_iff inside]) (fun k other => by
          have : k ≠ (i, offset) := fun same => other (same ▸ rfl)
          have : ∀ o, (i, o) ≠ k := fun o same => other (same ▸ rfl)
          simp [*])
        (packed.subset sdiff_subset)
        (fun k member => space k (mem_sdiff.mp member).1)
      have rest : (h.setBlock i b').freeSet =
          (h.keys.biUnion L.pages ∪ tile (L.unit i) (L.skip i + offset)) \
            tile (L.unit (i + 1)) n := by
        rw [wf'.freeSet_eq, keys', packed.biUnion_sdiff group', covered, joined]
      obtain ⟨h', freed, wf'', free', merged⟩ := ih wf' (by omega) next within'
        (rest ▸ disjoint_sdiff)
      have nonzero : n * L.blockSize (i + 1) ≠ 0 :=
        (Nat.mul_pos (Layout.number_pos within') Layout.blockSize_pos).ne'
      rw [if_pos nonzero]
      refine ⟨h', freed, wf'', ?_, fun coalesced => merged fun j next first' n' number' complete =>
        ?_⟩
      rotate_left
      · -- what is left of the free blocks was there before, as the new block has been joined
        refine coalesced j next first' n' number' fun o inRange => ?_
        have kept := complete o inRange
        rw [keys', mem_sdiff] at kept
        refine (mem_insert.mp kept.1).resolve_left fun same => kept.2 ?_
        rw [same]
        exact mem_image_of_mem _ joins
      have part : tile (L.unit (i + 1)) n ⊆
          h.keys.biUnion L.pages ∪ tile (L.unit i) (L.skip i + offset) := by
        rw [← covered, ← joined]
        exact biUnion_subset_biUnion_of_subset_left _ group'
      rw [free', rest, sdiff_union_of_subset part]

/-- `FreeBlock` of a block whose pages are not free. -/
theorem freeBlock_spec (wf : h.WellFormed L) (inside : i < L.count) {n : Nat}
    (within : tile (L.unit i) n ⊆ L.space) (apart : Disjoint (tile (L.unit i) n) h.freeSet) :
    ∃ h', h.freeBlock (n * L.blockSize i) i = .ok h' ∧ h'.WellFormed L ∧
      h'.freeSet = h.freeSet ∪ tile (L.unit i) n ∧ (h.Coalesced L → h'.Coalesced L) :=
  freeBlockFrom_spec _ wf (by rw [wf.numBlocks]; omega) inside within apart

end SumiEmu.Kernel.KPageHeap
