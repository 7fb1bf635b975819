/-
# Finding a free area

`FindFreeArea` walks the blocks from the one that contains the start of the region on. In each free
block it looks at one candidate only: the first address with the offset asked for that leaves room
for the guard pages behind the start of the block and of the region. A later address of the block
leaves less room, so a block whose candidate does not fit has no area at all.

Arithmetic on addresses is modulo 2^64, and the null address is zero.
-/

import SumiEmu.Kernel.MemoryBlockInvariant

namespace SumiEmu.Kernel

open Tiling KMemoryBlockManager Nat List

/-! ## The first address with an offset -/

/-- The first number from `x` on that leaves the remainder `offset`. -/
def firstAt (alignment offset x : Nat) : Nat :=
  if x ≤ alignDown x alignment + offset then alignDown x alignment + offset
  else alignDown x alignment + offset + alignment

section FirstAt

variable {alignment offset : Nat}

theorem le_firstAt (proper : offset < alignment) (x : Nat) : x ≤ firstAt alignment offset x := by
  have next := lt_alignDown_add (zero_lt_of_lt proper) x
  rw [firstAt]
  split
  · assumption
  · omega

theorem firstAt_mod (proper : offset < alignment) (x : Nat) :
    firstAt alignment offset x % alignment = offset := by
  obtain ⟨k, multiple⟩ := alignDown_dvd x alignment
  rw [firstAt, multiple]
  split
  · rw [mul_add_mod, mod_eq_of_lt proper]
  · rw [add_mod_right, mul_add_mod, mod_eq_of_lt proper]

theorem firstAt_le {x y : Nat} (above : x ≤ y) (remainder : y % alignment = offset) :
    firstAt alignment offset x ≤ y := by
  -- the blocks of the alignment that contain x and y are the same, or that of y is a later one
  have small : x / alignment ≤ y / alignment := Nat.div_le_div_right above
  have whole_x := div_add_mod x alignment
  have whole_y := div_add_mod y alignment
  have down : alignDown x alignment = alignment * (x / alignment) := by
    rw [alignDown]
    omega
  rw [firstAt, down]
  rcases eq_or_lt_of_le small with same | later
  · rw [same]
    split
    · omega
    · omega
  · have step : alignment * (x / alignment) + alignment ≤ alignment * (y / alignment) := by
      rw [← mul_succ]
      exact mul_le_mul_left alignment later
    split
    · omega
    · omega

end FirstAt

/-! ## The function -/

/-- The arguments of `FindFreeArea`. -/
structure AreaRequest where
  regionStart : Nat
  regionNumPages : Nat
  numPages : Nat
  alignment : Nat
  offset : Nat
  guardPages : Nat
  deriving DecidableEq, Repr

/-- A number as a `u64`. -/
def u64 (n : Nat) : Nat := n % 2 ^ 64

namespace AreaRequest

variable (r : AreaRequest)

/-- `region_last`. -/
def regionLast : Nat :=
  u64 (u64 (r.regionStart + r.regionNumPages * pageSize) + (2 ^ 64 - 1))

/-- Where the search of a block begins. -/
def base (b : KMemoryBlock) : Nat :=
  if b.address ≤ r.regionStart then r.regionStart else b.address

/-- `area`, for a block. -/
def area (r : AreaRequest) (b : KMemoryBlock) : Nat :=
  let area := u64 (r.base b + r.guardPages * pageSize)
  let offsetArea := u64 (alignDown area r.alignment + r.offset)
  if area ≤ offsetArea then offsetArea else u64 (offsetArea + r.alignment)

/-- `area_last`, for a block. -/
def areaLast (b : KMemoryBlock) : Nat :=
  u64 (u64 (r.area b + r.numPages * pageSize + r.guardPages * pageSize) + (2 ^ 64 - 1))

/-- Whether the area of a block is the result. -/
def accepts (b : KMemoryBlock) : Bool :=
  b.address ≤ r.area b && r.area b < r.areaLast b && r.areaLast b ≤ r.regionLast && r.areaLast b ≤
    b.lastAddress

end AreaRequest

namespace KMemoryBlockManager

/-- The loop of `FindFreeArea`, from the block that the iterator points at. -/
def findFreeAreaLoop (r : AreaRequest) : List KMemoryBlock → Nat
  | [] => 0
  | b :: rest =>
    if r.regionLast < b.address then 0
    else if b.memoryState ≠ KMemoryState.free then findFreeAreaLoop r rest
    else if r.accepts b then r.area b
    else findFreeAreaLoop r rest

/-- `FindFreeArea`. -/
def findFreeArea (m : KMemoryBlockManager) (r : AreaRequest) : Nat :=
  if 0 < r.numPages then findFreeAreaLoop r (m.findIterator r.regionStart) else 0

end KMemoryBlockManager

/-! ## What is asked for -/

namespace AreaRequest

variable {r : AreaRequest} {m : KMemoryBlockManager} {b : KMemoryBlock}

/-- The end of the region. -/
def regionEnd (r : AreaRequest) : Nat := r.regionStart + r.regionNumPages * pageSize

def size (r : AreaRequest) : Nat := r.numPages * pageSize

def guard (r : AreaRequest) : Nat := r.guardPages * pageSize

/-- An address with the offset asked for, such that the area and its guard pages on both sides lie
inside the block and inside the region. -/
structure Fits (r : AreaRequest) (b : KMemoryBlock) (a : Nat) : Prop where
  offset : a % r.alignment = r.offset
  behindBlock : b.address + r.guard ≤ a
  beforeBlock : a + r.size + r.guard ≤ b.endAddress
  behindRegion : r.regionStart + r.guard ≤ a
  beforeRegion : a + r.size + r.guard ≤ r.regionEnd

/-- The candidate of a block. -/
def leastArea (r : AreaRequest) (b : KMemoryBlock) : Nat :=
  firstAt r.alignment r.offset (r.base b + r.guard)

/-- The computations for the region and for the free blocks that begin before its end do not wrap
around. -/
structure NoWrap (r : AreaRequest) (m : KMemoryBlockManager) : Prop where
  nonzero : 0 < r.regionEnd
  region : r.regionEnd < 2 ^ 64
  areas : ∀ b ∈ m.blocks, b.memoryState = KMemoryState.free → b.address < r.regionEnd →
    r.leastArea b + r.size + r.guard < 2 ^ 64

theorem one_lt_size (pages : 0 < r.numPages) : 1 < r.size :=
  Nat.lt_of_lt_of_le (by decide) (Nat.le_mul_of_pos_left pageSize pages)

theorem u64_of_lt {n : Nat} (small : n < 2 ^ 64) : u64 n = n := mod_eq_of_lt small

/-- Subtracting one from an address that is not zero. -/
theorem u64_pred {n : Nat} (positive : 0 < n) (small : n < 2 ^ 64) :
    u64 (n + (2 ^ 64 - 1)) = n - 1 := by
  rw [u64]
  omega

theorem regionLast_eq (nonzero : 0 < r.regionEnd) (region : r.regionEnd < 2 ^ 64) :
    r.regionLast = r.regionEnd - 1 := by
  rw [regionLast, ← regionEnd, u64_of_lt region]
  exact u64_pred nonzero region

theorem area_eq (proper : r.offset < r.alignment) (small : r.leastArea b < 2 ^ 64) :
    r.area b = r.leastArea b := by
  have above := le_firstAt proper (r.base b + r.guard)
  have within : r.base b + r.guard < 2 ^ 64 := lt_of_le_of_lt above small
  rw [leastArea, firstAt] at small ⊢
  simp only [area]
  rw [← guard, u64_of_lt within]
  by_cases early : r.base b + r.guard ≤ alignDown (r.base b + r.guard) r.alignment + r.offset
  · rw [if_pos early] at small ⊢
    rw [u64_of_lt small, if_pos early]
  · rw [if_neg early] at small ⊢
    rw [u64_of_lt (by omega), if_neg early, u64_of_lt small]

theorem areaLast_eq (pages : 0 < r.numPages) (proper : r.offset < r.alignment)
    (small : r.leastArea b + r.size + r.guard < 2 ^ 64) :
    r.areaLast b = r.leastArea b + r.size + r.guard - 1 := by
  have full : 1 < r.size := one_lt_size pages
  rw [areaLast, area_eq proper (by omega), ← size, ← guard, u64_of_lt small]
  exact u64_pred (by omega) small

theorem base_bounds (r : AreaRequest) (b : KMemoryBlock) :
    b.address ≤ r.base b ∧ r.regionStart ≤ r.base b := by
  rw [base]
  split
  · exact ⟨by assumption, le_refl _⟩
  · exact ⟨le_refl _, by omega⟩

theorem base_le {a : Nat} (block : b.address ≤ a) (region : r.regionStart ≤ a) : r.base b ≤ a := by
  rw [base]
  split
  · exact region
  · exact block

/-- The candidate of a block is taken exactly if it is an area, … -/
theorem accepts_iff (pages : 0 < r.numPages) (proper : r.offset < r.alignment)
    (nonzero : 0 < r.regionEnd)
    (region : r.regionEnd < 2 ^ 64) (small : r.leastArea b + r.size + r.guard < 2 ^ 64) :
    r.accepts b ↔ r.Fits b (r.leastArea b) := by
  have full : 1 < r.size := one_lt_size pages
  have above : r.base b + r.guard ≤ r.leastArea b := le_firstAt proper _
  have bounds := r.base_bounds b
  rw [accepts, area_eq proper (by omega), areaLast_eq pages proper small,
    regionLast_eq nonzero region]
  have ends : b.lastAddress = b.endAddress - 1 := rfl
  simp only [Bool.and_eq_true, decide_eq_true_eq]
  constructor
  · rintro ⟨⟨⟨-, -⟩, inRegion⟩, inBlock⟩
    constructor
    · exact firstAt_mod proper _
    all_goals omega
  · rintro ⟨-, behind, before, -, beforeRegion⟩
    refine ⟨⟨⟨?_, ?_⟩, ?_⟩, ?_⟩
    all_goals omega

/-- … and if it is none, then the block has none. -/
theorem fits_leastArea {a : Nat} (proper : r.offset < r.alignment) (fits : r.Fits b a) :
    r.Fits b (r.leastArea b) := by
  obtain ⟨offset, behindBlock, beforeBlock, behindRegion, beforeRegion⟩ := fits
  have from_base : r.base b ≤ a - r.guard := base_le (by omega) (by omega)
  have least : r.leastArea b ≤ a := firstAt_le (by omega) offset
  have above : r.base b + r.guard ≤ r.leastArea b := le_firstAt proper _
  have bounds := r.base_bounds b
  constructor
  · exact firstAt_mod proper _
  all_goals omega

end AreaRequest

/-! ## The search -/

namespace KMemoryBlockManager

open AreaRequest

variable {r : AreaRequest} {m : KMemoryBlockManager}

/-- The blocks from one on that lie inside the address space are searched in order. -/
theorem findFreeAreaLoop_spec {s e : Nat} {blocks : List KMemoryBlock} (pages : 0 < r.numPages)
    (proper : r.offset < r.alignment) (no_wrap : r.NoWrap m) (known : ∀ b ∈ blocks, b ∈ m.blocks)
    (tiles : BlocksTile s blocks e) :
    (∃ b ∈ blocks, b.memoryState = KMemoryState.free ∧ r.Fits b (findFreeAreaLoop r blocks)) ∨
      findFreeAreaLoop r blocks = 0 ∧ ∀ b ∈ blocks, b.memoryState = KMemoryState.free →
      ∀ a, ¬ r.Fits b a := by
  have last := regionLast_eq no_wrap.nonzero no_wrap.region
  have positive := no_wrap.nonzero
  induction blocks generalizing s with
  | nil => exact Or.inr ⟨rfl, fun b mem => absurd mem not_mem_nil⟩
  | cons b rest ih =>
    obtain ⟨rfl, nonempty, others⟩ := tiles
    have rest_case := ih (fun c mem => known c (mem_cons_of_mem _ mem)) others
    -- what is found behind a block that has no area is found from the block on
    have skip (none_here : b.memoryState = KMemoryState.free → ∀ a, ¬ r.Fits b a) :
        (∃ c ∈ b :: rest, c.memoryState = KMemoryState.free ∧ r.Fits c (findFreeAreaLoop r rest)) ∨
          findFreeAreaLoop r rest = 0 ∧
            ∀ c ∈ b :: rest, c.memoryState = KMemoryState.free → ∀ a, ¬ r.Fits c a := by
      rcases rest_case with ⟨c, mem, free, fits⟩ | ⟨null, none_behind⟩
      · exact Or.inl ⟨c, mem_cons_of_mem _ mem, free, fits⟩
      · exact Or.inr ⟨null, forall_mem_cons.mpr ⟨none_here, none_behind⟩⟩
    rw [findFreeAreaLoop]
    split
    · rename_i behind
      refine Or.inr ⟨rfl, fun c mem _ a fits => ?_⟩
      have later : b.address ≤ c.address := by
        rcases mem_cons.mp mem with rfl | mem
        · exact le_refl _
        · exact le_trans (le_of_lt nonempty) (others.bounds mem).1
      have inside := fits.beforeRegion
      have start := fits.behindBlock
      have full : 1 < r.size := one_lt_size pages
      omega
    · rename_i reached
      split
      · rename_i used
        exact skip fun free => absurd free used
      · rename_i free
        have free : b.memoryState = KMemoryState.free := not_not.mp free
        have small := no_wrap.areas b (known b mem_cons_self) free (by omega)
        have taken := accepts_iff pages proper positive no_wrap.region small
        split
        · rename_i accepted
          refine Or.inl ⟨b, mem_cons_self, free, ?_⟩
          rw [area_eq proper (by omega)]
          exact taken.mp accepted
        · rename_i refused
          exact skip fun _ a fits => refused (taken.mpr (fits_leastArea proper fits))

/-- A result that is not null is an area. The result is null only if there is no area, or if zero is
one, provided that the region does not begin below the address space. -/
theorem WellFormed.findFreeArea_exact (wf : m.WellFormed) (pages : 0 < r.numPages)
    (proper : r.offset < r.alignment)
    (no_wrap : r.NoWrap m) :
    (m.findFreeArea r ≠ 0 →
      ∃ b ∈ m.blocks, b.memoryState = KMemoryState.free ∧ r.Fits b (m.findFreeArea r)) ∧
    (m.startAddress ≤ r.regionStart → m.findFreeArea r = 0 →
      (∃ b ∈ m.blocks, b.memoryState = KMemoryState.free ∧ r.Fits b 0) ∨
        ∀ b ∈ m.blocks, b.memoryState = KMemoryState.free → ∀ a, ¬ r.Fits b a) := by
  have tiles := wf.tiles
  rw [KMemoryBlockManager.findFreeArea, if_pos pages]
  by_cases inside : m.startAddress ≤ r.regionStart ∧ r.regionStart < m.endAddress
  · obtain ⟨l₁, b, l₂, split, lower, upper, before⟩ := tiles.exists_cover inside.1 inside.2
    obtain ⟨-, from_here⟩ := beforeIterator_of_cover split tiles before lower upper
    rw [from_here]
    have known : ∀ c ∈ b :: l₂, c ∈ m.blocks := fun c mem => split ▸ mem_append_right _ mem
    obtain ⟨_, -, behind⟩ := tiles_append.mp (split ▸ tiles)
    rcases findFreeAreaLoop_spec pages proper no_wrap known behind
      with ⟨c, mem, free, fits⟩ | ⟨null, none_behind⟩
    · exact ⟨fun _ => ⟨c, known c mem, free, fits⟩,
        fun _ null => Or.inl ⟨c, known c mem, free, null ▸ fits⟩⟩
    · refine ⟨fun found => absurd null found, fun _ _ => Or.inr fun c mem free a fits => ?_⟩
      rw [split] at mem
      rcases mem_append.mp mem with early | late
      · have ends := before c early
        have full : 1 < r.size := one_lt_size pages
        have inBlock := fits.beforeBlock
        have inRegion := fits.behindRegion
        omega
      · exact none_behind c late free a fits
  · have nothing : m.findIterator r.regionStart = [] := by
      refine dropWhile_eq_nil_iff.mpr fun c mem => ?_
      obtain ⟨low, nonempty, high⟩ := tiles.bounds mem
      rw [Bool.not_eq_true', ← Bool.not_eq_true, found_iff nonempty]
      omega
    rw [nothing]
    refine ⟨fun found => absurd rfl found, fun above _ => Or.inr fun c mem _ a fits => ?_⟩
    have high := (tiles.bounds mem).2.2
    have full : 1 < r.size := one_lt_size pages
    have inBlock := fits.beforeBlock
    have inRegion := fits.behindRegion
    omega

/-- Two pages on a boundary of eight, with a guard page before and behind them. -/
def guardedRequest : AreaRequest where
  regionStart := 0x3000
  regionNumPages := 0x20
  numPages := 2
  alignment := 0x8000
  offset := 0x1000
  guardPages := 1

theorem guardedRequest_noWrap : guardedRequest.NoWrap (initializeManager 0x1000 0x40000) where
  nonzero := by decide
  region := by decide
  areas := by decide

theorem findFreeArea_guardedRequest :
    (initializeManager 0x1000 0x40000).findFreeArea guardedRequest = 0x9000 ∧
    ∃ b ∈ (initializeManager 0x1000 0x40000).blocks, b.memoryState = KMemoryState.free ∧
      guardedRequest.Fits b ((initializeManager 0x1000 0x40000).findFreeArea guardedRequest) :=
  ⟨by decide, (WellFormed.findFreeArea_exact
      (initializeManager_wellFormed (by decide) (by decide) (by decide)) (by decide) (by decide)
      guardedRequest_noWrap).1 (by decide)⟩

/-- One page anywhere in a region from zero on. -/
def pageRequest : AreaRequest where
  regionStart := 0
  regionNumPages := 0x10
  numPages := 1
  alignment := 0x1000
  offset := 0
  guardPages := 0

/-- No area is found in a region that begins below the address space, and one that begins at zero is
not told from none. -/
theorem findFreeArea_pageRequest :
    pageRequest.alignment = 2 ^ 12 ∧ pageRequest.offset < pageRequest.alignment ∧
    ((initializeManager 0x1000 0x10000).WellFormed ∧
      pageRequest.NoWrap (initializeManager 0x1000 0x10000) ∧
      (initializeManager 0x1000 0x10000).findFreeArea pageRequest = 0 ∧
      ∃ b ∈ (initializeManager 0x1000 0x10000).blocks, b.memoryState = KMemoryState.free ∧
        pageRequest.Fits b 0x1000) ∧
    ((initializeManager 0 0x10000).WellFormed ∧ pageRequest.NoWrap (initializeManager 0 0x10000) ∧
      (initializeManager 0 0x10000).findFreeArea pageRequest = 0 ∧
      ∃ b ∈ (initializeManager 0 0x10000).blocks, b.memoryState = KMemoryState.free ∧
        pageRequest.Fits b 0x1000) := by
  refine ⟨rfl, by decide, ⟨?_, ⟨by decide, by decide, by decide⟩, by decide, ?_⟩,
    ⟨?_, ⟨by decide, by decide, by decide⟩, by decide, ?_⟩⟩
  · exact initializeManager_wellFormed (by decide) (by decide) (by decide)
  · exact ⟨_, mem_singleton_self _, rfl, by decide, by decide, by decide, by decide, by decide⟩
  · exact initializeManager_wellFormed (by decide) (by decide) (by decide)
  · exact ⟨_, mem_singleton_self _, rfl, by decide, by decide, by decide, by decide, by decide⟩

end KMemoryBlockManager

end SumiEmu.Kernel
