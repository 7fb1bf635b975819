/-
# When the copy between heap pages is exact

Between two ranges that are apart, the copy ends and delivers the bytes, on every memory, in two
cases: both ranges lie in one page each, or both start at a page border and at every border inside
at least one of them goes on elsewhere in physical memory. Otherwise it does not end, or the start
of some page is not read or not written.
-/

import SumiEmu.Kernel.PageTableHeapCopyRun

namespace SumiEmu.Kernel.KPageTableBase

open Common Common.PageTable Fallible Scatter Nat

variable {p dstPageTable : KPageTableBase} {srcAddr dstAddr size : Nat} {t : PageTable} {addr : Nat}

/-! ## The start -/

/-- The state of a range before the loop. -/
def startSide (t : PageTable) (addr : Nat) : HeapSide where
  context := contextAt (addr + (0 + 1) * pageSize)
  nextEntry := ⟨t.page addr 0 + addr % pageSize, pageSize - addr % pageSize⟩
  blockAddr := t.page addr 0 + addr % pageSize
  size := pageSize - addr % pageSize
  addr := t.page addr 0 + addr % pageSize

theorem beginSide_eq (aligned : t.page addr 0 % pageSize = 0) :
    beginSide t addr = if t.Mapped addr then .ok (startSide t addr) else .error .traverseValid := by
  have first := translate_page aligned
  have mask : (t.page addr 0 + addr % pageSize) % pageSize = addr % pageSize := by
    rw [add_mod, aligned, zero_add, mod_mod, mod_mod]
  rw [Nat.zero_mul, Nat.add_zero] at first
  rw [beginSide, beginTraversal_eq]
  dsimp only
  by_cases mapped : t.Mapped addr
  · rw [if_pos (decide_eq_true mapped), if_pos mapped, if_pos mapped, first, and_pageSize_sub_one,
      mask, startSide, zero_add, one_mul, contextAt]
  · rw [if_neg (by rwa [decide_eq_true_iff]), if_neg mapped]

theorem onPage_startSide (t : PageTable) (addr : Nat) : OnPage t addr 0 0 (startSide t addr) := by
  have offset := mod_lt addr (by decide : 0 < pageSize)
  refine ⟨rfl, rfl, rfl, rfl, rfl, ?_, ?_, fun j below => ?_⟩
  · omega
  · rw [startSide]
    dsimp only
    omega
  · rw [zero_add, startSide]
    exact visited_first (by omega)

/-- The state before the loop. -/
def startCursor (p dstPageTable : KPageTableBase) (dstAddr srcAddr : Nat) (memory : Nat → UInt8) :
    HeapCursor where
  src := startSide p.impl srcAddr
  dst := startSide dstPageTable.impl dstAddr
  curMinSize := min (pageSize - srcAddr % pageSize) (pageSize - dstAddr % pageSize)
  ofs := 0
  memory := memory

/-- What the claims about the copy share: both ranges lie in their address spaces and pass the state
checks, and are mapped to pages of the heap. -/
structure HeapRanges (p dstPageTable : KPageTableBase) (srcAddr dstAddr size : Nat) : Prop where
  containsSrc : p.Contains srcAddr size
  containsDst : dstPageTable.Contains dstAddr size
  checkedSrc : p.checkMemoryStateContiguous srcAddr size = .ok ()
  checkedDst : dstPageTable.checkMemoryStateContiguous dstAddr size = .ok ()
  mapsSrc : p.impl.MapsTo p.isHeapPhysicalAddress srcAddr size
  mapsDst : dstPageTable.impl.MapsTo p.isHeapPhysicalAddress dstAddr size

namespace HeapRanges

section

variable (ranges : HeapRanges p dstPageTable srcAddr dstAddr size)

include ranges

theorem positive : 0 < size :=
  size_pos ranges.containsSrc

theorem touches (addr : Nat) : Touches addr size 0 := by
  have := ranges.positive
  rw [Touches, Nat.zero_mul]
  omega

theorem atRound (memory : Nat → UInt8) :
    AtRound p dstPageTable srcAddr dstAddr size 0 0 0
      (startCursor p dstPageTable dstAddr srcAddr memory) := by
  have rest : ∀ (t : PageTable) (addr : Nat),
    (startSide t addr).rest = pageSize - addr % pageSize :=
    fun t addr => Nat.add_sub_cancel_left ..
  refine ⟨onPage_startSide .., onPage_startSide .., rfl, ?_, ranges.positive⟩
  rw [startCursor]
  dsimp only
  rw [rest, rest]

/-- The function is its loop, once both traversals have begun. -/
theorem copy_eq (rounds : Nat) (memory : Nat → UInt8) :
    copyMemoryFromHeapToHeap rounds p dstPageTable dstAddr size srcAddr memory =
      if p.impl.Mapped srcAddr ∧ dstPageTable.impl.Mapped dstAddr then
        (heapRounds p dstPageTable.impl size rounds
          (startCursor p dstPageTable dstAddr srcAddr memory)).map fun r => r.map HeapCursor.memory
      else some (.error .traverseValid) := by
  have prepared : prepareHeapCopy p dstPageTable dstAddr size srcAddr memory =
      if p.impl.Mapped srcAddr ∧ dstPageTable.impl.Mapped dstAddr then
        .ok (startCursor p dstPageTable dstAddr srcAddr memory)
      else .error .traverseValid := by
    rw [prepareHeapCopy, if_neg (not_not.mpr ranges.containsSrc),
      if_neg (not_not.mpr ranges.containsDst), ranges.checkedSrc, ranges.checkedDst,
      beginSide_eq (ranges.mapsSrc.aligned 0 (ranges.touches srcAddr)),
      beginSide_eq (ranges.mapsDst.aligned 0 (ranges.touches dstAddr))]
    by_cases src : p.impl.Mapped srcAddr
    · by_cases dst : dstPageTable.impl.Mapped dstAddr
      · rw [if_pos src, if_pos dst, if_pos ⟨src, dst⟩]
        rfl
      · rw [if_pos src, if_neg dst, if_neg fun both => dst both.2]
        rfl
    · have none : ¬ (p.impl.Mapped srcAddr ∧ dstPageTable.impl.Mapped dstAddr) :=
        fun both => src both.1
      rw [if_neg src, if_neg none]
      rfl
  rw [copyMemoryFromHeapToHeap, prepared]
  by_cases both : p.impl.Mapped srcAddr ∧ dstPageTable.impl.Mapped dstAddr
  · rw [if_pos both, if_pos both]
    exact if_neg ranges.positive.ne'
  · rw [if_neg both, if_neg both]

end

end HeapRanges

/-! ## What a copy that ends has done -/

/-- The bytes of the source are in the destination, and nothing else has changed. -/
def Copied (p dstPageTable : KPageTableBase) (srcAddr dstAddr size : Nat) (m m' : Nat → UInt8) :
    Prop :=
  Delivered m m' (fun i => dstPageTable.impl.translate (dstAddr + i))
    (fun i => m (p.impl.translate (srcAddr + i))) size

/-- No physical byte belongs to both ranges. -/
def Separate (p dstPageTable : KPageTableBase) (srcAddr dstAddr size : Nat) : Prop :=
  ∀ i < size, ∀ j < size, p.impl.translate (srcAddr + i) ≠ dstPageTable.impl.translate (dstAddr + j)

/-- A physical byte that occurs twice in the destination is to receive the same byte both times. -/
def SameTwice (p dstPageTable : KPageTableBase) (srcAddr dstAddr size : Nat) : Prop :=
  ∀ i < size, ∀ j < size, dstPageTable.impl.translate (dstAddr + i) =
    dstPageTable.impl.translate (dstAddr + j) →
    p.impl.translate (srcAddr + i) = p.impl.translate (srcAddr + j)

/-- At no page border inside two ranges that start at one do both go on directly behind. -/
def NeverBothJoined (p dstPageTable : KPageTableBase) (srcAddr dstAddr size : Nat) : Prop :=
  ∀ k, (k + 1) * pageSize < size →
    ¬ (p.impl.page srcAddr (k + 1) = p.impl.page srcAddr k + pageSize ∧
    dstPageTable.impl.page dstAddr (k + 1) = dstPageTable.impl.page dstAddr k + pageSize)

/-- Both ranges lie in one page each, or start at a page border and are never joined both. -/
def Tractable (p dstPageTable : KPageTableBase) (srcAddr dstAddr size : Nat) : Prop :=
  srcAddr % pageSize + size ≤ pageSize ∧ dstAddr % pageSize + size ≤ pageSize ∨
    srcAddr % pageSize = 0 ∧ dstAddr % pageSize = 0 ∧
    NeverBothJoined p dstPageTable srcAddr dstAddr size

/-- A memory with one byte that is not zero. -/
def onlyAt (x : Nat) : Nat → UInt8 := fun q => if q = x then 1 else 0

theorem onlyAt_self (x : Nat) : onlyAt x x = 1 := if_pos rfl

theorem onlyAt_of_ne {x q : Nat} (other : q ≠ x) : onlyAt x q = 0 := if_neg other

/-- At a page border inside a range that starts at one, the places are joined when the pages are. -/
theorem joined_border_iff (start : addr % pageSize = 0) (k : Nat) :
    Joined t addr ((k + 1) * pageSize) ↔ t.page addr (k + 1) = t.page addr k + pageSize := by
  have here : t.visited addr ((k + 1) * pageSize) = t.page addr (k + 1) := by
    rw [visited, start, ite_self, Nat.zero_add, Nat.mul_div_cancel _ (by decide), Nat.mul_mod_left]
    rfl
  have last : (k + 1) * pageSize - 1 = k * pageSize + (pageSize - 1) := by
    rw [succ_mul]
    exact Nat.add_sub_assoc (by decide) _
  have before : t.visited addr ((k + 1) * pageSize - 1) = t.page addr k + (pageSize - 1) := by
    have number : (k * pageSize + (pageSize - 1)) / pageSize = k := by
      rw [pageSize_eq]
      omega
    have offset : (k * pageSize + (pageSize - 1)) % pageSize = pageSize - 1 := by
      rw [pageSize_eq]
      omega
    rw [visited, start, ite_self, zero_add, last, number, offset]
    rfl
  rw [Joined, here, before, add_assoc]
  rfl

namespace HeapRanges

variable {Inv : (Nat → UInt8) → Nat → Prop}

/-- A copy that completes, seen as a run of its loop. -/
theorem run (ranges : HeapRanges p dstPageTable srcAddr dstAddr size)
    (advances : HeapAdvances p dstPageTable srcAddr dstAddr size Inv) {rounds : Nat}
    {m m' : Nat → UInt8}
    (copied : copyMemoryFromHeapToHeap rounds p dstPageTable dstAddr size srcAddr m = some (.ok m'))
    (inv : Inv m 0) :
    Inv m' size ∧ p.impl.NowhereIdentity srcAddr size ∧
      dstPageTable.impl.NowhereIdentity dstAddr size ∧
      ∀ l, ∀ i < size, dstAddr % pageSize + i = (l + 1) * pageSize →
      ¬ BothJoined p dstPageTable srcAddr dstAddr i := by
  rw [ranges.copy_eq] at copied
  split at copied
  · next mapped =>
    obtain ⟨r, result, same⟩ := Option.map_eq_some_iff.mp copied
    cases r with
    | error fault => cases same
    | ok s' =>
      cases same
      obtain ⟨final, mappedSrc, mappedDst, notJoined⟩ :=
        heapRounds_inv ranges.mapsSrc ranges.mapsDst advances result (ranges.atRound m) inv
      refine ⟨final, fun k touched => (mapped_iff ranges.mapsSrc touched).mp ?_,
        fun l touched => (mapped_iff ranges.mapsDst touched).mp ?_,
        fun l => notJoined l (Nat.zero_le l)⟩
      · rcases Nat.eq_zero_or_pos k with rfl | later
        · rw [Nat.zero_mul]
          exact mapped.1
        · exact mappedSrc k later touched
      · rcases Nat.eq_zero_or_pos l with rfl | later
        · rw [Nat.zero_mul]
          exact mapped.2
        · exact mappedDst l later touched
  · cases copied

theorem true_advances : HeapAdvances p dstPageTable srcAddr dstAddr size fun _ _ => True :=
  fun _ _ _ _ _ _ _ _ _ => trivial

/-- The places that are read have the value zero, except for one that is not visited. -/
theorem zero_advances {x : Nat} (missed : ∀ i < size, p.impl.visited srcAddr i ≠ x) :
    HeapAdvances p dstPageTable srcAddr dstAddr size fun m _ => ∀ q ≠ x, m q = 0 := by
  intro m done count src dst zero within straight _ q other
  rw [writeBlock]
  split
  · next inside =>
    have place := straight (q - dst) (by omega)
    rw [← place]
    exact zero _ (missed _ (by omega))
  · exact zero q other

/-- A place that is not visited in the destination keeps its value. -/
theorem keep_advances {x : Nat} {value : UInt8}
    (missed : ∀ i < size, dstPageTable.impl.visited dstAddr i ≠ x) :
    HeapAdvances p dstPageTable srcAddr dstAddr size fun m _ => m x = value := by
  intro m done count src dst kept within _ straight
  rw [writeBlock_of_ne fun j below => ?_]
  · exact kept
  · rw [← straight j below]
    exact missed (done + j) (by omega)

/-- Where the two traversals find the translations, the bytes are delivered. -/
theorem delivered_advances (separate : Separate p dstPageTable srcAddr dstAddr size)
    (twice : SameTwice p dstPageTable srcAddr dstAddr size)
    (src : ∀ i < size, p.impl.visited srcAddr i = p.impl.translate (srcAddr + i))
    (dst : ∀ i < size, dstPageTable.impl.visited dstAddr i =
    dstPageTable.impl.translate (dstAddr + i))
    (m₀ : Nat → UInt8) :
    HeapAdvances p dstPageTable srcAddr dstAddr size fun m done =>
      Delivered m₀ m (fun i => dstPageTable.impl.translate (dstAddr + i))
        (fun i => m₀ (p.impl.translate (srcAddr + i))) done := by
  intro m done count source target delivered within straightSrc straightDst
  have consistent : Consistent (fun i => dstPageTable.impl.translate (dstAddr + i))
      (fun i => m₀ (p.impl.translate (srcAddr + i))) size := fun i inRange j inRange' same =>
    congrArg m₀ (twice i inRange j inRange' same)
  refine delivered.block consistent within (fun j below => ?_) fun j below => ?_
  · rw [← dst _ (by omega), straightDst j below]
  · rw [← straightSrc j below, src _ (by omega)]
    exact delivered.kept _ fun i early => (separate _ (by omega) i (by omega)).symm

/-- A copy that is right on every memory finds the translations or meets no border that is joined
twice. -/
theorem tractable_of_copied (ranges : HeapRanges p dstPageTable srcAddr dstAddr size)
    (separate : Separate p dstPageTable srcAddr dstAddr size)
    (copies : ∀ m, ∃ rounds m',
    copyMemoryFromHeapToHeap rounds p dstPageTable dstAddr size srcAddr m =
      some (.ok m') ∧ Copied p dstPageTable srcAddr dstAddr size m m') :
    Tractable p dstPageTable srcAddr dstAddr size := by
  -- a range that goes on behind the page it starts in the middle of has a place that is not visited
  have source : srcAddr % pageSize = 0 ∨ srcAddr % pageSize + size ≤ pageSize := by
    by_contra crooked
    obtain ⟨offset, crosses⟩ := not_or.mp crooked
    obtain ⟨i, below, missed⟩ := exists_missed ranges.mapsSrc offset (Nat.lt_of_not_le crosses)
    obtain ⟨rounds, m', copied, delivered⟩ :=
      copies (onlyAt (p.impl.translate (srcAddr + i)))
    have zero := (ranges.run (zero_advances missed) copied fun q => onlyAt_of_ne).1 _
      (separate i below i below).symm
    have one := delivered.written i below
    rw [onlyAt_self] at one
    exact absurd (zero.symm.trans one) (by decide)
  have destination : dstAddr % pageSize = 0 ∨ dstAddr % pageSize + size ≤ pageSize := by
    by_contra crooked
    obtain ⟨offset, crosses⟩ := not_or.mp crooked
    obtain ⟨i, below, missed⟩ := exists_missed ranges.mapsDst offset (Nat.lt_of_not_le crosses)
    obtain ⟨rounds, m', copied, delivered⟩ :=
      copies (onlyAt (p.impl.translate (srcAddr + i)))
    have zero := (ranges.run (keep_advances missed) copied
      (onlyAt_of_ne (separate i below i below).symm)).1
    have one := delivered.written i below
    rw [onlyAt_self] at one
    exact absurd (zero.symm.trans one) (by decide)
  by_cases one : srcAddr % pageSize + size ≤ pageSize ∧ dstAddr % pageSize + size ≤ pageSize
  · exact .inl one
  · have start : srcAddr % pageSize = 0 ∧ dstAddr % pageSize = 0 := by omega
    obtain ⟨rounds, m', copied, -⟩ := copies fun _ => 0
    have notJoined := (ranges.run true_advances copied trivial).2.2.2
    refine .inr ⟨start.1, start.2, fun k inside both => ?_⟩
    refine notJoined k _ inside (by rw [start.2, zero_add]) ⟨?_, ?_⟩
    · exact (joined_border_iff start.1 k).mpr both.1
    · exact (joined_border_iff start.2 k).mpr both.2

/-- A tractable copy ends, and delivers the bytes. -/
theorem copied_of_tractable (ranges : HeapRanges p dstPageTable srcAddr dstAddr size)
    (separate : Separate p dstPageTable srcAddr dstAddr size)
    (elsewhereSrc : p.impl.NowhereIdentity srcAddr size)
    (elsewhereDst : dstPageTable.impl.NowhereIdentity dstAddr size)
    (twice : SameTwice p dstPageTable srcAddr dstAddr size)
    (tractable : Tractable p dstPageTable srcAddr dstAddr size) (m : Nat → UInt8) :
    ∃ rounds m', copyMemoryFromHeapToHeap rounds p dstPageTable dstAddr size srcAddr m =
      some (.ok m') ∧ Copied p dstPageTable srcAddr dstAddr size m m' := by
  have simpleSrc : Simple srcAddr size := by
    rcases tractable with ⟨one, -⟩ | ⟨start, -⟩
    · exact .inr one
    · exact .inl start
  have simpleDst : Simple dstAddr size := by
    rcases tractable with ⟨-, one⟩ | ⟨-, start, -⟩
    · exact .inr one
    · exact .inl start
  have src : ∀ i < size, p.impl.visited srcAddr i = p.impl.translate (srcAddr + i) := fun i below =>
    visited_of_simple ranges.mapsSrc simpleSrc below
  have dst : ∀ i < size, dstPageTable.impl.visited dstAddr i =
    dstPageTable.impl.translate (dstAddr + i) :=
    fun i below => visited_of_simple ranges.mapsDst simpleDst below
  have mappedSrc : ∀ k, Touches srcAddr size k → p.impl.Mapped (srcAddr + k * pageSize) :=
    fun k touched =>
    (mapped_iff ranges.mapsSrc touched).mpr (elsewhereSrc k touched)
  have mappedDst : ∀ l, Touches dstAddr size l →
    dstPageTable.impl.Mapped (dstAddr + l * pageSize) :=
    fun l touched => (mapped_iff ranges.mapsDst touched).mpr (elsewhereDst l touched)
  have heap : ∀ {t : PageTable} {addr : Nat}, t.MapsTo p.isHeapPhysicalAddress addr size →
    ∀ i < size, p.isHeapPhysicalAddress (t.translate (addr + i)) = true := fun maps i below => by
    rw [translate_eq (maps.aligned _ (touches_place _ below))]
    exact maps.backed _ (touches_place _ below) _ (mod_lt _ (by decide))
  have notJoined : ∀ l, ∀ i < size, dstAddr % pageSize + i = (l + 1) * pageSize →
      ¬ BothJoined p dstPageTable srcAddr dstAddr i := by
    intro l i inside border both
    rcases tractable with ⟨-, one⟩ | ⟨startSrc, startDst, never⟩
    · rw [succ_mul] at border
      omega
    · rw [startDst, zero_add] at border
      subst border
      exact never l inside ⟨(joined_border_iff startSrc l).mp both.1,
        (joined_border_iff startDst l).mp both.2⟩
  obtain ⟨rounds, s', ends⟩ := heapRounds_ends ranges.mapsSrc ranges.mapsDst mappedSrc mappedDst
    (fun i below => src i below ▸ heap ranges.mapsSrc i below)
    (fun i below => dst i below ▸ heap ranges.mapsDst i below) notJoined (ranges.atRound m)
  have first := mappedSrc 0 (ranges.touches srcAddr)
  have first' := mappedDst 0 (ranges.touches dstAddr)
  rw [Nat.zero_mul, Nat.add_zero] at first first'
  have copied : copyMemoryFromHeapToHeap rounds p dstPageTable dstAddr size srcAddr m =
      some (.ok s'.memory) := by
    rw [ranges.copy_eq, if_pos ⟨first, first'⟩, ends]
    rfl
  exact ⟨rounds, s'.memory, copied,
    (ranges.run (delivered_advances separate twice src dst m) copied (Delivered.nothing ..)).1⟩

end HeapRanges

theorem heapRanges_shifted {srcAddr dstAddr size : Nat}
    (containsSrc : shifted.Contains srcAddr size)
    (containsDst : shifted.Contains dstAddr size) (src : srcAddr + size ≤ 2 ^ 39)
    (dst : dstAddr + size ≤ 2 ^ 39) : HeapRanges shifted shifted srcAddr dstAddr size :=
  ⟨containsSrc, containsDst, rfl, rfl, mapsTo_shifted _ (fun _ => rfl) src,
      mapsTo_shifted _ (fun _ => rfl) dst⟩

theorem separate_shifted {srcAddr dstAddr size : Nat} (apart : srcAddr + size ≤ dstAddr)
    (below : dstAddr + size ≤ 2 ^ 39) : Separate shifted shifted srcAddr dstAddr size := by
  have place : ∀ a < 2 ^ 39, shifted.impl.translate a = 0x80000000 + a := by
    intro a small
    rw [PageTable.translate, BitVec.toNat_add, BitVec.toNat_ofNat]
    change (0x80000000 + _ % 2 ^ 64) % 2 ^ 64 = _
    omega
  intro i inRange j inRange'
  rw [place _ (by omega), place _ (by omega)]
  omega

/-- Between ranges that pass the checks, are mapped to heap pages and share no physical byte: the
copy ends and delivers the bytes, whatever the memory holds, exactly when no page is mapped to its
own address, a physical byte that occurs twice in the destination is to receive one value, and the
ranges are tractable. -/
theorem heapToHeap_iff (ranges : HeapRanges p dstPageTable srcAddr dstAddr size)
    (separate : Separate p dstPageTable srcAddr dstAddr size) :
    (∀ m, ∃ rounds m', copyMemoryFromHeapToHeap rounds p dstPageTable dstAddr size srcAddr m =
      some (.ok m') ∧ Copied p dstPageTable srcAddr dstAddr size m m') ↔
      p.impl.NowhereIdentity srcAddr size ∧ dstPageTable.impl.NowhereIdentity dstAddr size ∧
        SameTwice p dstPageTable srcAddr dstAddr size ∧
        Tractable p dstPageTable srcAddr dstAddr size := by
  constructor
  · intro copies
    obtain ⟨rounds, m', copied, -⟩ := copies fun _ => 0
    obtain ⟨-, elsewhereSrc, elsewhereDst, -⟩ := ranges.run HeapRanges.true_advances copied trivial
    refine ⟨elsewhereSrc, elsewhereDst, fun i inRange j inRange' same => ?_,
      ranges.tractable_of_copied separate copies⟩
    obtain ⟨_, m', -, delivered⟩ := copies (onlyAt (p.impl.translate (srcAddr + i)))
    have found := (delivered.written i inRange).symm.trans
      ((congrArg m' same).trans (delivered.written j inRange'))
    rw [onlyAt_self] at found
    by_contra other
    rw [onlyAt_of_ne (Ne.symm other)] at found
    exact absurd found (by decide)
  · rintro ⟨elsewhereSrc, elsewhereDst, twice, tractable⟩
    exact ranges.copied_of_tractable separate elsewhereSrc elsewhereDst twice tractable

/-- Both ranges go over the border of a page, in different places. -/
theorem heapToHeap_iff_shifted :
    (∀ m, ∃ rounds m', copyMemoryFromHeapToHeap rounds shifted shifted 0x5400 0x1000 0x1800 m =
      some (.ok m') ∧ Copied shifted shifted 0x1800 0x5400 0x1000 m m') ↔
      shifted.impl.NowhereIdentity 0x1800 0x1000 ∧ shifted.impl.NowhereIdentity 0x5400 0x1000 ∧
        SameTwice shifted shifted 0x1800 0x5400 0x1000 ∧
        Tractable shifted shifted 0x1800 0x5400 0x1000 :=
  heapToHeap_iff (heapRanges_shifted (by decide) (by decide) (by decide) (by decide))
    (separate_shifted (by decide) (by decide))

/-- Two pages that lie behind each other on both sides are not copied. -/
theorem not_copied_contiguous :
    HeapRanges shifted shifted 0x1000 0x5000 0x2000 ∧
      Separate shifted shifted 0x1000 0x5000 0x2000 ∧ ¬ ∀ m, ∃ rounds m',
      copyMemoryFromHeapToHeap rounds shifted shifted 0x5000 0x2000 0x1000 m = some (.ok m') ∧
      Copied shifted shifted 0x1000 0x5000 0x2000 m m' := by
  have ranges : HeapRanges shifted shifted 0x1000 0x5000 0x2000 :=
    heapRanges_shifted (by decide) (by decide) (by decide) (by decide)
  have separate : Separate shifted shifted 0x1000 0x5000 0x2000 :=
    separate_shifted (by decide) (by decide)
  refine ⟨ranges, separate, fun copies => ?_⟩
  rcases ranges.tractable_of_copied separate copies with ⟨one, -⟩ | ⟨-, -, never⟩
  · exact absurd one (by decide)
  · refine never 0 (by decide) ⟨?_, ?_⟩
    · rw [page_shifted (by decide), page_shifted (by decide), pageSize_eq]
    · rw [page_shifted (by decide), page_shifted (by decide), pageSize_eq]

end SumiEmu.Kernel.KPageTableBase
