/-
# Copies between heap pages

`CopyMemoryFromHeapToHeap` traverses two ranges at once. What it copies in one round ends where a
page of either range ends. It puts the copy off if the traversal of neither range has come to an
address that does not lie directly behind the page before.

The sizes up to the end of a block are computed as the difference of two addresses plus the size of
the block, which wraps around twice; here the sum comes first. The loop may not end, so its rounds
are counted, and `none` says that they were not enough.
-/

import SumiEmu.Kernel.PageTableCopyRuns

namespace SumiEmu.Kernel.KPageTableBase

open Common Common.PageTable Fallible Scatter

/-- The variables of `CopyMemoryFromHeapToHeap` for one of the two ranges: the traversal, the
address and the size of the current block, and the address that the copy has come to. -/
structure HeapSide where
  context : TraversalContext
  nextEntry : TraversalEntry
  blockAddr : Nat
  size : Nat
  addr : Nat

/-- The variables of `CopyMemoryFromHeapToHeap`, and the memory. -/
structure HeapCursor where
  src : HeapSide
  dst : HeapSide
  curMinSize : Nat
  ofs : Nat
  memory : Nat → UInt8

/-- Begin the traversal of one of the ranges. -/
def beginSide (t : PageTable) (addr : Nat) : Except Fault HeapSide :=
  let step := t.beginTraversal addr
  if step.1 then
    let size := step.2.1.blockSize - (step.2.1.physAddr &&& (step.2.1.blockSize - 1))
    .ok ⟨step.2.2, ⟨step.2.1.physAddr, size⟩, step.2.1.physAddr, size, step.2.1.physAddr⟩
  else .error .traverseValid

/-- Continue the traversal at the end of a block, and see if the next one lies behind it. -/
def continueIf (atEnd : Prop) [Decidable atEnd] (t : PageTable) (x : HeapSide) (place : Nat) :
    Except Fault (HeapSide × Bool) :=
  if atEnd then
    let step := t.continueTraversal x.context
    if step.1 then
      .ok ({ x with context := step.2.2, nextEntry := step.2.1 },
        decide (place ≠ step.2.1.physAddr))
    else .error .traverseValid
  else .ok (x, false)

/-- The update of one of the ranges after a copy. -/
def HeapSide.advance (x : HeapSide) (updated : Bool) (copySize : Nat) : HeapSide :=
  { x with
    blockAddr := x.nextEntry.physAddr
    addr := if updated then x.nextEntry.physAddr else x.addr + copySize }

/-- The size of the current block is that of the entry. -/
def HeapSide.resize (x : HeapSide) : HeapSide := { x with size := x.nextEntry.blockSize }

/-- The size up to the end of the current block. -/
def HeapSide.rest (x : HeapSide) : Nat := x.blockAddr + x.size - x.addr

/-- Update the sizes at the end of a round. -/
def updateMinSize (s : HeapCursor) : HeapCursor :=
  { s with
    src := s.src.resize
    dst := s.dst.resize
    curMinSize := min s.src.resize.rest s.dst.resize.rest }

/-- Do the copy, and advance. -/
def copyHeapBlock (p : KPageTableBase) (copySize : Nat) (updatedSrc updatedDst : Bool)
    (s : HeapCursor) : Except Fault HeapCursor :=
  if p.isHeapPhysicalAddress s.src.addr && p.isHeapPhysicalAddress s.dst.addr then
    .ok { s with
      src := s.src.advance updatedSrc copySize
      dst := s.dst.advance updatedDst copySize
      ofs := s.ofs + copySize
      memory := writeBlock s.memory s.dst.addr copySize fun j => s.memory (s.src.addr + j) }
  else .error .invalidCurrentMemory

/-- One round of the loop. -/
def heapRound (p : KPageTableBase) (dstImpl : PageTable) (size : Nat) (s : HeapCursor) :
    Except Fault HeapCursor :=
  let curCopySize := min s.curMinSize (size - s.ofs)
  if s.ofs + curCopySize ≠ size then do
    let src ← continueIf (s.src.addr + s.curMinSize = s.src.blockAddr + s.src.size) p.impl s.src
      (s.src.addr + s.curMinSize)
    let dst ← continueIf
      (s.dst.addr + s.curMinSize = s.dst.nextEntry.physAddr + s.dst.nextEntry.blockSize) dstImpl
        s.dst
      (s.dst.addr + s.curMinSize)
    if !src.2 && !dst.2 then
      -- the copy is skipped, and of the two block addresses that of the source is updated
      return updateMinSize
        { s with src := { src.1 with blockAddr := src.1.nextEntry.physAddr }, dst := dst.1 }
    else do
      let s ← copyHeapBlock p curCopySize src.2 dst.2 { s with src := src.1, dst := dst.1 }
      return updateMinSize s
  else do
    let s ← copyHeapBlock p curCopySize false false s
    return updateMinSize s

/-- The loop, for a number of rounds. -/
def heapRounds (p : KPageTableBase) (dstImpl : PageTable) (size : Nat) :
    Nat → HeapCursor → Option (Except Fault HeapCursor)
  | rounds, s =>
    if s.ofs < size then
      match rounds with
      | 0 => none
      | rounds + 1 =>
        match heapRound p dstImpl size s with
        | .error fault => some (.error fault)
        | .ok s => heapRounds p dstImpl size rounds s
    else some (.ok s)

/-- What `CopyMemoryFromHeapToHeap` does before its loop. -/
def prepareHeapCopy (p dstPageTable : KPageTableBase) (dstAddr size srcAddr : Nat)
    (memory : Nat → UInt8) : Except Fault HeapCursor := do
  if ¬ p.Contains srcAddr size then throw .invalidCurrentMemory
  if ¬ dstPageTable.Contains dstAddr size then throw .invalidCurrentMemory
  p.checkMemoryStateContiguous srcAddr size
  dstPageTable.checkMemoryStateContiguous dstAddr size
  let src ← beginSide p.impl srcAddr
  let dst ← beginSide dstPageTable.impl dstAddr
  return ⟨src, dst, min src.size dst.size, 0, memory⟩

/-- `CopyMemoryFromHeapToHeap`, within a number of rounds. -/
def copyMemoryFromHeapToHeap (rounds : Nat) (p dstPageTable : KPageTableBase)
    (dstAddr size srcAddr : Nat)
    (memory : Nat → UInt8) : Option (Except Fault (Nat → UInt8)) :=
  match prepareHeapCopy p dstPageTable dstAddr size srcAddr memory with
  | .error fault => some (.error fault)
  | .ok s =>
    if size = 0 then some (.ok memory)
    else (heapRounds p dstPageTable.impl size rounds s).map fun r => r.map HeapCursor.memory

/-! ## One of the ranges -/

section Side

variable {t : PageTable} {addr done k n : Nat} {x y : HeapSide} {updated : Bool}

/-- The traversal of a range is on a page, and the places from where the copy has come to up to the
end of the page are visited in order. -/
structure OnPage (t : PageTable) (addr done k : Nat) (x : HeapSide) : Prop where
  context : x.context = contextAt (addr + (k + 1) * pageSize)
  physAddr : x.nextEntry.physAddr = x.blockAddr
  blockSize : x.nextEntry.blockSize = x.size
  block : x.blockAddr = t.page addr k + addr % pageSize
  size : x.size = if k = 0 then pageSize - addr % pageSize else pageSize
  before : addr % pageSize + done < (k + 1) * pageSize
  stop : addr % pageSize + done + (x.blockAddr + x.size) = x.addr + (k + 1) * pageSize
  straight : ∀ j, addr % pageSize + done + j < (k + 1) * pageSize →
    t.visited addr (done + j) = x.addr + j

/-- A place is visited directly behind the one before. -/
def Joined (t : PageTable) (addr i : Nat) : Prop := t.visited addr i = t.visited addr (i - 1) + 1

section

variable (onPage : OnPage t addr done k x)

include onPage

theorem OnPage.rest :
    addr % pageSize + done + x.rest = (k + 1) * pageSize := by
  have := onPage.stop
  have := onPage.before
  rw [HeapSide.rest]
  omega

theorem OnPage.atEnd_iff :
    x.addr + n = x.blockAddr + x.size ↔ addr % pageSize + done + n = (k + 1) * pageSize := by
  have := onPage.stop
  omega

/-- Within the page, the places are joined. -/
theorem OnPage.joined (positive : 0 < n)
    (inside : addr % pageSize + done + n < (k + 1) * pageSize) : Joined t addr (done + n) := by
  rw [Joined, Nat.add_sub_assoc positive, onPage.straight n inside,
    onPage.straight (n - 1) (by omega)]
  omega

/-- At the end of the page, they are when the next page lies behind. -/
theorem OnPage.joined_iff (positive : 0 < n)
    (atEnd : addr % pageSize + done + n = (k + 1) * pageSize) :
    Joined t addr (done + n) ↔ x.addr + n = t.page addr (k + 1) + addr % pageSize := by
  have next : t.visited addr (done + n) = t.page addr (k + 1) + addr % pageSize + 0 :=
    visited_later (by rw [Nat.add_zero, ← Nat.add_assoc]; exact atEnd) (by decide)
  rw [Joined, Nat.add_sub_assoc positive, next, onPage.straight (n - 1) (by omega)]
  omega

/-- The state of the traversal behind a page. -/
theorem OnPage.continueIf_ok {atEnd : Prop} [Decidable atEnd] {place : Nat}
    (aligned : t.page addr (k + 1) % pageSize = 0) (holds : atEnd)
    (result : continueIf atEnd t x place = .ok (y, updated)) :
    t.Mapped (addr + (k + 1) * pageSize) ∧
      y = { x with
        context := contextAt (addr + (k + 1 + 1) * pageSize)
        nextEntry := ⟨t.page addr (k + 1) + addr % pageSize, pageSize⟩ } ∧
      updated = decide (place ≠ t.page addr (k + 1) + addr % pageSize) := by
  rw [continueIf, if_pos holds, onPage.context, continueTraversal_contextAt] at result
  dsimp only at result
  by_cases mapped : t.Mapped (addr + (k + 1) * pageSize)
  · rw [decide_eq_true mapped, if_pos rfl, if_pos mapped, translate_page aligned] at result
    have further : addr + (k + 1) * pageSize + pageSize = addr + (k + 1 + 1) * pageSize := by
      rw [Nat.succ_mul (k + 1), Nat.add_assoc]
    rw [further] at result
    cases result
    exact ⟨mapped, rfl, rfl⟩
  · rw [decide_eq_false mapped] at result
    cases result

end

theorem continueIf_addr {atEnd : Prop} [Decidable atEnd] {place : Nat}
    (result : continueIf atEnd t x place = .ok (y, updated)) : y.addr = x.addr := by
  rw [continueIf] at result
  split at result
  · dsimp only at result
    split at result
    · cases result
      rfl
    · cases result
  · cases result
    rfl

theorem OnPage.continueIf_mapped (onPage : OnPage t addr done k x) (atEnd : Prop) [Decidable atEnd]
    (place : Nat) (mapped : atEnd → t.Mapped (addr + (k + 1) * pageSize)) :
    ∃ r, continueIf atEnd t x place = .ok r := by
  rw [continueIf]
  split
  · next holds =>
    rw [onPage.context, continueTraversal_contextAt]
    dsimp only
    rw [if_pos (decide_eq_true (mapped holds))]
    exact ⟨_, rfl⟩
  · exact ⟨_, rfl⟩

theorem OnPage.resize (onPage : OnPage t addr done k x) : OnPage t addr done k x.resize := by
  have same : x.resize = x := by
    rw [HeapSide.resize, onPage.blockSize]
  rwa [same]

/-- A copy that stays on the page. -/
theorem OnPage.advance (onPage : OnPage t addr done k x)
    (inside : addr % pageSize + done + n < (k + 1) * pageSize) :
    OnPage t addr (done + n) k (x.advance false n).resize where
  context := onPage.context
  physAddr := rfl
  blockSize := rfl
  block := onPage.physAddr.trans onPage.block
  size := onPage.blockSize.trans onPage.size
  before := by omega
  stop := by
    have stop := onPage.stop
    have := onPage.physAddr
    have := onPage.blockSize
    simp only [HeapSide.advance, HeapSide.resize, Bool.false_eq_true, if_false]
    omega
  straight j below := by
    simp only [HeapSide.advance, HeapSide.resize, Bool.false_eq_true, if_false]
    rw [Nat.add_assoc, onPage.straight (n + j) (by omega), Nat.add_assoc]

/-- The traversal on the next page, at its start or, if it lies behind the page before, some way
before it. -/
theorem OnPage.next {x : HeapSide}
    (context : x.context = contextAt (addr + (k + 1 + 1) * pageSize))
    (entry : x.nextEntry = ⟨t.page addr (k + 1) + addr % pageSize, pageSize⟩)
    (block : x.blockAddr = t.page addr (k + 1) + addr % pageSize)
    (start_add : addr % pageSize + done + n = (k + 1) * pageSize)
    (behind : x.addr + n = t.page addr (k + 1) + addr % pageSize)
    (straight : ∀ j < n, t.visited addr (done + j) = x.addr + j) :
    OnPage t addr done (k + 1) x.resize where
  context := context
  physAddr := by rw [HeapSide.resize, entry, block]
  blockSize := rfl
  block := block
  size := by rw [HeapSide.resize, entry, if_neg (Nat.succ_ne_zero k)]
  before := by
    rw [Nat.succ_mul (k + 1), ← start_add, pageSize_eq]
    omega
  stop := by
    simp only [HeapSide.resize]
    rw [entry, block, Nat.succ_mul (k + 1), ← start_add]
    dsimp only
    omega
  straight j below := by
    simp only [HeapSide.resize]
    rcases Nat.lt_or_ge j n with early | late
    · exact straight j early
    · have place : t.visited addr (done + j) = t.page addr (k + 1) + addr % pageSize + (j - n) :=
        visited_later (by omega) (by rw [Nat.succ_mul (k + 1)] at below; omega)
      rw [place]
      omega

/-- A range is still on its page, or has gone on to the next one, which is mapped. -/
def Passes (t : PageTable) (addr ofs k k' : Nat) : Prop :=
  k' = k ∧ addr % pageSize + ofs < (k + 1) * pageSize ∨
    k' = k + 1 ∧ addr % pageSize + ofs = (k + 1) * pageSize ∧ t.Mapped (addr + (k + 1) * pageSize)

/-- One of the ranges in a round that copies: it finds out if the next place is joined, and goes
on. -/
theorem OnPage.pass (onPage : OnPage t addr done k x) (positive : 0 < n)
    (fits : addr % pageSize + done + n ≤ (k + 1) * pageSize)
    (aligned : addr % pageSize + done + n = (k + 1) * pageSize → t.page addr (k + 1) % pageSize = 0)
    (result : continueIf (x.addr + n = x.blockAddr + x.size) t x (x.addr + n) = .ok (y, updated)) :
    ∃ k', Passes t addr (done + n) k k' ∧ OnPage t addr (done + n) k' (y.advance updated n).resize ∧
      (updated = false ↔ Joined t addr (done + n)) := by
  rcases Nat.lt_or_eq_of_le fits with inside | atEnd
  · have apart : ¬ x.addr + n = x.blockAddr + x.size := fun same =>
      absurd (onPage.atEnd_iff.mp same) inside.ne
    rw [continueIf, if_neg apart] at result
    cases result
    exact ⟨k, .inl ⟨rfl, by rwa [← Nat.add_assoc]⟩, onPage.advance inside,
      iff_of_true rfl (onPage.joined positive inside)⟩
  · have joined := onPage.joined_iff positive atEnd
    obtain ⟨mapped, rfl, rfl⟩ :=
      onPage.continueIf_ok (aligned atEnd) (onPage.atEnd_iff.mpr atEnd) result
    refine ⟨k + 1, .inr ⟨rfl, by rwa [← Nat.add_assoc], mapped⟩, ?_, ?_⟩
    · refine OnPage.next (n := 0) rfl rfl rfl (by rw [← Nat.add_assoc]; exact atEnd) ?_
        fun j below => absurd below (Nat.not_lt_zero j)
      rw [Nat.add_zero, HeapSide.advance]
      dsimp only
      split
      · rfl
      · next same =>
        rw [decide_eq_true_iff, not_not] at same
        exact same
    · rw [joined, decide_eq_false_iff_not, not_not]

end Side

/-! ## One round -/

section Round

variable {p dstPageTable : KPageTableBase} {srcAddr dstAddr size done k l : Nat} {s s' : HeapCursor}

/-- The state of the loop before a round. -/
structure AtRound (p dstPageTable : KPageTableBase) (srcAddr dstAddr size done k l : Nat)
    (s : HeapCursor) : Prop where
  src : OnPage p.impl srcAddr done k s.src
  dst : OnPage dstPageTable.impl dstAddr done l s.dst
  ofs : s.ofs = done
  minSize : s.curMinSize = min s.src.rest s.dst.rest
  below : done < size

/-- A state that a round leaves as it is. -/
structure Stuck (size : Nat) (s : HeapCursor) : Prop where
  more : s.ofs + s.curMinSize < size
  src : s.src.addr + s.curMinSize ≠ s.src.blockAddr + s.src.size
  dst : s.dst.addr + s.curMinSize ≠ s.dst.nextEntry.physAddr + s.dst.nextEntry.blockSize
  stable : updateMinSize { s with src := { s.src with blockAddr := s.src.nextEntry.physAddr } } = s

/-- Both ranges go on directly behind a place. -/
def BothJoined (p dstPageTable : KPageTableBase) (srcAddr dstAddr i : Nat) : Prop :=
  Joined p.impl srcAddr i ∧ Joined dstPageTable.impl dstAddr i

/-- The memory after a part of the range has been copied. -/
def copiedPart (s : HeapCursor) (count : Nat) : Nat → UInt8 :=
  writeBlock s.memory s.dst.addr count fun j => s.memory (s.src.addr + j)

/-- What a round can do: copy the last part, copy a part up to the end of a page, let the run of the
source grow by a page, or get stuck at the end of a page of the destination. -/
inductive Round (p dstPageTable : KPageTableBase) (srcAddr dstAddr size done k l : Nat)
    (s s' : HeapCursor) : Prop
  | last (enough : size ≤ done + s.curMinSize) (ofs : s'.ofs = size)
    (memory : s'.memory = copiedPart s (size - done))
  | copied (k' l' : Nat) (more : done + s.curMinSize < size)
    (next : AtRound p dstPageTable srcAddr dstAddr size (done + s.curMinSize) k' l' s')
    (src : Passes p.impl srcAddr (done + s.curMinSize) k k')
    (dst : Passes dstPageTable.impl dstAddr (done + s.curMinSize) l l')
    (apart : ¬ BothJoined p dstPageTable srcAddr dstAddr (done + s.curMinSize))
    (memory : s'.memory = copiedPart s s.curMinSize)
  | grown (next : AtRound p dstPageTable srcAddr dstAddr size done (k + 1) l s')
    (touched : Touches srcAddr size (k + 1)) (mapped : p.impl.Mapped (srcAddr + (k + 1) * pageSize))
    (memory : s'.memory = s.memory)
  | stuck (more : done + s.curMinSize < size) (stuck : Stuck size s')
    (border : dstAddr % pageSize + (done + s.curMinSize) = (l + 1) * pageSize)
    (joined : BothJoined p dstPageTable srcAddr dstAddr (done + s.curMinSize))

theorem AtRound.minSize_pos (atRound : AtRound p dstPageTable srcAddr dstAddr size done k l s) :
    0 < s.curMinSize := by
  have := atRound.src.rest
  have := atRound.src.before
  have := atRound.dst.rest
  have := atRound.dst.before
  rw [atRound.minSize]
  omega

theorem copyHeapBlock_eq_ok {copySize : Nat} {updatedSrc updatedDst : Bool}
    (result : copyHeapBlock p copySize updatedSrc updatedDst s = .ok s') :
    s' = { s with
      src := s.src.advance updatedSrc copySize
      dst := s.dst.advance updatedDst copySize
      ofs := s.ofs + copySize
      memory := copiedPart s copySize } := by
  rw [copyHeapBlock] at result
  split at result
  · cases result
    rfl
  · cases result

/-- Where the destination goes on directly behind the end of a page, the round is stuck if it has
not copied: the block address of the destination remains that of the page before. -/
theorem AtRound.stuck (atRound : AtRound p dstPageTable srcAddr dstAddr size done k l s)
    {good : Nat → Bool} (mapsDst : dstPageTable.impl.MapsTo good dstAddr size) {x y : HeapSide}
    (more : done + s.curMinSize < size)
    (border : dstAddr % pageSize + done + s.curMinSize = (l + 1) * pageSize)
    (dst : y = { s.dst with
      context := contextAt (dstAddr + (l + 1 + 1) * pageSize)
      nextEntry := ⟨dstPageTable.impl.page dstAddr (l + 1) + dstAddr % pageSize, pageSize⟩ })
    (behind : s.dst.addr + s.curMinSize =
    dstPageTable.impl.page dstAddr (l + 1) + dstAddr % pageSize)
    (src : s.src.addr + s.curMinSize < x.nextEntry.physAddr + x.nextEntry.blockSize)
    (srcAddr : x.addr = s.src.addr) :
    Stuck size (updateMinSize
      { s with src := { x with blockAddr := x.nextEntry.physAddr }, dst := y }) := by
  have stop := atRound.dst.stop
  have block := atRound.dst.block
  have sized := atRound.dst.size
  have touched : Touches dstAddr size (l + 1) := by
    rw [Touches, ← border]
    omega
  -- the page that ends has its full size, as the offset of the range would show at its end
  have whole : s.dst.size = pageSize := by
    rw [sized]
    split
    · next zero =>
      subst zero
      have first := mapsDst.aligned 0 (by rw [Touches, Nat.zero_mul]; omega)
      have second := mapsDst.aligned (0 + 1) touched
      rw [if_pos rfl] at sized
      rw [pageSize_eq] at *
      omega
    · rfl
  subst dst
  have minSize : min (x.nextEntry.physAddr + x.nextEntry.blockSize - x.addr)
      (s.dst.blockAddr + pageSize - s.dst.addr) = s.curMinSize := by
    rw [srcAddr]
    omega
  refine ⟨?_, ?_, ?_, rfl⟩
  · rw [← atRound.ofs] at more
    exact (congrArg (s.ofs + ·) minSize).trans_lt more
  · refine ne_of_lt ((congrArg (x.addr + ·) minSize).trans_lt ?_)
    rw [srcAddr]
    exact src
  · refine ne_of_lt ((congrArg (s.dst.addr + ·) minSize).trans_lt ?_)
    dsimp only [updateMinSize, HeapSide.resize]
    rw [behind]
    exact Nat.lt_add_of_pos_right (by decide)

end Round

end SumiEmu.Kernel.KPageTableBase
