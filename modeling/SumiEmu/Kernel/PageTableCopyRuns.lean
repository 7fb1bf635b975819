/-
# What the linear copies transfer

A run that a copy has gathered consists of the places that the traversal has visited, in order. So a
copy transfers the bytes of a range from or to the places that the traversal visits. These are the
translations of the range exactly when it starts at a page border or lies in one page: a traversal
that starts in the middle of a page visits the middle of each further page.

To the linear memory such a copy misses the start of some page altogether: of all pages but the
first one, that with the lowest physical address is not written before its middle.
-/

import Mathlib.Order.WellFounded
import SumiEmu.Kernel.PageTableCopy

namespace SumiEmu.Kernel.KPageTableBase

open Common Common.PageTable Fallible Scatter Nat

variable {p : KPageTableBase} {addr size pointer : Nat}

/-- The places of a part of the range are visited one directly behind the other, from an address
on. -/
def Straight (t : PageTable) (addr done count start : Nat) : Prop :=
  ∀ j < count, t.visited addr (done + j) = start + j

/-! ## One run -/

/-- A transfer of any part of the range that is visited in order brings an invariant forward. -/
def Advances (t : PageTable) (addr size pointer : Nat) (Inv : CopyMemory → Nat → Prop)
    (transfer : CopyMemory → Nat → Nat → Nat → CopyMemory) : Prop :=
  ∀ m done count start, Inv m done → done + count ≤ size → Straight t addr done count start →
    Inv (transfer m (pointer + done) start count) (done + count)

/-- What `PerformCopy` is to do: it completes, ends with its variables behind the run, and brings an
invariant forward. -/
def Performs (p : KPageTableBase) (addr size pointer : Nat) (Inv : CopyMemory → Nat → Prop)
    (performCopy : Cursor → Except Fault Cursor) : Prop :=
  ∀ m done count start, Inv m done → done + count ≤ size → Straight p.impl addr done count start →
    p.isLinearMappedPhysicalAddress start = true →
    ∃ c, performCopy ⟨m, pointer + done, start, count⟩ = .ok c ∧
      c.pointer + c.curSize = pointer + (done + count) ∧ Inv c.memory (done + count)

variable {Inv : CopyMemory → Nat → Prop} {transfer : CopyMemory → Nat → Nat → Nat → CopyMemory}

theorem performKernelCopy_performs (advances : Advances p.impl addr size pointer Inv transfer) :
    p.Performs addr size pointer Inv (p.performKernelCopy transfer) := by
  intro m done count start inv within straight linear
  refine ⟨⟨transfer m (pointer + done) start count, pointer + done, start, count⟩, ?_,
    add_assoc .., advances m done count start inv within straight⟩
  rw [performKernelCopy, linear]
  rfl

/-- The part of `PerformCopy` for a user that copies what is left. -/
theorem copyRest_performs {access : Nat → Nat → Bool}
    (accessible : ∀ a n, pointer ≤ a → a + n ≤ pointer + size → access a n = true)
    (advances : Advances p.impl addr size pointer Inv transfer) {m : CopyMemory}
    {done count start : Nat}
    (inv : Inv m done) (within : done + count ≤ size)
    (straight : Straight p.impl addr done count start) : ∃ c : Cursor, (if count > 0 then
        if access (pointer + done) count then
          (return ⟨transfer m (pointer + done) start count, pointer + done, start, count⟩ :
            Except Fault Cursor)
        else throw .invalidCurrentMemory
      else return ⟨m, pointer + done, start, count⟩) = .ok c ∧
      c.pointer + c.curSize = pointer + (done + count) ∧ Inv c.memory (done + count) := by
  split
  · rw [if_pos (accessible _ _ (Nat.le_add_right ..) (by omega))]
    exact ⟨_, rfl, Nat.add_assoc .., advances m done count start inv within straight⟩
  · next empty =>
    obtain rfl : count = 0 := by omega
    exact ⟨_, rfl, Nat.add_assoc .., inv⟩

theorem performUserCopy_performs {access : Nat → Nat → Bool}
    (accessible : ∀ a n, pointer ≤ a → a + n ≤ pointer + size → access a n = true)
    (advances : Advances p.impl addr size pointer Inv transfer) :
    p.Performs addr size pointer Inv (p.performUserCopy access transfer) := by
  intro m done count start inv within straight linear
  rw [performUserCopy, linear]
  dsimp only
  by_cases words : count ≥ 4
  · -- the whole words first, and then the rest
    have part := alignDown_le count 4
    have first := advances m done (alignDown count 4) start inv (by omega)
      fun j below => straight j (by omega)
    have later : Straight p.impl addr (done + alignDown count 4) (count - alignDown count 4)
        (start + alignDown count 4) := fun j below => by
      rw [Nat.add_assoc, straight _ (by omega), Nat.add_assoc]
    have last := copyRest_performs accessible advances first (by omega) later
    rw [Nat.add_assoc done, Nat.add_sub_cancel' part, ← Nat.add_assoc pointer] at last
    rw [if_pos words, if_pos (accessible _ _ (Nat.le_add_right ..) (by omega))]
    exact last
  · rw [if_neg words]
    exact copyRest_performs accessible advances inv within straight

/-! ## The traversal -/

/-- The context that a traversal has when it comes to an address. -/
def contextAt (address : Nat) : PageTable.TraversalContext := ⟨address / pageSize, address⟩

theorem continueTraversal_contextAt (t : PageTable) (address : Nat) :
    t.continueTraversal (contextAt address) = (decide (t.Mapped address),
      ⟨if t.Mapped address then t.translate address else 0, pageSize⟩,
      contextAt (address + pageSize)) :=
  t.beginTraversal_eq address

/-- The state of the loop when it has come to a page, and its run started at some place. -/
structure AtPage (p : KPageTableBase) (addr size pointer : Nat) (Inv : CopyMemory → Nat → Prop)
    (totSize done : Nat) (c : Cursor) : Prop where
  pointer : c.pointer = pointer + done
  stop : done + c.curSize = totSize
  before : done < size
  proper : done < totSize
  straight : Straight p.impl addr done c.curSize c.curAddr
  linear : p.isLinearMappedPhysicalAddress c.curAddr = true
  inv : Inv c.memory done

variable {performCopy : Cursor → Except Fault Cursor}

/-- The next page is added to the run or starts a new one. -/
theorem AtPage.next {totSize done k : Nat} {c : Cursor}
    (performs : p.Performs addr size pointer Inv performCopy)
    (maps : p.impl.MapsTo p.isLinearMappedPhysicalAddress addr size)
    (atPage : p.AtPage addr size pointer Inv totSize done c) (more : totSize < size)
    (number : addr % pageSize + totSize = (k + 1) * pageSize) :
    ∃ done' c', gatherPage performCopy ⟨p.impl.page addr (k + 1) + addr % pageSize, pageSize⟩ c =
      .ok c' ∧ p.AtPage addr size pointer Inv (totSize + pageSize) done' c' := by
  have stop := atPage.stop
  have visits : ∀ j < pageSize,
      p.impl.visited addr (totSize + j) = p.impl.page addr (k + 1) + addr % pageSize + j :=
    fun j below => visited_later (by rw [← number, Nat.add_assoc]) below
  rw [gatherPage]
  split
  · obtain ⟨c', performed, pointer', inv'⟩ := performs c.memory done c.curSize c.curAddr atPage.inv
      (by omega) atPage.straight atPage.linear
    rw [← atPage.pointer] at performed
    refine ⟨totSize, ⟨c'.memory, c'.pointer + c'.curSize, _, pageSize⟩, ?_, ?_, rfl, more,
      Nat.lt_add_of_pos_right (by decide), visits, ?_, ?_⟩
    · rw [performed]
      rfl
    · rw [pointer', stop]
    · have touched : Touches addr size (k + 1) := by
        rw [Touches, ← number]
        omega
      exact maps.backed _ touched _ (Nat.mod_lt _ (by decide))
    · exact stop ▸ inv'
  · next behind =>
    rw [not_not] at behind
    dsimp only at behind
    refine ⟨done, _, rfl, atPage.pointer, ?_, atPage.before, ?_, fun j below => ?_, atPage.linear,
      atPage.inv⟩
    · rw [← stop, Nat.add_assoc]
    · exact atPage.proper.trans_le (Nat.le_add_right ..)
    · rcases Nat.lt_or_ge j c.curSize with early | late
      · exact atPage.straight j early
      · have := visits (j - c.curSize) (by dsimp only at below; omega)
        have place : totSize + (j - c.curSize) = done + j := by omega
        rw [place, behind] at this
        dsimp only
        omega

/-- The loop gathers all of the range. -/
theorem copyRuns_spec {totSize done k : Nat} {c : Cursor}
    (performs : p.Performs addr size pointer Inv performCopy)
    (maps : p.impl.MapsTo p.isLinearMappedPhysicalAddress addr size)
    (elsewhere : p.impl.NowhereIdentity addr size)
    (atPage : p.AtPage addr size pointer Inv totSize done c)
    (number : addr % pageSize + totSize = (k + 1) * pageSize) :
    ∃ totSize' done' c', copyRuns p.impl performCopy size (contextAt (addr + (k + 1) * pageSize))
      totSize c = .ok (c', totSize') ∧ size ≤ totSize' ∧
      p.AtPage addr size pointer Inv totSize' done' c' := by
  rw [copyRuns]
  split
  · next more =>
    have touched : Touches addr size (k + 1) := by
      rw [Touches, ← number]
      omega
    have mapped := (mapped_iff maps touched).mpr (elsewhere _ touched)
    rw [continueTraversal_contextAt, decide_eq_true mapped, if_pos mapped,
      translate_page (maps.aligned _ touched)]
    obtain ⟨done', c', step, next⟩ := atPage.next performs maps more number
    dsimp only
    rw [if_pos rfl, step, ok_bind]
    have number' : addr % pageSize + (totSize + pageSize) = (k + 1 + 1) * pageSize := by
      rw [succ_mul (k + 1), ← number, add_assoc]
    have place : addr + (k + 1) * pageSize + pageSize = addr + (k + 1 + 1) * pageSize := by
      rw [succ_mul (k + 1), add_assoc]
    rw [place]
    exact copyRuns_spec performs maps elsewhere next number'
  · next enough => exact ⟨totSize, done, c, rfl, Nat.le_of_not_lt enough, atPage⟩
termination_by size - totSize
decreasing_by
  rw [pageSize_eq]
  omega

/-- A loop that completes has found every page of the range in the table. -/
theorem mapped_of_copyRuns {totSize k : Nat} {c : Cursor}
    {r : Cursor × Nat} {context : PageTable.TraversalContext}
    (number : addr % pageSize + totSize = (k + 1) * pageSize)
    (here : context = contextAt (addr + (k + 1) * pageSize))
    (done : copyRuns p.impl performCopy size context totSize c = .ok r)
    {k' : Nat} (later : k < k') (touched : Touches addr size k') :
    p.impl.Mapped (addr + k' * pageSize) := by
  have more : totSize < size := by
    have : (k + 1) * pageSize ≤ k' * pageSize := mul_le_mul_right pageSize later
    rw [Touches] at touched
    omega
  subst here
  rw [copyRuns, if_pos more, continueTraversal_contextAt] at done
  dsimp only at done
  by_cases mapped : p.impl.Mapped (addr + (k + 1) * pageSize)
  · rw [if_pos (decide_eq_true mapped)] at done
    obtain ⟨c', -, rest⟩ := bind_eq_ok.mp done
    rcases Nat.lt_or_eq_of_le later with further | rfl
    · have number' : addr % pageSize + (totSize + pageSize) = (k + 1 + 1) * pageSize := by
        rw [succ_mul (k + 1), ← number, add_assoc]
      have place : addr + (k + 1) * pageSize + pageSize = addr + (k + 1 + 1) * pageSize := by
        rw [succ_mul (k + 1), add_assoc]
      exact mapped_of_copyRuns number' (congrArg contextAt place) rest further touched
    · exact mapped
  · rw [decide_eq_false mapped] at done
    cases done
termination_by size - totSize
decreasing_by
  rw [pageSize_eq]
  omega

theorem size_pos (contains : p.Contains addr size) : 0 < size := by
  obtain ⟨-, proper, -⟩ := contains
  by_contra empty
  obtain rfl : size = 0 := by omega
  exact absurd (proper.trans_le (mod_le ..)) (lt_irrefl addr)

theorem and_pageSize_sub_one (n : Nat) : n &&& (pageSize - 1) = n % pageSize :=
  and_two_pow_sub_one_eq_mod n 12

/-- The last run is cut to what is left of the size. -/
theorem AtPage.cut {totSize done : Nat} {c : Cursor}
    (atPage : p.AtPage addr size pointer Inv totSize done c)
    (enough : size ≤ totSize) :
    (if totSize > size then { c with curSize := c.curSize - (totSize - size) } else c) =
      ⟨c.memory, pointer + done, c.curAddr, size - done⟩ := by
  have stop := atPage.stop
  have before := atPage.before
  rw [← atPage.pointer]
  split
  · have rest : c.curSize - (totSize - size) = size - done := by omega
    rw [rest]
  · have rest : c.curSize = size - done := by omega
    rw [← rest]

/-- The four copies, by an invariant that every run brings forward. -/
theorem copyLinear_spec (contains : p.Contains addr size)
    (checked : p.checkMemoryStateContiguous addr size = .ok ())
    (performs : p.Performs addr size pointer Inv performCopy)
    (maps : p.impl.MapsTo p.isLinearMappedPhysicalAddress addr size)
    (elsewhere : p.impl.NowhereIdentity addr size) {m : CopyMemory} (inv : Inv m 0) :
    ∃ m', p.copyLinear performCopy addr size pointer m = .ok m' ∧ Inv m' size := by
  have positive := size_pos contains
  have touched : Touches addr size 0 := by
    rw [Touches]
    omega
  have mapped := (mapped_iff maps touched).mpr (elsewhere 0 touched)
  have first := translate_page (maps.aligned 0 touched)
  rw [Nat.zero_mul, Nat.add_zero] at mapped first
  have offset := mod_lt addr (by decide : 0 < pageSize)
  have mask : (p.impl.page addr 0 + addr % pageSize) % pageSize = addr % pageSize := by
    rw [add_mod, maps.aligned 0 touched, zero_add, mod_mod, mod_mod]
  have atPage : p.AtPage addr size pointer Inv (pageSize - addr % pageSize) 0
      ⟨m, pointer, p.impl.page addr 0 + addr % pageSize, pageSize - addr % pageSize⟩ := by
    refine ⟨rfl, Nat.zero_add _, positive, Nat.sub_pos_of_lt offset, fun j below => ?_,
      maps.backed 0 touched _ offset, inv⟩
    dsimp only at below
    rw [zero_add, visited_first (by omega)]
  obtain ⟨totSize, done, c, gathered, enough, last⟩ :=
    copyRuns_spec (k := 0) performs maps elsewhere atPage
    (by rw [Nat.add_sub_cancel' offset.le, Nat.zero_add, Nat.one_mul])
  have stop := last.stop
  have before := last.before
  obtain ⟨c', performed, -, done'⟩ :=
    performs c.memory done (size - done) c.curAddr last.inv (by omega)
    (fun j below => last.straight j (by omega)) last.linear
  rw [Nat.add_sub_cancel' before.le] at done'
  refine ⟨c'.memory, ?_, done'⟩
  rw [copyLinear, if_pos contains, checked, ok_bind, beginTraversal_eq, decide_eq_true mapped,
    if_pos mapped, first]
  dsimp only
  rw [if_pos rfl, copyFrom]
  dsimp only
  rw [and_pageSize_sub_one, mask]
  rw [zero_add, one_mul, contextAt] at gathered
  rw [gathered, ok_bind]
  dsimp only
  rw [last.cut enough, performed]
  rfl

/-- A copy that completes has found every page of the range in the table. -/
theorem mapped_of_copyLinear {m m' : CopyMemory}
    (copied : p.copyLinear performCopy addr size pointer m = .ok m')
    (contains : p.Contains addr size)
    (checked : p.checkMemoryStateContiguous addr size = .ok ())
    (maps : p.impl.MapsTo p.isLinearMappedPhysicalAddress addr size) :
    p.impl.NowhereIdentity addr size := by
  have touched : Touches addr size 0 := by
    have := size_pos contains
    rw [Touches]
    omega
  have offset := Nat.mod_lt addr (by decide : 0 < pageSize)
  have mask : (p.impl.page addr 0 + addr % pageSize) % pageSize = addr % pageSize := by
    rw [Nat.add_mod, maps.aligned 0 touched, Nat.zero_add, Nat.mod_mod, Nat.mod_mod]
  rw [copyLinear, if_pos contains, checked, ok_bind, beginTraversal_eq] at copied
  dsimp only at copied
  by_cases mapped : p.impl.Mapped addr
  · have first := translate_page (maps.aligned 0 touched)
    rw [Nat.zero_mul, Nat.add_zero] at first
    rw [decide_eq_true mapped, if_pos mapped, if_pos rfl, first, copyFrom] at copied
    dsimp only at copied
    rw [and_pageSize_sub_one, mask] at copied
    intro k inRange
    refine (mapped_iff maps inRange).mp ?_
    rcases Nat.eq_zero_or_pos k with rfl | later
    · rwa [Nat.zero_mul, Nat.add_zero]
    · obtain ⟨r, gathered, -⟩ := bind_eq_ok.mp copied
      have number : addr % pageSize + (pageSize - addr % pageSize) = (0 + 1) * pageSize := by
        rw [Nat.add_sub_cancel' offset.le, Nat.zero_add, Nat.one_mul]
      refine mapped_of_copyRuns number ?_ gathered later inRange
      rw [Nat.zero_add, Nat.one_mul]
      rfl
  · rw [decide_eq_false mapped] at copied
    cases copied

end SumiEmu.Kernel.KPageTableBase

/-!
## When the linear copies follow the page table

A copy into the buffer receives the bytes of the range, and a copy to linear memory stores them, on
every memory, exactly when the range starts at a page border or lies in one page, and no page of it
is mapped to its own virtual address. Storing also asks that no physical byte occurs twice in the
range.
-/

namespace SumiEmu.Kernel.KPageTableBase

open Common Common.PageTable Fallible Scatter Nat

variable {p : KPageTableBase} {addr size pointer : Nat}

/-- The bytes of the range are in the buffer, and nothing else has changed. -/
def Received (p : KPageTableBase) (addr size pointer : Nat) (m m' : CopyMemory) : Prop :=
  Delivered m.buffer m'.buffer (fun i => pointer + i)
    (fun i => m.physical (p.impl.translate (addr + i))) size ∧ m'.physical = m.physical

/-- The bytes of the buffer are in the range, and nothing else has changed. -/
def Stored (p : KPageTableBase) (addr size pointer : Nat) (m m' : CopyMemory) : Prop :=
  Delivered m.physical m'.physical (fun i => p.impl.translate (addr + i))
    (fun i => m.buffer (pointer + i)) size ∧ m'.buffer = m.buffer

/-- The range starts at a page border or lies in one page. -/
def Simple (addr size : Nat) : Prop := addr % pageSize = 0 ∨ addr % pageSize + size ≤ pageSize

/-- No two bytes of the range are the same physical byte. -/
def NoAlias (t : PageTable) (addr size : Nat) : Prop :=
  ∀ i < size, ∀ j < size, t.translate (addr + i) = t.translate (addr + j) → i = j

theorem touches_place (addr : Nat) {i : Nat} (below : i < size) :
    Touches addr size ((addr % pageSize + i) / pageSize) := by
  have := div_mul_le_self (addr % pageSize + i) pageSize
  rw [Touches]
  omega

theorem visited_of_simple {good : Nat → Bool} (maps : p.impl.MapsTo good addr size)
    (simple : Simple addr size)
    {i : Nat} (below : i < size) : p.impl.visited addr i = p.impl.translate (addr + i) :=
  visited_eq_translate (maps.aligned _ (touches_place addr below))
    (simple.imp_right fun first => by omega)

/-! ## Receiving -/

theorem toBuffer_advances (m₀ : CopyMemory) : Advances p.impl addr size pointer
    (fun m done => Delivered m₀.buffer m.buffer (fun i => pointer + i)
      (fun i => m₀.physical (p.impl.visited addr i)) done ∧ m.physical = m₀.physical)
      CopyMemory.toBuffer := by
  rintro m done count start ⟨delivered, same⟩ within straight
  have consistent : Consistent (fun i => pointer + i) (fun i => m₀.physical (p.impl.visited addr i))
      size := by
    intro i _ j _ equal
    rw [add_left_cancel equal]
  rw [CopyMemory.toBuffer]
  dsimp only
  refine ⟨delivered.block consistent within (fun j _ => (add_assoc ..).symm) fun j below => ?_,
    same⟩
  rw [straight j below, same]

/-- A copy into a buffer that receives the bytes of the range whatever they are. -/
theorem simple_of_received {performCopy : Cursor → Except Fault Cursor}
    (contains : p.Contains addr size)
    (checked : p.checkMemoryStateContiguous addr size = .ok ())
    (maps : p.impl.MapsTo p.isLinearMappedPhysicalAddress addr size)
    (performs : ∀ m₀ : CopyMemory, p.Performs addr size pointer
      (fun m done => Delivered m₀.buffer m.buffer (fun i => pointer + i)
        (fun i => m₀.physical (p.impl.visited addr i)) done ∧ m.physical = m₀.physical)
        performCopy) :
    (∀ m, ∃ m', p.copyLinear performCopy addr size pointer m = .ok m' ∧
      p.Received addr size pointer m m') ↔ Simple addr size ∧ p.impl.NowhereIdentity addr size := by
  constructor
  · intro receives
    have elsewhere : p.impl.NowhereIdentity addr size := by
      obtain ⟨m', copied, -⟩ := receives ⟨fun _ => 0, fun _ => 0⟩
      exact mapped_of_copyLinear copied contains checked maps
    refine ⟨?_, elsewhere⟩
    by_contra crooked
    obtain ⟨offset, crosses⟩ := not_or.mp crooked
    -- the first byte of the second page is read from the middle of it
    have small := mod_lt addr (by decide : 0 < pageSize)
    have below : pageSize - addr % pageSize < size := by omega
    have border := Nat.add_sub_cancel' small.le
    have touched := touches_place addr below
    rw [border, Nat.div_self (by decide)] at touched
    have right : p.impl.translate (addr + (pageSize - addr % pageSize)) = p.impl.page addr 1 := by
      rw [translate_eq, border, Nat.div_self (by decide), Nat.mod_self, Nat.add_zero]
      rw [border, Nat.div_self (by decide)]
      exact maps.aligned 1 touched
    have wrong : p.impl.visited addr (pageSize - addr % pageSize) =
      p.impl.page addr 1 + addr % pageSize :=
      visited_later (k := 0) (j := 0) (by omega) (by decide)
    let m₀ : CopyMemory := ⟨fun q => if q = p.impl.page addr 1 then 1 else 0, fun _ => 0⟩
    obtain ⟨m₁, copied, received⟩ := receives m₀
    obtain ⟨m₂, copied', delivered, -⟩ :=
      copyLinear_spec contains checked (performs m₀) maps elsewhere
      ⟨Delivered.nothing .., rfl⟩
    cases copied.symm.trans copied'
    have found := (received.1.written _ below).symm.trans (delivered.written _ below)
    rw [right, wrong] at found
    have some : m₀.physical (p.impl.page addr 1) = 1 := if_pos rfl
    have none : m₀.physical (p.impl.page addr 1 + addr % pageSize) = 0 := if_neg (by omega)
    rw [some, none] at found
    exact absurd found (by decide)
  · rintro ⟨simple, elsewhere⟩ m
    obtain ⟨m', copied, delivered, same⟩ :=
      copyLinear_spec contains checked (performs m) maps elsewhere
      ⟨Delivered.nothing .., rfl⟩
    refine ⟨m', copied, delivered.congr (fun _ _ => rfl) fun i below => ?_, same⟩
    rw [visited_of_simple maps simple below]

/-! ## Storing -/

theorem toPhysical_advances (m₀ : CopyMemory)
    (consistent : Consistent (fun i => p.impl.visited addr i)
    (fun i => m₀.buffer (pointer + i)) size) : Advances p.impl addr size pointer
      (fun m done => Delivered m₀.physical m.physical (fun i => p.impl.visited addr i)
        (fun i => m₀.buffer (pointer + i)) done ∧ m.buffer = m₀.buffer) CopyMemory.toPhysical := by
  rintro m done count start ⟨delivered, same⟩ within straight
  rw [CopyMemory.toPhysical]
  dsimp only
  refine ⟨delivered.block consistent within straight fun j _ => ?_, same⟩
  rw [same, add_assoc]

/-- A place that is not visited is not written. -/
theorem toPhysical_keeps {q : Nat} (missed : ∀ i < size, p.impl.visited addr i ≠ q)
    (value : UInt8) :
    Advances p.impl addr size pointer (fun m _ => m.physical q = value) CopyMemory.toPhysical := by
  intro m done count start kept within straight
  rw [CopyMemory.toPhysical, ← kept]
  dsimp only
  refine writeBlock_of_ne fun j below => ?_
  rw [← straight j below]
  exact missed (done + j) (by omega)

/-- If the range goes on behind the page it starts in the middle of, the start of some page is not
visited. -/
theorem exists_missed {good : Nat → Bool} (maps : p.impl.MapsTo good addr size)
    (offset : addr % pageSize ≠ 0) (crosses : pageSize < addr % pageSize + size) :
    ∃ i < size, ∀ j < size, p.impl.visited addr j ≠ p.impl.translate (addr + i) := by
  have small := Nat.mod_lt addr (by decide : 0 < pageSize)
  -- of the pages behind the first one, take the lowest
  obtain ⟨k, ⟨later, touched⟩, lowest⟩ := WellFounded.has_min (measure (p.impl.page addr)).wf
    {k | 0 < k ∧ Touches addr size k} ⟨1, Nat.one_pos, by rw [Touches, Nat.one_mul]; exact crosses⟩
  have first : pageSize ≤ k * pageSize := Nat.le_mul_of_pos_left pageSize later
  have place : addr % pageSize + (k * pageSize - addr % pageSize) = k * pageSize :=
    Nat.add_sub_cancel' (by omega)
  refine ⟨k * pageSize - addr % pageSize, by rw [Touches] at touched; omega, fun j below same => ?_⟩
  have aligned := maps.aligned k touched
  rw [translate_eq, place, Nat.mul_div_cancel _ (by decide : 0 < pageSize), Nat.mul_mod_left,
    Nat.add_zero] at same
  · have inPage := touches_place addr below
    have pageAligned := maps.aligned _ inPage
    have rest := Nat.mod_lt (addr % pageSize + j) (by decide : 0 < pageSize)
    rw [visited] at same
    rcases Nat.eq_zero_or_pos ((addr % pageSize + j) / pageSize) with zero | positive
    · -- on the first page, only places behind its start are visited
      have whole := Nat.div_add_mod (addr % pageSize + j) pageSize
      rw [zero] at same whole pageAligned
      rw [if_pos rfl] at same
      rw [pageSize_eq] at *
      omega
    · have higher := lowest _ ⟨positive, inPage⟩
      rw [if_neg positive.ne'] at same
      change ¬ p.impl.page addr ((addr % pageSize + j) / pageSize) < p.impl.page addr k at higher
      rw [pageSize_eq] at *
      omega
  · rw [place, Nat.mul_div_cancel _ (by decide)]
    exact aligned

/-- A copy to linear memory that stores the bytes of the buffer whatever they are. -/
theorem simple_of_stored {performCopy : Cursor → Except Fault Cursor}
    (contains : p.Contains addr size)
    (checked : p.checkMemoryStateContiguous addr size = .ok ())
    (maps : p.impl.MapsTo p.isLinearMappedPhysicalAddress addr size)
    (performs : ∀ Inv, Advances p.impl addr size pointer Inv CopyMemory.toPhysical →
      p.Performs addr size pointer Inv performCopy) :
    (∀ m, ∃ m', p.copyLinear performCopy addr size pointer m = .ok m' ∧
      p.Stored addr size pointer m m') ↔
      Simple addr size ∧ p.impl.NowhereIdentity addr size ∧ NoAlias p.impl addr size := by
  constructor
  · intro stores
    have elsewhere : p.impl.NowhereIdentity addr size := by
      obtain ⟨m', copied, -⟩ := stores ⟨fun _ => 0, fun _ => 0⟩
      exact mapped_of_copyLinear copied contains checked maps
    refine ⟨?_, elsewhere, fun i inRange j inRange' same => ?_⟩
    · by_contra crooked
      obtain ⟨offset, crosses⟩ := not_or.mp crooked
      obtain ⟨i, below, missed⟩ := exists_missed maps offset (Nat.lt_of_not_le crosses)
      -- the missed byte keeps its value, although the buffer has another one
      obtain ⟨m₁, copied, stored⟩ := stores ⟨fun _ => 0, fun _ => 1⟩
      obtain ⟨m₂, copied', kept⟩ := copyLinear_spec contains checked
        (performs _ (toPhysical_keeps missed 0)) maps elsewhere
        (show (⟨fun _ => 0, fun _ => 1⟩ : CopyMemory).physical _ = 0 from rfl)
      cases copied.symm.trans copied'
      exact absurd (kept.symm.trans (stored.1.written i below)) (show (0 : UInt8) ≠ 1 by decide)
    · obtain ⟨m', -, stored⟩ := stores ⟨fun _ => 0, fun q => if q = pointer + i then 1 else 0⟩
      have found := (stored.1.written i inRange).symm.trans
        ((congrArg m'.physical same).trans (stored.1.written j inRange'))
      dsimp only at found
      rw [if_pos rfl] at found
      by_contra other
      rw [if_neg (by omega)] at found
      exact absurd found (by decide)
  · rintro ⟨simple, elsewhere, noAlias⟩ m
    have same : ∀ i < size, p.impl.visited addr i = p.impl.translate (addr + i) := fun i below =>
      visited_of_simple maps simple below
    have consistent : Consistent (fun i => p.impl.visited addr i) (fun i => m.buffer (pointer + i))
        size := by
      intro i inRange j inRange' equal
      rw [noAlias i inRange j inRange' (by rw [← same i inRange, ← same j inRange']; exact equal)]
    obtain ⟨m', copied, delivered, kept⟩ := copyLinear_spec contains checked
      (performs _ (toPhysical_advances m consistent)) maps elsewhere ⟨Delivered.nothing .., rfl⟩
    exact ⟨m', copied, delivered.congr same fun _ _ => rfl, kept⟩

/-! ## The four copies -/

/-- A table that maps every page to the one 2 GiB above. -/
def shifted : KPageTableBase where
  impl := ⟨2 ^ 27, fun _ => 0x80000000#64, by decide⟩
  addressSpaceStart := 0
  addressSpaceEnd := 2 ^ 39
  checkMemoryStateContiguous _ _ := .ok ()
  isLinearMappedPhysicalAddress _ := true
  isHeapPhysicalAddress _ := true

theorem page_shifted {addr k : Nat} (below : addr / pageSize + k < 2 ^ 27) :
    shifted.impl.page addr k = 0x80000000 + (addr / pageSize + k) * pageSize := by
  rw [page, PageTable.translate, BitVec.toNat_add, BitVec.toNat_ofNat]
  change (0x80000000 + _ % 2 ^ 64) % 2 ^ 64 = _
  rw [pageSize_eq] at *
  omega

theorem mapsTo_shifted {addr size : Nat} (good : Nat → Bool) (all : ∀ a, good a = true)
    (below : addr + size ≤ 2 ^ 39) : shifted.impl.MapsTo good addr size := by
  have inside : ∀ k, Touches addr size k → addr / pageSize + k < 2 ^ 27 := by
    intro k touched
    rw [Touches] at touched
    rw [pageSize_eq] at *
    omega
  refine ⟨inside, fun k touched => ?_, fun k _ o _ => all _⟩
  rw [page_shifted (inside k touched), pageSize_eq]
  omega

/-- Where the state check succeeds, and the accesses of the process do: the copies to a buffer
receive the bytes of the range, whatever the memory holds, exactly when the range is simple and
nowhere mapped to its own address. The copies from a buffer store the bytes exactly when moreover no
physical byte occurs twice. -/
theorem linearCopies_iff {access : Nat → Nat → Bool} (contains : p.Contains addr size)
    (checked : p.checkMemoryStateContiguous addr size = .ok ())
    (maps : p.impl.MapsTo p.isLinearMappedPhysicalAddress addr size)
    (accessible : ∀ a n, pointer ≤ a → a + n ≤ pointer + size → access a n = true) :
    ((∀ m, ∃ m', p.copyMemoryFromLinearToKernel pointer size addr m = .ok m' ∧
        p.Received addr size pointer m m') ↔
      Simple addr size ∧ p.impl.NowhereIdentity addr size) ∧
    ((∀ m, ∃ m', p.copyMemoryFromLinearToUser access pointer size addr m = .ok m' ∧
        p.Received addr size pointer m m') ↔
      Simple addr size ∧ p.impl.NowhereIdentity addr size) ∧
    ((∀ m, ∃ m', p.copyMemoryFromKernelToLinear addr size pointer m = .ok m' ∧
        p.Stored addr size pointer m m') ↔
      Simple addr size ∧ p.impl.NowhereIdentity addr size ∧ NoAlias p.impl addr size) ∧
    ((∀ m, ∃ m', p.copyMemoryFromUserToLinear access addr size pointer m = .ok m' ∧
        p.Stored addr size pointer m m') ↔
      Simple addr size ∧ p.impl.NowhereIdentity addr size ∧ NoAlias p.impl addr size) :=
  ⟨simple_of_received contains checked maps fun m₀ => performKernelCopy_performs
      (toBuffer_advances m₀), simple_of_received contains checked maps fun m₀ =>
      performUserCopy_performs accessible (toBuffer_advances m₀),
    simple_of_stored contains checked maps fun _ => performKernelCopy_performs,
    simple_of_stored contains checked maps fun _ => performUserCopy_performs accessible⟩

theorem linearCopies_iff_shifted :
    ((∀ m, ∃ m', shifted.copyMemoryFromLinearToKernel 0x100 0x1800 0x2000 m = .ok m' ∧
        shifted.Received 0x2000 0x1800 0x100 m m') ↔
      Simple 0x2000 0x1800 ∧ shifted.impl.NowhereIdentity 0x2000 0x1800) ∧
    ((∀ m, ∃ m', shifted.copyMemoryFromLinearToUser (fun _ _ => true) 0x100 0x1800 0x2000 m =
      .ok m' ∧ shifted.Received 0x2000 0x1800 0x100 m m') ↔
      Simple 0x2000 0x1800 ∧ shifted.impl.NowhereIdentity 0x2000 0x1800) ∧
    ((∀ m, ∃ m', shifted.copyMemoryFromKernelToLinear 0x2000 0x1800 0x100 m = .ok m' ∧
        shifted.Stored 0x2000 0x1800 0x100 m m') ↔
      Simple 0x2000 0x1800 ∧ shifted.impl.NowhereIdentity 0x2000 0x1800 ∧
        NoAlias shifted.impl 0x2000 0x1800) ∧
    ((∀ m, ∃ m', shifted.copyMemoryFromUserToLinear (fun _ _ => true) 0x2000 0x1800 0x100 m =
      .ok m' ∧ shifted.Stored 0x2000 0x1800 0x100 m m') ↔
      Simple 0x2000 0x1800 ∧ shifted.impl.NowhereIdentity 0x2000 0x1800 ∧
        NoAlias shifted.impl 0x2000 0x1800) :=
  linearCopies_iff (by decide) rfl (mapsTo_shifted _ (fun _ => rfl) (by decide)) fun _ _ _ _ => rfl

/-- A copy of one page that starts in the middle of a page does not receive its bytes. -/
theorem not_received_unaligned :
    shifted.Contains 0x2800 0x1000 ∧ shifted.checkMemoryStateContiguous 0x2800 0x1000 = .ok () ∧
      shifted.impl.MapsTo shifted.isLinearMappedPhysicalAddress 0x2800 0x1000 ∧
      ¬ ∀ m, ∃ m', shifted.copyMemoryFromLinearToKernel 0x100 0x1000 0x2800 m = .ok m' ∧
        shifted.Received 0x2800 0x1000 0x100 m m' := by
  have contains : shifted.Contains 0x2800 0x1000 := by decide
  have maps : shifted.impl.MapsTo shifted.isLinearMappedPhysicalAddress 0x2800 0x1000 :=
    mapsTo_shifted _ (fun _ => rfl) (by decide)
  refine ⟨contains, rfl, maps, fun receives => ?_⟩
  have simple := ((simple_of_received contains rfl maps fun m₀ =>
    performKernelCopy_performs (toBuffer_advances m₀)).mp receives).1
  exact absurd simple (by unfold Simple; decide)

end SumiEmu.Kernel.KPageTableBase
