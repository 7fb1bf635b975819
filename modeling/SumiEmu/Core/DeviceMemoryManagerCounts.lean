/-
# Counting cached pages

Each device page has a count, and the process behind a page is told when its count has become one by
an increment or zero by a decrement. The walk over a range of pages collects such pages into runs of
virtual pages and tells a process of a whole run. It keeps the process of the first page to compare
others with, and does not replace it, so that a page of that process behind pages of another one is
taken for one of the other. A page whose virtual page is zero counts as not backed.
-/

import Mathlib.Algebra.Order.Group.Nat
import SumiEmu.Core.DeviceMemoryManager

namespace SumiEmu.Core

open List Nat

/-- A call of `MarkRegionCaching`, on a null pointer maybe. -/
structure Marking (M : Type*) where
  memory : Option M
  vaddr : Nat
  size : Nat
  cached : Bool
  deriving DecidableEq

/-- A run of virtual pages that is not told yet. -/
structure PendingRun where
  start : Nat
  bytes : Nat
  deriving DecidableEq

namespace PendingRun

variable {M : Type*}

def marking (run : PendingRun) (memory : Option M) (cached : Bool) : Marking M :=
  ⟨memory, run.start <<< pageBits, run.bytes, cached⟩

/-- What `release_pending` does with one of the runs. -/
def release (run : PendingRun) (memory : Option M) (cached : Bool) :
    PendingRun × List (Marking M) :=
  if 0 < run.bytes then
    ({ run with bytes := 0 }, if memory.isSome then [run.marking memory cached] else [])
  else (run, [])

/-- What the end of a round does with one of the runs: it grows by the page, or it is told. -/
def note (run : PendingRun) (due : Bool) (vpage : Nat) (memory : Option M) (cached : Bool) :
    PendingRun × List (Marking M) :=
  if due then (⟨if run.bytes = 0 then vpage else run.start, run.bytes + pageSize⟩, [])
  else if 0 < run.bytes then ({ run with bytes := 0 }, [run.marking memory cached])
  else (run, [])

end PendingRun

structure Counting (M : Type*) where
  count : Nat → BitVec 8
  uncache : PendingRun
  cache : PendingRun
  memoryDeviceInter : Option M
  oldVpage : Nat
  calls : List (Marking M)

namespace Counting

variable {M : Type*}

/-- Both pending runs are released. -/
def releasePending (s : Counting M) : Counting M :=
  let (uncache, uncacheCalls) := s.uncache.release s.memoryDeviceInter false
  let (cache, cacheCalls) := s.cache.release s.memoryDeviceInter true
  { s with uncache, cache, calls := s.calls ++ uncacheCalls ++ cacheCalls }

end Counting

namespace DeviceMemoryManager

variable {M : Type*} (manager : DeviceMemoryManager) (registeredProcesses : Nat → Option M)

/-- `ExtractCPUBacking`: the process and the virtual address. -/
def extractCpuBacking (pageIndex : Nat) : Nat × Nat :=
  (manager.cpuBackingAddress pageIndex >>> asidStartBit,
    manager.cpuBackingAddress pageIndex % 2 ^ asidStartBit)

/-- A round of `UpdatePagesCachedCount`; `asid` is the process of the first page. -/
def updatePage (delta : Int) (asid : Nat) (s : Counting M) (page : Nat) : Counting M :=
  let (asid2, vaddress) := manager.extractCpuBacking page
  let vpage := vaddress >>> pageBits
  if vpage = 0 then s.releasePending
  else
    let s := if asid ≠ asid2
      then { s.releasePending with memoryDeviceInter := registeredProcesses asid2 } else s
    let s := if vpage ≠ (s.oldVpage + 1) % 2 ^ 64 then s.releasePending else s
    let value := s.count page + BitVec.ofInt 8 delta
    let (uncache, uncacheCalls) :=
      s.uncache.note (decide (value = 0)) vpage s.memoryDeviceInter false
    let (cache, cacheCalls) :=
      s.cache.note (decide (value = 1 ∧ 0 < delta)) vpage s.memoryDeviceInter true
    { s with
      count := Function.update s.count page value
      uncache
      cache
      oldVpage := vpage
      calls := s.calls ++ uncacheCalls ++ cacheCalls }

/-- The pages of a range, each that it touches. -/
def pagesOf (addr size : Nat) : List Nat :=
  range' (addr >>> pageBits) ((addr + size + (pageSize - 1)) / pageSize - addr >>> pageBits)

/-- `UpdatePagesCachedCount`. -/
def updatePagesCachedCount (count : Nat → BitVec 8) (addr size : Nat) (delta : Int) : Counting M :=
  let (asid, baseVaddress) := manager.extractCpuBacking (addr >>> pageBits)
  let s : Counting M := {
    count
    uncache := ⟨0, 0⟩
    cache := ⟨0, 0⟩
    memoryDeviceInter := registeredProcesses asid
    oldVpage := (baseVaddress >>> pageBits + (2 ^ 64 - 1)) % 2 ^ 64
    calls := [] }
  ((pagesOf addr size).foldl (manager.updatePage registeredProcesses delta asid) s).releasePending

/-! ## What the calls should be -/

/-- The address space of a page. -/
def asidOf (page : Nat) : Nat := (manager.extractCpuBacking page).1

/-- The virtual page of a page. -/
def vpageOf (page : Nat) : Nat := (manager.extractCpuBacking page).2 >>> pageBits

/-- The page has a virtual page. -/
def Backed (page : Nat) : Prop := manager.vpageOf page ≠ 0

instance (page : Nat) : Decidable (manager.Backed page) := inferInstanceAs (Decidable (_ ≠ _))

/-- The count of the page becomes one by an increment, or zero. -/
def Due (count : Nat → BitVec 8) (delta : Int) (page : Nat) : Prop :=
  manager.Backed page ∧ count page + BitVec.ofInt 8 delta = if 0 < delta then 1 else 0

instance (count : Nat → BitVec 8) (delta : Int) (page : Nat) :
    Decidable (manager.Due count delta page) :=
  inferInstanceAs (Decidable (_ ∧ _))

end DeviceMemoryManager

/-- The virtual pages of a call, each with the process that is told and what it is told. -/
def Marking.covers {M : Type*} (marking : Marking M) : List (Option M × Nat × Bool) :=
  (range (marking.size / pageSize)).map fun i =>
    (marking.memory, marking.vaddr / pageSize + i, marking.cached)

namespace DeviceMemoryManager

variable {M : Type*} (manager : DeviceMemoryManager) (registeredProcesses : Nat → Option M)

/-- The counts change by one and do not wrap, and the processes of the pages are registered. -/
structure Admissible (count : Nat → BitVec 8) (addr size : Nat) (delta : Int) : Prop where
  unit : delta = 1 ∨ delta = -1
  noOverflow : delta = 1 → ∀ page ∈ pagesOf addr size, manager.Backed page → count page ≠ 255
  noUnderflow : delta = -1 → ∀ page ∈ pagesOf addr size, manager.Backed page → count page ≠ 0
  registered : ∀ page ∈ pagesOf addr size, manager.Backed page →
    (registeredProcesses (manager.asidOf page)).isSome

/-- The counts of the backed pages of the range have changed and no others, and the calls cover for
each page that is due its virtual page, on the memory of its process. -/
structure NotifiesExactly (count : Nat → BitVec 8) (addr size : Nat) (delta : Int) : Prop where
  counts : ∀ page, (manager.updatePagesCachedCount registeredProcesses count addr size delta).count
    page = if page ∈ pagesOf addr size ∧
    manager.Backed page then count page + BitVec.ofInt 8 delta else count page
  marks : ((manager.updatePagesCachedCount registeredProcesses count addr size delta).calls.flatMap
    Marking.covers).Perm (((pagesOf addr size).filter fun page =>
    decide (manager.Due count delta page)).map fun page =>
      (registeredProcesses (manager.asidOf page), manager.vpageOf page, decide (0 < delta)))

/-- The page is backed and of another process than the first page of the range. -/
def Foreign (addr page : Nat) : Prop :=
  manager.Backed page ∧ manager.asidOf page ≠ manager.asidOf (addr >>> pageBits)

instance (addr page : Nat) : Decidable (manager.Foreign addr page) :=
  inferInstanceAs (Decidable (_ ∧ _))

/-- No page that is due and of the process of the first page has a page of another memory for the
last one of another process before it. -/
def Undisturbed (count : Nat → BitVec 8) (addr size : Nat) (delta : Int) : Prop :=
  ∀ page ∈ pagesOf addr size, ∀ foreign ∈ pagesOf addr size, foreign < page →
    manager.Due count delta page → manager.asidOf page = manager.asidOf (addr >>> pageBits) →
    manager.Foreign addr foreign →
    (∀ between, foreign < between → between < page → ¬ manager.Foreign addr between) →
    registeredProcesses (manager.asidOf foreign) = registeredProcesses (manager.asidOf page)

end DeviceMemoryManager

/-! ## Runs -/

namespace PendingRun

variable {M : Type*} {run : PendingRun} {memory : Option M} {cached : Bool} {vpage : Nat}

/-- The virtual pages of a run. -/
def covers (run : PendingRun) (memory : Option M) (cached : Bool) : List (Option M × Nat × Bool) :=
  (range (run.bytes / pageSize)).map fun i => (memory, run.start + i, cached)

theorem covers_marking : (run.marking memory cached).covers = run.covers memory cached := by
  have start : run.start <<< pageBits / pageSize = run.start := by
    rw [Nat.shiftLeft_eq, pageSize, Nat.mul_div_cancel _ (Nat.two_pow_pos pageBits)]
  rw [Marking.covers, covers, marking, start]

theorem covers_nil (none : run.bytes = 0) : run.covers memory cached = [] := by
  rw [covers, none, Nat.zero_div, range_zero, map_nil]

/-- The run is empty, or it ends with the last virtual page, and there is a process to tell. -/
def Open (run : PendingRun) (memory : Option M) (oldVpage : Nat) : Prop :=
  run.bytes ≠ 0 → memory.isSome ∧ pageSize ∣ run.bytes ∧
    run.start + run.bytes / pageSize = oldVpage + 1

theorem release_bytes : (run.release memory cached).1.bytes = 0 := by
  by_cases some : 0 < run.bytes
  · rw [release, if_pos some]
  · rw [release, if_neg some]
    exact Nat.eq_zero_of_not_pos some

/-- A run that is released is told. -/
theorem release_covers {oldVpage : Nat} (isOpen : run.Open memory oldVpage) :
    (run.release memory cached).2.flatMap Marking.covers = run.covers memory cached := by
  rw [release]
  split_ifs with some there
  · rw [flatMap_singleton, covers_marking]
  · exact absurd (isOpen (ne_of_gt some)).1 there
  · exact (covers_nil (Nat.eq_zero_of_not_pos some)).symm

/-- A run grows by the page that follows. -/
theorem note_due (cached : Bool) (isOpen : run.Open memory (vpage - 1)) (some : 0 < vpage) :
    (run.note true vpage memory cached).2 = [] ∧
      (run.note true vpage memory cached).1.covers memory cached =
      run.covers memory cached ++ [(memory, vpage, cached)] ∧
      (memory.isSome → (run.note true vpage memory cached).1.Open memory vpage) := by
  have page : 0 < pageSize := Nat.two_pow_pos pageBits
  rw [note, if_pos rfl]
  refine ⟨rfl, ?_, fun there _ => ⟨there, ?_, ?_⟩⟩
  · by_cases empty : run.bytes = 0
    · rw [covers_nil empty, covers, if_pos empty, empty, Nat.zero_add, Nat.div_self page]
      rfl
    · obtain ⟨-, whole, last⟩ := isOpen empty
      rw [covers, covers, if_neg empty, add_div_right _ page, range_succ, map_append,
        map_singleton]
      dsimp only
      rw [last, Nat.sub_add_cancel some]
  · dsimp only
    by_cases empty : run.bytes = 0
    · exact ⟨1, by rw [empty, zero_add, mul_one]⟩
    · exact Nat.dvd_add_self_right.mpr (isOpen empty).2.1
  · dsimp only
    by_cases empty : run.bytes = 0
    · rw [if_pos empty, empty, Nat.zero_add, Nat.div_self page]
    · have last := (isOpen empty).2.2
      rw [if_neg empty, add_div_right _ page]
      omega

/-- A run is told when the page is none of it. -/
theorem note_other (run : PendingRun) (vpage : Nat) (memory : Option M) (cached : Bool) :
    (run.note false vpage memory cached).1.bytes = 0 ∧
      (run.note false vpage memory cached).2.flatMap Marking.covers = run.covers memory cached := by
  rw [note, if_neg (by decide)]
  split_ifs with some
  · exact ⟨rfl, by rw [flatMap_singleton, covers_marking]⟩
  · have empty := Nat.eq_zero_of_not_pos some
    exact ⟨empty, (covers_nil empty).symm⟩

theorem note_empty (empty : run.bytes = 0) : run.note false vpage memory cached = (run, []) := by
  rw [note, if_neg (by decide), if_neg (by omega)]

theorem Open.of_empty (empty : run.bytes = 0) {oldVpage : Nat} : run.Open memory oldVpage :=
  fun some => absurd empty some

/-- What a page does to a run: told or pending, its pages are those of before, and the page if
it is due. -/
theorem note_covers {due : Bool} (cached : Bool) (isOpen : run.Open memory (vpage - 1))
    (some : 0 < vpage) (there : due = true → memory.isSome) :
    (run.note due vpage memory cached).2.flatMap Marking.covers ++
        (run.note due vpage memory cached).1.covers memory cached =
      run.covers memory cached ++ (if due then [(memory, vpage, cached)] else []) ∧
      (run.note due vpage memory cached).1.Open memory vpage := by
  cases due with
  | true =>
    obtain ⟨nothing, grows, stays⟩ := note_due cached isOpen some
    rw [nothing, grows]
    exact ⟨rfl, stays (there rfl)⟩
  | false =>
    obtain ⟨none, told⟩ := note_other run vpage memory cached
    rw [told, covers_nil none]
    exact ⟨rfl, .of_empty none⟩

end PendingRun

/-! ## One round -/

namespace Counting

variable {M : Type*} {s s' : Counting M} {memory : Option M} {vpage : Nat}

/-- What is told and what is going to be told. -/
def covered (s : Counting M) : List (Option M × Nat × Bool) :=
  s.calls.flatMap Marking.covers ++ s.uncache.covers s.memoryDeviceInter false ++
    s.cache.covers s.memoryDeviceInter true

/-- Both runs can go on behind a virtual page. -/
def Open (s : Counting M) (oldVpage : Nat) : Prop :=
  s.uncache.Open s.memoryDeviceInter oldVpage ∧ s.cache.Open s.memoryDeviceInter oldVpage

/-- Nothing is pending. -/
def Quiet (s : Counting M) : Prop := s.uncache.bytes = 0 ∧ s.cache.bytes = 0

theorem Quiet.isOpen (quiet : s.Quiet) (oldVpage : Nat) : s.Open oldVpage :=
  ⟨.of_empty quiet.1, .of_empty quiet.2⟩

theorem Quiet.covered (quiet : s.Quiet) : s.covered = s.calls.flatMap Marking.covers := by
  rw [Counting.covered, PendingRun.covers_nil quiet.1, PendingRun.covers_nil quiet.2, append_nil,
    append_nil]

theorem releasePending_quiet : s.releasePending.Quiet :=
  ⟨PendingRun.release_bytes, PendingRun.release_bytes⟩

theorem releasePending_calls {oldVpage : Nat} (isOpen : s.Open oldVpage) :
    s.releasePending.calls.flatMap Marking.covers = s.covered := by
  rw [covered, releasePending]
  dsimp only
  rw [flatMap_append, flatMap_append, PendingRun.release_covers isOpen.1,
    PendingRun.release_covers isOpen.2]

/-- The state before a page is counted: what had to be told has been told. -/
structure Ready (s : Counting M) (memory : Option M) (vpage : Nat) (s' : Counting M) : Prop where
  covered : s'.covered = s.covered
  count : s'.count = s.count
  memory : s'.memoryDeviceInter = memory
  isOpen : s'.Open (vpage - 1)
  uncache : s.uncache.bytes = 0 → s'.uncache.bytes = 0
  cache : s.cache.bytes = 0 → s'.cache.bytes = 0

/-- The runs are told when a page does not go on with them. -/
theorem ready_of_released {oldVpage : Nat} (isOpen : s.Open oldVpage) :
    s.Ready memory vpage { s.releasePending with memoryDeviceInter := memory } := by
  have quiet : ({ s.releasePending with memoryDeviceInter := memory } : Counting M).Quiet :=
    releasePending_quiet
  refine ⟨?_, rfl, rfl, quiet.isOpen _, fun _ => quiet.1, fun _ => quiet.2⟩
  rw [quiet.covered]
  exact releasePending_calls isOpen

theorem Ready.released {oldVpage : Nat} (ready : s.Ready memory vpage s')
    (isOpen : s'.Open oldVpage) : s.Ready memory vpage s'.releasePending where
  covered := by
    rw [releasePending_quiet.covered, releasePending_calls isOpen, ready.covered]
  count := ready.count
  memory := ready.memory
  isOpen := Quiet.isOpen releasePending_quiet _
  uncache _ := releasePending_quiet.1
  cache _ := releasePending_quiet.2

theorem Ready.refl (isOpen : s.Open (vpage - 1)) : s.Ready s.memoryDeviceInter vpage s where
  covered := rfl
  count := rfl
  memory := rfl
  isOpen := isOpen
  uncache := id
  cache := id

/-- The state before a page is counted, for the process of the page. -/
def turn (s : Counting M) (other : Prop) [Decidable other] (memory : Option M) (vpage : Nat) :
    Counting M :=
  let s := if other then { s.releasePending with memoryDeviceInter := memory } else s
  if vpage ≠ (s.oldVpage + 1) % 2 ^ 64 then s.releasePending else s

theorem ready_turn (other : Prop) [Decidable other] (memory : Option M) (vpage : Nat)
    (isOpen : s.Open s.oldVpage)
    (small : ¬ s.Quiet → s.oldVpage + 1 < 2 ^ 64) :
    s.Ready (if other then memory else s.memoryDeviceInter) vpage (s.turn other memory vpage) := by
  rw [turn]
  by_cases changes : other
  · have ready : s.Ready memory vpage { s.releasePending with memoryDeviceInter := memory } :=
      ready_of_released isOpen
    simp only [if_pos changes]
    split_ifs with jumps
    · exact ready.released ready.isOpen
    · exact ready
  · simp only [if_neg changes]
    split_ifs with jumps
    · exact ready_of_released isOpen
    · by_cases quiet : s.Quiet
      · exact Ready.refl (quiet.isOpen _)
      · have next : vpage - 1 = s.oldVpage := by
          rw [not_not.mp jumps, Nat.mod_eq_of_lt (small quiet), Nat.add_sub_cancel]
        exact Ready.refl (next ▸ isOpen)

/-- The end of a round, where a page may be added to one of the runs and the other one is empty. -/
structure Noted (s : Counting M) (due : Bool) (vpage : Nat) (cached : Bool) (s' : Counting M) :
    Prop where
  covered : s'.covered = s.covered ++ if due then [(s.memoryDeviceInter, vpage, cached)] else []
  isOpen : s'.Open vpage
  uncache : cached = true → s'.uncache.bytes = 0
  cache : cached = false → s'.cache.bytes = 0

theorem noted_cache {due : Bool} (count : Nat → BitVec 8) (isOpen : s.Open (vpage - 1))
    (some : 0 < vpage)
    (there : due = true → s.memoryDeviceInter.isSome) (empty : s.uncache.bytes = 0) :
    s.Noted due vpage true { s with
      count
      uncache := (s.uncache.note false vpage s.memoryDeviceInter false).1
      cache := (s.cache.note due vpage s.memoryDeviceInter true).1
      oldVpage := vpage
      calls := s.calls ++ (s.uncache.note false vpage s.memoryDeviceInter false).2 ++
        (s.cache.note due vpage s.memoryDeviceInter true).2 } := by
  simp only [PendingRun.note_empty empty, append_nil]
  obtain ⟨told, opens⟩ := PendingRun.note_covers true isOpen.2 some there
  refine ⟨?_, ⟨.of_empty empty, opens⟩, fun _ => empty, fun absurdity => by cases absurdity⟩
  simp only [covered, PendingRun.covers_nil empty, flatMap_append, append_nil, append_assoc, told]

theorem noted_uncache {due : Bool} (count : Nat → BitVec 8) (isOpen : s.Open (vpage - 1))
    (some : 0 < vpage)
    (there : due = true → s.memoryDeviceInter.isSome) (empty : s.cache.bytes = 0) :
    s.Noted due vpage false { s with
      count
      uncache := (s.uncache.note due vpage s.memoryDeviceInter false).1
      cache := (s.cache.note false vpage s.memoryDeviceInter true).1
      oldVpage := vpage
      calls := s.calls ++ (s.uncache.note due vpage s.memoryDeviceInter false).2 ++
        (s.cache.note false vpage s.memoryDeviceInter true).2 } := by
  simp only [PendingRun.note_empty empty, append_nil]
  obtain ⟨told, opens⟩ := PendingRun.note_covers false isOpen.1 some there
  refine ⟨?_, ⟨opens, .of_empty empty⟩, (fun absurdity => by cases absurdity), fun _ => empty⟩
  simp only [covered, PendingRun.covers_nil empty, flatMap_append, append_nil, append_assoc, told]

end Counting

namespace DeviceMemoryManager

variable {M : Type*} (manager : DeviceMemoryManager) (registeredProcesses : Nat → Option M)
    {s : Counting M}
  {count : Nat → BitVec 8} {addr size page asid n : Nat} {delta : Int}

theorem updatePage_unbacked (unbacked : ¬ manager.Backed page) :
    manager.updatePage registeredProcesses delta asid s page = s.releasePending := by
  rw [updatePage]
  exact if_pos (not_not.mp unbacked)

theorem updatePage_backed (backed : manager.Backed page) :
    manager.updatePage registeredProcesses delta asid s page =
      let s' := s.turn (asid ≠ manager.asidOf page) (registeredProcesses (manager.asidOf page))
        (manager.vpageOf page)
      let value := s'.count page + BitVec.ofInt 8 delta
      let uncache := s'.uncache.note (decide (value = 0)) (manager.vpageOf page)
        s'.memoryDeviceInter false
      let cache := s'.cache.note (decide (value = 1 ∧ 0 < delta)) (manager.vpageOf page)
        s'.memoryDeviceInter true
      { s' with
        count := Function.update s'.count page value
        uncache := uncache.1
        cache := cache.1
        oldVpage := manager.vpageOf page
        calls := s'.calls ++ uncache.2 ++ cache.2 } := by
  rw [updatePage]
  exact if_neg backed

/-- The memory that a page is told on, by the number of pages from the first one. -/
def pointer (addr : Nat) : Nat → Option M
  | 0 => registeredProcesses (manager.asidOf (addr >>> pageBits))
  | n + 1 =>
    if manager.Foreign addr (addr >>> pageBits + n)
      then registeredProcesses (manager.asidOf (addr >>> pageBits + n))
    else pointer addr n

/-- What holds after the first `n` pages. -/
structure Counted (count : Nat → BitVec 8) (addr : Nat) (delta : Int) (n : Nat) (s : Counting M) :
    Prop where
  counts : ∀ page, s.count page =
    if page ∈ range' (addr >>> pageBits) n ∧
    manager.Backed page then count page + BitVec.ofInt 8 delta
    else count page
  memory : s.memoryDeviceInter = manager.pointer registeredProcesses addr n
  covered : s.covered =
    ((range' (addr >>> pageBits) n).filter fun page => decide (manager.Due count delta page)).map
    fun page =>
      (manager.pointer registeredProcesses addr (page + 1 - addr >>> pageBits),
        manager.vpageOf page, decide (0 < delta))
  isOpen : s.Open s.oldVpage
  small : ¬ s.Quiet → s.oldVpage + 1 < 2 ^ 64
  uncache : 0 < delta → s.uncache.bytes = 0
  cache : ¬ 0 < delta → s.cache.bytes = 0

variable {manager registeredProcesses}

theorem vpageOf_lt (page : Nat) : manager.vpageOf page + 1 < 2 ^ 64 := by
  have bound : manager.cpuBackingAddress page % 2 ^ asidStartBit < 2 ^ asidStartBit :=
    mod_lt _ (by decide)
  have le : manager.vpageOf page ≤ manager.cpuBackingAddress page % 2 ^ asidStartBit :=
    shiftRight_le _ _
  have small : 2 ^ asidStartBit + 1 < 2 ^ 64 := by decide
  omega

theorem pointer_isSome (first : (registeredProcesses (manager.asidOf (addr >>> pageBits))).isSome)
    (others : ∀ page ∈ range' (addr >>> pageBits) n, manager.Backed page →
      (registeredProcesses (manager.asidOf page)).isSome) :
    (manager.pointer registeredProcesses addr n).isSome := by
  induction n with
  | zero => exact first
  | succ n hyp =>
    rw [pointer]
    split_ifs with other
    · exact others _ (by simp) other.1
    · refine hyp fun page member => others page ?_
      rw [mem_range'_1] at member ⊢
      omega

theorem range'_last (lo n : Nat) : range' lo (n + 1) = range' lo n ++ [lo + n] := by
  rw [range'_concat, one_mul]

theorem Counted.unbacked (counted : manager.Counted registeredProcesses count addr delta n s)
    (unbacked : ¬ manager.Backed (addr >>> pageBits + n)) :
    manager.Counted registeredProcesses count addr delta (n + 1) s.releasePending where
  counts page := by
    rw [show s.releasePending.count = s.count from rfl, counted.counts page]
    simp only [range'_last, mem_append, mem_singleton]
    by_cases here : page = addr >>> pageBits + n
    · subst here
      simp [unbacked]
    · simp [here]
  memory := by
    rw [pointer, if_neg fun other => unbacked other.1]
    exact counted.memory
  covered := by
    rw [Counting.releasePending_quiet.covered, Counting.releasePending_calls counted.isOpen,
      counted.covered, range'_last, filter_append, filter_cons_of_neg (by simp [Due, unbacked]),
      filter_nil, append_nil]
  isOpen := Counting.releasePending_quiet.isOpen _
  small pending := absurd Counting.releasePending_quiet pending
  uncache _ := Counting.releasePending_quiet.1
  cache _ := Counting.releasePending_quiet.2

/-- Only one of the runs is used, the one for the sign of the difference. -/
theorem note_sign {value : BitVec 8} (unit : delta = 1 ∨ delta = -1)
    (noOverflow : delta = 1 → value ≠ 0) : (delta = 1 ∧ decide (value = 0) = false ∧
        decide (value = 1 ∧ 0 < delta) = decide (value = if 0 < delta then 1 else 0)) ∨
      (delta = -1 ∧ decide (value = 1 ∧ 0 < delta) = false ∧
        decide (value = 0) = decide (value = if 0 < delta then 1 else 0)) := by
  obtain rfl | rfl := unit
  · exact .inl ⟨rfl, decide_eq_false (noOverflow rfl), by simp⟩
  · exact .inr ⟨rfl, by simp, by simp⟩

/-- A backed page more. -/
theorem Counted.extend {s' f : Counting M}
    (counted : manager.Counted registeredProcesses count addr delta n s)
    (here : page = addr >>> pageBits + n) (backed : manager.Backed page)
    (ready : s.Ready (manager.pointer registeredProcesses addr (n + 1)) (manager.vpageOf page) s')
    (noted : s'.Noted (decide (count page + BitVec.ofInt 8 delta = if 0 < delta then 1 else 0))
      (manager.vpageOf page) (decide (0 < delta)) f)
    (counts : f.count = Function.update s'.count page (count page + BitVec.ofInt 8 delta))
    (memory : f.memoryDeviceInter = s'.memoryDeviceInter)
    (oldVpage : f.oldVpage = manager.vpageOf page) :
    manager.Counted registeredProcesses count addr delta (n + 1) f where
  counts other := by
    rw [counts, ready.count]
    simp only [range'_last, mem_append, mem_singleton, ← here]
    by_cases same : other = page
    · subst same
      simp [backed]
    · simp [same, counted.counts other]
  memory := memory.trans ready.memory
  covered := by
    have place : page + 1 - addr >>> pageBits = n + 1 := by omega
    rw [noted.covered, ready.covered, counted.covered, ready.memory, range'_last, filter_append,
      map_append, ← here]
    congr 1
    by_cases due : count page + BitVec.ofInt 8 delta = if 0 < delta then 1 else 0
    · have isDue : manager.Due count delta page := ⟨backed, due⟩
      simp only [decide_eq_true due, filter_cons, isDue, decide_true, if_true, filter_nil,
        map_singleton, place]
    · have notDue : ¬ manager.Due count delta page := fun isDue => due isDue.2
      simpa [notDue] using due
  isOpen := oldVpage ▸ noted.isOpen
  small _ := oldVpage ▸ vpageOf_lt page
  uncache positive := noted.uncache (decide_eq_true positive)
  cache negative := noted.cache (decide_eq_false negative)

theorem Counted.backed (counted : manager.Counted registeredProcesses count addr delta n s)
    (admissible : manager.Admissible registeredProcesses count addr size delta)
    (inside : ∀ page ∈ range' (addr >>> pageBits) (n + 1), page ∈ pagesOf addr size)
    (backed : manager.Backed (addr >>> pageBits + n)) :
    manager.Counted registeredProcesses count addr delta (n + 1)
      (manager.updatePage registeredProcesses delta (manager.asidOf (addr >>> pageBits)) s
        (addr >>> pageBits + n)) := by
  obtain ⟨page, here⟩ : ∃ page, page = addr >>> pageBits + n := ⟨_, rfl⟩
  rw [← here] at backed ⊢
  have listed : page ∈ range' (addr >>> pageBits) (n + 1) := by
    rw [mem_range'_1]
    omega
  have fresh : page ∉ range' (addr >>> pageBits) n := by
    rw [mem_range'_1]
    omega
  have ready := Counting.ready_turn (manager.asidOf (addr >>> pageBits) ≠ manager.asidOf page)
    (registeredProcesses (manager.asidOf page)) (manager.vpageOf page) counted.isOpen counted.small
  have memory : (if manager.asidOf (addr >>> pageBits) ≠ manager.asidOf page then
      registeredProcesses (manager.asidOf page) else s.memoryDeviceInter) =
        manager.pointer registeredProcesses addr (n + 1) := by
    rw [pointer, ← here, counted.memory]
    refine if_congr ⟨fun other => ⟨backed, other.symm⟩, fun other => other.2.symm⟩ rfl rfl
  have there : (manager.pointer registeredProcesses addr (n + 1)).isSome := by
    rw [← memory]
    split_ifs with other
    · exact admissible.registered page (inside page listed) backed
    · rw [counted.memory]
      refine pointer_isSome ?_ fun page' member => admissible.registered page' (inside page' ?_)
      · rw [not_not.mp other]
        exact admissible.registered page (inside page listed) backed
      · rw [mem_range'_1] at member ⊢
        omega
  rw [memory] at ready
  rw [updatePage_backed manager registeredProcesses backed]
  generalize s.turn (manager.asidOf (addr >>> pageBits) ≠ manager.asidOf page)
    (registeredProcesses (manager.asidOf page)) (manager.vpageOf page) = s' at ready
  have before : s'.count page = count page := by
    rw [ready.count, counted.counts page, if_neg fun both => fresh both.1]
  dsimp only
  rw [before]
  have noOverflow : delta = 1 → count page + BitVec.ofInt 8 delta ≠ 0 := by
    rintro rfl wraps
    have one : BitVec.ofInt 8 1 = 1 := rfl
    have full := admissible.noOverflow rfl page (inside page listed) backed
    rw [one] at wraps
    bv_omega
  have isOpen := ready.isOpen
  have some : 0 < manager.vpageOf page := pos_of_ne_zero backed
  have told : s'.memoryDeviceInter.isSome := ready.memory ▸ there
  obtain ⟨up, none, due⟩ | ⟨down, none, due⟩ := note_sign admissible.unit noOverflow
  · have positive : 0 < delta := by omega
    rw [none, due]
    refine counted.extend here backed ready ?_ rfl rfl rfl
    rw [decide_eq_true positive]
    exact Counting.noted_cache _ isOpen some (fun _ => told)
      (ready.uncache (counted.uncache positive))
  · have negative : ¬ 0 < delta := by omega
    rw [none, due]
    refine counted.extend here backed ready ?_ rfl rfl rfl
    rw [decide_eq_false negative]
    exact Counting.noted_uncache _ isOpen some (fun _ => told)
      (ready.cache (counted.cache negative))

theorem Counted.rounds (admissible : manager.Admissible registeredProcesses count addr size delta)
    (inside : ∀ page ∈ range' (addr >>> pageBits) n, page ∈ pagesOf addr size)
    (start : manager.Counted registeredProcesses count addr delta 0 s) :
    manager.Counted registeredProcesses count addr delta n ((range' (addr >>> pageBits) n).foldl
      (manager.updatePage registeredProcesses delta (manager.asidOf (addr >>> pageBits))) s) := by
  induction n with
  | zero => exact start
  | succ n hyp =>
    rw [range'_last, foldl_append, foldl_cons, foldl_nil]
    have counted := hyp fun page member => inside page (range'_last _ n ▸ mem_append_left _ member)
    by_cases backed : manager.Backed (addr >>> pageBits + n)
    · exact counted.backed admissible inside backed
    · rw [updatePage_unbacked manager registeredProcesses backed]
      exact counted.unbacked backed

/-- The calls cover the virtual pages that are due in the order of the device pages. -/
theorem updatePagesCachedCount_spec
    (admissible : manager.Admissible registeredProcesses count addr size delta) :
    (∀ page, (manager.updatePagesCachedCount registeredProcesses count addr size delta).count page =
      if page ∈ pagesOf addr size ∧ manager.Backed page then count page + BitVec.ofInt 8 delta
      else count page) ∧
    (manager.updatePagesCachedCount registeredProcesses count addr size delta).calls.flatMap
    Marking.covers =
      ((pagesOf addr size).filter fun page => decide (manager.Due count delta page)).map fun page =>
        (manager.pointer registeredProcesses addr (page + 1 - addr >>> pageBits),
          manager.vpageOf page, decide (0 < delta)) := by
  have start : manager.Counted registeredProcesses count addr delta 0 {
      count
      uncache := ⟨0, 0⟩
      cache := ⟨0, 0⟩
      memoryDeviceInter := registeredProcesses (manager.asidOf (addr >>> pageBits))
      oldVpage := (manager.vpageOf (addr >>> pageBits) + (2 ^ 64 - 1)) % 2 ^ 64
      calls := [] } := {
    counts := by simp
    memory := rfl
    covered := by simp [Counting.covered, PendingRun.covers]
    isOpen := ⟨.of_empty rfl, .of_empty rfl⟩
    small := fun pending => absurd ⟨rfl, rfl⟩ pending
    uncache := fun _ => rfl
    cache := fun _ => rfl }
  have counted := Counted.rounds admissible (fun page member => member) start
  refine ⟨counted.counts, ?_⟩
  exact (Counting.releasePending_calls counted.isOpen).trans counted.covered

/-! ## Which process is told -/

/-- The memory is that of the first page, or of the last foreign page so far. -/
theorem pointer_spec (manager : DeviceMemoryManager) (registeredProcesses : Nat → Option M)
    (addr n : Nat) :
    (∀ page, addr >>> pageBits ≤ page → page < addr >>> pageBits + n →
      ¬ manager.Foreign addr page) ∧
        manager.pointer registeredProcesses addr n =
        registeredProcesses (manager.asidOf (addr >>> pageBits)) ∨
      ∃ foreign, addr >>> pageBits ≤ foreign ∧ foreign < addr >>> pageBits + n ∧
        manager.Foreign addr foreign ∧ (∀ between, foreign < between →
        between < addr >>> pageBits + n → ¬ manager.Foreign addr between) ∧ manager.pointer
        registeredProcesses addr n = registeredProcesses (manager.asidOf foreign) := by
  induction n with
  | zero => exact .inl ⟨fun page lower upper => by omega, rfl⟩
  | succ n hyp =>
    rw [pointer]
    split_ifs with other
    · exact .inr ⟨_, le_add_right _ _, by omega, other, fun between lower upper => by omega, rfl⟩
    · have still (page : Nat) (upper : page < addr >>> pageBits + (n + 1))
        (before : page < addr >>> pageBits + n → ¬ manager.Foreign addr page) : ¬ manager.Foreign
        addr page := by
        obtain below | rfl := Nat.lt_succ_iff_lt_or_eq.mp upper
        · exact before below
        · exact other
      obtain ⟨none, same⟩ | ⟨foreign, lower, upper, isForeign, last, same⟩ := hyp
      · exact .inl ⟨fun page lower upper => still page upper (none page lower), same⟩
      · exact .inr ⟨foreign, lower, by omega, isForeign,
          fun between behind upper => still between upper (last between behind), same⟩

theorem mem_pagesOf : page ∈ pagesOf addr size ↔
    addr >>> pageBits ≤ page ∧ page < addr >>> pageBits +
    ((addr + size + (pageSize - 1)) / pageSize - addr >>> pageBits) :=
  mem_range'_1

/-- A page is told on the memory of its process exactly when it is not disturbed. -/
theorem pointer_eq_iff (member : page ∈ pagesOf addr size) (backed : manager.Backed page) :
    manager.pointer registeredProcesses addr (page + 1 - addr >>> pageBits) =
        registeredProcesses (manager.asidOf page) ↔
      (manager.asidOf page = manager.asidOf (addr >>> pageBits) →
        ∀ foreign ∈ pagesOf addr size, foreign < page → manager.Foreign addr foreign →
        (∀ between, foreign < between → between < page → ¬ manager.Foreign addr between) →
        registeredProcesses (manager.asidOf foreign) =
        registeredProcesses (manager.asidOf page)) := by
  rw [mem_pagesOf] at member
  obtain ⟨n, rfl⟩ := Nat.exists_eq_add_of_le member.1
  have place : addr >>> pageBits + n + 1 - addr >>> pageBits = n + 1 := by omega
  rw [place, pointer]
  by_cases own : manager.asidOf (addr >>> pageBits + n) = manager.asidOf (addr >>> pageBits)
  swap
  · rw [if_pos ⟨backed, own⟩]
    exact iff_of_true rfl fun same => absurd same own
  rw [if_neg fun other => other.2 own]
  obtain ⟨none, same⟩ | ⟨foreign, lower, upper, isForeign, last, same⟩ :=
    pointer_spec manager registeredProcesses addr n
  · rw [same, own]
    refine iff_of_true rfl fun _ foreign member' before isForeign => ?_
    exact absurd isForeign (none foreign (mem_pagesOf.mp member').1 before)
  · rw [same]
    constructor
    · intro right _ foreign' member' before' isForeign' last'
      obtain less | rfl | greater := lt_trichotomy foreign foreign'
      · exact absurd isForeign' (last foreign' less before')
      · exact right
      · exact absurd isForeign (last' foreign greater upper)
    · intro undisturbed
      exact undisturbed own foreign (mem_pagesOf.mpr ⟨lower, by omega⟩) upper isForeign last

theorem of_countP_eq {α : Type*} {p q : α → Bool} {l : List α}
    (implies : ∀ x ∈ l, p x = true → q x = true)
    (same : l.countP p = l.countP q) : ∀ x ∈ l, q x = true → p x = true := by
  induction l with
  | nil => exact fun x absurdity => by cases absurdity
  | cons y l hyp =>
    have implies' (x : α) (member : x ∈ l) := implies x (mem_cons_of_mem y member)
    have le := countP_mono_left implies'
    have here := implies y mem_cons_self
    rw [countP_cons, countP_cons] at same
    have both : p y = q y ∧ l.countP p = l.countP q := by
      cases py : p y <;> cases qy : q y <;> simp_all
    intro x member qx
    rcases mem_cons.mp member with rfl | member
    · rw [both.1, qx]
    · exact hyp implies' both.2 x member qx

/-- Each page that is due is told once and on the right memory exactly when none is disturbed. -/
theorem notifiesExactly_iff (manager : DeviceMemoryManager) (registeredProcesses : Nat → Option M)
    (count : Nat → BitVec 8) (addr size : Nat) (delta : Int)
    (admissible : manager.Admissible registeredProcesses count addr size delta) :
    manager.NotifiesExactly registeredProcesses count addr size delta ↔
      manager.Undisturbed registeredProcesses count addr size delta := by
  classical
  obtain ⟨counts, calls⟩ := updatePagesCachedCount_spec admissible
  have right (page : Nat) (member : page ∈ (pagesOf addr size).filter fun page =>
    decide (manager.Due count delta page)) : page ∈ pagesOf addr size ∧
    manager.Due count delta page := by simpa using member
  constructor
  · rintro ⟨-, marks⟩
    rw [calls] at marks
    have same := marks.countP_eq fun mark =>
      decide (mark.1 = registeredProcesses (manager.asidOf (addr >>> pageBits)))
    rw [countP_map, countP_map] at same
    intro page member foreign member' before due own
    refine (pointer_eq_iff member due.1).mp ?_ own foreign member' before
    have told := of_countP_eq ?_ same page (by simpa using ⟨member, due⟩) (by simp [own])
    · simpa [own] using told
    · intro other listed isOwn
      obtain ⟨inside, isDue⟩ := right other listed
      by_cases isFirst : manager.asidOf other = manager.asidOf (addr >>> pageBits)
      · simp [isFirst]
      · have told : manager.pointer registeredProcesses addr (other + 1 - addr >>> pageBits) =
            registeredProcesses (manager.asidOf other) :=
          (pointer_eq_iff inside isDue.1).mpr fun same => absurd same isFirst
        simpa [told] using isOwn
  · intro undisturbed
    refine ⟨counts, ?_⟩
    rw [calls]
    refine List.Perm.of_eq (map_congr_left fun page member => ?_)
    obtain ⟨inside, due⟩ := right page member
    rw [(pointer_eq_iff inside due.1).mpr fun own foreign member' before =>
      undisturbed page inside foreign member' before due own]

/-- A process is told of its two pages at once, and another one of the page behind them. -/
theorem notifiesExactly_iff_neighbours :
    let manager := ((new.insertCpuBacking 0 (5 * pageSize) 1).insertCpuBacking 1 (6 * pageSize)
      1).insertCpuBacking 2 (9 * pageSize) 2
    manager.Admissible some (fun _ => 0) 0 (3 * pageSize) 1 ∧
      (manager.NotifiesExactly some (fun _ => 0) 0 (3 * pageSize) 1 ↔
        manager.Undisturbed some (fun _ => 0) 0 (3 * pageSize) 1) := by
  intro manager
  have admissible : manager.Admissible some (fun _ => 0) 0 (3 * pageSize) 1 :=
    ⟨.inl rfl, fun _ _ _ _ => by decide, fun down => absurd down (by decide), fun _ _ _ => rfl⟩
  exact ⟨admissible, notifiesExactly_iff manager some _ _ _ _ admissible⟩

/-- The first process is not told of its page behind the page of the second one. -/
theorem not_notifiesExactly_between :
    let manager := ((new.insertCpuBacking 0 (5 * pageSize) 1).insertCpuBacking 1 (9 * pageSize)
      2).insertCpuBacking 2 (7 * pageSize) 1
    manager.Admissible some (fun _ => 0) 0 (3 * pageSize) 1 ∧
      ¬ manager.NotifiesExactly some (fun _ => 0) 0 (3 * pageSize) 1 := by
  intro manager
  refine ⟨⟨.inl rfl, fun _ _ _ _ =>
    by decide, fun down => absurd down (by decide), fun _ _ _ => rfl⟩, fun exact => ?_⟩
  have marks : ¬ ((manager.updatePagesCachedCount some (fun _ => 0) 0 (3 * pageSize)
    1).calls.flatMap Marking.covers).Perm
      (((pagesOf 0 (3 * pageSize)).filter fun page => decide (manager.Due (fun _ => 0) 1 page)).map
        fun page =>
        (some (manager.asidOf page), manager.vpageOf page, decide ((0 : Int) < 1))) := by
    decide +kernel
  exact marks exact.marks

end DeviceMemoryManager

end SumiEmu.Core
