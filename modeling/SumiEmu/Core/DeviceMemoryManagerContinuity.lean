/-
# The runs of pages

The continuity tracker of a page is the length of a run that the page starts. A mapping that is
tracked leaves runs of pages that lie behind each other in the memory of the host. What it finds at
other pages stays, and so does everything at an unmapping.
-/

import SumiEmu.Core.DeviceMemoryManagerExact

namespace SumiEmu.Core

open Fallible Function

namespace DeviceMemoryManager

variable {manager manager' : DeviceMemoryManager} {processMemory : ProcessMemory}
  {physicalBase asid startPageD virtualAddress count i page index total lastPtr pageCount : Nat}

/-- Nothing but the entries and the container changes. -/
theorem insertReverse_frame {newDev physicalPage : Nat}
    (run : manager.insertReverse newDev physicalPage = .ok manager') :
    manager'.compressedPhysicalPtr = manager.compressedPhysicalPtr ∧
      manager'.continuityTracker = manager.continuityTracker := by
  rw [insertReverse] at run
  split at run
  · cases run
    exact ⟨rfl, rfl⟩
  · split at run
    rename_i startId manager₁ here
    obtain ⟨container, -, done⟩ := bind_eq_ok.mp run
    cases done
    split at here
    · cases here
      exact ⟨rfl, rfl⟩
    · cases here
      exact ⟨rfl, rfl⟩

theorem removeReverse_frame {dev physicalPage : Nat}
    (run : manager.removeReverse dev physicalPage = .ok manager') :
    manager'.compressedPhysicalPtr = manager.compressedPhysicalPtr ∧
      manager'.continuityTracker = manager.continuityTracker := by
  rw [removeReverse] at run
  split at run
  · cases run
    exact ⟨rfl, rfl⟩
  · obtain ⟨result, -, rest⟩ := bind_eq_ok.mp run
    split at rest
    · cases rest
      exact ⟨rfl, rfl⟩
    · obtain ⟨⟨value, container⟩, -, done⟩ := bind_eq_ok.mp rest
      cases done
      exact ⟨rfl, rfl⟩

/-- The pointer that a mapping gives a page. -/
def pointerTo : Option Nat → Nat
  | none => 0
  | some ptr => ptr >>> pageBits + 1

theorem mapPage_frame (memory : ∀ ptr, processMemory virtualAddress = some ptr → ptr < physicalSize)
    (run : manager.mapPage processMemory asid page virtualAddress = .ok manager') :
    manager'.compressedPhysicalPtr =
        update manager.compressedPhysicalPtr page (pointerTo (processMemory virtualAddress)) ∧
      manager'.continuityTracker = manager.continuityTracker := by
  rw [mapPage] at run
  cases backed : processMemory virtualAddress with
  | none =>
    rw [backed] at run
    cases run
    exact ⟨rfl, rfl⟩
  | some ptr =>
    rw [backed] at run
    dsimp only at run
    rw [Exact.physAddr_eq (memory ptr backed)] at run
    exact insertReverse_frame run

theorem unmapPage_frame (run : manager.unmapPage page = .ok manager') :
    manager'.compressedPhysicalPtr = update manager.compressedPhysicalPtr page 0 ∧
      manager'.continuityTracker = manager.continuityTracker := by
  rw [unmapPage] at run
  split at run
  · exact removeReverse_frame run
  · cases run
    exact ⟨rfl, rfl⟩

/-- The pointers of some pages behind each other are set, and nothing else is. -/
structure PointersSet (manager manager' : DeviceMemoryManager) (startPageD i count : Nat)
    (pointer : Nat → Nat) : Prop where
  inside : ∀ j, i ≤ j → j < i + count → manager'.compressedPhysicalPtr (startPageD + j) = pointer j
  outside : ∀ page, (page < startPageD + i ∨ startPageD + (i + count) ≤ page) →
    manager'.compressedPhysicalPtr page = manager.compressedPhysicalPtr page
  tracker : manager'.continuityTracker = manager.continuityTracker

/-- The first page is set before the others. -/
theorem PointersSet.cons {manager₁ : DeviceMemoryManager} {pointer : Nat → Nat}
    (pointers : manager₁.compressedPhysicalPtr =
      update manager.compressedPhysicalPtr (startPageD + i) (pointer i))
    (tracker : manager₁.continuityTracker = manager.continuityTracker)
    (rest : PointersSet manager₁ manager' startPageD (i + 1) count pointer) :
    PointersSet manager manager' startPageD i (count + 1) pointer := by
  refine ⟨fun j le lt => ?_, fun page out => ?_, rest.tracker.trans tracker⟩
  · rcases Nat.eq_or_lt_of_le le with rfl | later
    · rw [rest.outside _ (Or.inl (by omega)), pointers, update_self]
    · exact rest.inside j later (by omega)
  · have other : page ≠ startPageD + i := by omega
    rw [rest.outside page (by omega), pointers, update_of_ne other]

theorem PointersSet.nil (manager : DeviceMemoryManager) (startPageD i : Nat) (pointer : Nat → Nat) :
    PointersSet manager manager startPageD i 0 pointer where
  inside _ le lt := absurd lt (Nat.not_lt.mpr le)
  outside _ _ := rfl
  tracker := rfl

theorem mapLoop_frame (memory : ∀ v ptr, processMemory v = some ptr → ptr < physicalSize)
    (run : mapLoop processMemory asid startPageD virtualAddress count i manager = .ok manager') :
    PointersSet manager manager' startPageD i count fun j =>
      pointerTo (processMemory (virtualAddress + j * pageSize)) := by
  induction count generalizing i manager with
  | zero =>
    cases run
    exact .nil ..
  | succ count ih =>
    obtain ⟨manager₁, first, rest⟩ := bind_eq_ok.mp run
    obtain ⟨pointers, tracker⟩ := mapPage_frame (memory _) first
    exact .cons pointers tracker (ih rest)

theorem unmapLoop_frame (run : unmapLoop startPageD count i manager = .ok manager') :
    PointersSet manager manager' startPageD i count fun _ => 0 := by
  induction count generalizing i manager with
  | zero =>
    cases run
    exact .nil ..
  | succ count ih =>
    obtain ⟨manager₁, first, rest⟩ := bind_eq_ok.mp run
    obtain ⟨pointers, tracker⟩ := unmapPage_frame first
    exact .cons pointers tracker (ih rest)

/-! ## The runs that a mapping finds -/

/-- Where the host has a page of the memory of a process, counted from an address. -/
def hostPage (physicalBase : Nat) (processMemory : ProcessMemory) (virtualAddress j : Nat) : Nat :=
  hostPointer physicalBase (processMemory (virtualAddress + j * pageSize))

/-- As many pages from one on lie behind each other in the memory of the host. -/
def RunAt (ptr : Nat → Nat) (total j pages : Nat) : Prop :=
  0 < pages ∧ ∀ m, m < pages → j + m < total ∧ ptr (j + m) = ptr j + m * pageSize

/-- No page lies before the null pointer. -/
theorem not_behind (physicalBase : Nat) (processMemory : ProcessMemory)
    (virtualAddress total index p : Nat)
    (is_zero : p + pageSize = 0) :
    0 = hostPage physicalBase processMemory virtualAddress index ∧
      RunAt (hostPage physicalBase processMemory virtualAddress) total index 1 :=
  absurd is_zero (Nat.ne_of_gt
    (Nat.lt_of_lt_of_le (Nat.two_pow_pos pageBits) (Nat.le_add_left _ _)))

/-- The rounds go from the last page to the first, with the run of the page behind at hand. -/
theorem trackLoop_frame (manager : DeviceMemoryManager) (startPageD lastPtr pageCount : Nat)
    (le : index ≤ total) (small : total < 2 ^ 32)
    (behind : ∀ p, p + pageSize = lastPtr →
      lastPtr = hostPage physicalBase processMemory virtualAddress index ∧
        RunAt (hostPage physicalBase processMemory virtualAddress) total index pageCount) :
    (manager.trackLoop physicalBase processMemory startPageD virtualAddress index lastPtr
      pageCount).compressedPhysicalPtr = manager.compressedPhysicalPtr ∧
      (∀ page, (page < startPageD ∨ startPageD + index ≤ page) →
        (manager.trackLoop physicalBase processMemory startPageD virtualAddress index lastPtr
          pageCount).continuityTracker page = manager.continuityTracker page) ∧
      ∀ j, j < index →
        RunAt (hostPage physicalBase processMemory virtualAddress) total j
          ((manager.trackLoop physicalBase processMemory startPageD virtualAddress index lastPtr
            pageCount).continuityTracker (startPageD + j)) := by
  induction index generalizing manager lastPtr pageCount with
  | zero => exact ⟨rfl, fun _ _ => rfl, fun j lt => absurd lt (Nat.not_lt_zero j)⟩
  | succ index ih =>
    rw [trackLoop]
    generalize pointer : hostPointer physicalBase
      (processMemory (virtualAddress + index * pageSize)) = newPtr
    have pointer' : hostPage physicalBase processMemory virtualAddress index = newPtr := pointer
    -- the run of this page is that of the page behind and one more, or the page alone
    have here : RunAt (hostPage physicalBase processMemory virtualAddress) total index
        (if newPtr + pageSize = lastPtr then pageCount + 1 else 1) := by
      split
      · rename_i adjacent
        obtain ⟨is_last, -, next⟩ := behind newPtr adjacent
        refine ⟨Nat.succ_pos _, fun m lt => ?_⟩
        cases m with
        | zero => exact ⟨le, by rw [Nat.zero_mul]; rfl⟩
        | succ m =>
          obtain ⟨within, run⟩ := next m (Nat.lt_of_succ_lt_succ lt)
          rw [← is_last, ← adjacent, Nat.add_right_comm index, Nat.add_assoc index] at run
          rw [Nat.add_right_comm, Nat.add_assoc] at within
          refine ⟨within, ?_⟩
          rw [run, pointer', Nat.succ_mul, Nat.add_assoc, Nat.add_comm pageSize]
      · refine ⟨Nat.one_pos, fun m lt => ?_⟩
        obtain rfl : m = 0 := Nat.lt_one_iff.mp lt
        exact ⟨le, by rw [Nat.zero_mul]; rfl⟩
    generalize counted : (if newPtr + pageSize = lastPtr then pageCount + 1 else 1) =
      count at here ⊢
    have fits : count % 2 ^ 32 = count := by
      refine Nat.mod_eq_of_lt ?_
      obtain ⟨positive, inside⟩ := here
      have last := (inside (count - 1) (Nat.sub_lt positive Nat.one_pos)).1
      omega
    obtain ⟨pointers, outside, inside⟩ := ih { manager with
      continuityTracker := update manager.continuityTracker (startPageD + index) (count % 2 ^ 32) }
      newPtr count (Nat.le_of_succ_le le) fun _ _ => ⟨pointer'.symm, here⟩
    refine ⟨pointers, fun page out => ?_, fun j lt => ?_⟩
    · have other : page ≠ startPageD + index := by omega
      rw [outside page (by omega)]
      exact update_of_ne other _ _
    · rcases Nat.lt_or_eq_of_le (Nat.le_of_lt_succ lt) with earlier | rfl
      · exact inside j earlier
      · rw [outside _ (Or.inr (Nat.le_refl _))]
        dsimp only
        rw [update_self, fits]
        exact here

/-! ## The runs that the pointers bear out -/

/-- Each page starts a run of pages with pointers one after the other, or of unmapped ones. -/
structure Tracked (manager : DeviceMemoryManager) : Prop where
  positive : ∀ i, 0 < manager.continuityTracker i
  mapped : ∀ i, manager.compressedPhysicalPtr i ≠ 0 → ∀ j, j < manager.continuityTracker i →
    manager.compressedPhysicalPtr (i + j) = manager.compressedPhysicalPtr i + j
  unmapped : ∀ i, manager.compressedPhysicalPtr i = 0 → ∀ j, j < manager.continuityTracker i →
    manager.compressedPhysicalPtr (i + j) = 0

/-- Ranges of whole pages, of which those that are mapped are tracked. -/
def Operation.Tracks : Operation → Prop
  | .map _ _ address _ size track => track = true ∧ address % pageSize = 0 ∧ size % pageSize = 0
  | .unmap address size => address % pageSize = 0 ∧ size % pageSize = 0

/-- The runs in the tracker survive: an unmapping takes the run of a mapped page wholly or not at
all, and a mapping backs no page in the run of an unmapped page out of its range. -/
def Operation.KeepsRuns (manager : DeviceMemoryManager) : Operation → Prop
  | .map processMemory _ address virtualAddress size _ =>
    ∀ i, ¬ InRange address size i → manager.compressedPhysicalPtr i = 0 →
      ∀ j, j < manager.continuityTracker i → InRange address size (i + j) →
        processMemory (virtualAddress + (i + j - address >>> pageBits) * pageSize) = none
  | .unmap address size =>
    ∀ i, manager.compressedPhysicalPtr i ≠ 0 →
      (∀ j, j < manager.continuityTracker i → InRange address size (i + j)) ∨
        ∀ j, j < manager.continuityTracker i → ¬ InRange address size (i + j)

namespace Tracked

theorem new : Tracked .new where
  positive := fun _ => Nat.one_pos
  mapped := fun _ mapped => absurd rfl mapped
  unmapped := fun _ _ _ _ => rfl

variable {address size : Nat}

theorem not_inRange (out : ¬ InRange address size page) :
    page < address >>> pageBits + 0 ∨ address >>> pageBits + (0 + numPages size) ≤ page := by
  rw [InRange] at out
  omega

theorem unmap (tracked : Tracked manager)
    (keeps : (Operation.unmap address size).KeepsRuns manager)
    (run : manager.unmap address size = .ok manager') : Tracked manager' := by
  obtain ⟨inside, outside, tracker⟩ := unmapLoop_frame run
  have gone (page : Nat) (range : InRange address size page) : manager'.compressedPhysicalPtr page =
      0 := by
    have at_page := inside (page - address >>> pageBits) (Nat.zero_le _)
      (by rw [Nat.zero_add]; exact Nat.sub_lt_left_of_lt_add range.1 range.2)
    rwa [Nat.add_sub_cancel' range.1] at at_page
  have stays (page : Nat) (out : ¬ InRange address size page) :
      manager'.compressedPhysicalPtr page = manager.compressedPhysicalPtr page :=
        outside page (not_inRange out)
  refine ⟨fun i => tracker ▸ tracked.positive i, fun i mapped j lt => ?_, fun i unmapped j lt => ?_⟩
  · rw [tracker] at lt
    have out : ¬ InRange address size i := fun range => mapped (gone i range)
    rw [stays i out] at mapped ⊢
    rcases keeps i mapped with whole | apart
    · exact absurd (whole 0 (tracked.positive i)) out
    · rw [stays _ (apart j lt)]
      exact tracked.mapped i mapped j lt
  · rw [tracker] at lt
    by_cases range : InRange address size (i + j)
    · exact gone _ range
    · rw [stays _ range]
      by_cases before : manager.compressedPhysicalPtr i = 0
      · exact tracked.unmapped i before j lt
      · rcases keeps i before with whole | apart
        · exact absurd (whole j lt) range
        · rw [stays i (apart 0 (tracked.positive i))] at unmapped
          exact absurd unmapped before

theorem hostPage_of_some {j a : Nat}
    (backed : processMemory (virtualAddress + j * pageSize) = some a) :
    hostPage physicalBase processMemory virtualAddress j = physicalBase + a := by
  rw [hostPage, backed, hostPointer]

theorem hostPage_of_none {j : Nat}
    (unbacked : processMemory (virtualAddress + j * pageSize) = none) :
    hostPage physicalBase processMemory virtualAddress j = 0 := by
  rw [hostPage, unbacked, hostPointer]

/-- The run of a backed page has pointers one after the other. -/
theorem run_of_some {j m k a : Nat} (base : pageSize < physicalBase)
    (run : RunAt (hostPage physicalBase processMemory virtualAddress) total j k) (lt : m < k)
    (backed : processMemory (virtualAddress + j * pageSize) = some a) :
    pointerTo (processMemory (virtualAddress + (j + m) * pageSize)) = a >>> pageBits + 1 + m := by
  have behind := (run.2 m lt).2
  rw [hostPage_of_some backed] at behind
  cases next : processMemory (virtualAddress + (j + m) * pageSize) with
  | none =>
    rw [hostPage_of_none next] at behind
    omega
  | some b =>
    rw [hostPage_of_some next, Nat.add_assoc, Nat.add_left_cancel_iff] at behind
    rw [behind, pointerTo, Nat.shiftRight_eq_div_pow, Nat.shiftRight_eq_div_pow,
      show m * pageSize = m * 2 ^ pageBits from rfl,
      Nat.add_mul_div_right _ _ (Nat.two_pow_pos pageBits), Nat.add_right_comm]

/-- The run of a page that is not backed is the page alone. -/
theorem run_of_none {j k : Nat} (base : pageSize < physicalBase)
    (run : RunAt (hostPage physicalBase processMemory virtualAddress) total j k)
    (unbacked : processMemory (virtualAddress + j * pageSize) = none) : k = 1 := by
  refine Nat.le_antisymm (Nat.le_of_not_lt fun many => ?_) run.1
  have behind := (run.2 1 many).2
  rw [hostPage_of_none unbacked, Nat.zero_add, Nat.one_mul] at behind
  cases next : processMemory (virtualAddress + (j + 1) * pageSize) with
  | none =>
    rw [hostPage_of_none next] at behind
    exact absurd behind (by decide)
  | some b =>
    rw [hostPage_of_some next] at behind
    omega

theorem map (tracked : Tracked manager) (base : pageSize < physicalBase)
    (admissible : (Operation.map processMemory asid address virtualAddress size true).Admissible 0
    manager)
    (keeps : (Operation.map processMemory asid address virtualAddress size true).KeepsRuns manager)
    (run : manager.map physicalBase processMemory asid address virtualAddress size true =
    .ok manager') : Tracked manager' := by
  obtain ⟨unmapped_before, memory⟩ := admissible
  obtain ⟨manager₁, loop, done⟩ := bind_eq_ok.mp run
  cases done
  obtain ⟨inside, outside, tracker⟩ := mapLoop_frame memory loop
  have small : numPages size < 2 ^ 32 := by
    by_cases none : numPages size = 0
    · rw [none]
      exact Nat.two_pow_pos 32
    · have last := (unmapped_before (address >>> pageBits + (numPages size - 1))
        ⟨Nat.le_add_right _ _, by omega⟩).2.1
      have few : devicePages < 2 ^ 32 := by decide
      have le := Nat.le_add_left (numPages size - 1) (address >>> pageBits)
      omega
  obtain ⟨pointers, outside', inside'⟩ :=
    trackLoop_frame manager₁ (address >>> pageBits) 0 1 (Nat.le_refl (numPages size)) small
    (not_behind physicalBase processMemory virtualAddress (numPages size) (numPages size))
  change Tracked (manager₁.trackLoop physicalBase processMemory (address >>> pageBits)
    virtualAddress (numPages size) 0 1)
  generalize manager₁.trackLoop physicalBase processMemory (address >>> pageBits) virtualAddress
    (numPages size) 0 1 = manager' at pointers outside' inside' ⊢
  have at_range (j : Nat) (lt : j < numPages size) : manager'.compressedPhysicalPtr
    (address >>> pageBits + j) = pointerTo (processMemory (virtualAddress + j * pageSize)) := by
    rw [pointers]
    exact inside j (Nat.zero_le j) (by rwa [Nat.zero_add])
  have stays (page : Nat) (out : ¬ InRange address size page) :
      manager'.compressedPhysicalPtr page = manager.compressedPhysicalPtr page ∧
        manager'.continuityTracker page = manager.continuityTracker page := by
    rw [pointers, outside' page (by rw [InRange] at out; omega), tracker]
    exact ⟨outside page (not_inRange out), rfl⟩
  have range (page : Nat) (range : InRange address size page) : ∃ j, j < numPages size ∧
    page = address >>> pageBits + j :=
    ⟨page - address >>> pageBits, Nat.sub_lt_left_of_lt_add range.1 range.2,
        (Nat.add_sub_cancel' range.1).symm⟩
  refine ⟨fun i => ?_, fun i mapped j lt => ?_, fun i unmapped j lt => ?_⟩
  · by_cases here : InRange address size i
    · obtain ⟨j, lt, rfl⟩ := range i here
      exact (inside' j lt).1
    · rw [(stays i here).2]
      exact tracked.positive i
  · by_cases here : InRange address size i
    · obtain ⟨m, in_range, rfl⟩ := range i here
      have followed := inside' m in_range
      rw [at_range m in_range] at mapped ⊢
      rw [Nat.add_assoc, at_range (m + j) (followed.2 j lt).1]
      cases backed : processMemory (virtualAddress + m * pageSize) with
      | none =>
        rw [backed] at mapped
        exact absurd rfl mapped
      | some a => exact run_of_some base followed lt backed
    · rw [(stays i here).1] at mapped ⊢
      rw [(stays i here).2] at lt
      have next := tracked.mapped i mapped j lt
      have out : ¬ InRange address size (i + j) := by
        intro there
        rw [(unmapped_before (i + j) there).2.2] at next
        omega
      rw [(stays _ out).1, next]
  · by_cases here : InRange address size i
    · obtain ⟨m, in_range, rfl⟩ := range i here
      have followed := inside' m in_range
      rw [at_range m in_range] at unmapped
      cases backed : processMemory (virtualAddress + m * pageSize) with
      | none =>
        rw [run_of_none base followed backed] at lt
        obtain rfl : j = 0 := Nat.lt_one_iff.mp lt
        rw [Nat.add_zero, at_range m in_range, backed]
        rfl
      | some a =>
        rw [backed] at unmapped
        cases unmapped
    · rw [(stays i here).1] at unmapped
      rw [(stays i here).2] at lt
      by_cases there : InRange address size (i + j)
      · have unbacked := keeps i here unmapped j lt there
        obtain ⟨m, in_range, is⟩ := range (i + j) there
        rw [is, at_range m in_range]
        rw [is, Nat.add_sub_cancel_left] at unbacked
        rw [unbacked]
        rfl
      · rw [(stays _ there).1]
        exact tracked.unmapped i unmapped j lt

end Tracked

/-- Runs whose steps keep the runs of the tracker lead to states that bear them out. -/
theorem Reached.tracked (base : pageSize < physicalBase)
    (reached : Reached physicalBase (fun manager operation =>
      operation.Admissible 0 manager ∧ operation.Tracks ∧ operation.KeepsRuns manager)
        manager) : Tracked manager := by
  induction reached with
  | new => exact Tracked.new
  | step operation _ allowed run ih =>
    obtain ⟨admissible, tracks, keeps⟩ := allowed
    cases operation with
    | map processMemory asid address virtualAddress size track =>
      obtain rfl : track = true := tracks.1
      exact ih.map base admissible keeps run
    | unmap address size => exact ih.unmap keeps run

end DeviceMemoryManager

end SumiEmu.Core
