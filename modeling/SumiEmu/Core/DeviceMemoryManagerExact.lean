/-
# The reverse map along a run

Maps of pages that are unmapped and unmaps of any pages follow each other. The list of a physical
page is always that of the device pages whose pointer is to it. Page zero is not among the pages
of the device: a reverse entry of zero is one of no page.
-/

import SumiEmu.Core.DeviceMemoryManagerReverse

namespace SumiEmu.Core

open Fallible MultiAddressContainer Function

/-- The bytes of the physical memory, where it is largest. -/
def physicalSize : Nat := 2 ^ 33

namespace DeviceMemoryManager

variable {manager manager' : DeviceMemoryManager} {pages ids : Nat → List Nat}
    {processMemory : ProcessMemory}
  {physicalBase first asid startPageD virtualAddress count i p q d page : Nat}

/-! ## Runs -/

/-- An operation on the manager. -/
inductive Operation
  | map (processMemory : ProcessMemory) (asid address virtualAddress size : Nat) (track : Bool)
  | unmap (address size : Nat)

/-- What it does. -/
def Operation.run (physicalBase : Nat) (manager : DeviceMemoryManager) :
    Operation → Except ContainerFault DeviceMemoryManager
  | .map processMemory asid address virtualAddress size track =>
    manager.map physicalBase processMemory asid address virtualAddress size track
  | .unmap address size => manager.unmap address size

/-- The pages from that of an address on, as many as a size takes. -/
def InRange (address size page : Nat) : Prop :=
  address >>> pageBits ≤ page ∧ page < address >>> pageBits + numPages size

/-- What is mapped is unmapped before, from a first page on and in the address space of the device,
and to memory that is there. -/
def Operation.Admissible (first : Nat) (manager : DeviceMemoryManager) : Operation → Prop
  | .map processMemory _ address _ size _ =>
    (∀ page, InRange address size page → first ≤ page ∧ page < devicePages ∧
    manager.compressedPhysicalPtr page = 0) ∧
      ∀ virtualAddress address, processMemory virtualAddress = some address → address < physicalSize
  | .unmap address size => ∀ page, InRange address size page → page < devicePages

/-- The states that operations lead to, each of them allowed where it is run. -/
inductive Reached (physicalBase : Nat) (allowed : DeviceMemoryManager → Operation → Prop) :
    DeviceMemoryManager → Prop
  | new : Reached physicalBase allowed .new
  | step {manager manager' : DeviceMemoryManager} (operation : Operation)
      (reached : Reached physicalBase allowed manager) (admissible : allowed manager operation)
      (run : operation.run physicalBase manager = .ok manager') : Reached physicalBase allowed
        manager'

/-! ## A step -/

/-- The reverse map lists the device pages by their pointers. -/
structure Exact (manager : DeviceMemoryManager) (pages ids : Nat → List Nat) : Prop where
  reverse : Reverse manager pages ids
  mem : ∀ p d, d ∈ pages p ↔ manager.compressedPhysicalPtr d = p + 1

theorem Reverse.congr (reverse : Reverse manager pages ids)
    (entries : manager'.compressedDeviceAddr = manager.compressedDeviceAddr)
    (container : manager'.multiDevAddress = manager.multiDevAddress) :
    Reverse manager' pages ids where
  nodup := reverse.nodup
  apart := reverse.apart
  device := reverse.device
  inline := entries ▸ reverse.inline
  multi := entries ▸ container ▸ reverse.multi
  pool := container ▸ reverse.pool
  size_le := container ▸ reverse.size_le

namespace Exact

theorem congr (exact : Exact manager pages ids)
    (pointers : manager'.compressedPhysicalPtr = manager.compressedPhysicalPtr)
    (entries : manager'.compressedDeviceAddr = manager.compressedDeviceAddr)
    (container : manager'.multiDevAddress = manager.multiDevAddress) :
    Exact manager' pages ids where
  reverse := exact.reverse.congr entries container
  mem := pointers ▸ exact.mem

theorem new : Exact .new (fun _ => []) (fun _ => []) where
  reverse :=
    { nodup := fun _ => List.nodup_nil
      apart := fun _ _ _ _ mem => by cases mem
      device := fun _ _ mem => by cases mem
      inline := fun _ _ => ⟨rfl, rfl⟩
      multi := fun _ many => absurd many (Nat.not_lt_zero 1)
      pool :=
        { linked := fun _ => rfl
          inside := fun _ _ mem => by cases mem
          apart := fun _ _ _ _ mem => by cases mem
          freeNodup := List.nodup_nil
          freeInside := fun _ mem => by cases mem
          freeApart := fun _ mem => by cases mem
          looseInside := fun _ mem => by cases mem
          looseApart := fun _ mem => by cases mem
          owned := fun _ positive le => absurd (Nat.lt_of_lt_of_le positive le) (Nat.lt_irrefl 0) }
      size_le := Nat.zero_le _ }
  mem := fun p d => by
    constructor
    · intro mem
      cases mem
    · intro pointer
      cases pointer

theorem physAddr_eq {ptr : Nat} (within : ptr < physicalSize) :
    ((ptr >>> pageBits) % 2 ^ 32 + 1) % 2 ^ 32 = ptr >>> pageBits + 1 := by
  have small : ptr >>> pageBits < 2 ^ 21 := by
    rw [Nat.shiftRight_eq_div_pow]
    exact Nat.div_lt_of_lt_mul within
  rw [Nat.mod_eq_of_lt (Nat.lt_trans small (by decide))]
  exact Nat.mod_eq_of_lt (Nat.lt_trans (Nat.succ_lt_succ small) (by decide))

section

variable (exact : Exact manager pages ids)

include exact

/-- An unmapped page gets a pointer, and is entered for the page it points to. -/
theorem mapPage (asid : Nat) (device : 0 < page ∧ page < devicePages)
    (unmapped : manager.compressedPhysicalPtr page = 0)
    (memory : ∀ ptr, processMemory virtualAddress = some ptr → ptr < physicalSize) :
    ∃ manager' pages' ids', manager.mapPage processMemory asid page virtualAddress = .ok manager' ∧
      Exact manager' pages' ids' ∧
      ∀ d, d ≠ page → manager'.compressedPhysicalPtr d = manager.compressedPhysicalPtr d := by
  cases backed : processMemory virtualAddress with
  | none =>
    refine ⟨manager.setPhysicalPtr page 0, pages, ids, ?_, exact.congr ?_ rfl rfl,
      fun d other => ?_⟩
    · rw [DeviceMemoryManager.mapPage, backed]
    · rw [setPhysicalPtr, ← unmapped]
      exact update_eq_self _ _
    · exact update_of_ne other _ _
  | some ptr =>
    generalize pointed : ptr >>> pageBits = q
    have fresh : ∀ p, page ∉ pages p := by
      intro p mem
      rw [exact.mem, unmapped] at mem
      cases mem
    have reverse : Reverse ((manager.setPhysicalPtr page (q + 1)).insertCpuBacking page
      virtualAddress asid) pages ids :=
      exact.reverse.congr rfl rfl
    obtain ⟨manager', k, run, pointers, reverse'⟩ := reverse.insertReverse fresh device q
    refine ⟨manager', _, _, ?_, ⟨reverse', fun p d => ?_⟩, fun d other => ?_⟩
    · rw [DeviceMemoryManager.mapPage, backed]
      dsimp only
      rw [physAddr_eq (memory ptr backed), pointed]
      exact run
    · rw [pointers]
      change _ ↔ update manager.compressedPhysicalPtr page (q + 1) d = p + 1
      by_cases here : d = page
      · rw [here, update_self, Nat.add_right_cancel_iff]
        by_cases self : p = q
        · rw [self, update_self]
          exact iff_of_true (List.mem_append_right _ (List.mem_singleton_self page)) rfl
        · rw [update_of_ne self]
          exact iff_of_false (fresh p) fun is => self is.symm
      · rw [update_of_ne here, ← exact.mem]
        by_cases self : p = q
        · rw [self, update_self, List.mem_append, List.mem_singleton]
          exact or_iff_left here
        · rw [update_of_ne self]
    · rw [pointers]
      exact update_of_ne other _ _

/-- A page loses its pointer, and is no longer entered. -/
theorem unmapPage (page : Nat) :
    ∃ manager' pages' ids', manager.unmapPage page = .ok manager' ∧ Exact manager' pages' ids' := by
  by_cases unmapped : manager.compressedPhysicalPtr page = 0
  · refine ⟨_, pages, ids, if_neg (not_not_intro unmapped), exact.congr ?_ rfl rfl⟩
    change update manager.compressedPhysicalPtr page 0 = _
    rw [← unmapped]
    exact update_eq_self _ _
  · obtain ⟨q, pointed⟩ := Nat.exists_eq_succ_of_ne_zero unmapped
    obtain ⟨before, after, here⟩ := List.append_of_mem ((exact.mem q page).mpr pointed)
    have reverse : Reverse { manager.setPhysicalPtr page 0 with
        cpuBackingAddress := update manager.cpuBackingAddress page 0 } pages ids :=
      exact.reverse.congr rfl rfl
    obtain ⟨manager', k, run, pointers, reverse'⟩ := reverse.removeReverse here
    have nodup := exact.reverse.nodup q
    rw [here] at nodup
    refine ⟨manager', _, _, ?_, reverse', fun p d => ?_⟩
    · refine (if_pos unmapped).trans ?_
      rw [pointed]
      exact run
    · rw [pointers]
      change _ ↔ update manager.compressedPhysicalPtr page 0 d = p + 1
      by_cases this : d = page
      · rw [this, update_self]
        refine iff_of_false (fun mem => ?_) (Nat.succ_ne_zero p).symm
        by_cases self : p = q
        · rw [self, update_self] at mem
          exact (List.nodup_middle.mp nodup |> List.nodup_cons.mp).1 mem
        · rw [update_of_ne self, exact.mem, pointed] at mem
          exact self (Nat.succ.inj mem).symm
      · rw [update_of_ne this, ← exact.mem]
        by_cases self : p = q
        · rw [self, update_self, here, List.mem_append, List.mem_append, List.mem_cons]
          exact or_congr_right (or_iff_right this).symm
        · rw [update_of_ne self]

/-- Pages one after the other are mapped. -/
theorem mapLoop (asid virtualAddress : Nat)
    (device : ∀ j, i ≤ j → j < i + count → 0 < startPageD + j ∧ startPageD + j < devicePages)
    (unmapped : ∀ j, i ≤ j → j < i + count → manager.compressedPhysicalPtr (startPageD + j) = 0)
    (memory : ∀ v ptr, processMemory v = some ptr → ptr < physicalSize) :
    ∃ manager' pages' ids', DeviceMemoryManager.mapLoop processMemory asid startPageD virtualAddress
      count i manager = .ok manager' ∧ Exact manager' pages' ids' := by
  induction count generalizing i manager pages ids with
  | zero => exact ⟨manager, pages, ids, rfl, exact⟩
  | succ count ih =>
    have last : i < i + (count + 1) := Nat.lt_add_of_pos_right (Nat.succ_pos count)
    have later (j : Nat) (lt : j < i + 1 + count) : j < i + (count + 1) := by
      rwa [Nat.add_comm count, ← Nat.add_assoc]
    obtain ⟨manager₁, pages₁, ids₁, run, exact₁, others⟩ :=
      exact.mapPage asid (device i (Nat.le_refl i) last) (unmapped i (Nat.le_refl i) last)
      (memory (virtualAddress + i * pageSize))
    have unmapped₁ : ∀ j, i + 1 ≤ j → j < i + 1 + count →
        manager₁.compressedPhysicalPtr (startPageD + j) = 0 := by
      intro j from_next lt
      rw [others _ (by omega)]
      exact unmapped j (Nat.le_of_succ_le from_next) (later j lt)
    obtain ⟨manager', pages', ids', runs, exact'⟩ :=
      ih exact₁ (fun j le lt => device j (Nat.le_of_succ_le le) (later j lt)) unmapped₁
    refine ⟨manager', pages', ids', ?_, exact'⟩
    rw [DeviceMemoryManager.mapLoop, run, ok_bind]
    exact runs

theorem unmapLoop :
    ∃ manager' pages' ids', DeviceMemoryManager.unmapLoop startPageD count i manager =
      .ok manager' ∧ Exact manager' pages' ids' := by
  induction count generalizing i manager pages ids with
  | zero => exact ⟨manager, pages, ids, rfl, exact⟩
  | succ count ih =>
    obtain ⟨manager₁, pages₁, ids₁, run, exact₁⟩ := exact.unmapPage (startPageD + i)
    obtain ⟨manager', pages', ids', runs, exact'⟩ := ih (i := i + 1) exact₁
    refine ⟨manager', pages', ids', ?_, exact'⟩
    rw [DeviceMemoryManager.unmapLoop, run, ok_bind]
    exact runs

/-- The tracker is apart from the pointers and the entries. -/
theorem trackLoop (physicalBase : Nat) (processMemory : ProcessMemory)
    (startPageD virtualAddress count lastPtr pageCount : Nat) :
    Exact (manager.trackLoop physicalBase processMemory startPageD virtualAddress count lastPtr
      pageCount) pages ids := by
  induction count generalizing manager lastPtr pageCount with
  | zero => exact exact
  | succ index ih =>
    rw [DeviceMemoryManager.trackLoop]
    refine ih ?_ _ _
    exact exact.congr rfl rfl rfl

/-- An admissible operation comes through. -/
theorem run {operation : Operation} (physicalBase : Nat)
    (admissible : operation.Admissible 1 manager) :
    ∃ manager' pages' ids', operation.run physicalBase manager = .ok manager' ∧
      Exact manager' pages' ids' := by
  cases operation with
  | map processMemory asid address virtualAddress size track =>
    obtain ⟨unmapped, memory⟩ := admissible
    have range (j : Nat) (lt : j < 0 + numPages size) : InRange address size
      (address >>> pageBits + j) :=
      ⟨Nat.le_add_right _ _, Nat.add_lt_add_left (by rwa [Nat.zero_add] at lt) _⟩
    obtain ⟨manager₁, pages', ids', run, exact'⟩ := exact.mapLoop asid virtualAddress
      (fun j _ lt => ⟨(unmapped _ (range j lt)).1, (unmapped _ (range j lt)).2.1⟩)
      (fun j _ lt => (unmapped _ (range j lt)).2.2) memory
    cases track with
    | false =>
      refine ⟨manager₁, pages', ids', ?_, exact'⟩
      rw [Operation.run, DeviceMemoryManager.map, run, ok_bind]
      rfl
    | true =>
      refine ⟨_, pages', ids', ?_,
        exact'.trackLoop physicalBase processMemory (address >>> pageBits) virtualAddress
        (numPages size) 0 1⟩
      rw [Operation.run, DeviceMemoryManager.map, run, ok_bind]
      rfl
  | unmap address size => exact exact.unmapLoop

end

end Exact

/-- What is gathered for a physical page: the device pages that point to it, each once, or zero
where there is none. -/
def GathersExactly (manager : DeviceMemoryManager) (p : Nat) : Prop :=
  ∃ values, manager.innerGatherDeviceAddresses p = .ok values ∧
    ((∃ d, manager.compressedPhysicalPtr d = p + 1) →
      values.Nodup ∧ ∀ d, d ∈ values ↔ manager.compressedPhysicalPtr d = p + 1) ∧
    ((∀ d, manager.compressedPhysicalPtr d ≠ p + 1) → values = [0])

theorem Exact.gathers (exact : Exact manager pages ids) (p : Nat) : manager.GathersExactly p := by
  have flag_large : devicePages < multiFlag := by decide
  have listed (some_page : pages p ≠ [])
    (gathered : manager.innerGatherDeviceAddresses p = .ok (pages p)) :
    manager.GathersExactly p := by
    refine ⟨pages p, gathered, fun _ => ⟨exact.reverse.nodup p, exact.mem p⟩, fun none => ?_⟩
    obtain ⟨d, mem⟩ := List.exists_mem_of_ne_nil _ some_page
    exact absurd ((exact.mem p d).mp mem) (none d)
  match held : pages p with
  | [] =>
    have entry : manager.compressedDeviceAddr p = 0 := by
      rw [(exact.reverse.inline p (by rw [held]; exact Nat.zero_le 1)).2, held]
      rfl
    have none (d : Nat) : manager.compressedPhysicalPtr d ≠ p + 1 := by
      intro pointer
      rw [← exact.mem, held] at pointer
      cases pointer
    refine ⟨[0], ?_, fun some_page => ?_, fun _ => rfl⟩
    · rw [innerGatherDeviceAddresses, entry]
      rfl
    · obtain ⟨d, pointer⟩ := some_page
      exact absurd pointer (none d)
  | [b] =>
    have entry : manager.compressedDeviceAddr p = b := by
      rw [(exact.reverse.inline p (by rw [held]; exact Nat.le_refl 1)).2, held]
      rfl
    have small := (exact.reverse.device p b (by rw [held]; exact List.mem_singleton_self b)).2
    refine listed (by rw [held]; exact List.cons_ne_nil b []) ?_
    rw [innerGatherDeviceAddresses, entry, if_neg (not_not_intro (shift_inline small)), held]
  | b :: c :: more =>
    have many : 1 < (pages p).length := by
      rw [held]
      exact Nat.succ_lt_succ (Nat.succ_pos _)
    obtain ⟨⟨start, head, entry⟩, values⟩ := exact.reverse.multi p many
    obtain ⟨rest, here⟩ := List.head?_eq_some_iff.mp head
    have inside := exact.reverse.pool.inside p
    have within : start < multiFlag := by
      have le := (inside start (List.mem_of_mem_head? head)).2
      have small := exact.reverse.size_le
      omega
    have linked := exact.reverse.pool.linked p
    have length := exact.reverse.pool.length_le p
    rw [here] at linked inside length values
    refine listed (by rw [held]; exact List.cons_ne_nil _ _) ?_
    rw [innerGatherDeviceAddresses, entry, if_pos (shift_multi within), mask_multi within,
      gatherValues, entry_of (inside start List.mem_cons_self), ok_bind,
      gatherLoop_eq linked.2 (fun e mem => inside e (List.mem_cons_of_mem start mem))
      (Nat.le_of_succ_le length), ← values]
    rfl

/-- The lists of the container are those that the entries start, and every other entry is free. -/
def ListsExactly (manager : DeviceMemoryManager) : Prop :=
  ∃ lists, Pool manager.multiDevAddress lists none ∧
    ∀ p, (manager.compressedDeviceAddr p >>> multiFlagBits = 0 → lists p = []) ∧
      (manager.compressedDeviceAddr p >>> multiFlagBits ≠ 0 →
        (lists p).head? = some (manager.compressedDeviceAddr p &&& multiMask))

theorem Exact.lists (exact : Exact manager pages ids) : manager.ListsExactly := by
  have flag_large : devicePages < multiFlag := by decide
  refine ⟨ids, exact.reverse.pool, fun p => ?_⟩
  by_cases single : (pages p).length ≤ 1
  · obtain ⟨none, entry⟩ := exact.reverse.inline p single
    have small : manager.compressedDeviceAddr p < devicePages := by
      rw [entry]
      cases held : pages p with
      | nil => exact Nat.two_pow_pos 22
      | cons b more => exact (exact.reverse.device p b (by rw [held]; exact List.mem_cons_self)).2
    exact ⟨fun _ => none, fun multi => absurd (shift_inline small) multi⟩
  · obtain ⟨⟨start, head, entry⟩, -⟩ := exact.reverse.multi p (Nat.lt_of_not_le single)
    have within : start < multiFlag := by
      have le := (exact.reverse.pool.inside p start (List.mem_of_mem_head? head)).2
      have small := exact.reverse.size_le
      omega
    rw [entry, mask_multi within]
    exact ⟨fun inline => absurd inline (shift_multi within), fun _ => head⟩

theorem Reached.exact (reached : Reached physicalBase (Operation.Admissible 1) manager) :
    ∃ pages ids, Exact manager pages ids := by
  induction reached with
  | new => exact ⟨_, _, Exact.new⟩
  | step operation _ admissible run ih =>
    obtain ⟨pages, ids, exact⟩ := ih
    obtain ⟨manager', pages', ids', run', exact'⟩ := exact.run physicalBase admissible
    cases run.symm.trans run'
    exact ⟨pages', ids', exact'⟩

/-- A page is mapped to the first page of the memory. -/
def mapFirst (page : Nat) : Operation := .map (fun _ => some 0) 0 (page * pageSize) 0 pageSize false

theorem mapFirst_admissible (page : Nat) (within : first ≤ page ∧ page < devicePages)
    (unmapped : manager.compressedPhysicalPtr page = 0) :
    (mapFirst page).Admissible first manager := by
  have one : numPages pageSize = 1 := by decide
  have start : (page * pageSize) >>> pageBits = page := by
    rw [Nat.shiftRight_eq_div_pow]
    exact Nat.mul_div_cancel page (Nat.two_pow_pos pageBits)
  refine ⟨fun d range => ?_, fun _ address is => ?_⟩
  · rw [InRange, start, one] at range
    obtain rfl : d = page := Nat.le_antisymm (Nat.le_of_lt_succ range.2) range.1
    exact ⟨within.1, within.2, unmapped⟩
  · cases is
    exact Nat.two_pow_pos 33

end DeviceMemoryManager

end SumiEmu.Core
