/-
# Blocks and single bytes

A walk over a block goes from run to run of the tracker. Where the runs are those of the pointers,
a block that is read or written is the bytes that its addresses point to, and a span is a pointer
to all of them. An unmapping of a part of a run leaves the tracker as it was, and the walk goes on
through what is no longer mapped.
-/

import SumiEmu.Core.DeviceMemoryManagerContinuity

namespace SumiEmu.Core

namespace DeviceMemoryManager

variable {manager : DeviceMemoryManager}
    {physicalBase page offset address size rounds pageIndex pageOffset remaining : Nat}

/-- The bytes of the address space of the device. -/
def deviceSize : Nat := devicePages * pageSize

/-- The byte at the pointer of an address, or zero where the page is unmapped. -/
def byteAt (manager : DeviceMemoryManager) (physicalBase : Nat) (memory : Bytes) (address : Nat) :
    UInt8 :=
  match manager.getPointer physicalBase address with
  | some pointer => memory pointer
  | none => 0

/-- Blocks and spans are what single bytes are. -/
structure FollowsPointers (manager : DeviceMemoryManager) (physicalBase : Nat) : Prop where
  read : ∀ (memory dest : Bytes) (address destPointer size : Nat), address + size ≤ deviceSize →
    ∃ copying, manager.readBlockUnsafe physicalBase memory address dest destPointer size =
    some copying ∧ ∀ i, copying.bytes i = if destPointer ≤ i ∧ i < destPointer + size then
          manager.byteAt physicalBase memory (address + (i - destPointer))
        else dest i
  write : ∀ (memory src : Bytes) (address srcPointer size : Nat), address + size ≤ deviceSize →
    ∃ copying, manager.writeBlockUnsafe physicalBase memory address src srcPointer size =
    some copying ∧ (∀ i, i < size → ∀ pointer,
    manager.getPointer physicalBase (address + i) = some pointer →
    (∀ j, i < j → j < size → manager.getPointer physicalBase (address + j) ≠ some pointer) →
    copying.bytes pointer = src (srcPointer + i)) ∧
    ∀ pointer, (∀ i, i < size → manager.getPointer physicalBase (address + i) ≠ some pointer) →
    copying.bytes pointer = memory pointer
  span : ∀ address size pointer, address + size ≤ deviceSize →
    manager.getSpan physicalBase address size = some pointer →
      ∀ i, i < size → manager.getPointer physicalBase (address + i) = some (pointer + i)

/-! ## Walks -/

theorem page_of (page offset : Nat) :
    (page * pageSize + offset) >>> pageBits = page + offset / pageSize := by
  rw [Nat.shiftRight_eq_div_pow, Nat.add_comm]
  change (offset + page * 2 ^ pageBits) / 2 ^ pageBits = page + offset / 2 ^ pageBits
  rw [Nat.add_mul_div_right _ _ (Nat.two_pow_pos pageBits), Nat.add_comm]

/-- The pointers of the addresses in a run. -/
theorem Tracked.getPointer_eq (tracked : Tracked manager) (physicalBase : Nat)
    (lt : offset < manager.continuityTracker page <<< pageBits) :
    manager.getPointer physicalBase (page * pageSize + offset) =
      if manager.compressedPhysicalPtr page = 0 then none
      else some (physicalBase +
        ((manager.compressedPhysicalPtr page - 1) <<< pageBits + offset)) := by
  have inside : offset / pageSize < manager.continuityTracker page := by
    rw [Nat.shiftLeft_eq] at lt
    exact Nat.div_lt_of_lt_mul (by rwa [Nat.mul_comm])
  rw [getPointer, page_of, Nat.mul_comm page, Nat.mul_add_mod]
  by_cases unmapped : manager.compressedPhysicalPtr page = 0
  · rw [tracked.unmapped page unmapped _ inside, if_pos unmapped]
    rfl
  · have split := Nat.div_add_mod offset pageSize
    have pages : (manager.compressedPhysicalPtr page + offset / pageSize - 1) <<< pageBits =
        (manager.compressedPhysicalPtr page - 1) <<< pageBits + pageSize * (offset / pageSize) := by
      rw [Nat.sub_add_comm (Nat.pos_of_ne_zero unmapped), Nat.shiftLeft_eq, Nat.shiftLeft_eq,
        Nat.add_mul, Nat.mul_comm pageSize]
      rfl
    have some_page : manager.compressedPhysicalPtr page + offset / pageSize ≠ 0 :=
      Nat.ne_of_gt (Nat.add_pos_left (Nat.pos_of_ne_zero unmapped) _)
    rw [tracked.mapped page unmapped _ inside, if_neg unmapped, if_neg some_page, pages,
      Nat.add_assoc, split]

variable {σ : Type} {onUnmapped : Nat → σ → σ} {onMemory : Nat → Nat → σ → σ}
    {increment : Nat → σ → σ}

/-- What holds of the empty walk, of a piece without pointers and of one with pointers one after the
other, and of two walks together, holds of a walk. -/
theorem Tracked.walkBlock (tracked : Tracked manager) {Walked : Nat → Nat → σ → σ → Prop}
    (nil : ∀ address state, Walked address 0 state state)
    (unmapped : ∀ address amount state,
    (∀ i, i < amount → manager.getPointer physicalBase (address + i) = none) →
      Walked address amount state (increment amount (onUnmapped amount state)))
    (mapped : ∀ address amount pointer state,
      (∀ i, i < amount → manager.getPointer physicalBase (address + i) = some (pointer + i)) →
      Walked address amount state (increment amount (onMemory amount pointer state)))
    (append : ∀ address amount rest state state' state'', Walked address amount state state' →
      Walked (address + amount) rest state' state'' → Walked address (amount + rest) state state'')
    (pageIndex : Nat) (start : pageOffset < pageSize) (enough : remaining ≤ rounds) (state : σ) :
    ∃ state', manager.walkBlock physicalBase onUnmapped onMemory increment rounds pageIndex
      pageOffset remaining state = some state' ∧
      Walked (pageIndex * pageSize + pageOffset) remaining state state' := by
  induction rounds generalizing pageIndex pageOffset remaining state with
  | zero =>
    obtain rfl : remaining = 0 := Nat.le_zero.mp enough
    exact ⟨state, rfl, nil _ _⟩
  | succ rounds ih =>
    by_cases done : remaining = 0
    · rw [done]
      exact ⟨state, rfl, nil _ _⟩
    · rw [DeviceMemoryManager.walkBlock, if_neg done]
      dsimp only
      have run : pageSize ≤ manager.continuityTracker pageIndex <<< pageBits := by
        rw [Nat.shiftLeft_eq]
        exact Nat.le_mul_of_pos_left _ (tracked.positive pageIndex)
      generalize amount_eq : min (manager.continuityTracker pageIndex <<< pageBits - pageOffset)
        remaining = amount
      have positive : 0 < amount := by omega
      have within (i : Nat) (lt : i < amount) : pageOffset + i <
        manager.continuityTracker pageIndex <<< pageBits := by omega
      have piece (i : Nat) (lt : i < amount) := tracked.getPointer_eq physicalBase (within i lt)
      -- the walk of this round, and of the rounds behind it
      generalize next_eq : (if manager.compressedPhysicalPtr pageIndex = 0
        then onUnmapped amount state else onMemory amount (physicalBase +
        ((manager.compressedPhysicalPtr pageIndex - 1) <<< pageBits + pageOffset)) state) = next
      have first : Walked (pageIndex * pageSize + pageOffset) amount state
          (increment amount next) := by
        rw [← next_eq]
        by_cases absent : manager.compressedPhysicalPtr pageIndex = 0
        · rw [if_pos absent]
          refine unmapped _ _ _ fun i lt => ?_
          rw [Nat.add_assoc, piece i lt, if_pos absent]
        · rw [if_neg absent]
          refine mapped _ _ _ _ fun i lt => ?_
          rw [Nat.add_assoc, piece i lt, if_neg absent, Nat.add_assoc, Nat.add_assoc]
      have fewer : remaining - amount ≤ rounds := by omega
      obtain ⟨state', walk, rest⟩ :=
        ih (pageIndex + manager.continuityTracker pageIndex) (Nat.two_pow_pos pageBits) fewer
          (increment amount next)
      refine ⟨state', walk, ?_⟩
      have split : remaining = amount + (remaining - amount) := by omega
      rw [split]
      refine append _ _ _ _ _ _ first ?_
      by_cases last : remaining - amount = 0
      · rw [last] at walk ⊢
        have same : state' = increment amount next := by
          cases rounds with
          | zero => exact (Option.some.inj walk).symm
          | succ rounds => exact (Option.some.inj walk).symm
        rw [same]
        exact nil _ _
      · have next_page : pageIndex * pageSize + pageOffset + amount =
            (pageIndex + manager.continuityTracker pageIndex) * pageSize + 0 := by
          rw [Nat.shiftLeft_eq] at run amount_eq
          rw [Nat.add_mul]
          change _ = pageIndex * pageSize + manager.continuityTracker pageIndex * 2 ^ pageBits + 0
          omega
        rw [next_page]
        exact rest

theorem address_split (address : Nat) :
    (address >>> pageBits) * pageSize + address % pageSize = address := by
  rw [Nat.shiftRight_eq_div_pow, Nat.mul_comm]
  exact Nat.div_add_mod address pageSize

theorem Tracked.read (tracked : Tracked manager) (memory dest : Bytes)
    (address destPointer size : Nat) :
    ∃ copying, manager.readBlockUnsafe physicalBase memory address dest destPointer size =
      some copying ∧ ∀ i, copying.bytes i = if destPointer ≤ i ∧ i < destPointer + size then
          manager.byteAt physicalBase memory (address + (i - destPointer))
        else dest i := by
  let Walked (address amount : Nat) (state state' : Copying) : Prop :=
    state'.pointer = state.pointer + amount ∧ ∀ i, state'.bytes i =
      if state.pointer ≤ i ∧ i < state.pointer + amount then
        manager.byteAt physicalBase memory (address + (i - state.pointer))
      else state.bytes i
  suffices walk : ∃ copying,
    manager.readBlockUnsafe physicalBase memory address dest destPointer size = some copying ∧
      Walked (address >>> pageBits * pageSize + address % pageSize) size ⟨dest, destPointer⟩
      copying by
    rw [address_split] at walk
    obtain ⟨copying, run, -, bytes⟩ := walk
    exact ⟨copying, run, bytes⟩
  refine tracked.walkBlock ?nil ?unmapped ?mapped ?append (address >>> pageBits)
    (Nat.mod_lt address (Nat.two_pow_pos pageBits)) (Nat.le_refl size) (Copying.mk dest destPointer)
  case nil =>
    intro address state
    refine ⟨rfl, fun i => ?_⟩
    rw [if_neg (by omega)]
  case unmapped =>
    intro address amount state unmapped
    refine ⟨rfl, fun i => ?_⟩
    change (if _ then _ else _) = _
    by_cases inside : state.pointer ≤ i ∧ i < state.pointer + amount
    · rw [if_pos inside, if_pos inside, byteAt, unmapped (i - state.pointer) (by omega)]
    · rw [if_neg inside, if_neg inside]
  case mapped =>
    intro address amount pointer state mapped
    refine ⟨rfl, fun i => ?_⟩
    change (if _ then _ else _) = _
    by_cases inside : state.pointer ≤ i ∧ i < state.pointer + amount
    · rw [if_pos inside, if_pos inside, byteAt, mapped (i - state.pointer) (by omega)]
    · rw [if_neg inside, if_neg inside]
  case append =>
    intro address amount rest state state' state'' first second
    obtain ⟨pointer, bytes⟩ := first
    obtain ⟨pointer', bytes'⟩ := second
    refine ⟨by rw [pointer', pointer, Nat.add_assoc], fun i => ?_⟩
    rw [bytes', bytes, pointer]
    by_cases early : state.pointer ≤ i ∧ i < state.pointer + amount
    · rw [if_neg (by omega), if_pos early, if_pos (by omega)]
    · rw [if_neg early]
      by_cases late : state.pointer + amount ≤ i ∧ i < state.pointer + amount + rest
      · rw [if_pos late, if_pos (by omega), Nat.add_assoc, Nat.sub_add_eq,
          Nat.add_sub_cancel' (by omega)]
      · rw [if_neg late, if_neg (by omega)]

theorem Tracked.write (tracked : Tracked manager) (memory src : Bytes)
    (address srcPointer size : Nat) :
    ∃ copying, manager.writeBlockUnsafe physicalBase memory address src srcPointer size =
      some copying ∧ (∀ i, i < size → ∀ pointer,
      manager.getPointer physicalBase (address + i) = some pointer →
      (∀ j, i < j → j < size → manager.getPointer physicalBase (address + j) ≠ some pointer) →
      copying.bytes pointer = src (srcPointer + i)) ∧ ∀ pointer,
      (∀ i, i < size → manager.getPointer physicalBase (address + i) ≠ some pointer) →
      copying.bytes pointer = memory pointer := by
  let Walked (address amount : Nat) (state state' : Copying) : Prop :=
    state'.pointer = state.pointer + amount ∧
      (∀ i, i < amount → ∀ pointer, manager.getPointer physicalBase (address + i) = some pointer →
        (∀ j, i < j → j < amount → manager.getPointer physicalBase (address + j) ≠ some pointer) →
          state'.bytes pointer = src (state.pointer + i)) ∧
      ∀ pointer, (∀ i, i < amount → manager.getPointer physicalBase (address + i) ≠ some pointer) →
        state'.bytes pointer = state.bytes pointer
  suffices walk : ∃ copying,
    manager.writeBlockUnsafe physicalBase memory address src srcPointer size = some copying ∧ Walked
    (address >>> pageBits * pageSize + address % pageSize) size ⟨memory, srcPointer⟩ copying by
    rw [address_split] at walk
    obtain ⟨copying, run, -, bytes⟩ := walk
    exact ⟨copying, run, bytes⟩
  refine tracked.walkBlock ?nil ?unmapped ?mapped ?append (address >>> pageBits)
    (Nat.mod_lt address (Nat.two_pow_pos pageBits)) (Nat.le_refl size)
    (Copying.mk memory srcPointer)
  case nil =>
    intro address state
    exact ⟨rfl, fun i lt => absurd lt (Nat.not_lt_zero i), fun _ _ => rfl⟩
  case unmapped =>
    intro address amount state unmapped
    refine ⟨rfl, fun i lt pointer pointed => ?_, fun _ _ => rfl⟩
    rw [unmapped i lt] at pointed
    cases pointed
  case mapped =>
    intro address amount start state mapped
    refine ⟨rfl, fun i lt pointer pointed _ => ?_, fun pointer out => ?_⟩
    · rw [mapped i lt, Option.some.injEq] at pointed
      rw [← pointed]
      refine (if_pos ⟨Nat.le_add_right _ _, Nat.add_lt_add_left lt _⟩).trans ?_
      rw [Nat.add_sub_cancel_left]
    · refine if_neg fun inside => out (pointer - start) (by omega) ?_
      rw [mapped (pointer - start) (by omega), Nat.add_sub_cancel' inside.1]
  case append =>
    intro address amount rest state state' state'' first second
    obtain ⟨moved, written, kept⟩ := first
    obtain ⟨moved', written', kept'⟩ := second
    refine ⟨by rw [moved', moved,
      Nat.add_assoc], fun i lt pointer pointed last => ?_, fun pointer out => ?_⟩
    · by_cases early : i < amount
      · -- the rest of the walk does not come back to this pointer
        rw [kept' pointer fun j within => ?_]
        · exact written i early pointer pointed fun j later within =>
            last j later (Nat.lt_add_right rest within)
        · rw [Nat.add_assoc]
          exact last (amount + j) (by omega) (Nat.add_lt_add_left within amount)
      · obtain ⟨j, rfl⟩ := Nat.exists_eq_add_of_le (Nat.le_of_not_lt early)
        rw [written' j (Nat.lt_of_add_lt_add_left lt) pointer (by rwa [Nat.add_assoc]), moved,
          Nat.add_assoc]
        intro k later within
        rw [Nat.add_assoc]
        exact last (amount + k) (Nat.add_lt_add_left later amount)
          (Nat.add_lt_add_left within amount)
    · rw [kept' pointer, kept pointer]
      · exact fun i lt => out i (Nat.lt_add_right rest lt)
      · intro j within
        rw [Nat.add_assoc]
        exact out (amount + j) (Nat.add_lt_add_left within amount)

theorem Tracked.span {pointer : Nat} (tracked : Tracked manager)
    (within : address + size ≤ deviceSize)
    (span : manager.getSpan physicalBase address size = some pointer) {i : Nat} (lt : i < size) :
    manager.getPointer physicalBase (address + i) = some (pointer + i) := by
  have below : address % pageSize < pageSize := Nat.mod_lt address (Nat.two_pow_pos pageBits)
  have no_wrap : (size + address % pageSize) % 2 ^ 64 = size + address % pageSize := by
    refine Nat.mod_eq_of_lt ?_
    have device : deviceSize + pageSize < 2 ^ 64 := by decide
    omega
  rw [getSpan, no_wrap] at span
  split at span
  · rename_i run
    rw [← address_split address] at span ⊢
    rw [tracked.getPointer_eq physicalBase (by omega)] at span
    rw [Nat.add_assoc, tracked.getPointer_eq physicalBase (by omega)]
    split at span
    · cases span
    · rename_i mapped
      rw [if_neg mapped, ← Option.some.inj span, Nat.add_assoc, Nat.add_assoc]
  · cases span

/-- Two pages behind each other are mapped from page four on. -/
def mapTwo : Operation :=
  .map (fun v => if v < 2 * pageSize then some v else none) 0 (4 * pageSize) 0 (2 * pageSize) true

theorem mapTwo_allowed : mapTwo.Admissible 0 .new ∧ mapTwo.Tracks ∧ mapTwo.KeepsRuns .new := by
  refine ⟨⟨fun page range => ?_, fun v a is => ?_⟩, ⟨rfl, rfl, rfl⟩, fun i out _ j lt there => ?_⟩
  · exact ⟨Nat.zero_le page, Nat.lt_trans range.2 (by decide), rfl⟩
  · change (if v < 2 * pageSize then some v else none) = some a at is
    split at is
    · rename_i within
      cases is
      exact Nat.lt_trans within (by decide)
    · cases is
  · obtain rfl : j = 0 := Nat.lt_one_iff.mp lt
    exact absurd there out

end DeviceMemoryManager

end SumiEmu.Core
