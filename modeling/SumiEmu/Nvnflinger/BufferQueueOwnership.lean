/-
# Who owns a slot of the buffer queue

A slot belongs to the producer, to the queue or to the consumer, or it is free. An item of
the queue owns its slot while it still points to the slot's buffer, and the slot is queued
exactly then. A section changes a slot in one of a few ways, and every statement here is
read off these.
-/

import SumiEmu.Nvnflinger.BufferQueue

namespace SumiEmu.Nvnflinger

open Function List

variable {slots slots' : Slot → BufferSlot} {queue queue' rest : List BufferItem}
  {item front : BufferItem} {next : Nat} {n m : Slot} {s s' : State} {a : Action} {r : Reply}

/-- Where the buffer of an item was made. -/
def BufferItem.address (item : BufferItem) : Option Nat := item.graphicBuffer.map (·.address)

/-- Where the buffer of a slot was made. -/
def BufferSlot.address (slot : BufferSlot) : Option Nat := slot.graphicBuffer.map (·.address)

theorem stillTracking_iff :
    StillTracking slots item ↔ ∃ place, item.address = some place ∧
      (slots item.slot).address = some place := by
  rw [StillTracking, BufferItem.address, BufferSlot.address]
  cases (slots item.slot).graphicBuffer <;> simp

/-- An item tracks a slot by that slot alone. -/
theorem stillTracking_congr (same : (slots' item.slot).address = (slots item.slot).address) :
    StillTracking slots' item ↔ StillTracking slots item := by
  rw [stillTracking_iff, stillTracking_iff, same]

/-! ## What is owned -/

/-- The items of the queue and the queued slots own each other. -/
structure Owned (slots : Slot → BufferSlot) (queue : List BufferItem) (next : Nat) : Prop where
  queued : ∀ item ∈ queue, StillTracking slots item → (slots item.slot).bufferState = .queued
  held : ∀ n, (slots n).bufferState = .queued → ∃ item ∈ queue, item.slot = n ∧
    StillTracking slots item
  apart : queue.Pairwise fun x y => x.slot = y.slot → x.address ≠ y.address
  old : ∀ item ∈ queue, ∀ place ∈ item.address, place < next
  known : ∀ n, ∀ place ∈ (slots n).address, place < next

/-- A slot that is not used is let go: it keeps its state and its buffer, or comes into a state
in which no item tracks it. -/
inductive Loosened (old new : BufferSlot) : Prop where
  | same (state : new.bufferState = old.bufferState) (address : new.address = old.address)
  | emptied (state : new.bufferState ≠ .queued) (address : new.address = none)
  | kept (before : old.bufferState ≠ .queued) (state : new.bufferState ≠ .queued)
      (address : new.address = old.address)

namespace Owned

section

variable (owned : Owned slots queue next)

include owned

theorem loosened (loose : ∀ n, Loosened (slots n) (slots' n)) :
    Owned slots' queue next := by
  -- An item that tracks after the change has tracked before it, and its slot is queued still.
  have tracking : ∀ item ∈ queue, StillTracking slots' item →
      StillTracking slots item ∧ (slots' item.slot).bufferState = .queued := by
    intro item member tracks
    rcases loose item.slot with ⟨state, address⟩ | ⟨state, address⟩ | ⟨before, state, address⟩
    · have tracked := (stillTracking_congr address).mp tracks
      exact ⟨tracked, state.trans (owned.queued item member tracked)⟩
    · obtain ⟨place, -, absent⟩ := stillTracking_iff.mp tracks
      rw [address] at absent
      cases absent
    · exact absurd (owned.queued item member ((stillTracking_congr address).mp tracks)) before
  constructor
  · exact fun item member tracks => (tracking item member tracks).2
  · intro n queued
    rcases loose n with ⟨state, address⟩ | ⟨state, -⟩ | ⟨-, state, -⟩
    · obtain ⟨item, member, rfl, tracks⟩ := owned.held n (state ▸ queued)
      exact ⟨item, member, rfl, (stillTracking_congr address).mpr tracks⟩
    · exact absurd queued state
    · exact absurd queued state
  · exact owned.apart
  · exact owned.old
  · intro n place present
    rcases loose n with ⟨-, address⟩ | ⟨-, address⟩ | ⟨-, -, address⟩
    · exact owned.known n place (address ▸ present)
    · rw [address] at present
      cases present
    · exact owned.known n place (address ▸ present)

/-- With no slot queued there need not be any items. -/
theorem nil (idle : ∀ n, (slots n).bufferState ≠ .queued) :
    Owned slots [] next where
  queued _ member := absurd member not_mem_nil
  held n queued := absurd queued (idle n)
  apart := .nil
  old _ member := absurd member not_mem_nil
  known := owned.known

theorem perm (perm : queue.Perm queue') : Owned slots queue' next where
  queued item member := owned.queued item (perm.mem_iff.mpr member)
  held n queued := by
    obtain ⟨item, member, tracks⟩ := owned.held n queued
    exact ⟨item, perm.mem_iff.mp member, tracks⟩
  apart := by
    refine (perm.pairwise_iff ?_).mp owned.apart
    exact fun distinct same address => distinct same.symm address.symm
  old item member := owned.old item (perm.mem_iff.mpr member)
  known := owned.known

/-- A slot that gets a new buffer is not tracked by any item. -/
theorem filled {slot : BufferSlot} (state : slot.bufferState ≠ .queued)
    (address : slot.address = some next) : Owned (update slots n slot) queue (next + 1) := by
  have stale : ∀ item ∈ queue, item.slot = n → ¬ StillTracking (update slots n slot) item := by
    rintro item member rfl tracks
    obtain ⟨place, present, same⟩ := stillTracking_iff.mp tracks
    rw [update_self, address] at same
    cases same
    exact Nat.lt_irrefl _ (owned.old item member _ present)
  have other {item : BufferItem} (ne : item.slot ≠ n) :
      StillTracking (update slots n slot) item ↔ StillTracking slots item :=
    stillTracking_congr (by rw [update_of_ne ne])
  constructor
  · intro item member tracks
    have ne : item.slot ≠ n := fun same => stale item member same tracks
    rw [update_of_ne ne]
    exact owned.queued item member ((other ne).mp tracks)
  · intro m queued
    by_cases same : m = n
    · subst same
      rw [update_self] at queued
      exact absurd queued state
    · rw [update_of_ne same] at queued
      obtain ⟨item, member, rfl, tracks⟩ := owned.held m queued
      exact ⟨item, member, rfl, (other same).mpr tracks⟩
  · exact owned.apart
  · exact fun item member place present => Nat.lt_succ_of_lt (owned.old item member place present)
  · intro m place present
    by_cases same : m = n
    · subst same
      rw [update_self, address] at present
      cases present
      exact Nat.lt_succ_self _
    · rw [update_of_ne same] at present
      exact Nat.lt_succ_of_lt (owned.known m place present)

/-- The slot of a new item becomes queued. -/
theorem pushed {slot : BufferSlot} (notQueued : (slots n).bufferState ≠ .queued)
    (present : (slots n).address ≠ none) (itemSlot : item.slot = n)
    (itemAddress : item.address = (slots n).address)
    (state : slot.bufferState = .queued) (address : slot.address = (slots n).address) :
    Owned (update slots n slot) (item :: queue) next := by
  have tracked {item : BufferItem} :
      StillTracking (update slots n slot) item ↔ StillTracking slots item := by
    refine stillTracking_congr ?_
    by_cases same : item.slot = n
    · rw [same, update_self, address]
    · rw [update_of_ne same]
  -- An item behind the new one that points to the same buffer would have kept the slot queued.
  have stale : ∀ other ∈ queue, n = other.slot → item.address ≠ other.address := by
    rintro other member rfl same
    obtain ⟨place, stored⟩ := Option.ne_none_iff_exists'.mp present
    exact notQueued (owned.queued other member
      (stillTracking_iff.mpr ⟨place, (same.symm.trans itemAddress).trans stored, stored⟩))
  subst itemSlot
  constructor
  · intro other member tracks
    rcases mem_cons.mp member with rfl | member
    · rw [update_self, state]
    · have ne : other.slot ≠ item.slot := by
        intro same
        exact notQueued (same ▸ owned.queued other member (tracked.mp tracks))
      rw [update_of_ne ne]
      exact owned.queued other member (tracked.mp tracks)
  · intro m queued
    by_cases same : m = item.slot
    · obtain ⟨place, stored⟩ := Option.ne_none_iff_exists'.mp present
      refine ⟨item, mem_cons_self, same.symm, tracked.mpr ?_⟩
      exact stillTracking_iff.mpr ⟨place, itemAddress.trans stored, stored⟩
    · rw [update_of_ne same] at queued
      obtain ⟨other, member, slot, tracks⟩ := owned.held m queued
      exact ⟨other, mem_cons_of_mem _ member, slot, tracked.mpr tracks⟩
  · exact pairwise_cons.mpr ⟨stale, owned.apart⟩
  · intro other member place stored
    rcases mem_cons.mp member with rfl | member
    · rw [itemAddress] at stored
      exact owned.known _ place stored
    · exact owned.old other member place stored
  · intro m place present
    by_cases same : m = item.slot
    · rw [same, update_self, address] at present
      exact owned.known _ place present
    · rw [update_of_ne same] at present
      exact owned.known m place present

end

/-- The front leaves the queue, and its slot goes with it if it is still tracked. -/
theorem popped (owned : Owned slots (front :: rest) next) {f : BufferSlot → BufferSlot}
    (state : ∀ slot, (f slot).bufferState ≠ .queued)
    (address : ∀ slot, (f slot).address = slot.address) :
    Owned (if StillTracking slots front then update slots front.slot (f (slots front.slot))
      else slots) rest next := by
  obtain ⟨apart, restApart⟩ := pairwise_cons.mp owned.apart
  -- No other item points to the buffer that the front tracks.
  have alone : StillTracking slots front → ∀ item ∈ rest, StillTracking slots item →
      item.slot ≠ front.slot := by
    intro tracks item member other same
    obtain ⟨place, here, stored⟩ := stillTracking_iff.mp tracks
    obtain ⟨place', there, stored'⟩ := stillTracking_iff.mp other
    rw [same, stored] at stored'
    exact apart item member same.symm (here.trans (stored'.trans there.symm))
  have tail : ∀ item ∈ rest, StillTracking slots item → (slots item.slot).bufferState = .queued :=
    fun item member => owned.queued item (mem_cons_of_mem _ member)
  have old : ∀ item ∈ rest, ∀ place ∈ item.address, place < next :=
    fun item member => owned.old item (mem_cons_of_mem _ member)
  split
  case isTrue tracks =>
    have tracked {item : BufferItem} :
        StillTracking (update slots front.slot (f (slots front.slot))) item ↔
          StillTracking slots item := by
      refine stillTracking_congr ?_
      by_cases same : item.slot = front.slot
      · rw [same, update_self, address]
      · rw [update_of_ne same]
    constructor
    · intro item member other
      rw [update_of_ne (alone tracks item member (tracked.mp other))]
      exact tail item member (tracked.mp other)
    · intro m queued
      by_cases same : m = front.slot
      · rw [same, update_self] at queued
        exact absurd queued (state _)
      · rw [update_of_ne same] at queued
        obtain ⟨item, member, slot, other⟩ := owned.held m queued
        rcases mem_cons.mp member with rfl | member
        · exact absurd slot.symm same
        · exact ⟨item, member, slot, tracked.mpr other⟩
    · exact restApart
    · exact old
    · intro m place present
      by_cases same : m = front.slot
      · rw [same, update_self, address] at present
        exact owned.known _ place present
      · rw [update_of_ne same] at present
        exact owned.known m place present
  case isFalse lost =>
    refine ⟨tail, ?_, restApart, old, owned.known⟩
    intro m queued
    obtain ⟨item, member, slot, tracks⟩ := owned.held m queued
    rcases mem_cons.mp member with rfl | member
    · exact absurd tracks lost
    · exact ⟨item, member, slot, tracks⟩

end Owned

/-! ## How a section changes a slot -/

/-- The sections of `DequeueBuffer` that look for a slot. -/
def Action.Dequeues : Action → Prop
  | .dequeueBuffer .. | .dequeueWoken => True
  | _ => False

/-- The slot that is given to the producer. -/
def Reply.slot : Reply → Option Slot
  | .allocating n => some n
  | .dequeued n _ _ => some n
  | _ => none

/-- A call of `DequeueBuffer` takes a slot for the producer. -/
def HandsOut (a : Action) (r : Reply) (n : Slot) : Prop := a.Dequeues ∧ r.slot = some n

/-- The calls that free a slot, and what it has been before. -/
def Frees (a : Action) (n : Slot) (before : BufferState) : Prop :=
  match a with
  | .cancelBuffer slot _ => slotAt slot = some n ∧ before = .dequeued
  | .detachBuffer slot => slotAt slot = some n ∧ before = .dequeued
  | .setPreallocatedBuffer slot _ => slotAt slot = some n
  | .disconnect _ => True
  | .setBufferCount _ => True
  | .releaseBuffer slot _ => slotAt slot = some n ∧ before = .acquired
  -- Items are dropped or replaced, and their slots are not used any more.
  | .acquireBuffer _ => before = .queued
  | .queueBuffer _ _ => before = .queued
  | _ => False

/-- The ways of one slot through a section. -/
inductive Transition (a : Action) (r : Reply) (n : Slot) : BufferState → BufferState → Prop where
  | stay (state : BufferState) : Transition a r n state state
  | dequeue (handsOut : HandsOut a r n) : Transition a r n .free .dequeued
  | queue (slot : Int) (input : QueueBufferInput) (call : a = .queueBuffer slot input)
      (at_slot : slotAt slot = some n) : Transition a r n .dequeued .queued
  | acquire (expectedPresent : Int) (call : a = .acquireBuffer expectedPresent) : Transition a r n
      .queued .acquired
  | free (before : BufferState) (frees : Frees a n before) : Transition a r n before .free

variable {before : BufferState}

/-- A slot that the producer holds has been its own before, or is handed out. -/
theorem Transition.of_dequeued (move : Transition a r n before .dequeued) :
    before = .dequeued ∨ HandsOut a r n := by
  cases move with
  | stay => exact .inl rfl
  | dequeue handsOut => exact .inr handsOut

/-- Only `QueueBuffer` queues a slot. -/
theorem Transition.of_queued (move : Transition a r n before .queued) :
    before = .queued ∨ before = .dequeued ∧ ∃ slot input, a = .queueBuffer slot input ∧
      slotAt slot = some n := by
  cases move with
  | stay => exact .inl rfl
  | queue slot input call place => exact .inr ⟨rfl, slot, input, call, place⟩

/-- Only queued slots are acquired, by `AcquireBuffer`. -/
theorem Transition.of_acquired (move : Transition a r n before .acquired) :
    before = .acquired ∨ before = .queued ∧
      ∃ expectedPresent, a = .acquireBuffer expectedPresent := by
  cases move with
  | stay => exact .inl rfl
  | acquire expectedPresent call => exact .inr ⟨rfl, expectedPresent, call⟩

/-- What holds between two sections. -/
structure Sound (s : State) : Prop where
  owned : Owned s.slots s.queue s.nextAddress
  filled : ∀ n, (s.slots n).bufferState = .dequeued → (s.slots n).address ≠ none ∨
    ∃ call, s.producer = .allocating call ∧ call.slot = n
  window : ∀ call, s.producer = .allocating call → (s.slots call.slot).bufferState = .dequeued
  few : s.numAcquiredBuffers ≤ maxAcquiredBufferCount + 1
  available : s.isAbandoned = false
  bounded : 0 ≤ s.overrideMaxBufferCount ∧ s.overrideMaxBufferCount ≤ numBufferSlots

/-- What a section keeps, and how it changes the slots. -/
structure Kept (s : State) (a : Action) (r : Reply) (s' : State) : Prop where
  sound : Sound s'
  moves : ∀ n, Transition a r n (s.slots n).bufferState (s'.slots n).bufferState

theorem countSlots_le (condition : BufferSlot → Bool) : s.countSlots condition ≤ numBufferSlots :=
  (Finset.card_filter_le _ _).trans (Finset.card_fin _).le

/-- Where no slot is acquired newly, there are not more of them. -/
theorem numAcquiredBuffers_le
    (only : ∀ n, (s'.slots n).bufferState = .acquired → (s.slots n).bufferState = .acquired) :
    s'.numAcquiredBuffers ≤ s.numAcquiredBuffers := by
  unfold State.numAcquiredBuffers State.countSlots
  refine Finset.card_le_card fun n member => ?_
  simp only [Finset.mem_filter, Finset.mem_univ, decide_eq_true_eq, true_and] at member ⊢
  exact only n member

/-- Only `AcquireBuffer` acquires a slot. -/
theorem few_of_moves (sound : Sound s)
    (other : ∀ expectedPresent, a ≠ .acquireBuffer expectedPresent)
    (moves : ∀ n, Transition a r n (s.slots n).bufferState (s'.slots n).bufferState) :
    s'.numAcquiredBuffers ≤ maxAcquiredBufferCount + 1 := by
  refine le_trans (Int.ofNat_le.mpr (numAcquiredBuffers_le fun n acquired => ?_)) sound.few
  rcases (acquired ▸ moves n).of_acquired with before | ⟨-, expectedPresent, call⟩
  · exact before
  · exact absurd call (other expectedPresent)

/-- A section that waits for nothing and frees some slots. -/
inductive Released (a : Action) (n : Slot) (old new : BufferSlot) : Prop where
  | same (state : new.bufferState = old.bufferState) (address : new.address = old.address)
  | emptied (frees : Frees a n old.bufferState) (state : new.bufferState = .free)
      (address : new.address = none)
  | kept (frees : Frees a n old.bufferState) (before : old.bufferState ≠ .queued)
      (state : new.bufferState = .free) (address : new.address = old.address)

theorem Released.loosened {old new : BufferSlot} (released : Released a n old new) :
    Loosened old new := by
  cases released with
  | same state address => exact .same state address
  | emptied _ state address => exact .emptied (by simp [state]) address
  | kept _ before state address => exact .kept before (by simp [state]) address

theorem Released.transition {old new : BufferSlot} (released : Released a n old new) :
    Transition a r n old.bufferState new.bufferState := by
  cases released with
  | same state _ => exact state ▸ .stay _
  | emptied frees state _ => exact state ▸ .free _ frees
  | kept frees _ state _ => exact state ▸ .free _ frees

/-- A section that may come while a buffer is allocated frees no slot of the producer. -/
def Closed (s : State) (a : Action) : Prop :=
  ∀ call, s.producer = .allocating call → ∀ n, ¬ Frees a n .dequeued

theorem not_allocating (idle : s.producer = .idle) (call : Allocating) :
    s.producer ≠ .allocating call := by
  simp [idle]

theorem closed_of_idle (idle : s.producer = .idle) : Closed s a := by
  intro call allocating
  exact absurd allocating (not_allocating idle call)

theorem Sound.released (sound : Sound s)
    (other : ∀ expectedPresent, a ≠ .acquireBuffer expectedPresent)
    (released : ∀ n, Released a n (s.slots n) (s'.slots n)) (queue : s'.queue = s.queue)
    (nextAddress : s'.nextAddress = s.nextAddress) (producer : s'.producer = s.producer)
    (abandoned : s'.isAbandoned = s.isAbandoned)
    (bounded : 0 ≤ s'.overrideMaxBufferCount ∧ s'.overrideMaxBufferCount ≤ numBufferSlots)
    (closed : Closed s a) : Kept s a r s' := by
  have moves : ∀ n, Transition a r n (s.slots n).bufferState (s'.slots n).bufferState :=
    fun n => (released n).transition
  refine ⟨⟨?_, ?_, ?_, few_of_moves sound other moves,
    abandoned.trans sound.available, bounded⟩, moves⟩
  · rw [queue, nextAddress]
    exact sound.owned.loosened fun n => (released n).loosened
  · intro n dequeued
    rcases released n with ⟨state, address⟩ | ⟨-, state, -⟩ | ⟨-, -, state, -⟩
    · rw [producer, address]
      exact sound.filled n (state ▸ dequeued)
    · rw [state] at dequeued
      cases dequeued
    · rw [state] at dequeued
      cases dequeued
  · intro call allocating
    rw [producer] at allocating
    have window := sound.window call allocating
    rcases released call.slot with ⟨state, -⟩ | ⟨frees, -, -⟩ | ⟨frees, -, -, -⟩
    · exact state.trans window
    · exact absurd (window ▸ frees) (closed call allocating _)
    · exact absurd (window ▸ frees) (closed call allocating _)

/-- Where only one slot is written, only that one has to be looked at. -/
theorem Sound.releasedSlot (sound : Sound s)
    (other : ∀ expectedPresent, a ≠ .acquireBuffer expectedPresent)
    {new : BufferSlot} (slots : s'.slots = update s.slots n new)
    (released : Released a n (s.slots n) new)
    (queue : s'.queue = s.queue) (nextAddress : s'.nextAddress = s.nextAddress)
    (producer : s'.producer = s.producer) (abandoned : s'.isAbandoned = s.isAbandoned)
    (override : s'.overrideMaxBufferCount = s.overrideMaxBufferCount) (closed : Closed s a) :
    Kept s a r s' := by
  refine sound.released other (fun m => ?_) queue nextAddress producer abandoned
    (override ▸ sound.bounded) closed
  rw [slots]
  by_cases same : m = n
  · subst same
    rwa [update_self]
  · rw [update_of_ne same]
    exact .same rfl rfl

/-- A section that changes no owner. -/
theorem Sound.kept (sound : Sound s) : Kept s a r s := ⟨sound, fun _ => .stay _⟩

end SumiEmu.Nvnflinger
