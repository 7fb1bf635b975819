/-
# The calls that change the queue

`QueueBuffer` adds an item and may take the front's place with it, and `AcquireBuffer` drops
timely items and hands out the front. Whenever an item leaves the queue its slot goes with
it, if the item still tracks the slot.
-/

import SumiEmu.Nvnflinger.BufferQueueSections

namespace SumiEmu.Nvnflinger

open Function

variable {s s' : State} {a : Action} {r : Reply} {n : Slot} {slot : Int} {input : QueueBufferInput}
  {item front : BufferItem} {rest queue : List BufferItem} {f : BufferSlot → BufferSlot}

namespace State

theorem setTracked_slots (s : State) (item : BufferItem) (f : BufferSlot → BufferSlot) :
    (s.setTracked item f).slots = if StillTracking s.slots item then
      update s.slots item.slot (f (s.slots item.slot)) else s.slots := by
  unfold setTracked
  split <;> rfl

/-- Only slots are written. -/
theorem setTracked_eq (s : State) (item : BufferItem) (f : BufferSlot → BufferSlot) :
    s.setTracked item f = { s with slots := (s.setTracked item f).slots } := by
  unfold setTracked
  split <;> rfl

/-- Another state is given to the slot, if it is tracked. -/
theorem setTracked_state {state : BufferState} (becomes : ∀ slot, (f slot).bufferState = state)
    (n : Slot) : ((s.setTracked item f).slots n).bufferState = (s.slots n).bufferState ∨
      n = item.slot ∧ StillTracking s.slots item ∧
      ((s.setTracked item f).slots n).bufferState = state := by
  rw [setTracked_slots]
  split
  case isTrue tracks =>
    by_cases same : n = item.slot
    · subst same
      rw [update_self, becomes]
      exact .inr ⟨rfl, tracks, rfl⟩
    · rw [update_of_ne same]
      exact .inl rfl
  case isFalse => exact .inl rfl

theorem setTracked_address (address : ∀ slot, (f slot).address = slot.address) (n : Slot) :
    ((s.setTracked item f).slots n).address = (s.slots n).address := by
  rw [setTracked_slots]
  split
  · by_cases same : n = item.slot
    · subst same
      rw [update_self, address]
    · rw [update_of_ne same]
  · rfl

theorem setTracked_owned (owned : Owned s.slots (front :: rest) s.nextAddress)
    (state : ∀ slot, (f slot).bufferState ≠ .queued)
    (address : ∀ slot, (f slot).address = slot.address) :
    Owned (s.setTracked front f).slots rest s.nextAddress := by
  rw [setTracked_slots]
  exact owned.popped state address

/-! ## Queueing -/

theorem checkQueueBuffer_ok {buffer : GraphicBuffer}
    (ok : s.checkQueueBuffer slot input = some (.ok (n, buffer))) :
    slotAt slot = some n ∧ (s.slots n).bufferState = .dequeued ∧
      (s.slots n).graphicBuffer = some buffer := by
  unfold checkQueueBuffer at ok
  split at ok
  · cases ok
  split at ok
  · cases ok
  dsimp only at ok
  split at ok
  · cases ok
  split at ok
  · cases ok
  obtain ⟨m, place, ok⟩ := Option.bind_eq_some_iff.mp ok
  split at ok
  · cases ok
  case isFalse dequeued =>
    split at ok
    · cases ok
    obtain ⟨b, present, ok⟩ := Option.bind_eq_some_iff.mp ok
    split at ok
    · cases ok
    · cases ok
      exact ⟨place, not_not.mp dequeued, present⟩

/-- Two items that track the same slot are one. -/
theorem slot_ne_of_tracks (owned : Owned s.slots (item :: front :: rest) s.nextAddress)
    (here : StillTracking s.slots item) (there : StillTracking s.slots front) :
    front.slot ≠ item.slot := by
  intro same
  obtain ⟨place, address, stored⟩ := stillTracking_iff.mp here
  obtain ⟨place', address', stored'⟩ := stillTracking_iff.mp there
  rw [same, stored] at stored'
  refine (List.pairwise_cons.mp owned.apart).1 front List.mem_cons_self same.symm ?_
  exact address.trans (stored'.trans address'.symm)

/-- The item owns its slot in the queue that it is put into, and a front that it replaces
does not any more. -/
theorem pushItem_owned (owned : Owned s.slots (item :: s.queue) s.nextAddress)
    (here : StillTracking s.slots item) :
    Owned (s.pushItem item).slots (s.pushItem item).queue s.nextAddress ∧
      ∀ n, ((s.pushItem item).slots n).bufferState = (s.slots n).bufferState ∨
        n ≠ item.slot ∧ (s.slots n).bufferState = .queued ∧
        ((s.pushItem item).slots n).bufferState = .free := by
  unfold pushItem
  split
  case h_1 empty =>
    rw [empty] at owned
    exact ⟨owned, fun _ => .inl rfl⟩
  case h_2 front rest filled =>
    rw [filled] at owned
    split
    · constructor
      · exact setTracked_owned (owned.perm (.swap ..)) (by simp) fun _ => rfl
      · intro n
        refine (setTracked_state (fun _ => rfl) n).imp_right ?_
        rintro ⟨rfl, tracks, state⟩
        refine ⟨slot_ne_of_tracks owned here tracks, ?_, state⟩
        exact owned.queued front (List.mem_cons_of_mem _ List.mem_cons_self) tracks
    · refine ⟨owned.perm ?_, fun _ => .inl rfl⟩
      rw [filled]
      exact (List.perm_append_singleton item (front :: rest)).symm

/-- Everything else stays as it is. -/
theorem pushItem_eq (s : State) (item : BufferItem) : s.pushItem item =
    { s with
      slots := (s.pushItem item).slots, queue := (s.pushItem item).queue
      log := (s.pushItem item).log } := by
  unfold pushItem
  split
  · rfl
  · split
    · rw [setTracked_eq]
    · rfl

theorem pushItem_address (s : State) (item : BufferItem) (n : Slot) :
    ((s.pushItem item).slots n).address = (s.slots n).address := by
  unfold pushItem
  split
  · rfl
  · split
    · exact setTracked_address (fun _ => by rfl) n
    · rfl

@[simp]
theorem markQueued_state (s : State) (n : Slot) (input : QueueBufferInput) (m : Slot) :
    ((s.markQueued n input).slots m).bufferState = if m = n then .queued
    else (s.slots m).bufferState := by
  by_cases same : m = n <;> simp [markQueued, setSlot, same]

@[simp]
theorem markQueued_address (s : State) (n : Slot) (input : QueueBufferInput) (m : Slot) :
    ((s.markQueued n input).slots m).address = (s.slots m).address := by
  by_cases same : m = n <;> simp [markQueued, setSlot, same, BufferSlot.address]

theorem queueBuffer_kept (sound : Sound s) (idle : s.producer = .idle)
    (result : s.queueBuffer slot input = some (s', r)) : Kept s (.queueBuffer slot input) r s' := by
  unfold queueBuffer at result
  obtain ⟨checked, check, result⟩ := Option.bind_eq_some_iff.mp result
  split at result
  · cases result
    exact sound.kept
  case h_2 n buffer =>
    cases result
    obtain ⟨place, dequeued, present⟩ := checkQueueBuffer_ok check
    have address : (s.slots n).address = some buffer.address := by
      rw [BufferSlot.address, present]; rfl
    have owned : Owned (s.markQueued n input).slots (s.newItem n input :: s.queue) s.nextAddress :=
      sound.owned.pushed (by simp [dequeued]) (by simp [address]) rfl rfl rfl rfl
    have here : StillTracking (s.markQueued n input).slots (s.newItem n input) :=
      stillTracking_iff.mpr ⟨buffer.address, address,
        (markQueued_address s n input n).trans address⟩
    obtain ⟨after, states⟩ := pushItem_owned (s := s.markQueued n input) owned here
    set pushed := (s.markQueued n input).pushItem (s.newItem n input) with pushed_eq
    have others : pushed = { s.markQueued n input with
        slots := pushed.slots, queue := pushed.queue, log := pushed.log } := pushItem_eq _ _
    have moves : ∀ m, Transition (.queueBuffer slot input) (.output pushed.output) m
        (s.slots m).bufferState
        (pushed.slots m).bufferState := by
      intro m
      by_cases same : m = n
      · subst same
        rcases states m with state | ⟨other, -⟩
        · rw [state, markQueued_state, if_pos rfl, dequeued]
          exact .queue slot input rfl place
        · exact absurd rfl other
      · rcases states m with state | ⟨-, state, state'⟩
        · rw [state, markQueued_state, if_neg same]
          exact .stay _
        · rw [markQueued_state, if_neg same] at state
          rw [state, state']
          exact .free _ rfl
    refine ⟨⟨?_, fun m left => ?_, fun call allocating => ?_, few_of_moves sound (by simp) moves,
      ?_, ?_⟩, moves⟩
    · change Owned pushed.slots pushed.queue pushed.nextAddress
      rw [others]
      exact after
    · left
      change (pushed.slots m).bufferState = .dequeued at left
      change (pushed.slots m).address ≠ none
      rw [pushed_eq, pushItem_address, markQueued_address]
      rcases (left ▸ moves m).of_dequeued with before | handsOut
      · rcases sound.filled m before with present | ⟨call, allocating, -⟩
        · exact present
        · exact absurd allocating (not_allocating idle call)
      · exact absurd handsOut.1 id
    · change pushed.producer = _ at allocating
      rw [others] at allocating
      exact absurd allocating (not_allocating idle call)
    · change pushed.isAbandoned = false
      rw [others]
      exact sound.available
    · change 0 ≤ pushed.overrideMaxBufferCount ∧ pushed.overrideMaxBufferCount ≤ numBufferSlots
      rw [others]
      exact sound.bounded

/-! ## Acquiring -/

/-- Items and the slots they track are given up. -/
structure Dropped (s s' : State) (queue : List BufferItem) : Prop where
  owned : Owned s.slots queue s.nextAddress → Owned s'.slots s'.queue s.nextAddress
  state : Owned s.slots queue s.nextAddress →
    ∀ n, (s'.slots n).bufferState = (s.slots n).bufferState ∨ (s.slots n).bufferState = .queued ∧
    (s'.slots n).bufferState = .free
  address : ∀ n, (s'.slots n).address = (s.slots n).address
  others : s' = { s with slots := s'.slots, queue := s'.queue, log := s'.log }

theorem dropTimely_dropped (expectedPresent : Int) (s : State) (queue : List BufferItem) :
    Dropped s (s.dropTimely expectedPresent queue) queue := by
  fun_induction dropTimely expectedPresent s queue with
  | case1 s front next rest late => exact ⟨id, fun _ _ => .inl rfl, fun _ => rfl, rfl⟩
  | case2 s front next rest timely dropped ih =>
    have same : dropped = { s with slots := dropped.slots } := setTracked_eq ..
    have nextAddress : dropped.nextAddress = s.nextAddress := by rw [same]
    have step (owned : Owned s.slots (front :: next :: rest) s.nextAddress) :
        Owned dropped.slots (next :: rest) dropped.nextAddress :=
      nextAddress ▸ setTracked_owned owned (by simp) fun _ => rfl
    constructor
    · exact fun owned => nextAddress ▸ ih.owned (step owned)
    · intro owned n
      have first : (dropped.slots n).bufferState = (s.slots n).bufferState ∨ n = front.slot ∧
          StillTracking s.slots front ∧ (dropped.slots n).bufferState = .free :=
        setTracked_state (fun _ => by rfl) n
      rcases ih.state (step owned) n with second | ⟨before, after⟩
      · rw [second]
        refine first.imp_right ?_
        rintro ⟨rfl, tracks, free⟩
        exact ⟨owned.queued front List.mem_cons_self tracks, free⟩
      · rcases first with first | ⟨-, -, free⟩
        · exact .inr ⟨first.symm.trans before, after⟩
        · exact absurd (before.symm.trans free) (by simp)
    · intro n
      rw [ih.address]
      exact setTracked_address (fun _ => by rfl) n
    · rw [ih.others, same]
  | case3 s queue => exact ⟨id, fun _ _ => .inl rfl, fun _ => rfl, rfl⟩

/-- At most one slot is acquired more. -/
theorem numAcquiredBuffers_le_succ (only : ∀ m, (s'.slots m).bufferState = .acquired →
    (s.slots m).bufferState = .acquired ∨ m = n) :
    s'.numAcquiredBuffers ≤ s.numAcquiredBuffers + 1 := by
  unfold numAcquiredBuffers countSlots
  refine (Finset.card_le_card fun m member => ?_).trans (Finset.card_insert_le n _)
  simp only [Finset.mem_filter, Finset.mem_univ, decide_eq_true_eq, true_and, Finset.mem_insert]
    at member ⊢
  exact (only m member).symm

theorem Dropped.numAcquiredBuffers_le (dropped : Dropped s s' s.queue) (sound : Sound s) :
    s'.numAcquiredBuffers ≤ s.numAcquiredBuffers := by
  refine SumiEmu.Nvnflinger.numAcquiredBuffers_le fun n acquired => ?_
  rcases dropped.state sound.owned n with same | ⟨-, free⟩
  · exact same.symm.trans acquired
  · exact absurd (acquired.symm.trans free) (by simp)

/-- After some items are dropped the call may give up, or acquire the front. -/
theorem Dropped.kept (dropped : Dropped s s' s.queue) (sound : Sound s) (expectedPresent : Int) :
    Kept s (.acquireBuffer expectedPresent) r s' := by
  have states := dropped.state sound.owned
  refine ⟨⟨?_, fun n left => ?_, fun call allocating => ?_, ?_, ?_, ?_⟩, fun n => ?_⟩
  · rw [dropped.others]
    exact dropped.owned sound.owned
  · rw [dropped.address, dropped.others]
    refine sound.filled n ?_
    rcases states n with same | ⟨-, free⟩
    · exact same.symm.trans left
    · exact absurd (left.symm.trans free) (by simp)
  · rw [dropped.others] at allocating
    have window := sound.window call allocating
    rcases states call.slot with same | ⟨queued, -⟩
    · exact same.trans window
    · exact absurd (window.symm.trans queued) (by simp)
  · exact le_trans (Int.ofNat_le.mpr (dropped.numAcquiredBuffers_le sound)) sound.few
  · rw [dropped.others]
    exact sound.available
  · rw [dropped.others]
    exact sound.bounded
  · rcases states n with same | ⟨queued, free⟩
    · exact same ▸ .stay _
    · rw [queued, free]
      exact .free _ rfl

theorem acquireFront_kept {expectedPresent : Int}
    (kept : Kept s (.acquireBuffer expectedPresent) (s'.acquireFront front rest).2 s')
    (few : s'.numAcquiredBuffers < maxAcquiredBufferCount + 1) (queue : s'.queue = front :: rest) :
    Kept s (.acquireBuffer expectedPresent) (s'.acquireFront front rest).2
      (s'.acquireFront front rest).1 := by
  have owned : Owned s'.slots (front :: rest) s'.nextAddress := queue ▸ kept.sound.owned
  unfold acquireFront at kept ⊢
  set acquired := s'.setTracked front ({ · with
    acquireCalled := true, needsCleanupOnRelease := false, bufferState := .acquired })
      with acquired_eq
  have others : acquired = { s' with slots := acquired.slots } := setTracked_eq ..
  have states : ∀ n, (acquired.slots n).bufferState = (s'.slots n).bufferState ∨
      n = front.slot ∧ (s.slots n).bufferState = .queued ∧
      (acquired.slots n).bufferState = .acquired := by
    intro n
    refine (setTracked_state (fun _ => rfl) n).imp_right ?_
    rintro ⟨rfl, tracks, state⟩
    have queued := owned.queued front List.mem_cons_self tracks
    refine ⟨rfl, ?_, state⟩
    refine (queued ▸ kept.moves front.slot).of_queued.resolve_right ?_
    rintro ⟨-, slot, input, call, -⟩
    cases call
  refine ⟨⟨?_, fun n left => ?_, fun call allocating => ?_, ?_, ?_, ?_⟩, fun n => ?_⟩
  · change Owned acquired.slots rest acquired.nextAddress
    rw [show acquired.nextAddress = s'.nextAddress by rw [others]]
    exact setTracked_owned owned (by simp) fun _ => rfl
  · change (acquired.slots n).bufferState = _ at left
    change (acquired.slots n).address ≠ none ∨ ∃ call, acquired.producer = _ ∧ _
    rw [others, acquired_eq, setTracked_address (fun _ => by rfl)]
    refine kept.sound.filled n ?_
    rcases states n with same | ⟨-, -, taken⟩
    · exact same.symm.trans left
    · exact absurd (left.symm.trans taken) (by simp)
  · change acquired.producer = _ at allocating
    rw [others] at allocating
    have window := kept.sound.window call allocating
    rcases states call.slot with same | ⟨-, queued, -⟩
    · exact same.trans window
    · have before := (window ▸ kept.moves call.slot).of_dequeued
      rcases before with before | handsOut
      · exact absurd (before.symm.trans queued) (by simp)
      · exact absurd handsOut.1 id
  · have only : acquired.numAcquiredBuffers ≤ s'.numAcquiredBuffers + 1 :=
      numAcquiredBuffers_le_succ fun m taken =>
        (states m).imp (fun same => same.symm.trans taken) And.left
    change (acquired.numAcquiredBuffers : Int) ≤ _
    omega
  · change acquired.isAbandoned = false
    rw [others]
    exact kept.sound.available
  · change 0 ≤ acquired.overrideMaxBufferCount ∧ acquired.overrideMaxBufferCount ≤ numBufferSlots
    rw [others]
    exact kept.sound.bounded
  · rcases states n with same | ⟨-, queued, taken⟩
    · change Transition _ _ n _ (acquired.slots n).bufferState
      rw [same]
      exact kept.moves n
    · change Transition _ _ n _ (acquired.slots n).bufferState
      rw [queued, taken]
      exact .acquire expectedPresent rfl

theorem acquireBuffer_kept (sound : Sound s) (expectedPresent : Int) :
    Kept s (.acquireBuffer expectedPresent) (s.acquireBuffer expectedPresent).2
      (s.acquireBuffer expectedPresent).1 := by
  unfold acquireBuffer
  split
  · exact sound.kept
  case isFalse few =>
    have dropped : Dropped s (if expectedPresent = 0 then s
        else s.dropTimely expectedPresent s.queue) s.queue := by
      split
      · exact ⟨id, fun _ _ => .inl rfl, fun _ => rfl, rfl⟩
      · exact dropTimely_dropped ..
    generalize (if expectedPresent = 0 then s else s.dropTimely expectedPresent s.queue) =
      s₁ at dropped ⊢
    dsimp only
    split
    · exact dropped.kept sound expectedPresent
    case h_2 front rest queue =>
      split
      · exact dropped.kept sound expectedPresent
      · refine acquireFront_kept (dropped.kept sound expectedPresent)
          (lt_of_le_of_lt ?_ (not_le.mp few)) queue
        exact Int.ofNat_le.mpr (dropped.numAcquiredBuffers_le sound)

end State

end SumiEmu.Nvnflinger
