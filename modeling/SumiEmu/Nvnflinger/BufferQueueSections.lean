/-
# The sections of the buffer queue's calls

One statement for each call: what holds between two sections holds again, and every slot
has gone one of the ways that the call has for it.
-/

import SumiEmu.Nvnflinger.BufferQueueOwnership

namespace SumiEmu.Nvnflinger

open Function

variable {s s' : State} {a : Action} {r : Reply} {n : Slot} {slot : Int}

namespace State

/-! ## Calls that free a slot or none -/

section

variable (sound : Sound s)

include sound

section

variable (idle : s.producer = .idle)

include idle

theorem requestBuffer_kept (slot : Int) :
    Kept s (.requestBuffer slot) (s.requestBuffer slot).2 (s.requestBuffer slot).1 := by
  unfold requestBuffer
  split
  · exact sound.kept
  split
  · exact sound.kept
  split
  · exact sound.kept
  · exact sound.releasedSlot (by simp) rfl (.same rfl rfl) rfl rfl rfl rfl rfl (closed_of_idle idle)

theorem setBufferCount_kept (bufferCount : Int) :
    Kept s (.setBufferCount bufferCount) (s.setBufferCount bufferCount).2
      (s.setBufferCount bufferCount).1 := by
  have closed : Closed s (.setBufferCount bufferCount) := closed_of_idle idle
  unfold setBufferCount
  split
  · exact sound.kept
  split
  · exact sound.kept
  case isFalse small =>
    split
    · exact sound.kept
    split
    · exact sound.released (by simp) (fun _ => .same rfl rfl) rfl rfl rfl rfl
        ⟨le_refl _, Int.natCast_nonneg _⟩ closed
    split
    · exact sound.kept
    case isFalse enough =>
      have bounded : 0 ≤ bufferCount ∧ bufferCount ≤ numBufferSlots := by
        change ¬ bufferCount < 0 at enough
        omega
      dsimp only
      split
      · exact sound.released (by simp) (fun _ => .emptied trivial rfl rfl) rfl rfl rfl rfl bounded
          closed
      · exact sound.released (by simp) (fun _ => .same rfl rfl) rfl rfl rfl rfl bounded closed

theorem detachBuffer_kept (slot : Int) :
    Kept s (.detachBuffer slot) (s.detachBuffer slot).2 (s.detachBuffer slot).1 := by
  unfold detachBuffer
  split
  · exact sound.kept
  split
  · exact sound.kept
  case h_2 n place =>
    split
    · exact sound.kept
    case isFalse other =>
      split
      · exact sound.kept
      · have frees : Frees (.detachBuffer slot) n (s.slots n).bufferState :=
          ⟨place, not_not.mp other⟩
        exact sound.releasedSlot (by simp) rfl (.emptied frees rfl rfl) rfl rfl rfl rfl rfl
          (closed_of_idle idle)

theorem cancelBuffer_kept (slot : Int) (fence : Fence) :
    Kept s (.cancelBuffer slot fence) (s.cancelBuffer slot fence).2
      (s.cancelBuffer slot fence).1 := by
  unfold cancelBuffer
  split
  · exact sound.kept
  split
  · exact sound.kept
  case h_2 n place =>
    split
    · exact sound.kept
    case isFalse other =>
      have dequeued := not_not.mp other
      have frees : Frees (.cancelBuffer slot fence) n (s.slots n).bufferState := ⟨place, dequeued⟩
      exact sound.releasedSlot (by simp) rfl (.kept frees (by simp [dequeued]) rfl rfl) rfl rfl rfl
        rfl rfl (closed_of_idle idle)

theorem connect_kept (api : Int) (byApp : Bool) :
    Kept s (.connect api byApp) (s.connect api byApp).2 (s.connect api byApp).1 := by
  have closed : Closed s (.connect api byApp) := closed_of_idle idle
  unfold connect
  split
  · exact sound.kept
  split
  · exact sound.kept
  split
  · exact sound.kept
  dsimp only
  split
  · exact sound.released (by simp) (fun _ => .same rfl rfl) rfl rfl rfl rfl sound.bounded closed
  · exact sound.released (by simp) (fun _ => .same rfl rfl) rfl rfl rfl rfl sound.bounded closed

theorem disconnect_kept (api : Int) :
    Kept s (.disconnect api) (s.disconnect api).2 (s.disconnect api).1 := by
  unfold disconnect
  split
  · exact sound.kept
  split
  · have freed : ∀ n, Released (.disconnect api) n (s.slots n) (s.slots n).freeBufferLocked :=
      fun _ => .emptied trivial rfl rfl
    have moves : ∀ n, Transition (.disconnect api) (.status .noError) n (s.slots n).bufferState
      .free :=
      fun n => .free _ trivial
    refine ⟨⟨?_, ?_, ?_, few_of_moves sound (by simp) moves, sound.available, sound.bounded⟩, moves⟩
    · exact (sound.owned.loosened fun n => (freed n).loosened).nil fun _ => by
        simp [BufferSlot.freeBufferLocked]
    · intro n dequeued
      cases dequeued
    · intro call allocating
      exact absurd allocating (not_allocating idle call)
  · exact sound.kept

end

theorem releaseBuffer_kept (slot : Int) (frameNumber : Nat) :
    Kept s (.releaseBuffer slot frameNumber) (s.releaseBuffer slot frameNumber).2
      (s.releaseBuffer slot frameNumber).1 := by
  have closed : Closed s (.releaseBuffer slot frameNumber) := by
    rintro call allocating n ⟨-, acquired⟩
    cases acquired
  unfold releaseBuffer
  split
  · exact sound.kept
  case h_2 n place =>
    split
    · exact sound.kept
    split
    · exact sound.kept
    split
    case isTrue acquired =>
      have frees : Frees (.releaseBuffer slot frameNumber) n (s.slots n).bufferState :=
        ⟨place, acquired⟩
      exact sound.releasedSlot (by simp) rfl (.kept frees (by simp [acquired]) rfl rfl) rfl rfl rfl
        rfl rfl closed
    case isFalse =>
      split
      · exact sound.releasedSlot (by simp) rfl (.same rfl rfl) rfl rfl rfl rfl rfl closed
      · exact sound.kept

end

/-! ## Looking for a slot -/

variable {maxBufferCount : Int}

theorem olderFree_free {best : Option Slot}
    (free : ∀ m ∈ best, (s.slots m).bufferState = .free) (slot : Slot) :
    ∀ m ∈ s.olderFree maxBufferCount best slot, (s.slots m).bufferState = .free := by
  intro m member
  unfold olderFree at member
  split at member
  case isTrue usable =>
    split at member
    · cases member
      exact usable.2
    · split at member
      · cases member
        exact usable.2
      · exact free m member
  case isFalse => exact free m member

theorem foldl_olderFree_free (l : List Slot) {best : Option Slot}
    (free : ∀ m ∈ best, (s.slots m).bufferState = .free) :
    ∀ m ∈ l.foldl (s.olderFree maxBufferCount) best, (s.slots m).bufferState = .free := by
  induction l generalizing best with
  | nil => exact free
  | cons slot l ih => exact ih (olderFree_free free slot)

theorem findFreeSlot_free (found : s.findFreeSlot maxBufferCount = some n) :
    (s.slots n).bufferState = .free := by
  refine foldl_olderFree_free (List.finRange numBufferSlots) (fun m absent => ?_) n found
  cases absent

/-- What a pass of the search leaves as it is; it only gives up buffers of free slots. -/
structure Searched (s s' : State) : Prop where
  state : ∀ n, (s'.slots n).bufferState = (s.slots n).bufferState
  address : ∀ n, (s'.slots n).address = (s.slots n).address ∨
    (s.slots n).bufferState = .free ∧ (s'.slots n).address = none
  queue : s'.queue = s.queue
  nextAddress : s'.nextAddress = s.nextAddress
  producer : s'.producer = s.producer
  abandoned : s'.isAbandoned = s.isAbandoned
  log : s'.log = s.log
  frameCounter : s'.frameCounter = s.frameCounter
  override : s'.overrideMaxBufferCount = s.overrideMaxBufferCount

theorem Searched.refl (s : State) : Searched s s :=
  ⟨fun _ => rfl, fun _ => .inl rfl, rfl, rfl, rfl, rfl, rfl, rfl, rfl⟩

theorem Searched.trans {s'' : State} (first : Searched s s') (second : Searched s' s'') :
    Searched s s'' where
  state n := (second.state n).trans (first.state n)
  address n := by
    rcases second.address n with same | ⟨free, absent⟩
    · rw [same]
      exact first.address n
    · exact .inr ⟨(first.state n).symm.trans free, absent⟩
  queue := second.queue.trans first.queue
  nextAddress := second.nextAddress.trans first.nextAddress
  producer := second.producer.trans first.producer
  abandoned := second.abandoned.trans first.abandoned
  log := second.log.trans first.log
  frameCounter := second.frameCounter.trans first.frameCounter
  override := second.override.trans first.override

theorem Searched.loosened (searched : Searched s s') (n : Slot) :
    Loosened (s.slots n) (s'.slots n) := by
  rcases searched.address n with same | ⟨free, absent⟩
  · exact .same (searched.state n) same
  · exact .emptied (by simp [searched.state n, free]) absent

theorem Searched.sound (searched : Searched s s') (sound : Sound s) : Sound s' := by
  refine ⟨?_, fun n dequeued => ?_, fun call allocating => ?_, ?_,
    searched.abandoned.trans sound.available, ?_⟩
  · rw [searched.queue, searched.nextAddress]
    exact sound.owned.loosened searched.loosened
  · rw [searched.state] at dequeued
    rcases searched.address n with same | ⟨free, -⟩
    · rw [same, searched.producer]
      exact sound.filled n dequeued
    · exact absurd (dequeued.symm.trans free) (by simp)
  · rw [searched.state]
    exact sound.window call (searched.producer ▸ allocating)
  · refine le_trans (Int.ofNat_le.mpr (numAcquiredBuffers_le fun n acquired => ?_)) sound.few
    exact searched.state n ▸ acquired
  · rw [searched.override]
    exact sound.bounded

theorem freeBeyondCount_searched (s : State) (maxBufferCount : Int) :
    Searched s (s.freeBeyondCount maxBufferCount) := by
  refine ⟨fun n => ?_, fun n => ?_, rfl, rfl, rfl, rfl, rfl, rfl, rfl⟩
  · dsimp only [freeBeyondCount]
    split
    case isTrue beyond => exact beyond.2.2.1.symm
    case isFalse => rfl
  · dsimp only [freeBeyondCount]
    split
    case isTrue beyond => exact .inr ⟨beyond.2.2.1, rfl⟩
    case isFalse => exact .inl rfl

/-- A pass finds a free slot if it finds one. -/
theorem findSlot_searched (s : State) (async : Bool) (returnFlags : Nat) :
    Searched s (s.findSlot async returnFlags).1 ∧
      ∀ n, (s.findSlot async returnFlags).2.2 = .found n → (s.slots n).bufferState = .free := by
  unfold findSlot
  split
  · exact ⟨.refl s, nofun⟩
  dsimp only
  split
  · exact ⟨.refl s, nofun⟩
  have searched := freeBeyondCount_searched s (s.getMaxBufferCountLocked async)
  split
  · exact ⟨searched, nofun⟩
  split
  · exact ⟨searched, nofun⟩
  split
  case h_1 slot place =>
    refine ⟨searched, fun n found => ?_⟩
    dsimp only at found
    split at found
    · split at found <;> cases found
    · cases found
      exact (searched.state _).symm.trans (findFreeSlot_free place)
  case h_2 =>
    refine ⟨searched, fun n found => ?_⟩
    dsimp only at found
    split at found <;> cases found

theorem waitForFreeSlotThenRelock_searched (s : State) (async : Bool) (returnFlags : Nat) :
    Searched s (s.waitForFreeSlotThenRelock async returnFlags).1 ∧
      ∀ n, (s.waitForFreeSlotThenRelock async returnFlags).2.2 = .found n →
      (s.slots n).bufferState = .free := by
  have first := findSlot_searched s async returnFlags
  unfold waitForFreeSlotThenRelock
  split
  case h_1 s₁ flags pass =>
    rw [pass] at first
    have cleared : Searched s { s₁ with dequeuePossible := false } :=
      first.1.trans ⟨fun _ => rfl, fun _ => .inl rfl, rfl, rfl, rfl, rfl, rfl, rfl, rfl⟩
    split
    · have second := findSlot_searched { s₁ with dequeuePossible := false } async flags
      refine ⟨cleared.trans second.1, fun n found => ?_⟩
      exact (cleared.state n).symm.trans (second.2 n found)
    · exact ⟨first.1, nofun⟩
  case h_2 => exact first

/-- A free slot is handed to the producer, with its buffer or with a window to allocate one. -/
theorem handed_kept (sound : Sound s) (closed : ∀ call, s.producer ≠ .allocating call)
    (free : (s.slots n).bufferState = .free) (handsOut : HandsOut a r n) {new : BufferSlot}
    (slots : s'.slots = update s.slots n new) (state : new.bufferState = .dequeued)
    (address : new.address = (s.slots n).address ∨ new.address = none)
    (filled : new.address ≠ none ∨ ∃ call, s'.producer = .allocating call ∧ call.slot = n)
    (window : ∀ call, s'.producer = .allocating call → call.slot = n) (queue : s'.queue = s.queue)
    (nextAddress : s'.nextAddress = s.nextAddress) (abandoned : s'.isAbandoned = s.isAbandoned)
    (override : s'.overrideMaxBufferCount = s.overrideMaxBufferCount) : Kept s a r s' := by
  have moves : ∀ m, Transition a r m (s.slots m).bufferState (s'.slots m).bufferState := by
    intro m
    rw [slots]
    by_cases same : m = n
    · subst same
      rw [update_self, free, state]
      exact .dequeue handsOut
    · rw [update_of_ne same]
      exact .stay _
  have other : ∀ expectedPresent, a ≠ .acquireBuffer expectedPresent := by
    rintro expectedPresent rfl
    exact handsOut.1
  refine ⟨⟨?_, fun m dequeued => ?_, fun call allocating => ?_, few_of_moves sound other moves,
    abandoned.trans sound.available, ?_⟩, moves⟩
  · rw [queue, nextAddress]
    refine sound.owned.loosened fun m => ?_
    rw [slots]
    by_cases same : m = n
    · subst same
      rw [update_self]
      rcases address with same | absent
      · exact .kept (by simp [free]) (by simp [state]) same
      · exact .emptied (by simp [state]) absent
    · rw [update_of_ne same]
      exact .same rfl rfl
  · rw [slots] at dequeued ⊢
    by_cases same : m = n
    · subst same
      rwa [update_self]
    · rw [update_of_ne same] at dequeued ⊢
      exact (sound.filled m dequeued).imp_right fun ⟨call, allocating, _⟩ =>
        absurd allocating (closed call)
  · rw [slots, window call allocating, update_self, state]
  · rw [override]
    exact sound.bounded

theorem dequeueFound_kept (sound : Sound s) (closed : ∀ call, s.producer ≠ .allocating call)
    (free : (s.slots n).bufferState = .free) (dequeues : a.Dequeues) (call : Dequeuing) :
    Kept s a (s.dequeueFound call n).2 (s.dequeueFound call n).1 := by
  unfold dequeueFound
  extract_lets useDefaultSize width height
  split
  case isTrue fits =>
    have present : (s.slots n).address ≠ none := by
      intro absent
      rw [BufferSlot.fits, Option.map_eq_none_iff.mp absent] at fits
      cases fits
    exact handed_kept sound closed free ⟨dequeues, rfl⟩ rfl rfl (.inl rfl) (.inl present) (by simp)
      rfl rfl rfl rfl
  case isFalse =>
    refine handed_kept sound closed free ⟨dequeues, rfl⟩ rfl rfl (.inr rfl) (.inr ⟨_, rfl, rfl⟩) ?_
      rfl rfl rfl rfl
    intro call allocating
    cases allocating
    rfl

/-- A call that ends without a slot, or waits for one, has changed no owner. -/
theorem Searched.kept (searched : Searched s s') (sound : Sound s)
    (closed : ∀ call, s.producer ≠ .allocating call)
    {producer : Producer} (open_ : ∀ call, producer ≠ .allocating call) :
    Kept s a r { s' with producer } := by
  have sound' := searched.sound sound
  refine ⟨⟨sound'.owned, fun n dequeued => ?_, fun call allocating => ?_, sound'.few,
    sound'.available, sound'.bounded⟩, fun n => ?_⟩
  · refine (sound'.filled n dequeued).imp_right fun ⟨call, allocating, _⟩ => ?_
    exact absurd (searched.producer ▸ allocating) (closed call)
  · exact absurd allocating (open_ call)
  · exact searched.state n ▸ .stay _

theorem dequeueSection_kept (sound : Sound s) (closed : ∀ call, s.producer ≠ .allocating call)
    (dequeues : a.Dequeues) (call : Dequeuing) :
    Kept s a (s.dequeueSection call).2 (s.dequeueSection call).1 := by
  obtain ⟨searched, found⟩ := waitForFreeSlotThenRelock_searched s call.async call.returnFlags
  unfold dequeueSection
  split
  case h_1 s₁ flags status pass =>
    rw [pass] at searched
    exact searched.kept sound closed (by simp)
  case h_2 s₁ flags slot pass =>
    rw [pass] at searched found
    have free : (s₁.slots slot).bufferState = .free := (searched.state slot).trans (found slot rfl)
    obtain ⟨after, moves⟩ :=
      dequeueFound_kept (searched.sound sound) (searched.producer ▸ closed) free dequeues
      { call with returnFlags := flags }
    exact ⟨after, fun n => searched.state n ▸ moves n⟩
  case h_3 s₁ flags pass =>
    rw [pass] at searched
    exact searched.kept sound closed (by simp)

/-- A slot that no one uses, or that is waiting for it, gets a new buffer. -/
theorem filled_kept (sound : Sound s) {new : BufferSlot} (slots : s'.slots = update s.slots n new)
    (address : new.address = some s.nextAddress) (queue : s'.queue = s.queue)
    (nextAddress : s'.nextAddress = s.nextAddress + 1) (idle' : s'.producer = .idle)
    (abandoned : s'.isAbandoned = s.isAbandoned)
    (alone : ∀ call, s.producer = .allocating call → call.slot = n)
    (move : Transition a r n (s.slots n).bufferState new.bufferState)
    (unused : new.bufferState ≠ .queued)
    (other : ∀ expectedPresent, a ≠ .acquireBuffer expectedPresent)
    (bounded : 0 ≤ s'.overrideMaxBufferCount ∧ s'.overrideMaxBufferCount ≤ numBufferSlots) :
    Kept s a r s' := by
  have moves : ∀ m, Transition a r m (s.slots m).bufferState (s'.slots m).bufferState := by
    intro m
    rw [slots]
    by_cases same : m = n
    · subst same
      rwa [update_self]
    · rw [update_of_ne same]
      exact .stay _
  refine ⟨⟨?_, fun m dequeued => ?_, fun call allocating => ?_, few_of_moves sound other moves,
    abandoned.trans sound.available, bounded⟩, moves⟩
  · rw [slots, queue, nextAddress]
    exact sound.owned.filled unused address
  · left
    rw [slots] at dequeued ⊢
    by_cases same : m = n
    · subst same
      rw [update_self, address]
      exact Option.some_ne_none _
    · rw [update_of_ne same] at dequeued ⊢
      rcases sound.filled m dequeued with present | ⟨call, allocating, rfl⟩
      · exact present
      · exact absurd (alone call allocating) same
  · rw [idle'] at allocating
    cases allocating

theorem dequeueAllocated_kept (sound : Sound s) {call : Allocating}
    (window : s.producer = .allocating call) :
    Kept s .dequeueAllocated (s.dequeueAllocated call).2 (s.dequeueAllocated call).1 := by
  have dequeued := sound.window call window
  unfold dequeueAllocated
  split
  case isTrue abandoned => exact absurd abandoned (by simp [sound.available])
  case isFalse =>
    refine filled_kept sound rfl rfl rfl rfl rfl rfl ?_ (.stay _) (by simp [dequeued]) (by simp)
      sound.bounded
    intro other allocating
    cases window.symm.trans allocating
    rfl

theorem setPreallocatedBuffer_kept (sound : Sound s) (idle : s.producer = .idle) (slot : Int)
    (buffer : Option Preallocated) : Kept s (.setPreallocatedBuffer slot buffer)
      (s.setPreallocatedBuffer slot buffer).2 (s.setPreallocatedBuffer slot buffer).1 := by
  have alone : ∀ call, s.producer = .allocating call → ∀ n, call.slot = n :=
    fun call allocating => absurd allocating (not_allocating idle call)
  unfold setPreallocatedBuffer
  split
  · exact sound.kept
  case h_2 n place =>
    have frees : Frees (.setPreallocatedBuffer slot buffer) n (s.slots n).bufferState := place
    cases buffer with
    | none =>
      exact filled_kept sound rfl rfl rfl rfl idle rfl
        (fun call allocating => alone call allocating n) (.free _ frees) (by simp) (by simp)
        sound.bounded
    | some b =>
      refine filled_kept sound rfl rfl rfl rfl idle rfl
        (fun call allocating => alone call allocating n) (.free _ frees) (by simp) (by simp)
        ⟨Int.natCast_nonneg _, ?_⟩
      exact Int.ofNat_le.mpr (countSlots_le _)

end State

end SumiEmu.Nvnflinger
