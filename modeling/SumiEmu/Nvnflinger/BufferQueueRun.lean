/-
# Runs of the buffer queue

Any interleaving of the producer's calls and the consumer's is a run, and what holds between
two sections holds in every state of it. A slot that is handed out is used until some call
gives it back, and only then can it be handed out again.
-/

import SumiEmu.Nvnflinger.BufferQueueItems

namespace SumiEmu.Nvnflinger

open List

variable {s s' : State} {a : Action} {r : Reply} {n : Slot} {actions : List Action}

/-! ## One section -/

theorem sound_start (hasConsumerListener consumerControlledByApp : Bool) :
    Sound (start hasConsumerListener consumerControlledByApp) where
  owned := by
    have nothing : ∀ item : BufferItem, item ∉ [] := fun _ => not_mem_nil
    refine ⟨fun item member => absurd member (nothing item), fun _ queued => ?_, .nil,
      fun item member => absurd member (nothing item), fun _ place present => ?_⟩
    · cases queued
    · cases present
  filled _ dequeued := by cases dequeued
  window _ allocating := by cases allocating
  few := by
    have none : (start hasConsumerListener consumerControlledByApp).numAcquiredBuffers = 0 := by
      simp [State.numAcquiredBuffers, State.countSlots, start]
    rw [none]
    decide
  available := rfl
  bounded := ⟨le_refl _, Int.natCast_nonneg _⟩

namespace State

theorem call_eq_some {result : Option (State × Reply)} (called : s.call result = some (s', r)) :
    s.producer = .idle ∧ result = some (s', r) := by
  unfold call at called
  split at called
  case isTrue idle => exact ⟨idle, called⟩
  case isFalse => cases called

theorem some_kept {result : State × Reply} (same : some result = some (s', r))
    (kept : Kept s a result.2 result.1) : Kept s a r s' := by
  cases same
  exact kept

/-- A call with one section. -/
theorem call_kept {result : State × Reply} (called : s.call result = some (s', r))
    (kept : s.producer = .idle → Kept s a result.2 result.1) : Kept s a r s' := by
  obtain ⟨idle, same⟩ := call_eq_some called
  exact some_kept same (kept idle)

theorem dequeueBuffer_kept (sound : Sound s) (idle : s.producer = .idle) (async : Bool)
    (width height format usage : UInt32) :
    Kept s (.dequeueBuffer async width height format usage)
      (s.dequeueBuffer async width height format usage).2
      (s.dequeueBuffer async width height format usage).1 := by
  unfold dequeueBuffer
  split
  · exact sound.kept
  · apply dequeueSection_kept sound (not_allocating idle)
    exact trivial

/-- Clearing the flag on waking up changes no owner. -/
theorem Searched.woken (s : State) : Searched s { s with dequeuePossible := false } :=
  ⟨fun _ => rfl, fun _ => .inl rfl, rfl, rfl, rfl, rfl, rfl, rfl, rfl⟩

theorem step_kept (sound : Sound s) (stepped : s.step a = some (s', r)) : Kept s a r s' := by
  cases a with
  | requestBuffer slot => exact call_kept stepped fun idle => requestBuffer_kept sound idle slot
  | setBufferCount count => exact call_kept stepped fun idle => setBufferCount_kept sound idle count
  | dequeueBuffer async width height format usage =>
    exact call_kept stepped fun idle =>
      dequeueBuffer_kept sound idle async width height format usage
  | dequeueWoken =>
    simp only [step] at stepped
    split at stepped
    case h_1 call waiting =>
      split at stepped
      · have closed : ∀ other, s.producer ≠ .allocating other := by simp [waiting]
        have woken := dequeueSection_kept (a := .dequeueWoken) ((Searched.woken s).sound sound)
          closed trivial call
        exact some_kept stepped ⟨woken.sound, woken.moves⟩
      · cases stepped
    case h_2 => cases stepped
  | dequeueAllocated =>
    simp only [step] at stepped
    split at stepped
    case h_1 call window =>
      exact some_kept stepped (dequeueAllocated_kept sound window)
    case h_2 => cases stepped
  | detachBuffer slot => exact call_kept stepped fun idle => detachBuffer_kept sound idle slot
  | queueBuffer slot input =>
    obtain ⟨idle, queued⟩ := call_eq_some stepped
    exact queueBuffer_kept sound idle queued
  | cancelBuffer slot fence =>
    exact call_kept stepped fun idle => cancelBuffer_kept sound idle slot fence
  | connect api byApp => exact call_kept stepped fun idle => connect_kept sound idle api byApp
  | disconnect api => exact call_kept stepped fun idle => disconnect_kept sound idle api
  | setPreallocatedBuffer slot buffer =>
    exact call_kept stepped fun idle => setPreallocatedBuffer_kept sound idle slot buffer
  | acquireBuffer expectedPresent =>
    exact some_kept stepped (acquireBuffer_kept sound expectedPresent)
  | releaseBuffer slot frameNumber =>
    exact some_kept stepped (releaseBuffer_kept sound slot frameNumber)

/-! ## Handing out -/

theorem dequeueFound_slot (s : State) (call : Dequeuing) (n : Slot) :
    (s.dequeueFound call n).2.slot = some n ∧
    ((s.dequeueFound call n).1.slots n).bufferState = .dequeued := by
  unfold dequeueFound
  extract_lets useDefaultSize width height
  split
  · exact ⟨rfl, by simp +zetaDelta [setSlot]⟩
  · exact ⟨rfl, by simp +zetaDelta [setSlot]⟩

theorem dequeueSection_handsOut {call : Dequeuing} (section_ : s.dequeueSection call = (s', r))
    (handed : r.slot = some n) : (s.slots n).bufferState = .free ∧
    (s'.slots n).bufferState = .dequeued := by
  have found := (waitForFreeSlotThenRelock_searched s call.async call.returnFlags).2
  unfold dequeueSection at section_
  split at section_
  case h_1 =>
    cases (Prod.mk.inj section_).2
    cases handed
  case h_2 s₁ flags slot pass =>
    rw [pass] at found
    obtain ⟨same, state⟩ := dequeueFound_slot s₁ { call with returnFlags := flags } slot
    rw [section_] at same state
    cases same.symm.trans handed
    exact ⟨found n rfl, state⟩
  case h_3 =>
    cases (Prod.mk.inj section_).2
    cases handed

/-- A slot that is handed out has been free. -/
theorem step_handsOut (stepped : s.step a = some (s', r)) (handsOut : HandsOut a r n) :
    (s.slots n).bufferState = .free ∧ (s'.slots n).bufferState = .dequeued := by
  obtain ⟨dequeues, handed⟩ := handsOut
  cases a with
  | dequeueBuffer async width height format usage =>
    obtain ⟨-, result⟩ := call_eq_some stepped
    have section_ := Option.some.inj result
    unfold dequeueBuffer at section_
    split at section_
    · cases (Prod.mk.inj section_).2
      cases handed
    · exact dequeueSection_handsOut section_ handed
  | dequeueWoken =>
    simp only [step] at stepped
    split at stepped
    · split at stepped
      · exact dequeueSection_handsOut (s := { s with dequeuePossible := false })
          (Option.some.inj stepped) handed
      · cases stepped
    · cases stepped
  | _ => exact absurd dequeues id

/-! ## Runs -/

theorem run_append (s : State) (l k : List Action) : s.run (l ++ k) = (s.run l).bind (·.run k) :=
  foldlM_append ..

theorem run_concat (s : State) (l : List Action) (a : Action) :
    s.run (l ++ [a]) = (s.run l).bind fun t => (t.step a).map Prod.fst := by
  rw [run_append]
  congr 1
  funext t
  rw [run, foldlM_cons]
  exact bind_pure _

theorem run_sound (sound : Sound s) (ran : s.run actions = some s') : Sound s' := by
  induction actions using List.reverseRecOn generalizing s' with
  | nil =>
    cases ran
    exact sound
  | append_singleton actions a ih =>
    rw [run_concat] at ran
    obtain ⟨t, before, last⟩ := Option.bind_eq_some_iff.mp ran
    obtain ⟨⟨s'', r⟩, stepped, rfl⟩ := Option.map_eq_some_iff.mp last
    exact (step_kept (ih before) stepped).sound

/-- The items of the queue that still track a slot. -/
def trackers (s : State) (n : Slot) : List BufferItem :=
  s.queue.filter fun item => item.slot = n ∧ StillTracking s.slots item

theorem mem_trackers {item : BufferItem} :
    item ∈ s.trackers n ↔ item ∈ s.queue ∧ item.slot = n ∧ StillTracking s.slots item := by
  simp [trackers]

/-- No slot is tracked by two items. -/
theorem length_trackers_le (sound : Sound s) (n : Slot) : (s.trackers n).length ≤ 1 := by
  rcases two : s.trackers n with _ | ⟨x, _ | ⟨y, rest⟩⟩
  · exact Nat.zero_le _
  · exact le_refl _
  · have apart : (s.trackers n).Pairwise fun x y => x.slot = y.slot → x.address ≠ y.address :=
      sound.owned.apart.filter _
    rw [two] at apart
    obtain ⟨-, slotX, tracksX⟩ := mem_trackers.mp (two ▸ mem_cons_self : x ∈ s.trackers n)
    obtain ⟨-, slotY, tracksY⟩ := mem_trackers.mp
      (two ▸ mem_cons_of_mem _ mem_cons_self : y ∈ s.trackers n)
    obtain ⟨place, address, stored⟩ := stillTracking_iff.mp tracksX
    obtain ⟨place', address', stored'⟩ := stillTracking_iff.mp tracksY
    rw [slotY, ← slotX, stored] at stored'
    refine absurd ?_ ((pairwise_cons.mp apart).1 y mem_cons_self (slotX.trans slotY.symm))
    exact address.trans (stored'.trans address'.symm)

/-- A slot is queued when just one item tracks it. -/
theorem queued_iff (sound : Sound s) (n : Slot) :
    (s.slots n).bufferState = .queued ↔ (s.trackers n).length = 1 := by
  constructor
  · intro queued
    obtain ⟨item, member, slot, tracks⟩ := sound.owned.held n queued
    have positive : 0 < (s.trackers n).length :=
      length_pos_of_mem (mem_trackers.mpr ⟨member, slot, tracks⟩)
    exact le_antisymm (length_trackers_le sound n) positive
  · intro one
    obtain ⟨item, same⟩ := length_eq_one_iff.mp one
    obtain ⟨member, rfl, tracks⟩ := mem_trackers.mp (same ▸ mem_cons_self : item ∈ s.trackers n)
    exact sound.owned.queued item member tracks

/-- The slot is queued by one of the calls. -/
def QueuedWithin (s : State) (calls : List Action) (n : Slot) : Prop :=
  ∃ before slot input after t t' r, calls = before ++ .queueBuffer slot input :: after ∧
    slotAt slot = some n ∧ s.run before = some t ∧ t.step (.queueBuffer slot input) = some (t', r) ∧
    (t.slots n).bufferState = .dequeued ∧ (t'.slots n).bufferState = .queued

/-- Some call gives a slot back: it frees a slot of the producer, or one that has been queued
meanwhile and is released, dropped or replaced, or all slots or this one are given up. -/
def ComesBack (s : State) (calls : List Action) (n : Slot) : Prop :=
  ∃ before a after t t' r, calls = before ++ a :: after ∧ s.run before = some t ∧
    t.step a = some (t', r) ∧ (t'.slots n).bufferState = .free ∧ Frees a n (t.slots n).bufferState ∧
    ((t.slots n).bufferState = .dequeued ∨
      ((t.slots n).bufferState = .queued ∨ (t.slots n).bufferState = .acquired) ∧
      s.QueuedWithin before n)

variable {calls : List Action}

theorem QueuedWithin.append (queued : s.QueuedWithin calls n) (more : List Action) :
    s.QueuedWithin (calls ++ more) n := by
  obtain ⟨before, slot, input, after, t, t', r, rfl, found⟩ := queued
  exact ⟨before, slot, input, after ++ more, t, t', r, by simp, found⟩

theorem ComesBack.append (back : s.ComesBack calls n) (more : List Action) :
    s.ComesBack (calls ++ more) n := by
  obtain ⟨before, a, after, t, t', r, rfl, found⟩ := back
  exact ⟨before, a, after ++ more, t, t', r, by simp, found⟩

/-- Until a slot comes back it is with the producer, or it has been queued. -/
theorem used_or_comesBack (sound : Sound s) (dequeued : (s.slots n).bufferState = .dequeued)
    (ran : s.run calls = some s') : s.ComesBack calls n ∨
      (s'.slots n).bufferState = .dequeued ∨
      ((s'.slots n).bufferState = .queued ∨ (s'.slots n).bufferState = .acquired) ∧
      s.QueuedWithin calls n := by
  induction calls using List.reverseRecOn generalizing s' with
  | nil =>
    cases ran
    exact .inr (.inl dequeued)
  | append_singleton calls a ih =>
    rw [run_concat] at ran
    obtain ⟨t, before, last⟩ := Option.bind_eq_some_iff.mp ran
    obtain ⟨⟨s'', r⟩, stepped, rfl⟩ := Option.map_eq_some_iff.mp last
    dsimp only at stepped ⊢
    rcases ih before with back | used
    · exact .inl (back.append [a])
    · have move := (step_kept (run_sound sound before) stepped).moves n
      generalize state' : (s''.slots n).bufferState = y at move
      generalize state : (t.slots n).bufferState = x at move used
      cases move with
      | stay => exact .inr (used.imp_right fun ⟨place, queued⟩ => ⟨place, queued.append [a]⟩)
      | dequeue => exact absurd used (by simp)
      | queue slot input call place =>
        refine .inr (.inr ⟨.inl rfl, calls, slot, input, [], t, s'', r, ?_⟩)
        exact ⟨by rw [call], place, before, call ▸ stepped, state, state'⟩
      | acquire expectedPresent call =>
        refine .inr (.inr ⟨.inr rfl, ?_⟩)
        rcases used with dequeued | ⟨-, queued⟩
        · cases dequeued
        · exact queued.append [a]
      | free _ frees =>
        refine .inl ⟨calls, a, [], t, s'', r, rfl, before, stepped, state', state.symm ▸ frees, ?_⟩
        rwa [state]

/-! ## Results -/

/-- In every state of a run a slot is queued just when one item of the queue tracks it, and
no slot is tracked by two; at most one slot is acquired; a call hands out only a free slot,
and the slot comes back before it is handed out again; and only queued slots are acquired. -/
theorem run_ownership (hasConsumerListener consumerControlledByApp : Bool) (actions : List Action)
    (ran : (start hasConsumerListener consumerControlledByApp).run actions = some s) :
    (∀ n, (s.slots n).bufferState = .queued ↔ (s.trackers n).length = 1) ∧
    (∀ n, (s.trackers n).length ≤ 1) ∧
    (s.numAcquiredBuffers : Int) ≤ maxAcquiredBufferCount + 1 ∧
    ∀ a s₁ r, s.step a = some (s₁, r) → ∀ n,
      (HandsOut a r n → (s.slots n).bufferState = .free ∧
        ∀ calls s₂ b s₃ r', s₁.run calls = some s₂ → s₂.step b = some (s₃, r') → HandsOut b r' n →
          s₁.ComesBack calls n) ∧
      ((s₁.slots n).bufferState = .acquired → (s.slots n).bufferState = .acquired ∨
        (s.slots n).bufferState = .queued ∧
        ∃ expectedPresent, a = .acquireBuffer expectedPresent) := by
  have sound := run_sound (sound_start hasConsumerListener consumerControlledByApp) ran
  refine ⟨queued_iff sound, length_trackers_le sound, sound.few,
    fun a s₁ r stepped n => ⟨fun handsOut => ?_, ?_⟩⟩
  · obtain ⟨free, dequeued⟩ := step_handsOut stepped handsOut
    refine ⟨free, fun calls s₂ b s₃ r' later again handsOut' => ?_⟩
    rcases used_or_comesBack (step_kept sound stepped).sound dequeued later with back | used
    · exact back
    · rw [(step_handsOut again handsOut').1] at used
      exact absurd used (by simp)
  · intro acquired
    exact (acquired ▸ (step_kept sound stepped).moves n).of_acquired

/-- A frame of a slot that is taken and given back as the interface has it. -/
def oneFrame : List Action :=
  [.dequeueBuffer false 4 4 1 0, .dequeueAllocated, .requestBuffer 0, .queueBuffer 0 {}]

/-- After one frame the slot is queued, and the consumer acquires it. -/
theorem run_ownership_frame : ∃ s, (start true false).run oneFrame = some s ∧
    (s.slots ⟨0, by decide⟩).bufferState = .queued ∧ (s.trackers ⟨0, by decide⟩).length = 1 := by
  have finished : ((start true false).run oneFrame).isSome := by decide +kernel
  obtain ⟨s, ran⟩ := Option.isSome_iff_exists.mp finished
  have queued : (((start true false).run oneFrame).map fun s =>
    (s.slots ⟨0, by decide⟩).bufferState) = some .queued := by decide +kernel
  rw [ran] at queued
  have state := Option.some.inj queued
  exact ⟨s, ran, state, ((run_ownership true false oneFrame ran).1 _).mp state⟩

end State

end SumiEmu.Nvnflinger
