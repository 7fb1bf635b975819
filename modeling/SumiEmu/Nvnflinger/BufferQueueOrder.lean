/-
# The order of the presented frames

Every queued frame leaves the queue once or is still in it: it is acquired, replaced, dropped
or cleared away. Frames are acquired in the order in which they were queued as long as an
item that replaces the front has no other items behind it; otherwise it overtakes them.
-/

import SumiEmu.Nvnflinger.BufferQueueRun

namespace SumiEmu.Nvnflinger

open List

variable {s s' : State} {a : Action} {r : Reply} {n : Slot} {slot : Int} {input : QueueBufferInput}
  {item front : BufferItem} {rest queue : List BufferItem} {actions : List Action}

/-- The frames that leave the queue. -/
def Event.left : Event → List Nat
  | .acquired item => [item.frameNumber]
  | .replaced front _ => [front.frameNumber]
  | .dropped front _ _ => [front.frameNumber]
  | .cleared items => items.map (·.frameNumber)

/-- The frame that is acquired. -/
def Event.acquiredFrame : Event → Option Nat
  | .acquired item => some item.frameNumber
  | _ => none

/-- The frame that a call gives to the consumer. -/
def Reply.acquiredFrame : Reply → Option Nat
  | .acquired item => some item.frameNumber
  | _ => none

/-- A time that is expected to have come when the next frame is presented, but not long ago. -/
def Timely (expectedPresent timestamp : Int) : Prop :=
  expectedPresent - State.maxReasonableNsec ≤ timestamp ∧ timestamp ≤ expectedPresent

/-- Why an item leaves the queue without being acquired: it has been the front and could be
dropped, or the item behind it was timely. -/
def Event.Justified : Event → Prop
  | .replaced front _ => front.isDroppable = true
  | .dropped front next expectedPresent => expectedPresent ≠ 0 ∧ front.isAutoTimestamp = false ∧
      Timely expectedPresent next.timestamp
  | _ => True

/-- What a section does to the items of the queue. -/
inductive Effect (s : State) (a : Action) (r : Reply) (s' : State) : Prop where
  | nothing (queue : s'.queue = s.queue) (log : s'.log = s.log)
      (counter : s'.frameCounter = s.frameCounter) (reply : r.acquiredFrame = none)
  | appended (item : BufferItem) (frame : item.frameNumber = s.frameCounter + 1)
      (queue : s'.queue = s.queue ++ [item]) (log : s'.log = s.log)
      (counter : s'.frameCounter = s.frameCounter + 1) (reply : r.acquiredFrame = none)
  | replaced (item front : BufferItem) (rest : List BufferItem)
      (frame : item.frameNumber = s.frameCounter + 1) (before : s.queue = front :: rest)
      (droppable : front.isDroppable = true) (queue : s'.queue = item :: rest)
      (log : s'.log = s.log ++ [.replaced front item])
      (counter : s'.frameCounter = s.frameCounter + 1) (reply : r.acquiredFrame = none)
      (slot : Int) (input : QueueBufferInput) (call : a = .queueBuffer slot input)
        (found : Slot × GraphicBuffer)
      (checked : s.checkQueueBuffer slot input = some (.ok found))
  | left (events : List Event) (before : s.queue.map (·.frameNumber) =
        events.flatMap Event.left ++ s'.queue.map (·.frameNumber))
      (log : s'.log = s.log ++ events) (counter : s'.frameCounter = s.frameCounter)
      (reply : events.filterMap Event.acquiredFrame = r.acquiredFrame.toList)
      (justified : ∀ e ∈ events, e.Justified)

namespace State

/-! ## What a section does to the items -/

section

variable (s : State)

variable (slot : Int)

theorem requestBuffer_effect : Effect s a (s.requestBuffer slot).2 (s.requestBuffer slot).1 := by
  unfold requestBuffer
  split
  · exact .nothing rfl rfl rfl rfl
  split
  · exact .nothing rfl rfl rfl rfl
  split <;> exact .nothing rfl rfl rfl rfl

theorem setBufferCount_effect (bufferCount : Int) :
    Effect s a (s.setBufferCount bufferCount).2 (s.setBufferCount bufferCount).1 := by
  unfold setBufferCount
  split
  · exact .nothing rfl rfl rfl rfl
  split
  · exact .nothing rfl rfl rfl rfl
  split
  · exact .nothing rfl rfl rfl rfl
  split
  · exact .nothing rfl rfl rfl rfl
  split
  · exact .nothing rfl rfl rfl rfl
  dsimp only
  split <;> exact .nothing rfl rfl rfl rfl

theorem detachBuffer_effect : Effect s a (s.detachBuffer slot).2 (s.detachBuffer slot).1 := by
  unfold detachBuffer
  split
  · exact .nothing rfl rfl rfl rfl
  split
  · exact .nothing rfl rfl rfl rfl
  split
  · exact .nothing rfl rfl rfl rfl
  split <;> exact .nothing rfl rfl rfl rfl

theorem cancelBuffer_effect (fence : Fence) :
    Effect s a (s.cancelBuffer slot fence).2 (s.cancelBuffer slot fence).1 := by
  unfold cancelBuffer
  split
  · exact .nothing rfl rfl rfl rfl
  split
  · exact .nothing rfl rfl rfl rfl
  split <;> exact .nothing rfl rfl rfl rfl

theorem connect_effect (api : Int) (byApp : Bool) :
    Effect s a (s.connect api byApp).2 (s.connect api byApp).1 := by
  unfold connect
  split
  · exact .nothing rfl rfl rfl rfl
  split
  · exact .nothing rfl rfl rfl rfl
  split
  · exact .nothing rfl rfl rfl rfl
  dsimp only
  split <;> exact .nothing rfl rfl rfl rfl

/-- All items are cleared away. -/
theorem disconnect_effect (api : Int) :
    Effect s a (s.disconnect api).2 (s.disconnect api).1 := by
  unfold disconnect
  split
  · exact .nothing rfl rfl rfl rfl
  split
  · refine .left [.cleared s.queue] ?_ rfl rfl rfl ?_
    · simp [Event.left, freeAllBuffersLocked, signalDequeueCondition]
    · simp [Event.Justified]
  · exact .nothing rfl rfl rfl rfl

theorem setPreallocatedBuffer_effect (buffer : Option Preallocated) :
    Effect s a (s.setPreallocatedBuffer slot buffer).2 (s.setPreallocatedBuffer slot buffer).1 := by
  unfold setPreallocatedBuffer
  split
  · exact .nothing rfl rfl rfl rfl
  · cases buffer <;> exact .nothing rfl rfl rfl rfl

theorem releaseBuffer_effect (frameNumber : Nat) :
    Effect s a (s.releaseBuffer slot frameNumber).2 (s.releaseBuffer slot frameNumber).1 := by
  unfold releaseBuffer
  split
  · exact .nothing rfl rfl rfl rfl
  split
  · exact .nothing rfl rfl rfl rfl
  split
  · exact .nothing rfl rfl rfl rfl
  split
  · exact .nothing rfl rfl rfl rfl
  split <;> exact .nothing rfl rfl rfl rfl

theorem dequeueAllocated_effect (call : Allocating) :
    Effect s a (s.dequeueAllocated call).2 (s.dequeueAllocated call).1 := by
  unfold dequeueAllocated
  split <;> exact .nothing rfl rfl rfl rfl

theorem dequeueSection_items (call : Dequeuing) :
    (s.dequeueSection call).1.queue = s.queue ∧ (s.dequeueSection call).1.log = s.log ∧
      (s.dequeueSection call).1.frameCounter = s.frameCounter ∧
      (s.dequeueSection call).2.acquiredFrame = none := by
  have searched := (waitForFreeSlotThenRelock_searched s call.async call.returnFlags).1
  unfold dequeueSection
  split
  case h_1 s₁ flags status pass =>
    rw [pass] at searched
    exact ⟨searched.queue, searched.log, searched.frameCounter, rfl⟩
  case h_2 s₁ flags slot pass =>
    rw [pass] at searched
    unfold dequeueFound
    extract_lets useDefaultSize width height
    split <;> exact ⟨searched.queue, searched.log, searched.frameCounter, rfl⟩
  case h_3 s₁ flags pass =>
    rw [pass] at searched
    exact ⟨searched.queue, searched.log, searched.frameCounter, rfl⟩

theorem dequeueBuffer_effect (async : Bool) (width height format usage : UInt32) :
    Effect s a (s.dequeueBuffer async width height format usage).2
      (s.dequeueBuffer async width height format usage).1 := by
  unfold dequeueBuffer
  split
  · exact .nothing rfl rfl rfl rfl
  · obtain ⟨queue, log, counter, reply⟩ := dequeueSection_items s _
    exact .nothing queue log counter reply

/-- The new item goes to the end, or to the place of the front. -/
theorem pushItem_items (item : BufferItem) :
    ((s.pushItem item).queue = s.queue ++ [item] ∧ (s.pushItem item).log = s.log) ∨
    ∃ front rest, s.queue = front :: rest ∧ front.isDroppable = true ∧
    (s.pushItem item).queue = item :: rest ∧
    (s.pushItem item).log = s.log ++ [.replaced front item] := by
  unfold pushItem
  split
  case h_1 empty => exact .inl ⟨by rw [empty]; rfl, rfl⟩
  case h_2 front rest filled =>
    split
    case isTrue droppable =>
      refine .inr ⟨front, rest, filled, droppable, rfl, ?_⟩
      rw [setTracked_eq]
    case isFalse => exact .inl ⟨rfl, rfl⟩

end

theorem queueBuffer_effect (result : s.queueBuffer slot input = some (s', r)) :
    Effect s (.queueBuffer slot input) r s' := by
  unfold queueBuffer at result
  obtain ⟨checked, check, result⟩ := Option.bind_eq_some_iff.mp result
  split at result
  · cases result
    exact .nothing rfl rfl rfl rfl
  case h_2 n buffer =>
    cases result
    set pushed := (s.markQueued n input).pushItem (s.newItem n input) with pushed_eq
    have counter : pushed.frameCounter = s.frameCounter + 1 := by rw [pushed_eq, pushItem_eq]; rfl
    rcases pushItem_items (s.markQueued n input) (s.newItem n input) with
      ⟨queue, log⟩ | ⟨front, rest, before, droppable, queue, log⟩
    · exact .appended (s.newItem n input) rfl queue log counter rfl
    · exact .replaced (s.newItem n input) front rest rfl before droppable queue log counter rfl slot
        input rfl _ check

/-- The items that are dropped are the first ones of the queue. -/
theorem dropTimely_items (expectedPresent : Int) (present : expectedPresent ≠ 0) (s : State)
    (queue : List BufferItem) : ∃ events : List Event,
      queue.map (·.frameNumber) =
        events.flatMap Event.left ++ (s.dropTimely expectedPresent queue).queue.map
        (·.frameNumber) ∧
      (s.dropTimely expectedPresent queue).log = s.log ++ events ∧
      events.filterMap Event.acquiredFrame = [] ∧ ∀ e ∈ events, e.Justified := by
  fun_induction dropTimely expectedPresent s queue with
  | case1 s front next rest late => exact ⟨[], by simp⟩
  | case2 s front next rest timely dropped ih =>
    obtain ⟨events, left, log, none, justified⟩ := ih
    have log' : dropped.log = s.log := by
      change (s.setTracked front _).log = _
      rw [setTracked_eq]
    refine ⟨.dropped front next expectedPresent :: events, ?_, ?_, none, ?_⟩
    · rw [map_cons, left]
      rfl
    · rw [log, log', append_assoc]
      rfl
    · intro e member
      rcases mem_cons.mp member with rfl | member
      · simp only [not_or, not_lt] at timely
        exact ⟨present, by simpa using timely.1, timely.2.1, timely.2.2⟩
      · exact justified e member
  | case3 s queue => exact ⟨[], by simp⟩

theorem acquireBuffer_effect (s : State) (expectedPresent : Int) :
    Effect s a (s.acquireBuffer expectedPresent).2 (s.acquireBuffer expectedPresent).1 := by
  unfold acquireBuffer
  split
  · exact .nothing rfl rfl rfl rfl
  case isFalse few =>
    have items : ∃ events : List Event, s.queue.map (·.frameNumber) = events.flatMap Event.left ++
          (if expectedPresent = 0 then s else s.dropTimely expectedPresent s.queue).queue.map
          (·.frameNumber) ∧
        (if expectedPresent = 0 then s else s.dropTimely expectedPresent s.queue).log =
          s.log ++ events ∧ events.filterMap Event.acquiredFrame = [] ∧
          ∀ e ∈ events, e.Justified := by
      split
      · exact ⟨[], by simp⟩
      case isFalse present => exact dropTimely_items expectedPresent present s s.queue
    have dropped : Dropped s (if expectedPresent = 0 then s
        else s.dropTimely expectedPresent s.queue) s.queue := by
      split
      · exact ⟨id, fun _ _ => .inl rfl, fun _ => rfl, rfl⟩
      · exact dropTimely_dropped ..
    generalize (if expectedPresent = 0 then s else s.dropTimely expectedPresent s.queue) =
      s₁ at items dropped ⊢
    obtain ⟨events, before, log, none, justified⟩ := items
    have counter : s₁.frameCounter = s.frameCounter := by rw [dropped.others]
    dsimp only
    split
    · exact .left events before log counter none justified
    case h_2 front rest queue =>
      split
      · exact .left events before log counter none justified
      · unfold acquireFront
        refine .left (events ++ [.acquired front]) ?_ ?_ ?_ ?_ ?_
        · rw [before, queue]
          simp [Event.left, signalDequeueCondition]
        · rw [← append_assoc, ← log]
          rfl
        · refine Eq.trans ?_ counter
          change (s₁.setTracked front _).frameCounter = _
          rw [setTracked_eq]
        · rw [filterMap_append, none]
          dsimp only
          split <;> rfl
        · intro e member
          rcases mem_append.mp member with member | member
          · exact justified e member
          · cases mem_singleton.mp member
            exact trivial

theorem some_effect {result : State × Reply} (same : some result = some (s', r))
    (effect : Effect s a result.2 result.1) : Effect s a r s' := by
  cases same
  exact effect

theorem step_effect (stepped : s.step a = some (s', r)) : Effect s a r s' := by
  cases a with
  | requestBuffer slot => exact some_effect (call_eq_some stepped).2 (requestBuffer_effect s slot)
  | setBufferCount count =>
      exact some_effect (call_eq_some stepped).2 (setBufferCount_effect s count)
  | dequeueBuffer async width height format usage =>
    exact some_effect (call_eq_some stepped).2
      (dequeueBuffer_effect s async width height format usage)
  | dequeueWoken =>
    simp only [step] at stepped
    split at stepped
    case h_1 call waiting =>
      split at stepped
      · obtain ⟨queue, log, counter, reply⟩ :=
          dequeueSection_items { s with dequeuePossible := false } call
        exact some_effect stepped (.nothing queue log counter reply)
      · cases stepped
    case h_2 => cases stepped
  | dequeueAllocated =>
    simp only [step] at stepped
    split at stepped
    case h_1 call window => exact some_effect stepped (dequeueAllocated_effect s call)
    case h_2 => cases stepped
  | detachBuffer slot => exact some_effect (call_eq_some stepped).2 (detachBuffer_effect s slot)
  | queueBuffer slot input => exact queueBuffer_effect (call_eq_some stepped).2
  | cancelBuffer slot fence =>
      exact some_effect (call_eq_some stepped).2 (cancelBuffer_effect s slot fence)
  | connect api byApp => exact some_effect (call_eq_some stepped).2 (connect_effect s api byApp)
  | disconnect api => exact some_effect (call_eq_some stepped).2 (disconnect_effect s api)
  | setPreallocatedBuffer slot buffer =>
    exact some_effect (call_eq_some stepped).2 (setPreallocatedBuffer_effect s slot buffer)
  | acquireBuffer expectedPresent =>
      exact some_effect stepped (acquireBuffer_effect s expectedPresent)
  | releaseBuffer slot frameNumber =>
      exact some_effect stepped (releaseBuffer_effect s slot frameNumber)

/-! ## Runs -/

/-- The frames of the items in the queue. -/
def queuedFrames (s : State) : List Nat := s.queue.map (·.frameNumber)

/-- The frames that have been acquired, one after the other. -/
def acquiredFrames (s : State) : List Nat := s.log.filterMap Event.acquiredFrame

/-- The frames that have left the queue, in the order in which they have left it. -/
def leftFrames (s : State) : List Nat := s.log.flatMap Event.left

/-- A run with the replies of its sections. -/
def runReplies (s : State) : List Action → Option (State × List Reply)
  | [] => some (s, [])
  | a :: actions => do
    let (s', r) ← s.step a
    let (s'', replies) ← s'.runReplies actions
    return (s'', r :: replies)

/-- Every frame so far has left the queue once or is in it once, for a reason, and the log
knows what the calls have given to the consumer. -/
structure Accounted (s : State) : Prop where
  frames : (s.leftFrames ++ s.queuedFrames).Perm (range' 1 s.frameCounter)
  justified : ∀ e ∈ s.log, e.Justified

theorem accounted_start (hasConsumerListener consumerControlledByApp : Bool) :
    Accounted (start hasConsumerListener consumerControlledByApp) :=
  ⟨.refl _, fun _ member => absurd member not_mem_nil⟩

theorem Accounted.step (accounted : Accounted s) (effect : Effect s a r s') : Accounted s' := by
  obtain ⟨frames, justified⟩ := accounted
  unfold leftFrames queuedFrames at frames
  cases effect with
  | nothing queue log counter _ =>
    refine ⟨?_, log ▸ justified⟩
    unfold leftFrames queuedFrames
    rwa [queue, log, counter]
  | appended item frame queue log counter _ =>
    refine ⟨?_, log ▸ justified⟩
    unfold leftFrames queuedFrames
    rw [queue, log, counter, map_append, ← append_assoc, range'_concat]
    refine frames.append (.of_eq ?_)
    simp [frame, Nat.add_comm]
  | replaced item front rest frame before droppable queue log counter _ =>
    constructor
    · unfold leftFrames queuedFrames
      rw [queue, log, counter, range'_concat, flatMap_append, append_assoc]
      rw [before] at frames
      refine .trans ?_ (frames.append_right [_])
      rw [append_assoc]
      refine .append_left _ ?_
      rw [map_cons, map_cons, frame, Nat.add_comm s.frameCounter 1, Nat.one_mul]
      exact ((perm_append_singleton _ _).symm).cons front.frameNumber
    · intro e member
      rw [log] at member
      rcases mem_append.mp member with member | member
      · exact justified e member
      · cases mem_singleton.mp member
        exact droppable
  | left events before log counter _ reasons =>
    constructor
    · unfold leftFrames queuedFrames
      rw [log, counter, flatMap_append, append_assoc, ← before]
      exact frames
    · intro e member
      rw [log] at member
      exact (mem_append.mp member).elim (justified e) (reasons e)

/-- A frame that takes the place of the front overtakes the items behind it. -/
def overtakes (s : State) (a : Action) : Bool :=
  match a with
  | .queueBuffer slot input =>
    match s.checkQueueBuffer slot input, s.queue with
    | some (.ok _), front :: rest => front.isDroppable && !rest.isEmpty
    | _, _ => false
  | _ => false

/-- Some section of a run lets a frame overtake others. -/
def overtakesWithin (s : State) : List Action → Bool
  | [] => false
  | a :: actions => s.overtakes a ||
    match s.step a with
    | some (s', _) => s'.overtakesWithin actions
    | none => false

/-- The frames have been acquired in their order, and the others follow in it. -/
structure Ordered (s : State) : Prop where
  ascending : (s.acquiredFrames ++ s.queuedFrames).Pairwise (· < ·)
  counted : ∀ frame ∈ s.acquiredFrames ++ s.queuedFrames, frame ≤ s.frameCounter

theorem ordered_start (hasConsumerListener consumerControlledByApp : Bool) :
    Ordered (start hasConsumerListener consumerControlledByApp) :=
  ⟨.nil, fun _ member => absurd member not_mem_nil⟩

/-- A frame that is acquired leaves the queue. -/
theorem acquired_sublist_left (events : List Event) :
    (events.filterMap Event.acquiredFrame).Sublist (events.flatMap Event.left) := by
  induction events with
  | nil => exact .slnil
  | cons e events ih =>
    rw [flatMap_cons]
    cases e with
    | acquired item => exact ih.cons_cons item.frameNumber
    | replaced front item => exact ih.cons front.frameNumber
    | dropped front next expectedPresent => exact ih.cons front.frameNumber
    | cleared items => exact ih.trans (sublist_append_right _ _)

theorem Effect.acquiredFrames (effect : Effect s a r s') :
    s'.acquiredFrames = s.acquiredFrames ++ r.acquiredFrame.toList := by
  unfold State.acquiredFrames
  cases effect with
  | nothing _ log _ reply => simp [log, reply]
  | appended _ _ _ log _ reply => simp [log, reply]
  | replaced _ _ _ _ _ _ _ log _ reply => simp [log, reply, Event.acquiredFrame]
  | left events _ log _ reply _ => rw [log, filterMap_append, reply]

/-- Behind all frames so far there is room for the next one. -/
theorem ascending_concat {l : List Nat} {counter : Nat} (ascending : l.Pairwise (· < ·))
    (counted : ∀ frame ∈ l, frame ≤ counter) : (l ++ [counter + 1]).Pairwise (· < ·) ∧
      ∀ frame ∈ l ++ [counter + 1], frame ≤ counter + 1 := by
  constructor
  · refine pairwise_append.mpr ⟨ascending, pairwise_singleton _ _, fun frame member new last => ?_⟩
    cases mem_singleton.mp last
    exact Nat.lt_succ_of_le (counted frame member)
  · intro frame member
    rcases mem_append.mp member with member | last
    · exact Nat.le_succ_of_le (counted frame member)
    · exact (mem_singleton.mp last).le

theorem Ordered.step (ordered : Ordered s) (effect : Effect s a r s')
    (alone : s.overtakes a = false) : Ordered s' := by
  obtain ⟨ascending, counted⟩ := ordered
  have acquired := Effect.acquiredFrames effect
  cases effect with
  | nothing queue log counter reply =>
    have same : s'.acquiredFrames ++ s'.queuedFrames = s.acquiredFrames ++ s.queuedFrames := by
      rw [acquired, reply, queuedFrames, queuedFrames, queue]
      simp
    exact ⟨same ▸ ascending, same ▸ counter ▸ counted⟩
  | appended item frame queue log counter reply =>
    have more : s'.acquiredFrames ++ s'.queuedFrames =
        s.acquiredFrames ++ s.queuedFrames ++ [s.frameCounter + 1] := by
      rw [acquired, reply, queuedFrames, queuedFrames, queue]
      simp [frame]
    obtain ⟨after, within⟩ := ascending_concat ascending counted
    exact ⟨more ▸ after, more ▸ counter ▸ within⟩
  | replaced item front rest frame before droppable queue log counter reply slot input call found
      checked =>
    subst call
    simp only [overtakes, checked, before, droppable, Bool.true_and, Bool.not_eq_false',
      List.isEmpty_iff] at alone
    subst alone
    have others : s'.acquiredFrames ++ s'.queuedFrames =
        s.acquiredFrames ++ [s.frameCounter + 1] := by
      rw [acquired, reply, queuedFrames, queue]
      simp [frame]
    obtain ⟨after, within⟩ := ascending_concat (ascending.sublist (sublist_append_left _ _))
      fun frame member => counted frame (mem_append_left _ member)
    exact ⟨others ▸ after, others ▸ counter ▸ within⟩
  | left events before log counter reply justified =>
    have sub : (s'.acquiredFrames ++ s'.queuedFrames).Sublist
        (s.acquiredFrames ++ s.queuedFrames) := by
      rw [acquired, ← reply, append_assoc, queuedFrames, queuedFrames, before]
      exact (List.Sublist.refl _).append ((acquired_sublist_left events).append (.refl _))
    exact ⟨ascending.sublist sub, fun frame member => counter ▸ counted frame (sub.subset member)⟩

variable {replies : List Reply}

theorem runReplies_cons (ran : s.runReplies (a :: actions) = some (s', replies)) :
    ∃ t r rest, s.step a = some (t, r) ∧ t.runReplies actions = some (s', rest) ∧
      replies = r :: rest := by
  obtain ⟨⟨t, r⟩, stepped, ran⟩ := Option.bind_eq_some_iff.mp ran
  obtain ⟨⟨s'', rest⟩, later, same⟩ := Option.bind_eq_some_iff.mp ran
  cases same
  exact ⟨t, r, rest, stepped, later, rfl⟩

/-- What the calls have given to the consumer is what the log says. -/
theorem runReplies_acquired (ran : s.runReplies actions = some (s', replies)) :
    s'.acquiredFrames = s.acquiredFrames ++ replies.filterMap Reply.acquiredFrame := by
  induction actions generalizing s replies with
  | nil =>
    cases ran
    simp
  | cons a actions ih =>
    obtain ⟨t, r, rest, stepped, later, rfl⟩ := runReplies_cons ran
    rw [ih later, Effect.acquiredFrames (step_effect stepped), append_assoc]
    cases frame : r.acquiredFrame <;> simp [frame]

theorem runReplies_accounted (accounted : Accounted s)
    (ran : s.runReplies actions = some (s', replies)) : Accounted s' := by
  induction actions generalizing s replies with
  | nil =>
    cases ran
    exact accounted
  | cons a actions ih =>
    obtain ⟨t, r, rest, stepped, later, rfl⟩ := runReplies_cons ran
    exact ih (accounted.step (step_effect stepped)) later

theorem runReplies_ordered (ordered : Ordered s) (alone : s.overtakesWithin actions = false)
    (ran : s.runReplies actions = some (s', replies)) : Ordered s' := by
  induction actions generalizing s replies with
  | nil =>
    cases ran
    exact ordered
  | cons a actions ih =>
    obtain ⟨t, r, rest, stepped, later, rfl⟩ := runReplies_cons ran
    obtain ⟨first, others⟩ := Bool.or_eq_false_iff.mp alone
    rw [stepped] at others
    exact ih (ordered.step (step_effect stepped) first) others later

/-- Frames are presented in order: those that the calls have acquired ascend, and every frame
so far has left the queue once or is in it once; what has left it without being acquired was a
front that could be dropped, or had a timely item behind it, or was cleared away. -/
structure Presented (s : State) (replies : List Reply) : Prop where
  ascending : (replies.filterMap Reply.acquiredFrame).Pairwise (· < ·)
  acquired : replies.filterMap Reply.acquiredFrame = s.acquiredFrames
  once : (s.leftFrames ++ s.queuedFrames).Perm (range' 1 s.frameCounter)
  justified : ∀ e ∈ s.log, e.Justified

/-- A run presents its frames in order if no frame in it overtakes others by taking the place
of the front. -/
theorem run_presents (hasConsumerListener consumerControlledByApp : Bool) (actions : List Action)
    (alone : (start hasConsumerListener consumerControlledByApp).overtakesWithin actions = false)
    (ran : (start hasConsumerListener consumerControlledByApp).runReplies actions =
    some (s, replies)) : s.Presented replies := by
  have acquired : replies.filterMap Reply.acquiredFrame = s.acquiredFrames :=
    (runReplies_acquired ran).symm
  have ordered := runReplies_ordered (ordered_start hasConsumerListener consumerControlledByApp)
    alone ran
  obtain ⟨once, justified⟩ :=
    runReplies_accounted (accounted_start hasConsumerListener consumerControlledByApp) ran
  refine ⟨?_, acquired, once, justified⟩
  rw [acquired]
  exact ordered.ascending.sublist (sublist_append_left _ _)

/-- One frame after the other is presented. -/
def twoFrames : List Action :=
  oneFrame ++ [.acquireBuffer 0, .releaseBuffer 0 1, .dequeueBuffer false 4 4 1 0,
    .dequeueAllocated, .requestBuffer 1, .queueBuffer 1 {}, .acquireBuffer 5]

theorem run_presents_frames : ∃ s replies,
    (start true false).runReplies twoFrames = some (s, replies) ∧
    replies.filterMap Reply.acquiredFrame = [1, 2] ∧ s.Presented replies := by
  have finished : ((start true false).runReplies twoFrames).isSome := by decide +kernel
  obtain ⟨⟨s, replies⟩, ran⟩ := Option.isSome_iff_exists.mp finished
  have frames : ((start true false).runReplies twoFrames).map
    (fun p => p.2.filterMap Reply.acquiredFrame) = some [1, 2] := by decide +kernel
  rw [ran] at frames
  exact ⟨s, replies, ran, Option.some.inj frames,
    run_presents true false twoFrames (by decide +kernel) ran⟩

/-- A slot is taken and filled. -/
def takeSlot (slot : Int) : List Action :=
  [.dequeueBuffer false 4 4 1 0, .dequeueAllocated, .requestBuffer slot]

/-- Three frames are queued, of which the second one could be dropped. When the first one is
acquired the fourth one comes and takes the second one's place, ahead of the third one. -/
def overtaking : List Action :=
  .setBufferCount 4 :: ([0, 1, 2, 3].flatMap takeSlot ++
    [.queueBuffer 0 {}, .queueBuffer 1 { async := true }, .queueBuffer 2 {}, .acquireBuffer 0,
      .releaseBuffer 0 1,
      .queueBuffer 3 {}, .acquireBuffer 0, .releaseBuffer 3 4, .acquireBuffer 0])

theorem run_overtakes : ¬ ∀ actions s replies,
    (start true false).runReplies actions = some (s, replies) → s.Presented replies := by
  intro presented
  have finished : ((start true false).runReplies overtaking).isSome := by decide +kernel
  obtain ⟨⟨s, replies⟩, ran⟩ := Option.isSome_iff_exists.mp finished
  have frames : ((start true false).runReplies overtaking).map
    (fun p => p.2.filterMap Reply.acquiredFrame) = some [1, 4, 3] := by decide +kernel
  rw [ran] at frames
  have acquired : replies.filterMap Reply.acquiredFrame = [1, 4, 3] := Option.some.inj frames
  have ascending := (presented overtaking s replies ran).ascending
  rw [acquired] at ascending
  exact absurd ascending (by decide)

end State

end SumiEmu.Nvnflinger
