/-
# The core timing delivers events

Two things are kept by the steps of a run. `Kept` speaks of the queue and of the waiting
threads, whatever `Advance` is doing; `Held` speaks of what `Advance` holds across a callback:
as long as the sequence number is unchanged, the entry is still in the queue and its handle is
good.
-/

import SumiEmu.Core.CoreTiming

namespace SumiEmu.Core

open Histories HandleHeap Function List

variable {T : Type*}

attribute [simp] Happening.Inserts Happening.Removes Happening.Chooses Happening.Starts
  Happening.Finishes

namespace Event

theorem less_asymmetric (a b : Event T) (less : decide (a.Less b) = true) :
    decide (b.Less a) = false := by
  rw [decide_eq_true_iff] at less
  refine decide_eq_false ?_
  unfold Less at less ⊢
  omega

theorem less_transitive (a b c : Event T) (first : decide (a.Less b) = false)
    (second : decide (b.Less c) = false) : decide (a.Less c) = false := by
  rw [decide_eq_false_iff_not] at first second
  refine decide_eq_false ?_
  unfold Less at first second ⊢
  omega

theorem Less.time_le {left right : Event T} (less : left.Less right) : left.time ≤ right.time := by
  unfold Less at less
  omega

end Event

/-- What a waiting thread can rely on: it has removed the entries of its type, and once it has
got past `advance_lock`, all its removals lie before that. -/
structure WaitKept (log : List (Happening T)) (thread : Nat) (call : Waiting T) : Prop where
  removal : ∃ removed, .unscheduled thread call.type removed ∈ log
  passed : call.passed = true → ∀ removed rest,
    .unscheduled thread call.type removed :: rest <:+ log →
    ∃ between, .waited thread call.type :: between <:+ log ∧
    .unscheduled thread call.type removed :: rest <:+ between

/-- The waiting thread makes no other removal. -/
theorem WaitKept.cons {log : List (Happening T)} {thread : Nat} {call : Waiting T}
    {happening : Happening T}
    (kept : WaitKept log thread call)
    (other : ∀ type removed, happening ≠ .unscheduled thread type removed) :
    WaitKept (happening :: log) thread call where
  removal := by
    obtain ⟨removed, member⟩ := kept.removal
    exact ⟨removed, mem_cons_of_mem _ member⟩
  passed past removed rest place := by
    rcases suffix_cons_iff.mp place with same | earlier
    · exact absurd (cons.inj same).1.symm (other _ _)
    · obtain ⟨between, wait, first⟩ := kept.passed past removed rest earlier
      exact ⟨between, wait.trans (suffix_cons _ _), first⟩

namespace CoreTiming

/-- What holds of the queue and of the waiting threads. -/
structure Kept (s : CoreTiming T) : Prop where
  lawful : Lawful Rule s.log
  queued : ∀ event, event ∈ s.events ↔ Queued s.log event
  handles : ∀ node ∈ s.eventQueue.nodes, node.2.handle = node.1
  older : ∀ event, Inserted s.log event → event.fifoOrder < s.eventFifoId
  unique : ∀ event other, Inserted s.log event → Inserted s.log other →
    event.fifoOrder = other.fifoOrder → event = other
  known : ∀ event, Removed s.log event ∨ Chosen s.log event → Inserted s.log event
  ended : ∀ event, Finished s.log event → Chosen s.log event
  pause : pauseEnd s.log = s.pauseEndTime
  waits : ∀ thread call, s.waiting thread = some call → WaitKept s.log thread call

/-- What holds of an entry whose callback is in progress. -/
structure Held (s : CoreTiming T) (current : Current T) : Prop where
  chosen : Chosen s.log current.event
  unfinished : ¬ Finished s.log current.event
  others : ∀ event, Chosen s.log event → event = current.event ∨ Finished s.log event
  started : Started s.log current.event ↔ current.running = true
  due : current.event.time ≤ s.clock
  node : current.event.handle = current.node
  sequence : current.sequenceNumber ≤ s.sequenceNumber current.event.type
  unchanged : current.event.rescheduleTime ≠ 0 →
    (current.sequenceNumber = s.sequenceNumber current.event.type ↔ ¬ Removed s.log current.event)

/-- What every run keeps. -/
structure Sound (s : CoreTiming T) : Prop where
  kept : s.Kept
  timer : s.globalTimer ≤ s.clock
  idle : s.advance = none → Idle s.log
  held : ∀ current, s.advance = some current → s.Held current

/-- A step that gets through keeps `Sound`, and one that does not has to wait. -/
def Fine : Except Stuck (CoreTiming T) → Prop
  | .ok s => s.Sound
  | .error stuck => stuck = .blocked

theorem sound_initial : ({} : CoreTiming T).Sound where
  kept :=
    { lawful := lawful_nil
      queued := fun event => iff_of_false not_mem_nil fun queued => not_occurred_nil _ queued.1
      handles := fun node absurdity => by cases absurdity
      older := fun event absurdity => absurd absurdity (not_occurred_nil _)
      unique := fun event _ absurdity => absurd absurdity (not_occurred_nil _)
      known := fun event absurdity => by
        rcases absurdity with removed | chosen
        · exact absurd removed (not_occurred_nil _)
        · exact absurd chosen (not_occurred_nil _)
      ended := fun event absurdity => absurd absurdity (not_occurred_nil _)
      pause := rfl
      waits := fun thread call absurdity => by cases absurdity }
  timer := le_refl 0
  idle _ event absurdity := absurd absurdity (not_occurred_nil _)
  held _ absurdity := by cases absurdity

variable {s s' : CoreTiming T}
variable {event : Event T}

theorem mem_events : event ∈ s.events ↔ ∃ node, (node, event) ∈ s.eventQueue.nodes := by
  simp [events]

/-- A queued entry is at the handle written in it. -/
theorem Kept.mem_nodes (kept : s.Kept) (queued : Queued s.log event) :
    (event.handle, event) ∈ s.eventQueue.nodes := by
  obtain ⟨node, member⟩ := mem_events.mp ((kept.queued event).mpr queued)
  exact kept.handles _ member ▸ member

/-- An entry that is made with the next number is a new one. -/
theorem Kept.fresh (kept : s.Kept) (number : event.fifoOrder = s.eventFifoId) :
    ¬ Inserted s.log event := by
  intro inserted
  exact absurd number (ne_of_lt (kept.older event inserted))

/-- A happening that neither fills nor empties the queue. -/
structure Neutral (happening : Happening T) : Prop where
  inserts : ∀ event, ¬ happening.Inserts event
  removes : ∀ event, ¬ happening.Removes event
  chooses : ∀ event, ¬ happening.Chooses event
  finishes : ∀ event, ¬ happening.Finishes event

variable {happening : Happening T}

theorem Neutral.queued_cons (neutral : Neutral happening) (log : List (Happening T))
    (event : Event T) : Queued (happening :: log) event ↔ Queued log event := by
  simp only [Queued, Fired, occurred_cons, neutral.inserts, neutral.removes, neutral.chooses,
    neutral.finishes, false_or]

/-- A neutral happening is added to the log and the queue stays as it is. -/
theorem Kept.neutral (kept : s.Kept) (neutral : Neutral happening)
    (rule : Rule happening s.log) (log : s'.log = happening :: s.log)
    (queue : s'.eventQueue = s.eventQueue) (number : s'.eventFifoId = s.eventFifoId)
    (pause : pauseEnd (happening :: s.log) = s'.pauseEndTime)
    (waits : ∀ thread call, s'.waiting thread = some call →
    WaitKept (happening :: s.log) thread call) : s'.Kept where
  lawful := log ▸ kept.lawful.cons rule
  queued event := by
    rw [events, queue, log, neutral.queued_cons]
    exact kept.queued event
  handles := queue ▸ kept.handles
  older event inserted := by
    rw [log, Inserted, occurred_cons, or_iff_right (neutral.inserts event)] at inserted
    rw [number]
    exact kept.older event inserted
  unique event other inserted inserted' := by
    rw [log, Inserted, occurred_cons, or_iff_right (neutral.inserts _)] at inserted inserted'
    exact kept.unique event other inserted inserted'
  known event seen := by
    rw [log, Removed, Chosen, occurred_cons, occurred_cons, or_iff_right (neutral.removes event),
      or_iff_right (neutral.chooses event)] at seen
    exact log ▸ (kept.known event seen).of_suffix (suffix_cons _ _)
  ended event finished := by
    rw [log, Finished, occurred_cons, or_iff_right (neutral.finishes event)] at finished
    exact log ▸ (kept.ended event finished).of_suffix (suffix_cons _ _)
  pause := log ▸ pause
  waits := log ▸ waits

/-- What `Advance` holds is not affected by what other threads, or its own callback, do to
other callbacks. -/
theorem Held.cons {current : Current T} (held : s.Held current)
    (log : s'.log = happening :: s.log) (clock : s'.clock = s.clock)
    (other : ∀ event, ¬ happening.Chooses event ∧ ¬ happening.Finishes event ∧
    ¬ happening.Starts event)
    (sequence : current.sequenceNumber ≤ s'.sequenceNumber current.event.type)
    (unchanged : current.event.rescheduleTime ≠ 0 →
      (current.sequenceNumber = s'.sequenceNumber current.event.type ↔
        ¬ Removed (happening :: s.log) current.event)) : s'.Held current := by
  have chosen_iff (event : Event T) : Chosen (happening :: s.log) event ↔ Chosen s.log event := by
    rw [Chosen, occurred_cons, or_iff_right (other event).1]
  have finished_iff (event : Event T) : Finished (happening :: s.log) event ↔
      Finished s.log event := by
    rw [Finished, occurred_cons, or_iff_right (other event).2.1]
  have started_iff (event : Event T) : Started (happening :: s.log) event ↔
      Started s.log event := by
    rw [Started, occurred_cons, or_iff_right (other event).2.2]
  exact
    { chosen := log ▸ (chosen_iff _).mpr held.chosen
      unfinished := log ▸ fun finished => held.unfinished ((finished_iff _).mp finished)
      others := fun event chosen => by
        rw [log] at chosen ⊢
        rcases held.others event ((chosen_iff event).mp chosen) with same | finished
        · exact Or.inl same
        · exact Or.inr ((finished_iff event).mpr finished)
      started := by
        rw [log, started_iff]
        exact held.started
      due := clock ▸ held.due
      node := held.node
      sequence := sequence
      unchanged := log ▸ unchanged }

/-- A neutral happening other than a start. -/
theorem Sound.cons (sound : s.Sound) (kept : s'.Kept)
    (log : s'.log = happening :: s.log) (advance : s'.advance = s.advance)
    (clock : s'.clock = s.clock)
    (timer : s'.globalTimer = s.globalTimer) (sequence : s'.sequenceNumber = s.sequenceNumber)
    (other : ∀ event, ¬ happening.Chooses event ∧ ¬ happening.Finishes event ∧
    ¬ happening.Starts event ∧ ¬ happening.Removes event) : s'.Sound where
  kept := kept
  timer := by
    rw [timer, clock]
    exact sound.timer
  idle idling event chosen := by
    rw [log, Chosen, occurred_cons, or_iff_right (other event).1] at chosen
    have finished := sound.idle (advance ▸ idling) event chosen
    exact log ▸ finished.of_suffix (suffix_cons _ _)
  held current holding := by
    have held := sound.held current (advance ▸ holding)
    refine held.cons log clock (fun event =>
      ⟨(other event).1, (other event).2.1, (other event).2.2.1⟩) ?_ ?_
    · rw [sequence]
      exact held.sequence
    · rw [sequence, Removed, occurred_cons, or_iff_right (other _).2.2.2]
      exact held.unchanged

section Insert

variable {time rescheduleTime : Int} {type : T} {looping : Bool}

/-- A new entry is queued, and everything else is as before. -/
theorem Kept.emplaceEvent (kept : s.Kept) :
    (s.emplaceEvent time type rescheduleTime looping).Kept := by
  let new : Event T := ⟨time, s.eventFifoId, type, rescheduleTime, s.eventQueue.nextHandle⟩
  have fresh : ¬ Inserted s.log new := kept.fresh rfl
  have inserted_iff (event : Event T) :
      Inserted (.inserted new looping :: s.log) event ↔ new = event ∨ Inserted s.log event :=
        occurred_cons
  have queued_iff (event : Event T) :
      Queued (.inserted new looping :: s.log) event ↔ Queued s.log event ∨ event = new := by
    have unseen : ¬ Removed s.log new ∧ ¬ Chosen s.log new :=
      ⟨fun removed => fresh (kept.known new (Or.inl removed)),
        fun chosen => fresh (kept.known new (Or.inr chosen))⟩
    have unfinished : ¬ Finished s.log new := fun finished => unseen.2 (kept.ended new finished)
    simp only [Queued, Fired, occurred_cons, Happening.Inserts, Happening.Removes,
      Happening.Chooses, Happening.Finishes, false_or]
    constructor
    · rintro ⟨rfl | inserted, rest⟩
      · exact Or.inr rfl
      · exact Or.inl ⟨inserted, rest⟩
    · rintro (⟨inserted, rest⟩ | rfl)
      · exact ⟨Or.inr inserted, rest⟩
      · refine ⟨Or.inl rfl, unseen.1, ?_⟩
        split_ifs
        · exact unseen.2
        · exact unfinished
  exact
    { lawful := kept.lawful.cons kept.older
      queued := fun event => by
        rw [CoreTiming.emplaceEvent, queued_iff, ← kept.queued, events, events, Heap.emplace,
          map_append, mem_append, map_singleton, mem_singleton]
      handles := fun node member => by
        rcases Heap.mem_emplace.mp member with old | rfl
        · exact kept.handles node old
        · rfl
      older := fun event inserted => by
        rcases (inserted_iff event).mp inserted with rfl | inserted
        · exact Nat.lt_succ_self _
        · exact Nat.lt_succ_of_lt (kept.older event inserted)
      unique := fun event other inserted inserted' same => by
        rcases (inserted_iff event).mp inserted with rfl | inserted
        · rcases (inserted_iff other).mp inserted' with rfl | inserted'
          · rfl
          · exact absurd inserted' (kept.fresh same.symm)
        · rcases (inserted_iff other).mp inserted' with rfl | inserted'
          · exact absurd inserted (kept.fresh same)
          · exact kept.unique event other inserted inserted' same
      known := fun event seen => by
        simp only [CoreTiming.emplaceEvent, occurred_cons, Happening.Removes, Happening.Chooses,
          false_or] at seen
        exact (inserted_iff event).mpr (Or.inr (kept.known event seen))
      ended := fun event finished => by
        simp only [CoreTiming.emplaceEvent, occurred_cons, Happening.Finishes, Happening.Chooses,
          false_or] at finished ⊢
        exact kept.ended event finished
      pause := kept.pause
      waits := fun thread call waiting =>
        (kept.waits thread call waiting).cons fun type removed same => by cases same }

theorem Sound.emplaceEvent (sound : s.Sound) :
    (s.emplaceEvent time type rescheduleTime looping).Sound := by
  refine sound.cons sound.kept.emplaceEvent rfl rfl rfl rfl rfl fun event => ?_
  simp

end Insert

section Unschedule

variable [DecidableEq T] {thread : Nat} {type : T}

theorem Kept.mem_handlesOf (kept : s.Kept) {node : Nat × Event T}
    (member : node ∈ s.eventQueue.nodes) : node.1 ∈ s.handlesOf type ↔ node.2.type = type := by
  simp only [handlesOf, mem_map, mem_filter, decide_eq_true_eq]
  constructor
  · rintro ⟨event, ⟨there, kind⟩, handle⟩
    obtain ⟨other, member'⟩ := mem_events.mp there
    have handle' : event.handle = other := kept.handles _ member'
    have same := Heap.value_eq member member' (handle.symm.trans handle')
    exact same ▸ kind
  · intro kind
    exact ⟨node.2, ⟨mem_events.mpr ⟨node.1, member⟩, kind⟩, kept.handles node member⟩

/-- The handles written in the entries are good, so that all entries of the type are erased. -/
theorem Kept.eraseAll (kept : s.Kept) (type : T) :
    ∃ eventQueue, (s.handlesOf type).foldlM Heap.erase? s.eventQueue = some eventQueue ∧
      ∀ node, node ∈ eventQueue.nodes ↔ node ∈ s.eventQueue.nodes ∧ node.2.type ≠ type := by
  have distinct : (s.eventQueue.nodes.map fun node => node.2.handle).Nodup := by
    refine pairwise_map.mpr (s.eventQueue.distinct.imp_of_mem
      fun {node node'} member member' different => ?_)
    rw [kept.handles node member, kept.handles node' member']
    exact different
  have once : (s.handlesOf type).Nodup := by
    have part : (s.handlesOf type).Sublist (s.events.map Event.handle) :=
      filter_sublist.map _
    rw [events, map_map] at part
    exact distinct.sublist part
  have there : ∀ handle ∈ s.handlesOf type, ∃ event, (handle, event) ∈ s.eventQueue.nodes := by
    intro handle listed
    obtain ⟨event, member, rfl⟩ := mem_map.mp listed
    obtain ⟨node, inside⟩ := mem_events.mp (mem_filter.mp member).1
    have here : event.handle = node := kept.handles _ inside
    exact ⟨event, here ▸ inside⟩
  obtain ⟨eventQueue, erased, left⟩ := Heap.foldlM_erase? once there
  refine ⟨eventQueue, erased, fun node => ?_⟩
  rw [left]
  exact and_congr_right fun member => not_congr (kept.mem_handlesOf member)

variable {eventQueue : Heap (Event T)}

/-- What `unscheduleEvent` logs as removed. -/
def ofType (s : CoreTiming T) (type : T) : List (Event T) :=
  s.events.filter fun event => decide (event.type = type)

theorem Kept.mem_ofType (kept : s.Kept) {event : Event T} :
    event ∈ s.ofType type ↔ Queued s.log event ∧ event.type = type := by
  rw [ofType, mem_filter, decide_eq_true_iff, kept.queued]

theorem Kept.unscheduled (kept : s.Kept)
    (log : s'.log = .unscheduled thread type (s.ofType type) :: s.log)
    (queue : ∀ node, node ∈ s'.eventQueue.nodes ↔ node ∈ s.eventQueue.nodes ∧ node.2.type ≠ type)
    (number : s'.eventFifoId = s.eventFifoId) (pause : s'.pauseEndTime = s.pauseEndTime)
    (waits : ∀ thread call, s'.waiting thread = some call → WaitKept s'.log thread call) :
    s'.Kept where
  lawful := log ▸ kept.lawful.cons fun event => kept.mem_ofType
  queued event := by
    have queued_iff : Queued s'.log event ↔ Queued s.log event ∧ event.type ≠ type := by
      simp only [log, Queued, Fired, occurred_cons, Happening.Inserts, Happening.Removes,
        Happening.Chooses, Happening.Finishes, false_or, kept.mem_ofType]
      tauto
    rw [queued_iff, ← kept.queued, mem_events, mem_events, ← exists_and_right]
    exact exists_congr fun node => queue (node, event)
  handles node member := kept.handles node ((queue node).mp member).1
  older event inserted := by
    simp only [log, occurred_cons, Happening.Inserts, false_or] at inserted
    exact number ▸ kept.older event inserted
  unique event other inserted inserted' := by
    simp only [log, occurred_cons, Happening.Inserts, false_or] at inserted inserted'
    exact kept.unique event other inserted inserted'
  known event seen := by
    simp only [log, occurred_cons, Happening.Removes, Happening.Chooses, Happening.Inserts,
      false_or] at seen ⊢
    rcases seen with (removed | removed) | chosen
    · exact (kept.mem_ofType.mp removed).1.1
    · exact kept.known event (Or.inl removed)
    · exact kept.known event (Or.inr chosen)
  ended event finished := by
    simp only [log, occurred_cons, Happening.Finishes, Happening.Chooses, false_or] at finished ⊢
    exact kept.ended event finished
  pause := by
    rw [log, pause]
    exact kept.pause
  waits := waits

omit [DecidableEq T] in
/-- A removal of another thread does not touch a waiting one, and a call that begins to wait has
made its removal. -/
theorem Kept.waits_unscheduled (kept : s.Kept) {unscheduleType : UnscheduleEventType}
    (free : ¬ s.Waits thread)
    {removed : List (Event T)} {thread' : Nat} {call : Waiting T}
    (waiting : (if unscheduleType = .wait then update s.waiting thread (some ⟨type, false⟩)
      else s.waiting) thread' = some call) :
    WaitKept (.unscheduled thread type removed :: s.log) thread' call := by
  have old (same : s.waiting thread' = some call) :
      WaitKept (.unscheduled thread type removed :: s.log) thread' call := by
    have elsewhere : thread' ≠ thread := by
      rintro rfl
      exact free (Option.isSome_of_eq_some same)
    refine (kept.waits thread' call same).cons fun type' removed' equal => ?_
    exact elsewhere (Happening.unscheduled.inj equal).1.symm
  split_ifs at waiting with wait
  · rcases eq_or_ne thread' thread with rfl | other
    · rw [update_self] at waiting
      cases Option.some.inj waiting
      exact ⟨⟨removed, mem_cons_self⟩, fun absurdity => by cases absurdity⟩
    · rw [update_of_ne other] at waiting
      exact old waiting
  · exact old waiting

/-- A removal of the type of the callback in progress changes the sequence number, and takes
the looping entry out of the queue if it was still there. -/
theorem Held.unscheduled (kept : s.Kept) {current : Current T} (held : s.Held current)
    (log : s'.log = .unscheduled thread type (s.ofType type) :: s.log) (clock : s'.clock = s.clock)
    (sequence : s'.sequenceNumber = update s.sequenceNumber type (s.sequenceNumber type + 1)) :
    s'.Held current := by
  have known := held.sequence
  rcases eq_or_ne current.event.type type with same | other
  · have number : s'.sequenceNumber current.event.type =
        s.sequenceNumber current.event.type + 1 := by
      rw [sequence, same, update_self]
    refine held.cons log clock (fun event => by simp) (by omega) fun looping => ?_
    refine iff_of_false (by omega) (not_not.mpr ?_)
    rw [Removed, occurred_cons, Happening.Removes, kept.mem_ofType]
    by_cases removed : Removed s.log current.event
    · exact Or.inr removed
    · refine Or.inl ⟨⟨kept.known _ (Or.inr held.chosen), removed, ?_⟩, same⟩
      rw [Fired, if_neg looping]
      exact held.unfinished
  · have number : s'.sequenceNumber current.event.type = s.sequenceNumber current.event.type := by
      rw [sequence, update_of_ne other]
    refine held.cons log clock (fun event => by simp) (number ▸ known) fun looping => ?_
    rw [number, Removed, occurred_cons, Happening.Removes, kept.mem_ofType,
      or_iff_right fun absurdity => other absurdity.2]
    exact held.unchanged looping

theorem Sound.unscheduleEvent (sound : s.Sound) (unscheduleType : UnscheduleEventType)
    (free : ¬ s.Waits thread) : Fine (s.unscheduleEvent thread type unscheduleType) := by
  obtain ⟨eventQueue, erased, left⟩ := sound.kept.eraseAll type
  rw [CoreTiming.unscheduleEvent, erased]
  exact
    { kept := sound.kept.unscheduled rfl left rfl rfl fun thread' call waiting =>
        sound.kept.waits_unscheduled free waiting
      timer := sound.timer
      idle := fun idling event chosen => by
        simp only [occurred_cons, Happening.Chooses, Happening.Finishes, false_or] at chosen ⊢
        exact sound.idle idling event chosen
      held := fun current holding => (sound.held current holding).unscheduled sound.kept rfl rfl rfl
        }

end Unschedule

section Waiting

variable {thread : Nat}

/-- A waiting thread moves on, and the others wait as before. -/
theorem Kept.waits_update (kept : s.Kept) {happening : Happening T} {next : Option (Waiting T)}
    (other : ∀ thread type removed, happening ≠ .unscheduled thread type removed)
    (own : ∀ call, next = some call → WaitKept (happening :: s.log) thread call) (thread' : Nat)
    (call : Waiting T)
    (waiting : update s.waiting thread next thread' = some call) :
    WaitKept (happening :: s.log) thread' call := by
  rcases eq_or_ne thread' thread with rfl | elsewhere
  · rw [update_self] at waiting
    exact own call waiting
  · rw [update_of_ne elsewhere] at waiting
    exact (kept.waits thread' call waiting).cons (other thread')

theorem Sound.forceFinish (sound : s.Sound) : Fine (s.forceFinish thread) := by
  rw [CoreTiming.forceFinish]
  cases waiting : s.waiting thread with
  | none => rfl
  | some call =>
    dsimp only
    split_ifs with busy
    · rfl
    · rw [not_or, Option.not_isSome_iff_eq_none] at busy
      have removal := (sound.kept.waits thread call waiting).removal
      have rule : Rule (.waited thread call.type) s.log := ⟨sound.idle busy.2, removal⟩
      have own (past : Waiting T) (same : some ⟨call.type, true⟩ = some past) :
          WaitKept (.waited thread call.type :: s.log) thread past := by
        cases Option.some.inj same
        obtain ⟨removed, member⟩ := removal
        refine ⟨⟨removed, mem_cons_of_mem _ member⟩, fun _ removed' rest place => ?_⟩
        rcases suffix_cons_iff.mp place with same | earlier
        · cases (cons.inj same).1
        · exact ⟨s.log, suffix_rfl, earlier⟩
      refine sound.cons (sound.kept.neutral ⟨by simp, by simp, by simp, by simp⟩ rule rfl rfl rfl
        sound.kept.pause ?_) rfl rfl rfl rfl rfl (by simp)
      exact sound.kept.waits_update (fun _ _ _ same => by cases same) own

theorem Sound.returnUnscheduled (sound : s.Sound) : Fine (s.returnUnscheduled thread) := by
  rw [CoreTiming.returnUnscheduled]
  cases waiting : s.waiting thread with
  | none => rfl
  | some call =>
    dsimp only
    split_ifs with passed
    · have wait := sound.kept.waits thread call waiting
      have rule : Rule (.returned thread call.type) s.log := ⟨wait.removal, wait.passed passed⟩
      refine sound.cons (sound.kept.neutral ⟨by simp, by simp, by simp, by simp⟩ rule rfl rfl rfl
        sound.kept.pause ?_) rfl rfl rfl rfl rfl (by simp)
      exact sound.kept.waits_update (fun _ _ _ same => by cases same) fun _ absurdity => by
        cases absurdity
    · rfl

theorem Sound.pause (sound : s.Sound) :
    ({ s with pauseEndTime := s.clock, log := .pauseEnded s.clock :: s.log } : CoreTiming
      T).Sound := by
  have rule : Rule (.pauseEnded s.clock) s.log := trivial
  refine sound.cons (sound.kept.neutral ⟨by simp, by simp, by simp, by simp⟩ rule rfl rfl rfl rfl
    ?_) rfl rfl rfl rfl rfl (by simp)
  intro thread call waiting
  exact (sound.kept.waits thread call waiting).cons fun type removed same => by cases same

theorem Sound.tick (sound : s.Sound) (elapsed : Nat) :
    ({ s with clock := s.clock + elapsed } : CoreTiming T).Sound where
  kept := { sound.kept with }
  timer := by
    have := sound.timer
    simp only
    omega
  idle := sound.idle
  held current holding := by
    have held := sound.held current holding
    exact
      { held with
        due := by
          have := held.due
          simp only
          omega }

end Waiting

section Advance

variable {thread : Nat}

/-- The top of the queue is queued, and every other queued entry comes behind it. -/
theorem Kept.top (kept : s.Kept) {node : Nat} {evt : Event T}
    (top : (s.eventQueue.top fun left right => decide (left.Less right)) = some (node, evt)) :
    (node, evt) ∈ s.eventQueue.nodes ∧ Queued s.log evt ∧
      ∀ other, Queued s.log other → other = evt ∨ evt.Less other := by
  obtain ⟨member, least⟩ := Heap.firstOf_eq_some Event.less_asymmetric Event.less_transitive top
  have queued : Queued s.log evt := (kept.queued evt).mp (mem_events.mpr ⟨node, member⟩)
  refine ⟨member, queued, fun other queued' => ?_⟩
  have behind : ¬ other.Less evt := of_decide_eq_false (least _ (kept.mem_nodes queued'))
  by_cases before : evt.Less other
  · exact Or.inr before
  · -- neither comes before the other, so they have the same number
    refine Or.inl (kept.unique other evt queued'.1 queued.1 ?_)
    unfold Event.Less at behind before
    omega

/-- `Advance` returns when nothing is due. -/
theorem Kept.returns (kept : s.Kept) (idle : Idle s.log) (timer : s.globalTimer ≤ s.clock)
    {next : Option Int}
    (rule : Rule (.advanced s.globalTimer next) s.log) :
    ({ s with advance := none, log := .advanced s.globalTimer next :: s.log } : CoreTiming T).Sound
    where
  kept := by
    refine kept.neutral ⟨by simp, by simp, by simp, by simp⟩ rule rfl rfl rfl kept.pause ?_
    intro thread call waiting
    exact (kept.waits thread call waiting).cons fun type removed same => by cases same
  timer := timer
  idle _ event chosen := by
    simp only [occurred_cons, Happening.Chooses, Happening.Finishes, false_or] at chosen ⊢
    exact idle event chosen
  held _ absurdity := by cases absurdity

/-- A one-shot entry leaves the queue when it is chosen. -/
theorem Kept.chosen (kept : s.Kept) {node : Nat} {evt : Event T}
    (member : (node, evt) ∈ s.eventQueue.nodes) (rule : Rule (.chosen evt s.globalTimer) s.log)
    (log : s'.log = .chosen evt s.globalTimer :: s.log)
    (queue : s'.eventQueue = if evt.rescheduleTime = 0 then s.eventQueue.eraseNode node
    else s.eventQueue)
    (number : s'.eventFifoId = s.eventFifoId) (pause : s'.pauseEndTime = s.pauseEndTime)
    (waiting : s'.waiting = s.waiting) : s'.Kept where
  lawful := log ▸ kept.lawful.cons rule
  queued event := by
    have queued_iff : Queued s'.log event ↔ Queued s.log event ∧
        ¬ (evt.rescheduleTime = 0 ∧ event = evt) := by
      simp only [log, Queued, Fired, occurred_cons, Happening.Inserts, Happening.Removes,
        Happening.Chooses, Happening.Finishes, false_or]
      split_ifs with oneShot
      · rw [not_or, eq_comm]
        constructor
        · rintro ⟨inserted, unremoved, other, unchosen⟩
          exact ⟨⟨inserted, unremoved, unchosen⟩, fun same => other same.2⟩
        · rintro ⟨⟨inserted, unremoved, unchosen⟩, other⟩
          exact ⟨inserted, unremoved, fun same => other ⟨same ▸ oneShot, same⟩, unchosen⟩
      · refine (and_iff_left ?_).symm
        rintro ⟨zero, rfl⟩
        exact oneShot zero
    rw [queued_iff, ← kept.queued, mem_events, mem_events, queue]
    split_ifs with oneShot
    · simp only [Heap.mem_eraseNode, oneShot, true_and]
      constructor
      · rintro ⟨place, there, other⟩
        refine ⟨⟨place, there⟩, ?_⟩
        rintro rfl
        exact other ((kept.handles _ there).symm.trans (kept.handles _ member))
      · rintro ⟨⟨place, there⟩, other⟩
        refine ⟨place, there, fun same => other ?_⟩
        exact congrArg Prod.snd (Heap.value_eq there member same)
    · exact (and_iff_left fun absurdity => oneShot absurdity.1).symm
  handles place there := by
    rw [queue] at there
    split_ifs at there
    · exact kept.handles place (Heap.mem_eraseNode.mp there).1
    · exact kept.handles place there
  older event inserted := by
    simp only [log, occurred_cons, Happening.Inserts, false_or] at inserted
    exact number ▸ kept.older event inserted
  unique event other inserted inserted' := by
    simp only [log, occurred_cons, Happening.Inserts, false_or] at inserted inserted'
    exact kept.unique event other inserted inserted'
  known event seen := by
    simp only [log, occurred_cons, Happening.Removes, Happening.Chooses, Happening.Inserts,
      false_or] at seen ⊢
    rcases seen with removed | rfl | chosen
    · exact kept.known event (Or.inl removed)
    · exact ((kept.queued _).mp (mem_events.mpr ⟨node, member⟩)).1
    · exact kept.known event (Or.inr chosen)
  ended event finished := by
    simp only [log, occurred_cons, Happening.Finishes, Happening.Chooses, false_or] at finished ⊢
    exact Or.inr (kept.ended event finished)
  pause := by
    rw [log, pause]
    exact kept.pause
  waits thread call waits := by
    rw [log]
    exact (kept.waits thread call (waiting ▸ waits)).cons fun type removed same => by cases same

theorem Kept.choose (kept : s.Kept) (idle : Idle s.log) (timer : s.globalTimer ≤ s.clock) :
    (s.choose thread).Sound := by
  rw [CoreTiming.choose]
  split
  case _ empty =>
    have none : ∀ event, ¬ Queued s.log event := by
      intro event queued
      have member := kept.mem_nodes queued
      rw [Heap.firstOf_eq_none.mp empty] at member
      cases member
    exact kept.returns idle timer ⟨idle, fun event queued => absurd queued (none event), none⟩
  case _ node evt top =>
    obtain ⟨member, queued, least⟩ := kept.top top
    by_cases due : evt.time ≤ s.globalTimer
    · rw [if_pos due]
      have rule : Rule (.chosen evt s.globalTimer) s.log := ⟨idle, queued, due, least⟩
      have unchosen : ¬ Chosen s.log evt := fun chosen => queued.2.2 (idle.fired chosen)
      exact
        { kept := kept.chosen member rule rfl rfl rfl rfl rfl
          timer := timer
          idle := fun absurdity => by cases absurdity
          held := fun current holding => by
            cases Option.some.inj holding
            exact
              { chosen := occurred_cons.mpr (Or.inl rfl)
                unfinished := fun finished => by
                  simp only [occurred_cons, Happening.Finishes, false_or] at finished
                  exact unchosen (kept.ended evt finished)
                others := fun event chosen => by
                  simp only [occurred_cons, Happening.Chooses, Happening.Finishes, false_or]
                    at chosen ⊢
                  exact chosen.imp Eq.symm (idle event)
                started := by
                  simp only [occurred_cons, Happening.Starts, false_or, Bool.false_eq_true,
                    iff_false]
                  exact fun started => unchosen (chosen_of_started kept.lawful started)
                due := le_trans due timer
                node := kept.handles _ member
                sequence := le_refl _
                unchanged := fun _ => by
                  simp only [occurred_cons, Happening.Removes, false_or, true_iff]
                  exact queued.2.1 } }
    · rw [if_neg due]
      have earliest (event : Event T) (queued' : Queued s.log event) : evt.time ≤ event.time := by
        rcases least event queued' with rfl | less
        · exact le_refl _
        · exact Event.Less.time_le less
      have rule : Rule (.advanced s.globalTimer (some evt.time)) s.log := by
        refine ⟨idle, fun event queued' => ?_, ⟨evt, queued, rfl⟩, earliest⟩
        exact lt_of_lt_of_le (not_le.mp due) (earliest event queued')
      exact kept.returns idle timer rule

variable {current : Current T} {result : Option Int} {next : Option (Event T)}

theorem Sound.startCallback (sound : s.Sound) (holding : s.advance = some current)
    (entering : current.running = false) : (s.startCallback current).Sound := by
  have held := sound.held current holding
  have unstarted : ¬ Started s.log current.event := by
    rw [held.started, entering]
    exact Bool.false_ne_true
  have rule : Rule (.started current.event (s.clock - current.event.time)) s.log :=
    ⟨held.chosen, unstarted, sub_nonneg.mpr held.due⟩
  exact
    { kept := sound.kept.neutral ⟨by simp, by simp, by simp, by simp⟩ rule rfl rfl rfl
        sound.kept.pause
        fun thread call waiting =>
        (sound.kept.waits thread call waiting).cons fun type removed same => by cases same
      timer := sound.timer
      idle := fun absurdity => by cases absurdity
      held := fun current' holding' => by
        cases Option.some.inj holding'
        exact
          { held with
            chosen := held.chosen.of_suffix (suffix_cons _ _)
            unfinished := fun finished => by
              simp only [CoreTiming.startCallback, occurred_cons, Happening.Finishes, false_or]
                at finished
              exact held.unfinished finished
            others := fun event chosen => by
              simp only [CoreTiming.startCallback, occurred_cons, Happening.Chooses,
                Happening.Finishes, false_or] at chosen ⊢
              exact held.others event chosen
            started := iff_of_true (occurred_cons.mpr (Or.inl rfl)) rfl
            unchanged := fun looping => by
              simp only [CoreTiming.startCallback, occurred_cons, Happening.Removes, false_or]
              exact held.unchanged looping } }

/-- A callback has returned and its entry is not put back: nothing changes in the queue. -/
theorem Kept.finished (kept : s.Kept) (gone : ¬ Queued s.log current.event)
    (chosen : Chosen s.log current.event)
    (rule : Rule (.finished current.event result none) s.log)
    (log : s'.log = .finished current.event result none :: s.log)
    (queue : s'.eventQueue = s.eventQueue)
    (number : s'.eventFifoId = s.eventFifoId) (pause : s'.pauseEndTime = s.pauseEndTime)
    (waiting : s'.waiting = s.waiting) : s'.Kept where
  lawful := log ▸ kept.lawful.cons rule
  queued event := by
    have queued_iff : Queued s'.log event ↔ Queued s.log event := by
      rcases eq_or_ne event current.event with rfl | other
      · refine iff_of_false (fun queued => gone ?_) gone
        have inserted := kept.known _ (Or.inr chosen)
        rw [log] at queued
        exact queued.of_suffix inserted (suffix_cons _ _)
      · simp only [log, Queued, Fired, occurred_cons, Happening.Inserts, Happening.Removes,
          Happening.Chooses, Happening.Finishes, false_or, or_iff_right other.symm, reduceCtorEq]
    rw [queued_iff, events, queue]
    exact kept.queued event
  handles := queue ▸ kept.handles
  older event inserted := by
    simp only [log, occurred_cons, Happening.Inserts, false_or, reduceCtorEq] at inserted
    exact number ▸ kept.older event inserted
  unique event other inserted inserted' := by
    simp only [log, occurred_cons, Happening.Inserts, false_or, reduceCtorEq] at inserted inserted'
    exact kept.unique event other inserted inserted'
  known event seen := by
    simp only [log, occurred_cons, Happening.Removes, Happening.Chooses, Happening.Inserts,
      false_or, reduceCtorEq] at seen ⊢
    exact kept.known event seen
  ended event finished := by
    simp only [log, occurred_cons, Happening.Finishes, Happening.Chooses, false_or] at finished ⊢
    rcases finished with rfl | finished
    · exact chosen
    · exact kept.ended event finished
  pause := by
    rw [log, pause]
    exact kept.pause
  waits thread call waits := by
    rw [log]
    exact (kept.waits thread call (waiting ▸ waits)).cons fun type removed same => by cases same

/-- A looping entry is put back with a new number, into the node that it has had. -/
theorem Kept.requeued (kept : s.Kept) {next : Event T} (queued : Queued s.log current.event)
    (chosen : Chosen s.log current.event) (looping : current.event.rescheduleTime ≠ 0)
    (rule : Rule (.finished current.event result (some next)) s.log)
    (fresh : next.fifoOrder = s.eventFifoId) (handle : next.handle = current.event.handle)
    (log : s'.log = .finished current.event result (some next) :: s.log)
    (queue : s'.eventQueue = s.eventQueue.setNode current.event.handle next)
    (number : s'.eventFifoId = s.eventFifoId + 1) (pause : s'.pauseEndTime = s.pauseEndTime)
    (waiting : s'.waiting = s.waiting) : s'.Kept := by
  have unknown : ¬ Inserted s.log next := kept.fresh fresh
  have unseen : ¬ Removed s.log next ∧ ¬ Chosen s.log next :=
    ⟨fun removed => unknown (kept.known next (Or.inl removed)),
      fun chosen => unknown (kept.known next (Or.inr chosen))⟩
  have unfinished : ¬ Finished s.log next := fun finished => unseen.2 (kept.ended next finished)
  have different : current.event ≠ next := fun same => unknown (same ▸ queued.1)
  have inserted_iff (event : Event T) :
      Inserted s'.log event ↔ next = event ∨ Inserted s.log event := by
    rw [log, Inserted, occurred_cons, Happening.Inserts, Option.some.injEq]
  have there : (current.event.handle, current.event) ∈ s.eventQueue.nodes := kept.mem_nodes queued
  exact
    { lawful := log ▸ kept.lawful.cons rule
      queued := fun event => by
        have queued_iff : Queued s'.log event ↔ event = next ∨ Queued s.log event ∧
            event ≠ current.event := by
          simp only [log, Queued, Fired, occurred_cons, Happening.Inserts, Happening.Removes,
            Happening.Chooses, Happening.Finishes, false_or, Option.some.injEq]
          rcases eq_or_ne event next with rfl | other
          · refine iff_of_true ⟨Or.inl rfl, unseen.1, ?_⟩ (Or.inl rfl)
            split_ifs
            · exact unseen.2
            · exact not_or.mpr ⟨different, unfinished⟩
          · rw [or_iff_right other.symm, or_iff_right other]
            rcases eq_or_ne event current.event with rfl | elsewhere
            · simp [looping]
            · simp [elsewhere, elsewhere.symm]
        rw [queued_iff, ← kept.queued, mem_events, mem_events, queue]
        simp only [Heap.mem_setNode there]
        constructor
        · rintro ⟨place, same | ⟨member, other⟩⟩
          · exact Or.inl (congrArg Prod.snd same)
          · refine Or.inr ⟨⟨place, member⟩, ?_⟩
            rintro rfl
            exact other (kept.handles _ member).symm
        · rintro (rfl | ⟨⟨place, member⟩, other⟩)
          · exact ⟨_, Or.inl rfl⟩
          · refine ⟨place, Or.inr ⟨member, fun same => other ?_⟩⟩
            exact congrArg Prod.snd (Heap.value_eq member there same)
      handles := fun node member => by
        rw [queue, Heap.mem_setNode there] at member
        rcases member with rfl | ⟨member, _⟩
        · exact handle
        · exact kept.handles node member
      older := fun event inserted => by
        rw [number]
        rcases (inserted_iff event).mp inserted with rfl | inserted
        · exact fresh ▸ Nat.lt_succ_self _
        · exact Nat.lt_succ_of_lt (kept.older event inserted)
      unique := fun event other inserted inserted' same => by
        rcases (inserted_iff event).mp inserted with rfl | inserted
        · rcases (inserted_iff other).mp inserted' with rfl | inserted'
          · rfl
          · exact absurd inserted' (kept.fresh (same ▸ fresh))
        · rcases (inserted_iff other).mp inserted' with rfl | inserted'
          · exact absurd inserted (kept.fresh (same ▸ fresh))
          · exact kept.unique event other inserted inserted' same
      known := fun event seen => by
        simp only [log, occurred_cons, Happening.Removes, Happening.Chooses, false_or] at seen
        exact (inserted_iff event).mpr (Or.inr (kept.known event seen))
      ended := fun event finished => by
        simp only [log, occurred_cons, Happening.Finishes, Happening.Chooses, false_or]
          at finished ⊢
        rcases finished with rfl | finished
        · exact chosen
        · exact kept.ended event finished
      pause := by
        rw [log, pause]
        exact kept.pause
      waits := fun thread call waits => by
        rw [log]
        exact (kept.waits thread call (waiting ▸ waits)).cons
          fun type removed same => by cases same }

/-- The callback in progress is the only one that was not finished. -/
theorem Held.idle_finished (held : s.Held current)
    (log : s'.log = .finished current.event result next :: s.log) : Idle s'.log := by
  intro event chosen
  simp only [log, occurred_cons, Happening.Chooses, Happening.Finishes, false_or] at chosen ⊢
  exact (held.others event chosen).imp Eq.symm id

theorem Kept.successor (kept : s.Kept) (event : Event T) (result : Option Int) :
    Successor s.log event result (s.nextEvent event result) where
  type := rfl
  handle := rfl
  period := rfl
  time := by
    rw [kept.pause, nextEvent]
    split_ifs <;> rfl
  later := kept.older

/-- What `Advance` goes on with when a callback has returned. -/
def Settled : Except Stuck (CoreTiming T) → Prop
  | .ok s => s.Kept ∧ Idle s.log ∧ s.globalTimer ≤ s.clock
  | .error stuck => stuck = .blocked

theorem Sound.afterCallback (sound : s.Sound) (holding : s.advance = some current)
    (running : current.running = true) : Settled (s.afterCallback current result) := by
  have held := sound.held current holding
  have kept := sound.kept
  have run : Running s.log current.event := ⟨held.started.mpr running, held.unfinished⟩
  have inserted := kept.known _ (Or.inr held.chosen)
  rw [CoreTiming.afterCallback]
  by_cases oneShot : current.event.rescheduleTime = 0
  · rw [if_pos oneShot]
    have gone : ¬ Queued s.log current.event := by
      intro queued
      rw [Queued, Fired, if_pos oneShot] at queued
      exact queued.2.2 held.chosen
    have rule : Rule (.finished current.event result none) s.log :=
      ⟨run, fun _ => rfl, fun looping => absurd oneShot looping⟩
    exact ⟨kept.finished gone held.chosen rule rfl rfl rfl rfl rfl, held.idle_finished rfl,
      le_refl _⟩
  · rw [if_neg oneShot]
    by_cases changed : current.sequenceNumber ≠ s.sequenceNumber current.event.type
    · rw [if_pos changed]
      have removed : Removed s.log current.event := by
        by_contra there
        exact changed ((held.unchanged oneShot).mpr there)
      have gone : ¬ Queued s.log current.event := fun queued => queued.2.1 removed
      have rule : Rule (.finished current.event result none) s.log :=
        ⟨run, fun _ => rfl, fun _ there => absurd removed there⟩
      exact ⟨kept.finished gone held.chosen rule rfl rfl rfl rfl rfl, held.idle_finished rfl,
        sound.timer⟩
    · rw [if_neg changed]
      have there : ¬ Removed s.log current.event := (held.unchanged oneShot).mp (not_not.mp changed)
      have queued : Queued s.log current.event := by
        refine ⟨inserted, there, ?_⟩
        rw [Fired, if_neg oneShot]
        exact held.unfinished
      -- the reference and the handle are of the node that still holds the entry
      have member : (current.event.handle, current.event) ∈ s.eventQueue.nodes :=
        kept.mem_nodes queued
      rw [← held.node, Heap.get?_eq_some.mpr member]
      dsimp only
      rw [Heap.update?_eq_some member]
      have rule : Rule (.finished current.event result (some (s.nextEvent current.event result)))
        s.log :=
        ⟨run, fun either => absurd either (not_or.mpr ⟨oneShot, there⟩),
          fun _ _ => ⟨_, rfl, kept.successor current.event result⟩⟩
      exact ⟨kept.requeued queued held.chosen oneShot rule rfl rfl rfl rfl rfl rfl rfl,
        held.idle_finished rfl, le_refl _⟩

theorem Sound.finishCallback (sound : s.Sound) (holding : s.advance = some current)
    (running : current.running = true) : Fine (s.finishCallback current result) := by
  have settled : Settled (s.afterCallback current result) := sound.afterCallback holding running
  rw [CoreTiming.finishCallback]
  cases after : s.afterCallback current result with
  | error stuck =>
    rw [after] at settled
    exact settled
  | ok s' =>
    rw [after] at settled
    exact settled.1.choose settled.2.1 settled.2.2

theorem Sound.beginAdvance (sound : s.Sound) : Fine (s.beginAdvance thread) := by
  rw [CoreTiming.beginAdvance]
  split_ifs with busy
  · rfl
  · have idle : Idle s.log := sound.idle (Option.not_isSome_iff_eq_none.mp busy)
    have kept : ({ s with globalTimer := s.clock } : CoreTiming T).Kept := { sound.kept with }
    exact kept.choose idle (le_refl _)

end Advance

section Run

variable [DecidableEq T]

theorem Sound.call (sound : s.Sound) {thread : Nat} (free : ¬ s.Waits thread) (call : Call T) :
    Fine (s.call thread call) := by
  cases call with
  | scheduleEvent nsIntoFuture type absoluteTime => exact sound.emplaceEvent
  | scheduleLoopingEvent startTime reschedTime type absoluteTime => exact sound.emplaceEvent
  | unscheduleEvent type unscheduleType => exact sound.unscheduleEvent unscheduleType free
  | advance => exact sound.beginAdvance
  | pause => exact sound.pause

/-- Every step keeps what a run keeps, and uses no stale handle. -/
theorem Sound.step (sound : s.Sound) (step : Step T) : Fine (s.step step) := by
  cases step with
  | call thread call =>
    rw [CoreTiming.step]
    split_ifs with busy
    · rfl
    · exact sound.call (fun waits => busy (Or.inl waits)) call
  | forceFinish thread => exact sound.forceFinish
  | returnUnscheduled thread => exact sound.returnUnscheduled
  | startCallback =>
    rw [CoreTiming.step]
    cases holding : s.advance with
    | none => rfl
    | some current =>
      dsimp only
      split_ifs with running
      · rfl
      · exact sound.startCallback holding (Bool.eq_false_iff.mpr running)
  | finishCallback newScheduleTime =>
    rw [CoreTiming.step]
    cases holding : s.advance with
    | none => rfl
    | some current =>
      dsimp only
      split_ifs with ready
      · exact sound.finishCallback holding ready.1
      · rfl
  | tick elapsed => exact sound.tick elapsed

theorem Sound.steps (sound : s.Sound) (steps : List (Step T)) :
    Fine (steps.foldlM CoreTiming.step s) := by
  induction steps generalizing s with
  | nil => exact sound
  | cons step steps ih =>
    have fine : Fine (s.step step) := sound.step step
    rw [foldlM_cons]
    cases next : s.step step with
    | error stuck =>
      rw [next] at fine
      exact fine
    | ok s' =>
      rw [next] at fine
      exact ih fine

/-- Over every run events are delivered in order, and no stale handle is used. -/
theorem run_delivers (steps : List (Step T)) :
    run steps ≠ .error .staleHandle ∧ ∀ s, run steps = .ok s → Delivered s.log := by
  have fine : Fine (run steps) := sound_initial.steps steps
  constructor
  · intro stale
    rw [stale] at fine
    cases fine
  · intro s reached
    rw [reached] at fine
    exact delivered fine.kept.lawful

theorem exists_of_log {P : List (Happening T) → Prop} {log : List (Happening T)}
    {steps : List (Step T)}
    (holds : P log) (told : (run steps).map CoreTiming.log = .ok log) :
    ∃ s, run steps = .ok s ∧ P s.log := by
  cases reached : run steps with
  | error stuck =>
    rw [reached] at told
    cases told
  | ok s =>
    rw [reached] at told
    exact ⟨s, rfl, (Except.ok.inj told).symm ▸ holds⟩

/-- A looping entry that is due before the end of a pause goes on from there. -/
theorem run_delivers_pause :
    let first : Event Nat := ⟨2, 0, 7, 10, 0⟩
    let second : Event Nat := ⟨15, 1, 7, 10, 0⟩
    ∃ s, run [.call 0 (.scheduleLoopingEvent 2 10 7 true), .tick 5, .call 0 .pause,
      .call 1 .advance, .startCallback, .finishCallback none] = .ok s ∧
      s.log = [.advanced 5 (some 15), .finished first none (some second), .started first 3,
        .chosen first 5, .pauseEnded 5, .inserted first true] ∧ Delivered s.log := by
  intro first second
  let log : List (Happening Nat) :=
    [.advanced 5 (some 15), .finished first none (some second), .started first 3, .chosen first 5,
    .pauseEnded 5, .inserted first true]
  have told : ∃ s, run [.call 0 (.scheduleLoopingEvent 2 10 7 true), .tick 5, .call 0 .pause,
    .call 1 .advance, .startCallback, .finishCallback none] = .ok s ∧ s.log = log :=
    exists_of_log (P := (· = log)) rfl rfl
  obtain ⟨s, reached, same⟩ := told
  exact ⟨s, reached, same, (run_delivers _).2 s reached⟩

end Run

section Asynchronous

/-- A removed entry never starts afterwards, not even when it was chosen before. -/
def RemovedNeverStarts (log : List (Happening T)) : Prop :=
  ∀ event late before, .started event late :: before <:+ log → ¬ Removed before event

/-- When a call that waits returns, no callback of its type is running, not even of an entry that
was inserted after the removal. -/
def NoneRunning (log : List (Happening T)) : Prop :=
  ∀ thread type before, .returned thread type :: before <:+ log →
    ∀ event, event.type = type → ¬ Running before event

/-- Every entry of `ScheduleLoopingEvent` is queued again, also with a period of zero. -/
def LoopsGoOn (log : List (Happening T)) : Prop :=
  ∀ event next before, .finished event none next :: before <:+ log → .inserted event true ∈ before →
    ¬ Removed before event → next ≠ none

/-- The three are not what the code does: an entry is removed between being chosen and its
callback, another thread schedules and fires an event of the type behind a waiting call, and a
period of zero is taken for a one-shot event. -/
theorem run_asynchronous :
    (∃ s : CoreTiming Nat, run [.call 0 (.scheduleLoopingEvent 0 5 7 true), .call 1 .advance,
      .call 0 (.unscheduleEvent 7 .noWait), .startCallback] = .ok s ∧ ¬ RemovedNeverStarts s.log) ∧
    (∃ s : CoreTiming Nat, run [.call 0 (.unscheduleEvent 7 .wait), .forceFinish 0,
      .call 1 (.scheduleEvent 0 7 true), .call 2 .advance, .startCallback, .returnUnscheduled 0] =
      .ok s ∧ ¬ NoneRunning s.log) ∧
    ∃ s : CoreTiming Nat, run [.call 0 (.scheduleLoopingEvent 0 0 7 true), .call 1 .advance,
      .startCallback, .finishCallback none] = .ok s ∧ ¬ LoopsGoOn s.log := by
  have removed : ¬ RemovedNeverStarts (T := Nat)
      [.started ⟨0, 0, 7, 5, 0⟩ 0, .unscheduled 0 7 [⟨0, 0, 7, 5, 0⟩], .chosen ⟨0, 0, 7, 5, 0⟩ 0,
        .inserted ⟨0, 0, 7, 5, 0⟩ true] := by
    intro never
    refine never _ _ _ suffix_rfl ?_
    simp
  have running : ¬ NoneRunning (T := Nat)
      [.returned 0 7, .started ⟨0, 0, 7, 0, 0⟩ 0, .chosen ⟨0, 0, 7, 0, 0⟩ 0,
        .inserted ⟨0, 0, 7, 0, 0⟩ false, .waited 0 7, .unscheduled 0 7 []] := by
    intro none
    refine none _ _ _ suffix_rfl ⟨0, 0, 7, 0, 0⟩ rfl ?_
    simp [Running]
  have once : ¬ LoopsGoOn (T := Nat)
      [.advanced 0 none, .finished ⟨0, 0, 7, 0, 0⟩ none none, .started ⟨0, 0, 7, 0, 0⟩ 0,
        .chosen ⟨0, 0, 7, 0, 0⟩ 0, .inserted ⟨0, 0, 7, 0, 0⟩ true] := by
    intro all
    refine all _ _ _ (suffix_cons _ _) ?_ ?_ rfl
    · simp
    · simp
  refine ⟨?_, ?_, ?_⟩
  · exact exists_of_log (P := fun log => ¬ RemovedNeverStarts log) removed rfl
  · exact exists_of_log (P := fun log => ¬ NoneRunning log) running rfl
  · exact exists_of_log (P := fun log => ¬ LoopsGoOn log) once rfl

end Asynchronous

end CoreTiming

end SumiEmu.Core
