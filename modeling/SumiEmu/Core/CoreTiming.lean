/-
# Core timing

Events wait in a heap until `Advance` finds them due and runs their callbacks. A step of the
model is what a call does from taking `basic_lock` to letting it go: `Advance` is cut where it
drops that lock around a callback, and `UnscheduleEvent` where it takes `advance_lock` to wait
for a callback in progress. Calls made inside a callback are steps between its start and its
end, on the thread that runs `Advance`.

Event types are compared by identity and outlive their entries in the queue, so that locking
a weak pointer to one succeeds. Times are integers that do not wrap around at the ends of their
64 bits. What happens is written to a log beside the state, with the newest happening first.
-/

import SumiEmu.Foundations.HandleHeap
import SumiEmu.Foundations.Histories

namespace SumiEmu.Core

open HandleHeap

/-- `UnscheduleEventType`. -/
inductive UnscheduleEventType
  | wait
  | noWait
  deriving DecidableEq

/-- An entry of the queue, known by its place in the order of insertion. -/
structure Event (T : Type*) where
  time : Int
  fifoOrder : Nat
  type : T
  rescheduleTime : Int
  handle : Nat
  deriving DecidableEq

namespace Event

variable {T : Type*}

/-- Sorted by time, and by the order of insertion when the times are the same. -/
def Less (left right : Event T) : Prop :=
  left.time < right.time ∨ left.time = right.time ∧ left.fifoOrder < right.fifoOrder

instance (left right : Event T) : Decidable (left.Less right) :=
  inferInstanceAs (Decidable (_ ∨ _))

end Event

/-- What `Advance` holds while it has dropped `basic_lock` for a callback: the node that `evt`
refers to, the entry found there, and the sequence number of its type at that moment. -/
structure Current (T : Type*) where
  thread : Nat
  node : Nat
  event : Event T
  sequenceNumber : Nat
  running : Bool

/-- A call of `UnscheduleEvent` that waits, and whether it has got past `advance_lock`. -/
structure Waiting (T : Type*) where
  type : T
  passed : Bool

/-- An entry of the log of a run. -/
inductive Happening (T : Type*)
  | inserted (event : Event T) (looping : Bool)
  | unscheduled (thread : Nat) (type : T) (removed : List (Event T))
  | waited (thread : Nat) (type : T)
  | returned (thread : Nat) (type : T)
  | pauseEnded (time : Int)
  | chosen (event : Event T) (globalTimer : Int)
  | started (event : Event T) (late : Int)
  | finished (event : Event T) (result : Option Int) (next : Option (Event T))
  | advanced (globalTimer : Int) (next : Option Int)
  deriving DecidableEq

structure CoreTiming (T : Type*) where
  eventQueue : Heap (Event T) := {}
  eventFifoId : Nat := 0
  sequenceNumber : T → Nat := fun _ => 0
  globalTimer : Int := 0
  pauseEndTime : Int := 0
  clock : Int := 0
  advance : Option (Current T) := none
  waiting : Nat → Option (Waiting T) := fun _ => none
  log : List (Happening T) := []

/-- Why there is no next state: a thread has to wait, or a handle is used whose node is gone. -/
inductive Stuck
  | blocked
  | staleHandle
  deriving DecidableEq

namespace CoreTiming

open Function

variable {T : Type*}

/-- The entries of the queue. -/
def events (s : CoreTiming T) : List (Event T) := s.eventQueue.nodes.map Prod.snd

/-- `event_queue.emplace` of a new entry, with the handle written into the entry. -/
def emplaceEvent (s : CoreTiming T) (time : Int) (type : T) (rescheduleTime : Int)
    (looping : Bool) : CoreTiming T :=
  let event (handle : Nat) : Event T := ⟨time, s.eventFifoId, type, rescheduleTime, handle⟩
  { s with
    eventQueue := s.eventQueue.emplace event
    eventFifoId := s.eventFifoId + 1
    log := .inserted (event s.eventQueue.nextHandle) looping :: s.log }

/-- `ScheduleEvent`. -/
def scheduleEvent (s : CoreTiming T) (nsIntoFuture : Int) (type : T) (absoluteTime : Bool) :
    CoreTiming T :=
  let nextTime := if absoluteTime then nsIntoFuture else s.clock + nsIntoFuture
  s.emplaceEvent nextTime type 0 false

/-- `ScheduleLoopingEvent`. -/
def scheduleLoopingEvent (s : CoreTiming T) (startTime reschedTime : Int) (type : T)
    (absoluteTime : Bool) : CoreTiming T :=
  let nextTime := if absoluteTime then startTime else s.clock + startTime
  s.emplaceEvent nextTime type reschedTime true

section Unschedule

variable [DecidableEq T]

/-- The handles written in the entries of a type. -/
def handlesOf (s : CoreTiming T) (type : T) : List Nat :=
  (s.events.filter fun event => decide (event.type = type)).map Event.handle

/-- The first section of `UnscheduleEvent`. A call that waits goes on to take `advance_lock`. -/
def unscheduleEvent (s : CoreTiming T) (thread : Nat) (type : T)
    (unscheduleType : UnscheduleEventType) : Except Stuck (CoreTiming T) :=
  match (s.handlesOf type).foldlM Heap.erase? s.eventQueue with
  | none => .error .staleHandle
  | some eventQueue =>
    .ok { s with
      eventQueue
      sequenceNumber := update s.sequenceNumber type (s.sequenceNumber type + 1)
      waiting :=
        if unscheduleType = .wait then update s.waiting thread (some ⟨type, false⟩) else s.waiting
      log := .unscheduled thread type (s.events.filter fun event => decide (event.type = type)) ::
        s.log }

end Unschedule

/-- `advance_lock` is taken and let go at once. -/
def forceFinish (s : CoreTiming T) (thread : Nat) : Except Stuck (CoreTiming T) :=
  match s.waiting thread with
  | none => .error .blocked
  | some call =>
    if call.passed ∨ s.advance.isSome then .error .blocked
    else
      .ok { s with
        waiting := update s.waiting thread (some ⟨call.type, true⟩)
        log := .waited thread call.type :: s.log }

/-- A call of `UnscheduleEvent` that has waited returns. -/
def returnUnscheduled (s : CoreTiming T) (thread : Nat) : Except Stuck (CoreTiming T) :=
  match s.waiting thread with
  | none => .error .blocked
  | some call =>
    if call.passed then
      .ok { s with
        waiting := update s.waiting thread none
        log := .returned thread call.type :: s.log }
    else .error .blocked

/-- The head of the loop of `Advance`: the top of the queue is chosen when it is due, and a
one-shot entry is popped; else `Advance` returns the time of the top. -/
def choose (s : CoreTiming T) (thread : Nat) : CoreTiming T :=
  match s.eventQueue.top fun left right => decide (left.Less right) with
  | none => { s with advance := none, log := .advanced s.globalTimer none :: s.log }
  | some (node, evt) =>
    if evt.time ≤ s.globalTimer then
      { s with
        eventQueue := if evt.rescheduleTime = 0 then s.eventQueue.eraseNode node else s.eventQueue
        advance := some ⟨thread, node, evt, s.sequenceNumber evt.type, false⟩
        log := .chosen evt s.globalTimer :: s.log }
    else { s with advance := none, log := .advanced s.globalTimer (some evt.time) :: s.log }

/-- `Advance` up to the first callback. -/
def beginAdvance (s : CoreTiming T) (thread : Nat) : Except Stuck (CoreTiming T) :=
  if s.advance.isSome then .error .blocked
  else .ok ({ s with globalTimer := s.clock }.choose thread)

/-- The callback is called with how late it is. -/
def startCallback (s : CoreTiming T) (current : Current T) : CoreTiming T :=
  { s with
    advance := some { current with running := true }
    log := .started current.event (s.clock - current.event.time) :: s.log }

/-- What takes the place of a looping entry. An entry that was scheduled into a pause goes on
from the end of the pause. -/
def nextEvent (s : CoreTiming T) (evt : Event T) (newScheduleTime : Option Int) : Event T :=
  let nextScheduleTime := newScheduleTime.getD evt.rescheduleTime
  let nextTime :=
    if evt.time < s.pauseEndTime then s.pauseEndTime + nextScheduleTime
      else evt.time + nextScheduleTime
  ⟨nextTime, s.eventFifoId, evt.type, nextScheduleTime, evt.handle⟩

/-- What `Advance` does when a callback has returned and `basic_lock` is held again. `evt` is
read through the reference to its node once more. -/
def afterCallback (s : CoreTiming T) (current : Current T) (newScheduleTime : Option Int) :
    Except Stuck (CoreTiming T) :=
  if current.event.rescheduleTime = 0 then
    .ok { s with
      globalTimer := s.clock
      log := .finished current.event newScheduleTime none :: s.log }
  else if current.sequenceNumber ≠ s.sequenceNumber current.event.type then
    -- `continue` does not read the clock
    .ok { s with log := .finished current.event newScheduleTime none :: s.log }
  else
    match s.eventQueue.get? current.node with
    | none => .error .staleHandle
    | some evt =>
      let next := s.nextEvent evt newScheduleTime
      match s.eventQueue.update? evt.handle next with
      | none => .error .staleHandle
      | some eventQueue =>
        .ok { s with
          eventQueue
          eventFifoId := s.eventFifoId + 1
          globalTimer := s.clock
          log := .finished current.event newScheduleTime (some next) :: s.log }

/-- The end of a callback, and the loop of `Advance` up to the next one. -/
def finishCallback (s : CoreTiming T) (current : Current T) (newScheduleTime : Option Int) :
    Except Stuck (CoreTiming T) :=
  (s.afterCallback current newScheduleTime).map fun s' => s'.choose current.thread

/-- What a thread can call. `pause` is `Pause(false)`. -/
inductive Call (T : Type*)
  | scheduleEvent (nsIntoFuture : Int) (type : T) (absoluteTime : Bool)
  | scheduleLoopingEvent (startTime reschedTime : Int) (type : T) (absoluteTime : Bool)
  | unscheduleEvent (type : T) (unscheduleType : UnscheduleEventType)
  | advance
  | pause

/-- What may happen next. -/
inductive Step (T : Type*)
  | call (thread : Nat) (call : Call T)
  | forceFinish (thread : Nat)
  | returnUnscheduled (thread : Nat)
  | startCallback
  | finishCallback (newScheduleTime : Option Int)
  | tick (elapsed : Nat)

/-- The thread waits in `UnscheduleEvent`. -/
def Waits (s : CoreTiming T) (thread : Nat) : Prop := (s.waiting thread).isSome = true

instance (s : CoreTiming T) (thread : Nat) : Decidable (s.Waits thread) :=
  inferInstanceAs (Decidable (_ = true))

/-- The thread is in `Advance` between dropping the lock and entering the callback. -/
def Entering (s : CoreTiming T) (thread : Nat) : Prop :=
  ∃ current ∈ s.advance, current.thread = thread ∧ current.running = false

instance (s : CoreTiming T) (thread : Nat) : Decidable (s.Entering thread) :=
  inferInstanceAs (Decidable (∃ current ∈ s.advance, _))

variable [DecidableEq T]

/-- A thread makes a call. -/
def call (s : CoreTiming T) (thread : Nat) : Call T → Except Stuck (CoreTiming T)
  | .scheduleEvent nsIntoFuture type absoluteTime =>
      .ok (s.scheduleEvent nsIntoFuture type absoluteTime)
  | .scheduleLoopingEvent startTime reschedTime type absoluteTime =>
    .ok (s.scheduleLoopingEvent startTime reschedTime type absoluteTime)
  | .unscheduleEvent type unscheduleType => s.unscheduleEvent thread type unscheduleType
  | .advance => s.beginAdvance thread
  | .pause => .ok { s with pauseEndTime := s.clock, log := .pauseEnded s.clock :: s.log }

/-- What a step does. -/
def step (s : CoreTiming T) : Step T → Except Stuck (CoreTiming T)
  | .call thread call =>
    if s.Waits thread ∨ s.Entering thread then .error .blocked else s.call thread call
  | .forceFinish thread => s.forceFinish thread
  | .returnUnscheduled thread => s.returnUnscheduled thread
  | .startCallback =>
    match s.advance with
    | none => .error .blocked
    | some current => if current.running then .error .blocked else .ok (s.startCallback current)
  | .finishCallback newScheduleTime =>
    match s.advance with
    | none => .error .blocked
    | some current =>
      if current.running = true ∧ ¬ s.Waits current.thread
        then s.finishCallback current newScheduleTime
      else .error .blocked
  | .tick elapsed => .ok { s with clock := s.clock + elapsed }

/-- A run from the state that `Initialize` leaves. -/
def run (steps : List (Step T)) : Except Stuck (CoreTiming T) :=
  steps.foldlM step {}

end CoreTiming

end SumiEmu.Core

/-!
## What the log of the core timing tells

An entry is inserted by a call or put in place of a looping entry that has fired, and it is
queued until it is removed or has fired: a one-shot entry has fired when it is chosen, a
looping one when its callback has finished. The log obeys a law, one rule for each kind of
happening, and from the rules follows how events are delivered over a whole run.
-/

namespace SumiEmu.Core

open Histories

variable {T : Type*}

namespace Happening

/-- The happening puts an entry into the queue. -/
def Inserts (event : Event T) : Happening T → Prop
  | .inserted new _ => new = event
  | .finished _ _ next => next = some event
  | _ => False

def Removes (event : Event T) : Happening T → Prop
  | .unscheduled _ _ removed => event ∈ removed
  | _ => False

def Chooses (event : Event T) : Happening T → Prop
  | .chosen other _ => other = event
  | _ => False

/-- The callback of the event starts. -/
def Starts (event : Event T) : Happening T → Prop
  | .started other _ => other = event
  | _ => False

/-- The callback of the event ends. -/
def Finishes (event : Event T) : Happening T → Prop
  | .finished other _ _ => other = event
  | _ => False

end Happening

abbrev Inserted (log : List (Happening T)) (event : Event T) : Prop :=
  Occurred (Happening.Inserts event) log

abbrev Removed (log : List (Happening T)) (event : Event T) : Prop :=
  Occurred (Happening.Removes event) log

abbrev Chosen (log : List (Happening T)) (event : Event T) : Prop :=
  Occurred (Happening.Chooses event) log

abbrev Started (log : List (Happening T)) (event : Event T) : Prop :=
  Occurred (Happening.Starts event) log

abbrev Finished (log : List (Happening T)) (event : Event T) : Prop :=
  Occurred (Happening.Finishes event) log

def Fired (log : List (Happening T)) (event : Event T) : Prop :=
  if event.rescheduleTime = 0 then Chosen log event else Finished log event

/-- The event is still to come. -/
def Queued (log : List (Happening T)) (event : Event T) : Prop :=
  Inserted log event ∧ ¬ Removed log event ∧ ¬ Fired log event

/-- The callback of an entry is running. -/
def Running (log : List (Happening T)) (event : Event T) : Prop :=
  Started log event ∧ ¬ Finished log event

/-- No callback has been chosen that is not finished. -/
def Idle (log : List (Happening T)) : Prop := ∀ event, Chosen log event → Finished log event

/-- When the last pause ended. -/
def pauseEnd : List (Happening T) → Int
  | [] => 0
  | .pauseEnded time :: _ => time
  | _ :: log => pauseEnd log

/-- The entry that is put in the place of one whose callback has returned: one period later,
or one period after the end of a pause that the old one was due before. -/
structure Successor (log : List (Happening T)) (event : Event T) (result : Option Int)
    (next : Event T) : Prop where
  type : next.type = event.type
  handle : next.handle = event.handle
  period : next.rescheduleTime = result.getD event.rescheduleTime
  time : next.time = (if event.time < pauseEnd log then pauseEnd log else event.time) +
    next.rescheduleTime
  later : ∀ earlier, Inserted log earlier → earlier.fifoOrder < next.fifoOrder

/-- What is queued when a callback has returned: nothing in the place of a one-shot entry and of
one that was removed meanwhile, else the successor. -/
structure QueuedAgain (log : List (Happening T)) (event : Event T) (result : Option Int)
    (next : Option (Event T)) : Prop where
  nothing : event.rescheduleTime = 0 ∨ Removed log event → next = none
  successor : event.rescheduleTime ≠ 0 → ¬ Removed log event →
    ∃ successor, next = some successor ∧ Successor log event result successor

/-- The rule for each kind of happening, about the log before it. -/
def Rule : Happening T → List (Happening T) → Prop
  | .inserted event _, before => ∀ earlier, Inserted before earlier →
      earlier.fifoOrder < event.fifoOrder
  | .unscheduled _ type removed, before => ∀ event, event ∈ removed ↔ Queued before event ∧
      event.type = type
  | .waited thread type, before => Idle before ∧
      ∃ removed, .unscheduled thread type removed ∈ before
  | .returned thread type, before =>
    (∃ removed, .unscheduled thread type removed ∈ before) ∧
    ∀ removed rest, .unscheduled thread type removed :: rest <:+ before →
      ∃ between, .waited thread type :: between <:+ before ∧
        .unscheduled thread type removed :: rest <:+ between
  | .pauseEnded _, _ => True
  | .chosen event globalTimer, before =>
    Idle before ∧ Queued before event ∧ event.time ≤ globalTimer ∧
      ∀ other, Queued before other → other = event ∨ event.Less other
  | .started event late, before => Chosen before event ∧ ¬ Started before event ∧ 0 ≤ late
  | .finished event result next, before =>
    Running before event ∧ QueuedAgain before event result next
  | .advanced globalTimer next, before =>
    Idle before ∧ (∀ event, Queued before event → globalTimer < event.time) ∧
      match next with
      | none => ∀ event, ¬ Queued before event
      | some time => (∃ event, Queued before event ∧ event.time = time) ∧
          ∀ event, Queued before event → time ≤ event.time

/-- How events are delivered over a whole run. -/
structure Delivered (log : List (Happening T)) : Prop where
  /-- A chosen entry is queued and due, and no queued entry comes before it. -/
  inOrder : ∀ event globalTimer before, .chosen event globalTimer :: before <:+ log →
    Queued before event ∧ event.time ≤ globalTimer ∧
      ∀ other, Queued before other → other = event ∨ event.Less other
  /-- When `Advance` returns, no due entry is left, and it returns when the next one is due. -/
  nothingDue : ∀ globalTimer next before, .advanced globalTimer next :: before <:+ log →
    (∀ event, Queued before event → globalTimer < event.time) ∧
      match next with
      | none => ∀ event, ¬ Queued before event
      | some time => (∃ event, Queued before event ∧ event.time = time) ∧
          ∀ event, Queued before event → time ≤ event.time
  /-- An entry is chosen once at most. -/
  chosenOnce : ∀ event globalTimer before, .chosen event globalTimer :: before <:+ log →
    ¬ Chosen before event
  /-- Its callback starts once, after it was chosen. -/
  startedOnce : ∀ event late before, .started event late :: before <:+ log →
    Chosen before event ∧ ¬ Started before event
  /-- No callback is called early. -/
  notEarly : ∀ event late before, .started event late :: before <:+ log → 0 ≤ late
  /-- The callback finishes once, after it has started. -/
  finishedOnce : ∀ event result next before, .finished event result next :: before <:+ log →
    Started before event ∧ ¬ Finished before event
  /-- What was chosen is finished when the next entry is chosen or `Advance` returns. -/
  oneByOne : ∀ happening before, happening :: before <:+ log →
    (∃ event globalTimer, happening = .chosen event globalTimer) ∨
      (∃ globalTimer next, happening = .advanced globalTimer next) → Idle before
  /-- A looping entry is queued again once its callback has returned, unless it was removed. -/
  queuedAgain : ∀ event result next before, .finished event result next :: before <:+ log →
    QueuedAgain before event result next
  /-- A call of `UnscheduleEvent` removes the queued entries of its type. -/
  removedAll : ∀ thread type removed before, .unscheduled thread type removed :: before <:+ log →
    ∀ event, event ∈ removed ↔ Queued before event ∧ event.type = type
  /-- A removed entry is not chosen afterwards. -/
  notChosen : ∀ event globalTimer before, .chosen event globalTimer :: before <:+ log →
    ¬ Removed before event
  /-- A removed entry whose callback starts afterwards was chosen before it was removed. -/
  notStarted : ∀ event late before, .started event late :: before <:+ log →
    ∀ thread type removed earlier, .unscheduled thread type removed :: earlier <:+ before →
      event ∈ removed → Chosen earlier event
  /-- When a call that waits returns, no callback of an entry of its type that was queued before
  the removal is running. -/
  notRunning : ∀ thread type before, .returned thread type :: before <:+ log →
    (∃ removed, .unscheduled thread type removed ∈ before) ∧
    ∀ removed rest, .unscheduled thread type removed :: rest <:+ before →
      ∀ event, Inserted rest event → event.type = type → ¬ Running before event
  /-- And none of these starts afterwards. -/
  notStartedAfter : ∀ event late before, .started event late :: before <:+ log →
    ∀ thread middle, .returned thread event.type :: middle <:+ before →
      ∀ removed rest, .unscheduled thread event.type removed :: rest <:+ middle →
      ¬ Inserted rest event

section Lawful

variable {log before rest : List (Happening T)} {event : Event T}

/-- An entry whose callback has finished has fired, whichever kind it is. -/
theorem Idle.fired (idle : Idle before) (chosen : Chosen before event) : Fired before event := by
  unfold Fired
  split_ifs
  · exact chosen
  · exact idle event chosen

theorem Fired.of_suffix (fired : Fired before event) (earlier : before <:+ log) :
    Fired log event := by
  unfold Fired at fired ⊢
  split_ifs at fired ⊢
  · exact fired.of_suffix earlier
  · exact fired.of_suffix earlier

/-- What is no longer queued does not come back. -/
theorem Queued.of_suffix (queued : Queued log event) (inserted : Inserted before event)
    (earlier : before <:+ log) : Queued before event :=
  ⟨inserted, fun removed => queued.2.1 (removed.of_suffix earlier),
    fun fired => queued.2.2 (fired.of_suffix earlier)⟩

theorem Chosen.exists_suffix (chosen : Chosen log event) :
    ∃ globalTimer before, .chosen event globalTimer :: before <:+ log := by
  obtain ⟨happening, before, place, kind⟩ := Occurred.exists_suffix chosen
  cases happening with
  | chosen other globalTimer =>
    cases kind
    exact ⟨globalTimer, before, place⟩
  | _ => cases kind

theorem Finished.exists_suffix (finished : Finished log event) :
    ∃ result next before, .finished event result next :: before <:+ log := by
  obtain ⟨happening, before, place, kind⟩ := Occurred.exists_suffix finished
  cases happening with
  | finished other result next =>
    cases kind
    exact ⟨result, next, before, place⟩
  | _ => cases kind

variable (lawful : Lawful Rule log)

include lawful in
theorem chosen_of_started (started : Started log event) : Chosen log event := by
  obtain ⟨happening, before, place, kind⟩ := Occurred.exists_suffix started
  cases happening with
  | started other late =>
    cases kind
    exact (lawful _ _ place).1.of_suffix (suffix_of_cons place)
  | _ => cases kind

variable {removed : List (Event T)}

include lawful in
/-- A removed entry that starts was chosen before. -/
theorem chosen_of_removed {late : Int} {thread : Nat} {type : T}
    (starts : .started event late :: before <:+ log)
    (removal : .unscheduled thread type removed :: rest <:+ before) (member : event ∈ removed) :
    Chosen rest event := by
  obtain ⟨chosen, _⟩ := lawful _ _ starts
  obtain ⟨globalTimer, earlier, choice⟩ := Chosen.exists_suffix chosen
  rcases earlier_or_later choice removal (fun same => by cases same) with first | second
  · exact occurred_of_suffix first rfl
  · -- the entry would be chosen after it was removed
    obtain ⟨_, queued, _⟩ := lawful _ _ (choice.trans (suffix_of_cons starts))
    exact absurd (occurred_of_suffix second member) queued.2.1

include lawful in
/-- A callback that starts after a wait is over is not of an entry that was there before the
removal. -/
theorem not_inserted_of_waited {late : Int} {thread : Nat}
    {middle : List (Happening T)} (starts : .started event late :: before <:+ log)
    (wait : .waited thread event.type :: middle <:+ before)
    (removal : .unscheduled thread event.type removed :: rest <:+ middle) :
    ¬ Inserted rest event := by
  intro inserted
  obtain ⟨chosen, unstarted, _⟩ := lawful _ _ starts
  have inside : before <:+ log := suffix_of_cons starts
  obtain ⟨globalTimer, earlier, choice⟩ := Chosen.exists_suffix chosen
  rcases earlier_or_later choice wait (fun same => by cases same) with first | second
  · -- chosen before the wait was over, so the callback has finished then
    obtain ⟨idle, _⟩ := lawful _ _ (wait.trans inside)
    obtain ⟨result, next, past, end'⟩ :=
      Finished.exists_suffix (idle event (occurred_of_suffix first rfl))
    have before_end := lawful _ _ ((end'.trans (suffix_of_cons wait)).trans inside)
    exact unstarted (before_end.1.1.of_suffix
      ((suffix_of_cons end').trans (suffix_of_cons wait)))
  · -- chosen afterwards, but the removal has taken it out of the queue
    obtain ⟨_, queued, _⟩ := lawful _ _ (choice.trans inside)
    have old : .unscheduled thread event.type removed :: rest <:+ earlier :=
      removal.trans (suffix_of_cons second)
    have all := lawful _ _ (removal.trans ((suffix_of_cons wait).trans inside))
    have there := (all event).mpr ⟨queued.of_suffix inserted (suffix_of_cons old), rfl⟩
    exact queued.2.1 (occurred_of_suffix old there)

include lawful in
theorem not_running_of_returned {thread : Nat}
    (returns : .returned thread event.type :: before <:+ log)
    (removal : .unscheduled thread event.type removed :: rest <:+ before)
    (inserted : Inserted rest event) : ¬ Running before event := by
  rintro ⟨started, unfinished⟩
  have inside : before <:+ log := suffix_of_cons returns
  obtain ⟨middle, wait, first⟩ := (lawful _ _ returns).2 removed rest removal
  obtain ⟨happening, earlier, start, kind⟩ := Occurred.exists_suffix started
  cases happening with
  | started other late =>
    cases kind
    rcases earlier_or_later start wait (fun same => by cases same) with early | late'
    · -- started before the wait was over, so it has finished then
      obtain ⟨chosen, _⟩ := lawful _ _ (start.trans inside)
      obtain ⟨idle, _⟩ := lawful _ _ (wait.trans inside)
      have finished := idle event (chosen.of_suffix (suffix_of_cons early))
      exact unfinished (finished.of_suffix (suffix_of_cons wait))
    · exact not_inserted_of_waited lawful (start.trans inside) late' first inserted
  | _ => cases kind

include lawful in
/-- The rules make up the delivery. -/
theorem delivered : Delivered log where
  inOrder event globalTimer before place := (lawful _ _ place).2
  nothingDue globalTimer next before place := (lawful _ _ place).2
  chosenOnce event globalTimer before place chosen := by
    obtain ⟨idle, queued, _⟩ := lawful _ _ place
    exact queued.2.2 (idle.fired chosen)
  startedOnce event late before place := ⟨(lawful _ _ place).1, (lawful _ _ place).2.1⟩
  notEarly event late before place := (lawful _ _ place).2.2
  finishedOnce event result next before place := (lawful _ _ place).1
  oneByOne happening before place kind := by
    rcases kind with ⟨event, globalTimer, rfl⟩ | ⟨globalTimer, next, rfl⟩
    · exact (lawful _ _ place).1
    · exact (lawful _ _ place).1
  queuedAgain event result next before place := (lawful _ _ place).2
  removedAll thread type removed before place := lawful _ _ place
  notChosen event globalTimer before place := (lawful _ _ place).2.1.2.1
  notStarted event late before place _ _ _ _ removal member :=
    chosen_of_removed lawful place removal member
  notRunning thread type before place := by
    refine ⟨(lawful _ _ place).1, fun removed rest removal event inserted same => ?_⟩
    subst same
    exact not_running_of_returned lawful place removal inserted
  notStartedAfter event late before place thread middle returns removed rest removal := by
    have inside : before <:+ log := suffix_of_cons place
    obtain ⟨between, wait, first⟩ := (lawful _ _ (returns.trans inside)).2 removed rest removal
    exact not_inserted_of_waited lawful place (wait.trans (suffix_of_cons returns)) first

end Lawful

end SumiEmu.Core
