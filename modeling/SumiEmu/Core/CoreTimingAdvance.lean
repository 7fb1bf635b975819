/-
# Whether the core timing advances

`Advance` goes round its loop until the top of the queue lies in the future. Here the queue is as it
is found, and types may be gone whose entries are left: an entry holds its type weakly, and a round
whose top has lost its type does nothing but read the clock. The clock stands still meanwhile, and
the callbacks return and leave the queue alone. What a callback returns may depend on all that has
happened.
-/

import Mathlib.Algebra.Order.BigOperators.Group.List
import SumiEmu.Core.CoreTimingRun

namespace SumiEmu.Core

open HandleHeap

namespace CoreTiming

variable {T : Type*}

/-- The entry that is looked at is due and its type is gone. -/
def topExpired (live : T → Bool) (s : CoreTiming T) : Bool :=
  match s.eventQueue.top fun left right => decide (left.Less right) with
  | none => false
  | some (_, evt) => decide (evt.time ≤ s.globalTimer) && !live evt.type

/-- One round of the loop, and whether `Advance` returns with it. -/
def advanceRound (live : T → Bool) (callback : List (Happening T) → Event T → Option Int)
    (thread : Nat)
    (s : CoreTiming T) : Except Stuck (CoreTiming T × Bool) :=
  if s.topExpired live then .ok ({ s with globalTimer := s.clock }, false)
  else
    let s' := s.choose thread
    match s'.advance with
    | none => .ok (s', true)
    | some current => ((s'.startCallback current).afterCallback current
        (callback s'.log current.event)).map (·, false)

/-- The loop of `Advance`, if it ends in the rounds given to it. -/
def advanceRounds (live : T → Bool) (callback : List (Happening T) → Event T → Option Int)
    (thread : Nat) : Nat → CoreTiming T → Except Stuck (Option (CoreTiming T))
  | 0, _ => .ok none
  | rounds + 1, s =>
    match s.advanceRound live callback thread with
    | .error stuck => .error stuck
    | .ok (s', true) => .ok (some s')
    | .ok (s', false) => advanceRounds live callback thread rounds s'

def advanceIn (live : T → Bool) (callback : List (Happening T) → Event T → Option Int)
    (thread rounds : Nat)
    (s : CoreTiming T) : Except Stuck (Option (CoreTiming T)) :=
  if s.advance.isSome then .error .blocked
  else advanceRounds live callback thread rounds { s with globalTimer := s.clock }

/-- The handles are good and the looping periods positive, also those that callbacks give. -/
structure Positive (callback : List (Happening T) → Event T → Option Int) (s : CoreTiming T) :
    Prop where
  handles : ∀ node ∈ s.eventQueue.nodes, node.2.handle = node.1
  periods : ∀ event ∈ s.events, event.rescheduleTime ≠ 0 → 0 < event.rescheduleTime
  results : ∀ log (event : Event T) period, event.rescheduleTime ≠ 0 →
    callback log event = some period → 0 < period

/-- `Advance` returns, leaves nothing due behind, and has called back for every entry that was due
and whose type is there. -/
def Progresses (live : T → Bool) (callback : List (Happening T) → Event T → Option Int)
    (thread : Nat)
    (s : CoreTiming T) : Prop :=
  ∃ rounds s' fired, s.advanceIn live callback thread rounds = .ok (some s') ∧
    s'.log = fired ++ s.log ∧ (∀ event ∈ s'.events, s.clock < event.time) ∧ ∀ event ∈ s.events,
    event.time ≤ s.clock → live event.type = true → ∃ late, .started event late ∈ fired

/-! ## One round -/

variable {live : T → Bool} {callback : List (Happening T) → Event T → Option Int} {thread : Nat}
  {s s' : CoreTiming T} {now : Int}

/-- What a round can do while the clock stands at `now`. -/
inductive Round (live : T → Bool) (now : Int) (s : CoreTiming T) : CoreTiming T × Bool → Prop
  | stalls (s' : CoreTiming T) (event : Event T) (queued : event ∈ s.events)
      (due : event.time ≤ now) (gone : live event.type = false)
      (same : s'.eventQueue = s.eventQueue) (log : s'.log = s.log) : Round live now s (s', false)
  | returns (s' : CoreTiming T) (happening : Happening T)
      (future : ∀ event ∈ s.events, now < event.time) (same : s'.eventQueue = s.eventQueue)
      (log : s'.log = happening :: s.log) : Round live now s (s', true)
  | fires (s' : CoreTiming T) (node : Nat) (event : Event T) (late : Int)
      (before after : Happening T) (queued : (node, event) ∈ s.eventQueue.nodes)
      (due : event.time ≤ now) (there : live event.type = true)
      (left : s'.eventQueue = s.eventQueue.eraseNode node ∨ ∃ next : Event T, s'.eventQueue =
      s.eventQueue.setNode node next ∧ event.time < next.time ∧ next.type = event.type)
      (log : s'.log = after :: .started event late :: before :: s.log) : Round live now s
        (s', false)

/-- What is kept of the state from round to round. -/
structure Standing (callback : List (Happening T) → Event T → Option Int) (now : Int)
    (s : CoreTiming T) : Prop
    extends Positive callback s where
  timer : s.globalTimer = now
  clock : s.clock = now

variable {event : Event T}

theorem mem_of_top {node : Nat}
    (first : s.eventQueue.top (fun left right => decide (left.Less right)) = some (node, event)) :
    (node, event) ∈ s.eventQueue.nodes ∧ ∀ other ∈ s.events, event.time ≤ other.time := by
  obtain ⟨member, least⟩ := Heap.firstOf_eq_some Event.less_asymmetric Event.less_transitive first
  refine ⟨member, fun other queued => ?_⟩
  obtain ⟨place, member'⟩ := mem_events.mp queued
  have behind : ¬ other.Less event := of_decide_eq_false (least _ member')
  rw [Event.Less] at behind
  omega

theorem events_eq_nil_of_top
    (empty : s.eventQueue.top (fun left right => decide (left.Less right)) = none) :
    s.events = [] := by
  rw [events, Heap.firstOf_eq_none.mp empty, List.map_nil]

/-- A round that finds nothing due ends the loop. -/
theorem Standing.returns (standing : Standing callback now s)
    (future : ∀ event ∈ s.events, now < event.time) :
    ∃ result, s.advanceRound live callback thread = .ok result ∧ Round live now s result ∧
      Standing callback now result.1 := by
  have notExpired : s.topExpired live = false := by
    rw [topExpired]
    split
    · rfl
    · rename_i node event first
      have := future event (mem_events.mpr ⟨node, (mem_of_top first).1⟩)
      rw [decide_eq_false (by have := standing.timer; omega), Bool.false_and]
  have kept (happening : Happening T) :
      Standing callback now { s with advance := none, log := happening :: s.log } := {
    handles := standing.handles
    periods := standing.periods
    results := standing.results
    timer := standing.timer
    clock := standing.clock }
  rw [advanceRound, if_neg (by simp [notExpired]), choose]
  split
  · exact ⟨_, rfl, .returns _ _ future rfl rfl, kept _⟩
  · rename_i node event first
    have := future event (mem_events.mpr ⟨node, (mem_of_top first).1⟩)
    rw [if_neg (by have := standing.timer; omega)]
    exact ⟨_, rfl, .returns _ _ future rfl rfl, kept _⟩

/-- Entries may go, and new ones may come whose handles are good and whose periods are positive. -/
theorem Standing.keeps (standing : Standing callback now s) (timer : s'.globalTimer = now)
    (clock : s'.clock = now)
    (nodes : ∀ node ∈ s'.eventQueue.nodes, node ∈ s.eventQueue.nodes ∨
      node.2.handle = node.1 ∧ 0 < node.2.rescheduleTime) : Standing callback now s' where
  handles node member := by
    obtain old | ⟨handle, -⟩ := nodes node member
    · exact standing.handles node old
    · exact handle
  periods event member looping := by
    obtain ⟨place, member⟩ := mem_events.mp member
    obtain old | ⟨-, positive⟩ := nodes _ member
    · exact standing.periods event (mem_events.mpr ⟨place, old⟩) looping
    · exact positive
  results := standing.results
  timer := timer
  clock := clock

/-- A round whose top has lost its type leaves the queue as it is. -/
theorem Standing.stalls (standing : Standing callback now s) {node : Nat}
    (first : s.eventQueue.top (fun left right => decide (left.Less right)) = some (node, event))
    (due : event.time ≤ now) (gone : live event.type = false) :
    ∃ result, s.advanceRound live callback thread = .ok result ∧ Round live now s result ∧
      Standing callback now result.1 := by
  have expired : s.topExpired live = true := by
    rw [topExpired, first]
    simp [standing.timer, due, gone]
  rw [advanceRound, if_pos expired]
  refine ⟨_, rfl, .stalls _ event (mem_events.mpr ⟨node, (mem_of_top first).1⟩) due gone rfl rfl,
    ?_⟩
  exact { standing with timer := standing.clock }

theorem nextEvent_later {result : Option Int} (looping : 0 < event.rescheduleTime)
    (positive : ∀ period, result = some period → 0 < period) :
    event.time < (s.nextEvent event result).time ∧
      0 < (s.nextEvent event result).rescheduleTime := by
  have period : 0 < result.getD event.rescheduleTime := by
    cases result with
    | none => exact looping
    | some period => exact positive period rfl
  rw [nextEvent]
  dsimp only
  refine ⟨?_, period⟩
  split_ifs with paused <;> omega

/-- A round whose top is due and has its type calls back, and removes the entry or puts a later one
in its place. -/
theorem Standing.fires (standing : Standing callback now s) {node : Nat}
    (first : s.eventQueue.top (fun left right => decide (left.Less right)) = some (node, event))
    (due : event.time ≤ now) (there : live event.type = true) :
    ∃ result, s.advanceRound live callback thread = .ok result ∧ Round live now s result ∧
      Standing callback now result.1 := by
  have notExpired : s.topExpired live = false := by
    rw [topExpired, first]
    simp [there]
  have member := (mem_of_top first).1
  have handle : event.handle = node := standing.handles _ member
  rw [advanceRound, if_neg (by simp [notExpired]), choose, first]
  dsimp only
  rw [if_pos (by rw [standing.timer]; exact due)]
  dsimp only
  by_cases oneShot : event.rescheduleTime = 0
  · rw [afterCallback, if_pos oneShot, startCallback]
    refine ⟨_, rfl, .fires _ node event _ _ _ member due there (.inl (if_pos oneShot)) rfl, ?_⟩
    refine standing.keeps standing.clock standing.clock fun other member' => .inl ?_
    simp only [if_pos oneShot] at member'
    exact (Heap.mem_eraseNode.mp member').1
  · have looping := standing.periods event (mem_events.mpr ⟨node, member⟩) oneShot
    rw [afterCallback, if_neg oneShot, startCallback]
    simp only [if_neg oneShot, ne_eq, not_true_eq_false, if_false, Heap.get?_eq_some.mpr member,
      handle, Heap.update?_eq_some member, Except.map]
    refine ⟨_, rfl, .fires _ node event _ _ _ member due there (.inr ⟨_, rfl, ?_, rfl⟩) rfl, ?_⟩
    · exact (nextEvent_later looping fun period => standing.results _ event period oneShot).1
    refine standing.keeps standing.clock standing.clock fun other member' => ?_
    obtain rfl | ⟨old, -⟩ := (Heap.mem_setNode member).mp member'
    · exact .inr ⟨handle, (nextEvent_later looping fun period =>
        standing.results _ event period oneShot).2⟩
    · exact .inl old

theorem Standing.round (standing : Standing callback now s) (live : T → Bool) (thread : Nat) :
    ∃ result, s.advanceRound live callback thread = .ok result ∧ Round live now s result ∧
      Standing callback now result.1 := by
  by_cases future : ∀ event ∈ s.events, now < event.time
  · exact standing.returns future
  push Not at future
  obtain ⟨event, queued, due⟩ := future
  cases first : s.eventQueue.top fun left right => decide (left.Less right) with
  | none => exact absurd queued (events_eq_nil_of_top first ▸ List.not_mem_nil)
  | some best =>
    obtain ⟨node, best⟩ := best
    have due := ((mem_of_top first).2 event queued).trans due
    by_cases there : live best.type = true
    · exact standing.fires first due there
    · exact standing.stalls first due (Bool.eq_false_iff.mpr there)

/-! ## All rounds -/

/-- An entry that is due and has lost its type stays in the queue. -/
theorem Round.keeps_expired {result : CoreTiming T × Bool} (round : Round live now s result)
    (queued : event ∈ s.events) (due : event.time ≤ now) (gone : live event.type = false) :
    result.2 = false ∧ event ∈ result.1.events := by
  obtain ⟨node, member⟩ := mem_events.mp queued
  cases round with
  | stalls s' _ _ _ _ same => exact ⟨rfl, by rwa [events, same]⟩
  | returns s' _ future => exact absurd due (not_le.mpr (future event queued))
  | fires s' node' event' _ _ _ queued' _ there left =>
    have other : node ≠ node' := by
      rintro rfl
      obtain rfl : event = event' := congrArg Prod.snd (Heap.value_eq member queued' rfl)
      rw [gone] at there
      cases there
    refine ⟨rfl, mem_events.mpr ⟨node, ?_⟩⟩
    obtain left | ⟨next, left, -⟩ := left
    · rw [left]
      exact Heap.mem_eraseNode.mpr ⟨member, other⟩
    · rw [left]
      exact (Heap.mem_setNode queued').mpr (.inr ⟨member, other⟩)

/-- Behind such an entry the loop goes on for ever. -/
theorem Standing.never_returns (standing : Standing callback now s) (queued : event ∈ s.events)
    (due : event.time ≤ now) (gone : live event.type = false) (rounds : Nat) :
    advanceRounds live callback thread rounds s = .ok none := by
  induction rounds generalizing s with
  | zero => rfl
  | succ rounds hyp =>
    obtain ⟨⟨s', returned⟩, run, round, standing'⟩ := standing.round live thread
    obtain ⟨goesOn, queued'⟩ := round.keeps_expired queued due gone
    obtain rfl : returned = false := goesOn
    rw [advanceRounds, run]
    exact hyp standing' queued'

/-- How far the due entries are behind, all together. -/
def behind (now : Int) (s : CoreTiming T) : Nat :=
  s.eventQueue.weight fun event => (now + 1 - event.time).toNat

/-- What a round does when no entry that is due has lost its type. -/
theorem Round.progress {result : CoreTiming T × Bool} (round : Round live now s result)
    (alive : ∀ event ∈ s.events, event.time ≤ now → live event.type = true) :
    (result.2 = true ∧ (∀ event ∈ s.events, now < event.time) ∧ result.1.events = s.events ∧
        ∃ happening, result.1.log = happening :: s.log) ∨
      result.2 = false ∧ behind now result.1 < behind now s ∧
        (∀ event ∈ result.1.events, event.time ≤ now → live event.type = true) ∧
        ∃ fired, result.1.log = fired ++ s.log ∧ ∀ event ∈ s.events, event.time ≤ now →
          event ∈ result.1.events ∨ ∃ late, .started event late ∈ fired := by
  cases round with
  | stalls s' event queued due gone =>
    rw [alive event queued due] at gone
    cases gone
  | returns s' happening future same log =>
      exact .inl ⟨rfl, future, by rw [events, same, events], happening, log⟩
  | fires s' node event late before after queued due there left log =>
    refine .inr ⟨rfl, ?_, ?_, [after, .started event late, before], log, ?_⟩
    · have weight : 0 < (now + 1 - event.time).toNat := by omega
      obtain left | ⟨next, left, later, -⟩ := left
      · have := Heap.weight_eraseNode (f := fun event : Event T => (now + 1 - event.time).toNat)
          queued
        rw [behind, behind, left]
        omega
      · have := Heap.weight_setNode (f := fun event : Event T => (now + 1 - event.time).toNat) next
          queued
        rw [behind, behind, left]
        omega
    · intro other queued' due'
      obtain ⟨place, member⟩ := mem_events.mp queued'
      obtain left | ⟨next, left, later, type⟩ := left
      · rw [left] at member
        exact alive other (mem_events.mpr ⟨place, (Heap.mem_eraseNode.mp member).1⟩) due'
      · rw [left] at member
        obtain same | ⟨member, -⟩ := (Heap.mem_setNode queued).mp member
        · obtain rfl := congrArg Prod.snd same
          exact type ▸ there
        · exact alive other (mem_events.mpr ⟨place, member⟩) due'
    · intro other queued' due'
      obtain ⟨place, member⟩ := mem_events.mp queued'
      by_cases here : place = node
      · subst here
        obtain rfl : other = event := congrArg Prod.snd (Heap.value_eq member queued rfl)
        exact .inr ⟨late, by simp⟩
      · refine .inl (mem_events.mpr ⟨place, ?_⟩)
        obtain left | ⟨next, left, -⟩ := left
        · rw [left]
          exact Heap.mem_eraseNode.mpr ⟨member, here⟩
        · rw [left]
          exact (Heap.mem_setNode queued).mpr (.inr ⟨member, here⟩)

/-- Without such an entry the loop ends, since every round but the last one makes the due entries
weigh less. -/
theorem Standing.finishes (standing : Standing callback now s)
    (alive : ∀ event ∈ s.events, event.time ≤ now → live event.type = true) (thread : Nat) :
    ∃ rounds s' fired, advanceRounds live callback thread rounds s = .ok (some s') ∧
      s'.log = fired ++ s.log ∧ (∀ event ∈ s'.events, now < event.time) ∧
      ∀ event ∈ s.events, event.time ≤ now → ∃ late, .started event late ∈ fired := by
  induction weight : behind now s using Nat.strong_induction_on generalizing s with
  | _ m hyp =>
    obtain ⟨⟨s', returned⟩, run, round, standing'⟩ := standing.round live thread
    obtain ⟨ends, future, same, happening, log⟩ | ⟨goesOn, less, alive', fired, log, covered⟩ :=
      round.progress alive
    · obtain rfl : returned = true := ends
      refine ⟨1, s', [happening], by rw [advanceRounds, run], log, ?_, ?_⟩
      · rw [show s'.events = s.events from same]
        exact future
      · exact fun event queued due => absurd due (not_le.mpr (future event queued))
    · obtain rfl : returned = false := goesOn
      obtain ⟨rounds, last, fired', run', log', future, called⟩ :=
        hyp _ (weight ▸ less) standing' alive' rfl
      refine ⟨rounds + 1, last, fired' ++ fired, ?_, ?_, future, ?_⟩
      · rw [advanceRounds, run]
        exact run'
      · rw [log', show s'.log = fired ++ s.log from log, List.append_assoc]
      · intro event queued due
        obtain again | ⟨late, now⟩ := covered event queued due
        · obtain ⟨late, started⟩ := called event again due
          exact ⟨late, List.mem_append_left _ started⟩
        · exact ⟨late, List.mem_append_right _ now⟩

/-- `Advance` makes progress exactly when no entry that is due has lost its type. -/
theorem advance_progresses_iff (live : T → Bool)
    (callback : List (Happening T) → Event T → Option Int) (thread : Nat)
    (s : CoreTiming T) (free : s.advance = none) (positive : Positive callback s) :
    Progresses live callback thread s ↔ ∀ event ∈ s.events, event.time ≤ s.clock →
      live event.type = true := by
  have standing : Standing callback s.clock { s with globalTimer := s.clock } := {
    handles := positive.handles
    periods := positive.periods
    results := positive.results
    timer := rfl
    clock := rfl }
  have start (rounds : Nat) : s.advanceIn live callback thread rounds =
      advanceRounds live callback thread rounds { s with globalTimer := s.clock } := by
    rw [advanceIn, free, if_neg (by simp)]
  constructor
  · rintro ⟨rounds, s', fired, run, -⟩ event queued due
    by_contra gone
    rw [start, standing.never_returns queued due (Bool.eq_false_iff.mpr gone)] at run
    cases run
  · intro alive
    obtain ⟨rounds, s', fired, run, log, future, called⟩ := standing.finishes alive thread
    exact ⟨rounds, s', fired, (start rounds).trans run, log, future,
      fun event queued due _ => called event queued due⟩

/-- An entry of a type that is gone before one whose type is there. -/
def abandoned : CoreTiming Bool :=
  { ((({} : CoreTiming Bool).scheduleEvent 1 false true).scheduleEvent 2 true true) with clock :=
      3 }

theorem abandoned_positive (callback : List (Happening Bool) → Event Bool → Option Int)
    (results : ∀ log (event : Event Bool) period, event.rescheduleTime ≠ 0 →
    callback log event = some period → 0 < period) : Positive callback abandoned where
  handles := by decide
  periods := by decide
  results := results

theorem not_progresses_abandoned : Positive (fun _ _ => none) abandoned ∧
    ¬ Progresses id (fun _ _ => none) 0 abandoned := by
  refine ⟨abandoned_positive _ (by simp), ?_⟩
  rintro ⟨rounds, s', fired, run, -⟩
  have standing : Standing (fun _ _ => none) 3 { abandoned with globalTimer := 3 } :=
    { abandoned_positive _ (by simp) with timer := rfl, clock := rfl }
  have queued : (⟨1, 0, false, 0, 0⟩ : Event Bool) ∈ abandoned.events := by decide
  have stuck : advanceRounds id (fun _ _ => none) 0 rounds { abandoned with globalTimer := 3 } =
    .ok none :=
    standing.never_returns queued (by decide) rfl rounds
  have start : abandoned.advanceIn id (fun _ _ => none) 0 rounds =
      advanceRounds id (fun _ _ => none) 0 rounds { abandoned with globalTimer := 3 } := rfl
  rw [start, stuck] at run
  cases run

theorem advance_progresses_iff_present : Progresses (fun _ => true) (fun _ _ => none) 0 abandoned ↔
    ∀ event ∈ abandoned.events, event.time ≤ abandoned.clock → true = true :=
  advance_progresses_iff (fun _ => true) (fun _ _ => none) 0 abandoned rfl
    (abandoned_positive _ (by simp))

end CoreTiming

end SumiEmu.Core
