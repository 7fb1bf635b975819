/-
# The queue is bounded, first in first out, and wakes whoever waits

Let the indices be counted without wrapping around. Then the slots between the read and the write
count hold what is unread, each at its number modulo the capacity, but for the value that the
consumer has just moved out and the one that the producer has just put behind them. The waiting is
that of two sides with a monitor each, whose conditions are that there is room and that something is
unread.
-/

import SumiEmu.Common.SPSCQueue
import SumiEmu.Foundations.Circle

namespace SumiEmu.Common.SPSCQueue

open Monitor SumiEmu.Circle Function Nat List

variable {T : Type*} {c : Capacity} {s s' : State T}

/-! ## Capacities -/

theorem Capacity.positive (c : Capacity) : 0 < c.slots := by
  rw [c.powerOfTwo]
  exact Nat.two_pow_pos c.bits

theorem Capacity.dvd (c : Capacity) : c.slots ∣ 2 ^ 64 := by
  rw [c.powerOfTwo]
  exact Nat.pow_dvd_pow 2 (Nat.le_of_lt c.small)

theorem Capacity.lt (c : Capacity) : c.slots < 2 ^ 64 := by
  rw [c.powerOfTwo]
  exact Nat.pow_lt_pow_right (Nat.lt_succ_self 1) c.small

theorem slot_of (c : Capacity) (n : Nat) : (BitVec.ofNat 64 n).toNat % c.slots = n % c.slots := by
  rw [BitVec.toNat_ofNat, mod_mod_of_dvd _ c.dvd]

/-! ## Phases -/

namespace Phase

variable {μ α β : Type*}

/-- The own index, as the call has loaded it. -/
def index? : Phase μ α β → Option (BitVec 64)
  | .loaded _ _ index | .locked _ _ index | .refused _ _ index | .asleep _ _ index | .woken
      _ _ index
  | .admitted _ _ index | .ready _ index | .accessed _ index => some index
  | _ => none

/-- The call has found that it may go on. -/
def Passed : Phase μ α β → Prop
  | .admitted .. | .ready .. | .accessed .. => True
  | _ => False

/-- What is in the hands of a call behind its access to the slot. -/
def item? : Phase μ α β → Option β
  | .accessed item _ => some item
  | _ => none

/-- Where a side is, for the monitor. -/
def stage : Phase μ α β → Stage
  | .locked .. => .locked
  | .refused .. => .refused
  | .asleep .. => .asleep
  | .woken .. => .woken
  | .admitted .. => .admitted
  | .published => .published
  | .notifying => .notifying
  | .notified => .notified
  | _ => .quiet

theorem wake_frame (phase : Phase μ α β) :
    phase.wake.index? = phase.index? ∧ (phase.wake.Passed ↔ phase.Passed) ∧
      phase.wake.item? = phase.item? ∧ phase.wake.stage = phase.stage.wake := by
  cases phase <;> exact ⟨rfl, Iff.rfl, rfl, rfl⟩

theorem stop_frame (phase : Phase PopMode α β) :
    phase.stop.index? = phase.index? ∧ (phase.stop.Passed ↔ phase.Passed) ∧
      phase.stop.item? = phase.item? := by
  cases phase with
  | asleep mode item index => cases mode <;> exact ⟨rfl, Iff.rfl, rfl⟩
  | _ => exact ⟨rfl, Iff.rfl, rfl⟩

end Phase

/-! ## The contents -/

/-- What the slot of a number holds, of those from the first unread one on. -/
def State.slot (s : State T) (j : Nat) : Option T :=
  if j < s.history.pushed.length then
    if j = s.history.popped.length ∧ s.consumer.item?.isSome then none else s.history.pushed[j]?
  else if j = s.history.pushed.length then s.producer.item? else none

structure Contents (c : Capacity) (s : State T) : Prop where
  writeIndex : s.writeIndex = BitVec.ofNat 64 s.history.pushed.length
  readIndex : s.readIndex = BitVec.ofNat 64 s.history.popped.length
  fifo : s.history.popped <+: s.history.pushed
  bounded : s.history.pushed.length ≤ s.history.popped.length + c.slots
  slots : ∀ j, s.history.popped.length ≤ j → j < s.history.popped.length + c.slots →
    s.data (j % c.slots) = s.slot j
  producer : ∀ index ∈ s.producer.index?, index = s.writeIndex
  consumer : ∀ index ∈ s.consumer.index?, index = s.readIndex
  room : s.producer.Passed → s.history.pushed.length < s.history.popped.length + c.slots
  unread : s.consumer.Passed → s.history.popped.length < s.history.pushed.length
  moved : ∀ item ∈ s.consumer.item?, s.history.pushed[s.history.popped.length]? = some item
  refusedPushes : ∀ n ∈ s.history.refusedPushes, n = c.slots
  refusedPops : ∀ n ∈ s.history.refusedPops, n = 0

namespace Contents

section

variable (contents : Contents c s)

include contents

theorem ordered : s.history.popped.length ≤ s.history.pushed.length := contents.fifo.length_le

/-- The distance of the indices is what is unread. -/
theorem distance :
    (s.writeIndex - s.readIndex).toNat = s.history.pushed.length - s.history.popped.length := by
  have ordered := contents.ordered
  have bounded := contents.bounded
  have small := c.lt
  rw [contents.writeIndex, contents.readIndex]
  exact toNat_sub ordered (by omega)

theorem full_iff :
    s.writeIndex - s.readIndex = BitVec.ofNat 64 c.slots ↔
      s.history.pushed.length = s.history.popped.length + c.slots := by
  have ordered := contents.ordered
  rw [← BitVec.toNat_inj, contents.distance, BitVec.toNat_ofNat, mod_eq_of_lt c.lt]
  omega

theorem empty_iff :
    s.readIndex = s.writeIndex ↔ s.history.pushed.length = s.history.popped.length := by
  have ordered := contents.ordered
  have distance := contents.distance
  constructor
  · intro same
    rw [same, BitVec.sub_self] at distance
    have zero : s.history.pushed.length - s.history.popped.length = 0 := distance.symm
    omega
  · intro same
    rw [contents.readIndex, contents.writeIndex, same]

/-- The producer goes on to another place in its program. -/
theorem withProducer {p : Phase PushMode T T} (a b : Option Side)
    (index : ∀ index ∈ p.index?, index = s.writeIndex)
    (room : p.Passed → s.history.pushed.length < s.history.popped.length + c.slots)
    (item : p.item? = s.producer.item?) :
    Contents c { s with producer := p, producerCvMutex := a, consumerCvMutex := b } where
  writeIndex := contents.writeIndex
  readIndex := contents.readIndex
  fifo := contents.fifo
  bounded := contents.bounded
  slots := fun j low high => by
    rw [State.slot]
    dsimp only
    rw [item]
    exact contents.slots j low high
  producer := index
  consumer := contents.consumer
  room := room
  unread := contents.unread
  moved := contents.moved
  refusedPushes := contents.refusedPushes
  refusedPops := contents.refusedPops

/-- The consumer goes on to another place in its program. -/
theorem withConsumer {p : Phase PopMode Unit T} (a b : Option Side) (stop : Bool)
    (index : ∀ index ∈ p.index?, index = s.readIndex)
    (unread : p.Passed → s.history.popped.length < s.history.pushed.length)
    (item : p.item? = s.consumer.item?) :
    Contents c { s with
      consumer := p, producerCvMutex := a, consumerCvMutex := b, stopRequested := stop } where
  writeIndex := contents.writeIndex
  readIndex := contents.readIndex
  fifo := contents.fifo
  bounded := contents.bounded
  slots := fun j low high => by
    rw [State.slot]
    dsimp only
    rw [item]
    exact contents.slots j low high
  producer := contents.producer
  consumer := index
  room := contents.room
  unread := unread
  moved := fun value mem => contents.moved value (item ▸ mem)
  refusedPushes := contents.refusedPushes
  refusedPops := contents.refusedPops

end

/-! ### The producer -/

variable {index : BitVec 64}

section

variable (contents : Contents c s)

include contents

/-- The slot behind the unread ones takes a value. -/
theorem construct {item : T} (here : s.producer = .ready item index) :
    s.data (index.toNat % c.slots) = none ∧
      Contents c { s with
        data := update s.data (index.toNat % c.slots) (some item)
        producer := .accessed item index } := by
  have room := contents.room (here ▸ trivial)
  have ordered := contents.ordered
  have same : index = s.writeIndex := contents.producer index (here ▸ rfl)
  have place : index.toNat % c.slots = s.history.pushed.length % c.slots := by
    rw [same, contents.writeIndex]
    exact slot_of c _
  have old := contents.slots s.history.pushed.length ordered room
  rw [State.slot, if_neg (lt_irrefl _), if_pos rfl, here] at old
  rw [place]
  refine ⟨old, contents.writeIndex, contents.readIndex, contents.fifo, contents.bounded,
    fun j low high => ?_, fun i mem => ?_, contents.consumer, fun _ => room, contents.unread,
    contents.moved, contents.refusedPushes, contents.refusedPops⟩
  · dsimp only at low high
    change update s.data (s.history.pushed.length % c.slots) (some item) (j % c.slots) = _
    rw [State.slot]
    rcases lt_trichotomy j s.history.pushed.length with lt | rfl | gt
    · have other : j % c.slots ≠ s.history.pushed.length % c.slots := mod_ne lt (by omega)
      rw [update_of_ne other, contents.slots j low high, State.slot, if_pos lt, if_pos lt]
    · rw [update_self, if_neg (lt_irrefl _), if_pos rfl]
      rfl
    · have other : j % c.slots ≠ s.history.pushed.length % c.slots := (mod_ne gt (by omega)).symm
      have later : ¬ j < s.history.pushed.length := not_lt.mpr (le_of_lt gt)
      rw [update_of_ne other, contents.slots j low high, State.slot, if_neg later, if_neg later,
        if_neg (ne_of_gt gt), if_neg (ne_of_gt gt)]
  · exact (Option.some.inj mem).symm.trans same

/-- The value behind the unread ones is one of them. -/
theorem storeWrite {item : T} (here : s.producer = .accessed item index) :
    Contents c { s with
      writeIndex := s.writeIndex + 1
      producer := .published
      history := { s.history with pushed := s.history.pushed ++ [item] } } := by
  have room := contents.room (here ▸ trivial)
  have ordered := contents.ordered
  have length : (s.history.pushed ++ [item]).length = s.history.pushed.length + 1 := length_append
  refine ⟨?_, contents.readIndex, contents.fifo.trans (prefix_append _ _), ?_,
    fun j low high => ?_, fun i mem => (by cases mem), contents.consumer, fun passed => passed.elim,
    fun passed => ?_, fun value mem => ?_, contents.refusedPushes, contents.refusedPops⟩
  · dsimp only
    rw [contents.writeIndex, length, BitVec.ofNat_add]
    rfl
  · dsimp only
    rw [length]
    exact room
  · have old := contents.slots j low high
    rw [State.slot] at old ⊢
    dsimp only at old ⊢
    rw [old, length, here]
    rcases lt_trichotomy j s.history.pushed.length with lt | rfl | gt
    · rw [if_pos lt, if_pos (lt_succ_of_lt lt), List.getElem?_append_left lt]
    · -- the value that has been constructed before
      have unmoved : ¬ (s.history.pushed.length = s.history.popped.length ∧
          s.consumer.item?.isSome = true) := by
        rintro ⟨empty, moved⟩
        obtain ⟨value, mem⟩ := Option.isSome_iff_exists.mp moved
        have found := contents.moved value mem
        rw [← empty, List.getElem?_eq_none (le_refl _)] at found
        cases found
      rw [if_neg (lt_irrefl _), if_pos rfl, if_pos (lt_succ_self _), if_neg unmoved,
        List.getElem?_append_right (Nat.le_refl _), Nat.sub_self]
      rfl
    · have later : ¬ j < s.history.pushed.length := not_lt.mpr (le_of_lt gt)
      have later' : ¬ j < s.history.pushed.length + 1 := not_lt.mpr gt
      rw [if_neg later, if_neg (ne_of_gt gt), if_neg later']
      by_cases next : j = s.history.pushed.length + 1
      · rw [if_pos next]
        rfl
      · rw [if_neg next]
  · dsimp only
    rw [length]
    exact lt_succ_of_lt (contents.unread passed)
  · have found := contents.moved value mem
    have inside := (List.getElem?_eq_some_iff.mp found).1
    dsimp only
    rw [List.getElem?_append_left inside]
    exact found

theorem refusePush {item : T} (here : s.producer = .loaded .tryNow item index)
    (full : index - s.readIndex = BitVec.ofNat 64 c.slots) :
    Contents c { s with
      producer := .idle
      history := { s.history with refusedPushes := s.history.refusedPushes ++ [s.history.unread] }
        } := by
  have same : index = s.writeIndex := contents.producer index (here ▸ rfl)
  have is_full := contents.full_iff.mp (same ▸ full)
  refine ⟨contents.writeIndex, contents.readIndex, contents.fifo, contents.bounded,
    fun j low high => ?_, fun i mem => (by cases mem), contents.consumer, fun passed => passed.elim,
    contents.unread, contents.moved, fun n mem => ?_, contents.refusedPops⟩
  · have old := contents.slots j low high
    rw [State.slot, here] at old
    exact old
  · rcases mem_append.mp mem with mem | mem
    · exact contents.refusedPushes n mem
    · rw [mem_singleton.mp mem, History.unread, is_full, Nat.add_sub_cancel_left]

/-! ### The consumer -/

/-- The first unread value is moved out of its slot. -/
theorem move (here : s.consumer = .ready () index) :
    ∃ item, s.data (index.toNat % c.slots) = some item ∧
      Contents c { s with
        data := update s.data (index.toNat % c.slots) none
        consumer := .accessed item index } := by
  have unread := contents.unread (here ▸ trivial)
  have ordered := contents.ordered
  have bounded := contents.bounded
  have positive := c.positive
  have same : index = s.readIndex := contents.consumer index (here ▸ rfl)
  have place : index.toNat % c.slots = s.history.popped.length % c.slots := by
    rw [same, contents.readIndex]
    exact slot_of c _
  have old := contents.slots s.history.popped.length (Nat.le_refl _)
    (Nat.lt_add_of_pos_right positive)
  have unmoved : ¬ (s.history.popped.length = s.history.popped.length ∧
      s.consumer.item?.isSome = true) := by
    rintro ⟨-, moved⟩
    rw [here] at moved
    cases moved
  rw [State.slot, if_pos unread, if_neg unmoved, List.getElem?_eq_getElem unread] at old
  rw [place]
  refine ⟨s.history.pushed[s.history.popped.length], old, contents.writeIndex, contents.readIndex,
    contents.fifo, contents.bounded, fun j low high => ?_, contents.producer, fun i mem => ?_,
    contents.room, fun _ => unread, fun value mem => ?_, contents.refusedPushes,
    contents.refusedPops⟩
  · change update s.data (s.history.popped.length % c.slots) none (j % c.slots) = _
    rw [State.slot]
    rcases Nat.eq_or_lt_of_le low with rfl | lt
    · rw [update_self, if_pos unread, if_pos ⟨rfl, rfl⟩]
    · have other : j % c.slots ≠ s.history.popped.length % c.slots := (mod_ne lt high).symm
      have later : ¬ (j = s.history.popped.length ∧
          (Phase.accessed (μ := PopMode) (α := Unit) s.history.pushed[s.history.popped.length]
            index).item?.isSome = true) :=
        fun first => absurd first.1 (ne_of_gt lt)
      have later' : ¬ (j = s.history.popped.length ∧ s.consumer.item?.isSome = true) :=
        fun first => absurd first.1 (ne_of_gt lt)
      rw [update_of_ne other, contents.slots j low high, State.slot, if_neg later']
      dsimp only
      rw [if_neg later]
  · exact (Option.some.inj mem).symm.trans same
  · rw [← Option.some.inj mem]
    exact List.getElem?_eq_getElem unread

/-- The value that has been moved out is no longer unread. -/
theorem storeRead {item : T} (here : s.consumer = .accessed item index) :
    Contents c { s with
      readIndex := s.readIndex + 1
      consumer := .published
      history := { s.history with popped := s.history.popped ++ [item] } } := by
  have unread := contents.unread (here ▸ trivial)
  have bounded := contents.bounded
  have positive := c.positive
  have length : (s.history.popped ++ [item]).length = s.history.popped.length + 1 := length_append
  have moved := contents.moved item (here ▸ rfl)
  refine ⟨contents.writeIndex, ?_, ?_, ?_, fun j low high => ?_, contents.producer,
    fun i mem => (by cases mem), fun passed => ?_, fun passed => passed.elim,
    fun value mem => (by cases mem), contents.refusedPushes, contents.refusedPops⟩
  · dsimp only
    rw [contents.readIndex, length, BitVec.ofNat_add]
    rfl
  · obtain ⟨rest, whole⟩ := contents.fifo
    have first : rest[0]? = some item := by
      rw [← whole, List.getElem?_append_right (Nat.le_refl _), Nat.sub_self] at moved
      exact moved
    obtain ⟨rest', rfl⟩ : ∃ rest', rest = item :: rest' := by
      cases rest with
      | nil => cases first
      | cons a rest' => exact ⟨rest', by rw [Option.some.inj first]⟩
    exact ⟨rest', by rw [← whole, append_assoc]; rfl⟩
  · dsimp only
    rw [length]
    omega
  · dsimp only at low high
    rw [length] at low high
    rw [State.slot]
    dsimp only
    have idle : ¬ (j = (s.history.popped ++ [item]).length ∧
        (Phase.published (μ := PopMode) (α := Unit) (β := T)).item?.isSome = true) := by
      rintro ⟨-, moved⟩
      cases moved
    rw [if_neg idle]
    by_cases last : j = s.history.popped.length + c.slots
    · -- the slot comes round again behind the others
      have old := contents.slots s.history.popped.length (Nat.le_refl _)
        (Nat.lt_add_of_pos_right positive)
      rw [State.slot, if_pos unread, here, if_pos ⟨rfl, rfl⟩] at old
      rw [last, add_mod_right, old, if_neg (not_lt.mpr bounded)]
      by_cases full : s.history.popped.length + c.slots = s.history.pushed.length
      · rw [if_pos full]
        cases written : s.producer.item? with
        | none => rfl
        | some value =>
          have passed : s.producer.Passed := by
            cases phase : s.producer with
            | accessed item index => trivial
            | _ =>
              rw [phase] at written
              cases written
          exact absurd (contents.room passed) (by omega)
      · rw [if_neg full]
    · have old := contents.slots j (le_of_succ_le low) (by omega)
      have other : ¬ (j = s.history.popped.length ∧ s.consumer.item?.isSome = true) :=
        fun first => absurd first.1 (ne_of_gt low)
      rw [old, State.slot, if_neg other]
  · dsimp only
    rw [length]
    have room := contents.room passed
    omega

theorem refusePop (here : s.consumer = .loaded .tryNow () index)
    (empty : index = s.writeIndex) :
    Contents c { s with
      consumer := .idle
      history := { s.history with refusedPops := s.history.refusedPops ++ [s.history.unread] }
        } := by
  have same : index = s.readIndex := contents.consumer index (here ▸ rfl)
  have is_empty := contents.empty_iff.mp (same ▸ empty)
  refine ⟨contents.writeIndex, contents.readIndex, contents.fifo, contents.bounded,
    fun j low high => ?_, contents.producer, fun i mem => (by cases mem), contents.room,
    fun passed => passed.elim, fun value mem => (by cases mem), contents.refusedPushes,
    fun n mem => ?_⟩
  · have old := contents.slots j low high
    rw [State.slot, here] at old
    exact old
  · rcases mem_append.mp mem with mem | mem
    · exact contents.refusedPops n mem
    · rw [mem_singleton.mp mem, History.unread, is_empty, Nat.sub_self]

end

end Contents

/-! ## The waiting -/

/-- Where a side of the queue is. -/
def State.stageOf (s : State T) : Side → Stage
  | .first => s.producer.stage
  | .second => s.consumer.stage

/-- Who has the mutex of a side. -/
def State.mutexOf (s : State T) : Side → Option Side
  | .first => s.producerCvMutex
  | .second => s.consumerCvMutex

/-- The producer waits for room, the consumer for something unread. -/
def State.may (c : Capacity) (s : State T) : Side → Prop
  | .first => s.history.pushed.length < s.history.popped.length + c.slots
  | .second => s.history.popped.length < s.history.pushed.length

/-- The queue as a monitor. -/
def State.monitor (c : Capacity) (s : State T) : Monitor.State := ⟨s.stageOf, s.mutexOf, s.may c⟩

theorem monitor_eq {m : Monitor.State} (producer : s.producer.stage = m.stage .first)
    (consumer : s.consumer.stage = m.stage .second)
    (producerCvMutex : s.producerCvMutex = m.mutex .first)
    (consumerCvMutex : s.consumerCvMutex = m.mutex .second) (may : s.may c = m.may) :
    s.monitor c = m := by
  obtain ⟨stage, mutex, conditions⟩ := m
  obtain rfl : s.stageOf = stage := by
    funext x
    cases x
    · exact producer
    · exact consumer
  obtain rfl : s.mutexOf = mutex := by
    funext x
    cases x
    · exact producerCvMutex
    · exact consumerCvMutex
  rw [State.monitor, may]

/-- A step leaves the monitors alone, or is one of theirs. -/
def Moves (c : Capacity) (s s' : State T) : Prop :=
  s'.monitor c = s.monitor c ∨ ∃ x, Move (s.monitor c) x (s'.monitor c)

theorem Moves.of {x : Side} {m : Monitor.State} (move : Move (s.monitor c) x m)
    (same : s'.monitor c = m) : Moves c s s' := Or.inr ⟨x, same ▸ move⟩

section

variable (contents : Contents c s)

include contents

theorem Contents.emplace (taken : SPSCQueue.emplace c.slots s = some s') :
    Contents c s' ∧ Moves c s s' := by
  have known : ∀ index ∈ s.producer.index?, index = s.writeIndex := contents.producer
  rw [SPSCQueue.emplace] at taken
  cases here : s.producer with
  | idle =>
    rw [here] at taken
    cases taken
  | asleep mode item index =>
    rw [here] at taken
    cases taken
  | loaded mode item index =>
    rw [here] at taken known
    cases mode with
    | tryNow =>
      dsimp only at taken
      split at taken
      · rename_i full
        cases taken
        exact ⟨contents.refusePush here full,
          Or.inl (monitor_eq (congrArg Phase.stage here).symm rfl rfl rfl rfl)⟩
      · rename_i room
        cases taken
        have same : index = s.writeIndex := known index rfl
        rw [same, contents.full_iff] at room
        have bounded := contents.bounded
        refine ⟨contents.withProducer _ _ known (fun _ => by omega) (here ▸ rfl),
          Or.inl (monitor_eq (congrArg Phase.stage here).symm rfl rfl rfl rfl)⟩
    | wait =>
      dsimp only at taken
      split at taken
      · rename_i free
        cases taken
        refine ⟨contents.withProducer _ _ known (fun passed => passed.elim) (here ▸ rfl), ?_⟩
        exact Moves.of (.lock (x := .first) (Or.inl (congrArg Phase.stage here)) free)
          (monitor_eq rfl rfl rfl rfl rfl)
      · cases taken
  | locked mode item index =>
    rw [here] at taken known
    have same : index = s.writeIndex := known index rfl
    have distance := contents.distance
    have was : (s.monitor c).stage .first = .locked := congrArg Phase.stage here
    dsimp only at taken
    rw [same, distance] at taken
    split at taken
    · rename_i room
      cases taken
      refine ⟨contents.withProducer _ _ (fun i mem => (Option.some.inj mem).symm)
        (fun _ => by omega) (here ▸ rfl), ?_⟩
      exact Moves.of (.letIn was) (monitor_eq rfl rfl rfl rfl rfl)
    · rename_i full
      cases taken
      refine ⟨contents.withProducer _ _ (fun i mem => (Option.some.inj mem).symm)
        (fun passed => passed.elim) (here ▸ rfl), ?_⟩
      have not_yet : ¬ s.may c .first := by
        have ordered := contents.ordered
        rw [State.may]
        omega
      exact Moves.of (.refuse was not_yet) (monitor_eq rfl rfl rfl rfl rfl)
  | refused mode item index =>
    rw [here] at taken known
    cases taken
    refine ⟨contents.withProducer _ _ known (fun passed => passed.elim) (here ▸ rfl), ?_⟩
    exact Moves.of (.sleep (x := .first) (congrArg Phase.stage here))
      (monitor_eq rfl rfl rfl rfl rfl)
  | woken mode item index =>
    rw [here] at taken known
    dsimp only at taken
    split at taken
    · rename_i free
      cases taken
      refine ⟨contents.withProducer _ _ known (fun passed => passed.elim) (here ▸ rfl), ?_⟩
      exact Moves.of (.lock (x := .first) (Or.inr (congrArg Phase.stage here)) free)
        (monitor_eq rfl rfl rfl rfl rfl)
    · cases taken
  | admitted mode item index =>
    have room := contents.room (here ▸ trivial)
    rw [here] at taken known
    cases taken
    refine ⟨contents.withProducer _ _ known (fun _ => room) (here ▸ rfl), ?_⟩
    exact Moves.of (.leave (x := .first) (Or.inl (congrArg Phase.stage here)))
      (monitor_eq rfl rfl rfl rfl rfl)
  | ready item index =>
    rw [here] at taken
    cases taken
    exact ⟨(contents.construct here).2,
      Or.inl (monitor_eq (congrArg Phase.stage here).symm rfl rfl rfl rfl)⟩
  | accessed item index =>
    rw [here] at taken
    cases taken
    refine ⟨contents.storeWrite here, ?_⟩
    exact Moves.of (.publish _ (x := .first) (congrArg Phase.stage here))
      (monitor_eq rfl rfl rfl rfl rfl)
  | published =>
    rw [here] at taken
    dsimp only at taken
    split at taken
    · rename_i free
      cases taken
      refine ⟨contents.withProducer _ _ (fun i mem => (by cases mem)) (fun passed => passed.elim)
        (here ▸ rfl), ?_⟩
      exact Moves.of (.claim (x := .first) (congrArg Phase.stage here) free)
        (monitor_eq rfl rfl rfl rfl rfl)
    · cases taken
  | notifying =>
    rw [here] at taken
    cases taken
    obtain ⟨index, passed, item, stage⟩ := s.consumer.wake_frame
    have next := contents.withProducer (p := .notified) s.producerCvMutex s.consumerCvMutex
      (fun i mem => (by cases mem))
      (fun passed => passed.elim) (here ▸ rfl)
    refine ⟨next.withConsumer _ _ _ (index ▸ contents.consumer)
      (fun p => contents.unread (passed.mp p)) item, ?_⟩
    exact Moves.of (.notify (x := .first) (congrArg Phase.stage here))
      (monitor_eq rfl stage rfl rfl rfl)
  | notified =>
    rw [here] at taken
    cases taken
    refine ⟨contents.withProducer _ _ (fun i mem => (by cases mem)) (fun passed => passed.elim)
      (here ▸ rfl), ?_⟩
    exact Moves.of (.unlock (x := .first) (congrArg Phase.stage here))
      (monitor_eq rfl rfl rfl rfl rfl)

theorem Contents.pop (taken : SPSCQueue.pop c.slots s = some s') :
    Contents c s' ∧ Moves c s s' := by
  have known : ∀ index ∈ s.consumer.index?, index = s.readIndex := contents.consumer
  rw [SPSCQueue.pop] at taken
  cases here : s.consumer with
  | idle =>
    rw [here] at taken
    cases taken
  | asleep mode item index =>
    rw [here] at taken
    cases taken
  | loaded mode item index =>
    rw [here] at taken known
    have same : index = s.readIndex := known index rfl
    have waits (locks : (if s.consumerCvMutex = none then
        some { s with consumerCvMutex := some consumerSide, consumer := .locked mode item index }
          else none) = some s') : Contents c s' ∧ Moves c s s' := by
      split at locks
      · rename_i free
        cases locks
        refine ⟨contents.withConsumer _ _ _ known (fun passed => passed.elim) (here ▸ rfl), ?_⟩
        exact Moves.of (.lock (x := .second) (Or.inl (congrArg Phase.stage here)) free)
          (monitor_eq rfl rfl rfl rfl rfl)
      · cases locks
    cases mode with
    | tryNow =>
      dsimp only at taken
      split at taken
      · rename_i empty
        cases taken
        exact ⟨contents.refusePop here empty,
          Or.inl (monitor_eq rfl (congrArg Phase.stage here).symm rfl rfl rfl)⟩
      · rename_i unread
        cases taken
        rw [same, contents.empty_iff] at unread
        have ordered := contents.ordered
        exact ⟨contents.withConsumer _ _ _ known (fun _ => by omega) (here ▸ rfl),
          Or.inl (monitor_eq rfl (congrArg Phase.stage here).symm rfl rfl rfl)⟩
    | wait => exact waits taken
    | waitWithStopToken => exact waits taken
  | locked mode item index =>
    rw [here] at taken known
    have same : index = s.readIndex := known index rfl
    have ordered := contents.ordered
    have was : (s.monitor c).stage .second = .locked := congrArg Phase.stage here
    dsimp only at taken
    rw [same] at taken
    split at taken
    · rename_i unread
      cases taken
      rw [ne_eq, contents.empty_iff] at unread
      refine ⟨contents.withConsumer _ _ _ (fun i mem => (Option.some.inj mem).symm)
        (fun _ => by omega) (here ▸ rfl), ?_⟩
      exact Moves.of (.letIn was) (monitor_eq rfl rfl rfl rfl rfl)
    · rename_i empty
      cases taken
      rw [ne_eq, not_not, contents.empty_iff] at empty
      refine ⟨contents.withConsumer _ _ _ (fun i mem => (Option.some.inj mem).symm)
        (fun passed => passed.elim) (here ▸ rfl), ?_⟩
      have not_yet : ¬ s.may c .second := by
        rw [State.may]
        omega
      exact Moves.of (.refuse was not_yet) (monitor_eq rfl rfl rfl rfl rfl)
  | refused mode item index =>
    have was : (s.monitor c).stage .second = .refused := congrArg Phase.stage here
    rw [here] at taken known
    dsimp only at taken
    split at taken
    · cases taken
      refine ⟨contents.withConsumer _ _ _ (fun i mem => (by cases mem)) (fun passed => passed.elim)
        (here ▸ rfl), ?_⟩
      exact Moves.of (.leave (Or.inr was)) (monitor_eq rfl rfl rfl rfl rfl)
    · cases taken
      refine ⟨contents.withConsumer _ _ _ known (fun passed => passed.elim) (here ▸ rfl), ?_⟩
      exact Moves.of (.sleep was) (monitor_eq rfl rfl rfl rfl rfl)
  | woken mode item index =>
    rw [here] at taken known
    dsimp only at taken
    split at taken
    · rename_i free
      cases taken
      refine ⟨contents.withConsumer _ _ _ known (fun passed => passed.elim) (here ▸ rfl), ?_⟩
      exact Moves.of (.lock (x := .second) (Or.inr (congrArg Phase.stage here)) free)
        (monitor_eq rfl rfl rfl rfl rfl)
    · cases taken
  | admitted mode item index =>
    have unread := contents.unread (here ▸ trivial)
    have was : (s.monitor c).stage .second = .admitted := congrArg Phase.stage here
    rw [here] at taken known
    dsimp only at taken
    split at taken
    · cases taken
      refine ⟨contents.withConsumer _ _ _ (fun i mem => (by cases mem)) (fun passed => passed.elim)
        (here ▸ rfl), ?_⟩
      exact Moves.of (.leave (Or.inl was)) (monitor_eq rfl rfl rfl rfl rfl)
    · cases taken
      refine ⟨contents.withConsumer _ _ _ known (fun _ => unread) (here ▸ rfl), ?_⟩
      exact Moves.of (.leave (Or.inl was)) (monitor_eq rfl rfl rfl rfl rfl)
  | ready item index =>
    obtain ⟨value, found, next⟩ := contents.move here
    rw [here] at taken
    dsimp only at taken
    rw [found] at taken
    cases taken
    exact ⟨next, Or.inl (monitor_eq rfl (congrArg Phase.stage here).symm rfl rfl rfl)⟩
  | accessed item index =>
    rw [here] at taken
    cases taken
    refine ⟨contents.storeRead here, ?_⟩
    exact Moves.of (.publish _ (x := .second) (congrArg Phase.stage here))
      (monitor_eq rfl rfl rfl rfl rfl)
  | published =>
    rw [here] at taken
    dsimp only at taken
    split at taken
    · rename_i free
      cases taken
      refine ⟨contents.withConsumer _ _ _ (fun i mem => (by cases mem)) (fun passed => passed.elim)
        (here ▸ rfl), ?_⟩
      exact Moves.of (.claim (x := .second) (congrArg Phase.stage here) free)
        (monitor_eq rfl rfl rfl rfl rfl)
    · cases taken
  | notifying =>
    rw [here] at taken
    cases taken
    obtain ⟨index, passed, item, stage⟩ := s.producer.wake_frame
    have next := contents.withConsumer (p := .notified) s.producerCvMutex s.consumerCvMutex
      s.stopRequested (fun i mem => (by cases mem)) (fun passed => passed.elim) (here ▸ rfl)
    refine ⟨next.withProducer _ _ (index ▸ contents.producer) (fun p => contents.room (passed.mp p))
      item, ?_⟩
    exact Moves.of (.notify (x := .second) (congrArg Phase.stage here))
      (monitor_eq stage rfl rfl rfl rfl)
  | notified =>
    rw [here] at taken
    cases taken
    refine ⟨contents.withConsumer _ _ _ (fun i mem => (by cases mem)) (fun passed => passed.elim)
      (here ▸ rfl), ?_⟩
    exact Moves.of (.unlock (x := .second) (congrArg Phase.stage here))
      (monitor_eq rfl rfl rfl rfl rfl)

/-! ## Runs -/

theorem Contents.requestStop :
    Contents c { s with stopRequested := true, consumer := s.consumer.stop } ∧
      Moves c s { s with stopRequested := true, consumer := s.consumer.stop } := by
  obtain ⟨index, passed, item⟩ := s.consumer.stop_frame
  refine ⟨contents.withConsumer _ _ _ (index ▸ contents.consumer)
    (fun p => contents.unread (passed.mp p)) item, ?_⟩
  cases here : s.consumer with
  | asleep mode token index =>
    cases mode with
    | waitWithStopToken =>
      exact Moves.of (.wake (x := .second) (congrArg Phase.stage here))
        (monitor_eq rfl rfl rfl rfl rfl)
    | _ => exact Or.inl (monitor_eq rfl (congrArg Phase.stage here).symm rfl rfl rfl)
  | _ => exact Or.inl (monitor_eq rfl (congrArg Phase.stage here).symm rfl rfl rfl)

theorem Contents.step {action : Action T} (taken : SPSCQueue.step c.slots s action = some s') :
    Contents c s' ∧ Moves c s s' := by
  cases action with
  | beginEmplace mode item =>
    rw [SPSCQueue.step] at taken
    split at taken
    · rename_i here
      cases taken
      exact ⟨contents.withProducer _ _ (fun i mem => (Option.some.inj mem).symm)
        (fun passed => passed.elim) (here ▸ rfl),
        Or.inl (monitor_eq (congrArg Phase.stage here).symm rfl rfl rfl rfl)⟩
    · cases taken
  | emplace => exact contents.emplace taken
  | wakeProducer =>
    rw [SPSCQueue.step] at taken
    split at taken
    · rename_i mode item index here
      cases taken
      refine ⟨contents.withProducer _ _ (fun i mem => contents.producer i (here ▸ mem))
        (fun passed => passed.elim) (here ▸ rfl), ?_⟩
      exact Moves.of (.wake (x := .first) (congrArg Phase.stage here))
        (monitor_eq rfl rfl rfl rfl rfl)
    · cases taken
  | beginPop mode stopRequested =>
    rw [SPSCQueue.step] at taken
    split at taken
    · rename_i here
      cases taken
      exact ⟨contents.withConsumer _ _ _ (fun i mem => (Option.some.inj mem).symm)
          (fun passed => passed.elim)
          (here ▸ rfl),
        Or.inl (monitor_eq rfl (congrArg Phase.stage here).symm rfl rfl rfl)⟩
    · cases taken
  | pop => exact contents.pop taken
  | wakeConsumer =>
    rw [SPSCQueue.step] at taken
    split at taken
    · rename_i mode item index here
      cases taken
      refine ⟨contents.withConsumer _ _ _ (fun i mem => contents.consumer i (here ▸ mem))
        (fun passed => passed.elim) (here ▸ rfl), ?_⟩
      exact Moves.of (.wake (x := .second) (congrArg Phase.stage here))
        (monitor_eq rfl rfl rfl rfl rfl)
    · cases taken
  | requestStop =>
    cases taken
    exact contents.requestStop

end

theorem contents_start (c : Capacity) : Contents c ({} : State T) where
  writeIndex := rfl
  readIndex := rfl
  fifo := prefix_rfl
  bounded := zero_le _
  slots := fun j _ _ => by
    rw [State.slot]
    change none = if j < 0 then _ else _
    rw [if_neg (not_lt_zero j)]
    split
    · rfl
    · rfl
  producer := fun i mem => by cases mem
  consumer := fun i mem => by cases mem
  room := fun passed => passed.elim
  unread := fun passed => passed.elim
  moved := fun item mem => by cases mem
  refusedPushes := fun n mem => by cases mem
  refusedPops := fun n mem => by cases mem

theorem kept_start (c : Capacity) : (({} : State T).monitor c).Kept := by
  refine State.kept_of .first ?_
  constructor
  all_goals simp [State.monitor, State.stageOf, State.mutexOf, Phase.stage, Stage.HoldsOwn,
    Stage.HoldsOther, Side.other]

theorem Reached.kept (reached : Reached c.slots s) : Contents c s ∧ (s.monitor c).Kept := by
  induction reached with
  | start => exact ⟨contents_start c, kept_start c⟩
  | step action _ taken ih =>
    obtain ⟨contents, kept⟩ := ih
    obtain ⟨next, moves⟩ := contents.step taken
    refine ⟨next, ?_⟩
    rcases moves with same | ⟨x, move⟩
    · exact same ▸ kept
    · exact kept.move move

/-! ## Requests to stop -/

/-- A consumer that waits with a token does not sleep through a request to stop. -/
def Attentive (s : State T) : Prop :=
  ∀ item index, s.consumer = .asleep .waitWithStopToken item index → s.stopRequested = false

variable {slots : Nat}

theorem emplace_frame (taken : emplace slots s = some s') :
    s'.stopRequested = s.stopRequested ∧
      (s'.consumer = s.consumer ∨ s'.consumer = s.consumer.wake) := by
  rw [emplace] at taken
  split at taken
  all_goals first
    | cases taken
      done
    | cases taken
      exact ⟨rfl, Or.inl rfl⟩
    | cases taken
      exact ⟨rfl, Or.inr rfl⟩
    | split at taken
      · cases taken
        exact ⟨rfl, Or.inl rfl⟩
      · cases taken
        try exact ⟨rfl, Or.inl rfl⟩

theorem Phase.wake_ne_asleep {μ α β : Type*} (phase : Phase μ α β) (mode : μ) (item : α)
    (index : BitVec 64) : phase.wake ≠ .asleep mode item index := by
  cases phase
  all_goals
    intro same
    cases same

theorem Phase.stop_ne_asleep {α β : Type*} (phase : Phase PopMode α β) (item : α)
    (index : BitVec 64) : phase.stop ≠ .asleep .waitWithStopToken item index := by
  intro same
  cases phase with
  | asleep mode item index => cases mode <;> cases same
  | _ => cases same

theorem Attentive.pop (taken : SPSCQueue.pop slots s = some s') : Attentive s' := by
  intro item index asleep
  rw [SPSCQueue.pop] at taken
  split at taken
  case h_5 mode item index here =>
    -- the only way to sleep: no stop was requested with the mutex held
    split at taken
    · cases taken
      cases asleep
    · rename_i go_on
      cases taken
      cases asleep
      cases requested : s.stopRequested
      · rfl
      · exact absurd ⟨rfl, requested⟩ go_on
  all_goals first
    | cases taken
      done
    | cases taken
      cases asleep
    | split at taken
      · cases taken
        cases asleep
      · cases taken
        try cases asleep

theorem Attentive.step {action : Action T} (attentive : Attentive s)
    (taken : SPSCQueue.step slots s action = some s') : Attentive s' := by
  cases action with
  | emplace =>
    obtain ⟨stop, same | woken⟩ := emplace_frame taken
    · intro item index asleep
      exact stop.trans (attentive item index (same ▸ asleep))
    · intro item index asleep
      exact absurd (woken ▸ asleep) (s.consumer.wake_ne_asleep _ _ _)
  | pop => exact Attentive.pop taken
  | requestStop =>
    cases taken
    intro item index asleep
    exact absurd asleep (s.consumer.stop_ne_asleep _ _)
  | beginEmplace mode item =>
    rw [SPSCQueue.step] at taken
    split at taken
    · cases taken
      exact attentive
    · cases taken
  | wakeProducer =>
    rw [SPSCQueue.step] at taken
    split at taken
    · cases taken
      exact attentive
    · cases taken
  | beginPop mode stopRequested =>
    rw [SPSCQueue.step] at taken
    split at taken
    · cases taken
      intro item index asleep
      cases asleep
    · cases taken
  | wakeConsumer =>
    rw [SPSCQueue.step] at taken
    split at taken
    · cases taken
      intro item index asleep
      cases asleep
    · cases taken

theorem Reached.attentive (reached : Reached slots s) : Attentive s := by
  induction reached with
  | start =>
    intro item index asleep
    cases asleep
  | step action _ taken ih => exact ih.step taken

/-! ## The queue -/

/-- What holds of the queue in every state that the two sides reach. -/
structure BoundedFifo (capacity : Nat) (s : State T) : Prop where
  fifo : s.history.popped <+: s.history.pushed
  bounded : s.history.unread ≤ capacity
  /-- The producer only writes to a slot that is not unread, … -/
  vacant : ∀ item index, s.producer = .ready item index → s.data (index.toNat % capacity) = none
  /-- … and the consumer only reads what has been written there, which is the next value in line. -/
  written : ∀ item index, s.consumer = .ready item index →
    ∃ value, s.data (index.toNat % capacity) = some value ∧
    s.history.pushed[s.history.popped.length]? = some value
  refusedPushes : ∀ unread ∈ s.history.refusedPushes, unread = capacity
  refusedPops : ∀ unread ∈ s.history.refusedPops, unread = 0
  /-- While a side sleeps before a condition that holds, the other is about to notify it. -/
  producerNotified : ∀ mode item index, s.producer = .asleep mode item index →
    (index - s.readIndex).toNat < capacity → s.consumer = .published ∨ s.consumer = .notifying
  consumerNotified : ∀ mode item index, s.consumer = .asleep mode item index →
    index ≠ s.writeIndex → s.producer = .published ∨ s.producer = .notifying
  stopNoticed : ∀ item index, s.consumer = .asleep .waitWithStopToken item index →
    s.stopRequested = false

namespace Phase

variable {μ α β : Type*}

theorem eq_of_stage_published {phase : Phase μ α β} (here : phase.stage = .published) :
    phase = .published := by
  cases phase <;> first | rfl | cases here

theorem eq_of_stage_notifying {phase : Phase μ α β} (here : phase.stage = .notifying) :
    phase = .notifying := by
  cases phase <;> first | rfl | cases here

end Phase

theorem Reached.boundedFifo (reached : Reached c.slots s) : BoundedFifo c.slots s := by
  obtain ⟨contents, kept⟩ := reached.kept
  have ordered := contents.ordered
  constructor
  case fifo => exact contents.fifo
  case bounded =>
    rw [History.unread]
    exact Nat.sub_le_iff_le_add'.mpr contents.bounded
  case vacant =>
    intro item index here
    exact (contents.construct here).1
  case written =>
    intro item index here
    obtain ⟨value, held, next⟩ := contents.move here
    exact ⟨value, held, next.moved value rfl⟩
  case refusedPushes => exact contents.refusedPushes
  case refusedPops => exact contents.refusedPops
  case producerNotified =>
    intro mode item index here room
    have same : index = s.writeIndex := contents.producer index (here ▸ rfl)
    have asleep : (s.monitor c).stage .first = .asleep := congrArg Phase.stage here
    have may : (s.monitor c).may .first := by
      rw [same, contents.distance] at room
      change s.history.pushed.length < s.history.popped.length + c.slots
      omega
    exact (kept.no_lost_notification asleep may).imp Phase.eq_of_stage_published
      Phase.eq_of_stage_notifying
  case consumerNotified =>
    intro mode item index here unread
    have same : index = s.readIndex := contents.consumer index (here ▸ rfl)
    have asleep : (s.monitor c).stage .second = .asleep := congrArg Phase.stage here
    have may : (s.monitor c).may .second := by
      rw [same, ne_eq, contents.empty_iff] at unread
      change s.history.popped.length < s.history.pushed.length
      omega
    exact (kept.no_lost_notification asleep may).imp Phase.eq_of_stage_published
      Phase.eq_of_stage_notifying
  case stopNoticed => exact reached.attentive

/-- A queue of two slots is filled, and a third value is refused. -/
def filling : List (Action Nat) :=
  [.beginEmplace .tryNow 5, .emplace, .emplace, .emplace, .emplace, .emplace, .emplace,
    .beginEmplace .wait 7, .emplace, .emplace, .emplace, .emplace, .emplace, .emplace, .emplace,
    .emplace, .beginEmplace .tryNow 9, .emplace]

/-- The state after some actions. -/
def run {T : Type*} (capacity : Nat) (actions : List (Action T)) (s : State T) : Option (State T) :=
  actions.foldlM (step capacity) s

theorem reached_of_run {actions : List (Action T)} (reached : Reached slots s)
    (taken : run slots actions s = some s') : Reached slots s' := by
  induction actions generalizing s with
  | nil =>
    cases taken
    exact reached
  | cons action actions ih =>
    rw [run, foldlM_cons] at taken
    cases first : step slots s action with
    | none =>
      rw [first] at taken
      cases taken
    | some s₁ =>
      rw [first] at taken
      exact ih (.step action reached first) taken

theorem boundedFifo_filling : ∃ s : State Nat, run 2 filling {} = some s ∧
    s.history.pushed = [5, 7] ∧ s.history.refusedPushes = [2] ∧ BoundedFifo 2 s := by
  have filled : ∃ s : State Nat, run 2 filling {} = some s ∧
      s.history.pushed = [5, 7] ∧ s.history.refusedPushes = [2] := ⟨_, rfl, rfl, rfl⟩
  obtain ⟨s, taken, pushed, refused⟩ := filled
  have reached : Reached (Capacity.mk 2 1 (by decide) rfl).slots s := reached_of_run .start taken
  exact ⟨s, taken, pushed, refused, reached.boundedFifo⟩

end SumiEmu.Common.SPSCQueue
