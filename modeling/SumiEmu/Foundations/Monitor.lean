/-
# Two sides that wait for each other

Each side has a condition it waits for, a mutex and a condition variable. It evaluates its
condition under its mutex, and goes to sleep without letting go of the mutex in between. What makes
the condition of the other side true is done under no mutex at all; but then the mutex of the other
side is taken, and the other side is notified under it. So no side sleeps through its condition.
-/

import Mathlib.Logic.Function.Basic

namespace SumiEmu.Monitor

open Function

/-- One of the two sides. -/
inductive Side
  | first
  | second
  deriving DecidableEq

/-- The other side. -/
def Side.other : Side → Side
  | .first => .second
  | .second => .first

@[simp] theorem Side.other_other (x : Side) : x.other.other = x := by cases x <;> rfl

theorem Side.other_ne (x : Side) : x.other ≠ x := by
  cases x
  · intro same
    cases same
  · intro same
    cases same

theorem Side.eq_or_eq_other (x y : Side) : y = x ∨ y = x.other := by
  cases x <;> cases y
  · exact Or.inl rfl
  · exact Or.inr rfl
  · exact Or.inr rfl
  · exact Or.inl rfl

/-- Where a side is: about its own business, on the way to its condition or asleep before it, or
about to notify the other side. -/
inductive Stage
  | quiet
  | locked
  | refused
  | asleep
  | woken
  | admitted
  | published
  | notifying
  | notified
  deriving DecidableEq

namespace Stage

/-- The stages in which a side has its own mutex. -/
def HoldsOwn (stage : Stage) : Prop := stage = locked ∨ stage = refused ∨ stage = admitted

/-- The stages in which a side has the mutex of the other one. -/
def HoldsOther (stage : Stage) : Prop := stage = notifying ∨ stage = notified

/-- A notification reaches a side that is asleep. -/
def wake : Stage → Stage
  | asleep => woken
  | stage => stage

theorem wake_of_ne {stage : Stage} (awake : stage ≠ asleep) : stage.wake = stage := by
  cases stage <;> first | rfl | exact absurd rfl awake

theorem wake_ne_asleep (stage : Stage) : stage.wake ≠ asleep := by cases stage <;> decide

end Stage

/-- A monitor of two sides. -/
structure State where
  stage : Side → Stage
  mutex : Side → Option Side
  /-- The condition that a side waits for. -/
  may : Side → Prop

namespace State

/-- A side goes on to a stage. -/
def enter (m : State) (x : Side) (stage : Stage) : State :=
  { m with stage := update m.stage x stage }

/-- A side takes a mutex. -/
def acquire (m : State) (k x : Side) : State := { m with mutex := update m.mutex k (some x) }

/-- A mutex is given back. -/
def release (m : State) (k : Side) : State := { m with mutex := update m.mutex k none }

variable {m m' : State} {x y k : Side} {stage : Stage}

@[simp] theorem enter_stage_self : (m.enter x stage).stage x = stage := update_self _ _ _

@[simp] theorem enter_stage_other : (m.enter x stage).stage x.other = m.stage x.other :=
  update_of_ne x.other_ne _ _

@[simp] theorem enter_other_stage : (m.enter x.other stage).stage x = m.stage x :=
  update_of_ne x.other_ne.symm _ _

@[simp] theorem enter_mutex : (m.enter x stage).mutex = m.mutex := rfl

@[simp] theorem enter_may : (m.enter x stage).may = m.may := rfl

@[simp] theorem acquire_stage : (m.acquire k x).stage = m.stage := rfl

@[simp] theorem acquire_may : (m.acquire k x).may = m.may := rfl

@[simp] theorem acquire_mutex_self : (m.acquire k x).mutex k = some x := update_self _ _ _

@[simp] theorem acquire_mutex_other : (m.acquire k x).mutex k.other = m.mutex k.other :=
  update_of_ne k.other_ne _ _

@[simp] theorem acquire_other_mutex : (m.acquire k.other x).mutex k = m.mutex k :=
  update_of_ne k.other_ne.symm _ _

@[simp] theorem release_stage : (m.release k).stage = m.stage := rfl

@[simp] theorem release_may : (m.release k).may = m.may := rfl

@[simp] theorem release_mutex_self : (m.release k).mutex k = none := update_self _ _ _

@[simp] theorem release_mutex_other : (m.release k).mutex k.other = m.mutex k.other :=
  update_of_ne k.other_ne _ _

@[simp] theorem release_other_mutex : (m.release k.other).mutex k = m.mutex k :=
  update_of_ne k.other_ne.symm _ _

end State

/-- The steps of a side. Only what is published changes a condition. -/
inductive Move (m : State) (x : Side) : State → Prop
  | lock (was : m.stage x = .quiet ∨ m.stage x = .woken) (free : m.mutex x = none) :
      Move m x ((m.acquire x x).enter x .locked)
  | letIn (was : m.stage x = .locked) : Move m x (m.enter x .admitted)
  | refuse (was : m.stage x = .locked) (not_yet : ¬ m.may x) : Move m x (m.enter x .refused)
  | sleep (was : m.stage x = .refused) : Move m x ((m.release x).enter x .asleep)
  | wake (was : m.stage x = .asleep) : Move m x (m.enter x .woken)
  | leave (was : m.stage x = .admitted ∨ m.stage x = .refused) : Move m x
      ((m.release x).enter x .quiet)
  | publish (may : Side → Prop) (was : m.stage x = .quiet) :
      Move m x { m.enter x .published with may }
  | claim (was : m.stage x = .published) (free : m.mutex x.other = none) :
      Move m x ((m.acquire x.other x).enter x .notifying)
  | notify (was : m.stage x = .notifying) :
      Move m x ((m.enter x .notified).enter x.other (m.stage x.other).wake)
  | unlock (was : m.stage x = .notified) : Move m x ((m.release x.other).enter x .quiet)

/-- What two sides keep to, seen from one of them: the mutexes are with the sides that the stages
name, and a side that is asleep before a condition that holds is about to be notified. -/
structure Fits (x : Side) (here there : Stage) (mine theirs : Option Side) (may mayOther : Prop) :
    Prop where
  own : mine = some x ↔ here.HoldsOwn
  other : theirs = some x ↔ here.HoldsOther
  theirOwn : theirs = some x.other ↔ there.HoldsOwn
  theirOther : mine = some x.other ↔ there.HoldsOther
  refused : here = .refused → may → there = .published
  asleep : here = .asleep → may → there = .published ∨ there = .notifying
  theirRefused : there = .refused → mayOther → here = .published
  theirAsleep : there = .asleep → mayOther → here = .published ∨ here = .notifying

def State.Kept (m : State) : Prop :=
  ∀ x : Side, Fits x (m.stage x) (m.stage x.other) (m.mutex x) (m.mutex x.other) (m.may x)
    (m.may x.other)

namespace Fits

variable {x : Side} {here there : Stage} {mine theirs : Option Side}
    {may mayOther may' mayOther' : Prop}

theorem symm (fits : Fits x here there mine theirs may mayOther) :
    Fits x.other there here theirs mine mayOther may where
  own := fits.theirOwn
  other := fits.theirOther
  theirOwn := by
    rw [Side.other_other]
    exact fits.own
  theirOther := by
    rw [Side.other_other]
    exact fits.other
  refused := fits.theirRefused
  asleep := fits.theirAsleep
  theirRefused := fits.refused
  theirAsleep := fits.asleep

theorem lock (fits : Fits x here there none theirs may mayOther)
    (was : here = .quiet ∨ here = .woken) : Fits x .locked there (some x) theirs may mayOther := by
  have apart := x.other_ne
  obtain ⟨own, other, theirOwn, theirOther, -, -, theirRefused, theirAsleep⟩ := fits
  constructor <;> grind [Stage.HoldsOwn, Stage.HoldsOther]

theorem letIn (fits : Fits x .locked there mine theirs may mayOther) :
    Fits x .admitted there mine theirs may mayOther := by
  have apart := x.other_ne
  obtain ⟨own, other, theirOwn, theirOther, -, -, theirRefused, theirAsleep⟩ := fits
  constructor <;> grind [Stage.HoldsOwn, Stage.HoldsOther]

theorem refuse (fits : Fits x .locked there mine theirs may mayOther) (not_yet : ¬ may) :
    Fits x .refused there mine theirs may mayOther := by
  have apart := x.other_ne
  obtain ⟨own, other, theirOwn, theirOther, -, -, theirRefused, theirAsleep⟩ := fits
  constructor <;> grind [Stage.HoldsOwn, Stage.HoldsOther]

theorem sleep (fits : Fits x .refused there mine theirs may mayOther) :
    Fits x .asleep there none theirs may mayOther := by
  have apart := x.other_ne
  obtain ⟨own, other, theirOwn, theirOther, refused, -, theirRefused, theirAsleep⟩ := fits
  constructor <;> grind [Stage.HoldsOwn, Stage.HoldsOther]

theorem wake (fits : Fits x .asleep there mine theirs may mayOther) :
    Fits x .woken there mine theirs may mayOther := by
  have apart := x.other_ne
  obtain ⟨own, other, theirOwn, theirOther, -, -, theirRefused, theirAsleep⟩ := fits
  constructor <;> grind [Stage.HoldsOwn, Stage.HoldsOther]

theorem leave (fits : Fits x here there mine theirs may mayOther)
    (was : here = .admitted ∨ here = .refused) : Fits x .quiet there none theirs may mayOther := by
  have apart := x.other_ne
  obtain ⟨own, other, theirOwn, theirOther, -, -, theirRefused, theirAsleep⟩ := fits
  constructor <;> grind [Stage.HoldsOwn, Stage.HoldsOther]

/-- The condition of the other side may hold from now on, and the other side is about to be
notified. -/
theorem publish (fits : Fits x .quiet there mine theirs may mayOther) :
    Fits x .published there mine theirs may' mayOther' := by
  have apart := x.other_ne
  obtain ⟨own, other, theirOwn, theirOther, -, -, -, -⟩ := fits
  constructor <;> grind [Stage.HoldsOwn, Stage.HoldsOther]

/-- The other side is not between its condition and its sleep, since its mutex was free. -/
theorem claim (fits : Fits x .published there mine none may mayOther) :
    Fits x .notifying there mine (some x) may mayOther := by
  have apart := x.other_ne
  obtain ⟨own, other, theirOwn, theirOther, -, -, theirRefused, theirAsleep⟩ := fits
  constructor <;> grind [Stage.HoldsOwn, Stage.HoldsOther]

theorem notify (fits : Fits x .notifying there mine theirs may mayOther) :
    Fits x .notified there.wake mine theirs may mayOther := by
  have awake := there.wake_ne_asleep
  have apart := x.other_ne
  obtain ⟨own, other, theirOwn, theirOther, -, -, theirRefused, -⟩ := fits
  by_cases asleep : there = .asleep
  · subst asleep
    constructor <;> grind [Stage.HoldsOwn, Stage.HoldsOther, Stage.wake]
  · rw [Stage.wake_of_ne asleep]
    constructor <;> grind [Stage.HoldsOwn, Stage.HoldsOther]

theorem unlock (fits : Fits x .notified there mine theirs may mayOther) :
    Fits x .quiet there mine none may mayOther := by
  have apart := x.other_ne
  obtain ⟨own, other, theirOwn, theirOther, -, -, theirRefused, theirAsleep⟩ := fits
  constructor <;> grind [Stage.HoldsOwn, Stage.HoldsOther]

end Fits

variable {m m' : State} {x : Side}

theorem State.kept_of (x : Side)
    (fits : Fits x (m.stage x) (m.stage x.other) (m.mutex x) (m.mutex x.other) (m.may x)
    (m.may x.other)) : m.Kept := by
  intro y
  rcases x.eq_or_eq_other y with rfl | rfl
  · exact fits
  · rw [Side.other_other]
    exact fits.symm

theorem State.Kept.move (kept : m.Kept) (move : Move m x m') : m'.Kept := by
  have fits := kept x
  refine State.kept_of x ?_
  cases move with
  | lock was free =>
    rw [free] at fits
    simpa using fits.lock was
  | letIn was =>
    rw [was] at fits
    simpa using fits.letIn
  | refuse was not_yet =>
    rw [was] at fits
    simpa using fits.refuse not_yet
  | sleep was =>
    rw [was] at fits
    simpa using fits.sleep
  | wake was =>
    rw [was] at fits
    simpa using fits.wake
  | leave was => simpa using fits.leave was
  | publish may was =>
    rw [was] at fits
    simpa using fits.publish
  | claim was free =>
    rw [was, free] at fits
    simpa using fits.claim
  | notify was =>
    rw [was] at fits
    simpa using fits.notify
  | unlock was =>
    rw [was] at fits
    simpa using fits.unlock

/-- No side is asleep before a condition that holds, unless the other side is about to notify it. -/
theorem State.Kept.no_lost_notification (kept : m.Kept) (asleep : m.stage x = .asleep)
    (may : m.may x) :
    m.stage x.other = .published ∨ m.stage x.other = .notifying := (kept x).asleep asleep may

end SumiEmu.Monitor
