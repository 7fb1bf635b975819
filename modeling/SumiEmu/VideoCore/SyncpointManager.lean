/-
# The syncpoint manager

Threads register actions for values of a syncpoint and increment it. The counter
is atomic and is bumped outside of the lock that protects the stored actions, so
the calls of different threads interleave at each load, at each increment and at
each acquisition of the lock.

The counter does not wrap, and is a natural. The ghost state remembers for which
value each action was registered, and which actions were run at which values.
-/

import Mathlib.Data.List.Sort

namespace SumiEmu.VideoCore

namespace SyncpointManager

/-- `RegisteredAction`. -/
structure RegisteredAction (α : Type*) where
  expectedValue : Nat
  action : α

/-- The order that the loop of `RegisterAction` keeps. -/
def RegisteredAction.Earlier {α : Type*} (x y : RegisteredAction α) : Prop :=
  x.expectedValue ≤ y.expectedValue

instance {α : Type*} : DecidableRel (RegisteredAction.Earlier (α := α)) :=
  fun _ _ => inferInstanceAs (Decidable (_ ≤ _))

/-- Where a thread is in a call. -/
inductive Pc (α : Type*)
  | idle
  /-- Before the first load of `RegisterAction`. -/
  | registering (expectedValue : Nat) (action : α)
  /-- Before `RegisterAction` acquires the lock. -/
  | registerLocking (expectedValue : Nat) (action : α)
  /-- Before the second load of `RegisterAction`, under the lock. -/
  | registerLocked (expectedValue : Nat) (action : α)
  /-- Before `RegisterAction` stores the action and releases the lock. -/
  | registerStoring (expectedValue : Nat) (action : α)
  /-- Before the `fetch_add` of `Increment`. -/
  | incrementing
  /-- Before `Increment` acquires the lock. -/
  | incrementLocking (newValue : Nat)
  /-- At the head of the loop of `Increment`, under the lock. -/
  | incrementLocked (newValue : Nat)

namespace Pc

variable {α : Type*}

/-- The thread holds the lock. -/
def Locked : Pc α → Prop
  | registerLocked _ _ | registerStoring _ _ | incrementLocked _ => True
  | _ => False

/-- What the thread is about to register. -/
def registers : Pc α → Option (RegisteredAction α)
  | registering e a | registerLocking e a | registerLocked e a | registerStoring e a => some ⟨e, a⟩
  | _ => none

/-- The value that the thread has incremented the counter to. -/
def newValue : Pc α → Option Nat
  | incrementLocking n | incrementLocked n => some n
  | _ => none

end Pc

end SyncpointManager

open SyncpointManager

/-- One syncpoint of `SyncpointManager`, and the threads that use it. -/
structure SyncpointManager (τ α : Type*) where
  syncpoint : Nat := 0
  actionStorage : List (RegisteredAction α) := []
  guard : Option τ := none
  pcs : τ → Pc α := fun _ => .idle
  /-- The value that each action was registered for. -/
  registered : α → Option Nat := fun _ => none
  /-- The actions that were run, with the value of the counter at that moment. -/
  executed : List (α × Nat) := []

namespace SyncpointManager

variable {τ α : Type*} [DecidableEq τ] [DecidableEq α]

variable (s : SyncpointManager τ α)

/-- The thread goes on. -/
def goto (t : τ) (pc : Pc α) : SyncpointManager τ α :=
  { s with pcs := Function.update s.pcs t pc }

/-- An action is run. -/
def execute (a : α) : SyncpointManager τ α :=
  { s with executed := (a, s.syncpoint) :: s.executed }

/-- The position before the first action that is not expected earlier. -/
def emplace (storage : List (RegisteredAction α)) (r : RegisteredAction α) :
    List (RegisteredAction α) :=
  storage.orderedInsert RegisteredAction.Earlier r

/-- One step of one thread. Each registration has an action of its own. -/
inductive Step : SyncpointManager τ α → SyncpointManager τ α → Prop
  /-- A thread calls `RegisterAction`. -/
  | register (s : SyncpointManager τ α) (t : τ) (e : Nat) (a : α) (at' : s.pcs t = .idle)
      (fresh : s.registered a = none) :
      Step s { s.goto t (.registering e a) with
        registered := Function.update s.registered a (some e) }
  /-- The first load finds the value, so the action is run at once. -/
  | registerReached (s : SyncpointManager τ α) (t : τ) (e : Nat) (a : α)
      (at' : s.pcs t = .registering e a) (reached : e ≤ s.syncpoint) :
      Step s ((s.execute a).goto t .idle)
  | registerNotReached (s : SyncpointManager τ α) (t : τ) (e : Nat) (a : α)
      (at' : s.pcs t = .registering e a) (early : s.syncpoint < e) :
      Step s (s.goto t (.registerLocking e a))
  | registerLock (s : SyncpointManager τ α) (t : τ) (e : Nat) (a : α)
      (at' : s.pcs t = .registerLocking e a) (free : s.guard = none) :
      Step s { s.goto t (.registerLocked e a) with guard := some t }
  /-- The second load finds the value, so the action is run under the lock. -/
  | registerLockedReached (s : SyncpointManager τ α) (t : τ) (e : Nat) (a : α)
      (at' : s.pcs t = .registerLocked e a) (reached : e ≤ s.syncpoint) :
      Step s { (s.execute a).goto t .idle with guard := none }
  | registerLockedNotReached (s : SyncpointManager τ α) (t : τ) (e : Nat) (a : α)
      (at' : s.pcs t = .registerLocked e a) (early : s.syncpoint < e) :
      Step s (s.goto t (.registerStoring e a))
  | registerStore (s : SyncpointManager τ α) (t : τ) (e : Nat) (a : α)
      (at' : s.pcs t = .registerStoring e a) :
      Step s { s.goto t .idle with
        actionStorage := emplace s.actionStorage ⟨e, a⟩
        guard := none }
  /-- A thread calls `Increment`. -/
  | increment (s : SyncpointManager τ α) (t : τ) (at' : s.pcs t = .idle) :
      Step s (s.goto t .incrementing)
  | incrementFetchAdd (s : SyncpointManager τ α) (t : τ) (at' : s.pcs t = .incrementing) :
      Step s { s.goto t (.incrementLocking (s.syncpoint + 1)) with
        syncpoint := s.syncpoint + 1 }
  | incrementLock (s : SyncpointManager τ α) (t : τ) (n : Nat)
      (at' : s.pcs t = .incrementLocking n) (free : s.guard = none) :
      Step s { s.goto t (.incrementLocked n) with guard := some t }
  /-- The first stored action is due, so it is run and erased. -/
  | incrementRun (s : SyncpointManager τ α) (t : τ) (n : Nat) (r : RegisteredAction α)
      (rest : List (RegisteredAction α)) (at' : s.pcs t = .incrementLocked n)
      (first : s.actionStorage = r :: rest) (due : r.expectedValue ≤ n) :
      Step s { s.execute r.action with actionStorage := rest }
  /-- No stored action is due, so the lock is released. -/
  | incrementUnlock (s : SyncpointManager τ α) (t : τ) (n : Nat)
      (at' : s.pcs t = .incrementLocked n)
      (none' : ∀ r rest, s.actionStorage = r :: rest → n < r.expectedValue) :
      Step s { s.goto t .idle with guard := none }

/-- The states that threads reach from an unused syncpoint. -/
def Reachable : Prop :=
  ∃ start : Nat, Relation.ReflTransGen Step { syncpoint := start } s

end SyncpointManager

end SumiEmu.VideoCore
