/-
# Rotations and yields

A rotation moves the front of a scheduled list to its back, and a yield does so with
the thread that runs. Then threads that are suggested for the core may migrate to it,
unless a thread there has been waiting longer. A thread that yields to any thread gives
up its core instead.

The end of a scheduler lock, which updates the highest priority threads, is no part of
these functions. The counters are `s64` in the source and only compared and incremented.
-/

import SumiEmu.Kernel.Scheduler

namespace SumiEmu.Kernel

open Common Fallible KPriorityQueue Linking

universe u

/-- Why a rotation or a yield does not return. -/
inductive YieldFault
  | assertion
  | nullPointer
  | outOfFuel
  deriving DecidableEq, Repr

/-- What rotations and yields ask about threads. -/
structure KYieldThreads (κ π : Type*) extends KThreads κ π where
  /-- `GetLastScheduledTick`. -/
  lastScheduledTick : κ → Int

/-- The kernel, with the counters that keep a thread from yielding in vain. -/
structure KernelCounts (κ π : Type*) extends KernelCore κ where
  /-- `GetScheduledCount`. -/
  scheduledCount : π → BitVec 64
  /-- `GetYieldScheduleCount`. -/
  yieldScheduleCount : κ → BitVec 64

/-- What a search among the suggested threads of a core breaks out of its loop with. -/
inductive YieldSuggestion (κ : Type*)
  /-- The thread migrates. -/
  | migrate (suggested : κ)
  /-- No thread migrates, and this is the value of `suggested`. -/
  | keep (suggested : Option κ)

/-- A call of the queue, in a rotation or a yield. -/
def checked {α : Type*} : Except Fault α → Except YieldFault α
  | .ok a => .ok a
  | .error .assertion => .error .assertion

@[simp] theorem checked_ok {α : Type*} (a : α) : checked (.ok a) = .ok a := rfl

namespace KernelCounts

variable {κ π : Type u} [DecidableEq κ] [DecidableEq π]

variable (threads : KYieldThreads κ π)

variable (kernel : KernelCounts κ π)

/-- `IncrementScheduledCount`. -/
def incrementScheduledCount (thread : κ) : KernelCounts κ π :=
  match threads.ownerProcess thread with
  | some process => { kernel with
      scheduledCount :=
        Function.update kernel.scheduledCount process (kernel.scheduledCount process + 1) }
  | none => kernel

/-- `SetSchedulerUpdateNeeded`. -/
def setSchedulerUpdateNeeded : KernelCounts κ π :=
  { kernel with isSchedulerUpdateNeeded := true }

/-- `SetYieldScheduleCount`. -/
def setYieldScheduleCount (thread : κ) (count : BitVec 64) : KernelCounts κ π :=
  { kernel with yieldScheduleCount := Function.update kernel.yieldScheduleCount thread count }

/-- `GetActiveCore`. -/
def activeCore (kernel : KernelCounts κ π) (thread : κ) : Int :=
  (kernel.priorityQueue.attributes thread).activeCore

/-- `GetPriority`. -/
def priority (kernel : KernelCounts κ π) (thread : κ) : Int :=
  (kernel.priorityQueue.attributes thread).priority

/-- The front of the scheduled queue of a core, if it is one. -/
def topOnCore (core : Int) : Except YieldFault (Option κ) :=
  if 0 ≤ core then checked (kernel.priorityQueue.getFront .scheduled core) else return none

/-- `highest_priority_thread` of a core, if it is one. -/
def runningOnCore (core : Int) : Option κ :=
  if 0 ≤ core then (kernel.schedulers core).highestPriorityThread else none

/-- A thread may leave a core with this top thread. -/
def migrationAllowed (top : Option κ) : Bool :=
  top.all fun top => highestCoreMigrationAllowedPriority ≤ kernel.priority top

/-- `SetActiveCore`, `ChangeCore` from the core before that, and `IncrementScheduledCount`. -/
def changeCore (threads : KYieldThreads κ π) (kernel : KernelCounts κ π) (thread : κ) (core : Int)
    (toFront : Bool) : Except YieldFault (KernelCounts κ π) := do
  let queue ← checked (kernel.priorityQueue.call (.changeCore thread core toFront))
  return { kernel with priorityQueue := queue }.incrementScheduledCount threads thread

/-- The migration that a search broke out of its loop for. -/
def migrateSuggestion (core : Int)
    (toFront : Bool) : Option (YieldSuggestion κ) → Except YieldFault (KernelCounts κ π)
  | some (.migrate suggested) => kernel.changeCore threads suggested core toFront
  | some (.keep _) | none => .ok kernel

/-! ## `RotateScheduledQueue` -/

/-- Rotate the front of the queue to the end. -/
def rotateFront (topThread : Option κ) : Except YieldFault (Option κ × KernelCounts κ π) :=
  match topThread with
  | none => .ok (none, kernel)
  | some topThread => do
    let (nextThread, queue) ← checked (kernel.priorityQueue.moveToScheduledBack topThread)
    let kernel := { kernel with priorityQueue := queue }
    if nextThread ≠ some topThread then
      match nextThread with
      | none => .error .nullPointer
      | some nextThread =>
        return (some nextThread,
          (kernel.incrementScheduledCount threads topThread).incrementScheduledCount threads
          nextThread)
    else
      return (nextThread, kernel)

/-- The first loop, at one suggested thread. -/
def considerSamePriority (topThread nextThread : Option κ) (_ : PUnit.{u + 1}) (suggested : κ) :
    Except YieldFault (PUnit.{u + 1} × Option (YieldSuggestion κ)) := do
  let topOnSuggestedCore ← kernel.topOnCore (kernel.activeCore suggested)
  if topOnSuggestedCore ≠ some suggested then
    -- A new thread that has been waiting longer is preferred.
    if topThread ≠ nextThread ∧ nextThread.any fun nextThread =>
        threads.lastScheduledTick nextThread < threads.lastScheduledTick suggested then
      return (⟨⟩, some (.keep none))
    else if kernel.migrationAllowed topOnSuggestedCore then
      return (⟨⟩, some (.migrate suggested))
    else
      return (⟨⟩, none)
  else
    return (⟨⟩, none)

/-- While there is a suggested thread of the same priority, try to migrate it. -/
def migrateSamePriority (topThread nextThread : Option κ) (core priority : Int) (fuel : Nat) :
    Except YieldFault (KernelCounts κ π) := do
  let suggested ← checked (kernel.priorityQueue.getFrontAt .suggested core priority)
  let (_, suggestion) ← walk .outOfFuel
    (fun suggested => .ok (kernel.priorityQueue.getSamePriorityNext core suggested))
    (kernel.considerSamePriority threads topThread nextThread) fuel ⟨⟩ suggested
  kernel.migrateSuggestion threads core true suggestion

/-- The second loop, at one suggested thread. -/
def considerBetter (bestThread : κ) (_ : PUnit.{u + 1})
    (suggested : κ) : Except YieldFault (PUnit.{u + 1} × Option (YieldSuggestion κ)) :=
  if kernel.priority bestThread ≤ kernel.priority suggested then
    .ok (⟨⟩, some (.keep (some suggested)))
  else do
    let topOnSuggestedCore ← kernel.topOnCore (kernel.activeCore suggested)
    if topOnSuggestedCore ≠ some suggested ∧ kernel.migrationAllowed topOnSuggestedCore then
      return (⟨⟩, some (.migrate suggested))
    else
      return (⟨⟩, none)

/-- The best thread that a core can choose instead of the current one. -/
def bestThread (kernel : KernelCounts κ π) (current : κ) (core : Int) :
    Except YieldFault (Option κ) := do
  let bestThread ← checked (kernel.priorityQueue.getFront .scheduled core)
  if bestThread = some current then
    checked (kernel.priorityQueue.getNext .scheduled core current)
  else
    return bestThread

/-- Check if a thread of a higher priority can migrate. -/
def migrateBetter (current : κ)
    (core priority : Int) (fuel : Nat) : Except YieldFault (KernelCounts κ π) := do
  let bestThread ← kernel.bestThread current core
  match bestThread with
  | none => return kernel
  | some bestThread =>
    if priority ≤ kernel.priority bestThread then do
      let suggested ← checked (kernel.priorityQueue.getFront .suggested core)
      let (_, suggestion) ← walk .outOfFuel
        (fun suggested => checked (kernel.priorityQueue.getNext .suggested core suggested))
        (kernel.considerBetter bestThread) fuel ⟨⟩ suggested
      kernel.migrateSuggestion threads core true suggestion
    else
      return kernel

/-- `RotateScheduledQueue`. -/
def rotateScheduledQueue (current : κ)
    (core priority : Int) (fuel : Nat) : Except YieldFault (KernelCounts κ π) := do
  let topThread ← checked (kernel.priorityQueue.getFrontAt .scheduled core priority)
  let (nextThread, kernel) ← kernel.rotateFront threads topThread
  let kernel ← kernel.migrateSamePriority threads topThread nextThread core priority fuel
  let kernel ← kernel.migrateBetter threads current core priority fuel
  -- After a rotation, we need a scheduler update.
  return kernel.setSchedulerUpdateNeeded

/-! ## The yields -/

/-- A yield that is not in vain, if the thread is runnable. -/
def ifYields (current : κ) (process : π)
    (yield : Except YieldFault (KernelCounts κ π)) : Except YieldFault (KernelCounts κ π) :=
  if kernel.yieldScheduleCount current = kernel.scheduledCount process then
    .ok kernel
  else if threads.isRunnable current then
    yield
  else
    .ok kernel

/-- Put the current thread at the back of the queue. -/
def moveCurrentToBack (current : κ) : Except YieldFault (Option κ × KernelCounts κ π) := do
  let (nextThread, queue) ← checked (kernel.priorityQueue.moveToScheduledBack current)
  return (nextThread, { kernel with priorityQueue := queue }.incrementScheduledCount threads
    current)

/-- `YieldWithoutCoreMigration`. -/
def yieldWithoutCoreMigration (current : κ) (process : π) : Except YieldFault (KernelCounts κ π) :=
  kernel.ifYields threads current process do
    let (nextThread, kernel) ← kernel.moveCurrentToBack threads current
    if nextThread ≠ some current then
      return kernel.setSchedulerUpdateNeeded
    else
      return kernel.setYieldScheduleCount current (kernel.scheduledCount process)

/-- The next thread is another one, and has been waiting longer than the suggested thread. -/
def nextWaitsLonger (current : κ) (nextThread : Option κ)
    (suggested : κ) : Except YieldFault Bool :=
  if nextThread ≠ some current then
    match nextThread with
    | none => .error .nullPointer
    | some nextThread =>
      return threads.lastScheduledTick nextThread < threads.lastScheduledTick suggested
  else
    return false

/-- The loop of `YieldWithCoreMigration`, at one suggested thread. Its state is `recheck`. -/
def considerYield (current : κ) (nextThread : Option κ) (recheck : Bool) (suggested : κ) :
    Except YieldFault (Bool × Option (YieldSuggestion κ)) :=
  let runningOnSuggestedCore := kernel.runningOnCore (kernel.activeCore suggested)
  if runningOnSuggestedCore ≠ some suggested then
    if kernel.priority current < kernel.priority suggested then
      .ok (recheck, some (.keep none))
    else
      -- Among equal priorities, the next thread is preferred if it has been waiting longer.
      let preferred := if kernel.priority suggested = kernel.priority current then
        nextWaitsLonger threads current nextThread suggested else .ok false
      match preferred with
      | .error fault => .error fault
      | .ok true => .ok (recheck, some (.keep none))
      | .ok false =>
        if kernel.migrationAllowed runningOnSuggestedCore then
          .ok (recheck, some (.migrate suggested))
        else
          -- It is worth another check on a future yield.
          .ok (true, none)
  else
    .ok (recheck, none)

/-- The value of `suggested` after the loop. -/
def suggestedAfter : Option (YieldSuggestion κ) → Option κ
  | some (.migrate suggested) => some suggested
  | some (.keep suggested) => suggested
  | none => none

/-- `YieldWithCoreMigration`. -/
def yieldWithCoreMigration (current : κ)
    (process : π) (fuel : Nat) : Except YieldFault (KernelCounts κ π) :=
  kernel.ifYields threads current process do
    let core := kernel.activeCore current
    let (nextThread, kernel) ← kernel.moveCurrentToBack threads current
    let front ← checked (kernel.priorityQueue.getFront .suggested core)
    match walk .outOfFuel
        (fun suggested => checked (kernel.priorityQueue.getNext .suggested core suggested))
        (kernel.considerYield threads current nextThread) fuel false front with
    | .error fault => .error fault
    | .ok (recheck, suggestion) => do
      let kernel ← kernel.migrateSuggestion threads core true suggestion
      if suggestedAfter suggestion ≠ none ∨ nextThread ≠ some current then
        return kernel.setSchedulerUpdateNeeded
      else if recheck then
        return kernel
      else
        return kernel.setYieldScheduleCount current (kernel.scheduledCount process)

/-- The loop of `YieldToAnyThread`, at one suggested thread. -/
def considerAny (_ : PUnit.{u + 1}) (suggested : κ) :
    Except YieldFault (PUnit.{u + 1} × Option (YieldSuggestion κ)) := do
  let topOnSuggestedCore ← kernel.topOnCore (kernel.activeCore suggested)
  if topOnSuggestedCore ≠ some suggested then
    -- Whether or not it migrates, there was a candidate.
    if kernel.migrationAllowed topOnSuggestedCore then
      return (⟨⟩, some (.migrate suggested))
    else
      return (⟨⟩, some (.keep (some suggested)))
  else
    return (⟨⟩, none)

/-- `YieldToAnyThread`. -/
def yieldToAnyThread (current : κ)
    (process : π) (fuel : Nat) : Except YieldFault (KernelCounts κ π) :=
  kernel.ifYields threads current process do
    let core := kernel.activeCore current
    -- Migrate the current thread to core -1.
    let kernel ← kernel.changeCore threads current (-1) false
    match ← checked (kernel.priorityQueue.getFront .scheduled core) with
    | some _ => return kernel.setSchedulerUpdateNeeded
    | none =>
      let front ← checked (kernel.priorityQueue.getFront .suggested core)
      let (_, suggestion) ← walk .outOfFuel
        (fun suggested => checked (kernel.priorityQueue.getNext .suggested core suggested))
        kernel.considerAny fuel ⟨⟩ front
      let kernel ← kernel.migrateSuggestion threads core false suggestion
      if suggestedAfter suggestion ≠ some current then
        return kernel.setSchedulerUpdateNeeded
      else
        return kernel.setYieldScheduleCount current (kernel.scheduledCount process)

end KernelCounts

end SumiEmu.Kernel
