/-
# The update of the highest priority threads

When the scheduler lock is released, each core is given the front of its
scheduled queue, and each core that has none is offered the threads that are
suggested for it. A suggested thread that is not the top thread of its own core
moves at once. When all of them are top threads, the first one whose core has
some other thread to run moves instead.

The counters of a process and of a thread, and the dummy threads that are woken
or put to sleep after the update, are left out, as the update reads none of them.
-/

import SumiEmu.Kernel.PriorityQueueRun

namespace SumiEmu.Kernel

open Common Fallible KPriorityQueue

/-- `HighestCoreMigrationAllowedPriority`. -/
def highestCoreMigrationAllowedPriority : Int := 2

/-- What the update asks about threads and processes. -/
structure KThreads (κ π : Type*) where
  /-- `GetOwnerProcess`. -/
  ownerProcess : κ → Option π
  /-- `GetPinnedThread`. -/
  pinnedThread : π → Int → Option κ
  /-- `GetNumKernelWaiters`. -/
  numKernelWaiters : κ → Int
  /-- `GetRawState` is `ThreadState::Runnable`. -/
  isRunnable : κ → Bool

/-- The scheduling state of one core. -/
structure KScheduler (κ : Type*) where
  highestPriorityThread : Option κ := none
  needsScheduling : Bool := false
  shouldCountIdle : Bool := false
  idleCount : BitVec 64 := 0

/-- The state of the kernel that the schedulers of all cores share. -/
structure KernelCore (κ : Type*) where
  priorityQueue : KPriorityQueue κ
  /-- `Scheduler`, by core. -/
  schedulers : Int → KScheduler κ := fun _ => {}
  isSchedulerUpdateNeeded : Bool := false
  /-- The assignments to `highest_priority_thread` in order, with their cores. The source
  keeps no such record. -/
  assignments : List (Int × Option κ) := []

/-- The local variables of the update, next to the kernel. -/
structure SchedulerUpdate (κ : Type*) extends KernelCore κ where
  topThreads : Int → Option κ
  coresNeedingScheduling : BitVec 64 := 0
  /-- `idle_cores`, as the first loop leaves them. -/
  idleCores : BitVec 64 := 0

namespace KernelCore

variable {κ : Type*} [DecidableEq κ]

/-- `UpdateHighestPriorityThread` of one core. -/
def updateHighestPriorityThread (kernel : KernelCore κ) (core : Int) (highestThread : Option κ) :
    BitVec 64 × KernelCore κ :=
  let scheduler := kernel.schedulers core
  if scheduler.highestPriorityThread ≠ highestThread then
    let idleCount :=
      if scheduler.shouldCountIdle && highestThread.isNone then
        scheduler.idleCount + 1
      else
        scheduler.idleCount
    let scheduler := { scheduler with
      highestPriorityThread := highestThread
      needsScheduling := true
      idleCount }
    (1#64 <<< core.toNat, { kernel with
      schedulers := Function.update kernel.schedulers core scheduler
      assignments := kernel.assignments ++ [(core, highestThread)] })
  else
    (0, kernel)

end KernelCore

/-- What a search among the suggested threads of a core ends with. -/
inductive Suggestion (κ : Type*)
  /-- The thread is not the top thread of its core, so it can migrate. -/
  | migrate (suggested : κ)
  /-- The top thread of a core has a priority that is too high for migration. -/
  | stop
  /-- All are top threads, of these cores. -/
  | candidates (cores : List Int)

namespace SchedulerUpdate

variable {κ π : Type*} [DecidableEq κ]

variable (u : SchedulerUpdate κ)

/-- Give a core its top thread, and note whether the core needs scheduling. -/
def setTopThread (core : Int) (topThread : Option κ) : SchedulerUpdate κ :=
  let (mask, kernel) := u.toKernelCore.updateHighestPriorityThread core topThread
  { kernel with
    topThreads := Function.update u.topThreads core topThread
    coresNeedingScheduling := u.coresNeedingScheduling ||| mask
    idleCores := u.idleCores }

/-- The thread that a core runs when a thread is at the front of its scheduled queue. -/
def preferPinned (threads : KThreads κ π) (core : Int) (topThread : κ) : Option κ :=
  match (threads.ownerProcess topThread).bind fun parent => threads.pinnedThread parent core with
  | none => some topThread
  | some pinned =>
    -- A thread with kernel waiters is preferred to the pinned thread.
    if pinned ≠ topThread ∧ threads.numKernelWaiters topThread = 0 then
      if threads.isRunnable pinned then some pinned else none
    else
      some topThread

/-- The first loop, at one core. -/
def updateCore (threads : KThreads κ π) (u : SchedulerUpdate κ) (core : Int) :
    Except Fault (SchedulerUpdate κ) := do
  match ← u.priorityQueue.getFront .scheduled core with
  | some topThread => return u.setTopThread core (preferPinned threads core topThread)
  | none =>
    return { u with idleCores := u.idleCores ||| 1#64 <<< core.toNat }.setTopThread core none

/-- The loop `while (suggested != nullptr)`. -/
def findSuggestion (u : SchedulerUpdate κ) (core : Int) (suggested : Option κ)
    (migrationCandidates : List Int) : Except Fault (Suggestion κ) :=
  match suggested with
  | none => .ok (.candidates migrationCandidates)
  | some suggested =>
    let suggestedCore := (u.priorityQueue.attributes suggested).activeCore
    let topThread := if 0 ≤ suggestedCore then u.topThreads suggestedCore else none
    if topThread ≠ some suggested then
      if topThread.any fun topThread =>
          (u.priorityQueue.attributes topThread).priority < highestCoreMigrationAllowedPriority then
        .ok .stop
      else
        .ok (.migrate suggested)
    else if migrationCandidates.length < numCores then
      u.priorityQueue.getNext .suggested core suggested >>= fun next =>
        findSuggestion u core next (migrationCandidates ++ [suggestedCore])
    else
      .error .assertion
termination_by numCores - migrationCandidates.length
decreasing_by
  rw [List.length_append, List.length_singleton]
  omega

/-- Move a thread to a core, and give it to that core. -/
def migrate (prevCore core : Int) (suggested : κ) : Except Fault (SchedulerUpdate κ) := do
  let a := u.priorityQueue.attributes suggested
  let queue := u.priorityQueue.setAttributes suggested { a with activeCore := core }
  let queue ← queue.changeCore prevCore suggested false
  return { u with priorityQueue := queue }.setTopThread core (some suggested)

/-- The loop over the candidate cores. -/
def tryCandidates (u : SchedulerUpdate κ) (core : Int) :
    List Int → Except Fault (SchedulerUpdate κ)
  | [] => .ok u
  | candidateCore :: migrationCandidates =>
    match u.topThreads candidateCore with
    | none => .error .assertion
    | some suggested => do
      match ← u.priorityQueue.getNext .scheduled candidateCore suggested with
      | some nextOnCandidateCore =>
        -- The candidate core can run some other thread.
        (u.setTopThread candidateCore (some nextOnCandidateCore)).migrate candidateCore core
          suggested
      | none => tryCandidates u core migrationCandidates

/-- The second loop, at one idle core. -/
def migrateTo (core : Int) : Except Fault (SchedulerUpdate κ) := do
  let front ← u.priorityQueue.getFront .suggested core
  match ← u.findSuggestion core front [] with
  | .migrate suggested =>
    u.migrate (u.priorityQueue.attributes suggested).activeCore core suggested
  | .stop => return u
  | .candidates migrationCandidates => u.tryCandidates core migrationCandidates

/-- The loop `while (idle_cores != 0)`. -/
def migrateToIdleCores (u : SchedulerUpdate κ) (idleCores : BitVec 64) :
    Except Fault (SchedulerUpdate κ) :=
  if idleCores ≠ 0 then do
    let u ← u.migrateTo (nextCore idleCores)
    migrateToIdleCores u (clearAffinityBit idleCores (nextCore idleCores))
  else
    .ok u
termination_by idleCores.toNat
decreasing_by exact clearAffinityBit_lt ‹_›

end SchedulerUpdate

namespace KernelCore

variable {κ π : Type*} [DecidableEq κ]

/-- The state of the update after its first loop. -/
def updateCores (threads : KThreads κ π) (kernel : KernelCore κ) :
    Except Fault (SchedulerUpdate κ) :=
  cores.foldlM (SchedulerUpdate.updateCore threads)
    { kernel with isSchedulerUpdateNeeded := false, topThreads := fun _ => none }

/-- `UpdateHighestPriorityThreadsImpl`. -/
def updateHighestPriorityThreadsImpl (threads : KThreads κ π) (kernel : KernelCore κ) :
    Except Fault (BitVec 64 × KernelCore κ) := do
  let u ← kernel.updateCores threads
  let u ← u.migrateToIdleCores u.idleCores
  return (u.coresNeedingScheduling, u.toKernelCore)

end KernelCore

end SumiEmu.Kernel
