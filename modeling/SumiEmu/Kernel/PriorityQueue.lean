/-
# The priority queue of the scheduler

The scheduled queue of a core holds the threads that are to run on it, and the
suggested queue those that could. Each queue keeps one list for every priority
and core, from a root of its own, but a thread has only one link entry for each
core, which whichever list it is in on that core must use.

The template is modelled as the scheduler instantiates it: priorities from 0 to
63, and four cores. The attributes of the threads are part of the state, as the
queue reads them through its pointers.
-/

import SumiEmu.Common.BitSet
import SumiEmu.Foundations.Fallible

namespace SumiEmu.Kernel

open Common Fallible WordBits Function

universe u

/-- `KThread::QueueEntry`. -/
structure QueueEntry (κ : Type*) where
  prev : Option κ := none
  next : Option κ := none

/-- The entries that the lists of one core are linked by. The root is at `none`. -/
abbrev Links (κ : Type*) := Option κ → QueueEntry κ

section Links

variable {κ : Type*} [DecidableEq κ]

/-- `SetPrev`. -/
def Links.setPrev (links : Links κ) (at' : Option κ) (prev : Option κ) : Links κ :=
  update links at' { links at' with prev := prev }

/-- `SetNext`. -/
def Links.setNext (links : Links κ) (at' : Option κ) (next : Option κ) : Links κ :=
  update links at' { links at' with next := next }

namespace KPerCoreQueue

variable (links : Links κ)

/-- `PushBack`. -/
def pushBack (member : κ) : Bool × Links κ :=
  -- The entry at the end of the queue is the root's when there is no tail.
  let tail := (links none).prev
  let links := links.setPrev (some member) tail
  let links := links.setNext (some member) none
  let links := links.setNext tail (some member)
  let links := links.setPrev none (some member)
  (tail.isNone, links)

/-- `PushFront`. -/
def pushFront (member : κ) : Bool × Links κ :=
  let head := (links none).next
  let links := links.setPrev (some member) none
  let links := links.setNext (some member) head
  let links := links.setPrev head (some member)
  let links := links.setNext none (some member)
  (head.isNone, links)

/-- `GetFront`. -/
def getFront : Option κ := (links none).next

/-- `Remove`. -/
def remove (member : κ) : Bool × Links κ :=
  let prev := (links (some member)).prev
  let next := (links (some member)).next
  let links := links.setNext prev next
  let links := links.setPrev next prev
  ((getFront links).isNone, links)

end KPerCoreQueue

end Links

/-- `KAffinityMask`. -/
abbrev KAffinityMask := BitVec 64

/-- `KAffinityMask::GetAffinity`. -/
def KAffinityMask.getAffinity (mask : KAffinityMask) (core : Int) : Bool :=
  mask &&& (1#64 <<< core.toNat) != 0

/-- What the queue reads of a thread, other than its links. -/
structure ThreadAttributes where
  priority : Int
  activeCore : Int
  affinityMask : KAffinityMask
  isDummyThread : Bool := false

/-- The scheduled queue or the suggested queue. -/
inductive QueueKind
  | scheduled
  | suggested
  deriving DecidableEq, Repr

/-- `KPriorityQueueImpl`. -/
structure KPriorityQueueImpl (κ : Type*) where
  /-- `m_queues`, with the priority first. -/
  roots : Int → Int → QueueEntry κ := fun _ _ => {}
  availablePriorities : Int → BitSet64 64 := fun _ => {}

/-- A failed assertion. -/
inductive KPriorityQueue.Fault
  | assertion
  deriving DecidableEq, Repr

/-- `KPriorityQueue`, and the threads that it refers to. -/
structure KPriorityQueue (κ : Type*) where
  queues : QueueKind → KPriorityQueueImpl κ := fun _ => {}
  attributes : κ → ThreadAttributes
  /-- `GetPriorityQueueEntry`, with the core first. -/
  entries : Int → κ → QueueEntry κ := fun _ _ => {}

namespace KPriorityQueue

def lowestPriority : Int := 63

def highestPriority : Int := 0

def numCores : Nat := 4

variable {κ : Type*} [DecidableEq κ]

/-- `IsValidCore`. -/
def isValidCore (core : Int) : Bool := 0 ≤ core && core < numCores

/-- `IsValidPriority`. -/
def isValidPriority (priority : Int) : Bool :=
  highestPriority ≤ priority && priority ≤ lowestPriority + 1

/-- `ASSERT`. -/
def assert (condition : Bool) : Except Fault PUnit.{u + 1} :=
  if condition then .ok ⟨⟩ else .error .assertion

/-- The entries that a list of a queue is linked by. -/
def links (q : KPriorityQueue κ) (kind : QueueKind) (priority core : Int) : Links κ
  | none => (q.queues kind).roots priority core
  | some member => q.entries core member

/-- Write the entries that a list of a queue is linked by. -/
def setLinks (q : KPriorityQueue κ) (kind : QueueKind) (priority core : Int) (links : Links κ) :
    KPriorityQueue κ :=
  let impl := q.queues kind
  let roots := update impl.roots priority
    (update (impl.roots priority) core (links none))
  { q with
    queues := update q.queues kind { impl with roots := roots }
    entries := update q.entries core fun member => links (some member) }

/-- Write the available priorities of one core of a queue. -/
def setAvailable (q : KPriorityQueue κ) (kind : QueueKind) (core : Int) (set : BitSet64 64) :
    KPriorityQueue κ :=
  let impl := q.queues kind
  let available := update impl.availablePriorities core set
  { q with queues := update q.queues kind { impl with availablePriorities := available } }

end KPriorityQueue

open KPriorityQueue

/-! ## One queue -/

namespace KPriorityQueueImpl

variable {κ : Type*} [DecidableEq κ]

/-- `PushBack`. -/
def pushBack (q : KPriorityQueue κ) (kind : QueueKind) (priority core : Int) (member : κ) :
    Except Fault (KPriorityQueue κ) := do
  assert (isValidCore core)
  assert (isValidPriority priority)
  if lowestPriority < priority then
    return q
  let (first, links) := KPerCoreQueue.pushBack (q.links kind priority core) member
  let q := q.setLinks kind priority core links
  if first then
    return q.setAvailable kind core
      (((q.queues kind).availablePriorities core).setBit priority.toNat)
  else
    return q

/-- `PushFront`. -/
def pushFront (q : KPriorityQueue κ) (kind : QueueKind) (priority core : Int) (member : κ) :
    Except Fault (KPriorityQueue κ) := do
  assert (isValidCore core)
  assert (isValidPriority priority)
  if lowestPriority < priority then
    return q
  let (first, links) := KPerCoreQueue.pushFront (q.links kind priority core) member
  let q := q.setLinks kind priority core links
  if first then
    return q.setAvailable kind core
      (((q.queues kind).availablePriorities core).setBit priority.toNat)
  else
    return q

/-- `Remove`. -/
def remove (q : KPriorityQueue κ) (kind : QueueKind) (priority core : Int) (member : κ) :
    Except Fault (KPriorityQueue κ) := do
  assert (isValidCore core)
  assert (isValidPriority priority)
  if lowestPriority < priority then
    return q
  let (last, links) := KPerCoreQueue.remove (q.links kind priority core) member
  let q := q.setLinks kind priority core links
  if last then
    return q.setAvailable kind core
      (((q.queues kind).availablePriorities core).clearBit priority.toNat)
  else
    return q

/-- `GetFront` of a core. -/
def getFront (q : KPriorityQueue κ) (kind : QueueKind) (core : Int) :
    Except Fault (Option κ) := do
  assert (isValidCore core)
  let priority : Int := ((q.queues kind).availablePriorities core).countLeadingZero
  if priority ≤ lowestPriority then
    return KPerCoreQueue.getFront (q.links kind priority core)
  else
    return none

variable (q : KPriorityQueue κ)

/-- `GetFront` of a priority and a core. -/
def getFrontAt (kind : QueueKind) (priority core : Int) : Except Fault (Option κ) := do
  assert (isValidCore core)
  assert (isValidPriority priority)
  if priority ≤ lowestPriority then
    return KPerCoreQueue.getFront (q.links kind priority core)
  else
    return none

/-- `GetNext`. -/
def getNext (kind : QueueKind) (core : Int) (member : κ) : Except Fault (Option κ) := do
  assert (isValidCore core)
  match (q.entries core member).next with
  | some next => return some next
  | none =>
    let priority : Int := ((q.queues kind).availablePriorities core).getNextSet
      (q.attributes member).priority.toNat
    if priority ≤ lowestPriority then
      return KPerCoreQueue.getFront (q.links kind priority core)
    else
      return none

/-- `MoveToFront`. -/
def moveToFront (kind : QueueKind) (priority core : Int) (member : κ) :
    Except Fault (KPriorityQueue κ) := do
  assert (isValidCore core)
  assert (isValidPriority priority)
  if priority ≤ lowestPriority then
    let (_, links) := KPerCoreQueue.remove (q.links kind priority core) member
    let (_, links) := KPerCoreQueue.pushFront links member
    return q.setLinks kind priority core links
  else
    return q

/-- `MoveToBack`. -/
def moveToBack (kind : QueueKind) (priority core : Int) (member : κ) :
    Except Fault (Option κ × KPriorityQueue κ) := do
  assert (isValidCore core)
  assert (isValidPriority priority)
  if priority ≤ lowestPriority then
    let (_, links) := KPerCoreQueue.remove (q.links kind priority core) member
    let (_, links) := KPerCoreQueue.pushBack links member
    return (KPerCoreQueue.getFront links, q.setLinks kind priority core links)
  else
    return (none, q)

end KPriorityQueueImpl

/-! ## Both queues -/

namespace KPriorityQueue

variable {κ : Type*} [DecidableEq κ]

/-- `ClearAffinityBit`. -/
def clearAffinityBit (affinity : BitVec 64) (core : Int) : BitVec 64 :=
  affinity &&& ~~~(1#64 <<< core.toNat)

/-- `std::countr_zero`, which `GetNextCore` returns before it clears that bit. -/
def nextCore (affinity : BitVec 64) : Int := affinity.ctz.toNat

variable {affinity : BitVec 64}

theorem getLsbD_clearAffinityBit {core : Int} {j : Nat} (inside : core.toNat < 64) :
    (clearAffinityBit affinity core).getLsbD j =
      (affinity.getLsbD j && decide (j ≠ core.toNat)) := by
  rw [clearAffinityBit, BitVec.getLsbD_and, BitVec.getLsbD_not, getLsbD_one_shiftLeft inside]
  by_cases small : j < 64
  · simp [small]
  · rw [BitVec.getLsbD_of_ge affinity j (not_lt.mp small)]
    rfl

theorem nextCore_spec (nonzero : affinity ≠ 0) :
    (nextCore affinity).toNat < 64 ∧ affinity.getLsbD (nextCore affinity).toNat = true :=
  ⟨BitVec.ctz_lt_iff_ne_zero.mpr nonzero, BitVec.getLsbD_true_ctz_of_ne_zero nonzero⟩

theorem clearAffinityBit_lt (nonzero : affinity ≠ 0) :
    (clearAffinityBit affinity (nextCore affinity)).toNat < affinity.toNat := by
  obtain ⟨inside, set⟩ := nextCore_spec nonzero
  refine Nat.lt_of_le_of_ne ?_ fun same => ?_
  · rw [clearAffinityBit, BitVec.toNat_and]
    exact Nat.and_le_left
  · have cleared : (clearAffinityBit affinity (nextCore affinity)).getLsbD
        (nextCore affinity).toNat = _ := getLsbD_clearAffinityBit inside
    rw [BitVec.eq_of_toNat_eq same, set] at cleared
    simp at cleared

/-- The loop `while (affinity)`, which visits the cores of a mask. -/
def forEachCore (f : KPriorityQueue κ → Int → Except Fault (KPriorityQueue κ))
    (affinity : BitVec 64) (q : KPriorityQueue κ) : Except Fault (KPriorityQueue κ) :=
  if affinity ≠ 0 then do
    let q ← f q (nextCore affinity)
    forEachCore f (clearAffinityBit affinity (nextCore affinity)) q
  else
    return q
termination_by affinity.toNat
decreasing_by exact clearAffinityBit_lt ‹_›

variable (q : KPriorityQueue κ)

/-- `PushBack` at a priority. -/
def pushBackAt (priority : Int) (member : κ) : Except Fault (KPriorityQueue κ) := do
  assert (isValidPriority priority)
  let affinity := (q.attributes member).affinityMask
  let core := (q.attributes member).activeCore
  -- Push onto the scheduled queue for its core, and suggest it for all other cores.
  let (q, affinity) ←
    if 0 ≤ core then do
      let q ← KPriorityQueueImpl.pushBack q .scheduled priority core member
      pure (q, clearAffinityBit affinity core)
    else
      pure (q, affinity)
  forEachCore (fun q core => KPriorityQueueImpl.pushBack q .suggested priority core member)
    affinity q

/-- `PushFront` at a priority, which still pushes onto the back of the suggested queue. -/
def pushFrontAt (priority : Int) (member : κ) : Except Fault (KPriorityQueue κ) := do
  assert (isValidPriority priority)
  let affinity := (q.attributes member).affinityMask
  let core := (q.attributes member).activeCore
  let (q, affinity) ←
    if 0 ≤ core then do
      let q ← KPriorityQueueImpl.pushFront q .scheduled priority core member
      pure (q, clearAffinityBit affinity core)
    else
      pure (q, affinity)
  forEachCore (fun q core => KPriorityQueueImpl.pushBack q .suggested priority core member)
    affinity q

/-- `Remove` at a priority. -/
def removeAt (priority : Int) (member : κ) : Except Fault (KPriorityQueue κ) := do
  assert (isValidPriority priority)
  let affinity := (q.attributes member).affinityMask
  let core := (q.attributes member).activeCore
  let (q, affinity) ←
    if 0 ≤ core then do
      let q ← KPriorityQueueImpl.remove q .scheduled priority core member
      pure (q, clearAffinityBit affinity core)
    else
      pure (q, affinity)
  forEachCore (fun q core => KPriorityQueueImpl.remove q .suggested priority core member)
    affinity q

/-- `GetScheduledFront` and `GetSuggestedFront` of a core. -/
def getFront (q : KPriorityQueue κ) (kind : QueueKind) (core : Int) : Except Fault (Option κ) :=
  KPriorityQueueImpl.getFront q kind core

/-- `GetScheduledFront` and `GetSuggestedFront` of a core and a priority. -/
def getFrontAt (q : KPriorityQueue κ) (kind : QueueKind) (core priority : Int) :
    Except Fault (Option κ) :=
  KPriorityQueueImpl.getFrontAt q kind priority core

/-- `GetScheduledNext` and `GetSuggestedNext`. -/
def getNext (q : KPriorityQueue κ) (kind : QueueKind) (core : Int) (member : κ) :
    Except Fault (Option κ) :=
  KPriorityQueueImpl.getNext q kind core member

/-- `GetSamePriorityNext`. -/
def getSamePriorityNext (core : Int) (member : κ) : Option κ :=
  (q.entries core member).next

/-- `PushBack`. -/
def pushBack (member : κ) : Except Fault (KPriorityQueue κ) :=
  if (q.attributes member).isDummyThread then
    return q
  else
    q.pushBackAt (q.attributes member).priority member

/-- `Remove`. -/
def remove (member : κ) : Except Fault (KPriorityQueue κ) :=
  if (q.attributes member).isDummyThread then
    return q
  else
    q.removeAt (q.attributes member).priority member

/-- `MoveToScheduledFront`. -/
def moveToScheduledFront (member : κ) : Except Fault (KPriorityQueue κ) :=
  if (q.attributes member).isDummyThread then
    return q
  else
    KPriorityQueueImpl.moveToFront q .scheduled (q.attributes member).priority
      (q.attributes member).activeCore member

/-- `MoveToScheduledBack`. -/
def moveToScheduledBack (member : κ) : Except Fault (Option κ × KPriorityQueue κ) :=
  if (q.attributes member).isDummyThread then
    return (none, q)
  else
    KPriorityQueueImpl.moveToBack q .scheduled (q.attributes member).priority
      (q.attributes member).activeCore member

/-- `ChangePriority`. -/
def changePriority (prevPriority : Int) (isRunning : Bool) (member : κ) :
    Except Fault (KPriorityQueue κ) :=
  if (q.attributes member).isDummyThread then
    return q
  else do
    assert (isValidPriority prevPriority)
    let newPriority := (q.attributes member).priority
    let q ← q.removeAt prevPriority member
    -- If the member is running, we want to keep it running.
    if isRunning then
      q.pushFrontAt newPriority member
    else
      q.pushBackAt newPriority member

/-- The cores that a loop over all cores visits. -/
def cores : List Int := (List.range numCores).map Int.ofNat

/-- `ChangeAffinityMask`. -/
def changeAffinityMask (prevCore : Int) (prevAffinity : KAffinityMask)
    (member : κ) : Except Fault (KPriorityQueue κ) :=
  if (q.attributes member).isDummyThread then
    return q
  else do
    let priority := (q.attributes member).priority
    let newAffinity := (q.attributes member).affinityMask
    let newCore := (q.attributes member).activeCore
    -- Remove the member from all queues it was in before.
    let q ← cores.foldlM (fun q core =>
      if prevAffinity.getAffinity core then
        if core = prevCore then
          KPriorityQueueImpl.remove q .scheduled priority core member
        else
          KPriorityQueueImpl.remove q .suggested priority core member
      else
        return q) q
    -- And add the member to all queues it should be in now.
    cores.foldlM (fun q core =>
      if newAffinity.getAffinity core then
        if core = newCore then
          KPriorityQueueImpl.pushBack q .scheduled priority core member
        else
          KPriorityQueueImpl.pushBack q .suggested priority core member
      else
        return q) q

/-- What is done for a core only if it is one, and not -1. -/
def ifCore (core : Int) (f : KPriorityQueue κ → Except Fault (KPriorityQueue κ))
    (q : KPriorityQueue κ) : Except Fault (KPriorityQueue κ) :=
  if 0 ≤ core then f q else return q

/-- `ChangeCore`. -/
def changeCore (prevCore : Int) (member : κ) (toFront : Bool) : Except Fault (KPriorityQueue κ) :=
  if (q.attributes member).isDummyThread then
    return q
  else do
    let newCore := (q.attributes member).activeCore
    let priority := (q.attributes member).priority
    if prevCore ≠ newCore then
      let q ← ifCore prevCore
        (fun q => KPriorityQueueImpl.remove q .scheduled priority prevCore member) q
      -- Remove from the suggested queue and add to the scheduled queue for the new core.
      let q ← ifCore newCore (fun q => do
        let q ← KPriorityQueueImpl.remove q .suggested priority newCore member
        if toFront then
          KPriorityQueueImpl.pushFront q .scheduled priority newCore member
        else
          KPriorityQueueImpl.pushBack q .scheduled priority newCore member) q
      ifCore prevCore
        (fun q => KPriorityQueueImpl.pushBack q .suggested priority prevCore member) q
    else
      return q

end KPriorityQueue

end SumiEmu.Kernel
