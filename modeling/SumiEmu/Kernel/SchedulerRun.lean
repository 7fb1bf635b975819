/-
# Runs of the update of the highest priority threads

The first loop gives each core the front of its scheduled queue, and from then on
every migration keeps it so. A core that is left without a thread was offered
only threads that are alone on their cores, or a thread that waits behind one
whose priority forbids migration.
-/

import SumiEmu.Kernel.PriorityQueueMigration
import SumiEmu.Kernel.Scheduler

namespace SumiEmu.Kernel

open Common Fallible Linking KPriorityQueue WordBits Function List

variable {κ π : Type*} [DecidableEq κ]

/-! ## Assignments -/

section Assignments

variable {initial : Int → Option κ} {record : List (Int × Option κ)} {core c : Int}
  {value : Option κ}

/-- The fields after some assignments. -/
def replay (initial : Int → Option κ) (record : List (Int × Option κ)) : Int → Option κ :=
  record.foldl (fun fields assignment => update fields assignment.1 assignment.2) initial

/-- Some assignment gives a field a value that it does not have. -/
def Reassigned (initial : Int → Option κ) (record : List (Int × Option κ)) (core : Int) : Prop :=
  ∃ before value after, record = before ++ (core, value) :: after ∧
    replay initial before core ≠ value

omit [DecidableEq κ] in
theorem replay_append : replay initial (record ++ [(core, value)]) =
    update (replay initial record) core value := by
  rw [replay, foldl_append]
  rfl

omit [DecidableEq κ] in
theorem reassigned_append : Reassigned initial (record ++ [(core, value)]) c ↔
    Reassigned initial record c ∨ (c = core ∧ replay initial record core ≠ value) := by
  constructor
  · rintro ⟨before, value', after, split, different⟩
    rcases after.eq_nil_or_concat with rfl | ⟨after, last, rfl⟩
    · obtain ⟨rfl, same⟩ := append_inj' split rfl
      cases same
      exact .inr ⟨rfl, different⟩
    · rw [concat_eq_append, ← cons_append, ← append_assoc] at split
      exact .inl ⟨before, value', after, (append_inj' split rfl).1, different⟩
  · rintro (⟨before, value', after, rfl, different⟩ | ⟨rfl, different⟩)
    · exact ⟨before, value', after ++ [(core, value)], by simp, different⟩
    · exact ⟨record, value, [], rfl, different⟩

end Assignments

namespace KernelCore

variable (kernel : KernelCore κ)

/-- The highest priority thread of a core. -/
def highest (core : Int) : Option κ :=
  (kernel.schedulers core).highestPriorityThread

/-- A thread is the highest priority thread of its own core. -/
def IsTop (member : κ) : Prop :=
  0 ≤ (kernel.priorityQueue.attributes member).activeCore ∧
    kernel.highest (kernel.priorityQueue.attributes member).activeCore = some member

/-- A thread belongs into the scheduled or the suggested queue of a core. -/
def Offers (kind : QueueKind) (core : Int) (member : κ) : Prop :=
  (kernel.priorityQueue.attributes member).BelongsTo kind
    (kernel.priorityQueue.attributes member).priority core

/-- Each thread that is suggested for a core is the top thread of its own core, and no
other thread is scheduled there. -/
def Exhausted (threads : Finset κ) (core : Int) : Prop :=
  ∀ member ∈ threads, kernel.Offers .suggested core member →
    kernel.IsTop member ∧ ∀ other ∈ threads,
      kernel.Offers .scheduled (kernel.priorityQueue.attributes member).activeCore other →
        other = member

/-- The walk over the suggestions for a core finds top threads only, up to a thread whose
core has a top thread that may not be left without it. -/
def Stopped (core : Int) : Prop :=
  ∃ before suggested after topThread,
    kernel.priorityQueue.Walks .suggested core (before ++ suggested :: after) ∧
    (∀ member ∈ before, kernel.IsTop member) ∧
    0 ≤ (kernel.priorityQueue.attributes suggested).activeCore ∧
    kernel.highest (kernel.priorityQueue.attributes suggested).activeCore = some topThread ∧
    topThread ≠ suggested ∧
    (kernel.priorityQueue.attributes topThread).priority < highestCoreMigrationAllowedPriority

end KernelCore

namespace SchedulerUpdate

variable {threads : Finset κ} {u u' : SchedulerUpdate κ} {initial : KernelCore κ}
  {record : List (Int × Option κ)} {core c : Int} {topThread : Option κ} {member : κ}

/-! ## Giving a core its top thread -/

theorem setTopThread_priorityQueue :
    (u.setTopThread core topThread).priorityQueue = u.priorityQueue := by
  rw [setTopThread, KernelCore.updateHighestPriorityThread]
  dsimp only
  split <;> rfl

theorem setTopThread_topThreads :
    (u.setTopThread core topThread).topThreads = update u.topThreads core topThread := rfl

theorem setTopThread_idleCores : (u.setTopThread core topThread).idleCores = u.idleCores := rfl

theorem setTopThread_highest : (u.setTopThread core topThread).highest =
    update u.highest core topThread := by
  funext c
  rw [setTopThread, KernelCore.updateHighestPriorityThread]
  dsimp only
  by_cases here : c = core
  · subst here
    rw [update_self]
    split
    · dsimp only [KernelCore.highest]
      rw [update_self]
    · next same => exact not_not.mp same
  · rw [update_of_ne here]
    split
    · dsimp only [KernelCore.highest]
      rw [update_of_ne here]
    · rfl

theorem setTopThread_of_eq (same : u.highest core = topThread) :
    (u.setTopThread core topThread).assignments = u.assignments ∧
      (u.setTopThread core topThread).coresNeedingScheduling = u.coresNeedingScheduling := by
  change (u.schedulers core).highestPriorityThread = topThread at same
  rw [setTopThread, KernelCore.updateHighestPriorityThread]
  dsimp only
  rw [if_neg (not_not.mpr same)]
  exact ⟨rfl, BitVec.or_zero⟩

theorem setTopThread_of_ne (different : u.highest core ≠ topThread) :
    (u.setTopThread core topThread).assignments = u.assignments ++ [(core, topThread)] ∧
      (u.setTopThread core topThread).coresNeedingScheduling =
        u.coresNeedingScheduling ||| 1#64 <<< core.toNat := by
  change (u.schedulers core).highestPriorityThread ≠ topThread at different
  rw [setTopThread, KernelCore.updateHighestPriorityThread]
  dsimp only
  rw [if_pos different]
  exact ⟨rfl, rfl⟩

/-- The fields and the mask are as the assignments since a first state say. -/
structure Recorded (initial : KernelCore κ) (record : List (Int × Option κ))
    (u : SchedulerUpdate κ) : Prop where
  assignments : u.assignments = initial.assignments ++ record
  fields : u.highest = replay initial.highest record
  mask : ∀ j, u.coresNeedingScheduling.getLsbD j = true ↔
    ∃ core, isValidCore core = true ∧ core.toNat = j ∧ Reassigned initial.highest record core

theorem Recorded.setTopThread (recorded : Recorded initial record u)
    (validCore : isValidCore core = true) (topThread : Option κ) :
    ∃ record', Recorded initial record' (u.setTopThread core topThread) := by
  by_cases same : u.highest core = topThread
  · obtain ⟨assignments, mask⟩ := setTopThread_of_eq same
    refine ⟨record, assignments.trans recorded.assignments, ?_, fun j => ?_⟩
    · rw [setTopThread_highest, ← same, update_eq_self]
      exact recorded.fields
    · rw [mask]
      exact recorded.mask j
  · obtain ⟨assignments, mask⟩ := setTopThread_of_ne same
    refine ⟨record ++ [(core, topThread)], ?_, ?_, fun j => ?_⟩
    · rw [assignments, recorded.assignments, append_assoc]
    · rw [setTopThread_highest, recorded.fields, replay_append]
    · have inside := isValidCore_iff.mp validCore
      rw [recorded.fields] at same
      rw [mask, BitVec.getLsbD_or, Bool.or_eq_true, recorded.mask,
        getLsbD_one_shiftLeft (show core.toNat < 64 by omega), decide_eq_true_eq]
      constructor
      · rintro (⟨c, valid, place, earlier⟩ | rfl)
        · exact ⟨c, valid, place, reassigned_append.mpr (.inl earlier)⟩
        · exact ⟨core, validCore, rfl, reassigned_append.mpr (.inr ⟨rfl, same⟩)⟩
      · rintro ⟨c, valid, place, reassigned⟩
        rcases reassigned_append.mp reassigned with earlier | ⟨rfl, -⟩
        · exact .inl ⟨c, valid, place, earlier⟩
        · exact .inr place.symm

/-! ## The first loop -/

/-- Some cores have been given the fronts of their scheduled queues. -/
structure Begun (initial : KernelCore κ) (done : List Int) (u : SchedulerUpdate κ) : Prop where
  queue : u.priorityQueue = initial.priorityQueue
  recorded : ∃ record, Recorded initial record u
  front : ∀ core ∈ done, u.priorityQueue.getFront .scheduled core = .ok (u.topThreads core)
  highest : ∀ core ∈ done, u.highest core = u.topThreads core
  idle : ∀ j, u.idleCores.getLsbD j = true ↔
    ∃ core ∈ done, core.toNat = j ∧ u.topThreads core = none

variable {processes : KThreads κ π}

theorem preferPinned_eq
    (unpinned : ∀ process core, processes.pinnedThread process core = none) (topThread : κ) :
    preferPinned processes core topThread = some topThread := by
  have absent : ((processes.ownerProcess topThread).bind fun parent =>
      processes.pinnedThread parent core) = none := by
    cases processes.ownerProcess topThread with
    | none => rfl
    | some parent => exact unpinned parent core
  rw [preferPinned, absent]

theorem Begun.updateCore {done : List Int}
    (unpinned : ∀ process core, processes.pinnedThread process core = none)
    (begun : Begun initial done u) (consistent : initial.priorityQueue.Consistent threads)
    (validCore : isValidCore core = true) (fresh : core ∉ done) :
    ∃ u', updateCore processes u core = .ok u' ∧ Begun initial (done ++ [core]) u' := by
  obtain ⟨-, lists, rep⟩ := consistent.placed
  obtain ⟨record, recorded⟩ := begun.recorded
  have front : initial.priorityQueue.getFront .scheduled core =
      .ok (lists.all .scheduled core).head? := rep.getFront validCore
  rw [← begun.queue] at front
  generalize found : (lists.all .scheduled core).head? = first at front
  have apart : ∀ c ∈ done, c ≠ core := fun c inside same => fresh (same ▸ inside)
  -- an idle core is marked before it is given no thread
  have given : ∀ w : SchedulerUpdate κ, w.toKernelCore = u.toKernelCore →
      w.topThreads = u.topThreads → w.coresNeedingScheduling = u.coresNeedingScheduling →
      (∀ j, w.idleCores.getLsbD j = true ↔
        u.idleCores.getLsbD j = true ∨ (first = none ∧ core.toNat = j)) →
      Begun initial (done ++ [core]) (w.setTopThread core first) := by
    intro w kernel topThreads mask idle
    have recorded' : Recorded initial record w := by
      refine ⟨?_, ?_, fun j => ?_⟩
      · rw [kernel]
        exact recorded.assignments
      · rw [kernel]
        exact recorded.fields
      · rw [mask]
        exact recorded.mask j
    refine ⟨?_, recorded'.setTopThread validCore first, fun c inside => ?_, fun c inside => ?_,
      fun j => ?_⟩
    · rw [setTopThread_priorityQueue, kernel]
      exact begun.queue
    · rw [setTopThread_priorityQueue, kernel, setTopThread_topThreads, topThreads]
      rcases mem_append.mp inside with earlier | last
      · rw [update_of_ne (apart c earlier)]
        exact begun.front c earlier
      · obtain rfl := mem_singleton.mp last
        rw [update_self]
        exact front
    · rw [setTopThread_highest, setTopThread_topThreads, kernel, topThreads]
      rcases mem_append.mp inside with earlier | last
      · rw [update_of_ne (apart c earlier), update_of_ne (apart c earlier)]
        exact begun.highest c earlier
      · obtain rfl := mem_singleton.mp last
        rw [update_self, update_self]
    · rw [setTopThread_idleCores, idle, begun.idle, setTopThread_topThreads, topThreads]
      constructor
      · rintro (⟨c, inside, place, none'⟩ | ⟨none', place⟩)
        · refine ⟨c, mem_append_left _ inside, place, ?_⟩
          rwa [update_of_ne (apart c inside)]
        · refine ⟨core, mem_append_right _ (mem_singleton_self core), place, ?_⟩
          rwa [update_self]
      · rintro ⟨c, inside, place, none'⟩
        rcases mem_append.mp inside with earlier | last
        · rw [update_of_ne (apart c earlier)] at none'
          exact .inl ⟨c, earlier, place, none'⟩
        · obtain rfl := mem_singleton.mp last
          rw [update_self] at none'
          exact .inr ⟨none', place⟩
  rw [SchedulerUpdate.updateCore, front, ok_bind]
  cases first with
  | none =>
    refine ⟨_, rfl, given _ rfl rfl rfl fun j => ?_⟩
    have inside := isValidCore_iff.mp validCore
    rw [BitVec.getLsbD_or, Bool.or_eq_true, getLsbD_one_shiftLeft (show core.toNat < 64 by omega),
      decide_eq_true_eq, eq_comm (a := j)]
    simp
  | some topThread =>
    refine ⟨_, rfl, ?_⟩
    rw [preferPinned_eq unpinned]
    refine given u rfl rfl rfl fun j => ?_
    simp

omit [DecidableEq κ] in
theorem begun_start (initial : KernelCore κ) : Begun initial []
    { initial with isSchedulerUpdateNeeded := false, topThreads := fun _ => none } := by
  refine ⟨rfl, ⟨[], ⟨?_, rfl, fun j => ?_⟩⟩, fun c absurdity => ?_, fun c absurdity => ?_,
    fun j => ?_⟩
  · exact (append_nil _).symm
  · refine iff_of_false (Bool.eq_false_iff.mp BitVec.getLsbD_zero) ?_
    rintro ⟨core, -, -, before, value, after, split, -⟩
    exact cons_ne_nil _ _ (append_eq_nil_iff.mp split.symm).2
  · cases absurdity
  · cases absurdity
  · refine iff_of_false (Bool.eq_false_iff.mp BitVec.getLsbD_zero) ?_
    rintro ⟨core, absurdity, -⟩
    cases absurdity

theorem Begun.run (unpinned : ∀ process core, processes.pinnedThread process core = none)
    (consistent : initial.priorityQueue.Consistent threads) (done rest : List Int)
    (valid : ∀ core ∈ done ++ rest, isValidCore core = true) (nodup : (done ++ rest).Nodup)
    (begun : Begun initial done u) :
    ∃ u', rest.foldlM (SchedulerUpdate.updateCore processes) u = .ok u' ∧
      Begun initial (done ++ rest) u' := by
  induction rest generalizing done u with
  | nil => exact ⟨u, rfl, by rwa [append_nil]⟩
  | cons core rest ih =>
    have fresh := (nodup_cons.mp (nodup_middle.mp nodup)).1
    rw [mem_append, not_or] at fresh
    obtain ⟨u₁, first, begun₁⟩ := begun.updateCore unpinned consistent
      (valid core (mem_append_right _ mem_cons_self)) fresh.1
    rw [append_cons] at valid nodup ⊢
    obtain ⟨u', later, begun'⟩ := ih (done ++ [core]) valid nodup begun₁
    exact ⟨u', bind_eq_ok.mpr ⟨u₁, first, later⟩, begun'⟩

/-- Each core has the front of its scheduled queue as its top thread. -/
structure Settled (u : SchedulerUpdate κ) (threads : Finset κ) : Prop where
  consistent : u.priorityQueue.Consistent threads
  front : ∀ core, isValidCore core = true →
    u.priorityQueue.getFront .scheduled core = .ok (u.topThreads core)
  highest : ∀ core, isValidCore core = true → u.highest core = u.topThreads core

/-- After the first loop each core is settled, and those without a thread are marked idle. -/
theorem updateCores_spec (unpinned : ∀ process core, processes.pinnedThread process core = none)
    (consistent : initial.priorityQueue.Consistent threads) :
    ∃ u record, initial.updateCores processes = .ok u ∧ u.Settled threads ∧
      Recorded initial record u ∧
      ∀ core, core ∈ setCores u.idleCores ↔
        isValidCore core = true ∧ u.topThreads core = none := by
  obtain ⟨u, run, begun⟩ := (begun_start initial).run unpinned consistent [] cores
    (fun core inside => mem_cores.mp inside) nodup_cores
  obtain ⟨record, recorded⟩ := begun.recorded
  refine ⟨u, record, run, ⟨?_, fun core valid => ?_, fun core valid => ?_⟩, recorded,
    fun core => ?_⟩
  · rw [begun.queue]
    exact consistent
  · exact begun.front core (mem_cores.mpr valid)
  · exact begun.highest core (mem_cores.mpr valid)
  · rw [mem_setCores, begun.idle]
    constructor
    · rintro ⟨nonneg, c, inside, place, empty⟩
      have valid := mem_cores.mp inside
      have same : c = core := by
        have := (isValidCore_iff.mp valid).1
        omega
      exact same ▸ ⟨valid, empty⟩
    · rintro ⟨valid, empty⟩
      exact ⟨(isValidCore_iff.mp valid).1, core, mem_cores.mpr valid, rfl, empty⟩

/-! ## The search for a suggestion -/

section Suggestions

variable {lists : KPriorityQueue.Lists κ} (settled : u.Settled threads)
  (rep : u.priorityQueue.Represents lists (expected u.priorityQueue.attributes threads))
include settled rep

theorem Settled.topThreads_eq (valid : isValidCore core = true) :
    u.topThreads core = (lists.all .scheduled core).head? := by
  have front := settled.front core valid
  rw [rep.getFront valid] at front
  exact (Except.ok.inj front).symm

omit rep in
theorem Settled.enqueued (valid : isValidCore core = true) (top : u.topThreads core = some member) :
    member ∈ threads ∧ u.Offers .scheduled core member := by
  obtain ⟨-, lists, rep⟩ := settled.consistent.placed
  rw [settled.topThreads_eq rep valid] at top
  exact (rep.mem_all_iff settled.consistent.suitable).mp (mem_of_head? top)

omit rep in
/-- The top thread of a core is active on that core. -/
theorem Settled.activeCore_eq (valid : isValidCore core = true)
    (top : u.topThreads core = some member) :
    (u.priorityQueue.attributes member).activeCore = core :=
  ((settled.enqueued valid top).2.2.2.2.2).symm

omit rep in
theorem Settled.isTop_iff (enqueued : member ∈ threads)
    (active : (u.priorityQueue.attributes member).isDummyThread = false) :
    u.IsTop member ↔ 0 ≤ (u.priorityQueue.attributes member).activeCore ∧
      u.topThreads (u.priorityQueue.attributes member).activeCore = some member := by
  refine and_congr_right fun nonneg => ?_
  have valid := (settled.consistent.suitable member enqueued active).activeCore nonneg
  rw [settled.highest _ (isValidCore_iff.mpr ⟨nonneg, valid.1⟩)]

omit rep in
/-- There are no more top threads than cores. -/
theorem Settled.length_le {l : List κ} (enqueued : ∀ m ∈ l, m ∈ threads ∧
      (u.priorityQueue.attributes m).isDummyThread = false)
    (tops : ∀ m ∈ l, u.IsTop m) (nodup : l.Nodup) : l.length ≤ numCores := by
  have injective : ∀ m ∈ l, ∀ m' ∈ l, (u.priorityQueue.attributes m).activeCore =
      (u.priorityQueue.attributes m').activeCore → m = m' := by
    intro m inside m' inside' same
    have top := (tops m inside).2
    rw [same, (tops m' inside').2] at top
    exact (Option.some.inj top).symm
  have inside : l.map (fun m => (u.priorityQueue.attributes m).activeCore) ⊆ cores := by
    intro core visited
    obtain ⟨m, inside, rfl⟩ := mem_map.mp visited
    obtain ⟨present, active⟩ := enqueued m inside
    have nonneg := (tops m inside).1
    have small := (settled.consistent.suitable m present active).activeCore nonneg
    exact mem_cores.mpr (isValidCore_iff.mpr ⟨nonneg, small.1⟩)
  have short := ((nodup.map_on injective).subperm inside).length_le
  rwa [length_map] at short

omit rep in
theorem findSuggestion_spec (core : Int) {next : κ → Option κ} (done rest : List κ)
    (enqueued : ∀ m ∈ done ++ rest, m ∈ threads ∧
      (u.priorityQueue.attributes m).isDummyThread = false)
    (nodup : (done ++ rest).Nodup) (tops : ∀ m ∈ done, u.IsTop m)
    (steps : ∀ m ∈ rest, u.priorityQueue.getNext .suggested core m = .ok (next m))
    (linked : Linked next rest.head? rest none) :
    ∃ result, u.findSuggestion core rest.head?
        (done.map fun m => (u.priorityQueue.attributes m).activeCore) = .ok result ∧
      ((result = .candidates
            ((done ++ rest).map fun m => (u.priorityQueue.attributes m).activeCore) ∧
          ∀ m ∈ done ++ rest, u.IsTop m) ∨
        (result = .stop ∧ ∃ before suggested after topThread,
          done ++ rest = before ++ suggested :: after ∧ (∀ m ∈ before, u.IsTop m) ∧
          0 ≤ (u.priorityQueue.attributes suggested).activeCore ∧
          u.highest (u.priorityQueue.attributes suggested).activeCore = some topThread ∧
          topThread ≠ suggested ∧
          (u.priorityQueue.attributes topThread).priority < highestCoreMigrationAllowedPriority) ∨
        ∃ m ∈ rest, result = .migrate m ∧ ¬ u.IsTop m) := by
  induction rest generalizing done with
  | nil =>
    rw [append_nil, head?_nil, findSuggestion]
    exact ⟨_, rfl, .inl ⟨rfl, tops⟩⟩
  | cons m rest ih =>
    obtain ⟨present, active⟩ := enqueued m (mem_append_right _ mem_cons_self)
    have isTop := settled.isTop_iff present active
    rw [head?_cons, findSuggestion]
    generalize found : (if 0 ≤ (u.priorityQueue.attributes m).activeCore then
      u.topThreads (u.priorityQueue.attributes m).activeCore else none) = topThread
    by_cases different : topThread ≠ some m
    · have notTop : ¬ u.IsTop m := by
        intro top
        obtain ⟨nonneg, top⟩ := isTop.mp top
        rw [if_pos nonneg, top] at found
        exact different found.symm
      rw [if_pos different]
      cases topThread with
      | none => exact ⟨_, rfl, .inr (.inr ⟨m, mem_cons_self, rfl, notTop⟩)⟩
      | some topThread =>
        split at found
        · next nonneg =>
          split
          · next high =>
            have valid := (settled.consistent.suitable m present active).activeCore nonneg
            have highest := settled.highest _ (isValidCore_iff.mpr ⟨nonneg, valid.1⟩)
            refine ⟨_, rfl, .inr (.inl ⟨rfl, done, m, rest, topThread, rfl, tops, nonneg,
              highest.trans found, ?_, of_decide_eq_true high⟩)⟩
            exact fun same => different (congrArg some same)
          · exact ⟨_, rfl, .inr (.inr ⟨m, mem_cons_self, rfl, notTop⟩)⟩
        · cases found
    · rw [if_neg different]
      rw [ne_eq, not_not] at different
      subst different
      have top : u.IsTop m := by
        split at found
        · next nonneg => exact isTop.mpr ⟨nonneg, found⟩
        · cases found
      rw [append_cons done m rest] at enqueued nodup ⊢
      have tops' : ∀ m' ∈ done ++ [m], u.IsTop m' := by
        intro m' inside
        rcases mem_append.mp inside with earlier | last
        · exact tops m' earlier
        · exact mem_singleton.mp last ▸ top
      -- another candidate still fits, as each is the top thread of its own core
      have room := settled.length_le (fun m' inside => enqueued m' (mem_append_left _ inside))
        tops' nodup.of_append_left
      rw [length_append, length_singleton] at room
      rw [if_pos (by rw [length_map]; omega), steps m mem_cons_self, ok_bind]
      obtain ⟨-, linked⟩ := linked
      have head : next m = rest.head? := by
        cases rest with
        | nil => exact linked
        | cons m' rest => exact linked.1
      rw [head] at linked ⊢
      obtain ⟨result, found, outcome⟩ := ih (done ++ [m]) enqueued nodup tops'
        (fun m' inside => steps m' (mem_cons_of_mem m inside)) linked
      rw [map_append, map_singleton] at found
      refine ⟨result, found, ?_⟩
      rcases outcome with all | stop | ⟨m', inside, migrate⟩
      · exact .inl all
      · exact .inr (.inl stop)
      · exact .inr (.inr ⟨m', mem_cons_of_mem m inside, migrate⟩)

theorem tryCandidates_spec (core : Int) (l : List κ) (enqueued : ∀ m ∈ l, m ∈ threads ∧
      (u.priorityQueue.attributes m).isDummyThread = false) (tops : ∀ m ∈ l, u.IsTop m) :
    (u.tryCandidates core (l.map fun m => (u.priorityQueue.attributes m).activeCore) = .ok u ∧
        ∀ m ∈ l, lists.all .scheduled (u.priorityQueue.attributes m).activeCore = [m]) ∨
      ∃ m ∈ l, ∃ next rest,
        lists.all .scheduled (u.priorityQueue.attributes m).activeCore = m :: next :: rest ∧
        u.tryCandidates core (l.map fun m => (u.priorityQueue.attributes m).activeCore) =
          (u.setTopThread (u.priorityQueue.attributes m).activeCore (some next)).migrate
            (u.priorityQueue.attributes m).activeCore core m := by
  induction l with
  | nil =>
    refine .inl ⟨rfl, fun m absurdity => ?_⟩
    cases absurdity
  | cons m l ih =>
    obtain ⟨present, active⟩ := enqueued m mem_cons_self
    obtain ⟨nonneg, top⟩ := (settled.isTop_iff present active).mp (tops m mem_cons_self)
    have valid : isValidCore (u.priorityQueue.attributes m).activeCore = true :=
      isValidCore_iff.mpr ⟨nonneg,
        ((settled.consistent.suitable m present active).activeCore nonneg).1⟩
    have front := settled.topThreads_eq rep valid
    rw [top] at front
    obtain ⟨rest, visited⟩ : ∃ rest,
        lists.all .scheduled (u.priorityQueue.attributes m).activeCore = m :: rest := by
      cases scheduled : lists.all .scheduled (u.priorityQueue.attributes m).activeCore with
      | nil =>
        rw [scheduled] at front
        cases front
      | cons first rest =>
        rw [scheduled] at front
        cases front
        exact ⟨rest, rfl⟩
    have walks : u.priorityQueue.Walks .scheduled (u.priorityQueue.attributes m).activeCore
        (lists.all .scheduled (u.priorityQueue.attributes m).activeCore) :=
      rep.walks settled.consistent.suitable valid
    rw [visited] at walks
    rw [map_cons, tryCandidates, top]
    dsimp only
    rw [walks.next_head, ok_bind]
    cases rest with
    | nil =>
      rcases ih (fun m' inside => enqueued m' (mem_cons_of_mem m inside))
        (fun m' inside => tops m' (mem_cons_of_mem m inside)) with
        ⟨unchanged, alone⟩ | ⟨m', inside, next, rest, visited', moved⟩
      · exact .inl ⟨unchanged, forall_mem_cons.mpr ⟨visited, alone⟩⟩
      · exact .inr ⟨m', mem_cons_of_mem m inside, next, rest, visited', moved⟩
    | cons next rest => exact .inr ⟨m, mem_cons_self, next, rest, visited, rfl⟩

end Suggestions

/-! ## The second loop -/

/-- What the second loop does at an idle core. -/
structure Advances (threads : Finset κ) (u u' : SchedulerUpdate κ) (core : Int) : Prop where
  settled : u'.Settled threads
  recorded : ∀ initial record, Recorded initial record u → ∃ record', Recorded initial record' u'
  idle : ∀ c, isValidCore c = true → c ≠ core → (u'.topThreads c = none ↔ u.topThreads c = none)
  exhausted : ∀ c, isValidCore c = true → c ≠ core → u.topThreads c = none →
    u.Exhausted threads c → u'.Exhausted threads c
  decided : u'.topThreads core = none → u' = u ∧ (u.Exhausted threads core ∨ u.Stopped core)

section

variable (settled : u.Settled threads)

include settled

/-- A migration to a core does not offer anything to another core that was left without. -/
theorem Settled.exhausted (settled' : u'.Settled threads)
    (attributes : u'.priorityQueue.attributes = update u.priorityQueue.attributes member
      { u.priorityQueue.attributes member with activeCore := core })
    (kept : ∀ d, d ≠ core → d ≠ (u.priorityQueue.attributes member).activeCore →
      u'.topThreads d = u.topThreads d)
    (empty : u.topThreads core = none) (validCore : isValidCore core = true)
    (scheduled : 0 ≤ (u.priorityQueue.attributes member).activeCore → member ∈ threads ∧
      u.Offers .scheduled (u.priorityQueue.attributes member).activeCore member)
    (notAlone : ¬ (u.IsTop member ∧ ∀ other ∈ threads,
      u.Offers .scheduled (u.priorityQueue.attributes member).activeCore other → other = member))
    (apart : c ≠ (u.priorityQueue.attributes member).activeCore)
    (exhausted : u.Exhausted threads c) : u'.Exhausted threads c := by
  have moved : u'.priorityQueue.attributes member =
      { u.priorityQueue.attributes member with activeCore := core } := by
    rw [attributes, update_self]
  have others : ∀ x, x ≠ member →
      u'.priorityQueue.attributes x = u.priorityQueue.attributes x := by
    intro x other
    rw [attributes, update_of_ne other]
  intro x present offers
  rw [KernelCore.Offers] at offers
  have offered : u.Offers .suggested c x := by
    by_cases same : x = member
    · subst same
      rw [moved] at offers
      obtain ⟨active, -, below, valid, -, bit⟩ := offers
      exact ⟨active, rfl, below, valid, apart, bit⟩
    · rwa [others x same] at offers
  obtain ⟨⟨nonneg, top⟩, alone⟩ := exhausted x present offered
  have other : x ≠ member := by
    rintro rfl
    exact notAlone ⟨⟨nonneg, top⟩, alone⟩
  have valid : isValidCore (u.priorityQueue.attributes x).activeCore = true :=
    isValidCore_iff.mpr ⟨nonneg,
      ((settled.consistent.suitable x present offered.1).activeCore nonneg).1⟩
  have notCore : (u.priorityQueue.attributes x).activeCore ≠ core := by
    intro same
    rw [same, settled.highest core validCore, empty] at top
    cases top
  have notPrev : (u.priorityQueue.attributes x).activeCore ≠
      (u.priorityQueue.attributes member).activeCore := by
    intro same
    obtain ⟨present', here⟩ := scheduled (same ▸ nonneg)
    rw [← same] at here
    exact other (alone member present' here).symm
  rw [KernelCore.IsTop, others x other]
  refine ⟨⟨nonneg, ?_⟩, fun y present' scheduled' => ?_⟩
  · rw [settled'.highest _ valid, kept _ notCore notPrev, ← settled.highest _ valid]
    exact top
  · rw [KernelCore.Offers] at scheduled'
    by_cases same : y = member
    · subst same
      rw [moved] at scheduled'
      exact absurd scheduled'.2.2.2.2 notCore
    · rw [others y same] at scheduled'
      exact alone y present' scheduled'

/-- A suggested thread migrates, when its own core has been given another thread if need be. -/
theorem Settled.migrate {lists : KPriorityQueue.Lists κ}
    (rep : u.priorityQueue.Represents lists (expected u.priorityQueue.attributes threads))
    (empty : u.topThreads core = none) (enqueued : member ∈ threads)
    (suggested : u.Offers .suggested core member)
    (notAlone : ¬ (u.IsTop member ∧ ∀ other ∈ threads,
      u.Offers .scheduled (u.priorityQueue.attributes member).activeCore other → other = member))
    (w : SchedulerUpdate κ) (queue : w.priorityQueue = u.priorityQueue)
    (recorded : ∀ initial record, Recorded initial record u →
      ∃ record', Recorded initial record' w)
    (highest : ∀ c, isValidCore c = true → w.highest c = w.topThreads c)
    (kept : ∀ c, c ≠ (u.priorityQueue.attributes member).activeCore →
      w.topThreads c = u.topThreads c)
    (left : 0 ≤ (u.priorityQueue.attributes member).activeCore →
      w.topThreads (u.priorityQueue.attributes member).activeCore ≠ none ∧
      ∀ l, Without member (lists.all .scheduled (u.priorityQueue.attributes member).activeCore) l →
        w.topThreads (u.priorityQueue.attributes member).activeCore = l.head?) :
    ∃ u', w.migrate (u.priorityQueue.attributes member).activeCore core member = .ok u' ∧
      Advances threads u u' core := by
  obtain ⟨q', lists', changed, consistent', attributes', rep', migrated, -⟩ :=
    settled.consistent.migrate rep enqueued suggested false
  have validCore := suggested.2.2.2.1
  have other := suggested.2.2.2.2.1
  have active := suggested.1
  generalize prev_eq : (u.priorityQueue.attributes member).activeCore = prev at *
  obtain ⟨u', moved, queue', tops', highest', recorded'⟩ :
      ∃ u', w.migrate prev core member = .ok u' ∧ u'.priorityQueue = q' ∧
        u'.topThreads = update w.topThreads core (some member) ∧
        u'.highest = update w.highest core (some member) ∧
        ∀ initial record, Recorded initial record w → ∃ record', Recorded initial record' u' := by
    refine ⟨{ w with priorityQueue := q' }.setTopThread core (some member), ?_, ?_, ?_, ?_,
      fun initial record recorded => ?_⟩
    · rw [SchedulerUpdate.migrate, queue, changed]
      rfl
    · exact setTopThread_priorityQueue
    · exact setTopThread_topThreads
    · exact setTopThread_highest
    · have same : Recorded initial record { w with priorityQueue := q' } :=
        ⟨recorded.assignments, recorded.fields, recorded.mask⟩
      exact same.setTopThread validCore (some member)
  have walk_core : lists'.all .scheduled core = [member] := by
    have front := settled.topThreads_eq rep validCore
    rw [empty] at front
    obtain ⟨before, after, entered, nothing⟩ := migrated.entered
    rw [head?_eq_none_iff.mp front.symm, eq_comm, append_eq_nil_iff] at nothing
    rw [entered, nothing.1, nothing.2]
    rfl
  have settled' : u'.Settled threads := by
    refine ⟨queue' ▸ consistent', fun c valid => ?_, fun c valid => ?_⟩
    · rw [queue', KPriorityQueue.Represents.getFront rep' valid, tops']
      by_cases here : c = core
      · rw [here, walk_core, update_self]
        rfl
      · rw [update_of_ne here]
        by_cases there : c = prev
        · subst there
          have nonneg := (isValidCore_iff.mp valid).1
          rw [(left nonneg).2 _ (migrated.left nonneg)]
        · rw [kept c there, migrated.others _ c there here, settled.topThreads_eq rep valid]
    · rw [highest', tops']
      by_cases here : c = core
      · rw [here, update_self, update_self]
      · rw [update_of_ne here, update_of_ne here]
        exact highest c valid
  have scheduled : 0 ≤ prev → u.Offers .scheduled prev member := by
    intro nonneg
    subst prev_eq
    have small := (settled.consistent.suitable member enqueued active).activeCore nonneg
    exact ⟨active, rfl, suggested.2.2.1, isValidCore_iff.mpr ⟨nonneg, small.1⟩, rfl⟩
  have occupied : isValidCore prev = true → u.topThreads prev ≠ none := by
    intro valid none'
    rw [settled.topThreads_eq rep valid, head?_eq_none_iff] at none'
    have inside := (rep.mem_all_iff settled.consistent.suitable).mpr
      ⟨enqueued, scheduled (isValidCore_iff.mp valid).1⟩
    rw [none'] at inside
    cases inside
  refine ⟨u', moved, settled', fun initial record before => ?_, fun c valid away => ?_,
    fun c valid away idle exhausted => ?_, fun absurdity => ?_⟩
  · obtain ⟨record', between⟩ := recorded initial record before
    exact recorded' initial record' between
  · rw [tops', update_of_ne away]
    by_cases there : c = prev
    · subst there
      have nonneg := (isValidCore_iff.mp valid).1
      exact iff_of_false (left nonneg).1 (occupied valid)
    · rw [kept c there]
  · have notPrev : c ≠ prev := by
      rintro rfl
      exact occupied valid idle
    subst prev_eq
    refine settled.exhausted settled' (queue' ▸ attributes') (fun d notCore notPrev => ?_) empty
      validCore (fun nonneg => ⟨enqueued, scheduled nonneg⟩) notAlone notPrev exhausted
    rw [tops', update_of_ne notCore, kept d notPrev]
  · rw [tops', update_self] at absurdity
    cases absurdity

/-- A core that nothing can be migrated to stays idle. -/
theorem Settled.stays
    (blocked : u.Exhausted threads core ∨ u.Stopped core) : Advances threads u u core :=
  ⟨settled, fun _ record recorded => ⟨record, recorded⟩, fun _ _ _ => Iff.rfl,
    fun _ _ _ _ exhausted => exhausted, fun _ => ⟨rfl, blocked⟩⟩

theorem Settled.migrateTo (validCore : isValidCore core = true)
    (empty : u.topThreads core = none) :
    ∃ u', u.migrateTo core = .ok u' ∧ Advances threads u u' core := by
  obtain ⟨-, lists, rep⟩ := settled.consistent.placed
  have suitable := settled.consistent.suitable
  have walks : u.priorityQueue.Walks .suggested core (lists.all .suggested core) :=
    rep.walks suitable validCore
  obtain ⟨front, next, steps, linked⟩ := walks
  have offered : ∀ m, m ∈ lists.all .suggested core ↔
      m ∈ threads ∧ u.Offers .suggested core m := fun m => rep.mem_all_iff suitable
  have enqueued : ∀ m ∈ lists.all .suggested core, m ∈ threads ∧
      (u.priorityQueue.attributes m).isDummyThread = false := fun m inside =>
    ⟨((offered m).mp inside).1, ((offered m).mp inside).2.1⟩
  have activeCore_valid : ∀ m ∈ lists.all .suggested core,
      0 ≤ (u.priorityQueue.attributes m).activeCore →
      isValidCore (u.priorityQueue.attributes m).activeCore = true := by
    intro m inside nonneg
    obtain ⟨present, active⟩ := enqueued m inside
    exact isValidCore_iff.mpr ⟨nonneg, ((suitable m present active).activeCore nonneg).1⟩
  obtain ⟨result, found, outcome⟩ := findSuggestion_spec settled core []
    (lists.all .suggested core) enqueued rep.nodup_all (fun m absurdity => by cases absurdity) steps
    linked
  rw [SchedulerUpdate.migrateTo, front, ok_bind]
  change u.findSuggestion core (lists.all .suggested core).head? [] = .ok result at found
  rw [found, ok_bind]
  rcases outcome with ⟨rfl, tops⟩ | ⟨rfl, before, suggested, after, topThread, split, blocked⟩ |
    ⟨m, inside, rfl, notTop⟩
  · rw [nil_append] at tops ⊢
    dsimp only
    rcases tryCandidates_spec settled rep core (lists.all .suggested core) enqueued tops with
      ⟨unchanged, alone⟩ | ⟨m, inside, next, rest, visited, moved⟩
    · refine ⟨u, unchanged, settled.stays (.inl fun m present offers => ?_)⟩
      have inside := (offered m).mpr ⟨present, offers⟩
      refine ⟨tops m inside, fun other present' scheduled => ?_⟩
      have here := (rep.mem_all_iff suitable).mpr ⟨present', scheduled⟩
      rw [alone m inside] at here
      exact mem_singleton.mp here
    · -- the top thread of a candidate core leaves it to the next one
      obtain ⟨nonneg, -⟩ := tops m inside
      have valid := activeCore_valid m inside nonneg
      have nodup : (lists.all .scheduled (u.priorityQueue.attributes m).activeCore).Nodup :=
        rep.nodup_all
      rw [visited] at nodup
      rw [moved]
      refine settled.migrate rep empty ((offered m).mp inside).1 ((offered m).mp inside).2
        (fun both => ?_) _ setTopThread_priorityQueue
        (fun initial record recorded => recorded.setTopThread valid _) (fun c valid' => ?_)
        (fun c other => ?_) fun _ => ⟨?_, fun l without => ?_⟩
      · have here : next ∈ lists.all .scheduled (u.priorityQueue.attributes m).activeCore := by
          rw [visited]
          exact mem_cons_of_mem m mem_cons_self
        obtain ⟨present', scheduled⟩ := (rep.mem_all_iff suitable).mp here
        have same := both.2 next present' scheduled
        refine (nodup_cons.mp nodup).1 ?_
        rw [same]
        exact mem_cons_self
      · rw [setTopThread_highest, setTopThread_topThreads, update_apply,
          update_apply, settled.highest c valid']
      · rw [setTopThread_topThreads, update_of_ne other]
      · rw [setTopThread_topThreads, update_self]
        exact Option.some_ne_none next
      · rw [visited] at without
        have tail := without.tail_eq nodup rfl
        rw [setTopThread_topThreads, update_self, ← (cons.inj tail).2]
        rfl
  · refine ⟨u, rfl, settled.stays (.inr ⟨before, suggested, after, topThread, ?_, blocked⟩)⟩
    rw [nil_append] at split
    rw [← split]
    exact rep.walks suitable validCore
  · obtain ⟨present, offers⟩ := (offered m).mp inside
    dsimp only
    refine settled.migrate rep empty present offers (fun both => notTop both.1) u rfl
      (fun _ record recorded => ⟨record, recorded⟩) settled.highest (fun _ _ => rfl)
      fun nonneg => ?_
    have valid := activeCore_valid m inside nonneg
    have top := settled.topThreads_eq rep valid
    have here : m ∈ lists.all .scheduled (u.priorityQueue.attributes m).activeCore :=
      (rep.mem_all_iff suitable).mpr ⟨present, offers.1, rfl, offers.2.2.1, valid, rfl⟩
    refine ⟨fun none' => ?_, fun l without => ?_⟩
    · rw [none', eq_comm, head?_eq_none_iff] at top
      rw [top] at here
      cases here
    · rw [top]
      refine (without.head_eq fun first => ?_).symm
      rw [← top] at first
      exact notTop ((settled.isTop_iff present offers.1).mpr ⟨nonneg, first⟩)

/-- The idle cores are offered threads one after the other. -/
theorem Settled.migrateAll (idleCores : List Int)
    (nodup : idleCores.Nodup) (valid : ∀ core ∈ idleCores, isValidCore core = true)
    (empty : ∀ core ∈ idleCores, u.topThreads core = none) :
    ∃ u', idleCores.foldlM SchedulerUpdate.migrateTo u = .ok u' ∧ u'.Settled threads ∧
      (∀ initial record, Recorded initial record u → ∃ record', Recorded initial record' u') ∧
      (∀ c, isValidCore c = true → c ∉ idleCores →
        (u'.topThreads c = none ↔ u.topThreads c = none) ∧
        (u.topThreads c = none → u.Exhausted threads c → u'.Exhausted threads c)) ∧
      ∀ core ∈ idleCores, u'.topThreads core = none →
        ∃ before after w, idleCores = before ++ core :: after ∧
          before.foldlM SchedulerUpdate.migrateTo u = .ok w ∧ w.highest core = none ∧
          (w.Exhausted threads core ∧ u'.Exhausted threads core ∨ w.Stopped core) := by
  induction idleCores generalizing u with
  | nil =>
    refine ⟨u, rfl, settled, fun _ record recorded => ⟨record, recorded⟩,
      fun c _ _ => ⟨Iff.rfl, fun _ exhausted => exhausted⟩, fun core absurdity => ?_⟩
    cases absurdity
  | cons first rest ih =>
    obtain ⟨fresh, nodup⟩ := nodup_cons.mp nodup
    have validFirst := valid first mem_cons_self
    obtain ⟨u₁, step, advances⟩ := settled.migrateTo validFirst (empty first mem_cons_self)
    have apart : ∀ c ∈ rest, c ≠ first := fun c inside same => fresh (same ▸ inside)
    have valid' : ∀ c ∈ rest, isValidCore c = true := fun c inside =>
      valid c (mem_cons_of_mem first inside)
    obtain ⟨u', run, settled', recorded, others, decided⟩ := ih advances.settled nodup valid'
      fun c inside => (advances.idle c (valid' c inside) (apart c inside)).mpr
        (empty c (mem_cons_of_mem first inside))
    refine ⟨u', bind_eq_ok.mpr ⟨u₁, step, run⟩, settled', fun initial record before => ?_,
      fun c validC outside => ?_, fun core inside idle => ?_⟩
    · obtain ⟨record', between⟩ := advances.recorded initial record before
      exact recorded initial record' between
    · rw [mem_cons, not_or] at outside
      obtain ⟨same, kept⟩ := others c validC outside.2
      have here := advances.idle c validC outside.1
      exact ⟨same.trans here, fun none' exhausted => kept (here.mpr none')
        (advances.exhausted c validC outside.1 none' exhausted)⟩
    · rcases mem_cons.mp inside with rfl | later
      · obtain ⟨same, kept⟩ := others core validFirst fresh
        obtain ⟨rfl, blocked⟩ := advances.decided (same.mp idle)
        have none' := empty core mem_cons_self
        refine ⟨[], rest, u₁, rfl, rfl, (settled.highest core validFirst).trans none', ?_⟩
        exact blocked.imp (fun exhausted => ⟨exhausted, kept none' exhausted⟩) id
      · obtain ⟨before, after, w, rfl, prior, none', blocked⟩ := decided core later idle
        exact ⟨first :: before, after, w, rfl, bind_eq_ok.mpr ⟨u₁, step, prior⟩, none', blocked⟩

end

theorem migrateToIdleCores_eq (idleCores : BitVec 64) :
    u.migrateToIdleCores idleCores = (setCores idleCores).foldlM SchedulerUpdate.migrateTo u := by
  fun_induction setCores idleCores generalizing u with
  | case1 idleCores nonzero ih =>
    rw [migrateToIdleCores, if_pos nonzero, foldlM_cons]
    exact congrArg _ (funext fun u => ih)
  | case2 idleCores zero =>
    rw [migrateToIdleCores, if_neg zero]
    rfl

end SchedulerUpdate

namespace KernelCore

variable {threads : Finset κ} {core : Int}

/-- A core was left without a thread when the second loop came to it, as each of its
suggestions was a top thread alone on its core, and still is, or as the search stopped. -/
def LeftIdle (processes : KThreads κ π) (kernel kernel' : KernelCore κ) (threads : Finset κ)
    (core : Int) : Prop :=
  ∃ first before after u, kernel.updateCores processes = .ok first ∧
    setCores first.idleCores = before ++ core :: after ∧
    before.foldlM SchedulerUpdate.migrateTo first = .ok u ∧ u.highest core = none ∧
    (u.Exhausted threads core ∧ kernel'.Exhausted threads core ∨ u.Stopped core)

/-- What the update does to the cores. -/
structure Updates (processes : KThreads κ π) (kernel : KernelCore κ) (threads : Finset κ)
    (mask : BitVec 64) (kernel' : KernelCore κ) : Prop where
  consistent : kernel'.priorityQueue.Consistent threads
  apart : ∀ core core' member, isValidCore core = true → isValidCore core' = true →
    kernel'.highest core = some member → kernel'.highest core' = some member → core = core'
  /-- The highest thread of a core may run there, and is the best of its scheduled queue. -/
  best : ∀ core member, isValidCore core = true → kernel'.highest core = some member →
    member ∈ threads ∧ (kernel'.priorityQueue.attributes member).activeCore = core ∧
    (kernel'.priorityQueue.attributes member).affinityMask.getAffinity core = true ∧
    kernel'.priorityQueue.getFront .scheduled core = .ok (some member) ∧
    ∀ other ∈ threads, kernel'.Offers .scheduled core other →
      (kernel'.priorityQueue.attributes member).priority ≤
        (kernel'.priorityQueue.attributes other).priority
  /-- The mask holds the cores whose field was assigned a value that it did not have. -/
  mask : ∃ record, kernel'.assignments = kernel.assignments ++ record ∧
    kernel'.highest = replay kernel.highest record ∧
    ∀ j, mask.getLsbD j = true ↔
      ∃ core, isValidCore core = true ∧ core.toNat = j ∧ Reassigned kernel.highest record core
  idle : ∀ core, isValidCore core = true → kernel'.highest core = none →
    LeftIdle processes kernel kernel' threads core

/-- The update ends, and never has more candidates than there are cores. -/
theorem updateHighestPriorityThreadsImpl_updates (processes : KThreads κ π) (kernel : KernelCore κ)
    (consistent : kernel.priorityQueue.Consistent threads)
    (unpinned : ∀ process core, processes.pinnedThread process core = none) :
    ∃ mask kernel', kernel.updateHighestPriorityThreadsImpl processes = .ok (mask, kernel') ∧
      Updates processes kernel threads mask kernel' := by
  obtain ⟨first, record₀, start, settled₀, recorded₀, idleCores⟩ :=
    SchedulerUpdate.updateCores_spec unpinned consistent
  obtain ⟨u, run, settled, recorded, others, decided⟩ := settled₀.migrateAll
    (setCores first.idleCores) (nodup_setCores _)
    (fun core inside => ((idleCores core).mp inside).1)
    fun core inside => ((idleCores core).mp inside).2
  obtain ⟨record, assignments, fields, mask⟩ := recorded kernel record₀ recorded₀
  refine ⟨u.coresNeedingScheduling, u.toKernelCore, ?_, settled.consistent,
    fun core core' member valid valid' top top' => ?_, fun core member valid top => ?_,
    ⟨record, assignments, fields, mask⟩, fun core valid idle => ?_⟩
  · rw [updateHighestPriorityThreadsImpl, start, ok_bind, SchedulerUpdate.migrateToIdleCores_eq,
      run]
    rfl
  · rw [settled.highest _ valid] at top
    rw [settled.highest _ valid'] at top'
    exact (settled.activeCore_eq valid top).symm.trans (settled.activeCore_eq valid' top')
  · rw [settled.highest _ valid] at top
    obtain ⟨present, offers⟩ := settled.enqueued valid top
    have active := settled.activeCore_eq valid top
    obtain ⟨-, lists, rep⟩ := settled.consistent.placed
    have suitable := settled.consistent.suitable
    have bit := ((suitable member present offers.1).activeCore
      (active ▸ (isValidCore_iff.mp valid).1)).2
    refine ⟨present, active, active ▸ bit, top ▸ settled.front core valid,
      fun other present' scheduled => ?_⟩
    have here : other ∈ lists.all .scheduled core :=
      (rep.mem_all_iff suitable).mpr ⟨present', scheduled⟩
    have sorted : (lists.all .scheduled core).Pairwise fun m m' =>
        (u.priorityQueue.attributes m).priority ≤ (u.priorityQueue.attributes m').priority :=
      rep.sorted_all suitable
    rw [settled.topThreads_eq rep valid] at top
    cases walk : lists.all .scheduled core with
    | nil =>
      rw [walk] at here
      cases here
    | cons best rest =>
      rw [walk] at top here sorted
      cases top
      rcases mem_cons.mp here with rfl | later
      · exact le_rfl
      · exact (pairwise_cons.mp sorted).1 other later
  · rw [settled.highest _ valid] at idle
    have inside : core ∈ setCores first.idleCores := by
      by_contra outside
      refine outside ((idleCores core).mpr ⟨valid, ?_⟩)
      exact (others core valid outside).1.mp idle
    obtain ⟨before, after, w, split, prior, none', blocked⟩ := decided core inside idle
    exact ⟨first, before, after, w, start, split, prior, none', blocked⟩

/-- Two threads share a core, and the cores beside it are free for one that is on none. -/
theorem updateHighestPriorityThreadsImpl_threeThreads :
    let processes : KThreads Nat Nat :=
      { ownerProcess := fun _ => some 0, pinnedThread := fun _ _ => none
        numKernelWaiters := fun _ => 0, isRunnable := fun _ => true }
    ∃ q : KPriorityQueue Nat, q.attributes = threeThreads ∧ ∃ mask kernel',
      ({ priorityQueue := q } : KernelCore Nat).updateHighestPriorityThreadsImpl processes =
          .ok (mask, kernel') ∧
        Updates processes { priorityQueue := q } [7, 8, 9].toFinset mask kernel' := by
  intro processes
  obtain ⟨q, reached, same⟩ := exists_reaches threeThreads (fun _ _ => {}) threeThreads_suitable
    (l := [7, 8, 9]) (by decide)
  exact ⟨q, same, updateHighestPriorityThreadsImpl_updates processes { priorityQueue := q }
    reached.consistent fun _ _ => rfl⟩

end KernelCore

end SumiEmu.Kernel
