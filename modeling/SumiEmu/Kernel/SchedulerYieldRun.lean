/-
# What rotations and yields do to the priority queue

All that a rotation or a yield does to the queue is a run of calls for single threads:
one to the back of its list, the caller off its core, and migrations, each allowed when
it is made. So the queue keeps what each of these keeps, which is the order of all other
threads. The searches end, as they walk over lists of threads that are enqueued.
-/

import SumiEmu.Kernel.PriorityQueueMigration
import SumiEmu.Kernel.SchedulerYield

namespace SumiEmu.Kernel

open Common Fallible KPriorityQueue Linking

universe u

namespace KPriorityQueue

variable {κ : Type*} [DecidableEq κ] {q q' q'' : KPriorityQueue κ}
  {permits : KPriorityQueue κ → Call κ → Prop} {calls calls' : List (Call κ)}

/-- The thread that a call is for. -/
def Call.thread : Call κ → κ
  | .setAttributes member _ | .pushBack member | .remove member | .moveToScheduledFront member
  | .moveToScheduledBack member | .changePriority member _ _ | .changeAffinityMask member _ _
  | .changeCore member _ _ => member

/-- The calls are made one after the other, and each is permitted when it is made. -/
def Makes (permits : KPriorityQueue κ → Call κ → Prop) :
    KPriorityQueue κ → List (Call κ) → KPriorityQueue κ → Prop
  | q, [], q' => q' = q
  | q, c :: calls, q' => permits q c ∧ ∃ q₁, q.call c = .ok q₁ ∧ Makes permits q₁ calls q'

theorem Makes.append (makes : q.Makes permits calls q') (makes' : q'.Makes permits calls' q'') :
    q.Makes permits (calls ++ calls') q'' := by
  induction calls generalizing q with
  | nil =>
    cases makes
    exact makes'
  | cons c calls ih =>
    obtain ⟨permitted, q₁, made, rest⟩ := makes
    exact ⟨permitted, q₁, made, ih rest⟩

/-- A thread may migrate to a core of its affinity mask. On the core that it is on, if
any, it is not the top thread, and the top thread allows migrations. -/
structure MayMigrate (top : Int → κ → Prop) (q : KPriorityQueue κ) (member : κ) (core : Int) :
    Prop where
  validCore : isValidCore core = true
  affinity : (q.attributes member).affinityMask.getAffinity core = true
  notTop : 0 ≤ (q.attributes member).activeCore → ¬ top (q.attributes member).activeCore member
  allowed : ∀ t, 0 ≤ (q.attributes member).activeCore → top (q.attributes member).activeCore t →
    highestCoreMigrationAllowedPriority ≤ (q.attributes t).priority

/-- The calls of rotations and yields: one thread may go to the back of its list, one may
leave its core for none, and all may migrate where they are suggested. -/
def Permits (top : KPriorityQueue κ → Int → κ → Prop) (rotated detached : Option κ)
    (q : KPriorityQueue κ) : Call κ → Prop
  | .moveToScheduledBack member => rotated = some member
  | .changeCore member core _ =>
    detached = some member ∧ core = -1 ∨ q.MayMigrate (top q) member core
  | _ => False

/-- The thread is the front of the scheduled queue of a core. -/
def ScheduledTop (q : KPriorityQueue κ) (core : Int) (member : κ) : Prop :=
  q.getFront .scheduled core = .ok (some member)

end KPriorityQueue

namespace KernelCounts

variable {κ π : Type u} {threads : KYieldThreads κ π} {kernel kernel' kernel'' : KernelCounts κ π}
  {runnable : Finset κ} {top : KPriorityQueue κ → Int → κ → Prop} {rotated detached : Option κ}
  {member : κ} {core priority : Int}

section Rearranges

variable [DecidableEq κ]

/-- What a rotation or a yield does to the kernel. -/
structure Rearranges (top : KPriorityQueue κ → Int → κ → Prop) (rotated detached : Option κ)
    (runnable : Finset κ) (kernel kernel' : KernelCounts κ π) : Prop where
  calls : ∃ calls,
    kernel.priorityQueue.Makes (Permits top rotated detached) calls kernel'.priorityQueue ∧
    kernel.priorityQueue.Keeps runnable (calls.map Call.thread) kernel'.priorityQueue
  schedulers : kernel'.schedulers = kernel.schedulers

theorem Rearranges.refl (top : KPriorityQueue κ → Int → κ → Prop) (rotated detached : Option κ)
    (consistent : kernel.priorityQueue.Consistent runnable) :
    Rearranges top rotated detached runnable kernel kernel :=
  ⟨⟨[], rfl, consistent.keeps []⟩, rfl⟩

theorem Rearranges.trans (first : Rearranges top rotated detached runnable kernel kernel')
    (second : Rearranges top rotated detached runnable kernel' kernel'') :
    Rearranges top rotated detached runnable kernel kernel'' := by
  obtain ⟨calls, makes, keeps⟩ := first.calls
  obtain ⟨calls', makes', keeps'⟩ := second.calls
  refine ⟨⟨calls ++ calls', makes.append makes', ?_⟩, second.schedulers.trans first.schedulers⟩
  rw [List.map_append]
  exact keeps.trans keeps'

theorem Rearranges.consistent
    (rearranges : Rearranges top rotated detached runnable kernel kernel') :
    kernel'.priorityQueue.Consistent runnable := by
  obtain ⟨calls, -, keeps⟩ := rearranges.calls
  exact keeps.consistent

/-- The counters and the request for an update do not matter. -/
theorem Rearranges.congr (rearranges : Rearranges top rotated detached runnable kernel kernel')
    (queue : kernel''.priorityQueue = kernel'.priorityQueue)
    (schedulers : kernel''.schedulers = kernel'.schedulers) :
    Rearranges top rotated detached runnable kernel kernel'' := by
  refine ⟨?_, schedulers.trans rearranges.schedulers⟩
  rw [queue]
  exact rearranges.calls

/-- One permitted call. -/
theorem Rearranges.call {c : Call κ} {q' : KPriorityQueue κ}
    (permitted : Permits top rotated detached kernel.priorityQueue c)
    (made : kernel.priorityQueue.call c = .ok q')
    (keeps : kernel.priorityQueue.Keeps runnable [c.thread] q') :
    Rearranges top rotated detached runnable kernel { kernel with priorityQueue := q' } :=
  ⟨⟨[c], ⟨permitted, q', made, rfl⟩, keeps⟩, rfl⟩

end Rearranges

section Counters

variable [DecidableEq π]

@[simp] theorem incrementScheduledCount_priorityQueue :
    (kernel.incrementScheduledCount threads member).priorityQueue = kernel.priorityQueue := by
  rw [incrementScheduledCount]
  split <;> rfl

@[simp] theorem incrementScheduledCount_schedulers :
    (kernel.incrementScheduledCount threads member).schedulers = kernel.schedulers := by
  rw [incrementScheduledCount]
  split <;> rfl

end Counters

/-! ## Migrations -/

/-- A search breaks out of its loop for a thread only if it may migrate. -/
def Sound (top : KPriorityQueue κ → Int → κ → Prop) (runnable : Finset κ)
    (kernel : KernelCounts κ π)
    (core : Int) : YieldSuggestion κ → Prop
  | .migrate suggested => suggested ∈ runnable ∧
    (kernel.priorityQueue.attributes suggested).BelongsTo .suggested
      (kernel.priority suggested) core ∧
    kernel.priorityQueue.MayMigrate (top kernel.priorityQueue) suggested core
  | .keep _ => True

/-- A suggested thread that the search compares with the top thread of its core. -/
theorem sound_migrate (enqueued : member ∈ runnable)
    (belongs : (kernel.priorityQueue.attributes member).BelongsTo .suggested
      (kernel.priority member) core) {topThread : Option κ}
    (isTop : ∀ t, 0 ≤ kernel.activeCore member →
      (top kernel.priorityQueue (kernel.activeCore member) t ↔ topThread = some t))
    (other : topThread ≠ some member) (allowed : kernel.migrationAllowed topThread = true) :
    Sound top runnable kernel core (.migrate member) := by
  obtain ⟨-, -, -, validCore, -, bit⟩ := id belongs
  refine ⟨enqueued, belongs, validCore, bit, fun nonneg isTop' => ?_, fun t nonneg isTop' => ?_⟩
  · exact other ((isTop member nonneg).mp isTop')
  · have same := (isTop t nonneg).mp isTop'
    rw [migrationAllowed, same, Option.all_some, decide_eq_true_eq] at allowed
    exact allowed

/-- The thread is the highest priority thread of a core. -/
def HighestTop (kernel : KernelCounts κ π) (_ : KPriorityQueue κ) (core : Int) (member : κ) :
    Prop :=
  (kernel.schedulers core).highestPriorityThread = some member

theorem runningOnCore_spec (kernel : KernelCounts κ π) (core : Int) (t : κ) (nonneg : 0 ≤ core) :
    kernel.HighestTop kernel.priorityQueue core t ↔ kernel.runningOnCore core = some t := by
  rw [runningOnCore, if_pos nonneg, HighestTop]

variable [DecidableEq κ]

theorem topOnCore_spec (consistent : kernel.priorityQueue.Consistent runnable)
    (enqueued : member ∈ runnable)
    (active : (kernel.priorityQueue.attributes member).isDummyThread = false) :
    ∃ topThread, kernel.topOnCore (kernel.activeCore member) = .ok topThread ∧
      ∀ t, 0 ≤ kernel.activeCore member →
        (ScheduledTop kernel.priorityQueue (kernel.activeCore member) t ↔ topThread = some t) := by
  rw [topOnCore]
  split
  · next nonneg =>
    have small := ((consistent.suitable member enqueued active).activeCore nonneg).1
    obtain ⟨-, lists, rep⟩ := consistent.placed
    have front : kernel.priorityQueue.getFront .scheduled (kernel.activeCore member) = _ :=
      rep.getFront (isValidCore_iff.mpr ⟨nonneg, small⟩)
    rw [front]
    refine ⟨_, rfl, fun t _ => ?_⟩
    rw [ScheduledTop, front, Except.ok.injEq]
  · next negative => exact ⟨none, rfl, fun t nonneg => absurd nonneg negative⟩

theorem changeCore_spec [DecidableEq π] {toFront : Bool} {q' : KPriorityQueue κ}
    (threads : KYieldThreads κ π)
    (permitted : Permits top rotated detached kernel.priorityQueue
    (.changeCore member core toFront))
    (made : kernel.priorityQueue.call (.changeCore member core toFront) = .ok q')
    (keeps : kernel.priorityQueue.Keeps runnable [member] q') :
    ∃ kernel', kernel.changeCore threads member core toFront = .ok kernel' ∧
      Rearranges top rotated detached runnable kernel kernel' := by
  refine ⟨{ kernel with priorityQueue := q' }.incrementScheduledCount threads member, ?_,
    (Rearranges.call permitted made keeps).congr incrementScheduledCount_priorityQueue
      incrementScheduledCount_schedulers⟩
  rw [changeCore, made]
  rfl

theorem migrateSuggestion_spec [DecidableEq π]
    (consistent : kernel.priorityQueue.Consistent runnable)
    (threads : KYieldThreads κ π) (rotated detached : Option κ) (toFront : Bool)
    {suggestion : Option (YieldSuggestion κ)}
    (sound : ∀ s ∈ suggestion, Sound top runnable kernel core s) :
    ∃ kernel', kernel.migrateSuggestion threads core toFront suggestion = .ok kernel' ∧
      Rearranges top rotated detached runnable kernel kernel' := by
  rcases suggestion with - | suggested | kept
  · exact ⟨kernel, rfl, .refl top rotated detached consistent⟩
  · obtain ⟨enqueued, belongs, may⟩ := sound _ rfl
    obtain ⟨q', made, keeps⟩ := consistent.migrate_keeps enqueued belongs toFront
    exact changeCore_spec threads (Or.inr may) made keeps
  · exact ⟨kernel, rfl, .refl top rotated detached consistent⟩

/-! ## Searches -/

/-- A walk over enqueued threads is no longer than there are such threads. -/
theorem length_le_card {l : List κ} (nodup : l.Nodup) (enqueued : ∀ m ∈ l, m ∈ runnable) :
    l.length ≤ runnable.card := by
  rw [← List.toFinset_card_of_nodup nodup]
  exact Finset.card_le_card fun m inside => enqueued m (List.mem_toFinset.mp inside)

/-- A search over all suggested threads of a core ends. -/
theorem search_spec {σ : Type*} (consistent : kernel.priorityQueue.Consistent runnable)
    (validCore : isValidCore core = true)
    {body : σ → κ → Except YieldFault (σ × Option (YieldSuggestion κ))}
    (visits : ∀ s, ∀ m ∈ runnable, (kernel.priorityQueue.attributes m).BelongsTo .suggested
        (kernel.priority m) core →
      ∃ s' result, body s m = .ok (s', result) ∧
        ∀ r ∈ result, Sound top runnable kernel core r) (s : σ) :
    ∃ front s' suggestion, kernel.priorityQueue.getFront .suggested core = .ok front ∧
      (∀ fuel, runnable.card ≤ fuel → walk .outOfFuel
        (fun suggested => checked (kernel.priorityQueue.getNext .suggested core suggested))
        body fuel s front = .ok (s', suggestion)) ∧
      ∀ r ∈ suggestion, Sound top runnable kernel core r := by
  obtain ⟨-, lists, rep⟩ := consistent.placed
  have inside : ∀ m ∈ lists.all .suggested core, m ∈ runnable ∧
      (kernel.priorityQueue.attributes m).BelongsTo .suggested (kernel.priority m) core := fun m =>
    (rep.mem_all_iff consistent.suitable).mp
  obtain ⟨front, next, steps, linked⟩ : kernel.priorityQueue.Walks .suggested core _ :=
    rep.walks consistent.suitable validCore
  obtain ⟨s', suggestion, ended, sound⟩ := linked.walk YieldFault.outOfFuel
    (fun suggested => checked (kernel.priorityQueue.getNext .suggested core suggested))
    (fun m member => by rw [steps m member, checked_ok])
    (fun s m member => visits s m (inside m member).1 (inside m member).2) s
  have short := length_le_card rep.nodup_all fun m member => (inside m member).1
  exact ⟨_, s', suggestion, front, fun fuel enough => ended fuel (short.trans enough), sound⟩

section Visits

variable (consistent : kernel.priorityQueue.Consistent runnable) (enqueued : member ∈ runnable)
  (belongs : (kernel.priorityQueue.attributes member).BelongsTo .suggested
    (kernel.priority member) core)
include consistent enqueued belongs

theorem considerSamePriority_spec (threads : KYieldThreads κ π) (topThread nextThread : Option κ)
    (s : PUnit) : ∃ s' result,
      kernel.considerSamePriority threads topThread nextThread s member = .ok (s', result) ∧
      ∀ r ∈ result, Sound ScheduledTop runnable kernel core r := by
  obtain ⟨onCore, found, isTop⟩ := topOnCore_spec consistent enqueued belongs.1
  rw [considerSamePriority, found, ok_bind]
  split
  · next other =>
    split
    · exact ⟨_, _, rfl, by rintro _ ⟨⟩; trivial⟩
    · split
      · next allowed =>
        exact ⟨_, _, rfl, by rintro _ ⟨⟩; exact sound_migrate enqueued belongs isTop other allowed⟩
      · exact ⟨_, _, rfl, by rintro _ ⟨⟩⟩
  · exact ⟨_, _, rfl, by rintro _ ⟨⟩⟩

theorem considerBetter_spec (bestThread : κ) (s : PUnit) : ∃ s' result,
    kernel.considerBetter bestThread s member = .ok (s', result) ∧
      ∀ r ∈ result, Sound ScheduledTop runnable kernel core r := by
  obtain ⟨onCore, found, isTop⟩ := topOnCore_spec consistent enqueued belongs.1
  rw [considerBetter]
  split
  · exact ⟨_, _, rfl, by rintro _ ⟨⟩; trivial⟩
  · rw [found, ok_bind]
    split
    · next both =>
      exact ⟨_, _, rfl, by rintro _ ⟨⟩; exact sound_migrate enqueued belongs isTop both.1 both.2⟩
    · exact ⟨_, _, rfl, by rintro _ ⟨⟩⟩

theorem considerAny_spec (s : PUnit) : ∃ s' result,
    kernel.considerAny s member = .ok (s', result) ∧
      ∀ r ∈ result, Sound ScheduledTop runnable kernel core r := by
  obtain ⟨onCore, found, isTop⟩ := topOnCore_spec consistent enqueued belongs.1
  rw [considerAny, found, ok_bind]
  split
  · next other =>
    split
    · next allowed =>
      exact ⟨_, _, rfl, by rintro _ ⟨⟩; exact sound_migrate enqueued belongs isTop other allowed⟩
    · exact ⟨_, _, rfl, by rintro _ ⟨⟩; trivial⟩
  · exact ⟨_, _, rfl, by rintro _ ⟨⟩⟩

omit consistent in
theorem considerYield_spec (threads : KYieldThreads κ π) {current : κ} {nextThread : Option κ}
    (follows : kernel.priority current ≤ lowestPriority → nextThread ≠ none) (recheck : Bool) :
    ∃ s' result,
      kernel.considerYield threads current nextThread recheck member = .ok (s', result) ∧
      ∀ r ∈ result, Sound kernel.HighestTop runnable kernel core r := by
  rw [considerYield]
  simp only
  split
  · next other =>
    split
    · exact ⟨_, _, rfl, by rintro _ ⟨⟩; trivial⟩
    · obtain ⟨preferred, compared⟩ : ∃ preferred : Bool,
          (if kernel.priority member = kernel.priority current then
            nextWaitsLonger threads current nextThread member else .ok false) = .ok preferred := by
        split
        · next same =>
          unfold nextWaitsLonger
          split
          · cases next : nextThread with
            | none =>
              have below : kernel.priority member ≤ lowestPriority := belongs.2.2.1
              exact absurd next (follows (same ▸ below))
            | some nextThread => exact ⟨_, rfl⟩
          · exact ⟨_, rfl⟩
        · exact ⟨_, rfl⟩
      rw [compared]
      cases preferred with
      | true => exact ⟨_, _, rfl, by rintro _ ⟨⟩; trivial⟩
      | false =>
        simp only
        split
        · next allowed =>
          refine ⟨_, _, rfl, ?_⟩
          rintro _ ⟨⟩
          exact sound_migrate enqueued belongs (runningOnCore_spec kernel _) other allowed
        · exact ⟨_, _, rfl, by rintro _ ⟨⟩⟩
  · exact ⟨_, _, rfl, by rintro _ ⟨⟩⟩

end Visits

/-! ## Rotations -/

variable [DecidableEq π] (threads : KYieldThreads κ π)

theorem rotateFront_spec (consistent : kernel.priorityQueue.Consistent runnable)
    (validCore : isValidCore core = true) {topThread : Option κ}
    (front : ∀ m ∈ topThread, m ∈ runnable ∧
      (kernel.priorityQueue.attributes m).BelongsTo .scheduled priority core) :
    ∃ nextThread kernel', kernel.rotateFront threads topThread = .ok (nextThread, kernel') ∧
      Rearranges ScheduledTop topThread none runnable kernel kernel' := by
  cases topThread with
  | none => exact ⟨none, kernel, rfl, .refl _ _ _ consistent⟩
  | some topThread =>
    obtain ⟨enqueued, active, same, below, -, onCore⟩ := front topThread rfl
    have nonneg := (isValidCore_iff.mp validCore).1
    rw [onCore] at nonneg
    rw [same] at below
    obtain ⟨out, q', moved, keeps, -, follows⟩ := consistent.moveBack_keeps enqueued active nonneg
    have made : kernel.priorityQueue.call (.moveToScheduledBack topThread) = .ok q' :=
      bind_eq_ok.mpr ⟨_, moved, rfl⟩
    have permitted : Permits ScheduledTop (some topThread) none kernel.priorityQueue
        (.moveToScheduledBack topThread) := rfl
    have rearranges : Rearranges ScheduledTop (some topThread) none runnable kernel
        { kernel with priorityQueue := q' } :=
      .call permitted made keeps
    rw [rotateFront, moved, checked_ok, ok_bind]
    cases out with
    | none => exact absurd rfl (follows below)
    | some next =>
      simp only
      split
      · exact ⟨_, _, rfl, rearranges.congr (by simp) (by simp)⟩
      · exact ⟨_, _, rfl, rearranges⟩

variable (consistent : kernel.priorityQueue.Consistent runnable)
  (validCore : isValidCore core = true)
include consistent validCore

theorem migrateSamePriority_spec (validPriority : isValidPriority priority = true)
    (topThread nextThread rotated detached : Option κ) :
    ∃ kernel', (∀ fuel, runnable.card ≤ fuel →
        kernel.migrateSamePriority threads topThread nextThread core priority fuel = .ok kernel') ∧
      Rearranges ScheduledTop rotated detached runnable kernel kernel' := by
  obtain ⟨-, lists, rep⟩ := consistent.placed
  have inside : ∀ m ∈ lists .suggested priority core, m ∈ runnable ∧
      (kernel.priorityQueue.attributes m).BelongsTo .suggested priority core := fun m =>
    (rep.mem_iff consistent.suitable).mp
  have front : kernel.priorityQueue.getFrontAt .suggested core priority = _ :=
    rep.getFrontAt validCore validPriority fun past => List.eq_nil_iff_forall_not_mem.mpr
      fun m member => absurd (inside m member).2.2.2.1 (not_le.mpr past)
  have linked := (rep.rings .suggested priority core).linked
  rw [(rep.rings .suggested priority core).next_none] at linked
  obtain ⟨s, suggestion, ended, sound⟩ := linked.walk YieldFault.outOfFuel
    (fun suggested => .ok (kernel.priorityQueue.getSamePriorityNext core suggested))
    (fun m _ => rfl)
    (fun s m member => by
      obtain ⟨enqueued, belongs⟩ := inside m member
      have same := belongs.2.1
      rw [same] at belongs
      exact considerSamePriority_spec consistent enqueued belongs threads topThread nextThread s)
    PUnit.unit
  have short := length_le_card (rep.rings .suggested priority core).nodup
    fun m member => (inside m member).1
  obtain ⟨kernel', migrated, rearranges⟩ :=
    migrateSuggestion_spec consistent threads rotated detached true sound
  refine ⟨kernel', fun fuel enough => ?_, rearranges⟩
  rw [migrateSamePriority, front, checked_ok, ok_bind, ended fuel (short.trans enough)]
  exact migrated

theorem migrateBetter_spec (current : κ) (priority : Int) (rotated detached : Option κ) :
    ∃ kernel', (∀ fuel, runnable.card ≤ fuel →
        kernel.migrateBetter threads current core priority fuel = .ok kernel') ∧
      Rearranges ScheduledTop rotated detached runnable kernel kernel' := by
  obtain ⟨-, lists, rep⟩ := consistent.placed
  obtain ⟨front, next, steps, -⟩ : kernel.priorityQueue.Walks .scheduled core _ :=
    rep.walks consistent.suitable validCore
  obtain ⟨best, chosen⟩ : ∃ best, kernel.bestThread current core = .ok best := by
    rw [bestThread, front, checked_ok, ok_bind]
    split
    · next first => exact ⟨_, by rw [steps current (List.mem_of_head? first), checked_ok]⟩
    · exact ⟨_, rfl⟩
  simp only [migrateBetter, chosen, ok_bind]
  cases best with
  | none => exact ⟨kernel, fun _ _ => rfl, .refl _ _ _ consistent⟩
  | some best =>
    simp only
    split
    · obtain ⟨first, s, suggestion, found, ended, sound⟩ := search_spec consistent validCore
        (fun s m enqueued belongs => considerBetter_spec consistent enqueued belongs best s) ⟨⟩
      obtain ⟨kernel', migrated, rearranges⟩ :=
        migrateSuggestion_spec consistent threads rotated detached true sound
      refine ⟨kernel', fun fuel enough => ?_, rearranges⟩
      rw [found, checked_ok, ok_bind, ended fuel enough]
      exact migrated
    · exact ⟨kernel, fun _ _ => rfl, .refl _ _ _ consistent⟩

theorem rotateScheduledQueue_spec (validPriority : isValidPriority priority = true) (current : κ) :
    ∃ topThread kernel',
      kernel.priorityQueue.getFrontAt .scheduled core priority = .ok topThread ∧
      (∀ fuel, runnable.card ≤ fuel →
        kernel.rotateScheduledQueue threads current core priority fuel = .ok kernel') ∧
      Rearranges ScheduledTop topThread none runnable kernel kernel' := by
  obtain ⟨-, lists, rep⟩ := consistent.placed
  have inside : ∀ m ∈ lists .scheduled priority core, m ∈ runnable ∧
      (kernel.priorityQueue.attributes m).BelongsTo .scheduled priority core := fun m =>
    (rep.mem_iff consistent.suitable).mp
  have front : kernel.priorityQueue.getFrontAt .scheduled core priority = _ :=
    rep.getFrontAt validCore validPriority fun past => List.eq_nil_iff_forall_not_mem.mpr
      fun m member => absurd (inside m member).2.2.2.1 (not_le.mpr past)
  obtain ⟨nextThread, kernel₁, rotated, rearranges₁⟩ :=
    rotateFront_spec threads consistent validCore fun m first => inside m (List.mem_of_head? first)
  obtain ⟨kernel₂, migrated, rearranges₂⟩ := migrateSamePriority_spec threads
    rearranges₁.consistent validCore validPriority (lists .scheduled priority core).head?
      nextThread (lists .scheduled priority core).head? none
  obtain ⟨kernel₃, improved, rearranges₃⟩ := migrateBetter_spec threads
    rearranges₂.consistent validCore current priority (lists .scheduled priority core).head? none
  refine ⟨_, kernel₃.setSchedulerUpdateNeeded, front, fun fuel enough => ?_,
    ((rearranges₁.trans rearranges₂).trans rearranges₃).congr rfl rfl⟩
  simp only [rotateScheduledQueue, front, checked_ok, ok_bind, rotated, migrated fuel enough,
    improved fuel enough, pure_eq_ok]

/-! ## Yields -/

omit validCore [DecidableEq π] in
theorem ifYields_spec {current : κ} {process : π}
    {yield : Nat → Except YieldFault (KernelCounts κ π)}
    (yields : threads.isRunnable current = true →
      ∃ kernel', (∀ fuel, runnable.card ≤ fuel → yield fuel = .ok kernel') ∧
        Rearranges top rotated detached runnable kernel kernel') :
    ∃ kernel', (∀ fuel, runnable.card ≤ fuel →
        kernel.ifYields threads current process (yield fuel) = .ok kernel') ∧
      Rearranges top rotated detached runnable kernel kernel' := by
  simp only [ifYields]
  split
  · exact ⟨kernel, fun _ _ => rfl, .refl _ _ _ consistent⟩
  · split
    · next runs => exact yields runs
    · exact ⟨kernel, fun _ _ => rfl, .refl _ _ _ consistent⟩

/-- The thread that runs is no dummy, and while it is runnable it is enqueued on a core. -/
def Running (threads : KYieldThreads κ π) (kernel : KernelCounts κ π) (runnable : Finset κ)
    (current : κ) : Prop :=
  threads.isRunnable current = true → current ∈ runnable ∧
    (kernel.priorityQueue.attributes current).isDummyThread = false ∧
    0 ≤ kernel.activeCore current

omit consistent validCore [DecidableEq π] in
theorem Running.isValidCore {current : κ} (running : Running threads kernel runnable current)
    (consistent : kernel.priorityQueue.Consistent runnable)
    (runs : threads.isRunnable current = true) :
    isValidCore (kernel.activeCore current) = true := by
  obtain ⟨enqueued, active, nonneg⟩ := running runs
  exact isValidCore_iff.mpr
    ⟨nonneg, ((consistent.suitable current enqueued active).activeCore nonneg).1⟩

variable {current : κ} (running : Running threads kernel runnable current)
include running

omit validCore in
theorem moveCurrentToBack_spec (runs : threads.isRunnable current = true)
    (top : KPriorityQueue κ → Int → κ → Prop) (detached : Option κ) :
    ∃ nextThread kernel', kernel.moveCurrentToBack threads current = .ok (nextThread, kernel') ∧
      Rearranges top (some current) detached runnable kernel kernel' ∧
      kernel'.priorityQueue.attributes = kernel.priorityQueue.attributes ∧
      (kernel.priority current ≤ lowestPriority → nextThread ≠ none) := by
  obtain ⟨enqueued, active, nonneg⟩ := running runs
  obtain ⟨out, q', moved, keeps, same, follows⟩ := consistent.moveBack_keeps enqueued active nonneg
  have made : kernel.priorityQueue.call (.moveToScheduledBack current) = .ok q' :=
    bind_eq_ok.mpr ⟨_, moved, rfl⟩
  have permitted : Permits top (some current) detached kernel.priorityQueue
      (.moveToScheduledBack current) := rfl
  refine ⟨out, { kernel with priorityQueue := q' }.incrementScheduledCount threads current, ?_,
    (Rearranges.call permitted made keeps).congr incrementScheduledCount_priorityQueue
      incrementScheduledCount_schedulers, ?_, follows⟩
  · rw [moveCurrentToBack, moved]
    rfl
  · rw [incrementScheduledCount_priorityQueue, same]

omit validCore in
theorem yieldWithoutCoreMigration_spec (process : π) :
    ∃ kernel', kernel.yieldWithoutCoreMigration threads current process = .ok kernel' ∧
      Rearranges ScheduledTop (some current) none runnable kernel kernel' := by
  obtain ⟨kernel', yielded, rearranges⟩ : ∃ kernel',
      (∀ fuel, runnable.card ≤ fuel →
        kernel.yieldWithoutCoreMigration threads current process = .ok kernel') ∧
      Rearranges ScheduledTop (some current) none runnable kernel kernel' := by
    refine ifYields_spec threads consistent fun runs => ?_
    obtain ⟨nextThread, kernel₁, moved, rearranges, -⟩ :=
      moveCurrentToBack_spec threads consistent running runs ScheduledTop none
    simp only [moved, ok_bind]
    split
    · exact ⟨_, fun _ _ => rfl, rearranges.congr rfl rfl⟩
    · exact ⟨_, fun _ _ => rfl, rearranges.congr rfl rfl⟩
  exact ⟨kernel', yielded runnable.card le_rfl, rearranges⟩

omit validCore in
theorem yieldWithCoreMigration_spec (process : π) :
    ∃ kernel', (∀ fuel, runnable.card ≤ fuel →
        kernel.yieldWithCoreMigration threads current process fuel = .ok kernel') ∧
      Rearranges kernel.HighestTop (some current) none runnable kernel kernel' := by
  refine ifYields_spec threads consistent fun runs => ?_
  obtain ⟨nextThread, kernel₁, moved, rearranges, attributes, follows⟩ :=
    moveCurrentToBack_spec threads consistent running runs kernel.HighestTop none
  have sameTop : kernel₁.HighestTop = kernel.HighestTop := by
    funext q core t
    rw [HighestTop, HighestTop, rearranges.schedulers]
  have samePriority : kernel₁.priority current = kernel.priority current := by
    rw [KernelCounts.priority, attributes]
    rfl
  have visits : ∀ s, ∀ m ∈ runnable, (kernel₁.priorityQueue.attributes m).BelongsTo .suggested
        (kernel₁.priority m) (kernel.activeCore current) →
      ∃ s' result, kernel₁.considerYield threads current nextThread s m = .ok (s', result) ∧
        ∀ r ∈ result, Sound kernel.HighestTop runnable kernel₁ (kernel.activeCore current) r := by
    intro s m enqueued belongs
    rw [← sameTop]
    exact considerYield_spec enqueued belongs threads (samePriority ▸ follows) s
  obtain ⟨front, recheck, suggestion, found, ended, sound⟩ := search_spec rearranges.consistent
    (running.isValidCore threads consistent runs) visits false
  obtain ⟨kernel₂, migrated, rearranges₂⟩ := migrateSuggestion_spec rearranges.consistent threads
    (some current) none true sound
  simp only [moved, ok_bind, found, checked_ok]
  by_cases update : suggestedAfter suggestion ≠ none ∨ nextThread ≠ some current
  · refine ⟨kernel₂.setSchedulerUpdateNeeded, fun fuel enough => ?_,
      (rearranges.trans rearranges₂).congr rfl rfl⟩
    simp only [ended fuel enough, migrated, ok_bind, if_pos update, pure_eq_ok]
  · cases recheck with
    | true =>
      refine ⟨kernel₂, fun fuel enough => ?_, rearranges.trans rearranges₂⟩
      simp only [ended fuel enough, migrated, ok_bind, if_neg update, pure_eq_ok, if_true]
    | false =>
      refine ⟨kernel₂.setYieldScheduleCount current (kernel₂.scheduledCount process),
        fun fuel enough => ?_, (rearranges.trans rearranges₂).congr rfl rfl⟩
      simp only [ended fuel enough, migrated, ok_bind, if_neg update, pure_eq_ok,
        Bool.false_eq_true, if_false]

omit validCore in
theorem yieldToAnyThread_spec (process : π) :
    ∃ kernel', (∀ fuel, runnable.card ≤ fuel →
        kernel.yieldToAnyThread threads current process fuel = .ok kernel') ∧
      Rearranges ScheduledTop none (some current) runnable kernel kernel' := by
  refine ifYields_spec threads consistent fun runs => ?_
  obtain ⟨enqueued, active, nonneg⟩ := running runs
  have validCore := running.isValidCore threads consistent runs
  obtain ⟨q', made, keeps⟩ := consistent.detach_keeps enqueued active nonneg
  obtain ⟨kernel₁, detached, rearranges⟩ : ∃ kernel₁,
      kernel.changeCore threads current (-1) false = .ok kernel₁ ∧
      Rearranges ScheduledTop none (some current) runnable kernel kernel₁ :=
    changeCore_spec threads (Or.inl ⟨rfl, rfl⟩) made keeps
  obtain ⟨-, lists, rep⟩ := rearranges.consistent.placed
  have front : kernel₁.priorityQueue.getFront .scheduled (kernel.activeCore current) = _ :=
    rep.getFront validCore
  simp only [detached, ok_bind, front, checked_ok]
  cases (lists.all .scheduled (kernel.activeCore current)).head? with
  | some other => exact ⟨_, fun _ _ => rfl, rearranges.congr rfl rfl⟩
  | none =>
    obtain ⟨first, s, suggestion, found, ended, sound⟩ :=
      search_spec rearranges.consistent validCore
      (fun s m enqueued belongs => considerAny_spec rearranges.consistent enqueued belongs s) ⟨⟩
    obtain ⟨kernel₂, migrated, rearranges₂⟩ := migrateSuggestion_spec rearranges.consistent threads
      none (some current) false sound
    simp only [found, checked_ok, ok_bind]
    by_cases update : suggestedAfter suggestion ≠ some current
    · refine ⟨kernel₂.setSchedulerUpdateNeeded, fun fuel enough => ?_,
        (rearranges.trans rearranges₂).congr rfl rfl⟩
      simp only [ended fuel enough, migrated, ok_bind, if_pos update, pure_eq_ok]
    · refine ⟨kernel₂.setYieldScheduleCount current (kernel₂.scheduledCount process),
        fun fuel enough => ?_, (rearranges.trans rearranges₂).congr rfl rfl⟩
      simp only [ended fuel enough, migrated, ok_bind, if_neg update, pure_eq_ok]

end KernelCounts

namespace KernelCounts

variable {κ π : Type u} [DecidableEq κ] [DecidableEq π]

/-- From any state with a consistent queue, a rotation and the yields return, and what they
do to the queue is a run of permitted calls. The searches need no more steps than there are
runnable threads. -/
theorem rotation_and_yields_rearrange (threads : KYieldThreads κ π) (kernel : KernelCounts κ π)
    {runnable : Finset κ} (consistent : kernel.priorityQueue.Consistent runnable) :
    (∀ current core priority, isValidCore core = true → isValidPriority priority = true →
      ∃ topThread kernel',
        kernel.priorityQueue.getFrontAt .scheduled core priority = .ok topThread ∧
        (∀ fuel, runnable.card ≤ fuel →
          kernel.rotateScheduledQueue threads current core priority fuel = .ok kernel') ∧
        Rearranges ScheduledTop topThread none runnable kernel kernel') ∧
    ∀ current process, Running threads kernel runnable current →
      (∃ kernel', kernel.yieldWithoutCoreMigration threads current process = .ok kernel' ∧
        Rearranges ScheduledTop (some current) none runnable kernel kernel') ∧
      (∃ kernel', (∀ fuel, runnable.card ≤ fuel →
          kernel.yieldWithCoreMigration threads current process fuel = .ok kernel') ∧
        Rearranges kernel.HighestTop (some current) none runnable kernel kernel') ∧
      ∃ kernel', (∀ fuel, runnable.card ≤ fuel →
          kernel.yieldToAnyThread threads current process fuel = .ok kernel') ∧
        Rearranges ScheduledTop none (some current) runnable kernel kernel' :=
  ⟨fun current _ _ validCore validPriority =>
      rotateScheduledQueue_spec threads consistent validCore validPriority current,
    fun _ process running => ⟨yieldWithoutCoreMigration_spec threads consistent running process,
      yieldWithCoreMigration_spec threads consistent running process,
      yieldToAnyThread_spec threads consistent running process⟩⟩

/-- The first of three threads is rotated, and yields in each of the three ways. -/
theorem rotation_and_yields_rearrange_threeThreads :
    ∃ (threads : KYieldThreads Nat Nat) (kernel : KernelCounts Nat Nat),
      threads.isRunnable 7 = true ∧ kernel.priorityQueue.attributes = threeThreads ∧
      (∃ topThread kernel', kernel.rotateScheduledQueue threads 7 1 20 3 = .ok kernel' ∧
        Rearranges ScheduledTop topThread none [7, 8, 9].toFinset kernel kernel') ∧
      (∃ kernel', kernel.yieldWithoutCoreMigration threads 7 0 = .ok kernel' ∧
        Rearranges ScheduledTop (some 7) none [7, 8, 9].toFinset kernel kernel') ∧
      (∃ kernel', kernel.yieldWithCoreMigration threads 7 0 3 = .ok kernel' ∧
        Rearranges kernel.HighestTop (some 7) none [7, 8, 9].toFinset kernel kernel') ∧
      ∃ kernel', kernel.yieldToAnyThread threads 7 0 3 = .ok kernel' ∧
        Rearranges ScheduledTop none (some 7) [7, 8, 9].toFinset kernel kernel' := by
  obtain ⟨q, reached, same⟩ := exists_reaches threeThreads (fun _ _ => {}) threeThreads_suitable
    (l := [7, 8, 9]) (by decide)
  let threads : KYieldThreads Nat Nat :=
    { ownerProcess := fun _ => some 0, pinnedThread := fun _ _ => none
      numKernelWaiters := fun _ => 0, isRunnable := fun _ => true, lastScheduledTick := fun _ => 0 }
  let kernel : KernelCounts Nat Nat :=
    { priorityQueue := q, scheduledCount := fun _ => 0, yieldScheduleCount := fun _ => -1 }
  have running : Running threads kernel [7, 8, 9].toFinset 7 := fun _ => by
    refine ⟨by decide, congrArg ThreadAttributes.isDummyThread (congrFun same 7), ?_⟩
    rw [activeCore, congrFun same 7]
    decide
  obtain ⟨rotation, yields⟩ := rotation_and_yields_rearrange threads kernel reached.consistent
  obtain ⟨topThread, kernel', -, rotated, rearranges⟩ := rotation 7 1 20 rfl rfl
  obtain ⟨without, ⟨k₁, migrates, rearranges₁⟩, k₂, yielded, rearranges₂⟩ := yields 7 0 running
  exact ⟨threads, kernel, rfl, same, ⟨topThread, kernel', rotated 3 le_rfl, rearranges⟩, without,
    ⟨k₁, migrates 3 le_rfl, rearranges₁⟩, k₂, yielded 3 le_rfl, rearranges₂⟩

end KernelCounts

end SumiEmu.Kernel
