/-
# Runs of the priority queue

The scheduler changes the attributes of a thread first and then tells the queue
what they were before. Whatever the order of its calls, the lists hold exactly
the threads that are enqueued, where their current attributes put them, and a
walk over the queue of a core visits its lists from the best priority on.
-/

import SumiEmu.Kernel.PriorityQueuePlaces

namespace SumiEmu.Kernel

open Function List

/-- The attributes of a thread are valid, unless it never enters the queue. -/
def ThreadAttributes.Suitable (a : ThreadAttributes) : Prop := a.isDummyThread = false → a.Valid

namespace KPriorityQueue

open Common Fallible Linking

variable {κ : Type*} [DecidableEq κ] {q q' : KPriorityQueue κ} {attributes : κ → ThreadAttributes}
  {places : Places κ} {member : κ}

/-! ## The operations that change a thread -/

/-- The attributes of a thread are changed before the queue is told. -/
def setAttributes (q : KPriorityQueue κ) (member : κ) (a : ThreadAttributes) : KPriorityQueue κ :=
  { q with attributes := update q.attributes member a }

theorem attributes_setAttributes {a : ThreadAttributes} :
    (q.setAttributes member a).attributes member = a := update_self ..

theorem Placed.setAttributes (placed : q.Placed attributes places) (member : κ)
    (a : ThreadAttributes) :
    (q.setAttributes member a).Placed (update attributes member a) places := by
  obtain ⟨rfl, lists, rep⟩ := placed
  exact ⟨rfl, lists, rep.rings, rep.mem, rep.available⟩

theorem Places.put_update {row : Int → Option (QueueKind × Int)} {core : Int}
    {place : Option (QueueKind × Int)} :
    Places.put (update places member row) member core place =
      update places member (update row core place) := by
  rw [Places.put, update_self, update_idem]

section

variable (attributes : κ → ThreadAttributes)

theorem changePriority_placed (member : κ) {prevPriority : Int} (isRunning : Bool)
    (active : (attributes member).isDummyThread = false) (valid : (attributes member).Valid)
    (validPrev : isValidPriority prevPriority = true) (placed : q.Placed attributes places)
    (present : places member = row (attributes member) prevPriority) :
    ∃ q', q.changePriority prevPriority isRunning member = .ok q' ∧
      q'.Placed attributes (update places member
        (row (attributes member) (attributes member).priority)) := by
  obtain ⟨q₁, removed, placed₁⟩ := removeAt_placed valid validPrev placed present
  have absent : ∀ c, update places member (fun _ => none) member c = none := by
    intro c
    rw [update_self]
  rw [changePriority, placed.1, active, if_neg (by decide), validPrev]
  simp only [assert_true, ok_bind, removed]
  split
  · obtain ⟨q₂, pushed, placed₂⟩ := pushFrontAt_placed valid valid.priority placed₁ absent
    rw [update_idem] at placed₂
    exact ⟨q₂, pushed, placed₂⟩
  · obtain ⟨q₂, pushed, placed₂⟩ := pushBackAt_placed valid valid.priority placed₁ absent
    rw [update_idem] at placed₂
    exact ⟨q₂, pushed, placed₂⟩

theorem changeAffinityMask_placed (member : κ) (prev : ThreadAttributes)
    (active : (attributes member).isDummyThread = false) (valid : (attributes member).Valid)
    (placed : q.Placed attributes places)
    (present : places member = row prev (attributes member).priority) :
    ∃ q', q.changeAffinityMask prev.activeCore prev.affinityMask member = .ok q' ∧
      q'.Placed attributes (update places member
        (row (attributes member) (attributes member).priority)) := by
  obtain ⟨q₁, removed, placed₁⟩ := removeCores_placed prev valid.priority placed present
  obtain ⟨q₂, pushed, placed₂⟩ := pushCores_placed (attributes member) valid.priority placed₁
    fun c => by rw [update_self]
  rw [update_idem] at placed₂
  refine ⟨q₂, ?_, placed₂⟩
  rw [changeAffinityMask, placed.1, active, if_neg (by decide)]
  exact bind_eq_ok.mpr ⟨q₁, removed, pushed⟩

theorem changeCore_placed (member : κ) (prevCore : Int) (toFront : Bool)
    (active : (attributes member).isDummyThread = false) (valid : (attributes member).Valid)
    (validPrev : ({ attributes member with activeCore := prevCore } : ThreadAttributes).Valid)
    (placed : q.Placed attributes places)
    (present : places member =
      row { attributes member with activeCore := prevCore } (attributes member).priority) :
    ∃ q', q.changeCore prevCore member toFront = .ok q' ∧
      q'.Placed attributes (update places member
        (row (attributes member) (attributes member).priority)) := by
  rw [changeCore, placed.1, active, if_neg (by decide)]
  generalize a_eq : attributes member = a at *
  have validPriority := valid.priority
  by_cases same : prevCore = a.activeCore
  · refine ⟨q, if_neg (not_not.mpr same), ?_⟩
    rw [same] at present
    rwa [← present, update_eq_self]
  · rw [← update_eq_self member places, present] at placed
    -- out of the scheduled queue of the previous core
    obtain ⟨q₁, first, placed₁⟩ : ∃ q₁, ifCore prevCore (fun q =>
          KPriorityQueueImpl.remove q .scheduled a.priority prevCore member) q = .ok q₁ ∧
        q₁.Placed attributes (update places member (update
          (row { a with activeCore := prevCore } a.priority) prevCore none)) := by
      rw [ifCore]
      split
      · next nonneg =>
        obtain ⟨small, bit⟩ := validPrev.activeCore nonneg
        have validCore := isValidCore_iff.mpr ⟨nonneg, small⟩
        have here : row { a with activeCore := prevCore } a.priority prevCore =
            slot .scheduled a.priority := by
          rw [row, if_pos ⟨validCore, bit⟩, if_pos rfl]
        have removed := placed.remove _ member validCore validPriority
          (by rw [update_self, here])
        rwa [Places.put_update] at removed
      · next negative =>
        refine ⟨q, rfl, ?_⟩
        have empty : row { a with activeCore := prevCore } a.priority prevCore = none :=
          if_neg fun both => negative (isValidCore_iff.mp both.1).1
        rwa [← empty, update_eq_self]
    -- from the suggested to the scheduled queue of the new core
    obtain ⟨q₂, second, placed₂⟩ : ∃ q₂, ifCore a.activeCore (fun q => do
            let q ← KPriorityQueueImpl.remove q .suggested a.priority a.activeCore member
            if toFront then
              KPriorityQueueImpl.pushFront q .scheduled a.priority a.activeCore member
            else
              KPriorityQueueImpl.pushBack q .scheduled a.priority a.activeCore member) q₁ =
              .ok q₂ ∧
        q₂.Placed attributes (update places member (update
          (row a a.priority) prevCore none)) := by
      rw [ifCore]
      split
      · next nonneg =>
        obtain ⟨small, bit⟩ := valid.activeCore nonneg
        have validCore := isValidCore_iff.mpr ⟨nonneg, small⟩
        have here : update (row { a with activeCore := prevCore } a.priority) prevCore none
            a.activeCore = slot .suggested a.priority := by
          rw [update_of_ne (Ne.symm same), row, if_pos ⟨validCore, bit⟩,
            if_neg (Ne.symm same)]
        obtain ⟨q₂, removed, placed₂⟩ := placed₁.remove _ member validCore validPriority
          (by rw [update_self, here])
        rw [Places.put_update] at placed₂
        have final : update (update (update
            (row { a with activeCore := prevCore } a.priority) prevCore none) a.activeCore none)
              a.activeCore (slot .scheduled a.priority) =
            update (row a a.priority) prevCore none := by
          funext c
          rw [update_idem]
          by_cases new : c = a.activeCore
          · rw [new, update_self, update_of_ne (Ne.symm same), row,
              if_pos ⟨validCore, bit⟩, if_pos rfl]
          · rw [update_of_ne new]
            by_cases old : c = prevCore
            · rw [old, update_self, update_self]
            · rw [update_of_ne old, update_of_ne old, row, row]
              simp only [if_neg new, if_neg old]
        have empty : update places member (update (update
            (row { a with activeCore := prevCore } a.priority) prevCore none) a.activeCore none)
              member a.activeCore = none := by
          rw [update_self, update_self]
        simp only [removed, ok_bind]
        split
        · have pushed := placed₂.pushFront .scheduled member validCore validPriority empty
          rwa [Places.put_update, final] at pushed
        · have pushed := placed₂.pushBack .scheduled member validCore validPriority empty
          rwa [Places.put_update, final] at pushed
      · next negative =>
        refine ⟨q₁, rfl, ?_⟩
        convert placed₁ using 2
        funext c
        by_cases old : c = prevCore
        · rw [old, update_self, update_self]
        · rw [update_of_ne old, update_of_ne old, row, row]
          split
          · next both =>
            have new : c ≠ a.activeCore := by
              rintro rfl
              exact negative (isValidCore_iff.mp both.1).1
            simp only [if_neg new]
          · rfl
    -- into the suggested queue of the previous core
    obtain ⟨q₃, third, placed₃⟩ : ∃ q₃, ifCore prevCore (fun q =>
          KPriorityQueueImpl.pushBack q .suggested a.priority prevCore member) q₂ = .ok q₃ ∧
        q₃.Placed attributes (update places member (row a a.priority)) := by
      rw [ifCore]
      split
      · next nonneg =>
        obtain ⟨small, bit⟩ := validPrev.activeCore nonneg
        have validCore := isValidCore_iff.mpr ⟨nonneg, small⟩
        have here : slot .suggested a.priority = row a a.priority prevCore := by
          rw [row, if_pos ⟨validCore, bit⟩, if_neg same]
        have pushed := placed₂.pushBack .suggested member validCore
          validPriority (by rw [update_self, update_self])
        rwa [Places.put_update, update_idem, here, update_eq_self] at pushed
      · next negative =>
        refine ⟨q₂, rfl, ?_⟩
        have empty : row a a.priority prevCore = none :=
          if_neg fun both => negative (isValidCore_iff.mp both.1).1
        rwa [← empty, update_eq_self] at placed₂
    refine ⟨q₃, ?_, placed₃⟩
    rw [if_pos same]
    exact bind_eq_ok.mpr ⟨q₁, first, bind_eq_ok.mpr ⟨q₂, second, third⟩⟩

end

/-! ## Runs -/

/-- A call that the scheduler makes. The calls that change a thread carry its new attributes. -/
inductive Call (κ : Type*)
  | setAttributes (member : κ) (a : ThreadAttributes)
  | pushBack (member : κ)
  | remove (member : κ)
  | moveToScheduledFront (member : κ)
  | moveToScheduledBack (member : κ)
  | changePriority (member : κ) (priority : Int) (isRunning : Bool)
  | changeAffinityMask (member : κ) (core : Int) (mask : KAffinityMask)
  | changeCore (member : κ) (core : Int) (toFront : Bool)

/-- Make a call, after the change of the attributes that it reports. -/
def call (q : KPriorityQueue κ) : Call κ → Except Fault (KPriorityQueue κ)
  | .setAttributes member a => return q.setAttributes member a
  | .pushBack member => q.pushBack member
  | .remove member => q.remove member
  | .moveToScheduledFront member => q.moveToScheduledFront member
  | .moveToScheduledBack member => do
    let (_, q) ← q.moveToScheduledBack member
    return q
  | .changePriority member priority isRunning =>
    let prev := q.attributes member
    (q.setAttributes member { prev with priority }).changePriority prev.priority isRunning member
  | .changeAffinityMask member core mask =>
    let prev := q.attributes member
    (q.setAttributes member
      { prev with activeCore := core, affinityMask := mask }).changeAffinityMask
      prev.activeCore prev.affinityMask member
  | .changeCore member core toFront =>
    let prev := q.attributes member
    (q.setAttributes member { prev with activeCore := core }).changeCore
      prev.activeCore member toFront

/-- The threads that are enqueued after a call. -/
def Call.enqueued (threads : Finset κ) : Call κ → Finset κ
  | .pushBack member => insert member threads
  | .remove member => threads.erase member
  | _ => threads

/-- A thread is pushed when it is not enqueued, and removed, moved or changed through
the queue when it is. Its attributes are valid as long as it is enqueued. -/
def Call.Admissible (q : KPriorityQueue κ) (threads : Finset κ) : Call κ → Prop
  | .setAttributes member _ => member ∉ threads
  | .pushBack member => member ∉ threads ∧ (q.attributes member).Suitable
  | .remove member => member ∈ threads
  | .moveToScheduledFront member | .moveToScheduledBack member =>
    member ∈ threads ∧ ((q.attributes member).isDummyThread = false →
      0 ≤ (q.attributes member).activeCore)
  | .changePriority member priority _ =>
    member ∈ threads ∧ ({ q.attributes member with priority } : ThreadAttributes).Suitable
  | .changeAffinityMask member core mask =>
    member ∈ threads ∧ ({ q.attributes member with
      activeCore := core, affinityMask := mask } : ThreadAttributes).Suitable
  | .changeCore member core _ =>
    member ∈ threads ∧ ({ q.attributes member with
      activeCore := core } : ThreadAttributes).Suitable

/-- A queue is reached from an empty one, with the threads that are enqueued in it. -/
inductive Reaches (attributes : κ → ThreadAttributes) (entries : Int → κ → QueueEntry κ) :
    Finset κ → KPriorityQueue κ → Prop
  | start : Reaches attributes entries ∅ { attributes, entries }
  | step {threads : Finset κ} {q q' : KPriorityQueue κ} {c : Call κ}
      (reached : Reaches attributes entries threads q) (admissible : c.Admissible q threads)
      (result : q.call c = .ok q') : Reaches attributes entries (c.enqueued threads) q'

/-- Where the enqueued threads should be. -/
def expected (attributes : κ → ThreadAttributes) (threads : Finset κ) : Places κ := fun member =>
  if member ∈ threads ∧ (attributes member).isDummyThread = false then
    row (attributes member) (attributes member).priority
  else
    fun _ => none

/-- The enqueued threads are where they should be, and have valid attributes. -/
structure Consistent (q : KPriorityQueue κ) (threads : Finset κ) : Prop where
  placed : q.Placed q.attributes (expected q.attributes threads)
  suitable : ∀ member ∈ threads, (q.attributes member).Suitable

variable {threads : Finset κ} {a : ThreadAttributes}

section

variable (attributes : κ → ThreadAttributes)

theorem expected_of_dummy (threads : Finset κ)
    (dummy : (attributes member).isDummyThread = true) :
    expected attributes threads member = fun _ => none := by
  simp [expected, dummy]

theorem expected_of_mem (enqueued : member ∈ threads)
    (active : (attributes member).isDummyThread = false) :
    expected attributes threads member =
      row (attributes member) (attributes member).priority :=
  if_pos ⟨enqueued, active⟩

theorem expected_of_notMem (absent : member ∉ threads) :
    expected attributes threads member = fun _ => none :=
  if_neg fun both => absent both.1

end

/-- Two states of the threads expect the same of all threads but one. -/
theorem expected_eq_update {attributes' : κ → ThreadAttributes} (threads' : Finset κ)
    {row' : Int → Option (QueueKind × Int)} (here : expected attributes' threads' member = row')
    (same : ∀ m, m ≠ member → (m ∈ threads' ↔ m ∈ threads) ∧ attributes' m = attributes m) :
    expected attributes' threads' = update (expected attributes threads) member row' := by
  funext m
  by_cases this : m = member
  · rw [this, update_self, here]
  · rw [update_of_ne this, expected, expected, (same m this).2]
    simp only [(same m this).1]

/-! ### What each call does -/

theorem Consistent.of_placed (placed : q.Placed attributes (expected attributes threads))
    (suitable : ∀ m ∈ threads, (attributes m).Suitable) : q.Consistent threads := by
  obtain ⟨rfl, represents⟩ := placed
  exact ⟨⟨rfl, represents⟩, suitable⟩

theorem Consistent.pushBack (consistent : q.Consistent threads) (absent : member ∉ threads)
    (suitable : (q.attributes member).Suitable) :
    ∃ q', q.pushBack member = .ok q' ∧ q'.attributes = q.attributes ∧
      q'.Consistent (insert member threads) := by
  have others : ∀ m, m ≠ member → ((m ∈ insert member threads ↔ m ∈ threads) ∧
      q.attributes m = q.attributes m) := by
    intro m other
    simp [other]
  have suitable' : ∀ m ∈ insert member threads, (q.attributes m).Suitable := by
    intro m inside
    rcases Finset.mem_insert.mp inside with rfl | older
    · exact suitable
    · exact consistent.suitable m older
  rw [KPriorityQueue.pushBack]
  split
  · next dummy =>
    have same := expected_eq_update (insert member threads)
      (expected_of_dummy _ _ dummy) others
    rw [← expected_of_notMem _ absent, update_eq_self] at same
    exact ⟨q, rfl, rfl, same ▸ consistent.placed, suitable'⟩
  · next active =>
    rw [Bool.not_eq_true] at active
    obtain ⟨q', result, placed⟩ := pushBackAt_placed (suitable active)
      (suitable active).priority consistent.placed fun c => congrFun (expected_of_notMem _ absent) c
    rw [← expected_of_mem _ (Finset.mem_insert_self member threads) active,
      ← expected_eq_update _ rfl others] at placed
    exact ⟨q', result, placed.1, .of_placed placed suitable'⟩

theorem Consistent.remove (consistent : q.Consistent threads) (present : member ∈ threads) :
    ∃ q', q.remove member = .ok q' ∧ q'.Consistent (threads.erase member) := by
  have others : ∀ m, m ≠ member → ((m ∈ threads.erase member ↔ m ∈ threads) ∧
      q.attributes m = q.attributes m) := by
    intro m other
    simp [other]
  have suitable' : ∀ m ∈ threads.erase member, (q.attributes m).Suitable :=
    fun m inside => consistent.suitable m (Finset.mem_of_mem_erase inside)
  have same := expected_eq_update (threads.erase member)
    (expected_of_notMem q.attributes (Finset.notMem_erase member threads)) others
  rw [KPriorityQueue.remove]
  split
  · next dummy =>
    rw [← expected_of_dummy q.attributes threads dummy, update_eq_self] at same
    exact ⟨q, rfl, same ▸ consistent.placed, suitable'⟩
  · next active =>
    rw [Bool.not_eq_true] at active
    have valid := consistent.suitable member present active
    obtain ⟨q', result, placed⟩ := removeAt_placed valid valid.priority consistent.placed
      (expected_of_mem _ present active)
    rw [← same] at placed
    exact ⟨q', result, .of_placed placed suitable'⟩

/-- A change of the attributes of an enqueued thread that the queue is told of. -/
theorem Consistent.change (consistent : q.Consistent threads) (present : member ∈ threads)
    (suitable : a.Suitable) (kind : a.isDummyThread = (q.attributes member).isDummyThread)
    {result : Except Fault (KPriorityQueue κ)}
    (dummy : a.isDummyThread = true → result = .ok (q.setAttributes member a))
    (active : a.isDummyThread = false → ∀ places : Places κ,
      (q.setAttributes member a).Placed (update q.attributes member a) places →
      places member = row (q.attributes member) (q.attributes member).priority →
      ∃ q', result = .ok q' ∧ q'.Placed (update q.attributes member a)
        (update places member (row a a.priority))) :
    ∃ q', result = .ok q' ∧ q'.Consistent threads := by
  have placed := consistent.placed.setAttributes member a
  have others : ∀ m, m ≠ member → ((m ∈ threads ↔ m ∈ threads) ∧
      update q.attributes member a m = q.attributes m) := by
    intro m other
    exact ⟨Iff.rfl, update_of_ne other ..⟩
  have suitable' : ∀ m ∈ threads, (update q.attributes member a m).Suitable := by
    intro m inside
    by_cases here : m = member
    · rwa [here, update_self]
    · rw [update_of_ne here]
      exact consistent.suitable m inside
  have here : update q.attributes member a member = a := update_self ..
  cases which : a.isDummyThread with
  | true =>
    have same := expected_eq_update threads
      (expected_of_dummy (update q.attributes member a) threads
        (by rw [here, which])) others
    rw [← expected_of_dummy q.attributes threads (kind.symm.trans which),
      update_eq_self] at same
    exact ⟨_, dummy which, same ▸ placed, suitable'⟩
  | false =>
    obtain ⟨q', changed, placed'⟩ := active which _ placed
      (expected_of_mem _ present (kind.symm.trans which))
    have same := expected_eq_update threads
      (expected_of_mem (update q.attributes member a) present
        (by rw [here, which])) others
    rw [here] at same
    rw [← same] at placed'
    exact ⟨q', changed, .of_placed placed' suitable'⟩

variable {priority core : Int}

omit [DecidableEq κ] in
/-- A thread that moves to an end of its list stays where it is enqueued. -/
theorem Placed.move (member : κ) {attributes : κ → ThreadAttributes} {kind : QueueKind}
    {h : Links κ} {lists : Lists κ} {l : List κ} (same : q.attributes = attributes)
    (rep : q.Represents lists places)
    (becomes : (q.links kind priority core).Becomes (lists kind priority core) h l)
    (mem : ∀ m, m ∈ l ↔ m ∈ lists kind priority core) (present : member ∈ l) :
    (q.setLinks kind priority core h).Placed attributes places := by
  refine ⟨same, _, rep.write_links becomes (fun m => ?_) (fun _ _ _ _ _ => Iff.rfl) fun _ => ?_⟩
  · rw [mem, rep.mem]
  · exact iff_of_true (ne_nil_of_mem ((mem member).mp present)) (ne_nil_of_mem present)

/-- Both moves remove the thread from its list and push it again. -/
theorem Placed.moveTo (placed : q.Placed attributes places)
    (present : places member core = some (.scheduled, priority))
    (push : Links κ → κ → Bool × Links κ) (pushed : List κ → List κ)
    (spec : ∀ (links : Links κ) (l : List κ), links.Rings l → member ∉ l →
      links.Becomes l (push links member).2 (pushed l))
    (mem : ∀ l m, m ∈ pushed l ↔ m = member ∨ m ∈ l) :
    (q.setLinks .scheduled priority core (push (KPerCoreQueue.remove
      (q.links .scheduled priority core) member).2 member).2).Placed attributes places := by
  obtain ⟨same, lists, rep⟩ := placed
  obtain ⟨l₁, l₂, split⟩ := append_of_mem ((rep.mem .scheduled priority core member).mpr present)
  have rings := rep.rings .scheduled priority core
  rw [split] at rings
  obtain ⟨-, removed⟩ := KPerCoreQueue.remove_spec rings
  have apart := (nodup_cons.mp (nodup_middle.mp rings.nodup)).1
  have moved := spec _ _ removed.rings apart
  have members : ∀ m, m ∈ pushed (l₁ ++ l₂) ↔ m ∈ l₁ ++ member :: l₂ := by
    intro m
    rw [mem, mem_append, mem_append, mem_cons]
    tauto
  have inside : member ∈ pushed (l₁ ++ l₂) := (mem _ _).mpr (.inl rfl)
  refine Placed.move member (l := pushed (l₁ ++ l₂)) same rep ⟨moved.rings, ?_⟩ ?_ inside
  · intro a outside outside'
    rw [split] at outside
    have away : a ∉ l₁ ++ l₂ := fun member' => outside' ((mem _ _).mpr (.inr member'))
    exact (moved.frame a away outside').trans (removed.frame a outside away)
  · rw [split]
    exact members

section

variable (consistent : q.Consistent threads)

include consistent

theorem Consistent.moveToScheduled (present : member ∈ threads)
    (active : (q.attributes member).isDummyThread = false)
    (nonneg : 0 ≤ (q.attributes member).activeCore)
    (push : Links κ → κ → Bool × Links κ) (pushed : List κ → List κ)
    (spec : ∀ (links : Links κ) (l : List κ), links.Rings l → member ∉ l →
      links.Becomes l (push links member).2 (pushed l))
    (mem : ∀ l m, m ∈ pushed l ↔ m = member ∨ m ∈ l)
    (below : (q.attributes member).priority ≤ lowestPriority) :
    (q.setLinks .scheduled (q.attributes member).priority (q.attributes member).activeCore
      (push (KPerCoreQueue.remove (q.links .scheduled (q.attributes member).priority
        (q.attributes member).activeCore) member).2 member).2).Consistent threads := by
  have valid := consistent.suitable member present active
  have validCore := isValidCore_iff.mpr ⟨nonneg, (valid.activeCore nonneg).1⟩
  have place : expected q.attributes threads member (q.attributes member).activeCore =
      some (.scheduled, (q.attributes member).priority) := by
    rw [expected_of_mem _ present active, row_active valid rfl validCore, slot,
      if_neg (not_lt.mpr below)]
  exact .of_placed (consistent.placed.moveTo place push pushed spec mem) consistent.suitable

theorem Consistent.moveToScheduledFront
    (present : member ∈ threads) (onCore : (q.attributes member).isDummyThread = false →
      0 ≤ (q.attributes member).activeCore) :
    ∃ q', q.moveToScheduledFront member = .ok q' ∧ q'.Consistent threads := by
  rw [KPriorityQueue.moveToScheduledFront]
  split
  · exact ⟨q, rfl, consistent⟩
  · next active =>
    rw [Bool.not_eq_true] at active
    have valid := consistent.suitable member present active
    have nonneg := onCore active
    rw [KPriorityQueueImpl.moveToFront, isValidCore_iff.mpr ⟨nonneg, (valid.activeCore nonneg).1⟩,
      valid.priority]
    simp only [assert_true, ok_bind]
    split
    · next below =>
      exact ⟨_, rfl, consistent.moveToScheduled present active nonneg KPerCoreQueue.pushFront
        (List.cons member) (fun _ _ rings fresh => (KPerCoreQueue.pushFront_spec rings fresh).2)
        (fun l m => mem_cons) below⟩
    · exact ⟨q, rfl, consistent⟩

theorem Consistent.moveToScheduledBack
    (present : member ∈ threads) (onCore : (q.attributes member).isDummyThread = false →
      0 ≤ (q.attributes member).activeCore) :
    ∃ out q', q.moveToScheduledBack member = .ok (out, q') ∧ q'.Consistent threads := by
  rw [KPriorityQueue.moveToScheduledBack]
  split
  · exact ⟨none, q, rfl, consistent⟩
  · next active =>
    rw [Bool.not_eq_true] at active
    have valid := consistent.suitable member present active
    have nonneg := onCore active
    rw [KPriorityQueueImpl.moveToBack, isValidCore_iff.mpr ⟨nonneg, (valid.activeCore nonneg).1⟩,
      valid.priority]
    simp only [assert_true, ok_bind]
    split
    · next below =>
      exact ⟨_, _, rfl, consistent.moveToScheduled present active nonneg KPerCoreQueue.pushBack
        (fun l => l ++ [member])
        (fun _ _ rings fresh => (KPerCoreQueue.pushBack_spec rings fresh).2)
        (fun l m => by rw [mem_append, mem_singleton, or_comm]) below⟩
    · exact ⟨none, q, rfl, consistent⟩

/-- An admissible call passes every assertion, and keeps the enqueued threads in their places. -/
theorem Consistent.call {c : Call κ} (admissible : c.Admissible q threads) :
    ∃ q', q.call c = .ok q' ∧ q'.Consistent (c.enqueued threads) := by
  cases c with
  | setAttributes member a =>
    have away : ∀ m ∈ threads, update q.attributes member a m = q.attributes m := by
      intro m inside
      refine update_of_ne ?_ ..
      rintro rfl
      exact admissible inside
    have placed := consistent.placed.setAttributes member a
    have same := expected_eq_update threads
      (expected_of_notMem (update q.attributes member a) admissible)
      fun m other => ⟨Iff.rfl, update_of_ne other ..⟩
    rw [← expected_of_notMem q.attributes admissible,
      update_eq_self] at same
    refine ⟨_, rfl, same ▸ placed, fun m inside => ?_⟩
    change (update q.attributes member a m).Suitable
    rw [away m inside]
    exact consistent.suitable m inside
  | pushBack member =>
    obtain ⟨q', result, -, consistent'⟩ := consistent.pushBack admissible.1 admissible.2
    exact ⟨q', result, consistent'⟩
  | remove member => exact consistent.remove admissible
  | moveToScheduledFront member =>
    exact consistent.moveToScheduledFront admissible.1 admissible.2
  | moveToScheduledBack member =>
    obtain ⟨out, q', result, consistent'⟩ :=
      consistent.moveToScheduledBack admissible.1 admissible.2
    exact ⟨q', bind_eq_ok.mpr ⟨_, result, rfl⟩, consistent'⟩
  | changePriority member priority isRunning =>
    obtain ⟨present, suitable⟩ := admissible
    refine consistent.change present suitable rfl (fun dummy => ?_) fun active places placed here =>
      ?_
    · refine if_pos ?_
      rw [attributes_setAttributes]
      exact dummy
    · have valid := consistent.suitable member present active
      have changed := changePriority_placed (update q.attributes member
          { q.attributes member with priority }) member isRunning
        (by rw [update_self]; exact active)
        (by rw [update_self]; exact suitable active) valid.priority placed
        (by rw [update_self, here]; rfl)
      rwa [update_self] at changed
  | changeAffinityMask member core mask =>
    obtain ⟨present, suitable⟩ := admissible
    refine consistent.change present suitable rfl (fun dummy => ?_) fun active places placed here =>
      ?_
    · refine if_pos ?_
      rw [attributes_setAttributes]
      exact dummy
    · have changed := changeAffinityMask_placed (update q.attributes member
          { q.attributes member with activeCore := core, affinityMask := mask }) member
        (q.attributes member)
        (by rw [update_self]; exact active)
        (by rw [update_self]; exact suitable active) placed
        (by rw [update_self, here])
      rwa [update_self] at changed
  | changeCore member core toFront =>
    obtain ⟨present, suitable⟩ := admissible
    refine consistent.change present suitable rfl (fun dummy => ?_) fun active places placed here =>
      ?_
    · refine if_pos ?_
      rw [attributes_setAttributes]
      exact dummy
    · have changed := changeCore_placed (update q.attributes member
          { q.attributes member with activeCore := core }) member (q.attributes member).activeCore
        toFront
        (by rw [update_self]; exact active)
        (by rw [update_self]; exact suitable active)
        (by rw [update_self]; exact consistent.suitable member present active) placed
        (by rw [update_self, here])
      rwa [update_self] at changed

end

theorem start_consistent (attributes : κ → ThreadAttributes) (entries : Int → κ → QueueEntry κ) :
    ({ attributes, entries } : KPriorityQueue κ).Consistent ∅ := by
  have nowhere : expected attributes (∅ : Finset κ) = fun _ _ => none :=
    funext fun m => expected_of_notMem attributes (Finset.notMem_empty m)
  refine .of_placed ⟨rfl, fun _ _ _ => [], fun k p c => ring_nil.mpr ⟨rfl, rfl⟩,
    fun k p c m => ?_, fun k p c _ => ?_⟩ fun m absurdity =>
    absurd absurdity (Finset.notMem_empty m)
  · rw [nowhere]
    simp
  · refine iff_of_false ?_ (not_not.mpr rfl)
    change ¬ ({} : BitSet64 64).test p.toNat = true
    rw [BitSet.test_empty]
    decide

variable {entries : Int → κ → QueueEntry κ}

theorem Reaches.consistent
    (reached : Reaches attributes entries threads q) : q.Consistent threads := by
  induction reached with
  | start => exact start_consistent attributes entries
  | step reached admissible result ih =>
    obtain ⟨q', result', consistent⟩ := ih.call admissible
    cases result.symm.trans result'
    exact consistent

/-- An enqueued thread is expected where its attributes say that it belongs. -/
theorem expected_iff_belongsTo (suitable : ∀ m ∈ threads, (attributes m).Suitable)
    {kind : QueueKind} :
    expected attributes threads member core = some (kind, priority) ↔
      member ∈ threads ∧ (attributes member).BelongsTo kind priority core := by
  constructor
  · intro place
    by_cases enqueued : member ∈ threads ∧ (attributes member).isDummyThread = false
    · rw [expected, if_pos enqueued, row] at place
      split at place
      · next inside =>
        rw [slot, slot] at place
        split at place
        · next active =>
          split at place
          · cases place
          · next below =>
            cases place
            exact ⟨enqueued.1, enqueued.2, rfl, not_lt.mp below, inside.1, active⟩
        · next other =>
          split at place
          · cases place
          · next below =>
            cases place
            exact ⟨enqueued.1, enqueued.2, rfl, not_lt.mp below, inside.1, other, inside.2⟩
      · cases place
    · rw [expected, if_neg enqueued] at place
      cases place
  · rintro ⟨enqueued, active, rfl, below, validCore, where'⟩
    rw [expected_of_mem attributes enqueued active]
    cases kind with
    | scheduled =>
      rw [row_active (suitable member enqueued active) where' validCore, slot,
        if_neg (not_lt.mpr below)]
    | suggested => rw [row_other where'.1 validCore where'.2, slot, if_neg (not_lt.mpr below)]

/-- What a queue holds in its lists. Each of them is linked both ways and names no thread twice. Its
members are the enqueued threads that belong into it, so each of them is in one list for each
core of its mask, and nowhere else. A priority is available when its list is not empty. The
front of a core is its first thread, and the walk from there visits the threads by priority and
in the order of the lists. Every admissible call passes the assertions of the queue. -/
structure Listed (q : KPriorityQueue κ) (threads : Finset κ) (lists : Lists κ) : Prop where
  rings : ∀ kind priority core, (q.links kind priority core).Rings (lists kind priority core) ∧
    (lists kind priority core).Nodup
  members : ∀ kind priority core member, member ∈ lists kind priority core ↔
    member ∈ threads ∧ (q.attributes member).BelongsTo kind priority core
  available : ∀ kind core (priority : Nat), priority < 64 →
    (((q.queues kind).availablePriorities core).test priority = true ↔
      lists kind priority core ≠ [])
  walks : ∀ kind core, isValidCore core = true →
    q.getFront kind core = .ok (lists.all kind core).head? ∧
    (∀ priority, isValidPriority priority = true →
      q.getFrontAt kind core priority = .ok (lists kind priority core).head?) ∧
    ∃ next : κ → Option κ,
      (∀ member ∈ lists.all kind core, q.getNext kind core member = .ok (next member)) ∧
      Linked next (lists.all kind core).head? (lists.all kind core) none
  passes : ∀ c : Call κ, c.Admissible q threads → ∃ q', q.call c = .ok q'

/-- Every reached queue holds the enqueued threads in its lists. -/
theorem reaches_lists (reached : Reaches attributes entries threads q) :
    ∃ lists : Lists κ, q.Listed threads lists := by
  have consistent := reached.consistent
  obtain ⟨-, lists, rep⟩ := consistent.placed
  have members : ∀ kind priority core member, member ∈ lists kind priority core ↔
      member ∈ threads ∧ (q.attributes member).BelongsTo kind priority core := by
    intro kind priority core member
    rw [rep.mem, expected_iff_belongsTo consistent.suitable]
  have priorities : ∀ kind core (p : Int) m, m ∈ lists kind p core →
      (q.attributes m).priority = p := by
    intro kind core p m inside
    exact ((members kind p core m).mp inside).2.2.1.symm
  refine ⟨lists, fun kind priority core => ⟨rep.rings .., (rep.rings ..).nodup⟩, members,
    fun kind core priority _ => rep.available kind priority core (Int.natCast_nonneg priority),
    fun kind core validCore => ⟨rep.getFront validCore, fun priority validPriority => ?_,
      q.next lists kind core, fun member inside => ?_, ?_⟩, fun c admissible => ?_⟩
  · refine rep.getFrontAt validCore validPriority fun past => eq_nil_iff_forall_not_mem.mpr ?_
    intro member inside
    exact absurd ((members kind priority core member).mp inside).2.2.2.1 (not_le.mpr past)
  · obtain ⟨p, below, inside'⟩ := Lists.mem_all.mp inside
    refine rep.getNext validCore ?_
    rwa [priorities kind core p member inside', Int.toNat_natCast]
  · have walked := rep.linked_next (priorities kind core) 0 (Nat.zero_le 64)
    rwa [Lists.from_zero] at walked
  · obtain ⟨q', result, -⟩ := consistent.call admissible
    exact ⟨q', result⟩

/-! ## Several threads -/

/-- Threads whose attributes are valid can be enqueued one after the other. -/
theorem exists_reaches (attributes : κ → ThreadAttributes) (entries : Int → κ → QueueEntry κ)
    (suitable : ∀ member, (attributes member).Suitable) {l : List κ} (once : l.Nodup) :
    ∃ q, Reaches attributes entries l.toFinset q ∧ q.attributes = attributes := by
  induction l with
  | nil => exact ⟨_, .start, rfl⟩
  | cons member rest ih =>
    obtain ⟨absent, once⟩ := nodup_cons.mp once
    obtain ⟨q, reached, same⟩ := ih once
    have absent : member ∉ rest.toFinset := mt mem_toFinset.mp absent
    have valid : (q.attributes member).Suitable := same ▸ suitable member
    obtain ⟨q', result, kept, -⟩ := reached.consistent.pushBack absent valid
    rw [toFinset_cons]
    exact ⟨q', .step (c := .pushBack member) reached ⟨absent, valid⟩ result, kept.trans same⟩

/-- Threads of two priorities that run on the first three cores. One of them is on no core yet. -/
def threeThreads (thread : Nat) : ThreadAttributes where
  priority := if thread = 7 then 10 else 20
  activeCore := if thread = 9 then -1 else 1
  affinityMask := 0b0111

theorem threeThreads_suitable (thread : Nat) : (threeThreads thread).Suitable := by
  refine fun _ => ⟨?_, fun core set => ?_, fun nonneg => ?_⟩
  · unfold threeThreads
    dsimp only
    split_ifs
    · decide
    · decide
  · by_contra outside
    have small := Nat.testBit_lt_two_pow (x := 7) (i := core)
      (Nat.lt_of_lt_of_le (by decide : 7 < 2 ^ 4) (Nat.pow_le_pow_right (by decide) (by omega)))
    cases small.symm.trans set
  · unfold threeThreads at nonneg ⊢
    dsimp only at nonneg ⊢
    split_ifs at nonneg ⊢
    · cases nonneg
    · exact ⟨by decide, by decide⟩

/-- Three threads are enqueued, the one on no core gets another priority, and another one is
removed. -/
theorem reaches_lists_threeThreads : ∃ q₁ q₂ q : KPriorityQueue Nat,
    Reaches threeThreads (fun _ _ => {}) {7, 8, 9} q₁ ∧
    q₁.call (.changePriority 9 5 true) = .ok q₂ ∧ q₂.call (.remove 8) = .ok q ∧
    ∃ lists, q.Listed {7, 9} lists := by
  obtain ⟨q₁, reached, same⟩ := exists_reaches threeThreads (fun _ _ => {}) threeThreads_suitable
    (l := [7, 8, 9]) (by decide)
  have changes : (Call.changePriority 9 5 true).Admissible q₁ [7, 8, 9].toFinset := by
    refine ⟨by decide, fun active => ?_⟩
    obtain ⟨-, mask, core⟩ := (same ▸ threeThreads_suitable 9 : (q₁.attributes 9).Suitable) active
    exact ⟨rfl, mask, core⟩
  obtain ⟨q₂, changed, -⟩ := reached.consistent.call changes
  have reached₂ := Reaches.step reached changes changed
  have removes : (Call.remove 8).Admissible q₂ [7, 8, 9].toFinset := by
    show 8 ∈ [7, 8, 9].toFinset
    decide
  obtain ⟨q, removed, -⟩ := reached₂.consistent.call removes
  have left : [7, 8, 9].toFinset.erase 8 = {7, 9} := by decide
  exact ⟨q₁, q₂, q, reached, changed, removed,
    left ▸ reaches_lists (.step reached₂ removes removed)⟩

end KPriorityQueue

end SumiEmu.Kernel
