/-
# Where the priority queue puts a thread

A thread that is enqueued belongs into the scheduled queue of its active core
and into the suggested queue of every other core of its affinity mask. The loops
over cores move a thread from one row of places to another, one core at a time.
-/

import SumiEmu.Kernel.PriorityQueueLists

namespace SumiEmu.Kernel

open Common Fallible Linking WordBits Function List

theorem KAffinityMask.getAffinity_iff {mask : KAffinityMask} {core : Int}
    (inside : core.toNat < 64) :
    mask.getAffinity core = true ↔ mask.getLsbD core.toNat = true := by
  rw [getAffinity, bne_iff_ne, ne_eq, not_iff_comm]
  constructor
  · intro clear
    refine BitVec.eq_of_getLsbD_eq fun j small => ?_
    rw [BitVec.getLsbD_and, getLsbD_one_shiftLeft inside]
    by_cases same : j = core.toNat
    · subst same
      simp [clear]
    · simp [same]
  · intro zero
    have bit := congrArg (fun v => v.getLsbD core.toNat) zero
    simpa [getLsbD_one_shiftLeft inside] using bit

namespace ThreadAttributes

/-- What the callers keep: a priority in range, cores in range, and an active core
that is in the affinity mask, or none. -/
structure Valid (a : ThreadAttributes) : Prop where
  priority : KPriorityQueue.isValidPriority a.priority = true
  affinityMask : ∀ core : Nat, a.affinityMask.getLsbD core = true → core < 4
  activeCore : 0 ≤ a.activeCore → a.activeCore < 4 ∧ a.affinityMask.getAffinity a.activeCore = true

/-- A thread belongs into a list of a queue once it is enqueued. -/
def BelongsTo (a : ThreadAttributes) (kind : QueueKind) (priority core : Int) : Prop :=
  a.isDummyThread = false ∧ priority = a.priority ∧ priority ≤ KPriorityQueue.lowestPriority ∧
    KPriorityQueue.isValidCore core = true ∧
    match kind with
    | .scheduled => core = a.activeCore
    | .suggested => core ≠ a.activeCore ∧ a.affinityMask.getAffinity core = true

end ThreadAttributes

namespace KPriorityQueue

variable {κ : Type*} [DecidableEq κ] {q : KPriorityQueue κ} {attributes : κ → ThreadAttributes}
  {places : Places κ} {member : κ} {priority : Int}

/-- The places of an enqueued thread, core by core. -/
def row (a : ThreadAttributes) (priority core : Int) : Option (QueueKind × Int) :=
  if isValidCore core = true ∧ a.affinityMask.getAffinity core = true then
    if core = a.activeCore then slot .scheduled priority else slot .suggested priority
  else
    none

/-- A step for one core moves the thread on that core from one row of places to another. -/
def Moves (attributes : κ → ThreadAttributes) (member : κ)
    (old new : Int → Option (QueueKind × Int))
    (f : KPriorityQueue κ → Int → Except Fault (KPriorityQueue κ)) (core : Int) : Prop :=
  ∀ (q : KPriorityQueue κ) (places : Places κ), q.Placed attributes places →
    places member core = old core →
    ∃ q', f q core = .ok q' ∧ q'.Placed attributes (places.put member core (new core))

variable {old new : Int → Option (QueueKind × Int)}
  {f : KPriorityQueue κ → Int → Except Fault (KPriorityQueue κ)}

theorem foldlM_moves (old new : Int → Option (QueueKind × Int)) {list : List Int}
    (moves : ∀ core ∈ list, Moves attributes member old new f core)
    (nodup : list.Nodup) (placed : q.Placed attributes places)
    (before : ∀ core ∈ list, places member core = old core) :
    ∃ q', list.foldlM f q = .ok q' ∧ q'.Placed attributes (update places member
      fun core => if core ∈ list then new core else places member core) := by
  induction list generalizing q places with
  | nil =>
    refine ⟨q, rfl, ?_⟩
    simpa using placed
  | cons core list ih =>
    obtain ⟨fresh, nodup'⟩ := nodup_cons.mp nodup
    obtain ⟨q₁, first, placed₁⟩ := moves core mem_cons_self q places placed
      (before core mem_cons_self)
    obtain ⟨q₂, rest, placed₂⟩ := ih (fun c inside => moves c (mem_cons_of_mem core inside))
      nodup' placed₁ fun c inside => by
        have away : c ≠ core := fun same => fresh (same ▸ inside)
        rw [Places.put_of_ne fun both => away both.2]
        exact before c (mem_cons_of_mem core inside)
    refine ⟨q₂, ?_, ?_⟩
    · rw [foldlM_cons, first]
      exact rest
    · convert placed₂ using 1
      funext m
      by_cases same : m = member
      · subst same
        funext c
        by_cases here : c = core
        · subst here
          simp [fresh]
        · simp [here, Places.put_of_ne fun both : m = m ∧ c = core => here both.2]
      · simp [same, Places.put]

/-- The cores of a mask, in the order in which the loop visits them. -/
def setCores (affinity : BitVec 64) : List Int :=
  if affinity ≠ 0 then
    nextCore affinity :: setCores (clearAffinityBit affinity (nextCore affinity))
  else
    []
termination_by affinity.toNat
decreasing_by exact clearAffinityBit_lt ‹_›

omit [DecidableEq κ] in
theorem forEachCore_eq_foldlM (affinity : BitVec 64) :
    forEachCore f affinity q = (setCores affinity).foldlM f q := by
  fun_induction setCores affinity generalizing q with
  | case1 affinity nonzero ih =>
    rw [forEachCore, if_pos nonzero, foldlM_cons]
    exact congrArg _ (funext fun q => ih)
  | case2 affinity zero =>
    rw [forEachCore, if_neg zero]
    rfl

theorem mem_setCores {affinity : BitVec 64} {core : Int} :
    core ∈ setCores affinity ↔ 0 ≤ core ∧ affinity.getLsbD core.toNat = true := by
  fun_induction setCores affinity with
  | case1 affinity nonzero ih =>
    obtain ⟨inside, set⟩ := nextCore_spec nonzero
    have nonneg : 0 ≤ nextCore affinity := Int.natCast_nonneg _
    rw [mem_cons, ih, getLsbD_clearAffinityBit inside]
    by_cases same : core = nextCore affinity
    · subst same
      simp [set, nonneg]
    · constructor
      · rintro (absurdity | ⟨nonneg', bit⟩)
        · exact absurd absurdity same
        · exact ⟨nonneg', (Bool.and_eq_true_iff.mp bit).1⟩
      · rintro ⟨nonneg', bit⟩
        have other : core.toNat ≠ (nextCore affinity).toNat := by omega
        exact .inr ⟨nonneg', by simp [bit, other]⟩
  | case2 affinity zero =>
    have zero' : affinity = 0 := not_not.mp zero
    simp [zero']

theorem nodup_setCores (affinity : BitVec 64) : (setCores affinity).Nodup := by
  fun_induction setCores affinity with
  | case1 affinity nonzero ih =>
    refine nodup_cons.mpr ⟨fun again => ?_, ih⟩
    rw [mem_setCores, getLsbD_clearAffinityBit (nextCore_spec nonzero).1] at again
    simp at again
  | case2 affinity zero => exact nodup_nil

/-- The cores of a valid affinity mask. -/
theorem mem_setCores_iff {a : ThreadAttributes} (valid : a.Valid) {core : Int} :
    core ∈ setCores a.affinityMask ↔
      isValidCore core = true ∧ a.affinityMask.getAffinity core = true := by
  rw [mem_setCores, isValidCore_iff]
  constructor
  · rintro ⟨nonneg, bit⟩
    have small := valid.affinityMask _ bit
    exact ⟨⟨nonneg, by omega⟩, (KAffinityMask.getAffinity_iff (by omega)).mpr bit⟩
  · rintro ⟨⟨nonneg, small⟩, bit⟩
    exact ⟨nonneg, (KAffinityMask.getAffinity_iff (by omega)).mp bit⟩

/-- The active core of a thread first, and then the other cores of its mask. -/
theorem visitCores (old : Int → Option (QueueKind × Int)) (valid : (attributes member).Valid)
    {g : KPriorityQueue κ → Int → Except Fault (KPriorityQueue κ)}
    (placed : q.Placed attributes places) (before : ∀ c, places member c = old c)
    (outside : ∀ c, ¬ (isValidCore c = true ∧
      (attributes member).affinityMask.getAffinity c = true) → new c = old c)
    (active : ∀ c, c = (attributes member).activeCore → isValidCore c = true →
      Moves attributes member old new g c)
    (rest : ∀ c, c ≠ (attributes member).activeCore → isValidCore c = true →
      (attributes member).affinityMask.getAffinity c = true → Moves attributes member old new f c) :
    ∃ q', (if 0 ≤ (attributes member).activeCore then do
        let q ← g q (attributes member).activeCore
        forEachCore f
          (clearAffinityBit (attributes member).affinityMask (attributes member).activeCore) q
      else
        forEachCore f (attributes member).affinityMask q) = .ok q' ∧
      q'.Placed attributes (update places member new) := by
  generalize core_eq : (attributes member).activeCore = core at *
  by_cases nonneg : 0 ≤ core
  · obtain ⟨small, bit⟩ := valid.activeCore (core_eq ▸ nonneg)
    rw [core_eq] at small bit
    have validCore : isValidCore core = true := isValidCore_iff.mpr ⟨nonneg, small⟩
    obtain ⟨q₁, first, placed₁⟩ := active core rfl validCore q places placed (before core)
    have others : ∀ c, c ∈ setCores (clearAffinityBit (attributes member).affinityMask core) ↔
        c ≠ core ∧ isValidCore c = true ∧
          (attributes member).affinityMask.getAffinity c = true := by
      intro c
      rw [← mem_setCores_iff valid, mem_setCores, mem_setCores,
        getLsbD_clearAffinityBit (by omega)]
      simp only [Bool.and_eq_true, decide_eq_true_eq]
      constructor
      · rintro ⟨nonneg', bit', other⟩
        exact ⟨fun same => other (congrArg Int.toNat same), nonneg', bit'⟩
      · rintro ⟨other, nonneg', bit'⟩
        exact ⟨nonneg', bit', by omega⟩
    obtain ⟨q₂, second, placed₂⟩ := foldlM_moves old new (f := f)
      (fun c inside => rest c ((others c).mp inside).1 ((others c).mp inside).2.1
        ((others c).mp inside).2.2) (nodup_setCores _) placed₁ fun c inside => by
          rw [Places.put_of_ne fun both => ((others c).mp inside).1 both.2]
          exact before c
    refine ⟨q₂, ?_, ?_⟩
    · rw [if_pos nonneg, first, ok_bind, forEachCore_eq_foldlM]
      exact second
    · convert placed₂ using 1
      funext m
      by_cases same : m = member
      · subst same
        funext c
        simp only [update_self, others]
        by_cases here : c = core
        · subst here
          simp
        · rw [Places.put_of_ne fun both => here both.2, before c]
          split
          · rfl
          · next absent => exact outside c fun both => absent ⟨here, both⟩
      · simp [same, Places.put]
  · obtain ⟨q', visited, placed'⟩ := foldlM_moves old new (f := f)
      (fun c inside => by
        obtain ⟨validCore, bit⟩ := (mem_setCores_iff valid).mp inside
        refine rest c (fun same => ?_) validCore bit
        rw [same] at validCore
        exact nonneg (isValidCore_iff.mp validCore).1) (nodup_setCores _) placed fun c _ => before c
    refine ⟨q', ?_, ?_⟩
    · rw [if_neg nonneg, forEachCore_eq_foldlM]
      exact visited
    · convert placed' using 2
      funext c
      rw [before c]
      split
      · rfl
      · next absent => exact outside c fun both => absent ((mem_setCores_iff valid).mpr both)

/-! ## The queue's operations at a priority -/

omit [DecidableEq κ] in
theorem row_active (valid : (attributes member).Valid) {c : Int}
    (active : c = (attributes member).activeCore) (validCore : isValidCore c = true) :
    row (attributes member) priority c = slot .scheduled priority := by
  subst active
  have bit := (valid.activeCore (isValidCore_iff.mp validCore).1).2
  rw [row, if_pos ⟨validCore, bit⟩, if_pos rfl]

omit [DecidableEq κ] in
theorem row_other {c : Int} (other : c ≠ (attributes member).activeCore)
    (validCore : isValidCore c = true)
    (bit : (attributes member).affinityMask.getAffinity c = true) :
    row (attributes member) priority c = slot .suggested priority := by
  rw [row, if_pos ⟨validCore, bit⟩, if_neg other]

section Visits

variable (valid : (attributes member).Valid) (validPriority : isValidPriority priority = true)
  (placed : q.Placed attributes places)
include valid validPriority placed

theorem pushBackAt_placed (absent : ∀ c, places member c = none) :
    ∃ q', q.pushBackAt priority member = .ok q' ∧
      q'.Placed attributes (update places member (row (attributes member) priority)) := by
  rw [pushBackAt, validPriority, placed.1]
  simp only [assert_true, ok_bind, pure_eq_ok]
  refine visitCores (fun _ => none) (g := fun q core =>
    KPriorityQueueImpl.pushBack q .scheduled priority core member) valid placed absent
    (fun c outside => if_neg outside) (fun c active validCore q places placed empty => ?_)
    fun c other validCore bit q places placed empty => ?_
  · rw [row_active valid active validCore]
    exact placed.pushBack _ member validCore validPriority empty
  · rw [row_other other validCore bit]
    exact placed.pushBack _ member validCore validPriority empty

theorem pushFrontAt_placed (absent : ∀ c, places member c = none) :
    ∃ q', q.pushFrontAt priority member = .ok q' ∧
      q'.Placed attributes (update places member (row (attributes member) priority)) := by
  rw [pushFrontAt, validPriority, placed.1]
  simp only [assert_true, ok_bind, pure_eq_ok]
  refine visitCores (fun _ => none) (g := fun q core =>
    KPriorityQueueImpl.pushFront q .scheduled priority core member) valid placed absent
    (fun c outside => if_neg outside) (fun c active validCore q places placed empty => ?_)
    fun c other validCore bit q places placed empty => ?_
  · rw [row_active valid active validCore]
    exact placed.pushFront _ member validCore validPriority empty
  · rw [row_other other validCore bit]
    exact placed.pushBack _ member validCore validPriority empty

theorem removeAt_placed (present : places member = row (attributes member) priority) :
    ∃ q', q.removeAt priority member = .ok q' ∧
      q'.Placed attributes (update places member fun _ => none) := by
  rw [removeAt, validPriority, placed.1]
  simp only [assert_true, ok_bind, pure_eq_ok]
  refine visitCores (row (attributes member) priority)
    (g := fun q core => KPriorityQueueImpl.remove q .scheduled priority core member) valid placed
    (fun c => congrFun present c) (fun c outside => (if_neg outside).symm)
    (fun c active validCore q places placed here => ?_)
    fun c other validCore bit q places placed here => ?_
  · rw [row_active valid active validCore] at here
    exact placed.remove _ member validCore validPriority here
  · rw [row_other other validCore bit] at here
    exact placed.remove _ member validCore validPriority here

end Visits

/-! ## The loops over all cores -/

theorem mem_cores {c : Int} : c ∈ cores ↔ isValidCore c = true := by
  rw [isValidCore_iff]
  simp only [cores, numCores, mem_map, mem_range]
  constructor
  · rintro ⟨n, small, rfl⟩
    refine ⟨Int.natCast_nonneg n, ?_⟩
    change (n : Int) < 4
    omega
  · rintro ⟨nonneg, small⟩
    exact ⟨c.toNat, by omega, Int.toNat_of_nonneg nonneg⟩

theorem nodup_cores : cores.Nodup := by decide

/-- A pass over all cores that moves the thread on each of them. -/
theorem foldlM_cores (old : Int → Option (QueueKind × Int)) (placed : q.Placed attributes places)
    (before : ∀ c, places member c = old c)
    (outside : ∀ c, isValidCore c = false → new c = old c)
    (moves : ∀ c, isValidCore c = true → Moves attributes member old new f c) :
    ∃ q', cores.foldlM f q = .ok q' ∧
      q'.Placed attributes (update places member new) := by
  obtain ⟨q', folded, placed'⟩ := foldlM_moves old new (f := f)
    (fun c inside => moves c (mem_cores.mp inside)) nodup_cores placed fun c _ => before c
  refine ⟨q', folded, ?_⟩
  convert placed' using 2
  funext c
  rw [before c]
  split
  · rfl
  · next absent => exact outside c (by rw [mem_cores] at absent; simpa using absent)

/-- Taking a thread out of each queue that a mask and a core say it is in. -/
theorem removeCores_placed (a : ThreadAttributes) (validPriority : isValidPriority priority = true)
    (placed : q.Placed attributes places) (present : places member = row a priority) :
    ∃ q', cores.foldlM (fun q core =>
        if a.affinityMask.getAffinity core then
          if core = a.activeCore then
            KPriorityQueueImpl.remove q .scheduled priority core member
          else
            KPriorityQueueImpl.remove q .suggested priority core member
        else
          return q) q = .ok q' ∧
      q'.Placed attributes (update places member fun _ => none) := by
  refine foldlM_cores (row a priority) placed (fun c => congrFun present c)
    (fun c invalid => ?_) fun c validCore q places placed here => ?_
  · rw [row, if_neg fun both => by simp [invalid] at both]
  · rw [row] at here
    by_cases bit : a.affinityMask.getAffinity c = true
    · rw [if_pos ⟨validCore, bit⟩] at here
      rw [if_pos bit]
      split
      · next active =>
        rw [if_pos active] at here
        exact placed.remove _ member validCore validPriority here
      · next active =>
        rw [if_neg active] at here
        exact placed.remove _ member validCore validPriority here
    · rw [if_neg fun both => bit both.2] at here
      rw [if_neg bit]
      exact ⟨q, rfl, by rwa [Places.put_eq_self here]⟩

/-- Adding a thread to each queue that a mask and a core say it should be in. -/
theorem pushCores_placed (a : ThreadAttributes) (validPriority : isValidPriority priority = true)
    (placed : q.Placed attributes places) (absent : ∀ c, places member c = none) :
    ∃ q', cores.foldlM (fun q core =>
        if a.affinityMask.getAffinity core then
          if core = a.activeCore then
            KPriorityQueueImpl.pushBack q .scheduled priority core member
          else
            KPriorityQueueImpl.pushBack q .suggested priority core member
        else
          return q) q = .ok q' ∧
      q'.Placed attributes (update places member (row a priority)) := by
  refine foldlM_cores (fun _ => none) placed absent
    (fun c invalid => if_neg fun both => by simp [invalid] at both)
    fun c validCore q places placed empty => ?_
  rw [row]
  by_cases bit : a.affinityMask.getAffinity c = true
  · rw [if_pos bit, if_pos (And.intro validCore bit)]
    split
    · exact placed.pushBack _ member validCore validPriority empty
    · exact placed.pushBack _ member validCore validPriority empty
  · rw [if_neg bit, if_neg fun both => bit both.2]
    exact ⟨q, rfl, by rwa [Places.put_eq_self empty]⟩

end KPriorityQueue

end SumiEmu.Kernel
