/-
# How a migration changes the walks over the priority queue

A thread that changes its core leaves the scheduled walk of the one core and
enters that of the other. Both walks keep the order of the other threads, and
the walks over the remaining cores stay as they are.
-/

import SumiEmu.Kernel.PriorityQueueRun

namespace SumiEmu.Kernel.KPriorityQueue

open Common Fallible Linking Function List

variable {κ : Type*} {q : KPriorityQueue κ} {lists : Lists κ} {places : Places κ}
  {kind k : QueueKind} {priority core prevCore c : Int} {member : κ} {l : List κ}

/-- A list without one of its members, in the same order otherwise. -/
def Without (member : κ) (l l' : List κ) : Prop :=
  ∃ before after, l = before ++ member :: after ∧ l' = before ++ after

/-- The threads of a queue on a core are those of one list, between the others. -/
theorem Lists.all_set (lists : Lists κ) (kind : QueueKind) (core : Int) {priority : Nat}
    (below : priority < 64) :
    ∃ before after, ∀ l, (lists.set kind priority core l).all kind core = before ++ l ++ after := by
  obtain ⟨lower, upper, split⟩ := append_of_mem (mem_range.mpr below)
  have nodup := nodup_middle.mp (split ▸ nodup_range (n := 64))
  have apart := (nodup_cons.mp nodup).1
  rw [mem_append, not_or] at apart
  have others : ∀ (part : List Nat) (l : List κ), priority ∉ part →
      part.flatMap (fun p : Nat => lists.set kind priority core l kind p core) =
        part.flatMap fun p : Nat => lists kind p core := by
    intro part l absent
    refine flatMap_congr fun p inside => Lists.set_of_ne fun all => absent ?_
    rwa [← Int.ofNat_inj.mp all.2.1]
  refine ⟨lower.flatMap fun p : Nat => lists kind p core,
    upper.flatMap fun p : Nat => lists kind p core, fun l => ?_⟩
  rw [Lists.all, split, flatMap_append, flatMap_cons, others lower l apart.1,
    others upper l apart.2, Lists.set_self, append_assoc]

theorem Lists.all_set_of_ne (other : ¬ (k = kind ∧ c = core)) :
    (lists.set kind priority core l).all k c = lists.all k c :=
  flatMap_congr fun _ _ => Lists.set_of_ne fun all => other ⟨all.1, all.2.2⟩

theorem Lists.set_eq_self (same : lists kind priority core = l) :
    lists.set kind priority core l = lists := by
  funext k p c
  rw [Lists.set]
  split
  · next here =>
    obtain ⟨rfl, rfl, rfl⟩ := here
    exact same.symm
  · rfl

/-- A thread that one of two lists misses is also what the walk over it misses. -/
theorem Lists.all_without {l l' : List κ} (lists : Lists κ) (kind : QueueKind) (core : Int)
    (nonneg : 0 ≤ priority) (below : priority ≤ lowestPriority) (without : Without member l l') :
    Without member ((lists.set kind priority core l).all kind core)
      ((lists.set kind priority core l').all kind core) := by
  obtain ⟨n, rfl⟩ := Int.eq_ofNat_of_zero_le nonneg
  change (n : Int) ≤ 63 at below
  obtain ⟨before, after, all⟩ := lists.all_set kind core (show n < 64 by omega)
  obtain ⟨l₁, l₂, rfl, rfl⟩ := without
  refine ⟨before ++ l₁, l₂ ++ after, ?_, ?_⟩
  · rw [all]
    simp
  · rw [all]
    simp

/-- A walk visits no thread twice. -/
theorem Represents.nodup_all (rep : q.Represents lists places) : (lists.all kind core).Nodup := by
  refine nodup_flatMap.mpr ⟨fun p _ => (rep.rings kind p core).nodup, ?_⟩
  refine nodup_range.imp fun {p p'} apart m inside inside' => apart ?_
  rw [rep.mem] at inside inside'
  have same := Option.some.inj (inside.symm.trans inside')
  exact Int.ofNat_inj.mp (congrArg Prod.snd same)

/-! ## The order of the threads that stay -/

section Agree

variable [DecidableEq κ] {lists' lists'' : Lists κ} {moved moved' l' : List κ}

/-- The lists name all threads but those that moved in the same order. -/
def Lists.Agree (moved : List κ) (lists lists' : Lists κ) : Prop :=
  ∀ k p c, (lists' k p c).filter (· ∉ moved) = (lists k p c).filter (· ∉ moved)

theorem Lists.Agree.refl (moved : List κ) (lists : Lists κ) : lists.Agree moved lists :=
  fun _ _ _ => rfl

theorem Lists.Agree.trans (agree : lists.Agree moved lists') (agree' : lists'.Agree moved lists'') :
    lists.Agree moved lists'' :=
  fun k p c => (agree' k p c).trans (agree k p c)

theorem Lists.Agree.mono (agree : lists.Agree moved lists') (more : moved ⊆ moved') :
    lists.Agree moved' lists' := by
  intro k p c
  have twice : ∀ l : List κ, l.filter (· ∉ moved') =
      (l.filter (· ∉ moved)).filter (· ∉ moved') := by
    intro l
    rw [filter_filter]
    refine filter_congr fun m _ => ?_
    rw [← Bool.decide_and]
    exact decide_eq_decide.mpr ⟨fun away => ⟨away, fun inside => away (more inside)⟩, And.left⟩
  rw [twice, agree k p c, ← twice]

theorem Without.filter_eq (without : Without member l l') :
    l.filter (· ∉ [member]) = l'.filter (· ∉ [member]) := by
  obtain ⟨before, after, rfl, rfl⟩ := without
  simp

theorem Lists.agree_set
    (same : l.filter (· ∉ moved) = (lists kind priority core).filter (· ∉ moved)) :
    lists.Agree moved (lists.set kind priority core l) := by
  intro k p c
  by_cases here : k = kind ∧ p = priority ∧ c = core
  · obtain ⟨rfl, rfl, rfl⟩ := here
    rw [Lists.set_self, same]
  · rw [Lists.set_of_ne here]

end Agree

/-! ## Walks -/

/-- A list is what a walk over a queue of a core visits, from the front on. -/
def Walks (q : KPriorityQueue κ) (kind : QueueKind) (core : Int) (l : List κ) : Prop :=
  q.getFront kind core = .ok l.head? ∧ ∃ next : κ → Option κ,
    (∀ member ∈ l, q.getNext kind core member = .ok (next member)) ∧ Linked next l.head? l none

theorem Walks.next_head (walks : q.Walks kind core (member :: l)) :
    q.getNext kind core member = .ok l.head? := by
  obtain ⟨-, next, steps, -, linked⟩ := walks
  rw [steps member mem_cons_self]
  cases l with
  | nil => exact congrArg Except.ok linked
  | cons first l => exact congrArg Except.ok linked.1

/-- The entries of a queue determine its lists. -/
theorem Represents.unique {lists' : Lists κ} {places' : Places κ}
    (rep : q.Represents lists places) (rep' : q.Represents lists' places') : lists = lists' := by
  funext k p c
  exact (rep.rings k p c).linked.unique (rep'.rings k p c).linked

/-- A thread that is not the first leaves the first where it is. -/
theorem Without.head_eq {l' : List κ} (without : Without member l l')
    (other : l.head? ≠ some member) : l'.head? = l.head? := by
  obtain ⟨before, after, rfl, rfl⟩ := without
  cases before with
  | nil => exact absurd rfl other
  | cons first before => rfl

/-- The first thread leaves the one after it as the first. -/
theorem Without.tail_eq {l' : List κ} (without : Without member l l') (nodup : l.Nodup)
    (first : l.head? = some member) : l = member :: l' := by
  obtain ⟨before, after, rfl, rfl⟩ := without
  cases before with
  | nil => rfl
  | cons other before =>
    cases first
    refine absurd ?_ (nodup_cons.mp nodup).1
    exact mem_append_right before mem_cons_self

section Consistent

variable [DecidableEq κ] {threads : Finset κ} (suitable : ∀ m ∈ threads, (q.attributes m).Suitable)
  (rep : q.Represents lists (expected q.attributes threads))
include suitable rep

theorem Represents.mem_iff {m : κ} : m ∈ lists kind priority core ↔
    m ∈ threads ∧ (q.attributes m).BelongsTo kind priority core := by
  rw [rep.mem, expected_iff_belongsTo suitable]

theorem Represents.mem_all_iff {m : κ} : m ∈ lists.all kind core ↔
    m ∈ threads ∧ (q.attributes m).BelongsTo kind (q.attributes m).priority core := by
  rw [Lists.mem_all]
  constructor
  · rintro ⟨p, -, inside⟩
    obtain ⟨enqueued, belongs⟩ := (rep.mem_iff suitable).mp inside
    exact ⟨enqueued, belongs.2.1 ▸ belongs⟩
  · rintro ⟨enqueued, belongs⟩
    have nonneg := (isValidPriority_iff.mp (suitable m enqueued belongs.1).priority).1
    have small : (q.attributes m).priority ≤ 63 := belongs.2.2.1
    refine ⟨(q.attributes m).priority.toNat, by omega, ?_⟩
    rw [Int.toNat_of_nonneg nonneg]
    exact (rep.mem_iff suitable).mpr ⟨enqueued, belongs⟩

theorem Represents.priority_eq {m : κ} (inside : m ∈ lists kind priority core) :
    (q.attributes m).priority = priority :=
  ((rep.mem_iff suitable).mp inside).2.2.1.symm

/-- A walk visits the threads from the best priority to the worst. -/
theorem Represents.sorted_all : (lists.all kind core).Pairwise fun m m' =>
    (q.attributes m).priority ≤ (q.attributes m').priority := by
  rw [Lists.all, pairwise_flatMap]
  constructor
  · intro p _
    refine pairwise_iff_forall_sublist.mpr fun {m m'} part => ?_
    have inside := part.subset mem_cons_self
    have inside' := part.subset (mem_cons_of_mem m (mem_singleton_self m'))
    rw [rep.priority_eq suitable inside, rep.priority_eq suitable inside']
  · refine pairwise_lt_range.imp fun {p p'} order m inside m' inside' => ?_
    rw [rep.priority_eq suitable inside, rep.priority_eq suitable inside']
    exact Int.ofNat_le.mpr order.le

theorem Represents.walks (validCore : isValidCore core = true) :
    q.Walks kind core (lists.all kind core) := by
  refine ⟨rep.getFront validCore, q.next lists kind core, fun m inside => ?_, ?_⟩
  · obtain ⟨p, below, inside'⟩ := Lists.mem_all.mp inside
    refine rep.getNext validCore ?_
    rwa [rep.priority_eq suitable inside', Int.toNat_natCast]
  · have priorities : ∀ (p : Int) (m : κ), m ∈ lists kind p core → (q.attributes m).priority = p :=
      fun p m inside => rep.priority_eq suitable inside
    have walked := rep.linked_next priorities 0 (Nat.zero_le 64)
    rwa [Lists.from_zero] at walked

end Consistent

/-! ## Changing the core of a thread -/

section ChangeCore

variable [DecidableEq κ]

/-- The walks after a thread has moved from a core, or from none, to another. -/
structure Migrated (lists lists' : Lists κ) (prevCore core : Int) (member : κ) : Prop where
  left : 0 ≤ prevCore →
    Without member (lists.all .scheduled prevCore) (lists'.all .scheduled prevCore)
  entered : Without member (lists'.all .scheduled core) (lists.all .scheduled core)
  others : ∀ kind c, c ≠ prevCore → c ≠ core → lists'.all kind c = lists.all kind c

/-- A thread enters a list at the front or at the back. -/
theorem Represents.pushTo (rep : q.Represents lists places) (kind : QueueKind) (member : κ)
    (toFront : Bool) (validCore : isValidCore core = true)
    (validPriority : isValidPriority priority = true) (below : priority ≤ lowestPriority)
    (absent : places member core = none) :
    ∃ l q', (if toFront = true then KPriorityQueueImpl.pushFront q kind priority core member
        else KPriorityQueueImpl.pushBack q kind priority core member) = .ok q' ∧
      q'.attributes = q.attributes ∧
      q'.Represents (lists.set kind priority core l)
        (places.put member core (some (kind, priority))) ∧
      Without member l (lists kind priority core) := by
  cases toFront with
  | true =>
    obtain ⟨q', pushed, kept, rep'⟩ :=
      rep.pushFront kind member validCore validPriority below absent
    exact ⟨_, q', pushed, kept, rep', [], _, rfl, rfl⟩
  | false =>
    obtain ⟨q', pushed, kept, rep'⟩ :=
      rep.pushBack kind member validCore validPriority below absent
    exact ⟨_, q', pushed, kept, rep', _, [], rfl, (append_nil _).symm⟩

theorem Represents.changeCore (rep : q.Represents lists places) (prevCore : Int) (member : κ)
    (toFront : Bool) (active : (q.attributes member).isDummyThread = false)
    (validPriority : isValidPriority (q.attributes member).priority = true)
    (below : (q.attributes member).priority ≤ lowestPriority)
    (validCore : isValidCore (q.attributes member).activeCore = true)
    (apart : prevCore ≠ (q.attributes member).activeCore)
    (validPrev : 0 ≤ prevCore → isValidCore prevCore = true)
    (scheduled : 0 ≤ prevCore →
      places member prevCore = some (.scheduled, (q.attributes member).priority))
    (suggested : places member (q.attributes member).activeCore =
      some (.suggested, (q.attributes member).priority)) :
    ∃ q' lists' places', q.changeCore prevCore member toFront = .ok q' ∧
      q'.attributes = q.attributes ∧ q'.Represents lists' places' ∧
      Migrated lists lists' prevCore (q.attributes member).activeCore member ∧
      lists.Agree [member] lists' := by
  rw [KPriorityQueue.changeCore, active, if_neg (by decide)]
  generalize (q.attributes member).activeCore = core at *
  generalize (q.attributes member).priority = priority at *
  have nonneg := (isValidPriority_iff.mp validPriority).1
  have onCore : 0 ≤ core := (isValidCore_iff.mp validCore).1
  by_cases onPrev : 0 ≤ prevCore
  · obtain ⟨l₁, l₂, q₁, split₁, first, kept₁, rep₁⟩ :=
      rep.remove .scheduled member (validPrev onPrev) validPriority below (scheduled onPrev)
    have suggested₁ : places.put member prevCore none member core =
        some (.suggested, priority) := by
      rw [Places.put_of_ne fun both => apart both.2.symm]
      exact suggested
    obtain ⟨l₃, l₄, q₂, split₂, second, kept₂, rep₂⟩ :=
      rep₁.remove .suggested member validCore validPriority below suggested₁
    obtain ⟨l, q₃, third, kept₃, rep₃, entered⟩ := rep₂.pushTo .scheduled member toFront validCore
      validPriority below Places.put_self
    have absent : ((((places.put member prevCore none).put member core none).put member core
        (some (.scheduled, priority))) member prevCore) = none := by
      rw [Places.put_of_ne fun both => apart both.2, Places.put_of_ne fun both => apart both.2,
        Places.put_self]
    obtain ⟨q₄, fourth, kept₄, rep₄⟩ := rep₃.pushBack .suggested member (validPrev onPrev)
      validPriority below absent
    refine ⟨q₄, _, _, ?_, ((kept₄.trans kept₃).trans kept₂).trans kept₁, rep₄, ⟨?_, ?_, ?_⟩, ?_⟩
    · simp only [if_pos apart, ifCore, if_pos onPrev, if_pos onCore, first, ok_bind, second, third,
        fourth]
    · intro _
      rw [Lists.all_set_of_ne (by simp), Lists.all_set_of_ne fun both => apart both.2,
        Lists.all_set_of_ne (by simp)]
      have left := lists.all_without .scheduled prevCore nonneg below
        ⟨l₁, l₂, split₁, rfl⟩
      rwa [Lists.set_eq_self rfl] at left
    · rw [Lists.all_set_of_ne (by simp)]
      have joined := Lists.all_without ((lists.set .scheduled priority prevCore
        (l₁ ++ l₂)).set .suggested priority core (l₃ ++ l₄)) .scheduled core nonneg below entered
      have same : ((lists.set .scheduled priority prevCore (l₁ ++ l₂)).set .suggested priority core
          (l₃ ++ l₄)).all .scheduled core = lists.all .scheduled core := by
        rw [Lists.all_set_of_ne (by simp), Lists.all_set_of_ne fun both => apart both.2.symm]
      rwa [Lists.set_eq_self rfl, same] at joined
    · intro kind c otherPrev other
      rw [Lists.all_set_of_ne fun both => otherPrev both.2,
        Lists.all_set_of_ne fun both => other both.2, Lists.all_set_of_ne fun both => other both.2,
        Lists.all_set_of_ne fun both => otherPrev both.2]
    · have agree₁ := Lists.agree_set (Without.filter_eq ⟨l₁, l₂, split₁, rfl⟩).symm
      have agree₂ := Lists.agree_set (Without.filter_eq ⟨l₃, l₄, split₂, rfl⟩).symm
      have agree₃ := Lists.agree_set entered.filter_eq
      refine ((agree₁.trans agree₂).trans agree₃).trans (Lists.agree_set (Without.filter_eq ?_))
      exact ⟨_, [], rfl, (append_nil _).symm⟩
  · obtain ⟨l₃, l₄, q₂, split₂, second, kept₂, rep₂⟩ :=
      rep.remove .suggested member validCore validPriority below suggested
    obtain ⟨l, q₃, third, kept₃, rep₃, entered⟩ := rep₂.pushTo .scheduled member toFront validCore
      validPriority below Places.put_self
    refine ⟨q₃, _, _, ?_, kept₃.trans kept₂, rep₃,
      ⟨fun absurdity => absurd absurdity onPrev, ?_, ?_⟩, ?_⟩
    · simp only [if_pos apart, ifCore, if_neg onPrev, if_pos onCore, pure_eq_ok, ok_bind, second,
        third]
    · have joined := Lists.all_without (lists.set .suggested priority core (l₃ ++ l₄)) .scheduled
        core nonneg below entered
      have same : (lists.set .suggested priority core (l₃ ++ l₄)).all .scheduled core =
          lists.all .scheduled core := Lists.all_set_of_ne (by simp)
      rwa [Lists.set_eq_self rfl, same] at joined
    · intro kind c _ other
      rw [Lists.all_set_of_ne fun both => other both.2,
        Lists.all_set_of_ne fun both => other both.2]
    · exact (Lists.agree_set (Without.filter_eq ⟨l₃, l₄, split₂, rfl⟩).symm).trans
        (Lists.agree_set entered.filter_eq)

variable {threads : Finset κ}

/-- A thread migrates to a core that suggests it, from its own core or from none. -/
theorem Consistent.migrate (consistent : q.Consistent threads)
    (rep : q.Represents lists (expected q.attributes threads)) (enqueued : member ∈ threads)
    (suggested : (q.attributes member).BelongsTo .suggested (q.attributes member).priority core)
    (toFront : Bool) :
    ∃ q' lists',
      (q.setAttributes member { q.attributes member with activeCore := core }).changeCore
        (q.attributes member).activeCore member toFront = .ok q' ∧
      q'.Consistent threads ∧
      q'.attributes =
        update q.attributes member { q.attributes member with activeCore := core } ∧
      q'.Represents lists' (expected q'.attributes threads) ∧
      Migrated lists lists' (q.attributes member).activeCore core member ∧
      lists.Agree [member] lists' := by
  obtain ⟨active, -, below, validCore, other, bit⟩ := suggested
  have valid := consistent.suitable member enqueued active
  have moved : ({ q.attributes member with activeCore := core } : ThreadAttributes).Valid :=
    ⟨valid.priority, valid.affinityMask, fun _ => ⟨(isValidCore_iff.mp validCore).2, bit⟩⟩
  obtain ⟨q', result, consistent'⟩ := consistent.call (c := .changeCore member core toFront)
    ⟨enqueued, fun _ => moved⟩
  have validPrev : 0 ≤ (q.attributes member).activeCore →
      isValidCore (q.attributes member).activeCore = true := fun nonneg =>
    isValidCore_iff.mpr ⟨nonneg, (valid.activeCore nonneg).1⟩
  have here : (q.setAttributes member { q.attributes member with activeCore := core }).attributes
      member = { q.attributes member with activeCore := core } := attributes_setAttributes
  have rep₀ : (q.setAttributes member
      { q.attributes member with activeCore := core }).Represents lists
        (expected q.attributes threads) := ⟨rep.rings, rep.mem, rep.available⟩
  obtain ⟨q'', lists', places', result', kept, rep', migrated, agree⟩ :=
    rep₀.changeCore (q.attributes member).activeCore member toFront (by rw [here]; exact active)
      (by rw [here]; exact valid.priority) (by rw [here]; exact below)
        (by rw [here]; exact validCore)
      (by rw [here]; exact other.symm) validPrev
      (fun nonneg => by
        rw [here]
        exact (expected_iff_belongsTo consistent.suitable).mpr
          ⟨enqueued, active, rfl, below, validPrev nonneg, rfl⟩)
      (by
        rw [here]
        exact (expected_iff_belongsTo consistent.suitable).mpr
          ⟨enqueued, active, rfl, below, validCore, other, bit⟩)
  cases result.symm.trans result'
  obtain ⟨-, lists'', rep''⟩ := consistent'.placed
  rw [rep'.unique rep''] at migrated agree
  rw [here] at migrated
  exact ⟨q', lists'', result, consistent', kept, rep'', migrated, agree⟩

end ChangeCore

/-! ## What a move keeps -/

section Keeps

variable [DecidableEq κ] {threads : Finset κ} {q' q'' : KPriorityQueue κ} {moved moved' : List κ}

/-- The same threads are where they belong, with the same attributes other than the
active cores of those that moved. The lists name the other threads in the same order. -/
structure Keeps (threads : Finset κ) (moved : List κ) (q q' : KPriorityQueue κ) : Prop where
  consistent : q'.Consistent threads
  attributes : ∀ m, ∃ core, q'.attributes m = { q.attributes m with activeCore := core }
  others : ∀ m, m ∉ moved → q'.attributes m = q.attributes m
  order : ∃ lists lists', q.Represents lists (expected q.attributes threads) ∧
    q'.Represents lists' (expected q'.attributes threads) ∧ lists.Agree moved lists'

theorem Consistent.keeps (consistent : q.Consistent threads) (moved : List κ) :
    q.Keeps threads moved q := by
  obtain ⟨-, lists, rep⟩ := consistent.placed
  exact ⟨consistent, fun m => ⟨_, rfl⟩, fun _ _ => rfl, lists, lists, rep, rep, .refl moved lists⟩

theorem Keeps.trans (keeps : q.Keeps threads moved q') (keeps' : q'.Keeps threads moved' q'') :
    q.Keeps threads (moved ++ moved') q'' := by
  refine ⟨keeps'.consistent, fun m => ?_, fun m away => ?_, ?_⟩
  · obtain ⟨core, first⟩ := keeps.attributes m
    obtain ⟨core', second⟩ := keeps'.attributes m
    exact ⟨core', by rw [second, first]⟩
  · rw [mem_append, not_or] at away
    exact (keeps'.others m away.2).trans (keeps.others m away.1)
  · obtain ⟨lists, lists', rep, rep', agree⟩ := keeps.order
    obtain ⟨lists₁, lists'', rep₁, rep'', agree'⟩ := keeps'.order
    cases rep'.unique rep₁
    exact ⟨lists, lists'', rep, rep'', (agree.mono (subset_append_left _ _)).trans
      (agree'.mono (subset_append_right _ _))⟩

/-- Only the active core of one thread changes. -/
theorem Keeps.of_update (consistent' : q'.Consistent threads) {places' : Places κ}
    {lists' : Lists κ} {newCore : Int}
    (kept : q'.attributes =
      update q.attributes member { q.attributes member with activeCore := newCore })
    (rep : q.Represents lists (expected q.attributes threads))
    (rep' : q'.Represents lists' places') (agree : lists.Agree [member] lists') :
    q.Keeps threads [member] q' := by
  refine ⟨consistent', fun m => ?_, fun m away => ?_, ?_⟩
  · by_cases here : m = member
    · subst here
      exact ⟨newCore, by rw [kept, update_self]⟩
    · exact ⟨(q.attributes m).activeCore, by rw [kept, update_of_ne here]⟩
  · rw [mem_singleton] at away
    rw [kept, update_of_ne away]
  · obtain ⟨-, lists'', rep''⟩ := consistent'.placed
    cases rep'.unique rep''
    exact ⟨lists, lists', rep, rep'', agree⟩

/-- A thread that migrates keeps all others. -/
theorem Consistent.migrate_keeps (consistent : q.Consistent threads) (enqueued : member ∈ threads)
    (suggested : (q.attributes member).BelongsTo .suggested (q.attributes member).priority core)
    (toFront : Bool) :
    ∃ q', q.call (.changeCore member core toFront) = .ok q' ∧ q.Keeps threads [member] q' := by
  obtain ⟨-, lists, rep⟩ := consistent.placed
  obtain ⟨q', lists', result, consistent', kept, rep', -, agree⟩ :=
    consistent.migrate rep enqueued suggested toFront
  exact ⟨q', result, .of_update consistent' kept rep rep' agree⟩

/-- A thread that moves to the back of its scheduled list leaves a front there. -/
theorem Consistent.moveBack_keeps (consistent : q.Consistent threads) (enqueued : member ∈ threads)
    (active : (q.attributes member).isDummyThread = false)
    (nonneg : 0 ≤ (q.attributes member).activeCore) :
    ∃ out q', q.moveToScheduledBack member = .ok (out, q') ∧ q.Keeps threads [member] q' ∧
      q'.attributes = q.attributes ∧
      ((q.attributes member).priority ≤ lowestPriority → out ≠ none) := by
  obtain ⟨out, q', result, consistent'⟩ := consistent.moveToScheduledBack enqueued fun _ => nonneg
  obtain ⟨-, lists, rep⟩ := consistent.placed
  have valid := consistent.suitable member enqueued active
  have validCore := isValidCore_iff.mpr ⟨nonneg, (valid.activeCore nonneg).1⟩
  have moved := result
  rw [KPriorityQueue.moveToScheduledBack, active, if_neg (by decide),
    KPriorityQueueImpl.moveToBack, validCore, valid.priority] at moved
  simp only [assert_true, ok_bind] at moved
  split at moved
  · next below =>
    have place : member ∈ lists .scheduled (q.attributes member).priority
        (q.attributes member).activeCore :=
      (rep.mem_iff consistent.suitable).mpr ⟨enqueued, active, rfl, below, validCore, rfl⟩
    obtain ⟨l₁, l₂, split⟩ := append_of_mem place
    have rings := rep.rings .scheduled (q.attributes member).priority
      (q.attributes member).activeCore
    rw [split] at rings
    obtain ⟨-, removed⟩ := KPerCoreQueue.remove_spec rings
    have fresh := (nodup_cons.mp (nodup_middle.mp rings.nodup)).1
    obtain ⟨-, pushed⟩ := KPerCoreQueue.pushBack_spec removed.rings fresh
    cases moved
    have members : ∀ m, m ∈ l₁ ++ l₂ ++ [member] ↔ m ∈ l₁ ++ member :: l₂ := by
      intro m
      simp only [mem_append, mem_cons, not_mem_nil, or_false]
      tauto
    have places : ∀ m, m ∈ l₁ ++ l₂ ++ [member] ↔ expected q.attributes threads m
        (q.attributes member).activeCore = some (.scheduled, (q.attributes member).priority) := by
      intro m
      rw [members, ← split, rep.mem]
    have rep' := rep.write_links
      ⟨pushed.rings, fun a outside outside' => by
        rw [split] at outside
        have away : a ∉ l₁ ++ l₂ := fun inside => outside' (mem_append_left _ inside)
        exact (pushed.frame a away outside').trans (removed.frame a outside away)⟩
      places (fun _ _ _ _ _ => Iff.rfl)
      fun _ => iff_of_true (ne_nil_of_mem place) (concat_ne_nil _ _)
    refine ⟨_, _, result, ?_, rfl, fun _ => ?_⟩
    · refine ⟨consistent', fun m => ⟨_, rfl⟩, fun _ _ => rfl, lists, _, rep, rep', ?_⟩
      have joined : Without member (l₁ ++ l₂ ++ [member]) (l₁ ++ l₂) :=
        ⟨_, [], rfl, (append_nil _).symm⟩
      exact Lists.agree_set (joined.filter_eq.trans (Without.filter_eq ⟨l₁, l₂, split, rfl⟩).symm)
    · rw [pushed.rings.getFront]
      simp
  · next past =>
    cases moved
    exact ⟨none, q, result, consistent.keeps _, rfl, fun below => absurd below past⟩

/-- A thread is taken from its core, which then suggests it. -/
theorem Consistent.detach_keeps (consistent : q.Consistent threads) (enqueued : member ∈ threads)
    (active : (q.attributes member).isDummyThread = false)
    (nonneg : 0 ≤ (q.attributes member).activeCore) :
    ∃ q', q.call (.changeCore member (-1) false) = .ok q' ∧ q.Keeps threads [member] q' := by
  have valid := consistent.suitable member enqueued active
  have nowhere : ({ q.attributes member with activeCore := -1 } : ThreadAttributes).Valid :=
    ⟨valid.priority, valid.affinityMask,
        fun absurdity => absurd (show (0 : Int) ≤ -1 from absurdity) (by decide)⟩
  obtain ⟨q', result, consistent'⟩ := consistent.call (c := .changeCore member (-1) false)
    ⟨enqueued, fun _ => nowhere⟩
  refine ⟨q', result, ?_⟩
  obtain ⟨-, lists, rep⟩ := consistent.placed
  have validCore := isValidCore_iff.mpr ⟨nonneg, (valid.activeCore nonneg).1⟩
  have apart : (q.attributes member).activeCore ≠ -1 := by omega
  have rep₀ : (q.setAttributes member
      { q.attributes member with activeCore := -1 }).Represents lists
        (expected q.attributes threads) := ⟨rep.rings, rep.mem, rep.available⟩
  have detached := result
  rw [KPriorityQueue.call, KPriorityQueue.changeCore, attributes_setAttributes,
    if_neg (show ¬ (q.attributes member).isDummyThread = true by simp [active])] at detached
  simp only [if_pos apart, ifCore, if_pos nonneg, if_neg (show ¬ (0 : Int) ≤ -1 by decide)]
    at detached
  by_cases below : (q.attributes member).priority ≤ lowestPriority
  · obtain ⟨l₁, l₂, q₁, split, first, kept₁, rep₁⟩ := rep₀.remove .scheduled member validCore
      valid.priority below ((expected_iff_belongsTo consistent.suitable).mpr
        ⟨enqueued, active, rfl, below, validCore, rfl⟩)
    obtain ⟨q₂, second, kept₂, rep₂⟩ := rep₁.pushBack .suggested member validCore valid.priority
      below Places.put_self
    simp only [first, ok_bind, pure_eq_ok, second] at detached
    cases detached
    refine .of_update consistent' (kept₂.trans kept₁) rep rep₂ ?_
    refine (Lists.agree_set (Without.filter_eq ⟨l₁, l₂, split, rfl⟩).symm).trans
      (Lists.agree_set (Without.filter_eq ⟨_, [], rfl, (append_nil _).symm⟩))
  · simp only [KPriorityQueueImpl.remove, KPriorityQueueImpl.pushBack, validCore, valid.priority,
      assert_true, ok_bind, pure_eq_ok, if_pos (not_le.mp below)] at detached
    cases detached
    exact .of_update consistent' rfl rep rep₀ (.refl _ lists)

end Keeps

end SumiEmu.Kernel.KPriorityQueue
