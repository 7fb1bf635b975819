/-
# The lists of the priority queue

The entries of a priority queue represent one list for each queue, priority and
core. A thread has a place for each core, as it can be in only one list of that
core. Each operation on one list keeps the others, and moves no thread but its
own.
-/

import SumiEmu.Foundations.Linked
import SumiEmu.Kernel.PriorityQueue

namespace SumiEmu.Kernel

open Common Fallible Linking Function List

universe u

variable {κ : Type*}

/-! ## One list -/

/-- The entries link a list both ways, with the root at its ends. -/
def Links.Rings (links : Links κ) (l : List κ) : Prop :=
  Ring (fun x => (links x).next) (fun x => (links x).prev) l

section Links

variable [DecidableEq κ] {links : Links κ} {l l₁ l₂ : List κ} {member : κ} {x y v : Option κ}

theorem Links.next_setNext :
    (links.setNext x v y).next = if y = x then v else (links y).next := by
  by_cases same : y = x
  · rw [Links.setNext, same, update_self, if_pos rfl]
  · rw [Links.setNext, update_of_ne same, if_neg same]

theorem Links.prev_setNext : (links.setNext x v y).prev = (links y).prev := by
  by_cases same : y = x
  · rw [Links.setNext, same, update_self]
  · rw [Links.setNext, update_of_ne same]

theorem Links.prev_setPrev :
    (links.setPrev x v y).prev = if y = x then v else (links y).prev := by
  by_cases same : y = x
  · rw [Links.setPrev, same, update_self, if_pos rfl]
  · rw [Links.setPrev, update_of_ne same, if_neg same]

theorem Links.next_setPrev : (links.setPrev x v y).next = (links y).next := by
  by_cases same : y = x
  · rw [Links.setPrev, same, update_self]
  · rw [Links.setPrev, update_of_ne same]

theorem Links.setNext_of_ne (other : y ≠ x) : links.setNext x v y = links y :=
  update_of_ne other ..

theorem Links.setPrev_of_ne (other : y ≠ x) : links.setPrev x v y = links y :=
  update_of_ne other ..

omit [DecidableEq κ] in
theorem Links.Rings.getFront (rings : links.Rings l) : KPerCoreQueue.getFront links = l.head? :=
  rings.next_none

/-- What an operation on one list does: its new list, and the entries it leaves alone. -/
structure Links.Becomes (links : Links κ) (l : List κ) (links' : Links κ) (l' : List κ) : Prop where
  rings : links'.Rings l'
  frame : ∀ a, a ∉ l → a ∉ l' → links' (some a) = links (some a)

theorem KPerCoreQueue.pushBack_spec (rings : links.Rings l) (fresh : member ∉ l) :
    (pushBack links member).1 = l.isEmpty ∧
      links.Becomes l (pushBack links member).2 (l ++ [member]) := by
  have tail : (links none).prev = l.getLast? := rings.prev_none
  have apart : l.getLast? ≠ some member := fun last => fresh (mem_of_getLast? last)
  refine ⟨?_, ?_, fun a outside outside' => ?_⟩
  · change (links none).prev.isNone = l.isEmpty
    rw [tail]
    cases l <;> simp
  · rw [← append_nil (l ++ [member])]
    refine Ring.splice l [] [member] [] (by simpa [Links.Rings] using rings) ?_
      (fun x other inside => ?_) fun x other inside => ?_
    · simp [pushBack, Linking.Joined, Links.next_setNext, Links.prev_setNext, Links.next_setPrev,
        Links.prev_setPrev, tail, apart.symm]
    · have away : x ≠ some member := fun same => fresh (by simpa using inside member same)
      simp [pushBack, Links.next_setNext, Links.next_setPrev, tail, other, away]
    · have away : x ≠ some member := fun same => fresh (by simpa using inside member same)
      rw [head?_nil] at other
      simp [pushBack, Links.prev_setNext, Links.prev_setPrev, other, away]
  · have away : some a ≠ some member := by
      rintro ⟨⟩
      simp at outside'
    have away' : some a ≠ l.getLast? := fun last => outside (mem_of_getLast? last.symm)
    rw [← tail] at away'
    simp only [pushBack]
    rw [Links.setPrev_of_ne (by simp), Links.setNext_of_ne away', Links.setNext_of_ne away,
      Links.setPrev_of_ne away]

theorem KPerCoreQueue.pushFront_spec (rings : links.Rings l) (fresh : member ∉ l) :
    (pushFront links member).1 = l.isEmpty ∧
      links.Becomes l (pushFront links member).2 (member :: l) := by
  have head : (links none).next = l.head? := rings.next_none
  have apart : l.head? ≠ some member := fun first => fresh (mem_of_head? first)
  refine ⟨?_, ?_, fun a outside outside' => ?_⟩
  · change (links none).next.isNone = l.isEmpty
    rw [head]
    cases l <;> rfl
  · refine Ring.splice [] [] [member] l (by simpa [Links.Rings] using rings) ?_
      (fun x other inside => ?_) fun x other inside => ?_
    · simp [pushFront, Linking.Joined, Links.next_setNext, Links.prev_setNext, Links.next_setPrev,
        Links.prev_setPrev, head, apart.symm]
    · have away : x ≠ some member := fun same => fresh (inside member same)
      rw [getLast?_nil] at other
      simp [pushFront, Links.next_setNext, Links.next_setPrev, other, away]
    · have away : x ≠ some member := fun same => fresh (inside member same)
      simp [pushFront, Links.prev_setNext, Links.prev_setPrev, head, other, away]
  · have away : some a ≠ some member := by
      rintro ⟨⟩
      simp at outside'
    have away' : some a ≠ l.head? := fun first => outside (mem_of_head? first.symm)
    rw [← head] at away'
    simp only [pushFront]
    rw [Links.setNext_of_ne (by simp), Links.setPrev_of_ne away', Links.setNext_of_ne away,
      Links.setPrev_of_ne away]

theorem KPerCoreQueue.remove_spec (rings : links.Rings (l₁ ++ member :: l₂)) :
    (remove links member).1 = (l₁ ++ l₂).isEmpty ∧
      links.Becomes (l₁ ++ member :: l₂) (remove links member).2 (l₁ ++ l₂) := by
  have ring : Ring (fun x => (links x).next) (fun x => (links x).prev) (l₁ ++ [member] ++ l₂) := by
    simpa [Links.Rings] using rings
  have nodup := nodup_middle.mp rings.nodup
  obtain ⟨-, middle, -⟩ := ring_segment.mp ring
  simp only [map_cons, map_nil, singleton_append, isChain_cons_cons,
    isChain_singleton, and_true, Linking.Joined] at middle
  obtain ⟨⟨-, before⟩, after, -⟩ := middle
  have spliced : (remove links member).2.Rings (l₁ ++ l₂) := by
    rw [← append_nil l₁]
    refine Ring.splice l₁ [member] [] l₂ ring ?_ (fun x other inside => ?_)
      fun x other inside => ?_
    · simp [remove, Linking.Joined, Links.next_setNext, Links.prev_setNext, Links.next_setPrev,
        Links.prev_setPrev, before, after]
    · simp [remove, Links.next_setNext, Links.next_setPrev, before, other]
    · simp [remove, Links.prev_setNext, Links.prev_setPrev, after, other]
  refine ⟨?_, spliced, fun a outside outside' => ?_⟩
  · change (getFront (remove links member).2).isNone = _
    rw [spliced.getFront]
    cases l₁ ++ l₂ <;> rfl
  · have away : some a ≠ (links (some member)).prev := by
      rw [before]
      intro last
      exact outside (mem_append_left _ (mem_of_getLast? last.symm))
    have away' : some a ≠ (links (some member)).next := by
      rw [after]
      intro first
      exact outside (mem_append_right _ (mem_cons_of_mem _ (mem_of_head? first.symm)))
    simp only [remove]
    rw [Links.setPrev_of_ne away', Links.setNext_of_ne away]

end Links

namespace KPriorityQueue

/-- The lists of a priority queue, by queue, priority and core. -/
abbrev Lists (κ : Type*) := QueueKind → Int → Int → List κ

/-- Where each thread is on each core, if it is anywhere. -/
abbrev Places (κ : Type*) := κ → Int → Option (QueueKind × Int)

/-- One list is replaced. -/
def Lists.set (lists : Lists κ) (kind : QueueKind) (priority core : Int) (l : List κ) : Lists κ :=
  fun k p c => if k = kind ∧ p = priority ∧ c = core then l else lists k p c

/-- One thread moves on one core. -/
def Places.put [DecidableEq κ] (places : Places κ) (member : κ) (core : Int)
    (place : Option (QueueKind × Int)) : Places κ :=
  update places member (update (places member) core place)

/-- The entries represent lists, whose members are where their places say, and the
available priorities are those whose lists are not empty. -/
structure Represents (q : KPriorityQueue κ) (lists : Lists κ) (places : Places κ) : Prop where
  rings : ∀ k p c, (q.links k p c).Rings (lists k p c)
  mem : ∀ k p c m, m ∈ lists k p c ↔ places m c = some (k, p)
  available : ∀ k p c, 0 ≤ p →
    (((q.queues k).availablePriorities c).test p.toNat = true ↔ lists k p c ≠ [])

variable {q : KPriorityQueue κ} {lists : Lists κ} {places places' : Places κ}
  {kind k : QueueKind} {priority core p c : Int} {member m : κ} {h : Links κ} {l : List κ}

@[simp] theorem Lists.set_self : lists.set kind priority core l kind priority core = l :=
  if_pos ⟨rfl, rfl, rfl⟩

theorem Lists.set_of_ne (other : ¬ (k = kind ∧ p = priority ∧ c = core)) :
    lists.set kind priority core l k p c = lists k p c :=
  if_neg other

section Places

variable [DecidableEq κ]
variable {place : Option (QueueKind × Int)}

@[simp] theorem Places.put_self :
    places.put member core place member core = place := by
  simp [Places.put]

theorem Places.put_of_ne (other : ¬ (m = member ∧ c = core)) :
    places.put member core place m c = places m c := by
  by_cases same : m = member
  · subst same
    have away : c ≠ core := fun same' => other ⟨rfl, same'⟩
    rw [Places.put, update_self, update_of_ne away]
  · rw [Places.put, update_of_ne same]

end Places

@[simp] theorem links_setLinks_self :
    (q.setLinks kind priority core h).links kind priority core = h := by
  funext x
  cases x <;> simp [links, setLinks]

theorem links_setLinks_none (other : ¬ (k = kind ∧ p = priority ∧ c = core)) :
    (q.setLinks kind priority core h).links k p c none = q.links k p c none := by
  simp only [links, setLinks]
  by_cases sameKind : k = kind
  · subst sameKind
    rw [update_self]
    by_cases samePriority : p = priority
    · subst samePriority
      have away : c ≠ core := fun same => other ⟨rfl, rfl, same⟩
      simp only [update_self, update_of_ne away]
    · simp only [update_of_ne samePriority]
  · rw [update_of_ne sameKind]

theorem links_setLinks_some : (q.setLinks kind priority core h).links k p c (some m) =
    if c = core then h (some m) else q.links k p c (some m) := by
  by_cases same : c = core
  · subst same
    simp [links, setLinks]
  · simp [links, setLinks, same]

@[simp] theorem availablePriorities_setLinks :
    ((q.setLinks kind priority core h).queues k).availablePriorities =
      (q.queues k).availablePriorities := by
  by_cases same : k = kind
  · subst same
    simp [setLinks]
  · simp [setLinks, same]

@[simp] theorem links_setAvailable {set : BitSet64 64} :
    (q.setAvailable kind core set).links k p c = q.links k p c := by
  funext x
  cases x with
  | none =>
    by_cases same : k = kind
    · subst same
      simp [links, setAvailable]
    · simp [links, setAvailable, same]
  | some m => rfl

theorem availablePriorities_setAvailable {set : BitSet64 64} :
    ((q.setAvailable kind core set).queues k).availablePriorities c =
      if k = kind ∧ c = core then set else (q.queues k).availablePriorities c := by
  by_cases same : k = kind
  · subst same
    by_cases same' : c = core
    · subst same'
      simp [setAvailable]
    · simp [setAvailable, same']
  · simp [setAvailable, same]

theorem setAvailable_self :
    q.setAvailable kind core ((q.queues kind).availablePriorities core) = q := by
  simp [setAvailable]

theorem toNat_eq_toNat (nonneg : 0 ≤ p) (nonneg' : 0 ≤ priority) :
    p.toNat = priority.toNat ↔ p = priority := by
  omega

/-- One list is rewritten, and the threads that join or leave it change their places. -/
theorem Represents.write (rep : q.Represents lists places) (set : BitSet64 64)
    (becomes : (q.links kind priority core).Becomes (lists kind priority core) h l)
    (mem : ∀ m, m ∈ l ↔ places' m core = some (kind, priority))
    (others : ∀ k p c m, ¬ (k = kind ∧ p = priority ∧ c = core) →
      (places' m c = some (k, p) ↔ places m c = some (k, p)))
    (available : ∀ p, 0 ≤ p → (set.test p.toNat = true ↔
      if p = priority then l ≠ []
      else ((q.queues kind).availablePriorities core).test p.toNat = true)) :
    ((q.setLinks kind priority core h).setAvailable kind core set).Represents
      (lists.set kind priority core l) places' where
  rings k p c := by
    rw [links_setAvailable]
    by_cases here : k = kind ∧ p = priority ∧ c = core
    · obtain ⟨rfl, rfl, rfl⟩ := here
      rw [Lists.set_self, links_setLinks_self]
      exact becomes.rings
    · rw [Lists.set_of_ne here]
      refine (rep.rings k p c).congr ?_ ?_ fun a member => ?_
      · rw [links_setLinks_none here]
      · rw [links_setLinks_none here]
      · rw [links_setLinks_some]
        split
        · next same =>
          -- an entry of another list of the core is not written
          subst same
          have place := (rep.mem k p c a).mp member
          have away : (k, p) ≠ (kind, priority) := by
            rintro ⟨⟩
            exact here ⟨rfl, rfl, rfl⟩
          have same' : h (some a) = q.links kind priority c (some a) := by
            refine becomes.frame a (fun member' => ?_) fun member' => ?_
            · rw [rep.mem, place] at member'
              exact away (Option.some.inj member')
            · have place' := (others k p c a here).mpr place
              rw [mem, place'] at member'
              exact away (Option.some.inj member')
          rw [same']
          exact ⟨rfl, rfl⟩
        · exact ⟨rfl, rfl⟩
  mem k p c m := by
    by_cases here : k = kind ∧ p = priority ∧ c = core
    · obtain ⟨rfl, rfl, rfl⟩ := here
      rw [Lists.set_self]
      exact mem m
    · rw [Lists.set_of_ne here, rep.mem]
      exact (others k p c m here).symm
  available k p c nonneg := by
    rw [availablePriorities_setAvailable, availablePriorities_setLinks]
    by_cases here : k = kind ∧ c = core
    · obtain ⟨rfl, rfl⟩ := here
      rw [if_pos ⟨rfl, rfl⟩, available p nonneg]
      by_cases same : p = priority
      · subst same
        rw [if_pos rfl, Lists.set_self]
      · rw [if_neg same, Lists.set_of_ne fun both => same both.2.1]
        exact rep.available k p c nonneg
    · rw [if_neg here, Lists.set_of_ne fun all => here ⟨all.1, all.2.2⟩]
      exact rep.available k p c nonneg

/-- A list that stays empty or stays filled needs no change of the available priorities. -/
theorem Represents.write_links (rep : q.Represents lists places)
    (becomes : (q.links kind priority core).Becomes (lists kind priority core) h l)
    (mem : ∀ m, m ∈ l ↔ places' m core = some (kind, priority))
    (others : ∀ k p c m, ¬ (k = kind ∧ p = priority ∧ c = core) →
      (places' m c = some (k, p) ↔ places m c = some (k, p)))
    (filled : 0 ≤ priority → (lists kind priority core ≠ [] ↔ l ≠ [])) :
    (q.setLinks kind priority core h).Represents (lists.set kind priority core l) places' := by
  have written := rep.write ((q.queues kind).availablePriorities core) becomes mem others
    fun p nonneg => by
      by_cases same : p = priority
      · subst same
        rw [if_pos rfl, rep.available kind p core nonneg]
        exact filled nonneg
      · rw [if_neg same]
  rwa [← availablePriorities_setLinks, setAvailable_self] at written

/-! ## Operations on one list -/

/-- The place of a thread in a queue, which has no list for the priority past the lowest. -/
def slot (kind : QueueKind) (priority : Int) : Option (QueueKind × Int) :=
  if lowestPriority < priority then none else some (kind, priority)

/-- The threads have the given attributes and are at the given places. -/
def Placed (q : KPriorityQueue κ) (attributes : κ → ThreadAttributes) (places : Places κ) : Prop :=
  q.attributes = attributes ∧ ∃ lists, q.Represents lists places

@[simp] theorem assert_true : assert.{u} true = .ok ⟨⟩ := rfl

theorem isValidCore_iff : isValidCore core = true ↔ 0 ≤ core ∧ core < 4 := by
  rw [isValidCore, numCores, Bool.and_eq_true, decide_eq_true_eq, decide_eq_true_eq]
  rfl

theorem isValidPriority_iff : isValidPriority priority = true ↔ 0 ≤ priority ∧ priority ≤ 64 := by
  rw [isValidPriority, Bool.and_eq_true, decide_eq_true_eq, decide_eq_true_eq]
  rfl

section Operations

variable [DecidableEq κ] {attributes : κ → ThreadAttributes} {first : Bool}

theorem Places.put_eq_self (same : places member core = none) :
    places.put member core none = places := by
  rw [Places.put, ← same, update_eq_self, update_eq_self]

/-- Writing the entries of a list that a thread was pushed onto. -/
theorem Represents.push (rep : q.Represents lists places) (nonneg : 0 ≤ priority)
    (absent : places member core = none) (pushed : first = (lists kind priority core).isEmpty)
    (becomes : (q.links kind priority core).Becomes (lists kind priority core) h l)
    (mem : ∀ m, m ∈ l ↔ m = member ∨ m ∈ lists kind priority core) :
    ∃ q', (if first = true then
        (pure ((q.setLinks kind priority core h).setAvailable kind core
          ((((q.setLinks kind priority core h).queues kind).availablePriorities core).setBit
            priority.toNat)) : Except Fault (KPriorityQueue κ))
      else pure (q.setLinks kind priority core h)) = .ok q' ∧ q'.attributes = q.attributes ∧
      q'.Represents (lists.set kind priority core l)
        (places.put member core (some (kind, priority))) := by
  have filled : l ≠ [] := ne_nil_of_mem ((mem member).mpr (.inl rfl))
  have member' : ∀ m, m ∈ l ↔
      places.put member core (some (kind, priority)) m core = some (kind, priority) := by
    intro m
    rw [mem]
    by_cases same : m = member
    · simp [same]
    · rw [Places.put_of_ne fun both => same both.1, rep.mem]
      simp [same]
  have others : ∀ k p c m, ¬ (k = kind ∧ p = priority ∧ c = core) →
      (places.put member core (some (kind, priority)) m c = some (k, p) ↔
        places m c = some (k, p)) := by
    intro k p c m other
    by_cases here : m = member ∧ c = core
    · obtain ⟨rfl, rfl⟩ := here
      rw [Places.put_self, absent]
      refine iff_of_false (fun same => ?_) (Option.some_ne_none _).symm
      cases same
      exact other ⟨rfl, rfl, rfl⟩
    · rw [Places.put_of_ne here]
  cases empty : first with
  | true =>
    refine ⟨_, rfl, rfl, rep.write _ becomes member' others fun p nonneg' => ?_⟩
    rw [BitSet.test_setBit (by decide), availablePriorities_setLinks]
    by_cases same : p = priority
    · simp [same, filled]
    · rw [if_neg same]
      simp [toNat_eq_toNat nonneg' nonneg, same]
  | false =>
    refine ⟨_, rfl, rfl, rep.write_links becomes member' others fun _ => iff_of_true ?_ filled⟩
    exact isEmpty_eq_false_iff.mp (pushed.symm.trans empty)

/-- Writing the entries of a list that a thread was removed from. -/
theorem Represents.unlink (rep : q.Represents lists places) (nonneg : 0 ≤ priority)
    (present : places member core = some (kind, priority)) (removed : first = l.isEmpty)
    (becomes : (q.links kind priority core).Becomes (lists kind priority core) h l)
    (mem : ∀ m, m ∈ l ↔ m ≠ member ∧ m ∈ lists kind priority core) :
    ∃ q', (if first = true then
        (pure ((q.setLinks kind priority core h).setAvailable kind core
          ((((q.setLinks kind priority core h).queues kind).availablePriorities core).clearBit
            priority.toNat)) : Except Fault (KPriorityQueue κ))
      else pure (q.setLinks kind priority core h)) = .ok q' ∧ q'.attributes = q.attributes ∧
      q'.Represents (lists.set kind priority core l) (places.put member core none) := by
  have filled : lists kind priority core ≠ [] :=
    ne_nil_of_mem ((rep.mem kind priority core member).mpr present)
  have member' : ∀ m, m ∈ l ↔ places.put member core none m core = some (kind, priority) := by
    intro m
    rw [mem]
    by_cases same : m = member
    · simp [same]
    · rw [Places.put_of_ne fun both => same both.1, rep.mem]
      simp [same]
  have others : ∀ k p c m, ¬ (k = kind ∧ p = priority ∧ c = core) →
      (places.put member core none m c = some (k, p) ↔ places m c = some (k, p)) := by
    intro k p c m other
    by_cases here : m = member ∧ c = core
    · obtain ⟨rfl, rfl⟩ := here
      rw [Places.put_self, present]
      refine iff_of_false (Option.some_ne_none _).symm fun same => ?_
      cases same
      exact other ⟨rfl, rfl, rfl⟩
    · rw [Places.put_of_ne here]
  cases empty : first with
  | true =>
    refine ⟨_, rfl, rfl, rep.write _ becomes member' others fun p nonneg' => ?_⟩
    rw [BitSet.test_clearBit (by decide), availablePriorities_setLinks]
    by_cases same : p = priority
    · rw [if_pos same, isEmpty_iff.mp (removed.symm.trans empty)]
      simp [same]
    · rw [if_neg same]
      simp [toNat_eq_toNat nonneg' nonneg, same]
  | false =>
    refine ⟨_, rfl, rfl, rep.write_links becomes member' others fun _ => iff_of_true filled ?_⟩
    exact isEmpty_eq_false_iff.mp (removed.symm.trans empty)

section Lists

variable (kind) (member) (rep : q.Represents lists places) (validCore : isValidCore core = true)
  (validPriority : isValidPriority priority = true) (below : priority ≤ lowestPriority)
include rep validCore validPriority below

theorem Represents.pushBack (absent : places member core = none) :
    ∃ q', KPriorityQueueImpl.pushBack q kind priority core member = .ok q' ∧
      q'.attributes = q.attributes ∧
      q'.Represents (lists.set kind priority core (lists kind priority core ++ [member]))
        (places.put member core (some (kind, priority))) := by
  rw [KPriorityQueueImpl.pushBack, validCore, validPriority]
  simp only [assert_true, ok_bind]
  rw [if_neg (not_lt.mpr below)]
  have fresh : member ∉ lists kind priority core := by
    rw [rep.mem, absent]
    exact (Option.some_ne_none _).symm
  obtain ⟨first, becomes⟩ := KPerCoreQueue.pushBack_spec (rep.rings kind priority core) fresh
  exact rep.push (isValidPriority_iff.mp validPriority).1 absent first becomes
    fun m => by rw [mem_append, mem_singleton, or_comm]

theorem Represents.pushFront (absent : places member core = none) :
    ∃ q', KPriorityQueueImpl.pushFront q kind priority core member = .ok q' ∧
      q'.attributes = q.attributes ∧
      q'.Represents (lists.set kind priority core (member :: lists kind priority core))
        (places.put member core (some (kind, priority))) := by
  rw [KPriorityQueueImpl.pushFront, validCore, validPriority]
  simp only [assert_true, ok_bind]
  rw [if_neg (not_lt.mpr below)]
  have fresh : member ∉ lists kind priority core := by
    rw [rep.mem, absent]
    exact (Option.some_ne_none _).symm
  obtain ⟨first, becomes⟩ := KPerCoreQueue.pushFront_spec (rep.rings kind priority core) fresh
  exact rep.push (isValidPriority_iff.mp validPriority).1 absent first becomes
    fun m => mem_cons

theorem Represents.remove (present : places member core = some (kind, priority)) :
    ∃ l₁ l₂ q', lists kind priority core = l₁ ++ member :: l₂ ∧
      KPriorityQueueImpl.remove q kind priority core member = .ok q' ∧
      q'.attributes = q.attributes ∧
      q'.Represents (lists.set kind priority core (l₁ ++ l₂)) (places.put member core none) := by
  rw [KPriorityQueueImpl.remove, validCore, validPriority]
  simp only [assert_true, ok_bind]
  rw [if_neg (not_lt.mpr below)]
  obtain ⟨l₁, l₂, split⟩ := append_of_mem ((rep.mem kind priority core member).mpr present)
  have rings := rep.rings kind priority core
  rw [split] at rings
  obtain ⟨last, becomes⟩ := KPerCoreQueue.remove_spec rings
  rw [← split] at becomes
  have apart := (nodup_cons.mp (nodup_middle.mp rings.nodup)).1
  obtain ⟨q', result, kept, rep'⟩ := rep.unlink (isValidPriority_iff.mp validPriority).1 present
    last becomes fun m => by
      rw [split]
      constructor
      · intro inside
        exact ⟨fun same => apart (same ▸ inside), by simp at inside ⊢; tauto⟩
      · rintro ⟨other, inside⟩
        simp at inside ⊢
        tauto
  exact ⟨l₁, l₂, q', split, result, kept, rep'⟩

end Lists

variable (kind) (member) (placed : q.Placed attributes places) (validCore : isValidCore core = true)
  (validPriority : isValidPriority priority = true)
include placed validCore validPriority

theorem Placed.pushBack (absent : places member core = none) :
    ∃ q', KPriorityQueueImpl.pushBack q kind priority core member = .ok q' ∧
      q'.Placed attributes (places.put member core (slot kind priority)) := by
  obtain ⟨same, lists, rep⟩ := placed
  rw [slot]
  split
  · next past =>
    rw [Places.put_eq_self absent, KPriorityQueueImpl.pushBack, validCore, validPriority]
    exact ⟨q, if_pos past, same, lists, rep⟩
  · next past =>
    obtain ⟨q', result, kept, rep'⟩ := rep.pushBack kind member validCore validPriority
      (not_lt.mp past) absent
    exact ⟨q', result, kept.trans same, _, rep'⟩

theorem Placed.pushFront (absent : places member core = none) :
    ∃ q', KPriorityQueueImpl.pushFront q kind priority core member = .ok q' ∧
      q'.Placed attributes (places.put member core (slot kind priority)) := by
  obtain ⟨same, lists, rep⟩ := placed
  rw [slot]
  split
  · next past =>
    rw [Places.put_eq_self absent, KPriorityQueueImpl.pushFront, validCore, validPriority]
    exact ⟨q, if_pos past, same, lists, rep⟩
  · next past =>
    obtain ⟨q', result, kept, rep'⟩ := rep.pushFront kind member validCore validPriority
      (not_lt.mp past) absent
    exact ⟨q', result, kept.trans same, _, rep'⟩

theorem Placed.remove (present : places member core = slot kind priority) :
    ∃ q', KPriorityQueueImpl.remove q kind priority core member = .ok q' ∧
      q'.Placed attributes (places.put member core none) := by
  obtain ⟨same, lists, rep⟩ := placed
  rw [slot] at present
  split at present
  · next past =>
    rw [Places.put_eq_self present, KPriorityQueueImpl.remove, validCore, validPriority]
    exact ⟨q, if_pos past, same, lists, rep⟩
  · next past =>
    obtain ⟨l₁, l₂, q', -, result, kept, rep'⟩ :=
      rep.remove kind member validCore validPriority (not_lt.mp past) present
    exact ⟨q', result, kept.trans same, _, rep'⟩

end Operations

end KPriorityQueue

end SumiEmu.Kernel

/-!
## Walking the priority queue

The front of a core is the first thread of its best list that is not empty, and
the next thread is the one after it in its list or else the front of the best
later list. So a walk over a queue visits its lists one after the other.
-/

namespace SumiEmu.Kernel.KPriorityQueue

open Common Fallible Linking List

variable {κ : Type*} {q : KPriorityQueue κ} {lists : Lists κ} {places : Places κ}
  {kind : QueueKind} {core : Int} {member : κ}

/-- The threads of a queue on a core, from a priority on. -/
def Lists.from (lists : Lists κ) (kind : QueueKind) (core : Int) (start : Nat) : List κ :=
  (range' start (64 - start)).flatMap fun priority : Nat => lists kind priority core

/-- The threads of a queue on a core, by priority and then in the order of the lists. -/
def Lists.all (lists : Lists κ) (kind : QueueKind) (core : Int) : List κ :=
  (range 64).flatMap fun priority : Nat => lists kind priority core

theorem Lists.from_zero : lists.from kind core 0 = lists.all kind core := by
  rw [Lists.from, Lists.all, range_eq_range', Nat.sub_zero]

theorem Lists.from_last : lists.from kind core 64 = [] := rfl

theorem Lists.from_step {start : Nat} (below : start < 64) :
    lists.from kind core start = lists kind start core ++ lists.from kind core (start + 1) := by
  have length : 64 - start = (64 - (start + 1)) + 1 := by omega
  rw [Lists.from, length, range'_succ, flatMap_cons, Lists.from]

/-- Empty lists do not matter. -/
theorem Lists.from_skip {start stop : Nat} (order : start ≤ stop) (below : stop ≤ 64)
    (empty : ∀ p : Nat, start ≤ p → p < stop → lists kind p core = []) :
    lists.from kind core start = lists.from kind core stop := by
  induction stop, order using Nat.le_induction with
  | base => rfl
  | succ stop order ih =>
    rw [ih (by omega) fun p lower upper => empty p lower (by omega), Lists.from_step (by omega),
      empty stop order (by omega), nil_append]

theorem Lists.mem_all : member ∈ lists.all kind core ↔
    ∃ p : Nat, p < 64 ∧ member ∈ lists kind p core := by
  rw [Lists.all, mem_flatMap]
  simp only [mem_range]

/-- The front of the first priority that is available, where the search found one. -/
theorem Represents.front (rep : q.Represents lists places) {start priority : Nat}
    (first : ((q.queues kind).availablePriorities core).IsFirst start priority) :
    (if (priority : Int) ≤ lowestPriority then
        (pure (KPerCoreQueue.getFront (q.links kind priority core)) : Except Fault (Option κ))
      else pure none) = .ok (lists.from kind core start).head? := by
  have lists_eq_nil : ∀ p : Nat, start ≤ p → p < priority → lists kind p core = [] := by
    intro p lower upper
    have clear := first.clear p lower upper
    by_contra filled
    have filled := (rep.available kind p core (Int.natCast_nonneg p)).mpr filled
    cases clear.symm.trans filled
  rw [Lists.from_skip first.start_le first.le lists_eq_nil]
  split
  · next inside =>
    have below : priority < 64 := by
      change (priority : Int) ≤ 63 at inside
      omega
    have filled : lists kind priority core ≠ [] := by
      rw [← rep.available kind priority core (Int.natCast_nonneg priority)]
      exact first.set below
    rw [(rep.rings kind priority core).getFront, Lists.from_step below,
      head?_append_of_ne_nil _ filled]
    rfl
  · next outside =>
    have last : priority = 64 := by
      have : priority ≤ 64 := first.le
      change ¬ (priority : Int) ≤ 63 at outside
      omega
    rw [last, Lists.from_last]
    rfl

theorem Represents.getFront (rep : q.Represents lists places)
    (validCore : isValidCore core = true) :
    q.getFront kind core = .ok (lists.all kind core).head? := by
  rw [KPriorityQueue.getFront, KPriorityQueueImpl.getFront, validCore]
  simp only [assert_true, ok_bind]
  rw [rep.front (BitSet.countLeadingZero_isFirst (by decide) le_rfl), Lists.from_zero]

theorem Represents.getFrontAt (rep : q.Represents lists places) {priority : Int}
    (validCore : isValidCore core = true) (validPriority : isValidPriority priority = true)
    (past : lowestPriority < priority → lists kind priority core = []) :
    q.getFrontAt kind core priority = .ok (lists kind priority core).head? := by
  rw [KPriorityQueue.getFrontAt, KPriorityQueueImpl.getFrontAt, validCore, validPriority]
  simp only [assert_true, ok_bind]
  split
  · rw [(rep.rings kind priority core).getFront]
    rfl
  · next outside =>
    rw [past (not_le.mp outside)]
    rfl

/-- The thread that follows a thread in the walk over the queue of a core. -/
def next (q : KPriorityQueue κ) (lists : Lists κ) (kind : QueueKind) (core : Int) (member : κ) :
    Option κ :=
  (q.entries core member).next.or
    (lists.from kind core ((q.attributes member).priority.toNat + 1)).head?

theorem Represents.getNext (rep : q.Represents lists places) (validCore : isValidCore core = true)
    (below : (q.attributes member).priority.toNat < 64) :
    q.getNext kind core member = .ok (q.next lists kind core member) := by
  rw [KPriorityQueue.getNext, KPriorityQueueImpl.getNext, validCore, KPriorityQueue.next]
  simp only [assert_true, ok_bind]
  cases (q.entries core member).next with
  | some a => rfl
  | none =>
    rw [Option.none_or]
    exact rep.front (BitSet.getNextSet_isFirst _ below)

/-- The walk visits the lists from each priority on in order. -/
theorem Represents.linked_next (rep : q.Represents lists places)
    (priorities : ∀ (p : Int) (m : κ), m ∈ lists kind p core → (q.attributes m).priority = p)
    (start : Nat) (below : start ≤ 64) :
    Linked (q.next lists kind core) (lists.from kind core start).head?
      (lists.from kind core start) none := by
  induction below using Nat.decreasingInduction with
  | self => exact rfl
  | of_succ start below ih =>
    rw [Lists.from_step below, linked_append]
    refine ⟨_, ?_, ih⟩
    have walked := (rep.rings kind start core).linked.or (lists.from kind core (start + 1)).head?
    have front : (q.links kind start core none).next = (lists kind start core).head? :=
      (rep.rings kind start core).getFront
    rw [front, ← head?_append] at walked
    refine walked.congr fun m inside => ?_
    have here : (q.attributes m).priority.toNat = start := by
      rw [priorities start m inside, Int.toNat_natCast]
    rw [KPriorityQueue.next, here]
    rfl

end SumiEmu.Kernel.KPriorityQueue
