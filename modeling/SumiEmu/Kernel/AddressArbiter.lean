/-
# The address arbiter

Threads wait on addresses in one tree, in the order of their keys, then of their priorities, then of
their arrival. The tree is the list of its waiters in order, and an iterator is the rest of the list
from the waiter it points at.

A signal wakes the first waiters on an address. Before it does, it may compare the word at the
address and change it, and the change may depend on how many waiters there are. That number is
looked up beforehand, and no further than the count of the signal.

The word is accessed exclusively. Others may change it between two accesses, and an exclusive write
may fail without a reason. So the accesses are given as what each of them reads, and whether a write
after it goes through. All accesses to user memory succeed.
-/

import Mathlib.Data.List.TakeWhile

namespace SumiEmu.Kernel.KAddressArbiter

open List

/-- A thread in the tree. The arrival is not part of the thread, but is kept by the tree. -/
structure Waiter where
  thread : Nat
  key : Nat
  priority : Int
  arrival : Nat
  deriving DecidableEq, Repr

/-- `ConditionVariableComparator::Compare`. -/
def compare (key : Nat) (priority : Int) (rhs : Waiter) : Int :=
  if key < rhs.key then -1
  else if key = rhs.key ∧ priority < rhs.priority then -1
  else 1

variable (tree : List Waiter)

/-- `nfind_key`: the waiters from the first one on that the key is not behind. -/
def nfindKey (key : Nat) (priority : Int) : List Waiter :=
  tree.dropWhile fun w => 0 < compare key priority w

/-- The waiters before a key. -/
def beforeKey (key : Nat) (priority : Int) : List Waiter :=
  tree.takeWhile fun w => 0 < compare key priority w

/-- One exclusive read of the word, and whether an exclusive write after it goes through. -/
structure Access where
  word : BitVec 32
  goesThrough : Bool
  deriving DecidableEq, Repr

/-- `ReadFromUser`. Like `UpdateIfEqual` it yields what it has read, and the word that it leaves. -/
def readFromUser : List Access → Option (BitVec 32 × BitVec 32)
  | [] => none
  | a :: _ => some (a.word, a.word)

/-- `UpdateIfEqual`. There is no result if the writes never stop to fail. -/
def updateIfEqual (value newValue : BitVec 32) : List Access → Option (BitVec 32 × BitVec 32)
  | [] => none
  | a :: rest =>
    if a.word = value then
      if a.goesThrough then some (a.word, newValue) else updateIfEqual value newValue rest
    else some (a.word, a.word)

/-- The results of a call. -/
inductive Result
  | success
  | invalidState
  deriving DecidableEq, Repr

/-- What a signal comes to: the word that is left, the tree that is left, and who has been woken. -/
structure Outcome where
  result : Result
  word : BitVec 32
  tree : List Waiter
  woken : List Waiter
  deriving DecidableEq, Repr

/-- The loop that ends the waits, from an iterator on: who is woken, and what is left. -/
def wakeLoop (addr : Nat) (count : Int) : List Waiter → Int → List Waiter × List Waiter
  | [], _ => ([], [])
  | it :: rest, numWaiters =>
    if (count ≤ 0 ∨ numWaiters < count) ∧ it.key = addr then
      let (woken, left) := wakeLoop addr count rest (numWaiters + 1)
      (it :: woken, left)
    else ([], it :: rest)

/-- `Signal`. -/
def signal (addr : Nat) (count : Int) : List Waiter × List Waiter :=
  let (woken, left) := wakeLoop addr count (nfindKey tree addr (-1)) 0
  (woken, beforeKey tree addr (-1) ++ left)

/-- What the two conditional signals do once the word has been accessed. -/
def signalIfEqual (addr : Nat) (value : BitVec 32) (count : Int) :
    Option (BitVec 32 × BitVec 32) → Option Outcome
  | none => none
  | some (userValue, word) =>
    if userValue ≠ value then some ⟨.invalidState, word, tree, []⟩
    else
      let (woken, tree) := signal tree addr count
      some ⟨.success, word, tree, woken⟩

/-- `SignalAndIncrementIfEqual`. -/
def signalAndIncrementIfEqual (addr : Nat) (value : BitVec 32) (count : Int)
    (accesses : List Access) : Option Outcome :=
  signalIfEqual tree addr value count (updateIfEqual value (value + 1) accesses)

/-- The loop that looks ahead, from the waiter behind `tmp_it` on. -/
def tmpNumWaiters (addr : Nat) (count : Int) : List Waiter → Int → Int
  | [], tmp => tmp
  | it :: rest, tmp =>
    if it.key = addr then
      if tmp ≥ count then tmp + 1 else tmpNumWaiters addr count rest (tmp + 1)
    else tmp

/-- The updated value, from the iterator on. -/
def modifiedValue (addr : Nat) (value : BitVec 32) (count : Int) : List Waiter → BitVec 32
  | [] => value + 1
  | it :: rest =>
    if it.key = addr then
      if count ≤ 0 then value - 2
      else if tmpNumWaiters addr count rest 0 < count then value - 1
      else value
    else value + 1

/-- `SignalAndModifyByWaitingCountIfEqual`. -/
def signalAndModifyByWaitingCountIfEqual (addr : Nat) (value : BitVec 32) (count : Int)
    (accesses : List Access) : Option Outcome :=
  let newValue := modifiedValue addr value count (nfindKey tree addr (-1))
  signalIfEqual tree addr value count
    (if value ≠ newValue then updateIfEqual value newValue accesses else readFromUser accesses)

/-! ## The order of the tree -/

/-- By key, then by priority, then by arrival. -/
def Before (v w : Waiter) : Prop :=
  v.key < w.key ∨ v.key = w.key ∧
    (v.priority < w.priority ∨ v.priority = w.priority ∧ v.arrival < w.arrival)

/-- The tree is in order, and no priority is above the highest one. -/
structure WellFormed (tree : List Waiter) : Prop where
  sorted : tree.Pairwise Before
  priorities : ∀ w ∈ tree, 0 ≤ w.priority

/-- The waiters on an address, in order. -/
def waiters (addr : Nat) (tree : List Waiter) : List Waiter := tree.filter fun w => w.key = addr

variable {tree : List Waiter} {addr : Nat} {count : Int} {value : BitVec 32}

theorem WellFormed.sublist {tree' : List Waiter} (wf : WellFormed tree) (sub : tree'.Sublist tree) :
    WellFormed tree' where
  sorted := wf.sorted.sublist sub
  priorities := fun w mem => wf.priorities w (sub.subset mem)

theorem compare_pos_iff {key : Nat} {priority : Int} {w : Waiter} :
    0 < compare key priority w ↔ w.key < key ∨ w.key = key ∧ w.priority ≤ priority := by
  rw [compare]
  split
  · omega
  · split
    · omega
    · omega

/-! ## The waiters on an address -/

/-- In a tree in order, the waiters on an address stand between those on lower and on higher
ones. -/
theorem parts (wf : WellFormed tree) (addr : Nat) :
    ∃ lower higher, tree = lower ++ (waiters addr tree ++ higher) ∧ (∀ w ∈ lower, w.key < addr) ∧
      (∀ w ∈ higher, addr < w.key) := by
  induction tree with
  | nil => exact ⟨[], [], rfl, fun w mem => absurd mem not_mem_nil,
      fun w mem => absurd mem not_mem_nil⟩
  | cons w tree ih =>
    obtain ⟨lower, higher, split, below, above⟩ := ih (wf.sublist (sublist_cons_self _ _))
    have first : ∀ v ∈ tree, Before w v := fun v mem => rel_of_pairwise_cons wf.sorted mem
    have key_le : ∀ v ∈ tree, w.key ≤ v.key := by
      intro v mem
      have before := first v mem
      rw [Before] at before
      omega
    have subset : ∀ v, v ∈ lower ∨ v ∈ waiters addr tree ∨ v ∈ higher → v ∈ tree := by
      intro v mem
      rw [split, mem_append, mem_append]
      rw [split] at mem
      exact split ▸ mem
    rcases Nat.lt_trichotomy w.key addr with low | same | high
    · refine ⟨w :: lower, higher, ?_, forall_mem_cons.mpr ⟨low, below⟩, above⟩
      have skip : waiters addr (w :: tree) = waiters addr tree :=
        filter_cons_of_neg (by simp; omega)
      rw [skip, cons_append, ← split]
    · have none_lower : lower = [] := eq_nil_iff_forall_not_mem.mpr fun v mem => by
        have := below v mem
        have := key_le v (subset v (Or.inl mem))
        omega
      refine ⟨[], higher, ?_, fun v mem => absurd mem not_mem_nil, above⟩
      have keep : waiters addr (w :: tree) = w :: waiters addr tree :=
        filter_cons_of_pos (by simp [same])
      rw [keep, nil_append, cons_append, ← nil_append (waiters addr tree ++ higher), ← none_lower,
        ← split]
    · refine ⟨[], w :: tree, ?_, fun v mem => absurd mem not_mem_nil, ?_⟩
      · have none_here : waiters addr (w :: tree) = [] := filter_eq_nil_iff.mpr fun v mem => by
          rcases mem_cons.mp mem with rfl | mem
          · simp
            omega
          · have := key_le v mem
            simp
            omega
        rw [none_here]
        rfl
      · intro v mem
        rcases mem_cons.mp mem with rfl | mem
        · exact high
        · exact Nat.lt_of_lt_of_le high (key_le v mem)

private theorem splitWhile {α : Type*} {p : α → Bool} {front back : List α}
    (passed : ∀ a ∈ front, p a = true)
    (stops : ∀ a ∈ back, p a = false) :
    (front ++ back).takeWhile p = front ∧ (front ++ back).dropWhile p = back := by
  rw [takeWhile_append_of_pos passed, dropWhile_append_of_pos passed]
  cases back with
  | nil => exact ⟨append_nil _, rfl⟩
  | cons a back =>
    have first : ¬ p a = true := Bool.eq_false_iff.mp (stops a mem_cons_self)
    rw [takeWhile_cons_of_neg first, dropWhile_cons_of_neg first]
    exact ⟨append_nil _, rfl⟩

/-- The iterator begins with the waiters on the address. -/
theorem nfindKey_parts {lower higher : List Waiter} (wf : WellFormed tree)
    (split : tree = lower ++ (waiters addr tree ++ higher)) (below : ∀ w ∈ lower, w.key < addr)
    (above : ∀ w ∈ higher, addr < w.key) :
    beforeKey tree addr (-1) = lower ∧ nfindKey tree addr (-1) = waiters addr tree ++ higher := by
  have passed : ∀ w ∈ lower, decide (0 < compare addr (-1) w) = true := by
    intro w mem
    rw [decide_eq_true_eq, compare_pos_iff]
    exact Or.inl (below w mem)
  have stops : ∀ w ∈ waiters addr tree ++ higher, decide (0 < compare addr (-1) w) = false := by
    intro w mem
    have priority : 0 ≤ w.priority := wf.priorities w (split ▸ mem_append_right _ mem)
    have key : addr ≤ w.key := by
      rcases mem_append.mp mem with here | later
      · rw [waiters, mem_filter, decide_eq_true_eq] at here
        exact here.2.ge
      · exact Nat.le_of_lt (above w later)
    rw [decide_eq_false_iff_not, compare_pos_iff]
    omega
  rw [beforeKey, nfindKey]
  generalize waiters addr tree = here at *
  subst split
  exact splitWhile passed stops

/-! ## The loops -/

/-- The waits that end are those of the first waiters on the address, as many as the count
allows. -/
def allowed (count : Int) (n : Nat) : Nat := if count ≤ 0 then n else min n count.toNat

theorem wakeLoop_eq {here higher : List Waiter} (same : ∀ w ∈ here, w.key = addr)
    (above : ∀ w ∈ higher, addr < w.key)
    (n : Nat) :
    wakeLoop addr count (here ++ higher) n =
      (here.take (if count ≤ 0 then here.length else count.toNat - n),
        here.drop (if count ≤ 0 then here.length else count.toNat - n) ++ higher) := by
  induction here generalizing n with
  | nil =>
    rw [nil_append, take_nil, drop_nil, nil_append]
    cases higher with
    | nil => rfl
    | cons w ws =>
      have apart : ¬ w.key = addr := (above w mem_cons_self).ne'
      rw [wakeLoop, if_neg fun both => apart both.2]
  | cons w here ih =>
    obtain ⟨key, others⟩ := forall_mem_cons.mp same
    have rest := ih others (n + 1)
    rw [Int.natCast_succ] at rest
    rw [cons_append, wakeLoop, rest]
    by_cases all : count ≤ 0
    · rw [if_pos ⟨Or.inl all, key⟩, if_pos all, if_pos all]
      rfl
    · rw [if_neg all, if_neg all]
      by_cases more : (n : Int) < count
      · have step : count.toNat - n = count.toNat - (n + 1) + 1 := by omega
        rw [if_pos ⟨Or.inr more, key⟩, step]
        rfl
      · have step : count.toNat - n = 0 := by omega
        rw [if_neg (fun both => by omega), step]
        rfl

/-- Looking ahead tells whether the count covers all waiters. -/
theorem tmpNumWaiters_lt_iff {here higher : List Waiter} (same : ∀ w ∈ here, w.key = addr)
    (above : ∀ w ∈ higher, addr < w.key) (n : Nat) :
    tmpNumWaiters addr count (here ++ higher) n < count ↔
      ((n + here.length : Nat) : Int) < count := by
  induction here generalizing n with
  | nil =>
    cases higher with
    | nil => rfl
    | cons w ws =>
      have apart : ¬ w.key = addr := (above w mem_cons_self).ne'
      rw [nil_append, tmpNumWaiters, if_neg apart]
      rfl
  | cons w here ih =>
    obtain ⟨key, others⟩ := forall_mem_cons.mp same
    have rest := ih others (n + 1)
    rw [Int.natCast_succ] at rest
    rw [cons_append, tmpNumWaiters, if_pos key, length_cons]
    split
    · omega
    · rw [rest]
      omega

theorem updateIfEqual_decides {newValue : BitVec 32} {accesses : List Access}
    (decides : ∃ a ∈ accesses, a.word ≠ value ∨ a.goesThrough = true) :
    ∃ a ∈ accesses, updateIfEqual value newValue accesses =
      some (a.word, if a.word = value then newValue else a.word) := by
  induction accesses with
  | nil =>
    obtain ⟨a, mem, -⟩ := decides
    cases mem
  | cons a rest ih =>
    rw [updateIfEqual]
    by_cases equal : a.word = value
    · rw [if_pos equal]
      by_cases through : a.goesThrough = true
      · exact ⟨a, mem_cons_self, by rw [if_pos through, if_pos equal]⟩
      · rw [if_neg through]
        have later : ∃ b ∈ rest, b.word ≠ value ∨ b.goesThrough = true := by
          obtain ⟨b, mem, decided⟩ := decides
          rcases mem_cons.mp mem with rfl | mem
          · exact absurd decided (not_or.mpr ⟨not_not.mpr equal, through⟩)
          · exact ⟨b, mem, decided⟩
        obtain ⟨b, mem, result⟩ := ih later
        exact ⟨b, mem_cons_of_mem _ mem, result⟩
    · exact ⟨a, mem_cons_self, by rw [if_neg equal, if_neg equal]⟩

theorem readFromUser_decides {accesses : List Access} (some_access : accesses ≠ []) :
    ∃ a ∈ accesses, readFromUser accesses =
      some (a.word, if a.word = value then value else a.word) := by
  cases accesses with
  | nil => exact absurd rfl some_access
  | cons a rest =>
    refine ⟨a, mem_cons_self, ?_⟩
    rw [readFromUser]
    split
    · rename_i equal
      rw [equal]
    · rfl

/-! ## The signals -/

theorem signal_eq (wf : WellFormed tree) (addr : Nat) (count : Int) :
    ∃ lower higher, tree = lower ++ (waiters addr tree ++ higher) ∧
      (∀ w ∈ lower, w.key < addr) ∧ (∀ w ∈ higher, addr < w.key) ∧
      signal tree addr count = ((waiters addr tree).take (allowed count (waiters addr tree).length),
        lower ++ ((waiters addr tree).drop (allowed count (waiters addr tree).length) ++ higher)) :=
        by
  obtain ⟨lower, higher, split, below, above⟩ := parts wf addr
  obtain ⟨front, back⟩ := nfindKey_parts wf split below above
  have same : ∀ w ∈ waiters addr tree, w.key = addr := fun w mem => by
    rw [waiters, mem_filter, decide_eq_true_eq] at mem
    exact mem.2
  refine ⟨lower, higher, split, below, above, ?_⟩
  have loop : wakeLoop addr count (waiters addr tree ++ higher) ((0 : Nat) : Int) = _ :=
    wakeLoop_eq same above 0
  rw [Int.natCast_zero, Nat.sub_zero] at loop
  rw [signal, front, back, loop]
  dsimp only
  rw [allowed]
  by_cases all : count ≤ 0
  · rw [if_pos all, if_pos all]
  · rw [if_neg all, if_neg all]
    rw [Nat.min_comm, ← take_eq_take_min, ← drop_eq_drop_min]

/-- The waiters on other addresses. -/
def others (addr : Nat) (tree : List Waiter) : List Waiter := tree.filter fun w => w.key ≠ addr

/-- A signal takes the first waiters on the address out of the tree, and nobody else. -/
theorem signal_spec (wf : WellFormed tree) (addr : Nat) (count : Int) :
    (signal tree addr count).1 = (waiters addr tree).take
    (allowed count (waiters addr tree).length) ∧
    waiters addr (signal tree addr count).2 =
    (waiters addr tree).drop (allowed count (waiters addr tree).length) ∧ others addr
    (signal tree addr count).2 = others addr tree ∧ WellFormed (signal tree addr count).2 := by
  obtain ⟨lower, higher, split, below, above, result⟩ := signal_eq wf addr count
  have same : ∀ w ∈ waiters addr tree, w.key = addr := fun w mem => by
    rw [waiters, mem_filter, decide_eq_true_eq] at mem
    exact mem.2
  have low : waiters addr lower = [] ∧ others addr lower = lower := by
    constructor
    · exact filter_eq_nil_iff.mpr fun w mem => by simpa using (below w mem).ne
    · exact filter_eq_self.mpr fun w mem => by simpa using (below w mem).ne
  have high : waiters addr higher = [] ∧ others addr higher = higher := by
    constructor
    · exact filter_eq_nil_iff.mpr fun w mem => by simpa using (above w mem).ne'
    · exact filter_eq_self.mpr fun w mem => by simpa using (above w mem).ne'
  have here (l : List Waiter) (known : ∀ w ∈ l, w.key = addr) : waiters addr l = l ∧
      others addr l = [] := by
    constructor
    · exact filter_eq_self.mpr fun w mem => by simpa using known w mem
    · exact filter_eq_nil_iff.mpr fun w mem => by simpa using known w mem
  -- between the two parts that the signal does not touch, any list of waiters on the address may
  -- stand
  have between (l : List Waiter) (known : ∀ w ∈ l, w.key = addr) :
      waiters addr (lower ++ (l ++ higher)) = l ∧
        others addr (lower ++ (l ++ higher)) = lower ++ higher := by
    obtain ⟨kept, dropped⟩ := here l known
    constructor
    · rw [waiters, filter_append, filter_append]
      change waiters addr lower ++ (waiters addr l ++ waiters addr higher) = l
      rw [low.1, kept, high.1, nil_append, append_nil]
    · rw [others, filter_append, filter_append]
      change others addr lower ++ (others addr l ++ others addr higher) = lower ++ higher
      rw [low.2, dropped, high.2, nil_append]
  obtain ⟨kept, left⟩ := between _ fun w mem => same w (mem_of_mem_drop mem)
  rw [result]
  refine ⟨rfl, kept, ?_, ?_⟩
  · have whole := (between _ same).2
    rw [← split] at whole
    exact left.trans whole.symm
  · refine wf.sublist ?_
    have sub : (lower ++ ((waiters addr tree).drop (allowed count (waiters addr tree).length) ++
      higher)).Sublist (lower ++ (waiters addr tree ++ higher)) :=
      ((drop_sublist _ _).append_right higher).append_left lower
    rw [← split] at sub
    exact sub

/-- The word that a signal by the waiting count leaves. -/
def modified (value : BitVec 32) (count : Int) (n : Nat) : BitVec 32 :=
  if n = 0 then value + 1 else if count ≤ 0 then value - 2 else if (n : Int) ≤ count then value - 1
    else value

theorem modifiedValue_eq (wf : WellFormed tree) (addr : Nat) (value : BitVec 32) (count : Int) :
    modifiedValue addr value count (nfindKey tree addr (-1)) =
      modified value count (waiters addr tree).length := by
  obtain ⟨lower, higher, split, below, above⟩ := parts wf addr
  rw [(nfindKey_parts wf split below above).2, modified]
  have same : ∀ w ∈ waiters addr tree, w.key = addr := fun w mem => by
    rw [waiters, mem_filter, decide_eq_true_eq] at mem
    exact mem.2
  cases here : waiters addr tree with
  | nil =>
    rw [nil_append, length_nil, if_pos rfl]
    cases higher with
    | nil => rfl
    | cons w ws => rw [modifiedValue, if_neg (above w mem_cons_self).ne']
  | cons w rest =>
    rw [here] at same
    obtain ⟨key, rest_same⟩ := forall_mem_cons.mp same
    have ahead : tmpNumWaiters addr count (rest ++ higher) ((0 : Nat) : Int) < count ↔ _ :=
      tmpNumWaiters_lt_iff rest_same above 0
    rw [Int.natCast_zero, Nat.zero_add] at ahead
    rw [cons_append, modifiedValue, if_pos key, length_cons, if_neg (Nat.succ_ne_zero _)]
    split
    · rfl
    · by_cases covers : ((rest.length + 1 : Nat) : Int) ≤ count
      · rw [if_pos (ahead.mpr (by omega)), if_pos covers]
      · rw [if_neg (fun less => covers (by have := ahead.mp less; omega)), if_neg covers]

/-- A conditional signal that has read a word: it fails without an effect if that is not the value.
Otherwise it stores the new value, and wakes the first waiters on the address. -/
structure Signals (tree : List Waiter) (addr : Nat) (value newValue : BitVec 32) (count : Int)
    (word : BitVec 32)
    (outcome : Outcome) : Prop where
  refused : word ≠ value → outcome = ⟨.invalidState, word, tree, []⟩
  result : word = value → outcome.result = .success
  stored : word = value → outcome.word = newValue
  woken : word = value → outcome.woken =
    (waiters addr tree).take (allowed count (waiters addr tree).length)
  left : word = value → outcome.woken ++ waiters addr outcome.tree = waiters addr tree
  inOrder : (waiters addr tree).Pairwise Before
  others : others addr outcome.tree = others addr tree
  wellFormed : WellFormed outcome.tree

theorem signalIfEqual_spec (wf : WellFormed tree) (addr : Nat) (value newValue : BitVec 32)
    (count : Int)
    (word : BitVec 32) :
    ∃ outcome, signalIfEqual tree addr value count
      (some (word, if word = value then newValue else word)) = some outcome ∧
      Signals tree addr value newValue count word outcome := by
  rw [signalIfEqual]
  by_cases equal : word = value
  · rw [if_neg (not_not.mpr equal), if_pos equal]
    obtain ⟨woken, left, apart, kept⟩ := signal_spec wf addr count
    refine ⟨_, rfl, fun differs => absurd equal differs, fun _ => rfl, fun _ => rfl, fun _ => woken,
      fun _ => ?_, wf.sorted.sublist filter_sublist, apart, kept⟩
    change (signal tree addr count).1 ++ waiters addr (signal tree addr count).2 = _
    rw [woken, left, take_append_drop]
  · rw [if_pos equal, if_neg equal]
    exact ⟨_, rfl, fun _ => rfl, fun same => absurd same equal, fun same => absurd same equal,
      fun same => absurd same equal, fun same => absurd same equal,
      wf.sorted.sublist filter_sublist, rfl, wf⟩

variable {accesses : List Access}

/-- With a signal by the waiting count, the word tells whether there have been waiters, and whether
the count covers them. -/
theorem WellFormed.signalAndModify (wf : WellFormed tree) (addr : Nat) (count : Int)
    (decides : ∃ a ∈ accesses, a.word ≠ value ∨ a.goesThrough = true) :
    ∃ a ∈ accesses, ∃ outcome, signalAndModifyByWaitingCountIfEqual tree addr value count accesses =
      some outcome ∧ Signals tree addr value (modified value count (waiters addr tree).length) count
      a.word outcome := by
  rw [signalAndModifyByWaitingCountIfEqual, modifiedValue_eq wf]
  generalize modified value count (waiters addr tree).length = newValue
  have accessed : ∃ a ∈ accesses,
      (if value ≠ newValue then updateIfEqual value newValue accesses else readFromUser accesses) =
        some (a.word, if a.word = value then newValue else a.word) := by
    by_cases changes : value ≠ newValue
    · rw [if_pos changes]
      exact updateIfEqual_decides decides
    · rw [if_neg changes, ← not_not.mp changes]
      obtain ⟨a, mem, -⟩ := decides
      exact readFromUser_decides (ne_nil_of_mem mem)
  obtain ⟨a, mem, access⟩ := accessed
  refine ⟨a, mem, ?_⟩
  rw [access]
  exact signalIfEqual_spec wf addr value newValue count a.word

/-- Three waiters on one address between two others. -/
def threeWaiters : List Waiter :=
  [⟨1, 0x1000, 30, 4⟩, ⟨2, 0x2000, 20, 3⟩, ⟨3, 0x2000, 44, 0⟩, ⟨4, 0x2000, 44, 1⟩,
    ⟨5, 0x3000, 0, 2⟩]

theorem threeWaiters_wellFormed : WellFormed threeWaiters where
  sorted := by
    simp [threeWaiters, Before]
  priorities := by
    simp [threeWaiters]

/-- A count of two does not cover them, and a write that fails would be tried again. -/
theorem signalAndModify_threeWaiters :
    ∃ a ∈ [Access.mk 7 false, Access.mk 7 true], ∃ outcome,
      signalAndModifyByWaitingCountIfEqual threeWaiters 0x2000 7 2 [⟨7, false⟩, ⟨7, true⟩] =
      some outcome ∧ Signals threeWaiters 0x2000 7
      (modified 7 2 (waiters 0x2000 threeWaiters).length) 2 a.word outcome :=
  threeWaiters_wellFormed.signalAndModify 0x2000 2 ⟨⟨7, true⟩, by decide, Or.inr rfl⟩

end SumiEmu.Kernel.KAddressArbiter
