/-
# The lists of the container

The entries of the container make up lists that have none in common, one for each key, and what is
in no list is free. An entry that is being entered or removed is loose in between.
-/

import Mathlib.Data.List.Perm.Subperm
import SumiEmu.Core.DeviceMemoryManager
import SumiEmu.Foundations.Linked

namespace SumiEmu.Core

open Fallible Linking Function List Nat

namespace MultiAddressContainer

variable {container container' : MultiAddressContainer} {chains : Nat → List Nat}
    {loose loose' : Option Nat}
  {id p rounds : Nat} {l before after : List Nat}

/-- The entry behind another one. -/
def next (container : MultiAddressContainer) (id : Nat) : Option Nat :=
  if (container.storage id).nextEntry = 0 then none else some (container.storage id).nextEntry

/-- The value of an entry. -/
def value (container : MultiAddressContainer) (id : Nat) : Nat := (container.storage id).value

theorem entry_of (inside : 0 < id ∧ id ≤ container.size) :
    container.entry id = .ok (container.storage id) :=
  if_pos inside

theorem next_of (some_next : (container.storage id).nextEntry ≠ 0) :
    container.next id = some (container.storage id).nextEntry :=
  if_neg some_next

theorem next_of_zero (none : (container.storage id).nextEntry = 0) :
    container.next id = Option.none := if_pos none

theorem nextEntry_of_last (last : container.next id = none) :
    (container.storage id).nextEntry = 0 := by
  by_contra some_next
  cases (next_of some_next).symm.trans last

theorem nextEntry_of_next {a : Nat} (here : container.next id = some a) :
    (container.storage id).nextEntry ≠ 0 ∧ (container.storage id).nextEntry = a := by
  have some_next : (container.storage id).nextEntry ≠ 0 := by
    intro none
    cases (next_of_zero none).symm.trans here
  exact ⟨some_next, Option.some.inj ((next_of some_next).symm.trans here)⟩

theorem storage_setEntry_self (entry : Entry) : (container.setEntry id entry).storage id = entry :=
  update_self _ _ _

theorem next_setEntry_self (n v : Nat) :
    (container.setEntry id ⟨n, v⟩).next id = if n = 0 then none else some n := by
  rw [next, storage_setEntry_self]

theorem storage_setEntry_of_ne {e : Nat} (other : e ≠ id) (entry : Entry) :
    (container.setEntry id entry).storage e = container.storage e := update_of_ne other _ _

theorem next_congr {e : Nat} (same : container'.storage e = container.storage e) :
    container'.next e = container.next e := by
  rw [next, next, same]

/-! ## Loops along a list -/

theorem gatherLoop_eq (linked : Linked container.next (container.next id) l none)
    (inside : ∀ e ∈ l, 0 < e ∧ e ≤ container.size) (enough : l.length ≤ rounds) :
    container.gatherLoop rounds (container.storage id) = .ok (l.map container.value) := by
  induction l generalizing id rounds with
  | nil =>
    unfold gatherLoop
    rw [if_pos (nextEntry_of_last linked)]
    rfl
  | cons a l ih =>
    obtain ⟨here, rest⟩ := linked
    obtain ⟨some_next, is⟩ := nextEntry_of_next here
    obtain ⟨rounds, rfl⟩ := exists_eq_succ_of_ne_zero
      (ne_of_gt (lt_of_lt_of_le (succ_pos _) enough))
    rw [gatherLoop, if_neg some_next, is, entry_of (inside a mem_cons_self), ok_bind,
      ih rest (fun e mem => inside e (mem_cons_of_mem a mem)) (le_of_succ_le_succ enough)]
    rfl

theorem lastLoop_eq (linked : Linked container.next (container.next id) l none)
    (inside : ∀ e ∈ id :: l, 0 < e ∧ e ≤ container.size) (enough : l.length ≤ rounds) :
    container.lastLoop rounds id = .ok ((id :: l).getLast (cons_ne_nil id l)) := by
  induction l generalizing id rounds with
  | nil =>
    unfold lastLoop
    rw [entry_of (inside id mem_cons_self), ok_bind, if_pos (nextEntry_of_last linked)]
    rfl
  | cons a l ih =>
    obtain ⟨here, rest⟩ := linked
    obtain ⟨some_next, is⟩ := nextEntry_of_next here
    obtain ⟨rounds, rfl⟩ := exists_eq_succ_of_ne_zero
      (ne_of_gt (lt_of_lt_of_le (succ_pos _) enough))
    rw [lastLoop, entry_of (inside id mem_cons_self), ok_bind, if_neg some_next, is]
    dsimp only
    rw [ih rest (fun e mem => inside e (mem_cons_of_mem id mem)) (le_of_succ_le_succ enough),
      getLast_cons (cons_ne_nil a l)]

/-- The loop finds the first entry with a value, and what is before it. -/
theorem findLoop_eq {v start count : Nat} {previous : Option Nat}
    (linked : Linked container.next (some start) (before ++ id :: after) none)
    (inside : ∀ e ∈ before ++ id :: after, 0 < e ∧ e ≤ container.size)
    (others : ∀ e ∈ before, container.value e ≠ v) (found : container.value id = v)
    (enough : before.length ≤ rounds) : container.findLoop v rounds start previous count =
      .ok (id, before.getLast?.or previous, count + before.length) := by
  induction before generalizing start previous count rounds with
  | nil =>
    obtain ⟨here, -⟩ := linked
    obtain rfl : start = id := Option.some.inj here
    have found' : (container.storage start).value = v := found
    unfold findLoop
    rw [entry_of (inside start mem_cons_self), ok_bind, if_pos found']
    rfl
  | cons a before ih =>
    obtain ⟨here, rest⟩ := linked
    obtain rfl : start = a := Option.some.inj here
    have some_next : (container.storage start).nextEntry ≠ 0 := by
      intro none
      rw [next_of_zero none] at rest
      cases before with
      | nil => cases rest.1
      | cons b before => cases rest.1
    rw [next_of some_next] at rest
    obtain ⟨rounds, rfl⟩ := exists_eq_succ_of_ne_zero
      (ne_of_gt (lt_of_lt_of_le (succ_pos _) enough))
    have other : (container.storage start).value ≠ v := others start mem_cons_self
    rw [findLoop, entry_of (inside start mem_cons_self), ok_bind, if_neg other]
    dsimp only
    rw [ih rest (fun e mem => inside e (mem_cons_of_mem start mem))
      (fun e mem => others e (mem_cons_of_mem start mem)) (le_of_succ_le_succ enough), length_cons,
      add_assoc, add_comm 1]
    cases before with
    | nil => rfl
    | cons b before =>
      rw [getLast?_cons_cons, getLast?_cons]
      rfl

/-! ## The pool -/

/-- Each key has a list, no entry is in two of them or in one twice, and an entry that is in none
and not loose is free, once. -/
structure Pool (container : MultiAddressContainer) (chains : Nat → List Nat) (loose : Option Nat) :
    Prop where
  linked : ∀ p, Linked container.next (chains p).head? (chains p) none
  inside : ∀ p, ∀ id ∈ chains p, 0 < id ∧ id ≤ container.size
  apart : ∀ p q, p ≠ q → ∀ id ∈ chains p, id ∉ chains q
  freeNodup : container.freeEntries.Nodup
  freeInside : ∀ id ∈ container.freeEntries, 0 < id ∧ id ≤ container.size
  freeApart : ∀ id ∈ container.freeEntries, ∀ p, id ∉ chains p
  looseInside : ∀ id ∈ loose, 0 < id ∧ id ≤ container.size
  looseApart : ∀ id ∈ loose, id ∉ container.freeEntries ∧ ∀ p, id ∉ chains p
  owned : ∀ id, 0 < id → id ≤ container.size → id ∈ container.freeEntries ∨ id ∈ loose ∨
    ∃ p, id ∈ chains p

namespace Pool

/-- One list is made anew of its entries and the loose one. -/
theorem rechain (pool : Pool container chains loose) (size : container'.size = container.size)
    (free : container'.freeEntries = container.freeEntries)
    (same : ∀ e, e ∉ chains p → e ∉ loose → container'.storage e = container.storage e)
    (linked : Linked container'.next l.head? l none)
    (moved : ∀ e, (e ∈ l ∨ e ∈ loose') ↔ (e ∈ chains p ∨ e ∈ loose)) (apart : ∀ e ∈ loose', e ∉ l) :
    Pool container' (update chains p l) loose' := by
  have others (q : Nat) (other : q ≠ p) : update chains p l q = chains q := update_of_ne other _ _
  have self : update chains p l p = l := update_self _ _ _
  have inside_l : ∀ e, (e ∈ l ∨ e ∈ loose') → 0 < e ∧ e ≤ container.size := by
    intro e mem
    rcases (moved e).mp mem with mem | mem
    · exact pool.inside p e mem
    · exact pool.looseInside e mem
  have not_free : ∀ e, (e ∈ l ∨ e ∈ loose') → e ∉ container.freeEntries := by
    intro e mem is_free
    rcases (moved e).mp mem with mem | mem
    · exact pool.freeApart e is_free p mem
    · exact (pool.looseApart e mem).1 is_free
  have not_other : ∀ e, (e ∈ l ∨ e ∈ loose') → ∀ q, q ≠ p → e ∉ chains q := by
    intro e mem q other
    rcases (moved e).mp mem with mem | mem
    · exact pool.apart p q other.symm e mem
    · exact (pool.looseApart e mem).2 q
  constructor
  · intro q
    by_cases here : q = p
    · rw [here, self]
      exact linked
    · rw [others q here]
      refine (pool.linked q).congr fun e mem => ?_
      have kept := same e (pool.apart q p here e mem) fun is_loose =>
        (pool.looseApart e is_loose).2 q mem
      rw [next, next, kept]
  · intro q e mem
    rw [size]
    by_cases here : q = p
    · rw [here, self] at mem
      exact inside_l e (Or.inl mem)
    · rw [others q here] at mem
      exact pool.inside q e mem
  · intro q r other e mem
    by_cases here : q = p
    · rw [here, self] at mem
      rw [others r fun there => other (here.trans there.symm)]
      exact not_other e (Or.inl mem) r fun there => other (here.trans there.symm)
    · rw [others q here] at mem
      by_cases there : r = p
      · rw [there, self]
        exact fun mem' => not_other e (Or.inl mem') q here mem
      · rw [others r there]
        exact pool.apart q r other e mem
  · rw [free]
    exact pool.freeNodup
  · rw [free, size]
    exact pool.freeInside
  · intro e is_free q
    rw [free] at is_free
    by_cases here : q = p
    · rw [here, self]
      exact fun mem => not_free e (Or.inl mem) is_free
    · rw [others q here]
      exact pool.freeApart e is_free q
  · intro e is_loose
    rw [size]
    exact inside_l e (Or.inr is_loose)
  · intro e is_loose
    rw [free]
    refine ⟨not_free e (Or.inr is_loose), fun q => ?_⟩
    by_cases here : q = p
    · rw [here, self]
      exact apart e is_loose
    · rw [others q here]
      exact not_other e (Or.inr is_loose) q here
  · intro e positive le
    rw [size] at le
    rw [free]
    have mine : (e ∈ chains p ∨ e ∈ loose) → e ∈ container.freeEntries ∨ e ∈ loose' ∨
        ∃ q, e ∈ update chains p l q := by
      intro mem
      rcases (moved e).mpr mem with mem | mem
      · exact Or.inr (Or.inr ⟨p, by rwa [self]⟩)
      · exact Or.inr (Or.inl mem)
    rcases pool.owned e positive le with is_free | is_loose | ⟨q, mem⟩
    · exact Or.inl is_free
    · exact mine (Or.inr is_loose)
    · by_cases here : q = p
      · exact mine (Or.inl (here ▸ mem))
      · exact Or.inr (Or.inr ⟨q, by rwa [others q here]⟩)

/-- A list is no longer than the container. -/
theorem length_le (pool : Pool container chains loose) (p : Nat) :
    (chains p).length ≤ container.size := by
  have within : chains p ⊆ range' 1 container.size := by
    intro e mem
    have := pool.inside p e mem
    exact mem_range'_1.mpr ⟨this.1, by omega⟩
  have le := ((pool.linked p).nodup.subperm within).length_le
  rwa [length_range'] at le

/-- An entry is taken from the free ones, or from the end of the storage. -/
theorem getNewEntry (pool : Pool container chains none) :
    Pool container.getNewEntry.2 chains (some container.getNewEntry.1) ∧
      container.getNewEntry.2.storage = container.storage ∧
      (container.getNewEntry.2.size = container.size ∨
        container.freeEntries = [] ∧ container.getNewEntry.2.size = container.size + 1) := by
  rw [MultiAddressContainer.getNewEntry]
  split
  · rename_i result freeEntries is
    have mem : result ∈ container.freeEntries := is ▸ mem_cons_self
    have nodup := pool.freeNodup
    rw [is, nodup_cons] at nodup
    have old : ∀ e ∈ freeEntries, e ∈ container.freeEntries :=
      fun e mem => is ▸ mem_cons_of_mem result mem
    refine ⟨⟨pool.linked, pool.inside, pool.apart, nodup.2,
      fun e mem => pool.freeInside e (old e mem), fun e mem => pool.freeApart e (old e mem), ?_, ?_,
      ?_⟩, rfl, Or.inl rfl⟩
    · rintro e ⟨⟩
      exact pool.freeInside result mem
    · rintro e ⟨⟩
      exact ⟨nodup.1, pool.freeApart result mem⟩
    · intro e positive le
      rcases pool.owned e positive le with is_free | ⟨⟨⟩⟩ | mem
      · rw [is, mem_cons] at is_free
        rcases is_free with rfl | is_free
        · exact Or.inr (Or.inl rfl)
        · exact Or.inl is_free
      · exact Or.inr (Or.inr mem)
  · rename_i none
    refine ⟨⟨pool.linked, fun p e mem =>
      ⟨(pool.inside p e mem).1, le_succ_of_le (pool.inside p e mem).2⟩, pool.apart, pool.freeNodup,
      ?_, pool.freeApart, ?_, ?_, ?_⟩, rfl, Or.inr ⟨none, rfl⟩⟩
    · intro e mem
      rw [none] at mem
      cases mem
    · rintro e ⟨⟩
      exact ⟨succ_pos _, le_refl _⟩
    · rintro e ⟨⟩
      refine ⟨?_, fun p mem => not_succ_le_self _ (pool.inside p _ mem).2⟩
      change _ ∉ container.freeEntries
      rw [none]
      exact not_mem_nil
    · intro e positive le
      rcases lt_or_eq_of_le le with lt | rfl
      · rcases pool.owned e positive (le_of_lt_succ lt) with is_free | ⟨⟨⟩⟩ | mem
        · exact Or.inl is_free
        · exact Or.inr (Or.inr mem)
      · exact Or.inr (Or.inl rfl)

theorem storage_registerImplementation (v : Nat) :
    (container.registerImplementation v).2.storage =
      update container.getNewEntry.2.storage (container.registerImplementation v).1 ⟨0, v⟩ := rfl

/-- The storage grows only where no entry is free. -/
theorem size_registerImplementation (container : MultiAddressContainer) (v : Nat) :
    (container.registerImplementation v).2.size = container.size ∨
      container.freeEntries = [] ∧ (container.registerImplementation v).2.freeEntries = [] ∧
        (container.registerImplementation v).2.size = container.size + 1 := by
  change container.getNewEntry.2.size = container.size ∨ container.freeEntries = [] ∧
    container.getNewEntry.2.freeEntries = [] ∧ container.getNewEntry.2.size = container.size + 1
  rw [MultiAddressContainer.getNewEntry]
  split
  · exact Or.inl rfl
  · rename_i none
    exact Or.inr ⟨none, none, rfl⟩

theorem freeEntries_registerImplementation (none : container.freeEntries = []) (v : Nat) :
    (container.registerImplementation v).2.freeEntries = [] := by
  change container.getNewEntry.2.freeEntries = []
  rw [MultiAddressContainer.getNewEntry, none]

section

variable (pool : Pool container chains none)

include pool

/-- What an entry that has been written gives the lists: its value, and no entry behind it. -/
theorem registered (v : Nat) :
    (container.registerImplementation v).2.value (container.registerImplementation v).1 = v ∧
      (container.registerImplementation v).2.next (container.registerImplementation v).1 = none ∧
      ∀ p, ∀ e ∈ chains p, (container.registerImplementation v).2.storage e =
      container.storage e := by
  obtain ⟨fresh, same, -⟩ := pool.getNewEntry
  refine ⟨?_, next_of_zero ?_, fun p e mem => ?_⟩
  · rw [value, storage_registerImplementation, update_self]
  · rw [storage_registerImplementation, update_self]
  · have other : e ≠ (container.registerImplementation v).1 := by
      rintro rfl
      exact (fresh.looseApart _ rfl).2 p mem
    rw [storage_registerImplementation, update_of_ne other, same]

/-- A new list of one entry. -/
theorem registerNew (empty : chains p = []) (v : Nat) :
    Pool (container.registerImplementation v).2
      (update chains p [(container.registerImplementation v).1]) none := by
  obtain ⟨fresh, -, -⟩ := pool.getNewEntry
  refine fresh.rechain rfl rfl (fun e _ not_loose => ?_) ⟨rfl, (pool.registered v).2.1⟩
    (fun e => ?_) fun e is => by cases is
  · refine update_of_ne (fun is => not_loose ?_) _ _
    rw [is]
    rfl
  · rw [empty, mem_singleton]
    change e = container.getNewEntry.1 ∨ none = some e ↔ e ∈ [] ∨
      some container.getNewEntry.1 = some e
    simp [eq_comm]

/-- A list gets another last entry. -/
theorem register {start v : Nat} {rest : List Nat} (here : chains p = start :: rest) :
    ∃ container' id, container.register v start = .ok container' ∧
      Pool container' (update chains p (chains p ++ [id])) none ∧ container'.value id = v ∧
      (∀ q, ∀ e ∈ chains q, container'.value e = container.value e) ∧
      container'.size = (container.registerImplementation v).2.size ∧
      container'.freeEntries = (container.registerImplementation v).2.freeEntries := by
  obtain ⟨fresh, -, -⟩ := pool.getNewEntry
  obtain ⟨is_value, is_last, old⟩ := pool.registered v
  generalize registered : (container.registerImplementation v).2 = container₁ at *
  generalize entered : (container.registerImplementation v).1 = id at *
  have size₁ : container₁.size = container.getNewEntry.2.size := by rw [← registered]; rfl
  have free₁ : container₁.freeEntries = container.getNewEntry.2.freeEntries := by
    rw [← registered]; rfl
  have id_eq : container.getNewEntry.1 = id := entered
  rw [id_eq] at fresh
  -- the list as it is before the last entry is linked
  have pool₁ : Pool container₁ (update chains p (chains p)) (some id) := by
    refine fresh.rechain size₁ free₁ (fun e _ not_loose => ?_) ?_ (fun e => Iff.rfl) fun e is =>
      (fresh.looseApart e is).2 p
    · rw [← registered, storage_registerImplementation, entered]
      exact update_of_ne (fun is => not_loose (by rw [is]; rfl)) _ _
    · exact (pool.linked p).congr fun e mem => next_congr (old p e mem)
  rw [update_eq_self] at pool₁
  have linked := pool₁.linked p
  rw [here] at linked
  have inside := pool₁.inside p
  rw [here] at inside
  have length := pool₁.length_le p
  rw [here, length_cons] at length
  have last := lastLoop_eq linked.2 inside (le_of_succ_le length)
  obtain ⟨front, z, split⟩ : ∃ front z, start :: rest = front ++ [z] :=
    ⟨(start :: rest).dropLast, (start :: rest).getLast (cons_ne_nil _ _),
        (dropLast_append_getLast _).symm⟩
  have is_z : (start :: rest).getLast (cons_ne_nil _ _) = z := by
    simp only [split, getLast_append_singleton]
  have mem_z : z ∈ start :: rest := by
    rw [split]
    exact mem_append_right front (mem_singleton_self z)
  rw [is_z] at last
  have not_id : ∀ e ∈ start :: rest, e ≠ id := by
    rintro e mem rfl
    exact (pool₁.looseApart _ rfl).2 p (here ▸ mem)
  have nodup := (pool₁.linked p).nodup
  rw [here, split] at nodup
  have not_front : z ∉ front := fun mem =>
    (nodup_append.mp nodup).2.2 z mem z (mem_singleton_self z) rfl
  have positive : id ≠ 0 := ne_of_gt (pool₁.looseInside id rfl).1
  refine ⟨container₁.setEntry z { container₁.storage z with nextEntry := id }, id, ?_, ?_, ?_, ?_,
    ?_, ?_⟩
  · rw [MultiAddressContainer.register]
    dsimp only
    rw [registered, entered, last, ok_bind, entry_of (inside z mem_z), ok_bind]
    rfl
  · refine pool₁.rechain rfl rfl (fun e other _ => ?_) ?_ (fun e => ?_) fun e is => by cases is
    · refine storage_setEntry_of_ne (fun is => other ?_) _
      rw [here, is]
      exact mem_z
    · rw [here, cons_append, head?_cons]
      rw [split] at linked
      obtain ⟨middle, first, second⟩ := linked_append.mp linked
      obtain ⟨rfl, -⟩ := second
      have head : (front ++ [z]).head? = some start := by
        rw [← split]
        rfl
      rw [head] at first
      have first' : Linked (container₁.setEntry z
        { container₁.storage z with nextEntry := id }).next (some start) front (some z) := by
        refine first.congr fun e mem => ?_
        have other : e ≠ z := fun is => not_front (is ▸ mem)
        exact next_congr (storage_setEntry_of_ne other _)
      have rejoined : start :: (rest ++ [id]) = front ++ [z, id] := by
        rw [← cons_append, split, append_assoc]
        rfl
      rw [rejoined]
      refine linked_append.mpr ⟨some z, first', rfl, ?_⟩
      rw [next_setEntry_self, if_neg positive]
      refine ⟨rfl, ?_⟩
      exact (next_congr (storage_setEntry_of_ne (not_id z mem_z).symm _)).trans is_last
    · rw [mem_append, mem_singleton]
      change (e ∈ chains p ∨ e = id) ∨ none = some e ↔ e ∈ chains p ∨ some id = some e
      rw [Option.some_inj, eq_comm (a := id)]
      simp
  · rw [value, storage_setEntry_of_ne (not_id z mem_z).symm]
    exact is_value
  · intro q e mem
    rw [value, value]
    by_cases at_z : e = z
    · rw [at_z, storage_setEntry_self, ← old p z (here ▸ mem_z)]
    · rw [storage_setEntry_of_ne at_z, old q e mem]
  · rfl
  · rfl

end

/-- A loose entry becomes free. -/
theorem release (pool : Pool container chains (some id)) :
    Pool { container with freeEntries := container.freeEntries ++ [id] } chains none where
  linked := pool.linked
  inside := pool.inside
  apart := pool.apart
  freeNodup := by
    refine nodup_append.mpr ⟨pool.freeNodup, pairwise_singleton _ id, ?_⟩
    rintro e mem e' mem' rfl
    obtain rfl := mem_singleton.mp mem'
    exact (pool.looseApart e rfl).1 mem
  freeInside := by
    intro e mem
    rcases mem_append.mp mem with mem | mem
    · exact pool.freeInside e mem
    · obtain rfl := mem_singleton.mp mem
      exact pool.looseInside e rfl
  freeApart := by
    intro e mem
    rcases mem_append.mp mem with mem | mem
    · exact pool.freeApart e mem
    · obtain rfl := mem_singleton.mp mem
      exact (pool.looseApart e rfl).2
  looseInside := fun _ is => by cases is
  looseApart := fun _ is => by cases is
  owned := by
    intro e positive le
    rcases pool.owned e positive le with mem | ⟨⟨⟩⟩ | mem
    · exact Or.inl (mem_append_left _ mem)
    · exact Or.inl (mem_append_right _ (mem_singleton_self _))
    · exact Or.inr (Or.inr mem)

/-- The entry behind another one of a list. -/
theorem next_eq (pool : Pool container chains loose) (here : chains p = before ++ id :: after) :
    container.next id = after.head? ∧ Linked container.next after.head? after none := by
  have linked := pool.linked p
  rw [here] at linked
  obtain ⟨middle, -, rfl, rest⟩ := linked_append.mp linked
  have head : after.head? = container.next id := by
    cases after with
    | nil => exact rest.symm
    | cons a after => exact rest.1.symm
  rw [head]
  exact ⟨rfl, rest⟩

theorem moreThanOne_eq (pool : Pool container chains loose)
    (here : chains p = before ++ id :: after) (previous : Option Nat) :
    container.moreThanOne (container.storage id) previous =
      .ok (decide (1 < after.length) || decide (after ≠ []) && previous.isSome) := by
  obtain ⟨head, rest⟩ := pool.next_eq here
  rw [moreThanOne]
  cases after with
  | nil =>
    rw [if_neg (not_not_intro (nextEntry_of_last head))]
    rfl
  | cons a after =>
    obtain ⟨some_next, is⟩ := nextEntry_of_next head
    have mem : a ∈ chains p := here ▸ mem_append_right before (mem_cons_of_mem id mem_cons_self)
    have behind : ((container.storage a).nextEntry ≠ 0) ↔ 1 < (a :: after).length := by
      obtain ⟨-, rest⟩ := rest
      rw [length_cons, Nat.lt_add_left_iff_pos, length_pos_iff]
      constructor
      · rintro some_next rfl
        cases (next_of some_next).symm.trans rest
      · rintro some_after none
        obtain ⟨b, after, rfl⟩ := exists_cons_of_ne_nil some_after
        cases (next_of_zero none).symm.trans rest.1
    rw [if_pos some_next, is, entry_of (pool.inside p a mem), ok_bind, decide_eq_decide.mpr behind]
    rfl

section

variable (pool : Pool container chains none)

include pool

/-- An entry is taken out of its list and is loose. -/
theorem unlink {start : Nat} (here : chains p = before ++ id :: after)
    (head : (chains p).head? = some start) :
    ∃ container' resultStart,
      container.unlink (container.storage id) start before.getLast? =
      .ok (container', resultStart) ∧
      Pool container' (update chains p (before ++ after)) (some id) ∧
      (∀ e, container'.value e = container.value e) ∧ container'.size = container.size ∧
      ((before ++ after).head? = if resultStart = 0 then none else some resultStart) := by
  obtain ⟨next, rest⟩ := pool.next_eq here
  have nodup := (pool.linked p).nodup
  rw [here] at nodup
  have moved (e : Nat) : (e ∈ before ++ after ∨ e ∈ some id) ↔
      (e ∈ chains p ∨ e ∈ (none : Option Nat)) := by
    rw [here, mem_append, mem_append, mem_cons, Option.mem_some_iff]
    constructor
    · rintro ((mem | mem) | rfl)
      · exact Or.inl (Or.inl mem)
      · exact Or.inl (Or.inr (Or.inr mem))
      · exact Or.inl (Or.inr (Or.inl rfl))
    · rintro ((mem | rfl | mem) | ⟨⟨⟩⟩)
      · exact Or.inl (Or.inl mem)
      · exact Or.inr rfl
      · exact Or.inl (Or.inr mem)
  have gone : ∀ e ∈ some id, e ∉ before ++ after := by
    rintro e ⟨⟩ mem
    have apart := nodup_append.mp nodup
    rcases mem_append.mp mem with mem | mem
    · exact apart.2.2 id mem id mem_cons_self rfl
    · exact (nodup_cons.mp apart.2.1).1 mem
  rcases eq_nil_or_concat' before with rfl | ⟨front, z, rfl⟩
  · refine ⟨container, (container.storage id).nextEntry, rfl, ?_, fun _ => rfl, rfl, ?_⟩
    · exact pool.rechain rfl rfl (fun _ _ _ => rfl) rest moved gone
    · exact next.symm
  · have mem : z ∈ chains p := by
      rw [here]
      exact mem_append_left _ (mem_append_right front (mem_singleton_self z))
    have apart := nodup_append.mp nodup
    have not_front : z ∉ front := fun mem =>
      (nodup_append.mp apart.1).2.2 z mem z (mem_singleton_self z) rfl
    have not_after : z ∉ after := fun mem =>
      apart.2.2 z (mem_append_right front (mem_singleton_self z)) z (mem_cons_of_mem id mem) rfl
    have linked := pool.linked p
    rw [head, here, append_assoc] at linked
    obtain ⟨middle, first, rfl, -⟩ := linked_append.mp linked
    generalize written : container.setEntry z
      { container.storage z with nextEntry := (container.storage id).nextEntry } = container'
    have others (e : Nat) (other : e ≠ z) : container'.storage e = container.storage e := by
      rw [← written, storage_setEntry_of_ne other]
    have first' : Linked container'.next (some start) front (some z) := by
      refine first.congr fun e in_front => next_congr (others e ?_)
      rintro rfl
      exact not_front in_front
    have rest' : Linked container'.next after.head? after none := by
      refine rest.congr fun e in_after => next_congr (others e ?_)
      rintro rfl
      exact not_after in_after
    have at_z : container'.next z = after.head? := by
      rw [← written, next_setEntry_self, ← next]
      rfl
    have new_head : (front ++ [z] ++ after).head? = some start := by
      rw [here, append_assoc] at head
      rw [append_assoc, ← head]
      cases front <;> rfl
    refine ⟨container', start, ?_, ?_, ?_, ?_, ?_⟩
    · have last : (front ++ [z]).getLast? = some z := by simp
      rw [last, MultiAddressContainer.unlink, entry_of (pool.inside p z mem), ok_bind, written]
      rfl
    · refine pool.rechain (by rw [← written]; rfl) (by rw [← written]; rfl)
        (fun e other _ => others e ?_) ?_ moved gone
      · rintro rfl
        exact other mem
      · rw [new_head, append_assoc]
        exact linked_append.mpr ⟨some z, first', rfl, at_z ▸ rest'⟩
    · intro e
      by_cases here : e = z
      · rw [value, value, here, ← written, storage_setEntry_self]
      · rw [value, value, others e here]
    · rw [← written]
      rfl
    · have some_start : start ≠ 0 := by
        have inside := pool.inside p start (mem_of_mem_head? head)
        exact ne_of_gt inside.1
      rw [new_head, if_neg some_start]

/-- An entry with a value leaves its list and is free. -/
theorem unregister {start v : Nat} (here : chains p = before ++ id :: after)
    (head : (chains p).head? = some start) (others : ∀ e ∈ before, container.value e ≠ v)
    (found : container.value id = v) :
    ∃ result, container.unregister v start = .ok result ∧
      Pool result.container (update chains p (before ++ after)) none ∧
      (∀ e, result.container.value e = container.value e) ∧ result.container.size = container.size ∧
      result.moreThanOneRemaining = decide (1 < (before ++ after).length) ∧
      (before ++ after).head? = if result.resultStart = 0 then none
      else some result.resultStart := by
  have linked := pool.linked p
  have inside := pool.inside p
  have length := pool.length_le p
  rw [head, here] at linked
  rw [here] at inside length
  rw [length_append, length_cons] at length
  have find : container.findLoop v container.size start none 0 =
    .ok (id, before.getLast?.or none, 0 + before.length) :=
    findLoop_eq linked inside others found (le_trans (le_add_right _ _) length)
  rw [Option.or_none, zero_add] at find
  obtain ⟨container', resultStart, run, pool', values, size, start_eq⟩ := pool.unlink here head
  refine ⟨⟨{ container' with freeEntries := container'.freeEntries ++ [id] },
    (decide (1 < after.length) || decide (after ≠ []) && before.getLast?.isSome) ||
    decide (1 < before.length), resultStart⟩, ?_, pool'.release, values, size, ?_, start_eq⟩
  · rw [MultiAddressContainer.unregister, find, ok_bind]
    dsimp only
    rw [entry_of (inside id (mem_append_right before mem_cons_self)), ok_bind,
      pool.moreThanOne_eq here, ok_bind, run]
    rfl
  · rw [Bool.eq_iff_iff]
    simp only [Bool.or_eq_true, Bool.and_eq_true, decide_eq_true_eq, length_append, getLast?_isSome,
      ← length_pos_iff]
    omega

/-- A list of one entry is given up. -/
theorem releaseEntry (single : chains p = [id]) :
    ∃ container', container.releaseEntry id = .ok (container.value id, container') ∧
      Pool container' (update chains p []) none ∧ container'.storage = container.storage ∧
      container'.size = container.size := by
  have mem : id ∈ chains p := single ▸ mem_singleton_self id
  refine ⟨{ container with freeEntries := container.freeEntries ++ [id] }, ?_, ?_, rfl, rfl⟩
  · rw [MultiAddressContainer.releaseEntry, entry_of (pool.inside p id mem)]
    rfl
  · refine Pool.release (pool.rechain rfl rfl (fun _ _ _ => rfl) rfl (fun e => ?_) fun e _ =>
      not_mem_nil)
    rw [single, mem_singleton]
    simp [eq_comm]

end

end Pool

end MultiAddressContainer

end SumiEmu.Core
