/-
# Ordered maps

A map keeps its entries in the order of their keys. It is read and changed at a key, and it finds
the last entry whose key is not behind a given one.
-/

import Mathlib.Order.Lattice

namespace SumiEmu.Foundations

open List

universe u v

/-- The entries have different keys, in ascending order. -/
structure OrderedMap (κ : Type u) (β : Type v) [LinearOrder κ] where
  entries : List (κ × β)
  ascending : entries.Pairwise fun entry next => entry.1 < next.1

namespace OrderedMap

variable {κ : Type u} {β : Type v} [LinearOrder κ]

/-- The map without entries. -/
def empty : OrderedMap κ β := ⟨[], List.Pairwise.nil⟩

variable (m : OrderedMap κ β)

/-- The value at a key. -/
def get? (key : κ) : Option β :=
  (m.entries.find? fun entry => entry.1 = key).map Prod.snd

/-- The value at a key is set, whether there has been one or not. -/
def insert (key : κ) (value : β) : OrderedMap κ β where
  entries := m.entries.filter (fun entry => entry.1 < key) ++
    (key, value) :: m.entries.filter (fun entry => key < entry.1)
  ascending := by
    refine pairwise_append.mpr ⟨m.ascending.filter _,
      pairwise_cons.mpr ⟨fun next member => ?_, m.ascending.filter _⟩,
      fun entry member next member' => ?_⟩
    · exact of_decide_eq_true (mem_filter.mp member).2
    · have before : entry.1 < key := of_decide_eq_true (mem_filter.mp member).2
      rcases mem_cons.mp member' with rfl | member'
      · exact before
      · exact before.trans (of_decide_eq_true (mem_filter.mp member').2)

/-- A key is removed. -/
def erase (key : κ) : OrderedMap κ β :=
  ⟨m.entries.filter fun entry => entry.1 ≠ key, m.ascending.filter _⟩

/-- The last entry whose key is at most a given one. -/
def floor? (key : κ) : Option (κ × β) := (m.entries.filter fun entry => entry.1 ≤ key).getLast?

variable {m : OrderedMap κ β} {key key' : κ} {value : β}

/-- Entries with the same key are the same. -/
theorem eq_of_key_eq {entry next : κ × β} (member : entry ∈ m.entries) (member' : next ∈ m.entries)
    (same : entry.1 = next.1) : entry = next := by
  have ordered : m.entries.Pairwise fun entry next => entry.1 = next.1 → entry = next :=
    m.ascending.imp fun before same => absurd same before.ne
  have flipped : m.entries.Pairwise fun next entry => entry.1 = next.1 → entry = next :=
    m.ascending.imp fun before same => absurd same before.ne'
  exact List.Pairwise.forall_of_forall_of_flip (fun _ _ _ => rfl) ordered flipped member member'
    same

theorem get?_eq_some : m.get? key = some value ↔ (key, value) ∈ m.entries := by
  rw [get?, Option.map_eq_some_iff]
  constructor
  · rintro ⟨entry, read, rfl⟩
    have same : entry.1 = key := by simpa using List.find?_some read
    subst same
    exact mem_of_find?_eq_some read
  · intro member
    obtain ⟨entry, read⟩ : ∃ entry, (m.entries.find? fun entry => entry.1 = key) = some entry := by
      refine Option.isSome_iff_exists.mp (List.find?_isSome.mpr ⟨_, member, ?_⟩)
      exact decide_eq_true rfl
    have same : entry.1 = key := by simpa using List.find?_some read
    exact ⟨entry, read, congrArg Prod.snd (eq_of_key_eq (mem_of_find?_eq_some read) member same)⟩

theorem get?_empty : (empty : OrderedMap κ β).get? key = none := rfl

theorem get?_insert : (m.insert key value).get? key' = if key' = key then some value
    else m.get? key' := by
  ext value'
  rw [get?_eq_some, insert, mem_append, mem_cons, mem_filter, mem_filter,
    Prod.mk.injEq, decide_eq_true_iff, decide_eq_true_iff]
  by_cases same : key' = key
  · rw [if_pos same, Option.some.injEq]
    constructor
    · rintro (⟨-, before⟩ | ⟨-, rfl⟩ | ⟨-, behind⟩)
      · exact absurd same before.ne
      · rfl
      · exact absurd same behind.ne'
    · rintro rfl
      exact .inr (.inl ⟨same, rfl⟩)
  · rw [if_neg same, get?_eq_some]
    constructor
    · rintro (⟨member, -⟩ | ⟨equal, -⟩ | ⟨member, -⟩)
      · exact member
      · exact absurd equal same
      · exact member
    · intro member
      rcases lt_or_gt_of_ne same with before | behind
      · exact .inl ⟨member, before⟩
      · exact .inr (.inr ⟨member, behind⟩)

theorem get?_erase : (m.erase key).get? key' = if key' = key then none else m.get? key' := by
  ext value'
  rw [get?_eq_some, erase, mem_filter, decide_eq_true_iff]
  by_cases same : key' = key
  · rw [if_pos same]
    exact iff_of_false (fun both => both.2 same) (by simp)
  · rw [if_neg same, get?_eq_some]
    exact and_iff_left same

/-- An entry is found when there is none between it and the key. -/
theorem floor?_eq_some (here : m.get? key' = some value) (before : key' ≤ key)
    (between : ∀ other, key' < other → other ≤ key → m.get? other = none) :
    m.floor? key = some (key', value) := by
  have inside : (key', value) ∈ m.entries.filter fun entry => entry.1 ≤ key :=
    mem_filter.mpr ⟨get?_eq_some.mp here, decide_eq_true before⟩
  obtain ⟨⟨last, value'⟩, found⟩ := Option.isSome_iff_exists.mp
    (List.getLast?_isSome.mpr (ne_nil_of_mem inside))
  obtain ⟨front, whole⟩ := List.getLast?_eq_some_iff.mp found
  obtain ⟨member, reached⟩ := mem_filter.mp (mem_of_getLast? found)
  have upper : key' ≤ last := by
    rw [whole] at inside
    rcases mem_append.mp inside with first | isLast
    · have ordered := m.ascending.filter fun entry => decide (entry.1 ≤ key)
      rw [whole] at ordered
      exact ((pairwise_append.mp ordered).2.2 _ first _ (mem_singleton_self _)).le
    · exact (congrArg Prod.fst (mem_singleton.mp isLast)).le
  have same : last = key' := by
    by_contra differ
    have none := between last (lt_of_le_of_ne upper (Ne.symm differ)) (of_decide_eq_true reached)
    rw [get?_eq_some.mpr member] at none
    cases none
  subst same
  rw [floor?, found]
  exact congrArg some (eq_of_key_eq member (get?_eq_some.mp here) rfl)

end OrderedMap

end SumiEmu.Foundations
