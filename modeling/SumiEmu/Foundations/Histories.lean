/-
# Histories

A history is a list of happenings with the newest one first, so that what came before a
happening is the rest of the list behind it: `h :: before` is a suffix of the history. A law
says of every happening what must have been the case before it, and a history is lawful when
each of its happenings obeys.
-/

import Mathlib.Tactic.Cases

namespace SumiEmu.Histories

open List

variable {α : Type*} {P : α → Prop} {h : α} {log before : List α}

/-- Something of a kind has happened. -/
def Occurred (P : α → Prop) (log : List α) : Prop := ∃ h ∈ log, P h

@[simp]
theorem not_occurred_nil (P : α → Prop) : ¬ Occurred P [] := fun ⟨_, absurdity, _⟩ => by
    cases absurdity

@[simp]
theorem occurred_cons : Occurred P (h :: log) ↔ P h ∨ Occurred P log := by
  simp only [Occurred, mem_cons, or_and_right, exists_or, exists_eq_left]

/-- What has happened stays so. -/
theorem Occurred.of_suffix (occurred : Occurred P before) (earlier : before <:+ log) :
    Occurred P log :=
  occurred.imp fun _ ⟨member, kind⟩ => ⟨earlier.subset member, kind⟩

/-- What has happened did so at some place of the history. -/
theorem Occurred.exists_suffix (occurred : Occurred P log) :
    ∃ h before, h :: before <:+ log ∧ P h := by
  obtain ⟨h, member, kind⟩ := occurred
  obtain ⟨after, before, rfl⟩ := append_of_mem member
  exact ⟨h, before, suffix_append after (h :: before), kind⟩

theorem occurred_of_suffix (place : h :: before <:+ log) (kind : P h) : Occurred P log :=
  ⟨h, place.subset mem_cons_self, kind⟩

/-- Of two happenings of different kinds one is the earlier one. -/
theorem earlier_or_later {h' : α} {before' : List α} (place : h :: before <:+ log)
    (place' : h' :: before' <:+ log) (different : h ≠ h') :
    h :: before <:+ before' ∨ h' :: before' <:+ before := by
  rcases suffix_or_suffix_of_suffix place place' with nested | nested
  · rcases suffix_cons_iff.mp nested with same | earlier
    · exact absurd (List.cons.inj same).1 different
    · exact Or.inl earlier
  · rcases suffix_cons_iff.mp nested with same | earlier
    · exact absurd (List.cons.inj same).1.symm different
    · exact Or.inr earlier

theorem suffix_of_cons (place : h :: before <:+ log) : before <:+ log :=
  (suffix_cons h before).trans place

/-- Every happening obeys the law. -/
def Lawful (law : α → List α → Prop) (log : List α) : Prop :=
  ∀ h before, h :: before <:+ log → law h before

variable {law : α → List α → Prop}

theorem lawful_nil : Lawful law [] := fun _ _ place => by cases suffix_nil.mp place

/-- The newest happening has the whole history before it. -/
theorem Lawful.cons (lawful : Lawful law log) (obeys : law h log) : Lawful law (h :: log) := by
  intro h' before place
  rcases suffix_cons_iff.mp place with same | earlier
  · obtain ⟨rfl, rfl⟩ := List.cons.inj same
    exact obeys
  · exact lawful h' before earlier

end SumiEmu.Histories
