/-
# Computations that may fail

A fallible function returns in `Except`. These are the rules by which a
sequence of such calls is taken apart.
-/

import Mathlib.Data.List.Forall2

namespace SumiEmu.Fallible

universe v

variable {ε : Type*} {α β : Type v}

@[simp] theorem pure_eq_ok (a : α) : (pure a : Except ε α) = .ok a := rfl

@[simp] theorem ok_bind (a : α) (f : α → Except ε β) : (Except.ok a >>= f) = f a := rfl

@[simp] theorem error_bind (fault : ε) (f : α → Except ε β) :
    (Except.error fault >>= f) = .error fault := rfl

/-- A sequence succeeds when both its parts do. -/
theorem bind_eq_ok {x : Except ε α} {f : α → Except ε β} {b : β} :
    x >>= f = .ok b ↔ ∃ a, x = .ok a ∧ f a = .ok b := by
  cases x <;> simp

/-! ## Agreement of two computations -/

/-- Two computations agree when both succeed with related results, or both fail alike. -/
inductive Agree {α β : Type*} (related : α → β → Prop) : Except ε α → Except ε β → Prop
  | ok {a : α} {b : β} (both : related a b) : Agree related (.ok a) (.ok b)
  | error (fault : ε) : Agree related (.error fault) (.error fault)

theorem Agree.refl (x : Except ε α) : Agree (· = ·) x x := by
  cases x with
  | ok a => exact .ok rfl
  | error fault => exact .error fault

theorem Agree.bind {α' β' : Type v} {related : α → β → Prop} {related' : α' → β' → Prop}
    {x : Except ε α} {y : Except ε β} {f : α → Except ε α'} {g : β → Except ε β'}
    (first : Agree related x y)
    (second : ∀ a b, x = .ok a → related a b → Agree related' (f a) (g b)) :
    Agree related' (x >>= f) (y >>= g) := by
  cases first with
  | ok both => exact second _ _ rfl both
  | error fault => exact .error fault

/-- The second computation may go on when the first is done. -/
theorem Agree.bind_right {α : Type*} {β' : Type v} {related : α → β → Prop}
    {related' : α → β' → Prop} {x : Except ε α} {y : Except ε β} {g : β → Except ε β'}
    (first : Agree related x y)
    (second : ∀ a b, x = .ok a → related a b → Agree related' (.ok a) (g b)) :
    Agree related' x (y >>= g) := by
  cases first with
  | ok both => exact second _ _ rfl both
  | error fault => exact .error fault

section Agree

variable {α β : Type*} {related : α → β → Prop} {x : Except ε α} {y : Except ε β}

section

variable (agree : Agree related x y)

include agree

theorem Agree.mono {related' : α → β → Prop} (weaker : ∀ a b, related a b → related' a b) :
    Agree related' x y := by
  cases agree with
  | ok both => exact .ok (weaker _ _ both)
  | error fault => exact .error fault

theorem Agree.eq_error_iff {fault : ε} :
    x = .error fault ↔ y = .error fault := by
  cases agree with
  | ok both => simp
  | error other => simp

theorem Agree.of_right_ok {b : β} (done : y = .ok b) :
    ∃ a, x = .ok a ∧ related a b := by
  cases agree with
  | ok both =>
    obtain rfl := Except.ok.inj done
    exact ⟨_, rfl, both⟩
  | error other => cases done

theorem Agree.of_left_ok {a : α} (done : x = .ok a) :
    ∃ b, y = .ok b ∧ related a b := by
  cases agree with
  | ok both =>
    obtain rfl := Except.ok.inj done
    exact ⟨_, rfl, both⟩
  | error other => cases done

end

end Agree

/-! ## Calls along a list -/

/-- The results of calls along a list stand where their arguments do. -/
theorem mapM_eq_ok {f : α → Except ε β} {xs : List α} {ys : List β} (done : xs.mapM f = .ok ys) :
    List.Forall₂ (fun x y => f x = .ok y) xs ys := by
  induction xs generalizing ys with
  | nil =>
    obtain rfl := Except.ok.inj done
    exact .nil
  | cons x xs ih =>
    rw [List.mapM_cons] at done
    obtain ⟨first, head, rest⟩ := bind_eq_ok.1 done
    obtain ⟨others, tail, whole⟩ := bind_eq_ok.1 rest
    obtain rfl := Except.ok.inj whole
    exact .cons head (ih tail)

/-- Every result comes from an argument. -/
theorem exists_of_mem_mapM {f : α → Except ε β} {xs : List α} {ys : List β}
    (done : xs.mapM f = .ok ys) {y : β} (member : y ∈ ys) : ∃ x ∈ xs, f x = .ok y := by
  have pairs := mapM_eq_ok done
  obtain ⟨i, inside, rfl⟩ := List.getElem_of_mem member
  have inside' : i < xs.length := by rwa [pairs.length_eq]
  exact ⟨xs[i], List.getElem_mem inside', pairs.get inside' inside⟩

end SumiEmu.Fallible
