/-
# Machines that emit as they read

A transducer reads a list one letter at a time, changes its state and emits
outputs. What it emits does not depend on how the list is cut. A machine that
simulates another letter by letter emits the same.
-/

import Mathlib.Data.List.Basic

namespace SumiEmu.Transducer

variable {σ τ α β : Type*}

/-- The state after a list, and everything that was emitted on the way. -/
def run (step : σ → α → σ × List β) : σ → List α → σ × List β
  | s, [] => (s, [])
  | s, a :: l =>
    let first := step s a
    let rest := run step first.1 l
    (rest.1, first.2 ++ rest.2)

variable {step : σ → α → σ × List β}

@[simp] theorem run_nil (s : σ) : run step s [] = (s, []) := rfl

theorem run_cons (s : σ) (a : α) (l : List α) :
    run step s (a :: l) =
      ((run step (step s a).1 l).1, (step s a).2 ++ (run step (step s a).1 l).2) := rfl

theorem run_append (s : σ) (l l' : List α) :
    run step s (l ++ l') =
      ((run step (run step s l).1 l').1, (run step s l).2 ++ (run step (run step s l).1 l').2) := by
  induction l generalizing s with
  | nil => rfl
  | cons a l ih => rw [List.cons_append, run_cons, ih, run_cons, List.append_assoc]

/-- A machine whose states are images of the states of another, step by step, emits the same. -/
theorem run_simulates {step' : τ → α → τ × List β} (image : σ → τ)
    (simulates : ∀ s a, step' (image s) a = (image (step s a).1, (step s a).2)) (s : σ)
    (l : List α) : run step' (image s) l = (image (run step s l).1, (run step s l).2) := by
  induction l generalizing s with
  | nil => rfl
  | cons a l ih => rw [run_cons, simulates, ih, run_cons]

end SumiEmu.Transducer
