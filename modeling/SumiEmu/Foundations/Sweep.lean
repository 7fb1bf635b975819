/-
# Sweeping over aligned units

A range is cut at the multiples of a unit and the pieces are handled in ascending
order, each through its offsets in its own unit. Whatever one piece does at its
cursor, the sweep does from the first unit to the last. When a piece changes just the
positions that it selects, the sweep changes just the positions of the range, each
once.
-/

import Mathlib.Tactic.Cases

namespace SumiEmu

variable {γ σ β : Type*}

/-- The pieces from unit `i` to unit `last`: each stands for one unit and selects the
positions of the unit that are in the range. -/
inductive Sweep (unit lo hi : Nat) (index : γ → Nat) (selects : γ → Nat → Prop) :
    Nat → List γ → Nat → Prop
  | done (i : Nat) : Sweep unit lo hi index selects i [] i
  | piece {g : γ} {i last : Nat} {rest : List γ} (here : index g = i)
      (selected : ∀ x < unit, selects g x ↔ lo ≤ i * unit + x ∧ i * unit + x < hi)
      (later : Sweep unit lo hi index selects (i + 1) rest last) :
      Sweep unit lo hi index selects i (g :: rest) last

variable {unit lo hi first last : Nat} {index : γ → Nat} {selects : γ → Nat → Prop} {l : List γ}

section

variable (sweep : Sweep unit lo hi index selects first l last)

include sweep

theorem Sweep.first_le : first ≤ last := by
  induction sweep with
  | done i => exact Nat.le_refl i
  | piece _ _ _ ih => exact Nat.le_trans (Nat.le_succ _) ih

/-- What each piece carries over one unit, the sweep carries to the end. -/
theorem Sweep.foldl {f : σ → γ → σ} {I : Nat → σ → Prop} (step : ∀ g ∈ l, ∀ s, index g < last →
      (∀ x < unit, selects g x ↔ lo ≤ index g * unit + x ∧ index g * unit + x < hi) →
      I (index g) s → I (index g + 1) (f s g)) {s : σ} (start : I first s) :
    I last (l.foldl f s) := by
  induction sweep generalizing s with
  | done i => exact start
  | piece here selected later ih =>
    subst here
    exact ih (fun g member => step g (List.mem_cons_of_mem _ member))
      (step _ List.mem_cons_self s later.first_le selected start)

/-- The same sweep, counted from another unit on. -/
theorem Sweep.shift (k : Nat) :
    Sweep unit (k * unit + lo) (k * unit + hi) (fun g => k + index g) selects (k + first) l
      (k + last) := by
  induction sweep with
  | done i => exact .done _
  | piece here selected _ ih =>
    refine .piece (congrArg (k + ·) here) (fun x inside => ?_) ih
    rw [selected x inside, Nat.add_mul, Nat.add_assoc, Nat.add_le_add_iff_left,
      Nat.add_lt_add_iff_left]

/-- The same pieces, each taken for the whole of its unit. -/
theorem Sweep.whole :
    Sweep unit (first * unit) (last * unit) index (fun _ _ => True) first l last := by
  suffices whole : ∀ bottom, bottom ≤ first * unit →
      Sweep unit bottom (last * unit) index (fun _ _ => True) first l last
      from whole _ (Nat.le_refl _)
  induction sweep with
  | done i => exact fun _ _ => .done i
  | piece here selected later ih =>
    rename_i i last rest
    intro bottom low
    have one : (i + 1) * unit ≤ last * unit := Nat.mul_le_mul_right unit later.first_le
    rw [Nat.add_one_mul] at one
    refine .piece here (fun x inside => iff_of_true trivial (by omega)) (ih bottom ?_)
    rw [Nat.add_one_mul]
    omega

end

/-- The whole of consecutive units. -/
theorem sweep_range' {hi : Nat} (i n : Nat) (upper : (i + n) * unit ≤ hi) :
    Sweep unit 0 hi id (fun _ _ => True) i (List.range' i n) (i + n) := by
  induction n generalizing i with
  | zero => exact .done i
  | succ n ih =>
    have one : (i + 1) * unit ≤ (i + (n + 1)) * unit := Nat.mul_le_mul_right unit (by omega)
    rw [Nat.add_one_mul] at one
    refine .piece rfl (fun x inside => ?_) ?_
    · exact iff_of_true trivial ⟨Nat.zero_le _, by omega⟩
    · rw [← Nat.add_assoc, Nat.add_right_comm] at upper ⊢
      exact ih (i + 1) upper

/-- A position in the range is selected by the piece of its unit. -/
theorem Sweep.exists_piece (sweep : Sweep unit lo hi index selects first l last)
    (positive : 0 < unit)
    {q : Nat} (lower : first ≤ q / unit) (upper : q / unit < last) (inside : lo ≤ q ∧ q < hi) :
    ∃ g ∈ l, index g = q / unit ∧ selects g (q % unit) := by
  induction sweep with
  | done i => omega
  | piece here selected later ih =>
    rename_i g i last rest
    by_cases same : i = q / unit
    · refine ⟨g, List.mem_cons_self, here.trans same, (selected _ (Nat.mod_lt q positive)).mpr ?_⟩
      rwa [same, Nat.mul_comm, Nat.div_add_mod]
    · obtain ⟨g', member, found⟩ := ih (by omega) upper
      exact ⟨g', List.mem_cons_of_mem _ member, found⟩

/-- What a piece selects is in the range. -/
theorem Sweep.of_mem (sweep : Sweep unit lo hi index selects first l last) {g : γ} (member : g ∈ l)
    {x : Nat} (small : x < unit) (selected : selects g x) :
    lo ≤ index g * unit + x ∧ index g * unit + x < hi := by
  induction sweep with
  | done i => cases member
  | piece here chosen later ih =>
    rcases List.mem_cons.mp member with rfl | member
    · rw [here]
      exact (chosen x small).mp selected
    · exact ih member

/-- The values at the given positions are changed, the others are kept. -/
structure Pointwise (T : Nat → Prop) (G : β → β) (v v' : Nat → β) : Prop where
  hit : ∀ i, T i → v' i = G (v i)
  miss : ∀ i, ¬ T i → v' i = v i

namespace Pointwise

variable {T T' : Nat → Prop} {G : β → β} {v v' v'' : Nat → β}

theorem none (empty : ∀ i, ¬ T i) : Pointwise T G v v where
  hit i chosen := absurd chosen (empty i)
  miss _ _ := rfl

section

variable (change : Pointwise T G v v')

include change

theorem congr (same : ∀ i, T i ↔ T' i) : Pointwise T' G v v' where
  hit i chosen := change.hit i ((same i).mpr chosen)
  miss i other := change.miss i (mt (same i).mp other)

/-- Two changes at different positions are one change. -/
theorem trans (next : Pointwise T' G v' v'')
    (disjoint : ∀ i, T i → ¬ T' i) : Pointwise (fun i => T i ∨ T' i) G v v'' where
  hit i chosen := by
    rcases chosen with chosen | chosen
    · rw [next.miss i (disjoint i chosen), change.hit i chosen]
    · rw [next.hit i chosen, change.miss i fun also => disjoint i also chosen]
  miss i other := by
    rw [next.miss i (other ∘ Or.inr), change.miss i (other ∘ Or.inl)]

/-- A change that does nothing elsewhere may be taken to be made everywhere. -/
theorem everywhere (fixed : ∀ i, ¬ T i → G (v i) = v i) :
    ∀ i, v' i = G (v i) := by
  intro i
  by_cases chosen : T i
  · exact change.hit i chosen
  · rw [change.miss i chosen, fixed i chosen]

theorem eq_ite [DecidablePred T] (i : Nat) :
    v' i = if T i then G (v i) else v i := by
  by_cases chosen : T i
  · rw [if_pos chosen, change.hit i chosen]
  · rw [if_neg chosen, change.miss i chosen]

end

end Pointwise

/-- When each piece changes what it selects, the sweep changes the range. -/
theorem Sweep.pointwise (sweep : Sweep unit lo hi index selects first l last) (positive : 0 < unit)
    (lower : first * unit ≤ lo) (upper : hi ≤ last * unit)
    {f : σ → γ → σ} {G : β → β} (Inv : σ → Prop) (view : σ → Nat → β)
    (step : ∀ g ∈ l, ∀ s, index g < last → Inv s → Inv (f s g) ∧
      Pointwise (fun q => q / unit = index g ∧ selects g (q % unit)) G (view s) (view (f s g)))
    {s : σ} (inv : Inv s) :
    Inv (l.foldl f s) ∧ Pointwise (fun q => lo ≤ q ∧ q < hi) G (view s) (view (l.foldl f s)) := by
  -- up to a cursor, just the positions of the range before it are changed
  have swept := sweep.foldl
    (I := fun i s' => Inv s' ∧ Pointwise (fun q => q / unit < i ∧ lo ≤ q ∧ q < hi) G (view s)
    (view s'))
    (f := f) (fun g member s' bounded selected known => ?_)
    (s := s) ⟨inv, Pointwise.none fun q chosen => ?_⟩
  · refine ⟨swept.1, swept.2.congr fun q => and_iff_right_of_imp fun inside => ?_⟩
    exact Nat.div_lt_of_lt_mul (Nat.mul_comm unit last ▸ Nat.lt_of_lt_of_le inside.2 upper)
  · obtain ⟨kept, change⟩ := step g member s' bounded known.1
    refine ⟨kept, (known.2.trans change fun q chosen here => ?_).congr fun q => ?_⟩
    · omega
    · have here : q / unit = index g → (selects g (q % unit) ↔ lo ≤ q ∧ q < hi) := fun same => by
        rw [selected _ (Nat.mod_lt q positive), ← same, Nat.mul_comm, Nat.div_add_mod]
      rw [Nat.lt_succ_iff_lt_or_eq, or_and_right]
      exact or_congr_right (and_congr_right here)
  · have below := Nat.lt_mul_of_div_lt chosen.1 positive
    omega

end SumiEmu
