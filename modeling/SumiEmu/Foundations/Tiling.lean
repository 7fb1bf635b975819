/-
# Tilings of an interval by pieces

A list of pieces tiles an interval of naturals when the pieces, in order,
cover it without gap or overlap. A piece carries a value, which holds at every
point it covers, and two marks, one for each of its ends. A tiling therefore
denotes three functions: the value at a point, the mark of a piece that starts
at a point, and the mark of a piece that ends there.

Cutting a piece in two, or joining two neighbours again, changes the list but
none of the three functions, provided the marks at the cut are zero. A tiling
in which every two neighbours are told apart by their values or by the marks
between them is the only one with its denotation.
-/

import Mathlib.Data.List.Chain
import Mathlib.Algebra.Notation.Defs

namespace SumiEmu.Tiling

open List

variable {α β γ δ : Type*}

section Cover

variable (lo hi : α → Nat)

/-- The pieces of the list, in order, tile the interval from `s` to `e`. -/
def Tiles : Nat → List α → Nat → Prop
  | s, [], e => s = e
  | s, a :: l, e => lo a = s ∧ s < hi a ∧ Tiles (hi a) l e

/-- The value of the piece that covers a point. -/
def valueAt (value : α → β) : List α → Nat → Option β
  | [], _ => none
  | a :: l, x => if lo a ≤ x ∧ x < hi a then some (value a) else valueAt value l x

variable {lo hi}
variable {s e : Nat}

@[simp] theorem tiles_nil : Tiles lo hi s [] e ↔ s = e := Iff.rfl

variable {l : List α}
variable {a : α}

@[simp] theorem tiles_cons :
    Tiles lo hi s (a :: l) e ↔ lo a = s ∧ s < hi a ∧ Tiles lo hi (hi a) l e := Iff.rfl

theorem tiles_append {l₁ l₂ : List α} :
    Tiles lo hi s (l₁ ++ l₂) e ↔ ∃ m, Tiles lo hi s l₁ m ∧ Tiles lo hi m l₂ e := by
  induction l₁ generalizing s with
  | nil => simp
  | cons a l₁ ih => simp [ih, and_assoc]

theorem Tiles.le (tiles : Tiles lo hi s l e) : s ≤ e := by
  induction l generalizing s with
  | nil => exact (tiles_nil.mp tiles).le
  | cons a l ih => exact tiles.2.1.le.trans (ih tiles.2.2)

/-- Every piece of a tiling is nonempty and lies inside the interval. -/
theorem Tiles.bounds (tiles : Tiles lo hi s l e)
    (member : a ∈ l) : s ≤ lo a ∧ lo a < hi a ∧ hi a ≤ e := by
  induction l generalizing s with
  | nil => simp at member
  | cons b l ih =>
    obtain ⟨rfl, proper, rest⟩ := tiles
    rcases mem_cons.mp member with rfl | member
    · exact ⟨le_rfl, proper, rest.le⟩
    · obtain ⟨lower, inner, upper⟩ := ih rest member
      exact ⟨proper.le.trans lower, inner, upper⟩

theorem Tiles.map (f : α → α) (tiles : Tiles lo hi s l e)
    (keeps : ∀ a ∈ l, lo (f a) = lo a ∧ hi (f a) = hi a) : Tiles lo hi s (l.map f) e := by
  induction l generalizing s with
  | nil => exact tiles
  | cons a l ih =>
    obtain ⟨start, proper, rest⟩ := tiles
    obtain ⟨keepsLo, keepsHi⟩ := keeps a mem_cons_self
    have restMapped := ih rest fun b member => keeps b (mem_cons_of_mem _ member)
    exact ⟨keepsLo.trans start, by rwa [keepsHi], by rwa [keepsHi]⟩

/-- A piece of a tiling splits the list around it. -/
theorem Tiles.exists_cover {s e x : Nat} (tiles : Tiles lo hi s l e)
    (lower : s ≤ x) (upper : x < e) :
    ∃ l₁ a l₂, l = l₁ ++ a :: l₂ ∧ lo a ≤ x ∧ x < hi a ∧ ∀ b ∈ l₁, hi b ≤ x := by
  induction l generalizing s with
  | nil => exact absurd (lower.trans_lt upper) (by simp [tiles_nil.mp tiles])
  | cons a l ih =>
    obtain ⟨rfl, proper, rest⟩ := tiles
    by_cases inside : x < hi a
    · exact ⟨[], a, l, rfl, lower, inside, by simp⟩
    · obtain ⟨l₁, b, l₂, rfl, start, stop, before⟩ := ih rest (not_lt.mp inside)
      refine ⟨a :: l₁, b, l₂, rfl, start, stop, ?_⟩
      simpa using ⟨not_lt.mp inside, before⟩

@[simp] theorem valueAt_nil (value : α → β) (x : Nat) :
    valueAt lo hi value [] x = none := rfl

theorem valueAt_cons (value : α → β) (a : α) (l : List α) (x : Nat) :
    valueAt lo hi value (a :: l) x =
      if lo a ≤ x ∧ x < hi a then some (value a) else valueAt lo hi value l x := rfl

variable {value : α → β}

theorem valueAt_cons_inside {x : Nat}
    (lower : lo a ≤ x) (upper : x < hi a) : valueAt lo hi value (a :: l) x = some (value a) :=
  if_pos ⟨lower, upper⟩

theorem valueAt_cons_after {x : Nat} (after : hi a ≤ x) :
    valueAt lo hi value (a :: l) x = valueAt lo hi value l x :=
  if_neg fun covers => absurd covers.2 (not_lt.mpr after)

/-- A tiling has a value at exactly the points of its interval. -/
theorem Tiles.valueAt_isSome_iff (value : α → β) (tiles : Tiles lo hi s l e) (x : Nat) :
    (valueAt lo hi value l x).isSome ↔ s ≤ x ∧ x < e := by
  induction l generalizing s with
  | nil => simp only [tiles_nil] at tiles; simp; omega
  | cons a l ih =>
    obtain ⟨rfl, proper, rest⟩ := tiles
    have upper := rest.le
    rw [valueAt_cons]
    split
    · simp; omega
    · rw [ih rest]; omega

theorem Tiles.valueAt_of_mem {s e x : Nat} (value : α → β)
    (tiles : Tiles lo hi s l e) (member : a ∈ l) (lower : lo a ≤ x) (upper : x < hi a) :
    valueAt lo hi value l x = some (value a) := by
  induction l generalizing s with
  | nil => simp at member
  | cons b l ih =>
    rcases mem_cons.mp member with rfl | member
    · exact valueAt_cons_inside lower upper
    · have := (tiles.2.2.bounds member).1
      rw [valueAt_cons_after (by omega), ih tiles.2.2 member]

/-- Replacing every piece by one over the same interval acts pointwise. -/
theorem valueAt_map (f : α → α) (effect : Nat → β → β)
    (keeps : ∀ a ∈ l, lo (f a) = lo a ∧ hi (f a) = hi a) (x : Nat)
    (acts : ∀ a ∈ l, lo a ≤ x → x < hi a → value (f a) = effect x (value a)) :
    valueAt lo hi value (l.map f) x = (valueAt lo hi value l x).map (effect x) := by
  induction l with
  | nil => rfl
  | cons a l ih =>
    obtain ⟨keepsLo, keepsHi⟩ := keeps a mem_cons_self
    have rest := ih (fun b member => keeps b (mem_cons_of_mem _ member))
      fun b member => acts b (mem_cons_of_mem _ member)
    rw [map_cons, valueAt_cons, valueAt_cons, keepsLo, keepsHi, rest]
    split
    · next covers => simp [acts a mem_cons_self covers.1 covers.2]
    · rfl

end Cover

section Marks

variable [Zero γ] (pos : α → Nat) (mark : α → γ)

/-- The mark of the first piece whose end, selected by `pos`, is at a point,
and zero where there is none. -/
def markAt : List α → Nat → γ
  | [], _ => 0
  | a :: l, x => if pos a = x then mark a else markAt l x

variable {pos mark}

@[simp] theorem markAt_nil (x : Nat) : markAt pos mark [] x = 0 := rfl

theorem markAt_cons (a : α) (l : List α) (x : Nat) :
    markAt pos mark (a :: l) x = if pos a = x then mark a else markAt pos mark l x := rfl

variable {l : List α}
variable {x : Nat}

theorem markAt_cons_here {a : α} (here : pos a = x) :
    markAt pos mark (a :: l) x = mark a := if_pos here

theorem markAt_cons_elsewhere {a : α} (elsewhere : pos a ≠ x) :
    markAt pos mark (a :: l) x = markAt pos mark l x := if_neg elsewhere

theorem markAt_eq_zero (absent : ∀ a ∈ l, pos a ≠ x) :
    markAt pos mark l x = 0 := by
  induction l with
  | nil => rfl
  | cons a l ih =>
    rw [markAt_cons, if_neg (absent a mem_cons_self),
      ih fun b member => absent b (mem_cons_of_mem _ member)]

/-- Replacing every piece by one with the same end acts pointwise on marks. -/
theorem markAt_map (f : α → α) (effect : Nat → γ → γ)
    (keeps : ∀ a ∈ l, pos (f a) = pos a) (x : Nat) (zero : effect x 0 = 0 ∨ ∃ a ∈ l, pos a = x)
    (acts : ∀ a ∈ l, pos a = x → mark (f a) = effect x (mark a)) :
    markAt pos mark (l.map f) x = effect x (markAt pos mark l x) := by
  induction l with
  | nil =>
    rcases zero with zero | ⟨a, member, -⟩
    · exact zero.symm
    · simp at member
  | cons a l ih =>
    rw [map_cons, markAt_cons, markAt_cons, keeps a mem_cons_self]
    split
    · next here => exact acts a mem_cons_self here
    · next elsewhere =>
      refine ih (fun b member => keeps b (mem_cons_of_mem _ member)) ?_
        fun b member => acts b (mem_cons_of_mem _ member)
      rcases zero with zero | ⟨b, member, here⟩
      · exact .inl zero
      · rcases mem_cons.mp member with rfl | member
        · exact absurd here elsewhere
        · exact .inr ⟨b, member, here⟩

theorem markAt_cases (pos : α → Nat) (mark : α → γ) (l : List α) (x : Nat) :
    markAt pos mark l x = 0 ∨ ∃ a ∈ l, markAt pos mark l x = mark a := by
  induction l with
  | nil => exact .inl rfl
  | cons a l ih =>
    rw [markAt_cons]
    split
    · exact .inr ⟨a, mem_cons_self, rfl⟩
    · exact ih.imp_right fun ⟨b, member, same⟩ => ⟨b, mem_cons_of_mem _ member, same⟩

variable {lo hi : α → Nat}
variable {s e : Nat}

theorem Tiles.leftAt_of_mem (left : α → γ) (tiles : Tiles lo hi s l e)
    {a : α} (member : a ∈ l) : markAt lo left l (lo a) = left a := by
  induction l generalizing s with
  | nil => simp at member
  | cons b l ih =>
    rcases mem_cons.mp member with rfl | member
    · exact markAt_cons_here rfl
    · have := (tiles.2.2.bounds member).1
      rw [markAt_cons_elsewhere (by have := tiles.1; have := tiles.2.1; omega), ih tiles.2.2 member]

theorem Tiles.rightAt_of_mem (right : α → γ) (tiles : Tiles lo hi s l e)
    {a : α} (member : a ∈ l) : markAt hi right l (hi a) = right a := by
  induction l generalizing s with
  | nil => simp at member
  | cons b l ih =>
    rcases mem_cons.mp member with rfl | member
    · exact markAt_cons_here rfl
    · have := tiles.2.2.bounds member
      rw [markAt_cons_elsewhere (by omega), ih tiles.2.2 member]

/-- What holds of the value and the left mark of every piece holds of those at
every point, if it holds of every value with no mark. -/
theorem Tiles.forall_leftAt {value : α → β} {left : α → γ}
    {P : β → γ → Prop} (tiles : Tiles lo hi s l e) (unmarked : ∀ v, P v 0)
    (all : ∀ a ∈ l, P (value a) (left a)) {v : β}
    (here : valueAt lo hi value l x = some v) : P v (markAt lo left l x) := by
  by_cases starts : ∃ a ∈ l, lo a = x
  · obtain ⟨a, member, rfl⟩ := starts
    rw [tiles.valueAt_of_mem value member le_rfl (tiles.bounds member).2.1] at here
    rw [tiles.leftAt_of_mem left member, ← Option.some.inj here]
    exact all a member
  · rw [markAt_eq_zero fun a member meet => starts ⟨a, member, meet⟩]
    exact unmarked v

/-- The same for the right mark just behind a point. -/
theorem Tiles.forall_rightAt {value : α → β} {right : α → γ}
    {P : β → γ → Prop} (tiles : Tiles lo hi s l e) (unmarked : ∀ v, P v 0)
    (all : ∀ a ∈ l, P (value a) (right a)) {v : β}
    (here : valueAt lo hi value l x = some v) : P v (markAt hi right l (x + 1)) := by
  by_cases ends : ∃ a ∈ l, hi a = x + 1
  · obtain ⟨a, member, meet⟩ := ends
    have proper := (tiles.bounds member).2.1
    rw [tiles.valueAt_of_mem value member (by omega) (by omega)] at here
    rw [← meet, tiles.rightAt_of_mem right member, ← Option.some.inj here]
    exact all a member
  · rw [markAt_eq_zero fun a member meet => ends ⟨a, member, meet⟩]
    exact unmarked v

end Marks

/-- How a piece is read: the interval it covers, the value it has there, and
the marks at its two ends. -/
structure Reading (α β γ δ : Type*) where
  lo : α → Nat
  hi : α → Nat
  value : α → β
  left : α → γ
  right : α → δ

namespace Reading

variable [Zero γ] [Zero δ] (R : Reading α β γ δ)

/-- The piece `a` is the piece `b` followed by the piece `c`: both have the
value of `a`, the outer marks are those of `a`, and the inner marks are zero. -/
structure IsCut (a b c : α) : Prop where
  lo_left : R.lo b = R.lo a
  meet : R.hi b = R.lo c
  hi_right : R.hi c = R.hi a
  proper_left : R.lo b < R.hi b
  proper_right : R.lo c < R.hi c
  value_left : R.value b = R.value a
  value_right : R.value c = R.value a
  left_outer : R.left b = R.left a
  right_inner : R.right b = 0
  left_inner : R.left c = 0
  right_outer : R.right c = R.right a

/-- One piece of the list is cut in two at a point of `S`. -/
inductive CutStep (S : Nat → Prop) : List α → List α → Prop
  | here {a b c : α} {l : List α} : R.IsCut a b c → S (R.hi b) →
      CutStep S (a :: l) (b :: c :: l)
  | cons {p : α} {l l' : List α} : CutStep S l l' → CutStep S (p :: l) (p :: l')

/-- The second list comes from the first by cuts at points of `S`. -/
abbrev Cuts (S : Nat → Prop) : List α → List α → Prop :=
  Relation.ReflTransGen (R.CutStep S)

/-- Neighbours are told apart by their values or by a mark between them. -/
def Separated (a b : α) : Prop :=
  R.value a ≠ R.value b ∨ R.right a ≠ 0 ∨ R.left b ≠ 0

/-- Neighbours are separated except possibly at points of `S`. -/
def SeparatedOff (S : Nat → Prop) : List α → Prop :=
  List.IsChain fun a b => R.Separated a b ∨ S (R.hi a)

variable {R} {S : Nat → Prop}
variable {l l' : List α}

theorem CutStep.tiles_iff (step : R.CutStep S l l') (s e : Nat) :
    Tiles R.lo R.hi s l e ↔ Tiles R.lo R.hi s l' e := by
  induction step generalizing s with
  | @here a b c l cut _ =>
    have := cut.lo_left; have := cut.meet; have := cut.hi_right
    have := cut.proper_left; have := cut.proper_right
    simp only [tiles_cons]
    rw [cut.hi_right]
    constructor
    · rintro ⟨start, proper, rest⟩
      exact ⟨by omega, by omega, by omega, by omega, rest⟩
    · rintro ⟨start, proper, -, -, rest⟩
      exact ⟨by omega, by omega, rest⟩
  | cons _ ih => simp only [tiles_cons, ih]

theorem CutStep.valueAt_eq (step : R.CutStep S l l') (x : Nat) :
    valueAt R.lo R.hi R.value l x = valueAt R.lo R.hi R.value l' x := by
  induction step with
  | @here a b c l cut _ =>
    have := cut.lo_left; have := cut.meet; have := cut.hi_right
    have := cut.proper_left; have := cut.proper_right
    simp only [valueAt_cons, cut.value_left, cut.value_right]
    split_ifs <;> first | rfl | omega
  | cons _ ih => simp only [valueAt_cons, ih]

variable {s e : Nat}

theorem CutStep.leftAt_eq (step : R.CutStep S l l') (tiles : Tiles R.lo R.hi s l e) (x : Nat) :
    markAt R.lo R.left l x = markAt R.lo R.left l' x := by
  induction step generalizing s with
  | @here a b c l cut _ =>
    have := cut.lo_left; have := cut.meet; have := cut.hi_right
    have := cut.proper_left; have := cut.proper_right
    simp only [markAt_cons, cut.left_outer, cut.left_inner]
    split_ifs with ha hb hc hc
    · rfl
    · omega
    · omega
    · omega
    · exact markAt_eq_zero fun d member => by have := tiles.2.2.bounds member; omega
    · rfl
  | cons _ ih => simp only [markAt_cons, ih tiles.2.2]

theorem CutStep.rightAt_eq (step : R.CutStep S l l') (tiles : Tiles R.lo R.hi s l e) (x : Nat) :
    markAt R.hi R.right l x = markAt R.hi R.right l' x := by
  induction step generalizing s with
  | @here a b c l cut _ =>
    have := cut.lo_left; have := cut.meet; have := cut.hi_right
    have := cut.proper_left; have := cut.proper_right
    simp only [markAt_cons, cut.right_outer, cut.right_inner]
    split_ifs with ha hb hc hc
    · omega
    · rfl
    · omega
    · exact markAt_eq_zero fun d member => by have := tiles.2.2.bounds member; omega
    · omega
    · rfl
  | cons _ ih => simp only [markAt_cons, ih tiles.2.2]

theorem Separated.congr {a a' b b' : α} (value : R.value a = R.value a')
    (right : R.right a = R.right a') (value' : R.value b = R.value b')
    (left : R.left b = R.left b') : R.Separated a b ↔ R.Separated a' b' := by
  simp only [Separated, value, right, value', left]

variable {T : Nat → Prop}

private theorem CutStep.separatedOff_cons
    (step : R.CutStep S l l') (points : ∀ x, S x → T x) (p : α)
    (separated : R.SeparatedOff T (p :: l)) : R.SeparatedOff T (p :: l') := by
  induction step generalizing p with
  | @here a b c l cut point =>
    obtain ⟨first, rest⟩ := isChain_cons_cons.mp separated
    -- the left half looks like the whole piece from before, the right half from behind
    have before := Separated.congr (R := R) (a := p) rfl rfl cut.value_left cut.left_outer
    refine .cons_cons (first.imp_left before.mpr) (.cons_cons (.inr (points _ point)) ?_)
    refine List.IsChain.cons_of_imp (fun q => ?_) rest
    rw [cut.hi_right]
    exact Or.imp_left (Separated.congr cut.value_right cut.right_outer rfl rfl).mpr
  | @cons q l l' _ ih =>
    obtain ⟨first, rest⟩ := isChain_cons_cons.mp separated
    exact .cons_cons first (ih q rest)

/-- A cut keeps a list separated off the points where cuts are made. -/
theorem CutStep.separatedOff (step : R.CutStep S l l')
    (points : ∀ x, S x → T x) (separated : R.SeparatedOff T l) : R.SeparatedOff T l' := by
  cases step with
  | @here a b c l cut point =>
    refine .cons_cons (.inr (points _ point)) (List.IsChain.cons_of_imp (fun q => ?_) separated)
    rw [cut.hi_right]
    exact Or.imp_left (Separated.congr cut.value_right cut.right_outer rfl rfl).mpr
  | @cons p l l' step => exact step.separatedOff_cons points p separated

theorem Cuts.tiles_iff (cuts : R.Cuts S l l') (s e : Nat) :
    Tiles R.lo R.hi s l e ↔ Tiles R.lo R.hi s l' e := by
  induction cuts with
  | refl => rfl
  | tail _ step ih => exact ih.trans (step.tiles_iff s e)

theorem Cuts.valueAt_eq (cuts : R.Cuts S l l') (x : Nat) :
    valueAt R.lo R.hi R.value l x = valueAt R.lo R.hi R.value l' x := by
  induction cuts with
  | refl => rfl
  | tail _ step ih => exact ih.trans (step.valueAt_eq x)

theorem CutStep.exists_value_iff (step : R.CutStep S l l') (v : β) :
    (∃ a ∈ l, R.value a = v) ↔ ∃ a ∈ l', R.value a = v := by
  induction step with
  | here cut _ => simp [cut.value_left, cut.value_right]
  | cons _ ih => simp [ih]

/-- Cuts neither bring in values nor lose any. -/
theorem Cuts.exists_value_iff (cuts : R.Cuts S l l') (v : β) :
    (∃ a ∈ l, R.value a = v) ↔ ∃ a ∈ l', R.value a = v := by
  induction cuts with
  | refl => rfl
  | tail _ step ih => exact ih.trans (step.exists_value_iff v)

theorem Cuts.leftAt_eq (cuts : R.Cuts S l l') (tiles : Tiles R.lo R.hi s l e) (x : Nat) :
    markAt R.lo R.left l x = markAt R.lo R.left l' x := by
  induction cuts with
  | refl => rfl
  | tail before step ih => exact ih.trans (step.leftAt_eq ((Cuts.tiles_iff before s e).mp tiles) x)

theorem Cuts.rightAt_eq (cuts : R.Cuts S l l') (tiles : Tiles R.lo R.hi s l e) (x : Nat) :
    markAt R.hi R.right l x = markAt R.hi R.right l' x := by
  induction cuts with
  | refl => rfl
  | tail before step ih => exact ih.trans (step.rightAt_eq ((Cuts.tiles_iff before s e).mp tiles) x)

theorem Cuts.separatedOff (cuts : R.Cuts S l l')
    (points : ∀ x, S x → T x) (separated : R.SeparatedOff T l) : R.SeparatedOff T l' := by
  induction cuts with
  | refl => exact separated
  | tail _ step ih => exact step.separatedOff points ih

private theorem not_hi_lt_of_separated {a a' : α}
    (tiles : Tiles R.lo R.hi s (a :: l) e) (tiles' : Tiles R.lo R.hi s (a' :: l') e)
    (separated : (a :: l).IsChain R.Separated)
    (values : ∀ x, s ≤ x →
      valueAt R.lo R.hi R.value (a :: l) x = valueAt R.lo R.hi R.value (a' :: l') x)
    (lefts : ∀ x, s ≤ x → markAt R.lo R.left (a :: l) x = markAt R.lo R.left (a' :: l') x)
    (rights : ∀ x, s < x → markAt R.hi R.right (a :: l) x = markAt R.hi R.right (a' :: l') x) :
    ¬ R.hi a < R.hi a' := by
  intro shorter
  obtain ⟨start, proper, rest⟩ := tiles
  obtain ⟨start', proper', rest'⟩ := tiles'
  have inside := rest'.le
  cases l with
  | nil => simp only [tiles_nil] at rest; omega
  | cons b l =>
    obtain ⟨meet, properNext, -⟩ := rest
    have sameStart := values s le_rfl
    have sameMeet := values (R.hi a) proper.le
    have sameLeft := lefts (R.hi a) proper.le
    have sameRight := rights (R.hi a) proper
    rw [valueAt_cons_inside (by omega) (by omega),
      valueAt_cons_inside (by omega) (by omega)] at sameStart
    rw [valueAt_cons_after le_rfl, valueAt_cons_inside (by omega) (by omega),
      valueAt_cons_inside (by omega) (by omega)] at sameMeet
    rw [markAt_cons_elsewhere (by omega), markAt_cons_here meet, markAt_eq_zero] at sameLeft
    rw [markAt_cons_here rfl, markAt_eq_zero] at sameRight
    rcases List.IsChain.rel separated with value | right | left
    · exact value (Option.some.inj (sameStart.trans sameMeet.symm))
    · exact right sameRight
    · exact left sameLeft
    all_goals
      refine forall_mem_cons.mpr ⟨by omega, fun c member => ?_⟩
      have := rest'.bounds member
      omega

/-- Two tilings of one interval whose neighbours are all separated and that
denote the same values and marks are equal. -/
theorem eq_of_separated
    (ext : ∀ a ∈ l, ∀ b ∈ l', R.lo a = R.lo b → R.hi a = R.hi b → R.value a = R.value b →
      R.left a = R.left b → R.right a = R.right b → a = b)
    (tiles : Tiles R.lo R.hi s l e) (tiles' : Tiles R.lo R.hi s l' e)
    (separated : l.IsChain R.Separated) (separated' : l'.IsChain R.Separated)
    (values : ∀ x, s ≤ x → valueAt R.lo R.hi R.value l x = valueAt R.lo R.hi R.value l' x)
    (lefts : ∀ x, s ≤ x → markAt R.lo R.left l x = markAt R.lo R.left l' x)
    (rights : ∀ x, s < x → markAt R.hi R.right l x = markAt R.hi R.right l' x) :
    l = l' := by
  induction l generalizing s l' with
  | nil =>
    cases l' with
    | nil => rfl
    | cons a' l' =>
      have := tiles'.2.1.trans_le tiles'.2.2.le
      simp only [tiles_nil] at tiles
      omega
  | cons a l ih =>
    cases l' with
    | nil =>
      have := tiles.2.1.trans_le tiles.2.2.le
      simp only [tiles_nil] at tiles'
      omega
    | cons a' l' =>
      have notShorter := not_hi_lt_of_separated tiles tiles' separated values lefts rights
      have notLonger := not_hi_lt_of_separated tiles' tiles separated'
        (fun x h => (values x h).symm) (fun x h => (lefts x h).symm) fun x h => (rights x h).symm
      have sameHi : R.hi a = R.hi a' := by omega
      obtain ⟨start, proper, rest⟩ := tiles
      obtain ⟨start', proper', rest'⟩ := tiles'
      have sameValue := values s le_rfl
      have sameLeft := lefts s le_rfl
      have sameRight := rights (R.hi a) proper
      rw [valueAt_cons_inside (by omega) (by omega),
        valueAt_cons_inside (by omega) (by omega)] at sameValue
      rw [markAt_cons_here start, markAt_cons_here start'] at sameLeft
      rw [markAt_cons_here rfl, markAt_cons_here sameHi.symm] at sameRight
      obtain rfl : a = a' := ext a mem_cons_self a' mem_cons_self
        (start.trans start'.symm) sameHi (Option.some.inj sameValue) sameLeft sameRight
      congr 1
      refine ih (fun b member b' member' => ext b (mem_cons_of_mem _ member) b'
        (mem_cons_of_mem _ member')) rest rest' separated.of_cons separated'.of_cons
        (fun x h => ?_) (fun x h => ?_)
        fun x h => ?_
      · have := values x (proper.le.trans h)
        rwa [valueAt_cons_after h, valueAt_cons_after (by omega)] at this
      · have := lefts x (proper.le.trans h)
        rwa [markAt_cons_elsewhere (by omega), markAt_cons_elsewhere (by omega)] at this
      · have := rights x (proper.trans h)
        rwa [markAt_cons_elsewhere (by omega), markAt_cons_elsewhere (by omega)] at this

end Reading

end SumiEmu.Tiling
