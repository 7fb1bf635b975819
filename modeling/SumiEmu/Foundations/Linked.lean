/-
# Lists linked through a function

A function that names the successor of each node links a list of nodes from a
head to a stop. What it links up to no stop at all is determined by the head,
so it cannot visit a node twice, and writing the successor of a node outside
the list leaves it linked.
-/

import Mathlib.Data.List.Chain
import Mathlib.Data.List.Nodup

namespace SumiEmu.Linking

open List

variable {κ : Type*} {next next' : κ → Option κ} {head stop : Option κ} {l l' : List κ}

/-- The nodes of a list are linked, one to the next, from a head to a stop. -/
def Linked (next : κ → Option κ) : Option κ → List κ → Option κ → Prop
  | head, [], stop => head = stop
  | head, a :: l, stop => head = some a ∧ Linked next (next a) l stop

@[simp] theorem linked_nil : Linked next head [] stop ↔ head = stop := Iff.rfl

@[simp] theorem linked_cons {a : κ} :
    Linked next head (a :: l) stop ↔ head = some a ∧ Linked next (next a) l stop := Iff.rfl

theorem linked_append {l₁ l₂ : List κ} :
    Linked next head (l₁ ++ l₂) stop ↔
      ∃ middle, Linked next head l₁ middle ∧ Linked next middle l₂ stop := by
  induction l₁ generalizing head with
  | nil => simp
  | cons a l₁ ih => simp [ih, and_assoc]

/-- Only the successors of the listed nodes matter. -/
theorem Linked.congr (linked : Linked next head l stop) (same : ∀ a ∈ l, next' a = next a) :
    Linked next' head l stop := by
  induction l generalizing head with
  | nil => exact linked
  | cons a l ih =>
    obtain ⟨here, rest⟩ := linked
    rw [linked_cons, same a mem_cons_self]
    exact ⟨here, ih rest fun b member => same b (mem_cons_of_mem a member)⟩

/-- A list that ends is continued where it ends. -/
theorem Linked.or (linked : Linked next head l none) (stop : Option κ) :
    Linked (fun a => (next a).or stop) (head.or stop) l stop := by
  induction l generalizing head with
  | nil =>
    rw [linked_nil] at linked ⊢
    rw [linked, Option.none_or]
  | cons a l ih =>
    obtain ⟨here, rest⟩ := linked
    exact ⟨by rw [here, Option.some_or], ih rest⟩

theorem Linked.unique (linked : Linked next head l none) (linked' : Linked next head l' none) :
    l = l' := by
  induction l generalizing head l' with
  | nil =>
    cases l' with
    | nil => rfl
    | cons b l' => cases linked.symm.trans linked'.1
  | cons a l ih =>
    cases l' with
    | nil => cases linked.1.symm.trans linked'
    | cons b l' =>
      obtain rfl : a = b := Option.some.inj (linked.1.symm.trans linked'.1)
      rw [ih linked.2 linked'.2]

/-- From a node that is its own successor no end is reached. -/
theorem not_linked_of_loop {a : κ} (loop : next a = some a) : ¬Linked next (some a) l none := by
  induction l with
  | nil =>
    rintro ⟨⟩
  | cons b l ih =>
    rintro ⟨here, rest⟩
    obtain rfl := Option.some.inj here
    rw [loop] at rest
    exact ih rest

/-- A linked list that ends has no cycle. -/
theorem Linked.nodup (linked : Linked next head l none) : l.Nodup := by
  induction l generalizing head with
  | nil => exact nodup_nil
  | cons a l ih =>
    refine nodup_cons.mpr ⟨fun member => ?_, ih linked.2⟩
    obtain ⟨before, after, rfl⟩ := append_of_mem member
    obtain ⟨middle, -, rest⟩ := linked_append.mp linked.2
    have again := congrArg length (linked.2.unique rest.2)
    rw [length_append, length_cons] at again
    omega

end SumiEmu.Linking

/-!
## Rings that are linked both ways

A ring joins the nodes of a list, and a root before the first and after the last
of them, by links in both directions. The root is `none`. A ring determines its
list. Splicing nodes in or out writes the four ends of the links at one place
and leaves every other link as it was.
-/

namespace SumiEmu.Linking

open List

variable {κ : Type*} {next next' prev prev' : Option κ → Option κ} {l l₁ l₂ : List κ}

/-- A node and the one after it name each other. -/
def Joined (next prev : Option κ → Option κ) (x y : Option κ) : Prop := next x = y ∧ prev y = x

/-- The list of nodes, with the root at both ends, is joined throughout. -/
def Ring (next prev : Option κ → Option κ) (l : List κ) : Prop :=
  List.IsChain (Joined next prev) (none :: (l.map some ++ [none]))

theorem ring_nil : Ring next prev [] ↔ next none = none ∧ prev none = none := by
  rw [Ring, map_nil, nil_append, isChain_pair, Joined]

theorem joined_swap {x y : Option κ} : Joined prev next y x ↔ Joined next prev x y := And.comm

/-- A ring is read backwards along its other links. -/
theorem ring_reverse : Ring prev next l.reverse ↔ Ring next prev l := by
  have flipped : none :: (l.reverse.map some ++ [none]) =
      (none :: (l.map some ++ [none])).reverse := by
    simp
  rw [Ring, flipped, isChain_reverse]
  exact Iff.of_eq (congrArg (fun r => List.IsChain r _) (funext₂ fun _ _ => propext joined_swap))

theorem linked_of_isChain {x : Option κ}
    (chain : List.IsChain (Joined next prev) (x :: (l.map some ++ [none]))) :
    Linked (fun a => next (some a)) (next x) l none := by
  induction l generalizing x with
  | nil =>
    rw [map_nil, nil_append, isChain_pair] at chain
    exact chain.1
  | cons a l ih =>
    rw [map_cons, cons_append, isChain_cons_cons] at chain
    exact ⟨chain.1.1, ih chain.2⟩

section

variable (ring : Ring next prev l)

include ring

theorem Ring.linked :
    Linked (fun a => next (some a)) (next none) l none :=
  linked_of_isChain ring

theorem Ring.nodup : l.Nodup := ring.linked.nodup

theorem Ring.next_none : next none = l.head? := by
  cases l with
  | nil => exact (ring_nil.mp ring).1
  | cons a l => exact ring.linked.1

theorem Ring.prev_none : prev none = l.getLast? := by
  rw [(ring_reverse.mpr ring).next_none, head?_reverse]

/-- Only the links of the root and of the listed nodes matter. -/
theorem Ring.congr (root : next' none = next none) (root' : prev' none = prev none)
    (same : ∀ a ∈ l, next' (some a) = next (some a) ∧ prev' (some a) = prev (some a)) :
    Ring next' prev' l := by
  have keep : ∀ x ∈ none :: (l.map some ++ [none]), next' x = next x ∧ prev' x = prev x := by
    intro x member
    cases x with
    | none => exact ⟨root, root'⟩
    | some a =>
      refine same a ?_
      simpa using member
  refine List.IsChain.imp_of_mem_imp (fun x y first second joined => ?_) ring
  exact ⟨(keep x first).1.trans joined.1, (keep y second).2.trans joined.2⟩

end

/-! ## Splicing -/

variable {R : Option κ → Option κ → Prop}

/-- The chain up to the end of a prefix of the ring, and the chain from there on. -/
theorem isChain_front {r : List (Option κ)} :
    List.IsChain R (none :: (l.map some ++ r)) ↔
      List.IsChain R (none :: l.map some) ∧ List.IsChain R (l.getLast? :: r) := by
  rcases l.eq_nil_or_concat with rfl | ⟨l, a, rfl⟩
  · simp
  · have split := @isChain_split _ R (some a) (none :: l.map some) r
    simpa using split

/-- The chain up to the start of a suffix of the ring, and the chain from there on. -/
theorem isChain_rear {x : Option κ} {m : List (Option κ)} :
    List.IsChain R (x :: (m ++ (l.map some ++ [none]))) ↔
      List.IsChain R (x :: (m ++ [l.head?])) ∧ List.IsChain R (l.map some ++ [none]) := by
  cases l with
  | nil => simp
  | cons a l =>
    have split := @isChain_split _ R (some a) (x :: m) (l.map some ++ [none])
    simpa using split

/-- A ring with a segment in its middle. -/
theorem ring_segment {m : List κ} :
    Ring next prev (l₁ ++ m ++ l₂) ↔
      List.IsChain (Joined next prev) (none :: l₁.map some) ∧
      List.IsChain (Joined next prev) (l₁.getLast? :: (m.map some ++ [l₂.head?])) ∧
      List.IsChain (Joined next prev) (l₂.map some ++ [none]) := by
  rw [Ring, map_append, map_append, append_assoc, append_assoc, isChain_front,
    isChain_rear]

/-- A prefix survives writes to the link behind its last node. -/
theorem isChain_front_congr (chain : List.IsChain (Joined next prev) (none :: l.map some))
    (nodup : l.Nodup) (ahead : ∀ x, x ≠ l.getLast? → (∀ a, x = some a → a ∈ l) → next' x = next x)
    (behind : ∀ a ∈ l, prev' (some a) = prev (some a)) :
    List.IsChain (Joined next' prev') (none :: l.map some) := by
  induction l using reverseRecOn with
  | nil => exact isChain_singleton none
  | append_singleton l a ih =>
    rw [map_append, map_singleton] at chain ⊢
    rw [isChain_front, isChain_pair] at chain ⊢
    obtain ⟨chain, joined⟩ := chain
    rw [nodup_append] at nodup
    have fresh : a ∉ l := fun member => nodup.2.2 a member a (mem_singleton_self a) rfl
    have kept : ∀ x, (∀ b, x = some b → b ∈ l) → next' x = next x := by
      intro x member
      refine ahead x ?_ fun b same => mem_append_left _ (member b same)
      rw [getLast?_concat]
      rintro rfl
      exact fresh (member a rfl)
    refine ⟨ih chain nodup.1 (fun x _ member => kept x member) fun b member => ?_, ?_, ?_⟩
    · exact behind b (mem_append_left _ member)
    · rw [kept _ fun b last => mem_of_getLast? last]
      exact joined.1
    · rw [behind a (mem_append_right l (mem_singleton_self a))]
      exact joined.2

/-- A suffix survives writes to the link before its first node. -/
theorem isChain_rear_congr (chain : List.IsChain (Joined next prev) (l.map some ++ [none]))
    (nodup : l.Nodup) (behind : ∀ x, x ≠ l.head? → (∀ a, x = some a → a ∈ l) → prev' x = prev x)
    (ahead : ∀ a ∈ l, next' (some a) = next (some a)) :
    List.IsChain (Joined next' prev') (l.map some ++ [none]) := by
  have flip : ∀ next prev : Option κ → Option κ,
      List.IsChain (Joined next prev) (l.map some ++ [none]) ↔
        List.IsChain (Joined prev next) (none :: l.reverse.map some) := by
    intro next prev
    have flipped : none :: l.reverse.map some = (l.map some ++ [none]).reverse := by simp
    rw [flipped, isChain_reverse]
    exact Iff.of_eq (congrArg (fun r => List.IsChain r _) (funext₂ fun _ _ => propext joined_swap))
  rw [flip] at chain ⊢
  refine isChain_front_congr chain (nodup_reverse.mpr nodup) (fun x other member => ?_) ?_
  · rw [getLast?_reverse] at other
    exact behind x other fun a same => mem_reverse.mp (member a same)
  · exact fun a member => ahead a (mem_reverse.mp member)

/-- One segment of a ring is replaced by another. The links between the new nodes,
and at both ends of them, are given, and no other link of the ring is written. -/
theorem Ring.splice (l₁ m m' l₂ : List κ) (ring : Ring next prev (l₁ ++ m ++ l₂))
    (middle : List.IsChain (Joined next' prev') (l₁.getLast? :: (m'.map some ++ [l₂.head?])))
    (ahead : ∀ x, x ≠ l₁.getLast? → (∀ a, x = some a → a ∈ l₁ ++ l₂) → next' x = next x)
    (behind : ∀ x, x ≠ l₂.head? → (∀ a, x = some a → a ∈ l₁ ++ l₂) → prev' x = prev x) :
    Ring next' prev' (l₁ ++ m' ++ l₂) := by
  have nodup := ring.nodup
  rw [append_assoc, nodup_append, nodup_append] at nodup
  obtain ⟨first, ⟨-, second, -⟩, apart⟩ := nodup
  have apart' : ∀ a ∈ l₁, a ∉ l₂ := fun a member member' =>
    apart a member a (mem_append_right m member') rfl
  obtain ⟨before, -, after⟩ := ring_segment.mp ring
  refine ring_segment.mpr ⟨isChain_front_congr before first (fun x other member => ?_)
    (fun a member => ?_), middle, isChain_rear_congr after second (fun x other member => ?_)
    fun a member => ?_⟩
  · exact ahead x other fun a same => mem_append_left l₂ (member a same)
  · refine behind (some a) (fun head => ?_) ?_
    · exact apart' a member (mem_of_head? head.symm)
    · rintro b ⟨⟩
      exact mem_append_left l₂ member
  · exact behind x other fun a same => mem_append_right l₁ (member a same)
  · refine ahead (some a) (fun last => ?_) ?_
    · exact apart' a (mem_of_getLast? last.symm) member
    · rintro b ⟨⟩
      exact mem_append_right l₁ member

end SumiEmu.Linking

/-!
## Loops over linked nodes

A loop visits a node, asks for the next one and visits that. The body may end it
with a result, and otherwise it goes on until there is no next node. Nothing bounds
it in advance, so it has some fuel. Over linked nodes it needs as much as there are.
-/

namespace SumiEmu.Linking

open List

variable {ε κ σ α : Type*}

/-- `while (node != nullptr) { …; node = next(node); }`, where the body passes a state on
and may break with a result. -/
def walk (outOfFuel : ε) (next : κ → Except ε (Option κ))
    (body : σ → κ → Except ε (σ × Option α)) :
    Nat → σ → Option κ → Except ε (σ × Option α)
  | _, s, none => .ok (s, none)
  | 0, _, some _ => .error outOfFuel
  | fuel + 1, s, some node =>
    match body s node with
    | .error fault => .error fault
    | .ok (s, some result) => .ok (s, some result)
    | .ok (s, none) =>
      match next node with
      | .error fault => .error fault
      | .ok node => walk outOfFuel next body fuel s node

/-- A loop over linked nodes ends, with a result of its body if any. -/
theorem Linked.walk {next' : κ → Option κ} {head : Option κ} {l : List κ}
    (linked : Linked next' head l none) (outOfFuel : ε) (next : κ → Except ε (Option κ))
    {body : σ → κ → Except ε (σ × Option α)} {post : α → Prop}
    (steps : ∀ node ∈ l, next node = .ok (next' node))
    (visits : ∀ s, ∀ node ∈ l,
      ∃ s' result, body s node = .ok (s', result) ∧ ∀ r ∈ result, post r) (s : σ) :
    ∃ s' result, (∀ fuel, l.length ≤ fuel →
        walk outOfFuel next body fuel s head = .ok (s', result)) ∧
      ∀ r ∈ result, post r := by
  induction l generalizing head s with
  | nil =>
    cases linked
    refine ⟨s, none, fun fuel _ => ?_, fun r absurdity => ?_⟩
    · cases fuel <;> rfl
    · cases absurdity
  | cons node l ih =>
    obtain ⟨rfl, rest⟩ := linked
    obtain ⟨s₁, result, visited, holds⟩ := visits s node mem_cons_self
    cases result with
    | some r =>
      refine ⟨s₁, some r, fun fuel enough => ?_, holds⟩
      obtain ⟨fuel, rfl⟩ := Nat.exists_eq_add_one_of_ne_zero
        (Nat.ne_of_gt (Nat.zero_lt_of_lt enough))
      simp only [Linking.walk, visited]
    | none =>
      obtain ⟨s', result, ended, holds'⟩ := ih rest
        (fun other inside => steps other (mem_cons_of_mem node inside))
        (fun s other inside => visits s other (mem_cons_of_mem node inside)) s₁
      refine ⟨s', result, fun fuel enough => ?_, holds'⟩
      obtain ⟨fuel, rfl⟩ := Nat.exists_eq_add_one_of_ne_zero
        (Nat.ne_of_gt (Nat.zero_lt_of_lt enough))
      simp only [Linking.walk, visited, steps node mem_cons_self]
      exact ended fuel (Nat.le_of_succ_le_succ enough)

end SumiEmu.Linking
