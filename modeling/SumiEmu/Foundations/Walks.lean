/-
# Walks that come to an end

A walk goes from a node to each one that the node leads to, and on from there. Among finitely many
nodes it ends exactly when it never comes to a node that leads back to itself, and when it ends some
number of levels is enough for it.
-/

import Mathlib.Data.Fintype.Order

namespace SumiEmu.Walks

open Relation

variable {α : Type*} {leads : α → α → Prop} {a b : α}

/-- The walk from a node ends. -/
def Ends (leads : α → α → Prop) (a : α) : Prop := Acc (Function.swap leads) a

theorem Ends.of_path (ends : Ends leads a) (path : ReflTransGen leads a b) : Ends leads b := by
  induction path with
  | refl => exact ends
  | tail _ step ih => exact ih.inv step

theorem Ends.acyclic (ends : Ends leads a) : ¬ TransGen leads a a := by
  induction ends with
  | intro a _ ih =>
    intro cycle
    obtain ⟨b, step, back⟩ := TransGen.head'_iff.mp cycle
    exact ih b step (TransGen.tail' back step)

/-- Among finitely many nodes a walk ends if it comes to no node that leads back to itself. -/
theorem ends_iff [Finite α] : Ends leads a ↔ ∀ b, ReflTransGen leads a b →
    ¬ TransGen leads b b := by
  constructor
  · exact fun ends b path => (ends.of_path path).acyclic
  · intro acyclic
    -- Nodes that the walk comes to are in order with those behind them.
    let behind : α → α → Prop := fun c b => ReflTransGen leads a b ∧ TransGen leads b c
    have : IsTrans α behind :=
      ⟨fun _ _ _ first second => ⟨second.1, second.2.trans first.2⟩⟩
    have : Std.Irrefl behind := ⟨fun b cycle => acyclic b cycle.1 cycle.2⟩
    have founded : WellFounded behind := Finite.wellFounded_of_trans_of_irrefl behind
    suffices all : ∀ b, ReflTransGen leads a b → Ends leads b from all a .refl
    intro b
    induction b using founded.induction with
    | _ b ih => exact fun path => ⟨b, fun c step => ih c ⟨path, .single step⟩ (path.tail step)⟩

/-- With a level more a node is done if all that it leads to are done without. -/
structure Levels (leads : α → α → Prop) (done : Nat → α → Prop) : Prop where
  zero (a : α) : ¬ done 0 a
  succ (n : Nat) (a : α) : done (n + 1) a ↔ ∀ b, leads a b → done n b

variable {done : Nat → α → Prop}

theorem Levels.mono (levels : Levels leads done) {m n : Nat} (le : m ≤ n) (isDone : done m a) :
    done n a := by
  induction m generalizing n a with
  | zero => exact absurd isDone (levels.zero a)
  | succ m ih =>
    obtain ⟨n, rfl⟩ := Nat.exists_eq_add_of_lt le
    rw [levels.succ] at isDone ⊢
    exact fun b step => ih (by omega) (isDone b step)

/-- Some number of levels is enough for a walk that ends. -/
theorem Levels.exists_iff_ends [Finite α] (levels : Levels leads done) :
    (∃ n, done n a) ↔ Ends leads a := by
  constructor
  · rintro ⟨n, isDone⟩
    induction n generalizing a with
    | zero => exact absurd isDone (levels.zero a)
    | succ n ih => exact ⟨a, fun b step => ih ((levels.succ n a).mp isDone b step)⟩
  · intro ends
    induction ends with
    | intro a _ ih =>
      have all : ∀ b, ∃ n, leads a b → done n b := fun b => by
        by_cases step : leads a b
        · obtain ⟨n, isDone⟩ := ih b step
          exact ⟨n, fun _ => isDone⟩
        · exact ⟨0, fun step' => absurd step' step⟩
      choose enough isDone using all
      obtain ⟨bound, isBound⟩ := (Set.finite_range enough).bddAbove
      refine ⟨bound + 1, (levels.succ bound a).mpr fun b step => ?_⟩
      exact levels.mono (isBound (Set.mem_range_self b)) (isDone b step)

end SumiEmu.Walks

/-!
## Chains to a last node

Each node names at most one next node. A chain follows these and stops at the last node. From one
node the chain to the last node has one length, every node on it is nearer, and no node stands on
it twice, so that it is shorter than the number of nodes.
-/

namespace SumiEmu.Foundations.Chains

variable {α : Type*} {next : α → Option α} {last a b c : α} {m n : Nat}

/-- From `a` the chain is at `b` after `n` hops; it has not passed the last node before. -/
inductive Hops (next : α → Option α) (last : α) : Nat → α → α → Prop
  | here (a : α) : Hops next last 0 a a
  | hop {n : Nat} {a b c : α} (behind : a ≠ last) (follows : next a = some b)
      (rest : Hops next last n b c) : Hops next last (n + 1) a c

/-- The chain from `a` ends at the last node. -/
def Reaches (next : α → Option α) (last a : α) : Prop := ∃ n, Hops next last n a last

namespace Hops

@[simp] theorem zero_iff : Hops next last 0 a b ↔ a = b := by
  constructor
  · rintro ⟨⟩
    rfl
  · rintro rfl
    exact .here a

theorem succ_iff : Hops next last (n + 1) a c ↔ a ≠ last ∧ ∃ b, next a = some b ∧
    Hops next last n b c := by
  constructor
  · rintro (_ | ⟨behind, follows, rest⟩)
    exact ⟨behind, _, follows, rest⟩
  · rintro ⟨behind, b, follows, rest⟩
    exact .hop behind follows rest

/-- A node of the chain to the last node has the rest of the hops before it. -/
theorem rest (hops : Hops next last n a last) (part : Hops next last m a b) :
    m ≤ n ∧ Hops next last (n - m) b last := by
  induction part generalizing n with
  | here a => exact ⟨Nat.zero_le _, hops⟩
  | hop behind follows part hyp =>
    cases hops with
    | here => exact absurd rfl behind
    | hop _ follows' rest =>
      rw [follows] at follows'
      obtain rfl := Option.some.inj follows'
      obtain ⟨le, rest⟩ := hyp rest
      exact ⟨by omega, by simpa using rest⟩

theorem length_eq (hops : Hops next last n a last) (hops' : Hops next last m a last) : n = m := by
  have := (hops.rest hops').1
  have := (hops'.rest hops).1
  omega

theorem append (part : Hops next last m a b) (hops : Hops next last n b c) :
    Hops next last (m + n) a c := by
  induction part with
  | here a => simpa using hops
  | @hop m _ _ _ behind follows _ hyp =>
    have sum : m + 1 + n = m + n + 1 := by omega
    exact sum ▸ .hop behind follows (hyp hops)

theorem exists_node (hops : Hops next last n a c) (le : m ≤ n) : ∃ b, Hops next last m a b := by
  induction m generalizing n a with
  | zero => exact ⟨a, .here a⟩
  | succ m hyp =>
    cases hops with
    | here => omega
    | hop behind follows rest =>
      obtain ⟨b, part⟩ := hyp rest (by omega)
      exact ⟨b, .hop behind follows part⟩

section

variable {nodes : Finset α} (closed : ∀ a ∈ nodes, ∀ b, next a = some b → b ∈ nodes)

include closed

theorem mem (hops : Hops next last n a b) (member : a ∈ nodes) : b ∈ nodes := by
  induction hops with
  | here a => exact member
  | hop _ follows _ hyp => exact hyp (closed _ member _ follows)

/-- The nodes of a chain are told apart by their hops to the last node. -/
theorem lt_card (hops : Hops next last n a last) (member : a ∈ nodes) : n < nodes.card := by
  have node (m : Nat) (below : m < n + 1) : ∃ b, Hops next last m a b :=
    hops.exists_node (Nat.lt_succ_iff.mp below)
  have : Nonempty α := ⟨a⟩
  choose! node reached using node
  have card := Finset.card_le_card_of_injOn (s := Finset.range (n + 1)) (t := nodes) node
    (fun m below => (reached m (by simpa using below)).mem closed member)
    (fun m below m' below' same => by
      have below : m < n + 1 := by simpa using below
      have below' : m' < n + 1 := by simpa using below'
      have rest := hops.rest (reached m below)
      have rest' := hops.rest (reached m' below')
      rw [show node m = node m' from same] at rest
      have := rest.2.length_eq rest'.2
      omega)
  rw [Finset.card_range] at card
  omega

end

theorem reaches_iff (part : Hops next last m a b) : Reaches next last b ↔ Reaches next last a := by
  constructor
  · rintro ⟨n, hops⟩
    exact ⟨m + n, part.append hops⟩
  · rintro ⟨n, hops⟩
    exact ⟨n - m, (hops.rest part).2⟩

end Hops

end SumiEmu.Foundations.Chains
