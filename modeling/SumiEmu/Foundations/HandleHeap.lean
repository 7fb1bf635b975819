/-
# Heaps with handles

A heap keeps each value in a node of its own, and the handle of the node stays good while
other values come and go. A handle is not used a second time, so that a handle whose node is
gone is known to be stale: reading, replacing or erasing there gives no result.
-/

import Mathlib.Algebra.Order.Ring.Nat
import Mathlib.Data.List.Pairwise

namespace SumiEmu.HandleHeap

open List

/-- The values under their handles. -/
structure Heap (α : Type*) where
  nodes : List (Nat × α) := []
  nextHandle : Nat := 0
  below : ∀ node ∈ nodes, node.1 < nextHandle := by
    intro node member
    cases member
  distinct : nodes.Pairwise fun node node' => node.1 ≠ node'.1 := by exact List.Pairwise.nil

variable {α : Type*}

namespace Heap

variable {heap heap' : Heap α} {handle : Nat} {value : α}

theorem value_eq {node node' : Nat × α} (member : node ∈ heap.nodes) (member' : node' ∈ heap.nodes)
    (same : node.1 = node'.1) : node = node' := by
  by_contra different
  have : Std.Symm fun node node' : Nat × α => node.1 ≠ node'.1 := ⟨fun _ _ => Ne.symm⟩
  exact heap.distinct.forall member member' different same

/-- A new node, whose value may hold the handle of the node. -/
def emplace (heap : Heap α) (value : Nat → α) : Heap α where
  nodes := heap.nodes ++ [(heap.nextHandle, value heap.nextHandle)]
  nextHandle := heap.nextHandle + 1
  below node member := by
    rcases mem_append.mp member with old | new
    · exact Nat.lt_succ_of_lt (heap.below node old)
    · cases mem_singleton.mp new
      exact Nat.lt_succ_self _
  distinct := by
    refine pairwise_append.mpr ⟨heap.distinct, pairwise_singleton _ _, ?_⟩
    intro node old node' new
    cases mem_singleton.mp new
    exact Nat.ne_of_lt (heap.below node old)

/-- The value of a node that is there. -/
def get? (heap : Heap α) (handle : Nat) : Option α :=
  (heap.nodes.find? fun node => decide (node.1 = handle)).map Prod.snd

/-- The node of a handle is removed. -/
def eraseNode (heap : Heap α) (handle : Nat) : Heap α where
  nodes := heap.nodes.filter fun node => decide (node.1 ≠ handle)
  nextHandle := heap.nextHandle
  below node member := heap.below node (mem_filter.mp member).1
  distinct := heap.distinct.sublist filter_sublist

def setNode (heap : Heap α) (handle : Nat) (value : α) : Heap α where
  nodes := heap.nodes.map fun node => if node.1 = handle then (handle, value) else node
  nextHandle := heap.nextHandle
  below node member := by
    obtain ⟨old, member', rfl⟩ := mem_map.mp member
    split_ifs with here
    · exact here ▸ heap.below old member'
    · exact heap.below old member'
  distinct := by
    refine pairwise_map.mpr (heap.distinct.imp fun {node node'} different => ?_)
    have handle_eq (node : Nat × α) : (if node.1 = handle then (handle, value) else node).1 =
        node.1 := by
      split_ifs with here
      · exact here.symm
      · rfl
    rw [handle_eq, handle_eq]
    exact different

/-- Erases a node that is there. -/
def erase? (heap : Heap α) (handle : Nat) : Option (Heap α) :=
  (heap.get? handle).map fun _ => heap.eraseNode handle

/-- Replaces the value of a node that is there. -/
def update? (heap : Heap α) (handle : Nat) (value : α) : Option (Heap α) :=
  (heap.get? handle).map fun _ => heap.setNode handle value

/-- The first node in an order of the values. -/
def firstOf (less : α → α → Bool) : List (Nat × α) → Option (Nat × α)
  | [] => none
  | node :: nodes =>
    match firstOf less nodes with
    | none => some node
    | some best => if less best.2 node.2 then some best else some node

/-- The least node. -/
def top (heap : Heap α) (less : α → α → Bool) : Option (Nat × α) := firstOf less heap.nodes

theorem get?_eq_some : heap.get? handle = some value ↔ (handle, value) ∈ heap.nodes := by
  rw [get?, Option.map_eq_some_iff]
  constructor
  · rintro ⟨node, found, rfl⟩
    have here : node.1 = handle := by simpa using find?_some found
    exact here ▸ mem_of_find?_eq_some found
  · intro member
    cases found : heap.nodes.find? fun node => decide (node.1 = handle) with
    | none => exact absurd (decide_eq_true rfl) (find?_eq_none.mp found _ member)
    | some node =>
      have here : node.1 = handle := by simpa using find?_some found
      have same := value_eq (mem_of_find?_eq_some found) member here
      exact ⟨node, rfl, congrArg Prod.snd same⟩

variable {node : Nat × α}

theorem mem_emplace {value : Nat → α} :
    node ∈ (heap.emplace value).nodes ↔
      node ∈ heap.nodes ∨ node = (heap.nextHandle, value heap.nextHandle) := by
  rw [emplace, mem_append, mem_singleton]

theorem mem_eraseNode :
    node ∈ (heap.eraseNode handle).nodes ↔ node ∈ heap.nodes ∧ node.1 ≠ handle := by
  rw [eraseNode, mem_filter, decide_eq_true_iff]

theorem erase?_eq_some (there : (handle, value) ∈ heap.nodes) :
    heap.erase? handle = some (heap.eraseNode handle) := by
  rw [erase?, get?_eq_some.mpr there, Option.map_some]

theorem update?_eq_some {old : α} (there : (handle, old) ∈ heap.nodes) :
    heap.update? handle value = some (heap.setNode handle value) := by
  rw [update?, get?_eq_some.mpr there, Option.map_some]

theorem mem_setNode {old : α} (there : (handle, old) ∈ heap.nodes) :
    node ∈ (heap.setNode handle value).nodes ↔
      node = (handle, value) ∨ node ∈ heap.nodes ∧ node.1 ≠ handle := by
  rw [setNode, mem_map]
  constructor
  · rintro ⟨before, member, rfl⟩
    split_ifs with here
    · exact Or.inl rfl
    · exact Or.inr ⟨member, here⟩
  · rintro (rfl | ⟨member, elsewhere⟩)
    · exact ⟨_, there, if_pos rfl⟩
    · exact ⟨node, member, if_neg elsewhere⟩

/-- Handles of nodes that are there, each listed once, can be erased one after the other. -/
theorem foldlM_erase? {handles : List Nat} (once : handles.Nodup)
    (there : ∀ handle ∈ handles, ∃ value, (handle, value) ∈ heap.nodes) :
    ∃ heap', handles.foldlM erase? heap = some heap' ∧
      ∀ node, node ∈ heap'.nodes ↔ node ∈ heap.nodes ∧ node.1 ∉ handles := by
  induction handles generalizing heap with
  | nil => exact ⟨heap, rfl, fun node => by simp⟩
  | cons handle handles ih =>
    obtain ⟨fresh, once⟩ := nodup_cons.mp once
    obtain ⟨value, member⟩ := there handle mem_cons_self
    have still : ∀ other ∈ handles, ∃ value, (other, value) ∈ (heap.eraseNode handle).nodes := by
      intro other listed
      obtain ⟨value, member⟩ := there other (mem_cons_of_mem _ listed)
      exact ⟨value, mem_eraseNode.mpr ⟨member, fun same => fresh (same ▸ listed)⟩⟩
    obtain ⟨heap', erased, left⟩ := ih once still
    refine ⟨heap', ?_, fun node => ?_⟩
    · rw [foldlM_cons, erase?_eq_some member]
      exact erased
    · rw [left, mem_eraseNode, mem_cons, not_or, and_assoc]

section Weight

/-- What the values weigh together. -/
def weight (heap : Heap α) (f : α → Nat) : Nat := (heap.nodes.map fun node => f node.2).sum

variable {f : α → Nat}

theorem weight_filter {nodes : List (Nat × α)}
    (distinct : nodes.Pairwise fun node node' => node.1 ≠ node'.1)
    (there : (handle, value) ∈ nodes) :
    ((nodes.filter fun node => decide (node.1 ≠ handle)).map fun node => f node.2).sum + f value =
      (nodes.map fun node => f node.2).sum := by
  induction nodes with
  | nil => cases there
  | cons node nodes ih =>
    obtain ⟨different, distinct⟩ := pairwise_cons.mp distinct
    rcases mem_cons.mp there with rfl | there
    · have kept : nodes.filter (fun node => decide (node.1 ≠ handle)) = nodes :=
        filter_eq_self.mpr fun node member => decide_eq_true (different node member).symm
      rw [filter_cons_of_neg (by simp), kept, map_cons, sum_cons, Nat.add_comm]
    · rw [filter_cons_of_pos (by simpa using different _ there), map_cons, sum_cons, map_cons,
        sum_cons, Nat.add_assoc, ih distinct there]

theorem weight_eraseNode (there : (handle, value) ∈ heap.nodes) :
    (heap.eraseNode handle).weight f + f value = heap.weight f :=
  weight_filter heap.distinct there

theorem weight_map {nodes : List (Nat × α)} {value' : α}
    (distinct : nodes.Pairwise fun node node' => node.1 ≠ node'.1)
    (there : (handle, value) ∈ nodes) :
    ((nodes.map fun node => if node.1 = handle then (handle, value') else node).map fun node =>
      f node.2).sum
      + f value = (nodes.map fun node => f node.2).sum + f value' := by
  induction nodes with
  | nil => cases there
  | cons node nodes ih =>
    obtain ⟨different, distinct⟩ := pairwise_cons.mp distinct
    rcases mem_cons.mp there with rfl | there
    · have kept : nodes.map (fun node => if node.1 = handle then (handle, value') else node) =
        nodes :=
        (map_congr_left fun node member => if_neg (different node member).symm).trans
          (map_id' nodes)
      simp only [map_cons, if_true, sum_cons, kept]
      omega
    · have other := different _ there
      have rest := ih distinct there
      simp only [map_cons, sum_cons, if_neg other]
      omega

theorem weight_setNode (value' : α) (there : (handle, value) ∈ heap.nodes) :
    (heap.setNode handle value').weight f + f value = heap.weight f + f value' :=
  weight_map heap.distinct there

end Weight

section Order

variable {less : α → α → Bool}

theorem firstOf_eq_none {nodes : List (Nat × α)} : firstOf less nodes = none ↔ nodes = [] := by
  cases nodes with
  | nil => exact iff_of_true rfl rfl
  | cons node nodes =>
    refine iff_of_false (fun empty => ?_) (cons_ne_nil _ _)
    rw [firstOf] at empty
    split at empty
    · cases empty
    · split_ifs at empty

variable (asymmetric : ∀ a b, less a b = true → less b a = false)
  (transitive : ∀ a b c, less a b = false → less b c = false → less a c = false)

include asymmetric transitive in
/-- Nothing comes before the first node. -/
theorem firstOf_eq_some {nodes : List (Nat × α)} {node : Nat × α}
    (first : firstOf less nodes = some node) :
    node ∈ nodes ∧ ∀ node' ∈ nodes, less node'.2 node.2 = false := by
  have irreflexive (a : α) : less a a = false := by
    cases self : less a a with
    | false => rfl
    | true => exact self ▸ asymmetric a a self
  induction nodes generalizing node with
  | nil => cases first
  | cons head nodes ih =>
    rw [firstOf] at first
    split at first
    case _ alone =>
      cases Option.some.inj first
      rw [firstOf_eq_none.mp alone]
      refine ⟨mem_cons_self, fun node' member => ?_⟩
      exact mem_singleton.mp member ▸ irreflexive _
    case _ best chosen =>
      obtain ⟨member, least⟩ := ih chosen
      split_ifs at first with smaller
      · cases Option.some.inj first
        refine ⟨mem_cons_of_mem _ member, fun node' member' => ?_⟩
        rcases mem_cons.mp member' with rfl | member'
        · exact asymmetric _ _ smaller
        · exact least node' member'
      · cases Option.some.inj first
        refine ⟨mem_cons_self, fun node' member' => ?_⟩
        rcases mem_cons.mp member' with rfl | member'
        · exact irreflexive _
        · exact transitive _ _ _ (least node' member') (Bool.eq_false_iff.mpr smaller)

end Order

end Heap

end SumiEmu.HandleHeap
