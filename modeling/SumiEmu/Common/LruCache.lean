/-
# The least recently used cache

Items live in the slots of a pool and are linked into one list, the least recently used first. An
insertion takes the slot that was freed first, or a new one, and attaches it at the end. A touch
with a later tick moves its item to the end. The list is walked from its front for the items up to a
tick.

A pointer to an item is the number of its slot, which the pool never moves.
-/

import Mathlib.Algebra.Group.Int.Defs
import Mathlib.Algebra.Group.Nat.Defs
import SumiEmu.Foundations.Linked

namespace SumiEmu.Common

namespace LeastRecentlyUsedCache

/-- An item of the pool. Its tick is a number of 64 bits. -/
structure Item (α : Type*) where
  obj : α
  tick : Nat
  next : Option Nat
  prev : Option Nat

end LeastRecentlyUsedCache

open LeastRecentlyUsedCache in
/-- The slots from `poolSize` on do not exist yet. -/
structure LeastRecentlyUsedCache (α : Type*) where
  itemPool : Nat → Item α
  poolSize : Nat
  freeItems : List Nat
  firstItem : Option Nat
  lastItem : Option Nat

namespace LeastRecentlyUsedCache

variable {α : Type*}

/-- A new cache. -/
def create [Inhabited α] : LeastRecentlyUsedCache α where
  itemPool _ := ⟨default, 0, none, none⟩
  poolSize := 0
  freeItems := []
  firstItem := none
  lastItem := none

/-! ## Writes to one item -/

variable (c : LeastRecentlyUsedCache α)

/-- An item is written. -/
def setItem (id : Nat) (item : Item α) : LeastRecentlyUsedCache α :=
  { c with itemPool := Function.update c.itemPool id item }

/-- A forward link is written. -/
def setNext (id : Nat) (next : Option Nat) : LeastRecentlyUsedCache α :=
  c.setItem id { c.itemPool id with next := next }

/-- A backward link is written. -/
def setPrev (id : Nat) (prev : Option Nat) : LeastRecentlyUsedCache α :=
  c.setItem id { c.itemPool id with prev := prev }

/-- A write through a pointer, where it is not null. -/
def setNext? (pointer next : Option Nat) : LeastRecentlyUsedCache α :=
  match pointer with
  | some id => c.setNext id next
  | none => c

/-- The same through a pointer. -/
def setPrev? (pointer prev : Option Nat) : LeastRecentlyUsedCache α :=
  match pointer with
  | some id => c.setPrev id prev
  | none => c

/-! ## The operations -/

def build : Nat × LeastRecentlyUsedCache α :=
  match c.freeItems with
  | [] =>
    let itemId := c.poolSize
    let c := { c with poolSize := c.poolSize + 1 }
    (itemId, (c.setNext itemId none).setPrev itemId none)
  | itemId :: rest =>
    let c := { c with freeItems := rest }
    (itemId, (c.setNext itemId none).setPrev itemId none)

/-- `Attach`: an item at the end. -/
def attach (item : Nat) : LeastRecentlyUsedCache α :=
  let c := if c.firstItem = none then { c with firstItem := some item } else c
  match c.lastItem with
  | none => { c with lastItem := some item }
  | some last =>
    let c := c.setPrev item (some last)
    let c := c.setNext last (some item)
    let c := c.setNext item none
    { c with lastItem := some item }

/-- The neighbours of a detached item are linked to each other. -/
def detachNeighbours (item : Nat) : LeastRecentlyUsedCache α :=
  let c := c.setNext? (c.itemPool item).prev (c.itemPool item).next
  c.setPrev? (c.itemPool item).next (c.itemPool item).prev

/-- `Detach` of the first item. -/
def detachFirst (item : Nat) : LeastRecentlyUsedCache α :=
  if c.firstItem = some item then
    let c := { c with firstItem := (c.itemPool item).next }
    c.setPrev? c.firstItem none
  else
    c

/-- `Detach` of the last item. -/
def detachLast (item : Nat) : LeastRecentlyUsedCache α :=
  if c.lastItem = some item then
    let c := { c with lastItem := (c.itemPool item).prev }
    c.setNext? c.lastItem none
  else
    c

/-- `Detach`. -/
def detach (item : Nat) : LeastRecentlyUsedCache α :=
  ((c.detachNeighbours item).detachFirst item).detachLast item

/-- `Insert`. -/
def insert (obj : α) (tick : Nat) : Nat × LeastRecentlyUsedCache α :=
  let (newId, c) := c.build
  let c := c.setItem newId { c.itemPool newId with obj := obj, tick := tick }
  (newId, c.attach newId)

/-- `Touch`. -/
def touch (id : Nat) (tick : Nat) : LeastRecentlyUsedCache α :=
  if tick ≤ (c.itemPool id).tick then
    c
  else
    let c := c.setItem id { c.itemPool id with tick := tick }
    if some id = c.lastItem then c else (c.detach id).attach id

/-- `Free`. -/
def free (id : Nat) : LeastRecentlyUsedCache α :=
  let c := c.detach id
  let c := (c.setPrev id none).setNext id none
  { c with freeItems := c.freeItems ++ [id] }

/-! ## The walk -/

/-- A tick as a signed number. -/
def toS64 (tick : Nat) : Int :=
  if tick % 2 ^ 64 < 2 ^ 63 then (tick % 2 ^ 64 : Nat) else (tick % 2 ^ 64 : Nat) - 2 ^ 64

/-- How `ForEachItemBelow` may fail. -/
inductive Fault
  | signedOverflow
  | outOfFuel
  deriving DecidableEq

/-- Whether the walk reads what the function returns. The code compares a class template with `bool`
instead of the type that it has as a member, and the two are never the same. -/
def returnsBool : Bool := false

/-- The objects that the function is called with, in the order of the calls. -/
def forEachItemBelowFrom (c : LeastRecentlyUsedCache α) (tick : Nat) (func : α → Bool) :
    Nat → Option Nat → Except Fault (List α)
  | _, none => .ok []
  | 0, some _ => .error .outOfFuel
  | fuel + 1, some iterator =>
    let item := c.itemPool iterator
    let difference := toS64 tick - toS64 item.tick
    if difference < -2 ^ 63 ∨ 2 ^ 63 ≤ difference then
      .error .signedOverflow
    else if difference < 0 then
      .ok []
    else if returnsBool && func item.obj then
      .ok [item.obj]
    else
      (c.forEachItemBelowFrom tick func fuel item.next).map (item.obj :: ·)

def forEachItemBelow (tick : Nat) (func : α → Bool) (fuel : Nat) : Except Fault (List α) :=
  c.forEachItemBelowFrom tick func fuel c.firstItem

end LeastRecentlyUsedCache

end SumiEmu.Common

/-!
## The list of the cache

The first and the last item and the links of the items form a ring, whose root is the cache itself.
Detaching an item takes it out of the ring and attaching one puts it at the end, and neither changes
what any item holds.
-/

namespace SumiEmu.Common.LeastRecentlyUsedCache

open Linking List

variable {α : Type*} {c : LeastRecentlyUsedCache α} {l l₁ l₂ : List Nat} {a id : Nat}
  {x pointer link : Option Nat}

/-! ## Links -/

/-- The link ahead of an item, or the first item. -/
def next (c : LeastRecentlyUsedCache α) : Option Nat → Option Nat
  | none => c.firstItem
  | some id => (c.itemPool id).next

/-- The link behind an item, or the last item. -/
def prev (c : LeastRecentlyUsedCache α) : Option Nat → Option Nat
  | none => c.lastItem
  | some id => (c.itemPool id).prev

/-- The items of the list, from the first to the last. -/
def Lists (c : LeastRecentlyUsedCache α) (l : List Nat) : Prop := Linking.Ring c.next c.prev l

theorem next_setNext : (c.setNext id link).next x = if x = some id then link else c.next x := by
  cases x with
  | none => rw [if_neg (by simp)]; rfl
  | some i =>
    by_cases same : i = id
    · obtain rfl := same
      simp [next, setNext, setItem]
    · simp [next, setNext, setItem, same]

theorem prev_setNext : (c.setNext id link).prev x = c.prev x := by
  cases x with
  | none => rfl
  | some i =>
    by_cases same : i = id
    · obtain rfl := same
      simp [prev, setNext, setItem]
    · simp [prev, setNext, setItem, same]

theorem prev_setPrev : (c.setPrev id link).prev x = if x = some id then link else c.prev x := by
  cases x with
  | none => rw [if_neg (by simp)]; rfl
  | some i =>
    by_cases same : i = id
    · obtain rfl := same
      simp [prev, setPrev, setItem]
    · simp [prev, setPrev, setItem, same]

theorem next_setPrev : (c.setPrev id link).next x = c.next x := by
  cases x with
  | none => rfl
  | some i =>
    by_cases same : i = id
    · obtain rfl := same
      simp [next, setPrev, setItem]
    · simp [next, setPrev, setItem, same]

/-! ## What items hold -/

/-- The operations on the list change neither what an item holds nor which slots there are. -/
structure Holds (c c' : LeastRecentlyUsedCache α) : Prop where
  obj : ∀ id, (c'.itemPool id).obj = (c.itemPool id).obj
  tick : ∀ id, (c'.itemPool id).tick = (c.itemPool id).tick
  freeItems : c'.freeItems = c.freeItems
  poolSize : c'.poolSize = c.poolSize

theorem Holds.refl (c : LeastRecentlyUsedCache α) : c.Holds c :=
  ⟨fun _ => rfl, fun _ => rfl, rfl, rfl⟩

theorem Holds.trans {c₁ c₂ c₃ : LeastRecentlyUsedCache α} (first : c₁.Holds c₂)
    (second : c₂.Holds c₃) : c₁.Holds c₃ :=
  ⟨fun id => (second.obj id).trans (first.obj id), fun id => (second.tick id).trans (first.tick id),
    second.freeItems.trans first.freeItems, second.poolSize.trans first.poolSize⟩

theorem holds_setNext : c.Holds (c.setNext id link) := by
  refine ⟨fun i => ?_, fun i => ?_, rfl, rfl⟩
  all_goals
    by_cases same : i = id
    · obtain rfl := same
      simp [setNext, setItem]
    · simp [setNext, setItem, same]

theorem holds_setPrev : c.Holds (c.setPrev id link) := by
  refine ⟨fun i => ?_, fun i => ?_, rfl, rfl⟩
  all_goals
    by_cases same : i = id
    · obtain rfl := same
      simp [setPrev, setItem]
    · simp [setPrev, setItem, same]

theorem holds_setNext? : c.Holds (c.setNext? pointer link) := by
  cases pointer with
  | none => exact Holds.refl c
  | some id => exact holds_setNext

theorem holds_setPrev? : c.Holds (c.setPrev? pointer link) := by
  cases pointer with
  | none => exact Holds.refl c
  | some id => exact holds_setPrev

/-- The first and the last item are not what items hold. -/
theorem Holds.ends {c' : LeastRecentlyUsedCache α} (holds : c.Holds c') (first last : Option Nat) :
    c.Holds { c' with firstItem := first, lastItem := last } :=
  ⟨holds.obj, holds.tick, holds.freeItems, holds.poolSize⟩

theorem holds_attach : c.Holds (c.attach a) := by
  rw [attach]
  have first : c.Holds (if c.firstItem = none then { c with firstItem := some a } else c) := by
    split
    · exact (Holds.refl c).ends (some a) c.lastItem
    · exact Holds.refl c
  generalize (if c.firstItem = none then { c with firstItem := some a } else c) = c' at first
  dsimp only
  split
  · exact first.ends c'.firstItem (some a)
  · exact (((first.trans holds_setPrev).trans holds_setNext).trans holds_setNext).ends _ _

theorem holds_detach : c.Holds (c.detach a) := by
  have neighbours : c.Holds (c.detachNeighbours a) := holds_setNext?.trans holds_setPrev?
  have first : (c.detachNeighbours a).Holds ((c.detachNeighbours a).detachFirst a) := by
    rw [detachFirst]
    split
    · exact ((Holds.refl _).ends _ (c.detachNeighbours a).lastItem).trans holds_setPrev?
    · exact Holds.refl _
  refine (neighbours.trans first).trans ?_
  rw [detach, detachLast]
  split
  · exact ((Holds.refl _).ends ((c.detachNeighbours a).detachFirst a).firstItem _).trans
      holds_setNext?
  · exact Holds.refl _

/-! ## Detaching -/

theorem next_setNext? : (c.setNext? pointer link).next x =
    if x = pointer ∧ pointer ≠ none then link else c.next x := by
  cases pointer with
  | none => simp [setNext?]
  | some id => simp [setNext?, next_setNext]

theorem prev_setNext? : (c.setNext? pointer link).prev x = c.prev x := by
  cases pointer with
  | none => rfl
  | some id => exact prev_setNext

theorem prev_setPrev? : (c.setPrev? pointer link).prev x =
    if x = pointer ∧ pointer ≠ none then link else c.prev x := by
  cases pointer with
  | none => simp [setPrev?]
  | some id => simp [setPrev?, prev_setPrev]

theorem next_setPrev? : (c.setPrev? pointer link).next x = c.next x := by
  cases pointer with
  | none => rfl
  | some id => exact next_setPrev

/-- The links of an item in the middle of the list. -/
structure Amid (c : LeastRecentlyUsedCache α) (a : Nat) (before after : Option Nat) : Prop where
  prev : c.prev (some a) = before
  next : c.next (some a) = after
  apart : before ≠ some a
  apart' : after ≠ some a
  first : c.next none = some a ↔ before = none
  last : c.prev none = some a ↔ after = none

theorem next_detachFirst : (c.detachFirst a).next x =
    if c.next none = some a ∧ x = none then c.next (some a) else c.next x := by
  rw [detachFirst]
  by_cases front : c.firstItem = some a
  · rw [if_pos front, next_setPrev?]
    cases x with
    | none => rw [if_pos ⟨front, rfl⟩]; rfl
    | some i => rw [if_neg (by simp)]; rfl
  · rw [if_neg front, if_neg (fun both => front both.1)]

theorem prev_detachFirst : (c.detachFirst a).prev x =
    if c.next none = some a ∧ x = c.next (some a) ∧ x ≠ none then none else c.prev x := by
  rw [detachFirst]
  by_cases front : c.firstItem = some a
  · rw [if_pos front, prev_setPrev?]
    change (if x = c.next (some a) ∧ c.next (some a) ≠ none then none else c.prev x) = _
    by_cases here : x = c.next (some a)
    · simp [here, next, front]
    · simp [here]
  · rw [if_neg front, if_neg (fun both => front both.1)]

theorem prev_detachLast : (c.detachLast a).prev x =
    if c.prev none = some a ∧ x = none then c.prev (some a) else c.prev x := by
  rw [detachLast]
  by_cases back : c.lastItem = some a
  · rw [if_pos back, prev_setNext?]
    cases x with
    | none => rw [if_pos ⟨back, rfl⟩]; rfl
    | some i => rw [if_neg (by simp)]; rfl
  · rw [if_neg back, if_neg (fun both => back both.1)]

theorem next_detachLast : (c.detachLast a).next x =
    if c.prev none = some a ∧ x = c.prev (some a) ∧ x ≠ none then none else c.next x := by
  rw [detachLast]
  by_cases back : c.lastItem = some a
  · rw [if_pos back, next_setNext?]
    change (if x = c.prev (some a) ∧ c.prev (some a) ≠ none then none else c.next x) = _
    by_cases here : x = c.prev (some a)
    · simp [here, prev, back]
    · simp [here]
  · rw [if_neg back, if_neg (fun both => back both.1)]

theorem links_detachNeighbours {before after : Option Nat} (amid : c.Amid a before after) :
    (c.detachNeighbours a).next x = (if x = before ∧ before ≠ none then after else c.next x) ∧
    (c.detachNeighbours a).prev x = (if x = after ∧ after ≠ none then before else c.prev x) := by
  have ahead : ((c.setNext? (c.itemPool a).prev (c.itemPool a).next).itemPool a).next = after := by
    change (c.setNext? (c.prev (some a)) (c.next (some a))).next (some a) = after
    rw [next_setNext?, amid.prev, if_neg (fun both => amid.apart both.1.symm), amid.next]
  have behind :
      ((c.setNext? (c.itemPool a).prev (c.itemPool a).next).itemPool a).prev = before := by
    change (c.setNext? (c.prev (some a)) (c.next (some a))).prev (some a) = before
    rw [prev_setNext?, amid.prev]
  rw [detachNeighbours, ahead, behind, next_setPrev?, prev_setPrev?]
  change (c.setNext? (c.prev (some a)) (c.next (some a))).next x = _ ∧
    (if x = after ∧ after ≠ none then before
      else (c.setNext? (c.prev (some a)) (c.next (some a))).prev x) = _
  rw [next_setNext?, prev_setNext?, amid.prev, amid.next]
  exact ⟨rfl, rfl⟩

/-- Detaching links the neighbours of the item, the root included, to each other. -/
theorem links_detach {before after : Option Nat} (amid : c.Amid a before after) :
    (c.detach a).next x = (if x = before then after else c.next x) ∧
    (c.detach a).prev x = (if x = after then before else c.prev x) := by
  have links := fun x => links_detachNeighbours (x := x) amid
  have itself := links (some a)
  rw [if_neg (fun both => amid.apart both.1.symm), if_neg (fun both => amid.apart' both.1.symm),
    amid.next, amid.prev] at itself
  have root := links none
  rw [if_neg (fun both => both.2 both.1.symm), if_neg (fun both => both.2 both.1.symm)] at root
  have front : (c.detachNeighbours a).next none = some a ↔ before = none := by
    rw [root.1, amid.first]
  -- Where the item was the first one, the root is its neighbour.
  have next₂ : ∀ x, ((c.detachNeighbours a).detachFirst a).next x =
      if x = before then after else c.next x := by
    intro x
    rw [next_detachFirst, itself.1, (links x).1]
    by_cases none : before = none
    · simp [front.2 none, none]
    · simp [mt front.1 none, none]
  have prev₂ : ∀ x, ((c.detachNeighbours a).detachFirst a).prev x =
      if x = after ∧ after ≠ none then before else c.prev x := by
    intro x
    rw [prev_detachFirst, itself.1, (links x).2]
    by_cases none : before = none
    · by_cases here : x = after
      · cases x with
        | none => simp [← here]
        | some i => simp [← here, front.2 none, none]
      · simp [here]
    · simp [mt front.1 none]
  have back : ((c.detachNeighbours a).detachFirst a).prev none = some a ↔ after = none := by
    rw [prev₂, if_neg (fun both => both.2 both.1.symm), amid.last]
  have itself₂ : ((c.detachNeighbours a).detachFirst a).prev (some a) = before := by
    rw [prev₂, if_neg (fun both => amid.apart' both.1.symm), amid.prev]
  -- Where it was the last one, the root is its other neighbour.
  constructor
  · rw [detach, next_detachLast, itself₂, next₂ x]
    by_cases none : after = none
    · by_cases here : x = before
      · simp [here, none]
      · simp [here]
    · simp [mt back.1 none]
  · rw [detach, prev_detachLast, itself₂, prev₂ x]
    by_cases none : after = none
    · simp [back.2 none, none]
    · simp [mt back.1 none, none]

/-- In the list, the neighbours of an item are those next to it. -/
theorem amid_of_lists (lists : c.Lists (l₁ ++ a :: l₂)) : c.Amid a l₁.getLast? l₂.head? := by
  have ring : Linking.Ring c.next c.prev (l₁ ++ [a] ++ l₂) := by simpa [Lists] using lists
  have nodup := nodup_middle.mp lists.nodup
  have fresh := (nodup_cons.1 nodup).1
  obtain ⟨-, middle, -⟩ := ring_segment.mp ring
  simp only [map_cons, map_nil, singleton_append, isChain_cons_cons,
    isChain_singleton, and_true, Linking.Joined] at middle
  obtain ⟨⟨-, before⟩, after, -⟩ := middle
  refine ⟨before, after, ?_, ?_, ?_, ?_⟩
  · exact fun last => fresh (mem_append_left _ (mem_of_getLast? last))
  · exact fun first => fresh (mem_append_right _ (mem_of_head? first))
  · rw [lists.next_none]
    cases l₁ with
    | nil => simp
    | cons b l₁ =>
      simp only [cons_append, head?_cons, Option.some.injEq, getLast?_cons]
      simp only [reduceCtorEq, iff_false]
      rintro rfl
      exact fresh (mem_append_left _ mem_cons_self)
  · rw [lists.prev_none]
    cases l₂ with
    | nil => simp
    | cons b l₂ =>
      rw [getLast?_append_cons, getLast?_cons_cons]
      simp only [head?_cons, reduceCtorEq, iff_false]
      exact fun same => fresh (mem_append_right _ (mem_of_getLast? same))

theorem lists_detach (lists : c.Lists (l₁ ++ a :: l₂)) : (c.detach a).Lists (l₁ ++ l₂) := by
  have amid := amid_of_lists lists
  have ring : Linking.Ring c.next c.prev (l₁ ++ [a] ++ l₂) := by simpa [Lists] using lists
  rw [Lists, ← append_nil l₁]
  refine Ring.splice l₁ [a] [] l₂ ring ?_ (fun x other _ => ?_) fun x other _ => ?_
  · rw [map_nil, nil_append, isChain_pair, Linking.Joined, (links_detach amid).1,
      if_pos rfl, (links_detach amid).2, if_pos rfl]
    exact ⟨rfl, rfl⟩
  · rw [(links_detach amid).1, if_neg other]
  · rw [(links_detach amid).2, if_neg other]

/-! ## Attaching -/

theorem prev_lastItem {last : Option Nat} :
    prev { c with lastItem := last } x = if x = none then last else c.prev x := by
  cases x <;> rfl

/-- An item is attached to an empty list with the links that it has, and so must have none. -/
theorem lists_attach_nil (lists : c.Lists [])
    (bare : c.next (some a) = none ∧ c.prev (some a) = none) : (c.attach a).Lists [a] := by
  obtain ⟨first, last⟩ := ring_nil.1 lists
  change c.firstItem = none at first
  change c.lastItem = none at last
  rw [attach, if_pos first]
  dsimp only
  rw [last]
  simp only [Lists, Linking.Ring, map_cons, map_nil, singleton_append,
    isChain_cons_cons, isChain_singleton, and_true, Linking.Joined]
  exact ⟨⟨rfl, bare.2⟩, bare.1, rfl⟩

theorem lists_attach_cons {last : Nat} (lists : c.Lists (l ++ [last])) (fresh : a ∉ l ++ [last]) :
    (c.attach a).Lists (l ++ [last] ++ [a]) := by
  have back : c.lastItem = some last := by
    have tail := lists.prev_none
    rwa [getLast?_concat] at tail
  have front : c.firstItem ≠ none := by
    have head := lists.next_none
    change c.firstItem = _ at head
    rw [head]
    simp
  have apart : a ≠ last := by
    rintro rfl
    exact fresh (mem_append_right _ (mem_singleton_self a))
  have links : ∀ x, (c.attach a).next x =
        (if x = some a then none else if x = some last then some a else c.next x) ∧
      (c.attach a).prev x =
        (if x = none then some a else if x = some a then some last else c.prev x) := by
    intro x
    rw [attach, if_neg front]
    dsimp only
    rw [back]
    dsimp only
    constructor
    · change ((((c.setPrev a (some last)).setNext last (some a)).setNext a none).next x) = _
      rw [next_setNext, next_setNext, next_setPrev]
    · rw [prev_lastItem, prev_setNext, prev_setNext, prev_setPrev]
  rw [Lists, ← append_nil (l ++ [last] ++ [a])]
  refine Ring.splice (l ++ [last]) [] [a] [] (by simpa [Lists] using lists) ?_
    (fun x other inside => ?_) fun x other inside => ?_
  · simp [Linking.Joined, links, apart.symm]
  · rw [getLast?_concat] at other
    have away : x ≠ some a := fun same => fresh (by simpa using inside a same)
    rw [(links x).1, if_neg away, if_neg other]
  · rw [head?_nil] at other
    have away : x ≠ some a := fun same => fresh (by simpa using inside a same)
    rw [(links x).2, if_neg other, if_neg away]

theorem lists_attach (lists : c.Lists l) (fresh : a ∉ l)
    (bare : l = [] → c.next (some a) = none ∧ c.prev (some a) = none) :
    (c.attach a).Lists (l ++ [a]) := by
  rcases l.eq_nil_or_concat with rfl | ⟨l, last, rfl⟩
  · exact lists_attach_nil lists (bare rfl)
  · rw [concat_eq_append] at lists fresh ⊢
    exact lists_attach_cons lists fresh

/-- What an item outside of the list holds, its links included, is not part of the list. -/
theorem lists_setItem {item : Item α} (lists : c.Lists l) (outside : a ∉ l) :
    (c.setItem a item).Lists l := by
  refine lists.congr rfl rfl (fun b member => ?_)
  have other : b ≠ a := fun same => outside (same ▸ member)
  simp [next, prev, setItem, other]

/-- Nor is what an item holds besides its links. -/
theorem lists_setTick {tick : Nat} (lists : c.Lists l) :
    (c.setItem a { c.itemPool a with tick := tick }).Lists l := by
  refine lists.congr rfl rfl (fun b _ => ?_)
  by_cases same : b = a
  · obtain rfl := same
    simp [next, prev, setItem]
  · simp [next, prev, setItem, same]

end SumiEmu.Common.LeastRecentlyUsedCache
