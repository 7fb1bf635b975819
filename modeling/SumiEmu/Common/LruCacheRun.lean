/-
# Runs of the cache

What a cache is for is said by a list of entries, the least recently moved first, and a queue of
free slots. An insertion puts its entry at the end, and so does a touch with a tick above that of
the entry. In every run with ticks that do not decrease, the list of the cache is that of the
entries.
-/

import SumiEmu.Common.LruCache

namespace SumiEmu.Common.LeastRecentlyUsedCache

open Linking Function List Nat

variable {α : Type*} {c : LeastRecentlyUsedCache α} {id : Nat} {tick now : Nat} {obj : α}

/-! ## The purpose of the cache -/

/-- A live item. -/
structure Entry (α : Type*) where
  id : Nat
  obj : α
  tick : Nat

/-- The entries in use, the slots that have been freed, in the order of that, and how many slots
have been used at all. -/
structure Usage (α : Type*) where
  live : List (Entry α)
  freed : List Nat
  slots : Nat

namespace Usage

variable {s : Usage α}

variable (s : Usage α)

/-- The ids of the live items. -/
def ids : List Nat := s.live.map Entry.id

/-- The slot of the next insertion. -/
def newId : Nat := s.freed.head?.getD s.slots

/-- An item is inserted. -/
def insert (obj : α) (tick : Nat) : Usage α where
  live := s.live ++ [⟨s.newId, obj, tick⟩]
  freed := s.freed.tail
  slots := if s.freed = [] then s.slots + 1 else s.slots

/-- An entry is touched: it moves to the end, unless the tick is not above its own. -/
def touchEntry (live : List (Entry α)) (id : Nat) (tick : Nat) : List (Entry α) :=
  match live.find? (fun e => e.id == id) with
  | some e =>
    if e.tick < tick then
      live.filter (fun e => e.id != id) ++ [{ e with tick := tick }]
    else
      live
  | none => live

/-- An item is touched. -/
def touch (id : Nat) (tick : Nat) : Usage α :=
  { s with live := touchEntry s.live id tick }

/-- An item is freed. -/
def free (id : Nat) : Usage α :=
  { s with live := s.live.filter (fun e => e.id != id), freed := s.freed ++ [id] }

end Usage

/-- A run on live slots with ticks that do not decrease, and the last tick. -/
inductive Reachable [Inhabited α] : LeastRecentlyUsedCache α → Usage α → Nat → Prop
  | create : Reachable create ⟨[], [], 0⟩ 0
  | insert {c : LeastRecentlyUsedCache α} {s : Usage α} {now tick : Nat} (obj : α) :
    Reachable c s now → now ≤ tick → Reachable (c.insert obj tick).2 (s.insert obj tick) tick
  | touch {c : LeastRecentlyUsedCache α} {s : Usage α} {now tick : Nat} {id : Nat} :
    Reachable c s now → now ≤ tick → id ∈ s.ids → Reachable (c.touch id tick) (s.touch id tick) tick
  | free {c : LeastRecentlyUsedCache α} {s : Usage α} {now : Nat} {id : Nat} :
    Reachable c s now → id ∈ s.ids → Reachable (c.free id) (s.free id) now

/-! ## The entries -/

/-- The order of the entries, and the slots that are in use or free. -/
structure Usage.Valid (s : Usage α) (now : Nat) : Prop where
  sorted : s.live.Pairwise (fun e e' => e.tick ≤ e'.tick)
  recent : ∀ e ∈ s.live, e.tick ≤ now
  slots : (s.ids ++ s.freed).Perm (range s.slots)

namespace Usage

variable {s : Usage α}

theorem Valid.nodup (valid : s.Valid now) : (s.ids ++ s.freed).Nodup :=
  valid.slots.nodup_iff.2 nodup_range

/-- An entry is where its slot is, with the others before and after it. -/
theorem split_of_mem (nodup : s.ids.Nodup) (member : id ∈ s.ids) :
    ∃ before e after, s.live = before ++ e :: after ∧ e.id = id ∧
      s.live.find? (fun e => e.id == id) = some e ∧
      s.live.filter (fun e => e.id != id) = before ++ after := by
  obtain ⟨e, inLive, rfl⟩ := mem_map.1 member
  obtain ⟨before, after, split⟩ := append_of_mem inLive
  rw [ids, split, map_append, map_cons, nodup_middle, nodup_cons] at nodup
  have other : ∀ e' ∈ before ++ after, e'.id ≠ e.id := by
    intro e' inOthers same
    apply nodup.1
    rw [← same, ← map_append]
    exact mem_map_of_mem inOthers
  refine ⟨before, e, after, split, rfl, ?_, ?_⟩
  · rw [split, find?_append, find?_eq_none.2 ?_, Option.none_or,
      find?_cons_of_pos (by simp)]
    intro e' inBefore
    simpa using other e' (mem_append_left _ inBefore)
  · rw [split, filter_append, filter_cons_of_neg (by simp), ← filter_append,
      filter_eq_self]
    intro e' inOthers
    simpa using other e' inOthers

section

variable (valid : s.Valid now)

include valid

theorem newId_not_mem : s.newId ∉ s.ids := by
  intro member
  rw [newId] at member
  cases freed : s.freed with
  | nil =>
    rw [freed, head?_nil, Option.getD_none] at member
    have below := valid.slots.mem_iff.1 (mem_append_left s.freed member)
    exact lt_irrefl _ (mem_range.1 below)
  | cons first rest =>
    rw [freed, head?_cons, Option.getD_some] at member
    have nodup := valid.nodup
    rw [freed, nodup_append] at nodup
    exact nodup.2.2 first member first mem_cons_self rfl

theorem Valid.insert (obj : α) (later : now ≤ tick) :
    (s.insert obj tick).Valid tick where
  sorted := by
    refine pairwise_append.2 ⟨valid.sorted, pairwise_singleton .., ?_⟩
    intro e inLive e' isNew
    obtain rfl := mem_singleton.1 isNew
    exact le_trans (valid.recent e inLive) later
  recent := by
    intro e member
    rcases mem_append.1 member with inLive | isNew
    · exact le_trans (valid.recent e inLive) later
    · obtain rfl := mem_singleton.1 isNew
      exact le_refl tick
  slots := by
    have slots := valid.slots
    rw [Usage.insert, ids, map_append, map_singleton, newId]
    change ((s.ids ++ [s.freed.head?.getD s.slots]) ++ s.freed.tail).Perm _
    cases freed : s.freed with
    | nil =>
      rw [freed, append_nil] at slots
      rw [if_pos rfl, range_succ, tail_nil, append_nil]
      exact slots.append_right [s.slots]
    | cons first rest =>
      rw [freed] at slots
      simpa using slots

/-- An entry that moves to the end with a tick not below the last one. -/
theorem Valid.move {before after : List (Entry α)} {e : Entry α}
    (split : s.live = before ++ e :: after) (later : now ≤ tick) :
    (Usage.Valid { s with live := before ++ after ++ [{ e with tick := tick }] } tick) where
  sorted := by
    have sorted := valid.sorted
    rw [split] at sorted
    have others := sorted.sublist ((sublist_cons_self e after).append_left before)
    refine pairwise_append.2 ⟨others, pairwise_singleton .., ?_⟩
    intro e' inOthers e'' isMoved
    obtain rfl := mem_singleton.1 isMoved
    have inLive : e' ∈ s.live := by
      rw [split]
      exact ((sublist_cons_self e after).append_left before).subset inOthers
    exact le_trans (valid.recent e' inLive) later
  recent := by
    intro e' member
    rcases mem_append.1 member with inOthers | isMoved
    · have inLive : e' ∈ s.live := by
        rw [split]
        exact ((sublist_cons_self e after).append_left before).subset inOthers
      exact le_trans (valid.recent e' inLive) later
    · obtain rfl := mem_singleton.1 isMoved
      exact le_refl tick
  slots := by
    have slots := valid.slots
    rw [ids, split] at slots
    refine List.Perm.trans (List.Perm.append_right _ ?_) slots
    simp only [ids, map_append, map_cons, map_nil, append_assoc]
    exact List.Perm.append_left _ (perm_append_singleton ..)

theorem Valid.later (later : now ≤ tick) : s.Valid tick :=
  ⟨valid.sorted, fun e member => le_trans (valid.recent e member) later, valid.slots⟩

theorem Valid.free {before after : List (Entry α)} {e : Entry α}
    (split : s.live = before ++ e :: after) :
    (Usage.Valid { s with live := before ++ after, freed := s.freed ++ [e.id] } now) where
  sorted := by
    have sorted := valid.sorted
    rw [split] at sorted
    exact sorted.sublist ((sublist_cons_self e after).append_left before)
  recent := by
    intro e' inOthers
    apply valid.recent
    rw [split]
    exact ((sublist_cons_self e after).append_left before).subset inOthers
  slots := by
    have slots := valid.slots
    rw [ids, split] at slots
    refine List.Perm.trans ?_ slots
    simp only [ids, map_append, map_cons, append_assoc, cons_append]
    refine List.Perm.append_left _ ?_
    rw [← append_assoc]
    exact perm_append_singleton ..

end

end Usage

/-! ## The cache follows its purpose -/

structure Refines (c : LeastRecentlyUsedCache α) (s : Usage α) : Prop where
  lists : c.Lists s.ids
  objs : ∀ e ∈ s.live, (c.itemPool e.id).obj = e.obj ∧ (c.itemPool e.id).tick = e.tick
  freeItems : c.freeItems = s.freed
  poolSize : c.poolSize = s.slots

variable {s : Usage α}

/-- Entries keep what they hold across an operation on the list. -/
theorem Holds.objs {c' : LeastRecentlyUsedCache α} (holds : c.Holds c') {live : List (Entry α)}
    (objs : ∀ e ∈ live, (c.itemPool e.id).obj = e.obj ∧ (c.itemPool e.id).tick = e.tick) :
    ∀ e ∈ live, (c'.itemPool e.id).obj = e.obj ∧ (c'.itemPool e.id).tick = e.tick := by
  intro e member
  rw [holds.obj, holds.tick]
  exact objs e member

theorem build_spec (refines : c.Refines s) (valid : s.Valid now) :
    c.build.1 = s.newId ∧ c.build.2.Lists s.ids ∧
      (c.build.2.next (some s.newId) = none ∧ c.build.2.prev (some s.newId) = none) ∧
      (∀ e ∈ s.live, (c.build.2.itemPool e.id).obj = e.obj ∧
        (c.build.2.itemPool e.id).tick = e.tick) ∧
      c.build.2.freeItems = s.freed.tail ∧
      c.build.2.poolSize = if s.freed = [] then s.slots + 1 else s.slots := by
  have outside := Usage.newId_not_mem valid
  have shape : ∃ c' : LeastRecentlyUsedCache α, c.build =
      (s.newId, (c'.setNext s.newId none).setPrev s.newId none) ∧ c'.itemPool = c.itemPool ∧
      c'.firstItem = c.firstItem ∧ c'.lastItem = c.lastItem ∧ c'.freeItems = s.freed.tail ∧
      c'.poolSize = if s.freed = [] then s.slots + 1 else s.slots := by
    rw [build, Usage.newId, ← refines.freeItems, ← refines.poolSize]
    cases freed : c.freeItems with
    | nil =>
      exact ⟨{ c with freeItems := [], poolSize := c.poolSize + 1 }, rfl, rfl, rfl, rfl, rfl, rfl⟩
    | cons first rest => exact ⟨{ c with freeItems := rest }, rfl, rfl, rfl, rfl, rfl, rfl⟩
  obtain ⟨c', built, pool, first, last, freeItems, poolSize⟩ := shape
  have lists' : c'.Lists s.ids := by
    refine refines.lists.congr first last (fun a _ => ?_)
    rw [next, next, prev, prev, pool]
    exact ⟨rfl, rfl⟩
  have objs' : ∀ e ∈ s.live, (c'.itemPool e.id).obj = e.obj ∧ (c'.itemPool e.id).tick = e.tick := by
    rw [pool]
    exact refines.objs
  rw [built]
  refine ⟨rfl, ?_, ⟨?_, ?_⟩, ?_, freeItems, poolSize⟩
  · exact lists_setItem (lists_setItem lists' outside) outside
  · rw [next_setPrev, next_setNext, if_pos rfl]
  · rw [prev_setPrev, if_pos rfl]
  · exact (holds_setNext.trans holds_setPrev).objs objs'

theorem insert_refines (refines : c.Refines s) (valid : s.Valid now) (obj : α) (tick : Nat) :
    (c.insert obj tick).1 = s.newId ∧ (c.insert obj tick).2.Refines (s.insert obj tick) := by
  obtain ⟨newId, lists, bare, objs, freeItems, poolSize⟩ := build_spec refines valid
  have outside := Usage.newId_not_mem valid
  rw [insert]
  dsimp only
  rw [newId]
  generalize c.build.2 = c' at lists bare objs freeItems poolSize
  have holds := holds_attach (a := s.newId)
    (c := c'.setItem s.newId { c'.itemPool s.newId with obj := obj, tick := tick })
  refine ⟨rfl, ?_, ?_, ?_, ?_⟩
  · rw [Usage.ids, Usage.insert, map_append, map_singleton]
    refine lists_attach (lists_setItem lists outside) outside (fun _ => ?_)
    simp only [next, prev, setItem, update_self]
    exact bare
  · apply holds.objs
    intro e member
    rcases mem_append.1 member with inLive | isNew
    · have other : e.id ≠ s.newId := fun same => outside (same ▸ mem_map_of_mem inLive)
      simp only [setItem, update_of_ne other]
      exact objs e inLive
    · obtain rfl := mem_singleton.1 isNew
      simp [setItem]
  · rw [holds.freeItems]
    exact freeItems
  · rw [holds.poolSize]
    exact poolSize

/-- The entries with one of them moved to the end hold what the items do once its tick is
written. -/
theorem objs_setTick {before after : List (Entry α)} {e : Entry α} (tick : Nat)
    (refines : c.Refines s) (split : s.live = before ++ e :: after)
    (fresh : e.id ∉ before.map Entry.id ++ after.map Entry.id) :
    ∀ e' ∈ before ++ after ++ [{ e with tick := tick }],
      ((c.setItem e.id { c.itemPool e.id with tick := tick }).itemPool e'.id).obj = e'.obj ∧
        ((c.setItem e.id { c.itemPool e.id with tick := tick }).itemPool e'.id).tick = e'.tick := by
  intro e' member
  rcases mem_append.1 member with inOthers | isMoved
  · have other : e'.id ≠ e.id := by
      intro same
      apply fresh
      rw [← same, ← map_append]
      exact mem_map_of_mem inOthers
    simp only [setItem, update_of_ne other]
    apply refines.objs
    rw [split]
    exact ((sublist_cons_self e after).append_left before).subset inOthers
  · obtain rfl := mem_singleton.1 isMoved
    simp only [setItem, update_self]
    refine ⟨(refines.objs e ?_).1, trivial⟩
    rw [split]
    exact mem_append_right _ mem_cons_self

/-- A touch that does not move the item in the list has only written its tick, at the end. -/
theorem touch_refines (refines : c.Refines s) (valid : s.Valid now) (later : now ≤ tick)
    (member : id ∈ s.ids) :
    (c.touch id tick).Refines (s.touch id tick) ∧ (s.touch id tick).Valid tick := by
  have nodup := (nodup_append.1 valid.nodup).1
  obtain ⟨before, e, after, split, rfl, found, others⟩ := Usage.split_of_mem nodup member
  have inLive : e ∈ s.live := by
    rw [split]
    exact mem_append_right _ mem_cons_self
  rw [touch, Usage.touch, Usage.touchEntry, found, (refines.objs e inLive).2]
  dsimp only
  by_cases above : e.tick < tick
  · rw [if_neg (not_le.2 above), if_pos above, others]
    refine ⟨?_, valid.move split later⟩
    have ids : s.ids = before.map Entry.id ++ e.id :: after.map Entry.id := by
      rw [Usage.ids, split, map_append, map_cons]
    have ids' : (before ++ after ++ [{ e with tick := tick }]).map Entry.id =
        before.map Entry.id ++ after.map Entry.id ++ [e.id] := by
      rw [map_append, map_append, map_singleton]
    have fresh : e.id ∉ before.map Entry.id ++ after.map Entry.id := by
      rw [ids, nodup_middle] at nodup
      exact (nodup_cons.1 nodup).1
    have lists : (c.setItem e.id { c.itemPool e.id with tick := tick }).Lists s.ids :=
      lists_setTick refines.lists
    have objs := objs_setTick tick refines split fresh
    generalize hc : c.setItem e.id { c.itemPool e.id with tick := tick } = c' at lists objs
    have freeItems : c'.freeItems = s.freed := by rw [← hc]; exact refines.freeItems
    have poolSize : c'.poolSize = s.slots := by rw [← hc]; exact refines.poolSize
    rw [ids] at lists
    by_cases last : some e.id = c'.lastItem
    · rw [if_pos last]
      -- The item is the last one, so it is where it would be moved to.
      have back := lists.prev_none
      change c'.lastItem = _ at back
      rw [← last] at back
      have none : after = [] := by
        cases after with
        | nil => rfl
        | cons b after =>
          rw [map_cons, getLast?_append_cons, getLast?_cons_cons] at back
          refine absurd (mem_append_right _ (mem_of_getLast? back.symm)) fresh
      obtain rfl := none
      refine ⟨?_, objs, freeItems, poolSize⟩
      rw [Usage.ids, ids']
      simpa using lists
    · rw [if_neg last]
      have holds : c'.Holds ((c'.detach e.id).attach e.id) := holds_detach.trans holds_attach
      refine ⟨?_, holds.objs objs, holds.freeItems.trans freeItems,
        holds.poolSize.trans poolSize⟩
      rw [Usage.ids, ids']
      refine lists_attach (lists_detach lists) fresh (fun alone => ?_)
      -- An item that is alone is the last one.
      have back := lists.prev_none
      change c'.lastItem = _ at back
      rw [append_eq_nil_iff] at alone
      rw [alone.1, alone.2] at back
      exact absurd back.symm last
  · rw [if_pos (Nat.le_of_not_lt above), if_neg above]
    exact ⟨refines, valid.later later⟩

theorem free_refines (refines : c.Refines s) (valid : s.Valid now) (member : id ∈ s.ids) :
    (c.free id).Refines (s.free id) ∧ (s.free id).Valid now := by
  have nodup := (nodup_append.1 valid.nodup).1
  obtain ⟨before, e, after, split, rfl, _, others⟩ := Usage.split_of_mem nodup member
  have ids : s.ids = before.map Entry.id ++ e.id :: after.map Entry.id := by
    rw [Usage.ids, split, map_append, map_cons]
  have fresh : e.id ∉ before.map Entry.id ++ after.map Entry.id := by
    rw [ids, nodup_middle] at nodup
    exact (nodup_cons.1 nodup).1
  have lists := refines.lists
  rw [ids] at lists
  have holds : c.Holds (((c.detach e.id).setPrev e.id none).setNext e.id none) :=
    (holds_detach.trans holds_setPrev).trans holds_setNext
  rw [free, Usage.free, others]
  refine ⟨⟨?_, ?_, ?_, holds.poolSize.trans refines.poolSize⟩, valid.free split⟩
  · rw [Usage.ids, map_append]
    exact lists_setItem (lists_setItem (lists_detach lists) fresh) fresh
  · apply holds.objs
    intro e' inOthers
    apply refines.objs
    rw [split]
    exact ((sublist_cons_self e after).append_left before).subset inOthers
  · change ((((c.detach e.id).setPrev e.id none).setNext e.id none).freeItems ++ [e.id]) = _
    rw [holds.freeItems, refines.freeItems]

theorem create_refines [Inhabited α] : (create : LeastRecentlyUsedCache α).Refines ⟨[], [], 0⟩ where
  lists := ring_nil.2 ⟨rfl, rfl⟩
  objs := fun _ member => absurd member not_mem_nil
  freeItems := rfl
  poolSize := rfl

theorem Reachable.refines [Inhabited α] (run : Reachable c s now) : c.Refines s ∧ s.Valid now := by
  induction run with
  | create =>
    exact ⟨create_refines, List.Pairwise.nil, fun _ member => absurd member not_mem_nil,
      List.Perm.refl _⟩
  | insert obj _ later ih => exact ⟨(insert_refines ih.1 ih.2 obj _).2, ih.2.insert obj later⟩
  | touch _ later member ih => exact touch_refines ih.1 ih.2 later member
  | free _ member ih => exact free_refines ih.1 ih.2 member

/-! ## The walk -/

theorem toS64_of_lt (small : tick < 2 ^ 63) : toS64 tick = tick := by
  have same : tick % 2 ^ 64 = tick := mod_eq_of_lt (by omega)
  rw [toS64, same, if_pos small]

theorem toS64_lt : toS64 tick < 2 ^ 63 := by
  rw [toS64]
  split
  · omega
  · omega

/-- The ticks of the entries are signed numbers as they are, and their differences to the tick of a
walk do not overflow. -/
def Comparable (live : List (Entry α)) (tick : Nat) : Prop :=
  ∀ e ∈ live, e.tick < 2 ^ 63 ∧ -2 ^ 63 ≤ toS64 tick - e.tick

/-- The walk from an item on: it stops at the first entry above the tick, and so are all after
it. -/
theorem forEachItemBelowFrom_eq {live : List (Entry α)} {func : α → Bool} {iterator : Option Nat}
    {fuel : Nat} (linked : Linked (fun a => c.next (some a)) iterator (live.map Entry.id) none)
    (objs : ∀ e ∈ live, (c.itemPool e.id).obj = e.obj ∧ (c.itemPool e.id).tick = e.tick)
    (sorted : live.Pairwise (fun e e' => e.tick ≤ e'.tick)) (comparable : Comparable live tick)
    (enough : live.length < fuel) :
    c.forEachItemBelowFrom tick func fuel iterator =
      .ok ((live.filter (fun e => (e.tick : Int) ≤ toS64 tick)).map Entry.obj) := by
  induction live generalizing iterator fuel with
  | nil =>
    obtain rfl := linked
    cases fuel <;> rfl
  | cons e rest ih =>
    obtain ⟨rfl, linked⟩ := linked
    obtain ⟨fuel, rfl⟩ := exists_eq_succ_of_ne_zero (ne_of_gt (zero_lt_of_lt enough))
    obtain ⟨obj, eTick⟩ := objs e mem_cons_self
    obtain ⟨small, fits⟩ := comparable e mem_cons_self
    obtain ⟨least, sorted⟩ := pairwise_cons.1 sorted
    have below : toS64 tick < 2 ^ 63 := toS64_lt
    rw [forEachItemBelowFrom, eTick, obj, toS64_of_lt small]
    rw [if_neg (by omega)]
    by_cases reached : toS64 tick - e.tick < 0
    · have none : ∀ e' ∈ e :: rest, ¬ (e'.tick : Int) ≤ toS64 tick := by
        intro e' member
        rcases mem_cons.1 member with rfl | later
        · omega
        · have above := least e' later
          omega
      rw [if_pos reached, filter_eq_nil_iff.2 (by simpa using none)]
      rfl
    · rw [if_neg reached, filter_cons, if_pos (decide_eq_true (by omega)), map_cons]
      have walked := ih linked (fun e' member => objs e' (mem_cons_of_mem e member)) sorted
        (fun e' member => comparable e' (mem_cons_of_mem e member))
        (lt_of_succ_lt_succ enough)
      change (c.forEachItemBelowFrom tick func fuel (c.next (some e.id))).map (e.obj :: ·) = _
      rw [walked]
      rfl

/-- The list of a cache is that of the entries, in the order in which they have moved to the end,
and a walk with a function that returns nothing visits those up to its tick. -/
structure Exact (c : LeastRecentlyUsedCache α) (s : Usage α) : Prop where
  ring : Linking.Ring c.next c.prev s.ids
  once : s.ids.Nodup
  sorted : s.live.Pairwise (fun e e' => e.tick ≤ e'.tick)
  holds : ∀ e ∈ s.live, (c.itemPool e.id).obj = e.obj ∧ (c.itemPool e.id).tick = e.tick
  slots : ∀ id, id < c.poolSize ↔ id ∈ s.ids ∨ id ∈ s.freed
  apart : ∀ id ∈ s.freed, id ∉ s.ids
  reused : ∀ obj tick, (c.insert obj tick).1 = s.newId ∧ s.newId ∉ s.ids ∧
    (s.newId ∈ s.freed ∨ s.newId = c.poolSize)
  walked : ∀ tick func fuel, (∀ obj, func obj = false) → Comparable s.live tick →
    s.live.length < fuel → c.forEachItemBelow tick func fuel =
    .ok ((s.live.filter (fun e => (e.tick : Int) ≤ toS64 tick)).map Entry.obj)

/-- In every run the cache is exact. -/
theorem run_exact [Inhabited α] (run : Reachable c s now) : Exact c s := by
  obtain ⟨refines, valid⟩ := run.refines
  have apart := nodup_append.1 valid.nodup
  refine ⟨refines.lists, apart.1, valid.sorted, refines.objs, fun id => ?_, fun id free live => ?_,
    fun obj tick => ⟨(insert_refines refines valid obj tick).1, Usage.newId_not_mem valid, ?_⟩, ?_⟩
  · rw [refines.poolSize, ← mem_range, ← valid.slots.mem_iff, mem_append]
  · exact apart.2.2 id live id free rfl
  · rw [refines.poolSize, Usage.newId]
    cases s.freed with
    | nil => exact Or.inr rfl
    | cons first rest => exact Or.inl mem_cons_self
  · intro tick func fuel _ comparable enough
    exact forEachItemBelowFrom_eq refines.lists.linked refines.objs valid.sorted comparable enough

theorem run_exact_touch : ∃ (c : LeastRecentlyUsedCache Nat) (s : Usage Nat), Reachable c s 7 ∧
    s.ids = [1, 0] ∧ s.live.map Entry.tick = [5, 7] ∧ Exact c s := by
  have inserted : Reachable _ _ 5 :=
    .insert 20 (.insert 10 .create (zero_le 3)) (by decide : 3 ≤ 5)
  have member : 0 ∈ [0, 1] := mem_cons_self
  have run := inserted.touch (by decide : 5 ≤ 7) member
  exact ⟨_, _, run, rfl, rfl, run_exact run⟩

/-- An item that is touched with the tick that it has stays where it is, and a walk up to a tick
that is negative as a signed number visits nothing. -/
theorem touch_same_tick :
    (¬ ∀ (c : LeastRecentlyUsedCache Nat) (s : Usage Nat) (now id tick : Nat),
      Reachable c s now → now ≤ tick → id ∈ s.ids → (c.touch id tick).lastItem = some id) ∧
    ¬ ∀ (c : LeastRecentlyUsedCache Nat) (s : Usage Nat) (now tick fuel : Nat),
      Reachable c s now → tick < 2 ^ 64 → s.live.length < fuel →
        c.forEachItemBelow tick (fun _ => false) fuel =
          .ok ((s.live.filter (fun e => e.tick ≤ tick)).map Entry.obj) := by
  constructor
  · intro always
    have run : Reachable _ _ 5 := .insert 20 (.insert 10 .create (zero_le 5)) (le_refl 5)
    have last := always _ _ 5 0 5 run (le_refl 5) (by decide)
    exact absurd last (by decide)
  · intro always
    have run : Reachable _ _ 5 := .insert 10 .create (zero_le 5)
    have visited := always _ _ 5 (2 ^ 64 - 1) 2 run (by decide) (by decide)
    exact absurd visited (by decide)

end SumiEmu.Common.LeastRecentlyUsedCache
