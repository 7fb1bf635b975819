/-
# Pinning when the device has run out of addresses

The handles in the queue are there to be unmapped when an allocation fails. The loop that does so
tests the address of the handle that is pinned instead of the one in the queue, so that it frees
something only for a handle that has an address already, and it does not end with the queue then.
For other handles it goes on forever, or reads the front of a queue that is empty.
-/

import SumiEmu.Common.FlatAllocator
import SumiEmu.Nvdrv.NvMap

namespace SumiEmu.Nvdrv.NvMap

open Fallible Function List

variable {D : Type*} (host1x : Host1x D)

/-! ## What pinning should do -/

/-- The handles in the queue know their elements, and none of them is pinned. -/
structure WellFormed (map : NvMap D) : Prop where
  nodes : (map.unmapQueue.map Prod.fst).Nodup
  entry : ∀ node ref, (node, ref) ∈ map.unmapQueue → (map.object ref).unmapQueueEntry = some node
  unpinned : ∀ node ref, (node, ref) ∈ map.unmapQueue → (map.object ref).pins ≤ 0

/-- What is allocated for a handle. -/
def requested (map : NvMap D) (ref : Ref) : Nat := alignUp (map.object ref).alignedSize bigPageSize

/-- An allocation fails and leaves the device as it is. -/
def Exhausted (size : Nat) (map : NvMap D) : Prop :=
  host1x.smmuAllocate size map.device = (0, map.device)

/-- A handle is going to be pinned, is to be given an address, and there is none. -/
structure Starved (map : NvMap D) (id : Nat) (ref : Ref) : Prop where
  handle : map.handles id = some ref
  pins : (map.object ref).pins = 0
  entry : (map.object ref).unmapQueueEntry = none
  outside : ¬ ((host1x.session (map.object ref).sessionId).hasPreallocatedArea ∧
    (host1x.session (map.object ref).sessionId).isInBounds (map.object ref).address
    (map.object ref).alignedSize)
  exhausted : Exhausted host1x (map.requested ref) map

/-- The first handles of the queue are unmapped. -/
def unmapFirst : Nat → NvMap D → Except NvMapFault (NvMap D)
  | 0, map => .ok map
  | count + 1, map =>
    match map.unmapQueue with
    | [] => .error .emptyQueue
    | (_, ref) :: _ => do
      let map ← map.unmapHandle host1x ref
      unmapFirst count map

/-- An allocation succeeds when the first handles of the queue have been unmapped, and not
before. -/
structure HelpsAfter (size count : Nat) (map map' : NvMap D) (address : Nat) (device : D) :
    Prop where
  before : ∀ i < count, ∃ map', unmapFirst host1x i map = .ok map' ∧ Exhausted host1x size map'
  unmapped : unmapFirst host1x count map = .ok map'
  allocated : host1x.smmuAllocate size map'.device = (address, device)
  some : address ≠ 0

/-- No allocation succeeds until the queue is empty. -/
def Unhelpable (size : Nat) (map : NvMap D) : Prop :=
  ∀ count ≤ map.unmapQueue.length, ∃ map', unmapFirst host1x count map = .ok map' ∧
    Exhausted host1x size map'

/-- The device when a handle has been mapped at an address. -/
def mappedDevice (handle : Handle) (address : Nat) (device : D) : D :=
  host1x.smmuMap address handle.address handle.alignedSize (host1x.session handle.sessionId).asid
    device

/-- The device when a handle has been mapped at an address, for the low area too if it is asked
for. -/
def pinnedDevice (handle : Handle) (lowAreaPin : Bool) (address : Nat) (device : D) : D :=
  if lowAreaPin ∧ handle.pinVirtAddress = 0 then
    let (low, device) := host1x.gmmuAllocate (handle.alignedSize % 2 ^ 32)
      (mappedDevice host1x handle address device)
    host1x.gmmuMap low address handle.alignedSize device
  else mappedDevice host1x handle address device

/-- There is room in the low area if it is asked for. -/
def LowAreaRoom (handle : Handle) (lowAreaPin : Bool) (address : Nat) (device : D) : Prop :=
  lowAreaPin → handle.pinVirtAddress = 0 →
    (host1x.gmmuAllocate (handle.alignedSize % 2 ^ 32)
      (mappedDevice host1x handle address device)).1 ≠ 0

/-- The first handles of the queue have been unmapped and no others, and the handle is mapped. -/
structure Pinned (map : NvMap D) (ref : Ref) (lowAreaPin : Bool) (count address : Nat) (device : D)
    (returned : Nat) (map' : NvMap D) : Prop where
  queue : map'.unmapQueue = map.unmapQueue.drop count
  released : ∀ other ∈ (map.unmapQueue.take count).map Prod.snd,
    (map'.object other).dAddress = 0 ∧ (map'.object other).unmapQueueEntry = none
  others : ∀ other, other ≠ ref → other ∉ (map.unmapQueue.take count).map Prod.snd →
    map'.object other = map.object other
  stillPinned : ∀ other, 0 < (map.object other).pins → map'.object other = map.object other
  mapped : (map'.object ref).dAddress = address ∧ (map'.object ref).pins = 1
  returns : returned = if lowAreaPin then (map'.object ref).pinVirtAddress
    else (map'.object ref).dAddress
  some : returned ≠ 0
  device : map'.device = pinnedDevice host1x (map.object ref) lowAreaPin address device

/-- Space is freed as far as it is needed, and where that does not help no other memory is
touched. -/
structure FreesSpace (map : NvMap D) (id : Nat) (ref : Ref) (lowAreaPin : Bool) : Prop where
  helps : ∀ count unmapped address device,
    HelpsAfter host1x (map.requested ref) count map unmapped address device →
    ∃ rounds returned map', pinHandle host1x rounds map id lowAreaPin = .ok (returned, map') ∧
    Pinned host1x map ref lowAreaPin count address device returned map'
  stays : Unhelpable host1x (map.requested ref) map →
    ∀ rounds, pinHandle host1x rounds map id lowAreaPin ≠ .error .emptyQueue

/-! ## Handles that leave the queue -/

variable {host1x} {map map' unmapped : NvMap D} {ref : Ref} {node count size address id : Nat}
    {device : D}
  {rest : List (Nat × Ref)} {lowAreaPin : Bool}

/-- The map when the handle at the front of the queue has been unmapped. -/
def withoutFront (host1x : Host1x D) (map : NvMap D) (ref : Ref) (rest : List (Nat × Ref)) :
    NvMap D :=
  { map with
    unmapQueue := rest
    object := update map.object ref
      { map.object ref with
        unmapQueueEntry := none, pinVirtAddress := 0, dAddress := 0, inHeap := false }
    device := releaseDevice host1x (map.object ref) map.device }

theorem object_withoutFront {other : Ref} (ne : other ≠ ref) :
    (withoutFront host1x map ref rest).object other = map.object other :=
  update_of_ne ne _ _

theorem object_withoutFront_self : (withoutFront host1x map ref rest).object ref =
    { map.object ref with
      unmapQueueEntry := none, pinVirtAddress := 0, dAddress := 0, inHeap := false } :=
  update_self _ _ _

section

variable (wellFormed : map.WellFormed)

include wellFormed

section

variable (front : map.unmapQueue = (node, ref) :: rest)

include front

theorem WellFormed.front_ne
    {node' : Nat} {other : Ref} (member : (node', other) ∈ rest) : node' ≠ node ∧ other ≠ ref := by
  have nodes := wellFormed.nodes
  rw [front, map_cons, nodup_cons] at nodes
  have ne : node' ≠ node := fun same => nodes.1 (mem_map.mpr ⟨(node', other), member, same⟩)
  refine ⟨ne, ?_⟩
  rintro rfl
  have first := wellFormed.entry node other (front ▸ mem_cons_self)
  have second := wellFormed.entry node' other (front ▸ mem_cons_of_mem _ member)
  exact ne (Option.some.inj (second.symm.trans first))

theorem WellFormed.unmapHandle_front :
    map.unmapHandle host1x ref = .ok (withoutFront host1x map ref rest) := by
  have entry := wellFormed.entry node ref (front ▸ mem_cons_self)
  have others : rest.filter (fun element => decide (element.1 ≠ node)) = rest :=
    filter_eq_self.mpr fun element member => decide_eq_true (wellFormed.front_ne front member).1
  have erased : map.eraseNode node = .ok { map with unmapQueue := rest } := by
    rw [eraseNode, front, if_pos (by simp), filter_cons_of_neg (by simp), others]
  rw [unmapHandle, leaveQueue, entry]
  simp only [erased, ok_bind, pure_eq_ok, setObject, update_self, update_idem]
  rfl

theorem WellFormed.behindFront :
    (withoutFront host1x map ref rest).WellFormed where
  nodes := by
    have nodes := wellFormed.nodes
    rw [front, map_cons, nodup_cons] at nodes
    exact nodes.2
  entry node' other member := by
    rw [object_withoutFront (wellFormed.front_ne front member).2]
    exact wellFormed.entry node' other (front ▸ mem_cons_of_mem _ member)
  unpinned node' other member := by
    rw [object_withoutFront (wellFormed.front_ne front member).2]
    exact wellFormed.unpinned node' other (front ▸ mem_cons_of_mem _ member)

theorem WellFormed.unmapFirst_succ
    (count : Nat) : unmapFirst host1x (count + 1) map =
    unmapFirst host1x count (withoutFront host1x map ref rest) := by
  rw [unmapFirst, front]
  dsimp only
  rw [wellFormed.unmapHandle_front front, ok_bind]

end

end

/-- What has become of a map whose first handles in the queue have been unmapped. -/
structure UnmappedFirst (map : NvMap D) (count : Nat) (map' : NvMap D) : Prop where
  wellFormed : map'.WellFormed
  queue : map'.unmapQueue = map.unmapQueue.drop count
  released : ∀ other ∈ (map.unmapQueue.take count).map Prod.snd,
    (map'.object other).dAddress = 0 ∧ (map'.object other).unmapQueueEntry = none
  others : ∀ other, other ∉ (map.unmapQueue.take count).map Prod.snd →
    map'.object other = map.object other
  handles : map'.handles = map.handles

theorem WellFormed.unmappedFirst (wellFormed : map.WellFormed)
    (done : unmapFirst host1x count map = .ok map') : map.UnmappedFirst count map' := by
  induction count generalizing map with
  | zero =>
    obtain rfl := Except.ok.inj done
    exact ⟨wellFormed, rfl, by simp, fun _ _ => rfl, rfl⟩
  | succ count ih =>
    cases front : map.unmapQueue with
    | nil =>
      rw [unmapFirst, front] at done
      cases done
    | cons element rest =>
      obtain ⟨node, ref⟩ := element
      rw [wellFormed.unmapFirst_succ front] at done
      have unmapped := ih (wellFormed.behindFront front) done
      refine ⟨unmapped.wellFormed, ?_, ?_, ?_, unmapped.handles⟩
      · rw [unmapped.queue, front]
        rfl
      · intro other member
        by_cases first : other ∈ (rest.take count).map Prod.snd
        · exact unmapped.released other first
        · rw [front, take_succ_cons, map_cons, mem_cons] at member
          obtain rfl := member.resolve_right first
          rw [unmapped.others other first, object_withoutFront_self]
          exact ⟨rfl, rfl⟩
      · intro other out
        rw [front, take_succ_cons, map_cons, mem_cons, not_or] at out
        rw [unmapped.others other out.2, object_withoutFront out.1]

/-! ## The loop -/

theorem allocateLoop_some {rounds : Nat}
    (allocated : host1x.smmuAllocate size map.device = (address, device))
    (some : address ≠ 0) : allocateLoop host1x ref size rounds map =
    .ok (address, { map with device }) := by
  rw [allocateLoop, allocated]
  exact if_pos some

theorem allocateLoop_zero (exhausted : Exhausted host1x size map) :
    allocateLoop host1x ref size 0 map = .error .unfinished := by
  rw [allocateLoop, exhausted]
  rfl

theorem allocateLoop_next (failed : host1x.smmuAllocate size map.device = (0, device))
    (rounds : Nat) : allocateLoop host1x ref size (rounds + 1) map = (match map.unmapQueue with
      | [] => .error .emptyQueue
      | (_, freeHandleDesc) :: _ => do
        let map ← ({ map with device } : NvMap D).freeFront host1x ref freeHandleDesc
        allocateLoop host1x ref size rounds map) := by
  rw [allocateLoop, failed]
  rfl

theorem allocateLoop_succ (exhausted : Exhausted host1x size map) (rounds : Nat) :
    allocateLoop host1x ref size (rounds + 1) map =
      (match map.unmapQueue with
      | [] => .error .emptyQueue
      | (_, freeHandleDesc) :: _ => do
        let map ← map.freeFront host1x ref freeHandleDesc
        allocateLoop host1x ref size rounds map) :=
  allocateLoop_next exhausted rounds

/-- The loop stays where it is for a handle without an address. -/
theorem allocateLoop_stuck (exhausted : Exhausted host1x size map)
    (unmapped : (map.object ref).dAddress = 0)
    (some : map.unmapQueue ≠ []) (rounds : Nat) :
    allocateLoop host1x ref size rounds map = .error .unfinished := by
  induction rounds with
  | zero => exact allocateLoop_zero exhausted
  | succ rounds ih =>
    rw [allocateLoop_succ exhausted]
    obtain ⟨⟨node, other⟩, rest, front⟩ := exists_cons_of_ne_nil some
    rw [front]
    dsimp only
    rw [freeFront, if_neg (not_not.mpr unmapped), ok_bind, ih]

section

variable (wellFormed : map.WellFormed)

include wellFormed

/-- A round unmaps the front of the queue for a handle with an address. -/
theorem allocateLoop_front (exhausted : Exhausted host1x size map)
    (mapped : (map.object ref).dAddress ≠ 0) {other : Ref}
    (front : map.unmapQueue = (node, other) :: rest)
    (rounds : Nat) :
    allocateLoop host1x ref size (rounds + 1) map =
      allocateLoop host1x ref size rounds (withoutFront host1x map other rest) := by
  rw [allocateLoop_succ exhausted, front]
  dsimp only
  rw [freeFront, if_pos mapped, wellFormed.unmapHandle_front front, ok_bind]

section

variable (entry : (map.object ref).unmapQueueEntry = none)

include entry

theorem WellFormed.ne_of_entry
    {other : Ref} (member : (node, other) ∈ map.unmapQueue) : ref ≠ other := by
  rintro rfl
  rw [wellFormed.entry node ref member] at entry
  cases entry

/-- For a handle with an address the loop unmaps as many handles as help. -/
theorem allocateLoop_helps
    (mapped : (map.object ref).dAddress ≠ 0)
    (helps : HelpsAfter host1x size count map unmapped address device) :
    allocateLoop host1x ref size count map = .ok (address, { unmapped with device }) := by
  induction count generalizing map with
  | zero =>
    obtain rfl := Except.ok.inj helps.unmapped
    exact allocateLoop_some helps.allocated helps.some
  | succ count ih =>
    obtain ⟨_, same, exhausted⟩ := helps.before 0 count.succ_pos
    obtain rfl := Except.ok.inj same
    cases front : map.unmapQueue with
    | nil =>
      have done := helps.unmapped
      rw [unmapFirst, front] at done
      cases done
    | cons element rest =>
      obtain ⟨node, other⟩ := element
      have ne := wellFormed.ne_of_entry entry (front ▸ mem_cons_self)
      have same : (withoutFront host1x map other rest).object ref = map.object ref :=
        object_withoutFront ne
      rw [allocateLoop_front wellFormed exhausted mapped front]
      refine ih (wellFormed.behindFront front) (same ▸ entry) (same ▸ mapped)
        ⟨fun i less => ?_, ?_, helps.allocated, helps.some⟩
      · obtain ⟨map', done, exhausted⟩ := helps.before (i + 1) (by omega)
        exact ⟨map', (wellFormed.unmapFirst_succ front i).symm.trans done, exhausted⟩
      · exact (wellFormed.unmapFirst_succ front count).symm.trans helps.unmapped

/-- For a handle with an address the loop reads the front of the empty queue where nothing helps. -/
theorem allocateLoop_emptied
    (mapped : (map.object ref).dAddress ≠ 0 ∨ map.unmapQueue = [])
    (unhelpable : Unhelpable host1x size map) :
    allocateLoop host1x ref size (map.unmapQueue.length + 1) map = .error .emptyQueue := by
  obtain ⟨queue, isQueue⟩ : ∃ queue, map.unmapQueue = queue := ⟨_, rfl⟩
  rw [isQueue]
  induction queue generalizing map with
  | nil =>
    obtain ⟨_, same, exhausted⟩ := unhelpable 0 (Nat.zero_le _)
    obtain rfl := Except.ok.inj same
    rw [length_nil, allocateLoop_succ exhausted, isQueue]
  | cons element rest ih =>
    obtain ⟨node, other⟩ := element
    obtain ⟨_, same, exhausted⟩ := unhelpable 0 (Nat.zero_le _)
    obtain rfl := Except.ok.inj same
    have mapped := mapped.resolve_right (by simp [isQueue])
    have ne := wellFormed.ne_of_entry entry (isQueue ▸ mem_cons_self)
    have same : (withoutFront host1x map other rest).object ref = map.object ref :=
      object_withoutFront ne
    rw [length_cons, allocateLoop_front wellFormed exhausted mapped isQueue]
    refine ih (wellFormed.behindFront isQueue) (same ▸ entry) (.inl (same ▸ mapped))
      (fun i less => ?_) rfl
    have inQueue : i + 1 ≤ map.unmapQueue.length := by
      rw [isQueue, length_cons]
      exact Nat.succ_le_succ less
    obtain ⟨map', done, exhausted⟩ := unhelpable (i + 1) inQueue
    exact ⟨map', (wellFormed.unmapFirst_succ isQueue i).symm.trans done, exhausted⟩

end

end

/-- More rounds do not matter for a loop that has ended. -/
theorem allocateLoop_mono {rounds : Nat} {result : Nat × NvMap D} (more : Nat)
    (done : allocateLoop host1x ref size rounds map = .ok result) :
    allocateLoop host1x ref size (rounds + more) map = .ok result := by
  obtain ⟨⟨address, device⟩, allocation⟩ : ∃ pair, host1x.smmuAllocate size map.device = pair :=
    ⟨_, rfl⟩
  induction rounds generalizing map address device with
  | zero =>
    by_cases some : address = 0
    · subst some
      rw [allocateLoop, allocation] at done
      cases done
    · rw [allocateLoop_some allocation some] at done ⊢
      exact done
  | succ rounds ih =>
    by_cases some : address = 0
    · subst some
      rw [Nat.add_right_comm, allocateLoop_next allocation]
      rw [allocateLoop_next allocation] at done
      cases front : map.unmapQueue with
      | nil =>
        rw [front] at done
        cases done
      | cons element rest =>
        rw [front] at done
        obtain ⟨between, unmapped, done⟩ := bind_eq_ok.mp done
        dsimp only at unmapped ⊢
        rw [unmapped, ok_bind]
        exact ih done _ _ rfl
    · rw [allocateLoop_some allocation some] at done ⊢
      exact done

/-! ## Pinning -/

/-- The map when a handle has been given an address. -/
def placed (host1x : Host1x D) (map : NvMap D) (ref : Ref) (handle : Handle) (address : Nat)
    (device : D) : NvMap D :=
  { map.setObject ref { map.object ref with dAddress := address, inHeap := false } with
    device := mappedDevice host1x handle address device }

theorem Starved.pinHandle_eq (starved : Starved host1x map id ref) (rounds : Nat) :
    pinHandle host1x rounds map id lowAreaPin = do
      let (address, map') ← allocateLoop host1x ref (map.requested ref) rounds map
      return finishPin host1x (placed host1x map' ref (map.object ref) address map'.device) ref
        lowAreaPin := by
  rw [pinHandle, starved.handle]
  dsimp only
  rw [if_pos starved.pins, starved.entry, mapNew]
  simp only [Option.isSome_none, Bool.false_eq_true, if_false]
  rw [if_neg starved.outside]
  change (allocateLoop host1x ref (map.requested ref) rounds map >>= _) >>= _ = _
  cases allocateLoop host1x ref (map.requested ref) rounds map with
  | error fault => rfl
  | ok result => rfl

theorem Starved.pinHandle_mono (starved : Starved host1x map id ref) {rounds : Nat}
    {result : Nat × NvMap D}
    (more : Nat) (done : pinHandle host1x rounds map id lowAreaPin = .ok result) :
    pinHandle host1x (rounds + more) map id lowAreaPin = .ok result := by
  rw [starved.pinHandle_eq] at done ⊢
  obtain ⟨pair, loop, done⟩ := bind_eq_ok.mp done
  rw [allocateLoop_mono more loop]
  exact done

theorem mem_of_mem_take {other : Ref} (member : other ∈ (map.unmapQueue.take count).map Prod.snd) :
    ∃ node, (node, other) ∈ map.unmapQueue := by
  obtain ⟨⟨node, _⟩, inside, rfl⟩ := mem_map.mp member
  exact ⟨node, List.mem_of_mem_take inside⟩

/-- What the end of a pin leaves: the handle alone has changed. -/
structure Finished (map : NvMap D) (ref : Ref) (handle : Handle) (device : D) (map' : NvMap D) :
    Prop where
  queue : map'.unmapQueue = map.unmapQueue
  others : ∀ other, other ≠ ref → map'.object other = map.object other
  self : map'.object ref = handle
  device : map'.device = device

theorem finished_high (map : NvMap D) (ref : Ref) :
    (finishPin host1x map ref false).1 = (map.object ref).dAddress ∧
      Finished map ref { map.object ref with pins := (map.object ref).pins + 1 } map.device
        (finishPin host1x map ref false).2 :=
  ⟨rfl, rfl, fun _ ne => update_of_ne ne _ _, update_self _ _ _, rfl⟩

theorem finished_low (mapped : (map.object ref).pinVirtAddress ≠ 0) :
    (finishPin host1x map ref true).1 = (map.object ref).pinVirtAddress ∧
      Finished map ref { map.object ref with pins := (map.object ref).pins + 1 } map.device
        (finishPin host1x map ref true).2 := by
  have same : map.mapLowArea host1x ref = map := if_neg mapped
  rw [finishPin, if_pos rfl, same]
  exact ⟨rfl, rfl, fun _ ne => update_of_ne ne _ _, update_self _ _ _, rfl⟩

theorem finished_lowNew {low : Nat} (unmapped : (map.object ref).pinVirtAddress = 0)
    (allocated :
      host1x.gmmuAllocate ((map.object ref).alignedSize % 2 ^ 32) map.device = (low, device)) :
    (finishPin host1x map ref true).1 = low ∧
      Finished map ref
        { map.object ref with pinVirtAddress := low, pins := (map.object ref).pins + 1 }
        (host1x.gmmuMap low (map.object ref).dAddress (map.object ref).alignedSize device)
        (finishPin host1x map ref true).2 := by
  rw [finishPin, if_pos rfl, mapLowArea, if_pos unmapped, allocated]
  dsimp only [setObject]
  simp only [update_self, if_true, update_idem]
  exact ⟨trivial, rfl, fun _ ne => update_of_ne ne _ _, update_self _ _ _, rfl⟩

/-- A handle that has been given an address is pinned, and the others are as they have been left. -/
theorem pinned_of_finished {handle : Handle} {returned : Nat} (wellFormed : map.WellFormed)
    (starved : Starved host1x map id ref) (left : map.UnmappedFirst count unmapped)
    (finished : Finished unmapped ref handle
    (pinnedDevice host1x (map.object ref) lowAreaPin address device) map')
    (mapped : handle.dAddress = address ∧ handle.pins = 1)
    (returns : returned = if lowAreaPin then handle.pinVirtAddress else handle.dAddress)
    (some : returned ≠ 0) :
    Pinned host1x map ref lowAreaPin count address device returned map' := by
  have out : ref ∉ (map.unmapQueue.take count).map Prod.snd := by
    intro member
    obtain ⟨node, inside⟩ := mem_of_mem_take member
    exact wellFormed.ne_of_entry starved.entry inside rfl
  refine ⟨finished.queue.trans left.queue, fun other member => ?_, fun other ne outside => ?_,
    fun other pinned => ?_, finished.self.symm ▸ mapped, finished.self.symm ▸ returns, some,
    finished.device⟩
  · have ne : other ≠ ref := fun same => out (same ▸ member)
    rw [finished.others other ne]
    exact left.released other member
  · rw [finished.others other ne, left.others other outside]
  · have ne : other ≠ ref := by
      rintro rfl
      rw [starved.pins] at pinned
      exact absurd pinned (lt_irrefl 0)
    rw [finished.others other ne, left.others other]
    intro member
    obtain ⟨node, inside⟩ := mem_of_mem_take member
    exact absurd (wellFormed.unpinned node other inside) (not_le.mpr pinned)

/-- A handle with an address is pinned where unmapping helps, unless the low area is asked for and
has no room. -/
theorem pinned_of_helps (lowAreaPin : Bool) (wellFormed : map.WellFormed)
    (starved : Starved host1x map id ref)
    (helps : HelpsAfter host1x (map.requested ref) count map unmapped address device)
    (mapped : (map.object ref).dAddress ≠ 0) :
    ∃ returned map', pinHandle host1x count map id lowAreaPin = .ok (returned, map') ∧
      (returned ≠ 0 ↔ LowAreaRoom host1x (map.object ref) lowAreaPin address device) ∧
      (returned ≠ 0 → Pinned host1x map ref lowAreaPin count address device returned map') := by
  have left := wellFormed.unmappedFirst helps.unmapped
  have same : unmapped.object ref = map.object ref := by
    refine left.others ref fun member => ?_
    obtain ⟨node, inside⟩ := mem_of_mem_take member
    exact wellFormed.ne_of_entry starved.entry inside rfl
  obtain ⟨final, isFinal⟩ : ∃ final, final =
    placed host1x unmapped ref (map.object ref) address device := ⟨_, rfl⟩
  have run : pinHandle host1x count map id lowAreaPin =
      .ok (finishPin host1x final ref lowAreaPin) := by
    rw [starved.pinHandle_eq, allocateLoop_helps wellFormed starved.entry mapped helps, isFinal]
    rfl
  have handle : final.object ref =
      { map.object ref with dAddress := address, inHeap := false } := by
    rw [isFinal, ← same]
    exact update_self _ _ _
  have transfer {handle : Handle} {device' : D} {map' : NvMap D}
    (finished : Finished final ref handle device' map') :
    Finished unmapped ref handle device' map' := by
    subst isFinal
    refine ⟨finished.queue, fun other ne => (finished.others other ne).trans ?_, finished.self,
      finished.device⟩
    exact update_of_ne ne _ _
  have onDevice : final.device = mappedDevice host1x (map.object ref) address device := by
    rw [isFinal]
    rfl
  have pins := starved.pins
  obtain ⟨⟨returned, map'⟩, isPair⟩ : ∃ pair, finishPin host1x final ref lowAreaPin = pair :=
    ⟨_, rfl⟩
  rw [isPair] at run
  refine ⟨returned, map', run, ?_⟩
  cases lowAreaPin with
  | false =>
    obtain ⟨isAddress, finished⟩ : (finishPin host1x final ref false).1 =
      (final.object ref).dAddress ∧ Finished final ref
      { final.object ref with pins := (final.object ref).pins + 1 } final.device
      (finishPin host1x final ref false).2 := finished_high final ref
    rw [isPair, handle, onDevice] at finished
    rw [isPair, handle] at isAddress
    obtain rfl : returned = address := isAddress
    refine ⟨iff_of_true helps.some fun asked => absurd asked (by decide), fun some => ?_⟩
    exact pinned_of_finished wellFormed starved left (transfer finished)
      ⟨rfl, by rw [pins, zero_add]⟩ rfl some
  | true =>
    by_cases lowMapped : (map.object ref).pinVirtAddress = 0
    · obtain ⟨⟨low, device'⟩, allocated⟩ : ∃ pair,
        host1x.gmmuAllocate ((map.object ref).alignedSize % 2 ^ 32)
        (mappedDevice host1x (map.object ref) address device) = pair := ⟨_, rfl⟩
      have unmappedLow : (final.object ref).pinVirtAddress = 0 := by rw [handle, lowMapped]
      have allocatedLow :
          host1x.gmmuAllocate ((final.object ref).alignedSize % 2 ^ 32) final.device =
            (low, device') := by
        rw [handle, onDevice]
        exact allocated
      obtain ⟨isLow, finished⟩ := finished_lowNew unmappedLow allocatedLow
      rw [isPair, handle] at finished
      rw [isPair] at isLow
      obtain rfl : returned = low := isLow
      have onPinned : pinnedDevice host1x (map.object ref) true address device =
          host1x.gmmuMap returned address (map.object ref).alignedSize device' := by
        rw [pinnedDevice, if_pos ⟨rfl, lowMapped⟩, allocated]
      refine ⟨⟨fun some _ _ => ?_, fun room => ?_⟩, fun some => ?_⟩
      · rwa [allocated]
      · have some := room rfl lowMapped
        rwa [allocated] at some
      · have finished' := onPinned.symm ▸ transfer finished
        exact pinned_of_finished wellFormed starved left finished' ⟨rfl, by rw [pins, zero_add]⟩ rfl
          some
    · have mappedLow : (final.object ref).pinVirtAddress ≠ 0 := by rwa [handle]
      obtain ⟨isLow, finished⟩ : (finishPin host1x final ref true).1 =
        (final.object ref).pinVirtAddress ∧ Finished final ref
        { final.object ref with pins := (final.object ref).pins + 1 } final.device
        (finishPin host1x final ref true).2 := finished_low mappedLow
      rw [isPair, handle, onDevice] at finished
      rw [isPair, handle] at isLow
      obtain rfl : returned = (map.object ref).pinVirtAddress := isLow
      have onPinned : pinnedDevice host1x (map.object ref) true address device =
          mappedDevice host1x (map.object ref) address device := if_neg fun both => lowMapped both.2
      refine ⟨iff_of_true lowMapped fun _ none => absurd none lowMapped, fun some => ?_⟩
      have finished' := onPinned.symm ▸ transfer finished
      exact pinned_of_finished wellFormed starved left finished' ⟨rfl, by rw [pins, zero_add]⟩ rfl
        some

/-- Space is freed as it should be exactly for a handle that has an address where freeing helps, and
for one that has none where it does not and there is something to look at. -/
theorem freesSpace_iff (host1x : Host1x D) (map : NvMap D) (id : Nat) (ref : Ref)
    (lowAreaPin : Bool)
    (wellFormed : map.WellFormed) (starved : Starved host1x map id ref) :
    FreesSpace host1x map id ref lowAreaPin ↔
      (∀ count unmapped address device,
        HelpsAfter host1x (map.requested ref) count map unmapped address device →
        (map.object ref).dAddress ≠ 0 ∧
        LowAreaRoom host1x (map.object ref) lowAreaPin address device) ∧
      (Unhelpable host1x (map.requested ref) map → (map.object ref).dAddress = 0 ∧
        map.unmapQueue ≠ []) := by
  constructor
  · rintro ⟨helped, stays⟩
    refine ⟨fun count unmapped address device helps => ?_, fun unhelpable => ?_⟩
    · obtain ⟨rounds, returned, map', done, pinned⟩ := helped count unmapped address device helps
      have mapped : (map.object ref).dAddress ≠ 0 := by
        intro none
        have some : map.unmapQueue ≠ [] := by
          intro empty
          cases count with
          | zero =>
            obtain rfl := Except.ok.inj helps.unmapped
            have failed := starved.exhausted.symm.trans helps.allocated
            exact helps.some (Prod.mk.inj failed).1.symm
          | succ count =>
            have unmapped := helps.unmapped
            rw [unmapFirst, empty] at unmapped
            cases unmapped
        rw [starved.pinHandle_eq, allocateLoop_stuck starved.exhausted none some] at done
        cases done
      refine ⟨mapped, ?_⟩
      obtain ⟨returned', map'', done', room, -⟩ :=
        pinned_of_helps lowAreaPin wellFormed starved helps mapped
      have same := (starved.pinHandle_mono count done).symm.trans
        (Nat.add_comm count rounds ▸ starved.pinHandle_mono rounds done')
      obtain ⟨rfl, -⟩ := Prod.mk.inj (Except.ok.inj same)
      exact room.mp pinned.some
    · by_contra wrong
      have emptied := allocateLoop_emptied wellFormed starved.entry (by tauto) unhelpable
      refine stays unhelpable (map.unmapQueue.length + 1) ?_
      rw [starved.pinHandle_eq, emptied]
      rfl
  · rintro ⟨helped, stuck⟩
    refine ⟨fun count unmapped address device helps => ?_, fun unhelpable rounds => ?_⟩
    · obtain ⟨mapped, room⟩ := helped count unmapped address device helps
      obtain ⟨returned, map', done, some, pinned⟩ :=
        pinned_of_helps lowAreaPin wellFormed starved helps mapped
      exact ⟨count, returned, map', done, pinned (some.mpr room)⟩
    · obtain ⟨none, some⟩ := stuck unhelpable
      rw [starved.pinHandle_eq, allocateLoop_stuck starved.exhausted none some]
      exact fun same => by cases same

/-! ## A device with two allocators -/

open Common

/-- The allocators of the device and of its low area, and what is mapped at each of their pages. -/
structure Devices where
  smmu : FlatAllocator
  gmmu : FlatAllocator
  smmuPages : Nat → Option (Nat × Nat)
  gmmuPages : Nat → Option Nat

/-- The pages of a range. -/
def InPages (address size page : Nat) : Prop :=
  address / pageSize ≤ page ∧ page * pageSize < address + size

instance (address size page : Nat) : Decidable (InPages address size page) :=
  inferInstanceAs (Decidable (_ ∧ _))

/-- The device address space. -/
def smmuParams : AddressSpace.Params Bool := FlatAllocator.params 64 0 34 (by decide)
/-- The low area. -/
def gmmuParams : AddressSpace.Params Bool := FlatAllocator.params 32 0 32 FlatAllocator.wholeWord

/-- The calls on the allocators. Sessions have no heap here. -/
def flatHost1x : Host1x Devices where
  session _ := ⟨false, 0, 0, 0⟩
  smmuAllocate size d :=
    match d.smmu.allocate smmuParams size with
    | .ok (address, smmu) => (address, { d with smmu })
    | .error _ => (0, d)
  smmuFree address size d :=
    { d with smmu := (d.smmu.free smmuParams address size).toOption.getD d.smmu }
  smmuMap address vaddress size asid d := { d with
    smmuPages := fun page =>
      if InPages address size page then some
        (asid, vaddress / pageSize + (page - address / pageSize))
      else d.smmuPages page }
  smmuUnmap address size d := { d with
    smmuPages := fun page => if InPages address size page then none else d.smmuPages page }
  gmmuAllocate size d :=
    match d.gmmu.allocate gmmuParams size with
    | .ok (address, gmmu) => (address, { d with gmmu })
    | .error _ => (0, d)
  gmmuFree address size d :=
    { d with gmmu := (d.gmmu.free gmmuParams address size).toOption.getD d.gmmu }
  gmmuMap address dAddress size d := { d with
    gmmuPages := fun page =>
      if InPages address size page then some (dAddress / pageSize + (page - address / pageSize))
      else d.gmmuPages page }
  gmmuUnmap address size d := { d with
    gmmuPages := fun page => if InPages address size page then none else d.gmmuPages page }
  mapperMap _ _ _ d := (0, d)
  mapperUnmap _ _ _ d := d

/-- A handle of one reference that is not mapped. -/
def newHandle (id alignedSize : Nat) : Handle :=
  ⟨alignedSize, alignedSize, 1, 0, id, 0, 0, none, false, 0x8000000, true, false, 0, 0⟩

/-- Nearly all addresses belong to the handle in the queue, between two that are pinned. -/
def fullMap : NvMap Devices where
  handles id := if id = 4 then some 0 else if id = 8 then some 1 else none
  object ref :=
    if ref = 0 then newHandle 4 0x30000
    else { newHandle 8 0x3FFFB0000 with unmapQueueEntry := some 0, dAddress := 0x11000 }
  unmapQueue := [(0, 1)]
  nextHandleId := 20
  nextRef := 4
  nextNode := 1
  device := {
    smmu := ⟨⟨[⟨0, false, ()⟩, ⟨0x1000, true, ()⟩, ⟨0x11000, true, ()⟩, ⟨0x3FFFC1000, true, ()⟩,
      ⟨0x3FFFD1000, false, ()⟩],
      0x3FFFFFFFF, []⟩, 0x1000, 0x3FFFD1000⟩
    gmmu := ⟨⟨[⟨0, false, ()⟩], 0xFFFFFFFF, []⟩, 0x1000, 0x1000⟩
    smmuPages := fun page => if InPages 0x1000 0x3FFFD0000 page then some (0, 0x8000 + page)
      else none
    gmmuPages := fun _ => none }

theorem fullMap_wellFormed : fullMap.WellFormed where
  nodes := by decide
  entry := by
    intro node ref member
    obtain ⟨rfl, rfl⟩ := Prod.mk.inj (mem_singleton.mp member)
    rfl
  unpinned := by
    intro node ref member
    obtain ⟨rfl, rfl⟩ := Prod.mk.inj (mem_singleton.mp member)
    decide

theorem fullMap_starved : Starved flatHost1x fullMap 4 0 where
  handle := rfl
  pins := rfl
  entry := rfl
  outside := by decide
  exhausted := rfl

theorem freesSpace_iff_full :
    FreesSpace flatHost1x fullMap 4 0 false ↔
      (∀ count unmapped address device,
        HelpsAfter flatHost1x (fullMap.requested 0) count fullMap unmapped address device →
        (fullMap.object 0).dAddress ≠ 0 ∧
        LowAreaRoom flatHost1x (fullMap.object 0) false address device) ∧
      (Unhelpable flatHost1x (fullMap.requested 0) fullMap →
        (fullMap.object 0).dAddress = 0 ∧ fullMap.unmapQueue ≠ []) :=
  freesSpace_iff flatHost1x fullMap 4 0 false fullMap_wellFormed fullMap_starved

/-- The handle in the queue would make room, and is never unmapped. -/
theorem not_freesSpace_full :
    fullMap.WellFormed ∧ Starved flatHost1x fullMap 4 0 ∧
      ¬ FreesSpace flatHost1x fullMap 4 0 false := by
  refine ⟨fullMap_wellFormed, fullMap_starved, fun frees => ?_⟩
  have helps : ∃ unmapped device,
      HelpsAfter flatHost1x (fullMap.requested 0) 1 fullMap unmapped 0x11000 device := by
    refine ⟨_, _, fun i first => ?_, rfl, rfl, by decide⟩
    obtain rfl : i = 0 := by omega
    exact ⟨_, rfl, rfl⟩
  obtain ⟨unmapped, device, helps⟩ := helps
  obtain ⟨rounds, returned, map', done, -⟩ := frees.helps 1 unmapped 0x11000 device helps
  rw [fullMap_starved.pinHandle_eq, allocateLoop_stuck fullMap_starved.exhausted rfl (by decide)]
    at done
  cases done

end SumiEmu.Nvdrv.NvMap
