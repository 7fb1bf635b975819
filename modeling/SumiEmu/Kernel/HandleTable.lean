/-
# The handle table

A handle packs the index of an entry of the table and the linear id that the
entry had when the handle was made. An entry that is in use stores that linear
id. An entry that is free stores, in the same sixteen bits, the index of the
next free entry.

The counters of the table never leave the range of their types, as a table has
at most 1024 entries and a linear id starts again after 0x7FFF, so they are
naturals. What the table does to the reference count of an object is left out.
-/

import Mathlib.Algebra.Group.Int.Defs
import Mathlib.Algebra.Group.Nat.Defs
import SumiEmu.Foundations.Fallible
import SumiEmu.Foundations.Linked

namespace SumiEmu.Kernel

open Fallible Function

/-- `Handle`. -/
abbrev Handle := BitVec 32

namespace Handle

variable (handle : Handle)

/-- `HandlePack::index`. -/
def index : Nat := handle.toNat % 2 ^ 15

/-- `HandlePack::linear_id`. -/
def linearId : Nat := handle.toNat / 2 ^ 15 % 2 ^ 15

/-- `HandlePack::reserved`. -/
def reserved : Nat := handle.toNat / 2 ^ 30

/-- `Svc::IsPseudoHandle`. -/
def isPseudoHandle : Bool := handle == 0xFFFF8001#32 || handle == 0xFFFF8000#32

end Handle

/-- `EncodeHandle`. -/
def encodeHandle (index linearId : Nat) : Handle :=
  BitVec.ofNat 32 (index % 2 ^ 15 + linearId % 2 ^ 15 * 2 ^ 15)

/-- `EntryInfo`, whose two members share their storage. -/
structure EntryInfo where
  raw : BitVec 16 := 0

namespace EntryInfo

/-- `GetLinearId`. -/
def getLinearId (e : EntryInfo) : Nat := e.raw.toNat

/-- `GetNextFreeIndex`. -/
def getNextFreeIndex (e : EntryInfo) : Int := e.raw.toInt

/-- An entry in use. -/
def ofLinearId (linearId : Nat) : EntryInfo := ⟨BitVec.ofNat 16 linearId⟩

/-- A free entry. -/
def ofNextFreeIndex (index : Int) : EntryInfo := ⟨BitVec.ofInt 16 index⟩

end EntryInfo

/-- A failed assertion. -/
inductive KHandleTable.Fault
  | assertion
  deriving DecidableEq, Repr

open KHandleTable (Fault)

/-- `KHandleTable`, over the objects it can hold. -/
structure KHandleTable (α : Type*) where
  entryInfos : Nat → EntryInfo := fun _ => {}
  objects : Nat → Option α := fun _ => none
  freeHeadIndex : Int := 0
  tableSize : Nat := 0
  maxCount : Nat := 0
  nextLinearId : Nat := 0
  count : Nat := 0

namespace KHandleTable

def maxTableSize : Nat := 1024
def minLinearId : Nat := 1
def maxLinearId : Nat := 0x7FFF

variable {α : Type*}

/-- The loop of `Initialize`, over the entries below the given index. -/
def freeEntriesBelow : Nat → KHandleTable α → KHandleTable α
  | 0, t => t
  | i + 1, t =>
    let t := freeEntriesBelow i t
    { t with
      objects := update t.objects i none
      entryInfos := update t.entryInfos i (.ofNextFreeIndex (i - 1))
      freeHeadIndex := i }

variable (t : KHandleTable α)

/-- `Initialize`, where `none` is `ResultOutOfMemory`. -/
def initializeTable (size : Int) : Option (KHandleTable α) :=
  if size ≤ maxTableSize then
    let tableSize := if size ≤ 0 then maxTableSize else size.toNat
    some (freeEntriesBelow tableSize { t with
      maxCount := 0
      tableSize := tableSize
      nextLinearId := minLinearId
      count := 0
      freeHeadIndex := -1 })
  else none

/-- `AllocateEntry`. -/
def allocateEntry : Except Fault (Nat × KHandleTable α) :=
  if t.count < t.tableSize then
    let index := t.freeHeadIndex.toNat
    .ok (index, { t with
      freeHeadIndex := (t.entryInfos index).getNextFreeIndex
      count := t.count + 1
      maxCount := max t.maxCount (t.count + 1) })
  else .error .assertion

/-- `FreeEntry`. -/
def freeEntry (index : Nat) : Except Fault (KHandleTable α) :=
  if t.count > 0 then
    .ok { t with
      objects := update t.objects index none
      entryInfos := update t.entryInfos index (.ofNextFreeIndex t.freeHeadIndex)
      freeHeadIndex := index
      count := t.count - 1 }
  else .error .assertion

/-- `AllocateLinearId`. -/
def allocateLinearId : Nat × KHandleTable α :=
  let id := t.nextLinearId
  let next := t.nextLinearId + 1
  (id, { t with nextLinearId := if next > maxLinearId then minLinearId else next })

variable (handle : Handle)

/-- `IsValidHandle`, of a handle without reserved bits. -/
def isValidHandle : Bool :=
  if handle = 0 then false
  else if handle.linearId = 0 then false
  else if handle.index ≥ t.tableSize then false
  else if (t.objects handle.index).isNone then false
  else if (t.entryInfos handle.index).getLinearId ≠ handle.linearId then false
  else true

/-- `GetObjectImpl`. -/
def getObjectImpl : Option α :=
  if handle.reserved ≠ 0 then none
  else if t.isValidHandle handle then t.objects handle.index
  else none

/-- `Remove`. -/
def remove : Except Fault (Bool × KHandleTable α) :=
  if handle.isPseudoHandle then .ok (false, t)
  else if handle.reserved ≠ 0 then .ok (false, t)
  else if t.isValidHandle handle then do
    let t ← t.freeEntry handle.index
    return (true, t)
  else .ok (false, t)

/-- `Add`, where `none` is `ResultOutOfHandles`. -/
def add (obj : α) : Except Fault (Option Handle × KHandleTable α) :=
  if t.count < t.tableSize then do
    let (linearId, t) := t.allocateLinearId
    let (index, t) ← t.allocateEntry
    return (some (encodeHandle index linearId), { t with
      entryInfos := update t.entryInfos index (.ofLinearId linearId)
      objects := update t.objects index (some obj) })
  else .ok (none, t)

/-- `Reserve`, where `none` is `ResultOutOfHandles`. -/
def reserve : Except Fault (Option Handle × KHandleTable α) :=
  if t.count < t.tableSize then do
    let (index, t) ← t.allocateEntry
    let (linearId, t) := t.allocateLinearId
    return (some (encodeHandle index linearId), t)
  else .ok (none, t)

/-- `Unreserve`. -/
def unreserve : Except Fault (KHandleTable α) :=
  if handle.reserved = 0 ∧ handle.linearId ≠ 0 then
    if handle.index < t.tableSize then
      if (t.objects handle.index).isNone then t.freeEntry handle.index else .error .assertion
    else .ok t
  else .error .assertion

/-- `Register`. -/
def register (obj : α) : Except Fault (KHandleTable α) :=
  if handle.reserved = 0 ∧ handle.linearId ≠ 0 then
    if handle.index < t.tableSize then
      if (t.objects handle.index).isNone then
        .ok { t with
          entryInfos := update t.entryInfos handle.index (.ofLinearId handle.linearId)
          objects := update t.objects handle.index (some obj) }
      else .error .assertion
    else .ok t
  else .error .assertion

end KHandleTable

end SumiEmu.Kernel

/-!
## Histories of a handle table

A history lists what happened to a table since it was initialized, the latest
event first. It says which objects are registered under which handles and not
removed since, and which handles are reserved and not used since. The states of
the table are compared with it.
-/

namespace SumiEmu.Kernel.KHandleTable

open Fallible Linking

variable {α : Type*}

/-- A call that was made, with what it returned. -/
inductive Event (α : Type*)
  | add (obj : α) (out : Option Handle)
  | reserve (out : Option Handle)
  | register (handle : Handle) (obj : α)
  | unreserve (handle : Handle)
  | remove (handle : Handle) (done : Bool)

namespace Event

/-- The handle that an event returned. -/
def issued : Event α → Option Handle
  | .add _ out | .reserve out => out
  | _ => none

/-- The event registers an object under a handle. -/
def Registers (e : Event α) (handle : Handle) (obj : α) : Prop :=
  e = .add obj (some handle) ∨ e = .register handle obj

/-- The event removes the object under a handle. -/
def Removes (e : Event α) (handle : Handle) : Prop := e = .remove handle true

/-- The event reserves a handle. -/
def Reserves (e : Event α) (handle : Handle) : Prop := e = .reserve (some handle)

/-- The event uses a reserved handle. -/
def Consumes (e : Event α) (handle : Handle) : Prop :=
  e = .unreserve handle ∨ ∃ obj, e = .register handle obj

end Event

/-- An object was registered under a handle and has not been removed since. -/
def Live : List (Event α) → Handle → α → Prop
  | [], _, _ => False
  | e :: earlier, handle, obj =>
    e.Registers handle obj ∨ ¬ e.Removes handle ∧ Live earlier handle obj

/-- A handle was reserved and has not been registered or unreserved since. -/
def Outstanding : List (Event α) → Handle → Prop
  | [], _ => False
  | e :: earlier, handle => e.Reserves handle ∨ ¬ e.Consumes handle ∧ Outstanding earlier handle

/-- How many handles were returned. -/
def issues (history : List (Event α)) : Nat := history.countP fun e => e.issued.isSome

/-- A call of a table, with its arguments. -/
inductive Call (α : Type*)
  | add (obj : α)
  | reserve
  | register (handle : Handle) (obj : α)
  | unreserve (handle : Handle)
  | remove (handle : Handle)

/-- Make a call. -/
def call (t : KHandleTable α) : Call α → Except Fault (Event α × KHandleTable α)
  | .add obj => do
    let (out, t) ← t.add obj
    return (.add obj out, t)
  | .reserve => do
    let (out, t) ← t.reserve
    return (.reserve out, t)
  | .register handle obj => do
    let t ← t.register handle obj
    return (.register handle obj, t)
  | .unreserve handle => do
    let t ← t.unreserve handle
    return (.unreserve handle, t)
  | .remove handle => do
    let (done, t) ← t.remove handle
    return (.remove handle done, t)

/-- Only a handle that is reserved is registered or unreserved. -/
def Call.Admissible (history : List (Event α)) : Call α → Prop
  | .register handle _ | .unreserve handle => Outstanding history handle
  | _ => True

/-- A table is reached with a history, and with the counts of all tables on the way. -/
inductive Reaches (start : KHandleTable α) :
    List (Event α) → List Nat → KHandleTable α → Prop
  | start : Reaches start [] [start.count] start
  | step {history : List (Event α)} {counts : List Nat} {t t' : KHandleTable α} {c : Call α}
      {e : Event α} (reached : Reaches start history counts t)
      (admissible : c.Admissible history) (result : t.call c = .ok (e, t')) :
      Reaches start (e :: history) (t'.count :: counts) t'

section Histories

variable {history : List (Event α)} {handle handle' : Handle} {obj obj' : α}

section

attribute [local simp] Live Outstanding
  Event.Registers Event.Removes Event.Reserves Event.Consumes

@[simp] theorem live_nil : ¬ Live ([] : List (Event α)) handle obj := id

@[simp] theorem outstanding_nil : ¬ Outstanding ([] : List (Event α)) handle := id

variable {out : Option Handle}

@[simp] theorem live_add :
    Live (.add obj' out :: history) handle obj ↔
      out = some handle ∧ obj' = obj ∨ Live history handle obj := by
  simp [and_comm]

@[simp] theorem live_reserve :
    Live (.reserve out :: history) handle obj ↔ Live history handle obj := by
  simp

@[simp] theorem live_register :
    Live (.register handle' obj' :: history) handle obj ↔
      handle' = handle ∧ obj' = obj ∨ Live history handle obj := by
  simp

@[simp] theorem live_unreserve :
    Live (.unreserve handle' :: history) handle obj ↔ Live history handle obj := by
  simp

@[simp] theorem live_remove {done : Bool} :
    Live (.remove handle' done :: history) handle obj ↔
      ¬ (handle' = handle ∧ done = true) ∧ Live history handle obj := by
  simp

@[simp] theorem outstanding_add :
    Outstanding (.add obj out :: history) handle ↔ Outstanding history handle := by
  simp

@[simp] theorem outstanding_reserve :
    Outstanding (.reserve out :: history) handle ↔
      out = some handle ∨ Outstanding history handle := by
  simp

@[simp] theorem outstanding_register :
    Outstanding (.register handle' obj :: history) handle ↔
      handle' ≠ handle ∧ Outstanding history handle := by
  simp

@[simp] theorem outstanding_unreserve :
    Outstanding (.unreserve handle' :: history) handle ↔
      handle' ≠ handle ∧ Outstanding history handle := by
  simp

@[simp] theorem outstanding_remove {done : Bool} :
    Outstanding (.remove handle' done :: history) handle ↔ Outstanding history handle := by
  simp

end

theorem issues_cons (e : Event α) :
    issues (e :: history) = issues history + if e.issued.isSome then 1 else 0 :=
  List.countP_cons ..

/-- An object that is live was registered by an event after which it was not removed. -/
theorem live_iff_exists :
    Live history handle obj ↔ ∃ later e earlier, history = later ++ e :: earlier ∧
      e.Registers handle obj ∧ ∀ e' ∈ later, ¬ e'.Removes handle := by
  induction history with
  | nil => simp
  | cons e history ih =>
    constructor
    · rintro (here | ⟨kept, rest⟩)
      · exact ⟨[], e, history, rfl, here, by simp⟩
      · obtain ⟨later, e', earlier, rfl, registers, others⟩ := ih.mp rest
        exact ⟨e :: later, e', earlier, rfl, registers, by simpa using ⟨kept, others⟩⟩
    · rintro ⟨_ | ⟨e', later⟩, e'', earlier, split, registers, others⟩
      · obtain ⟨rfl, rfl⟩ := List.cons.inj split
        exact .inl registers
      · obtain ⟨rfl, rfl⟩ := List.cons.inj split
        refine .inr ⟨others e List.mem_cons_self, ih.mpr ⟨later, e'', earlier, rfl, registers, ?_⟩⟩
        exact fun x member => others x (List.mem_cons_of_mem e member)

/-- A handle that was not reserved before is reserved by a later event. -/
theorem Outstanding.exists_reserves {later earlier : List (Event α)}
    (outstanding : Outstanding (later ++ earlier) handle) (before : ¬ Outstanding earlier handle) :
    ∃ l₂ e l₁, later = l₂ ++ e :: l₁ ∧ e.Reserves handle := by
  induction later with
  | nil => exact absurd outstanding before
  | cons e later ih =>
    rcases outstanding with here | ⟨-, rest⟩
    · exact ⟨[], e, later, rfl, here⟩
    · obtain ⟨l₂, e', l₁, rfl, reserves⟩ := ih rest
      exact ⟨e :: l₂, e', l₁, rfl, reserves⟩

/-- A table with a longer history was reached from one with each shorter history. -/
theorem Reaches.split {start t : KHandleTable α} {later earlier : List (Event α)}
    {counts : List Nat} (reached : Reaches start (later ++ earlier) counts t) :
    ∃ counts' t', Reaches start earlier counts' t' := by
  induction later generalizing counts t with
  | nil => exact ⟨counts, t, reached⟩
  | cons e later ih =>
    cases reached with
    | step reached => exact ih reached

end Histories

end SumiEmu.Kernel.KHandleTable
