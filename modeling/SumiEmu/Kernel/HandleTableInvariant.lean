/-
# The handle table and its history

The free entries are linked from the head of the free list, and every entry of
the table is free, or holds an object that is live in the history, or belongs
to a handle that is outstanding there. A lookup agrees with the history because
an entry holds the linear id of the handle its object is live under, and
because two handles of the same index differ in their linear ids.
-/

import Mathlib.Data.List.Perm.Subperm
import SumiEmu.Kernel.HandleTable

namespace SumiEmu.Kernel

open Fallible Linking Function List Nat

theorem Handle.ext_fields {h h' : Handle} (index : h.index = h'.index)
    (linearId : h.linearId = h'.linearId) (reserved : h.reserved = h'.reserved) : h = h' := by
  apply BitVec.eq_of_toNat_eq
  simp only [Handle.index, Handle.linearId, Handle.reserved] at index linearId reserved
  omega

theorem encodeHandle_fields {index linearId : Nat} (small : index < 2 ^ 15)
    (short : linearId < 2 ^ 15) :
    (encodeHandle index linearId).index = index ∧
      (encodeHandle index linearId).linearId = linearId ∧
      (encodeHandle index linearId).reserved = 0 := by
  simp only [encodeHandle, Handle.index, Handle.linearId, Handle.reserved, BitVec.toNat_ofNat]
  omega

theorem eq_encodeHandle_iff {h : Handle} {index linearId : Nat} (small : index < 2 ^ 15)
    (short : linearId < 2 ^ 15) :
    encodeHandle index linearId = h ↔
      h.index = index ∧ h.linearId = linearId ∧ h.reserved = 0 := by
  obtain ⟨index', linearId', reserved'⟩ := encodeHandle_fields small short
  constructor
  · rintro rfl
    exact ⟨index', linearId', reserved'⟩
  · rintro ⟨rfl, rfl, none⟩
    exact Handle.ext_fields index' linearId' (reserved'.trans none.symm)

namespace EntryInfo

theorem getLinearId_ofLinearId {linearId : Nat} (short : linearId < 2 ^ 15) :
    (ofLinearId linearId).getLinearId = linearId := by
  simp only [ofLinearId, getLinearId, BitVec.toNat_ofNat]
  omega

theorem getNextFreeIndex_ofNextFreeIndex {index : Int} (lower : -2 ^ 15 ≤ index)
    (upper : index < 2 ^ 15) : (ofNextFreeIndex index).getNextFreeIndex = index := by
  simp only [ofNextFreeIndex, getNextFreeIndex, BitVec.toInt_ofInt]
  exact Int.bmod_eq_of_le (by omega) (by omega)

end EntryInfo

namespace KHandleTable

variable {α : Type*} {t : KHandleTable α} {history : List (Event α)} {counts : List Nat}

/-- The entry that an index of the free list stands for, if it stands for one. -/
def entryOf (index : Int) : Option Nat := if index < 0 then none else some index.toNat

/-- The first free entry. -/
def freeHead (t : KHandleTable α) : Option Nat := entryOf t.freeHeadIndex

/-- The next free entry. -/
def nextFree (t : KHandleTable α) (i : Nat) : Option Nat :=
  entryOf (t.entryInfos i).getNextFreeIndex

@[simp] theorem entryOf_natCast (i : Nat) : entryOf (i : Int) = some i := by
  rw [entryOf, if_neg (by omega), Int.toNat_natCast]

theorem eq_of_entryOf {index : Int} {i : Nat} (same : entryOf index = some i) : index = i := by
  rw [entryOf] at same
  split at same
  · cases same
  · cases same
    omega

theorem isValidHandle_iff {h : Handle} :
    t.isValidHandle h = true ↔ h.linearId ≠ 0 ∧ h.index < t.tableSize ∧
      (t.objects h.index).isSome ∧ (t.entryInfos h.index).getLinearId = h.linearId := by
  have nonzero : h.linearId ≠ 0 → h ≠ 0#32 := by
    rintro linearId rfl
    exact linearId rfl
  rw [isValidHandle]
  cases t.objects h.index <;> grind

theorem getObjectImpl_eq_some {h : Handle} {obj : α} :
    t.getObjectImpl h = some obj ↔ h.reserved = 0 ∧ h.linearId ≠ 0 ∧ h.index < t.tableSize ∧
      t.objects h.index = some obj ∧ (t.entryInfos h.index).getLinearId = h.linearId := by
  rw [getObjectImpl]
  split
  · next reserved => simp [reserved]
  · next plain =>
    rw [ne_eq, not_not] at plain
    split
    · next valid =>
      obtain ⟨linearId, inside, -, same⟩ := isValidHandle_iff.mp valid
      simp [plain, linearId, inside, same]
    · next invalid =>
      rw [isValidHandle_iff] at invalid
      refine iff_of_false (by simp) fun ⟨_, linearId, inside, object, same⟩ => invalid ?_
      exact ⟨linearId, inside, by rw [object]; rfl, same⟩

theorem getObjectImpl_eq_none_of {h : Handle} (empty : t.objects h.index = none) (obj : α) :
    ¬ t.getObjectImpl h = some obj := by
  rw [getObjectImpl_eq_some, empty]
  simp

/-- What a table has to do with its history, given the list of its free entries. -/
structure Agrees (t : KHandleTable α) (history : List (Event α)) (free : List Nat) : Prop where
  size : t.tableSize ≤ maxTableSize
  headRange : -2 ^ 15 ≤ t.freeHeadIndex ∧ t.freeHeadIndex < 2 ^ 15
  peak : t.count ≤ t.maxCount
  linked : Linked t.nextFree t.freeHead free none
  mem_free : ∀ i, i ∈ free ↔ i < t.tableSize ∧ t.objects i = none ∧
    ∀ h, Outstanding history h → h.index ≠ i
  counted : t.count + free.length = t.tableSize
  nextId : t.nextLinearId = 1 + issues history % maxLinearId
  lookup : ∀ h obj, t.getObjectImpl h = some obj ↔ Live history h obj
  outstanding : ∀ h, Outstanding history h → h.reserved = 0 ∧ h.linearId ≠ 0 ∧
    h.index < t.tableSize ∧ t.objects h.index = none
  apart : ∀ h h', Outstanding history h → Outstanding history h' → h.index = h'.index → h = h'

/-- What a call does, besides completing: the table goes on agreeing with its
history, a handle that is returned has the next linear id and a free entry, and
only what is there is removed or used. -/
structure Advances (t : KHandleTable α) (history : List (Event α)) (e : Event α)
    (t' : KHandleTable α) : Prop where
  agrees : ∃ free, t'.Agrees (e :: history) free
  peak : t'.maxCount = max t.maxCount t'.count
  issued : ∀ h, e.issued = some h → h.linearId = t.nextLinearId ∧ t.objects h.index = none
  removed : ∀ h, e.Removes h → ∃ obj, Live history h obj
  registered : ∀ h obj, e = .register h obj → Outstanding history h

namespace Agrees

variable {free : List Nat}

section

variable (agrees : t.Agrees history free)

include agrees

theorem advances_same {e : Event α}
    (live : ∀ h obj, Live (e :: history) h obj ↔ Live history h obj)
    (outstanding : ∀ h, Outstanding (e :: history) h ↔ Outstanding history h)
    (silent : e.issued = none) (keeps : ∀ h, ¬ e.Removes h)
    (unregistered : ∀ h obj, e ≠ .register h obj) : t.Advances history e t := by
  have count : issues (e :: history) = issues history := by
    rw [issues_cons, silent]
    rfl
  refine ⟨⟨free, agrees.size, agrees.headRange, agrees.peak, agrees.linked, ?_, agrees.counted,
    ?_, ?_, ?_, ?_⟩, (max_eq_left agrees.peak).symm, by simp [silent],
    fun h removes => absurd removes (keeps h), fun h obj same => absurd same (unregistered h obj)⟩
  · simpa only [outstanding] using agrees.mem_free
  · rw [count, agrees.nextId]
  · simpa only [live] using agrees.lookup
  · simpa only [outstanding] using agrees.outstanding
  · simpa only [outstanding] using agrees.apart

/-- When the table is not full, the head of the free list is a free entry. -/
theorem exists_head (room : t.count < t.tableSize) :
    ∃ i rest, free = i :: rest ∧ t.freeHeadIndex = i ∧
      Linked t.nextFree (t.nextFree i) rest none := by
  cases free with
  | nil =>
    have counted := agrees.counted
    simp only [length_nil] at counted
    omega
  | cons i rest => exact ⟨i, rest, rfl, eq_of_entryOf agrees.linked.1, agrees.linked.2⟩

/-- An entry that is in use is not free, so the table has a count to give back. -/
theorem count_pos {i : Nat} (inside : i < t.tableSize) (used : i ∉ free) : 0 < t.count := by
  have distinct : (i :: free).Nodup := nodup_cons.mpr ⟨used, agrees.linked.nodup⟩
  have within : i :: free ⊆ List.range t.tableSize := by
    intro j member
    rw [mem_range]
    rcases mem_cons.mp member with rfl | member
    · exact inside
    · exact ((agrees.mem_free j).mp member).1
  have length := (subperm_of_subset distinct within).length_le
  have counted := agrees.counted
  rw [length_cons, length_range] at length
  omega

theorem index_lt {i : Nat} (inside : i < t.tableSize) :
    i < 2 ^ 15 := by
  have size := agrees.size
  rw [maxTableSize] at size
  omega

/-- An entry that is given back becomes the head of the free list. -/
theorem freeEntry {i : Nat} (inside : i < t.tableSize)
    (used : i ∉ free) {e : Event α} (silent : e.issued = none)
    (live : ∀ h obj, Live (e :: history) h obj ↔ h.index ≠ i ∧ Live history h obj)
    (outstanding : ∀ h, Outstanding (e :: history) h ↔ h.index ≠ i ∧ Outstanding history h)
    (removed : ∀ h, e.Removes h → ∃ obj, Live history h obj)
    (unregistered : ∀ h obj, e ≠ .register h obj) :
    ∃ t', t.freeEntry i = .ok t' ∧ t.Advances history e t' := by
  have positive := agrees.count_pos inside used
  have short := agrees.index_lt inside
  have others : ∀ j, j ≠ i → update t.entryInfos i
      (.ofNextFreeIndex t.freeHeadIndex) j = t.entryInfos j := fun j other =>
    update_of_ne other ..
  have count : issues (e :: history) = issues history := by
    rw [issues_cons, silent]
    rfl
  refine ⟨_, if_pos positive, ⟨i :: free, agrees.size, ?_, ?_, ?_, ?_, ?_, ?_, ?_, ?_, ?_⟩, ?_,
    by simp [silent], removed, fun h obj same => absurd same (unregistered h obj)⟩
  · exact ⟨by dsimp only; omega, by dsimp only; omega⟩
  · exact le_trans (sub_le ..) agrees.peak
  · -- the old head is what the entry now stores
    refine ⟨entryOf_natCast i, ?_⟩
    have stored : entryOf (EntryInfo.ofNextFreeIndex t.freeHeadIndex).getNextFreeIndex =
        t.freeHead := by
      rw [EntryInfo.getNextFreeIndex_ofNextFreeIndex agrees.headRange.1 agrees.headRange.2]
      rfl
    rw [nextFree]
    dsimp only
    rw [update_self, stored]
    refine agrees.linked.congr fun j member => ?_
    exact congrArg (fun entry => entryOf entry.getNextFreeIndex)
      (others j fun same => used (same ▸ member))
  · intro j
    dsimp only
    by_cases here : j = i
    · subst here
      exact iff_of_true mem_cons_self
        ⟨inside, update_self .., fun h member => ((outstanding h).mp member).1⟩
    · rw [update_of_ne here, mem_cons, or_iff_right here, agrees.mem_free]
      simp only [outstanding]
      grind
  · have counted := agrees.counted
    simp only [length_cons]
    omega
  · rw [count]
    exact agrees.nextId
  · intro h obj
    rw [live, ← agrees.lookup, getObjectImpl_eq_some, getObjectImpl_eq_some]
    dsimp only
    by_cases here : h.index = i
    · subst here
      simp
    · simp [here]
  · intro h member
    obtain ⟨other, old⟩ := (outstanding h).mp member
    dsimp only
    rw [update_of_ne other]
    exact agrees.outstanding h old
  · intro h h' member member'
    exact agrees.apart h h' ((outstanding h).mp member).2 ((outstanding h').mp member').2
  · exact (max_eq_left (le_trans (sub_le ..) agrees.peak)).symm

end

theorem getNextFreeIndex_range (entry : EntryInfo) :
    -2 ^ 15 ≤ entry.getNextFreeIndex ∧ entry.getNextFreeIndex < 2 ^ 15 :=
  ⟨BitVec.le_toInt entry.raw, BitVec.toInt_lt⟩

section

variable (agrees : t.Agrees history free)

include agrees

/-- The counter of linear ids runs through 0x7FFF values. -/
theorem nextId_advances {e : Event α} (spoken : e.issued.isSome) :
    0 < t.nextLinearId ∧ t.nextLinearId < 2 ^ 15 ∧
      (if t.nextLinearId + 1 > maxLinearId then minLinearId else t.nextLinearId + 1) =
        1 + issues (e :: history) % maxLinearId := by
  rw [issues_cons, if_pos spoken, agrees.nextId]
  have period : maxLinearId = 0x7FFF := rfl
  refine ⟨by omega, by rw [period]; omega, ?_⟩
  split
  · next wraps =>
    rw [period] at wraps ⊢
    rw [minLinearId]
    omega
  · next inner =>
    rw [period] at inner ⊢
    omega

/-- `Add` makes the object live under the handle it returns. -/
theorem add (obj : α) :
    ∃ out t', t.add obj = .ok (out, t') ∧ t.Advances history (.add obj out) t' := by
  rw [KHandleTable.add]
  split
  · next room =>
    obtain ⟨i, rest, rfl, head, linked⟩ := agrees.exists_head room
    obtain ⟨inside, empty, unreserved⟩ := (agrees.mem_free i).mp mem_cons_self
    have short := agrees.index_lt inside
    have distinct := nodup_cons.mp agrees.linked.nodup
    obtain ⟨positive, idShort, nextId⟩ := agrees.nextId_advances
      (e := .add obj (some (encodeHandle i t.nextLinearId))) rfl
    dsimp only [allocateLinearId]
    rw [allocateEntry, if_pos room]
    dsimp only
    rw [head, Int.toNat_natCast]
    refine ⟨_, _, rfl, ⟨rest, agrees.size, getNextFreeIndex_range _, le_max_right .., ?_, ?_,
      ?_, nextId, ?_, ?_, ?_⟩, rfl, ?_, by simp [Event.Removes], by simp⟩
    · refine linked.congr fun j member => ?_
      have other : j ≠ i := fun same => distinct.1 (same ▸ member)
      exact congrArg (fun entry : EntryInfo => entryOf entry.getNextFreeIndex)
        (update_of_ne other ..)
    · intro j
      dsimp only
      simp only [outstanding_add]
      by_cases here : j = i
      · subst here
        simp [distinct.1]
      · rw [update_of_ne here, ← agrees.mem_free, mem_cons, or_iff_right here]
    · have counted := agrees.counted
      rw [length_cons] at counted
      dsimp only
      omega
    · intro h obj'
      rw [live_add, getObjectImpl_eq_some, Option.some_inj, eq_encodeHandle_iff short idShort]
      dsimp only
      by_cases here : h.index = i
      · have dead : ¬ Live history h obj' := fun live =>
          getObjectImpl_eq_none_of (here ▸ empty) obj' ((agrees.lookup h obj').mpr live)
        rw [or_iff_left dead, here, update_self, update_self,
          EntryInfo.getLinearId_ofLinearId idShort, Option.some_inj]
        grind
      · rw [update_of_ne here, update_of_ne here, ← getObjectImpl_eq_some,
          agrees.lookup]
        simp [here]
    · intro h member
      rw [outstanding_add] at member
      obtain ⟨plain, linearId, inside', empty'⟩ := agrees.outstanding h member
      refine ⟨plain, linearId, inside', ?_⟩
      dsimp only
      rwa [update_of_ne (unreserved h member)]
    · simpa only [outstanding_add] using agrees.apart
    · intro h returned
      obtain ⟨index, linearId, -⟩ :=
        (eq_encodeHandle_iff short idShort).mp (Option.some.inj returned)
      exact ⟨linearId, by rwa [index]⟩
  · exact ⟨none, t, rfl, agrees.advances_same (by simp) (by simp) rfl (by simp [Event.Removes])
      (by simp)⟩

/-- `Reserve` makes the handle it returns outstanding. -/
theorem reserve :
    ∃ out t', t.reserve = .ok (out, t') ∧ t.Advances history (.reserve out) t' := by
  rw [KHandleTable.reserve]
  split
  · next room =>
    obtain ⟨i, rest, rfl, head, linked⟩ := agrees.exists_head room
    obtain ⟨inside, empty, unreserved⟩ := (agrees.mem_free i).mp mem_cons_self
    have short := agrees.index_lt inside
    have distinct := nodup_cons.mp agrees.linked.nodup
    obtain ⟨positive, idShort, nextId⟩ := agrees.nextId_advances
      (e := .reserve (some (encodeHandle i t.nextLinearId))) rfl
    obtain ⟨index, linearId, plain⟩ := encodeHandle_fields short idShort
    rw [allocateEntry, if_pos room, head, Int.toNat_natCast]
    refine ⟨_, _, rfl, ⟨rest, agrees.size, getNextFreeIndex_range _, le_max_right .., linked,
      ?_, ?_, nextId, ?_, ?_, ?_⟩, rfl, ?_, by simp [Event.Removes], by simp⟩
    · intro j
      simp only [outstanding_reserve, Option.some_inj]
      by_cases here : j = i
      · subst here
        refine iff_of_false distinct.1 fun member => ?_
        exact member.2.2 _ (.inl rfl) index
      · have inFree : j ∈ rest ↔ j ∈ i :: rest := by simp [here]
        rw [inFree, agrees.mem_free]
        refine and_congr_right fun _ => and_congr_right fun _ => ?_
        constructor
        · rintro others h (rfl | member)
          · exact fun same => here (same.symm.trans index)
          · exact others h member
        · exact fun others h member => others h (.inr member)
    · have counted := agrees.counted
      rw [length_cons] at counted
      dsimp only
      omega
    · intro h obj
      rw [live_reserve, ← agrees.lookup, getObjectImpl_eq_some, getObjectImpl_eq_some]
    · intro h member
      rw [outstanding_reserve, Option.some_inj] at member
      rcases member with rfl | member
      · exact ⟨plain, by rw [linearId]; exact ne_of_gt positive, by rwa [index], by rwa [index]⟩
      · exact agrees.outstanding h member
    · intro h h' member member' same
      rw [outstanding_reserve, Option.some_inj] at member member'
      rcases member with rfl | member <;> rcases member' with rfl | member'
      · rfl
      · exact absurd (same.symm.trans index) (unreserved h' member')
      · exact absurd (same.trans index) (unreserved h member)
      · exact agrees.apart h h' member member' same
    · intro h returned
      obtain rfl := Option.some.inj returned
      exact ⟨linearId, by rwa [index]⟩
  · exact ⟨none, t, rfl, agrees.advances_same (by simp) (by simp) rfl (by simp [Event.Removes])
      (by simp)⟩

section

variable {h : Handle} (outstanding : Outstanding history h)

include outstanding

/-- The entry of an outstanding handle is neither free nor in use. -/
theorem not_mem_of_outstanding : h.index ∉ free := fun member =>
  ((agrees.mem_free h.index).mp member).2.2 h outstanding rfl

/-- `Register` makes the object live under the outstanding handle. -/
theorem register (obj : α) :
    ∃ t', t.register h obj = .ok t' ∧ t.Advances history (.register h obj) t' := by
  obtain ⟨plain, linearId, inside, empty⟩ := agrees.outstanding h outstanding
  have used := agrees.not_mem_of_outstanding outstanding
  rw [KHandleTable.register, if_pos ⟨plain, linearId⟩, if_pos inside, if_pos (by rw [empty]; rfl)]
  refine ⟨_, rfl, ⟨free, agrees.size, agrees.headRange, agrees.peak, ?_, ?_, agrees.counted, ?_,
    ?_, ?_, ?_⟩, (max_eq_left
    agrees.peak).symm, by simp [Event.issued], by simp [Event.Removes], ?_⟩
  · refine agrees.linked.congr fun j member => ?_
    have other : j ≠ h.index := fun same => used (same ▸ member)
    exact congrArg (fun entry : EntryInfo => entryOf entry.getNextFreeIndex)
      (update_of_ne other ..)
  · intro j
    dsimp only
    simp only [outstanding_register]
    by_cases here : j = h.index
    · subst here
      simp [used]
    · rw [update_of_ne here, agrees.mem_free]
      refine and_congr_right fun _ => and_congr_right fun _ => ?_
      constructor
      · exact fun others h' member => others h' member.2
      · rintro others h' member same
        exact others h' ⟨fun same' => here (same' ▸ same.symm), member⟩ same
  · rw [issues_cons]
    exact agrees.nextId
  · intro h' obj'
    rw [live_register, getObjectImpl_eq_some]
    dsimp only
    by_cases here : h'.index = h.index
    · have dead : ¬ Live history h' obj' := fun live =>
        getObjectImpl_eq_none_of (here ▸ empty) obj' ((agrees.lookup h' obj').mpr live)
      have short : h.linearId < 2 ^ 15 := mod_lt _ (by decide)
      rw [or_iff_left dead, here, update_self, update_self,
        EntryInfo.getLinearId_ofLinearId short, Option.some_inj]
      constructor
      · rintro ⟨plain', -, -, same, id⟩
        exact ⟨Handle.ext_fields here.symm id (plain.trans plain'.symm), same⟩
      · rintro ⟨rfl, same⟩
        exact ⟨plain, linearId, inside, same, rfl⟩
    · have other : h ≠ h' := fun same => here (same ▸ rfl)
      rw [update_of_ne here, update_of_ne here, ← getObjectImpl_eq_some,
        agrees.lookup]
      simp [other]
  · intro h' member
    obtain ⟨other, old⟩ := outstanding_register.mp member
    obtain ⟨plain', linearId', inside', empty'⟩ := agrees.outstanding h' old
    refine ⟨plain', linearId', inside', ?_⟩
    dsimp only
    rwa [update_of_ne fun same => other (agrees.apart h h' outstanding old same.symm)]
  · intro h₁ h₂ first second
    exact agrees.apart h₁ h₂ (outstanding_register.mp first).2 (outstanding_register.mp second).2
  · rintro h' obj' same
    obtain ⟨rfl, rfl⟩ := Event.register.inj same
    exact outstanding

/-- `Unreserve` gives back the entry of an outstanding handle. -/
theorem unreserve :
    ∃ t', t.unreserve h = .ok t' ∧ t.Advances history (.unreserve h) t' := by
  obtain ⟨plain, linearId, inside, empty⟩ := agrees.outstanding h outstanding
  rw [KHandleTable.unreserve, if_pos ⟨plain, linearId⟩, if_pos inside,
    if_pos (by rw [empty]; rfl)]
  refine agrees.freeEntry inside (agrees.not_mem_of_outstanding outstanding) rfl ?_ ?_
    (by simp [Event.Removes]) (by simp)
  · intro h' obj
    rw [live_unreserve]
    refine (and_iff_right_of_imp fun live same => ?_).symm
    exact getObjectImpl_eq_none_of (same ▸ empty) obj ((agrees.lookup h' obj).mpr live)
  · intro h'
    rw [outstanding_unreserve]
    refine and_congr_left fun old => not_congr ⟨?_, ?_⟩
    · rintro rfl
      rfl
    · exact fun same => agrees.apart h h' outstanding old same.symm

end

/-- `Remove` ends the life of the object under a handle, if there is one. -/
theorem remove (h : Handle) :
    ∃ done t', t.remove h = .ok (done, t') ∧ t.Advances history (.remove h done) t' := by
  have same : t.Advances history (.remove h false) t :=
    agrees.advances_same (by simp) (by simp) rfl (by simp [Event.Removes]) (by simp)
  rw [KHandleTable.remove]
  split
  · exact ⟨false, t, rfl, same⟩
  split
  · exact ⟨false, t, rfl, same⟩
  · next plain =>
    split
    · next valid =>
      obtain ⟨linearId, inside, object, id⟩ := isValidHandle_iff.mp valid
      have used : h.index ∉ free := fun member => by
        rw [((agrees.mem_free _).mp member).2.1] at object
        cases object
      obtain ⟨t', freed, advances⟩ := agrees.freeEntry (e := .remove h true) inside used rfl
        (fun h' obj => by
          rw [live_remove]
          refine and_congr_left fun live => ?_
          obtain ⟨plain', -, -, -, id'⟩ :=
            getObjectImpl_eq_some.mp ((agrees.lookup h' obj).mpr live)
          rw [and_iff_left rfl]
          refine not_congr ⟨fun same => same ▸ rfl, fun same => ?_⟩
          rw [same] at id'
          exact Handle.ext_fields same.symm (id.symm.trans id')
            ((not_not.mp plain).trans plain'.symm))
        (fun h' => by
          rw [outstanding_remove]
          refine (and_iff_right_of_imp fun outstanding same => ?_).symm
          rw [← same, (agrees.outstanding h' outstanding).2.2.2] at object
          cases object)
        (fun h' removes => by
          obtain ⟨obj, found⟩ := Option.isSome_iff_exists.mp object
          obtain ⟨rfl, -⟩ := Event.remove.inj removes
          exact ⟨obj, (agrees.lookup _ _).mp (getObjectImpl_eq_some.mpr
            ⟨not_not.mp plain, linearId, inside, found, id⟩)⟩)
        (by simp)
      refine ⟨true, t', ?_, advances⟩
      rw [freed]
      rfl
    · exact ⟨false, t, rfl, same⟩

/-- Every admissible call completes, and the table goes on agreeing with its history. -/
theorem call {c : Call α} (admissible : c.Admissible history) :
    ∃ e t', t.call c = .ok (e, t') ∧ t.Advances history e t' := by
  cases c with
  | add obj =>
    obtain ⟨out, t', result, advances⟩ := agrees.add obj
    exact ⟨_, t', by rw [KHandleTable.call, result]; rfl, advances⟩
  | reserve =>
    obtain ⟨out, t', result, advances⟩ := agrees.reserve
    exact ⟨_, t', by rw [KHandleTable.call, result]; rfl, advances⟩
  | register handle obj =>
    obtain ⟨t', result, advances⟩ := agrees.register admissible obj
    exact ⟨_, t', by rw [KHandleTable.call, result]; rfl, advances⟩
  | unreserve handle =>
    obtain ⟨t', result, advances⟩ := agrees.unreserve admissible
    exact ⟨_, t', by rw [KHandleTable.call, result]; rfl, advances⟩
  | remove handle =>
    obtain ⟨done, t', result, advances⟩ := agrees.remove handle
    exact ⟨_, t', by rw [KHandleTable.call, result]; rfl, advances⟩

end

end Agrees

end KHandleTable

end SumiEmu.Kernel
