/-
# Runs of a handle table

From an initialized table, every sequence of calls that registers and unreserves
only reserved handles runs without a failed assertion. What the reached table
stores is what the history says, so a stale or forged handle finds nothing, and
a handle comes back only when the counter of linear ids has come around to it
on the same entry.
-/

import SumiEmu.Kernel.HandleTableInvariant

namespace SumiEmu.Kernel.KHandleTable

open Fallible Linking Function Nat List

variable {α : Type*} {t : KHandleTable α} {history : List (Event α)} {counts : List Nat}

/-- The loop of `Initialize` links the entries from the last one to the first. -/
theorem freeEntriesBelow_spec (t : KHandleTable α) (start : t.freeHeadIndex = -1) (n : Nat)
    (small : n ≤ maxTableSize) :
    let t' := freeEntriesBelow n t
    t'.freeHeadIndex = (n : Int) - 1 ∧ (∀ i, i < n → t'.objects i = none) ∧
      Linked t'.nextFree t'.freeHead (List.range n).reverse none ∧
      t'.tableSize = t.tableSize ∧ t'.maxCount = t.maxCount ∧ t'.count = t.count ∧
      t'.nextLinearId = t.nextLinearId := by
  induction n with
  | zero =>
    refine ⟨start, fun i absurdity => absurd absurdity (not_lt_zero i), ?_, rfl, rfl, rfl, rfl⟩
    exact congrArg entryOf start
  | succ n ih =>
    obtain ⟨head, empty, linked, rest⟩ := ih (le_of_succ_le small)
    rw [maxTableSize] at small
    refine ⟨by rw [freeEntriesBelow]; simp, fun i below => ?_, ?_, rest⟩
    · rw [freeEntriesBelow]
      dsimp only
      by_cases here : i = n
      · rw [here, update_self]
      · rw [update_of_ne here]
        exact empty i (by omega)
    · rw [range_succ, reverse_append, reverse_singleton, singleton_append,
        linked_cons]
      refine ⟨entryOf_natCast n, ?_⟩
      have stored : entryOf (EntryInfo.ofNextFreeIndex ((n : Int) - 1)).getNextFreeIndex =
          (freeEntriesBelow n t).freeHead := by
        rw [EntryInfo.getNextFreeIndex_ofNextFreeIndex (by omega) (by omega), freeHead, head]
      rw [freeEntriesBelow, nextFree]
      dsimp only
      rw [update_self, stored]
      refine linked.congr fun j member => ?_
      have other : j ≠ n := by
        rintro rfl
        simp at member
      exact congrArg (fun entry : EntryInfo => entryOf entry.getNextFreeIndex)
        (update_of_ne other ..)

theorem initializeTable_agrees {t t' : KHandleTable α} {size : Int}
    (initialized : t.initializeTable size = some t') :
    t'.Agrees [] (List.range t'.tableSize).reverse ∧ t'.maxCount = t'.count := by
  rw [initializeTable] at initialized
  split at initialized
  · next fits =>
    have bound : (if size ≤ 0 then maxTableSize else size.toNat) ≤ maxTableSize := by
      split
      · exact le_rfl
      · omega
    generalize (if size ≤ 0 then maxTableSize else size.toNat) = n at initialized bound
    obtain ⟨head, empty, linked, tableSize, maxCount, count, nextId⟩ := freeEntriesBelow_spec
      { t with
        maxCount := 0
        tableSize := n
        nextLinearId := minLinearId
        count := 0
        freeHeadIndex := -1 } rfl n bound
    cases initialized
    have small := bound
    rw [maxTableSize] at small
    refine ⟨⟨?_, ?_, ?_, ?_, ?_, ?_, ?_, ?_, ?_, ?_⟩, maxCount.trans count.symm⟩
    · rwa [tableSize]
    · rw [head]
      omega
    · rw [count]
      exact zero_le _
    · rwa [tableSize]
    · intro i
      rw [tableSize]
      simp only [mem_reverse, mem_range, outstanding_nil, false_imp_iff, implies_true,
        and_true]
      exact ⟨fun below => ⟨below, empty i below⟩, And.left⟩
    · rw [tableSize, count, length_reverse, length_range, zero_add]
    · exact nextId
    · intro h obj
      refine iff_of_false (fun found => ?_) live_nil
      obtain ⟨-, -, inside, object, -⟩ := getObjectImpl_eq_some.mp found
      rw [tableSize] at inside
      rw [empty _ inside] at object
      cases object
    · exact fun h absurdity => absurd absurdity outstanding_nil
    · exact fun h h' absurdity => absurd absurdity outstanding_nil
  · cases initialized

theorem max_mem_cons {a b : Nat} {l : List Nat} (member : a ∈ l) : max a b ∈ b :: l := by
  rcases le_total a b with smaller | larger
  · rw [max_eq_right smaller]
    exact mem_cons_self
  · rw [max_eq_left larger]
    exact mem_cons_of_mem b member

/-- A reached table agrees with its history, and remembers the greatest count. -/
theorem Reaches.agrees {start : KHandleTable α} {free : List Nat} (agrees : start.Agrees [] free)
    (least : start.maxCount = start.count) (reached : Reaches start history counts t) :
    (∃ free, t.Agrees history free) ∧ t.maxCount ∈ counts ∧ ∀ n ∈ counts, n ≤ t.maxCount := by
  induction reached with
  | start =>
    refine ⟨⟨free, agrees⟩, ?_, fun n member => ?_⟩
    · exact least ▸ mem_singleton_self _
    · rw [mem_singleton.mp member]
      exact agrees.peak
  | step reached admissible result ih =>
    obtain ⟨⟨free', agrees'⟩, member, greatest⟩ := ih
    obtain ⟨e', t'', result', advances⟩ := agrees'.call admissible
    cases result.symm.trans result'
    refine ⟨advances.agrees, ?_, fun n member' => ?_⟩
    · rw [advances.peak]
      exact max_mem_cons member
    · rw [advances.peak]
      rcases mem_cons.mp member' with rfl | older
      · exact le_max_right ..
      · exact le_trans (greatest n older) (le_max_left ..)

/-- The table in which an event of the history happened. -/
theorem Reaches.step_back {start : KHandleTable α} {free : List Nat}
    (agrees : start.Agrees [] free) (least : start.maxCount = start.count)
    {later earlier : List (Event α)} {e : Event α}
    (reached : Reaches start (later ++ e :: earlier) counts t) :
    ∃ t₁ t₂ : KHandleTable α, (∃ free, t₁.Agrees earlier free) ∧ t₁.Advances earlier e t₂ := by
  obtain ⟨counts', t₂, reached'⟩ := reached.split
  cases reached' with
  | step before admissible result =>
    obtain ⟨⟨free', agrees'⟩, -⟩ := before.agrees agrees least
    obtain ⟨e', t', result', advances⟩ := agrees'.call admissible
    cases result.symm.trans result'
    exact ⟨_, _, ⟨free', agrees'⟩, advances⟩

/-- A removed object that is live was registered again. -/
theorem Live.exists_registers {later earlier : List (Event α)} {e : Event α} {h : Handle} {obj : α}
    (live : Live (later ++ e :: earlier) h obj) (removes : e.Removes h) :
    ∃ l₂ e' l₁, later = l₂ ++ e' :: l₁ ∧ e'.Registers h obj := by
  induction later with
  | nil =>
    rcases live with registers | ⟨kept, -⟩
    · rw [removes] at registers
      rcases registers with absurdity | absurdity <;> cases absurdity
    · exact absurd removes kept
  | cons e' later ih =>
    rcases live with registers | ⟨-, rest⟩
    · exact ⟨[], e', later, rfl, registers⟩
    · obtain ⟨l₂, e'', l₁, rfl, registers⟩ := ih rest
      exact ⟨e' :: l₂, e'', l₁, rfl, registers⟩

/-- What is free, counted and found in every table that is reached from an
initialized one. The free list ends, so it has no cycle, and holds the entries
that are neither in use nor reserved. A lookup finds an object under a handle
exactly when the object was registered under it and not removed since. An
object is registered again under a handle only after the one before it was
removed. The linear ids of the returned handles run through a period of 0x7FFF.
A removed handle that finds an object has been returned again since. Every
admissible call passes the assertions of the table. -/
theorem reaches_handles {t₀ t start : KHandleTable α} {size : Int}
    (initialized : t₀.initializeTable size = some start)
    (reached : Reaches start history counts t) :
    (∃ free : List Nat, free.Nodup ∧ Linked t.nextFree t.freeHead free none ∧
      (∀ i, i ∈ free ↔ i < t.tableSize ∧ t.objects i = none ∧
        ∀ h, Outstanding history h → h.index ≠ i) ∧
      t.count + free.length = t.tableSize) ∧
    (t.maxCount ∈ counts ∧ ∀ n ∈ counts, n ≤ t.maxCount) ∧
    (∀ h obj, t.getObjectImpl h = some obj ↔ Live history h obj) ∧
    (∀ later e middle e' earlier h obj obj', history = later ++ e :: (middle ++ e' :: earlier) →
      e.Registers h obj → e'.Registers h obj' → ∃ r ∈ middle, r.Removes h) ∧
    (∀ later e earlier h, history = later ++ e :: earlier → e.issued = some h →
      h.linearId = 1 + issues earlier % 0x7FFF) ∧
    (∀ later e earlier h obj, history = later ++ e :: earlier → e.Removes h →
      Live history h obj → ∃ e' ∈ later, e'.issued = some h) ∧
    ∀ c : Call α, c.Admissible history → ∃ e t', t.call c = .ok (e, t') := by
  obtain ⟨agrees, least⟩ := initializeTable_agrees initialized
  obtain ⟨⟨free, now⟩, peak⟩ := reached.agrees agrees least
  refine ⟨⟨free, now.linked.nodup, now.linked, now.mem_free, now.counted⟩, peak, now.lookup,
    ?_, ?_, ?_, fun c admissible => ?_⟩
  · rintro later e middle e' earlier h obj obj' rfl registers registers'
    by_contra none
    simp only [not_exists, not_and] at none
    obtain ⟨t₁, t₂, ⟨free₁, agrees₁⟩, advances⟩ := reached.step_back agrees least
    have live : Live (middle ++ e' :: earlier) h obj' :=
      live_iff_exists.mpr ⟨middle, e', earlier, rfl, registers', none⟩
    have found := (getObjectImpl_eq_some.mp ((agrees₁.lookup h obj').mpr live)).2.2.2.1
    have empty : t₁.objects h.index = Option.none := by
      rcases registers with rfl | rfl
      · exact (advances.issued h rfl).2
      · exact (agrees₁.outstanding h (advances.registered h obj rfl)).2.2.2
    cases empty.symm.trans found
  · rintro later e earlier h rfl issued
    obtain ⟨t₁, t₂, ⟨free₁, agrees₁⟩, advances⟩ := reached.step_back agrees least
    exact (advances.issued h issued).1.trans agrees₁.nextId
  · rintro later e earlier h obj rfl removes live
    obtain ⟨l₂, e', l₁, rfl, registers⟩ := live.exists_registers removes
    rcases registers with rfl | rfl
    · exact ⟨_, mem_append_right l₂ mem_cons_self, rfl⟩
    · -- the handle was not outstanding when its object was removed
      obtain ⟨t₁, t₂, ⟨free₁, agrees₁⟩, advances⟩ := reached.step_back agrees least
      have before : ¬ Outstanding (e :: earlier) h := by
        intro outstanding
        obtain rfl : e = .remove h true := removes
        rw [outstanding_remove] at outstanding
        obtain ⟨obj', live'⟩ := advances.removed h rfl
        exact getObjectImpl_eq_none_of (agrees₁.outstanding h outstanding).2.2.2 obj'
          ((agrees₁.lookup h obj').mpr live')
      rw [append_assoc, cons_append] at reached
      obtain ⟨t₃, t₄, -, advances'⟩ := reached.step_back agrees least
      obtain ⟨l₃, e'', l₄, rfl, reserves⟩ :=
        (advances'.registered h obj rfl).exists_reserves before
      exact ⟨e'', by simp, by rw [reserves]; rfl⟩
  · obtain ⟨e, t', result, -⟩ := now.call admissible
    exact ⟨e, t', result⟩

theorem reaches_handles_remove :
    let handle := encodeHandle 1 1
    let history : List (Event Nat) := [.remove handle true, .add 7 (some handle)]
    ∃ t : KHandleTable Nat,
      (∃ free : List Nat, free.Nodup ∧ Linked t.nextFree t.freeHead free none ∧
        (∀ i, i ∈ free ↔ i < t.tableSize ∧ t.objects i = none ∧
          ∀ h, Outstanding history h → h.index ≠ i) ∧
        t.count + free.length = t.tableSize) ∧
      (t.maxCount ∈ [0, 1, 0] ∧ ∀ n ∈ [0, 1, 0], n ≤ t.maxCount) ∧
      (∀ h obj, t.getObjectImpl h = some obj ↔ Live history h obj) ∧
      (∀ later e middle e' earlier h obj obj', history = later ++ e :: (middle ++ e' :: earlier) →
        e.Registers h obj → e'.Registers h obj' → ∃ r ∈ middle, r.Removes h) ∧
      (∀ later e earlier h, history = later ++ e :: earlier → e.issued = some h →
        h.linearId = 1 + issues earlier % 0x7FFF) ∧
      (∀ later e earlier h obj, history = later ++ e :: earlier → e.Removes h →
        Live history h obj → ∃ e' ∈ later, e'.issued = some h) ∧
      ∀ c : Call Nat, c.Admissible history → ∃ e t', t.call c = .ok (e, t') := by
  have initialized : ({} : KHandleTable Nat).initializeTable 2 = some (freeEntriesBelow 2
      { freeHeadIndex := -1, tableSize := 2, nextLinearId := minLinearId }) := rfl
  have added := Reaches.step (c := .add 7) (@Reaches.start Nat (freeEntriesBelow 2
    { freeHeadIndex := -1, tableSize := 2, nextLinearId := minLinearId })) trivial rfl
  have removed := Reaches.step (c := .remove (encodeHandle 1 1)) added trivial rfl
  exact ⟨_, reaches_handles initialized removed⟩

end SumiEmu.Kernel.KHandleTable
