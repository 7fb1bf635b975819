/-
# The slot vector

Objects are kept in slots, and a bit for each slot says whether there is an object in it.
The slots without one are in the free list, from whose back a new object takes its slot.
When the list is empty, the objects are moved to twice as many slots.

A slot of the storage holds an object or none; reading it is reading what was constructed
there and not destroyed since. Indices are 32 bit numbers, capacities are not.
-/

import SumiEmu.Foundations.WordBits

namespace SumiEmu.Common

open Function List

/-- `SlotId::INVALID_INDEX`. -/
abbrev invalidIndex : Nat := 2 ^ 32 - 1

/-- `SlotVector`. -/
structure SlotVector (T : Type*) where
  values : List (Option T) := []
  valuesCapacity : Nat := 0
  storedBitset : List (BitVec 64) := []
  freeList : List Nat := []

namespace SlotVector

variable {T : Type*}

variable (m : SlotVector T)

/-- The word of the bitset with an index. -/
def word (i : Nat) : BitVec 64 := m.storedBitset.getD i 0#64

/-- `SetStorageBit`. -/
def setStorageBit (index : Nat) : SlotVector T :=
  { m with storedBitset := m.storedBitset.modify (index / 64) (· ||| 1#64 <<< (index % 64)) }

/-- `ResetStorageBit`. -/
def resetStorageBit (index : Nat) : SlotVector T :=
  { m with storedBitset := m.storedBitset.modify (index / 64) (· &&& ~~~(1#64 <<< (index % 64))) }

/-- `ReadStorageBit`. -/
def readStorageBit (index : Nat) : Bool :=
  (m.word (index / 64)).getLsbD (index % 64)

/-- The inner loop of `Reserve`: move the objects of one word to the new slots. The source
leaves the loop when no bit of the word is left. -/
def moveWord (newValues : List (Option T)) (k : Nat) : List (Option T) :=
  (range 64).foldl (fun newValues bit =>
    if (m.word k).getLsbD bit then newValues.set (k * 64 + bit) (m.values.getD (k * 64 + bit) none)
    else newValues) newValues

/-- `Reserve`. -/
def reserve (newCapacity : Nat) : SlotVector T :=
  let newValues :=
    (range m.storedBitset.length).foldl m.moveWord (replicate newCapacity none)
  let words := (newCapacity + 63) / 64
  { values := newValues
    valuesCapacity := newCapacity
    storedBitset :=
      m.storedBitset.take words ++ replicate (words - m.storedBitset.length) 0#64
    freeList := m.freeList ++
      (range (newCapacity - m.valuesCapacity)).map fun i => (m.valuesCapacity + i) % 2 ^ 32 }

/-- `FreeValueIndex`. There is an index at the back of the list after `Reserve`. -/
def freeValueIndex : SlotVector T × Nat :=
  let m := if m.freeList = [] then
    m.reserve (if m.valuesCapacity ≠ 0 then m.valuesCapacity * 2 else 1) else m
  ({ m with freeList := m.freeList.dropLast }, m.freeList.getLastD 0)

/-- Insert an object that has been constructed. -/
def insert (object : T) : SlotVector T × Nat :=
  let (m, index) := m.freeValueIndex
  let m := { m with values := m.values.set index (some object) }
  (m.setStorageBit index, index)

/-- `erase`. -/
def erase (id : Nat) : SlotVector T :=
  let m := { m with values := m.values.set id none, freeList := m.freeList ++ [id] }
  m.resetStorageBit id

/-- `operator[]`. -/
def get (id : Nat) : Option T := m.values.getD id none

/-- `size`. -/
def size : Nat := m.valuesCapacity - m.freeList.length

/-- The number of bits, as the iterator computes it. -/
def bits : Nat := m.storedBitset.length * 64 % 2 ^ 32

/-- The loop of `operator++`, with the number of bits from the index on. -/
def search (m : SlotVector T) : Nat → Nat → Nat
  | 0, index => index
  | left + 1, index => if m.readStorageBit index then index else m.search left (index + 1)

/-- `Iterator::operator++`. -/
def next (index : Nat) : Nat :=
  if index < m.bits then
    let index := m.search (m.bits - (index + 1)) (index + 1)
    if index = m.bits then invalidIndex else index
  else index

/-- `begin`. The distance is taken from the word that is found back to the first one. -/
def begin : Nat :=
  let it := m.storedBitset.findIdx (· ≠ 0#64)
  if it = m.storedBitset.length then invalidIndex
  else
    let wordIndex := BitVec.ofInt 32 (-it)
    (wordIndex * 64 + BitVec.ofNat 32 (m.word it).ctz.toNat).toNat

/-- The ids that a loop from an iterator to `end` visits, with a bound on its rounds. -/
def visit (m : SlotVector T) : Nat → Nat → Option (List Nat)
  | 0, _ => none
  | rounds + 1, index =>
    if index = invalidIndex then some [] else (m.visit rounds (m.next index)).map (index :: ·)

/-- An operation. -/
inductive Op (T : Type*) where
  | insert (object : T)
  | erase (id : Nat)
  deriving DecidableEq

/-- The vector, together with the objects that the ids denote. -/
abbrev Tracked (T : Type*) := SlotVector T × (Nat → Option T)

/-- An operation, and what it says about the ids: an insertion lets the id that it returns
denote the new object until this id is erased. -/
def step (s : Tracked T) : Op T → Tracked T
  | .insert object =>
    let (m, id) := s.1.insert object
    (m, update s.2 id (some object))
  | .erase id => (s.1.erase id, update s.2 id none)

/-- The vector after some operations. -/
def run (ops : List (Op T)) : Tracked T := ops.foldl step ({}, fun _ => none)

end SlotVector

end SumiEmu.Common

/-!
## Integrity of the slot vector

The free list and the bitset both say which slots hold an object, and the storage has the
object of each id. An iteration that starts at the first object visits each of them; but
the place where `begin` starts is right only when the first word of the bitset has one.
-/

namespace SumiEmu.Common.SlotVector

open WordBits Function List BitVec Nat

variable {T : Type*} {m : SlotVector T} {objects : Nat → Option T} {s : Tracked T}

/-! ## The bitset -/

theorem readStorageBit_eq (m : SlotVector T) (i : Nat) : m.readStorageBit i = bitAt m.word i := rfl

theorem word_modify (m : SlotVector T) (index : Nat) (f : BitVec 64 → BitVec 64)
    (inside : index < m.storedBitset.length) :
    ({ m with storedBitset := m.storedBitset.modify index f } : SlotVector T).word =
      update m.word index (f (m.word index)) := by
  funext k
  by_cases same : k = index
  · subst same
    simp [word, inside]
  · rw [update_of_ne same]
    simp [word, Ne.symm same]

theorem readStorageBit_set (m : SlotVector T) {index : Nat}
    (inside : index / 64 < m.storedBitset.length)
    (i : Nat) : (m.setStorageBit index).readStorageBit i =
    (decide (i = index) || m.readStorageBit i) := by
  rw [readStorageBit_eq, setStorageBit, word_modify m _ _ inside]
  exact bitAt_setAt (by decide) m.word index i

theorem readStorageBit_reset (m : SlotVector T) {index : Nat}
    (inside : index / 64 < m.storedBitset.length)
    (i : Nat) : (m.resetStorageBit index).readStorageBit i =
    (m.readStorageBit i && decide (i ≠ index)) := by
  rw [readStorageBit_eq, resetStorageBit, word_modify m _ _ inside]
  exact bitAt_clearAt (by decide) m.word index i

/-! ## Growth -/

/-- Some places of a list get a value of their own. -/
theorem getElem?_foldl_set {β : Type*} (chosen : Nat → Bool) (value : Nat → β) (places : List Nat)
    (l : List β) (i : Nat) :
    (places.foldl (fun l i => if chosen i then l.set i (value i) else l) l)[i]? =
      if i ∈ places ∧ chosen i = true ∧ i < l.length then some (value i) else l[i]? := by
  induction places generalizing l with
  | nil => simp
  | cons place places ih =>
    rw [foldl_cons, ih]
    by_cases set : chosen place = true
    · rw [if_pos set, length_set, getElem?_set]
      by_cases here : place = i
      · subst here
        by_cases inside : place < l.length <;> simp [set, inside]
      · simp [here, Ne.symm here]
    · rw [if_neg set]
      by_cases here : i = place
      · subst here
        simp [set]
      · simp [here]

theorem length_foldl_set {β : Type*} (chosen : Nat → Bool) (value : Nat → β) (places : List Nat)
    (l : List β) :
    (places.foldl (fun l i => if chosen i then l.set i (value i) else l) l).length = l.length := by
  induction places generalizing l with
  | nil => rfl
  | cons place places ih =>
    rw [foldl_cons, ih]
    split
    · exact length_set
    · rfl

/-- The slots that the loops of `Reserve` look at. -/
def slots (words : Nat) : List Nat :=
  (range words).flatMap fun k => (range 64).map fun bit => k * 64 + bit

theorem mem_slots {words i : Nat} : i ∈ slots words ↔ i / 64 < words := by
  simp only [slots, mem_flatMap, mem_map, mem_range]
  constructor
  · rintro ⟨k, inside, bit, small, rfl⟩
    omega
  · exact fun inside => ⟨i / 64, inside, i % 64, mod_lt i (by decide), div_add_mod' i 64⟩

theorem foldl_moveWord (m : SlotVector T) (words : Nat) (newValues : List (Option T)) :
    (range words).foldl m.moveWord newValues = (slots words).foldl (fun newValues i =>
      if m.readStorageBit i then newValues.set i (m.values.getD i none) else newValues)
        newValues := by
  rw [slots, foldl_flatMap]
  refine foldl_ext _ _ _ fun newValues k _ => ?_
  rw [moveWord, foldl_map]
  refine foldl_ext _ _ _ fun newValues bit member => ?_
  rw [readStorageBit_eq, bitAt_word (by decide) m.word (mem_range.mp member)]

/-- A bit outside the bitset is clear. -/
theorem readStorageBit_inside {i : Nat} (set : m.readStorageBit i = true) :
    i / 64 < m.storedBitset.length := by
  by_contra outside
  rw [readStorageBit, word, getD_eq_default _ _ (Nat.le_of_not_lt outside), getLsbD_zero] at set
  cases set

theorem reserve_get (m : SlotVector T) {newCapacity i : Nat} (inside : i < newCapacity)
    (clear : m.readStorageBit i = false → m.get i = none) :
    (m.reserve newCapacity).get i = m.get i := by
  rw [get, reserve, getD_eq_getElem?_getD, foldl_moveWord, getElem?_foldl_set]
  simp only [mem_slots, length_replicate, inside, and_true]
  cases set : m.readStorageBit i
  · simp [inside, clear set]
  · simp [readStorageBit_inside set, get]

theorem reserve_readStorageBit (m : SlotVector T) {newCapacity : Nat}
    (grows : m.storedBitset.length ≤ (newCapacity + 63) / 64) (i : Nat) :
    (m.reserve newCapacity).readStorageBit i = m.readStorageBit i := by
  have same : (m.reserve newCapacity).word = m.word := by
    funext k
    rw [word, reserve, take_of_length_le grows, word]
    by_cases inside : k < m.storedBitset.length
    · rw [getD_append _ _ _ _ inside]
    · rw [getD_append_right _ _ _ _ (Nat.le_of_not_lt inside),
        getD_eq_default _ _ (Nat.le_of_not_lt inside)]
      simp [getD_eq_getElem?_getD, getElem?_replicate]
      split <;> rfl
  rw [readStorageBit_eq, same, readStorageBit_eq]

/-! ## The invariant -/

/-- The free list, the bitset and the storage agree with what the ids denote. -/
structure Consistent (s : Tracked T) : Prop where
  valuesLength : s.1.values.length = s.1.valuesCapacity
  words : s.1.storedBitset.length = (s.1.valuesCapacity + 63) / 64
  capacity : s.1.valuesCapacity = 0 ∨ ∃ k ≤ 31, s.1.valuesCapacity = 2 ^ k
  nodup : s.1.freeList.Nodup
  free : ∀ i, i ∈ s.1.freeList ↔ i < s.1.valuesCapacity ∧ s.2 i = none
  live : ∀ i, (s.2 i).isSome → i < s.1.valuesCapacity
  bits : ∀ i, s.1.readStorageBit i = (s.2 i).isSome
  denotes : ∀ i, s.1.get i = s.2 i

section

variable (consistent : Consistent s)

include consistent

theorem Consistent.capacity_le : s.1.valuesCapacity ≤ 2 ^ 31 := by
  rcases consistent.capacity with zero | ⟨k, small, power⟩
  · omega
  · rw [power]
    exact Nat.pow_le_pow_right (by decide) small

theorem Consistent.word_lt {i : Nat} (inside : i < s.1.valuesCapacity) :
    i / 64 < s.1.storedBitset.length := by
  rw [consistent.words]
  omega

/-- `Reserve` gives a full vector free slots. -/
theorem Consistent.reserve (full : s.1.freeList = [])
    (small : s.1.valuesCapacity < 2 ^ 31) :
    let m := s.1.reserve (if s.1.valuesCapacity ≠ 0 then s.1.valuesCapacity * 2 else 1)
    Consistent (m, s.2) ∧ m.freeList ≠ [] := by
  have grown : ∃ k ≤ 31, (if s.1.valuesCapacity ≠ 0 then s.1.valuesCapacity * 2 else 1) =
      2 ^ k := by
    rcases consistent.capacity with zero | ⟨k, _, power⟩
    · exact ⟨0, by decide, by simp [zero]⟩
    · refine ⟨k + 1, ?_, ?_⟩
      · rw [power] at small
        exact (Nat.pow_lt_pow_iff_right (by decide)).mp small
      · rw [if_pos (by simp [power]), power, pow_succ]
  have more : s.1.valuesCapacity < if s.1.valuesCapacity ≠ 0 then s.1.valuesCapacity * 2
      else 1 := by
    split <;> omega
  revert grown more
  generalize (if s.1.valuesCapacity ≠ 0 then s.1.valuesCapacity * 2 else 1) = newCapacity
  rintro ⟨k, fits, power⟩ more
  have wordsLe : s.1.storedBitset.length ≤ (newCapacity + 63) / 64 := by
    rw [consistent.words]
    omega
  have bounded : newCapacity ≤ 2 ^ 31 := power ▸ Nat.pow_le_pow_right (by decide) fits
  have freeList : (s.1.reserve newCapacity).freeList =
      (range (newCapacity - s.1.valuesCapacity)).map (s.1.valuesCapacity + ·) := by
    rw [SlotVector.reserve, full, nil_append]
    refine map_congr_left fun i member => mod_eq_of_lt ?_
    have := mem_range.mp member
    omega
  refine ⟨⟨?_, ?_, .inr ⟨k, fits, power⟩, ?_, fun i => ?_, fun i some => ?_, fun i => ?_,
    fun i => ?_⟩, ?_⟩
  · rw [SlotVector.reserve, foldl_moveWord, length_foldl_set]
    exact length_replicate
  · simp only [SlotVector.reserve, length_append, length_take, length_replicate]
    omega
  · rw [freeList]
    exact nodup_range.map fun i j same => add_left_cancel same
  · -- the new slots are the free ones
    have taken : i < s.1.valuesCapacity → s.2 i ≠ none := fun inside none =>
      not_mem_nil (full ▸ (consistent.free i).mpr ⟨inside, none⟩)
    rw [freeList]
    simp only [mem_map, mem_range]
    constructor
    · rintro ⟨j, inside, rfl⟩
      refine ⟨show _ < newCapacity by omega, ?_⟩
      by_contra some
      have := consistent.live _ (Option.isSome_iff_ne_none.mpr some)
      omega
    · rintro ⟨inside, none⟩
      have : i < newCapacity := inside
      refine ⟨i - s.1.valuesCapacity, by omega, ?_⟩
      by_cases old : i < s.1.valuesCapacity
      · exact absurd none (taken old)
      · omega
  · exact (consistent.live i some).trans more
  · rw [reserve_readStorageBit _ wordsLe, consistent.bits]
  · by_cases inside : i < newCapacity
    · rw [reserve_get _ inside, consistent.denotes]
      intro clear
      rw [consistent.bits] at clear
      rw [consistent.denotes]
      exact Option.not_isSome_iff_eq_none.mp (by simp [clear])
    · have outside : s.2 i = none := by
        by_contra some
        have := consistent.live i (Option.isSome_iff_ne_none.mpr some)
        omega
      rw [outside, get, getD_eq_default]
      rw [SlotVector.reserve, foldl_moveWord, length_foldl_set, length_replicate]
      omega
  · rw [freeList]
    simp
    omega

/-- A free slot takes an object. -/
theorem Consistent.construct {front : List Nat} {index : Nat}
    (back : s.1.freeList = front ++ [index]) (object : T) :
    Consistent (({ s.1 with freeList := front, values := s.1.values.set index (some object) } :
      SlotVector T).setStorageBit index, update s.2 index (some object)) := by
  obtain ⟨inside, _⟩ := (consistent.free index).mp (by simp [back])
  have nodup := consistent.nodup
  rw [back, nodup_append] at nodup
  refine ⟨?_, ?_, consistent.capacity, nodup.1, fun i => ?_, fun i some => ?_, fun i => ?_,
    fun i => ?_⟩
  · exact length_set.trans consistent.valuesLength
  · exact (length_modify ..).trans consistent.words
  · have listed : i ∈ s.1.freeList ↔ i ∈ front ∨ i = index := by simp [back]
    by_cases same : i = index
    · subst same
      have absent : i ∉ front := fun member => nodup.2.2 i member i (by simp) rfl
      exact iff_of_false absent fun free => by simp at free
    · rw [consistent.free, or_iff_left same] at listed
      change i ∈ front ↔ i < s.1.valuesCapacity ∧ update s.2 index (some object) i = none
      rw [update_of_ne same, listed]
  · by_cases same : i = index
    · exact same ▸ inside
    · exact consistent.live i (by simpa [same] using some)
  · refine (readStorageBit_set _ (by exact consistent.word_lt inside) i).trans ?_
    by_cases same : i = index
    · simp [same]
    · rw [decide_eq_false same, Bool.false_or]
      change s.1.readStorageBit i = (update s.2 index (some object) i).isSome
      rw [update_of_ne same, consistent.bits]
  · change (s.1.values.set index (some object)).getD i none = update s.2 index (some object) i
    by_cases same : i = index
    · subst same
      simp [consistent.valuesLength, inside]
    · rw [update_of_ne same, ← consistent.denotes, get]
      simp [getD_eq_getElem?_getD, Ne.symm same]

theorem Consistent.insert (small : s.1.size < 2 ^ 31) (object : T) :
    Consistent (step s (.insert object)) := by
  -- after `Reserve`, if it is needed, there is a free slot
  obtain ⟨m, ready, kept, nonempty⟩ : ∃ m : SlotVector T, m = (if s.1.freeList = [] then
      s.1.reserve (if s.1.valuesCapacity ≠ 0 then s.1.valuesCapacity * 2 else 1) else s.1) ∧
      Consistent (m, s.2) ∧ m.freeList ≠ [] := by
    refine ⟨_, rfl, ?_⟩
    by_cases full : s.1.freeList = []
    · rw [if_pos full]
      rw [size, full] at small
      exact consistent.reserve full small
    · rw [if_neg full]
      exact ⟨consistent, full⟩
  obtain ⟨front, index, back⟩ := eq_nil_or_concat m.freeList |>.resolve_left nonempty
  rw [concat_eq_append] at back
  have taken : s.1.freeValueIndex = ({ m with freeList := front }, index) := by
    rw [freeValueIndex, ← ready, back]
    simp
  rw [step, SlotVector.insert, taken]
  exact kept.construct back object

theorem Consistent.erase {id : Nat} (live : (s.2 id).isSome) :
    Consistent (step s (.erase id)) := by
  have inside := consistent.live id live
  refine ⟨?_, ?_, consistent.capacity, ?_, fun i => ?_, fun i some => ?_, fun i => ?_, fun i => ?_⟩
  · exact length_set.trans consistent.valuesLength
  · exact (length_modify ..).trans consistent.words
  · refine nodup_append.mpr ⟨consistent.nodup, nodup_singleton id, ?_⟩
    rintro i member j last rfl
    rw [mem_singleton.mp last, consistent.free] at member
    simp [member.2] at live
  · change i ∈ s.1.freeList ++ [id] ↔ i < s.1.valuesCapacity ∧ update s.2 id none i = none
    rw [mem_append, mem_singleton, consistent.free]
    by_cases same : i = id
    · subst same
      simp [inside]
    · simp [same]
  · by_cases same : i = id
    · exact same ▸ inside
    · exact consistent.live i (by simpa [step, same] using some)
  · refine (readStorageBit_reset _ (by exact consistent.word_lt inside) i).trans ?_
    by_cases same : i = id
    · simp [same, step]
    · rw [decide_eq_true same, Bool.and_true]
      change s.1.readStorageBit i = (update s.2 id none i).isSome
      rw [update_of_ne same, consistent.bits]
  · change (s.1.values.set id none).getD i none = update s.2 id none i
    by_cases same : i = id
    · subst same
      simp [consistent.valuesLength, inside]
    · rw [update_of_ne same, ← consistent.denotes, get]
      simp [getD_eq_getElem?_getD, Ne.symm same]

end

/-- An id that is erased is live, and there is room for an index of 32 bits. -/
def Op.Allowed (s : Tracked T) : Op T → Prop
  | .insert _ => s.1.size < 2 ^ 31
  | .erase id => (s.2 id).isSome

instance (s : Tracked T) (op : Op T) : Decidable (op.Allowed s) := by
  unfold Op.Allowed
  split <;> infer_instance

/-- Each operation is allowed in the state in which it comes. -/
def Allowed : Tracked T → List (Op T) → Prop
  | _, [] => True
  | s, op :: ops => op.Allowed s ∧ Allowed (step s op) ops

instance decidableAllowed : (s : Tracked T) → (ops : List (Op T)) → Decidable (Allowed s ops)
  | _, [] => .isTrue trivial
  | s, op :: ops => @instDecidableAnd _ _ _ (decidableAllowed (step s op) ops)

theorem Consistent.step (consistent : Consistent s) {op : Op T} (allowed : op.Allowed s) :
    Consistent (step s op) := by
  cases op with
  | insert object => exact consistent.insert allowed object
  | erase id => exact consistent.erase allowed

theorem Consistent.foldl (consistent : Consistent s) {ops : List (Op T)} (allowed : Allowed s ops) :
    Consistent (ops.foldl SlotVector.step s) := by
  induction ops generalizing s with
  | nil => exact consistent
  | cons op ops ih => exact ih (consistent.step allowed.1) allowed.2

theorem consistent_start : Consistent (({}, fun _ => none) : Tracked T) where
  valuesLength := rfl
  words := by simp
  capacity := .inl rfl
  nodup := nodup_nil
  free i := by simp
  live i some := by cases some
  bits i := by simp [readStorageBit, word]
  denotes i := rfl

theorem consistent_run {ops : List (Op T)} (allowed : Allowed ({}, fun _ => none) ops) :
    Consistent (run ops) :=
  consistent_start.foldl allowed

/-! ## Iteration -/

/-- The live ids from an index on, in ascending order. -/
def liveFrom (s : Tracked T) (index : Nat) : List Nat :=
  (range' index (s.1.storedBitset.length * 64 - index)).filter fun i => (s.2 i).isSome

/-- The live ids in ascending order. -/
def liveIds (s : Tracked T) : List Nat :=
  (range s.1.valuesCapacity).filter fun i => (s.2 i).isSome

section

variable (consistent : Consistent s)

include consistent

theorem Consistent.bits_eq : s.1.bits = s.1.storedBitset.length * 64 := by
  have small := consistent.capacity_le
  rw [SlotVector.bits, consistent.words]
  omega

theorem Consistent.liveFrom_zero : liveFrom s 0 = liveIds s := by
  have more : s.1.storedBitset.length * 64 =
      s.1.valuesCapacity + (s.1.storedBitset.length * 64 - s.1.valuesCapacity) := by
    rw [consistent.words]
    omega
  have behind : ((range (s.1.storedBitset.length * 64 - s.1.valuesCapacity)).map
      (s.1.valuesCapacity + ·)).filter (fun i => (s.2 i).isSome) = [] := by
    rw [filter_eq_nil_iff]
    intro i member live
    obtain ⟨j, _, rfl⟩ := mem_map.mp member
    have := consistent.live _ live
    omega
  rw [liveFrom, liveIds, Nat.sub_zero, ← range_eq_range', more, range_add, filter_append,
    behind, append_nil]

/-- From the next live id an iteration visits all live ids that are left. -/
theorem Consistent.visit_search (left index : Nat)
    (whole : index + left = s.1.bits) : ∃ rounds, s.1.visit rounds
      (if s.1.search left index = s.1.bits then invalidIndex else s.1.search left index) =
        some (liveFrom s index) := by
  induction left generalizing index with
  | zero =>
    refine ⟨1, ?_⟩
    rw [search, if_pos (by omega), visit, if_pos rfl, liveFrom, ← consistent.bits_eq,
      show s.1.bits - index = 0 by omega]
    rfl
  | succ left ih =>
    obtain ⟨rounds, visited⟩ := ih (index + 1) (by omega)
    have inside : index < s.1.bits := by omega
    have split : liveFrom s index =
        if (s.2 index).isSome then index :: liveFrom s (index + 1) else liveFrom s (index + 1) := by
      rw [liveFrom, ← consistent.bits_eq, show s.1.bits - index = s.1.bits - (index + 1) +
        1 by omega, range'_succ, filter_cons, liveFrom, ← consistent.bits_eq]
    rw [search, consistent.bits, split]
    by_cases live : (s.2 index).isSome = true
    · rw [if_pos live, if_pos live, if_neg (by omega)]
      refine ⟨rounds + 1, ?_⟩
      have small := consistent.capacity_le
      have used := consistent.live index live
      rw [visit, if_neg (by simp only [invalidIndex]; omega), next, if_pos inside,
        show s.1.bits - (index + 1) = left by omega]
      dsimp only
      rw [visited]
      rfl
    · rw [if_neg live, if_neg live]
      exact ⟨rounds, visited⟩

theorem mem_liveIds {i : Nat} : i ∈ liveIds s ↔ (s.2 i).isSome := by
  rw [liveIds, mem_filter, mem_range]
  exact and_iff_right_of_imp (consistent.live i)

/-- A word is zero when none of its ids is live. -/
theorem Consistent.word_eq_zero_iff (k : Nat) :
    s.1.word k = 0 ↔ ∀ i, i / 64 = k → s.2 i = none := by
  rw [WordBits.word_eq_zero_iff (by decide)]
  refine forall_congr' fun i => imp_congr_right fun _ => ?_
  rw [← readStorageBit_eq, consistent.bits]
  exact Option.isSome_eq_false_iff.trans Option.isNone_iff_eq_none

end

/-- The search stops at the first set bit. -/
theorem search_eq {index i left : Nat} (lower : index ≤ i) (upper : i < index + left)
    (clear : ∀ j, index ≤ j → j < i → m.readStorageBit j = false)
    (set : m.readStorageBit i = true) : m.search left index = i := by
  induction left generalizing index with
  | zero => omega
  | succ left ih =>
    rw [search]
    rcases eq_or_lt_of_le lower with rfl | before
    · rw [if_pos set]
    · rw [clear index (le_refl index) before, if_neg Bool.false_ne_true]
      exact ih before (by omega) fun j above => clear j (le_of_succ_le above)

/-- The distance from a word that is not the first one wraps around. -/
theorem first_id {k c : Nat} (small : k ≤ 2 ^ 25) (bit : c < 64) :
    (BitVec.ofInt 32 (-k) * 64 + BitVec.ofNat 32 c).toNat = if k = 0 then c
    else 2 ^ 32 - 64 * k + c := by
  rw [toNat_add, toNat_mul, toNat_ofInt, toNat_ofNat]
  change (((-(k : Int)) % 4294967296).toNat * 64 % 4294967296 + c % 4294967296) % 4294967296 = _
  split <;> omega

/-- Where `begin` starts: at the end when all words are zero, else from the first word that
is not zero. -/
theorem Consistent.begin_cases (consistent : Consistent s) :
    (s.1.begin = invalidIndex ∧ ∀ i, s.2 i = none) ∨ ∃ k c, k ≤ 2 ^ 25 ∧ c < 64 ∧
      (s.2 (k * 64 + c)).isSome ∧ (∀ i, i < k * 64 + c → s.2 i = none) ∧
      s.1.begin = if k = 0 then c else 2 ^ 32 - 64 * k + c := by
  have small := consistent.capacity_le
  have element {k : Nat} (inside : k < s.1.storedBitset.length) : s.1.word k =
    s.1.storedBitset[k] :=
    getD_eq_getElem _ _ inside
  have before (k : Nat) (clear : ∀ j < k, s.1.word j = 0) (i : Nat) (lower : i < k * 64) : s.2 i =
    none :=
    (consistent.word_eq_zero_iff (i / 64)).mp (clear _ (by omega)) i rfl
  rw [SlotVector.begin]
  dsimp only
  split
  · rename_i none
    refine Or.inl ⟨rfl, fun i => ?_⟩
    by_cases inside : i / 64 < s.1.storedBitset.length
    · refine (consistent.word_eq_zero_iff (i / 64)).mp ?_ i rfl
      have zero := findIdx_eq_length.mp none _ (getElem_mem inside)
      rw [element inside]
      simpa using zero
    · by_contra live
      exact inside (consistent.word_lt (consistent.live i (Option.isSome_iff_ne_none.mpr live)))
  · rename_i found
    have inside : s.1.storedBitset.findIdx (· ≠ 0#64) < s.1.storedBitset.length :=
      lt_of_le_of_ne findIdx_le_length found
    have nonzero := findIdx_getElem (w := inside)
    have clear : ∀ j < s.1.storedBitset.findIdx (· ≠ 0#64), s.1.word j = 0 := fun j earlier => by
      have zero := not_of_lt_findIdx earlier
      rw [element (earlier.trans inside)]
      simpa using zero
    generalize s.1.storedBitset.findIdx (· ≠ 0#64) = k at inside nonzero clear
    rw [← element inside] at nonzero
    have words : k ≤ 2 ^ 25 := by
      rw [consistent.words] at inside
      omega
    have word : s.1.word k ≠ 0#64 := by simpa using nonzero
    have bit : (s.1.word k).ctz.toNat < 64 := lt_def.mp (ctz_lt_iff_ne_zero.mpr word)
    have read (c : Nat) (low : c < 64) : (s.1.word k).getLsbD c = (s.2 (k * 64 + c)).isSome := by
      rw [← consistent.bits, readStorageBit_eq, bitAt_word (by decide) s.1.word low]
    refine Or.inr ⟨k, (s.1.word k).ctz.toNat, words, bit, ?_, fun i lower => ?_, first_id words bit⟩
    · rw [← read _ bit]
      exact getLsbD_true_ctz_of_ne_zero word
    · rcases lt_or_ge i (k * 64) with earlier | same
      · exact before k clear i earlier
      · have dead : (s.1.word k).getLsbD (i - k * 64) = false :=
          getLsbD_false_of_lt_ctz (show i - k * 64 < _ by omega)
        rw [read _ (by omega), Nat.add_sub_cancel' same] at dead
        exact Option.not_isSome_iff_eq_none.mp (by simp [dead])

/-- The iteration is right just when there is a live id in the first word or none at all. -/
theorem Consistent.visit_begin_iff (consistent : Consistent s) :
    (∃ rounds, s.1.visit rounds s.1.begin = some (liveIds s)) ↔
      (∀ i, s.2 i = none) ∨ ∃ i < 64, (s.2 i).isSome := by
  have small := consistent.capacity_le
  rcases consistent.begin_cases with ⟨start, empty⟩ | ⟨k, c, words, bit, live, clear, start⟩
  · refine iff_of_true ⟨1, ?_⟩ (Or.inl empty)
    rw [visit, if_pos start, eq_comm, Option.some_inj, liveIds, filter_eq_nil_iff]
    simp [empty]
  · have used := consistent.live _ live
    rcases Nat.eq_zero_or_pos k with rfl | later
    · refine iff_of_true ?_ (Or.inr ⟨c, bit, by simpa using live⟩)
      rw [Nat.zero_mul, Nat.zero_add] at live clear used
      have inside : c < s.1.bits := by
        have := consistent.word_lt used
        rw [consistent.bits_eq]
        omega
      have found : s.1.search s.1.bits 0 = c := by
        refine search_eq (Nat.zero_le c) (by omega) (fun j _ earlier => ?_)
          (by rw [consistent.bits, live])
        rw [consistent.bits, clear j earlier]
        rfl
      obtain ⟨rounds, visited⟩ := consistent.visit_search s.1.bits 0 (Nat.zero_add _)
      rw [found, if_neg inside.ne, consistent.liveFrom_zero] at visited
      exact ⟨rounds, by rw [start, if_pos rfl, visited]⟩
    · -- the iteration starts with an id that is not live, or at the end
      rw [if_neg later.ne'] at start
      refine iff_of_false ?_ ?_
      · rintro ⟨rounds, visited⟩
        have member : k * 64 + c ∈ liveIds s := (mem_liveIds consistent).mpr live
        cases rounds with
        | zero => cases visited
        | succ rounds =>
          rw [visit] at visited
          split at visited
          · rw [← Option.some_inj.mp visited] at member
            cases member
          · obtain ⟨rest, _, list⟩ := Option.map_eq_some_iff.mp visited
            have first : s.1.begin ∈ liveIds s := list ▸ mem_cons_self
            have := consistent.live _ ((mem_liveIds consistent).mp first)
            omega
      · rintro (empty | ⟨i, low, some⟩)
        · rw [empty] at live
          cases live
        · rw [clear i (by omega)] at some
          cases some

/-! ## Runs -/

/-- What the vector promises of the ids that its history makes live. -/
structure Integrity (s : Tracked T) : Prop where
  nodup : s.1.freeList.Nodup
  covered : ∀ i, i < s.1.valuesCapacity ↔ i ∈ s.1.freeList ∨ (s.2 i).isSome
  disjoint : ∀ i ∈ s.1.freeList, s.2 i = none
  denotes : ∀ i, s.1.get i = s.2 i
  size : s.1.size = (liveIds s).length
  visits : ∃ rounds, s.1.visit rounds s.1.begin = some (liveIds s)

theorem Consistent.size_eq (consistent : Consistent s) : s.1.size = (liveIds s).length := by
  have perm : s.1.freeList.Perm ((range s.1.valuesCapacity).filter fun i => !(s.2 i).isSome) := by
    refine (perm_ext_iff_of_nodup consistent.nodup (nodup_range.filter _)).mpr fun i => ?_
    simp [consistent.free]
  have total := length_eq_length_filter_add (l := range s.1.valuesCapacity) fun i =>
    (s.2 i).isSome
  rw [length_range, ← perm.length_eq] at total
  rw [size, liveIds]
  omega

/-- The vector keeps its promise just when there is a live id in the first word or none. -/
theorem run_integrity_iff (ops : List (Op T)) (allowed : Allowed ({}, fun _ => none) ops) :
    Integrity (run ops) ↔
      (∀ i, (run ops).2 i = none) ∨ ∃ i < 64, ((run ops).2 i).isSome := by
  have consistent := consistent_run allowed
  rw [← consistent.visit_begin_iff]
  refine ⟨fun integrity => integrity.visits,
    fun visits => ⟨consistent.nodup, fun i => ?_, fun i free => ?_, consistent.denotes,
    consistent.size_eq, visits⟩⟩
  · rw [consistent.free]
    by_cases live : ((run ops).2 i).isSome = true
    · exact iff_of_true (consistent.live i live) (Or.inr live)
    · simp [Option.not_isSome_iff_eq_none.mp live]
  · exact ((consistent.free i).mp free).2

theorem run_integrity_iff_reused : let ops := [.insert 'a', .insert 'b', .erase 0, .insert 'c'];
    Integrity (run ops) ↔ (∀ i, (run ops).2 i = none) ∨ ∃ i < 64, ((run ops).2 i).isSome :=
  run_integrity_iff _ (by decide)

/-- Objects are inserted until the bitset has a second word, and those of the first word are
erased: the iteration ends where it begins although an object is left. -/
theorem run_skips_object : let ops := (range 65).map .insert ++ (range 64).map .erase;
    Allowed ({}, fun _ => none) ops ∧ liveIds (run ops) = [127] ∧ ¬ Integrity (run ops) := by
  intro ops
  have begin_eq : (run ops).1.begin = invalidIndex := by decide +kernel
  have live : liveIds (run ops) = [127] := by decide +kernel
  refine ⟨by decide +kernel, live, fun integrity => ?_⟩
  obtain ⟨rounds, visited⟩ := integrity.visits
  rw [begin_eq, live] at visited
  cases rounds with
  | zero => cases visited
  | succ rounds =>
    rw [visit, if_pos rfl] at visited
    cases visited

end SumiEmu.Common.SlotVector
