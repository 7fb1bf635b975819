/-
# The range map

The map keeps an ordered container of keys, each with the value from there on. Keys are
signed, so that the first entry, which is at the least key, lies in front of every address.
An iterator is the index of its entry, and the end is the number of entries.
-/

import Mathlib.Algebra.Group.Int.Defs
import Mathlib.Algebra.Group.Nat.Defs
import SumiEmu.Foundations.StepFunction

namespace SumiEmu.Common

/-- `std::numeric_limits<KeyT>::min()`. -/
abbrev minKey : Int := -2 ^ 63

/-- `std::numeric_limits<KeyT>::max()`. -/
abbrev maxKey : Int := 2 ^ 63 - 1

structure RangeMap (ValueT : Type*) where
  nullValue : ValueT
  container : List (Int × ValueT)

namespace RangeMap

variable {ValueT : Type*}

/-- The constructor. -/
def new (nullValue : ValueT) : RangeMap ValueT := ⟨nullValue, [(minKey, nullValue)]⟩

/-- `container.lower_bound`. -/
def lowerBound (m : RangeMap ValueT) (address : Int) : Nat :=
  m.container.findIdx fun entry => address ≤ entry.1

/-- `container.upper_bound`. -/
def upperBound (m : RangeMap ValueT) (address : Int) : Nat :=
  m.container.findIdx fun entry => address < entry.1

/-- `container.emplace`: an entry that is there already stays as it is. -/
def emplace (m : RangeMap ValueT) (key : Int) (value : ValueT) : RangeMap ValueT :=
  if m.container.any fun entry => entry.1 = key then m
  else
    let it := m.lowerBound key
    { m with container := m.container.take it ++ (key, value) :: m.container.drop it }

/-- The loop that erases the entries between two iterators. -/
def erase (m : RangeMap ValueT) (it itEnd : Nat) : RangeMap ValueT :=
  { m with container := m.container.take it ++ m.container.drop itEnd }

/-- The value of an entry. The source does not read behind the last one. -/
def second (m : RangeMap ValueT) (it : Nat) : ValueT :=
  match m.container[it]? with
  | none => m.nullValue
  | some entry => entry.2

/-- `GetFirstElementBeforeOrOn`. -/
def getFirstElementBeforeOrOn (m : RangeMap ValueT) (address : Int) : Nat :=
  let it := m.lowerBound address
  if it = 0 then it
  else if (m.container[it]?).any fun entry => entry.1 = address then it
  else it - 1

/-- `GetFirstValueWithin`. -/
def getFirstValueWithin (m : RangeMap ValueT) (address : Int) : ValueT :=
  let it := m.lowerBound address
  if it = 0 then m.second it
  else if it = m.container.length then m.nullValue
  else m.second (it - 1)

/-- `GetLastValueWithin`. -/
def getLastValueWithin (m : RangeMap ValueT) (address : Int) : ValueT :=
  let it := m.upperBound address
  if it = m.container.length then m.nullValue
  else if it = 0 then m.second it
  else m.second (it - 1)

/-- `GetValueInternal`. -/
def getValueInternal (m : RangeMap ValueT) (address : Int) : ValueT :=
  let it := m.getFirstElementBeforeOrOn address
  if it = m.container.length then m.nullValue else m.second it

/-- `GetValueAt`. -/
def getValueAt (m : RangeMap ValueT) (address : Int) : ValueT :=
  if address < 0 then m.nullValue else m.getValueInternal address

variable [DecidableEq ValueT]

/-- `ContinuousSizeInternal`. -/
def continuousSizeInternal (m : RangeMap ValueT) (address : Int) : BitVec 64 :=
  match m.container.drop (m.getFirstElementBeforeOrOn address) with
  | [] => 0
  | (_, value) :: next =>
    if value = m.nullValue then 0
    else
      match next with
      | [] => BitVec.ofInt 64 (maxKey - address)
      | (key, _) :: _ => BitVec.ofInt 64 (key - address)

/-- `GetContinuousSizeFrom`. -/
def getContinuousSizeFrom (m : RangeMap ValueT) (address : BitVec 64) : BitVec 64 :=
  let newAddress := address.toInt
  if newAddress < 0 then 0 else m.continuousSizeInternal newAddress

/-- `InternalMap`. -/
def internalMap (m : RangeMap ValueT) (address addressEnd : Int) (value : ValueT) :
    RangeMap ValueT :=
  let mustAddStart := m.getFirstValueWithin address ≠ value
  let lastValue := m.getLastValueWithin addressEnd
  let mustAddEnd := lastValue ≠ value
  let m := m.erase (m.lowerBound address) (m.upperBound addressEnd)
  let m := if mustAddStart then m.emplace address value else m
  if mustAddEnd then m.emplace addressEnd lastValue else m

/-- `Map`. -/
def map (m : RangeMap ValueT) (address addressEnd : BitVec 64) (value : ValueT) : RangeMap ValueT :=
  m.internalMap (max address.toInt 0) (max addressEnd.toInt 0) value

/-- `Unmap`. -/
def unmap (m : RangeMap ValueT) (address addressEnd : BitVec 64) : RangeMap ValueT :=
  m.map address addressEnd m.nullValue

/-- The operations that change the map. -/
inductive Op (ValueT : Type*) where
  | map (address addressEnd : BitVec 64) (value : ValueT)
  | unmap (address addressEnd : BitVec 64)

/-- What an operation does. -/
def step (m : RangeMap ValueT) : Op ValueT → RangeMap ValueT
  | .map address addressEnd value => m.map address addressEnd value
  | .unmap address addressEnd => m.unmap address addressEnd

/-- The map after a sequence of operations. -/
def run (nullValue : ValueT) (ops : List (Op ValueT)) : RangeMap ValueT :=
  ops.foldl step (new nullValue)

end RangeMap

end SumiEmu.Common

/-!
## The range map denotes a function

The container is a reduced list of steps that starts and ends with the null value. An
operation replaces the steps of its range, and the queries read the function that the
steps denote.
-/

namespace SumiEmu.Common.RangeMap

open StepFunction List

variable {ValueT : Type*} {m : RangeMap ValueT} {xs mid ys : List (Int × ValueT)} {k : Int}

/-- The first entry of which something holds, when it holds from some entry on. -/
theorem findIdx_of_split {p : Int × ValueT → Bool} (before : ∀ entry ∈ xs, p entry = false)
    (behind : ∀ entry ∈ ys, p entry = true) : (xs ++ ys).findIdx p = xs.length := by
  have none : xs.findIdx p = xs.length := findIdx_eq_length.mpr before
  have first : ys.findIdx p = 0 := by
    cases ys with
    | nil => rfl
    | cons entry ys => simp [findIdx_cons, behind entry mem_cons_self]
  rw [findIdx_append, none, first, if_neg (Nat.lt_irrefl _), Nat.zero_add]

section

variable (whole : m.container = xs ++ ys)

include whole

theorem lowerBound_eq (below : ∀ entry ∈ xs, entry.1 < k)
    (above : ∀ entry ∈ ys, k ≤ entry.1) : m.lowerBound k = xs.length := by
  rw [lowerBound, whole]
  exact findIdx_of_split (fun entry member => decide_eq_false (not_le.mpr (below entry member)))
    fun entry member => decide_eq_true (above entry member)

theorem upperBound_eq (below : ∀ entry ∈ xs, entry.1 ≤ k)
    (above : ∀ entry ∈ ys, k < entry.1) : m.upperBound k = xs.length := by
  rw [upperBound, whole]
  exact findIdx_of_split (fun entry member => decide_eq_false (not_lt.mpr (below entry member)))
    fun entry member => decide_eq_true (above entry member)

theorem emplace_eq (below : ∀ entry ∈ xs, entry.1 < k)
    (above : ∀ entry ∈ ys, k < entry.1) (value : ValueT) :
    m.emplace k value = ⟨m.nullValue, xs ++ (k, value) :: ys⟩ := by
  have absent : ¬ m.container.any (fun entry => decide (entry.1 = k)) = true := by
    rw [whole, any_eq_true]
    rintro ⟨entry, member, same⟩
    rcases mem_append.mp member with member | member
    · exact (below entry member).ne (of_decide_eq_true same)
    · exact (above entry member).ne' (of_decide_eq_true same)
  rw [emplace, if_neg absent, lowerBound_eq whole below fun entry member => (above entry member).le,
    whole]
  simp

/-- The entry in front of an iterator. -/
theorem second_of_split (nonempty : xs ≠ []) (v : ValueT) :
    m.second (xs.length - 1) = lastValue v xs := by
  obtain ⟨front, entry, rfl⟩ := eq_nil_or_concat xs |>.resolve_left nonempty
  rw [second, whole, concat_eq_append, lastValue_append]
  simp [lastValue]

end

/-- What every sequence of operations keeps. -/
structure Canonical (m : RangeMap ValueT) : Prop where
  first : m.container.head? = some (minKey, m.nullValue)
  last : m.container.getLast?.map Prod.snd = some m.nullValue
  bounded : ∀ entry ∈ m.container, entry.1 ≤ maxKey
  ascending : Ascending m.container
  reduced : Reduced m.container

section

variable (canonical : m.Canonical)

include canonical

theorem Canonical.lastValue_eq (v : ValueT) :
    lastValue v m.container = m.nullValue := by
  obtain ⟨entry, last, value⟩ := Option.map_eq_some_iff.mp canonical.last
  rw [lastValue_of_getLast? last, value]

/-- In front of an address there is at least the first entry. -/
theorem Canonical.ne_nil (whole : m.container = xs ++ ys) (positive : 0 ≤ k)
    (above : ∀ entry ∈ ys, k ≤ entry.1) : xs ≠ [] := by
  rintro rfl
  have first := canonical.first
  rw [whole, nil_append] at first
  have := above _ (mem_of_mem_head? first)
  simp only [minKey] at this
  omega

/-- Both values that decide whether an entry is added are values in front of an iterator. -/
theorem Canonical.value_before (whole : m.container = xs ++ ys)
    (nonempty : xs ≠ []) : (if xs.length = m.container.length then m.nullValue
      else m.second (xs.length - 1)) = lastValue m.nullValue xs := by
  split
  · rename_i full
    have none : ys = [] := eq_nil_of_length_eq_zero (by
      rw [whole, length_append] at full
      omega)
    rw [none, append_nil] at whole
    rw [← whole, canonical.lastValue_eq]
  · exact second_of_split whole nonempty _

/-- What the queries find for an address. -/
theorem Canonical.exists_element (positive : 0 ≤ k) :
    ∃ before entry behind, m.container = before ++ entry :: behind ∧
      m.getFirstElementBeforeOrOn k = before.length ∧ (∀ entry ∈ before, entry.1 ≤ k) ∧
      entry.1 ≤ k ∧ ∀ entry ∈ behind, k < entry.1 := by
  obtain ⟨lower, upper, whole, below, above⟩ := canonical.ascending.split k
  have nonempty := canonical.ne_nil whole positive above
  have start := lowerBound_eq whole below above
  have some : lower.length ≠ 0 := mt eq_nil_of_length_eq_zero nonempty
  have ascending := canonical.ascending
  rw [whole] at ascending
  by_cases exact : ∃ entry behind, upper = entry :: behind ∧ entry.1 = k
  · obtain ⟨entry, behind, rfl, rfl⟩ := exact
    refine ⟨lower, entry, behind, whole, ?_, fun e member => (below e member).le, le_rfl, ?_⟩
    · rw [getFirstElementBeforeOrOn, start, if_neg some, whole]
      simp
    · exact (pairwise_cons.mp (pairwise_append.mp ascending).2.1).1
  · obtain ⟨before, entry, rfl⟩ := eq_nil_or_concat lower |>.resolve_left nonempty
    rw [concat_eq_append] at *
    refine ⟨before, entry, upper, by simp [whole], ?_, fun e member => (below e
      (by simp [member])).le, (below entry (by simp)).le, fun e member => ?_⟩
    · have other : ¬ (m.container[(before ++ [entry]).length]?).any (fun e => decide (e.1 = k)) =
          true := by
        rw [whole, getElem?_append_right (Nat.le_refl _), Nat.sub_self]
        cases upper with
        | nil => simp
        | cons e behind => simpa using fun same => exact ⟨e, behind, rfl, same⟩
      rw [getFirstElementBeforeOrOn, start, if_neg some, if_neg other, length_append]
      rfl
    · refine lt_of_le_of_ne (above e member) fun same => ?_
      -- the first of these entries would be the one at the address
      cases upper with
      | nil => cases member
      | cons first behind =>
        have bound := above first mem_cons_self
        rcases mem_cons.mp member with rfl | later
        · exact exact ⟨_, behind, rfl, same.symm⟩
        · have := (pairwise_cons.mp (pairwise_append.mp ascending).2.1).1 e later
          omega

theorem Canonical.getValueInternal_eq (positive : 0 ≤ k) :
    m.getValueInternal k = valueAt m.nullValue m.container k := by
  obtain ⟨before, entry, behind, whole, found, below, here, above⟩ :=
    canonical.exists_element positive
  have inside : before.length ≠ m.container.length := by simp [whole]
  rw [getValueInternal, found, if_neg inside, second, whole, append_cons, valueAt_append,
    valueAt_before above, valueAt_append, valueAt_cons, if_pos here]
  simp [valueAt]

end

variable [DecidableEq ValueT]

/-- An entry is added where it changes the value. -/
theorem emplace_if (below : ∀ entry ∈ xs, entry.1 < k) (above : ∀ entry ∈ ys, k < entry.1)
    (nullValue : ValueT) {mustAdd : Prop} [Decidable mustAdd] {v w : ValueT}
    (needed : mustAdd ↔ v ≠ w) :
    (if mustAdd then (⟨nullValue, xs ++ ys⟩ : RangeMap ValueT).emplace k w
      else ⟨nullValue, xs ++ ys⟩) = ⟨nullValue, xs ++ stepIf v k w ++ ys⟩ := by
  rw [stepIf]
  by_cases differs : v ≠ w
  · rw [if_pos differs, if_pos (needed.mpr differs), emplace_eq rfl below above, append_assoc,
      singleton_append]
  · rw [if_neg differs, if_neg (mt needed.mp differs), append_nil]

/-- `InternalMap` replaces the entries of the range. -/
theorem internalMap_eq (canonical : m.Canonical) {address addressEnd : Int} {value : ValueT}
    (positive : 0 ≤ address) (ordered : address < addressEnd)
    (whole : m.container = xs ++ mid ++ ys) (below : ∀ entry ∈ xs, entry.1 < address)
    (within : ∀ entry ∈ mid, address ≤ entry.1 ∧ entry.1 ≤ addressEnd)
    (above : ∀ entry ∈ ys, addressEnd < entry.1) : m.internalMap address addressEnd value =
      ⟨m.nullValue, replace m.nullValue xs mid ys address addressEnd value⟩ := by
  have behind : ∀ entry ∈ mid ++ ys, address ≤ entry.1 := fun entry member => by
    rcases mem_append.mp member with member | member
    · exact (within entry member).1
    · exact (ordered.trans (above entry member)).le
  have whole' : m.container = xs ++ (mid ++ ys) := whole.trans (append_assoc ..)
  have nonempty := canonical.ne_nil whole' positive behind
  have positive_length : xs.length ≠ 0 := mt eq_nil_of_length_eq_zero nonempty
  have start : m.lowerBound address = xs.length := lowerBound_eq whole' below behind
  have stop : m.upperBound addressEnd = (xs ++ mid).length := by
    refine upperBound_eq whole (fun entry member => ?_) above
    rcases mem_append.mp member with member | member
    · exact ((below entry member).trans ordered).le
    · exact (within entry member).2
  have first : m.getFirstValueWithin address = lastValue m.nullValue xs := by
    rw [getFirstValueWithin, start, if_neg positive_length]
    exact canonical.value_before whole' nonempty
  have last : m.getLastValueWithin addressEnd = lastValue m.nullValue (xs ++ mid) := by
    rw [getLastValueWithin, stop, ← canonical.value_before whole (by simp [nonempty])]
    split
    · rfl
    · rw [if_neg (by simp [nonempty])]
  have erased : m.erase xs.length (xs ++ mid).length = ⟨m.nullValue, xs ++ ys⟩ := by
    rw [erase, whole]
    simp
  have before : ∀ entry ∈ xs ++ stepIf (lastValue m.nullValue xs) address value,
      entry.1 < addressEnd := fun entry member => by
    rcases mem_append.mp member with member | member
    · exact (below entry member).trans ordered
    · exact (mem_stepIf member).trans_lt ordered
  rw [internalMap, first, last, start, stop, erased]
  rw [emplace_if below (fun entry member => ordered.trans (above entry member)) m.nullValue Iff.rfl,
    emplace_if before above m.nullValue ne_comm]
  rfl

/-- One operation keeps the container canonical and changes the function on its range. -/
theorem Canonical.internalMap (canonical : m.Canonical) {address addressEnd : Int} (value : ValueT)
    (positive : 0 ≤ address) (ordered : address < addressEnd) (top : addressEnd ≤ maxKey) :
    (m.internalMap address addressEnd value).Canonical ∧
      (m.internalMap address addressEnd value).nullValue = m.nullValue ∧
      ∀ k, valueAt m.nullValue (m.internalMap address addressEnd value).container k =
        if address ≤ k ∧ k < addressEnd then value else valueAt m.nullValue m.container k := by
  obtain ⟨xs, upper, whole, below, behind⟩ := canonical.ascending.split address
  have nonempty := canonical.ne_nil whole positive behind
  have sorted := canonical.ascending
  rw [whole] at sorted
  obtain ⟨lower, upper', _⟩ := pairwise_append.mp sorted
  obtain ⟨mid, ys, rfl, inside, above⟩ := Ascending.split upper' (addressEnd + 1)
  have within : ∀ entry ∈ mid, address ≤ entry.1 ∧ entry.1 ≤ addressEnd := fun entry member =>
    ⟨behind entry (mem_append_left _ member), Int.lt_add_one_iff.mp (inside entry member)⟩
  have later : ∀ entry ∈ ys, addressEnd < entry.1 := fun entry member =>
    Int.add_one_le_iff.mp (above entry member)
  have whole' : m.container = xs ++ mid ++ ys := whole.trans (append_assoc ..).symm
  rw [internalMap_eq canonical positive ordered whole' below within later]
  refine ⟨⟨?_, ?_, ?_, ?_, ?_⟩, rfl, fun k => ?_⟩
  · have first := canonical.first
    obtain ⟨entry, front, rfl⟩ := exists_cons_of_ne_nil nonempty
    rw [whole] at first
    exact first
  · rw [map_getLast? m.nullValue (replace_ne_nil nonempty), lastValue_replace, ← whole',
      canonical.lastValue_eq]
  · intro entry member
    rcases key_of_mem_replace member with member | here | here
    · exact canonical.bounded entry (whole' ▸ member)
    · exact here.trans_le (ordered.le.trans top)
    · exact here.trans_le top
  · exact ascending_replace ordered below later lower (pairwise_append.mp upper').2.1
  · exact reduced_replace nonempty (whole' ▸ canonical.reduced)
  · rw [valueAt_replace ordered below within later, whole']

/-- The range from an address up to the first key where the function has another value. -/
def IsDistance (f : Int → ValueT) (k : Int) (size : Nat) : Prop :=
  (∀ j, k ≤ j → j < k + size → f j = f k) ∧ f (k + size) ≠ f k

/-- `ContinuousSizeInternal` measures up to the first key with another value. -/
theorem Canonical.continuousSizeInternal_spec (canonical : m.Canonical) (positive : 0 ≤ k) :
    if valueAt m.nullValue m.container k = m.nullValue then m.continuousSizeInternal k = 0
    else IsDistance (valueAt m.nullValue m.container) k (m.continuousSizeInternal k).toNat := by
  obtain ⟨before, entry, behind, whole, found, below, here, above⟩ :=
    canonical.exists_element positive
  have value {j : Int} (inside : k ≤ j) (later : ∀ next ∈ behind, j < next.1) :
      valueAt m.nullValue m.container j = entry.2 := by
    rw [whole, append_cons, valueAt_append, valueAt_before later, valueAt_append, valueAt_cons,
      if_pos (here.trans inside)]
    rfl
  have element : m.container.drop before.length = entry :: behind := by rw [whole, drop_left]
  rw [value le_rfl above, continuousSizeInternal, found, element]
  dsimp only
  split
  · rfl
  · rename_i mapped
    cases behind with
    | nil =>
      -- the last entry is not mapped
      have last := canonical.last
      rw [whole] at last
      simp at last
      exact absurd last mapped
    | cons next rest =>
      have reduced := canonical.reduced
      have ascending := canonical.ascending
      rw [whole] at reduced ascending
      have differs : entry.2 ≠ next.2 :=
        (isChain_cons_cons.mp (isChain_append.mp reduced).2.1).1
      have sorted := (pairwise_cons.mp (pairwise_append.mp ascending).2.1).2
      have first : ∀ later ∈ next :: rest, next.1 ≤ later.1 :=
        forall_mem_cons.mpr ⟨le_rfl, fun later member =>
          ((pairwise_cons.mp sorted).1 later member).le⟩
      have forward : k < next.1 := above next mem_cons_self
      have top : next.1 ≤ maxKey := canonical.bounded next (by simp [whole])
      have size : ((BitVec.ofInt 64 (next.1 - k)).toNat : Int) = next.1 - k := by
        rw [BitVec.toNat_ofInt]
        simp only [maxKey] at top
        omega
      change IsDistance _ k (BitVec.ofInt 64 (next.1 - k)).toNat
      refine ⟨fun j inside before' => ?_, ?_⟩
      · rw [value le_rfl above, value inside fun later member => ?_]
        exact (by omega : j < next.1).trans_le (first later member)
      · rw [value le_rfl above, size, show k + (next.1 - k) = next.1 by omega, whole, append_cons,
          valueAt_append, valueAt_cons, if_pos le_rfl,
          valueAt_before fun later member => (pairwise_cons.mp sorted).1 later member]
        exact differs.symm

/-! ## Runs -/

namespace Op

/-- Where an operation begins. -/
def address : Op ValueT → Int
  | .map address _ _ | .unmap address _ => address.toInt

/-- Where an operation ends. -/
def addressEnd : Op ValueT → Int
  | .map _ addressEnd _ | .unmap _ addressEnd => addressEnd.toInt

def value (nullValue : ValueT) : Op ValueT → ValueT
  | .map _ _ value => value
  | .unmap _ _ => nullValue

/-- The range is not empty and its keys are not negative. -/
def Valid (op : Op ValueT) : Prop := 0 ≤ op.address ∧ op.address < op.addressEnd

instance (op : Op ValueT) : Decidable op.Valid := inferInstanceAs (Decidable (_ ∧ _))

def Covers (op : Op ValueT) (k : Int) : Prop := op.address ≤ k ∧ k < op.addressEnd

instance (op : Op ValueT) (k : Int) : Decidable (op.Covers k) := inferInstanceAs (Decidable (_ ∧ _))

end Op

/-- The value of the last operation that covers a key. -/
def written (nullValue : ValueT) (ops : List (Op ValueT)) (k : Int) : ValueT :=
  match (ops.filter fun op => op.Covers k).getLast? with
  | none => nullValue
  | some op => op.value nullValue

omit [DecidableEq ValueT] in
theorem written_append (nullValue : ValueT) (ops : List (Op ValueT)) (op : Op ValueT) (k : Int) :
    written nullValue (ops ++ [op]) k =
      if op.Covers k then op.value nullValue else written nullValue ops k := by
  by_cases covers : op.Covers k <;> simp [written, covers]

omit [DecidableEq ValueT] in
theorem addressEnd_le (op : Op ValueT) : op.addressEnd ≤ maxKey := by
  cases op <;> exact Int.le_sub_one_of_lt (BitVec.toInt_lt ..)

theorem step_eq (m : RangeMap ValueT) {op : Op ValueT} (valid : op.Valid) :
    m.step op = m.internalMap op.address op.addressEnd (op.value m.nullValue) := by
  have first := max_eq_left valid.1
  have last := max_eq_left (valid.1.trans valid.2.le)
  cases op with
  | map address addressEnd value =>
    rw [step, map]
    exact congrArg₂ (m.internalMap · · value) first last
  | unmap address addressEnd =>
    rw [step, unmap, map]
    exact congrArg₂ (m.internalMap · · m.nullValue) first last

/-- After any operations the container is canonical and denotes what they have written. -/
theorem run_mirrors (nullValue : ValueT) (ops : List (Op ValueT)) (valid : ∀ op ∈ ops, op.Valid) :
    (run nullValue ops).Canonical ∧ (run nullValue ops).nullValue = nullValue ∧
      ∀ k, valueAt nullValue (run nullValue ops).container k = written nullValue ops k := by
  induction ops using reverseRecOn with
  | nil =>
    refine ⟨⟨rfl, rfl, ?_, pairwise_singleton .., isChain_singleton _⟩, rfl, fun k => ite_self _⟩
    rintro entry (_ | ⟨_, absurdity⟩)
    · exact show minKey ≤ maxKey by decide
    · cases absurdity
  | append_singleton ops op ih =>
    obtain ⟨canonical, null, denotes⟩ := ih fun op member => valid op (mem_append_left _ member)
    have here := valid op (by simp)
    have last : run nullValue (ops ++ [op]) = (run nullValue ops).step op := foldl_append
    obtain ⟨kept, null', changed⟩ :=
      canonical.internalMap (op.value (run nullValue ops).nullValue) here.1 here.2
      (addressEnd_le op)
    rw [last, step_eq _ here]
    rw [null] at kept null' changed ⊢
    refine ⟨kept, null', fun k => ?_⟩
    rw [changed, written_append, denotes]
    rfl

/-- The range map is the function that its operations have written, in canonical form. -/
theorem run_spec (nullValue : ValueT) (ops : List (Op ValueT)) (valid : ∀ op ∈ ops, op.Valid) :
    (∀ k, 0 ≤ k → (run nullValue ops).getValueAt k = written nullValue ops k) ∧
    (run nullValue ops).container.IsChain (fun entry next => entry.2 ≠ next.2) ∧
    (run nullValue ops).container.getLast?.map Prod.snd = some nullValue ∧
    ∀ k : BitVec 64, 0 ≤ k.toInt →
      if written nullValue ops k.toInt = nullValue
      then (run nullValue ops).getContinuousSizeFrom k = 0
      else IsDistance (written nullValue ops) k.toInt
        ((run nullValue ops).getContinuousSizeFrom k).toNat := by
  obtain ⟨canonical, null, denotes⟩ := run_mirrors nullValue ops valid
  refine ⟨fun k positive => ?_, canonical.reduced, ?_, fun k positive => ?_⟩
  · rw [getValueAt, if_neg (not_lt.mpr positive), canonical.getValueInternal_eq positive, null,
      denotes]
  · rw [canonical.last, null]
  · have size := canonical.continuousSizeInternal_spec positive
    rw [null, funext denotes] at size
    rw [getContinuousSizeFrom, if_neg (not_lt.mpr positive)]
    exact size

/-- Two neighbouring ranges with one value, and a hole in the second. -/
theorem run_spec_hole : (run 0
    [.map 0x1000 0x2000 7, .map 0x2000 0x4000 7, .unmap 0x3000 0x3800]).getValueAt
    0x2fff = 7 := by
  rw [(run_spec 0 [.map 0x1000 0x2000 7, .map 0x2000 0x4000 7, .unmap 0x3000 0x3800] (by decide)).1
    _ (by decide)]
  decide

end SumiEmu.Common.RangeMap
