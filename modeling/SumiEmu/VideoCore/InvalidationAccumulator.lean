/-
# The invalidation accumulator

The accumulator collects the ranges whose caches are to be invalidated. It widens
each range to units of 32 bytes and merges it with the run before it when it
starts where that ends.

The widened size is measured from the address before that is rounded down, so the
reported range ends before the next unit by as much as the address lies behind
its own. Bytes are lost when the range ends nearer to its next unit than that.
-/

import Mathlib.Data.BitVec
import Mathlib.Data.Nat.Bitwise

namespace SumiEmu.VideoCore

open BitVec List

/-- `InvalidationAccumulator`. -/
structure InvalidationAccumulator where
  startAddress : BitVec 64 := 0
  lastCollection : BitVec 64 := 0
  accumulatedSize : BitVec 64 := 0
  hasCollected : Bool := false
  buffer : List (BitVec 64 × BitVec 64) := []

namespace InvalidationAccumulator

/-- `atomicity_size_mask`. -/
def atomicitySizeMask : BitVec 64 := 31

/-- `atomicity_mask`. -/
def atomicityMask : BitVec 64 := ~~~atomicitySizeMask

/-- The lambda `reset_values` of `Add`. -/
def resetValues (acc : InvalidationAccumulator) (address size : BitVec 64) :
    InvalidationAccumulator :=
  { acc with
    buffer := if acc.hasCollected then acc.buffer ++ [(acc.startAddress, acc.accumulatedSize)]
      else acc.buffer
    startAddress := address
    accumulatedSize := size
    lastCollection := address + size }

/-- The size of a range that is widened to whole units. -/
def widenedSize (address size : BitVec 64) : BitVec 64 :=
  ((address + size + atomicitySizeMask) &&& atomicityMask) - address

/-- `Add`. -/
def add (acc : InvalidationAccumulator) (address size : BitVec 64) : InvalidationAccumulator :=
  if acc.startAddress ≤ address ∧ address + size ≤ acc.lastCollection then
    acc
  else
    let size := widenedSize address size
    let address := address &&& atomicityMask
    if acc.hasCollected = false then
      { acc.resetValues address size with hasCollected := true }
    else if address ≠ acc.lastCollection then
      acc.resetValues address size
    else
      { acc with
        accumulatedSize := acc.accumulatedSize + size
        lastCollection := acc.lastCollection + size }

/-- `Clear`. -/
def clear (acc : InvalidationAccumulator) : InvalidationAccumulator :=
  { acc with buffer := [], startAddress := 0, lastCollection := 0, hasCollected := false }

/-- The ranges that `Callback` passes to its function, which it leaves in the buffer. -/
def callback (acc : InvalidationAccumulator) : List (BitVec 64 × BitVec 64) :=
  if acc.hasCollected = false then []
  else acc.buffer ++ [(acc.startAddress, acc.accumulatedSize)]

/-! ## Ranges of bytes -/

/-- A byte of a range. -/
def InRange (x : Nat) (range : BitVec 64 × BitVec 64) : Prop :=
  range.1.toNat ≤ x ∧ x < range.1.toNat + range.2.toNat

/-- A byte that the callback reports. -/
def Reported (acc : InvalidationAccumulator) (x : Nat) : Prop :=
  ∃ range ∈ acc.callback, InRange x range

/-- Rounding a range out to whole units does not wrap. -/
def NoWrap (address size : BitVec 64) : Prop := address.toNat + size.toNat + 31 < 2 ^ 64

/-- A range ends at least as far before its next unit as it starts behind its own,
or it has no byte at all. -/
def Fits (address size : BitVec 64) : Prop :=
  size = 0 ∨ address.toNat % 32 ≤ (32 - (address.toNat + size.toNat) % 32) % 32

/-- A range that the current run contains is not widened. -/
def Contained (acc : InvalidationAccumulator) (address size : BitVec 64) : Prop :=
  acc.startAddress ≤ address ∧ address + size ≤ acc.lastCollection

instance {x : Nat} {range : BitVec 64 × BitVec 64} : Decidable (InRange x range) :=
  inferInstanceAs (Decidable (_ ∧ _))

instance {address size : BitVec 64} : Decidable (NoWrap address size) :=
  inferInstanceAs (Decidable (_ < _))

variable {acc : InvalidationAccumulator} {address size : BitVec 64} {x : Nat}

theorem toNat_and_atomicityMask (v : BitVec 64) :
    (v &&& atomicityMask).toNat = v.toNat / 32 * 32 := by
  have shifted : v &&& atomicityMask = (v >>> 5) <<< 5 := by
    refine eq_of_getLsbD_eq fun j small => ?_
    rw [getLsbD_and, getLsbD_shiftLeft, getLsbD_ushiftRight]
    have mask : atomicityMask.getLsbD j = decide (5 ≤ j) := by
      revert j
      decide
    rw [mask]
    by_cases high : 5 ≤ j
    · simp [high, small, show ¬ j < 5 by omega]
    · simp [high, show j < 5 by omega]
  have bound := v.isLt
  rw [shifted, toNat_shiftLeft, toNat_ushiftRight, Nat.shiftLeft_eq,
    Nat.shiftRight_eq_div_pow, Nat.mod_eq_of_lt (by omega)]

theorem toNat_widenedSize (noWrap : NoWrap address size) :
    (widenedSize address size).toNat =
      (address.toNat + size.toNat + 31) / 32 * 32 - address.toNat := by
  have mask : atomicitySizeMask.toNat = 31 := rfl
  rw [NoWrap] at noWrap
  have sum : (address + size + atomicitySizeMask).toNat = address.toNat + size.toNat + 31 := by
    rw [toNat_add, toNat_add, mask]
    omega
  have rounded := toNat_and_atomicityMask (address + size + atomicitySizeMask)
  rw [sum] at rounded
  rw [widenedSize, toNat_sub_of_le, rounded]
  rw [le_def, rounded]
  omega

/-- The widened range never reaches past the rounded end of the range. -/
theorem toNat_widened_le (noWrap : NoWrap address size) :
    (address &&& atomicityMask).toNat + (widenedSize address size).toNat ≤
      (address.toNat + size.toNat + 31) / 32 * 32 := by
  rw [toNat_and_atomicityMask, toNat_widenedSize noWrap]
  omega

/-- A range that fits is contained in what it is widened to, and only such a range is. -/
theorem widened_iff (noWrap : NoWrap address size) :
    (∀ x, InRange x (address, size) →
      InRange x (address &&& atomicityMask, widenedSize address size)) ↔ Fits address size := by
  simp only [InRange, toNat_and_atomicityMask, toNat_widenedSize noWrap, Fits]
  constructor
  · intro within
    by_cases empty : size = 0
    · exact .inl empty
    · have filled : size.toNat ≠ 0 := fun zero => empty (eq_of_toNat_eq zero)
      have last := within (address.toNat + size.toNat - 1) (by omega)
      exact .inr (by omega)
  · rintro (rfl | fits) x ⟨lower, upper⟩
    · have zero : (0 : BitVec 64).toNat = 0 := rfl
      rw [zero] at upper
      omega
    · omega

/-! ## Runs -/

/-- The current run ends where its size says, and an accumulator that has collected
nothing is empty. -/
structure Sound (acc : InvalidationAccumulator) : Prop where
  last : acc.lastCollection.toNat = acc.startAddress.toNat + acc.accumulatedSize.toNat ∨
    acc.hasCollected = false
  empty : acc.hasCollected = false → acc.startAddress = 0 ∧ acc.lastCollection = 0

theorem clear_sound (acc : InvalidationAccumulator) : acc.clear.Sound :=
  ⟨.inr rfl, fun _ => ⟨rfl, rfl⟩⟩

theorem reported_iff (collected : acc.hasCollected = true) :
    acc.Reported x ↔
      (∃ range ∈ acc.buffer, InRange x range) ∨
      InRange x (acc.startAddress, acc.accumulatedSize) := by
  simp [Reported, callback, collected, or_and_right, exists_or]

theorem not_reported (empty : acc.hasCollected = false) : ¬ acc.Reported x := by
  simp [Reported, callback, empty]

theorem toNat_widened_end (noWrap : NoWrap address size) :
    ((address &&& atomicityMask) + widenedSize address size).toNat =
      (address &&& atomicityMask).toNat + (widenedSize address size).toNat := by
  have bound := toNat_widened_le noWrap
  rw [NoWrap] at noWrap
  rw [toNat_add]
  omega

/-- Starting a new run keeps the old one, and reports the new one. -/
theorem resetValues_spec (acc : InvalidationAccumulator) (noWrap : NoWrap address size) :
    let acc' := { acc.resetValues (address &&& atomicityMask) (widenedSize address size) with
      hasCollected := true }
    acc'.Sound ∧ (∀ x, acc.Reported x → acc'.Reported x) ∧
      ∀ x, InRange x (address &&& atomicityMask, widenedSize address size) → acc'.Reported x := by
  refine ⟨⟨.inl (toNat_widened_end noWrap), fun absurdity => by cases absurdity⟩,
    fun x reported => ?_, fun x inside => (reported_iff rfl).mpr (.inr inside)⟩
  cases collected : acc.hasCollected with
  | false => exact absurd reported (not_reported collected)
  | true =>
    refine (reported_iff rfl).mpr (.inl ?_)
    dsimp only [resetValues]
    rw [collected, if_pos rfl]
    rcases (reported_iff collected).mp reported with ⟨range, member, inside⟩ | inside
    · exact ⟨range, mem_append_left _ member, inside⟩
    · exact ⟨_, mem_append_right _ (mem_singleton_self _), inside⟩

theorem add_of_not_contained (apart : ¬ acc.Contained address size) :
    acc.add address size =
      if acc.hasCollected = false then
        { acc.resetValues (address &&& atomicityMask) (widenedSize address size) with
          hasCollected := true }
      else if address &&& atomicityMask ≠ acc.lastCollection then
        acc.resetValues (address &&& atomicityMask) (widenedSize address size)
      else
        { acc with
          accumulatedSize := acc.accumulatedSize + widenedSize address size
          lastCollection := acc.lastCollection + widenedSize address size } :=
  if_neg apart

/-- What `Add` does to the reported bytes, for a range that is widened. -/
theorem add_widened (noWrap : NoWrap address size) (sound : acc.Sound)
    (apart : ¬ acc.Contained address size) :
    (acc.add address size).Sound ∧ (∀ x, acc.Reported x → (acc.add address size).Reported x) ∧
      ∀ x, InRange x (address &&& atomicityMask, widenedSize address size) →
        (acc.add address size).Reported x := by
  obtain ⟨sound', older, newer⟩ := resetValues_spec acc noWrap
  rw [add_of_not_contained apart]
  cases collected : acc.hasCollected with
  | false =>
    rw [if_pos rfl]
    exact ⟨sound', older, newer⟩
  | true =>
    rw [if_neg (by decide)]
    split
    · have kept : { acc.resetValues (address &&& atomicityMask) (widenedSize address size) with
          hasCollected := true } =
          acc.resetValues (address &&& atomicityMask) (widenedSize address size) := by
        rw [resetValues, collected]
      rw [kept] at sound' older newer
      exact ⟨sound', older, newer⟩
    · next adjacent =>
      -- the range continues the current run
      have adjacent := not_not.mp adjacent
      have last : acc.lastCollection.toNat =
          acc.startAddress.toNat + acc.accumulatedSize.toNat := by
        rcases sound.last with last | absurdity
        · exact last
        · cases collected.symm.trans absurdity
      have bound := toNat_widened_le noWrap
      have end_eq := toNat_widened_end noWrap
      rw [NoWrap] at noWrap
      rw [adjacent] at bound end_eq
      have total : (acc.accumulatedSize + widenedSize address size).toNat =
          acc.accumulatedSize.toNat + (widenedSize address size).toNat := by
        rw [toNat_add]
        omega
      refine ⟨⟨.inl ?_, fun absurdity => by cases absurdity⟩, fun x reported => ?_,
        fun x inside => ?_⟩
      · dsimp only
        rw [end_eq, total, last, Nat.add_assoc]
      · rcases (reported_iff collected).mp reported with older | inside
        · exact (reported_iff rfl).mpr (.inl older)
        · refine (reported_iff rfl).mpr (.inr ?_)
          simp only [InRange, total] at inside ⊢
          omega
      · refine (reported_iff rfl).mpr (.inr ?_)
        rw [adjacent] at inside
        simp only [InRange, total] at inside ⊢
        omega

/-- A range that the current run contains has its bytes reported already. -/
theorem reported_of_contained (noWrap : NoWrap address size) (sound : acc.Sound)
    (contained : acc.Contained address size) (inside : InRange x (address, size)) :
    acc.Reported x := by
  obtain ⟨first, last⟩ := contained
  rw [NoWrap] at noWrap
  rw [le_def] at first last
  rw [toNat_add, Nat.mod_eq_of_lt (by omega)] at last
  simp only [InRange] at inside
  cases collected : acc.hasCollected with
  | false =>
    rw [(sound.empty collected).2] at last
    have zero : (0 : BitVec 64).toNat = 0 := rfl
    omega
  | true =>
    refine (reported_iff collected).mpr (.inr ?_)
    rcases sound.last with run | absurdity
    · simp only [InRange]
      omega
    · cases collected.symm.trans absurdity

/-- Ranges are added one after the other. -/
def addAll (acc : InvalidationAccumulator) (ranges : List (BitVec 64 × BitVec 64)) :
    InvalidationAccumulator :=
  ranges.foldl (fun acc range => acc.add range.1 range.2) acc

/-- Each range fits, or is contained in the run that is current when it is added. -/
def Keeps (acc : InvalidationAccumulator) : List (BitVec 64 × BitVec 64) → Prop
  | [] => True
  | range :: ranges =>
    (acc.Contained range.1 range.2 ∨ Fits range.1 range.2) ∧ (acc.add range.1 range.2).Keeps ranges

theorem add_spec (noWrap : NoWrap address size) (sound : acc.Sound) :
    (acc.add address size).Sound ∧ (∀ x, acc.Reported x → (acc.add address size).Reported x) ∧
      (acc.Contained address size ∨ Fits address size →
        ∀ x, InRange x (address, size) → (acc.add address size).Reported x) := by
  by_cases contained : acc.Contained address size
  · have same : acc.add address size = acc := if_pos contained
    rw [same]
    exact ⟨sound, fun _ => id, fun _ x inside =>
      reported_of_contained noWrap sound contained inside⟩
  · obtain ⟨sound', older, newer⟩ := add_widened noWrap sound contained
    refine ⟨sound', older, fun kept x inside => newer x ?_⟩
    exact (widened_iff noWrap).mpr (kept.resolve_left contained) x inside

theorem addAll_reported {ranges : List (BitVec 64 × BitVec 64)} (sound : acc.Sound)
    (noWrap : ∀ range ∈ ranges, NoWrap range.1 range.2) (keeps : acc.Keeps ranges) :
    (∀ x, acc.Reported x → (acc.addAll ranges).Reported x) ∧
      ∀ range ∈ ranges, ∀ x, InRange x range → (acc.addAll ranges).Reported x := by
  induction ranges generalizing acc with
  | nil => exact ⟨fun _ => id, fun range absurdity => absurd absurdity not_mem_nil⟩
  | cons range ranges ih =>
    obtain ⟨here, rest⟩ := keeps
    obtain ⟨sound', older, newer⟩ := add_spec (noWrap range mem_cons_self) sound
    obtain ⟨older', newer'⟩ := ih sound'
      (fun r member => noWrap r (mem_cons_of_mem range member)) rest
    refine ⟨fun x reported => older' x (older x reported), fun r member x inside => ?_⟩
    rcases mem_cons.mp member with rfl | member
    · exact older' x (newer here x inside)
    · exact newer' r member x inside

/-- After any ranges have been added to an accumulator that was cleared, and each of
them fits or is contained in the run before it, every byte of them is reported. A
first range alone has its bytes reported just when it fits. -/
theorem addAll_clear_reported (acc : InvalidationAccumulator)
    (ranges : List (BitVec 64 × BitVec 64)) (noWrap : ∀ range ∈ ranges, NoWrap range.1 range.2) :
    (acc.clear.Keeps ranges →
      ∀ range ∈ ranges, ∀ x, InRange x range → (acc.clear.addAll ranges).Reported x) ∧
    ∀ range ∈ ranges, (∀ x, InRange x range → (acc.clear.addAll [range]).Reported x) ↔
      Fits range.1 range.2 := by
  refine ⟨fun keeps => (addAll_reported (clear_sound acc) noWrap keeps).2, fun range member => ?_⟩
  have noWrap := noWrap range member
  by_cases contained : acc.clear.Contained range.1 range.2
  · have last := contained.2
    change range.1 + range.2 ≤ 0 at last
    rw [NoWrap] at noWrap
    rw [le_def, toNat_add, Nat.mod_eq_of_lt (by omega)] at last
    have zero : (0 : BitVec 64).toNat = 0 := rfl
    refine iff_of_true (fun x inside => ?_) (.inl (eq_of_toNat_eq (by omega)))
    simp only [InRange] at inside
    omega
  · rw [← widened_iff noWrap]
    have added : acc.clear.addAll [range] = { acc.clear.resetValues
        (range.1 &&& atomicityMask) (widenedSize range.1 range.2) with hasCollected := true } := by
      change acc.clear.add range.1 range.2 = _
      rw [add_of_not_contained contained]
      rfl
    have reports : ∀ x, (acc.clear.addAll [range]).Reported x ↔
        InRange x (range.1 &&& atomicityMask, widenedSize range.1 range.2) := by
      intro x
      rw [added, reported_iff rfl]
      simp [resetValues, clear]
    exact forall_congr' fun x => imp_congr_right fun _ => reports x

theorem addAll_clear_reported_two :
    ((clear {}).addAll [(0x1000, 0x20), (0x1020, 8)]).Reported 0x1027 := by
  have noWrap : ∀ range ∈ [((0x1000 : BitVec 64), (0x20 : BitVec 64)), (0x1020, 8)],
      NoWrap range.1 range.2 := by
    intro range member
    rcases mem_cons.mp member with rfl | member
    · decide
    · rw [mem_singleton.mp member]
      decide
  have reported := (addAll_clear_reported {} _ noWrap).1
    ⟨.inr (.inr (by decide)), .inr (.inr (by decide)), trivial⟩
  exact reported (0x1020, 8) (by decide) 0x1027 (by decide)

/-- The range of 33 bytes from 31 on is widened to 33 bytes from 0 on. -/
theorem not_reported_63 :
    ¬ ∀ ranges : List (BitVec 64 × BitVec 64), (∀ range ∈ ranges, NoWrap range.1 range.2) →
      ∀ range ∈ ranges, ∀ x, InRange x range → (addAll {} ranges).Reported x := by
  intro reported
  obtain ⟨range, member, inside⟩ := reported [(31, 33)]
    (fun range member => by rw [mem_singleton.mp member]; decide) (31, 33)
    (mem_singleton_self _) 63 (by decide)
  have only : (addAll {} [(31, 33)]).callback = [(0, 33)] := by decide
  rw [only, mem_singleton] at member
  rw [member] at inside
  exact absurd inside (by decide)

end InvalidationAccumulator

end SumiEmu.VideoCore
