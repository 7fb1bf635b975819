/-
# The visitor walks over the entries in order

A visitor that has been found stands on an entry, and everything that it holds is determined
by which one. It moves within its entry set or to the border of the neighbouring one, so that
it goes over the entries in order and cannot leave them.
-/

import SumiEmu.FileSys.BucketTreePacked

namespace SumiEmu.FileSys.BucketTree

open Bisection Fallible Nat Int

/-! ## Standing on an entry -/

/-- A visitor on the entry with the given index in an entry set. -/
def Image.visitorAt (image : Image) (table : Table) (k i : Nat) : Visitor where
  offsets := ⟨table.offset 0, table.offset image.entryCount⟩
  entry := bytesAt image.entryStorage.byte
    (getBucketTreeEntryOffset (k * image.nodeSize) image.entrySize i) image.entrySize
  entryIndex := i
  entrySetCount := image.entrySetCount
  entrySet := ⟨⟨k, table.count k, table.start (k + 1)⟩, table.start k⟩

/-- The visitor stands on an entry of the table. -/
structure Stands (image : Image) (table : Table) (visitor : Visitor) (g : Nat) (k i : Nat) :
    Prop where
  entrySet : k < image.entrySetCount
  entry : i < table.count k
  number : g = table.first k + i
  visitor : visitor = image.visitorAt table k i

variable {image : Image} {table : Table} {memory : Memory} {visitor : Visitor} {g : Nat}

/-- The visitor stands on the entry with this number. -/
def On (image : Image) (table : Table) (visitor : Visitor) (g : Nat) : Prop :=
  ∃ k i, Stands image table visitor g k i

section Formed

variable (formed : image.WellFormed table)

include formed

theorem Image.WellFormed.number_lt {k i : Nat} (inside : k < image.entrySetCount)
    (below : i < table.count k) :
    table.first k + i < table.first (k + 1) ∧ table.first (k + 1) ≤ image.entryCount := by
  have := formed.spread.first_lt inside
  unfold Table.count at below
  exact ⟨by omega, formed.spread.first_le_entryCount inside⟩

/-- An entry is in one entry set only. -/
theorem Image.WellFormed.position_unique {k i k' i' : Nat} (inside : k < image.entrySetCount)
    (below : i < table.count k) (inside' : k' < image.entrySetCount) (below' : i' < table.count k')
    (same : table.first k + i = table.first k' + i') : k = k' ∧ i = i' := by
  have upper := (formed.number_lt inside below).1
  have upper' := (formed.number_lt inside' below').1
  rcases lt_trichotomy k k' with less | rfl | less
  · have := formed.spread.first_le (k := k + 1) less (le_of_lt inside')
    omega
  · exact ⟨rfl, by omega⟩
  · have := formed.spread.first_le (k := k' + 1) less (le_of_lt inside)
    omega

/-- Where a visitor stands determines it. -/
theorem Image.WellFormed.on_unique {visitor' : Visitor} (on : On image table visitor g)
    (on' : On image table visitor' g) : visitor = visitor' := by
  obtain ⟨k, i, stands⟩ := on
  obtain ⟨k', i', stands'⟩ := on'
  obtain ⟨rfl, rfl⟩ := formed.position_unique stands.entrySet stands.entry stands'.entrySet
    stands'.entry (stands.number.symm.trans stands'.number)
  rw [stands.visitor, stands'.visitor]

theorem Image.WellFormed.on_lt (on : On image table visitor g) : g < image.entryCount := by
  obtain ⟨k, i, stands⟩ := on
  have := formed.number_lt stands.entrySet stands.entry
  have := stands.number
  omega

/-! ## Reading an entry set -/

section

variable {k : Nat} (inside : k < image.entrySetCount)

include inside

/-- An entry set is a node whose array starts with the offsets of its entries. -/
theorem Image.WellFormed.entrySetAt :
    NodeAt image.entryStorage (k * image.nodeSize) image.nodeSize image.entrySize (table.count k)
      fun i => table.offset (table.first k + i) where
  within := by
    have size := formed.entrySets.size
    have : (k + 1) * image.nodeSize ≤ image.entrySetCount * image.nodeSize :=
      mul_le_mul_right _ inside
    rw [add_mul, one_mul] at this
    unfold Image.queryEntryStorageSize at size
    omega
  fits := by
    have fits : table.count k * image.entrySize ≤
      getEntryCount image.nodeSize image.entrySize * image.entrySize :=
      mul_le_mul_right _ (formed.spread.fits k inside)
    have : getEntryCount image.nodeSize image.entrySize * image.entrySize ≤
      image.nodeSize - nodeHeaderSize :=
      div_mul_le_self _ _
    have := formed.sized.node
    omega
  long := formed.sized.entry
  known := formed.entrySets.entry k inside

/-- The header of an entry set, read alone or with the whole node. -/
theorem Image.WellFormed.header_read (memory : Memory) {size : Nat}
    (whole : nodeHeaderSize + 8 ≤ size) :
    EntrySetHeader.at (image.entryStorage.read memory size (k * image.nodeSize)) 0 =
      ⟨⟨k, table.count k, table.start (k + 1)⟩, table.start k⟩ := by
  have node := formed.entrySetAt inside
  have within := node.within
  have fits := formed.sized.node
  have long := formed.sized.entry
  have start := node.known 0 (formed.spread.filled k inside)
  rw [zero_mul, add_zero, add_zero] at start
  unfold nodeHeaderSize at *
  rw [EntrySetHeader.at_read whole (by omega), EntrySetHeader.at, formed.entrySets.header k inside,
    nodeHeaderSize, start]
  rfl

theorem Image.WellFormed.header_verify :
    (⟨k, table.count k, table.start (k + 1)⟩ : NodeHeader).verify k image.nodeSize image.entrySize =
    .ok () := by
  have long := formed.sized.entry
  have nonneg : 0 ≤ table.start (k + 1) := by
    have := formed.spread.start_le (zero_le (k + 1)) inside
    rw [formed.spread.start_zero] at this
    exact le_trans formed.spread.nonneg this
  exact verify_ok rfl (by omega) formed.sized.node
    (natCast_pos.mpr (formed.spread.filled k inside)) (formed.spread.fits k inside) nonneg

end

/-- The bytes of an entry, read alone. -/
theorem Image.WellFormed.readEntry_eq (memory : Memory) {k i : Nat}
    (inside : k < image.entrySetCount) (below : i < table.count k) :
    (image.tree table memory).readEntry k i = (image.visitorAt table k i).entry := by
  have node := formed.entrySetAt inside
  have := node.inside below
  have := node.within
  rw [readEntry, Image.visitorAt, Image.tree_entryStorage, Image.tree_nodeSize,
    Image.tree_entrySize]
  unfold getBucketTreeEntryOffset
  rw [bytesAt_read (by omega) (by omega), add_zero]

/-! ## Finding -/

variable {v : Int}

/-- Both ways to search an entry set find the last entry up to an address. -/
theorem Image.WellFormed.findEntry_eq (memory : Memory) {k : Nat} (inside : k < image.entrySetCount)
    (low : table.start k ≤ v) (high : v < table.start (k + 1)) (pool : Pool) (visitor : Visitor)
    (offsets : visitor.offsets = ⟨table.offset 0, table.offset image.entryCount⟩) :
    ∃ i, i < table.count k ∧ table.offset (table.first k + i) ≤ v ∧
      v < table.offset (table.first k + i + 1) ∧
      (image.tree table memory).findEntry pool visitor v k =
      .ok { image.visitorAt table k i with entrySetCount := visitor.entrySetCount } := by
  have spread := formed.spread
  have node := formed.entrySetAt inside
  have within := node.within
  have fits := formed.sized.node
  have long := formed.sized.entry
  have filled := spread.filled k inside
  have read := formed.header_read inside
  have verified := formed.header_verify inside
  let x (i : Nat) : Int := table.offset (table.first k + i)
  have ascending (i : Nat) (_ : 0 ≤ i) (next : i + 1 < 0 + table.count k) : x i < x (i + 1) := by
    have := formed.number_lt inside (i := i) (by omega)
    exact spread.ascending _ (by omega)
  obtain ⟨i, _, below, found, low', high'⟩ := upperBound_ascending ascending filled low
  rw [zero_add] at below high'
  have buffered := node.findInBuffer_eq pool.memory v
  have unbuffered := node.findInStorage_eq v
  rw [found, Int.natCast_succ, Int.add_sub_cancel] at buffered unbuffered
  have whole : nodeHeaderSize + 8 ≤ image.nodeSize := by omega
  have entry : bytesAt (image.entryStorage.read pool.memory image.nodeSize (k * image.nodeSize))
      (getBucketTreeEntryOffset 0 image.entrySize i) image.entrySize =
        (image.visitorAt table k i).entry := by
    have := node.inside below
    rw [Image.visitorAt, getBucketTreeEntryOffset, getBucketTreeEntryOffset,
      bytesAt_read (by omega) (by omega), zero_add, add_assoc]
  refine ⟨i, below, low', ?_, ?_⟩
  · rcases lt_or_eq_of_le (succ_le_of_lt below) with next | last
    · exact high' next
    · have : table.first k + i + 1 = table.first (k + 1) := by
        have := spread.first_lt inside
        unfold Table.count at last
        omega
      rw [this]
      exact high
  · have alone := formed.readEntry_eq zeros inside below
    rw [readEntry, Image.tree_entryStorage, Image.tree_nodeSize, Image.tree_entrySize] at alone
    rw [findEntry]
    split_ifs with pooled
    · simp only [findEntryWithBuffer, Image.tree_entryStorage, Image.tree_nodeSize,
        Image.tree_entrySize, read _ whole, verified, ok_bind, toNat_natCast, buffered,
        rUnless_pos _ (natCast_nonneg i), entry, pure_eq_ok]
      rw [offsets]
      rfl
    · simp only [findEntryWithoutBuffer, Image.tree_entryStorage, Image.tree_nodeSize,
        Image.tree_entrySize, read zeros (le_refl _), verified, ok_bind, toNat_natCast,
        unbuffered, rUnless_pos _ (natCast_nonneg i), alone, pure_eq_ok]
      rw [offsets]
      rfl

theorem Image.WellFormed.nonempty : (image.tree table memory).entrySize ≠ 0 := by
  have := formed.sized.entry
  rw [Image.tree_entrySize]
  omega

theorem Image.WellFormed.lt_last :
    v < (l1Header (image.tree table memory).nodeL1).offset ↔ v < table.offset image.entryCount := by
  rw [Image.tree_nodeL1, formed.l1Header_read]

/-- A search in the range of the table ends on the last entry up to the address. -/
theorem Image.WellFormed.find_eq (memory : Memory) (low : table.offset 0 ≤ v)
    (high : v < table.offset image.entryCount) (pool : Pool) :
    ∃ visitor g, (image.tree table memory).find pool v = .ok visitor ∧ On image table visitor g ∧
      table.offset g ≤ v ∧ v < table.offset (g + 1) := by
  obtain ⟨k, inside, index, low', high'⟩ := formed.findEntrySetIndex_eq memory low high pool
  obtain ⟨i, below, low'', high'', found⟩ := formed.findEntry_eq memory inside low' high' pool
    ⟨⟨table.offset 0, table.offset image.entryCount⟩, [], -1, 0, ⟨⟨0, 0, 0⟩, 0⟩⟩ rfl
  have nonneg : 0 ≤ v := le_trans formed.spread.nonneg low
  have bounds : (0 : Int) ≤ (k : Int) ∧ (k : Int) < (image.tree table memory).entrySetCount :=
    ⟨Int.natCast_nonneg k, Int.ofNat_lt.mpr inside⟩
  refine ⟨image.visitorAt table k i, table.first k + i, ?_, ⟨k, i, inside, below, rfl, rfl⟩, low'',
    high''⟩
  rw [find, rUnless_pos _ nonneg, ok_bind, rUnless_pos _ formed.nonempty, ok_bind, visitorFind,
    rUnless_pos _ (formed.lt_last.mpr high), ok_bind, index, ok_bind, rUnless_pos _ bounds, ok_bind,
    toNat_natCast]
  exact (congrArg (· >>= _) found).trans rfl

/-- The first level has nothing in front of the first entry set. -/
theorem Image.WellFormed.findEntrySetIndex_before (before : v < table.offset 0) (pool : Pool) :
    (image.tree table memory).findEntrySetIndex pool v = .error .outOfRange := by
  have spread := formed.spread
  rw [← spread.start_zero] at before
  by_cases single : image.entrySetCount ≤ image.offsetCount
  · have shallow : ¬ (image.tree table memory).isExistL2 := Int.not_lt.mpr (Int.ofNat_le.mpr single)
    have count : image.l1Count = image.entrySetCount := if_pos single
    have first := formed.l1_single memory single spread.entrySetCount_pos
    have bound : (image.tree table memory).upperBoundL1 v 0 image.entrySetCount = 0 :=
      upperBound_eq_of_lt (formed.ascending_single memory single) (first.symm ▸ before)
    rw [findEntrySetIndex, if_neg fun both => shallow both.1.1]
    simp only [Image.tree_nodeL1, formed.l1Header_read, count, toNat_natCast, bound,
      rUnless_neg _ (lt_irrefl 0), error_bind]
  · have deep : image.offsetCount < image.entrySetCount := not_le.mp single
    have level : (image.tree table memory).isExistL2 := Int.ofNat_lt.mpr deep
    have count : image.l1Count = image.nodeL2Count := if_neg single
    obtain ⟨least, most, within, upper⟩ := formed.levels deep
    have zero := formed.l1_node memory deep least
    rw [zero_mul, add_zero] at zero
    have early : v < table.start image.onL1 :=
      lt_of_lt_of_le before (spread.start_le (zero_le _) (by omega))
    by_cases behind : image.nodeL2Count < image.offsetCount
    · have first := formed.l1_behind memory deep (k := 0) (Nat.sub_pos_of_lt behind)
      rw [add_zero] at first
      have both : (image.tree table memory).isExistOffsetL2OnL1 ∧
          v < l1Offset (image.tree table memory).nodeL1 0 := by
        rw [isExistOffsetL2OnL1, Image.tree_nodeL1, formed.l1Header_read, count, zero]
        exact ⟨⟨level, Int.ofNat_lt.mpr behind⟩, early⟩
      have bound : (image.tree table memory).upperBoundL1 v image.nodeL2Count
          (image.offsetCount - image.nodeL2Count) = image.nodeL2Count :=
        upperBound_eq_of_lt (formed.ascending_behind memory deep) (first.symm ▸ before)
      rw [findEntrySetIndex, if_pos both]
      simp only [Image.tree_nodeL1, Image.tree_offsetCount, formed.l1Header_read, count,
        toNat_natCast, bound, rUnless_neg _ (lt_irrefl _), error_bind]
    · have neither : ¬ ((image.tree table memory).isExistOffsetL2OnL1 ∧
          v < l1Offset (image.tree table memory).nodeL1 0) := by
        rw [isExistOffsetL2OnL1, Image.tree_nodeL1, formed.l1Header_read, count]
        exact fun both => behind (Int.ofNat_lt.mp both.1.2)
      have bound : (image.tree table memory).upperBoundL1 v 0 image.nodeL2Count = 0 :=
        upperBound_eq_of_lt (formed.ascending_node memory deep) (zero.symm ▸ early)
      rw [findEntrySetIndex, if_neg neither]
      simp only [Image.tree_nodeL1, formed.l1Header_read, count, toNat_natCast, bound,
        rUnless_neg _ (lt_irrefl 0), error_bind]

/-- Outside the range of the table the search fails, before it uses a buffer. -/
theorem Image.WellFormed.find_outside
    (outside : v < table.offset 0 ∨ table.offset image.entryCount ≤ v)
    (pool : Pool) :
    (image.tree table memory).find pool v =
    .error (if 0 ≤ v then .outOfRange else .invalidOffset) := by
  rw [find]
  split_ifs with nonneg
  · rw [rUnless_pos _ nonneg, ok_bind, rUnless_pos _ formed.nonempty, ok_bind, visitorFind]
    by_cases behind : table.offset image.entryCount ≤ v
    · rw [rUnless_neg _ fun less => not_lt.mpr behind (formed.lt_last.mp less), error_bind]
    · rw [rUnless_pos _ (formed.lt_last.mpr (not_le.mp behind)), ok_bind,
        formed.findEntrySetIndex_before (outside.resolve_right behind), error_bind]
  · rw [rUnless_neg _ nonneg, error_bind]

/-- The size of the pooled buffers and what they hold makes no difference. -/
theorem Image.WellFormed.find_pooled (pool pool' : Pool) (v : Int) :
    (image.tree table memory).find pool v = (image.tree table memory).find pool' v := by
  by_cases inside : table.offset 0 ≤ v ∧ v < table.offset image.entryCount
  · obtain ⟨visitor, g, found, on, low, high⟩ := formed.find_eq memory inside.1 inside.2 pool
    obtain ⟨visitor', g', found', on', low', high'⟩ := formed.find_eq memory inside.1 inside.2 pool'
    have same : g = g' := by
      have := formed.on_lt on
      have := formed.on_lt on'
      rcases lt_trichotomy g g' with less | same | less
      · have : table.offset (g + 1) ≤ table.offset g' := formed.spread.offset_le less (by omega)
        omega
      · exact same
      · have : table.offset (g' + 1) ≤ table.offset g := formed.spread.offset_le less (by omega)
        omega
    rw [found, found', formed.on_unique on (same ▸ on')]
  · have outside : v < table.offset 0 ∨ table.offset image.entryCount ≤ v := by omega
    rw [formed.find_outside outside, formed.find_outside outside]

/-! ## Moving -/

/-- Within an entry set the visitor only changes its index. -/
theorem Image.WellFormed.moveTo_eq (memory : Memory) {k i j : Nat}
    (inside : k < image.entrySetCount)
    (below : j < table.count k) {visitor : Visitor}
    (same : { visitor with entry := [], entryIndex := (i : Int) } =
      { image.visitorAt table k i with entry := [], entryIndex := (i : Int) }) :
    (image.tree table memory).moveTo visitor j = image.visitorAt table k j := by
  obtain ⟨offsets, entry, entryIndex, entrySetCount, entrySet⟩ := visitor
  simp only [Image.visitorAt, Visitor.mk.injEq] at same
  obtain ⟨rfl, -, -, rfl, rfl⟩ := same
  rw [moveTo]
  simp only [toNat_natCast, formed.readEntry_eq memory inside below]
  rfl

/-- A neighbouring entry set touches the one that the visitor comes from. -/
theorem Image.WellFormed.moveToSet_eq (memory : Memory) {k i k' : Nat}
    (inside : k' < image.entrySetCount)
    {touches : EntrySetHeader → Prop} [DecidablePred touches]
    (meets : touches ⟨⟨k', table.count k', table.start (k' + 1)⟩, table.start k'⟩) :
    (image.tree table memory).moveToSet (image.visitorAt table k i) k' touches =
      .ok { image.visitorAt table k' i with
        entry := (image.visitorAt table k i).entry, entryIndex := -1 } := by
  have less := formed.spread.start_lt inside
  rw [moveToSet]
  simp only [Image.tree_entryStorage, Image.tree_nodeSize, Image.tree_entrySize, toNat_natCast,
    formed.header_read inside zeros (le_refl _), formed.header_verify inside,
    if_pos (And.intro meets less)]
  rfl

/-- Behind the last entry of an entry set comes the first one of the next. -/
theorem Image.WellFormed.next_number {k i : Nat} (inside : k < image.entrySetCount)
    (below : i < table.count k) :
    table.first k + i + 1 < image.entryCount ↔ i + 1 < table.count k ∨
      k + 1 < image.entrySetCount := by
  have spread := formed.spread
  have less := spread.first_lt inside
  have upper := (formed.number_lt inside below).2
  have width : table.count k = table.first (k + 1) - table.first k := rfl
  by_cases next : k + 1 < image.entrySetCount
  · have := spread.first_lt next
    have := spread.first_le_entryCount (k := k + 1 + 1) next
    exact iff_of_true (by omega) (Or.inr next)
  · have last : image.entrySetCount = k + 1 := by omega
    have := spread.last
    rw [last] at this
    omega

theorem Image.WellFormed.canMoveNext_iff (on : On image table visitor g) :
    visitor.canMoveNext ↔ g + 1 < image.entryCount := by
  obtain ⟨k, i, inside, below, rfl, rfl⟩ := on
  rw [formed.next_number inside below, Visitor.canMoveNext, Visitor.isValid, Image.visitorAt]
  simp only [natCast_nonneg, true_and]
  omega

theorem Image.WellFormed.canMovePrevious_iff (on : On image table visitor g) :
    visitor.canMovePrevious ↔ 0 < g := by
  obtain ⟨k, i, inside, below, rfl, rfl⟩ := on
  rw [Visitor.canMovePrevious, Visitor.isValid, Image.visitorAt]
  simp only [natCast_nonneg, true_and, natCast_pos]
  rcases Nat.eq_zero_or_pos k with rfl | positive
  · rw [formed.spread.first]
    omega
  · have : table.first 0 < table.first k :=
      lt_of_lt_of_le (formed.spread.first_lt formed.spread.entrySetCount_pos)
        (formed.spread.first_le positive (le_of_lt inside))
    omega

/-- `MoveNext` goes to the next entry, or fails on the last one and leaves the visitor there. -/
theorem Image.WellFormed.moveNext_eq (memory : Memory) (on : On image table visitor g) :
    if g + 1 < image.entryCount then
      ∃ visitor', (image.tree table memory).moveNext visitor = .ok visitor' ∧
        On image table visitor' (g + 1)
    else (image.tree table memory).moveNext visitor = .error (.outOfRange, visitor) := by
  obtain ⟨k, i, inside, below, rfl, rfl⟩ := on
  have valid : (image.visitorAt table k i).isValid := natCast_nonneg i
  have next := formed.next_number inside below
  rw [moveNext, if_neg (not_not.mpr valid)]
  rcases lt_or_eq_of_le (succ_le_of_lt below) with within | border
  · have other : ¬ (image.visitorAt table k i).entryIndex + 1 =
        (image.visitorAt table k i).entrySet.header.count := by
      change ¬ (i : Int) + 1 = table.count k
      omega
    rw [if_pos (next.mpr (Or.inl within)), if_neg other]
    exact ⟨_, congrArg Except.ok (formed.moveTo_eq (i := i) memory inside within rfl), k, i + 1,
      inside, within, rfl, rfl⟩
  · have last : (image.visitorAt table k i).entryIndex + 1 =
        (image.visitorAt table k i).entrySet.header.count := by
      change (i : Int) + 1 = table.count k
      omega
    rw [if_pos last]
    by_cases further : k + 1 < image.entrySetCount
    · have more : (image.visitorAt table k i).entrySet.header.index + 1 <
          (image.visitorAt table k i).entrySetCount := by
        change (k : Int) + 1 < image.entrySetCount
        omega
      have width : table.count k = table.first (k + 1) - table.first k := rfl
      rw [if_pos (next.mpr (Or.inr further)), if_neg (not_not.mpr more)]
      refine ⟨image.visitorAt table (k + 1) 0, ?_, k + 1, 0, further,
        formed.spread.filled _ further, by omega, rfl⟩
      have moved : (image.tree table memory).moveToSet (image.visitorAt table k i)
        ((k + 1 : Nat) : Int) (fun entrySet => entrySet.start = table.start (k + 1)) = .ok _ :=
        formed.moveToSet_eq memory further rfl
      change (BucketTree.moveToSet _ _ ((k : Int) + 1)
        (fun entrySet => entrySet.start = table.start (k + 1)) >>= fun visitor =>
        .ok (moveTo _ visitor 0)) = _
      rw [← natCast_succ, moved, ok_bind]
      exact congrArg Except.ok
        (formed.moveTo_eq (i := i) memory further (formed.spread.filled _ further) rfl)
    · have none : ¬ (image.visitorAt table k i).entrySet.header.index + 1 <
          (image.visitorAt table k i).entrySetCount := by
        change ¬ (k : Int) + 1 < image.entrySetCount
        omega
      have final : ¬ table.first k + i + 1 < image.entryCount := by
        rw [next]
        omega
      rw [if_neg final, if_pos none]

/-- `MovePrevious` goes to the entry before, or fails on the first one and leaves the visitor
there. -/
theorem Image.WellFormed.movePrevious_eq (memory : Memory) (on : On image table visitor g) :
    if 0 < g then
      ∃ visitor', (image.tree table memory).movePrevious visitor = .ok visitor' ∧
        On image table visitor' (g - 1)
    else (image.tree table memory).movePrevious visitor = .error (.outOfRange, visitor) := by
  have number := (formed.canMovePrevious_iff on).symm
  obtain ⟨k, i, inside, below, rfl, rfl⟩ := on
  have valid : (image.visitorAt table k i).isValid := natCast_nonneg i
  have possible : (image.visitorAt table k i).canMovePrevious ↔ 0 < i ∨ 0 < k := by
    rw [Visitor.canMovePrevious, and_iff_right valid]
    exact or_congr natCast_pos natCast_pos
  rw [possible] at number
  rw [movePrevious, if_neg (not_not.mpr valid)]
  rcases Nat.eq_zero_or_pos i with rfl | positive
  · have first : (image.visitorAt table k 0).entryIndex = 0 := rfl
    rw [if_pos first]
    rcases Nat.eq_zero_or_pos k with rfl | before
    · have none : ¬ 0 < (image.visitorAt table 0 0).entrySet.header.index := lt_irrefl 0
      rw [if_neg (by rw [number]; omega), if_pos none]
    · obtain ⟨k, rfl⟩ := exists_eq_succ_of_ne_zero (ne_of_gt before)
      have previous : k < image.entrySetCount := lt_of_succ_lt inside
      have filled := formed.spread.filled k previous
      have width : table.count k = table.first (k + 1) - table.first k := rfl
      have more : 0 < (image.visitorAt table (k + 1) 0).entrySet.header.index :=
        natCast_pos.mpr before
      have moved : (image.tree table memory).moveToSet (image.visitorAt table (k + 1) 0) (k : Int)
          (fun entrySet => entrySet.header.offset = table.start (k + 1)) = .ok _ :=
        formed.moveToSet_eq memory previous rfl
      have index : ((k + 1 : Nat) : Int) - 1 = k := by omega
      have final : (table.count k : Int) - 1 = (table.count k - 1 : Nat) := by omega
      rw [if_pos (number.mpr (Or.inr before)), if_neg (not_not.mpr more)]
      refine ⟨image.visitorAt table k (table.count k - 1), ?_, k, table.count k - 1,
        previous, by omega, ?_, rfl⟩
      · change (BucketTree.moveToSet _ _ (((k + 1 : Nat) : Int) - 1)
          (fun entrySet => entrySet.header.offset = table.start (k + 1)) >>=
            fun visitor => .ok (moveTo _ visitor (visitor.entrySet.header.count - 1))) = _
        rw [index, moved, ok_bind]
        change Except.ok (moveTo _ _ ((table.count k : Int) - 1)) = _
        rw [final]
        exact congrArg Except.ok (formed.moveTo_eq (i := 0) memory previous (by omega) rfl)
      · rw [succ_eq_add_one]
        omega
  · obtain ⟨i, rfl⟩ := exists_eq_succ_of_ne_zero (ne_of_gt positive)
    have other : ¬ (image.visitorAt table k (i + 1)).entryIndex = 0 := by
      change ¬ ((i + 1 : Nat) : Int) = 0
      omega
    have index : ((i + 1 : Nat) : Int) - 1 = i := by omega
    rw [if_pos (number.mpr (Or.inl positive)), if_neg other]
    refine ⟨image.visitorAt table k i, ?_, k, i, inside, by omega, by omega, rfl⟩
    change Except.ok (moveTo _ _ (((i + 1 : Nat) : Int) - 1)) = _
    rw [index]
    exact congrArg Except.ok (formed.moveTo_eq (i := i + 1) memory inside (by omega) rfl)

/-! ## Walks -/

/-- A move of a visitor. -/
inductive Move
  | next
  | previous

/-- The visitor after a move, which on a failure is where the failure leaves it. -/
def move (tree : BucketTree) (visitor : Visitor) (step : Move) : Visitor :=
  let moved := match step with
    | .next => tree.moveNext visitor
    | .previous => tree.movePrevious visitor
  match moved with
  | .ok visitor => visitor
  | .error (_, visitor) => visitor

/-- The visitor after some moves. -/
def walk (tree : BucketTree) (visitor : Visitor) (moves : List Move) : Visitor :=
  moves.foldl tree.move visitor

/-- The same walk over the numbers of the entries, which stays between the first and the last. -/
def Move.number (count g : Nat) : Move → Nat
  | .next => if g + 1 < count then g + 1 else g
  | .previous => g - 1

theorem Image.WellFormed.move_on (memory : Memory) (on : On image table visitor g) (step : Move) :
    On image table ((image.tree table memory).move visitor step)
      (step.number image.entryCount g) := by
  cases step with
  | next =>
    have next := formed.moveNext_eq memory on
    rw [Move.number, move]
    split_ifs at next ⊢ with inside
    · obtain ⟨visitor', moved, on'⟩ := next
      rw [moved]
      exact on'
    · rw [next]
      exact on
  | previous =>
    have previous := formed.movePrevious_eq memory on
    rw [Move.number, move]
    split_ifs at previous with inside
    · obtain ⟨visitor', moved, on'⟩ := previous
      rw [moved]
      exact on'
    · rw [previous, Nat.eq_zero_of_not_pos inside]
      rw [Nat.eq_zero_of_not_pos inside] at on
      exact on

theorem Image.WellFormed.walk_on (memory : Memory) (on : On image table visitor g)
    (moves : List Move) :
    On image table ((image.tree table memory).walk visitor moves)
      (moves.foldl (Move.number image.entryCount) g) := by
  induction moves generalizing visitor g with
  | nil => exact on
  | cons step moves ih => exact ih (formed.move_on memory on step)

end Formed

/-! ## The tree is correct -/

/-- The lookups of a tree are those of a table: the search finds the last entry up to an address,
however it reads the nodes, and the moves go through the entries in order. -/
structure Correct (tree : BucketTree) (image : Image) (table : Table) : Prop where
  found : ∀ pool v, table.offset 0 ≤ v → v < table.offset image.entryCount →
    ∃ visitor g, tree.find pool v = .ok visitor ∧ On image table visitor g ∧
      table.offset g ≤ v ∧ v < table.offset (g + 1)
  outside : ∀ pool v, v < table.offset 0 ∨ table.offset image.entryCount ≤ v →
    tree.find pool v = .error (if 0 ≤ v then .outOfRange else .invalidOffset)
  pooled : ∀ pool pool' v, tree.find pool v = tree.find pool' v
  canNext : ∀ visitor g, On image table visitor g → (visitor.canMoveNext ↔ g + 1 < image.entryCount)
  canPrevious : ∀ visitor g, On image table visitor g → (visitor.canMovePrevious ↔ 0 < g)
  next : ∀ visitor g, On image table visitor g →
    if g + 1 < image.entryCount then
      ∃ visitor', tree.moveNext visitor = .ok visitor' ∧ On image table visitor' (g + 1)
    else tree.moveNext visitor = .error (.outOfRange, visitor)
  previous : ∀ visitor g, On image table visitor g →
    if 0 < g then ∃ visitor', tree.movePrevious visitor = .ok visitor' ∧
    On image table visitor' (g - 1)
    else tree.movePrevious visitor = .error (.outOfRange, visitor)
  walk : ∀ visitor g moves, On image table visitor g →
    On image table (tree.walk visitor moves) (moves.foldl (Move.number image.entryCount) g)

/-- An image is initialized to a tree whose lookups are those of its table. -/
def LooksUp (image : Image) (table : Table) (memory : Memory) : Prop :=
  ∃ tree, initializeTree image.nodeStorage image.entryStorage image.nodeSize image.entrySize
    image.entryCount memory = .ok tree ∧
    tree.offsets = ⟨table.offset 0, table.offset image.entryCount⟩ ∧ Correct tree image table

/-- Where something is found, the entry sets have been counted without an overflow. -/
theorem Image.WellFormed.countFits (formed : image.WellFormed table) {tree : BucketTree}
    {pool : Pool} {v : Int}
    (made : initializeTree image.nodeStorage image.entryStorage image.nodeSize image.entrySize
    image.entryCount
      memory = .ok tree) (found : tree.find pool v = .ok visitor) : image.CountFits := by
  have counted : tree.entrySetCount = getEntrySetCount image.nodeSize image.entrySize
      image.entryCount := by
    simp only [initializeTree, bind_eq_ok] at made
    obtain ⟨_, -, _, -, _, -, _, -, made⟩ := made
    obtain rfl := Except.ok.inj made
    rfl
  simp only [find, visitorFind, bind_eq_ok] at found
  obtain ⟨_, -, _, -, _, -, index, -, _, inside, -⟩ := found
  have some : 0 ≤ index ∧ index < tree.entrySetCount := by
    by_contra none
    rw [rUnless_neg _ none] at inside
    cases inside
  by_contra wraps
  have few : getEntryCount image.nodeSize image.entrySize < 2 ^ 31 := by
    have := div_le_self (image.nodeSize - nodeHeaderSize) image.entrySize
    have : image.nodeSize ≤ 512 * 1024 := formed.sized.max
    unfold getEntryCount
    omega
  have none : tree.entrySetCount ≤ 0 :=
    counted.trans_le (divideUp_nonpos formed.spread.signed few (not_lt.mp wraps))
  omega

/-- The lookups of a well-formed image are those of its table if and only if the entry count can be
rounded up. Otherwise the number of entry sets is negative, and nothing is found. -/
theorem initializeTree_correct_iff (image : Image) (table : Table) (formed : image.WellFormed table)
    (memory : Memory) : LooksUp image table memory ↔ image.CountFits := by
  constructor
  case mp =>
    intro ⟨tree, made, _, correct⟩
    obtain ⟨visitor, _, found, _⟩ :=
      correct.found ⟨⟨1, one_pos⟩, zeros⟩ (table.offset 0) (le_refl _)
      (formed.spread.offset_lt formed.spread.positive (le_refl _))
    exact formed.countFits made found
  case mpr =>
    intro fits
    refine ⟨image.tree table memory, formed.initializeTree_eq fits memory, rfl, ?_⟩
    constructor
    case found =>
      intro pool v low high
      exact formed.find_eq memory low high pool
    case outside =>
      intro pool v outside
      exact formed.find_outside outside pool
    case pooled =>
      intro pool pool' v
      exact formed.find_pooled pool pool' v
    case canNext =>
      intro visitor g on
      exact formed.canMoveNext_iff on
    case canPrevious =>
      intro visitor g on
      exact formed.canMovePrevious_iff on
    case next =>
      intro visitor g on
      exact formed.moveNext_eq memory on
    case previous =>
      intro visitor g on
      exact formed.movePrevious_eq memory on
    case walk =>
      intro visitor g moves on
      exact formed.walk_on memory on moves

/-- A table of two levels. -/
theorem initializeTree_correct_twoLevels :
    (packedImage 5000000 id).nodeL2Count = 2 ∧
      LooksUp (packedImage 5000000 id) (packedTable 5000000) zeros :=
  ⟨by decide, (initializeTree_correct_iff _ _ (packedImage_wellFormed id (by decide) (by decide))
      zeros).2 (by decide)⟩

/-- The largest entry count there is, which nothing can be added to. -/
theorem not_looksUp_largest :
    (packedImage (2 ^ 31 - 1) id).WellFormed (packedTable (2 ^ 31 - 1)) ∧
      ¬ LooksUp (packedImage (2 ^ 31 - 1) id) (packedTable (2 ^ 31 - 1)) zeros := by
  have formed : (packedImage (2 ^ 31 - 1) id).WellFormed (packedTable (2 ^ 31 - 1)) :=
    packedImage_wellFormed id (by decide) (by decide)
  refine ⟨formed, fun ⟨tree, made, _, correct⟩ => ?_⟩
  obtain ⟨visitor, _, found, _⟩ := correct.found ⟨⟨1, one_pos⟩, zeros⟩ 0 (by decide) (by decide)
  exact absurd (formed.countFits made found) (by decide)

end SumiEmu.FileSys.BucketTree
