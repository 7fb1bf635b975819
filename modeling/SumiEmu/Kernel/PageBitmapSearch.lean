/-
# Searching a page bitmap

A search starts at the root and takes one set bit of one word on every depth.
Since each depth summarises the next, the word it steps into is never zero, so
only the root can end a search without a block.
-/

import SumiEmu.Kernel.PageBitmap

namespace SumiEmu.Kernel

open WordBits Fallible Function BitVec

namespace RandomBitGenerator

/-- Whatever the random bits are, the selected bit is a set bit. -/
theorem selectLoop_spec (k : Nat) (bitmap : BitVec 64) (selected : Nat) (g : RandomBitGenerator)
    (nonzero : bitmap ≠ 0) (narrow : ∀ j, bitmap.getLsbD j → j < 2 ^ k) :
    ∃ j, (selectLoop k bitmap selected g).1 = selected + j ∧ bitmap.getLsbD j := by
  induction k generalizing bitmap selected g with
  | zero =>
    refine ⟨0, rfl, ?_⟩
    by_contra clear
    refine nonzero (eq_of_getLsbD_eq fun j _ => ?_)
    cases bit : bitmap.getLsbD j with
    | false => simp
    | true =>
      have : j = 0 := by simpa using narrow j bit
      exact absurd (this ▸ bit) clear
  | succ k ih =>
    have high_bit : ∀ j, (bitmap >>> 2 ^ k).getLsbD j = bitmap.getLsbD (2 ^ k + j) := fun j =>
      getLsbD_ushiftRight ..
    have low_bit : ∀ j, (bitmap &&& ~~~(0xFFFFFFFFFFFFFFFF#64 <<< 2 ^ k)).getLsbD j =
        (bitmap.getLsbD j && decide (j < 2 ^ k)) := by
      intro j
      have ones : 0xFFFFFFFFFFFFFFFF#64 = BitVec.allOnes 64 := rfl
      rw [ones, getLsbD_and, getLsbD_not, getLsbD_shiftLeft,
        getLsbD_allOnes]
      cases bit : bitmap.getLsbD j with
      | false => rfl
      | true =>
        have := lt_of_getLsbD bit
        have inner : j - 2 ^ k < 64 := (Nat.sub_le ..).trans_lt this
        simp only [this, inner, decide_true, Bool.true_and, Bool.and_true, Bool.not_not]
    have split : (2 : Nat) ^ (k + 1) = 2 ^ k + 2 ^ k := by
      rw [pow_succ]
      omega
    have of_high : ∀ g, bitmap >>> 2 ^ k ≠ 0 →
        ∃ j, (selectLoop k (bitmap >>> 2 ^ k) (selected + 2 ^ k) g).1 = selected + j ∧
          bitmap.getLsbD j := by
      intro g some
      obtain ⟨j, result, bit⟩ := ih _ (selected + 2 ^ k) g some fun j bit => by
        have := narrow _ (high_bit j ▸ bit)
        omega
      exact ⟨2 ^ k + j, by rw [result, Nat.add_assoc], high_bit j ▸ bit⟩
    have of_low : ∀ g, bitmap &&& ~~~(0xFFFFFFFFFFFFFFFF#64 <<< 2 ^ k) ≠ 0 →
        ∃ j, (selectLoop k (bitmap &&& ~~~(0xFFFFFFFFFFFFFFFF#64 <<< 2 ^ k)) selected g).1 =
          selected + j ∧ bitmap.getLsbD j := by
      intro g some
      obtain ⟨j, result, bit⟩ := ih _ selected g some fun j bit => by
        rw [low_bit, Bool.and_eq_true, decide_eq_true_iff] at bit
        exact bit.2
      rw [low_bit, Bool.and_eq_true] at bit
      exact ⟨j, result, bit.1⟩
    simp only [selectLoop]
    split
    · next none =>
      refine of_low g fun empty => nonzero (eq_of_getLsbD_eq fun j _ => ?_)
      have low : (bitmap.getLsbD j && decide (j < 2 ^ k)) = false := by
        rw [← low_bit, empty]
        exact getLsbD_zero
      have high : bitmap.getLsbD (2 ^ k + (j - 2 ^ k)) = false := by
        rw [← high_bit, none]
        exact getLsbD_zero
      refine Eq.trans ?_ getLsbD_zero.symm
      by_cases lower : j < 2 ^ k
      · simpa [lower] using low
      · rwa [Nat.add_sub_cancel' (by omega)] at high
    · next high =>
      split
      · exact of_high g high
      · next low =>
        split
        · exact of_high _ high
        · exact of_low _ low

/-- `SelectRandomBit` on a word that is not zero. -/
theorem selectRandomBit_spec (g : RandomBitGenerator) {bitmap : BitVec 64} (nonzero : bitmap ≠ 0) :
    bitmap.getLsbD (g.selectRandomBit bitmap).1 := by
  obtain ⟨j, result, bit⟩ := selectLoop_spec 6 bitmap 0 g nonzero fun _ => lt_of_getLsbD
  rwa [selectRandomBit, result, Nat.zero_add]

end RandomBitGenerator

namespace KPageBitmap

variable {bits : Nat → Nat → BitVec 64} {starts ends : Nat → Nat} {words : Nat → BitVec 64}
    {size : Nat}
  {b : KPageBitmap}

/-- The bit that one depth of a search takes. -/
def selectBit (random : Bool) (v : BitVec 64) (g : RandomBitGenerator) :
    Nat × RandomBitGenerator :=
  if random then g.selectRandomBit v else (v.ctz.toNat, g)

theorem selectBit_set (random : Bool) {v : BitVec 64} (nonzero : v ≠ 0) (g : RandomBitGenerator) :
    v.getLsbD (selectBit random v g).1 := by
  cases random with
  | true => exact g.selectRandomBit_spec nonzero
  | false => exact getLsbD_true_ctz_of_ne_zero nonzero

/-- A search that starts at a word that is not zero ends at a set bit, and at
the first one if it starts at the first such word. -/
theorem findFrom_spec (random : Bool) (r depth offset : Nat) (g : RandomBitGenerator)
    (nonzero : levelsOf starts ends words depth offset ≠ 0)
    (consistent : ∀ d, depth ≤ d → d < depth + r →
      Summarises (levelsOf starts ends words d) (levelsOf starts ends words (d + 1))) :
    ∃ (n : Nat) (g' : RandomBitGenerator),
      findFrom starts words random (r + 1) depth offset g = .ok ((n : Int), g') ∧
        bitAt (levelsOf starts ends words (depth + r)) n ∧
        (random = false → (∀ k, k < offset → levelsOf starts ends words depth k = 0) →
          ∀ m, m < n → bitAt (levelsOf starts ends words (depth + r)) m = false) := by
  have word : words (starts depth + offset) = levelsOf starts ends words depth offset := by
    rw [levelsOf, ite_ne_right_iff] at nonzero
    exact (if_pos nonzero.1).symm
  generalize former : levelsOf starts ends words = bits at *
  have set := selectBit_set random nonzero g
  have step : findFrom starts words random (r + 1) depth offset g =
      findFrom starts words random r (depth + 1)
      (offset * 64 + (selectBit random (bits depth offset) g).1)
      (selectBit random (bits depth offset) g).2 := by
    rw [findFrom, word]
    exact if_neg nonzero
  generalize chosen : selectBit random (bits depth offset) g = next at set step
  obtain ⟨bit, g'⟩ := next
  have inside : bit < 64 := lt_of_getLsbD set
  have here : bitAt (bits depth) (offset * 64 + bit) := by
    rw [bitAt_word (by decide) _ inside]
    exact set
  -- the bits below the one that is taken, when the words below this one are zero
  have first : random = false → (∀ k, k < offset → bits depth k = 0) →
      ∀ m, m < offset * 64 + bit → bitAt (bits depth) m = false := by
    rintro rfl empty m below
    by_cases word : m / 64 < offset
    · rw [bitAt, empty _ word]
      exact getLsbD_zero
    · obtain rfl : m / 64 = offset := by omega
      have lowest : bit = (bits depth (m / 64)).ctz.toNat := congrArg Prod.fst chosen.symm
      exact getLsbD_false_of_lt_ctz (by omega)
  rw [step]
  cases r with
  | zero => exact ⟨_, g', rfl, here, first⟩
  | succ r =>
    have summary := consistent depth le_rfl (by omega)
    have below : bits (depth + 1) (offset * 64 + bit) ≠ 0 := by
      rw [← bne_iff_ne, ← summary]
      exact here
    subst former
    obtain ⟨n, g'', found, leaf, lowest⟩ := findFrom_spec random r (depth + 1)
      (offset * 64 + bit) g' below fun d lower upper => consistent d (by omega) (by omega)
    have deeper : depth + 1 + r = depth + (r + 1) := by omega
    rw [deeper] at leaf lowest
    refine ⟨n, g'', found, leaf, fun linear empty => lowest linear fun k before => ?_⟩
    have clear := first linear empty k before
    rwa [summary, bne_eq_false_iff_eq] at clear

/-- The root is not zero when there is a bit set at some depth below it. -/
theorem root_nonzero {depth i : Nat} (consistent : Consistent bits (depth + 1))
    (inside : i < 64 ^ (depth + 1)) (set : bitAt (bits depth) i) : bits 0 0 ≠ 0 := by
  have word_nonzero : bits depth (i / 64) ≠ 0 := by
    rintro zero
    rw [bitAt, zero] at set
    exact absurd set (by simp)
  induction depth generalizing i with
  | zero =>
    have root : i / 64 = 0 := by omega
    rwa [root] at word_nonzero
  | succ depth ih =>
    have above : bitAt (bits depth) (i / 64) := by
      rw [consistent depth (by omega), bne_iff_ne]
      exact word_nonzero
    refine ih (fun d below => consistent d (by omega)) ?_ above ?_
    · rw [pow_succ] at inside
      omega
    · rintro zero
      rw [bitAt, zero] at above
      exact absurd above (by simp)

/-- `FindFreeBlock` finds a set bit if there is one, and nothing else changes. -/
theorem findFreeBlock_spec (wf : b.WellFormed size) (random : Bool) :
    ∃ (found : Int) (rng : RandomBitGenerator),
      b.findFreeBlock random = .ok (found, { b with rng := rng }) ∧
        (found = -1 ↔ b.bitSet size = ∅) ∧ (found = -1 → rng = b.rng) ∧
        (found ≠ -1 → ∃ n : Nat, found = n ∧ n ∈ b.bitSet size ∧
          (random = false → ∀ m ∈ b.bitSet size, n ≤ m)) := by
  obtain ⟨depth, depths⟩ := wf.exists_depth
  have consistent := wf.consistent
  rw [depths] at consistent
  have leaf_eq : b.leaf = bitAt (b.level depth) := by
    funext i
    rw [leaf, depths, Nat.add_sub_cancel]
  have word : b.storage (b.bitStorages 0 + 0) = b.level 0 0 := by
    rw [level, levelsOf]
    split_ifs with inside
    · rfl
    · exact wf.empty (Nat.eq_zero_of_not_pos fun positive => inside (wf.placed.root positive)) _
  rw [findFreeBlock, depths]
  by_cases root : b.level 0 0 = 0
  · refine ⟨-1, b.rng, ?_, iff_of_true rfl ?_, fun _ => rfl, absurd rfl⟩
    · rw [findFrom, word, if_pos root, if_pos rfl]
      rfl
    · refine Finset.eq_empty_of_forall_notMem fun i member => ?_
      obtain ⟨small, set⟩ := mem_bitSet.mp member
      have fits := lt_pow_getRequiredDepth size
      rw [← wf.depths, depths] at fits
      rw [leaf_eq] at set
      exact root_nonzero consistent (by omega) set root
  · obtain ⟨n, rng, found, set, lowest⟩ := findFrom_spec random depth 0 0 b.rng root
      fun d _ below => consistent d (by omega)
    rw [Nat.zero_add, ← level, ← leaf_eq] at set lowest
    refine ⟨n, rng, ?_, iff_of_false (by omega) ?_, fun absurdity => by omega, fun _ => ?_⟩
    · rw [found]
      rfl
    · exact Finset.ne_empty_of_mem (wf.mem_bitSet_iff.mpr set)
    · refine ⟨n, rfl, wf.mem_bitSet_iff.mpr set, fun linear m member => ?_⟩
      by_contra smaller
      have clear := lowest linear (fun k absurdity => by omega) m (by omega)
      rw [(mem_bitSet.mp member).2] at clear
      exact absurd clear (by decide)

/-! ## Runs -/

/-- A call of a bitmap, with its arguments. -/
inductive Call
  | setBit (offset : Nat)
  | clearBit (offset : Nat)
  | clearRange (offset count : Nat)
  | findFreeBlock (random : Bool)
  deriving DecidableEq, Repr

/-- Make a call, without what it returns. -/
def call (b : KPageBitmap) : Call → Except Fault KPageBitmap
  | .setBit offset => .ok (b.setBit offset)
  | .clearBit offset => .ok (b.clearBit offset)
  | .clearRange offset count => .ok (b.clearRange offset count).2
  | .findFreeBlock random => do
    let (_, b) ← b.findFreeBlock random
    return b

/-- Bits are set when they are clear and cleared when they are set, and a range is one of blocks
and passes the assertions about it. -/
def Call.Admissible (size : Nat) (b : KPageBitmap) : Call → Prop
  | .setBit offset => offset < size ∧ b.leaf offset = false
  | .clearBit offset => b.leaf offset = true
  | .clearRange offset count => RangeAsserted offset count ∧ offset < size ∧ offset + count ≤ size
  | .findFreeBlock _ => True

/-- Make the calls of a list in turn. -/
def runCalls : KPageBitmap → List Call → Except Fault KPageBitmap
  | b, [] => .ok b
  | b, c :: calls => do
    let b ← b.call c
    runCalls b calls

/-- Every call of the run is admissible where it is made. -/
def Respects (size : Nat) : KPageBitmap → List Call → Prop
  | _, [] => True
  | b, c :: calls => c.Admissible size b ∧ ∀ b', b.call c = .ok b' → Respects size b' calls

theorem WellFormed.with_rng (wf : b.WellFormed size) (rng : RandomBitGenerator) :
    WellFormed size { b with rng := rng } :=
  ⟨wf.depths, wf.placed, wf.empty, wf.consistent, wf.inside, wf.counted⟩

theorem call_wellFormed (wf : b.WellFormed size) {c : Call} (admissible : c.Admissible size b) :
    ∃ b', b.call c = .ok b' ∧ b'.WellFormed size := by
  cases c with
  | setBit offset =>
    obtain ⟨inside, clear⟩ := admissible
    exact ⟨_, rfl, (setBit_spec wf inside (by simp [mem_bitSet, clear])).1⟩
  | clearBit offset => exact ⟨_, rfl, (clearBit_spec wf (wf.mem_bitSet_iff.mpr admissible)).1⟩
  | clearRange offset count =>
    obtain ⟨asserted, first, last⟩ := admissible
    exact ⟨_, rfl, (clearRange_spec wf asserted first last).2.1⟩
  | findFreeBlock random =>
    obtain ⟨found, rng, result, -⟩ := findFreeBlock_spec wf random
    refine ⟨_, ?_, wf.with_rng rng⟩
    rw [call, result]
    rfl

theorem runCalls_from_wellFormed (wf : b.WellFormed size) {calls : List Call}
    (respects : Respects size b calls) :
    ∃ b', runCalls b calls = .ok b' ∧ b'.WellFormed size := by
  induction calls generalizing b with
  | nil => exact ⟨b, rfl, wf⟩
  | cons c calls ih =>
    obtain ⟨admissible, others⟩ := respects
    obtain ⟨b₁, result, wf₁⟩ := call_wellFormed wf admissible
    obtain ⟨b₂, run, wf₂⟩ := ih wf₁ (others b₁ result)
    refine ⟨b₂, ?_, wf₂⟩
    rw [runCalls, result]
    exact run

/-- What holds of a bitmap after any run. Every depth is a summary of the next, and the set bits are
counted. Clearing a range of blocks does so when all of it is set and changes nothing otherwise, and
a search finds a set bit if there is one, the lowest when it is not random. -/
structure Summarised (size : Nat) (b : KPageBitmap) : Prop where
  depths : b.usedDepths ≤ maxDepth
  root : b.bitStorages 0 < b.endStorages 0
  summaries : ∀ depth, 0 < depth → depth < b.usedDepths →
    ∀ i, bitAt (b.level (depth - 1)) i = true ↔ b.level depth i ≠ 0
  inside : ∀ i, b.leaf i → i < size
  counted : b.numBits = {i ∈ Finset.range size | b.leaf i}.card
  clears : ∀ offset count, RangeAsserted offset count → offset < size → offset + count ≤ size →
    ((b.clearRange offset count).1 = true ↔ ∀ i, offset ≤ i → i < offset + count → b.leaf i) ∧
    ((b.clearRange offset count).1 = true → ∀ i, (b.clearRange offset count).2.leaf i =
      (b.leaf i && !decide (offset ≤ i ∧ i < offset + count))) ∧
    ((b.clearRange offset count).1 = false → (b.clearRange offset count).2 = b)
  finds : ∀ random, ∃ found b', b.findFreeBlock random = .ok (found, b') ∧
    (found = -1 ↔ ∀ i, b.leaf i = false) ∧
    (found ≠ -1 → ∃ n : Nat, found = n ∧ b.leaf n ∧ (random = false → ∀ m, b.leaf m → n ≤ m))

/-- Every run of admissible calls from an initialized bitmap completes, so no search hits the depth
assertion. -/
theorem runCalls_summaries (rng : RandomBitGenerator) {size : Nat} (positive : 0 < size)
    (small : size < 64 ^ maxDepth) {calls : List Call}
    (respects : Respects size (initializeBitmap rng size) calls) :
    ∃ b, runCalls (initializeBitmap rng size) calls = .ok b ∧ Summarised size b := by
  obtain ⟨b, run, wf⟩ := runCalls_from_wellFormed (initializeBitmap_wellFormed rng size).1 respects
  refine ⟨b, run, ?_, wf.placed.root positive, fun depth below inner i => ?_, wf.inside, wf.counted,
    fun offset count asserted first last => ?_, fun random => ?_⟩
  · rw [wf.depths]
    exact getRequiredDepth_le (by decide) small
  · have summary := wf.consistent (depth - 1) (by omega) i
    rw [Nat.sub_add_cancel below] at summary
    rw [summary, bne_iff_ne]
  · obtain ⟨cleared, wf', bits⟩ := clearRange_spec wf asserted first last
    refine ⟨cleared.trans wf.subset_bitSet_iff, fun done i => ?_,
      fun failed => clearRange_failed failed⟩
    rw [done, if_pos rfl] at bits
    rw [Bool.eq_iff_iff, ← wf'.mem_bitSet_iff, bits, Finset.mem_sdiff, wf.mem_bitSet_iff,
      Finset.mem_Ico, Bool.and_eq_true, Bool.not_eq_true', decide_eq_false_iff_not]
  · obtain ⟨found, rng', result, none, -, some⟩ := findFreeBlock_spec wf random
    refine ⟨found, _, result, ?_, fun other => ?_⟩
    · rw [none, Finset.eq_empty_iff_forall_notMem]
      simp only [wf.mem_bitSet_iff, Bool.not_eq_true]
    · obtain ⟨n, same, member, lowest⟩ := some other
      refine ⟨n, same, wf.mem_bitSet_iff.mp member, fun linear m set => ?_⟩
      exact lowest linear m (wf.mem_bitSet_iff.mpr set)

theorem runCalls_summaries_clear :
    ∃ b, runCalls (initializeBitmap ⟨fun n => n, 0, 0⟩ 100)
        [.setBit 3, .setBit 70, .clearRange 3 1, .clearBit 70] = .ok b ∧ Summarised 100 b := by
  have start : initializeBitmap ⟨fun n => n, 0, 0⟩ 100 =
      { bitStorages := update (update (fun _ => 0) 1 0) 0 2
        endStorages := update (update (fun _ => 0) 1 2) 0 3
        rng := ⟨fun n => n, 0, 0⟩, usedDepths := 2 } := by
    simp [initializeBitmap, getRequiredDepth, setPointers, alignUp]
  apply runCalls_summaries _ (by decide) (by decide)
  rw [start]
  refine ⟨⟨by decide, by decide⟩, ?_⟩
  rintro b₁ ⟨⟩
  refine ⟨⟨by decide, by decide⟩, ?_⟩
  rintro b₂ ⟨⟩
  refine ⟨by simp [Call.Admissible, RangeAsserted], ?_⟩
  rintro b₃ ⟨⟩
  refine ⟨by simp only [Call.Admissible]; decide, fun _ _ => trivial⟩

/-- Behind the 64 blocks of a bitmap stands its root, whose bit is cleared as if it were that of a
block. -/
theorem clearRange_behind :
    RangeAsserted 64 1 ∧ ∃ b,
      runCalls (initializeBitmap ⟨fun n => n, 0, 0⟩ 64) [.setBit 0, .clearRange 64 1] = .ok b ∧
      bitAt (b.level 0) 0 = false ∧ b.level 1 0 ≠ 0 := by
  have start : initializeBitmap ⟨fun n => n, 0, 0⟩ 64 =
      { bitStorages := update (update (fun _ => 0) 1 0) 0 1
        endStorages := update (update (fun _ => 0) 1 1) 0 2
        rng := ⟨fun n => n, 0, 0⟩, usedDepths := 2 } := by
    simp [initializeBitmap, getRequiredDepth, setPointers, alignUp]
  refine ⟨by simp [RangeAsserted], ?_⟩
  rw [start]
  exact ⟨_, rfl, by decide, by decide⟩

end KPageBitmap

end SumiEmu.Kernel
