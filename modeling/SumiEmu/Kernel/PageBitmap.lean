/-
# The page bitmap

A page bitmap keeps one bit for every block of a heap, and above these bits
levels of summaries: a bit of a level says whether a word of the level below is
not zero. Depth 0 is the root, which is a single word, and the bits of the
deepest level are those of the blocks.

The words of all depths lie in one storage, the deepest level first, which is
zeroed before it is handed to `Initialize`. A place is a number of words from its
start. `Initialize` asserts that it needs no more than the four depths it has
pointers for, which bounds the sizes it is called with. The generator of random
numbers behind the bit generator is an arbitrary sequence of 32-bit words.
-/

import Mathlib.Order.Interval.Finset.Nat
import SumiEmu.Foundations.Fallible
import SumiEmu.Foundations.WordBits
import SumiEmu.Kernel.MemoryTypes

namespace SumiEmu.Kernel

open WordBits Fallible

/-- `KPageBitmap::RandomBitGenerator`, with the words its generator has yet to produce. -/
structure RandomBitGenerator where
  rng : Nat → BitVec 32
  entropy : BitVec 32 := 0
  bitsAvailable : Nat := 0

namespace RandomBitGenerator

variable (g : RandomBitGenerator)

/-- `RefreshEntropy`. -/
def refreshEntropy : RandomBitGenerator where
  rng := fun n => g.rng (n + 1)
  entropy := g.rng 0
  bitsAvailable := 32

/-- `GenerateRandomBit`. -/
def generateRandomBit : Bool × RandomBitGenerator :=
  let g := if g.bitsAvailable = 0 then g.refreshEntropy else g
  ((g.entropy &&& 1) != 0,
    { g with entropy := g.entropy >>> 1, bitsAvailable := g.bitsAvailable - 1 })

/-- The loop of `SelectRandomBit`, which halves the number of bits it looks at. -/
def selectLoop : Nat → BitVec 64 → Nat → RandomBitGenerator → Nat × RandomBitGenerator
  | 0, _, selected, g => (selected, g)
  | k + 1, bitmap, selected, g =>
    let curNumBits := 2 ^ k
    let high := bitmap >>> curNumBits
    let low := bitmap &&& ~~~(0xFFFFFFFFFFFFFFFF#64 <<< curNumBits)
    if high = 0 then selectLoop k low selected g
    else if low = 0 then selectLoop k high (selected + curNumBits) g
    else
      -- only now is a random bit taken
      match g.generateRandomBit with
      | (true, g) => selectLoop k high (selected + curNumBits) g
      | (false, g) => selectLoop k low selected g

/-- `SelectRandomBit`. -/
def selectRandomBit (bitmap : BitVec 64) : Nat × RandomBitGenerator :=
  selectLoop 6 bitmap 0 g

/-- `GenerateRandomBits`, with the bits gathered so far. -/
def generateRandomBits (g : RandomBitGenerator) (numBits : Nat) (result : BitVec 64) :
    BitVec 64 × RandomBitGenerator :=
  if numBits = 0 then (result, g)
  else
    let g' := if g.bitsAvailable = 0 then g.refreshEntropy else g
    let curBits := min numBits g'.bitsAvailable
    let mask := (1#64 <<< curBits) - 1#64
    let next : RandomBitGenerator := { g' with
      entropy := g'.entropy >>> curBits
      bitsAvailable := g'.bitsAvailable - curBits }
    next.generateRandomBits (numBits - curBits)
      ((result <<< curBits) ||| (g'.entropy.setWidth 64 &&& mask))
termination_by numBits
decreasing_by
  have refreshed : 0 < g'.bitsAvailable := by
    unfold g'
    split
    · exact Nat.succ_pos 31
    · omega
  have needed : 0 < numBits := Nat.pos_of_ne_zero ‹_›
  exact Nat.sub_lt needed (lt_min needed refreshed)

/-- `GenerateRandom`. -/
def generateRandom (max : Nat) : Nat × RandomBitGenerator :=
  let bitsNeeded := 1 + (64 - (BitVec.ofNat 64 max).clz.toNat)
  let (rnd, g) := g.generateRandomBits bitsNeeded 0
  (rnd.toNat - rnd.toNat / max * max, g)

end RandomBitGenerator

/-- The assertion of `FindFreeBlock` that only the root can be empty. -/
inductive KPageBitmap.Fault
  | depthAssertion
  deriving DecidableEq, Repr

open KPageBitmap (Fault)

/-- `KPageBitmap`. -/
structure KPageBitmap where
  storage : Nat → BitVec 64 := fun _ => 0
  bitStorages : Nat → Nat := fun _ => 0
  endStorages : Nat → Nat := fun _ => 0
  rng : RandomBitGenerator
  numBits : Nat := 0
  usedDepths : Nat

namespace KPageBitmap

/-- `GetRequiredDepth`. -/
def getRequiredDepth (regionSize : Nat) : Nat :=
  if regionSize / 64 = 0 then 1 else getRequiredDepth (regionSize / 64) + 1
termination_by regionSize
decreasing_by omega

/-- `MaxDepth`. -/
def maxDepth : Nat := 4

/-- The loop of `Initialize`, which places the words of the depths below the given one. -/
def setPointers : Nat → Nat → Nat → (Nat → Nat) → (Nat → Nat) → (Nat → Nat) × (Nat → Nat)
  | 0, _, _, bitStorages, endStorages => (bitStorages, endStorages)
  | depth + 1, storage, size, bitStorages, endStorages =>
    let size := alignUp size 64 / 64
    setPointers depth (storage + size) size (Function.update bitStorages depth storage)
      (Function.update endStorages depth (storage + size))

/-- `Initialize`. -/
def initializeBitmap (rng : RandomBitGenerator) (size : Nat) : KPageBitmap :=
  let usedDepths := getRequiredDepth size
  let (bitStorages, endStorages) := setPointers usedDepths 0 size (fun _ => 0) fun _ => 0
  { bitStorages, endStorages, rng, usedDepths }

/-- The private `SetBit`, on the depths below the given one. -/
def setBitFrom (starts : Nat → Nat) : Nat → Nat → (Nat → BitVec 64) → Nat → BitVec 64
  | 0, _, words => words
  | depth + 1, offset, words =>
    let ind := offset / 64
    let mask := 1#64 <<< (offset % 64)
    let v := words (starts depth + ind)
    let words := Function.update words (starts depth + ind) (v ||| mask)
    if v ≠ 0 then words else setBitFrom starts depth ind words

/-- The private `ClearBit`, on the depths below the given one. -/
def clearBitFrom (starts : Nat → Nat) : Nat → Nat → (Nat → BitVec 64) → Nat → BitVec 64
  | 0, _, words => words
  | depth + 1, offset, words =>
    let ind := offset / 64
    let mask := 1#64 <<< (offset % 64)
    let v := words (starts depth + ind) &&& ~~~mask
    let words := Function.update words (starts depth + ind) v
    if v ≠ 0 then words else clearBitFrom starts depth ind words

variable (b : KPageBitmap)

/-- `SetBit`. -/
def setBit (offset : Nat) : KPageBitmap :=
  { b with
    storage := setBitFrom b.bitStorages b.usedDepths offset b.storage
    numBits := b.numBits + 1 }

/-- `ClearBit`. -/
def clearBit (offset : Nat) : KPageBitmap :=
  { b with
    storage := clearBitFrom b.bitStorages b.usedDepths offset b.storage
    numBits := b.numBits - 1 }

/-- The first loop of `ClearRange`: whether the given number of words from a place on are full. -/
def wordsFull (words : Nat → BitVec 64) (place : Nat) : Nat → Bool
  | 0 => true
  | n + 1 => words place == ~~~0#64 && wordsFull words (place + 1) n

/-- The second loop of `ClearRange`, which empties words of the given depth. -/
def clearWords (starts : Nat → Nat) (depth ind : Nat) : Nat → (Nat → BitVec 64) → Nat → BitVec 64
  | 0, words => words
  | n + 1, words =>
    let words := Function.update words (starts depth + ind) 0
    clearWords starts depth (ind + 1) n (clearBitFrom starts depth ind words)

/-- `ClearRange`. -/
def clearRange (offset count : Nat) : Bool × KPageBitmap :=
  let depth := b.usedDepths - 1
  let bits := b.bitStorages depth
  let bitInd := offset / 64
  if count < 64 then
    let shift := offset % 64
    let mask := ((1#64 <<< count) - 1#64) <<< shift
    let v := b.storage (bits + bitInd)
    if v &&& mask ≠ mask then (false, b)
    else
      let v := v &&& ~~~mask
      let words := Function.update b.storage (bits + bitInd) v
      (true, { b with
        storage := if v = 0 then clearBitFrom b.bitStorages depth bitInd words else words
        numBits := b.numBits - count })
  else if wordsFull b.storage (bits + bitInd) (count / 64) then
    (true, { b with
      storage := clearWords b.bitStorages depth bitInd (count / 64) b.storage
      numBits := b.numBits - count })
  else (false, b)

/-- The loop of `FindFreeBlock`, over the given number of depths from one on. -/
def findFrom (starts : Nat → Nat) (words : Nat → BitVec 64) (random : Bool) :
    Nat → Nat → Nat → RandomBitGenerator → Except Fault (Int × RandomBitGenerator)
  | 0, _, offset, g => return ((offset : Int), g)
  | remaining + 1, depth, offset, g =>
    let v := words (starts depth + offset)
    if v = 0 then
      if depth = 0 then return (-1, g) else .error .depthAssertion
    else
      let (bit, g) := if random then g.selectRandomBit v else (v.ctz.toNat, g)
      findFrom starts words random remaining (depth + 1) (offset * 64 + bit) g

/-- `FindFreeBlock`. -/
def findFreeBlock (random : Bool) : Except Fault (Int × KPageBitmap) := do
  let (offset, rng) ← findFrom b.bitStorages b.storage random b.usedDepths 0 0 b.rng
  return (offset, { b with rng := rng })

/-- The words of each depth, where there are none behind the last one. -/
def levelsOf (starts ends : Nat → Nat) (words : Nat → BitVec 64) (depth i : Nat) : BitVec 64 :=
  if starts depth + i < ends depth then words (starts depth + i) else 0

/-- The words of a depth. -/
def level : Nat → Nat → BitVec 64 :=
  levelsOf b.bitStorages b.endStorages b.storage

/-- Whether the bit of a block is set. -/
def leaf (offset : Nat) : Bool := bitAt (b.level (b.usedDepths - 1)) offset

end KPageBitmap

end SumiEmu.Kernel

/-!
## The summaries of a page bitmap

Setting or clearing the bit of a block keeps every depth a summary of the next,
although the walk upwards stops at the first word that was, or still is, not
zero. So a search that starts at the root finds a set bit whenever there is
one, and can never be led to an empty word.
-/

namespace SumiEmu.Kernel.KPageBitmap

open WordBits Fallible Function Finset Nat

/-- Among the depths below the given one, each summarises the next. -/
def Consistent (bits : Nat → Nat → BitVec 64) (depth : Nat) : Prop :=
  ∀ d, d + 1 < depth → Summarises (bits d) (bits (d + 1))

variable {bits : Nat → Nat → BitVec 64}

/-- Write one word of a depth. -/
def write (bits : Nat → Nat → BitVec 64) (depth ind : Nat) (v : BitVec 64) :
    Nat → Nat → BitVec 64 :=
  Function.update bits depth (Function.update (bits depth) ind v)

@[simp] theorem write_self (depth ind : Nat) (v : BitVec 64) :
    write bits depth ind v depth = Function.update (bits depth) ind v := update_self ..

theorem write_of_ne {depth d : Nat} (ind : Nat) (v : BitVec 64) (other : d ≠ depth) :
    write bits depth ind v d = bits d := update_of_ne other ..

/-- Writing a word of one depth leaves the depths above it consistent. -/
theorem Consistent.write_below {depth : Nat} (consistent : Consistent bits (depth + 1))
    (ind : Nat) (v : BitVec 64) : Consistent (write bits depth ind v) depth := by
  intro d below
  rw [write_of_ne _ _ (by omega), write_of_ne _ _ (by omega)]
  exact consistent d (by omega)

/-- Depths that are consistent among themselves, and whose last one summarises the next. -/
theorem Consistent.succ {depth : Nat} (consistent : Consistent bits depth)
    (last : ∀ d, depth = d + 1 → Summarises (bits d) (bits depth)) :
    Consistent bits (depth + 1) := by
  intro d below
  rcases Nat.lt_succ_iff_lt_or_eq.mp below with inner | rfl
  · exact consistent d inner
  · exact last d rfl

/-! ## The places of the words -/

/-- The words of a depth come before those of the depths above it. Each depth has a bit for every
word of the next one, and the deepest one a bit for every block. -/
structure Placed (size depths : Nat) (starts ends : Nat → Nat) : Prop where
  order : ∀ d d', d' < d → ends d ≤ starts d'
  covers : ∀ d i, d + 1 < depths → starts (d + 1) + i < ends (d + 1) → starts d + i / 64 < ends d
  leaves : ∀ i < size, starts (depths - 1) + i / 64 < ends (depths - 1)
  root : 0 < size → starts 0 < ends 0

/-- The words of the depths below the given one are placed behind those of the others. -/
theorem setPointers_spec (depth : Nat) {storage size : Nat} {starts ends starts' ends' : Nat → Nat}
    (pointers : setPointers depth storage size starts ends = (starts', ends'))
    (above : ∀ d, depth ≤ d → ends d ≤ storage) :
    (∀ d, depth ≤ d → starts' d = starts d ∧ ends' d = ends d) ∧
    (∀ d < depth, storage ≤ starts' d) ∧ (∀ d d', d' < d → d' < depth → ends' d ≤ starts' d') ∧
      (∀ d i, d + 1 < depth → starts' (d + 1) + i < ends' (d + 1) → starts' d + i / 64 < ends' d) ∧
      (0 < depth → ∀ i < size, starts' (depth - 1) + i / 64 < ends' (depth - 1)) ∧
      (0 < size → ∀ d < depth, starts' d < ends' d) := by
  induction depth generalizing storage size starts ends with
  | zero =>
    cases pointers
    refine ⟨fun _ _ => ⟨rfl, rfl⟩, ?_, ?_, ?_, ?_, ?_⟩
    all_goals intros
    all_goals omega
  | succ depth ih =>
    have whole : alignUp size 64 / 64 * 64 = alignUp size 64 :=
      Nat.div_mul_cancel (alignUp_dvd size 64)
    have most := le_alignUp (by decide : 0 < 64) size
    generalize alignUp size 64 / 64 = words at whole pointers
    obtain ⟨same, behind, order, covers, leaves, some⟩ := ih pointers fun d here => by
      by_cases last : d = depth
      · rw [last, update_self]
      · rw [update_of_ne last]
        exact (above d (by omega)).trans (Nat.le_add_right ..)
    obtain ⟨first, stop⟩ := same depth le_rfl
    rw [update_self] at first stop
    have same (d : Nat) (here : depth + 1 ≤ d) : starts' d = starts d ∧ ends' d = ends d := by
      have old := same d (by omega)
      rwa [update_of_ne (by omega), update_of_ne (by omega)] at old
    refine ⟨same, fun d below => ?_, fun d d' deeper below => ?_, fun d i below inside => ?_,
      fun _ i inside => ?_, fun positive d below => ?_⟩
    · rcases Nat.lt_succ_iff_lt_or_eq.mp below with lower | rfl
      · exact (Nat.le_add_right ..).trans (behind d lower)
      · exact first.ge
    · rcases Nat.lt_succ_iff_lt_or_eq.mp below with lower | rfl
      · exact order d d' deeper lower
      · rw [(same d deeper).2, first]
        exact above d deeper
    · rcases Nat.lt_succ_iff_lt_or_eq.mp below with lower | rfl
      · exact covers d i lower inside
      · exact leaves (Nat.succ_pos d) i (by omega)
    · rw [Nat.add_sub_cancel, first, stop]
      omega
    · rcases Nat.lt_succ_iff_lt_or_eq.mp below with lower | rfl
      · exact some (by omega) d lower
      · omega

section Placed

variable {size depths : Nat} {starts ends : Nat → Nat} {words : Nat → BitVec 64}
  (placed : Placed size depths starts ends)

include placed

variable {depth ind : Nat}

/-- Writing a word of one depth leaves those of the others. -/
theorem Placed.update (words : Nat → BitVec 64) (inside : starts depth + ind < ends depth)
    (v : BitVec 64) : levelsOf starts ends (Function.update words (starts depth + ind) v) =
      write (levelsOf starts ends words) depth ind v := by
  funext d i
  by_cases same : d = depth
  · subst same
    rw [write_self]
    by_cases here : i = ind
    · rw [here, update_self, levelsOf, if_pos inside, update_self]
    · rw [update_of_ne here, levelsOf, levelsOf, update_of_ne (by omega)]
  · rw [write_of_ne _ _ same, levelsOf, levelsOf]
    split_ifs with there
    · refine update_of_ne ?_ _ _
      rcases lt_or_gt_of_ne same with lower | higher
      · have := placed.order depth d lower
        omega
      · have := placed.order d depth higher
        omega
    · rfl

/-- Setting a bit of the last depth sets the bits above it that must follow. -/
theorem Placed.setBitFrom_spec (depth offset : Nat) (within : depth ≤ depths)
    (inside : ∀ d, depth = d + 1 → starts d + offset / 64 < ends d)
    (consistent : Consistent (levelsOf starts ends words) depth) :
    Consistent (levelsOf starts ends (setBitFrom starts depth offset words)) depth ∧
      (∀ d, depth ≤ d →
        levelsOf starts ends (setBitFrom starts depth offset words) d =
        levelsOf starts ends words d) ∧
      ∀ d, depth = d + 1 → levelsOf starts ends (setBitFrom starts depth offset words) d =
        setAt (levelsOf starts ends words d) offset := by
  induction depth generalizing offset words with
  | zero => exact ⟨consistent, fun _ _ => rfl, fun d empty => by omega⟩
  | succ depth ih =>
    have here := inside depth rfl
    have word : words (starts depth + offset / 64) =
      levelsOf starts ends words depth (offset / 64) :=
      (if_pos here).symm
    have update := placed.update words here
      (levelsOf starts ends words depth (offset / 64) ||| 1#64 <<< (offset % 64))
    generalize former : levelsOf starts ends words = bits at *
    have written : write bits depth (offset / 64)
        (bits depth (offset / 64) ||| 1#64 <<< (offset % 64)) depth = setAt (bits depth) offset :=
      write_self ..
    have nonzero : bits depth (offset / 64) ||| 1#64 <<< (offset % 64) ≠ 0 := by
      intro zero
      have bit := getLsbD_one_shiftLeft (w := 64) (j := offset % 64) (mod_lt offset (by decide))
      have none := congrArg (fun v => v.getLsbD (offset % 64)) zero
      simp [bit] at none
    rw [setBitFrom, word]
    split
    · next some =>
      rw [update]
      refine ⟨(consistent.write_below _ _).succ fun d last => ?_,
        fun d above => write_of_ne _ _ (by omega), fun d last => ?_⟩
      · subst last
        rw [write_self, write_of_ne _ _ (by omega)]
        exact (consistent d (by omega)).update_same (iff_of_false nonzero some)
      · obtain rfl : depth = d := by omega
        exact written
    · next none =>
      obtain ⟨inner, above, last⟩ := ih (offset / 64) (by omega)
        (fun d deeper => placed.covers d _ (by omega) (deeper ▸ here))
        (by rw [update]; exact consistent.write_below (offset / 64) _)
      rw [update] at above last
      refine ⟨inner.succ fun d last' => ?_, fun d below => ?_, fun d last' => ?_⟩
      · subst last'
        rw [last d rfl, above (d + 1) le_rfl, write_self, write_of_ne _ _ (by omega)]
        exact (consistent d (by omega)).set (by decide) nonzero
      · rw [above d (by omega), write_of_ne _ _ (by omega)]
      · obtain rfl : depth = d := by omega
        rw [above depth le_rfl]
        exact written

private theorem Placed.clearWord_of {v : BitVec 64} (inside : starts depth + ind < ends depth)
    (clears : ∀ words', Consistent (levelsOf starts ends words') depth →
      Consistent (levelsOf starts ends (clearBitFrom starts depth ind words')) depth ∧
      (∀ d, depth ≤ d → levelsOf starts ends (clearBitFrom starts depth ind words') d =
        levelsOf starts ends words' d) ∧
      ∀ d, depth = d + 1 → levelsOf starts ends (clearBitFrom starts depth ind words') d =
        clearAt (levelsOf starts ends words' d) ind)
    (consistent : Consistent (levelsOf starts ends words) (depth + 1))
    (fewer : v ≠ 0 → levelsOf starts ends words depth ind ≠ 0) :
    let words' := if v ≠ 0 then Function.update words (starts depth + ind) v
      else clearBitFrom starts depth ind (Function.update words (starts depth + ind) v)
    Consistent (levelsOf starts ends words') (depth + 1) ∧
      (∀ d, depth < d → levelsOf starts ends words' d = levelsOf starts ends words d) ∧
      levelsOf starts ends words' depth =
      Function.update (levelsOf starts ends words depth) ind v := by
  have update := placed.update words inside v
  have below := consistent.write_below ind v
  dsimp only
  split
  · next some =>
    rw [update]
    refine ⟨below.succ fun d last => ?_, fun d above => write_of_ne _ _ (by omega), write_self ..⟩
    subst last
    rw [write_self, write_of_ne _ _ (by omega)]
    exact (consistent d (by omega)).update_same (iff_of_false some (fewer some))
  · next none =>
    obtain ⟨inner, above, here⟩ := clears _ (update ▸ below)
    rw [update] at above here
    obtain rfl := not_ne_iff.mp none
    refine ⟨inner.succ fun d last => ?_, fun d deeper => ?_, ?_⟩
    · subst last
      rw [here d rfl, above (d + 1) le_rfl, write_self, write_of_ne _ _ (by omega)]
      exact (consistent d (by omega)).clear (by decide) ind
    · rw [above d (by omega), write_of_ne _ _ (by omega)]
    · rw [above depth le_rfl, write_self]

/-- Clearing a bit of the last depth clears the bits above it that must follow. -/
theorem Placed.clearBitFrom_spec (depth offset : Nat) (words : Nat → BitVec 64)
    (within : depth ≤ depths)
    (inside : ∀ d, depth = d + 1 → starts d + offset / 64 < ends d)
    (consistent : Consistent (levelsOf starts ends words) depth) :
    Consistent (levelsOf starts ends (clearBitFrom starts depth offset words)) depth ∧
      (∀ d, depth ≤ d →
        levelsOf starts ends (clearBitFrom starts depth offset words) d =
        levelsOf starts ends words d) ∧
      ∀ d, depth = d + 1 → levelsOf starts ends (clearBitFrom starts depth offset words) d =
        clearAt (levelsOf starts ends words d) offset := by
  induction depth generalizing offset words with
  | zero => exact ⟨consistent, fun _ _ => rfl, fun d empty => by omega⟩
  | succ depth ih =>
    have there := inside depth rfl
    have word : words (starts depth + offset / 64) =
      levelsOf starts ends words depth (offset / 64) :=
      (if_pos there).symm
    obtain ⟨inner, above, here⟩ := placed.clearWord_of there
      (fun words' => ih (offset / 64) words' (by omega)
        fun d deeper => placed.covers d _ (by omega) (deeper ▸ there)) consistent
      (v := words (starts depth + offset / 64) &&& ~~~(1#64 <<< (offset % 64)))
      fun some none => some (by simp [word, none])
    refine ⟨inner, fun d deeper => above d deeper, fun d last => ?_⟩
    obtain rfl : depth = d := by omega
    rw [clearBitFrom]
    exact here.trans (by rw [word, clearAt])

/-- Replacing a word of the last depth by one with fewer bits, and clearing the
bits above it when none are left. -/
theorem Placed.clearWord_spec (v : BitVec 64) (below : depth < depths)
    (inside : starts depth + ind < ends depth)
    (consistent : Consistent (levelsOf starts ends words) (depth + 1))
    (fewer : v ≠ 0 → levelsOf starts ends words depth ind ≠ 0) :
    let words' := if v ≠ 0 then Function.update words (starts depth + ind) v
      else clearBitFrom starts depth ind (Function.update words (starts depth + ind) v)
    Consistent (levelsOf starts ends words') (depth + 1) ∧
      (∀ d, depth < d → levelsOf starts ends words' d = levelsOf starts ends words d) ∧
      levelsOf starts ends words' depth =
      Function.update (levelsOf starts ends words depth) ind v :=
  placed.clearWord_of inside (fun words' => placed.clearBitFrom_spec depth ind words' below.le
    fun d deeper => placed.covers d _ (by omega) (deeper ▸ inside)) consistent fewer

/-- Emptying words of the last depth. -/
theorem Placed.clearWords_spec {depth ind n : Nat} (below : depth < depths)
    (inside : ∀ k, k < ind + n → starts depth + k < ends depth)
    (consistent : Consistent (levelsOf starts ends words) (depth + 1)) :
    Consistent (levelsOf starts ends (clearWords starts depth ind n words)) (depth + 1) ∧
      ∀ k, levelsOf starts ends (clearWords starts depth ind n words) depth k =
        if ind ≤ k ∧ k < ind + n then 0 else levelsOf starts ends words depth k := by
  induction n generalizing ind words with
  | zero => exact ⟨consistent, fun k => by rw [clearWords, if_neg (by omega)]⟩
  | succ n ih =>
    obtain ⟨inner, -, here⟩ :=
      placed.clearWord_spec 0 below (inside ind (by omega)) consistent (absurd rfl)
    simp only [ne_eq, not_true_eq_false, if_false] at inner here
    have rest : ∀ k, k < ind + 1 + n → starts depth + k < ends depth := fun k before =>
      inside k (by omega)
    obtain ⟨kept, words⟩ := ih rest inner
    refine ⟨kept, fun k => ?_⟩
    rw [clearWords, words k, here]
    by_cases first : k = ind
    · subst first
      rw [if_neg (by omega), if_pos (by omega), update_self]
    · rw [update_of_ne first]
      congr 1
      simp only [eq_iff_iff]
      omega

end Placed

variable {words : Nat → BitVec 64}

/-- The words of a depth are full just when the words in their places are. -/
theorem wordsFull_levelsOf {starts ends : Nat → Nat} {depth ind n : Nat}
    (inside : ∀ k, k < ind + n → starts depth + k < ends depth) :
    wordsFull words (starts depth + ind) n =
      wordsFull (levelsOf starts ends words depth) ind n := by
  induction n generalizing ind with
  | zero => rfl
  | succ n ih =>
    rw [wordsFull, wordsFull, add_assoc, ih fun k before => inside k (by omega), levelsOf,
      if_pos (inside ind (by omega))]

/-! ## The bits of the blocks -/

theorem getRequiredDepth_pos (n : Nat) : 0 < getRequiredDepth n := by
  rw [getRequiredDepth]
  split <;> omega

/-- The required depth is the number of digits in base 64. -/
theorem lt_pow_getRequiredDepth (n : Nat) : n < 64 ^ getRequiredDepth n := by
  induction n using getRequiredDepth.induct with
  | case1 n small =>
    rw [getRequiredDepth, if_pos small]
    omega
  | case2 n large ih =>
    rw [getRequiredDepth, if_neg large, pow_succ]
    omega

theorem getRequiredDepth_le {n k : Nat} (positive : 0 < k) (small : n < 64 ^ k) :
    getRequiredDepth n ≤ k := by
  induction k generalizing n with
  | zero => exact absurd positive (Nat.lt_irrefl 0)
  | succ k ih =>
    rw [getRequiredDepth]
    split
    · omega
    · rcases Nat.eq_zero_or_pos k with rfl | more
      · omega
      · exact Nat.succ_le_succ (ih more (Nat.div_lt_of_lt_mul (by rwa [Nat.mul_comm, ← pow_succ])))

/-- The blocks whose bit is set. -/
def bitSet (size : Nat) (b : KPageBitmap) : Finset Nat :=
  (Finset.range size).filter fun i => b.leaf i

/-- The invariant of a bitmap over blocks below a size. One over no blocks is not written to. -/
structure WellFormed (size : Nat) (b : KPageBitmap) : Prop where
  depths : b.usedDepths = getRequiredDepth size
  placed : Placed size b.usedDepths b.bitStorages b.endStorages
  empty : size = 0 → ∀ i, b.storage i = 0
  consistent : Consistent b.level b.usedDepths
  inside : ∀ i, b.leaf i → i < size
  counted : b.numBits = (b.bitSet size).card

variable {size : Nat} {b : KPageBitmap}

theorem mem_bitSet {i : Nat} : i ∈ b.bitSet size ↔ i < size ∧ b.leaf i := by
  simp [bitSet]

theorem WellFormed.mem_bitSet_iff (wf : b.WellFormed size) {i : Nat} :
    i ∈ b.bitSet size ↔ b.leaf i :=
  mem_bitSet.trans ⟨And.right, fun set => ⟨wf.inside i set, set⟩⟩

/-- What the deepest level is after an operation decides everything else. -/
theorem WellFormed.of_leaf (wf : b.WellFormed size) {numBits : Nat} {s : Finset Nat}
    (some : 0 < size) (consistent : Consistent
    (levelsOf b.bitStorages b.endStorages words) b.usedDepths)
    (leaf : ∀ i, bitAt (levelsOf b.bitStorages b.endStorages words (b.usedDepths - 1)) i ↔ i ∈ s)
    (inside : ∀ i ∈ s, i < size) (counted : numBits = s.card) :
    WellFormed size { b with storage := words, numBits } ∧
      bitSet size { b with storage := words, numBits } = s := by
  have same : bitSet size { b with storage := words, numBits } = s := by
    ext i
    rw [mem_bitSet]
    exact ⟨fun both => (leaf i).mp both.2, fun member => ⟨inside i member, (leaf i).mpr member⟩⟩
  refine ⟨⟨wf.depths, wf.placed, fun none => absurd none some.ne', consistent,
    fun i set => inside i ((leaf i).mp set), ?_⟩, same⟩
  rw [same]
  exact counted

theorem initializeBitmap_wellFormed (rng : RandomBitGenerator) (size : Nat) :
    (initializeBitmap rng size).WellFormed size ∧ (initializeBitmap rng size).bitSet size = ∅ := by
  have zero (depth i : Nat) : (initializeBitmap rng size).level depth i = 0 := by
    rw [level, levelsOf]
    exact ite_self _
  have clear : ∀ i, (initializeBitmap rng size).leaf i = false := fun i => by
    simp [leaf, bitAt, zero]
  have empty : (initializeBitmap rng size).bitSet size = ∅ := by
    ext i
    simp [mem_bitSet, clear]
  have pointers : setPointers (getRequiredDepth size) 0 size (fun _ => 0) (fun _ => 0) =
      ((initializeBitmap rng size).bitStorages, (initializeBitmap rng size).endStorages) := rfl
  obtain ⟨same, -, order, covers, leaves, some⟩ :=
    setPointers_spec _ pointers fun _ _ => le_rfl
  have positive := getRequiredDepth_pos size
  refine ⟨⟨rfl, ⟨fun d d' deeper => ?_, covers, leaves positive,
    fun positive' => some positive' 0 positive⟩, fun _ _ => rfl, fun d _ i => ?_,
    fun i set => by simp [clear] at set, ?_⟩, empty⟩
  · rcases lt_or_ge d' (getRequiredDepth size) with below | above
    · exact order d d' deeper below
    · exact (same d (by omega)).2.le.trans (zero_le _)
  · simp [bitAt, zero]
  · rw [empty]
    rfl

section

variable (wf : b.WellFormed size)

include wf

theorem WellFormed.exists_depth : ∃ depth, b.usedDepths = depth + 1 :=
  exists_eq_succ_of_ne_zero (wf.depths ▸ (getRequiredDepth_pos size).ne')

/-- The word of a block is one of the deepest level. -/
theorem WellFormed.leaf_inside {offset : Nat} (inside : offset < size) :
    ∀ d, b.usedDepths = d + 1 → b.bitStorages d + offset / 64 < b.endStorages d := by
  intro d depths
  have there := wf.placed.leaves offset inside
  rwa [depths] at there

/-- `SetBit` on a clear bit. -/
theorem setBit_spec {offset : Nat} (inside : offset < size) (clear : offset ∉ b.bitSet size) :
    (b.setBit offset).WellFormed size ∧
      (b.setBit offset).bitSet size = insert offset (b.bitSet size) := by
  obtain ⟨depth, depths⟩ := wf.exists_depth
  obtain ⟨kept, -, here⟩ :=
    wf.placed.setBitFrom_spec b.usedDepths offset le_rfl (wf.leaf_inside inside) wf.consistent
  have last := here (b.usedDepths - 1) (by omega)
  refine wf.of_leaf (zero_lt_of_lt inside) kept (fun i => ?_) (fun i member => ?_) ?_
  · rw [last, bitAt_setAt (by decide), Bool.or_eq_true, decide_eq_true_iff, mem_insert,
      wf.mem_bitSet_iff]
    rfl
  · rcases mem_insert.mp member with rfl | member
    · exact inside
    · exact (mem_bitSet.mp member).1
  · rw [card_insert_of_notMem clear, ← wf.counted]

/-- `ClearBit` on a set bit. -/
theorem clearBit_spec {offset : Nat} (set : offset ∈ b.bitSet size) :
    (b.clearBit offset).WellFormed size ∧
      (b.clearBit offset).bitSet size = (b.bitSet size).erase offset := by
  have inside := (mem_bitSet.mp set).1
  obtain ⟨depth, depths⟩ := wf.exists_depth
  obtain ⟨kept, -, here⟩ :=
    wf.placed.clearBitFrom_spec b.usedDepths offset _ le_rfl (wf.leaf_inside inside) wf.consistent
  have last := here (b.usedDepths - 1) (by omega)
  refine wf.of_leaf (zero_lt_of_lt inside) kept (fun i => ?_) (fun i member => ?_) ?_
  · rw [last, bitAt_clearAt (by decide), Bool.and_eq_true, decide_eq_true_iff, mem_erase,
      wf.mem_bitSet_iff, and_comm]
    rfl
  · exact (mem_bitSet.mp (mem_of_mem_erase member)).1
  · rw [card_erase_of_mem set, ← wf.counted]

end

/-- The assertions of `ClearRange`: the range stays within one word, or is made of whole words. -/
def RangeAsserted (offset count : Nat) : Prop :=
  if count < 64 then offset % 64 + count ≤ 64 else offset % 64 = 0 ∧ count % 64 = 0

theorem wordsFull_iff (words : Nat → BitVec 64) (ind n : Nat) :
    wordsFull words ind n ↔ ∀ i, ind * 64 ≤ i → i < (ind + n) * 64 → bitAt words i := by
  induction n generalizing ind with
  | zero => simp [wordsFull]; omega
  | succ n ih =>
    simp only [wordsFull, Bool.and_eq_true, beq_iff_eq, ih,
      word_eq_allOnes_iff (show 0 < 64 by decide)]
    constructor
    · rintro ⟨first, rest⟩ i lower upper
      by_cases here : i / 64 = ind
      · exact first i here
      · exact rest i (by omega) (by omega)
    · intro all
      exact ⟨fun i here => all i (by omega) (by omega),
        fun i lower upper => all i (by omega) (by omega)⟩

variable {offset count : Nat}

theorem WellFormed.subset_bitSet_iff (wf : b.WellFormed size) :
    Finset.Ico offset (offset + count) ⊆ b.bitSet size ↔
      ∀ i, offset ≤ i → i < offset + count → b.leaf i := by
  simp only [subset_iff, mem_Ico, wf.mem_bitSet_iff, and_imp]

/-- What an operation that clears a range that is set has to establish. -/
theorem WellFormed.of_range_cleared (wf : b.WellFormed size)
    (some : 0 < size) (set : ∀ i, offset ≤ i → i < offset + count → b.leaf i)
    (consistent : Consistent (levelsOf b.bitStorages b.endStorages words) b.usedDepths)
    (leaf : ∀ i, bitAt (levelsOf b.bitStorages b.endStorages words (b.usedDepths - 1)) i =
      (b.leaf i && !decide (offset ≤ i ∧ i < offset + count))) :
    WellFormed size { b with storage := words, numBits := b.numBits - count } ∧
      bitSet size { b with storage := words, numBits := b.numBits - count } =
        b.bitSet size \ Finset.Ico offset (offset + count) := by
  refine wf.of_leaf some consistent (fun i => ?_) (fun i member => ?_) ?_
  · rw [leaf, mem_sdiff, wf.mem_bitSet_iff, mem_Ico, Bool.and_eq_true,
      Bool.not_eq_true', decide_eq_false_iff_not]
  · exact (mem_bitSet.mp (mem_sdiff.mp member).1).1
  · rw [card_sdiff_of_subset (wf.subset_bitSet_iff.mpr set), card_Ico, ← wf.counted,
      Nat.add_sub_cancel_left]

/-- `ClearRange` of a range of blocks clears it if it is set, and otherwise changes nothing. -/
theorem clearRange_spec (wf : b.WellFormed size)
    (asserted : RangeAsserted offset count) (first : offset < size) (last : offset + count ≤ size) :
    ((b.clearRange offset count).1 ↔ Finset.Ico offset (offset + count) ⊆ b.bitSet size) ∧
      (b.clearRange offset count).2.WellFormed size ∧ (b.clearRange offset count).2.bitSet size =
        if (b.clearRange offset count).1 then b.bitSet size \ Finset.Ico offset (offset + count)
        else b.bitSet size := by
  obtain ⟨depth, depths⟩ := wf.exists_depth
  have some := zero_lt_of_lt first
  have consistent := wf.consistent
  have here := wf.leaf_inside first depth depths
  have deepest : b.usedDepths - 1 = depth := by omega
  have leaf_eq : b.leaf = bitAt (b.level depth) := by
    funext i
    rw [leaf, deepest]
  rw [RangeAsserted] at asserted
  rw [clearRange, wf.subset_bitSet_iff]
  simp only [deepest]
  split at asserted
  · next small =>
    have covers := range_set_iff (show 0 < 64 by decide) (b.level depth) small asserted
    have word : b.storage (b.bitStorages depth + offset / 64) = b.level depth (offset / 64) :=
      (if_pos here).symm
    rw [if_pos small, leaf_eq, ← covers, word]
    split
    · next missing => exact ⟨iff_of_false (by simp) missing, wf, by simp⟩
    · next covered =>
      rw [not_ne_iff] at covered
      rw [depths] at consistent
      obtain ⟨kept, -, there⟩ := wf.placed.clearWord_spec
        (b.level depth (offset / 64) &&& ~~~(((1#64 <<< count) - 1#64) <<< (offset % 64)))
        (by omega) here consistent fun some none => some (by rw [← level] at none; simp [none])
      simp only [ne_eq, ite_not] at kept there
      refine ⟨iff_of_true rfl covered, ?_⟩
      refine wf.of_range_cleared some (leaf_eq ▸ covers.mp covered) (depths ▸ kept) fun i => ?_
      rw [leaf_eq, deepest, there]
      exact bitAt_clear_range (by decide) _ small asserted i
  · next large =>
    -- the range is made of whole words
    have start : offset / 64 * 64 = offset := by omega
    have stop : (offset / 64 + count / 64) * 64 = offset + count := by omega
    have inside (k : Nat) (before : k < offset / 64 + count / 64) :
        b.bitStorages depth + k < b.endStorages depth := by
      have final := wf.leaf_inside (show offset + count - 1 < size by omega) depth depths
      omega
    have full := wordsFull_iff (b.level depth) (offset / 64) (count / 64)
    rw [start, stop] at full
    rw [if_neg large, leaf_eq, ← full, wordsFull_levelsOf inside]
    split
    · next covered =>
      rw [depths] at consistent
      obtain ⟨kept, words⟩ := wf.placed.clearWords_spec (by omega) inside consistent
      refine ⟨iff_of_true rfl covered, ?_⟩
      refine wf.of_range_cleared some (leaf_eq ▸ full.mp covered) (depths ▸ kept) fun i => ?_
      have word : (offset / 64 ≤ i / 64 ∧ i / 64 < offset / 64 + count / 64) ↔
          offset ≤ i ∧ i < offset + count := by omega
      rw [leaf_eq, deepest, bitAt, words, if_congr word rfl rfl, bitAt]
      split
      · next inRange => simp [inRange]
      · next outside => simp [outside, level]
    · next missing => exact ⟨iff_of_false (by simp) missing, wf, by simp⟩

theorem clearRange_failed (failed : (b.clearRange offset count).1 = false) :
    (b.clearRange offset count).2 = b := by
  rw [clearRange] at failed ⊢
  dsimp only at failed ⊢
  split at failed
  · split at failed
    · next small missing => rw [if_pos small, if_pos missing]
    · cases failed
  · split at failed
    · cases failed
    · next large missing => rw [if_neg large, if_neg missing]

end SumiEmu.Kernel.KPageBitmap
