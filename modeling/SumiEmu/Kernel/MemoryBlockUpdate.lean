/-
# What an update does to the blocks

The shared loop of the update functions acts in two moves: it cuts blocks at
the two ends of the range, at most one cut at each, and replaces every block it
does not skip by its changed self. Coalescing then joins neighbours.
Cuts and joins change nothing that the blocks denote, so everything about an
update is read off the replacement in the middle.
-/

import Mathlib.Data.List.TakeWhile
import SumiEmu.Kernel.MemoryBlockReading
import SumiEmu.Kernel.MemoryBlockManager

namespace SumiEmu.Kernel

open Tiling Fallible List
open KMemoryBlockManagerUpdateAllocator (maxBlocks)

namespace KMemoryBlockManager

open KMemoryBlock

/-- The blocks tile an interval of addresses. -/
abbrev BlocksTile (s : Nat) (blocks : List KMemoryBlock) (e : Nat) : Prop :=
  Tiles KMemoryBlock.address KMemoryBlock.endAddress s blocks e

variable {b : KMemoryBlock}

theorem aligned_of_tiles {s e : Nat} {blocks : List KMemoryBlock} (tiles : BlocksTile s blocks e)
    (start : pageSize ∣ s) (member : b ∈ blocks) :
    pageSize ∣ b.address ∧ pageSize ∣ b.endAddress := by
  induction blocks generalizing s with
  | nil => simp at member
  | cons c blocks ih =>
    obtain ⟨rfl, -, rest⟩ := tiles
    have stop : pageSize ∣ c.endAddress := Nat.dvd_add start (Dvd.intro_left _ rfl)
    rcases mem_cons.mp member with rfl | member
    · exact ⟨start, stop⟩
    · exact ih rest stop member

/-! ## The loop -/

section Loop

variable (skip : KMemoryBlock → Bool) (visit : KMemoryBlock → KMemoryBlock) (start stop : Nat)

variable (b : KMemoryBlock)

/-- Whether a block has a page in the range. -/
def meets : Bool := start < stop && start < b.endAddress && b.address < stop

/-- The effect of an update on a block: it is changed if it has a page in the
range and is not skipped. -/
def touch : KMemoryBlock :=
  if meets start stop b && !skip b then visit b else b

/-- The part of a block inside the range, as the loop cuts it out. -/
def trim : KMemoryBlock :=
  let b := if b.address < start then (b.split start).2 else b
  if stop < b.endAddress then (b.split stop).1 else b

/-- Every piece the loop changes lies inside the range and is cut out of one of
the blocks. -/
def Fits (blocks pieces : List KMemoryBlock) : Prop :=
  ∀ p ∈ pieces, meets start stop p → skip p = false →
    start ≤ p.address ∧ p.endAddress ≤ stop ∧ ∃ b ∈ blocks, meets start stop b ∧
    p = trim start stop b

variable {skip visit start stop}
variable {b : KMemoryBlock}

theorem touch_eq_self
    (outside : b.endAddress ≤ start ∨ stop ≤ b.address ∨ stop ≤ start ∨ skip b) :
    touch skip visit start stop b = b := by
  refine if_neg ?_
  simp only [meets, Bool.and_eq_true, decide_eq_true_eq, Bool.not_eq_true']
  rintro ⟨⟨⟨_, _⟩, _⟩, skipped⟩
  rcases outside with _ | _ | _ | skips
  · omega
  · omega
  · omega
  · simp [skips] at skipped

theorem touch_eq_visit (nonempty : start < stop) (lower : start < b.endAddress)
    (upper : b.address < stop) (visited : skip b = false) :
    touch skip visit start stop b = visit b :=
  if_pos (by simp [meets, nonempty, lower, upper, visited])

theorem map_touch_eq_self {blocks : List KMemoryBlock}
    (outside : ∀ b ∈ blocks, b.endAddress ≤ start ∨ stop ≤ b.address ∨ stop ≤ start) :
    blocks.map (touch skip visit start stop) = blocks := by
  refine (map_congr_left fun b member => ?_).trans (map_id _)
  exact touch_eq_self (by have := outside b member; tauto)

variable {it : KMemoryBlock}

theorem splitAfter_fits {remainingSize : Nat}
    (allocator : KMemoryBlockManagerUpdateAllocator) (fits : it.size ≤ remainingSize) :
    splitAfter it remainingSize allocator = .ok (it, none, allocator) :=
  if_neg (by omega)

variable {allocator : KMemoryBlockManagerUpdateAllocator}

theorem splitAfter_exceeds {remainingSize : Nat}
    (exceeds : remainingSize < it.size) (room : allocator.index < maxBlocks) :
    splitAfter it remainingSize allocator =
      .ok ((it.split (it.address + remainingSize)).1,
        some (it.split (it.address + remainingSize)).2, ⟨allocator.index + 1⟩) := by
  simp [splitAfter, exceeds, KMemoryBlockManagerUpdateAllocator.allocate, room]

variable {rest : List KMemoryBlock}

/-- A skipped block is stepped over, or ends the loop when it covers the rest of the range. -/
theorem updateLoop_skipped {curAddress n : Nat}
    (skips : skip it) (last : curAddress + (n + 1) * pageSize = stop) :
    updateLoop skip visit (it :: rest) curAddress (n + 1) allocator =
      if stop < it.endAddress then .ok (it :: rest, allocator)
      else do
        let (rest, allocator) ← updateLoop skip visit rest it.endAddress
          ((stop - it.endAddress) / pageSize) allocator
        return (it :: rest, allocator) := by
  rw [updateLoop, if_pos skips, last]
  rfl

/-- A block the loop changes is first cut at the start of the range, and the
loop goes on with its second half. -/
theorem updateLoop_split_first {n : Nat} (visited : skip b = false)
    (skip_split : skip (b.split start).2 = skip b) (lower : b.address < start)
    (room : allocator.index < maxBlocks) :
    updateLoop skip visit (b :: rest) start (n + 1) allocator = do
      let (rest, allocator) ← updateLoop skip visit ((b.split start).2 :: rest) start (n + 1)
        ⟨allocator.index + 1⟩
      return ((b.split start).1 :: rest, allocator) := by
  have second : (b.split start).2.address = start := rfl
  rw [updateLoop, updateLoop]
  simp only [visited, skip_split, Bool.false_eq_true, if_false]
  simp only [splitBefore, lower.ne, second, ne_eq, not_false_eq_true, not_true, if_true, if_false,
    KMemoryBlockManagerUpdateAllocator.allocate, room]
  simp only [ok_bind, pure_eq_ok]
  rcases splitAfter (b.split start).2 ((n + 1) * pageSize) ⟨allocator.index + 1⟩
    with fault | ⟨it, _ | after, allocator'⟩
  · rfl
  · simp only [ok_bind]
    cases updateLoop skip visit rest (it.address + it.size) (n + 1 - it.numPages) allocator' <;> rfl
  · rfl

@[simp] theorem split_snd_address (x : Nat) : (b.split x).2.address = x := rfl

theorem meets_iff :
    meets start stop b ↔ start < stop ∧ start < b.endAddress ∧ b.address < stop := by
  simp [meets, and_assoc]

theorem trim_of_after (after : start ≤ b.address) :
    trim start stop b = if stop < b.endAddress then (b.split stop).1 else b := by
  simp [trim, after.not_gt]

theorem trim_split (lower : b.address < start) :
    trim start stop (b.split start).2 = trim start stop b := by
  simp [trim, lower]

variable {blocks pieces : List KMemoryBlock}

theorem fits_cons {b p : KMemoryBlock}
    (first : meets start stop p → skip p = false → start ≤ p.address ∧ p.endAddress ≤ stop ∧
      meets start stop b ∧ p = trim start stop b) (rest : Fits skip start stop blocks pieces) :
    Fits skip start stop (b :: blocks) (p :: pieces) := by
  refine forall_mem_cons.mpr ⟨fun met visited => ?_, fun q member met visited => ?_⟩
  · obtain ⟨lower, upper, source⟩ := first met visited
    exact ⟨lower, upper, b, mem_cons_self, source⟩
  · obtain ⟨lower, upper, c, source, equal⟩ := rest q member met visited
    exact ⟨lower, upper, c, mem_cons_of_mem _ source, equal⟩

/-- Blocks before the range fit. -/
theorem Fits.append_left {l₁ blocks pieces : List KMemoryBlock}
    (fits : Fits skip start stop blocks pieces) (before : ∀ b ∈ l₁, b.endAddress ≤ start) :
    Fits skip start stop (l₁ ++ blocks) (l₁ ++ pieces) := by
  intro p member met visited
  rcases mem_append.mp member with passed | member
  · exact absurd (meets_iff.mp met).2.1 (before p passed).not_gt
  · obtain ⟨lower, upper, b, source, equal⟩ := fits p member met visited
    exact ⟨lower, upper, b, mem_append_right _ source, equal⟩

/-- Blocks outside the range and skipped ones fit. -/
theorem fits_of_unchanged
    (unchanged : ∀ p ∈ pieces, stop ≤ p.address ∨ p.endAddress ≤ start ∨ skip p) :
    Fits skip start stop blocks pieces := by
  intro p member met visited
  obtain ⟨-, lower, upper⟩ := meets_iff.mp met
  rcases unchanged p member with after | before | skips
  · omega
  · omega
  · simp [visited] at skips

/-- The loop from the first page of a block on. It needs at most one new block. -/
theorem updateLoop_aligned (visit : KMemoryBlock → KMemoryBlock) {blocks : List KMemoryBlock}
    {s e n : Nat} (tiles : BlocksTile s blocks e)
    (aligned : pageSize ∣ s) (after : start ≤ s) (last : s + n * pageSize = stop)
    (inside : stop ≤ e)
    (skip_split : ∀ b x, skip (b.split x).1 = skip b)
    (room : allocator.index < maxBlocks) :
    ∃ pieces allocator', updateLoop skip visit blocks s n allocator =
        .ok (pieces.map (touch skip visit start stop), allocator') ∧
      Splits (fun x => x = stop) blocks pieces ∧ Fits skip start stop blocks pieces := by
  induction blocks generalizing s n with
  | nil =>
    obtain rfl : n = 0 := by simp only [tiles_nil, pageSize_eq] at *; omega
    exact ⟨[], allocator, by rw [updateLoop]; rfl, .refl, fits_of_unchanged (by simp)⟩
  | cons it rest ih =>
    have stopAligned : pageSize ∣ stop := last ▸ Nat.dvd_add aligned (Dvd.intro_left _ rfl)
    have endAligned := (aligned_of_tiles tiles aligned mem_cons_self).2
    have bounds := fun b member => (tiles.bounds (a := b) member).1
    obtain ⟨first, proper, restTiles⟩ := tiles
    have restBounds := fun b member => (restTiles.bounds (a := b) member).1
    rcases n with _ | n
    · have behind : ∀ b ∈ it :: rest, stop ≤ b.address := fun b member => by
        have := bounds b member
        omega
      refine ⟨it :: rest, allocator, ?_, .refl,
        fits_of_unchanged fun b member => .inl (behind b member)⟩
      rw [updateLoop, map_touch_eq_self fun b member => .inr (.inl (behind b member))]
      rfl
    · have nonempty : s < stop := by simp only [pageSize_eq] at *; omega
      cases skips : skip it with
      | true =>
        have keeps : touch skip visit start stop it = it :=
          touch_eq_self (.inr (.inr (.inr skips)))
        rw [updateLoop_skipped skips last]
        split
        · next covers =>
          have behind : ∀ b ∈ rest, stop ≤ b.address := fun b member =>
            covers.le.trans (restBounds b member)
          refine ⟨it :: rest, allocator, ?_, .refl, fits_of_unchanged ?_⟩
          · rw [map_cons, keeps,
              map_touch_eq_self fun b member => .inr (.inl (behind b member))]
          · exact forall_mem_cons.mpr ⟨.inr (.inr skips), fun b member => .inl (behind b member)⟩
        · next short =>
          obtain ⟨pieces, allocator', run, splits, fits⟩ := ih restTiles endAligned
            (after.trans proper.le) (n := (stop - it.endAddress) / pageSize)
            (by rw [Nat.div_mul_cancel (Nat.dvd_sub stopAligned endAligned)]; omega)
          refine ⟨it :: pieces, allocator', ?_, splits.cons it, fits_cons (by simp [skips]) fits⟩
          rw [run, map_cons, keeps]
          rfl
      | false =>
        have extent : it.endAddress = it.address + it.numPages * pageSize := rfl
        have met : meets start stop it := meets_iff.mpr (by omega)
        rw [updateLoop]
        simp only [skips, Bool.false_eq_true, if_false, splitBefore, first, ne_eq,
          not_true_eq_false, pure_eq_ok, ok_bind, nil_append]
        rcases le_or_gt it.endAddress stop with short | covers
        · obtain ⟨pieces, allocator', run, splits, fits⟩ := ih restTiles endAligned
            (after.trans proper.le) (n := n + 1 - it.numPages)
            (by simp only [pageSize_eq] at *; omega)
          refine ⟨it :: pieces, allocator', ?_, splits.cons it,
            fits_cons (fun _ _ => ⟨by omega, short, met, ?_⟩) fits⟩
          · have changed : touch skip visit start stop it = visit it :=
              touch_eq_visit (by omega) (by omega) (by omega) skips
            rw [splitAfter_fits allocator (by simp only [size]; omega)]
            simp only [ok_bind]
            rw [show it.address + it.size = it.endAddress from rfl, run, map_cons, changed]
            rfl
          · rw [trim_of_after (by omega), if_neg (by omega)]
        · have whole : it.address + (n + 1) * pageSize = stop := by omega
          have behind : ∀ b ∈ (it.split stop).2 :: rest, stop ≤ b.address :=
            forall_mem_cons.mpr ⟨le_rfl, fun b member => covers.le.trans (restBounds b member)⟩
          have cut := isCut_split (first ▸ aligned) stopAligned (by omega) covers
          have changed : touch skip visit start stop (it.split stop).1 = visit (it.split stop).1 :=
            touch_eq_visit (by omega) ((after.trans_lt nonempty).trans_eq cut.meet.symm)
              (first.trans_lt nonempty) (by rw [skip_split, skips])
          refine ⟨(it.split stop).1 :: (it.split stop).2 :: rest, ⟨allocator.index + 1⟩, ?_,
            .single (.here (first ▸ aligned) stopAligned (by omega) covers rfl),
            fits_cons (fun _ _ => ⟨?_, cut.meet.le, met, ?_⟩)
            (fits_of_unchanged fun b member => .inl (behind b member))⟩
          · rw [splitAfter_exceeds (by simp only [size]; omega) room, whole]
            simp only [ok_bind]
            rw [map_cons, changed,
              map_touch_eq_self fun b member => .inr (.inl (behind b member))]
          · exact after.trans_eq first.symm
          · rw [trim_of_after (by omega), if_pos covers]

/-- The loop from a block that the range starts inside of. When it changes that
block it cuts it first, and may need two new blocks. -/
theorem updateLoop_within (visit : KMemoryBlock → KMemoryBlock)
    {e n : Nat} (tiles : BlocksTile b.address (b :: rest) e)
    (aligned : pageSize ∣ b.address) (startAligned : pageSize ∣ start)
    (lower : b.address < start) (upper : start < b.endAddress)
    (last : start + n * pageSize = stop) (inside : stop ≤ e)
    (skip_split : ∀ b x, skip (b.split x).1 = skip b ∧ skip (b.split x).2 = skip b)
    (room : allocator.index + 1 < maxBlocks) :
    ∃ p pieces allocator', updateLoop skip visit (b :: rest) start n allocator =
        .ok ((p :: pieces).map (touch skip visit start stop), allocator') ∧
      Splits (fun x => x = start ∨ x = stop) (b :: rest) (p :: pieces) ∧
      Fits skip start stop (b :: rest) (p :: pieces) ∧ touch skip visit start stop p = p ∧
      (if n = 0 ∨ skip b then p = b else p = (b.split start).1) := by
  have whole := tiles
  obtain ⟨-, -, restTiles⟩ := tiles
  have endAligned := (aligned_of_tiles whole aligned mem_cons_self).2
  have restBounds := fun c member => (restTiles.bounds (a := c) member).1
  rcases n with _ | n
  · have empty : ∀ c ∈ b :: rest, c.endAddress ≤ start ∨ stop ≤ c.address ∨ stop ≤ start :=
      fun _ _ => by omega
    refine ⟨b, rest, allocator, ?_, .refl, ?_, touch_eq_self (by omega), by simp⟩
    · rw [updateLoop, map_touch_eq_self empty]
      rfl
    · exact fun p _ met => by have := meets_iff.mp met; omega
  · have stopAligned : pageSize ∣ stop := last ▸ Nat.dvd_add startAligned (Dvd.intro_left _ rfl)
    cases skips : skip b with
    | true =>
      have keeps : touch skip visit start stop b = b := touch_eq_self (.inr (.inr (.inr skips)))
      rw [updateLoop_skipped skips last]
      split
      · next covers =>
        have behind : ∀ c ∈ rest, stop ≤ c.address := fun c member =>
          covers.le.trans (restBounds c member)
        refine ⟨b, rest, allocator, ?_, .refl, fits_of_unchanged ?_, keeps, by simp⟩
        · rw [map_cons, keeps,
            map_touch_eq_self fun c member => .inr (.inl (behind c member))]
        · exact forall_mem_cons.mpr ⟨.inr (.inr skips), fun c member => .inl (behind c member)⟩
      · next short =>
        obtain ⟨pieces, allocator', run, splits, fits⟩ := updateLoop_aligned visit
          restTiles endAligned upper.le (n := (stop - b.endAddress) / pageSize)
          (by rw [Nat.div_mul_cancel (Nat.dvd_sub stopAligned endAligned)]; omega) inside
          (fun c x => (skip_split c x).1) (by omega : allocator.index < maxBlocks)
        refine ⟨b, pieces, allocator', ?_, (splits.mono fun _ => .inr).cons b,
          fits_cons (by simp [skips]) fits, keeps, by simp⟩
        rw [run, map_cons, keeps]
        rfl
    | false =>
      have cut := isCut_split aligned startAligned lower upper
      have secondTiles : BlocksTile start ((b.split start).2 :: rest) e := by
        refine ⟨rfl, cut.proper_right, ?_⟩
        rw [show (b.split start).2.endAddress = b.endAddress from cut.hi_right]
        exact restTiles
      have keeps : touch skip visit start stop (b.split start).1 = (b.split start).1 :=
        touch_eq_self (.inl cut.meet.le)
      obtain ⟨pieces, allocator', run, splits, fits⟩ := updateLoop_aligned visit
        secondTiles startAligned le_rfl last inside (fun c x => (skip_split c x).1)
        (show (⟨allocator.index + 1⟩ : KMemoryBlockManagerUpdateAllocator).index < maxBlocks
          from room)
      rw [updateLoop_split_first skips (skip_split b start).2 lower (by omega), run]
      refine ⟨(b.split start).1, pieces, allocator', ?_, ?_, ?_, keeps, by simp⟩
      · rw [map_cons, keeps]
        rfl
      · exact .head (.here aligned startAligned lower upper (.inl rfl))
          ((splits.mono fun _ => .inr).cons _)
      · refine forall_mem_cons.mpr ⟨fun met => ?_, fun p member met visited => ?_⟩
        · exact absurd (meets_iff.mp met).2.1 (not_lt.mpr cut.meet.le)
        · obtain ⟨inLower, inUpper, c, source, equal⟩ := fits p member met visited
          refine ⟨inLower, inUpper, ?_⟩
          rcases mem_cons.mp source with rfl | source
          · rw [trim_split lower] at equal
            have inRange := (meets_iff.mp equal.1).1
            refine ⟨b, mem_cons_self, meets_iff.mpr ⟨inRange, upper, by omega⟩, equal.2⟩
          · exact ⟨c, mem_cons_of_mem _ source, equal⟩

end Loop

/-! ## Coalescing -/

section Coalesce

variable {blocks : List KMemoryBlock}

theorem coalesceLoop_joins {stop s e : Nat} {prev : KMemoryBlock}
    (allocator : KMemoryBlockManagerUpdateAllocator) (tiles : BlocksTile s (prev :: blocks) e) :
    Joins (prev :: blocks) (coalesceLoop stop prev blocks allocator).1 := by
  induction blocks generalizing prev s allocator with
  | nil => exact .refl
  | cons it rest ih =>
    obtain ⟨first, proper, meet, properNext, restTiles⟩ := tiles
    rw [coalesceLoop]
    split
    · next merges =>
      have step : JoinStep (prev :: it :: rest) (prev.add it :: rest) :=
        .here merges (first ▸ proper) (meet ▸ properNext) meet.symm
      split
      · exact .single step
      · have extent := add_endAddress meet.symm
        exact .head step (ih (s := s) allocator.free
          ⟨first, by omega, extent ▸ restTiles⟩)
    · split
      · exact .refl
      · exact Joins.append_left [prev] (ih allocator ⟨meet, properNext, restTiles⟩)

/-- Behind the range nothing is left to separate. -/
theorem separated_of_after {stop s e : Nat} {b : KMemoryBlock}
    (tiles : BlocksTile s (b :: blocks) e) (after : stop < b.endAddress)
    (separated : bitReading.SeparatedOff (fun x => x ≤ stop) (b :: blocks)) :
    (b :: blocks).IsChain bitReading.Separated := by
  induction blocks generalizing b s with
  | nil => exact .singleton _
  | cons c rest ih =>
    obtain ⟨here, there⟩ := isChain_cons_cons.mp separated
    have tail := tiles.2.2
    exact .cons_cons (here.resolve_right after.not_ge) (ih tail (after.trans tail.2.1) there)

/-- From a list that is separated behind the range, the loop makes one that is
separated everywhere. What it puts first looks like the old first block from before. -/
theorem coalesceLoop_separated {stop s e : Nat} {prev : KMemoryBlock}
    (allocator : KMemoryBlockManagerUpdateAllocator) (tiles : BlocksTile s (prev :: blocks) e)
    (separated : bitReading.SeparatedOff (fun x => x ≤ stop) (prev :: blocks)) :
    ∃ b l, (coalesceLoop stop prev blocks allocator).1 = b :: l ∧
      b.pageInfo = prev.pageInfo ∧ b.leftBits = prev.leftBits ∧
      (b :: l).IsChain bitReading.Separated := by
  induction blocks generalizing prev s allocator with
  | nil => exact ⟨prev, [], rfl, rfl, rfl, .singleton _⟩
  | cons it rest ih =>
    obtain ⟨first, proper, meet, properNext, restTiles⟩ := tiles
    obtain ⟨here, there⟩ := isChain_cons_cons.mp separated
    rw [coalesceLoop]
    split
    · next merges =>
      have cut := isCut_add merges (first ▸ proper) (meet ▸ properNext) meet.symm
      have extent := add_endAddress meet.symm
      have joinedTiles : BlocksTile s (prev.add it :: rest) e :=
        ⟨first, by omega, extent ▸ restTiles⟩
      have joined : bitReading.SeparatedOff (fun x => x ≤ stop) (prev.add it :: rest) := by
        refine List.IsChain.cons_of_imp (fun c => ?_) there
        rw [show bitReading.hi (prev.add it) = bitReading.hi it from extent]
        exact Or.imp_left (Reading.Separated.congr cut.value_right cut.right_outer rfl rfl).mp
      split
      · next after =>
        exact ⟨_, _, rfl, rfl, cut.left_outer.symm, separated_of_after joinedTiles after joined⟩
      · obtain ⟨b, l, result, value, left, chain⟩ := ih allocator.free
          joinedTiles joined
        exact ⟨b, l, result, value, left.trans cut.left_outer.symm, chain⟩
    · next apart =>
      have here := separated_iff.mpr (Bool.not_eq_true _ ▸ apart)
      have itTiles : BlocksTile prev.endAddress (it :: rest) e := ⟨meet, properNext, restTiles⟩
      split
      · next after =>
        exact ⟨_, _, rfl, rfl, rfl, .cons_cons here (separated_of_after itTiles after there)⟩
      · obtain ⟨b, l, result, value, left, chain⟩ := ih allocator itTiles there
        refine ⟨prev, b :: l, by simp only [result], rfl, rfl, .cons_cons ?_ chain⟩
        exact (Reading.Separated.congr rfl rfl value left).mpr here

end Coalesce

/-! ## Finding a block -/

theorem found_iff {address : Nat} (proper : b.address < b.endAddress) :
    found address b ↔ b.address ≤ address ∧ address < b.endAddress := by
  simp only [found, KMemoryBlock.compare, initializeBlock, lastAddress, beq_iff_eq]
  rcases lt_or_ge address b.address with before | start
  · simp [before, before.not_ge]
  · rcases lt_or_ge address b.endAddress with inside | behind
    · simp [start, start.not_gt, inside, show address ≤ b.endAddress - 1 by omega]
    · simp [start.not_gt, behind.not_gt, show ¬ address ≤ b.endAddress - 1 by omega]

variable {m : KMemoryBlockManager}

theorem beforeIterator_of_cover {s e address : Nat}
    {l₁ l₂ : List KMemoryBlock} (split : m.blocks = l₁ ++ b :: l₂)
    (tiles : BlocksTile s m.blocks e) (before : ∀ c ∈ l₁, c.endAddress ≤ address)
    (lower : b.address ≤ address) (upper : address < b.endAddress) :
    m.beforeIterator address = l₁ ∧ m.findIterator address = b :: l₂ := by
  have proper := fun c (member : c ∈ m.blocks) => (tiles.bounds member).2.1
  have passed : ∀ c ∈ l₁, !found address c := by
    intro c member
    have inside : c ∈ m.blocks := by simp [split, member]
    rw [Bool.not_eq_true', ← Bool.not_eq_true, found_iff (proper c inside)]
    exact fun covers => covers.2.not_ge (before c member)
  have stops : found address b := (found_iff (proper b (by simp [split]))).mpr ⟨lower, upper⟩
  constructor
  · rw [beforeIterator, split, takeWhile_append_of_pos passed]
    simp [stops]
  · rw [findIterator, split, dropWhile_append_of_pos passed]
    simp [stops]

theorem findIterator_past {s : Nat} {address : Nat} (tiles : BlocksTile s m.blocks address) :
    m.beforeIterator address = m.blocks ∧ m.findIterator address = [] := by
  have passed : ∀ c ∈ m.blocks, !found address c := by
    intro c member
    obtain ⟨-, proper, upper⟩ := tiles.bounds member
    rw [Bool.not_eq_true', ← Bool.not_eq_true, found_iff proper]
    exact fun covers => covers.2.not_ge upper
  exact ⟨takeWhile_eq_self_iff.mpr passed, dropWhile_eq_nil_iff.mpr passed⟩

/-! ## An update as a whole -/

/-- Whether an address is strictly inside the first block. -/
def insideFirst (address : Nat) : List KMemoryBlock → Bool
  | [] => false
  | b :: _ => b.address < address && address < b.endAddress

/-- What lies before the range stays separated from what coalescing puts behind it. -/
theorem append_separated {S : Nat → Prop} {l₀ rest l : List KMemoryBlock} {prev b : KMemoryBlock}
    (separated : bitReading.SeparatedOff S (l₀ ++ prev :: rest))
    (clear : ∀ c ∈ l₀, ¬ S c.endAddress) (value : b.pageInfo = prev.pageInfo)
    (left : b.leftBits = prev.leftBits) (chain : (b :: l).IsChain bitReading.Separated) :
    (l₀ ++ b :: l).IsChain bitReading.Separated := by
  obtain ⟨before, -, joint⟩ := isChain_append.mp separated
  refine isChain_append.mpr ⟨before.imp_of_mem_imp fun c d here _ apart => ?_, chain, ?_⟩
  · exact apart.resolve_right (clear c here)
  · intro c last d head
    obtain rfl : b = d := by simpa using head
    have apart := joint c last prev (by simp)
    exact (Reading.Separated.congr rfl rfl value left).mpr
      (apart.resolve_right (clear c (mem_of_getLast? last)))

/-- Coalescing steps off the tree when the range begins inside the first block
or at the end of the managed space. Otherwise it merges neighbours, until none
that can be merged are left in or next to the range. -/
theorem coalesceForUpdate_spec
    (allocator : KMemoryBlockManagerUpdateAllocator) {address : Nat} (numPages : Nat)
    (tiles : BlocksTile m.startAddress m.blocks m.endAddress)
    (lower : m.startAddress ≤ address) (upper : address ≤ m.endAddress) :
    if insideFirst address m.blocks ∨ address = m.endAddress then
      m.coalesceForUpdate allocator address numPages = .error .nullIterator
    else ∃ blocks allocator',
      m.coalesceForUpdate allocator address numPages =
      .ok ({ m with blocks := blocks }, allocator') ∧ Joins m.blocks blocks ∧
      (bitReading.SeparatedOff (fun x => address ≤ x ∧ x ≤ address + numPages * pageSize) m.blocks →
      blocks.IsChain bitReading.Separated) := by
  rcases upper.lt_or_eq with upper | rfl
  swap
  · obtain ⟨-, past⟩ := findIterator_past tiles
    rw [if_pos (.inr rfl), coalesceForUpdate, past]
  obtain ⟨l₁, b, l₂, split, start, stop, before⟩ := tiles.exists_cover lower upper
  obtain ⟨beforeEq, findEq⟩ := beforeIterator_of_cover split tiles before start stop
  rw [coalesceForUpdate, beforeEq, findEq]
  rw [split] at tiles ⊢
  have behindStart : bitReading.SeparatedOff
      (fun x => address ≤ x ∧ x ≤ address + numPages * pageSize) m.blocks →
      bitReading.SeparatedOff (fun x => x ≤ address + numPages * pageSize) m.blocks :=
    List.IsChain.imp fun _ _ => Or.imp_right And.right
  have split' := split
  rcases eq_nil_or_concat l₁ with rfl | ⟨l₀, prev, rfl⟩
  · have first : b.address = m.startAddress := tiles.1
    by_cases atStart : address = m.startAddress
    · subst atStart
      rw [if_neg (by simp [insideFirst]; omega)]
      refine ⟨_, _, by simp only [if_true]; rfl, coalesceLoop_joins allocator tiles,
        fun separated => ?_⟩
      obtain ⟨c, l, result, -, -, chain⟩ := coalesceLoop_separated allocator tiles
        (split' ▸ behindStart (split' ▸ separated))
      exact result ▸ chain
    · rw [if_pos (.inl (by simp [insideFirst]; omega))]
      simp [atStart]
  · rw [concat_eq_append] at *
    rw [append_assoc, singleton_append] at tiles split' ⊢
    obtain ⟨s, beforeTiles, prevTiles⟩ := tiles_append.mp tiles
    have prevBounds := prevTiles.bounds mem_cons_self
    have prevBefore := before prev (by simp)
    have notStart : address ≠ m.startAddress := by have := beforeTiles.le; omega
    have notInside : insideFirst address (l₀ ++ prev :: b :: l₂) = false := by
      rcases l₀ with _ | ⟨c, l₀⟩
      · simp [insideFirst]; omega
      · have := before c (by simp)
        simp [insideFirst]; omega
    rw [if_neg (by simp [notInside]; omega)]
    refine ⟨_, _, by simp only [notStart, if_false, getLast?_concat]; rfl, ?_, fun separated => ?_⟩
    · rw [dropLast_concat]
      exact (coalesceLoop_joins allocator prevTiles).append_left l₀
    · have behind := behindStart (split' ▸ separated)
      rw [split'] at behind
      obtain ⟨c, l, result, value, left, chain⟩ := coalesceLoop_separated
        allocator prevTiles behind.right_of_append
      rw [dropLast_concat, result]
      refine append_separated separated (fun d member => ?_) value left chain
      have := (beforeTiles.bounds member).2.2
      omega

section Update

variable (skip : KMemoryBlock → Bool) (visit : KMemoryBlock → KMemoryBlock)

/-- Whether an update steps an iterator off the tree: it begins at the end of
the managed space, or inside the first block, which it then leaves in one piece. -/
def stepsOff (m : KMemoryBlockManager) (address numPages : Nat) : Bool :=
  address == m.endAddress ||
    insideFirst address m.blocks && (numPages == 0 || m.blocks.head?.any skip)

/-- What an update that completes has done: blocks were cut at the ends of the
range, those in the range that are not skipped were changed, and neighbours
were merged. -/
structure Updated (m : KMemoryBlockManager) (address numPages : Nat) (pieces : List KMemoryBlock)
    (m' : KMemoryBlockManager) : Prop where
  startAddress : m'.startAddress = m.startAddress
  endAddress : m'.endAddress = m.endAddress
  splits : Splits (fun x => x = address ∨ x = address + numPages * pageSize) m.blocks pieces
  fits : Fits skip address (address + numPages * pageSize) m.blocks pieces
  joins : Joins (pieces.map (touch skip visit address (address + numPages * pageSize))) m'.blocks
  separated : m.blocks.IsChain bitReading.Separated → m'.blocks.IsChain bitReading.Separated

variable {skip visit}

theorem touch_extent (skip : KMemoryBlock → Bool) (start stop : Nat) (b : KMemoryBlock)
    (extent : ∀ b, (visit b).address = b.address ∧ (visit b).endAddress = b.endAddress) :
    (touch skip visit start stop b).address = b.address ∧
      (touch skip visit start stop b).endAddress = b.endAddress := by
  rw [touch]
  split
  · exact extent b
  · exact ⟨rfl, rfl⟩

theorem tiles_map_touch (skip : KMemoryBlock → Bool) (start stop : Nat) {s e : Nat}
    {blocks : List KMemoryBlock}
    (extent : ∀ b, (visit b).address = b.address ∧ (visit b).endAddress = b.endAddress)
    (tiles : BlocksTile s blocks e) :
    BlocksTile s (blocks.map (touch skip visit start stop)) e :=
  tiles.map _ fun b _ => touch_extent skip start stop b extent

variable {pieces : List KMemoryBlock}

section

variable {m m' : KMemoryBlockManager} {address numPages : Nat}
  (updated : Updated skip visit m address numPages pieces m')

include updated

/-- A completed update leaves a tiling of the managed space. -/
theorem Updated.tiles
    (extent : ∀ b, (visit b).address = b.address ∧ (visit b).endAddress = b.endAddress)
    (tiles : BlocksTile m.startAddress m.blocks m.endAddress) :
    BlocksTile m'.startAddress m'.blocks m'.endAddress := by
  rw [updated.startAddress, updated.endAddress]
  refine (updated.joins.cuts.tiles_iff _ _).mpr (tiles_map_touch _ _ _ extent ?_)
  exact (updated.splits.cuts.tiles_iff _ _).mp tiles

/-- What splitting, changing and joining keep, an update keeps. -/
theorem Updated.forall_mem {P : KMemoryBlock → Prop}
    (halves : ∀ b x, P b → P (b.split x).1 ∧ P (b.split x).2) (changed : ∀ b, P b → P (visit b))
    (sum : ∀ b c, P b → P c → P (b.add c)) (all : ∀ b ∈ m.blocks, P b) : ∀ b ∈ m'.blocks, P b := by
  refine updated.joins.forall_mem sum fun q touched => ?_
  obtain ⟨p, member, rfl⟩ := mem_map.mp touched
  have piece := updated.splits.forall_mem halves all p member
  rw [touch]
  split
  · exact changed p piece
  · exact piece

end

theorem insideFirst_eq_false_of_tiles {s e address : Nat} {blocks : List KMemoryBlock}
    (before : address ≤ s) (tiles : BlocksTile s blocks e) :
    insideFirst address blocks = false := by
  cases blocks with
  | nil => rfl
  | cons b rest =>
    have first := tiles.1
    simp [insideFirst]
    omega

theorem insideFirst_append {l₁ l₂ : List KMemoryBlock} {address : Nat}
    (before : ∀ b ∈ l₁, b.endAddress ≤ address) :
    insideFirst address (l₁ ++ l₂) = (l₁.isEmpty && insideFirst address l₂) := by
  cases l₁ with
  | nil => rfl
  | cons b l₁ =>
    have := before b mem_cons_self
    simp [insideFirst]
    omega

theorem touch_eq_self_of_fits {start stop : Nat} {blocks pieces : List KMemoryBlock}
    (fits : Fits skip start stop blocks pieces) {p : KMemoryBlock} (member : p ∈ pieces)
    (outside : p.address < start ∨ stop < p.endAddress) : touch skip visit start stop p = p := by
  refine if_neg fun changed => ?_
  simp only [Bool.and_eq_true, Bool.not_eq_true'] at changed
  obtain ⟨lower, upper, -⟩ := fits p member changed.1 changed.2
  omega

/-- Neighbours away from the range are as separated as before. -/
theorem separatedOff_map_touch {start stop s e : Nat} (tiles : BlocksTile s pieces e)
    (extent : ∀ b, (visit b).address = b.address ∧ (visit b).endAddress = b.endAddress)
    (outside : ∀ p ∈ pieces, p.address < start ∨ stop < p.endAddress →
      touch skip visit start stop p = p)
    (separated : bitReading.SeparatedOff (fun x => start ≤ x ∧ x ≤ stop) pieces) :
    bitReading.SeparatedOff (fun x => start ≤ x ∧ x ≤ stop)
      (pieces.map (touch skip visit start stop)) := by
  induction pieces generalizing s with
  | nil => exact .nil
  | cons b rest ih =>
    cases rest with
    | nil => exact .singleton _
    | cons c rest =>
      obtain ⟨first, proper, tail⟩ := tiles
      obtain ⟨here, there⟩ := isChain_cons_cons.mp separated
      have kept := forall_mem_cons.mp outside
      refine .cons_cons ?_ (ih tail kept.2 there)
      have extentB := (touch_extent skip start stop b extent).2
      have meet := tail.1
      have properC := tail.2.1
      by_cases inRange : start ≤ b.endAddress ∧ b.endAddress ≤ stop
      · exact .inr (by simpa only [extentB] using inRange)
      · rw [kept.1 (by omega), kept.2 c mem_cons_self (by omega)]
        exact here

/-- The loop from the block that holds the start of the range. -/
theorem updateLoop_spec {b : KMemoryBlock} {rest : List KMemoryBlock} {start stop e n : Nat}
    (allocator : KMemoryBlockManagerUpdateAllocator) (tiles : BlocksTile b.address (b :: rest) e)
    (aligned : pageSize ∣ b.address) (startAligned : pageSize ∣ start)
    (lower : b.address ≤ start) (upper : start < b.endAddress)
    (last : start + n * pageSize = stop) (inside : stop ≤ e)
    (skip_split : ∀ b x, skip (b.split x).1 = skip b ∧ skip (b.split x).2 = skip b)
    (extent : ∀ b, (visit b).address = b.address ∧ (visit b).endAddress = b.endAddress)
    (room : allocator.index + 1 < maxBlocks) :
    ∃ pieces allocator', updateLoop skip visit (b :: rest) start n allocator =
        .ok (pieces.map (touch skip visit start stop), allocator') ∧
      Splits (fun x => x = start ∨ x = stop) (b :: rest) pieces ∧
      Fits skip start stop (b :: rest) pieces ∧
      insideFirst start (pieces.map (touch skip visit start stop)) =
        (b.address < start && (n == 0 || skip b)) := by
  rcases lower.eq_or_lt with atStart | lower
  · obtain ⟨pieces, allocator', run, splits, fits⟩ := updateLoop_aligned visit
      (atStart ▸ tiles) startAligned le_rfl last inside (fun c x => (skip_split c x).1)
      (by omega : allocator.index < maxBlocks)
    refine ⟨pieces, allocator', run, splits.mono fun _ => .inr, fits, ?_⟩
    have piecesTile := tiles_map_touch skip start stop extent
      ((splits.cuts.tiles_iff _ _).mp (atStart ▸ tiles))
    rw [insideFirst_eq_false_of_tiles le_rfl piecesTile]
    simp [atStart]
  · obtain ⟨p, pieces, allocator', run, splits, fits, keeps, first⟩ := updateLoop_within
      visit tiles aligned startAligned lower upper last inside skip_split room
    refine ⟨p :: pieces, allocator', run, splits, fits, ?_⟩
    have start' := (isCut_split aligned startAligned lower upper).meet
    rw [map_cons, keeps, insideFirst]
    split at first
    · next whole => simp [first, lower, upper, whole]
    · next splits =>
      obtain ⟨positive, visited⟩ := not_or.mp splits
      simp [first, show (b.split start).1.endAddress = start from start', positive, visited]

/-- The four update functions on a well-formed tree: one call either steps off
the tree or completes, and never runs out of blocks. -/
theorem updateBlocks_spec {m : KMemoryBlockManager} {address numPages : Nat}
    (tiles : BlocksTile m.startAddress m.blocks m.endAddress) (aligned : pageSize ∣ m.startAddress)
    (addressAligned : pageSize ∣ address) (lower : m.startAddress ≤ address)
    (upper : address + numPages * pageSize ≤ m.endAddress)
    (skip_split : ∀ b x, skip (b.split x).1 = skip b ∧ skip (b.split x).2 = skip b)
    (extent : ∀ b, (visit b).address = b.address ∧ (visit b).endAddress = b.endAddress) :
    if stepsOff skip m address numPages then
      updateBlocks skip visit m {} address numPages = .error .nullIterator
    else ∃ m' allocator pieces,
      updateBlocks skip visit m {} address numPages = .ok (m', allocator) ∧
        Updated skip visit m address numPages pieces m' := by
  rcases (Nat.le_of_add_right_le upper).lt_or_eq with inside | rfl
  swap
  · obtain rfl : numPages = 0 := by simp only [pageSize_eq] at upper; omega
    obtain ⟨past, rest⟩ := findIterator_past tiles
    rw [if_pos (by simp [stepsOff]), updateBlocks, rest, updateLoop]
    simp only [pure_eq_ok, ok_bind, past, append_nil]
    have spec := coalesceForUpdate_spec {} 0 tiles lower le_rfl
    rwa [if_pos (.inr rfl)] at spec
  obtain ⟨l₁, b, l₂, split, start, stop, before⟩ := tiles.exists_cover lower inside
  obtain ⟨beforeEq, findEq⟩ := beforeIterator_of_cover split tiles before start stop
  have bAligned := (aligned_of_tiles tiles aligned (b := b) (by simp [split])).1
  have tiles' := tiles
  rw [split] at tiles'
  obtain ⟨s, beforeTiles, tail⟩ := tiles_append.mp tiles'
  obtain ⟨pieces, allocator, run, splits, fits, first⟩ := updateLoop_spec {}
    (tail.1 ▸ tail) bAligned addressAligned start stop rfl upper skip_split extent
    (by decide)
  have wholeSplits := splits.append_left l₁
  have wholeMap : l₁ ++ pieces.map (touch skip visit address (address + numPages * pageSize)) =
      (l₁ ++ pieces).map (touch skip visit address (address + numPages * pageSize)) := by
    rw [map_append, map_touch_eq_self fun c member => .inl (before c member)]
  have piecesTile := (wholeSplits.cuts.tiles_iff _ _).mp tiles'
  have wholeFits : Fits skip address (address + numPages * pageSize) m.blocks (l₁ ++ pieces) :=
    split ▸ fits.append_left before
  have spec := coalesceForUpdate_spec allocator numPages
    (m := ⟨l₁ ++ pieces.map (touch skip visit address (address + numPages * pageSize)),
      m.startAddress, m.endAddress⟩)
    (wholeMap ▸ tiles_map_touch _ _ _ extent piecesTile) lower inside.le
  have same : (insideFirst address (l₁ ++ pieces.map (touch skip visit address
      (address + numPages * pageSize))) = true ∨ address = m.endAddress) ↔
      stepsOff skip m address numPages := by
    rw [insideFirst_append before, first, stepsOff, split, insideFirst_append before]
    cases l₁ with
    | nil => simp [insideFirst, stop, inside.ne]
    | cons c l₁ => simp [inside.ne]
  rw [updateBlocks, findEq, run]
  simp only [ok_bind, beforeEq]
  simp only [same] at spec
  split
  · next off => rwa [if_pos off] at spec
  · next on =>
    rw [if_neg on] at spec
    obtain ⟨blocks, allocator', result, joins, separated⟩ := spec
    refine ⟨_, allocator', l₁ ++ pieces, result, rfl, rfl, split ▸ wholeSplits, wholeFits,
      wholeMap ▸ joins, fun chain => separated ?_⟩
    rw [wholeMap]
    refine separatedOff_map_touch piecesTile extent
      (fun p => touch_eq_self_of_fits wholeFits) ?_
    refine (cuts_bitReading wholeSplits.cuts).separatedOff (fun x => ?_)
      (split ▸ chain.imp fun _ _ => .inl)
    rintro (rfl | rfl) <;> omega

end Update

end KMemoryBlockManager

end SumiEmu.Kernel
