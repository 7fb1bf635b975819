/-
# The contiguity queries of the GPU's page tables

A range is contiguous when each of its bytes translates to the translation of the first plus its
distance from it. The queries find the contiguous ranges of the addresses that a block transfer
visits. These are the translated ones unless a small page is mapped below a reserved big page.
-/

import SumiEmu.VideoCore.MemoryManagerQueries

namespace SumiEmu.VideoCore.MemoryManager

open List Nat

variable {g : Geometry} {m : MemoryManager} {target target' : Nat → Option Nat}

/-! ## Contiguous ranges -/

/-- Every byte of a range is mapped, and as far from the first one as in the range. -/
def ContiguousOn (target : Nat → Option Nat) (start size : Nat) : Prop :=
  ∀ i < size, ∃ d, target start = some d ∧ target (start + i) = some (d + i)

theorem ContiguousOn.mono {start size less : Nat} (contiguous : ContiguousOn target start size)
    (le : less ≤ size) : ContiguousOn target start less :=
  fun i below => contiguous i (lt_of_lt_of_le below le)

/-- Where the next device address is expected after a part of a range. -/
def expected (target : Nat → Option Nat) (start a : Nat) : Option Nat :=
  if a = start then none else (target start).map (· + (a - start))

/-- A contiguous range goes on with a piece that does not break off. -/
theorem ContiguousOn.extend {start a n d : Nat} (later : start ≤ a)
    (contiguous : ContiguousOn target start (a - start)) (positive : 0 < n)
    (piece : ∀ i < n, target (a + i) = some (d + i))
    (joins : ¬ breaksOff (expected target start a) d) :
    ContiguousOn target start (a + n - start) ∧
      expected target start (a + n) = some (d + n) := by
  have first := piece 0 positive
  rw [add_zero, add_zero] at first
  have origin : ∃ e, target start = some e ∧ e + (a - start) = d := by
    by_cases same : a = start
    · exact ⟨d, by rw [← same, first], by omega⟩
    · obtain ⟨e, found, -⟩ := contiguous 0 (by omega)
      refine ⟨e, found, ?_⟩
      by_contra other
      apply joins
      rw [expected, if_neg same, found]
      exact ⟨by simp, by simpa using other⟩
  obtain ⟨e, found, place⟩ := origin
  constructor
  · intro i below
    by_cases old : i < a - start
    · exact contiguous i old
    · refine ⟨e, found, ?_⟩
      have new := piece (start + i - a) (by omega)
      rw [show a + (start + i - a) = start + i by omega] at new
      rw [new]
      congr 1
      omega
  · rw [expected, if_neg (by omega), found]
    simp only [Option.map_some, Option.some.injEq]
    omega

/-- A piece that breaks off, or that is not mapped, is no part of a contiguous range. -/
theorem not_contiguousOn_of_breaksOff {start a d size : Nat} (later : start ≤ a)
    (inside : a < start + size) (first : target a = some d)
    (breaks : breaksOff (expected target start a) d) : ¬ ContiguousOn target start size := by
  intro contiguous
  obtain ⟨e, found, there⟩ := contiguous (a - start) (by omega)
  rw [Nat.add_sub_cancel' later, first] at there
  obtain ⟨some, other⟩ := breaks
  rw [expected] at some other
  split at some
  · exact some rfl
  · next moved =>
    rw [if_neg moved, found] at other
    exact other there.symm

theorem not_contiguousOn_of_none {start a size : Nat} (later : start ≤ a)
    (inside : a < start + size) (gap : target a = none) : ¬ ContiguousOn target start size := by
  intro contiguous
  obtain ⟨e, -, there⟩ := contiguous (a - start) (by omega)
  rw [Nat.add_sub_cancel' later, gap] at there
  cases there

variable {address size a n : Nat}

theorem PieceOf.first {found : Nat → Option Nat}
    (piece : PieceOf g m address size a n found) : blockAddress g m a = found 0 :=
  piece.found 0 piece.positive

/-! ## The range as a whole -/

/-- What `IsContinuousRange` knows at the address that is reached. -/
structure ContiguousUpTo (g : Geometry) (m : MemoryManager) (address a : Nat)
    (oldPageAddr : Option Nat) : Prop where
  old : oldPageAddr = expected (blockAddress g m) address a
  contiguous : ContiguousOn (blockAddress g m) address (a - address)

theorem contiguousUpTo_start (g : Geometry) (m : MemoryManager) (address : Nat) :
    ContiguousUpTo g m address address none where
  old := by rw [expected, if_pos rfl]
  contiguous i below := by omega

/-- A piece that is mapped goes on, or breaks off and ends every contiguous range. -/
theorem ContiguousUpTo.piece {address size a n d : Nat} {oldPageAddr : Option Nat}
    (upTo : ContiguousUpTo g m address a oldPageAddr)
    (piece : PieceOf g m address size a n (fun i => some (d + i))) :
    (¬ breaksOff oldPageAddr d → ContiguousUpTo g m address (a + n) (some (d + n))) ∧
      (breaksOff oldPageAddr d →
        ¬ ContiguousOn (blockAddress g m) address (a - address + 1)) := by
  rw [upTo.old]
  constructor
  · intro joins
    obtain ⟨contiguous, next⟩ :=
      upTo.contiguous.extend piece.later piece.positive piece.found joins
    exact ⟨next.symm, contiguous⟩
  · intro breaks
    have later := piece.later
    exact not_contiguousOn_of_breaksOff later (by omega) piece.first breaks

theorem PieceOf.not_contiguousOn (piece : PieceOf g m address size a n (fun _ => none)) :
    ¬ ContiguousOn (blockAddress g m) address (a - address + 1) := by
  have later := piece.later
  exact not_contiguousOn_of_none later (by omega) piece.first

theorem PieceOf.short_le {found : Nat → Option Nat}
    (piece : PieceOf g m address size a n found) : a - address + 1 ≤ size := by
  obtain ⟨positive, later, inside, -⟩ := piece
  omega

/-- What `IsContinuousRange` knows at an address. -/
structure Continuity.Reached (g : Geometry) (m : MemoryManager) (address a : Nat)
    (state : Continuity) : Prop where
  result : state.result = true
  upTo : ContiguousUpTo g m address a state.oldPageAddr

/-- The walk has met a break. -/
structure Continuity.Stopped (g : Geometry) (m : MemoryManager) (address size : Nat)
    (state : Continuity) : Prop where
  result : state.result = false
  broken : ¬ ContiguousOn (blockAddress g m) address size

section Continuity

variable {address size a n d : Nat} {state : Continuity}

theorem Continuity.Reached.check (reached : Continuity.Reached g m address a state)
    (piece : PieceOf g m address size a n (fun i => some (d + i))) :
    Ends (Continuity.Reached g m address (a + n)) (Continuity.Stopped g m address size)
      (state.check d n) := by
  obtain ⟨goesOn, breaks⟩ := reached.upTo.piece piece
  unfold Continuity.check
  split
  · next off => exact ⟨rfl, fun whole => breaks off (whole.mono piece.short_le)⟩
  · next joins => exact ⟨reached.result, goesOn joins⟩

theorem Continuity.Reached.fail (_ : Continuity.Reached g m address a state)
    (piece : PieceOf g m address size a n (fun _ => none)) (pageIndex offset : Nat) :
    Ends (Continuity.Reached g m address (a + n)) (Continuity.Stopped g m address size)
      (Continuity.fail pageIndex offset n state) :=
  ⟨rfl, fun whole => piece.not_contiguousOn (whole.mono piece.short_le)⟩

theorem Continuity.settle_ends
    (known : Continuity.Reached g m address a state ∨ Continuity.Stopped g m address size state) :
    Ends (Continuity.Reached g m address a) (Continuity.Stopped g m address size)
      state.settle := by
  unfold Continuity.settle
  rcases known with known | known
  · rw [known.result]
    exact known
  · rw [known.result]
    exact known

end Continuity

/-- `IsContinuousRange` decides whether the range is contiguous. -/
theorem isContinuousRange_iff (g : Geometry) (m : MemoryManager) (address size : Nat) :
    m.isContinuousRange g address size = true ↔ ContiguousOn (blockAddress g m) address size := by
  have walked := query_rule (Continuity.Reached g m address) (Continuity.Stopped g m address size)
    (Continuity.Stopped g m address size) Continuity.Reached.check Continuity.Reached.check
    Continuity.Reached.fail
    (fun reached piece pageIndex offset =>
      ⟨reached.fail piece pageIndex offset, reached.fail piece pageIndex offset⟩)
    Continuity.settle_ends (⟨rfl, contiguousUpTo_start g m address⟩ :
      Continuity.Reached g m address address ⟨none, true⟩) rfl
  unfold isContinuousRange
  rcases walked with reached | stopped
  · have whole := reached.upTo.contiguous
    rw [Nat.add_sub_cancel_left] at whole
    exact iff_of_true reached.result whole
  · exact iff_of_false (fun answered => Bool.noConfusion (stopped.result.symm.trans answered))
      stopped.broken

/-! ## The longest contiguous beginning -/

/-- The longest beginning of a range that is contiguous. -/
def IsLongest (target : Nat → Option Nat) (address size length : Nat) : Prop :=
  IsGreatest {k | k ≤ size ∧ ContiguousOn target address k} length

/-- What `MaxContinuousRange` knows at an address. -/
structure Extent.Reached (g : Geometry) (m : MemoryManager) (address a : Nat) (state : Extent) :
    Prop where
  result : state.result = false
  rangeSoFar : address + state.rangeSoFar = a
  upTo : ContiguousUpTo g m address a state.oldPageAddr

def Extent.Stopped (g : Geometry) (m : MemoryManager) (address size : Nat) (state : Extent) :
    Prop :=
  IsLongest (blockAddress g m) address size state.rangeSoFar

/-- The walk over small pages takes a note of its stop. -/
structure Extent.Noted (g : Geometry) (m : MemoryManager) (address size : Nat) (state : Extent) :
    Prop where
  result : state.result = true
  stopped : state.Stopped g m address size

section Extent

variable {address size a n d : Nat} {state : Extent}

/-- The range so far is the longest when it cannot grow. -/
theorem Extent.Reached.stop (reached : Extent.Reached g m address a state)
    (inside : a < address + size)
    (broken : ¬ ContiguousOn (blockAddress g m) address (a - address + 1)) :
    state.Stopped g m address size := by
  have length : a - address = state.rangeSoFar := by
    rw [← reached.rangeSoFar, Nat.add_sub_cancel_left]
  have contiguous := reached.upTo.contiguous
  have start := reached.rangeSoFar
  rw [length] at contiguous broken
  refine ⟨⟨by omega, contiguous⟩, ?_⟩
  rintro k ⟨-, longer⟩
  by_contra more
  exact broken (longer.mono (by omega))

theorem PieceOf.lt_end {found : Nat → Option Nat}
    (piece : PieceOf g m address size a n found) : a < address + size := by
  obtain ⟨positive, later, inside, -⟩ := piece
  omega

section

variable (reached : Extent.Reached g m address a state)

include reached

section

variable (piece : PieceOf g m address size a n (fun i => some (d + i)))

include piece

theorem Extent.Reached.extend (joins : ¬ breaksOff state.oldPageAddr d) :
    Extent.Reached g m address (a + n) (state.extend d n) where
  result := reached.result
  rangeSoFar := by
    rw [← reached.rangeSoFar]
    exact (add_assoc ..).symm
  upTo := (reached.upTo.piece piece).1 joins

theorem Extent.Reached.bigCheck :
    Ends (Extent.Reached g m address (a + n)) (Extent.Stopped g m address size)
      (state.bigCheck d n) := by
  unfold Extent.bigCheck
  split
  · next off => exact reached.stop piece.lt_end ((reached.upTo.piece piece).2 off)
  · next joins => exact reached.extend piece joins

theorem Extent.Reached.shortCheck :
    Ends (Extent.Reached g m address (a + n)) (Extent.Noted g m address size)
      (state.shortCheck d n) := by
  unfold Extent.shortCheck
  split
  · next off => exact ⟨rfl, reached.stop piece.lt_end ((reached.upTo.piece piece).2 off)⟩
  · next joins => exact reached.extend piece joins

end

theorem Extent.Reached.fail
    (piece : PieceOf g m address size a n (fun _ => none)) (pageIndex offset : Nat) :
    Ends (Extent.Reached g m address (a + n)) (Extent.Noted g m address size)
      (Extent.fail pageIndex offset n state) :=
  ⟨rfl, reached.stop piece.lt_end piece.not_contiguousOn⟩

theorem Extent.Reached.bigFail
    (piece : PieceOf g m address size a n (fun _ => none)) (pageIndex offset : Nat) :
    Ends (Extent.Reached g m address (a + n)) (Extent.Stopped g m address size)
      (Extent.fail pageIndex offset n state) :=
  reached.stop piece.lt_end piece.not_contiguousOn

end

theorem Extent.settle_ends
    (known : Extent.Reached g m address a state ∨ Extent.Noted g m address size state) :
    Ends (Extent.Reached g m address a) (Extent.Stopped g m address size) state.settle := by
  unfold Extent.settle
  rcases known with known | known
  · rw [known.result]
    exact known
  · rw [known.result]
    exact known.stopped

end Extent

/-- `MaxContinuousRange` finds the longest contiguous beginning. -/
theorem maxContinuousRange_isLongest (g : Geometry) (m : MemoryManager) (address size : Nat) :
    IsLongest (blockAddress g m) address size (m.maxContinuousRange g address size) := by
  have walked := query_rule (Extent.Reached g m address) (Extent.Noted g m address size)
    (Extent.Stopped g m address size) Extent.Reached.bigCheck Extent.Reached.shortCheck
    Extent.Reached.bigFail
    (fun reached piece pageIndex offset =>
      ⟨reached.fail piece pageIndex offset, reached.fail piece pageIndex offset⟩)
    Extent.settle_ends (⟨rfl, rfl, contiguousUpTo_start g m address⟩ :
      Extent.Reached g m address address ⟨none, 0, false⟩) rfl
  unfold maxContinuousRange
  rcases walked with reached | stopped
  · have whole := reached.upTo.contiguous
    rw [Nat.add_sub_cancel_left] at whole
    rw [add_left_cancel reached.rangeSoFar]
    exact ⟨⟨le_rfl, whole⟩, fun k shorter => shorter.1⟩
  · exact stopped

/-! ## The mapped segments -/

/-- Two segments follow each other in the range and in the memory. -/
def JoinsOn (target : Nat → Option Nat) (first second : Nat × Nat) : Prop :=
  first.1 + first.2 = second.1 ∧ ∃ d, target first.1 = some d ∧ target second.1 = some (d + first.2)

/-- The segments are the mapped bytes from one address to another, in order, and neighbours cannot
be joined. -/
structure ListsMapped (target : Nat → Option Nat) (start stop : Nat)
    (segments : List (Nat × Nat)) : Prop where
  positive : ∀ segment ∈ segments, 0 < segment.2
  covers : ∀ a, (∃ segment ∈ segments, segment.1 ≤ a ∧ a < segment.1 + segment.2) ↔
    start ≤ a ∧ a < stop ∧ (target a).isSome = true
  ordered : segments.Pairwise fun first second => first.1 + first.2 ≤ second.1
  contiguous : ∀ segment ∈ segments, ContiguousOn target segment.1 segment.2
  maximal : segments.IsChain fun first second => ¬ JoinsOn target first second

section ListsMapped

variable {start a n d : Nat} {segments : List (Nat × Nat)}

theorem listsMapped_nil (target : Nat → Option Nat) (start : Nat) :
    ListsMapped target start start [] := by
  refine ⟨by simp, fun a => ?_, List.Pairwise.nil, by simp, List.IsChain.nil⟩
  simp
  omega

section

variable (lists : ListsMapped target start a segments)

include lists

/-- Every segment ends in the part that is listed. -/
theorem ListsMapped.ends {segment : Nat × Nat}
    (member : segment ∈ segments) : start ≤ segment.1 ∧ segment.1 + segment.2 ≤ a := by
  have positive := lists.positive segment member
  have first := (lists.covers segment.1).1 ⟨segment, member, by omega, by omega⟩
  have last := (lists.covers (segment.1 + segment.2 - 1)).1 ⟨segment, member, by omega, by omega⟩
  omega

/-- Bytes that are not mapped add nothing. -/
theorem ListsMapped.gap
    (gap : ∀ i < n, target (a + i) = none) : ListsMapped target start (a + n) segments where
  positive := lists.positive
  ordered := lists.ordered
  contiguous := lists.contiguous
  maximal := lists.maximal
  covers x := by
    rw [lists.covers x]
    constructor
    · rintro ⟨lower, upper, mapped⟩
      exact ⟨lower, by omega, mapped⟩
    · rintro ⟨lower, upper, mapped⟩
      refine ⟨lower, ?_, mapped⟩
      by_contra past
      have none := gap (x - a) (by omega)
      rw [show a + (x - a) = x by omega] at none
      rw [none] at mapped
      cases mapped

/-- A contiguous piece is a segment of its own when it does not join the last one. -/
theorem ListsMapped.append (later : start ≤ a)
    (positive : 0 < n) (piece : ∀ i < n, target (a + i) = some (d + i))
    (apart : ∀ last ∈ segments.getLast?, ¬ JoinsOn target last (a, n)) :
    ListsMapped target start (a + n) (segments ++ [(a, n)]) := by
  have first := piece 0 positive
  rw [add_zero, add_zero] at first
  refine ⟨?_, fun x => ?_, ?_, ?_, ?_⟩
  · intro segment member
    rcases mem_append.1 member with old | new
    · exact lists.positive segment old
    · rw [mem_singleton.1 new]
      exact positive
  · simp only [mem_append, mem_singleton, or_and_right, exists_or, exists_eq_left]
    rw [lists.covers x]
    constructor
    · rintro (⟨lower, upper, mapped⟩ | ⟨lower, upper⟩)
      · exact ⟨lower, by omega, mapped⟩
      · have there := piece (x - a) (by omega)
        rw [show a + (x - a) = x by omega] at there
        exact ⟨by omega, upper, by rw [there]; rfl⟩
    · rintro ⟨lower, upper, mapped⟩
      by_cases old : x < a
      · exact .inl ⟨lower, old, mapped⟩
      · exact .inr ⟨by omega, upper⟩
  · rw [pairwise_append]
    refine ⟨lists.ordered, pairwise_singleton _ _, fun segment member other new => ?_⟩
    rw [mem_singleton.1 new]
    exact (lists.ends member).2
  · intro segment member
    rcases mem_append.1 member with old | new
    · exact lists.contiguous segment old
    · rw [mem_singleton.1 new]
      exact fun i below => ⟨d, first, piece i below⟩
  · rw [isChain_append]
    refine ⟨lists.maximal, isChain_singleton _, fun last member other new => ?_⟩
    obtain rfl : (a, n) = other := by simpa using new
    exact apart last member

end

/-- A contiguous piece that joins the last segment makes it longer. -/
theorem ListsMapped.grow {base size e : Nat}
    (lists : ListsMapped target start a (segments ++ [(base, size)])) (next : base + size = a)
    (found : target base = some e) (joins : e + size = d)
    (piece : ∀ i < n, target (a + i) = some (d + i)) :
    ListsMapped target start (a + n) (segments ++ [(base, size + n)]) := by
  have last : (base, size) ∈ segments ++ [(base, size)] := mem_append_right _ (by simp)
  have old {segment : Nat × Nat} (member : segment ∈ segments) :
      segment ∈ segments ++ [(base, size)] := mem_append_left _ member
  have positive := lists.positive _ last
  have later := (lists.ends last).1
  have ordered := pairwise_append.1 lists.ordered
  have maximal := isChain_append.1 lists.maximal
  refine ⟨?_, fun x => ?_, ?_, ?_, ?_⟩
  · intro segment member
    rcases mem_append.1 member with inside | new
    · exact lists.positive segment (old inside)
    · rw [mem_singleton.1 new]
      exact Nat.add_pos_left positive n
  · have covers := lists.covers x
    simp only [mem_append, mem_singleton, or_and_right, exists_or, exists_eq_left]
      at covers ⊢
    constructor
    · rintro (inside | ⟨lower, upper⟩)
      · obtain ⟨lower, upper, mapped⟩ := covers.1 (.inl inside)
        exact ⟨lower, by omega, mapped⟩
      · by_cases before : x < a
        · obtain ⟨lower, upper, mapped⟩ := covers.1 (.inr ⟨lower, by omega⟩)
          exact ⟨lower, by omega, mapped⟩
        · have there := piece (x - a) (by omega)
          rw [show a + (x - a) = x by omega] at there
          exact ⟨by omega, by omega, by rw [there]; rfl⟩
    · rintro ⟨lower, upper, mapped⟩
      by_cases before : x < a
      · rcases covers.2 ⟨lower, before, mapped⟩ with inside | ⟨lower, upper⟩
        · exact .inl inside
        · exact .inr ⟨lower, by omega⟩
      · exact .inr ⟨by omega, by omega⟩
  · refine pairwise_append.2 ⟨ordered.1, pairwise_singleton _ _, ?_⟩
    intro segment member other new
    rw [mem_singleton.1 new]
    exact ordered.2.2 segment member (base, size) (mem_singleton_self _)
  · intro segment member
    rcases mem_append.1 member with inside | new
    · exact lists.contiguous segment (old inside)
    · rw [mem_singleton.1 new]
      intro i below
      by_cases before : i < size
      · exact lists.contiguous _ last i before
      · have there := piece (base + i - a) (by dsimp only at below; omega)
        rw [show a + (base + i - a) = base + i by omega] at there
        refine ⟨e, found, ?_⟩
        rw [there]
        congr 1
        omega
  · refine isChain_append.2 ⟨maximal.1, isChain_singleton _, ?_⟩
    intro segment member other new
    obtain rfl : (base, size + n) = other := by simpa using new
    exact maximal.2.2 segment member (base, size) rfl

end ListsMapped

/-- What `GetSubmappedRangeImpl` knows at an address. The last segment ends there when it is still
open, and otherwise a gap comes before it. -/
structure Submapping.Reached (g : Geometry) (m : MemoryManager) (address a : Nat)
    (state : Submapping) : Prop where
  lists : ListsMapped (blockAddress g m) address a (state.result ++ state.lastSegment.toList)
  opened {base size : Nat} : state.lastSegment = some (base, size) →
    base + size = a ∧ ∃ e, blockAddress g m base = some e ∧ state.oldPageAddr = some (e + size)
  closed : state.lastSegment = none → ∀ segment ∈ state.result, segment.1 + segment.2 < a

theorem Submapping.split_eq (state : Submapping) :
    state.split = ⟨none, state.oldPageAddr, state.result ++ state.lastSegment.toList⟩ := by
  obtain ⟨lastSegment, oldPageAddr, result⟩ := state
  cases lastSegment <;> simp [Submapping.split]

theorem Submapping.split_result (state : Submapping) :
    state.split.result = state.result ++ state.lastSegment.toList := by
  rw [Submapping.split_eq]

/-- A new segment is opened when none is open or the old page breaks off. -/
theorem Submapping.extend_new {state : Submapping} {newBaseAddr d n : Nat}
    (new : state.lastSegment = none ∨ breaksOff state.oldPageAddr d) :
    state.extend newBaseAddr d n =
      ⟨some (newBaseAddr, n), some (d + n), state.result ++ state.lastSegment.toList⟩ := by
  unfold Submapping.extend
  by_cases breaks : breaksOff state.oldPageAddr d
  · rw [if_pos breaks, Submapping.split_eq]
  · have none := new.resolve_right breaks
    rw [if_neg breaks]
    simp [none]

/-- Otherwise the open segment grows. -/
theorem Submapping.extend_open {state : Submapping} {newBaseAddr d n base size : Nat}
    (opened : state.lastSegment = some (base, size)) (joins : ¬ breaksOff state.oldPageAddr d) :
    state.extend newBaseAddr d n = ⟨some (base, size + n), some (d + n), state.result⟩ := by
  unfold Submapping.extend
  rw [if_neg joins]
  simp [opened]

section Submapping

variable {address size a n d : Nat} {state : Submapping}

section

variable (reached : Submapping.Reached g m address a state)

include reached

theorem Submapping.Reached.split (piece : PieceOf g m address size a n (fun _ => none)) :
    Submapping.Reached g m address (a + n) state.split := by
  have lists := reached.lists.gap piece.found
  rw [Submapping.split_eq]
  refine ⟨by simpa using lists, fun opened => ?_, fun _ segment member => ?_⟩
  · cases opened
  · have ends := (reached.lists.ends member).2
    have positive := piece.positive
    omega

/-- The piece does not join the segment before it when a new one is opened. -/
theorem Submapping.Reached.apart (found : blockAddress g m a = some d)
    (new : state.lastSegment = none ∨ breaksOff state.oldPageAddr d) :
    ∀ last ∈ (state.result ++ state.lastSegment.toList).getLast?,
      ¬ JoinsOn (blockAddress g m) last (a, n) := by
  rintro last member ⟨adjacent, e, start, next⟩
  cases opened : state.lastSegment with
  | none =>
    rw [opened, Option.toList_none, append_nil] at member
    have before := reached.closed opened last (mem_of_getLast? member)
    exact absurd adjacent (Nat.ne_of_lt before)
  | some segment =>
    obtain rfl : segment = last := by simpa [opened] using member
    obtain ⟨-, e', start', old⟩ := reached.opened opened
    -- The old page ends where the piece begins, so that it does not break off.
    have breaks := new.resolve_left (by simp [opened])
    obtain rfl := Option.some.inj (start.symm.trans start')
    apply breaks.2
    rw [old, ← next]
    exact found

theorem Submapping.Reached.extend (piece : PieceOf g m address size a n (fun i => some (d + i))) :
    Submapping.Reached g m address (a + n) (state.extend a d n) := by
  have found : blockAddress g m a = some d := piece.first
  by_cases new : state.lastSegment = none ∨ breaksOff state.oldPageAddr d
  · have lists := reached.lists.append piece.later piece.positive piece.found
      (reached.apart found new)
    rw [Submapping.extend_new new]
    refine ⟨by simpa using lists, fun opened => ?_, fun none => by cases none⟩
    obtain ⟨rfl, rfl⟩ := Prod.mk.inj (Option.some.inj opened)
    exact ⟨rfl, d, found, rfl⟩
  · obtain ⟨some, joins⟩ := not_or.1 new
    obtain ⟨⟨base, length⟩, opened⟩ := Option.ne_none_iff_exists'.1 some
    obtain ⟨next, e, start, old⟩ := reached.opened opened
    have place : e + length = d := by
      by_contra other
      exact joins ⟨by simp [old], by simpa [old] using other⟩
    have lists := reached.lists
    rw [opened, Option.toList_some] at lists
    rw [Submapping.extend_open opened joins]
    refine ⟨lists.grow next start place piece.found, fun opened => ?_, fun none => by cases none⟩
    obtain ⟨rfl, rfl⟩ := Prod.mk.inj (Option.some.inj opened)
    refine ⟨by omega, e, start, ?_⟩
    rw [← place, add_assoc]

end

end Submapping

/-- `GetSubmappedRange` lists the mapped bytes of the range. -/
theorem getSubmappedRange_lists (g : Geometry) (m : MemoryManager) (address size : Nat) :
    ListsMapped (blockAddress g m) address (address + size)
      (m.getSubmappedRange g address size) := by
  have start : Submapping.Reached g m address address ⟨none, none, []⟩ := by
    refine ⟨listsMapped_nil _ _, fun opened => ?_, fun _ _ member => ?_⟩
    · cases opened
    · cases member
  -- No function stops this walk.
  let never (_ : Submapping) : Prop := False
  have extend {a n d : Nat} {state : Submapping} (reached : Submapping.Reached g m address a state)
      (piece : PieceOf g m address size a n (fun i => some (d + i))) :
      Ends (Submapping.Reached g m address (a + n)) never (.ok (state.extend a d n)) :=
    Submapping.Reached.extend reached piece
  have split {a n : Nat} {state : Submapping} (reached : Submapping.Reached g m address a state)
      (piece : PieceOf g m address size a n (fun _ => none)) (_ _ : Nat) :
      Ends (Submapping.Reached g m address (a + n)) never (.ok state.split) :=
    Submapping.Reached.split reached piece
  have settle {a : Nat} {state : Submapping}
      (known : Submapping.Reached g m address a state ∨ never state) :
      Ends (Submapping.Reached g m address a) never (.ok state) := known.resolve_right id
  have walked := query_rule (Submapping.Reached g m address) never never extend extend split
    (fun reached piece pageIndex offset =>
      ⟨split reached piece pageIndex offset, split reached piece pageIndex offset⟩)
    settle start rfl
  have reached := walked.resolve_right id
  have lists := reached.lists
  rw [← Submapping.split_result] at lists
  exact lists

/-! ## Against the translation -/

/-- The queries of a range agree with each other and with the translation of its bytes. -/
structure QueriesTranslate (g : Geometry) (m : MemoryManager) (address size : Nat) : Prop where
  continuous : m.isContinuousRange g address size = true ↔
    ContiguousOn (m.gpuToCpuAddress g) address size
  longest : IsLongest (m.gpuToCpuAddress g) address size (m.maxContinuousRange g address size)
  segments : ListsMapped (m.gpuToCpuAddress g) address (address + size)
    (m.getSubmappedRange g address size)

theorem ContiguousOn.congr {start size : Nat}
    (same : ∀ a, start ≤ a → a < start + size → target a = target' a) :
    ContiguousOn target start size ↔ ContiguousOn target' start size := by
  refine forall₂_congr fun i below => ?_
  rw [same start le_rfl (by omega), same (start + i) (by omega) (by omega)]

theorem IsLongest.congr {start size length : Nat}
    (same : ∀ a, start ≤ a → a < start + size → target a = target' a) :
    IsLongest target start size length ↔ IsLongest target' start size length := by
  have sets : {k | k ≤ size ∧ ContiguousOn target start k} =
      {k | k ≤ size ∧ ContiguousOn target' start k} := by
    ext k
    refine and_congr_right fun le => ?_
    exact ContiguousOn.congr fun a lower upper => same a lower (by omega)
  rw [IsLongest, IsLongest, sets]

theorem ListsMapped.congr {start stop : Nat} {segments : List (Nat × Nat)}
    (same : ∀ a, start ≤ a → a < stop → target a = target' a)
    (lists : ListsMapped target start stop segments) :
    ListsMapped target' start stop segments := by
  have inside {segment : Nat × Nat} (member : segment ∈ segments) := lists.ends member
  refine ⟨lists.positive, fun a => ?_, lists.ordered, fun segment member => ?_, ?_⟩
  · rw [lists.covers a]
    refine and_congr_right fun lower => and_congr_right fun upper => ?_
    rw [same a lower upper]
  · have ends := inside member
    exact (ContiguousOn.congr fun a lower upper => same a (by omega) (by omega)).1
      (lists.contiguous segment member)
  · refine List.IsChain.imp_of_mem_imp (fun first second member member' apart joins => ?_)
      lists.maximal
    have ends := inside member
    have ends' := inside member'
    have positive := lists.positive first member
    have positive' := lists.positive second member'
    obtain ⟨adjacent, d, start, next⟩ := joins
    apply apart
    refine ⟨adjacent, d, ?_, ?_⟩
    · rw [same first.1 (by omega) (by omega), start]
    · rw [same second.1 (by omega) (by omega), next]

/-- A shadowed byte is translated, and is in no segment. -/
theorem QueriesTranslate.not_shadowed {address size a : Nat}
    (inside : address + size ≤ 2 ^ g.addressSpaceBits)
    (queries : QueriesTranslate g m address size) (lower : address ≤ a)
    (upper : a < address + size) : ¬ Shadowed g m a := by
  rintro ⟨reserved, mapped⟩
  have translated : (m.gpuToCpuAddress g a).isSome = true := by
    rw [gpuToCpuAddress, if_neg (not_not.2 (by omega)), if_pos (by rw [reserved]; decide),
      if_neg (not_not.2 mapped)]
    rfl
  have listed := ((getSubmappedRange_lists g m address size).covers a).1
    ((queries.segments.covers a).2 ⟨lower, upper, translated⟩)
  rw [blockAddress, reserved] at listed
  cases listed.2.2

/-- The queries of a range agree with the translation exactly when no address of it is shadowed. -/
theorem queriesTranslate_iff {address size : Nat}
    (inside : address + size ≤ 2 ^ g.addressSpaceBits) :
    QueriesTranslate g m address size ↔
      ∀ a, address ≤ a → a < address + size → ¬ Shadowed g m a := by
  constructor
  · exact fun queries a lower upper => queries.not_shadowed inside lower upper
  · intro clear
    have same (a : Nat) (lower : address ≤ a) (upper : a < address + size) :
        blockAddress g m a = m.gpuToCpuAddress g a :=
      (gpuToCpuAddress_eq (by omega) (clear a lower upper)).symm
    refine ⟨?_, ?_, (getSubmappedRange_lists g m address size).congr same⟩
    · rw [isContinuousRange_iff, ContiguousOn.congr same]
    · exact (IsLongest.congr same).1 (maxContinuousRange_isLongest g m address size)

/-- The queries of a mapped big page. -/
theorem queriesTranslate_big :
    QueriesTranslate smallGeometry (run smallGeometry flatDevice [.map 0 0 65536 true]) 0 100 := by
  apply (queriesTranslate_iff (by decide)).2
  rintro a _ upper ⟨reserved, _⟩
  have page : a / 2 ^ 16 = 0 := by omega
  rw [getEntry_eq, show usedPageBits smallGeometry true = 16 from rfl, page] at reserved
  exact absurd reserved (by decide)

/-- A small page that is mapped into a sparse range of big pages is in no segment. -/
theorem not_queriesTranslate :
    ¬ QueriesTranslate smallGeometry
      (run smallGeometry flatDevice [.mapSparse 0 65536 true, .map 0 0 4096 false]) 0 1 := by
  intro queries
  exact queries.not_shadowed (by decide) le_rfl one_pos ⟨by decide, by decide⟩

end SumiEmu.VideoCore.MemoryManager
