/-
# The usage tracker of a buffer

A tracker has one bit for every 64 bytes of a buffer, in words of 64 bits, one for each page of 4096
bytes. `track` marks the bits of a range and `isUsed` looks for a marked bit in one. Both round the
range to bits, the first and the last page each on its own.

The mask of no bits at all is a shift by the whole width of a word. Its result is not defined, so
each call is given the words that its two shifts yield in that case.
-/

import Mathlib.Data.BitVec

namespace SumiEmu.VideoCore

/-- `UsageTracker`. -/
structure UsageTracker where
  pages : List (BitVec 64)
  deriving DecidableEq

namespace UsageTracker

def bytesPerBitShift : Nat := 6
def pageShift : Nat := 6 + bytesPerBitShift
def pageBytes : Nat := 1 <<< pageShift

theorem bytesPerBitShift_eq : bytesPerBitShift = 6 := rfl
theorem pageShift_eq : pageShift = 12 := rfl
theorem pageBytes_eq : pageBytes = 4096 := rfl

/-- What shifts by the whole width yield: in the first page of a range and in its last one. -/
structure Undefined where
  first : BitVec 64
  last : BitVec 64

/-- The constructor. -/
def create (size : Nat) : UsageTracker := ⟨List.replicate ((size >>> pageShift) + 1) 0⟩

variable (t : UsageTracker)

/-- `Reset`. -/
def reset : UsageTracker := ⟨List.replicate t.pages.length 0⟩

/-- `Common::AlignDown`. -/
def alignDown (value size : Nat) : Nat := value - value % size

variable (undefined : BitVec 64)

/-- The mask of the lowest bits. -/
def lowMask (numBits : Nat) : BitVec 64 :=
  if 64 - numBits < 64 then BitVec.allOnes 64 >>> (64 - numBits) else undefined

/-- The bits of a page that a range is rounded to. -/
def pageMask (offset size : Nat) : BitVec 64 :=
  let offsetInPage := offset % pageBytes
  let firstBit := offsetInPage >>> bytesPerBitShift
  let numBits := min size pageBytes >>> bytesPerBitShift
  let mask := lowMask undefined numBits
  (BitVec.allOnes 64 &&& mask) <<< firstBit

/-- `TrackPage`. -/
def trackPage (page offset size : Nat) : UsageTracker :=
  ⟨t.pages.modify page (fun word => word ||| pageMask undefined offset size)⟩

/-- `IsPageUsed`. -/
def isPageUsed (page offset size : Nat) : Bool :=
  t.pages.getD page 0 &&& pageMask undefined offset size != 0

/-- The pages between the first and the last one are marked whole. -/
def trackPages (page count : Nat) : UsageTracker :=
  ⟨(List.range' page count).foldl (fun pages i => pages.set i (BitVec.allOnes 64)) t.pages⟩

/-- One of some pages is in use. -/
def anyPageUsed (page count : Nat) : Bool :=
  (List.range' page count).any (fun i => t.pages.getD i 0 != 0)

/-- The end of a range, in 64 bits. -/
def rangeEnd (offset size : Nat) : Nat := (offset + size) % 2 ^ 64

/-- `Track`. -/
def track (undefined : Undefined) (offset size : Nat) : UsageTracker :=
  let page := offset >>> pageShift
  let pageEnd := rangeEnd offset size >>> pageShift
  if pageEnd < page ∨ t.pages.length ≤ pageEnd then
    t
  else
    let t := t.trackPage undefined.first page offset size
    if page = pageEnd then
      t
    else
      let t := t.trackPages (page + 1) (pageEnd - (page + 1))
      let offsetEnd := rangeEnd offset size
      let offsetEndPageAligned := alignDown offsetEnd pageBytes
      t.trackPage undefined.last pageEnd offsetEndPageAligned (offsetEnd - offsetEndPageAligned)

/-- `IsUsed`. -/
def isUsed (undefined : Undefined) (offset size : Nat) : Bool :=
  let page := offset >>> pageShift
  let pageEnd := rangeEnd offset size >>> pageShift
  if pageEnd < page ∨ t.pages.length ≤ pageEnd then
    false
  else if t.isPageUsed undefined.first page offset size then
    true
  else if t.anyPageUsed (page + 1) (pageEnd - (page + 1)) then
    true
  else
    let offsetEnd := rangeEnd offset size
    let offsetEndPageAligned := alignDown offsetEnd pageBytes
    t.isPageUsed undefined.last pageEnd offsetEndPageAligned (offsetEnd - offsetEndPageAligned)

/-! ## Runs -/

/-- A call that changes the tracker. -/
inductive Call
  | track (undefined : Undefined) (offset size : Nat)
  | reset

/-- What a call does. -/
def step : Call → UsageTracker
  | .track undefined offset size => t.track undefined offset size
  | .reset => t.reset

/-- The tracker after some calls. -/
def run (size : Nat) (calls : List Call) : UsageTracker := calls.foldl step (create size)

/-- The ranges tracked since the last reset, with each call of a run. -/
def trackedStep (ranges : List (Nat × Nat)) : Call → List (Nat × Nat)
  | .track _ offset size => ranges ++ [(offset, size)]
  | .reset => []

def tracked (calls : List Call) : List (Nat × Nat) := calls.foldl trackedStep []

end UsageTracker

end SumiEmu.VideoCore

/-!
## Which overlaps a usage tracker finds

A call of `track` marks every bit of its range when no bit is lost to rounding: a range inside one
page has to be made of whole bits, and one that crosses pages has to reach the end of its first page
in whole bits and to end with one. A query looks at every bit of its range under a weaker condition,
since it looks at the last page from its start on.
-/

namespace SumiEmu.VideoCore.UsageTracker

open BitVec List Nat

variable {t : UsageTracker} {undefined : Undefined} {word : BitVec 64}
  {page offset size x k i count : Nat}

/-! ## Words and bits -/

/-- The word of a page. -/
def wordAt (t : UsageTracker) (i : Nat) : BitVec 64 := t.pages.getD i 0

/-- The bit that stands for a byte. -/
def bit (t : UsageTracker) (x : Nat) : Bool := (t.wordAt (x / 4096)).getLsbD (x % 4096 / 64)

theorem getLsbD_lowMask {numBits : Nat} (any : 0 < numBits) (inside : k < 64) :
    (lowMask word numBits).getLsbD k = decide (k < numBits) := by
  rw [lowMask, if_pos (by omega), getLsbD_ushiftRight, getLsbD_allOnes,
    decide_eq_decide]
  omega

/-- The bits of a range in a page, when there are any. -/
theorem getLsbD_pageMask (any : 64 ≤ size) (inside : k < 64) :
    (pageMask word offset size).getLsbD k =
      decide (offset % 4096 / 64 ≤ k ∧ k < offset % 4096 / 64 + min size 4096 / 64) := by
  have whole : (2 : Nat) ^ 6 = 64 := rfl
  rw [pageMask, pageBytes_eq, bytesPerBitShift_eq, shiftRight_eq_div_pow,
    shiftRight_eq_div_pow, allOnes_and, getLsbD_shiftLeft, whole]
  by_cases reached : offset % 4096 / 64 ≤ k
  · rw [getLsbD_lowMask (by omega) (by omega), Bool.eq_iff_iff]
    simp only [Bool.and_eq_true, Bool.not_eq_true', decide_eq_true_eq, decide_eq_false_iff_not]
    omega
  · have before : k < offset % 4096 / 64 := by omega
    simp [reached, before]

/-- The bits from the start of the last page on. -/
theorem getLsbD_lastMask {offsetEnd : Nat} (inside : k < offsetEnd % 4096 / 64) :
    (pageMask word (alignDown offsetEnd pageBytes)
      (offsetEnd - alignDown offsetEnd pageBytes)).getLsbD k = true := by
  have start : alignDown offsetEnd pageBytes % 4096 = 0 := by
    rw [alignDown, pageBytes_eq]
    omega
  have rest : offsetEnd - alignDown offsetEnd pageBytes = offsetEnd % 4096 := by
    rw [alignDown, pageBytes_eq]
    omega
  rw [rest, getLsbD_pageMask (by omega) (by omega), start]
  exact decide_eq_true ⟨zero_le k, by omega⟩

/-! ## What marking does to the words -/

theorem length_trackPage : (t.trackPage word page offset size).pages.length = t.pages.length :=
  length_modify ..

theorem wordAt_trackPage (inside : page < t.pages.length) :
    (t.trackPage word page offset size).wordAt i =
      if page = i then t.wordAt i ||| pageMask word offset size else t.wordAt i := by
  rw [wordAt, wordAt, trackPage, getD_eq_getElem?_getD, getD_eq_getElem?_getD,
    List.getElem?_modify]
  by_cases here : page = i
  · obtain rfl := here
    simp [inside]
  · simp [here]

theorem trackPages_zero : t.trackPages page 0 = t := rfl

theorem trackPages_succ : t.trackPages page (count + 1) =
    trackPages ⟨t.pages.set page (BitVec.allOnes 64)⟩ (page + 1) count := by
  rw [trackPages, List.range'_succ, foldl_cons]
  rfl

theorem length_trackPages : (t.trackPages page count).pages.length = t.pages.length := by
  induction count generalizing t page with
  | zero => rw [trackPages_zero]
  | succ count ih => rw [trackPages_succ, ih, length_set]

theorem wordAt_set (inside : page < t.pages.length) :
    wordAt ⟨t.pages.set page word⟩ i = if page = i then word else t.wordAt i := by
  rw [wordAt, wordAt, getD_eq_getElem?_getD, getD_eq_getElem?_getD, List.getElem?_set]
  by_cases here : page = i
  · rw [if_pos here, if_pos here, if_pos inside]
    rfl
  · rw [if_neg here, if_neg here]

theorem wordAt_trackPages (inside : page + count ≤ t.pages.length) :
    (t.trackPages page count).wordAt i =
      if page ≤ i ∧ i < page + count then BitVec.allOnes 64 else t.wordAt i := by
  induction count generalizing t page with
  | zero => rw [trackPages_zero, if_neg (by omega)]
  | succ count ih =>
    have room : page < t.pages.length := by omega
    rw [trackPages_succ, ih (by rw [length_set]; omega), wordAt_set room]
    by_cases here : page = i
    · rw [if_neg (by omega), if_pos here, if_pos (by omega)]
    · by_cases later : page + 1 ≤ i ∧ i < page + 1 + count
      · rw [if_pos later, if_pos (by omega)]
      · rw [if_neg later, if_neg here, if_neg (by omega)]

/-- Marking more keeps what is marked. -/
theorem bit_trackPage (inside : page < t.pages.length) (marked : t.bit x = true) :
    (t.trackPage word page offset size).bit x = true := by
  rw [bit, wordAt_trackPage inside]
  split
  · rw [getLsbD_or]
    exact Bool.or_eq_true_iff.2 (Or.inl marked)
  · exact marked

/-- The bits of the mask are marked. -/
theorem bit_trackPage_of_mask (inside : page < t.pages.length) (here : x / 4096 = page)
    (masked : (pageMask word offset size).getLsbD (x % 4096 / 64) = true) :
    (t.trackPage word page offset size).bit x = true := by
  rw [bit, wordAt_trackPage inside, if_pos here.symm, getLsbD_or]
  exact Bool.or_eq_true_iff.2 (Or.inr masked)

theorem bit_trackPages (inside : page + count ≤ t.pages.length) (marked : t.bit x = true) :
    (t.trackPages page count).bit x = true := by
  rw [bit, wordAt_trackPages inside]
  split
  · rw [getLsbD_allOnes]
    exact decide_eq_true (by omega)
  · exact marked

theorem bit_trackPages_of_between (inside : page + count ≤ t.pages.length)
    (between : page ≤ x / 4096 ∧ x / 4096 < page + count) :
    (t.trackPages page count).bit x = true := by
  rw [bit, wordAt_trackPages inside, if_pos between, getLsbD_allOnes]
  exact decide_eq_true (by omega)

/-! ## Tracking -/

/-- The three parts of tracking a range, where it is not ignored. -/
theorem track_eq (undefined : Undefined) (offset size : Nat) :
    t.track undefined offset size =
      if rangeEnd offset size / 4096 < offset / 4096 ∨
          t.pages.length ≤ rangeEnd offset size / 4096 then t
      else if offset / 4096 = rangeEnd offset size / 4096 then
        t.trackPage undefined.first (offset / 4096) offset size
      else
        ((t.trackPage undefined.first (offset / 4096) offset size).trackPages (offset / 4096 + 1)
          (rangeEnd offset size / 4096 - (offset / 4096 + 1))).trackPage undefined.last
            (rangeEnd offset size / 4096) (alignDown (rangeEnd offset size) pageBytes)
            (rangeEnd offset size - alignDown (rangeEnd offset size) pageBytes) := by
  rw [track, pageShift_eq, shiftRight_eq_div_pow, shiftRight_eq_div_pow]

theorem length_track : (t.track undefined offset size).pages.length = t.pages.length := by
  rw [track_eq]
  split
  · rfl
  · split
    · exact length_trackPage
    · rw [length_trackPage, length_trackPages, length_trackPage]

theorem bit_track (marked : t.bit x = true) : (t.track undefined offset size).bit x = true := by
  rw [track_eq]
  split
  · exact marked
  · next accepted =>
    have first : (t.trackPage undefined.first (offset / 4096) offset size).bit x = true :=
      bit_trackPage (by omega) marked
    split
    · exact first
    · apply bit_trackPage (by rw [length_trackPages, length_trackPage]; omega)
      exact bit_trackPages (by rw [length_trackPage]; omega) first

/-- Both ends of a tracked range are ends of its bits, where they are rounded: in one page they are
both, and otherwise the first page is reached to its end and the last one in whole bits. -/
def TrackedWhole (offset size : Nat) : Prop :=
  if offset / 4096 = (offset + size) / 4096 then
    offset % 64 = 0 ∧ size % 64 = 0
  else
    64 ≤ offset % 4096 / 64 + min size 4096 / 64 ∧ (offset + size) % 64 = 0

instance (offset size : Nat) : Decidable (TrackedWhole offset size) := by
  unfold TrackedWhole
  infer_instance

/-- A range inside of the tracker is not ignored. -/
structure Inside (t : UsageTracker) (offset size : Nat) : Prop where
  fits : offset + size < 2 ^ 64
  room : (offset + size) / 4096 < t.pages.length

theorem Inside.rangeEnd (inside : t.Inside offset size) :
    UsageTracker.rangeEnd offset size = offset + size := mod_eq_of_lt inside.fits

/-- A range that is tracked whole has all its bits marked. -/
theorem bit_track_of_mem (inside : t.Inside offset size) (large : 64 ≤ size)
    (whole : TrackedWhole offset size) (mem : offset ≤ x ∧ x < offset + size) :
    (t.track undefined offset size).bit x = true := by
  have room := inside.room
  rw [track_eq, inside.rangeEnd, if_neg (by omega)]
  rw [TrackedWhole] at whole
  split
  · next onePage =>
    rw [if_pos onePage] at whole
    apply bit_trackPage_of_mask (by omega) (by omega)
    rw [getLsbD_pageMask large (by omega)]
    exact decide_eq_true (by omega)
  · next crosses =>
    rw [if_neg crosses] at whole
    have roomFirst : offset / 4096 < t.pages.length := by omega
    have roomBetween : offset / 4096 + 1 + ((offset + size) / 4096 - (offset / 4096 + 1)) ≤
        (t.trackPage undefined.first (offset / 4096) offset size).pages.length := by
      rw [length_trackPage]
      omega
    have roomLast : (offset + size) / 4096 <
        ((t.trackPage undefined.first (offset / 4096) offset size).trackPages (offset / 4096 + 1)
          ((offset + size) / 4096 - (offset / 4096 + 1))).pages.length := by
      rw [length_trackPages, length_trackPage]
      exact room
    by_cases last : x / 4096 = (offset + size) / 4096
    · exact bit_trackPage_of_mask roomLast last (getLsbD_lastMask (by omega))
    · apply bit_trackPage roomLast
      by_cases first : x / 4096 = offset / 4096
      · apply bit_trackPages roomBetween
        apply bit_trackPage_of_mask roomFirst first
        rw [getLsbD_pageMask large (by omega)]
        exact decide_eq_true (by omega)
      · exact bit_trackPages_of_between roomBetween (by omega)

/-! ## Queries -/

/-- A query ends with a whole bit, and reaches the end of its first page where it leaves it. -/
def QueriedWhole (offset size : Nat) : Prop :=
  (offset + size) % 64 = 0 ∧ (offset / 4096 = (offset + size) / 4096 ∨
    64 ≤ offset % 4096 / 64 + min size 4096 / 64)

instance (offset size : Nat) : Decidable (QueriedWhole offset size) :=
  inferInstanceAs (Decidable (_ ∧ _))

theorem isPageUsed_of_bit (here : x / 4096 = page)
    (masked : (pageMask word offset size).getLsbD (x % 4096 / 64) = true)
    (marked : t.bit x = true) : t.isPageUsed word page offset size = true := by
  rw [isPageUsed, bne_iff_ne]
  intro none
  have both :
      (t.pages.getD page 0 &&& pageMask word offset size).getLsbD (x % 4096 / 64) = true := by
    rw [getLsbD_and, masked, Bool.and_true, ← here]
    exact marked
  rw [none] at both
  simp at both

theorem anyPageUsed_of_bit (between : page ≤ x / 4096 ∧ x / 4096 < page + count)
    (marked : t.bit x = true) : t.anyPageUsed page count = true := by
  rw [anyPageUsed, any_eq_true]
  refine ⟨x / 4096, mem_range'_1.2 between, bne_iff_ne.2 ?_⟩
  intro none
  rw [bit, wordAt, none] at marked
  simp at marked

/-- A query that is made of whole bits finds every mark in its range. -/
theorem isUsed_of_bit (inside : t.Inside offset size) (large : 64 ≤ size)
    (whole : QueriedWhole offset size) (mem : offset ≤ x ∧ x < offset + size)
    (marked : t.bit x = true) : t.isUsed undefined offset size = true := by
  have room := inside.room
  rw [isUsed, pageShift_eq, shiftRight_eq_div_pow, shiftRight_eq_div_pow, inside.rangeEnd]
  have page : (2 : Nat) ^ 12 = 4096 := rfl
  rw [page, if_neg (by omega)]
  obtain ⟨ends, reaches⟩ := whole
  by_cases last : x / 4096 = (offset + size) / 4096
  · have found : t.isPageUsed undefined.last ((offset + size) / 4096)
        (alignDown (offset + size) pageBytes)
        (offset + size - alignDown (offset + size) pageBytes) = true :=
      isPageUsed_of_bit last (getLsbD_lastMask (by omega)) marked
    split
    · rfl
    · split
      · rfl
      · exact found
  · by_cases first : x / 4096 = offset / 4096
    · have masked : (pageMask undefined.first offset size).getLsbD (x % 4096 / 64) = true := by
        rw [getLsbD_pageMask large (by omega)]
        exact decide_eq_true (by omega)
      rw [if_pos (isPageUsed_of_bit first masked marked)]
    · have found : t.anyPageUsed (offset / 4096 + 1)
          ((offset + size) / 4096 - (offset / 4096 + 1)) = true :=
        anyPageUsed_of_bit (by omega) marked
      rw [if_pos found, ite_self]

/-! ## Runs -/

/-- Every range of the list that is tracked whole has its bytes marked. -/
def Marked (t : UsageTracker) (ranges : List (Nat × Nat)) : Prop :=
  ∀ range ∈ ranges, t.Inside range.1 range.2 → 64 ≤ range.2 → TrackedWhole range.1 range.2 →
    ∀ x, range.1 ≤ x ∧ x < range.1 + range.2 → t.bit x = true

theorem length_step (call : Call) : (t.step call).pages.length = t.pages.length := by
  cases call with
  | track undefined offset size => exact length_track
  | reset => exact length_replicate

theorem Marked.step {ranges : List (Nat × Nat)} (marked : t.Marked ranges) (call : Call) :
    (t.step call).Marked (trackedStep ranges call) := by
  cases call with
  | reset =>
    intro range member
    contradiction
  | track undefined offset size =>
    intro range member inside large whole x mem
    have before : t.Inside range.1 range.2 := ⟨inside.fits, by
      have room := inside.room
      rwa [length_step] at room⟩
    rcases mem_append.1 member with earlier | now
    · exact bit_track (marked range earlier before large whole x mem)
    · obtain rfl := mem_singleton.1 now
      exact bit_track_of_mem before large whole mem

/-- Every call keeps the size and the marks of what has been tracked since the last reset. -/
theorem foldl_step {ranges : List (Nat × Nat)} (marked : t.Marked ranges) (calls : List Call) :
    (calls.foldl UsageTracker.step t).pages.length = t.pages.length ∧
      (calls.foldl UsageTracker.step t).Marked (calls.foldl trackedStep ranges) := by
  induction calls generalizing t ranges with
  | nil => exact ⟨rfl, marked⟩
  | cons call rest ih =>
    obtain ⟨length, later⟩ := ih (marked.step call)
    rw [length_step] at length
    exact ⟨length, later⟩

/-- After any calls, a query finds each range that it overlaps and that has been tracked since the
last reset, where both are made of whole bits. The other calls may be any. -/
theorem isUsed_of_tracked (trackerSize : Nat) (small : trackerSize < 2 ^ 64) (calls : List Call)
    (undefined : Undefined) (trackedOffset trackedSize offset size : Nat)
    (trackedLive : (trackedOffset, trackedSize) ∈ tracked calls)
    (trackedLarge : 64 ≤ trackedSize) (trackedInside : trackedOffset + trackedSize ≤ trackerSize)
    (trackedWhole : TrackedWhole trackedOffset trackedSize)
    (large : 64 ≤ size) (inside : offset + size ≤ trackerSize) (whole : QueriedWhole offset size)
    (overlaps : offset < trackedOffset + trackedSize ∧ trackedOffset < offset + size) :
    (run trackerSize calls).isUsed undefined offset size = true := by
  have fresh : (create trackerSize).Marked [] := by
    intro range member
    contradiction
  obtain ⟨length, marked⟩ := foldl_step fresh calls
  have pages : (run trackerSize calls).pages.length = trackerSize / 4096 + 1 := by
    rw [run, length, create, length_replicate, pageShift_eq, shiftRight_eq_div_pow]
  have trackedHere : (run trackerSize calls).Inside trackedOffset trackedSize :=
    ⟨by omega, by omega⟩
  have here : (run trackerSize calls).Inside offset size := ⟨by omega, by omega⟩
  have found := marked _ trackedLive trackedHere trackedLarge trackedWhole
    (max offset trackedOffset) ⟨by omega, by omega⟩
  exact isUsed_of_bit here large whole ⟨by omega, by omega⟩ found

theorem isUsed_of_tracked_pages :
    (run 16384 [.track ⟨0, 0⟩ 0 64, .reset, .track ⟨0, 0⟩ 4032 4160]).isUsed ⟨0, 0⟩ 64 4032 =
      true :=
  isUsed_of_tracked 16384 (by decide) _ ⟨0, 0⟩ 4032 4160 64 4032 (by decide) (by decide) (by decide)
    (by decide) (by decide) (by decide) (by decide) (by decide)

/-- The first hundred bytes are tracked as one bit, so that a query from the second bit on across
the end of the page misses them. -/
theorem isUsed_misses : ¬ ∀ (trackerSize : Nat) (calls : List Call) (undefined : Undefined)
    (trackedOffset trackedSize offset size : Nat), trackerSize < 2 ^ 64 →
    (trackedOffset, trackedSize) ∈ tracked calls → 64 ≤ trackedSize →
    trackedOffset + trackedSize ≤ trackerSize → 64 ≤ size → offset + size ≤ trackerSize →
    offset < trackedOffset + trackedSize ∧ trackedOffset < offset + size →
    (run trackerSize calls).isUsed undefined offset size = true := by
  intro always
  have found := always 8192 [.track ⟨0, 0⟩ 0 100] ⟨0, 0⟩ 0 100 64 4096 (by decide) (by decide)
    (by decide) (by decide) (by decide) (by decide) (by decide)
  exact absurd found (by decide)

end SumiEmu.VideoCore.UsageTracker
