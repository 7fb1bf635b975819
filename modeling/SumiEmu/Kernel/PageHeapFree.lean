/-
# Freeing a range of pages

`Free` takes a range apart: as many of the largest blocks as fit in the middle,
and smaller and smaller blocks towards its two ends. Every piece is aligned to
its size and none overlaps another, so a range that is not free is added to the
free pages, and nothing else.
-/

import SumiEmu.Kernel.PageHeapBlocks

namespace SumiEmu.Kernel.KPageHeap

open Fallible Packing Finset Nat

variable {L : Layout} {h : KPageHeap} {i : Nat}

/-- The pages between two page addresses. -/
def span (start stop : Nat) : Finset Nat := Finset.Ico (start / pageSize) (stop / pageSize)

theorem span_self (start : Nat) : span start start = ∅ := Ico_self _

theorem span_union {a b c : Nat} (first : a ≤ b) (second : b ≤ c) :
    span a b ∪ span b c = span a c :=
  Ico_union_Ico_eq_Ico (Nat.div_le_div_right first) (Nat.div_le_div_right second)

theorem span_disjoint (a b c : Nat) : Disjoint (span a b) (span b c) :=
  Ico_disjoint_Ico_consecutive ..

theorem span_subset {a b c d : Nat} (lower : c ≤ a) (upper : b ≤ d) : span a b ⊆ span c d :=
  Ico_subset_Ico (Nat.div_le_div_right lower) (Nat.div_le_div_right upper)

theorem pagesOf_eq_span (address numPages : Nat) :
    pagesOf address numPages = span address (address + numPages * pageSize) := by
  rw [pagesOf, span, add_mul_div_right _ _ (by decide)]

theorem tile_eq_span (inside : i < L.count) (n : Nat) :
    tile (L.unit i) n = span (n * L.blockSize i) (n * L.blockSize i + L.blockSize i) := by
  rw [← pagesOf_mul inside, pagesOf_eq_span, ← Layout.blockSize_eq inside]

/-- The outcome of an operation that adds pages to the free ones. -/
def Adds (L : Layout) (h : KPageHeap) (s : Finset Nat) (r : Except Fault KPageHeap) : Prop :=
  ∃ h', r = .ok h' ∧ h'.WellFormed L ∧ h'.freeSet = h.freeSet ∪ s

/-- The outcome of an operation that frees blocks: it adds pages, and joins whatever can be
joined. -/
def Merges (L : Layout) (h : KPageHeap) (s : Finset Nat) (r : Except Fault KPageHeap) : Prop :=
  ∃ h', r = .ok h' ∧ h'.WellFormed L ∧ h'.freeSet = h.freeSet ∪ s ∧ (h.Coalesced L → h'.Coalesced L)

variable {r : Except Fault KPageHeap}

theorem Merges.adds {s : Finset Nat} (merges : Merges L h s r) : Adds L h s r := by
  obtain ⟨h', result, wf', free', -⟩ := merges
  exact ⟨h', result, wf', free'⟩

theorem Merges.nothing (wf : h.WellFormed L) : Merges L h ∅ (.ok h) :=
  ⟨h, rfl, wf, (union_empty _).symm, id⟩

variable {f : KPageHeap → Except Fault KPageHeap}

/-- Adding pages in two steps. -/
theorem Merges.bind {s t : Finset Nat} (first : Merges L h s r) (separate : Disjoint t s)
    (apart : Disjoint t h.freeSet)
    (second : ∀ h', h'.WellFormed L → Disjoint t h'.freeSet → Merges L h' t (f h')) :
    Merges L h (s ∪ t) (r >>= f) := by
  obtain ⟨h₁, rfl, wf₁, free₁, merged₁⟩ := first
  obtain ⟨h₂, result, wf₂, free₂, merged₂⟩ := second h₁ wf₁ (by
    rw [free₁]
    exact disjoint_union_right.mpr ⟨apart, separate⟩)
  refine ⟨h₂, result, wf₂, ?_, merged₂ ∘ merged₁⟩
  rw [free₂, free₁, union_assoc]

/-- A range that can be freed: it lies inside the heap, and none of it is free. -/
structure Freeable (L : Layout) (h : KPageHeap) (start stop : Nat) : Prop where
  within : span start stop ⊆ L.space
  apart : Disjoint (span start stop) h.freeSet

theorem Freeable.narrow {a b c d : Nat} (freeable : Freeable L h c d) (lower : c ≤ a)
    (upper : b ≤ d) : Freeable L h a b :=
  ⟨(span_subset lower upper).trans freeable.within,
    disjoint_of_subset_left (span_subset lower upper) freeable.apart⟩

/-- Freeing a range in two parts, the lower one first. -/
theorem Freeable.bind_up {a b c : Nat} (freeable : Freeable L h a c) (lower : a ≤ b)
    (upper : b ≤ c) (first : Merges L h (span a b) r)
    (second : ∀ h', h'.WellFormed L → Freeable L h' b c → Merges L h' (span b c) (f h')) :
    Merges L h (span a c) (r >>= f) := by
  have rest := freeable.narrow lower (le_refl c)
  rw [← span_union lower upper]
  exact first.bind (span_disjoint a b c).symm rest.apart
    fun h' wf' apart => second h' wf' ⟨rest.within, apart⟩

/-- Freeing a range in two parts, the upper one first. -/
theorem Freeable.bind_down {a b c : Nat} (freeable : Freeable L h a c) (lower : a ≤ b)
    (upper : b ≤ c) (first : Merges L h (span b c) r)
    (second : ∀ h', h'.WellFormed L → Freeable L h' a b → Merges L h' (span a b) (f h')) :
    Merges L h (span a c) (r >>= f) := by
  have rest := freeable.narrow (le_refl a) upper
  rw [← span_union lower upper, union_comm]
  exact first.bind (span_disjoint a b c) rest.apart
    fun h' wf' apart => second h' wf' ⟨rest.within, apart⟩

/-- `FreeBlock`, by the address of the block. -/
theorem freeBlock_merges (wf : h.WellFormed L) (inside : i < L.count) {block : Nat}
    (aligned : L.blockSize i ∣ block) (freeable : Freeable L h block (block + L.blockSize i)) :
    Merges L h (span block (block + L.blockSize i)) (h.freeBlock block i) := by
  obtain ⟨n, rfl⟩ := aligned
  obtain ⟨within, apart⟩ := freeable
  rw [mul_comm, ← tile_eq_span inside] at within apart ⊢
  exact freeBlock_spec wf inside within apart

/-- Adjacent blocks, freed upwards. -/
theorem freeUp_merges (n : Nat) (wf : h.WellFormed L) (inside : i < L.count) {block : Nat}
    (aligned : L.blockSize i ∣ block) (freeable : Freeable L h block (block + n * L.blockSize i)) :
    Merges L h (span block (block + n * L.blockSize i)) (freeUp (L.blockSize i) i n block h) := by
  induction n generalizing h block with
  | zero =>
    rw [Nat.zero_mul, Nat.add_zero, span_self]
    exact .nothing wf
  | succ n ih =>
    have split : block + (n + 1) * L.blockSize i =
        block + L.blockSize i + n * L.blockSize i := by
      rw [Nat.succ_mul]
      omega
    rw [split] at freeable ⊢
    refine freeable.bind_up (Nat.le_add_right ..) (Nat.le_add_right ..)
      (freeBlock_merges wf inside aligned (freeable.narrow le_rfl (Nat.le_add_right ..))) ?_
    intro h' wf' rest
    exact ih wf' (Nat.dvd_add aligned (dvd_refl _)) rest

/-- Adjacent blocks, freed downwards. -/
theorem freeDown_merges (n : Nat) (wf : h.WellFormed L) (inside : i < L.count) {start : Nat}
    (aligned : L.blockSize i ∣ start) (freeable : Freeable L h start (start + n * L.blockSize i)) :
    Merges L h (span start (start + n * L.blockSize i))
      (freeDown (L.blockSize i) i n (start + n * L.blockSize i) h) := by
  induction n generalizing h with
  | zero =>
    rw [Nat.zero_mul, Nat.add_zero, span_self]
    exact .nothing wf
  | succ n ih =>
    have split : start + (n + 1) * L.blockSize i =
        start + n * L.blockSize i + L.blockSize i := by
      rw [Nat.succ_mul]
      omega
    rw [split] at freeable ⊢
    rw [freeDown, Nat.add_sub_cancel]
    refine freeable.bind_down (Nat.le_add_right ..) (Nat.le_add_right ..)
      (freeBlock_merges wf inside (Nat.dvd_add aligned (Nat.dvd_mul_left ..))
        (freeable.narrow (Nat.le_add_right ..) le_rfl)) ?_
    intro h' wf' rest
    exact ih wf' rest

section

variable (wf : h.WellFormed L)

include wf

variable {start stop : Nat}

/-- The blocks before the big ones. -/
theorem freeBefore_merges (inside : i ≤ L.count)
    (ordered : start ≤ stop) (whole : pageSize ∣ start)
    (aligned : ∀ j, j < i → L.blockSize j ∣ stop) (done : i = 0 → stop = start)
    (freeable : Freeable L h start stop) :
    Merges L h (span start stop) (freeBefore i start stop h) := by
  induction i generalizing h stop with
  | zero =>
    rw [done rfl, span_self]
    exact .nothing wf
  | succ i ih =>
    rw [freeBefore, (wf.layout i inside).getSize]
    generalize rounds_eq : (stop - start) / L.blockSize i = rounds
    have taken : rounds * L.blockSize i ≤ stop - start := rounds_eq ▸ Nat.div_mul_le_self ..
    have more : stop - start < rounds * L.blockSize i + L.blockSize i :=
      rounds_eq ▸ Nat.lt_div_mul_add Layout.blockSize_pos
    -- where the blocks of this size begin
    obtain ⟨middle, rfl⟩ := Nat.exists_eq_add_of_le' (taken.trans (Nat.sub_le ..))
    have here : L.blockSize i ∣ middle :=
      (Nat.dvd_add_left (Nat.dvd_mul_left ..)).mp (aligned i (Nat.lt_succ_self i))
    rw [Nat.add_sub_cancel]
    refine freeable.bind_down (b := middle) (by omega) (Nat.le_add_right ..)
      (freeDown_merges rounds wf inside here (freeable.narrow (by omega) le_rfl)) ?_
    intro h' wf' rest
    refine ih wf' (by omega) (by omega) (fun j below => ?_) (fun first => ?_) rest
    · exact (Layout.blockSize_dvd below.le inside).trans here
    · subst first
      rw [Layout.blockSize_zero] at here more
      obtain ⟨gap, fits⟩ : pageSize ∣ middle - start := Nat.dvd_sub here whole
      simp only [pageSize_eq] at *
      omega

/-- The blocks after the big ones. -/
theorem freeAfter_merges (inside : i ≤ L.count) (ordered : start ≤ stop) (whole : pageSize ∣ stop)
    (aligned : ∀ j, j < i → L.blockSize j ∣ start) (done : i = 0 → stop = start)
    (freeable : Freeable L h start stop) :
    Merges L h (span start stop) (freeAfter i start stop h) := by
  induction i generalizing h start with
  | zero =>
    rw [done rfl, span_self]
    exact .nothing wf
  | succ i ih =>
    rw [freeAfter, (wf.layout i inside).getSize]
    generalize rounds_eq : (stop - start) / L.blockSize i = rounds
    have taken : rounds * L.blockSize i ≤ stop - start := rounds_eq ▸ Nat.div_mul_le_self ..
    have more : stop - start < rounds * L.blockSize i + L.blockSize i :=
      rounds_eq ▸ Nat.lt_div_mul_add Layout.blockSize_pos
    have here : L.blockSize i ∣ start := aligned i (Nat.lt_succ_self i)
    have next : L.blockSize i ∣ start + rounds * L.blockSize i :=
      Nat.dvd_add here (Nat.dvd_mul_left ..)
    refine freeable.bind_up (b := start + rounds * L.blockSize i) (Nat.le_add_right ..) (by omega)
      (freeUp_merges rounds wf inside here (freeable.narrow le_rfl (by omega))) ?_
    intro h' wf' rest
    refine ih wf' (by omega) (by omega) (fun j below => ?_) (fun first => ?_) rest
    · exact (Layout.blockSize_dvd below.le inside).trans next
    · subst first
      rw [Layout.blockSize_zero] at next more taken ⊢
      obtain ⟨gap, fits⟩ : pageSize ∣ stop - (start + rounds * pageSize) := Nat.dvd_sub whole next
      simp only [pageSize_eq] at *
      omega

/-- There is a block size of which the range has a whole block, as there is one
for a page. -/
theorem findBig_spec (inside : i < L.count)
    (first : pageSize ∣ start) (last : pageSize ∣ stop) (proper : start < stop) :
    ∃ bigIndex bigStart bigEnd, h.findBig start stop (i + 1) = some (bigIndex, bigStart, bigEnd) ∧
      bigIndex < L.count ∧ L.blockSize bigIndex ∣ bigStart ∧ L.blockSize bigIndex ∣ bigEnd ∧
      start ≤ bigStart ∧ bigStart < bigEnd ∧ bigEnd ≤ stop ∧
      (bigIndex = 0 → bigStart = start ∧ bigEnd = stop) := by
  have found : ∀ i, i < L.count →
      alignUp start (L.blockSize i) < alignDown stop (L.blockSize i) →
      ∃ bigIndex bigStart bigEnd,
        some (i, alignUp start (L.blockSize i), alignDown stop (L.blockSize i)) =
          some (bigIndex, bigStart, bigEnd) ∧
        bigIndex < L.count ∧ L.blockSize bigIndex ∣ bigStart ∧ L.blockSize bigIndex ∣ bigEnd ∧
        start ≤ bigStart ∧ bigStart < bigEnd ∧ bigEnd ≤ stop ∧
        (bigIndex = 0 → bigStart = start ∧ bigEnd = stop) := by
    intro i inside big
    refine ⟨_, _, _, rfl, inside, alignUp_dvd .., alignDown_dvd ..,
      le_alignUp Layout.blockSize_pos _, big, alignDown_le .., ?_⟩
    rintro rfl
    rw [Layout.blockSize_zero]
    exact ⟨alignUp_of_dvd first, alignDown_of_dvd last⟩
  induction i with
  | zero =>
    have big : alignUp start (L.blockSize 0) < alignDown stop (L.blockSize 0) := by
      rwa [Layout.blockSize_zero, alignUp_of_dvd first, alignDown_of_dvd last]
    rw [findBig, (wf.layout 0 inside).getSize, if_pos big]
    exact found 0 inside big
  | succ i ih =>
    rw [findBig, (wf.layout (i + 1) inside).getSize]
    split
    · next big => exact found (i + 1) inside big
    · exact ih (by omega)

/-- `Free` adds exactly the pages it is given. -/
theorem free_merges {addr numPages : Nat} (aligned : pageSize ∣ addr)
    (within : pagesOf addr numPages ⊆ L.space)
    (apart : Disjoint (pagesOf addr numPages) h.freeSet) :
    Merges L h (pagesOf addr numPages) (h.free addr numPages) := by
  rw [pagesOf_eq_span] at *
  have freeable : Freeable L h addr (addr + numPages * pageSize) := ⟨within, apart⟩
  rw [free]
  split
  · next empty =>
    rw [empty, zero_mul, add_zero, span_self]
    exact .nothing wf
  · next some =>
    have whole : pageSize ∣ addr + numPages * pageSize :=
      Nat.dvd_add aligned (Nat.dvd_mul_left ..)
    have proper : addr < addr + numPages * pageSize := by
      have := Nat.mul_pos (Nat.pos_of_ne_zero some) (by decide : 0 < pageSize)
      omega
    obtain ⟨last, count⟩ : ∃ last, h.numBlocks = last + 1 :=
      exists_eq_succ_of_ne_zero (wf.numBlocks ▸ L.nonempty.ne')
    obtain ⟨bigIndex, bigStart, bigEnd, found, inside, startAligned, endAligned, lower, big, upper,
      smallest⟩ := findBig_spec wf (i := last) (by rw [← wf.numBlocks]; omega) aligned whole proper
    have length : (bigEnd - bigStart) / L.blockSize bigIndex * L.blockSize bigIndex =
        bigEnd - bigStart := Nat.div_mul_cancel (Nat.dvd_sub endAligned startAligned)
    have middle := freeUp_merges ((bigEnd - bigStart) / L.blockSize bigIndex) wf inside startAligned
    rw [length, Nat.add_sub_cancel' big.le] at middle
    dsimp only
    rw [count, found]
    dsimp only
    rw [(wf.layout bigIndex inside).getSize]
    have below : ∀ j, j < bigIndex → L.blockSize j ∣ L.blockSize bigIndex := fun j smaller =>
      Layout.blockSize_dvd smaller.le inside
    have split : span addr (addr + numPages * pageSize) =
        span bigStart bigEnd ∪ (span addr bigStart ∪ span bigEnd (addr + numPages * pageSize)) := by
      rw [union_left_comm, span_union big.le upper, span_union lower (big.le.trans upper)]
    have rest : Disjoint (span addr bigStart ∪ span bigEnd (addr + numPages * pageSize))
        (span bigStart bigEnd) :=
      disjoint_union_left.mpr ⟨span_disjoint .., (span_disjoint ..).symm⟩
    have others := disjoint_of_subset_left (split ▸ subset_union_right) apart
    rw [split]
    refine (middle (freeable.narrow lower upper)).bind rest others fun h₁ wf₁ apart₁ => ?_
    obtain ⟨before, after⟩ := disjoint_union_left.mp apart₁
    refine (freeBefore_merges wf₁ inside.le lower aligned (fun j smaller => ?_)
      (fun zero => (smallest zero).1) ⟨?_, before⟩).bind ?_ after fun h₂ wf₂ apart₂ => ?_
    · exact (below j smaller).trans startAligned
    · exact (span_subset le_rfl (big.le.trans upper)).trans within
    · exact disjoint_of_subset_right (span_subset le_rfl big.le) (span_disjoint ..).symm
    · refine freeAfter_merges wf₂ inside.le upper whole (fun j smaller => ?_)
        (fun zero => (smallest zero).2.symm) ⟨?_, apart₂⟩
      · exact (below j smaller).trans endAligned
      · exact (span_subset (lower.trans big.le) le_rfl).trans within

theorem free_adds {addr numPages : Nat} (aligned : pageSize ∣ addr)
    (within : pagesOf addr numPages ⊆ L.space)
    (apart : Disjoint (pagesOf addr numPages) h.freeSet) :
    Adds L h (pagesOf addr numPages) (h.free addr numPages) :=
  (free_merges wf aligned within apart).adds

end

end SumiEmu.Kernel.KPageHeap
