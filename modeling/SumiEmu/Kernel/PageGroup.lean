/-
# Page groups

A page group is a list of runs of pages. A block that begins where the last run ends is appended to
that run, and any other block begins a new one, which takes a block info. Page numbers and numbers
of pages fit their 32 bits.
-/

import SumiEmu.Kernel.PageHeapBlocks

namespace SumiEmu.Kernel

open Finset

open KPageHeap (pagesOf)

/-- `KBlockInfo`, without its link to the next one. -/
structure KBlockInfo where
  pageIndex : Nat
  numPages : Nat
  deriving DecidableEq, Repr

namespace KBlockInfo

/-- `Initialize`. -/
def initializeInfo (addr np : Nat) : KBlockInfo where
  pageIndex := addr / pageSize
  numPages := np

variable (b : KBlockInfo)

/-- `GetAddress`. -/
def getAddress : Nat := b.pageIndex * pageSize

/-- `GetEndAddress`. -/
def getEndAddress : Nat := (b.pageIndex + b.numPages) * pageSize

/-- `TryConcatenate`: the longer block, if the pages begin where this one ends. -/
def tryConcatenate (addr np : Nat) : Option KBlockInfo :=
  if addr ≠ 0 ∧ addr = b.getEndAddress then some { b with numPages := b.numPages + np } else none

/-- The pages of a block. -/
def pages : Finset Nat := pagesOf b.getAddress b.numPages

end KBlockInfo

/-- `KPageGroup`, with the number of block infos that its manager still has. -/
structure KPageGroup where
  blocks : List KBlockInfo := []
  freeInfos : Nat
  deriving DecidableEq, Repr

namespace KPageGroup

/-- `AddBlock`. There is no result if the manager has no block info left. -/
def addBlock (g : KPageGroup) (addr numPages : Nat) : Option KPageGroup :=
  if numPages = 0 then some g
  else
    match g.blocks.getLast?.bind fun last => last.tryConcatenate addr numPages with
    | some last => some { g with blocks := g.blocks.dropLast ++ [last] }
    | none =>
      match g.freeInfos with
      | 0 => none
      | freeInfos + 1 => some { blocks := g.blocks ++ [.initializeInfo addr numPages], freeInfos }

/-- `Finalize`. -/
def finalize (g : KPageGroup) : KPageGroup where
  freeInfos := g.freeInfos + g.blocks.length

/-- `GetNumPages`. -/
def getNumPages (g : KPageGroup) : Nat := (g.blocks.map KBlockInfo.numPages).sum

end KPageGroup

/-! ## The pages of a group -/

variable {b : KBlockInfo} {blocks : List KBlockInfo}

theorem KBlockInfo.pages_eq (b : KBlockInfo) :
    b.pages = Finset.Ico b.pageIndex (b.pageIndex + b.numPages) := by
  rw [pages, pagesOf, getAddress, Nat.mul_div_cancel _ (by decide)]

theorem KBlockInfo.pages_initializeInfo (addr np : Nat) :
    (initializeInfo addr np).pages = pagesOf addr np :=
  pages_eq _

/-- The pages of a list of blocks. -/
def pagesOfBlocks : List KBlockInfo → Finset Nat
  | [] => ∅
  | b :: blocks => b.pages ∪ pagesOfBlocks blocks

theorem mem_pagesOfBlocks {p : Nat} : p ∈ pagesOfBlocks blocks ↔ ∃ b ∈ blocks, p ∈ b.pages := by
  induction blocks with
  | nil => simp [pagesOfBlocks]
  | cons b blocks ih => simp [pagesOfBlocks, ih]

theorem pagesOfBlocks_singleton (b : KBlockInfo) : pagesOfBlocks [b] = b.pages := union_empty _

theorem pagesOfBlocks_append (l₁ l₂ : List KBlockInfo) :
    pagesOfBlocks (l₁ ++ l₂) = pagesOfBlocks l₁ ∪ pagesOfBlocks l₂ := by
  ext p
  simp only [mem_pagesOfBlocks, mem_union, List.mem_append, or_and_right, exists_or]

/-- No block is empty, and no two share a page. -/
structure Separate (blocks : List KBlockInfo) : Prop where
  nonempty : ∀ b ∈ blocks, 0 < b.numPages
  apart : blocks.Pairwise fun b c => Disjoint b.pages c.pages

theorem Separate.cons_iff :
    Separate (b :: blocks) ↔ 0 < b.numPages ∧ Disjoint b.pages (pagesOfBlocks blocks) ∧
      Separate blocks := by
  have across : Disjoint b.pages (pagesOfBlocks blocks) ↔
      ∀ c ∈ blocks, Disjoint b.pages c.pages := by
    constructor
    · intro apart c mem
      exact disjoint_of_subset_right (fun p page => mem_pagesOfBlocks.mpr ⟨c, mem, page⟩) apart
    · intro apart
      refine disjoint_left.mpr fun p here there => ?_
      obtain ⟨c, mem, page⟩ := mem_pagesOfBlocks.mp there
      exact disjoint_left.mp (apart c mem) here page
  constructor
  · rintro ⟨nonempty, apart⟩
    obtain ⟨first, others⟩ := List.forall_mem_cons.mp nonempty
    obtain ⟨front, back⟩ := List.pairwise_cons.mp apart
    exact ⟨first, across.mpr front, others, back⟩
  · rintro ⟨first, front, others, back⟩
    exact ⟨List.forall_mem_cons.mpr ⟨first, others⟩, List.pairwise_cons.mpr ⟨across.mp front, back⟩⟩

/-- The pages of a group are as many as it counts. -/
theorem Separate.card (separate : Separate blocks) :
    (pagesOfBlocks blocks).card = (blocks.map KBlockInfo.numPages).sum := by
  induction blocks with
  | nil => rfl
  | cons b blocks ih =>
    obtain ⟨-, apart, others⟩ := Separate.cons_iff.mp separate
    rw [pagesOfBlocks, card_union_of_disjoint apart, ih others, b.pages_eq, Nat.card_Ico,
      Nat.add_sub_cancel_left]
    rfl

/-- A block whose pages are new becomes part of the group. -/
theorem Separate.addBlock {g g' : KPageGroup} {addr np : Nat} (separate : Separate g.blocks)
    (some_pages : 0 < np)
    (fresh : Disjoint (pagesOfBlocks g.blocks) (pagesOf addr np))
    (added : g.addBlock addr np = some g') :
    Separate g'.blocks ∧ pagesOfBlocks g'.blocks = pagesOfBlocks g.blocks ∪ pagesOf addr np := by
  rw [KPageGroup.addBlock, if_neg some_pages.ne'] at added
  split at added
  · rename_i last joined
    cases added
    obtain ⟨old, final, concatenated⟩ := Option.bind_eq_some_iff.mp joined
    obtain ⟨front, split⟩ := List.getLast?_eq_some_iff.mp final
    rw [KBlockInfo.tryConcatenate] at concatenated
    split at concatenated
    · rename_i meets
      cases concatenated
      -- the longer block has the pages of the last one and the new ones
      have longer : ({ old with numPages := old.numPages + np } : KBlockInfo).pages = old.pages ∪
          pagesOf addr np := by
        rw [KBlockInfo.pages_eq, KBlockInfo.pages_eq, pagesOf, meets.2, KBlockInfo.getEndAddress,
          Nat.mul_div_cancel _ (by decide), Ico_union_Ico_eq_Ico (by omega) (by omega),
          Nat.add_assoc]
      rw [split] at separate fresh ⊢
      rw [pagesOfBlocks_append, disjoint_union_left] at fresh
      dsimp only
      rw [List.dropLast_concat]
      constructor
      · constructor
        · intro c mem
          rcases List.mem_append.mp mem with early | late
          · exact separate.nonempty c (List.mem_append_left _ early)
          · cases List.mem_singleton.mp late
            exact Nat.add_pos_right _ some_pages
        · obtain ⟨apart, -, across⟩ := List.pairwise_append.mp separate.apart
          refine List.pairwise_append.mpr
            ⟨apart, List.pairwise_singleton _ _, fun c early d late => ?_⟩
          cases List.mem_singleton.mp late
          rw [longer]
          refine disjoint_union_right.mpr ⟨across c early old (List.mem_singleton_self _), ?_⟩
          exact disjoint_of_subset_left (fun p page => mem_pagesOfBlocks.mpr ⟨c, early, page⟩)
            fresh.1
      · rw [pagesOfBlocks_append, pagesOfBlocks_append, union_assoc, pagesOfBlocks_singleton,
          pagesOfBlocks_singleton, longer]
    · cases concatenated
  · split at added
    · cases added
    · cases added
      constructor
      · constructor
        · intro c mem
          rcases List.mem_append.mp mem with early | late
          · exact separate.nonempty c early
          · cases List.mem_singleton.mp late
            exact some_pages
        · refine List.pairwise_append.mpr
            ⟨separate.apart, List.pairwise_singleton _ _, fun c early d late => ?_⟩
          cases List.mem_singleton.mp late
          rw [KBlockInfo.pages_initializeInfo]
          exact disjoint_of_subset_left (fun p page => mem_pagesOfBlocks.mpr ⟨c, early, page⟩) fresh
      · rw [pagesOfBlocks_append, pagesOfBlocks_singleton, KBlockInfo.pages_initializeInfo]

/-- A block makes the last run longer, or begins a new one. Which of the two depends on the runs
only. -/
theorem KPageGroup.addBlock_cases (blocks : List KBlockInfo) (addr : Nat) {np : Nat}
    (some_pages : 0 < np) :
    (∃ last, blocks ≠ [] ∧ ∀ freeInfos, KPageGroup.addBlock ⟨blocks, freeInfos⟩ addr np =
      some ⟨blocks.dropLast ++ [last], freeInfos⟩) ∨
    (KPageGroup.addBlock ⟨blocks, 0⟩ addr np = none ∧ ∀ freeInfos,
      KPageGroup.addBlock ⟨blocks, freeInfos + 1⟩ addr np =
      some ⟨blocks ++ [.initializeInfo addr np], freeInfos⟩) := by
  cases joined : blocks.getLast?.bind fun last => last.tryConcatenate addr np with
  | some last =>
    refine Or.inl ⟨last, ?_, fun freeInfos => ?_⟩
    · intro empty
      rw [empty] at joined
      cases joined
    · rw [KPageGroup.addBlock, if_neg some_pages.ne', joined]
  | none =>
    refine Or.inr ⟨?_, fun freeInfos => ?_⟩
    · rw [KPageGroup.addBlock, if_neg some_pages.ne', joined]
    · rw [KPageGroup.addBlock, if_neg some_pages.ne', joined]

end SumiEmu.Kernel
