/-
# The memory tracker

The tracker cuts the device address space into regions of 4 MiB and makes the manager of
a region when an operation first needs it. An operation on a range of bytes visits the
regions of the range in ascending order, each with the part of the range inside it.

A manager is made in place; the pool it comes from is left out. The set of cached regions
is a list in the order of insertion.
-/

import SumiEmu.Foundations.Runs
import SumiEmu.VideoCore.PageState

namespace SumiEmu.VideoCore

abbrev maxCpuPageBits : Nat := 34

abbrev higherPageBits : Nat := 22

abbrev higherPageSize : Nat := 2 ^ higherPageBits

/-- `MemoryTrackerBase`. -/
structure MemoryTrackerBase where
  topTier : Nat → Option WordManager := fun _ => none
  cachedPages : List Nat := []
  /-- The calls that have reached the device tracker. -/
  log : List Update := []

/-- A part of a range inside one region. -/
structure RegionPart where
  pageIndex : Nat
  pageOffset : Nat
  copyAmount : Nat

namespace MemoryTrackerBase

/-- The loop that `IteratePages` and `IteratePairs` share: the parts of a range. -/
def regionParts (pageIndex : Nat) (pageOffset : Fin higherPageSize) (remainingSize : Nat) :
    List RegionPart :=
  if _ : remainingSize = 0 then []
  else
    let copyAmount := min (higherPageSize - pageOffset) remainingSize
    ⟨pageIndex, pageOffset, copyAmount⟩ ::
      regionParts (pageIndex + 1) 0 (remainingSize - copyAmount)
termination_by remainingSize
decreasing_by
  have := pageOffset.isLt
  omega

/-- The parts of the range at an address. -/
def parts (cpuAddress size : Nat) : List RegionPart :=
  regionParts (cpuAddress / higherPageSize)
    ⟨cpuAddress % higherPageSize, Nat.mod_lt _ (by decide)⟩ size

variable (t : MemoryTrackerBase)

/-- `CreateRegion`. -/
def createRegion (pageIndex : Nat) : MemoryTrackerBase :=
  let manager := WordManager.new (pageIndex * higherPageSize) higherPageSize
  { t with topTier := Function.update t.topTier pageIndex (some manager) }

/-- The tracker with the manager that a visit of its region needs. -/
def ready (createRegionOnFail : Bool) (t : MemoryTrackerBase) (pageIndex : Nat) :
    MemoryTrackerBase :=
  if createRegionOnFail ∧ t.topTier pageIndex = none then t.createRegion pageIndex else t

/-- The loop over the regions of a range. A manager is a pointer into `top_tier`, so that
`func` is also given the index of its region. -/
def visitRegions {α : Type} (createRegionOnFail : Bool)
    (func : MemoryTrackerBase × α → Nat → WordManager → Nat → Nat → MemoryTrackerBase × α)
    (s : MemoryTrackerBase × α) (part : RegionPart) : MemoryTrackerBase × α :=
  let t := s.1.ready createRegionOnFail part.pageIndex
  match t.topTier part.pageIndex with
  | none => (t, s.2)
  | some manager => func (t, s.2) part.pageIndex manager part.pageOffset part.copyAmount

/-- `IteratePages`, when its function returns nothing. -/
def iteratePages {α : Type} (t : MemoryTrackerBase) (createRegionOnFail : Bool)
    (cpuAddress size : Nat) (start : α)
    (func : MemoryTrackerBase × α → Nat → WordManager → Nat → Nat → MemoryTrackerBase × α) :
    MemoryTrackerBase × α :=
  (parts cpuAddress size).foldl (visitRegions createRegionOnFail func) (t, start)

/-- `IteratePages`, when its function returns whether to stop. -/
def anyRegion (createRegionOnFail : Bool) (func : WordManager → Nat → Nat → Bool) :
    List RegionPart → MemoryTrackerBase → MemoryTrackerBase × Bool
  | [], t => (t, false)
  | part :: rest, t =>
    let t := t.ready createRegionOnFail part.pageIndex
    match t.topTier part.pageIndex with
    | none => anyRegion createRegionOnFail func rest t
    | some manager =>
      if func manager part.pageOffset part.copyAmount then (t, true)
      else anyRegion createRegionOnFail func rest t

/-- `execute`, the body of `IteratePairs`. -/
def widenPair (func : WordManager → Nat → Nat → Nat × Nat) (s : MemoryTrackerBase × Nat × Nat)
    (pageIndex : Nat) (manager : WordManager) (offset size : Nat) : MemoryTrackerBase × Nat × Nat :=
  let (newBegin, newEnd) := func manager offset size
  if newBegin ≠ 0 ∨ newEnd ≠ 0 then
    let baseAddress := pageIndex * higherPageSize
    (s.1, min (newBegin + baseAddress) s.2.1, max (newEnd + baseAddress) s.2.2)
  else s

/-- `IteratePairs`. -/
def iteratePairs (createRegionOnFail : Bool) (cpuAddress size : Nat)
    (func : WordManager → Nat → Nat → Nat × Nat) : MemoryTrackerBase × Nat × Nat :=
  let s := t.iteratePages createRegionOnFail cpuAddress size (2 ^ 64 - 1, 0) (widenPair func)
  (s.1, if s.2.1 < s.2.2 then s.2 else (0, 0))

/-- Put the manager of a region back, with what it has told the device tracker. -/
def store (pageIndex : Nat) (manager : WordManager) (log : List Update) : MemoryTrackerBase :=
  { t with topTier := Function.update t.topTier pageIndex (some manager), log }

/-- The visitor of the operations that mark and unmark pages. -/
def changeState (type : PageType) (enable : Bool) (s : MemoryTrackerBase × Unit) (pageIndex : Nat)
    (manager : WordManager) (offset size : Nat) : MemoryTrackerBase × Unit :=
  let r := manager.changeRegionState type enable (manager.cpuAddr + offset) size s.1.log
  (s.1.store pageIndex r.1 r.2, ())

/-- The visitor of `CachedCpuWrite`. -/
def writeCached (s : MemoryTrackerBase × Unit) (pageIndex : Nat) (manager : WordManager)
    (offset size : Nat) : MemoryTrackerBase × Unit :=
  let cpuAddress := manager.cpuAddr + offset
  let t := (changeState .cachedCpu true s pageIndex manager offset size).1
  ({ t with cachedPages := t.cachedPages.insert (cpuAddress / 2 ^ higherPageBits % 2 ^ 32) }, ())

/-- The visitor of `FlushCachedWrites` on a range. -/
def flush (s : MemoryTrackerBase × Unit) (pageIndex : Nat) (manager : WordManager)
    (_offset _size : Nat) : MemoryTrackerBase × Unit :=
  let r := manager.flushCachedWrites s.1.log
  (s.1.store pageIndex r.1 r.2, ())

/-- `FlushCachedWrites` of everything that is cached. -/
def flushCachedWrites : MemoryTrackerBase :=
  let t := t.cachedPages.foldl (fun t id =>
    match t.topTier id with
    | none => t
    | some manager => (flush (t, ()) id manager 0 0).1) t
  { t with cachedPages := [] }

/-- The visitor of the operations that call a function on ranges. -/
def visitRanges (type : PageType) (clear : Bool) (s : MemoryTrackerBase × List (Nat × Nat))
    (pageIndex : Nat) (manager : WordManager) (offset size : Nat) :
    MemoryTrackerBase × List (Nat × Nat) :=
  let r := manager.forEachModifiedRange type clear (manager.cpuAddr + offset) size s.1.log
  (s.1.store pageIndex r.manager r.log, s.2 ++ r.calls)

/-- The public operations on a range. -/
inductive RangeOp where
  | modifiedCpuRegion
  | modifiedGpuRegion
  | isRegionCpuModified
  | isRegionGpuModified
  | isRegionPreflushable
  | markRegionAsCpuModified
  | unmarkRegionAsCpuModified
  | markRegionAsGpuModified
  | markRegionAsPreflushable
  | unmarkRegionAsGpuModified
  | unmarkRegionAsPreflushable
  | cachedCpuWrite
  | flushCachedWrites
  | forEachUploadRange
  | forEachDownloadRange (clear : Bool)
  | forEachDownloadRangeAndClear

/-- The public operations. -/
inductive Op where
  | range (op : RangeOp) (cpuAddr size : Nat)
  | flushCachedWrites

/-- What an operation gives back: a result, or the calls of the function it is given. -/
inductive Reply where
  | nothing
  | flag (modified : Bool)
  | region (first last : Nat)
  | calls (calls : List (Nat × Nat))

section Operations

variable (t : MemoryTrackerBase) (cpuAddr size : Nat)

/-- The body of `ModifiedCpuRegion` and `ModifiedGpuRegion`. -/
def modifiedRegion (type : PageType) (createRegionOnFail : Bool) : MemoryTrackerBase × Reply :=
  let s := t.iteratePairs createRegionOnFail cpuAddr size fun manager offset size =>
    manager.modifiedRegion type offset size
  (s.1, .region s.2.1 s.2.2)

/-- The body of the operations that ask whether a region is modified. -/
def isRegionModified (type : PageType) (createRegionOnFail : Bool) : MemoryTrackerBase × Reply :=
  let s := anyRegion createRegionOnFail (fun manager offset size =>
    manager.isRegionModified type offset size) (parts cpuAddr size) t
  (s.1, .flag s.2)

/-- The body of the operations that mark and unmark pages. -/
def changeRegion (type : PageType) (enable : Bool) : MemoryTrackerBase × Reply :=
  ((t.iteratePages true cpuAddr size () (changeState type enable)).1, .nothing)

/-- The body of the operations that call a function on ranges. -/
def forEachRange (type : PageType) (clear createRegionOnFail : Bool) : MemoryTrackerBase × Reply :=
  let s := t.iteratePages createRegionOnFail cpuAddr size [] (visitRanges type clear)
  (s.1, .calls s.2)

end Operations

/-- A public operation on a range. -/
def stepRange (cpuAddr size : Nat) : RangeOp → MemoryTrackerBase × Reply
  | .modifiedCpuRegion => t.modifiedRegion cpuAddr size .cpu true
  | .modifiedGpuRegion => t.modifiedRegion cpuAddr size .gpu false
  | .isRegionCpuModified => t.isRegionModified cpuAddr size .cpu true
  | .isRegionGpuModified => t.isRegionModified cpuAddr size .gpu false
  | .isRegionPreflushable => t.isRegionModified cpuAddr size .preflushable false
  | .markRegionAsCpuModified => t.changeRegion cpuAddr size .cpu true
  | .unmarkRegionAsCpuModified => t.changeRegion cpuAddr size .cpu false
  | .markRegionAsGpuModified => t.changeRegion cpuAddr size .gpu true
  | .markRegionAsPreflushable => t.changeRegion cpuAddr size .preflushable true
  | .unmarkRegionAsGpuModified => t.changeRegion cpuAddr size .gpu false
  | .unmarkRegionAsPreflushable => t.changeRegion cpuAddr size .preflushable false
  | .cachedCpuWrite => ((t.iteratePages true cpuAddr size () writeCached).1, .nothing)
  | .flushCachedWrites => ((t.iteratePages false cpuAddr size () flush).1, .nothing)
  | .forEachUploadRange => t.forEachRange cpuAddr size .cpu true true
  | .forEachDownloadRange clear => t.forEachRange cpuAddr size .gpu clear false
  | .forEachDownloadRangeAndClear => t.forEachRange cpuAddr size .gpu true false

/-- A public operation. -/
def step : Op → MemoryTrackerBase × Reply
  | .range op cpuAddr size => t.stepRange cpuAddr size op
  | .flushCachedWrites => (t.flushCachedWrites, .nothing)

/-- The tracker after a sequence of operations. -/
def run (ops : List Op) : MemoryTrackerBase := ops.foldl (fun t op => (t.step op).1) {}

end MemoryTrackerBase

end SumiEmu.VideoCore

/-!
## What the memory tracker is for

Seen from outside, the tracker is a function from pages to their states. An operation on a
range changes the pages that meet the range, and answers from the states of these pages.
The one exception is a flush of a range, which goes for whole regions.
-/

namespace SumiEmu.VideoCore

abbrev pagesPerRegion : Nat := 1024

/-- A byte of the range is in the page. -/
def Touches (cpuAddr size page : Nat) : Prop :=
  ∃ x, cpuAddr ≤ x ∧ x < cpuAddr + size ∧ x / bytesPerPage = page

theorem touches_iff {cpuAddr size page : Nat} : Touches cpuAddr size page ↔
    0 < size ∧ cpuAddr / 4096 ≤ page ∧ page < (cpuAddr + size + 4095) / 4096 := by
  constructor
  · rintro ⟨x, lower, upper, rfl⟩
    simp only [bytesPerPage]
    omega
  · rintro ⟨positive, lower, upper⟩
    refine ⟨max cpuAddr (page * 4096), ?_, ?_, ?_⟩
    · omega
    · omega
    · simp only [bytesPerPage]
      omega

instance (cpuAddr size page : Nat) : Decidable (Touches cpuAddr size page) :=
  decidable_of_iff _ touches_iff.symm

/-- A byte of the range is in the region of the page. -/
def TouchesRegion (cpuAddr size page : Nat) : Prop :=
  ∃ x, cpuAddr ≤ x ∧ x < cpuAddr + size ∧ x / higherPageSize = page / pagesPerRegion

theorem touchesRegion_iff {cpuAddr size page : Nat} : TouchesRegion cpuAddr size page ↔
    0 < size ∧ cpuAddr / 2 ^ 22 ≤ page / 1024 ∧
      page / 1024 < (cpuAddr + size + (2 ^ 22 - 1)) / 2 ^ 22 := by
  constructor
  · rintro ⟨x, lower, upper, here⟩
    simp only [higherPageSize, higherPageBits, pagesPerRegion] at here
    omega
  · rintro ⟨positive, lower, upper⟩
    refine ⟨max cpuAddr (page / 1024 * 2 ^ 22), ?_, ?_, ?_⟩
    · omega
    · omega
    · simp only [higherPageSize, higherPageBits, pagesPerRegion]
      omega

instance (cpuAddr size page : Nat) : Decidable (TouchesRegion cpuAddr size page) :=
  decidable_of_iff _ touchesRegion_iff.symm

namespace MemoryTrackerBase

namespace RangeOp

/-- The pages that an operation on a range acts on. -/
def Reaches (op : RangeOp) (cpuAddr size page : Nat) : Prop :=
  match op with
  | .flushCachedWrites => TouchesRegion cpuAddr size page
  | _ => Touches cpuAddr size page

instance (op : RangeOp) (cpuAddr size page : Nat) : Decidable (op.Reaches cpuAddr size page) := by
  unfold Reaches
  split <;> infer_instance

/-- What an operation does to a page that it reaches. -/
def effect : RangeOp → PageState → PageState
  | .markRegionAsCpuModified => PageState.markCpu
  | .unmarkRegionAsCpuModified | .forEachUploadRange => PageState.unmarkCpu
  | .markRegionAsGpuModified => fun s => { s with gpu := true }
  | .unmarkRegionAsGpuModified => fun s => { s with gpu := false }
  | .markRegionAsPreflushable => fun s => { s with preflushable := true }
  | .unmarkRegionAsPreflushable => fun s => { s with preflushable := false }
  | .cachedCpuWrite => PageState.writeCached
  | .flushCachedWrites => PageState.flush
  | .forEachDownloadRange true | .forEachDownloadRangeAndClear =>
    fun s => { s with gpu := s.gpu && s.untracked }
  | .forEachDownloadRange false | .modifiedCpuRegion | .modifiedGpuRegion | .isRegionCpuModified
  | .isRegionGpuModified | .isRegionPreflushable => id

end RangeOp

/-- The pages of the range that are modified. -/
def Modified (pages : Nat → PageState) (type : PageType) (cpuAddr size page : Nat) : Prop :=
  Touches cpuAddr size page ∧ (pages page).modified type = true

/-- The bytes of a run of pages, as address and size. -/
def byteRange (run : Nat × Nat) : Nat × Nat :=
  (run.1 * bytesPerPage, (run.2 - run.1) * bytesPerPage)

/-- The tight region of the modified pages, or nothing. -/
def IsRegion (modified : Nat → Prop) (reply : Reply) : Prop :=
  ∃ hull, Runs.Hull modified hull ∧ reply = hull.elim (.region 0 0) fun run =>
    .region (run.1 * bytesPerPage) ((run.2 + 1) * bytesPerPage)

/-- Whether there is a modified page. -/
def IsFlag (modified : Nat → Prop) (reply : Reply) : Prop :=
  ∃ flag, reply = .flag flag ∧ (flag = true ↔ ∃ page, modified page)

/-- The runs of modified pages, in ascending order and each as long as its region allows. -/
def AreCalls (modified : Nat → Prop) (reply : Reply) : Prop :=
  ∃ runs, reply = .calls (runs.map byteRange) ∧
    Runs.Cut (pagesPerRegion ∣ ·) modified 0 (2 ^ (maxCpuPageBits - 12)) runs

/-- The reply is right for the pages as they are before the operation. -/
def RangeOp.Answers (pages : Nat → PageState) (cpuAddr size : Nat) : RangeOp → Reply → Prop
  | .modifiedCpuRegion => IsRegion (Modified pages .cpu cpuAddr size)
  | .modifiedGpuRegion => IsRegion (Modified pages .gpu cpuAddr size)
  | .isRegionCpuModified => IsFlag (Modified pages .cpu cpuAddr size)
  | .isRegionGpuModified => IsFlag (Modified pages .gpu cpuAddr size)
  | .isRegionPreflushable => IsFlag (Modified pages .preflushable cpuAddr size)
  | .forEachUploadRange => AreCalls (Modified pages .cpu cpuAddr size)
  | .forEachDownloadRange _ | .forEachDownloadRangeAndClear =>
    AreCalls (Modified pages .gpu cpuAddr size)
  | _ => fun reply => reply = .nothing

namespace Op

/-- A range inside the address space: `top_tier` has no region behind it. -/
def InSpace : Op → Prop
  | .range _ cpuAddr size => size = 0 ∨ cpuAddr + size ≤ 2 ^ maxCpuPageBits
  | .flushCachedWrites => True

instance (op : Op) : Decidable op.InSpace := by
  unfold InSpace
  split <;> infer_instance

/-- The operation is about a page. -/
def Reaches (op : Op) (page : Nat) : Prop :=
  match op with
  | .range op cpuAddr size => op.Reaches cpuAddr size page
  | .flushCachedWrites => True

instance (op : Op) (page : Nat) : Decidable (op.Reaches page) := by
  unfold Reaches
  split <;> infer_instance

/-- What it does to the page. -/
def effect : Op → PageState → PageState
  | .range op _ _ => op.effect
  | .flushCachedWrites => PageState.flush

/-- What it answers. -/
def Answers (pages : Nat → PageState) : Op → Reply → Prop
  | .range op cpuAddr size => op.Answers pages cpuAddr size
  | .flushCachedWrites => fun reply => reply = .nothing

/-- The two forms of `FlushCachedWrites`. -/
def IsFlush : Op → Prop
  | .range .flushCachedWrites _ _ | .flushCachedWrites => True
  | _ => False

/-- A mark of pages as modified by the CPU. -/
def IsCpuMark : Op → Prop
  | .range .markRegionAsCpuModified _ _ => True
  | _ => False

/-- The pages after one operation. -/
def pagesAfter (pages : Nat → PageState) (op : Op) (page : Nat) : PageState :=
  if op.Reaches page then op.effect (pages page) else pages page

end Op

/-- The pages after a sequence of operations. -/
def pagesAfter (ops : List Op) : Nat → PageState :=
  ops.foldl Op.pagesAfter fun _ => PageState.initial

end MemoryTrackerBase

end SumiEmu.VideoCore
