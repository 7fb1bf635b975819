/-
# The memory block manager keeps its tree

A run is a list of calls of the four update functions, each with a fresh
allocator of two blocks. Along a run of calls that are in range, pass their
assertions and do not step off the tree, the blocks tile the managed space, no
two neighbours can be merged, every lock or share attribute has its count, and
the two blocks are enough.
-/

import SumiEmu.Kernel.MemoryBlockUpdate

namespace SumiEmu.Kernel.KMemoryBlockManager

open Tiling Fallible KMemoryBlock Bool
open KMemoryAttribute (ipcLocked deviceShared ignoreMask)

/-- A call of one of the four update functions, with its arguments. -/
inductive Call
  | update (address numPages : Nat) (state : KMemoryState) (perm : KMemoryPermission)
      (attr : KMemoryAttribute)
      (setDisableAttr clearDisableAttr : KMemoryBlockDisableMergeAttribute)
  | updateIfMatch (address numPages : Nat) (testState : KMemoryState)
      (testPerm : KMemoryPermission) (testAttr : KMemoryAttribute) (state : KMemoryState)
      (perm : KMemoryPermission) (attr : KMemoryAttribute)
      (setDisableAttr clearDisableAttr : KMemoryBlockDisableMergeAttribute)
  | updateLock (address numPages : Nat) (lockFunc : LockFunction) (perm : KMemoryPermission)
  | updateAttribute (address numPages : Nat) (mask attr : KMemoryAttribute)
  deriving Repr

namespace Call

/-- Where a call begins. -/
def address : Call → Nat
  | .update address .. | .updateIfMatch address .. | .updateLock address ..
  | .updateAttribute address .. => address

/-- How many pages a call is about. -/
def numPages : Call → Nat
  | .update _ numPages .. | .updateIfMatch _ numPages .. | .updateLock _ numPages ..
  | .updateAttribute _ numPages .. => numPages

/-- The end of the range. -/
def stop (c : Call) : Nat := c.address + c.numPages * pageSize

/-- Which blocks the call leaves alone. -/
def skip : Call → KMemoryBlock → Bool
  | .update _ _ state perm attr _ _ => fun b => b.hasProperties state perm attr
  | .updateIfMatch _ _ testState testPerm testAttr state perm attr _ _ => fun b =>
    !(b.hasProperties testState testPerm testAttr && !b.hasProperties state perm attr)
  | .updateLock .. => fun _ => false
  | .updateAttribute _ _ mask attr => fun b => (b.memoryAttribute &&& mask) == attr

/-- What the call does to the others. -/
def visit : Call → KMemoryBlock → KMemoryBlock
  | .update address _ state perm attr setDisableAttr clearDisableAttr => fun b =>
    b.update state perm attr (b.address == address) setDisableAttr clearDisableAttr
  | .updateIfMatch _ _ _ _ _ state perm attr setDisableAttr clearDisableAttr => fun b =>
    b.update state perm attr false setDisableAttr clearDisableAttr
  | .updateLock address numPages lockFunc perm => fun b =>
    lockFunc.run b perm (b.address == address) (b.endAddress == address + numPages * pageSize)
  | .updateAttribute _ _ mask attr => fun b => b.updateAttribute mask attr

/-- The assertions about the arguments, and for a lock function those about
the part of each block inside the range. `UpdateAttribute` does not assert that
the new attributes are free of locks, but its callers only pass attributes
under the mask, which it does assert. -/
def Asserted (m : KMemoryBlockManager) : Call → Prop
  | .update _ _ _ _ attr _ _ => attr &&& ignoreMask = 0
  | .updateIfMatch _ _ _ _ _ _ _ attr _ _ => attr &&& ignoreMask = 0
  | .updateLock address numPages lockFunc perm =>
    let stop := address + numPages * pageSize
    ∀ b ∈ m.blocks, meets address stop b → lockFunc.asserts (trim address stop b) perm
      ((trim address stop b).address == address) ((trim address stop b).endAddress == stop)
  | .updateAttribute _ _ mask attr => mask &&& ignoreMask = 0 ∧ attr &&& ignoreMask = 0

/-- The call is about whole pages of the managed space, and passes its assertions. -/
structure Admissible (m : KMemoryBlockManager) (c : Call) : Prop where
  aligned : pageSize ∣ c.address
  lower : m.startAddress ≤ c.address
  upper : c.stop ≤ m.endAddress
  asserted : c.Asserted m

/-- The call begins at the end of the managed space, or inside the first block
without splitting it. -/
def stepsOff (m : KMemoryBlockManager) (c : Call) : Bool :=
  KMemoryBlockManager.stepsOff c.skip m c.address c.numPages

end Call

/-- Make a call, with a fresh allocator. -/
def call (m : KMemoryBlockManager) : Call →
    Except Fault (KMemoryBlockManager × KMemoryBlockManagerUpdateAllocator)
  | .update address numPages state perm attr setDisableAttr clearDisableAttr =>
    m.update {} address numPages state perm attr setDisableAttr clearDisableAttr
  | .updateIfMatch address numPages testState testPerm testAttr state perm attr setDisableAttr
      clearDisableAttr =>
    m.updateIfMatch {} address numPages testState testPerm testAttr state perm attr setDisableAttr
      clearDisableAttr
  | .updateLock address numPages lockFunc perm =>
    m.updateLock {} address numPages lockFunc.run perm
  | .updateAttribute address numPages mask attr =>
    m.updateAttribute {} address numPages mask attr

/-- Make the calls of a list in turn. -/
def runCalls : KMemoryBlockManager → List Call → Except Fault KMemoryBlockManager
  | m, [] => .ok m
  | m, c :: calls => do
    let (m, _) ← m.call c
    runCalls m calls

/-- Every call of the run is admissible where it is made and does not step off the tree. -/
def Respects : KMemoryBlockManager → List Call → Prop
  | _, [] => True
  | m, c :: calls =>
    c.Admissible m ∧ c.stepsOff m = false ∧
      ∀ m' allocator, m.call c = .ok (m', allocator) → Respects m' calls

/-- The representation invariant. -/
structure WellFormed (m : KMemoryBlockManager) : Prop where
  nonempty : m.startAddress < m.endAddress
  aligned : pageSize ∣ m.startAddress
  tiles : BlocksTile m.startAddress m.blocks m.endAddress
  unmergeable : m.blocks.IsChain fun b c => b.canMergeWith c = false
  counted : ∀ b ∈ m.blocks, checkCounts b

theorem call_eq_updateBlocks (m : KMemoryBlockManager) (c : Call) :
    m.call c = updateBlocks c.skip c.visit m {} c.address c.numPages := by
  cases c <;> rfl

theorem skip_split (c : Call) (b : KMemoryBlock) (x : Nat) :
    c.skip (b.split x).1 = c.skip b ∧ c.skip (b.split x).2 = c.skip b := by
  cases c <;> exact ⟨rfl, rfl⟩

theorem visit_extent (c : Call) (b : KMemoryBlock) :
    (c.visit b).address = b.address ∧ (c.visit b).endAddress = b.endAddress := by
  cases c with
  | updateLock address numPages lockFunc perm =>
    have pages := LockFunction.run_pages b perm (b.address == address)
      (b.endAddress == address + numPages * pageSize) lockFunc
    exact ⟨pages.1, congrArg₂ (fun x n => x + n * pageSize) pages.1 pages.2.1⟩
  | _ => exact ⟨rfl, rfl⟩

/-! ## Counts -/

/-- A page that is locked or shared is counted as such. -/
def Counted (i : PageInfo) : Prop :=
  (i.attr &&& ipcLocked ≠ 0 → i.ipcLockCount ≠ 0) ∧
    (i.attr &&& deviceShared ≠ 0 → i.deviceUseCount ≠ 0)

theorem checkCounts_iff {b : KMemoryBlock} : checkCounts b ↔ Counted b.pageInfo := by
  simp only [checkCounts, Counted, pageInfo]
  simp
  tauto

theorem counted_congr {i j : PageInfo} (attr : i.attr &&& ignoreMask = j.attr &&& ignoreMask)
    (locks : i.ipcLockCount = j.ipcLockCount) (uses : i.deviceUseCount = j.deviceUseCount) :
    Counted i ↔ Counted j := by
  have part (x : KMemoryAttribute) : x &&& ipcLocked = (x &&& ignoreMask) &&& ipcLocked ∧
      x &&& deviceShared = (x &&& ignoreMask) &&& deviceShared := by
    simp only [BitVec.and_assoc]
    exact ⟨rfl, rfl⟩
  rw [Counted, Counted, (part i.attr).1, (part i.attr).2, (part j.attr).1, (part j.attr).2, attr,
    locks, uses]

variable {i : PageInfo}

theorem counted_update (s : KMemoryState) (p : KMemoryPermission)
    {a : KMemoryAttribute} (asserted : a &&& ignoreMask = 0) :
    Counted (i.update s p a) ↔ Counted i := by
  refine counted_congr ?_ rfl rfl
  show (a ||| (i.attr &&& ignoreMask)) &&& ignoreMask = i.attr &&& ignoreMask
  rw [BitVec.and_or_distrib_right, asserted, BitVec.and_assoc, BitVec.and_self]
  exact BitVec.zero_or

theorem counted_updateAttribute {mask attr : KMemoryAttribute}
    (maskAsserted : mask &&& ignoreMask = 0) (asserted : attr &&& ignoreMask = 0) :
    Counted (i.updateAttribute mask attr) ↔ Counted i := by
  refine counted_congr ?_ rfl rfl
  have kept : ~~~mask &&& ignoreMask = ignoreMask := by revert maskAsserted; decide +revert
  show ((i.attr &&& ~~~mask) ||| attr) &&& ignoreMask = i.attr &&& ignoreMask
  rw [BitVec.and_or_distrib_right, asserted, BitVec.and_assoc, kept]
  exact BitVec.or_zero

/-- The lock bit and the share bit do not disturb each other. -/
private theorem attribute_bits (x : KMemoryAttribute) :
    (x ||| deviceShared) &&& ipcLocked = x &&& ipcLocked ∧
      (x &&& ~~~deviceShared) &&& ipcLocked = x &&& ipcLocked ∧
      (x &&& ~~~deviceShared) &&& deviceShared = 0 ∧
      (x ||| ipcLocked) &&& deviceShared = x &&& deviceShared ∧
      (x &&& ~~~ipcLocked) &&& deviceShared = x &&& deviceShared ∧
      (x &&& ~~~ipcLocked) &&& ipcLocked = 0 := by
  decide +revert

private theorem counted_unshare (counted : Counted i) : Counted i.unshare := by
  obtain ⟨-, keepsLock, dropsShare, -⟩ := attribute_bits i.attr
  simp only [Counted, PageInfo.unshare]
  split
  · rw [keepsLock, dropsShare]
    exact ⟨counted.1, fun shared => absurd rfl shared⟩
  · next more =>
    refine ⟨counted.1, fun _ none => more ?_⟩
    simpa using sub_eq_zero.mp none

private theorem counted_unlock (counted : Counted i) : Counted i.unlock := by
  obtain ⟨-, -, -, -, keepsShare, dropsLock⟩ := attribute_bits i.attr
  simp only [Counted, PageInfo.unlock]
  split
  · rw [keepsShare, dropsLock]
    exact ⟨fun locked => absurd rfl locked, counted.2⟩
  · next more =>
    refine ⟨fun _ none => more ?_, counted.2⟩
    simpa using sub_eq_zero.mp none

theorem counted_lockFunction {b : KMemoryBlock} {perm : KMemoryPermission} {left right : Bool}
    (f : LockFunction) (asserted : f.asserts b perm left right) (counted : Counted b.pageInfo) :
    Counted (f.page perm b.pageInfo) := by
  obtain ⟨keepsLock, -, -, keepsShare, -⟩ := attribute_bits b.memoryAttribute
  cases f with
  | shareToDevice =>
    simp only [LockFunction.asserts, shareToDeviceAsserts, and_eq_true, bne_iff_ne] at asserted
    exact ⟨fun locked => counted.1 (keepsLock ▸ locked), fun _ => asserted.1.2⟩
  | unshareToDevice | unshareToDeviceRight => exact counted_unshare counted
  | lockForIpc =>
    simp only [LockFunction.asserts, lockForIpcAsserts, and_eq_true, bne_iff_ne] at asserted
    exact ⟨fun _ => asserted.1.1.2, fun shared => counted.2 (keepsShare ▸ shared)⟩
  | unlockForIpc => exact counted_unlock counted
  | _ => exact counted

/-! ## Steps and runs -/

theorem checkLoop_of_tiles {s e : Nat} {prev : KMemoryBlock} {blocks : List KMemoryBlock}
    (tiles : BlocksTile s (prev :: blocks) e)
    (unmergeable : (prev :: blocks).IsChain fun b c => b.canMergeWith c = false)
    (counted : ∀ b ∈ prev :: blocks, checkCounts b) : checkLoop prev blocks := by
  induction blocks generalizing s prev with
  | nil => exact counted prev List.mem_cons_self
  | cons it rest ih =>
    obtain ⟨apart, others⟩ := List.isChain_cons_cons.mp unmergeable
    obtain ⟨-, restCounted⟩ := List.forall_mem_cons.mp counted
    have meet : it.address = prev.endAddress := tiles.2.2.1
    simp [checkLoop, apart, meet, restCounted it, ih tiles.2.2 others restCounted]

variable {m : KMemoryBlockManager}

theorem WellFormed.checkState (wf : m.WellFormed) : m.checkState := by
  have tiles := wf.tiles
  have unmergeable := wf.unmergeable
  have counted := wf.counted
  rw [KMemoryBlockManager.checkState]
  cases blocks : m.blocks with
  | nil => rfl
  | cons prev rest =>
    rw [blocks] at tiles unmergeable counted
    exact checkLoop_of_tiles tiles unmergeable counted

theorem initializeManager_wellFormed {st nd : Nat} (nonempty : st < nd) (start : pageSize ∣ st)
    (stop : pageSize ∣ nd) : (initializeManager st nd).WellFormed where
  nonempty := nonempty
  aligned := start
  tiles := by
    have whole : st + (nd - st) / pageSize * pageSize = nd := by
      rw [Nat.div_mul_cancel (Nat.dvd_sub stop start)]
      omega
    exact ⟨rfl, nonempty.trans_eq whole.symm, whole⟩
  unmergeable := .singleton _
  counted := by simp [initializeManager, initializeBlock, checkCounts]

/-- What the call does to a block it changes keeps the counts in order. -/
theorem counted_visit {c : Call} (asserted : c.Asserted m)
    {b p : KMemoryBlock} (source : b ∈ m.blocks) (met : meets c.address c.stop b)
    (piece : p = trim c.address c.stop b) (counted : Counted p.pageInfo) :
    Counted (c.visit p).pageInfo := by
  cases c with
  | update _ _ state perm attr | updateIfMatch _ _ _ _ _ state perm attr =>
    have plain : attr &&& ignoreMask = 0 := asserted
    rw [Call.visit, update_pageInfo]
    exact (counted_update state perm plain).mpr counted
  | updateLock address numPages lockFunc perm =>
    have holds := asserted b source met
    rw [← show p = trim address (address + numPages * pageSize) b from piece] at holds
    have pages := LockFunction.run_pages p perm (p.address == address)
      (p.endAddress == address + numPages * pageSize) lockFunc
    exact pages.2.2 ▸ counted_lockFunction lockFunc holds counted
  | updateAttribute address numPages mask attr =>
    obtain ⟨maskAsserted, attrAsserted⟩ : mask &&& ignoreMask = 0 ∧ attr &&& ignoreMask = 0 :=
      asserted
    rw [Call.visit, updateAttribute_pageInfo]
    exact (counted_updateAttribute maskAsserted attrAsserted).mpr counted

/-- An admissible call on a well-formed tree that does not step off it
completes, and leaves a well-formed tree of the same space. -/
theorem call_wellFormed (wf : m.WellFormed) {c : Call}
    (admissible : c.Admissible m) (on : c.stepsOff m = false) :
    ∃ m' allocator, m.call c = .ok (m', allocator) ∧ m'.WellFormed ∧
      m'.startAddress = m.startAddress ∧ m'.endAddress = m.endAddress := by
  have spec := updateBlocks_spec wf.tiles wf.aligned admissible.aligned admissible.lower
    admissible.upper (skip_split c) (visit_extent c)
  rw [show KMemoryBlockManager.stepsOff c.skip m c.address c.numPages = false from on] at spec
  obtain ⟨m', allocator, pieces, result, updated⟩ := spec
  have separated := updated.separated (wf.unmergeable.imp fun _ _ => separated_iff.mpr)
  refine ⟨m', allocator, (call_eq_updateBlocks m c).trans result,
    ⟨?_, ?_, updated.tiles (visit_extent c) wf.tiles, ?_, ?_⟩,
    updated.startAddress, updated.endAddress⟩
  · rw [updated.startAddress, updated.endAddress]
    exact wf.nonempty
  · rw [updated.startAddress]
    exact wf.aligned
  · exact separated.imp fun _ _ => separated_iff.mp
  · intro b member
    obtain ⟨q, changed, sameChanged⟩ :=
      (updated.joins.cuts.exists_value_iff b.pageInfo).mp ⟨b, member, rfl⟩
    obtain ⟨p, piece, rfl⟩ := List.mem_map.mp changed
    obtain ⟨source, sourceMember, samePiece⟩ :=
      (updated.splits.cuts.exists_value_iff p.pageInfo).mpr ⟨p, piece, rfl⟩
    have counted : Counted p.pageInfo :=
      samePiece ▸ checkCounts_iff.mp (wf.counted source sourceMember)
    rw [checkCounts_iff, ← sameChanged, touch]
    split
    · next touched =>
      simp only [and_eq_true, not_eq_true'] at touched
      obtain ⟨-, -, whole, wholeMember, met, cutOut⟩ := updated.fits p piece touched.1 touched.2
      exact counted_visit admissible.asserted wholeMember met cutOut counted
    · exact counted

/-- What an admissible call can do to a well-formed tree: it completes exactly
when it does not step off the tree, and the two blocks of its allocator are
always enough. -/
theorem call_outcome (wf : m.WellFormed) {c : Call} (admissible : c.Admissible m) :
    m.call c ≠ .error .allocatorExhausted ∧ ((∃ r, m.call c = .ok r) ↔ c.stepsOff m = false) := by
  cases off : c.stepsOff m with
  | false =>
    obtain ⟨m', allocator, result, -⟩ := call_wellFormed wf admissible off
    simp [result]
  | true =>
    have spec := updateBlocks_spec wf.tiles wf.aligned admissible.aligned admissible.lower
      admissible.upper (skip_split c) (visit_extent c)
    rw [show KMemoryBlockManager.stepsOff c.skip m c.address c.numPages = true from off,
      if_pos rfl, ← call_eq_updateBlocks] at spec
    simp [spec]

theorem runCalls_from_wellFormed (wf : m.WellFormed) {calls : List Call}
    (respects : Respects m calls) :
    ∃ m', runCalls m calls = .ok m' ∧ m'.WellFormed ∧ m'.startAddress = m.startAddress ∧
      m'.endAddress = m.endAddress := by
  induction calls generalizing m with
  | nil => exact ⟨m, rfl, wf, rfl, rfl⟩
  | cons c calls ih =>
    obtain ⟨admissible, on, others⟩ := respects
    obtain ⟨m₁, allocator, result, wf₁, start₁, stop₁⟩ := call_wellFormed wf admissible on
    obtain ⟨m₂, run, wf₂, start₂, stop₂⟩ := ih wf₁ (others m₁ allocator result)
    refine ⟨m₂, ?_, wf₂, start₂.trans start₁, stop₂.trans stop₁⟩
    rw [runCalls, result]
    exact run

/-- Every run whose calls are admissible and do not step off the tree
completes. The blocks it leaves tile the managed space, each has a page, no two
neighbours can be merged, and `CheckState` agrees. Whatever admissible call
comes next, two blocks are enough for it, and it completes exactly when it does
not step off the tree. -/
theorem runCalls_wellFormed {st nd : Nat} (nonempty : st < nd) (start : pageSize ∣ st)
    (stop : pageSize ∣ nd) {calls : List Call}
    (respects : Respects (initializeManager st nd) calls) :
    ∃ m, runCalls (initializeManager st nd) calls = .ok m ∧
      BlocksTile st m.blocks nd ∧ (∀ b ∈ m.blocks, 1 ≤ b.numPages) ∧
      (m.blocks.IsChain fun b c => b.canMergeWith c = false) ∧ m.checkState ∧
      ∀ c : Call, c.Admissible m → m.call c ≠ .error .allocatorExhausted ∧
        ((∃ r, m.call c = .ok r) ↔ c.stepsOff m = false) := by
  obtain ⟨m, run, wf, start', stop'⟩ :=
    runCalls_from_wellFormed (initializeManager_wellFormed nonempty start stop) respects
  have tiles : BlocksTile st m.blocks nd := by
    have tiles := wf.tiles
    rwa [start', stop'] at tiles
  refine ⟨m, run, tiles, fun b member => ?_, wf.unmergeable, wf.checkState,
    fun c => call_outcome wf⟩
  have proper := (tiles.bounds member).2.1
  by_contra empty
  have noPages : b.numPages = 0 := by omega
  simp [KMemoryBlock.endAddress, size, noPages] at proper

theorem runCalls_wellFormed_share :
    ∃ m, runCalls (initializeManager 0 0x10000) [.updateLock 0x5000 1 .shareToDevice 0] = .ok m ∧
      BlocksTile 0 m.blocks 0x10000 ∧ (∀ b ∈ m.blocks, 1 ≤ b.numPages) ∧
      (m.blocks.IsChain fun b c => b.canMergeWith c = false) ∧ m.checkState ∧
      ∀ c : Call, c.Admissible m → m.call c ≠ .error .allocatorExhausted ∧
        ((∃ r, m.call c = .ok r) ↔ c.stepsOff m = false) :=
  runCalls_wellFormed (by decide) (by decide) (by decide)
    ⟨⟨by decide, by decide, by decide, by simp only [Call.Asserted]; decide⟩, by decide,
      fun _ _ _ => trivial⟩

/-- Freeing a free page in the middle of the only block changes nothing, and
then steps off the tree. -/
theorem runCalls_steps_off :
    (Call.update 0x5000 1 KMemoryState.free 0 0 0 0).Admissible (initializeManager 0 0x10000) ∧
      ¬ ∃ m, runCalls (initializeManager 0 0x10000)
        [.update 0x5000 1 KMemoryState.free 0 0 0 0] = .ok m := by
  refine ⟨⟨by decide, by decide, by decide, by simp only [Call.Asserted]; decide⟩, ?_⟩
  rintro ⟨m, run⟩
  have fault : runCalls (initializeManager 0 0x10000)
      [.update 0x5000 1 KMemoryState.free 0 0 0 0] = .error .nullIterator := by decide
  rw [fault] at run
  cases run

end SumiEmu.Kernel.KMemoryBlockManager

/-!
## Updates as changes of a page map

Seen from outside, the manager is a map from pages to their properties. An
update applies one function to every page of its range and leaves all other
pages alone, however the pages are grouped into blocks.
-/

namespace SumiEmu.Kernel.KMemoryBlockManager

open Tiling KMemoryBlock Bool
open KMemoryAttribute (ignoreMask)

/-- The properties of the page at an address. -/
def pageAt (m : KMemoryBlockManager) (x : Nat) : Option PageInfo :=
  valueAt KMemoryBlock.address KMemoryBlock.endAddress pageInfo m.blocks x

namespace Call

/-- What a call does to each page of its range. -/
def page : Call → PageInfo → PageInfo
  | .update _ _ state perm attr _ _ => PageInfo.update state perm attr
  | .updateIfMatch _ _ testState testPerm testAttr state perm attr _ _ => fun i =>
    if i.hasProperties testState testPerm testAttr then i.update state perm attr else i
  | .updateLock _ _ lockFunc perm => lockFunc.page perm
  | .updateAttribute _ _ mask attr => fun i =>
    if i.attr &&& mask ≠ attr then i.updateAttribute mask attr else i

/-- What `Update` and `UpdateIfMatch` assert about the new attributes. -/
def AttrAsserted : Call → Prop
  | .update _ _ _ _ attr _ _ | .updateIfMatch _ _ _ _ _ _ _ attr _ _ => attr &&& ignoreMask = 0
  | _ => True

end Call

/-- Updating a page that has the properties already does nothing. -/
theorem update_eq_self {i : PageInfo} {s : KMemoryState} {p : KMemoryPermission}
    {a : KMemoryAttribute} (asserted : a &&& ignoreMask = 0) (has : i.hasProperties s p a) :
    i.update s p a = i := by
  simp only [PageInfo.hasProperties, and_eq_true, beq_iff_eq] at has
  obtain ⟨⟨rfl, rfl⟩, same⟩ := has
  have attr : a ||| (i.attr &&& ignoreMask) = i.attr := by
    ext k inside
    have clear : (a[k] && ignoreMask[k]) = false := by
      simpa using congrArg (fun x => x[k]) asserted
    have agree : (i.attr[k] || ignoreMask[k]) = (a[k] || ignoreMask[k]) := by
      simpa using congrArg (fun x => x[k]) same
    rw [BitVec.getElem_or, BitVec.getElem_and]
    -- either the bit is under the mask, and is the old one, or it is not, and both agree
    cases masked : ignoreMask[k] <;> simp_all
  cases i
  simp only [PageInfo.update] at attr ⊢
  rw [attr]

/-- A skipped block has pages on which the call has no effect. -/
theorem page_of_skip {c : Call} (asserted : c.AttrAsserted) {b : KMemoryBlock}
    (skips : c.skip b) : c.page b.pageInfo = b.pageInfo := by
  cases c with
  | update => exact update_eq_self asserted skips
  | updateIfMatch _ _ testState testPerm testAttr state perm attr =>
    simp only [Call.skip, not_eq_true', and_eq_false_iff, not_eq_false'] at skips
    refine ite_eq_right_iff.mpr fun same => ?_
    rcases skips with other | has
    · exact absurd (same.symm.trans other) true_eq_false.mp
    · exact update_eq_self asserted has
  | updateLock => cases skips
  | updateAttribute address numPages mask attr =>
    exact if_neg (not_not.mpr (beq_iff_eq.mp skips))

/-- A block that is not skipped is changed page by page. -/
theorem page_of_visit {c : Call} {b : KMemoryBlock} (visited : c.skip b = false) :
    (c.visit b).pageInfo = c.page b.pageInfo := by
  cases c with
  | update => rfl
  | updateIfMatch _ _ testState testPerm testAttr state perm attr =>
    simp only [Call.skip, not_eq_false', and_eq_true] at visited
    exact (if_pos visited.1).symm
  | updateLock address numPages lockFunc perm => exact (LockFunction.run_pages ..).2.2
  | updateAttribute address numPages mask attr =>
    exact (if_pos (beq_eq_false_iff_ne.mp visited)).symm

/-- A completed update is the page function over the range, and nothing outside it. -/
theorem Updated.pageAt_eq {m m' : KMemoryBlockManager} {c : Call} {pieces : List KMemoryBlock}
    (asserted : c.AttrAsserted) (updated : Updated c.skip c.visit m c.address c.numPages pieces m')
    (x : Nat) :
    m'.pageAt x =
      if c.address ≤ x ∧ x < c.stop then (m.pageAt x).map c.page else m.pageAt x := by
  have acts : ∀ p ∈ pieces, p.address ≤ x → x < p.endAddress →
      (touch c.skip c.visit c.address c.stop p).pageInfo =
        (if c.address ≤ x ∧ x < c.stop then c.page else id) p.pageInfo := by
    intro p member lower upper
    by_cases inRange : c.address ≤ x ∧ x < c.stop
    · rw [if_pos inRange]
      cases skips : c.skip p with
      | true =>
        rw [touch_eq_self (.inr (.inr (.inr skips))), page_of_skip asserted skips]
      | false =>
        rw [touch_eq_visit (by omega) (by omega) (by omega) skips, page_of_visit skips]
    · rw [if_neg inRange, touch]
      split
      · next touched =>
        simp only [and_eq_true, not_eq_true'] at touched
        obtain ⟨low, high, -⟩ := updated.fits p member touched.1 touched.2
        exact absurd ⟨low.trans lower, upper.trans_le high⟩ inRange
      · rfl
  have changed := valueAt_map (touch c.skip c.visit c.address c.stop)
    (fun x => if c.address ≤ x ∧ x < c.stop then c.page else id)
    (fun p _ => touch_extent _ _ _ p (visit_extent c)) x acts
  calc m'.pageAt x
      = valueAt KMemoryBlock.address KMemoryBlock.endAddress pageInfo
          (pieces.map (touch c.skip c.visit c.address c.stop)) x := updated.joins.cuts.valueAt_eq x
    _ = (m.pageAt x).map (if c.address ≤ x ∧ x < c.stop then c.page else id) := by
        rw [changed]
        exact congrArg _ (updated.splits.cuts.valueAt_eq x).symm
    _ = _ := by split <;> simp

/-- On a tree that tiles the managed space, a call over whole pages of it
completes as a change of exactly the pages of its range if and only if it does
not step off the tree. -/
theorem call_refines_pageMap {m : KMemoryBlockManager} (aligned : pageSize ∣ m.startAddress)
    (tiles : BlocksTile m.startAddress m.blocks m.endAddress) {c : Call}
    (rangeAligned : pageSize ∣ c.address) (lower : m.startAddress ≤ c.address)
    (upper : c.stop ≤ m.endAddress) (asserted : c.AttrAsserted) :
    (∃ m' allocator, m.call c = .ok (m', allocator) ∧ ∀ x, m'.pageAt x =
        if c.address ≤ x ∧ x < c.stop then (m.pageAt x).map c.page else m.pageAt x) ↔
      c.stepsOff m = false := by
  have spec := updateBlocks_spec tiles aligned rangeAligned lower upper (skip_split c)
    (visit_extent c)
  rw [← call_eq_updateBlocks] at spec
  cases off : c.stepsOff m with
  | true =>
    rw [show KMemoryBlockManager.stepsOff c.skip m c.address c.numPages = true from off,
      if_pos rfl] at spec
    simp [spec]
  | false =>
    rw [show KMemoryBlockManager.stepsOff c.skip m c.address c.numPages = false from off] at spec
    obtain ⟨m', allocator, pieces, result, updated⟩ := spec
    exact iff_of_true ⟨m', allocator, result, updated.pageAt_eq asserted⟩ rfl

theorem call_refines_pageMap_update :
    (∃ m' allocator, (initializeManager 0 0x10000).call (.update 0x5000 1 3 0x1B 0 0 0) =
        .ok (m', allocator) ∧ ∀ x, m'.pageAt x =
          if 0x5000 ≤ x ∧ x < 0x6000 then
            ((initializeManager 0 0x10000).pageAt x).map (PageInfo.update 3 0x1B 0)
          else (initializeManager 0 0x10000).pageAt x) ↔
      (Call.update 0x5000 1 3 0x1B 0 0 0).stepsOff (initializeManager 0 0x10000) = false :=
  call_refines_pageMap (c := .update 0x5000 1 3 0x1B 0 0 0) (by decide)
    (initializeManager_wellFormed (by decide) (by decide) (by decide)).tiles
    (by decide) (by decide) (by decide) rfl

/-- The update that steps off the tree does not complete, though every page of
its range has the properties already. -/
theorem call_update_faults :
    ¬ ∃ m' allocator, (initializeManager 0 0x10000).call
        (.update 0x5000 1 KMemoryState.free 0 0 0 0) = .ok (m', allocator) := by
  rintro ⟨m', allocator, result⟩
  have fault : (initializeManager 0 0x10000).call (.update 0x5000 1 KMemoryState.free 0 0 0 0) =
      .error .nullIterator := by decide
  rw [fault] at result
  cases result

end SumiEmu.Kernel.KMemoryBlockManager
