/-
# What a block says about its pages

All pages of a block have the same properties, and its first and its last page
carry the reasons not to merge it. Read so, splitting a block is a cut and
adding its neighbour undoes one, while the functions that change a block act on
the properties of its pages by themselves.
-/

import SumiEmu.Kernel.MemoryBlock

namespace SumiEmu.Kernel

open Tiling List
open KMemoryAttribute (ipcLocked deviceShared ignoreMask)
open KMemoryBlockDisableMergeAttribute (allLeft allRight)

/-- What the pages of a block share. -/
structure PageInfo where
  state : KMemoryState
  permission : KMemoryPermission
  originalPermission : KMemoryPermission
  attr : KMemoryAttribute
  ipcLockCount : BitVec 16
  deviceUseCount : BitVec 16
  deriving DecidableEq, Repr

namespace PageInfo

/-- Whether a page has the given properties, locks and uses aside. -/
def hasProperties (i : PageInfo) (s : KMemoryState) (p : KMemoryPermission)
    (a : KMemoryAttribute) : Bool :=
  i.state == s && i.permission == p && (i.attr ||| ignoreMask) == (a ||| ignoreMask)

/-- The page with new properties. Its lock and use attributes stay. -/
def update (s : KMemoryState) (p : KMemoryPermission) (a : KMemoryAttribute) (i : PageInfo) :
    PageInfo :=
  { i with state := s, permission := p, attr := a ||| (i.attr &&& ignoreMask) }

/-- The page with the attributes under a mask replaced. -/
def updateAttribute (mask attr : KMemoryAttribute) (i : PageInfo) : PageInfo :=
  { i with attr := (i.attr &&& ~~~mask) ||| attr }

/-- `ShareToDevice`, for a page. -/
def share (i : PageInfo) : PageInfo :=
  { i with deviceUseCount := i.deviceUseCount + 1, attr := i.attr ||| deviceShared }

/-- `UnshareToDevice`, for a page. -/
def unshare (i : PageInfo) : PageInfo :=
  { i with
    deviceUseCount := i.deviceUseCount - 1
    attr := if i.deviceUseCount == 1 then i.attr &&& ~~~deviceShared else i.attr }

/-- `LockForIpc`, for a page. -/
def lock (newPerm : KMemoryPermission) (i : PageInfo) : PageInfo :=
  let first := i.ipcLockCount + 1 == 1
  { i with
    ipcLockCount := i.ipcLockCount + 1
    originalPermission := if first then i.permission else i.originalPermission
    permission := if first then
        (newPerm &&& KMemoryPermission.ipcLockChangeMask) |||
          (i.permission &&& ~~~KMemoryPermission.ipcLockChangeMask)
      else i.permission
    attr := i.attr ||| ipcLocked }

/-- `UnlockForIpc`, for a page. -/
def unlock (i : PageInfo) : PageInfo :=
  let last := i.ipcLockCount == 1
  { i with
    ipcLockCount := i.ipcLockCount - 1
    permission := if last then i.originalPermission else i.permission
    originalPermission := if last then 0 else i.originalPermission
    attr := if last then i.attr &&& ~~~ipcLocked else i.attr }

end PageInfo

namespace KMemoryBlock

variable (b : KMemoryBlock)

/-- What a block says of its pages. -/
def pageInfo : PageInfo where
  state := b.memoryState
  permission := b.permission
  originalPermission := b.originalPermission
  attr := b.memoryAttribute
  ipcLockCount := b.ipcLockCount
  deviceUseCount := b.deviceUseCount

/-- The reasons at the first page not to merge. -/
def leftBits : BitVec 8 := b.disableMergeAttribute &&& allLeft

/-- The reasons at the last page not to merge. -/
def rightBits : BitVec 8 := b.disableMergeAttribute &&& allRight

/-- The reasons at the first page, with their counts. -/
def leftMark : BitVec 8 × BitVec 16 × BitVec 16 :=
  (b.leftBits, b.ipcDisableMergeCount, b.deviceDisableMergeLeftCount)

/-- The reasons at the last page, with their count. -/
def rightMark : BitVec 8 × BitVec 16 :=
  (b.rightBits, b.deviceDisableMergeRightCount)

/-- A block read with the bits that decide whether it merges. -/
abbrev bitReading : Reading KMemoryBlock PageInfo (BitVec 8) (BitVec 8) where
  lo := address
  hi := endAddress
  value := pageInfo
  left := leftBits
  right := rightBits

/-- A block read with all that is kept at its two ends. -/
abbrev markReading :
    Reading KMemoryBlock PageInfo (BitVec 8 × BitVec 16 × BitVec 16) (BitVec 8 × BitVec 16) where
  lo := address
  hi := endAddress
  value := pageInfo
  left := leftMark
  right := rightMark

/-- Both halves of a block between page boundaries. -/
theorem split_extent {b : KMemoryBlock} {x : Nat} (start : pageSize ∣ b.address)
    (aligned : pageSize ∣ x) (lower : b.address < x) (upper : x < b.endAddress) :
    (b.split x).1.endAddress = x ∧ (b.split x).2.endAddress = b.endAddress := by
  obtain ⟨i, hi⟩ := start
  obtain ⟨j, rfl⟩ := aligned
  simp only [endAddress, size, split, pageSize_eq] at *
  omega

/-- Splitting a block cuts it. -/
theorem isCut_split {b : KMemoryBlock} {x : Nat} (start : pageSize ∣ b.address)
    (aligned : pageSize ∣ x) (lower : b.address < x) (upper : x < b.endAddress) :
    markReading.IsCut b (b.split x).1 (b.split x).2 := by
  obtain ⟨hiLeft, hiRight⟩ := split_extent start aligned lower upper
  have disjoint : allLeft &&& allRight = 0#8 := rfl
  refine ⟨rfl, hiLeft, hiRight, ?_, ?_, rfl, rfl, ?_, ?_, ?_, ?_⟩
  · exact lower.trans_eq hiLeft.symm
  · exact upper.trans_eq hiRight.symm
  · simp [leftMark, leftBits, split, BitVec.and_assoc]
  · simp [rightMark, rightBits, split, BitVec.and_assoc, disjoint]
  · simp [leftMark, leftBits, split, BitVec.and_assoc, BitVec.and_comm allRight, disjoint]
  · simp [rightMark, rightBits, split, BitVec.and_assoc]

theorem isCut_bitReading {b c d : KMemoryBlock} (cut : markReading.IsCut b c d) :
    bitReading.IsCut b c d where
  lo_left := cut.lo_left
  meet := cut.meet
  hi_right := cut.hi_right
  proper_left := cut.proper_left
  proper_right := cut.proper_right
  value_left := cut.value_left
  value_right := cut.value_right
  left_outer := congrArg Prod.fst cut.left_outer
  right_inner := congrArg Prod.fst cut.right_inner
  left_inner := congrArg Prod.fst cut.left_inner
  right_outer := congrArg Prod.fst cut.right_outer

variable {l l' : List KMemoryBlock} {S : Nat → Prop}

theorem cuts_bitReading (cuts : markReading.Cuts S l l') : bitReading.Cuts S l l' := by
  refine Relation.ReflTransGen.mono (fun _ _ step => ?_) _ _ cuts
  induction step with
  | here cut point => exact .here (isCut_bitReading cut) point
  | cons _ ih => exact .cons ih

variable {b c : KMemoryBlock}

theorem hasSameProperties_iff :
    b.hasSameProperties c ↔ b.pageInfo = c.pageInfo := by
  simp [hasSameProperties, pageInfo, and_assoc]

/-- Neighbours can be merged exactly when nothing tells them apart. -/
theorem canMergeWith_iff :
    b.canMergeWith c ↔ b.pageInfo = c.pageInfo ∧ b.rightBits = 0 ∧ c.leftBits = 0 := by
  simp [canMergeWith, hasSameProperties_iff, rightBits, leftBits, and_assoc]

theorem separated_iff :
    bitReading.Separated b c ↔ b.canMergeWith c = false := by
  rw [← Bool.not_eq_true, canMergeWith_iff]
  simp only [Reading.Separated]
  tauto

theorem add_endAddress (meet : b.endAddress = c.address) :
    (b.add c).endAddress = c.endAddress := by
  show b.address + (b.numPages + c.numPages) * pageSize = c.address + c.size
  rw [Nat.add_mul, ← Nat.add_assoc]
  exact congrArg (· + c.size) meet

/-- Joining two neighbours that can be merged undoes a cut. -/
theorem isCut_add (merges : b.canMergeWith c)
    (properLeft : b.address < b.endAddress) (properRight : c.address < c.endAddress)
    (meet : b.endAddress = c.address) : bitReading.IsCut (b.add c) b c := by
  obtain ⟨same, right, left⟩ := canMergeWith_iff.mp merges
  refine ⟨rfl, meet, (add_endAddress meet).symm, properLeft, properRight, rfl, same.symm, ?_,
    right, left, ?_⟩
  · show b.leftBits = (b.disableMergeAttribute ||| c.disableMergeAttribute) &&& allLeft
    rw [BitVec.and_or_distrib_right, show c.disableMergeAttribute &&& allLeft = 0#8 from left]
    exact (BitVec.or_zero).symm
  · show c.rightBits = (b.disableMergeAttribute ||| c.disableMergeAttribute) &&& allRight
    rw [BitVec.and_or_distrib_right, show b.disableMergeAttribute &&& allRight = 0#8 from right]
    exact (BitVec.zero_or).symm

/-- Where no reason is set, none is counted. -/
def Marked : Prop :=
  (b.leftBits = 0 → b.leftMark = 0) ∧ (b.rightBits = 0 → b.rightMark = 0)

/-- Between blocks whose counts go with their bits, joining undoes a cut of
everything kept at the ends. -/
theorem isCut_add_of_marked (markedLeft : b.Marked) (markedRight : c.Marked)
    (merges : b.canMergeWith c) (properLeft : b.address < b.endAddress)
    (properRight : c.address < c.endAddress) (meet : b.endAddress = c.address) :
    markReading.IsCut (b.add c) b c ∧ (b.add c).Marked := by
  have cut := isCut_add merges properLeft properRight meet
  obtain ⟨-, right, left⟩ := canMergeWith_iff.mp merges
  have outerLeft : b.leftMark = (b.add c).leftMark := Prod.ext cut.left_outer rfl
  have outerRight : c.rightMark = (b.add c).rightMark := Prod.ext cut.right_outer rfl
  refine ⟨⟨rfl, meet, cut.hi_right, properLeft, properRight, rfl, cut.value_right, outerLeft,
    markedLeft.2 right, markedRight.1 left, outerRight⟩, fun none => ?_, fun none => ?_⟩
  · exact outerLeft.symm.trans (markedLeft.1 (cut.left_outer.trans none))
  · exact outerRight.symm.trans (markedRight.2 (cut.right_outer.trans none))

/-! ## Splitting and joining -/

/-- A block is split at a page boundary that satisfies `S`. -/
inductive SplitStep (S : Nat → Prop) : List KMemoryBlock → List KMemoryBlock → Prop
  | here {b : KMemoryBlock} {x : Nat} {l : List KMemoryBlock} : pageSize ∣ b.address →
      pageSize ∣ x → b.address < x → x < b.endAddress → S x →
      SplitStep S (b :: l) ((b.split x).1 :: (b.split x).2 :: l)
  | cons {b : KMemoryBlock} {l l' : List KMemoryBlock} :
      SplitStep S l l' → SplitStep S (b :: l) (b :: l')

/-- The second list comes from the first by splitting blocks. -/
abbrev Splits (S : Nat → Prop) : List KMemoryBlock → List KMemoryBlock → Prop :=
  Relation.ReflTransGen (SplitStep S)

theorem Splits.cons (b : KMemoryBlock) (splits : Splits S l l') : Splits S (b :: l) (b :: l') :=
  Relation.ReflTransGen.lift (b :: ·) (fun _ _ => .cons) _ _ splits

theorem Splits.append_left (l₁ : List KMemoryBlock)
    (splits : Splits S l l') : Splits S (l₁ ++ l) (l₁ ++ l') := by
  induction l₁ with
  | nil => exact splits
  | cons b l₁ ih => exact ih.cons b

theorem Splits.mono {S T : Nat → Prop} (weaker : ∀ x, S x → T x)
    (splits : Splits S l l') : Splits T l l' := by
  refine Relation.ReflTransGen.mono (fun _ _ step => ?_) _ _ splits
  induction step with
  | here start aligned lower upper point => exact .here start aligned lower upper (weaker _ point)
  | cons _ ih => exact .cons ih

variable {P : KMemoryBlock → Prop}

private theorem SplitStep.forall_mem (halves : ∀ b x, P b → P (b.split x).1 ∧ P (b.split x).2)
    (step : SplitStep S l l') (all : ∀ b ∈ l, P b) : ∀ b ∈ l', P b := by
  induction step with
  | @here b x l =>
    obtain ⟨whole, rest⟩ := forall_mem_cons.mp all
    obtain ⟨first, second⟩ := halves b x whole
    exact forall_mem_cons.mpr ⟨first, forall_mem_cons.mpr ⟨second, rest⟩⟩
  | cons _ ih =>
    obtain ⟨first, rest⟩ := forall_mem_cons.mp all
    exact forall_mem_cons.mpr ⟨first, ih rest⟩

/-- What holds of both halves of a block whenever it holds of the block. -/
theorem Splits.forall_mem (halves : ∀ b x, P b → P (b.split x).1 ∧ P (b.split x).2)
    (splits : Splits S l l') (all : ∀ b ∈ l, P b) : ∀ b ∈ l', P b := by
  induction splits with
  | refl => exact all
  | tail _ step ih => exact step.forall_mem halves ih

/-- Splitting cuts. -/
theorem Splits.cuts (splits : Splits S l l') :
    markReading.Cuts S l l' := by
  refine Relation.ReflTransGen.mono (fun _ _ step => ?_) _ _ splits
  induction step with
  | here start aligned lower upper point =>
    have cut := isCut_split start aligned lower upper
    exact .here cut (cut.meet ▸ point)
  | cons _ ih => exact .cons ih

/-- Two neighbours that can be merged become one block. -/
inductive JoinStep : List KMemoryBlock → List KMemoryBlock → Prop
  | here {b c : KMemoryBlock} {l : List KMemoryBlock} : b.canMergeWith c →
      b.address < b.endAddress → c.address < c.endAddress → b.endAddress = c.address →
      JoinStep (b :: c :: l) (b.add c :: l)
  | cons {b : KMemoryBlock} {l l' : List KMemoryBlock} : JoinStep l l' → JoinStep (b :: l) (b :: l')

/-- The second list comes from the first by merging neighbours. -/
abbrev Joins : List KMemoryBlock → List KMemoryBlock → Prop := Relation.ReflTransGen JoinStep

theorem Joins.append_left (l₁ : List KMemoryBlock)
    (joins : Joins l l') : Joins (l₁ ++ l) (l₁ ++ l') := by
  induction l₁ with
  | nil => exact joins
  | cons b l₁ ih => exact Relation.ReflTransGen.lift (b :: ·) (fun _ _ => .cons) _ _ ih

private theorem JoinStep.cutStep {β γ δ : Type*} [Zero γ] [Zero δ]
    {R : Reading KMemoryBlock β γ δ}
    (undoes : ∀ b c, P b → P c → b.canMergeWith c → b.address < b.endAddress →
      c.address < c.endAddress → b.endAddress = c.address → R.IsCut (b.add c) b c ∧ P (b.add c))
    (step : JoinStep l l') (all : ∀ b ∈ l, P b) :
    R.CutStep (fun _ => True) l' l ∧ ∀ b ∈ l', P b := by
  induction step with
  | @here b c l merges properLeft properRight meet =>
    simp only [forall_mem_cons] at all
    obtain ⟨cut, joined⟩ := undoes b c all.1 all.2.1 merges properLeft properRight meet
    exact ⟨.here cut trivial, forall_mem_cons.mpr ⟨joined, all.2.2⟩⟩
  | @cons b l l' _ ih =>
    obtain ⟨here, there⟩ := forall_mem_cons.mp all
    obtain ⟨cut, kept⟩ := ih there
    exact ⟨.cons cut, forall_mem_cons.mpr ⟨here, kept⟩⟩

private theorem Joins.undo {β γ δ : Type*} [Zero γ] [Zero δ] {R : Reading KMemoryBlock β γ δ}
    (undoes : ∀ b c, P b → P c → b.canMergeWith c → b.address < b.endAddress →
      c.address < c.endAddress → b.endAddress = c.address → R.IsCut (b.add c) b c ∧ P (b.add c))
    (joins : Joins l l') (all : ∀ b ∈ l, P b) :
    R.Cuts (fun _ => True) l' l ∧ ∀ b ∈ l', P b := by
  induction joins with
  | refl => exact ⟨.refl, all⟩
  | tail _ step ih =>
    obtain ⟨cuts, kept⟩ := ih
    obtain ⟨cut, kept⟩ := step.cutStep undoes kept
    exact ⟨.head cut cuts, kept⟩

private theorem JoinStep.forall_mem (sum : ∀ b c, P b → P c → P (b.add c)) (step : JoinStep l l')
    (all : ∀ b ∈ l, P b) : ∀ b ∈ l', P b := by
  induction step with
  | @here b c l =>
    obtain ⟨first, second, rest⟩ := forall_mem_cons.mp all |>.imp_right forall_mem_cons.mp
    exact forall_mem_cons.mpr ⟨sum b c first second, rest⟩
  | cons _ ih =>
    obtain ⟨first, rest⟩ := forall_mem_cons.mp all
    exact forall_mem_cons.mpr ⟨first, ih rest⟩

/-- What holds of a block joined from two whenever it holds of both. -/
theorem Joins.forall_mem (sum : ∀ b c, P b → P c → P (b.add c))
    (joins : Joins l l') (all : ∀ b ∈ l, P b) : ∀ b ∈ l', P b := by
  induction joins with
  | refl => exact all
  | tail _ step ih => exact step.forall_mem sum ih

/-- Merging undoes cuts of what decides about merging. -/
theorem Joins.cuts (joins : Joins l l') :
    bitReading.Cuts (fun _ => True) l' l :=
  (joins.undo (P := fun _ => True) (fun _ _ _ _ merges properLeft properRight meet =>
    ⟨isCut_add merges properLeft properRight meet, trivial⟩) fun _ _ => trivial).1

/-- Where the counts go with the bits, merging undoes cuts of everything. -/
theorem Joins.cuts_of_marked (joins : Joins l l') (marked : ∀ b ∈ l, b.Marked) :
    markReading.Cuts (fun _ => True) l' l ∧ ∀ b ∈ l', b.Marked :=
  joins.undo (fun _ _ => isCut_add_of_marked) marked

/-! ## The effect of the block functions on a page -/

@[simp] theorem update_pageInfo (s : KMemoryState) (p : KMemoryPermission)
    (a : KMemoryAttribute) (setDisableMergeAttr : Bool) (setMask clearMask : BitVec 8) :
    (b.update s p a setDisableMergeAttr setMask clearMask).pageInfo = b.pageInfo.update s p a := rfl

@[simp] theorem updateAttribute_pageInfo (mask attr : KMemoryAttribute) :
    (b.updateAttribute mask attr).pageInfo = b.pageInfo.updateAttribute mask attr := rfl

/-- Two blocks over the same pages, with the same properties. -/
def SamePages (b c : KMemoryBlock) : Prop :=
  b.address = c.address ∧ b.numPages = c.numPages ∧ b.pageInfo = c.pageInfo

theorem SamePages.trans {b c d : KMemoryBlock} (first : SamePages b c) (second : SamePages c d) :
    SamePages b d :=
  ⟨first.1.trans second.1, first.2.1.trans second.2.1, first.2.2.trans second.2.2⟩

namespace LockFunction

/-- The effect of a lock function on a page of the block. -/
def page : LockFunction → KMemoryPermission → PageInfo → PageInfo
  | .shareToDevice, _ => .share
  | .unshareToDevice, _ | .unshareToDeviceRight, _ => .unshare
  | .lockForIpc, newPerm => .lock newPerm
  | .unlockForIpc, _ => .unlock
  | _, _ => id

variable (b : KMemoryBlock) (perm : KMemoryPermission) (left right : Bool)

theorem shareLeft_samePages :
    SamePages (b.updateDeviceDisableMergeStateForShareLeft perm left right) b := by
  cases left <;> exact ⟨rfl, rfl, rfl⟩

theorem shareRight_samePages :
    SamePages (b.updateDeviceDisableMergeStateForShareRight perm left right) b := by
  cases right <;> exact ⟨rfl, rfl, rfl⟩

theorem unshareLeft_samePages :
    SamePages (b.updateDeviceDisableMergeStateForUnshareLeft perm left right) b := by
  rw [KMemoryBlock.updateDeviceDisableMergeStateForUnshareLeft]
  split <;> exact ⟨rfl, rfl, rfl⟩

theorem unshareRight_samePages :
    SamePages (b.updateDeviceDisableMergeStateForUnshareRight perm left right) b := by
  cases right <;> exact ⟨rfl, rfl, rfl⟩

theorem share_samePages :
    SamePages (b.updateDeviceDisableMergeStateForShare perm left right) b :=
  (shareRight_samePages _ perm left right).trans (shareLeft_samePages b perm left right)

theorem unshare_samePages :
    SamePages (b.updateDeviceDisableMergeStateForUnshare perm left right) b :=
  (unshareRight_samePages _ perm left right).trans (unshareLeft_samePages b perm left right)

/-- A lock function keeps the extent of the block and acts on every page alike. -/
theorem run_pages (f : LockFunction) :
    (f.run b perm left right).address = b.address ∧
      (f.run b perm left right).numPages = b.numPages ∧
      (f.run b perm left right).pageInfo = f.page perm b.pageInfo := by
  cases f with
  | updateDeviceDisableMergeStateForShareLeft => exact shareLeft_samePages _ perm left right
  | updateDeviceDisableMergeStateForShareRight => exact shareRight_samePages _ perm left right
  | updateDeviceDisableMergeStateForShare => exact share_samePages _ perm left right
  | shareToDevice => exact share_samePages _ perm left right
  | updateDeviceDisableMergeStateForUnshareLeft => exact unshareLeft_samePages _ perm left right
  | updateDeviceDisableMergeStateForUnshareRight => exact unshareRight_samePages _ perm left right
  | updateDeviceDisableMergeStateForUnshare => exact unshare_samePages _ perm left right
  | unshareToDevice => exact unshare_samePages _ perm left right
  | unshareToDeviceRight => exact unshareRight_samePages _ perm left right
  | lockForIpc => exact ⟨rfl, rfl, rfl⟩
  | unlockForIpc => exact ⟨rfl, rfl, rfl⟩

end LockFunction

end KMemoryBlock

end SumiEmu.Kernel
