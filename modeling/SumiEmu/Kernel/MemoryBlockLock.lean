/-
# Locking and unlocking

Unlocking a range that has been locked restores the blocks the tree had before,
with everything in them. A lock changes the properties of the pages of the
range, the reasons not to merge at its first page and, for a device, those at
its last page. Each of the three is undone by the unlock, and a tree in which
nothing is left to merge is determined by them.
-/

import SumiEmu.Kernel.MemoryBlockInvariant

namespace SumiEmu.Kernel.KMemoryBlockManager

open Tiling KMemoryBlock
open KMemoryAttribute (ipcLocked deviceShared)
open KMemoryBlockDisableMergeAttribute (deviceLeft deviceRight ipcLeft allLeft allRight)

/-- The functions that undo one another: first the one that locks. -/
inductive Undoes : LockFunction → LockFunction → Prop
  | ipc : Undoes .lockForIpc .unlockForIpc
  | device : Undoes .shareToDevice .unshareToDevice

/-- What the lock functions do to the reasons at the first page of the range. -/
def onLeft : LockFunction → BitVec 8 × BitVec 16 × BitVec 16 → BitVec 8 × BitVec 16 × BitVec 16
  | .lockForIpc, (bits, ipc, device) => (bits ||| ipcLeft, ipc + 1, device)
  | .unlockForIpc, (bits, ipc, device) =>
    (if ipc == 1 then bits &&& ~~~ipcLeft else bits, ipc - 1, device)
  | .shareToDevice, (bits, ipc, device) => (bits ||| deviceLeft, ipc, device + 1)
  | .unshareToDevice, (bits, ipc, device) =>
    (if device == 1 then bits &&& ~~~deviceLeft else bits, ipc, device - 1)
  | _, mark => mark

/-- What the lock functions do to the reasons at the last page of the range. -/
def onRight : LockFunction → BitVec 8 × BitVec 16 → BitVec 8 × BitVec 16
  | .shareToDevice, (bits, count) => (bits ||| deviceRight, count + 1)
  | .unshareToDevice, (bits, count) =>
    (if count == 1 then bits &&& ~~~deviceRight else bits, count - 1)
  | _, mark => mark

/-- The reasons at a first page match their counts, which do not exceed those of the page. -/
def LeftMatched (i : PageInfo) (mark : BitVec 8 × BitVec 16 × BitVec 16) : Prop :=
  (mark.1 &&& ipcLeft ≠ 0 ↔ mark.2.1 ≠ 0) ∧ (mark.1 &&& deviceLeft ≠ 0 ↔ mark.2.2 ≠ 0) ∧
    mark.2.1 ≤ i.ipcLockCount ∧ mark.2.2 ≤ i.deviceUseCount

/-- The reasons at a last page match their count, which does not exceed that of the page. -/
def RightMatched (i : PageInfo) (mark : BitVec 8 × BitVec 16) : Prop :=
  (mark.1 &&& deviceRight ≠ 0 ↔ mark.2 ≠ 0) ∧ mark.2 ≤ i.deviceUseCount

/-- The disable-merge counts of a block match its bits and do not exceed its
lock and use counts, and only the bits the source defines are in use. -/
structure CountsMatch (b : KMemoryBlock) : Prop where
  ipcLeft_iff : b.disableMergeAttribute &&& ipcLeft ≠ 0 ↔ b.ipcDisableMergeCount ≠ 0
  deviceLeft_iff : b.disableMergeAttribute &&& deviceLeft ≠ 0 ↔ b.deviceDisableMergeLeftCount ≠ 0
  deviceRight_iff : b.disableMergeAttribute &&& deviceRight ≠ 0 ↔
    b.deviceDisableMergeRightCount ≠ 0
  ipc_le : b.ipcDisableMergeCount ≤ b.ipcLockCount
  left_le : b.deviceDisableMergeLeftCount ≤ b.deviceUseCount
  right_le : b.deviceDisableMergeRightCount ≤ b.deviceUseCount
  defined : b.disableMergeAttribute &&& (allLeft ||| allRight) = b.disableMergeAttribute

variable {b : KMemoryBlock}

theorem CountsMatch.left (fits : CountsMatch b) :
    LeftMatched b.pageInfo b.leftMark := by
  have bits : b.leftBits &&& ipcLeft = b.disableMergeAttribute &&& ipcLeft ∧
      b.leftBits &&& deviceLeft = b.disableMergeAttribute &&& deviceLeft := by
    simp only [leftBits, BitVec.and_assoc]
    exact ⟨rfl, rfl⟩
  refine ⟨?_, ?_, fits.ipc_le, fits.left_le⟩
  · rw [show b.leftMark.1 = b.leftBits from rfl, bits.1]
    exact fits.ipcLeft_iff
  · rw [show b.leftMark.1 = b.leftBits from rfl, bits.2]
    exact fits.deviceLeft_iff

theorem CountsMatch.right (fits : CountsMatch b) :
    RightMatched b.pageInfo b.rightMark := by
  have bits : b.rightBits &&& deviceRight = b.disableMergeAttribute &&& deviceRight := by
    simp only [rightBits, BitVec.and_assoc]
    rfl
  refine ⟨?_, fits.right_le⟩
  rw [show b.rightMark.1 = b.rightBits from rfl, bits]
  exact fits.deviceRight_iff

theorem leftMatched_zero (i : PageInfo) : LeftMatched i 0 := by
  simp [LeftMatched, BitVec.le_def]

theorem rightMatched_zero (i : PageInfo) : RightMatched i 0 := by
  simp [RightMatched, BitVec.le_def]

/-- Clearing a flag that is clear changes nothing, nor does setting it before. -/
private theorem flag_cleared : ∀ flag ∈ [ipcLocked, deviceShared, deviceRight],
    ∀ bits : BitVec 8, bits &&& flag = 0 →
      bits &&& ~~~flag = bits ∧ (bits ||| flag) &&& ~~~flag = bits := by
  decide

/-- Setting a flag that is set changes nothing. -/
private theorem flag_kept : ∀ flag ∈ [ipcLocked, deviceShared, deviceRight],
    ∀ bits : BitVec 8, bits &&& flag ≠ 0 → bits ||| flag = bits := by
  decide

/-- Setting a reason and clearing it with its last count restores it. -/
theorem bits_restored {flag bits : BitVec 8} {count : BitVec 16}
    (known : flag ∈ [deviceLeft, ipcLeft, deviceRight]) (matched : bits &&& flag ≠ 0 ↔ count ≠ 0) :
    (if count = 0#16 then (bits ||| flag) &&& ~~~flag else bits ||| flag) = bits := by
  split
  · next none =>
    exact (flag_cleared flag known bits (not_ne_iff.mp (mt matched.mp (not_not.mpr none)))).2
  · next some => exact flag_kept flag known bits (matched.mpr some)

variable {f g : LockFunction}
variable {mark : BitVec 8 × BitVec 16 × BitVec 16}

theorem onLeft_undo (pair : Undoes f g) {i : PageInfo} (matched : LeftMatched i mark) :
    onLeft g (onLeft f mark) = mark := by
  obtain ⟨bits, ipc, device⟩ := mark
  cases pair with
  | ipc => simp [onLeft, bits_restored (by simp) matched.1]
  | device => simp [onLeft, bits_restored (by simp) matched.2.1]

theorem onRight_undo (pair : Undoes f g) {i : PageInfo}
    {mark : BitVec 8 × BitVec 16} (matched : RightMatched i mark) :
    onRight g (onRight f mark) = mark := by
  obtain ⟨bits, count⟩ := mark
  cases pair with
  | ipc => rfl
  | device => simp [onRight, bits_restored (by simp) matched.1]

/-- What a lock does to a page, its unlock undoes. -/
theorem page_undo (pair : Undoes f g)
    {perm perm' : KMemoryPermission} {left right : Bool} (asserted : f.asserts b perm left right)
    (counted : Counted b.pageInfo) : g.page perm' (f.page perm b.pageInfo) = b.pageInfo := by
  cases pair with
  | ipc =>
    simp only [LockFunction.asserts, lockForIpcAsserts, Bool.and_eq_true, Bool.or_eq_true,
      beq_iff_eq, bne_iff_ne] at asserted
    obtain ⟨⟨⟨locked, -⟩, unlocked⟩, -⟩ := asserted
    have whenClear := flag_cleared ipcLocked (by decide) b.memoryAttribute
    have whenSet := flag_kept ipcLocked (by decide) b.memoryAttribute
    by_cases first : b.ipcLockCount = 0#16
    · have clear : b.memoryAttribute &&& ipcLocked = 0 := not_ne_iff.mp fun set =>
        counted.1 set first
      have original := unlocked.resolve_left (by simp [first])
      simp [LockFunction.page, PageInfo.lock, PageInfo.unlock, pageInfo, first, (whenClear clear).2,
        original.1.1]
    · have set := locked.resolve_right first
      simp [LockFunction.page, PageInfo.lock, PageInfo.unlock, pageInfo, first,
        whenSet (set.trans_ne (by decide))]
  | device =>
    simp only [LockFunction.asserts, shareToDeviceAsserts, Bool.and_eq_true, Bool.or_eq_true,
      beq_iff_eq, bne_iff_ne] at asserted
    obtain ⟨⟨shared, -⟩, -⟩ := asserted
    have whenClear := flag_cleared deviceShared (by decide) b.memoryAttribute
    have whenSet := flag_kept deviceShared (by decide) b.memoryAttribute
    by_cases first : b.deviceUseCount = 0#16
    · have clear : b.memoryAttribute &&& deviceShared = 0 := not_ne_iff.mp fun set =>
        counted.2 set first
      simp [LockFunction.page, PageInfo.share, PageInfo.unshare, pageInfo, first,
        (whenClear clear).2]
    · have set := shared.resolve_right first
      simp [LockFunction.page, PageInfo.share, PageInfo.unshare, pageInfo, first,
        whenSet (set.trans_ne (by decide))]

/-- A lock acts on the reasons at the ends it is told of. -/
theorem run_marks_lock (pair : Undoes f g) (b : KMemoryBlock)
    (perm : KMemoryPermission) (left right : Bool) :
    (f.run b perm left right).leftMark = (if left then onLeft f b.leftMark else b.leftMark) ∧
      (f.run b perm left right).rightMark = if right then onRight f b.rightMark
      else b.rightMark := by
  have disjoint : ipcLeft &&& allRight = 0#8 ∧ deviceLeft &&& allRight = 0#8 ∧
      deviceRight &&& allLeft = 0#8 := ⟨rfl, rfl, rfl⟩
  have included : ipcLeft &&& allLeft = ipcLeft ∧ deviceLeft &&& allLeft = deviceLeft ∧
      deviceRight &&& allRight = deviceRight := ⟨rfl, rfl, rfl⟩
  cases pair with
  | ipc =>
    cases left <;>
      simp [LockFunction.run, lockForIpc, onLeft, onRight, leftMark, rightMark, leftBits,
        rightBits, BitVec.and_or_distrib_right, disjoint, included]
  | device =>
    cases left <;> cases right <;>
      simp [LockFunction.run, shareToDevice, updateDeviceDisableMergeStateForShare,
        updateDeviceDisableMergeStateForShareLeft, updateDeviceDisableMergeStateForShareRight,
        onLeft, onRight, leftMark, rightMark, leftBits, rightBits, BitVec.and_or_distrib_right,
        disjoint, included]

/-- Dropping a device reason at the first page, where its count stays within
the uses that are left. -/
theorem unshareLeft_marks (perm : KMemoryPermission) {left : Bool} (right : Bool)
    (counted : left → b.deviceDisableMergeLeftCount ≠ 0)
    (room : (if left then b.deviceDisableMergeLeftCount - 1 else b.deviceDisableMergeLeftCount) ≤
      b.deviceUseCount)
    (settled : b.deviceDisableMergeLeftCount = 0 → b.leftBits &&& deviceLeft = 0) :
    (b.updateDeviceDisableMergeStateForUnshareLeft perm left right).leftMark =
        (if left then onLeft .unshareToDevice b.leftMark else b.leftMark) ∧
      (b.updateDeviceDisableMergeStateForUnshareLeft perm left right).rightMark = b.rightMark := by
  have kept : ~~~deviceLeft &&& allRight = allRight := by decide
  have swap : ~~~deviceLeft &&& allLeft = allLeft &&& ~~~deviceLeft := BitVec.and_comm _ _
  cases left with
  | false =>
    simp only [Bool.false_eq_true, if_false] at room
    have whole := (flag_cleared deviceLeft (by decide) b.leftBits · |>.1)
    simp only [leftBits, BitVec.and_assoc] at whole settled
    by_cases last : b.deviceDisableMergeLeftCount = 0#16
    · simp [KMemoryBlock.updateDeviceDisableMergeStateForUnshareLeft, last, leftMark, rightMark,
        leftBits, rightBits, BitVec.and_assoc, kept, swap, whole (settled last)]
    · simp [KMemoryBlock.updateDeviceDisableMergeStateForUnshareLeft, last, leftMark, rightMark,
        leftBits, rightBits, BitVec.not_lt.mpr room]
  | true =>
    simp only [if_true] at room
    have some : b.deviceDisableMergeLeftCount ≠ 0#16 := counted rfl
    by_cases last : b.deviceDisableMergeLeftCount = 1#16
    · simp [KMemoryBlock.updateDeviceDisableMergeStateForUnshareLeft, last, leftMark, rightMark,
        leftBits, rightBits, onLeft, BitVec.and_assoc, kept, swap]
    · have more : b.deviceDisableMergeLeftCount - 1#16 ≠ 0#16 := fun none =>
        last (by simpa using sub_eq_zero.mp none)
      have within : ¬ b.deviceUseCount < b.deviceDisableMergeLeftCount - 1#16 :=
        BitVec.not_lt.mpr room
      simp [KMemoryBlock.updateDeviceDisableMergeStateForUnshareLeft, last, some, more, within,
        leftMark, rightMark, leftBits, rightBits, onLeft]

/-- Dropping a device reason at the last page. -/
theorem unshareRight_marks (b : KMemoryBlock) (perm : KMemoryPermission) (left right : Bool) :
    (b.updateDeviceDisableMergeStateForUnshareRight perm left right).leftMark = b.leftMark ∧
      (b.updateDeviceDisableMergeStateForUnshareRight perm left right).rightMark =
        if right then onRight .unshareToDevice b.rightMark else b.rightMark := by
  have kept : ~~~deviceRight &&& allLeft = allLeft := by decide
  have swap : ~~~deviceRight &&& allRight = allRight &&& ~~~deviceRight := BitVec.and_comm _ _
  cases right <;> by_cases last : b.deviceDisableMergeRightCount = 1#16 <;>
    simp [KMemoryBlock.updateDeviceDisableMergeStateForUnshareRight, last, leftMark, rightMark,
      leftBits, rightBits, onRight, BitVec.and_assoc, kept, swap]

/-- An unlock does so as well, where the count of device reasons at the first
page stays within the count of uses. -/
theorem run_marks_unlock (pair : Undoes f g) (b : KMemoryBlock)
    {perm perm' : KMemoryPermission} (left right : Bool) {i : PageInfo}
    (matched : LeftMatched i mark) (noOverflow : f = .shareToDevice → left → mark.2.2 + 1 ≠ 0)
    (page : b.pageInfo = f.page perm i)
    (leftMark : b.leftMark = if left then onLeft f mark else mark) :
    (g.run b perm' left right).leftMark = (if left then onLeft g b.leftMark else b.leftMark) ∧
      (g.run b perm' left right).rightMark = if right then onRight g b.rightMark
      else b.rightMark := by
  have kept : ~~~ipcLeft &&& allRight = allRight ∧ ~~~deviceRight &&& allLeft = allLeft := by decide
  cases pair with
  | ipc =>
    cases left <;> by_cases last : b.ipcDisableMergeCount = 1#16 <;>
      simp [LockFunction.run, unlockForIpc, onLeft, onRight, KMemoryBlock.leftMark, rightMark,
        leftBits, rightBits, BitVec.and_assoc, last, kept, BitVec.and_comm (~~~ipcLeft) allLeft]
  | device =>
    have uses : b.deviceUseCount - 1 = i.deviceUseCount := by
      have same : b.deviceUseCount = i.deviceUseCount + 1 := congrArg PageInfo.deviceUseCount page
      simp [same]
    have count : b.deviceDisableMergeLeftCount = if left then mark.2.2 + 1 else mark.2.2 := by
      rw [show b.deviceDisableMergeLeftCount = b.leftMark.2.2 from rfl, leftMark]
      cases left <;> rfl
    have room : (if left then b.deviceDisableMergeLeftCount - 1
        else b.deviceDisableMergeLeftCount) ≤ b.dropDeviceUse.deviceUseCount := by
      rw [show b.dropDeviceUse.deviceUseCount = i.deviceUseCount from uses, count]
      cases left <;> simpa using matched.2.2.2
    have counted : left → b.deviceDisableMergeLeftCount ≠ 0 := by
      rintro rfl
      exact count.trans_ne (noOverflow rfl rfl)
    have settled : b.deviceDisableMergeLeftCount = 0 → b.leftBits &&& deviceLeft = 0 := by
      intro none
      cases left with
      | true => exact absurd none (counted rfl)
      | false =>
        rw [show b.leftBits = b.leftMark.1 from rfl, leftMark]
        exact not_ne_iff.mp (mt matched.2.1.mp (not_not.mpr (count.symm.trans none)))
    obtain ⟨leftMarks, rightMarks⟩ := unshareLeft_marks (b := b.dropDeviceUse) perm' right
      counted room settled
    have outer := unshareRight_marks
      (b.dropDeviceUse.updateDeviceDisableMergeStateForUnshareLeft perm' left right) perm' left
        right
    exact ⟨outer.1.trans leftMarks, outer.2.trans (by rw [rightMarks]; rfl)⟩

/-! ## The reasons between the pages -/

/-- The reasons not to merge at a first page. -/
def leftAt (m : KMemoryBlockManager) (x : Nat) : BitVec 8 × BitVec 16 × BitVec 16 :=
  markAt KMemoryBlock.address leftMark m.blocks x

/-- The reasons not to merge at a last page, by the address behind it. -/
def rightAt (m : KMemoryBlockManager) (x : Nat) : BitVec 8 × BitVec 16 :=
  markAt KMemoryBlock.endAddress rightMark m.blocks x

/-- The reasons at a first page after a lock of a range. -/
def leftAfter (f : LockFunction) (address x : Nat) (mark : BitVec 8 × BitVec 16 × BitVec 16) :
    BitVec 8 × BitVec 16 × BitVec 16 :=
  if x = address then onLeft f mark else mark

/-- The reasons at a last page after a lock of a range. -/
def rightAfter (f : LockFunction) (stop x : Nat) (mark : BitVec 8 × BitVec 16) :
    BitVec 8 × BitVec 16 :=
  if x = stop then onRight f mark else mark

section Pass

variable {m m' : KMemoryBlockManager} {f : LockFunction} {perm : KMemoryPermission}
  {address numPages : Nat} {pieces : List KMemoryBlock}

/-- Every piece a lock cuts out of the tree lies inside the range or outside. -/
theorem Updated.inside_or_outside
    (updated : Updated (fun _ => false) (Call.updateLock address numPages f perm).visit m address
      numPages pieces m')
    {p : KMemoryBlock} (member : p ∈ pieces) :
    (address ≤ p.address ∧ p.endAddress ≤ address + numPages * pageSize) ∨
      p.endAddress ≤ address ∨ address + numPages * pageSize ≤ p.address ∨ numPages = 0 := by
  by_cases met : meets address (address + numPages * pageSize) p
  · obtain ⟨lower, upper, -⟩ := updated.fits p member met rfl
    exact .inl ⟨lower, upper⟩
  · rw [meets_iff] at met
    simp only [pageSize_eq] at met ⊢
    omega

section

variable (tiles : BlocksTile m.startAddress m.blocks m.endAddress)

include tiles

section

variable
  (updated : Updated (fun _ => false) (Call.updateLock address numPages f perm).visit m address
    numPages pieces m')

include updated

/-- A piece says the same about its pages and its first page as the tree did. -/
theorem Updated.piece_reading {p : KMemoryBlock} (member : p ∈ pieces) :
    m.pageAt p.address = some p.pageInfo ∧ m.leftAt p.address = p.leftMark := by
  have piecesTile := (updated.splits.cuts.tiles_iff _ _).mp tiles
  have proper := (piecesTile.bounds member).2.1
  exact ⟨(updated.splits.cuts.valueAt_eq p.address).trans
      (piecesTile.valueAt_of_mem pageInfo member le_rfl proper),
    (updated.splits.cuts.leftAt_eq tiles p.address).trans
      (piecesTile.leftAt_of_mem leftMark member)⟩

/-- A piece begins where the range begins, and one ends where it ends. -/
theorem Updated.exists_ends (nonempty : 0 < numPages) (lower : m.startAddress ≤ address)
    (upper : address + numPages * pageSize ≤ m.endAddress) :
    (∃ p ∈ pieces, p.address = address) ∧
      ∃ p ∈ pieces, p.endAddress = address + numPages * pageSize := by
  have piecesTile := (updated.splits.cuts.tiles_iff _ _).mp tiles
  have proper : 0 < numPages * pageSize := Nat.mul_pos nonempty (by decide)
  constructor
  · obtain ⟨l₁, p, l₂, rfl, start, stop, -⟩ := piecesTile.exists_cover lower (by omega)
    refine ⟨p, by simp, ?_⟩
    rcases updated.inside_or_outside (p := p) (by simp) with inside | outside
    · exact le_antisymm start inside.1
    · have start : p.address ≤ address := start
      have stop : address < p.endAddress := stop
      omega
  · obtain ⟨l₁, p, l₂, rfl, start, stop, -⟩ :=
      piecesTile.exists_cover (x := address + numPages * pageSize - 1) (by omega) (by omega)
    refine ⟨p, by simp, ?_⟩
    have start : p.address ≤ address + numPages * pageSize - 1 := start
    have stop : address + numPages * pageSize - 1 < p.endAddress := stop
    rcases updated.inside_or_outside (p := p) (by simp) with inside | outside
    · omega
    · omega

/-- A lock changes the reasons at the two ends of its range, and no others. -/
theorem Updated.marks_eq (nonempty : 0 < numPages) (lower : m.startAddress ≤ address)
    (upper : address + numPages * pageSize ≤ m.endAddress)
    (acts : ∀ p ∈ pieces, address ≤ p.address → p.endAddress ≤ address + numPages * pageSize →
      ∀ left right, (left = true ↔ p.address = address) →
        (f.run p perm left right).leftMark = (if left then onLeft f p.leftMark else p.leftMark) ∧
        (f.run p perm left right).rightMark = if right then onRight f p.rightMark else p.rightMark)
    (leftMarked : ∀ x, (leftAfter f address x (m.leftAt x)).1 = 0 →
      leftAfter f address x (m.leftAt x) = 0)
    (rightMarked : ∀ x, (rightAfter f (address + numPages * pageSize) x (m.rightAt x)).1 = 0 →
      rightAfter f (address + numPages * pageSize) x (m.rightAt x) = 0) :
    (∀ x, m'.leftAt x = leftAfter f address x (m.leftAt x)) ∧
      ∀ x, m'.rightAt x = rightAfter f (address + numPages * pageSize) x (m.rightAt x) := by
  have piecesTile := (updated.splits.cuts.tiles_iff _ _).mp tiles
  have proper : 0 < numPages * pageSize := Nat.mul_pos nonempty (by decide)
  obtain ⟨firstPiece, lastPiece⟩ := updated.exists_ends tiles nonempty lower upper
  have extent := visit_extent (Call.updateLock address numPages f perm)
  -- on every piece, touched or not
  have changed : ∀ p ∈ pieces,
      (touch (fun _ => false) (Call.updateLock address numPages f perm).visit address
          (address + numPages * pageSize) p).leftMark = leftAfter f address p.address p.leftMark ∧
        (touch (fun _ => false) (Call.updateLock address numPages f perm).visit address
          (address + numPages * pageSize) p).rightMark =
            rightAfter f (address + numPages * pageSize) p.endAddress p.rightMark := by
    intro p member
    have pieceProper : p.address < p.endAddress := (piecesTile.bounds member).2.1
    rcases updated.inside_or_outside member with inside | outside
    · rw [touch_eq_visit (by omega) (by omega) (by omega) rfl]
      obtain ⟨left, right⟩ := acts p member inside.1 inside.2 (p.address == address)
        (p.endAddress == address + numPages * pageSize) beq_iff_eq
      simp only [Call.visit, left, right, leftAfter, rightAfter, beq_iff_eq, and_self]
    · rw [touch_eq_self (by omega), leftAfter, rightAfter, if_neg (by omega), if_neg (by omega)]
      exact ⟨rfl, rfl⟩
  have leftPieces : ∀ x, m.leftAt x = markAt KMemoryBlock.address leftMark pieces x :=
    updated.splits.cuts.leftAt_eq tiles
  have rightPieces : ∀ x, m.rightAt x = markAt KMemoryBlock.endAddress rightMark pieces x :=
    updated.splits.cuts.rightAt_eq tiles
  have marked : ∀ q ∈ pieces.map (touch (fun _ => false)
      (Call.updateLock address numPages f perm).visit address (address + numPages * pageSize)),
      q.Marked := by
    intro q touched
    obtain ⟨p, member, rfl⟩ := List.mem_map.mp touched
    have left := piecesTile.leftAt_of_mem leftMark member
    have right := piecesTile.rightAt_of_mem rightMark member
    constructor
    · intro none
      have here := leftMarked p.address
      rw [leftPieces, show markAt KMemoryBlock.address leftMark pieces p.address = _ from left,
        ← (changed p member).1] at here
      exact here none
    · intro none
      have here := rightMarked p.endAddress
      rw [rightPieces, show markAt KMemoryBlock.endAddress rightMark pieces p.endAddress = _ from
        right, ← (changed p member).2] at here
      exact here none
  have changedTile := tiles_map_touch (fun _ => false) address
    (address + numPages * pageSize) extent piecesTile
  have joined := (updated.joins.cuts_of_marked marked).1
  have joinedTile := (joined.tiles_iff _ _).mpr changedTile
  constructor
  · intro x
    rw [leftPieces]
    refine (joined.leftAt_eq joinedTile x).trans (markAt_map _ (leftAfter f address)
      (fun p _ => (touch_extent _ _ _ p extent).1) x ?_ fun p member here => ?_)
    · by_cases start : x = address
      · exact .inr (start ▸ firstPiece)
      · exact .inl (if_neg start)
    · exact (changed p member).1.trans (by rw [show p.address = x from here])
  · intro x
    rw [rightPieces]
    refine (joined.rightAt_eq joinedTile x).trans (markAt_map _
      (rightAfter f (address + numPages * pageSize)) (fun p _ => (touch_extent _ _ _ p extent).2) x
      ?_
      fun p member here => ?_)
    · by_cases last : x = address + numPages * pageSize
      · exact .inr (last ▸ lastPiece)
      · exact .inl (if_neg last)
    · exact (changed p member).2.trans (by rw [show p.endAddress = x from here])

end

end

end Pass

/-! ## The round trip -/

/-- Only the reasons the source defines are in use. -/
def Defined (b : KMemoryBlock) : Prop :=
  b.disableMergeAttribute &&& (allLeft ||| allRight) = b.disableMergeAttribute

theorem defined_split (b : KMemoryBlock) (x : Nat) :
    Defined (b.split x).1 ∧ Defined (b.split x).2 := by
  simp only [Defined, split, BitVec.and_assoc]
  exact ⟨rfl, rfl⟩

theorem defined_add {b c : KMemoryBlock} (first : Defined b) (second : Defined c) :
    Defined (b.add c) := by
  simp only [Defined, add] at *
  rw [BitVec.and_or_distrib_right, first, second]

private theorem defined_or {bits : BitVec 8} (flag : BitVec 8)
    (flagDefined : flag &&& (allLeft ||| allRight) = flag)
    (bitsDefined : bits &&& (allLeft ||| allRight) = bits) :
    (bits ||| flag) &&& (allLeft ||| allRight) = bits ||| flag := by
  rw [BitVec.and_or_distrib_right, bitsDefined, flagDefined]

private theorem defined_drop {bits mask : BitVec 8} {c : Prop} [Decidable c]
    (bitsDefined : bits &&& (allLeft ||| allRight) = bits) :
    (if c then bits &&& mask else bits) &&& (allLeft ||| allRight) =
      if c then bits &&& mask else bits := by
  split
  · rw [BitVec.and_assoc, BitVec.and_comm mask, ← BitVec.and_assoc, bitsDefined]
  · exact bitsDefined

private theorem defined_unshareLeft (perm : KMemoryPermission)
    (left right : Bool) (known : Defined b) :
    Defined (b.updateDeviceDisableMergeStateForUnshareLeft perm left right) := by
  rw [KMemoryBlock.updateDeviceDisableMergeStateForUnshareLeft]
  split
  · exact known
  · exact defined_drop known

private theorem defined_unshareRight (perm : KMemoryPermission)
    (left right : Bool) (known : Defined b) :
    Defined (b.updateDeviceDisableMergeStateForUnshareRight perm left right) := by
  rw [KMemoryBlock.updateDeviceDisableMergeStateForUnshareRight]
  split
  · exact defined_drop known
  · exact known

theorem defined_run (pair : Undoes f g)
    (known : Defined b) (perm : KMemoryPermission) (left right : Bool) :
    Defined (f.run b perm left right) ∧ Defined (g.run b perm left right) := by
  have setLeft := defined_or deviceLeft (by decide) known
  cases pair with
  | ipc =>
    have setIpc := defined_or ipcLeft (by decide) known
    constructor
    · cases left
      · exact known
      · exact setIpc
    · exact defined_drop known
  | device =>
    constructor
    · cases left <;> cases right
      · exact known
      · exact defined_or deviceRight (by decide) known
      · exact setLeft
      · exact defined_or deviceRight (by decide) setLeft
    · have dropped : Defined b.dropDeviceUse := known
      exact defined_unshareRight perm left right (defined_unshareLeft perm left right dropped)

/-- A block is determined by what it says about its pages and its ends. -/
theorem eq_of_reading {b c : KMemoryBlock} (definedLeft : Defined b) (definedRight : Defined c)
    (start : b.address = c.address) (stop : b.endAddress = c.endAddress)
    (page : b.pageInfo = c.pageInfo) (left : b.leftMark = c.leftMark)
    (right : b.rightMark = c.rightMark) : b = c := by
  have bits : b.disableMergeAttribute = c.disableMergeAttribute := by
    have leftBits : b.disableMergeAttribute &&& allLeft = c.disableMergeAttribute &&& allLeft :=
      congrArg Prod.fst left
    have rightBits : b.disableMergeAttribute &&& allRight = c.disableMergeAttribute &&& allRight :=
      congrArg Prod.fst right
    rw [← definedLeft, ← definedRight, BitVec.and_or_distrib_left, BitVec.and_or_distrib_left,
      leftBits, rightBits]
  have pages : b.numPages = c.numPages := by
    have same : b.address + b.numPages * pageSize = c.address + c.numPages * pageSize := stop
    simp only [pageSize_eq] at same
    omega
  cases b
  cases c
  simp_all [pageInfo, leftMark, rightMark]

/-- With nothing left to merge, the tree is determined by the properties of its
pages and the reasons between them. -/
theorem eq_of_denotation {m m' : KMemoryBlockManager} (start : m'.startAddress = m.startAddress)
    (stop : m'.endAddress = m.endAddress)
    (tiles : BlocksTile m.startAddress m.blocks m.endAddress)
    (tiles' : BlocksTile m'.startAddress m'.blocks m'.endAddress)
    (defined : ∀ b ∈ m.blocks, Defined b) (defined' : ∀ b ∈ m'.blocks, Defined b)
    (separated : m.blocks.IsChain bitReading.Separated)
    (separated' : m'.blocks.IsChain bitReading.Separated)
    (pages : ∀ x, m'.pageAt x = m.pageAt x) (lefts : ∀ x, m'.leftAt x = m.leftAt x)
    (rights : ∀ x, m'.rightAt x = m.rightAt x) : m' = m := by
  have withMarks : ∀ b c, bitReading.Separated b c → markReading.Separated b c := by
    rintro b c (value | right | left)
    · exact .inl value
    · exact .inr (.inl fun none => right (congrArg Prod.fst none))
    · exact .inr (.inr fun none => left (congrArg Prod.fst none))
  have same : m'.blocks = m.blocks := by
    refine Reading.eq_of_separated (R := markReading) (fun b inside c inside' => ?_) tiles'
      (start ▸ stop ▸ tiles) (separated'.imp withMarks) (separated.imp withMarks)
      (fun x _ => pages x) (fun x _ => lefts x) fun x _ => rights x
    exact eq_of_reading (defined' b inside) (defined c inside')
  cases m
  cases m'
  simp_all

section RoundTrip

variable {m m' : KMemoryBlockManager} {f g : LockFunction} {perm perm' : KMemoryPermission}
  {address numPages : Nat} {pieces : List KMemoryBlock}

/-- A lock of pages of the managed space never steps off the tree. -/
theorem updateLock_spec (startAligned : pageSize ∣ m.startAddress)
    (tiles : BlocksTile m.startAddress m.blocks m.endAddress) (aligned : pageSize ∣ address)
    (nonempty : 0 < numPages) (lower : m.startAddress ≤ address)
    (upper : address + numPages * pageSize ≤ m.endAddress) (f : LockFunction)
    (perm : KMemoryPermission) :
    ∃ m' allocator pieces, m.updateLock {} address numPages f.run perm = .ok (m', allocator) ∧
      Updated (fun _ => false) (Call.updateLock address numPages f perm).visit m address numPages
        pieces m' := by
  have spec := updateBlocks_spec tiles startAligned aligned lower upper
    (skip_split (.updateLock address numPages f perm))
    (visit_extent (.updateLock address numPages f perm))
  have proper : 0 < numPages * pageSize := Nat.mul_pos nonempty (by decide)
  have on : KMemoryBlockManager.stepsOff (Call.updateLock address numPages f perm).skip m address
      numPages = false := by
    have before : address ≠ m.endAddress := by omega
    simp [KMemoryBlockManager.stepsOff, before, nonempty.ne', Call.skip]
  rw [on] at spec
  exact spec

theorem leftMatched_at (wf : m.WellFormed) (matched : ∀ b ∈ m.blocks, CountsMatch b) {x : Nat}
    {i : PageInfo} (here : m.pageAt x = some i) : LeftMatched i (m.leftAt x) :=
  wf.tiles.forall_leftAt leftMatched_zero (fun b member => (matched b member).left) here

theorem rightMatched_at (wf : m.WellFormed) (matched : ∀ b ∈ m.blocks, CountsMatch b) {x : Nat}
    {i : PageInfo} (here : m.pageAt x = some i) : RightMatched i (m.rightAt (x + 1)) :=
  wf.tiles.forall_rightAt rightMatched_zero (fun b member => (matched b member).right) here

theorem leftAt_marked (matched : ∀ b ∈ m.blocks, CountsMatch b) (x : Nat)
    (none : (m.leftAt x).1 = 0) : m.leftAt x = 0 := by
  rcases markAt_cases KMemoryBlock.address leftMark m.blocks x with zero | ⟨b, member, same⟩
  · exact zero
  · obtain ⟨ipc, device, -⟩ := (matched b member).left
    rw [leftAt, same] at none ⊢
    rw [none] at ipc device
    have noIpc : b.leftMark.2.1 = 0 := not_ne_iff.mp (mt ipc.mpr (by simp))
    have noDevice : b.leftMark.2.2 = 0 := not_ne_iff.mp (mt device.mpr (by simp))
    exact Prod.ext none (Prod.ext noIpc noDevice)

theorem rightAt_marked (matched : ∀ b ∈ m.blocks, CountsMatch b) (x : Nat)
    (none : (m.rightAt x).1 = 0) : m.rightAt x = 0 := by
  rcases markAt_cases KMemoryBlock.endAddress rightMark m.blocks x with zero | ⟨b, member, same⟩
  · exact zero
  · obtain ⟨device, -⟩ := (matched b member).right
    rw [rightAt, same] at none ⊢
    rw [none] at device
    exact Prod.ext none (not_ne_iff.mp (mt device.mpr (by simp)))

/-- A lock leaves a reason at every end it changes. -/
theorem onLeft_ne_zero (pair : Undoes f g) (mark : BitVec 8 × BitVec 16 × BitVec 16) :
    (onLeft f mark).1 ≠ 0 := by
  have set : ∀ bits : BitVec 8, bits ||| ipcLeft ≠ 0 ∧ bits ||| deviceLeft ≠ 0 := by decide
  cases pair with
  | ipc => exact (set mark.1).1
  | device => exact (set mark.1).2

theorem onRight_ne_zero (pair : Undoes f g) (mark : BitVec 8 × BitVec 16) :
    onRight f mark = mark ∨ (onRight f mark).1 ≠ 0 := by
  have set : ∀ bits : BitVec 8, bits ||| deviceRight ≠ 0 := by decide
  cases pair with
  | ipc => exact .inl rfl
  | device => exact .inr (set mark.1)

/-- The assertions of a lock, on the piece it cuts out around a page. -/
theorem asserted_piece
    (asserted : (Call.updateLock address numPages f perm).Asserted m)
    (updated : Updated (fun _ => false) (Call.updateLock address numPages f perm).visit m address
      numPages pieces m')
    {p : KMemoryBlock} (member : p ∈ pieces)
    (met : meets address (address + numPages * pageSize) p) :
    f.asserts p perm (p.address == address) (p.endAddress == address + numPages * pageSize) := by
  obtain ⟨-, -, b, source, sourceMet, rfl⟩ := updated.fits p member met rfl
  exact asserted b source sourceMet

/-- Around every page of the range a piece is cut out that passes the assertions. -/
theorem exists_asserted_piece (wf : m.WellFormed)
    (asserted : (Call.updateLock address numPages f perm).Asserted m)
    (updated : Updated (fun _ => false) (Call.updateLock address numPages f perm).visit m address
      numPages pieces m')
    {x : Nat} {i : PageInfo} (start : address ≤ x) (stop : x < address + numPages * pageSize)
    (here : m.pageAt x = some i) :
    ∃ p ∈ pieces, p.pageInfo = i ∧ p.address ≤ x ∧ x < p.endAddress ∧ Counted i ∧
      f.asserts p perm (p.address == address) (p.endAddress == address + numPages * pageSize) := by
  have piecesTile := (updated.splits.cuts.tiles_iff _ _).mp wf.tiles
  have known := (wf.tiles.valueAt_isSome_iff pageInfo x).mp (by rw [← pageAt, here]; rfl)
  obtain ⟨l₁, p, l₂, rfl, lower, upper, -⟩ := piecesTile.exists_cover known.1 known.2
  have lower : p.address ≤ x := lower
  have upper : x < p.endAddress := upper
  have same : p.pageInfo = i := by
    have value := piecesTile.valueAt_of_mem pageInfo (a := p) (by simp) lower upper
    rw [← updated.splits.cuts.valueAt_eq x] at value
    exact Option.some.inj (value.symm.trans here)
  obtain ⟨b, source, sameSource⟩ :=
    (updated.splits.cuts.exists_value_iff p.pageInfo).mpr ⟨p, by simp, rfl⟩
  refine ⟨p, by simp, same, lower, upper, ?_, asserted_piece asserted updated (by simp)
    (meets_iff.mpr (by omega))⟩
  exact (sameSource.trans same) ▸ checkCounts_iff.mp (wf.counted b source)

/-- Locking pages and unlocking them again restores the tree. -/
theorem lock_unlock (pair : Undoes f g) (wf : m.WellFormed)
    (matched : ∀ b ∈ m.blocks, CountsMatch b) (aligned : pageSize ∣ address)
    (nonempty : 0 < numPages) (lower : m.startAddress ≤ address)
    (upper : address + numPages * pageSize ≤ m.endAddress)
    (asserted : (Call.updateLock address numPages f perm).Asserted m) :
    ∃ m' allocator allocator', m.updateLock {} address numPages f.run perm = .ok (m', allocator) ∧
      m'.updateLock {} address numPages g.run perm' = .ok (m, allocator') := by
  obtain ⟨m₁, allocator₁, pieces₁, locked, updated₁⟩ :=
    updateLock_spec wf.aligned wf.tiles aligned nonempty lower upper f perm
  have tiles₁ := updated₁.tiles (visit_extent _) wf.tiles
  obtain ⟨m₂, allocator₂, pieces₂, unlocked, updated₂⟩ :=
    updateLock_spec (updated₁.startAddress ▸ wf.aligned) tiles₁ aligned nonempty
      (updated₁.startAddress ▸ lower) (updated₁.endAddress ▸ upper) g perm'
  have tiles₂ := updated₂.tiles (visit_extent _) tiles₁
  have proper : 0 < numPages * pageSize := Nat.mul_pos nonempty (by decide)
  -- the page at either end, which its reasons are matched with
  obtain ⟨firstPage, firstHere⟩ : ∃ i, m.pageAt address = some i :=
    Option.isSome_iff_exists.mp ((wf.tiles.valueAt_isSome_iff _ _).mpr ⟨lower, by omega⟩)
  obtain ⟨lastPage, lastHere⟩ : ∃ i, m.pageAt (address + numPages * pageSize - 1) = some i :=
    Option.isSome_iff_exists.mp ((wf.tiles.valueAt_isSome_iff _ _).mpr ⟨by omega, by omega⟩)
  have firstMatched := leftMatched_at wf matched firstHere
  have lastMatched := rightMatched_at wf matched lastHere
  rw [Nat.sub_add_cancel (by omega)] at lastMatched
  have pages₁ : ∀ x, m₁.pageAt x = if address ≤ x ∧ x < address + numPages * pageSize then
      (m.pageAt x).map (f.page perm) else m.pageAt x :=
    Updated.pageAt_eq (c := .updateLock address numPages f perm) trivial updated₁
  have pages₂ : ∀ x, m₂.pageAt x = if address ≤ x ∧ x < address + numPages * pageSize then
      (m₁.pageAt x).map (g.page perm') else m₁.pageAt x :=
    Updated.pageAt_eq (c := .updateLock address numPages g perm') trivial updated₂
  have leftMarked₁ : ∀ x, (leftAfter f address x (m.leftAt x)).1 = 0 →
      leftAfter f address x (m.leftAt x) = 0 := by
    intro x none
    rw [leftAfter] at none ⊢
    split at none
    · exact absurd none (onLeft_ne_zero pair _)
    · next elsewhere => rw [if_neg elsewhere, leftAt_marked matched x none]
  have rightMarked₁ : ∀ x, (rightAfter f (address + numPages * pageSize) x (m.rightAt x)).1 = 0 →
      rightAfter f (address + numPages * pageSize) x (m.rightAt x) = 0 := by
    intro x none
    rw [rightAfter] at none ⊢
    split at none
    · next last =>
      rcases onRight_ne_zero pair (m.rightAt x) with same | some
      · rw [same] at none
        rw [if_pos last, same, rightAt_marked matched x none]
      · exact absurd none some
    · next elsewhere => rw [if_neg elsewhere, rightAt_marked matched x none]
  obtain ⟨lefts₁, rights₁⟩ := updated₁.marks_eq wf.tiles nonempty lower upper
    (fun p _ _ _ left right _ => run_marks_lock pair p perm left right) leftMarked₁ rightMarked₁
  -- the lock's own assertion rules out that the count at the first page wraps
  have noOverflow : f = .shareToDevice → (m.leftAt address).2.2 + 1 ≠ 0 := by
    rintro rfl
    obtain ⟨p, member, -, start, stop, -, holds⟩ :=
      exists_asserted_piece wf asserted updated₁ le_rfl (by omega) firstHere
    have atStart : p.address = address := by
      have inside := updated₁.inside_or_outside member
      omega
    rw [← atStart, (updated₁.piece_reading wf.tiles member).2]
    simp only [LockFunction.asserts, shareToDeviceAsserts,
      updateDeviceDisableMergeStateForShareAsserts,
      updateDeviceDisableMergeStateForShareLeftAsserts, atStart, beq_self_eq_true, Bool.not_true,
      Bool.false_or, Bool.and_eq_true, bne_iff_ne] at holds
    exact holds.2.1
  have restoredLeft : ∀ x, leftAfter g address x (m₁.leftAt x) = m.leftAt x := by
    intro x
    rw [lefts₁, leftAfter, leftAfter]
    split
    · next start => subst start; exact onLeft_undo pair firstMatched
    · rfl
  have restoredRight : ∀ x, rightAfter g (address + numPages * pageSize) x (m₁.rightAt x) =
      m.rightAt x := by
    intro x
    rw [rights₁, rightAfter, rightAfter]
    split
    · next last => subst last; exact onRight_undo pair lastMatched
    · rfl
  have piecesTile₂ := (updated₂.splits.cuts.tiles_iff _ _).mp tiles₁
  have acts₂ : ∀ p ∈ pieces₂, address ≤ p.address →
      p.endAddress ≤ address + numPages * pageSize →
      ∀ left right, (left = true ↔ p.address = address) →
        (g.run p perm' left right).leftMark =
            (if left then onLeft g p.leftMark else p.leftMark) ∧
          (g.run p perm' left right).rightMark =
            if right then onRight g p.rightMark else p.rightMark := by
    intro p member start stop left right isLeft
    obtain ⟨page, mark⟩ := updated₂.piece_reading tiles₁ member
    have pieceProper : p.address < p.endAddress := (piecesTile₂.bounds member).2.1
    rw [pages₁, if_pos ⟨start, pieceProper.trans_le stop⟩] at page
    obtain ⟨i, here, changed⟩ := Option.map_eq_some_iff.mp page
    refine run_marks_unlock pair p left right (leftMatched_at wf matched here)
      (fun device isFirst => ?_) changed.symm ?_
    · rw [isLeft.mp isFirst]
      exact noOverflow device
    · rw [← mark, lefts₁, leftAfter]
      simp only [isLeft]
  obtain ⟨lefts₂, rights₂⟩ := updated₂.marks_eq tiles₁ nonempty
    (updated₁.startAddress ▸ lower) (updated₁.endAddress ▸ upper) acts₂
    (fun x none => by rw [restoredLeft] at none ⊢; exact leftAt_marked matched x none)
    fun x none => by rw [restoredRight] at none ⊢; exact rightAt_marked matched x none
  have same : m₂ = m := by
    refine eq_of_denotation (updated₂.startAddress.trans updated₁.startAddress)
      (updated₂.endAddress.trans updated₁.endAddress) wf.tiles tiles₂
      (fun b member => (matched b member).defined) ?_ ?_ ?_ (fun x => ?_)
      (fun x => (lefts₂ x).trans (restoredLeft x)) fun x => (rights₂ x).trans (restoredRight x)
    · refine updated₂.forall_mem (fun b x _ => defined_split b x)
        (fun b known => (defined_run pair known _ _ _).2) (fun b c => defined_add) ?_
      exact updated₁.forall_mem (fun b x _ => defined_split b x)
        (fun b known => (defined_run pair known _ _ _).1) (fun b c => defined_add)
        fun b member => (matched b member).defined
    · exact wf.unmergeable.imp fun _ _ => separated_iff.mpr
    · exact updated₂.separated
        (updated₁.separated (wf.unmergeable.imp fun _ _ => separated_iff.mpr))
    · rw [pages₂, pages₁]
      split
      · next inside =>
        cases here : m.pageAt x with
        | none => rfl
        | some i =>
          obtain ⟨p, -, rfl, -, -, counted, holds⟩ :=
            exists_asserted_piece wf asserted updated₁ inside.1 inside.2 here
          exact congrArg some (page_undo pair holds counted)
      · rfl
  exact ⟨m₁, allocator₁, allocator₂, locked, same ▸ unlocked⟩

end RoundTrip

theorem lock_unlock_device :
    ∃ m' allocator allocator',
      (initializeManager 0 0x10000).updateLock {} 0x5000 1 LockFunction.shareToDevice.run 0 =
          .ok (m', allocator) ∧
        m'.updateLock {} 0x5000 1 LockFunction.unshareToDevice.run 0 =
          .ok (initializeManager 0 0x10000, allocator') := by
  refine lock_unlock .device (initializeManager_wellFormed (by decide) (by decide) (by decide)) ?_
    (by decide) (by decide) (by decide) (by decide) (by simp only [Call.Asserted]; decide)
  rintro b member
  obtain rfl := List.mem_singleton.mp member
  exact ⟨by decide, by decide, by decide, by decide, by decide, by decide, by decide⟩

end SumiEmu.Kernel.KMemoryBlockManager
