/-
# Memory blocks

A memory block describes a run of pages of a process address space that share
a state, a permission and an attribute. Beside these it counts the IPC locks
and the device uses of its pages, and it records why it must not be merged
with its neighbours: left reasons concern its first page, right reasons its
last one.

Addresses are naturals. Every address the manager computes lies inside the
managed space, whose end is a 64-bit address, so no addition here wraps. The
counters are the 16-bit ones of the source and do wrap.
-/

import SumiEmu.Foundations.Tiling
import SumiEmu.Kernel.MemoryTypes
import Mathlib.Data.BitVec

namespace SumiEmu.Kernel

abbrev KMemoryState := BitVec 32
abbrev KMemoryPermission := BitVec 8
abbrev KMemoryAttribute := BitVec 8
abbrev KMemoryBlockDisableMergeAttribute := BitVec 8

namespace KMemoryState

/-- `KMemoryState::Free`. -/
def free : KMemoryState := 0x00000000#32

end KMemoryState

namespace KMemoryPermission

def userRead : KMemoryPermission := 0x09#8
def userExecute : KMemoryPermission := 0x04#8
def notMapped : KMemoryPermission := 0x40#8
def userReadWrite : KMemoryPermission := 0x1B#8
def ipcLockChangeMask : KMemoryPermission := notMapped ||| userReadWrite

end KMemoryPermission

namespace KMemoryAttribute

def ipcLocked : KMemoryAttribute := 0x02#8
def deviceShared : KMemoryAttribute := 0x04#8

/-- The attributes that count locks and uses, which `Update` leaves alone. -/
def ignoreMask : KMemoryAttribute := ipcLocked ||| deviceShared

end KMemoryAttribute

namespace KMemoryBlockDisableMergeAttribute

def normal : KMemoryBlockDisableMergeAttribute := 0x01#8
def deviceLeft : KMemoryBlockDisableMergeAttribute := 0x02#8
def ipcLeft : KMemoryBlockDisableMergeAttribute := 0x04#8
def locked : KMemoryBlockDisableMergeAttribute := 0x08#8
def deviceRight : KMemoryBlockDisableMergeAttribute := 0x10#8
def allLeft : KMemoryBlockDisableMergeAttribute := normal ||| deviceLeft ||| ipcLeft ||| locked
def allRight : KMemoryBlockDisableMergeAttribute := deviceRight

end KMemoryBlockDisableMergeAttribute

open KMemoryBlockDisableMergeAttribute (deviceLeft deviceRight ipcLeft allLeft allRight)

/-- `KMemoryBlock`, without its tree node. -/
structure KMemoryBlock where
  deviceDisableMergeLeftCount : BitVec 16 := 0
  deviceDisableMergeRightCount : BitVec 16 := 0
  address : Nat
  numPages : Nat
  memoryState : KMemoryState
  ipcLockCount : BitVec 16 := 0
  deviceUseCount : BitVec 16 := 0
  ipcDisableMergeCount : BitVec 16 := 0
  permission : KMemoryPermission
  originalPermission : KMemoryPermission := 0
  memoryAttribute : KMemoryAttribute
  disableMergeAttribute : KMemoryBlockDisableMergeAttribute := 0
  deriving DecidableEq, Repr

namespace KMemoryBlock

variable (b : KMemoryBlock)

/-- `GetSize`. -/
def size : Nat := b.numPages * pageSize

/-- `GetEndAddress`. -/
def endAddress : Nat := b.address + b.size

/-- `GetLastAddress`. -/
def lastAddress : Nat := b.endAddress - 1

/-- `Initialize`, on a block the slab has just constructed. -/
def initializeBlock (addr np : Nat) (ms : KMemoryState) (p : KMemoryPermission)
    (attr : KMemoryAttribute) : KMemoryBlock where
  address := addr
  numPages := np
  memoryState := ms
  permission := p
  memoryAttribute := attr

/-- `Compare`, as the order it puts a key block in against a block of the tree. -/
def compare (lhs rhs : KMemoryBlock) : Ordering :=
  if lhs.address < rhs.address then .lt
  else if lhs.address ≤ rhs.lastAddress then .eq
  else .gt

/-- `HasProperties`. -/
def hasProperties (s : KMemoryState) (p : KMemoryPermission) (a : KMemoryAttribute) : Bool :=
  b.memoryState == s && b.permission == p &&
    (b.memoryAttribute ||| KMemoryAttribute.ignoreMask) == (a ||| KMemoryAttribute.ignoreMask)

/-- `HasSameProperties`. -/
def hasSameProperties (b rhs : KMemoryBlock) : Bool :=
  b.memoryState == rhs.memoryState && b.permission == rhs.permission &&
    b.originalPermission == rhs.originalPermission && b.memoryAttribute == rhs.memoryAttribute &&
    b.ipcLockCount == rhs.ipcLockCount && b.deviceUseCount == rhs.deviceUseCount

/-- `CanMergeWith`. -/
def canMergeWith (b rhs : KMemoryBlock) : Bool :=
  b.hasSameProperties rhs && (b.disableMergeAttribute &&& allRight) == 0 &&
    (rhs.disableMergeAttribute &&& allLeft) == 0

/-- `Add`. -/
def add (b added : KMemoryBlock) : KMemoryBlock :=
  { b with
    numPages := b.numPages + added.numPages
    disableMergeAttribute := b.disableMergeAttribute ||| added.disableMergeAttribute
    deviceDisableMergeRightCount := added.deviceDisableMergeRightCount }

/-- `Update`. -/
def update (s : KMemoryState) (p : KMemoryPermission) (a : KMemoryAttribute)
    (setDisableMergeAttr : Bool) (setMask clearMask : BitVec 8) : KMemoryBlock :=
  let marked := if setDisableMergeAttr && setMask != 0 then b.disableMergeAttribute ||| setMask
    else b.disableMergeAttribute
  { b with
    memoryState := s
    permission := p
    memoryAttribute := a ||| (b.memoryAttribute &&& KMemoryAttribute.ignoreMask)
    disableMergeAttribute := if clearMask != 0 then marked &&& ~~~clearMask else marked }

/-- `UpdateAttribute`. -/
def updateAttribute (mask attr : KMemoryAttribute) : KMemoryBlock :=
  { b with memoryAttribute := (b.memoryAttribute &&& ~~~mask) ||| attr }

/-- `Split`: the new block, which takes the pages before `addr`, and the block
itself, which keeps those from `addr` on. -/
def split (addr : Nat) : KMemoryBlock × KMemoryBlock :=
  let block : KMemoryBlock :=
    { address := b.address
      numPages := (addr - b.address) / pageSize
      memoryState := b.memoryState
      ipcLockCount := b.ipcLockCount
      deviceUseCount := b.deviceUseCount
      permission := b.permission
      originalPermission := b.originalPermission
      memoryAttribute := b.memoryAttribute
      disableMergeAttribute := b.disableMergeAttribute &&& allLeft
      ipcDisableMergeCount := b.ipcDisableMergeCount
      deviceDisableMergeLeftCount := b.deviceDisableMergeLeftCount
      deviceDisableMergeRightCount := 0 }
  (block,
    { b with
      address := addr
      numPages := b.numPages - block.numPages
      ipcDisableMergeCount := 0
      deviceDisableMergeLeftCount := 0
      disableMergeAttribute := b.disableMergeAttribute &&& allRight })

/-! ## Locking and sharing

Each function returns the changed block. Whether its assertions hold is a
separate predicate, named after it, because a failed assertion is logged and
the function goes on. -/

/-- `UpdateDeviceDisableMergeStateForShareLeft`. -/
def updateDeviceDisableMergeStateForShareLeft (_newPerm : KMemoryPermission)
    (left _right : Bool) : KMemoryBlock :=
  if left then
    { b with
      disableMergeAttribute := b.disableMergeAttribute ||| deviceLeft
      deviceDisableMergeLeftCount := b.deviceDisableMergeLeftCount + 1 }
  else b

/-- Its assertions. -/
def updateDeviceDisableMergeStateForShareLeftAsserts
    (_newPerm : KMemoryPermission) (left _right : Bool) : Bool :=
  !left || b.deviceDisableMergeLeftCount + 1 != 0

/-- `UpdateDeviceDisableMergeStateForShareRight`. -/
def updateDeviceDisableMergeStateForShareRight (_newPerm : KMemoryPermission)
    (_left right : Bool) : KMemoryBlock :=
  if right then
    { b with
      disableMergeAttribute := b.disableMergeAttribute ||| deviceRight
      deviceDisableMergeRightCount := b.deviceDisableMergeRightCount + 1 }
  else b

/-- Its assertions. -/
def updateDeviceDisableMergeStateForShareRightAsserts
    (_newPerm : KMemoryPermission) (_left right : Bool) : Bool :=
  !right || b.deviceDisableMergeRightCount + 1 != 0

/-- `UpdateDeviceDisableMergeStateForShare`. -/
def updateDeviceDisableMergeStateForShare (newPerm : KMemoryPermission)
    (left right : Bool) : KMemoryBlock :=
  (b.updateDeviceDisableMergeStateForShareLeft newPerm left right)
    |>.updateDeviceDisableMergeStateForShareRight newPerm left right

/-- Its assertions. -/
def updateDeviceDisableMergeStateForShareAsserts
    (newPerm : KMemoryPermission) (left right : Bool) : Bool :=
  b.updateDeviceDisableMergeStateForShareLeftAsserts newPerm left right &&
    b.updateDeviceDisableMergeStateForShareRightAsserts newPerm left right

/-- `ShareToDevice`. -/
def shareToDevice (newPerm : KMemoryPermission) (left right : Bool) : KMemoryBlock :=
  let b := { b with
    deviceUseCount := b.deviceUseCount + 1
    memoryAttribute := b.memoryAttribute ||| KMemoryAttribute.deviceShared }
  b.updateDeviceDisableMergeStateForShare newPerm left right

/-- Its assertions. -/
def shareToDeviceAsserts (newPerm : KMemoryPermission) (left right : Bool) : Bool :=
  ((b.memoryAttribute &&& KMemoryAttribute.deviceShared) == KMemoryAttribute.deviceShared ||
      b.deviceUseCount == 0) &&
    b.deviceUseCount + 1 != 0 &&
    b.updateDeviceDisableMergeStateForShareAsserts newPerm left right

/-- `UpdateDeviceDisableMergeStateForUnshareLeft`, which asserts nothing. -/
def updateDeviceDisableMergeStateForUnshareLeft (_newPerm : KMemoryPermission)
    (left _right : Bool) : KMemoryBlock :=
  if left && b.deviceDisableMergeLeftCount == 0 then b
  else
    let decremented := if left then b.deviceDisableMergeLeftCount - 1
      else b.deviceDisableMergeLeftCount
    let count := if b.deviceUseCount < decremented then b.deviceUseCount else decremented
    { b with
      deviceDisableMergeLeftCount := count
      disableMergeAttribute := if count == 0 then b.disableMergeAttribute &&& ~~~deviceLeft
        else b.disableMergeAttribute }

/-- `UpdateDeviceDisableMergeStateForUnshareRight`. -/
def updateDeviceDisableMergeStateForUnshareRight
    (_newPerm : KMemoryPermission) (_left right : Bool) : KMemoryBlock :=
  if right then
    { b with
      deviceDisableMergeRightCount := b.deviceDisableMergeRightCount - 1
      disableMergeAttribute := if b.deviceDisableMergeRightCount == 1
        then b.disableMergeAttribute &&& ~~~deviceRight else b.disableMergeAttribute }
  else b

/-- Its assertions. -/
def updateDeviceDisableMergeStateForUnshareRightAsserts
    (_newPerm : KMemoryPermission) (_left right : Bool) : Bool :=
  !right || b.deviceDisableMergeRightCount != 0

/-- `UpdateDeviceDisableMergeStateForUnshare`. -/
def updateDeviceDisableMergeStateForUnshare (newPerm : KMemoryPermission)
    (left right : Bool) : KMemoryBlock :=
  (b.updateDeviceDisableMergeStateForUnshareLeft newPerm left right)
    |>.updateDeviceDisableMergeStateForUnshareRight newPerm left right

/-- The part `UnshareToDevice` and `UnshareToDeviceRight` share: one use less. -/
def dropDeviceUse : KMemoryBlock :=
  { b with
    deviceUseCount := b.deviceUseCount - 1
    memoryAttribute := if b.deviceUseCount == 1
      then b.memoryAttribute &&& ~~~KMemoryAttribute.deviceShared else b.memoryAttribute }

/-- `UnshareToDevice`. -/
def unshareToDevice (newPerm : KMemoryPermission) (left right : Bool) : KMemoryBlock :=
  b.dropDeviceUse.updateDeviceDisableMergeStateForUnshare newPerm left right

/-- `UnshareToDeviceRight`. -/
def unshareToDeviceRight (newPerm : KMemoryPermission) (left right : Bool) : KMemoryBlock :=
  b.dropDeviceUse.updateDeviceDisableMergeStateForUnshareRight newPerm left right

/-- The assertions of `UnshareToDevice`, which are those of `UnshareToDeviceRight`. -/
def unshareToDeviceAsserts (newPerm : KMemoryPermission) (left right : Bool) : Bool :=
  (b.memoryAttribute &&& KMemoryAttribute.deviceShared) == KMemoryAttribute.deviceShared &&
    b.deviceUseCount != 0 &&
    b.updateDeviceDisableMergeStateForUnshareRightAsserts newPerm left right

/-- `LockForIpc`. -/
def lockForIpc (newPerm : KMemoryPermission) (left _right : Bool) : KMemoryBlock :=
  let first := b.ipcLockCount + 1 == 1
  { b with
    ipcLockCount := b.ipcLockCount + 1
    originalPermission := if first then b.permission else b.originalPermission
    permission := if first then
        (newPerm &&& KMemoryPermission.ipcLockChangeMask) |||
          (b.permission &&& ~~~KMemoryPermission.ipcLockChangeMask)
      else b.permission
    memoryAttribute := b.memoryAttribute ||| KMemoryAttribute.ipcLocked
    disableMergeAttribute := if left then b.disableMergeAttribute ||| ipcLeft
      else b.disableMergeAttribute
    ipcDisableMergeCount := if left then b.ipcDisableMergeCount + 1
      else b.ipcDisableMergeCount }

/-- Its assertions. -/
def lockForIpcAsserts (newPerm : KMemoryPermission) (left _right : Bool) : Bool :=
  ((b.memoryAttribute &&& KMemoryAttribute.ipcLocked) == KMemoryAttribute.ipcLocked ||
      b.ipcLockCount == 0) &&
    b.ipcLockCount + 1 != 0 &&
    (b.ipcLockCount + 1 != 1 ||
      (b.originalPermission == 0 &&
        (b.permission ||| newPerm ||| KMemoryPermission.notMapped) ==
          (b.permission ||| KMemoryPermission.notMapped) &&
        ((b.permission &&& KMemoryPermission.userExecute) != KMemoryPermission.userExecute ||
          newPerm == KMemoryPermission.userRead))) &&
    (!left || b.ipcDisableMergeCount + 1 != 0)

/-- `UnlockForIpc`. -/
def unlockForIpc (_newPerm : KMemoryPermission) (left _right : Bool) : KMemoryBlock :=
  let last := b.ipcLockCount == 1
  { b with
    ipcLockCount := b.ipcLockCount - 1
    permission := if last then b.originalPermission else b.permission
    originalPermission := if last then 0 else b.originalPermission
    memoryAttribute := if last then b.memoryAttribute &&& ~~~KMemoryAttribute.ipcLocked
      else b.memoryAttribute
    disableMergeAttribute := if left && b.ipcDisableMergeCount == 1
      then b.disableMergeAttribute &&& ~~~ipcLeft else b.disableMergeAttribute
    ipcDisableMergeCount := if left then b.ipcDisableMergeCount - 1
      else b.ipcDisableMergeCount }

/-- Its assertions. -/
def unlockForIpcAsserts (_newPerm : KMemoryPermission) (left _right : Bool) : Bool :=
  (b.memoryAttribute &&& KMemoryAttribute.ipcLocked) == KMemoryAttribute.ipcLocked &&
    b.ipcLockCount != 0 && (b.ipcLockCount != 1 || b.originalPermission != 0) &&
    (!left || b.ipcDisableMergeCount != 0)

/-- The functions of a block that `UpdateLock` can be given. -/
inductive LockFunction
  | updateDeviceDisableMergeStateForShareLeft
  | updateDeviceDisableMergeStateForShareRight
  | updateDeviceDisableMergeStateForShare
  | shareToDevice
  | updateDeviceDisableMergeStateForUnshareLeft
  | updateDeviceDisableMergeStateForUnshareRight
  | updateDeviceDisableMergeStateForUnshare
  | unshareToDevice
  | unshareToDeviceRight
  | lockForIpc
  | unlockForIpc
  deriving DecidableEq, Repr

namespace LockFunction

/-- The function itself. -/
def run : LockFunction → KMemoryBlock → KMemoryPermission → Bool → Bool → KMemoryBlock
  | .updateDeviceDisableMergeStateForShareLeft =>
    KMemoryBlock.updateDeviceDisableMergeStateForShareLeft
  | .updateDeviceDisableMergeStateForShareRight =>
    KMemoryBlock.updateDeviceDisableMergeStateForShareRight
  | .updateDeviceDisableMergeStateForShare => KMemoryBlock.updateDeviceDisableMergeStateForShare
  | .shareToDevice => KMemoryBlock.shareToDevice
  | .updateDeviceDisableMergeStateForUnshareLeft =>
    KMemoryBlock.updateDeviceDisableMergeStateForUnshareLeft
  | .updateDeviceDisableMergeStateForUnshareRight =>
    KMemoryBlock.updateDeviceDisableMergeStateForUnshareRight
  | .updateDeviceDisableMergeStateForUnshare =>
    KMemoryBlock.updateDeviceDisableMergeStateForUnshare
  | .unshareToDevice => KMemoryBlock.unshareToDevice
  | .unshareToDeviceRight => KMemoryBlock.unshareToDeviceRight
  | .lockForIpc => KMemoryBlock.lockForIpc
  | .unlockForIpc => KMemoryBlock.unlockForIpc

/-- Whether the assertions of the function hold. -/
def asserts : LockFunction → KMemoryBlock → KMemoryPermission → Bool → Bool → Bool
  | .updateDeviceDisableMergeStateForShareLeft =>
    KMemoryBlock.updateDeviceDisableMergeStateForShareLeftAsserts
  | .updateDeviceDisableMergeStateForShareRight =>
    KMemoryBlock.updateDeviceDisableMergeStateForShareRightAsserts
  | .updateDeviceDisableMergeStateForShare =>
    KMemoryBlock.updateDeviceDisableMergeStateForShareAsserts
  | .shareToDevice => KMemoryBlock.shareToDeviceAsserts
  | .updateDeviceDisableMergeStateForUnshareLeft => fun _ _ _ _ => true
  | .updateDeviceDisableMergeStateForUnshareRight =>
    KMemoryBlock.updateDeviceDisableMergeStateForUnshareRightAsserts
  | .updateDeviceDisableMergeStateForUnshare =>
    KMemoryBlock.updateDeviceDisableMergeStateForUnshareRightAsserts
  | .unshareToDevice => KMemoryBlock.unshareToDeviceAsserts
  | .unshareToDeviceRight => KMemoryBlock.unshareToDeviceAsserts
  | .lockForIpc => KMemoryBlock.lockForIpcAsserts
  | .unlockForIpc => KMemoryBlock.unlockForIpcAsserts

end LockFunction

end KMemoryBlock

end SumiEmu.Kernel
