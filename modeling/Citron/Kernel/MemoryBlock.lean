/-
# Memory blocks

`KMemoryBlock` (k_memory_block.h): a run of pages of an address space with one
state, permission and attribute, the counts of the locks that are held on it,
and the bits that keep it from being merged with its neighbours.

Addresses and page counts are natural numbers: every address the kernel forms
lies between the two ends of an address space, which are 64-bit numbers. The
lock counts are `u16` and wrap, so their steps are written modulo 2^16. Flag
sets are bit vectors of the width of their enumeration. The functions are
those of a build with `NDEBUG`, where an `assert` is no statement.
-/
import Mathlib

namespace Citron
namespace Kernel

/-- memory_types.h: 4 KiB. -/
abbrev PageSize : ℕ := 4096

/-! ### Flag sets -/

abbrev KMemoryState := BitVec 32
abbrev KMemoryPermission := BitVec 8
abbrev KMemoryAttribute := BitVec 8
abbrev KMemoryBlockDisableMergeAttribute := BitVec 8

namespace KMemoryState

abbrev none : KMemoryState := 0
abbrev free : KMemoryState := 0

end KMemoryState

namespace KMemoryPermission

abbrev none : KMemoryPermission := 0
abbrev kernelRead : KMemoryPermission := 1 <<< 3
abbrev kernelWrite : KMemoryPermission := 2 <<< 3
abbrev notMapped : KMemoryPermission := 1 <<< 6
abbrev userRead : KMemoryPermission := 1 ||| kernelRead
abbrev userWrite : KMemoryPermission := 2 ||| kernelWrite
abbrev userReadWrite : KMemoryPermission := userRead ||| userWrite

/-- What an IPC lock may change of a permission. -/
abbrev ipcLockChangeMask : KMemoryPermission := notMapped ||| userReadWrite

end KMemoryPermission

namespace KMemoryAttribute

abbrev none : KMemoryAttribute := 0x00
abbrev ipcLocked : KMemoryAttribute := 1 <<< 1
abbrev deviceShared : KMemoryAttribute := 1 <<< 2

/-- `HasProperties` does not look at the two lock attributes. -/
abbrev ignoreMask : KMemoryAttribute := ipcLocked ||| deviceShared

end KMemoryAttribute

namespace KMemoryBlockDisableMergeAttribute

abbrev none : KMemoryBlockDisableMergeAttribute := 0
abbrev normal : KMemoryBlockDisableMergeAttribute := 1 <<< 0
abbrev deviceLeft : KMemoryBlockDisableMergeAttribute := 1 <<< 1
abbrev ipcLeft : KMemoryBlockDisableMergeAttribute := 1 <<< 2
abbrev locked : KMemoryBlockDisableMergeAttribute := 1 <<< 3
abbrev deviceRight : KMemoryBlockDisableMergeAttribute := 1 <<< 4
abbrev allLeft : KMemoryBlockDisableMergeAttribute := normal ||| deviceLeft ||| ipcLeft ||| locked
abbrev allRight : KMemoryBlockDisableMergeAttribute := deviceRight

end KMemoryBlockDisableMergeAttribute

open KMemoryBlockDisableMergeAttribute (allLeft allRight deviceLeft deviceRight ipcLeft)

/-! ### The counters -/

/-- `++n` of a `u16`. -/
def incU16 (n : ℕ) : ℕ := (n + 1) % 65536

/-- `--n` of a `u16`. -/
def decU16 (n : ℕ) : ℕ := if n = 0 then 65535 else n - 1

theorem incU16_of_lt {n : ℕ} (h : n + 1 < 65536) : incU16 n = n + 1 := Nat.mod_eq_of_lt h

theorem incU16_lt (n : ℕ) : incU16 n < 65536 := Nat.mod_lt _ (by decide)

theorem decU16_lt {n : ℕ} (h : n < 65536) : decU16 n < 65536 := by
  unfold decU16; split_ifs <;> omega

theorem decU16_pos {n : ℕ} (h : n ≠ 1) : 0 < decU16 n := by
  unfold decU16; split_ifs <;> omega

@[simp] theorem decU16_succ (n : ℕ) : decU16 (n + 1) = n := by simp [decU16]

/-! ### The block -/

structure KMemoryBlock where
  deviceDisableMergeLeftCount : ℕ := 0
  deviceDisableMergeRightCount : ℕ := 0
  address : ℕ := 0
  numPages : ℕ := 0
  memoryState : KMemoryState := .none
  ipcLockCount : ℕ := 0
  deviceUseCount : ℕ := 0
  ipcDisableMergeCount : ℕ := 0
  permission : KMemoryPermission := .none
  originalPermission : KMemoryPermission := .none
  memoryAttribute : KMemoryAttribute := .none
  disableMergeAttribute : KMemoryBlockDisableMergeAttribute := .none
deriving DecidableEq, Repr

namespace KMemoryBlock

def getSize (b : KMemoryBlock) : ℕ := b.numPages * PageSize

def getEndAddress (b : KMemoryBlock) : ℕ := b.address + b.getSize

def getLastAddress (b : KMemoryBlock) : ℕ := b.getEndAddress - 1

/-- The order of the tree: a key is equal to a node if it starts inside it. -/
def compare (lhs rhs : KMemoryBlock) : Ordering :=
  if lhs.address < rhs.address then .lt
  else if lhs.address ≤ rhs.getLastAddress then .eq
  else .gt

/-- The constructor with arguments; the other members have their defaults. -/
def ofRange (addr np : ℕ) (ms : KMemoryState) (p : KMemoryPermission) (attr : KMemoryAttribute) :
    KMemoryBlock :=
  { address := addr, numPages := np, memoryState := ms, permission := p, memoryAttribute := attr }

/-- `Initialize`. It leaves `m_ipc_disable_merge_count` as it is. -/
def initializeBlock (b : KMemoryBlock) (addr np : ℕ) (ms : KMemoryState) (p : KMemoryPermission)
    (attr : KMemoryAttribute) : KMemoryBlock :=
  { b with
    deviceDisableMergeLeftCount := 0
    deviceDisableMergeRightCount := 0
    address := addr
    numPages := np
    memoryState := ms
    ipcLockCount := 0
    deviceUseCount := 0
    permission := p
    originalPermission := .none
    memoryAttribute := attr
    disableMergeAttribute := .none }

def hasProperties (b : KMemoryBlock) (s : KMemoryState) (p : KMemoryPermission)
    (a : KMemoryAttribute) : Bool :=
  b.memoryState == s && b.permission == p &&
    (b.memoryAttribute ||| KMemoryAttribute.ignoreMask) == (a ||| KMemoryAttribute.ignoreMask)

def hasSameProperties (b rhs : KMemoryBlock) : Bool :=
  b.memoryState == rhs.memoryState && b.permission == rhs.permission &&
    b.originalPermission == rhs.originalPermission && b.memoryAttribute == rhs.memoryAttribute &&
    b.ipcLockCount == rhs.ipcLockCount && b.deviceUseCount == rhs.deviceUseCount

def canMergeWith (b rhs : KMemoryBlock) : Bool :=
  b.hasSameProperties rhs &&
    b.disableMergeAttribute &&& allRight == .none &&
    rhs.disableMergeAttribute &&& allLeft == .none

/-- `Add`: take over the pages of the block to the right. -/
def add (b addedBlock : KMemoryBlock) : KMemoryBlock :=
  { b with
    numPages := b.numPages + addedBlock.numPages
    disableMergeAttribute := b.disableMergeAttribute ||| addedBlock.disableMergeAttribute
    deviceDisableMergeRightCount := addedBlock.deviceDisableMergeRightCount }

def update (b : KMemoryBlock) (s : KMemoryState) (p : KMemoryPermission) (a : KMemoryAttribute)
    (setDisableMergeAttr : Bool) (setMask clearMask : KMemoryBlockDisableMergeAttribute) :
    KMemoryBlock :=
  { b with
    memoryState := s
    permission := p
    memoryAttribute := a ||| (b.memoryAttribute &&& KMemoryAttribute.ignoreMask)
    disableMergeAttribute :=
      let d := if setDisableMergeAttr && setMask != 0 then b.disableMergeAttribute ||| setMask
        else b.disableMergeAttribute
      if clearMask != 0 then d &&& ~~~clearMask else d }

def updateAttribute (b : KMemoryBlock) (mask attr : KMemoryAttribute) : KMemoryBlock :=
  { b with memoryAttribute := (b.memoryAttribute &&& ~~~mask) ||| attr }

/-- `Split`: the new block, which takes the pages before `addr`, and what is
left. Every member of the new block is written. -/
def split (b : KMemoryBlock) (addr : ℕ) : KMemoryBlock × KMemoryBlock :=
  let block : KMemoryBlock :=
    { address := b.address
      numPages := (addr - b.address) / PageSize
      memoryState := b.memoryState
      ipcLockCount := b.ipcLockCount
      deviceUseCount := b.deviceUseCount
      permission := b.permission
      originalPermission := b.originalPermission
      memoryAttribute := b.memoryAttribute
      disableMergeAttribute :=
        b.disableMergeAttribute &&& allLeft
      ipcDisableMergeCount := b.ipcDisableMergeCount
      deviceDisableMergeLeftCount := b.deviceDisableMergeLeftCount
      deviceDisableMergeRightCount := 0 }
  (block,
    { b with
      address := addr
      numPages := b.numPages - block.numPages
      ipcDisableMergeCount := 0
      deviceDisableMergeLeftCount := 0
      disableMergeAttribute :=
        b.disableMergeAttribute &&& allRight })

/-! ### The lock functions

Every member function of the type `MemoryBlockLockFunction`: it is given the
permission of the lock and whether the block is the first and the last of the
locked range. -/

def updateDeviceDisableMergeStateForShareLeft (b : KMemoryBlock) (_newPerm : KMemoryPermission)
    (left _right : Bool) : KMemoryBlock :=
  { b with
    disableMergeAttribute :=
      if left then b.disableMergeAttribute ||| deviceLeft
      else b.disableMergeAttribute
    deviceDisableMergeLeftCount :=
      if left then incU16 b.deviceDisableMergeLeftCount else b.deviceDisableMergeLeftCount }

def updateDeviceDisableMergeStateForShareRight (b : KMemoryBlock) (_newPerm : KMemoryPermission)
    (_left right : Bool) : KMemoryBlock :=
  { b with
    disableMergeAttribute :=
      if right then b.disableMergeAttribute ||| deviceRight
      else b.disableMergeAttribute
    deviceDisableMergeRightCount :=
      if right then incU16 b.deviceDisableMergeRightCount else b.deviceDisableMergeRightCount }

def updateDeviceDisableMergeStateForShare (b : KMemoryBlock) (newPerm : KMemoryPermission)
    (left right : Bool) : KMemoryBlock :=
  (b.updateDeviceDisableMergeStateForShareLeft newPerm left right)
    |>.updateDeviceDisableMergeStateForShareRight newPerm left right

def shareToDevice (b : KMemoryBlock) (newPerm : KMemoryPermission) (left right : Bool) :
    KMemoryBlock :=
  { b with
    deviceUseCount := incU16 b.deviceUseCount
    memoryAttribute := b.memoryAttribute ||| KMemoryAttribute.deviceShared }
    |>.updateDeviceDisableMergeStateForShare newPerm left right

def updateDeviceDisableMergeStateForUnshareLeft (b : KMemoryBlock) (_newPerm : KMemoryPermission)
    (left _right : Bool) : KMemoryBlock :=
  -- with no count left to give back the function returns early
  let returned := left && b.deviceDisableMergeLeftCount == 0
  let n := if left then decU16 b.deviceDisableMergeLeftCount else b.deviceDisableMergeLeftCount
  let n := min n b.deviceUseCount
  { b with
    deviceDisableMergeLeftCount := if returned then b.deviceDisableMergeLeftCount else n
    disableMergeAttribute :=
      if !returned && n == 0 then
        b.disableMergeAttribute &&& ~~~deviceLeft
      else b.disableMergeAttribute }

def updateDeviceDisableMergeStateForUnshareRight (b : KMemoryBlock) (_newPerm : KMemoryPermission)
    (_left right : Bool) : KMemoryBlock :=
  { b with
    deviceDisableMergeRightCount :=
      if right then decU16 b.deviceDisableMergeRightCount else b.deviceDisableMergeRightCount
    disableMergeAttribute :=
      if right && b.deviceDisableMergeRightCount == 1 then
        b.disableMergeAttribute &&& ~~~deviceRight
      else b.disableMergeAttribute }

def updateDeviceDisableMergeStateForUnshare (b : KMemoryBlock) (newPerm : KMemoryPermission)
    (left right : Bool) : KMemoryBlock :=
  (b.updateDeviceDisableMergeStateForUnshareLeft newPerm left right)
    |>.updateDeviceDisableMergeStateForUnshareRight newPerm left right

/-- The common part of the two ways to end a device's use of the block. -/
def dropDeviceUse (b : KMemoryBlock) : KMemoryBlock :=
  { b with
    deviceUseCount := decU16 b.deviceUseCount
    memoryAttribute :=
      if b.deviceUseCount == 1 then b.memoryAttribute &&& ~~~KMemoryAttribute.deviceShared
      else b.memoryAttribute }

def unshareToDevice (b : KMemoryBlock) (newPerm : KMemoryPermission) (left right : Bool) :
    KMemoryBlock :=
  b.dropDeviceUse.updateDeviceDisableMergeStateForUnshare newPerm left right

def unshareToDeviceRight (b : KMemoryBlock) (newPerm : KMemoryPermission) (left right : Bool) :
    KMemoryBlock :=
  b.dropDeviceUse.updateDeviceDisableMergeStateForUnshareRight newPerm left right

def lockForIpc (b : KMemoryBlock) (newPerm : KMemoryPermission) (left _right : Bool) :
    KMemoryBlock :=
  let newLockCount := incU16 b.ipcLockCount
  { b with
    ipcLockCount := newLockCount
    -- the first lock saves the permission
    originalPermission := if newLockCount == 1 then b.permission else b.originalPermission
    permission :=
      if newLockCount == 1 then
        (newPerm &&& KMemoryPermission.ipcLockChangeMask) |||
          (b.permission &&& ~~~KMemoryPermission.ipcLockChangeMask)
      else b.permission
    memoryAttribute := b.memoryAttribute ||| KMemoryAttribute.ipcLocked
    disableMergeAttribute :=
      if left then b.disableMergeAttribute ||| ipcLeft
      else b.disableMergeAttribute
    ipcDisableMergeCount := if left then incU16 b.ipcDisableMergeCount else b.ipcDisableMergeCount }

def unlockForIpc (b : KMemoryBlock) (_newPerm : KMemoryPermission) (left _right : Bool) :
    KMemoryBlock :=
  let oldLockCount := b.ipcLockCount
  { b with
    ipcLockCount := decU16 b.ipcLockCount
    -- the last unlock gives the saved permission back
    permission := if oldLockCount == 1 then b.originalPermission else b.permission
    originalPermission := if oldLockCount == 1 then .none else b.originalPermission
    memoryAttribute :=
      if oldLockCount == 1 then b.memoryAttribute &&& ~~~KMemoryAttribute.ipcLocked
      else b.memoryAttribute
    ipcDisableMergeCount := if left then decU16 b.ipcDisableMergeCount else b.ipcDisableMergeCount
    disableMergeAttribute :=
      if left && b.ipcDisableMergeCount == 1 then
        b.disableMergeAttribute &&& ~~~ipcLeft
      else b.disableMergeAttribute }

end KMemoryBlock

/-- `KMemoryBlockManager::MemoryBlockLockFunction`, the functions it can point to. -/
inductive MemoryBlockLockFunction
  | updateDeviceDisableMergeStateForShareLeft
  | updateDeviceDisableMergeStateForShareRight
  | updateDeviceDisableMergeStateForShare
  | shareToDevice
  | updateDeviceDisableMergeStateForUnshareLeft
  | updateDeviceDisableMergeStateForUnshareRight
  | updateDeviceDisableMergeStateForUnshare
  | unshareToDevice
  | unshareToDeviceRight
  | lockForIpc
  | unlockForIpc
deriving DecidableEq, Repr

/-- The call through the pointer. -/
def MemoryBlockLockFunction.call :
    MemoryBlockLockFunction → KMemoryBlock → KMemoryPermission → Bool → Bool → KMemoryBlock
  | .updateDeviceDisableMergeStateForShareLeft => .updateDeviceDisableMergeStateForShareLeft
  | .updateDeviceDisableMergeStateForShareRight => .updateDeviceDisableMergeStateForShareRight
  | .updateDeviceDisableMergeStateForShare => .updateDeviceDisableMergeStateForShare
  | .shareToDevice => .shareToDevice
  | .updateDeviceDisableMergeStateForUnshareLeft => .updateDeviceDisableMergeStateForUnshareLeft
  | .updateDeviceDisableMergeStateForUnshareRight => .updateDeviceDisableMergeStateForUnshareRight
  | .updateDeviceDisableMergeStateForUnshare => .updateDeviceDisableMergeStateForUnshare
  | .unshareToDevice => .unshareToDevice
  | .unshareToDeviceRight => .unshareToDeviceRight
  | .lockForIpc => .lockForIpc
  | .unlockForIpc => .unlockForIpc

end Kernel
end Citron
