/-
# Priority inheritance

The locks that threads wait for, as `KThread` keeps them: a lock info has the threads
that wait for its lock, by priority, and is in the held list of its owner. A thread that
is waited for by a thread of a higher priority (a smaller value) has that priority too
(`RestorePriority`). The condition variable tree of a thread and the scheduler's queue,
which are updated around a change of a priority, are not modelled here.
-/
import Citron.Lib.Inheritance

namespace Citron
namespace Kernel

open Function

abbrev ThreadId := ℕ
abbrev LockInfoId := ℕ

/-- `KThread::LockWithPriorityInheritanceInfo`; the tree is the list of its threads in order. -/
structure LockWithPriorityInheritanceInfo where
  tree : List ThreadId
  addressKey : ℕ
  owner : Option ThreadId
  waiterCount : ℕ
  isKernelAddressKey : Bool
deriving DecidableEq, Repr

namespace LockWithPriorityInheritanceInfo

def getHighestPriorityWaiter (info : LockWithPriorityInheritanceInfo) : Option ThreadId := info.tree.head?

end LockWithPriorityInheritanceInfo

/-- The members of all threads that the inheritance reads, and the lock infos of the slab. -/
structure Threads where
  priority : ThreadId → ℤ
  basePriority : ThreadId → ℤ
  addressKey : ThreadId → ℕ
  isKernelAddressKey : ThreadId → Bool
  heldLockInfoList : ThreadId → List LockInfoId
  waitingLockInfo : ThreadId → Option LockInfoId
  numKernelWaiters : ThreadId → ℤ
  lockInfo : LockInfoId → Option LockWithPriorityInheritanceInfo
  nextLockInfo : LockInfoId

/-- Insert into the tree: behind the threads of the same priority. -/
def insertWaiter (priority : ThreadId → ℤ) (waiter : ThreadId) : List ThreadId → List ThreadId
  | [] => [waiter]
  | u :: us => if priority waiter < priority u then waiter :: u :: us else u :: insertWaiter priority waiter us

namespace Threads

def setLockInfo (s : Threads) (l : LockInfoId) (info : Option LockWithPriorityInheritanceInfo) : Threads :=
  { s with lockInfo := update s.lockInfo l info }

def setWaitingLockInfo (s : Threads) (t : ThreadId) (l : Option LockInfoId) : Threads :=
  { s with waitingLockInfo := update s.waitingLockInfo t l }

def setHeld (s : Threads) (t : ThreadId) (held : List LockInfoId) : Threads :=
  { s with heldLockInfoList := update s.heldLockInfoList t held }

def addNumKernelWaiters (s : Threads) (t : ThreadId) (n : ℤ) : Threads :=
  { s with numKernelWaiters := update s.numKernelWaiters t (s.numKernelWaiters t + n) }

def setPriority (s : Threads) (t : ThreadId) (priority : ℤ) : Threads :=
  { s with priority := update s.priority t priority }

/-- `SetUserAddressKey` and `SetKernelAddressKey`. -/
def setAddressKey (s : Threads) (t : ThreadId) (key : ℕ) (isKernel : Bool) : Threads :=
  { s with
    addressKey := update s.addressKey t key
    isKernelAddressKey := update s.isKernelAddressKey t isKernel }

def getLockOwner (s : Threads) (t : ThreadId) : Option ThreadId :=
  (s.waitingLockInfo t).bind fun l => (s.lockInfo l).bind fun info => info.owner

/-! ### Lock infos -/

/-- `LockWithPriorityInheritanceInfo::Create`. -/
def createLockInfo (s : Threads) (addressKey : ℕ) (isKernelAddressKey : Bool) : LockInfoId × Threads :=
  (s.nextLockInfo, { s.setLockInfo s.nextLockInfo (some ⟨[], addressKey, none, 0, isKernelAddressKey⟩) with
    nextLockInfo := s.nextLockInfo + 1 })

/-- `LockWithPriorityInheritanceInfo::AddWaiter`. -/
def lockAddWaiter (s : Threads) (l : LockInfoId) (waiter : ThreadId) : Option Threads := do
  let info ← s.lockInfo l
  some ((s.setLockInfo l (some { info with
    tree := insertWaiter s.priority waiter info.tree
    waiterCount := info.waiterCount + 1 })).setWaitingLockInfo waiter (some l))

/-- `LockWithPriorityInheritanceInfo::RemoveWaiter`: whether it has no more waiters. -/
def lockRemoveWaiter (s : Threads) (l : LockInfoId) (waiter : ThreadId) : Option (Bool × Threads) := do
  let info ← s.lockInfo l
  let waiterCount := info.waiterCount - 1
  some (waiterCount = 0, (s.setLockInfo l (some { info with
    tree := info.tree.erase waiter
    waiterCount })).setWaitingLockInfo waiter none)

def addHeldLock (s : Threads) (t : ThreadId) (l : LockInfoId) : Option Threads := do
  let info ← s.lockInfo l
  some ((s.setLockInfo l (some { info with owner := some t })).setHeld t (l :: s.heldLockInfoList t))

def findHeldLock (s : Threads) (t : ThreadId) (key : ℕ) (isKernel : Bool) : Option LockInfoId :=
  (s.heldLockInfoList t).find? fun l =>
    (s.lockInfo l).any fun info => info.addressKey == key && info.isKernelAddressKey == isKernel

def addWaiterImpl (s : Threads) (t thread : ThreadId) : Option Threads := do
  let addressKey := s.addressKey thread
  let isKernelAddressKey := s.isKernelAddressKey thread
  let s := if isKernelAddressKey then s.addNumKernelWaiters t 1 else s
  match s.findHeldLock t addressKey isKernelAddressKey with
  | some l => s.lockAddWaiter l thread
  | none => do
    let (l, s) := s.createLockInfo addressKey isKernelAddressKey
    let s ← s.addHeldLock t l
    s.lockAddWaiter l thread

def removeWaiterImpl (s : Threads) (t thread : ThreadId) : Option Threads := do
  let s := if s.isKernelAddressKey thread then s.addNumKernelWaiters t (-1) else s
  let l ← s.waitingLockInfo thread
  let (empty, s) ← s.lockRemoveWaiter l thread
  if empty then some ((s.setHeld t ((s.heldLockInfoList t).erase l)).setLockInfo l none) else some s

/-! ### Restoring -/

/-- The least of the base priority and the highest priority waiters of the held locks. -/
def inheritedPriority (s : Threads) (t : ThreadId) : Option ℤ :=
  (s.heldLockInfoList t).foldlM (fun newPriority l => do
    let heldLock ← s.lockInfo l
    let waiter ← heldLock.getHighestPriorityWaiter
    some (min newPriority (s.priority waiter))) (s.basePriority t)

/-- The loop of `RestorePriority` from a thread on. -/
def restorePriority : ℕ → Threads → Option ThreadId → Option Threads
  | _, s, none => some s
  | 0, _, some _ => none
  | fuel + 1, s, some thread => do
    let newPriority ← s.inheritedPriority thread
    if newPriority = s.priority thread then some s
    else do
      let lockOwner := s.getLockOwner thread
      -- remove the thread as a waiter while its priority changes
      let s ← (match lockOwner with
        | some lockOwner => s.removeWaiterImpl lockOwner thread
        | none => some s)
      let s := s.setPriority thread newPriority
      let s ← (match lockOwner with
        | some lockOwner => s.addWaiterImpl lockOwner thread
        | none => some s)
      restorePriority fuel s lockOwner

/-! ### The calls -/

def addWaiter (fuel : ℕ) (s : Threads) (t thread : ThreadId) : Option Threads := do
  let s ← s.addWaiterImpl t thread
  if s.priority thread < s.priority t then restorePriority fuel s (some t) else some s

def removeWaiter (fuel : ℕ) (s : Threads) (t thread : ThreadId) : Option Threads := do
  let s ← s.removeWaiterImpl t thread
  if s.priority t = s.priority thread ∧ s.priority t < s.basePriority t then restorePriority fuel s (some t)
  else some s

/-- The next owner, and whether it has waiters. -/
def removeWaiterByKey (fuel : ℕ) (s : Threads) (t : ThreadId) (key : ℕ) (isKernel : Bool) :
    Option (Option ThreadId × Bool × Threads) :=
  match s.findHeldLock t key isKernel with
  | none => some (none, false, s)
  | some l => do
    let info ← s.lockInfo l
    let s := s.setHeld t ((s.heldLockInfoList t).erase l)
    let s := if info.isKernelAddressKey then s.addNumKernelWaiters t (-(info.waiterCount : ℤ)) else s
    -- the highest priority waiter is the next owner
    let nextLockOwner ← info.getHighestPriorityWaiter
    let (empty, s) ← s.lockRemoveWaiter l nextLockOwner
    let s ← (if empty then some (s.setLockInfo l none)
      else do
        let s ← s.addHeldLock nextLockOwner l
        if info.isKernelAddressKey then do
          let info ← s.lockInfo l
          some (s.addNumKernelWaiters nextLockOwner info.waiterCount)
        else some s)
    let s ← (if s.priority t = s.priority nextLockOwner ∧ s.priority t < s.basePriority t then
        restorePriority fuel s (some t)
      else some s)
    some (some nextLockOwner, !empty, s)

def setBasePriority (fuel : ℕ) (s : Threads) (t : ThreadId) (value : ℤ) : Option Threads :=
  restorePriority fuel { s with basePriority := update s.basePriority t value } (some t)

def increaseBasePriority (fuel : ℕ) (s : Threads) (t : ThreadId) (priority : ℤ) : Option Threads :=
  if s.basePriority t > priority then
    restorePriority fuel { s with basePriority := update s.basePriority t priority } (some t)
  else some s

/-- Threads that nobody waits for. -/
def initialThreads (basePriority : ThreadId → ℤ) (addressKey : ThreadId → ℕ) (isKernelAddressKey : ThreadId → Bool) :
    Threads :=
  { priority := basePriority
    basePriority
    addressKey
    isKernelAddressKey
    heldLockInfoList := fun _ => []
    waitingLockInfo := fun _ => none
    numKernelWaiters := fun _ => 0
    lockInfo := fun _ => none
    nextLockInfo := 0 }

end Threads

end Kernel
end Citron
