/-
# The memory block manager

`KMemoryBlockManager` (k_memory_block_manager.cpp): the blocks of an address
space in a tree ordered by address, and the four operations that rewrite a
range of it. The tree is the list of its nodes in order; an iterator is a
place in that list. Stepping or reading an iterator that is no node (`end()`,
or the null node before the first) is a fault, and so is taking a block from
an update allocator that has none left.

`Update`, `UpdateIfMatch`, `UpdateLock` and `UpdateAttribute` share one loop,
`updateStep`: it leaves the blocks `skip` accepts and cuts every other block
to the range and changes it by `upd`. They end with `coalesceForUpdate`.
-/
import Citron.Kernel.MemoryBlock
import Citron.Lib.Loop

namespace Citron
namespace Kernel

open Lib

inductive Fault
  /-- A null node is read or stepped from. -/
  | nullNode
  /-- `Allocate()` with no slot left. -/
  | emptyAllocator
  /-- A node is inserted that the tree already has. -/
  | nodeInTree
  | outOfFuel
deriving DecidableEq, Repr

/-! ### The update allocator -/

/-- `KMemoryBlockManagerUpdateAllocator`: the slots of `m_blocks` from
`m_index` on, which are the ones that hold a block. -/
structure KMemoryBlockManagerUpdateAllocator where
  blocks : List KMemoryBlock
deriving DecidableEq, Repr

namespace KMemoryBlockManagerUpdateAllocator

def maxBlocks : ℕ := 2

/-- `Initialize`, with a slab manager that has the blocks. -/
def ofNumBlocks (numBlocks : ℕ) : KMemoryBlockManagerUpdateAllocator :=
  ⟨List.replicate (min numBlocks maxBlocks) {}⟩

def allocate (a : KMemoryBlockManagerUpdateAllocator) :
    Except Fault (KMemoryBlock × KMemoryBlockManagerUpdateAllocator) :=
  match a.blocks with
  | [] => .error .emptyAllocator
  | b :: bs => .ok (b, ⟨bs⟩)

/-- `Free`: a block that finds no slot goes back to the slab manager. -/
def free (a : KMemoryBlockManagerUpdateAllocator) (block : KMemoryBlock) :
    KMemoryBlockManagerUpdateAllocator :=
  if a.blocks.length = maxBlocks then a else ⟨block :: a.blocks⟩

end KMemoryBlockManagerUpdateAllocator

/-! ### The tree and its iterators -/

/-- A place in the tree: the nodes before it, the node it is at and those
after it. At `end()` there is no such node. -/
structure Iterator where
  before : List KMemoryBlock
  rest : List KMemoryBlock
deriving DecidableEq, Repr

namespace Iterator

def tree (it : Iterator) : List KMemoryBlock := it.before ++ it.rest

/-- `*it` -/
def deref (it : Iterator) : Except Fault KMemoryBlock :=
  match it.rest with
  | [] => .error .nullNode
  | b :: _ => .ok b

/-- `*it = b` -/
def set (it : Iterator) (b : KMemoryBlock) : Iterator := ⟨it.before, b :: it.rest.tail⟩

/-- `it++` -/
def next (it : Iterator) : Except Fault Iterator :=
  match it.rest with
  | [] => .error .nullNode
  | b :: bs => .ok ⟨it.before ++ [b], bs⟩

/-- `it--`. Before the first node there is the null node, which is `end()`. -/
def prev (it : Iterator) : Except Fault Iterator :=
  match it.rest with
  | [] => .error .nullNode
  | _ :: _ =>
    match it.before.getLast? with
    | none => .ok ⟨it.tree, []⟩
    | some b => .ok ⟨it.before.dropLast, b :: it.rest⟩

/-- `erase(it)`, and the iterator to the node that follows. -/
def erase (it : Iterator) : Iterator := ⟨it.before, it.rest.tail⟩

end Iterator

/-- `m_memory_block_tree.insert(block)`, the iterator to the new node. -/
def insert (tree : List KMemoryBlock) (block : KMemoryBlock) : Except Fault Iterator :=
  let before := tree.takeWhile fun b => block.compare b == .gt
  match tree.dropWhile fun b => block.compare b == .gt with
  | [] => .ok ⟨before, [block]⟩
  | b :: rest =>
    if block.compare b == .eq then .error .nodeInTree else .ok ⟨before, block :: b :: rest⟩

/-- `FindIterator`: the node that holds the address, or `end()`. -/
def findIterator (tree : List KMemoryBlock) (address : ℕ) : Iterator :=
  let key := KMemoryBlock.ofRange address 1 .free .none .none
  ⟨tree.takeWhile fun b => key.compare b != .eq, tree.dropWhile fun b => key.compare b != .eq⟩

/-! ### The manager -/

structure KMemoryBlockManager where
  tree : List KMemoryBlock
  startAddress : ℕ
  endAddress : ℕ
deriving DecidableEq, Repr

/-- What an update loop carries from turn to turn. -/
structure UpdateState where
  allocator : KMemoryBlockManagerUpdateAllocator
  it : Iterator
  curAddress : ℕ
  remainingPages : ℕ
deriving DecidableEq, Repr

/-- "If we need to, create a new block before and insert it." -/
def splitBefore (s : UpdateState) : Except Fault UpdateState := do
  let curInfo ← s.it.deref
  if curInfo.address ≠ s.curAddress then
    let (_, allocator) ← s.allocator.allocate
    let (newBlock, b) := curInfo.split s.curAddress
    let it ← insert (s.it.set b).tree newBlock
    let it ← it.next
    let curInfo ← it.deref
    return { s with allocator, it, curAddress := curInfo.address }
  else return s

/-- "If we need to, create a new block after and insert it." -/
def splitAfter (remainingSize : ℕ) (s : UpdateState) : Except Fault UpdateState := do
  let curInfo ← s.it.deref
  if curInfo.getSize > remainingSize then
    let (_, allocator) ← s.allocator.allocate
    let (newBlock, b) := curInfo.split (s.curAddress + remainingSize)
    let it ← insert (s.it.set b).tree newBlock
    return { s with allocator, it }
  else return s

/-- "Update block state" and "Advance our iterator": the end of a turn. -/
def updateBlock (upd : KMemoryBlock → KMemoryBlock) (s : UpdateState) : Except Fault UpdateState := do
  let curInfo ← s.it.deref
  let it ← (s.it.set (upd curInfo)).next
  return { s with
    it
    curAddress := s.curAddress + curInfo.getSize
    remainingPages := s.remainingPages - curInfo.numPages }

/-- A turn of the update loops. -/
def updateStep (skip : KMemoryBlock → Bool) (upd : KMemoryBlock → KMemoryBlock)
    (s : UpdateState) : Except Fault UpdateState := do
  let remainingSize := s.remainingPages * PageSize
  let curInfo ← s.it.deref
  if skip curInfo then
    -- the block has the right properties already: just advance
    let it ← s.it.next
    if s.curAddress + remainingSize < curInfo.getEndAddress then
      return { s with it, curAddress := s.curAddress + remainingSize, remainingPages := 0 }
    else
      return { s with
        it
        curAddress := curInfo.getEndAddress
        remainingPages := (s.curAddress + remainingSize - curInfo.getEndAddress) / PageSize }
  else
    let s ← splitBefore s
    let s ← splitAfter remainingSize s
    updateBlock upd s

/-- The loop `while (remaining_pages > 0)`: every turn consumes a page. -/
def updateLoop (skip : KMemoryBlock → Bool) (upd : KMemoryBlock → KMemoryBlock) :
    ℕ → UpdateState → Except Fault UpdateState :=
  whileLoop .outOfFuel (fun s => decide (0 < s.remainingPages)) (updateStep skip upd)

/-- What the coalescing loop carries from turn to turn. -/
structure CoalesceState where
  allocator : KMemoryBlockManagerUpdateAllocator
  it : Iterator
  done : Bool
deriving DecidableEq, Repr

/-- A turn of the loop of `CoalesceForUpdate`; `done` is its `break`. -/
def coalesceStep (address numPages : ℕ) (s : CoalesceState) : Except Fault CoalesceState := do
  let prev ← s.it.deref
  let it ← s.it.next
  match it.rest with
  | [] => return { s with it, done := true }
  | cur :: _ =>
    if prev.canMergeWith cur then
      -- erase the node, add it to `prev`, and go back to `prev`
      let it : Iterator := ⟨s.it.before, prev.add cur :: it.erase.rest⟩
      let b ← it.deref
      return ⟨s.allocator.free cur, it, address + numPages * PageSize < b.getEndAddress⟩
    else
      return { s with it, done := address + numPages * PageSize < cur.getEndAddress }

/-- Where `CoalesceForUpdate` begins: the node that holds the address, or the one before it. -/
def coalesceBegin (m : KMemoryBlockManager) (address : ℕ) : Except Fault Iterator :=
  let it := findIterator m.tree address
  if address ≠ m.startAddress then it.prev else .ok it

def coalesceForUpdate (m : KMemoryBlockManager) (allocator : KMemoryBlockManagerUpdateAllocator)
    (address numPages : ℕ) : Except Fault (KMemoryBlockManager × KMemoryBlockManagerUpdateAllocator) := do
  let it ← coalesceBegin m address
  let s ← whileLoop .outOfFuel (fun s => !s.done) (coalesceStep address numPages)
    (m.tree.length + 1) ⟨allocator, it, false⟩
  return ({ m with tree := s.it.tree }, s.allocator)

/-- The body that the four operations share. -/
def updateRange (skip : KMemoryBlock → Bool) (upd : KMemoryBlock → KMemoryBlock)
    (m : KMemoryBlockManager) (allocator : KMemoryBlockManagerUpdateAllocator)
    (address numPages : ℕ) : Except Fault (KMemoryBlockManager × KMemoryBlockManagerUpdateAllocator) := do
  let s ← updateLoop skip upd numPages ⟨allocator, findIterator m.tree address, address, numPages⟩
  coalesceForUpdate { m with tree := s.it.tree } s.allocator address numPages

namespace KMemoryBlockManager

/-- `Initialize`, with a slab manager that gives a fresh block. -/
def initializeManager (st nd : ℕ) : KMemoryBlockManager :=
  ⟨[({} : KMemoryBlock).initializeBlock st ((nd - st) / PageSize) .free .none .none], st, nd⟩

def update (m : KMemoryBlockManager) (allocator : KMemoryBlockManagerUpdateAllocator)
    (address numPages : ℕ) (state : KMemoryState) (perm : KMemoryPermission)
    (attr : KMemoryAttribute) (setDisableAttr clearDisableAttr : KMemoryBlockDisableMergeAttribute) :
    Except Fault (KMemoryBlockManager × KMemoryBlockManagerUpdateAllocator) :=
  updateRange (fun b => b.hasProperties state perm attr)
    (fun b => b.update state perm attr (b.address == address) setDisableAttr clearDisableAttr)
    m allocator address numPages

def updateIfMatch (m : KMemoryBlockManager) (allocator : KMemoryBlockManagerUpdateAllocator)
    (address numPages : ℕ) (testState : KMemoryState) (testPerm : KMemoryPermission)
    (testAttr : KMemoryAttribute) (state : KMemoryState) (perm : KMemoryPermission)
    (attr : KMemoryAttribute) (setDisableAttr clearDisableAttr : KMemoryBlockDisableMergeAttribute) :
    Except Fault (KMemoryBlockManager × KMemoryBlockManagerUpdateAllocator) :=
  updateRange
    (fun b => !(b.hasProperties testState testPerm testAttr && !b.hasProperties state perm attr))
    (fun b => b.update state perm attr false setDisableAttr clearDisableAttr)
    m allocator address numPages

def updateLock (m : KMemoryBlockManager) (allocator : KMemoryBlockManagerUpdateAllocator)
    (address numPages : ℕ) (lockFunc : MemoryBlockLockFunction) (perm : KMemoryPermission) :
    Except Fault (KMemoryBlockManager × KMemoryBlockManagerUpdateAllocator) :=
  updateRange (fun _ => false)
    (fun b => lockFunc.call b perm (b.address == address)
      (b.getEndAddress == address + numPages * PageSize))
    m allocator address numPages

def updateAttribute (m : KMemoryBlockManager) (allocator : KMemoryBlockManagerUpdateAllocator)
    (address numPages : ℕ) (mask attr : KMemoryAttribute) :
    Except Fault (KMemoryBlockManager × KMemoryBlockManagerUpdateAllocator) :=
  updateRange (fun b => b.memoryAttribute &&& mask == attr) (fun b => b.updateAttribute mask attr)
    m allocator address numPages

/-- The part of `CheckState` about one block: a lock attribute has a count. -/
def checkCounts (info : KMemoryBlock) : Bool :=
  !(info.memoryAttribute &&& KMemoryAttribute.ipcLocked != .none && info.ipcLockCount == 0) &&
    !(info.memoryAttribute &&& KMemoryAttribute.deviceShared != .none && info.deviceUseCount == 0)

/-- The loop of `CheckState` and the check of the last block after it. -/
def checkStateFrom : KMemoryBlock → List KMemoryBlock → Bool
  | prev, [] => checkCounts prev
  | prev, cur :: rest =>
    !prev.canMergeWith cur && prev.getEndAddress == cur.address && checkCounts cur &&
      checkStateFrom cur rest

def checkState (m : KMemoryBlockManager) : Bool :=
  match m.tree with
  | [] => false
  | prev :: rest => checkStateFrom prev rest

end KMemoryBlockManager

end Kernel
end Citron
