/-
# The memory manager

`KMemoryManager` owns the physical pages: each of its managers (`Impl`) has a heap and
a reference count for each page of its region. An allocation takes pages from the
managers of a pool, and collects them in a page group. The locks, the management
region and the bitmaps of optimized allocations are not modelled: they do not say
which pages are free or counted. An access past the managers, the counts or the block
sizes gives `none`.
-/
import Citron.Kernel.PageHeapRun

namespace Citron
namespace Kernel

open KPageHeap

/-! ### Page groups -/

structure KBlockInfo where
  pageIndex : ℕ
  numPages : ℕ
deriving DecidableEq, Repr

namespace KBlockInfo

def getAddress (b : KBlockInfo) : ℕ := b.pageIndex * PageSize

def getEndAddress (b : KBlockInfo) : ℕ := (b.pageIndex + b.numPages) * PageSize

def tryConcatenate (b : KBlockInfo) (addr np : ℕ) : Option KBlockInfo :=
  if addr ≠ 0 ∧ addr = b.getEndAddress then some { b with numPages := b.numPages + np } else none

end KBlockInfo

/-- A page group, with the number of blocks that its block info manager can give. -/
structure KPageGroup where
  blocks : List KBlockInfo
  manager : ℕ
deriving DecidableEq, Repr

namespace KPageGroup

/-- `AddBlock`; `none` is `ResultOutOfResource`. -/
def addBlock (g : KPageGroup) (addr numPages : ℕ) : Option KPageGroup :=
  if numPages = 0 then some g
  else
    match g.blocks.getLast?.bind (·.tryConcatenate addr numPages) with
    | some last => some { g with blocks := g.blocks.dropLast ++ [last] }
    | none =>
      match g.manager with
      | 0 => none
      | manager + 1 => some ⟨g.blocks ++ [⟨addr / PageSize, numPages⟩], manager⟩

/-- `Finalize`. -/
def finalizeGroup (g : KPageGroup) : KPageGroup := ⟨[], g.manager + g.blocks.length⟩

end KPageGroup

/-! ### The managers -/

inductive Pool
  | application
  | applet
  | system
  | systemNonSecure
deriving DecidableEq, Repr

inductive Direction
  | fromFront
  | fromBack
deriving DecidableEq, Repr

variable {σ : Type} [TinyMT σ]

/-- `KMemoryManager::Impl`. The counts are `u16`. -/
structure Impl (σ : Type) where
  heap : KPageHeap σ
  pageReferenceCounts : List ℕ
  pool : Pool

/-- What the loop of `Close` carries from page to page. -/
structure CloseState (σ : Type) where
  impl : Impl σ
  freeStart : ℕ
  freeCount : ℕ

namespace Impl

def getEndAddress (m : Impl σ) : ℕ := m.heap.heapAddress + m.heap.heapSize

def getPageOffset (m : Impl σ) (address : ℕ) : ℕ := (address - m.heap.heapAddress) / PageSize

def getPageOffsetToEnd (m : Impl σ) (address : ℕ) : ℕ := (m.getEndAddress - address) / PageSize

def free (m : Impl σ) (addr numPages : ℕ) : Option (Impl σ) := do
  let heap ← m.heap.free addr numPages
  some { m with heap }

/-- The loop of `OpenFirst` and `Open`. -/
def openFrom (m : Impl σ) : ℕ → ℕ → Option (Impl σ)
  | _, 0 => some m
  | index, n + 1 => do
    let count ← m.pageReferenceCounts[index]?
    openFrom { m with pageReferenceCounts := m.pageReferenceCounts.set index (incU16 count) } (index + 1) n

/-- `Open`; `OpenFirst` differs in its assertion only. -/
def openPages (m : Impl σ) (address numPages : ℕ) : Option (Impl σ) :=
  m.openFrom (m.getPageOffset address) numPages

/-- Free the pages whose count was found zero in a row. -/
def flush (s : CloseState σ) : Option (CloseState σ) :=
  if 0 < s.freeCount then do
    let impl ← s.impl.free (s.impl.heap.heapAddress + s.freeStart * PageSize) s.freeCount
    some { s with impl, freeCount := 0 }
  else some s

/-- The loop of `Close`. -/
def closeFrom : CloseState σ → ℕ → ℕ → Option (CloseState σ)
  | s, _, 0 => some s
  | s, index, n + 1 => do
    let count ← s.impl.pageReferenceCounts[index]?
    let refCount := decU16 count
    let s := { s with impl :=
      { s.impl with pageReferenceCounts := s.impl.pageReferenceCounts.set index refCount } }
    if refCount = 0 then
      if 0 < s.freeCount then closeFrom { s with freeCount := s.freeCount + 1 } (index + 1) n
      else closeFrom { s with freeStart := index, freeCount := 1 } (index + 1) n
    else do
      let s ← flush s
      closeFrom s (index + 1) n

def close (m : Impl σ) (address numPages : ℕ) : Option (Impl σ) := do
  let s ← closeFrom ⟨m, 0, 0⟩ (m.getPageOffset address) numPages
  let s ← flush s
  some s.impl

end Impl

structure KMemoryManager (σ : Type) where
  managers : List (Impl σ)

namespace KMemoryManager

/-- `GetManager`: the manager whose region holds the address. -/
def getManager (mm : KMemoryManager σ) (address : ℕ) : Option ℕ :=
  mm.managers.findIdx? fun m => m.heap.heapAddress ≤ address && address < m.getEndAddress

def setManager (mm : KMemoryManager σ) (k : ℕ) (m : Impl σ) : KMemoryManager σ :=
  ⟨mm.managers.set k m⟩

/-- The managers of the pool, in the order of `GetFirstManager` and `GetNextManager`. -/
def poolManagers (mm : KMemoryManager σ) (pool : Pool) (dir : Direction) : List ℕ :=
  let managers := (List.range mm.managers.length).filter fun k =>
    (mm.managers[k]?).any fun m => m.pool == pool
  match dir with
  | .fromFront => managers
  | .fromBack => managers.reverse

/-- `GetFreeSize`. -/
def getFreeSize (mm : KMemoryManager σ) : ℕ := (mm.managers.map fun m => m.heap.getNumFreePages * PageSize).sum

/-! ### Reference counts -/

/-- The loop of `Open`, `OpenFirst` and `Close` over the managers of a range. -/
def forRange (f : Impl σ → ℕ → ℕ → Option (Impl σ)) :
    ℕ → KMemoryManager σ → ℕ → ℕ → Option (KMemoryManager σ)
  | _, mm, _, 0 => some mm
  | 0, _, _, _ + 1 => none
  | fuel + 1, mm, address, numPages => do
    let k ← mm.getManager address
    let manager ← mm.managers[k]?
    let curPages := min numPages (manager.getPageOffsetToEnd address)
    let manager ← f manager address curPages
    forRange f fuel (mm.setManager k manager) (address + curPages * PageSize) (numPages - curPages)

def openPages (mm : KMemoryManager σ) (address numPages : ℕ) : Option (KMemoryManager σ) :=
  forRange Impl.openPages numPages mm address numPages

def openFirst (mm : KMemoryManager σ) (address numPages : ℕ) : Option (KMemoryManager σ) :=
  forRange Impl.openPages numPages mm address numPages

def close (mm : KMemoryManager σ) (address numPages : ℕ) : Option (KMemoryManager σ) :=
  forRange Impl.close numPages mm address numPages

/-! ### Allocation -/

/-- The loop of `AllocateAndOpenContinuous` over the managers. -/
def allocateAlignedFrom (index numPages alignPages : ℕ) :
    List ℕ → KMemoryManager σ → Option (ℕ × ℕ × KMemoryManager σ)
  | [], mm => some (0, 0, mm)
  | k :: ks, mm => do
    let manager ← mm.managers[k]?
    let (allocatedBlock, heap) ← manager.heap.allocateAligned index numPages alignPages
    let mm := mm.setManager k { manager with heap }
    if allocatedBlock ≠ 0 then some (k, allocatedBlock, mm)
    else allocateAlignedFrom index numPages alignPages ks mm

def allocateAndOpenContinuous (mm : KMemoryManager σ) (numPages alignPages : ℕ) (pool : Pool)
    (dir : Direction) : Option (ℕ × KMemoryManager σ) :=
  if numPages = 0 then some (0, mm)
  else do
    let heapIndex ← getAlignedBlockIndex numPages alignPages
    let (k, allocatedBlock, mm) ←
      allocateAlignedFrom heapIndex numPages alignPages (mm.poolManagers pool dir) mm
    if allocatedBlock = 0 then some (0, mm)
    else do
      let chosenManager ← mm.managers[k]?
      let chosenManager ← chosenManager.openPages allocatedBlock numPages
      some (allocatedBlock, mm.setManager k chosenManager)

inductive MemoryResult
  | success
  | outOfMemory
  | outOfResource
deriving DecidableEq, Repr

/-- `GetBlockNumPages`. -/
def getBlockNumPages (index : ℕ) : ℕ := bytes index / PageSize

/-- `GetBlockIndex`: the largest size that is not larger than the pages. -/
def getBlockIndex (numPages : ℕ) : Option ℕ :=
  (List.range memoryBlockPageShifts.length).reverse.find? fun i => getBlockNumPages i ≤ numPages

/-- What `AllocatePageGroupImpl` carries through its loops. -/
structure GroupState (σ : Type) where
  mm : KMemoryManager σ
  out : KPageGroup
  numPages : ℕ

/-- `while (num_pages >= pages_per_alloc)`; `false` is a group that has no room. -/
def allocateWhile (k index pagesPerAlloc : ℕ) (random : Bool) :
    ℕ → GroupState σ → Option (Bool × GroupState σ)
  | 0, _ => none
  | fuel + 1, s =>
    if pagesPerAlloc ≤ s.numPages then do
      let curManager ← s.mm.managers[k]?
      let (allocatedBlock, heap) ← curManager.heap.allocateBlock index random
      let mm := s.mm.setManager k { curManager with heap }
      if allocatedBlock = 0 then some (true, { s with mm })
      else
        match s.out.addBlock allocatedBlock pagesPerAlloc with
        | none => do
          -- do not leak the block
          let heap ← heap.free allocatedBlock pagesPerAlloc
          some (false, { s with mm := s.mm.setManager k { curManager with heap } })
        | some out =>
          allocateWhile k index pagesPerAlloc random fuel ⟨mm, out, s.numPages - pagesPerAlloc⟩
    else some (true, s)

/-- The loop over the managers. -/
def allocateManagers (index pagesPerAlloc : ℕ) (random : Bool) :
    List ℕ → GroupState σ → Option (Bool × GroupState σ)
  | [], s => some (true, s)
  | k :: ks, s => do
    let (ok, s) ← allocateWhile k index pagesPerAlloc random (s.numPages + 1) s
    if ok then allocateManagers index pagesPerAlloc random ks s else some (false, s)

/-- The loop over the sizes below `index`. -/
def allocateSizes (managers : List ℕ) (random : Bool) :
    ℕ → GroupState σ → Option (Bool × GroupState σ)
  | 0, s => some (true, s)
  | index + 1, s =>
    if 0 < s.numPages then do
      let (ok, s) ← allocateManagers index (getBlockNumPages index) random managers s
      if ok then allocateSizes managers random index s else some (false, s)
    else some (true, s)

/-- Free a block of the group after a failure: the part of it that lies in the manager
of its first page. -/
def undoBlock (mm : KMemoryManager σ) (block : KBlockInfo) : Option (KMemoryManager σ) := do
  let k ← mm.getManager block.getAddress
  let manager ← mm.managers[k]?
  let nodeNumPages := min block.numPages ((manager.getEndAddress - block.getAddress) / PageSize)
  let manager ← manager.free block.getAddress nodeNumPages
  some (mm.setManager k manager)

def allocatePageGroupImpl (mm : KMemoryManager σ) (out : KPageGroup) (numPages : ℕ) (pool : Pool)
    (dir : Direction) (random : Bool) : Option (MemoryResult × KMemoryManager σ × KPageGroup) :=
  match getBlockIndex numPages with
  | none => some (.outOfMemory, mm, out)
  | some heapIndex => do
    let (ok, s) ← allocateSizes (mm.poolManagers pool dir) random (heapIndex + 1) ⟨mm, out, numPages⟩
    if ok ∧ s.numPages = 0 then some (.success, s.mm, s.out)
    else do
      let mm ← s.out.blocks.foldlM undoBlock s.mm
      some (if ok then .outOfMemory else .outOfResource, mm, s.out.finalizeGroup)

def allocateAndOpen (mm : KMemoryManager σ) (out : KPageGroup) (numPages : ℕ) (pool : Pool)
    (dir : Direction) : Option (MemoryResult × KMemoryManager σ × KPageGroup) :=
  if numPages = 0 then some (.success, mm, out)
  else do
    let (result, mm, out) ← mm.allocatePageGroupImpl out numPages pool dir true
    if result = .success then do
      -- open the first reference to the pages
      let mm ← out.blocks.foldlM (fun mm block => mm.openFirst block.getAddress block.numPages) mm
      some (result, mm, out)
    else some (result, mm, out)

def allocateForProcess (mm : KMemoryManager σ) (out : KPageGroup) (numPages : ℕ) (pool : Pool)
    (dir : Direction) : Option (MemoryResult × KMemoryManager σ × KPageGroup) :=
  mm.allocatePageGroupImpl out numPages pool dir false

/-! ### Initialize -/

/-- A region of a user pool. -/
structure PoolRegion where
  address : ℕ
  size : ℕ
  pool : Pool
deriving DecidableEq, Repr

/-- `Impl::Initialize`, with the generators of the heap. -/
def initializeImpl (rng : RandomBitGenerator σ) (rngs : ℕ → RandomBitGenerator σ) (r : PoolRegion) :
    Impl σ :=
  ⟨initializeHeap rng rngs r.address r.size, List.replicate (r.size / PageSize) 0, r.pool⟩

/-- Free a region to its heap, but for the initial process binary. -/
def initializeRegion (iniStart iniSize : ℕ) (r : PoolRegion) (m : Impl σ) : Option (Impl σ) := do
  let iniEnd := iniStart + iniSize
  let iniLast := iniEnd - 1
  let curLast := r.address + r.size - 1
  if r.address ≤ iniStart ∧ iniLast ≤ curLast then do
    let m ← (if r.address ≠ iniStart then m.free r.address ((iniStart - r.address) / PageSize) else some m)
    let m ← m.openPages iniStart (iniSize / PageSize)
    if iniLast ≠ curLast then m.free iniEnd ((r.address + r.size - iniEnd) / PageSize) else some m
  else m.free r.address (r.size / PageSize)

/-- `Initialize`, with one manager for each region. -/
def initializeManagers (rng : RandomBitGenerator σ) (rngs : ℕ → RandomBitGenerator σ)
    (regions : List PoolRegion) (iniStart iniSize : ℕ) : Option (KMemoryManager σ) := do
  let managers ← regions.mapM fun r => initializeRegion iniStart iniSize r (initializeImpl rng rngs r)
  some ⟨managers⟩

end KMemoryManager

end Kernel
end Citron
