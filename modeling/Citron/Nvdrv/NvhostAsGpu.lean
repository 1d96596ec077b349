/-
# The address space of the GPU

`nvhost_as_gpu` allocates areas of the address space of the GPU, and it maps handles of nvmap into them or
wherever there is room. What the page table and the allocators of pages do to their own states is a parameter;
an allocation without room leaves the allocator as it is.
-/
import Citron.Nvdrv.NvMap

namespace Citron
namespace Nvdrv

open Common

/-- `FlatAllocator` for the pages of one size. -/
structure PageAllocator (γ : Type) extends AddressAllocator γ where
  new : ℕ → ℕ → γ
  allocateFixed : γ → ℕ → ℕ → γ

/-- What `Tegra::MemoryManager` does to its tables: a map has an address, a device address, a size, a kind and big pages. -/
structure PageTable (π : Type) where
  new : ℕ → ℕ → ℕ → π
  map : π → ℕ → ℕ → ℕ → ℕ → Bool → π
  mapSparse : π → ℕ → ℕ → Bool → π
  unmap : π → ℕ → ℕ → π

/-- `CITRON_PAGESIZE` -/
def citronPagesize : ℕ := 0x1000

/-- `PAGE_SIZE_BITS` -/
def pageSizeBits : ℕ := 12

/-- `SUPPORTED_BIG_PAGE_SIZES` -/
def supportedBigPageSizes : ℕ := 0x30000

/-- `DEFAULT_BIG_PAGE_SIZE` -/
def defaultBigPageSize : ℕ := 0x20000

/-- `VA_START_SHIFT` -/
def vaStartShift : ℕ := 10

def isAligned (value alignment : ℕ) : Bool := value &&& (alignment - 1) = 0

/-- The bits of `MappingFlags`. -/
structure MappingFlags where
  fixed : Bool
  sparse : Bool
  remap : Bool

/-- A mapping of a handle. Nothing changes it. -/
structure BufferMapping where
  handle : ℕ
  ptr : ℕ
  offset : ℕ
  size : ℕ
  fixed : Bool
  bigPage : Bool
  sparseAlloc : Bool

structure Allocation where
  mappings : List BufferMapping
  size : ℕ
  pageSize : ℕ
  sparse : Bool
  bigPages : Bool

/-- What `operator[]` puts in the map for an offset that is not there. -/
def Allocation.empty : Allocation := ⟨[], 0, 0, false, false⟩

structure NvhostAsGpu (α β γ π : Type) where
  nvmap : NvMap α β
  mappingMap : ℕ → Option BufferMapping
  allocationMap : Std.TreeMap ℕ Allocation
  bigPageSize : ℕ
  bigPageSizeBits : ℕ
  vaRangeStart : ℕ
  vaRangeSplit : ℕ
  vaRangeEnd : ℕ
  pages : PageAllocator γ
  bigPageAllocator : γ
  smallPageAllocator : γ
  initialised : Bool
  table : PageTable π
  gmmu : π

structure IoctlAllocAsEx where
  bigPageSize : ℕ
  vaRangeStart : ℕ
  vaRangeEnd : ℕ
  vaRangeSplit : ℕ

structure IoctlAllocSpace where
  pages : ℕ
  pageSize : ℕ
  flags : MappingFlags
  offset : ℕ

structure IoctlFreeSpace where
  offset : ℕ
  pages : ℕ
  pageSize : ℕ

structure IoctlRemapEntry where
  kind : ℕ
  handle : ℕ
  handleOffsetBigPages : ℕ
  asOffsetBigPages : ℕ
  bigPages : ℕ

structure IoctlMapBufferEx where
  flags : MappingFlags
  kind : ℕ
  handle : ℕ
  bufferOffset : ℕ
  mappingSize : ℕ
  offset : ℕ

namespace NvhostAsGpu

variable {α β γ π : Type} (s : NvhostAsGpu α β γ π)

def initial (nvmap : NvMap α β) (pages : PageAllocator γ) (table : PageTable π) : NvhostAsGpu α β γ π where
  nvmap := nvmap
  mappingMap _ := none
  allocationMap := ∅
  bigPageSize := defaultBigPageSize
  bigPageSizeBits := 17
  vaRangeStart := defaultBigPageSize <<< vaStartShift
  vaRangeSplit := 2 ^ 34
  vaRangeEnd := 2 ^ 37
  pages := pages
  bigPageAllocator := pages.new 0 0
  smallPageAllocator := pages.new 0 0
  initialised := false
  table := table
  gmmu := table.new 0 0 0

/-! ### Parts of the state -/

def pageAllocator (bigPages : Bool) : γ := if bigPages then s.bigPageAllocator else s.smallPageAllocator

def setPageAllocator (bigPages : Bool) (allocator : γ) : NvhostAsGpu α β γ π :=
  if bigPages then { s with bigPageAllocator := allocator } else { s with smallPageAllocator := allocator }

/-- The size of the pages, big or small ones. -/
def sizeOfPage (bigPages : Bool) : ℕ := if bigPages then s.bigPageSize else citronPagesize

def bitsOfPage (bigPages : Bool) : ℕ := if bigPages then s.bigPageSizeBits else pageSizeBits

/-- The bytes of the pages that a size needs. -/
def alignedSize (bigPages : Bool) (size : ℕ) : ℕ := alignUp size (s.sizeOfPage bigPages) % 2 ^ 64

/-- `Free` of pages from an offset on; a page has a number of 32 bits. -/
def freePages (bigPages : Bool) (offset size : ℕ) : NvhostAsGpu α β γ π :=
  s.setPageAllocator bigPages (s.pages.free (s.pageAllocator bigPages)
    (offset >>> s.bitsOfPage bigPages % 2 ^ 32) (size >>> s.bitsOfPage bigPages % 2 ^ 32))

/-- The last allocation that does not begin behind the offset, and where it begins. -/
def allocationBefore (offset : ℕ) : Option (ℕ × Allocation) := s.allocationMap.getEntryLE? offset

/-- The allocation that holds so many bytes from the offset on. -/
def allocationAround (offset size : ℕ) : Option (ℕ × Allocation) :=
  (s.allocationBefore offset).filter fun alloc => ((offset - alloc.1) + size) % 2 ^ 64 ≤ alloc.2.size

def pinHandle (id : ℕ) : Option (NvhostAsGpu α β γ π × ℕ) :=
  (s.nvmap.pinHandle (maxFreeAttempts + 1) id false).map fun r => ({ s with nvmap := r.1 }, r.2)

/-! ### Areas -/

def allocAsEx (params : IoctlAllocAsEx) : NvhostAsGpu α β γ π × NvResult :=
  if s.initialised then (s, .invalidState)
  else if params.bigPageSize ≠ 0 ∧ params.bigPageSize &&& (params.bigPageSize - 1) ≠ 0 then (s, .badValue)
  else if params.bigPageSize ≠ 0 ∧ params.bigPageSize &&& supportedBigPageSizes = 0 then (s, .badValue)
  else
    let s := if params.bigPageSize ≠ 0 then
        { s with
          bigPageSize := params.bigPageSize, bigPageSizeBits := Nat.log2 params.bigPageSize,
          vaRangeStart := params.bigPageSize <<< vaStartShift % 2 ^ 32 }
      else s
    let s := if params.vaRangeStart ≠ 0 then
        { s with vaRangeStart := params.vaRangeStart, vaRangeSplit := params.vaRangeSplit, vaRangeEnd := params.vaRangeEnd }
      else s
    let startPages := s.vaRangeStart >>> pageSizeBits % 2 ^ 32
    let endPages := s.vaRangeSplit >>> pageSizeBits % 2 ^ 32
    let startBigPages := s.vaRangeSplit >>> s.bigPageSizeBits % 2 ^ 32
    let endBigPages := ((s.vaRangeEnd + 2 ^ 64 - s.vaRangeSplit) % 2 ^ 64) >>> s.bigPageSizeBits % 2 ^ 32
    ({ s with
        smallPageAllocator := s.pages.new startPages endPages
        bigPageAllocator := s.pages.new startBigPages endBigPages
        gmmu := s.table.new (Nat.clog 2 s.vaRangeEnd) s.vaRangeSplit s.bigPageSizeBits
        initialised := true },
      .success)

/-- The end of `AllocateSpace`, for an area that has its pages. -/
def addAllocation (params : IoctlAllocSpace) (offset : ℕ) : NvhostAsGpu α β γ π :=
  let size := params.pages * params.pageSize
  let s := if params.flags.sparse then { s with gmmu := s.table.mapSparse s.gmmu offset size true } else s
  { s with
    allocationMap := s.allocationMap.insert offset ⟨[], size, params.pageSize, params.flags.sparse, params.pageSize != citronPagesize⟩ }

/-- `AllocateSpace`, with the offset that it gives back. -/
def allocateSpace (params : IoctlAllocSpace) : NvhostAsGpu α β γ π × NvResult × ℕ :=
  if !s.initialised then (s, .badValue, params.offset)
  else if params.pageSize ≠ citronPagesize ∧ params.pageSize ≠ s.bigPageSize then (s, .badValue, params.offset)
  else if params.pageSize ≠ s.bigPageSize ∧ params.flags.sparse then (s, .notImplemented, params.offset)
  else
    let bigPages : Bool := params.pageSize ≠ citronPagesize
    if params.flags.fixed then
      let s := s.setPageAllocator bigPages
        (s.pages.allocateFixed (s.pageAllocator bigPages) (params.offset >>> s.bitsOfPage bigPages % 2 ^ 32) params.pages)
      (s.addAllocation params params.offset, .success, params.offset)
    else
      let allocation := s.pages.allocate (s.pageAllocator bigPages) params.pages
      let offset := allocation.1 <<< s.bitsOfPage bigPages
      let s := s.setPageAllocator bigPages allocation.2
      if offset = 0 then (s, .insufficientMemory, offset) else (s.addAllocation params offset, .success, offset)

/-- `FreeMappingLocked`; `none` if `at` throws. -/
def freeMappingLocked (offset : ℕ) : Option (NvhostAsGpu α β γ π) := do
  let mapping ← s.mappingMap offset
  let s := if mapping.fixed then s
    else s.freePages mapping.bigPage mapping.offset (s.alignedSize mapping.bigPage mapping.size)
  let s := { s with nvmap := s.nvmap.unpinHandle mapping.handle }
  let s := if mapping.sparseAlloc then { s with gmmu := s.table.mapSparse s.gmmu offset mapping.size mapping.bigPage }
    else { s with gmmu := s.table.unmap s.gmmu offset mapping.size }
  some { s with mappingMap := Function.update s.mappingMap offset none }

/-- The loop over the mappings of an area, and whether nothing was thrown. -/
def freeMappings : List BufferMapping → NvhostAsGpu α β γ π → NvhostAsGpu α β γ π × Bool
  | [], s => (s, true)
  | mapping :: mappings, s =>
    match s.freeMappingLocked mapping.offset with
    | none => (s, false)
    | some s => freeMappings mappings s

/-- `allocation_map[offset]` -/
def allocationAt (offset : ℕ) : NvhostAsGpu α β γ π × Allocation :=
  match s.allocationMap[offset]? with
  | some allocation => (s, allocation)
  | none => ({ s with allocationMap := s.allocationMap.insert offset .empty }, .empty)

def freeSpace (params : IoctlFreeSpace) : NvhostAsGpu α β γ π × NvResult :=
  if !s.initialised then (s, .badValue)
  else
    let (s, allocation) := s.allocationAt params.offset
    if allocation.pageSize ≠ params.pageSize ∨ allocation.size ≠ params.pages * params.pageSize then (s, .badValue)
    else
      match freeMappings allocation.mappings s with
      | (s, false) => (s, .badValue)
      | (s, true) =>
        let s := if allocation.sparse then { s with gmmu := s.table.unmap s.gmmu params.offset allocation.size } else s
        let s := s.freePages (params.pageSize != citronPagesize) params.offset allocation.size
        ({ s with allocationMap := s.allocationMap.erase params.offset }, .success)

/-! ### Buffers -/

/-- One entry of `Remap`. -/
def remapEntry (entry : IoctlRemapEntry) : Option (NvhostAsGpu α β γ π × NvResult) :=
  let virtualAddress := entry.asOffsetBigPages <<< s.bigPageSizeBits
  let size := entry.bigPages <<< s.bigPageSizeBits
  match s.allocationAround virtualAddress size with
  | none => some (s, .badValue)
  | some alloc =>
    if !alloc.2.sparse then some (s, .badValue)
    else if entry.handle = 0 then
      some ({ s with gmmu := s.table.mapSparse s.gmmu virtualAddress size alloc.2.bigPages }, .success)
    else if !s.nvmap.handles entry.handle then some (s, .badValue)
    else do
      let (s, base) ← s.pinHandle entry.handle
      if base = 0 then some (s, .insufficientMemory)
      else
        let deviceAddress := (base + entry.handleOffsetBigPages <<< s.bigPageSizeBits) % 2 ^ 64
        some ({ s with gmmu := s.table.map s.gmmu virtualAddress deviceAddress size entry.kind alloc.2.bigPages }, .success)

def remapEntries : List IoctlRemapEntry → NvhostAsGpu α β γ π → Option (NvhostAsGpu α β γ π × NvResult)
  | [], s => some (s, .success)
  | entry :: entries, s => do
    let (s, result) ← s.remapEntry entry
    if result = .success then remapEntries entries s else some (s, result)

def remap (entries : List IoctlRemapEntry) : Option (NvhostAsGpu α β γ π × NvResult) :=
  if !s.initialised then some (s, .badValue) else remapEntries entries s

/-- `MapBufferEx` with the flag `Remap`. -/
def mapAgain (params : IoctlMapBufferEx) : NvhostAsGpu α β γ π × NvResult :=
  match s.mappingMap params.offset with
  | none => (s, .badValue)
  | some mapping =>
    if mapping.size < params.mappingSize then (s, .badValue)
    else
      let gpuAddress := (params.offset + params.bufferOffset) % 2 ^ 64
      let deviceAddress := (mapping.ptr + params.bufferOffset) % 2 ^ 64
      ({ s with gmmu := s.table.map s.gmmu gpuAddress deviceAddress params.mappingSize params.kind mapping.bigPage }, .success)

/-- A buffer is mapped into an area. -/
def mapFixed (params : IoctlMapBufferEx) (deviceAddress size : ℕ) (bigPage : Bool) : NvhostAsGpu α β γ π × NvResult :=
  match s.allocationAround params.offset size with
  | none => (s, .badValue)
  | some (start, alloc) =>
    let useBigPages := alloc.bigPages && bigPage
    let mapping : BufferMapping := ⟨params.handle, deviceAddress, params.offset, size, true, useBigPages, alloc.sparse⟩
    ({ s with
        gmmu := s.table.map s.gmmu params.offset deviceAddress size params.kind useBigPages
        allocationMap := s.allocationMap.insert start { alloc with mappings := alloc.mappings ++ [mapping] }
        mappingMap := Function.update s.mappingMap params.offset (some mapping) },
      .success)

/-- A buffer is mapped wherever there is room. -/
def mapAnywhere (params : IoctlMapBufferEx) (deviceAddress size : ℕ) (bigPage : Bool) : NvhostAsGpu α β γ π × NvResult × ℕ :=
  let alignedSize := s.alignedSize bigPage size
  let allocation := s.pages.allocate (s.pageAllocator bigPage) (alignedSize >>> s.bitsOfPage bigPage % 2 ^ 32)
  let offset := allocation.1 <<< s.bitsOfPage bigPage
  let s := s.setPageAllocator bigPage allocation.2
  if offset = 0 then (s, .insufficientMemory, offset)
  else
    let mapping : BufferMapping := ⟨params.handle, deviceAddress, offset, size, false, bigPage, false⟩
    ({ s with
        gmmu := s.table.map s.gmmu offset deviceAddress alignedSize params.kind bigPage
        mappingMap := Function.update s.mappingMap offset (some mapping) },
      .success, offset)

/-- The size of the buffer that is mapped. -/
def bufferSize (params : IoctlMapBufferEx) : ℕ :=
  if params.mappingSize ≠ 0 then params.mappingSize else (s.nvmap.objects params.handle).origSize

/-- The end of `MapBufferEx`, for a handle that has its pin. -/
def mapPinned (params : IoctlMapBufferEx) (base : ℕ) : NvhostAsGpu α β γ π × NvResult × ℕ :=
  let deviceAddress := (base + params.bufferOffset) % 2 ^ 64
  let size := s.bufferSize params
  -- otherwise the handle is aligned to small pages
  let bigPage := isAligned (s.nvmap.objects params.handle).align s.bigPageSize
  if params.flags.fixed then
    let r := s.mapFixed params deviceAddress size bigPage
    (r.1, r.2, params.offset)
  else s.mapAnywhere params deviceAddress size bigPage

/-- `MapBufferEx`, with the offset that it gives back. -/
def mapBufferEx (params : IoctlMapBufferEx) : Option (NvhostAsGpu α β γ π × NvResult × ℕ) :=
  if !s.initialised then some (s, .badValue, params.offset)
  else if params.flags.remap then some ((s.mapAgain params).1, (s.mapAgain params).2, params.offset)
  else if !s.nvmap.handles params.handle then some (s, .badValue, params.offset)
  else do
    let (s, base) ← s.pinHandle params.handle
    if base = 0 then some (s, .insufficientMemory, params.offset) else some (s.mapPinned params base)

def unmapBuffer (offset : ℕ) : NvhostAsGpu α β γ π × NvResult :=
  if !s.initialised then (s, .badValue)
  else
    match s.mappingMap offset with
    | none => (s, .success)
    | some mapping =>
      let s := if mapping.fixed then s else s.freePages mapping.bigPage mapping.offset mapping.size
      let s := if mapping.sparseAlloc then { s with gmmu := s.table.mapSparse s.gmmu offset mapping.size mapping.bigPage }
        else { s with gmmu := s.table.unmap s.gmmu offset mapping.size }
      let s := { s with nvmap := s.nvmap.unpinHandle mapping.handle }
      ({ s with mappingMap := Function.update s.mappingMap offset none }, .success)

/-! ### Runs -/

/-- The calls that can fail half done. -/
inductive Ioctl
  | allocateSpace (params : IoctlAllocSpace)
  | freeSpace (params : IoctlFreeSpace)
  | mapBufferEx (params : IoctlMapBufferEx)

def ioctl : Ioctl → Option (NvhostAsGpu α β γ π × NvResult × ℕ)
  | .allocateSpace params => some (s.allocateSpace params)
  | .freeSpace params => some ((s.freeSpace params).1, (s.freeSpace params).2, params.offset)
  | .mapBufferEx params => s.mapBufferEx params

/-- The calls, those of nvmap by other devices, and what a channel does to the small pages and the page table. -/
inductive Event (α β γ π : Type)
  | allocAsEx (params : IoctlAllocAsEx)
  | ioctl (call : Ioctl)
  | remap (entries : List IoctlRemapEntry)
  | unmapBuffer (offset : ℕ)
  | nvmap (event : NvMap.Event α β)
  | channel (smallPageAllocator : γ) (gmmu : π)

inductive Reply
  | result (result : NvResult)
  | offset (result : NvResult) (offset : ℕ)
  | nvmap (reply : NvMap.Reply)
  | done

/-- `none` is a loop that does not end. -/
def step (s : NvhostAsGpu α β γ π) : Event α β γ π → Option (NvhostAsGpu α β γ π × Reply)
  | .allocAsEx params => some ((s.allocAsEx params).1, .result (s.allocAsEx params).2)
  | .ioctl call => (s.ioctl call).map fun r => (r.1, .offset r.2.1 r.2.2)
  | .remap entries => (s.remap entries).map fun r => (r.1, .result r.2)
  | .unmapBuffer offset => some ((s.unmapBuffer offset).1, .result (s.unmapBuffer offset).2)
  | .nvmap event => (s.nvmap.step event).map fun r => ({ s with nvmap := r.1 }, .nvmap r.2)
  | .channel smallPageAllocator gmmu => some ({ s with smallPageAllocator := smallPageAllocator, gmmu := gmmu }, .done)

end NvhostAsGpu
end Nvdrv
end Citron
