/-
# The device memory manager

`DeviceMemoryManager`: the table from device pages to physical pages, with a run length beside each
entry that lets a block be copied many pages at a time, and the table back from physical pages to the
device pages that are mapped to them. A table has at most `2 ^ 27` pages, so that page numbers and run
lengths fit in the 32 bits that the code has for them.
-/
import Mathlib

namespace Citron
namespace Core
namespace DeviceMemory

/-- `1ULL << CITRON_PAGEBITS` -/
def pageSize : ℕ := 4096

abbrev physicalBits : ℕ := 34

abbrev multiFlagBits : ℕ := 31

/-- `MULTI_FLAG` -/
def multiFlag : ℕ := 2 ^ multiFlagBits

/-- `MULTI_MASK` -/
def multiMask : ℕ := 2 ^ multiFlagBits - 1

/-! ### Device pages that share a physical page -/

/-- An element of a chain; `0` is the end. -/
structure ChainEntry where
  nextEntry : ℕ
  value : ℕ

/-- The chains, whose entries are numbered from one. -/
structure MultiAddressContainer where
  storage : List ChainEntry
  freeEntries : List ℕ

namespace MultiAddressContainer

variable (c : MultiAddressContainer)

/-- `storage[entry - 1]`; an index outside the storage has no entry. -/
def entry? (entry : ℕ) : Option ChainEntry := if entry = 0 then none else c.storage[entry - 1]?

def setNext (entry nextEntry : ℕ) : MultiAddressContainer :=
  { c with storage := c.storage.modify (entry - 1) fun e => { e with nextEntry := nextEntry } }

/-- The loop of `GatherValues`, for at most `fuel` entries. -/
def gatherFrom : ℕ → ℕ → Option (List ℕ)
  | 0, _ => none
  | fuel + 1, iterEntry => do
    let current ← c.entry? iterEntry
    if current.nextEntry ≠ 0 then
      let values ← gatherFrom fuel current.nextEntry
      return current.value :: values
    else return [current.value]

def gatherValues (startEntry : ℕ) : Option (List ℕ) := c.gatherFrom c.storage.length startEntry

def getNewEntry : ℕ × MultiAddressContainer :=
  match c.freeEntries with
  | result :: freeEntries => (result, { c with freeEntries := freeEntries })
  | [] => (c.storage.length + 1, { c with storage := c.storage ++ [⟨0, 0⟩] })

def registerImplementation (value : ℕ) : ℕ × MultiAddressContainer :=
  let (entryId, c) := c.getNewEntry
  (entryId, { c with storage := c.storage.set (entryId - 1) ⟨0, value⟩ })

/-- The loop to the end of a chain. -/
def lastEntry : ℕ → ℕ → Option ℕ
  | 0, _ => none
  | fuel + 1, iterEntry => do
    let current ← c.entry? iterEntry
    if current.nextEntry ≠ 0 then lastEntry fuel current.nextEntry else return iterEntry

/-- `Register` with the chain to register in. -/
def register (value startEntry : ℕ) : Option MultiAddressContainer := do
  let (entryId, c) := c.registerImplementation value
  let iterEntry ← c.lastEntry c.storage.length startEntry
  return c.setNext iterEntry entryId

/-- The loop to the entry with the value: the entry, the one before it (`0` for none) and their count. -/
def findValue (value : ℕ) : ℕ → ℕ → ℕ → ℕ → Option (ℕ × ℕ × ℕ)
  | 0, _, _, _ => none
  | fuel + 1, iterEntry, previous, count => do
    let current ← c.entry? iterEntry
    if current.value ≠ value then findValue value fuel current.nextEntry iterEntry (count + 1)
    else return (iterEntry, previous, count)

/-- Whether two entries follow, or one follows and one is before. -/
def moreRemaining (nextEntry previous : ℕ) : Option Bool :=
  if nextEntry ≠ 0 then do
    let next ← c.entry? nextEntry
    return next.nextEntry ≠ 0 || previous ≠ 0
  else some false

/-- Whether more than one entry remains, and where the chain starts now. -/
def unregister (value startEntry : ℕ) : Option ((Bool × ℕ) × MultiAddressContainer) := do
  let (iterEntry, previous, count) ← c.findValue value c.storage.length startEntry 0 0
  let current ← c.entry? iterEntry
  let nextEntry := current.nextEntry
  let moreThanOneRemaining ← c.moreRemaining nextEntry previous
  let unlinked := if previous ≠ 0 then c.setNext previous nextEntry else c
  let resultStart := if previous ≠ 0 then startEntry else nextEntry
  return ((moreThanOneRemaining || count > 1, resultStart), { unlinked with freeEntries := unlinked.freeEntries ++ [iterEntry] })

def releaseEntry (startEntry : ℕ) : Option (ℕ × MultiAddressContainer) := do
  let current ← c.entry? startEntry
  return (current.value, { c with freeEntries := c.freeEntries ++ [startEntry] })

end MultiAddressContainer

/-! ### The tables -/

/-- Where the physical memory begins in the memory of the host. -/
structure HostMemory where
  physicalBase : ℕ
  above : pageSize < physicalBase

/-- The memory of a guest process: the host pointer behind a virtual address, `0` when there is none. -/
structure ProcessMemory (host : HostMemory) where
  getPointerSilent : ℕ → ℕ
  inside : ∀ v, getPointerSilent v ≠ 0 →
    host.physicalBase ≤ getPointerSilent v ∧ getPointerSilent v < host.physicalBase + 2 ^ physicalBits

structure GpuCoalescedEntry where
  cpuBackingAddress : ℕ
  compressedPhysicalPtr : ℕ
  continuityTracker : ℕ

structure DeviceMemoryManager where
  entries : ℕ → GpuCoalescedEntry
  compressedDeviceAddr : ℕ → ℕ
  multiDevAddress : MultiAddressContainer
  /-- whether the device interface is bound -/
  deviceInter : Bool

namespace DeviceMemoryManager

/-- The tables come from the host zeroed. -/
def initial (deviceInter : Bool) : DeviceMemoryManager := ⟨fun _ => ⟨0, 0, 0⟩, fun _ => 0, ⟨[], []⟩, deviceInter⟩

section

variable (s : DeviceMemoryManager)

def setEntry (page : ℕ) (f : GpuCoalescedEntry → GpuCoalescedEntry) : DeviceMemoryManager :=
  { s with entries := Function.update s.entries page (f (s.entries page)) }

def continuityAt (pageIndex : ℕ) : ℕ :=
  let tracked := (s.entries pageIndex).continuityTracker
  if tracked ≠ 0 then tracked else 1

/-- `AlignUp(size, CITRON_PAGESIZE) >> CITRON_PAGEBITS` -/
def numPages (size : ℕ) : ℕ := (size + pageSize - 1) / pageSize

abbrev guestMaxAsBits : ℕ := 39

def insertCPUBacking (pageIndex address asid : ℕ) : DeviceMemoryManager :=
  s.setEntry pageIndex fun e => { e with cpuBackingAddress := address ||| asid <<< guestMaxAsBits }

/-- The physical page gets one more device page. -/
def insertDeviceAddr (physicalPage newDev : ℕ) : Option DeviceMemoryManager :=
  let baseDev := s.compressedDeviceAddr physicalPage
  if baseDev = 0 then some { s with compressedDeviceAddr := Function.update s.compressedDeviceAddr physicalPage newDev }
  else if baseDev >>> multiFlagBits = 0 then do
    let (startId, multiDevAddress) := s.multiDevAddress.registerImplementation baseDev
    let multiDevAddress ← multiDevAddress.register newDev startId
    return { s with
      compressedDeviceAddr := Function.update s.compressedDeviceAddr physicalPage (multiFlag ||| startId)
      multiDevAddress := multiDevAddress }
  else do
    let multiDevAddress ← s.multiDevAddress.register newDev (baseDev &&& multiMask)
    return { s with multiDevAddress := multiDevAddress }

/-- The physical page loses a device page. -/
def removeDeviceAddr (physicalPage device : ℕ) : Option DeviceMemoryManager :=
  let baseDev := s.compressedDeviceAddr physicalPage
  if baseDev >>> multiFlagBits = 0 then
    some { s with compressedDeviceAddr := Function.update s.compressedDeviceAddr physicalPage 0 }
  else do
    let ((moreEntries, newStart), multiDevAddress) ← s.multiDevAddress.unregister device (baseDev &&& multiMask)
    if !moreEntries then
      let (value, multiDevAddress) ← multiDevAddress.releaseEntry newStart
      return { s with
        compressedDeviceAddr := Function.update s.compressedDeviceAddr physicalPage value
        multiDevAddress := multiDevAddress }
    else
      return { s with
        compressedDeviceAddr := Function.update s.compressedDeviceAddr physicalPage (newStart ||| multiFlag)
        multiDevAddress := multiDevAddress }

/-- One turn of the loop of `Unmap`. -/
def unmapPage (page : ℕ) : Option DeviceMemoryManager :=
  let physAddr := (s.entries page).compressedPhysicalPtr
  let s := s.setEntry page fun e => { e with compressedPhysicalPtr := 0, cpuBackingAddress := 0 }
  if physAddr ≠ 0 then s.removeDeviceAddr (physAddr - 1) page else some s

def unmap (address size : ℕ) : Option DeviceMemoryManager :=
  if address < pageSize ∨ size = 0 ∨ s.deviceInter = false then some s
  else (List.range (numPages size)).foldlM (fun s i => s.unmapPage (address / pageSize + i)) s

end

section

variable {host : HostMemory} (process : ProcessMemory host) (s : DeviceMemoryManager)

/-- The host pointer of the page that is `i` pages after the virtual address. -/
def pagePointer (virtualAddress i : ℕ) : ℕ := process.getPointerSilent (virtualAddress + i * pageSize)

/-- `GetRawPhysicalAddr(ptr) >> CITRON_PAGEBITS` -/
def physicalPage (host : HostMemory) (ptr : ℕ) : ℕ := (ptr - host.physicalBase) / pageSize

/-- One turn of the loop of `Map`. -/
def mapPage (virtualAddress asid startPage i : ℕ) : Option DeviceMemoryManager :=
  let ptr := pagePointer process virtualAddress i
  if ptr = 0 then some (s.setEntry (startPage + i) fun e => { e with compressedPhysicalPtr := 0 })
  else
    let s := s.setEntry (startPage + i) fun e => { e with compressedPhysicalPtr := physicalPage host ptr + 1 }
    let s := s.insertCPUBacking (startPage + i) (virtualAddress + i * pageSize) asid
    s.insertDeviceAddr (physicalPage host ptr) (startPage + i)

/-- The loop of `TrackContinuityImpl`, from the last page to the first. -/
def trackFrom (virtualAddress startPage : ℕ) : ℕ → ℕ → ℕ → DeviceMemoryManager → DeviceMemoryManager
  | 0, _, _, s => s
  | index + 1, lastPtr, pageCount, s =>
    let newPtr := pagePointer process virtualAddress index
    let pageCount := if newPtr + pageSize = lastPtr then pageCount + 1 else 1
    trackFrom virtualAddress startPage index newPtr pageCount
      (s.setEntry (startPage + index) fun e => { e with continuityTracker := pageCount })

def trackContinuity (address virtualAddress size : ℕ) : DeviceMemoryManager :=
  trackFrom process virtualAddress (address / pageSize) (numPages size) 0 1 s

def map (address virtualAddress size asid : ℕ) (track : Bool) : Option DeviceMemoryManager := do
  let s ← (List.range (numPages size)).foldlM (fun s i => s.mapPage process virtualAddress asid (address / pageSize) i) s
  return if track then s.trackContinuity process address virtualAddress size else s

end

/-! ### Lookups -/

section

variable (s : DeviceMemoryManager)

/-- The device addresses that an operation on a physical address is applied to. -/
def applyOpOnPAddr (address : ℕ) : Option (List ℕ) :=
  let subbits := address % pageSize
  let base := s.compressedDeviceAddr (address / pageSize)
  if base >>> multiFlagBits = 0 then some [base * pageSize + subbits]
  else do
    let buffer ← s.multiDevAddress.gatherValues (base &&& multiMask)
    return buffer.map fun value => value * pageSize + subbits

/-- The place in the physical memory behind a device address. -/
def getPointer (address : ℕ) : Option ℕ :=
  let physAddr := (s.entries (address / pageSize)).compressedPhysicalPtr
  if physAddr = 0 then none else some ((physAddr - 1) * pageSize + address % pageSize)

def getSpan (srcAddr size : ℕ) : Option ℕ :=
  if s.continuityAt (srcAddr / pageSize) * pageSize ≥ size + srcAddr % pageSize then s.getPointer srcAddr else none

/-! ### Blocks -/

/-- `WalkBlock`; a turn copies at least one byte, so that there are at most as many turns as bytes. -/
def walkBlock {σ : Type} (onUnmapped onMemory : ℕ → ℕ → σ → σ) (increment : ℕ → σ → σ) : ℕ → ℕ → ℕ → ℕ → σ → σ
  | 0, _, _, _, state => state
  | fuel + 1, pageIndex, pageOffset, remainingSize, state =>
    if remainingSize = 0 then state
    else
      let nextPages := s.continuityAt pageIndex
      let copyAmount := min (nextPages * pageSize - pageOffset) remainingSize
      let currentVaddr := pageIndex * pageSize + pageOffset
      let physAddr := (s.entries pageIndex).compressedPhysicalPtr
      let state :=
        if physAddr = 0 then onUnmapped copyAmount currentVaddr state
        else onMemory copyAmount ((physAddr - 1) * pageSize + pageOffset) state
      walkBlock onUnmapped onMemory increment fuel (pageIndex + nextPages) 0 (remainingSize - copyAmount)
        (increment copyAmount state)

structure DeviceMemoryReadResult where
  fullyMapped : Bool
  firstUnmappedAddress : ℕ
  unmappedBytes : ℕ

/-- A hole of the range. -/
def DeviceMemoryReadResult.hole (result : DeviceMemoryReadResult) (copyAmount currentVaddr : ℕ) : DeviceMemoryReadResult where
  fullyMapped := false
  firstUnmappedAddress := if result.fullyMapped then currentVaddr else result.firstUnmappedAddress
  unmappedBytes := result.unmappedBytes + copyAmount

/-- Memory by its addresses. -/
abbrev Memory := ℕ → BitVec 8

def memset (dest : Memory) (destPointer : ℕ) (value : BitVec 8) (size : ℕ) : Memory :=
  fun x => if destPointer ≤ x ∧ x < destPointer + size then value else dest x

def memcpy (dest : Memory) (destPointer : ℕ) (src : Memory) (srcPointer size : ℕ) : Memory :=
  fun x => if destPointer ≤ x ∧ x < destPointer + size then src (srcPointer + (x - destPointer)) else dest x

/-- Where a block operation is: its result so far, the memory it writes to, and the pointer to the
buffer of its caller. -/
structure BlockState where
  result : DeviceMemoryReadResult
  target : Memory
  pointer : ℕ

def BlockState.start (target : Memory) (pointer : ℕ) : BlockState := ⟨⟨true, 0, 0⟩, target, pointer⟩

/-- The result and the memory of the caller, from the physical memory. -/
def readBlockUnsafe (physical : Memory) (address : ℕ) (dest : Memory) (destPointer size : ℕ) : BlockState :=
  s.walkBlock
    (fun copyAmount currentVaddr b =>
      { b with result := b.result.hole copyAmount currentVaddr, target := memset b.target b.pointer 0 copyAmount })
    (fun copyAmount srcPtr b => { b with target := memcpy b.target b.pointer physical srcPtr copyAmount })
    (fun copyAmount b => { b with pointer := b.pointer + copyAmount })
    size (address / pageSize) (address % pageSize) size (.start dest destPointer)

/-- The result and the physical memory, from the memory of the caller. -/
def writeBlockUnsafe (physical : Memory) (address : ℕ) (src : Memory) (srcPointer size : ℕ) : BlockState :=
  s.walkBlock
    (fun copyAmount currentVaddr b => { b with result := b.result.hole copyAmount currentVaddr })
    (fun copyAmount dstPtr b => { b with target := memcpy b.target dstPtr src b.pointer copyAmount })
    (fun copyAmount b => { b with pointer := b.pointer + copyAmount })
    size (address / pageSize) (address % pageSize) size (.start physical srcPointer)

end

end DeviceMemoryManager
end DeviceMemory
end Core
end Citron
