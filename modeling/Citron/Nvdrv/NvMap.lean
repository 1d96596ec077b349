/-
# The handles of nvmap

A handle is pinned when it is mapped into the device address space. When its last pin is gone it stays mapped
and goes into a queue; the handles of the queue are unmapped when the address space is full.
-/
import Citron.Common.Alignment
import Citron.Lib.Histories

namespace Citron
namespace Nvdrv

open Common

inductive NvResult
  | success
  | notImplemented
  | badValue
  | insufficientMemory
  | invalidState
  | accessDenied
  deriving DecidableEq

/-- `BIG_PAGE_SIZE` -/
def bigPageSize : ℕ := 4096 * 16

/-- `MAX_FREE_ATTEMPTS` -/
def maxFreeAttempts : ℕ := 100

/-- An allocator of addresses, `0` when it has no room; it stays as it is then. -/
structure AddressAllocator (α : Type) where
  allocate : α → ℕ → ℕ × α
  free : α → ℕ → ℕ → α
  allocate_none : ∀ a size, (allocate a size).1 = 0 → (allocate a size).2 = a

/-- The area of a session that is mapped in one piece. -/
structure HeapMapper where
  vaddress : ℕ
  daddress : ℕ
  size : ℕ
  daddress_pos : 0 < daddress

def HeapMapper.isInBounds (mapper : HeapMapper) (start size : ℕ) : Bool :=
  let end_ := (start + size) % 2 ^ 64
  start ≥ mapper.vaddress && end_ ≤ mapper.vaddress + mapper.size

/-- What `Map` gives back. -/
def HeapMapper.map (mapper : HeapMapper) (start : ℕ) : ℕ := mapper.daddress + (start - mapper.vaddress)

/-- A handle that is in the queue has an entry. -/
structure Handle where
  align : ℕ
  size : ℕ
  alignedSize : ℕ
  origSize : ℕ
  dupes : ℤ
  internalDupes : ℤ
  pins : ℤ
  pinVirtAddress : ℕ
  unmapQueueEntry : Bool
  flagsMapUncached : Bool
  address : ℕ
  allocated : Bool
  inHeap : Bool
  sessionId : ℕ
  dAddress : ℕ

def Handle.new (size : ℕ) : Handle := ⟨0, size, size, size, 1, 0, 0, 0, false, false, 0, false, false, 0, 0⟩

namespace Handle

variable (h : Handle)

def alloc (mapUncached : Bool) (align address sessionId : ℕ) : Handle × NvResult :=
  if h.allocated then (h, .accessDenied)
  else
    let align := if align < 4096 then 4096 else align
    let size := alignUp h.size 4096
    ({ h with
        flagsMapUncached := mapUncached, align := align, sessionId := sessionId, size := size, alignedSize := alignUp size align,
        address := address, allocated := true },
      .success)

def duplicate (internalSession : Bool) : Handle × NvResult :=
  if h.allocated then
    (if internalSession then { h with internalDupes := h.internalDupes + 1 } else { h with dupes := h.dupes + 1 }, .success)
  else (h, .badValue)

end Handle

/-- The handles that were created, those that are in the map, and the allocators of `Host1x`. -/
structure NvMap (α β : Type) where
  objects : ℕ → Handle
  handles : ℕ → Bool
  unmapQueue : List ℕ
  nextHandleId : ℕ
  sessions : ℕ → Option HeapMapper
  memoryManager : AddressAllocator α
  deviceSpace : α
  allocator : AddressAllocator β
  lowArea : β

namespace NvMap

variable {α β : Type} (s : NvMap α β)

def initial (memoryManager : AddressAllocator α) (deviceSpace : α) (allocator : AddressAllocator β) (lowArea : β) : NvMap α β :=
  ⟨fun _ => .new 0, fun _ => false, [], 4, fun _ => none, memoryManager, deviceSpace, allocator, lowArea⟩

def setHandle (id : ℕ) (h : Handle) : NvMap α β := { s with objects := Function.update s.objects id h }

/-- The entry of a handle is taken out of the queue. -/
def eraseEntry (id : ℕ) : NvMap α β :=
  if (s.objects id).unmapQueueEntry then
    { s with unmapQueue := s.unmapQueue.erase id }.setHandle id { s.objects id with unmapQueueEntry := false }
  else s

/-- The mapping in the low area is given back. -/
def unmapLowArea (id : ℕ) : NvMap α β :=
  let h := s.objects id
  if 0x1000 ≤ h.pinVirtAddress then
    { s with lowArea := s.allocator.free s.lowArea h.pinVirtAddress (h.alignedSize % 2 ^ 32) }.setHandle id { h with pinVirtAddress := 0 }
  else s

/-- The mapping in the device address space is given back. -/
def unmapDevice (id : ℕ) : NvMap α β :=
  let h := s.objects id
  if h.inHeap then s.setHandle id { h with dAddress := 0, inHeap := false }
  else
    let alignedUp := alignUp h.alignedSize bigPageSize
    let deviceSpace := if 0x1000 ≤ h.dAddress then s.memoryManager.free s.deviceSpace h.dAddress alignedUp else s.deviceSpace
    { s with deviceSpace := deviceSpace }.setHandle id { h with dAddress := 0 }

def unmapHandle (id : ℕ) : NvMap α β := ((s.eraseEntry id).unmapLowArea id).unmapDevice id

def tryRemoveHandle (id : ℕ) : NvMap α β × Bool :=
  let h := s.objects id
  if h.dupes = 0 ∧ h.internalDupes = 0 then ({ s with handles := Function.update s.handles id false }, true) else (s, false)

def createHandle (size : ℕ) : NvMap α β × Except NvResult ℕ :=
  if size = 0 then (s, .error .badValue)
  else
    let id := s.nextHandleId
    ({ s with nextHandleId := id + 4, handles := Function.update s.handles id true }.setHandle id (.new size), .ok id)

/-! ### Pins -/

/-- The inner loop of an allocation that has failed, with the attempts that are left and whether a handle was unmapped. -/
def evict : ℕ → NvMap α β → Bool → NvMap α β × ℕ × Bool
  | 0, s, freedAny => (s, 0, freedAny)
  | attempts + 1, s, freedAny =>
    match s.unmapQueue with
    | [] => (s, attempts + 1, freedAny)
    | id :: _ =>
      let wasMapped : Bool := (s.objects id).dAddress ≠ 0
      let hasUnmapQueueEntry := (s.objects id).unmapQueueEntry
      let s := s.unmapHandle id
      let s := if hasUnmapQueueEntry then s else { s with unmapQueue := s.unmapQueue.tail }
      evict attempts s (freedAny || wasMapped)

/-- The loop over the allocations; `none` when it has not ended. -/
def allocateEvicting (size : ℕ) : ℕ → ℕ → NvMap α β → Option (NvMap α β × ℕ)
  | 0, _, _ => none
  | turns + 1, attempts, s =>
    let allocation := s.memoryManager.allocate s.deviceSpace size
    let s := { s with deviceSpace := allocation.2 }
    if allocation.1 ≠ 0 then some (s, allocation.1)
    else
      let (s, attempts, freedAny) := s.evict attempts false
      if freedAny then allocateEvicting size turns attempts s else some (s, 0)

def mapLowArea (id : ℕ) : NvMap α β :=
  let h := s.objects id
  if h.pinVirtAddress = 0 then
    let (address, lowArea) := s.allocator.allocate s.lowArea (h.alignedSize % 2 ^ 32)
    { s with lowArea := lowArea }.setHandle id { h with pinVirtAddress := address }
  else s

/-- The end of `PinHandle`, with the address that it gives back. -/
def finishPin (id : ℕ) (lowAreaPin : Bool) : NvMap α β × ℕ :=
  let s := if lowAreaPin then s.mapLowArea id else s
  let s := s.setHandle id { s.objects id with pins := (s.objects id).pins + 1 }
  (s, if lowAreaPin then (s.objects id).pinVirtAddress else (s.objects id).dAddress)

/-- The area of the session of a handle that holds the memory of the handle. -/
def heapOf (id : ℕ) : Option HeapMapper :=
  (s.sessions (s.objects id).sessionId).filter fun mapper => mapper.isInBounds (s.objects id).address (s.objects id).alignedSize

/-- A handle that is not mapped is mapped. -/
def mapHandle (turns : ℕ) (id : ℕ) : Option (NvMap α β × Bool) :=
  let h := s.objects id
  match s.heapOf id with
  | some mapper => some (s.setHandle id { h with dAddress := mapper.map h.address, inHeap := true }, true)
  | none => do
    let (s, address) ← s.allocateEvicting (alignUp h.alignedSize bigPageSize) turns maxFreeAttempts
    if address = 0 then some (s, false)
    else some (s.setHandle id { s.objects id with dAddress := address, inHeap := false }, true)

/-- `PinHandle`, if the loop ends in so many turns. -/
def pinHandle (turns : ℕ) (id : ℕ) (lowAreaPin : Bool) : Option (NvMap α β × ℕ) :=
  if !s.handles id then some (s, 0)
  else if (s.objects id).pins = 0 then
    if (s.objects id).unmapQueueEntry then some ((s.eraseEntry id).finishPin id lowAreaPin)
    else do
      let (s, mapped) ← s.mapHandle turns id
      some (if mapped then s.finishPin id lowAreaPin else (s, 0))
  else some (s.finishPin id lowAreaPin)

def unpinHandle (id : ℕ) : NvMap α β :=
  if !s.handles id then s
  else
    let pins := (s.objects id).pins - 1
    let s := s.setHandle id { s.objects id with pins := pins }
    if pins = 0 then
      { s with unmapQueue := s.unmapQueue ++ [id] }.setHandle id { s.objects id with unmapQueueEntry := true }
    else s

/-! ### Duplicates -/

structure FreeInfo where
  address : ℕ
  size : ℕ
  wasUncached : Bool
  canUnlock : Bool

def duplicateHandle (id : ℕ) (internalSession : Bool) : NvMap α β :=
  if !s.handles id then s else s.setHandle id ((s.objects id).duplicate internalSession).1

/-- A handle without user duplicates is unmapped, and its pins are gone. -/
def forceUnmap (id : ℕ) : NvMap α β :=
  let s := if (s.objects id).dAddress ≠ 0 then s.unmapHandle id else s
  s.setHandle id { s.objects id with pins := 0 }

/-- A handle has expired when neither the map nor the queue has it. -/
def freeHandle (id : ℕ) (internalSession : Bool) : NvMap α β × Option FreeInfo :=
  if !s.handles id then (s, none)
  else
    let h := s.objects id
    let s :=
      if internalSession then s.setHandle id { h with internalDupes := h.internalDupes - 1 }
      else
        let s := s.setHandle id { h with dupes := h.dupes - 1 }
        if (s.objects id).dupes = 0 then s.forceUnmap id else s
    let s := (s.tryRemoveHandle id).1
    (s, some ⟨(s.objects id).address, (s.objects id).size, (s.objects id).flagsMapUncached, !s.handles id && !decide (id ∈ s.unmapQueue)⟩)

/-- The handles of the session, in the order of the map. -/
def unmapAllHandles (sessionId : ℕ) (order : List ℕ) : NvMap α β :=
  order.foldl (fun s id =>
    if (s.objects id).sessionId ≠ sessionId ∨ (s.objects id).dupes ≤ 0 then s else (s.freeHandle id false).1) s

/-! ### Runs -/

/-- The calls, and what others do to the allocators and the sessions. -/
inductive Event (α β : Type)
  | createHandle (size : ℕ)
  | alloc (id : ℕ) (mapUncached : Bool) (align address sessionId : ℕ)
  | pinHandle (id : ℕ) (lowAreaPin : Bool)
  | unpinHandle (id : ℕ)
  | duplicateHandle (id : ℕ) (internalSession : Bool)
  | freeHandle (id : ℕ) (internalSession : Bool)
  | unmapAllHandles (sessionId : ℕ) (order : List ℕ)
  | others (deviceSpace : α) (lowArea : β) (sessions : ℕ → Option HeapMapper)

inductive Reply
  | done
  | result (r : NvResult)
  | handle (id : ℕ)
  | address (address : ℕ)
  | freed (info : Option FreeInfo)

/-- `none` is a loop that does not end. -/
def step (s : NvMap α β) : Event α β → Option (NvMap α β × Reply)
  | .createHandle size =>
    match s.createHandle size with
    | (s, .ok id) => some (s, .handle id)
    | (s, .error r) => some (s, .result r)
  | .alloc id mapUncached align address sessionId =>
    if s.handles id then
      let (h, r) := (s.objects id).alloc mapUncached align address sessionId
      some (s.setHandle id h, .result r)
    else some (s, .result .badValue)
  | .pinHandle id lowAreaPin => (s.pinHandle (maxFreeAttempts + 1) id lowAreaPin).map fun r => (r.1, .address r.2)
  | .unpinHandle id => some (s.unpinHandle id, .done)
  | .duplicateHandle id internalSession => some (s.duplicateHandle id internalSession, .done)
  | .freeHandle id internalSession => some ((s.freeHandle id internalSession).1, .freed (s.freeHandle id internalSession).2)
  | .unmapAllHandles sessionId order =>
    if order.Nodup ∧ ∀ id < s.nextHandleId, s.handles id = true ↔ id ∈ order then some (s.unmapAllHandles sessionId order, .done)
    else none
  | .others deviceSpace lowArea sessions =>
    some ({ s with deviceSpace := deviceSpace, lowArea := lowArea, sessions := sessions }, .done)

end NvMap
end Nvdrv
end Citron
