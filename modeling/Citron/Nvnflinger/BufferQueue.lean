/-
# The buffer queue

`BufferQueueCore` with the calls of its producer and its consumer. The code between taking the lock and
giving it up is one step; a call that gives the lock up and takes it again (it waits for a slot, or it
makes a buffer) is pending in between. Listeners, the history and the event of the client are left out,
and so is `WaitWhileAllocatingLocked`: nothing sets `is_allocating`.
-/
import Mathlib

namespace Citron
namespace Nvnflinger

/-- A buffer in memory, with the identity of the object. -/
structure GraphicBuffer where
  object : ℕ
  width : ℕ
  height : ℕ
  format : ℕ
  usage : ℕ
  deriving DecidableEq

structure Fence where
  fences : List (ℤ × ℕ)
  deriving DecidableEq

def Fence.noFence : Fence := ⟨[(-1, 0), (-1, 0), (-1, 0), (-1, 0)]⟩

inductive BufferState
  | free
  | dequeued
  | queued
  | acquired
  deriving DecidableEq

structure BufferSlot where
  graphicBuffer : Option GraphicBuffer
  bufferState : BufferState
  requestBufferCalled : Bool
  frameNumber : ℕ
  fence : Fence
  acquireCalled : Bool
  needsCleanupOnRelease : Bool
  attachedByConsumer : Bool
  isPreallocated : Bool

structure BufferItem where
  graphicBuffer : Option GraphicBuffer
  fence : Fence
  timestamp : ℤ
  isAutoTimestamp : Bool
  frameNumber : ℕ
  slot : ℕ
  isDroppable : Bool
  acquireCalled : Bool

inductive Status
  | noError
  | staleBufferSlot
  | noBufferAvailable
  | presentLater
  | wouldBlock
  | busy
  | noInit
  | badValue
  | invalidOperation

/-- `UINT32_MAX` -/
def noFrame : ℕ := 2 ^ 32 - 1

abbrev numBufferSlots : ℕ := 64

/-- There is no asynchronous mode. -/
abbrev useAsyncBuffer : Bool := false

abbrev maxAcquiredBufferCount : ℕ := 0

structure BufferQueueCore where
  isAbandoned : Bool
  consumerUsageBit : ℕ
  slots : ℕ → BufferSlot
  queue : List BufferItem
  overrideMaxBufferCount : ℕ
  dequeuePossible : Bool
  dequeueBufferCannotBlock : Bool
  defaultBufferFormat : ℕ
  defaultWidth : ℕ
  defaultHeight : ℕ
  defaultMaxBufferCount : ℕ
  bufferHasBeenQueued : Bool
  frameCounter : ℕ

namespace BufferQueueCore

variable (c : BufferQueueCore)

def setSlot (slot : ℕ) (f : BufferSlot → BufferSlot) : BufferQueueCore :=
  { c with slots := Function.update c.slots slot (f (c.slots slot)) }

def signalDequeueCondition : BufferQueueCore := { c with dequeuePossible := true }

def getMinUndequeuedBufferCountLocked (async : Bool) : ℕ :=
  if !useAsyncBuffer then 0
  else if c.dequeueBufferCannotBlock || async then maxAcquiredBufferCount + 1
  else maxAcquiredBufferCount

def getMaxBufferCountLocked (async : Bool) : ℕ :=
  let minBufferCount := c.getMinUndequeuedBufferCountLocked async
  let maxBufferCount :=
    if c.overrideMaxBufferCount ≠ 0 then c.overrideMaxBufferCount else max c.defaultMaxBufferCount minBufferCount
  (List.range' maxBufferCount (numBufferSlots - maxBufferCount)).foldl
    (fun count slot =>
      if (c.slots slot).bufferState = .queued ∨ (c.slots slot).bufferState = .dequeued then slot + 1 else count)
    maxBufferCount

def getPreallocatedBufferCountLocked : ℕ := (List.range numBufferSlots).countP fun slot => (c.slots slot).isPreallocated

def freeBufferLocked (slot : ℕ) : BufferQueueCore :=
  c.setSlot slot fun b =>
    { b with
      graphicBuffer := none
      needsCleanupOnRelease := if b.bufferState = .acquired then true else b.needsCleanupOnRelease
      bufferState := .free
      frameNumber := noFrame
      acquireCalled := false
      fence := .noFence }

def freeAllBuffersLocked : BufferQueueCore :=
  (List.range numBufferSlots).foldl freeBufferLocked { c with bufferHasBeenQueued := false }

def stillTracking (item : BufferItem) : Bool :=
  let slot := c.slots item.slot
  slot.graphicBuffer ≠ none && item.graphicBuffer = slot.graphicBuffer

/-! ### The producer -/

structure ReturnFlags where
  bufferNeedsReallocation : Bool
  releaseAllBuffers : Bool

/-- What a turn of the loop of `WaitForFreeSlotThenRelock` comes to. -/
inductive Attempt
  | failed (status : Status)
  | wait
  | found (slot : ℕ)

/-- The buffers beyond the count are given up. -/
def freeBeyond (maxBufferCount : ℕ) : BufferQueueCore × Bool :=
  (List.range' maxBufferCount (numBufferSlots - maxBufferCount)).foldl
    (fun (c, released) s =>
      if (c.slots s).graphicBuffer ≠ none ∧ (c.slots s).bufferState = .free ∧ (c.slots s).isPreallocated = false then
        (c.freeBufferLocked s, true)
      else (c, released))
    (c, false)

/-- The free slot whose frame is the oldest. -/
def findFree (maxBufferCount : ℕ) : Option ℕ :=
  (List.range maxBufferCount).foldl
    (fun found s =>
      if (c.slots s).bufferState = .free then
        match found with
        | none => some s
        | some f => if (c.slots s).frameNumber < (c.slots f).frameNumber then some s else found
      else found)
    none

def countState (maxBufferCount : ℕ) (state : BufferState) : ℕ :=
  (List.range maxBufferCount).countP fun s => (c.slots s).bufferState = state

/-- A turn of the loop of `WaitForFreeSlotThenRelock`, and whether it released buffers. -/
def waitForFreeSlot (async : Bool) : (BufferQueueCore × Bool) × Attempt :=
  if c.isAbandoned then ((c, false), .failed .noInit)
  else
    let maxBufferCount := c.getMaxBufferCountLocked async
    let (c, released) := c.freeBeyond maxBufferCount
    let dequeuedCount := c.countState maxBufferCount .dequeued
    let acquiredCount := c.countState maxBufferCount .acquired
    if c.overrideMaxBufferCount = 0 ∧ dequeuedCount ≠ 0 then ((c, released), .failed .invalidOperation)
    else if c.bufferHasBeenQueued ∧
        (maxBufferCount : ℤ) - (dequeuedCount + 1) < c.getMinUndequeuedBufferCountLocked async then
      ((c, released), .failed .invalidOperation)
    else
      let tooManyBuffers := c.queue.length > maxBufferCount
      match c.findFree maxBufferCount with
      | some slot =>
        if tooManyBuffers then
          if c.dequeueBufferCannotBlock ∧ acquiredCount ≤ maxAcquiredBufferCount then ((c, released), .failed .wouldBlock)
          else ((c, released), .wait)
        else ((c, released), .found slot)
      | none =>
        if c.dequeueBufferCannotBlock ∧ acquiredCount ≤ maxAcquiredBufferCount then ((c, released), .failed .wouldBlock)
        else ((c, released), .wait)

/-- The arguments of `DequeueBuffer`. -/
structure DequeueInput where
  async : Bool
  width : ℕ
  height : ℕ
  format : ℕ
  usage : ℕ

/-- Whether the buffer of a slot is one that was asked for. -/
def fits (buffer : Option GraphicBuffer) (input : DequeueInput) : Bool :=
  match buffer with
  | none => false
  | some buffer => buffer.width = input.width && buffer.height = input.height && buffer.format = input.format &&
    buffer.usage &&& input.usage = input.usage

/-- `PixelFormat::NoFormat` -/
abbrev noFormat : ℕ := 0

/-- What a call is about while it does not hold the lock. -/
inductive Pending
  | dequeueWait (input : DequeueInput) (flags : ReturnFlags)
  | attachWait (buffer : GraphicBuffer) (flags : ReturnFlags)
  | allocate (slot : ℕ) (input : DequeueInput) (fence : Fence) (flags : ReturnFlags) (attachedByConsumer : Bool)

/-- What a step gives back: the end of a call, or what is pending. -/
inductive Reply
  | status (status : Status)
  | buffer (buffer : Option GraphicBuffer)
  | slot (slot : ℕ) (fence : Fence) (flags : ReturnFlags)
  | pending (pending : Pending)
  | acquired (item : BufferItem)

def requestBuffer (slot : ℤ) : BufferQueueCore × Reply :=
  if c.isAbandoned then (c, .status .noInit)
  else if slot < 0 ∨ slot ≥ numBufferSlots then (c, .status .badValue)
  else if (c.slots slot.toNat).bufferState ≠ .dequeued then (c, .status .badValue)
  else (c.setSlot slot.toNat fun b => { b with requestBufferCalled := true }, .buffer (c.slots slot.toNat).graphicBuffer)

def setBufferCount (bufferCount : ℤ) : BufferQueueCore × Reply :=
  if c.isAbandoned then (c, .status .noInit)
  else if bufferCount > numBufferSlots then (c, .status .badValue)
  else if (List.range numBufferSlots).any fun s => (c.slots s).bufferState = .dequeued then (c, .status .badValue)
  else if bufferCount = 0 then ({ c with overrideMaxBufferCount := 0 }.signalDequeueCondition, .status .noError)
  else if bufferCount < c.getMinUndequeuedBufferCountLocked false then (c, .status .badValue)
  else
    let c := if c.getPreallocatedBufferCountLocked ≤ 0 then c.freeAllBuffersLocked else c
    ({ c with overrideMaxBufferCount := bufferCount.toNat }.signalDequeueCondition, .status .noError)

/-- The part of `DequeueBuffer` from the lock on, or from where it has waited. -/
def dequeueLocked (input : DequeueInput) (flags : ReturnFlags) : BufferQueueCore × Reply :=
  let ((c, released), attempt) := c.waitForFreeSlot input.async
  let flags := { flags with releaseAllBuffers := flags.releaseAllBuffers || released }
  match attempt with
  | .failed status => (c, .status status)
  | .wait => (c, .pending (.dequeueWait input flags))
  | .found found =>
    let attachedByConsumer := (c.slots found).attachedByConsumer
    let input := if input.width = 0 ∧ input.height = 0 then { input with width := c.defaultWidth, height := c.defaultHeight } else input
    let c := c.setSlot found fun b => { b with bufferState := .dequeued }
    if fits (c.slots found).graphicBuffer input then
      let outFence := (c.slots found).fence
      (c.setSlot found fun b => { b with fence := .noFence },
        .slot found outFence { flags with bufferNeedsReallocation := flags.bufferNeedsReallocation || attachedByConsumer })
    else
      let c := c.setSlot found fun b =>
        { b with acquireCalled := false, graphicBuffer := none, requestBufferCalled := false, fence := .noFence }
      (c, .pending (.allocate found input .noFence { flags with bufferNeedsReallocation := true } attachedByConsumer))

def dequeueBuffer (input : DequeueInput) : BufferQueueCore × Reply :=
  if (input.width ≠ 0 ∧ input.height = 0) ∨ (input.width = 0 ∧ input.height ≠ 0) then (c, .status .badValue)
  else
    let format := if input.format = noFormat then c.defaultBufferFormat else input.format
    c.dequeueLocked { input with format := format, usage := input.usage ||| c.consumerUsageBit } ⟨false, false⟩

/-- The part of `DequeueBuffer` after the new buffer was made. -/
def dequeueAllocated (slot : ℕ) (buffer : GraphicBuffer) (fence : Fence) (flags : ReturnFlags) (attachedByConsumer : Bool) :
    BufferQueueCore × Reply :=
  if c.isAbandoned then (c, .status .noInit)
  else
    (c.setSlot slot fun b => { b with frameNumber := noFrame, graphicBuffer := some buffer },
      .slot slot fence { flags with bufferNeedsReallocation := flags.bufferNeedsReallocation || attachedByConsumer })

def detachBuffer (slot : ℤ) : BufferQueueCore × Reply :=
  if c.isAbandoned then (c, .status .noInit)
  else if slot < 0 ∨ slot ≥ numBufferSlots then (c, .status .badValue)
  else if (c.slots slot.toNat).bufferState ≠ .dequeued then (c, .status .badValue)
  else if (c.slots slot.toNat).requestBufferCalled = false then (c, .status .badValue)
  else ((c.freeBufferLocked slot.toNat).signalDequeueCondition, .status .noError)

/-- `AttachBuffer` from the lock on, or from where it has waited. -/
def attachBuffer (buffer : GraphicBuffer) (flags : ReturnFlags) : BufferQueueCore × Reply :=
  let ((c, released), attempt) := c.waitForFreeSlot false
  let flags := { flags with releaseAllBuffers := flags.releaseAllBuffers || released }
  match attempt with
  | .failed status => (c, .status status)
  | .wait => (c, .pending (.attachWait buffer flags))
  | .found found =>
    (c.setSlot found fun b =>
      { b with graphicBuffer := some buffer, bufferState := .dequeued, fence := .noFence, requestBufferCalled := true },
      .slot found .noFence flags)

/-- The part of `QueueBufferInput` that decides anything. -/
structure QueueBufferInput where
  timestamp : ℤ
  isAutoTimestamp : Bool
  scalingMode : ℤ
  async : Bool
  fence : Fence

/-- The front of the queue makes room for a later frame. -/
def freeFront (front : BufferItem) : BufferQueueCore :=
  if front.isDroppable && c.stillTracking front then
    c.setSlot front.slot fun b => { b with bufferState := .free, frameNumber := 0 }
  else c

/-- The new item is put at the end of the queue, or in place of a front that is droppable. -/
def pushItem (item : BufferItem) : BufferQueueCore :=
  match c.queue with
  | [] => { c with queue := [item] }
  | front :: rest =>
    let c := c.freeFront front
    if front.isDroppable then { c with queue := item :: rest } else { c with queue := front :: rest ++ [item] }

def queueBuffer (slot : ℤ) (input : QueueBufferInput) : BufferQueueCore × Reply :=
  if input.scalingMode < 0 ∨ input.scalingMode > 4 then (c, .status .badValue)
  else if c.isAbandoned then (c, .status .noInit)
  else if slot < 0 ∨ slot ≥ c.getMaxBufferCountLocked input.async then (c, .status .badValue)
  else if (c.slots slot.toNat).bufferState ≠ .dequeued then (c, .status .badValue)
  else if (c.slots slot.toNat).requestBufferCalled = false then (c, .status .badValue)
  else
    let frame := c.frameCounter + 1
    let item : BufferItem :=
      { graphicBuffer := (c.slots slot.toNat).graphicBuffer
        fence := input.fence
        timestamp := input.timestamp
        isAutoTimestamp := input.isAutoTimestamp
        frameNumber := frame
        slot := slot.toNat
        isDroppable := c.dequeueBufferCannotBlock || input.async
        acquireCalled := (c.slots slot.toNat).acquireCalled }
    let c := { c.setSlot slot.toNat fun b => { b with bufferState := .queued, frameNumber := frame, fence := input.fence } with
      frameCounter := frame }
    ({ c.pushItem item with bufferHasBeenQueued := true }.signalDequeueCondition, .status .noError)

def cancelBuffer (slot : ℤ) (fence : Fence) : BufferQueueCore × Reply :=
  if c.isAbandoned then (c, .status .noInit)
  else if slot < 0 ∨ slot ≥ numBufferSlots then (c, .status .badValue)
  else if (c.slots slot.toNat).bufferState ≠ .dequeued then (c, .status .badValue)
  else
    ((c.setSlot slot.toNat fun b => { b with bufferState := .free, frameNumber := 0, fence := fence }).signalDequeueCondition,
      .status .noError)

/-! ### The consumer -/

/-- One second. -/
abbrev maxReasonableNsec : ℤ := 1000000000

/-- An item is to be presented soon before the expected time. -/
def timely (item : BufferItem) (expectedPresent : ℤ) : Prop :=
  ¬ (item.timestamp < expectedPresent - maxReasonableNsec ∨ item.timestamp > expectedPresent)

instance (item : BufferItem) (expectedPresent : ℤ) : Decidable (timely item expectedPresent) :=
  inferInstanceAs (Decidable (¬ (item.timestamp < expectedPresent - maxReasonableNsec ∨ item.timestamp > expectedPresent)))

/-- The front loses its slot when it is the one that the slot is queued for. -/
def releaseFront (front : BufferItem) (state : BufferState) : BufferQueueCore :=
  if c.stillTracking front then c.setSlot front.slot fun b => { b with bufferState := state } else c

/-- The front of the queue is dropped while the item behind it is timely. -/
def dropStale (expectedPresent : ℤ) : List BufferItem → BufferQueueCore → BufferQueueCore
  | front :: next :: rest, c =>
    if front.isAutoTimestamp = false ∧ timely next expectedPresent then
      dropStale expectedPresent (next :: rest) { c.releaseFront front .free with queue := next :: rest }
    else c
  | _, c => c

/-- The slot of an acquired item. -/
def acquireSlot (front : BufferItem) : BufferQueueCore :=
  if c.stillTracking front then
    c.setSlot front.slot fun b => { b with acquireCalled := true, needsCleanupOnRelease := false, bufferState := .acquired }
  else c

def acquireBuffer (expectedPresent : ℤ) : BufferQueueCore × Reply :=
  if c.countState numBufferSlots .acquired ≥ maxAcquiredBufferCount + 1 then (c, .status .invalidOperation)
  else if c.queue.isEmpty then (c, .status .noBufferAvailable)
  else
    let c := if expectedPresent ≠ 0 then c.dropStale expectedPresent c.queue else c
    match c.queue with
    | [] => (c, .status .noBufferAvailable)
    | front :: rest =>
      if expectedPresent ≠ 0 ∧ front.timestamp > expectedPresent ∧ front.timestamp < expectedPresent + maxReasonableNsec then
        (c, .status .presentLater)
      else
        let out := if front.acquireCalled then { front with graphicBuffer := none } else front
        ({ c.acquireSlot front with queue := rest }.signalDequeueCondition, .acquired out)

def releaseBuffer (slot : ℤ) (frameNumber : ℕ) : BufferQueueCore × Reply :=
  if slot < 0 ∨ slot ≥ numBufferSlots then (c, .status .badValue)
  else if frameNumber ≠ (c.slots slot.toNat).frameNumber then (c, .status .staleBufferSlot)
  else if c.queue.any fun item => item.slot = slot.toNat then (c, .status .badValue)
  else if (c.slots slot.toNat).bufferState = .acquired then
    ((c.setSlot slot.toNat fun b => { b with bufferState := .free }).signalDequeueCondition, .status .noError)
  else if (c.slots slot.toNat).needsCleanupOnRelease then
    (c.setSlot slot.toNat fun b => { b with needsCleanupOnRelease := false }, .status .staleBufferSlot)
  else (c, .status .badValue)

end BufferQueueCore
end Nvnflinger
end Citron
