/-
# The producer and the consumer of a buffer queue

The critical sections of all calls, in any order. A call that has given the lock up is in the list of
what is pending, and goes on when it is woken or when its buffer has been made.
-/
import Citron.Lib.Histories
import Citron.Nvnflinger.BufferQueue

namespace Citron
namespace Nvnflinger

open BufferQueueCore

/-- A queue and the calls that are not over. -/
structure QueueSystem where
  core : BufferQueueCore
  pending : List Pending

inductive QueueEvent
  | requestBuffer (slot : ℤ)
  | setBufferCount (bufferCount : ℤ)
  | dequeueBuffer (input : DequeueInput)
  | detachBuffer (slot : ℤ)
  | attachBuffer (buffer : GraphicBuffer)
  | queueBuffer (slot : ℤ) (input : QueueBufferInput)
  | cancelBuffer (slot : ℤ) (fence : Fence)
  | acquireBuffer (expectedPresent : ℤ)
  | releaseBuffer (slot : ℤ) (frameNumber : ℕ)
  | wake (call : ℕ)
  | allocated (call : ℕ) (object : ℕ)

namespace QueueSystem

/-- A call may stay pending. -/
def settle (pending : List Pending) (r : BufferQueueCore × Reply) : QueueSystem × Reply :=
  match r.2 with
  | .pending call => (⟨r.1, pending ++ [call]⟩, r.2)
  | _ => (⟨r.1, pending⟩, r.2)

/-- A wait of `WaitForDequeueCondition` that is over. -/
def woken (c : BufferQueueCore) : BufferQueueCore := { c with dequeuePossible := false }

def refersTo (buffer : Option GraphicBuffer) (object : ℕ) : Bool :=
  match buffer with
  | none => false
  | some buffer => buffer.object = object

/-- A new object is none of those that are there. -/
def isNew (s : QueueSystem) (object : ℕ) : Bool :=
  ((List.range numBufferSlots).all fun slot => !refersTo (s.core.slots slot).graphicBuffer object) &&
    (s.core.queue.all fun item => !refersTo item.graphicBuffer object) &&
    s.pending.all fun call =>
      match call with
      | .attachWait buffer _ => !refersTo (some buffer) object
      | _ => true

def step (s : QueueSystem) : QueueEvent → Option (QueueSystem × Reply)
  | .requestBuffer slot => some (settle s.pending (s.core.requestBuffer slot))
  | .setBufferCount bufferCount => some (settle s.pending (s.core.setBufferCount bufferCount))
  | .dequeueBuffer input => some (settle s.pending (s.core.dequeueBuffer input))
  | .detachBuffer slot => some (settle s.pending (s.core.detachBuffer slot))
  | .attachBuffer buffer => some (settle s.pending (s.core.attachBuffer buffer ⟨false, false⟩))
  | .queueBuffer slot input => some (settle s.pending (s.core.queueBuffer slot input))
  | .cancelBuffer slot fence => some (settle s.pending (s.core.cancelBuffer slot fence))
  | .acquireBuffer expectedPresent => some (settle s.pending (s.core.acquireBuffer expectedPresent))
  | .releaseBuffer slot frameNumber => some (settle s.pending (s.core.releaseBuffer slot frameNumber))
  | .wake call =>
    if s.core.dequeuePossible then
      match s.pending[call]? with
      | some (.dequeueWait input flags) => some (settle (s.pending.eraseIdx call) ((woken s.core).dequeueLocked input flags))
      | some (.attachWait buffer flags) => some (settle (s.pending.eraseIdx call) ((woken s.core).attachBuffer buffer flags))
      | _ => none
    else none
  | .allocated call object =>
    match s.pending[call]? with
    | some (.allocate slot input fence flags attachedByConsumer) =>
      if s.isNew object then
        some (settle (s.pending.eraseIdx call)
          (s.core.dequeueAllocated slot ⟨object, input.width, input.height, input.format, input.usage⟩ fence flags attachedByConsumer))
      else none
    | _ => none

/-- The frames that were acquired. -/
def acquiredFrames (history : List (QueueEvent × Reply)) : List ℕ :=
  history.flatMap fun
    | (.acquireBuffer _, .acquired out) => [out.frameNumber]
    | _ => []

/-- A queue as it is made. -/
def initial : QueueSystem where
  core :=
    { isAbandoned := false
      consumerUsageBit := 0
      slots := fun _ => ⟨none, .free, false, 0, .noFence, false, false, false, false⟩
      queue := []
      overrideMaxBufferCount := 0
      dequeuePossible := false
      dequeueBufferCannotBlock := false
      defaultBufferFormat := 1
      defaultWidth := 1
      defaultHeight := 1
      defaultMaxBufferCount := 2
      bufferHasBeenQueued := false
      frameCounter := 0 }
  pending := []

/-- No slot is in use and no item is queued. -/
structure Idle (s : QueueSystem) : Prop where
  queue : s.core.queue = []
  slots : ∀ slot, (s.core.slots slot).bufferState = .free

theorem idle_initial : Idle initial := ⟨rfl, fun _ => rfl⟩

end QueueSystem
end Nvnflinger
end Citron
