/-
# Wake-ups of a buffer queue

Any number of threads wait for a slot while the producer and the consumer go on or disconnect. A thread is
stuck if it waits, no signal is pending and its loop may end. This does not happen in a run where a thread
that wakes up before another one leaves nothing for it. (A thread that comes to wait while a signal is
pending takes it at once; here other steps may come in between, which only adds runs.)
-/
import Citron.Nvnflinger.BufferQueueWaiting

namespace Citron
namespace Nvnflinger

open BufferQueueCore QueueSystem Lib

namespace QueueSystem

/-- A thread waits for what is there, and nothing is going to wake it up. -/
def Stuck (s : QueueSystem) : Prop :=
  s.core.dequeuePossible = false ∧ ∃ call ∈ s.pending, ∃ async, call.waits = some async ∧ s.core.MayGoOn async

/-- When another thread waits, the one that wakes up gets the only free slot. -/
def LeavesNothing (s : QueueSystem) (call : ℕ) : Prop :=
  ∀ thread async, s.pending[call]? = some thread → thread.waits = some async →
    (∃ other ∈ s.pending.eraseIdx call, other.waits ≠ none) → s.core.MayGoOn async →
      s.core.isAbandoned = false ∧ ¬ s.core.Refused async ∧
        ∀ i < s.core.getMaxBufferCountLocked async, ∀ j < s.core.getMaxBufferCountLocked async,
          (s.core.slots i).bufferState = .free → (s.core.slots j).bufferState = .free → i = j

/-! ### A step -/

theorem settle_pending (pending : List Pending) (r : BufferQueueCore × Reply) {call : Pending}
    (h : call ∈ (settle pending r).1.pending) : call ∈ pending ∨ r.2 = .pending call := by
  rw [settle] at h
  split at h
  · rename_i later hreply
    rcases List.mem_append.mp h with h | h
    · exact Or.inl h
    · rw [List.mem_singleton.mp h]
      exact Or.inr hreply
  · exact Or.inl h

theorem settle_core (pending : List Pending) (r : BufferQueueCore × Reply) : (settle pending r).1.core = r.1 := by
  rw [settle]
  split
  · rfl
  · rfl

/-- A call that signals what it changes leaves no thread stuck. -/
theorem heeds_not_stuck {s : QueueSystem} {r : BufferQueueCore × Reply} (h : ¬ s.Stuck) (hheeds : Heeds s.core r) :
    ¬ (settle s.pending r).1.Stuck := by
  rintro ⟨hsignal, call, hcall, async, hwaits, hgoes⟩
  rw [settle_core] at hsignal hgoes
  rcases settle_pending s.pending r hcall with hcall | hreply
  · rcases hheeds.wakes with hwoken | ⟨hsame, hbefore⟩
    · rw [hsignal] at hwoken
      cases hwoken
    · exact h ⟨hsame.symm.trans hsignal, call, hcall, async, hwaits, hbefore hgoes⟩
  · exact hheeds.waits call hreply (by rw [hwaits]; exact Option.some_ne_none async) hgoes

/-- A thread that wakes up leaves no other one stuck. -/
theorem turn_not_stuck {s : QueueSystem} {call : ℕ} {thread : Pending} {async : Bool} {r : BufferQueueCore × Reply}
    (hthread : s.pending[call]? = some thread) (hwaiting : thread.waits = some async) (hleaves : s.LeavesNothing call)
    (hturn : Turn (woken s.core) async r) : ¬ (settle (s.pending.eraseIdx call) r).1.Stuck := by
  rintro ⟨-, other, hother, async', hwaits, hgoes⟩
  have hne : other.waits ≠ none := by
    rw [hwaits]
    exact Option.some_ne_none async'
  rw [settle_core] at hgoes
  have hstays := settle_pending (s.pending.eraseIdx call) r hother
  cases hturn with
  | failed hunmoved hwhy hover =>
    have hbefore : s.core.MayGoOn async := (hunmoved.mayGoOn async).mp hgoes
    have hmem := hstays.resolve_right (hover other)
    obtain ⟨hopen, hadmitted, -⟩ := hleaves thread async hthread hwaiting ⟨other, hmem, hne⟩ hbefore
    rcases hwhy with habandoned | hrefused | hblocked
    · rw [show s.core.isAbandoned = true from habandoned] at hopen
      cases hopen
    · exact hadmitted hrefused
    · exact hblocked hbefore
  | wait hunmoved hblocked => exact hblocked ((hunmoved.mayGoOn async).mp hgoes)
  | took slot hslot hopen htakes hover =>
    have hbefore : s.core.MayGoOn async := Or.inr ⟨hopen.2, slot, hslot⟩
    have hmem := hstays.resolve_right fun hreply => hne (hover other hreply)
    obtain ⟨-, -, hone⟩ := hleaves thread async hthread hwaiting ⟨other, hmem, hne⟩ hbefore
    exact htakes.blocked hslot.1 hopen.1 (fun i hi hfree => hone i hi slot hslot.1 hfree hslot.2) hgoes

/-- The condition on a step. -/
def LeavesNone (s : QueueSystem) : QueueEvent → Prop
  | .wake call => s.LeavesNothing call
  | _ => True

theorem step_not_stuck {s s' : QueueSystem} {event : QueueEvent} {reply : Reply} (h : ¬ s.Stuck) (hleaves : s.LeavesNone event)
    (hstep : s.step event = some (s', reply)) : ¬ s'.Stuck := by
  have hcall {r : BufferQueueCore × Reply} (hheeds : Heeds s.core r) (hr : some (settle s.pending r) = some (s', reply)) :
      ¬ s'.Stuck := by
    have hnot := heeds_not_stuck h hheeds
    rwa [Option.some.inj hr] at hnot
  cases event with
  | requestBuffer slot => exact hcall (heeds_requestBuffer s.core slot) hstep
  | setBufferCount bufferCount => exact hcall (heeds_setBufferCount s.core bufferCount) hstep
  | dequeueBuffer input => exact hcall (heeds_dequeueBuffer s.core input) hstep
  | detachBuffer slot => exact hcall (heeds_detachBuffer s.core slot) hstep
  | attachBuffer buffer => exact hcall (attachBuffer_turn s.core buffer _).heeds hstep
  | queueBuffer slot input => exact hcall (heeds_queueBuffer s.core slot input) hstep
  | cancelBuffer slot fence => exact hcall (heeds_cancelBuffer s.core slot fence) hstep
  | acquireBuffer expectedPresent => exact hcall (heeds_acquireBuffer s.core expectedPresent) hstep
  | releaseBuffer slot frameNumber => exact hcall (heeds_releaseBuffer s.core slot frameNumber) hstep
  | wake call =>
    rw [step] at hstep
    split at hstep
    · split at hstep
      · rename_i input flags hthread
        have hnot := turn_not_stuck hthread rfl hleaves (dequeueLocked_turn (woken s.core) input flags)
        rwa [Option.some.inj hstep] at hnot
      · rename_i buffer flags hthread
        have hnot := turn_not_stuck hthread rfl hleaves (attachBuffer_turn (woken s.core) buffer flags)
        rwa [Option.some.inj hstep] at hnot
      · cases hstep
    · cases hstep
  | allocated call object =>
    rw [step] at hstep
    split at hstep
    · rename_i slot input fence flags attachedByConsumer hthread
      split at hstep
      · have hsub : ¬ (⟨s.core, s.pending.eraseIdx call⟩ : QueueSystem).Stuck := by
          rintro ⟨hsignal, thread, hmem, hrest⟩
          exact h ⟨hsignal, thread, List.mem_of_mem_eraseIdx hmem, hrest⟩
        have hnot := heeds_not_stuck hsub (heeds_dequeueAllocated s.core slot
          ⟨object, input.width, input.height, input.format, input.usage⟩ fence flags attachedByConsumer)
        rwa [Option.some.inj hstep] at hnot
      · cases hstep
    · cases hstep

end QueueSystem

/-! ### With both ends connected -/

/-- A queue with the two ends that can disconnect. -/
structure ConnectedQueue where
  system : QueueSystem
  connectedApi : ℕ
  hasConsumer : Bool

inductive ConnectedEvent
  | call (event : QueueEvent)
  | disconnectProducer (api : ℕ)
  | disconnectConsumer

namespace ConnectedQueue

def step (s : ConnectedQueue) : ConnectedEvent → Option (ConnectedQueue × Reply)
  | .call event => (s.system.step event).map fun r => ({ s with system := r.1 }, r.2)
  | .disconnectProducer api =>
    let (r, connectedApi) := s.system.core.disconnectProducer s.connectedApi api
    some ({ s with system := (settle s.system.pending r).1, connectedApi := connectedApi }, r.2)
  | .disconnectConsumer =>
    let r := s.system.core.disconnectConsumer s.hasConsumer
    some ({ s with system := (settle s.system.pending r).1, hasConsumer := false }, r.2)

def LeavesNone (s : ConnectedQueue) : ConnectedEvent → Prop
  | .call event => s.system.LeavesNone event
  | _ => True

theorem step_not_stuck {s s' : ConnectedQueue} {event : ConnectedEvent} {reply : Reply} (h : ¬ s.system.Stuck)
    (hleaves : s.LeavesNone event) (hstep : s.step event = some (s', reply)) : ¬ s'.system.Stuck := by
  cases event with
  | call event =>
    obtain ⟨r, hr, hs'⟩ := Option.map_eq_some_iff.mp hstep
    have hs : ({ s with system := r.1 } : ConnectedQueue) = s' := congrArg Prod.fst hs'
    rw [← hs]
    exact QueueSystem.step_not_stuck h hleaves hr
  | disconnectProducer api =>
    have hs' : _ = s' := congrArg Prod.fst (Option.some.inj hstep)
    rw [← hs']
    exact heeds_not_stuck h (heeds_disconnectProducer s.system.core s.connectedApi api)
  | disconnectConsumer =>
    have hs' : _ = s' := congrArg Prod.fst (Option.some.inj hstep)
    rw [← hs']
    exact heeds_not_stuck h (heeds_disconnectConsumer s.system.core s.hasConsumer)

/-- **No thread is stuck in a run where those that wake up leave nothing for the others.** -/
theorem runs_not_stuck {start s : ConnectedQueue} {history : List (ConnectedEvent × Reply)} (hstart : ¬ start.system.Stuck)
    (hrun : History step LeavesNone start s history) : ¬ s.system.Stuck :=
  hrun.invariant (P := fun s _ => ¬ s.system.Stuck) hstart fun _ _ _ _ _ h hleaves hstep => step_not_stuck h hleaves hstep

/-- A queue as it is made, with its ends connected. -/
def initial : ConnectedQueue := ⟨.initial, 2, true⟩

theorem initial_not_stuck : ¬ initial.system.Stuck := fun ⟨_, _, hmem, _⟩ => List.not_mem_nil hmem

def dequeue : ConnectedEvent := .call (.dequeueBuffer ⟨false, 1, 1, 1, 0⟩)

/-- One thread waits while another one has the only slot. -/
def oneWaits : ConnectedQueue × Reply := (initial.step (.call (.setBufferCount 1))).get (by decide +kernel)

def oneDequeues : ConnectedQueue × Reply := (oneWaits.1.step dequeue).get (by decide +kernel)

def twoDequeue : ConnectedQueue × Reply := (oneDequeues.1.step dequeue).get (by decide +kernel)

def oneCancels : ConnectedQueue × Reply := (twoDequeue.1.step (.call (.cancelBuffer 0 .noFence))).get (by decide +kernel)

def twoWakes : ConnectedQueue × Reply := (oneCancels.1.step (.call (.wake 1))).get (by decide +kernel)

theorem runs_not_stuck_twoThreads : ¬ twoWakes.1.system.Stuck := by
  have hcount : initial.step (.call (.setBufferCount 1)) = some (oneWaits.1, oneWaits.2) := step_get _
  have hone : oneWaits.1.step dequeue = some (oneDequeues.1, oneDequeues.2) := step_get _
  have htwo : oneDequeues.1.step dequeue = some (twoDequeue.1, twoDequeue.2) := step_get _
  have hcancel : twoDequeue.1.step (.call (.cancelBuffer 0 .noFence)) = some (oneCancels.1, oneCancels.2) := step_get _
  have hwake : oneCancels.1.step (.call (.wake 1)) = some (twoWakes.1, twoWakes.2) := step_get _
  have halone : ∀ other ∈ oneCancels.1.system.pending.eraseIdx 1, other.waits = none := by decide +kernel
  have hcountMeets : LeavesNone initial (.call (.setBufferCount 1)) := trivial
  have honeMeets : LeavesNone oneWaits.1 dequeue := trivial
  have htwoMeets : LeavesNone oneDequeues.1 dequeue := trivial
  have hcancelMeets : LeavesNone twoDequeue.1 (.call (.cancelBuffer 0 .noFence)) := trivial
  have hwakeMeets : LeavesNone oneCancels.1 (.call (.wake 1)) := fun _ _ _ _ ⟨other, hother, hwaits⟩ =>
    absurd (halone other hother) hwaits
  exact runs_not_stuck initial_not_stuck
    (((((History.start.step hcountMeets hcount).step honeMeets hone).step htwoMeets htwo).step hcancelMeets hcancel).step hwakeMeets hwake)

/-! ### Two slots and one signal -/

/-- Two threads wait (the first one has taken the signal of `SetBufferCount`), both slots are given back, and the first thread
wakes up. -/
def twoCancelled : List ConnectedEvent :=
  [.call (.setBufferCount 2), dequeue, .call (.allocated 0 0), dequeue, .call (.allocated 0 1), dequeue, .call (.wake 0), dequeue,
    .call (.cancelBuffer 0 .noFence), .call (.cancelBuffer 1 .noFence), .call (.wake 0)]

/-- The second thread stays blocked although a slot is free. -/
theorem second_thread_stuck : ¬ ∀ s history, History step (fun _ _ => True) initial s history → ¬ s.system.Stuck := by
  intro hnever
  have hend : ((replay step twoCancelled (initial, [])).map fun r =>
      (r.1.system.core.dequeuePossible, r.1.system.pending.map Pending.waits, (r.1.system.core.slots 1).bufferState,
        decide (1 < r.1.system.core.getMaxBufferCountLocked false ∧
          r.1.system.core.queue.length ≤ r.1.system.core.getMaxBufferCountLocked false))) =
      some (false, [some false], .free, true) := by decide +kernel
  obtain ⟨r, hreplay, hr⟩ := Option.map_eq_some_iff.mp hend
  obtain ⟨hsignal, hpending, hfree, hbounds⟩ : _ ∧ _ ∧ _ ∧ _ := by simpa only [Prod.mk.injEq] using hr
  obtain ⟨hslot, hlength⟩ := of_decide_eq_true hbounds
  obtain ⟨call, hcall, hwaits⟩ := List.mem_map.mp (hpending ▸ List.mem_singleton_self (some false))
  exact hnever r.1 r.2 (history_of_replay .start hreplay) ⟨hsignal, call, hcall, false, hwaits, Or.inr ⟨hlength, 1, hslot, hfree⟩⟩

end ConnectedQueue
end Nvnflinger
end Citron
