/-
# Runs of a buffer queue

What every run of the two sides keeps: slots and items are in step, at most one slot is acquired, and
frames are acquired in their order. It takes three conditions on the steps: a buffer is queued when it is
there and with no item behind a front that gives way, none is attached for which an item is still queued,
and none is made for a slot that has been queued in the meantime.
-/
import Citron.Nvnflinger.BufferQueueItems
import Citron.Nvnflinger.BufferQueueSystem

namespace Citron
namespace Nvnflinger
namespace QueueSystem

open BufferQueueCore Lib List

/-- No item that is queued for the slot which is found has the buffer. -/
def Attachable (c : BufferQueueCore) (buffer : GraphicBuffer) : Prop :=
  ∀ slot, (c.waitForFreeSlot false).2 = .found slot → ∀ item ∈ c.queue, item.slot = slot → item.graphicBuffer ≠ some buffer

/-- The step is one that keeps slots and items in step. -/
def Meets (s : QueueSystem) : QueueEvent → Prop
  | .queueBuffer slot input => s.core.Queueable slot input →
      (s.core.slots slot.toNat).graphicBuffer ≠ none ∧
        ∀ front rest, s.core.queue = front :: rest → front.isDroppable = true → rest = []
  | .attachBuffer buffer => Attachable s.core buffer
  | .wake call => ∀ buffer flags, s.pending[call]? = some (.attachWait buffer flags) → Attachable (woken s.core) buffer
  | .allocated call _ => ∀ slot input fence flags attachedByConsumer,
      s.pending[call]? = some (.allocate slot input fence flags attachedByConsumer) →
      s.core.isAbandoned = false → (s.core.slots slot).bufferState ≠ .queued
  | _ => True

/-- A frame that leaves the queue is acquired, gives way to a later one, or is dropped for a timely one. -/
def Departs (s : QueueSystem) (event : QueueEvent) (reply : Reply) (item : BufferItem) : Prop :=
  item.frameNumber ∈ acquiredFrames [(event, reply)] ∨
    (∃ slot input, event = .queueBuffer slot input ∧ item.isDroppable = true) ∨
    ∃ expectedPresent, event = .acquireBuffer expectedPresent ∧ expectedPresent ≠ 0 ∧ TimedOut s.core.queue expectedPresent item

/-- What the queue promises of a state and of the frames that were acquired before it. -/
structure Sound (s : QueueSystem) (frames : List ℕ) : Prop where
  owned : Owned s.core
  acquired : s.core.acquiredCount ≤ maxAcquiredBufferCount + 1
  increasing : frames.Pairwise (· < ·)
  once : frames.Nodup
  departs : ∀ event s' reply, s.step event = some (s', reply) →
    ∀ item ∈ s.core.queue, item ∈ s'.core.queue ∨ s.Departs event reply item

/-! ### A step -/

variable {s s' : QueueSystem} {reply : Reply}

theorem settle_eq {pending : List Pending} {r : BufferQueueCore × Reply}
    (h : some (settle pending r) = some (s, reply)) : s.core = r.1 ∧ reply = r.2 := by
  have hs : (settle pending r).1 = s := congrArg Prod.fst (Option.some.inj h)
  have hreply : (settle pending r).2 = reply := congrArg Prod.snd (Option.some.inj h)
  rw [← hs, ← hreply, settle]
  split
  · exact ⟨rfl, rfl⟩
  · exact ⟨rfl, rfl⟩

theorem keeps_woken (c : BufferQueueCore) : Keeps c (woken c) := keeps_of_slots rfl rfl rfl

variable {object call counter : ℕ}

/-- A new object is not the one of a queued item. -/
theorem isNew_queue (hnew : s.isNew object = true) (item : BufferItem) (hitem : item ∈ s.core.queue)
    (buffer : GraphicBuffer) (hobject : buffer.object = object) : item.graphicBuffer ≠ some buffer := by
  intro hbuffer
  rw [isNew, Bool.and_eq_true, Bool.and_eq_true] at hnew
  have hitems := all_eq_true.mp hnew.1.2 item hitem
  rw [hbuffer, refersTo, hobject] at hitems
  simp at hitems

/-- What a step comes to. -/
inductive StepTo (s : QueueSystem) : QueueEvent → BufferQueueCore → Reply → Prop
  | keep {event c reply} (hqueue : c.queue = s.core.queue) (hkeeps : s.Meets event → Keeps s.core c)
      (hframes : acquiredFrames [(event, reply)] = []) : StepTo s event c reply
  | queue {slot input c reply} (hchecks : s.core.Queueable slot input) (hqueues : Queues s.core slot.toNat c) :
      StepTo s (.queueBuffer slot input) c reply
  | acquire {expectedPresent c reply} (hacquires : Acquires s.core expectedPresent c reply) :
      StepTo s (.acquireBuffer expectedPresent) c reply

variable {c : BufferQueueCore} {event : QueueEvent}

theorem StepTo.of_keeps (hkeeps : Keeps s.core c)
    (hframes : acquiredFrames [(event, reply)] = []) : StepTo s event c reply :=
  .keep hkeeps.queue (fun _ => hkeeps) hframes

theorem attachBuffer_queue (c : BufferQueueCore) (buffer : GraphicBuffer) (flags : ReturnFlags) :
    (c.attachBuffer buffer flags).1.queue = c.queue := by
  obtain ⟨d, released, attempt, hwait, hkeeps, -⟩ := waitForFreeSlot_cases c false
  rw [attachBuffer, hwait, ← hkeeps.queue]
  cases attempt with
  | failed status => rfl
  | wait => rfl
  | found slot => rfl

theorem dequeueAllocated_queue (c : BufferQueueCore) (slot : ℕ) (buffer : GraphicBuffer) (fence : Fence) (flags : ReturnFlags)
    (attachedByConsumer : Bool) : (c.dequeueAllocated slot buffer fence flags attachedByConsumer).1.queue = c.queue := by
  rw [dequeueAllocated]
  split
  · rfl
  · rfl

/-- A call that is woken goes on. -/
theorem step_wake (h : s.step (.wake call) = some (s', reply)) :
    StepTo s (.wake call) s'.core reply := by
  rw [step] at h
  split at h
  · split at h
    · rename_i input flags hcall
      obtain ⟨hcore, hreply⟩ := settle_eq h
      rw [hcore, hreply]
      exact .of_keeps ((keeps_woken s.core).trans (keeps_dequeueLocked _ input flags)) rfl
    · rename_i buffer flags hcall
      obtain ⟨hcore, hreply⟩ := settle_eq h
      rw [hcore, hreply]
      refine .keep (attachBuffer_queue _ buffer flags) (fun hmeets => ?_) rfl
      exact (keeps_woken s.core).trans (keeps_attachBuffer flags (hmeets buffer flags hcall))
    · cases h
  · cases h

/-- The buffer of a slot has been made. -/
theorem step_allocated (h : s.step (.allocated call object) = some (s', reply)) :
    StepTo s (.allocated call object) s'.core reply := by
  rw [step] at h
  split at h
  · rename_i slot input fence flags attachedByConsumer hcall
    split at h
    · rename_i hnew
      obtain ⟨hcore, hreply⟩ := settle_eq h
      rw [hcore, hreply]
      refine .keep (dequeueAllocated_queue ..) (fun hmeets => ?_) rfl
      by_cases habandoned : s.core.isAbandoned = true
      · rw [dequeueAllocated, if_pos habandoned]
        exact Keeps.refl s.core
      · refine keeps_dequeueAllocated fence flags attachedByConsumer ?_ fun item hitem => isNew_queue hnew item hitem _ rfl
        exact hmeets slot input fence flags attachedByConsumer hcall (eq_false_of_ne_true habandoned)
    · cases h
  · cases h

theorem step_cases (h : s.step event = some (s', reply)) :
    StepTo s event s'.core reply := by
  cases event with
  | requestBuffer slot =>
    rw [(settle_eq h).1]
    exact .of_keeps (keeps_requestBuffer s.core slot) rfl
  | setBufferCount bufferCount =>
    rw [(settle_eq h).1]
    exact .of_keeps (keeps_setBufferCount s.core bufferCount) rfl
  | dequeueBuffer input =>
    rw [(settle_eq h).1]
    exact .of_keeps (keeps_dequeueBuffer s.core input) rfl
  | detachBuffer slot =>
    rw [(settle_eq h).1]
    exact .of_keeps (keeps_detachBuffer s.core slot) rfl
  | attachBuffer buffer =>
    rw [(settle_eq h).1]
    exact .keep (attachBuffer_queue s.core buffer _) (fun hmeets => keeps_attachBuffer _ hmeets) rfl
  | queueBuffer slot input =>
    rw [(settle_eq h).1]
    rcases queueBuffer_cases s.core slot input with hsame | ⟨hchecks, hqueues⟩
    · rw [hsame]
      exact .of_keeps (Keeps.refl s.core) rfl
    · exact .queue hchecks hqueues
  | cancelBuffer slot fence =>
    rw [(settle_eq h).1]
    exact .of_keeps (keeps_cancelBuffer s.core slot fence) rfl
  | acquireBuffer expectedPresent =>
    obtain ⟨hcore, hreply⟩ := settle_eq h
    rw [hcore, hreply]
    exact .acquire (acquireBuffer_acquires s.core expectedPresent)
  | releaseBuffer slot frameNumber =>
    rw [(settle_eq h).1]
    exact .of_keeps (keeps_releaseBuffer s.core slot frameNumber) rfl
  | wake call => exact step_wake h
  | allocated call object => exact step_allocated h

/-! ### The invariant -/

/-- The frames that were acquired and those that are queued are in order, and none is later than the counter. -/
structure InStep (s : QueueSystem) (frames : List ℕ) : Prop where
  owned : Owned s.core
  acquired : s.core.acquiredCount ≤ maxAcquiredBufferCount + 1
  order : (frames ++ s.core.queue.map BufferItem.frameNumber).Pairwise (· < ·)
  counted : ∀ frame ∈ frames ++ s.core.queue.map BufferItem.frameNumber, frame ≤ s.core.frameCounter

theorem Idle.inStep (h : s.Idle) : InStep s [] where
  owned slot := by
    rw [trackedCount, h.queue, h.slots slot]
    rfl
  acquired := by
    have hnone : s.core.acquiredCount = 0 := countP_eq_zero.mpr fun slot _ hslot => by
      rw [h.slots slot] at hslot
      cases of_decide_eq_true hslot
    rw [hnone]
    exact Nat.zero_le _
  order := by
    rw [h.queue]
    exact List.Pairwise.nil
  counted frame hframe := by
    rw [h.queue] at hframe
    exact absurd hframe not_mem_nil

variable {frames : List ℕ}

/-- The next frame is later than all before it. -/
theorem order_next (h : frames.Pairwise (· < ·)) (hcounted : ∀ frame ∈ frames, frame ≤ counter) :
    (frames ++ [counter + 1]).Pairwise (· < ·) := by
  refine pairwise_append.mpr ⟨h, pairwise_singleton _ _, fun frame hframe next hnext => ?_⟩
  rw [mem_singleton.mp hnext]
  exact Nat.lt_succ_of_le (hcounted frame hframe)

theorem counted_next (hcounted : ∀ frame ∈ frames, frame ≤ counter) :
    ∀ frame ∈ frames ++ [counter + 1], frame ≤ counter + 1 := by
  intro frame hframe
  rcases mem_append.mp hframe with hframe | hframe
  · exact Nat.le_succ_of_le (hcounted frame hframe)
  · exact Nat.le_of_eq (mem_singleton.mp hframe)

/-- Frames that stay in their order. -/
theorem InStep.sublist {frames' : List ℕ} (h : InStep s frames) (howned : Owned c)
    (hacquired : c.acquiredCount ≤ maxAcquiredBufferCount + 1) (hcounter : c.frameCounter = s.core.frameCounter)
    (hsub : (frames' ++ c.queue.map BufferItem.frameNumber).Sublist (frames ++ s.core.queue.map BufferItem.frameNumber))
    (pending : List Pending) : InStep ⟨c, pending⟩ frames' where
  owned := howned
  acquired := hacquired
  order := h.order.sublist hsub
  counted frame hframe := by
    show frame ≤ c.frameCounter
    rw [hcounter]
    exact h.counted frame (hsub.subset hframe)

theorem InStep.queue {slot : ℤ} {input : QueueBufferInput} (h : InStep s frames)
    (hmeets : s.Meets (.queueBuffer slot input)) (hchecks : s.core.Queueable slot input) (hqueues : Queues s.core slot.toNat c)
    (pending : List Pending) : InStep ⟨c, pending⟩ frames := by
  obtain ⟨hsome, hfront⟩ := hmeets hchecks
  obtain ⟨item, hitem, hplace⟩ := hqueues.queue
  -- the frames before the new one
  obtain ⟨before, hsub, hframes⟩ : ∃ before : List ℕ, before.Sublist (frames ++ s.core.queue.map BufferItem.frameNumber) ∧
      frames ++ c.queue.map BufferItem.frameNumber = before ++ [s.core.frameCounter + 1] := by
    rcases hplace with hback | ⟨front, rest, hqueue, hdroppable, hreplaced⟩
    · refine ⟨_, List.Sublist.refl _, ?_⟩
      rw [hback, map_append, map_singleton, hitem, append_assoc]
    · refine ⟨frames, sublist_append_left _ _, ?_⟩
      rw [hreplaced, hfront front rest hqueue hdroppable, map_singleton, hitem]
  have hcounted (frame : ℕ) (hframe : frame ∈ before) : frame ≤ s.core.frameCounter := h.counted frame (hsub.subset hframe)
  refine ⟨hqueues.owned h.owned hsome, Nat.le_trans hqueues.acquired h.acquired, ?_, ?_⟩
  · rw [hframes]
    exact order_next (h.order.sublist hsub) hcounted
  · show ∀ frame ∈ frames ++ c.queue.map BufferItem.frameNumber, frame ≤ c.frameCounter
    rw [hframes, hqueues.frameCounter]
    exact counted_next hcounted

theorem InStep.acquire {expectedPresent : ℤ} (h : InStep s frames)
    (hacquires : Acquires s.core expectedPresent c reply) (pending : List Pending) :
    InStep ⟨c, pending⟩ (frames ++ acquiredFrames [(.acquireBuffer expectedPresent, reply)]) := by
  refine h.sublist (hacquires.owned h.owned) (Nat.le_trans hacquires.acquired (Nat.max_le.mpr ⟨h.acquired, Nat.le_refl _⟩))
    hacquires.frameCounter ?_ pending
  obtain ⟨items, -, hcase⟩ := hacquires.dropped
  rcases hcase with ⟨hqueue, hnone⟩ | ⟨front, out, hqueue, hreply, hframe⟩
  · have hframes : acquiredFrames [(.acquireBuffer expectedPresent, reply)] = [] := by
      cases reply with
      | acquired out => exact absurd rfl (hnone out)
      | status status => rfl
      | buffer buffer => rfl
      | slot slot fence flags => rfl
      | pending call => rfl
    rw [hframes, append_nil, hqueue, map_append]
    exact List.Sublist.append_left (sublist_append_right _ _) frames
  · have hframes : acquiredFrames [(.acquireBuffer expectedPresent, reply)] = [front.frameNumber] := by
      rw [hreply, ← hframe]
      rfl
    rw [hframes, hqueue, map_append, map_cons, append_assoc]
    exact List.Sublist.append_left (sublist_append_right _ _) frames

/-- A step that meets the condition keeps slots and items in step. -/
theorem InStep.step {s s' : QueueSystem} {frames : List ℕ} {event : QueueEvent} {reply : Reply} (h : InStep s frames)
    (hmeets : s.Meets event) (hstep : s.step event = some (s', reply)) : InStep s' (frames ++ acquiredFrames [(event, reply)]) := by
  have hto := step_cases hstep
  obtain ⟨c, pending⟩ := s'
  cases hto with
  | keep hqueue hkeeps hframes =>
    have hkeeps := hkeeps hmeets
    refine h.sublist (hkeeps.owned h.owned) (Nat.le_trans hkeeps.acquired h.acquired) hkeeps.frameCounter ?_ pending
    rw [hframes, append_nil, hqueue]
  | queue hchecks hqueues =>
    have hqueued := h.queue hmeets hchecks hqueues pending
    rwa [show acquiredFrames [(QueueEvent.queueBuffer _ _, reply)] = [] from rfl, append_nil]
  | acquire hacquires => exact h.acquire hacquires pending

/-- How items leave the queue. -/
theorem step_departs (hstep : s.step event = some (s', reply))
    (item : BufferItem) (hitem : item ∈ s.core.queue) : item ∈ s'.core.queue ∨ s.Departs event reply item := by
  cases step_cases hstep with
  | keep hqueue =>
    rw [hqueue]
    exact Or.inl hitem
  | queue hchecks hqueues =>
    obtain ⟨new, -, hplace⟩ := hqueues.queue
    rcases hplace with hback | ⟨front, rest, hqueue, hdroppable, hreplaced⟩
    · rw [hback]
      exact Or.inl (mem_append_left _ hitem)
    · rw [hqueue] at hitem
      rcases mem_cons.mp hitem with rfl | hitem
      · exact Or.inr (Or.inr (Or.inl ⟨_, _, rfl, hdroppable⟩))
      · rw [hreplaced]
        exact Or.inl (mem_cons_of_mem _ hitem)
  | acquire hacquires =>
    obtain ⟨items, hdropped, hcase⟩ := hacquires.dropped
    have hout (hitem : item ∈ items) : s.Departs (.acquireBuffer _) reply item :=
      Or.inr (Or.inr ⟨_, rfl, hdropped item hitem⟩)
    rcases hcase with ⟨hqueue, -⟩ | ⟨front, out, hqueue, hreply, hframe⟩
    · rw [hqueue] at hitem
      rcases mem_append.mp hitem with hitem | hitem
      · exact Or.inr (hout hitem)
      · exact Or.inl hitem
    · rw [hqueue] at hitem
      rcases mem_append.mp hitem with hitem | hitem
      · exact Or.inr (hout hitem)
      rcases mem_cons.mp hitem with rfl | hitem
      · refine Or.inr (Or.inl ?_)
        rw [hreply, ← hframe]
        exact mem_singleton.mpr rfl
      · exact Or.inl hitem

theorem InStep.sound (h : InStep s frames) : Sound s frames := by
  have hincreasing : frames.Pairwise (· < ·) := h.order.sublist (sublist_append_left _ _)
  exact ⟨h.owned, h.acquired, hincreasing, hincreasing.imp Nat.ne_of_lt, fun _ _ _ => step_departs⟩

/-- **A run whose steps meet the condition is sound in every state.** -/
theorem runs_sound {start s : QueueSystem} {history : List (QueueEvent × Reply)} (hidle : start.Idle)
    (hrun : History step Meets start s history) : Sound s (acquiredFrames history) := by
  have hinvariant : InStep s (acquiredFrames history) := by
    refine hrun.invariant (P := fun s history => InStep s (acquiredFrames history)) hidle.inStep ?_
    intro s history event s' reply h hmeets hstep
    have hnext := h.step hmeets hstep
    rwa [acquiredFrames, flatMap_append]
  exact hinvariant.sound

/-- A buffer of the application is attached to slot 0. -/
def attachFirst : QueueEvent := .attachBuffer ⟨0, 1, 1, 1, 0⟩

def queueFirst : QueueEvent := .queueBuffer 0 ⟨0, false, 0, false, .noFence⟩

def attached : QueueSystem × Reply := (initial.step attachFirst).get rfl

def queued : QueueSystem × Reply := (attached.1.step queueFirst).get rfl

def acquired : QueueSystem × Reply := (queued.1.step (.acquireBuffer 0)).get rfl

theorem runs_sound_attached : Sound acquired.1 [1] := by
  have hattach : Meets initial attachFirst := fun _ _ _ hitem => absurd hitem not_mem_nil
  have hqueue : Meets attached.1 queueFirst := fun _ => ⟨by decide +kernel, fun _ _ hfront => by cases hfront⟩
  have hacquire : Meets queued.1 (.acquireBuffer 0) := trivial
  have hattached : initial.step attachFirst = some (attached.1, attached.2) := (Option.some_get rfl).symm
  have hqueued : attached.1.step queueFirst = some (queued.1, queued.2) := (Option.some_get rfl).symm
  have hacquired : queued.1.step (.acquireBuffer 0) = some (acquired.1, acquired.2) := (Option.some_get rfl).symm
  have hrun := ((History.start.step hattach hattached).step hqueue hqueued).step hacquire hacquired
  have hframes : acquiredFrames [(attachFirst, attached.2), (queueFirst, queued.2), (.acquireBuffer 0, acquired.2)] = [1] := by
    decide +kernel
  rw [← hframes]
  exact runs_sound idle_initial hrun

/-! ### Frames out of their order -/

/-- A frame goes through a slot that has no buffer yet. -/
def sendFrame (slot : ℕ) (async : Bool) : List QueueEvent :=
  [.dequeueBuffer ⟨false, 1, 1, 1, 0⟩, .allocated 0 slot, .requestBuffer slot, .queueBuffer slot ⟨0, false, 0, async, .noFence⟩]

/-- The second of three frames is droppable, and is the front when the fourth is queued. -/
def replaceSecond : List QueueEvent :=
  [.setBufferCount 4] ++ sendFrame 0 false ++ sendFrame 1 true ++ sendFrame 2 false ++ [.acquireBuffer 0] ++ sendFrame 3 false ++
    [.releaseBuffer 0 1, .acquireBuffer 0, .releaseBuffer 3 4, .acquireBuffer 0]

/-- The fourth frame takes the place of the second and is acquired before the third. -/
theorem frames_out_of_order :
    ¬ ∀ s history, History step (fun _ _ => True) initial s history → Sound s (acquiredFrames history) := by
  intro hsound
  have hframes : ((replay step replaceSecond (initial, [])).map fun r => acquiredFrames r.2) = some [1, 4, 3] := by decide +kernel
  obtain ⟨r, hreplay, hr⟩ := Option.map_eq_some_iff.mp hframes
  have hincreasing := (hsound r.1 r.2 (history_of_replay .start hreplay)).increasing
  rw [hr] at hincreasing
  revert hincreasing
  decide

end QueueSystem
end Nvnflinger
end Citron
