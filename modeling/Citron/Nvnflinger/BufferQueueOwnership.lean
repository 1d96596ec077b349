/-
# Slots and queue items

An item is tracked when its slot has its buffer still. A slot in the state `queued` has one tracked item
and the others have none: what keeps this, slot by slot and item by item.
-/
import Citron.Nvnflinger.BufferQueue
import Mathlib.Data.List.Count

namespace Citron
namespace Nvnflinger
namespace BufferQueueCore

variable {c c' d : BufferQueueCore}

/-- How many items of the queue are tracked by the slot. -/
def trackedCount (c : BufferQueueCore) (slot : ℕ) : ℕ := c.queue.countP fun item => item.slot = slot && c.stillTracking item

/-- Each slot has the tracked item that its state asks for. -/
def Owned (c : BufferQueueCore) : Prop := ∀ slot, c.trackedCount slot = if (c.slots slot).bufferState = .queued then 1 else 0

theorem stillTracking_iff {item : BufferItem} :
    c.stillTracking item = true ↔ (c.slots item.slot).graphicBuffer ≠ none ∧ item.graphicBuffer = (c.slots item.slot).graphicBuffer := by
  simp [stillTracking]

variable {slot : ℕ}

/-- What is tracked depends on the buffers of the slots alone. -/
theorem trackedCount_congr (hqueue : c'.queue = c.queue)
    (hbuffer : (c'.slots slot).graphicBuffer = (c.slots slot).graphicBuffer) : c'.trackedCount slot = c.trackedCount slot := by
  rw [trackedCount, trackedCount, hqueue]
  refine List.countP_congr fun item _ => ?_
  by_cases hslot : item.slot = slot
  · simp only [hslot, decide_true, Bool.true_and, stillTracking_iff, hbuffer]
  · simp [hslot]

theorem trackedCount_eq_zero
    (h : ∀ item ∈ c.queue, item.slot = slot → item.graphicBuffer = (c.slots slot).graphicBuffer → (c.slots slot).graphicBuffer = none) :
    c.trackedCount slot = 0 := by
  refine List.countP_eq_zero.mpr fun item hitem htracked => ?_
  obtain ⟨hslot, htrack⟩ := Bool.and_eq_true_iff.mp htracked
  have hslot : item.slot = slot := of_decide_eq_true hslot
  obtain ⟨hsome, hbuffer⟩ := stillTracking_iff.mp htrack
  rw [hslot] at hsome hbuffer
  exact hsome (h item hitem hslot hbuffer)

/-- An item that a slot tracks is one of the items of a queued slot. -/
theorem Owned.state_of_tracked (h : Owned c) {item : BufferItem} (hitem : item ∈ c.queue) (htrack : c.stillTracking item = true) :
    (c.slots item.slot).bufferState = .queued := by
  by_contra hstate
  have hzero := h item.slot
  rw [if_neg hstate] at hzero
  refine List.countP_eq_zero.mp hzero item hitem ?_
  rw [htrack, Bool.and_true]
  exact decide_eq_true rfl

/-! ### Steps that leave the queue alone -/

/-- The acquired slots. -/
def acquiredCount (c : BufferQueueCore) : ℕ := c.countState numBufferSlots .acquired

/-- The queue stays, the items and the slots stay in step, and no slot becomes acquired. -/
structure Keeps (c c' : BufferQueueCore) : Prop where
  queue : c'.queue = c.queue
  frameCounter : c'.frameCounter = c.frameCounter
  owned : Owned c → Owned c'
  acquired : c'.acquiredCount ≤ c.acquiredCount

theorem Keeps.refl (c : BufferQueueCore) : Keeps c c := ⟨rfl, rfl, id, Nat.le_refl _⟩

theorem Keeps.trans (h : Keeps c c') (h' : Keeps c' d) : Keeps c d :=
  ⟨h'.queue.trans h.queue, h'.frameCounter.trans h.frameCounter, h'.owned ∘ h.owned, Nat.le_trans h'.acquired h.acquired⟩

theorem acquiredCount_congr (h : ∀ slot, (c'.slots slot).bufferState = .acquired → (c.slots slot).bufferState = .acquired) :
    c'.acquiredCount ≤ c.acquiredCount := by
  rw [acquiredCount, acquiredCount, countState, countState]
  refine List.countP_mono_left fun slot _ hslot => ?_
  exact decide_eq_true (h slot (of_decide_eq_true hslot))

theorem keeps_of_slots (hqueue : c'.queue = c.queue) (hcounter : c'.frameCounter = c.frameCounter) (hslots : c'.slots = c.slots) :
    Keeps c c' where
  queue := hqueue
  frameCounter := hcounter
  owned h slot := by
    have hcount : c'.trackedCount slot = c.trackedCount slot := trackedCount_congr hqueue (by rw [hslots])
    rw [hcount, hslots]
    exact h slot
  acquired := acquiredCount_congr fun slot hslot => by rw [← hslots]; exact hslot

@[simp]
theorem setSlot_self (c : BufferQueueCore) (slot : ℕ) (f : BufferSlot → BufferSlot) : (c.setSlot slot f).slots slot = f (c.slots slot) :=
  Function.update_self ..

theorem setSlot_other (c : BufferQueueCore) {i : ℕ} (f : BufferSlot → BufferSlot) (hi : i ≠ slot) :
    (c.setSlot slot f).slots i = c.slots i := Function.update_of_ne hi ..

variable {f : BufferSlot → BufferSlot}

/-- A slot changes, and no item has its new buffer. -/
theorem keeps_setSlot (hstate : (f (c.slots slot)).bufferState ≠ .queued)
    (hacquired : (f (c.slots slot)).bufferState = .acquired → (c.slots slot).bufferState = .acquired)
    (hitems : Owned c → ∀ item ∈ c.queue, item.slot = slot → item.graphicBuffer = (f (c.slots slot)).graphicBuffer →
      (f (c.slots slot)).graphicBuffer = none) : Keeps c (c.setSlot slot f) where
  queue := rfl
  frameCounter := rfl
  owned h i := by
    by_cases hi : i = slot
    · have hzero : (c.setSlot slot f).trackedCount i = 0 := by
        refine trackedCount_eq_zero fun item hitem hslot hbuffer => ?_
        rw [hi, setSlot_self] at hbuffer ⊢
        exact hitems h item hitem (hslot.trans hi) hbuffer
      rw [hzero, hi, setSlot_self, if_neg hstate]
    · have hcount : (c.setSlot slot f).trackedCount i = c.trackedCount i := trackedCount_congr rfl (by rw [setSlot_other c f hi])
      rw [hcount, setSlot_other c f hi]
      exact h i
  acquired := by
    refine acquiredCount_congr fun i hi => ?_
    by_cases his : i = slot
    · rw [his, setSlot_self] at hi
      rw [his]
      exact hacquired hi
    · rwa [setSlot_other c f his] at hi

/-- A slot that is not queued keeps its buffer. -/
theorem keeps_setSlot_idle (hidle : (c.slots slot).bufferState ≠ .queued)
    (hbuffer : (f (c.slots slot)).graphicBuffer = (c.slots slot).graphicBuffer) (hstate : (f (c.slots slot)).bufferState ≠ .queued)
    (hacquired : (f (c.slots slot)).bufferState = .acquired → (c.slots slot).bufferState = .acquired) : Keeps c (c.setSlot slot f) := by
  refine keeps_setSlot hstate hacquired fun h item hitem hslot hsame => ?_
  by_contra hsome
  rw [hbuffer] at hsame hsome
  subst hslot
  exact hidle (h.state_of_tracked hitem (stillTracking_iff.mpr ⟨hsome, hsame⟩))

/-- A slot loses its buffer. -/
theorem keeps_setSlot_empty (hbuffer : (f (c.slots slot)).graphicBuffer = none)
    (hstate : (f (c.slots slot)).bufferState ≠ .queued)
    (hacquired : (f (c.slots slot)).bufferState = .acquired → (c.slots slot).bufferState = .acquired) : Keeps c (c.setSlot slot f) :=
  keeps_setSlot hstate hacquired fun _ _ _ _ _ => hbuffer

/-- A slot keeps its buffer and its state. -/
theorem keeps_setSlot_data (hbuffer : (f (c.slots slot)).graphicBuffer = (c.slots slot).graphicBuffer)
    (hstate : (f (c.slots slot)).bufferState = (c.slots slot).bufferState) : Keeps c (c.setSlot slot f) := by
  have hbuffers (i : ℕ) : ((c.setSlot slot f).slots i).graphicBuffer = (c.slots i).graphicBuffer := by
    by_cases hi : i = slot
    · rw [hi, setSlot_self, hbuffer]
    · rw [setSlot_other c f hi]
  have hstates (i : ℕ) : ((c.setSlot slot f).slots i).bufferState = (c.slots i).bufferState := by
    by_cases hi : i = slot
    · rw [hi, setSlot_self, hstate]
    · rw [setSlot_other c f hi]
  refine ⟨rfl, rfl, fun h i => ?_, acquiredCount_congr fun i hi => by rw [← hstates i]; exact hi⟩
  have hcount : (c.setSlot slot f).trackedCount i = c.trackedCount i := trackedCount_congr rfl (hbuffers i)
  rw [hcount, hstates i]
  exact h i

theorem keeps_freeBufferLocked (c : BufferQueueCore) (slot : ℕ) : Keeps c (c.freeBufferLocked slot) :=
  keeps_setSlot_empty rfl (fun h => by cases h) fun h => by cases h

theorem keeps_freeAllBuffersLocked (c : BufferQueueCore) : Keeps c c.freeAllBuffersLocked := by
  rw [freeAllBuffersLocked]
  have hstart : Keeps c { c with bufferHasBeenQueued := false } := keeps_of_slots rfl rfl rfl
  generalize { c with bufferHasBeenQueued := false } = d at hstart ⊢
  induction List.range numBufferSlots generalizing d with
  | nil => exact hstart
  | cons slot slots ih => exact ih (d.freeBufferLocked slot) (hstart.trans (keeps_freeBufferLocked d slot))

/-- What freeing a slot that is free already keeps, `freeBeyond` keeps. -/
theorem freeBeyond_rule {P : BufferQueueCore → Prop} (hstart : P c)
    (hfree : ∀ d slot, P d → (d.slots slot).bufferState = .free → P (d.freeBufferLocked slot)) (count : ℕ) :
    P (c.freeBeyond count).1 := by
  rw [freeBeyond]
  have hstart : P (c, false).1 := hstart
  generalize (c, false) = r at hstart ⊢
  induction List.range' count (numBufferSlots - count) generalizing r with
  | nil => exact hstart
  | cons slot slots ih =>
    rw [List.foldl_cons]
    refine ih _ ?_
    obtain ⟨d, released⟩ := r
    dsimp only
    split
    · rename_i hslot
      exact hfree d slot hstart hslot.2.1
    · exact hstart

theorem keeps_freeBeyond (c : BufferQueueCore) (count : ℕ) : Keeps c (c.freeBeyond count).1 :=
  freeBeyond_rule (Keeps.refl c) (fun d slot h _ => h.trans (keeps_freeBufferLocked d slot)) count

/-- The slot that is found is one of the first, and free. -/
theorem findFree_spec {count : ℕ} (h : c.findFree count = some slot) :
    slot < count ∧ (c.slots slot).bufferState = .free := by
  rw [findFree] at h
  have hslots : ∀ s ∈ List.range count, s < count := fun s hs => List.mem_range.mp hs
  have hstart : ∀ s, (none : Option ℕ) = some s → s < count ∧ (c.slots s).bufferState = .free := fun s hs => by cases hs
  generalize (none : Option ℕ) = found at h hstart
  generalize List.range count = slots at h hslots
  induction slots generalizing found with
  | nil => exact hstart slot h
  | cons s slots ih =>
    obtain ⟨hs, hslots⟩ := List.forall_mem_cons.mp hslots
    rw [List.foldl_cons] at h
    refine ih _ (fun t ht => ?_) h hslots
    split at ht
    · rename_i hfree
      cases found with
      | none =>
        rw [← Option.some.inj ht]
        exact ⟨hs, hfree⟩
      | some f =>
        dsimp only at ht
        split at ht
        · rw [← Option.some.inj ht]
          exact ⟨hs, hfree⟩
        · exact hstart t ht
    · exact hstart t ht

/-- A turn of the wait for a slot: the slot that is found is free. -/
theorem waitForFreeSlot_cases (c : BufferQueueCore) (async : Bool) :
    ∃ d released attempt, c.waitForFreeSlot async = ((d, released), attempt) ∧ Keeps c d ∧
      ∀ slot, attempt = .found slot → (d.slots slot).bufferState = .free := by
  rw [waitForFreeSlot]
  have hkeeps := keeps_freeBeyond c (c.getMaxBufferCountLocked async)
  split
  · exact ⟨_, _, _, rfl, Keeps.refl c, fun _ h => by cases h⟩
  dsimp only
  split
  · exact ⟨_, _, _, rfl, hkeeps, fun _ h => by cases h⟩
  split
  · exact ⟨_, _, _, rfl, hkeeps, fun _ h => by cases h⟩
  split
  · rename_i slot hfound
    split
    · split
      · exact ⟨_, _, _, rfl, hkeeps, fun _ h => by cases h⟩
      · exact ⟨_, _, _, rfl, hkeeps, fun _ h => by cases h⟩
    · refine ⟨_, _, _, rfl, hkeeps, fun _ h => ?_⟩
      cases h
      exact (findFree_spec hfound).2
  · split
    · exact ⟨_, _, _, rfl, hkeeps, fun _ h => by cases h⟩
    · exact ⟨_, _, _, rfl, hkeeps, fun _ h => by cases h⟩

/-! ### The calls that leave the queue alone -/

theorem keeps_signal (c : BufferQueueCore) : Keeps c c.signalDequeueCondition := keeps_of_slots rfl rfl rfl

theorem keeps_requestBuffer (c : BufferQueueCore) (slot : ℤ) : Keeps c (c.requestBuffer slot).1 := by
  rw [requestBuffer]
  split
  · exact Keeps.refl c
  split
  · exact Keeps.refl c
  split
  · exact Keeps.refl c
  · dsimp only
    refine keeps_setSlot_data ?_ ?_
    · rfl
    · rfl

theorem keeps_setBufferCount (c : BufferQueueCore) (bufferCount : ℤ) : Keeps c (c.setBufferCount bufferCount).1 := by
  rw [setBufferCount]
  split
  · exact Keeps.refl c
  split
  · exact Keeps.refl c
  split
  · exact Keeps.refl c
  split
  · exact keeps_of_slots rfl rfl rfl
  split
  · exact Keeps.refl c
  · have hcount (d : BufferQueueCore) : Keeps d { d with overrideMaxBufferCount := bufferCount.toNat }.signalDequeueCondition :=
      keeps_of_slots rfl rfl rfl
    split
    · exact (keeps_freeAllBuffersLocked c).trans (hcount _)
    · exact hcount c

theorem keeps_dequeueLocked (c : BufferQueueCore) (input : DequeueInput) (flags : ReturnFlags) :
    Keeps c (c.dequeueLocked input flags).1 := by
  obtain ⟨d, released, attempt, hwait, hkeeps, hfound⟩ := waitForFreeSlot_cases c input.async
  rw [dequeueLocked, hwait]
  cases attempt with
  | failed status => exact hkeeps
  | wait => exact hkeeps
  | found slot =>
    have hfree := hfound slot rfl
    have hidle : (d.slots slot).bufferState ≠ .queued := fun h => by rw [hfree] at h; cases h
    have hdequeue : Keeps c (d.setSlot slot fun b => { b with bufferState := .dequeued }) := by
      refine hkeeps.trans (keeps_setSlot_idle hidle rfl ?_ ?_)
      · exact fun h => by cases h
      · exact fun h => by cases h
    have hstate : ((d.setSlot slot fun b => { b with bufferState := .dequeued }).slots slot).bufferState = .dequeued := by
      rw [setSlot_self]
    dsimp only
    generalize (d.setSlot slot fun b => { b with bufferState := .dequeued }) = e at hdequeue hstate ⊢
    have hfence : Keeps e (e.setSlot slot fun b => { b with fence := .noFence }) := by
      refine keeps_setSlot_data ?_ ?_
      · rfl
      · rfl
    have hempty : Keeps e (e.setSlot slot fun b =>
        { b with acquireCalled := false, graphicBuffer := none, requestBufferCalled := false, fence := .noFence }) := by
      refine keeps_setSlot_empty ?_ ?_ ?_
      · rfl
      · exact fun h => by rw [hstate] at h; cases h
      · exact id
    have hfence := hdequeue.trans hfence
    have hempty := hdequeue.trans hempty
    split
    · split
      · exact hfence
      · exact hempty
    · split
      · exact hfence
      · exact hempty

theorem keeps_dequeueBuffer (c : BufferQueueCore) (input : DequeueInput) : Keeps c (c.dequeueBuffer input).1 := by
  rw [dequeueBuffer]
  split
  · exact Keeps.refl c
  · exact keeps_dequeueLocked c _ _

/-- The new buffer comes to a slot that is not queued. -/
theorem keeps_dequeueAllocated {buffer : GraphicBuffer} (fence : Fence) (flags : ReturnFlags) (attachedByConsumer : Bool)
    (hstate : (c.slots slot).bufferState ≠ .queued) (hnew : ∀ item ∈ c.queue, item.graphicBuffer ≠ some buffer) :
    Keeps c (c.dequeueAllocated slot buffer fence flags attachedByConsumer).1 := by
  rw [dequeueAllocated]
  split
  · exact Keeps.refl c
  · dsimp only
    refine keeps_setSlot ?_ ?_ fun _ item hitem _ hbuffer => ?_
    · exact hstate
    · exact id
    · exact absurd hbuffer (hnew item hitem)

theorem keeps_detachBuffer (c : BufferQueueCore) (slot : ℤ) : Keeps c (c.detachBuffer slot).1 := by
  rw [detachBuffer]
  split
  · exact Keeps.refl c
  split
  · exact Keeps.refl c
  split
  · exact Keeps.refl c
  split
  · exact Keeps.refl c
  · exact (keeps_freeBufferLocked c _).trans (keeps_signal _)

/-- The buffer is not one that an item has for the slot which is found. -/
theorem keeps_attachBuffer {buffer : GraphicBuffer} (flags : ReturnFlags)
    (hnew : ∀ slot, (c.waitForFreeSlot false).2 = .found slot → ∀ item ∈ c.queue, item.slot = slot → item.graphicBuffer ≠ some buffer) :
    Keeps c (c.attachBuffer buffer flags).1 := by
  obtain ⟨d, released, attempt, hwait, hkeeps, hfound⟩ := waitForFreeSlot_cases c false
  rw [hwait] at hnew
  rw [attachBuffer, hwait]
  cases attempt with
  | failed status => exact hkeeps
  | wait => exact hkeeps
  | found slot =>
    refine hkeeps.trans ?_
    dsimp only
    refine keeps_setSlot ?_ ?_ fun _ item hitem hslot hbuffer => ?_
    · exact fun h => by cases h
    · exact fun h => by cases h
    · rw [hkeeps.queue] at hitem
      exact absurd hbuffer (hnew slot rfl item hitem hslot)

theorem keeps_cancelBuffer (c : BufferQueueCore) (slot : ℤ) (fence : Fence) : Keeps c (c.cancelBuffer slot fence).1 := by
  rw [cancelBuffer]
  split
  · exact Keeps.refl c
  split
  · exact Keeps.refl c
  split
  · exact Keeps.refl c
  · rename_i hstate
    have hidle : (c.slots slot.toNat).bufferState ≠ .queued := fun h => by rw [not_not.mp hstate] at h; cases h
    refine (keeps_setSlot_idle hidle rfl ?_ ?_).trans (keeps_signal _)
    · exact fun h => by cases h
    · exact fun h => by cases h

theorem keeps_releaseBuffer (c : BufferQueueCore) (slot : ℤ) (frameNumber : ℕ) : Keeps c (c.releaseBuffer slot frameNumber).1 := by
  rw [releaseBuffer]
  split
  · exact Keeps.refl c
  split
  · exact Keeps.refl c
  split
  · exact Keeps.refl c
  split
  · rename_i hacquired
    have hidle : (c.slots slot.toNat).bufferState ≠ .queued := fun h => by rw [hacquired] at h; cases h
    refine (keeps_setSlot_idle hidle rfl ?_ ?_).trans (keeps_signal _)
    · exact fun h => by cases h
    · exact fun h => by cases h
  split
  · dsimp only
    refine keeps_setSlot_data ?_ ?_
    · rfl
    · rfl
  · exact Keeps.refl c

end BufferQueueCore
end Nvnflinger
end Citron
