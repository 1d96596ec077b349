/-
# Items that come to the queue and leave it

An item comes with a slot that was dequeued, at the end of the queue or in place of its front; the front
leaves when it is acquired, when a later frame takes its place or when the item behind it is timely.
-/
import Citron.Nvnflinger.BufferQueueOwnership
import Mathlib.Data.List.Nodup
import Mathlib.Data.List.Infix

namespace Citron
namespace Nvnflinger
namespace BufferQueueCore

open List

variable {c c' d : BufferQueueCore}

/-- Each slot has the tracked items that its state asks for, but for those that are still to come. -/
def Balanced (c : BufferQueueCore) (coming : ℕ → ℕ) : Prop :=
  ∀ slot, c.trackedCount slot + coming slot = if (c.slots slot).bufferState = .queued then 1 else 0

theorem owned_iff : Owned c ↔ c.Balanced fun _ => 0 := Iff.rfl

/-- The item that a queued slot is still to get. -/
def comingTo (slot : ℕ) : ℕ → ℕ := fun i => if i = slot then 1 else 0

variable {front item : BufferItem}

/-- The tracked items without the front. -/
theorem trackedCount_front {rest : List BufferItem} (hqueue : c.queue = front :: rest) (hrest : d.queue = rest)
    (hbuffers : ∀ i, (d.slots i).graphicBuffer = (c.slots i).graphicBuffer) (slot : ℕ) :
    c.trackedCount slot = d.trackedCount slot + if front.slot = slot ∧ c.stillTracking front = true then 1 else 0 := by
  have htail : d.trackedCount slot = rest.countP fun item => item.slot = slot && c.stillTracking item := by
    rw [trackedCount, hrest]
    refine countP_congr fun item _ => ?_
    simp only [Bool.and_eq_true, stillTracking_iff, hbuffers]
  rw [trackedCount, hqueue, countP_cons, htail]
  by_cases hfront : front.slot = slot ∧ c.stillTracking front = true
  · rw [if_pos hfront, if_pos (by simp [hfront.1, hfront.2])]
  · rw [if_neg hfront, if_neg (by simpa using hfront)]

variable {f : BufferSlot → BufferSlot}

/-- The front leaves the queue, and its slot the state `queued`. -/
theorem Balanced.pop {coming : ℕ → ℕ} (h : c.Balanced coming) {rest : List BufferItem}
    (hqueue : c.queue = front :: rest) (hbuffer : ∀ b, (f b).graphicBuffer = b.graphicBuffer)
    (hstate : ∀ b, (f b).bufferState ≠ .queued) (hd : d.slots = (if c.stillTracking front then c.setSlot front.slot f else c).slots)
    (hrest : d.queue = rest) : d.Balanced coming := by
  have hbuffers (i : ℕ) : (d.slots i).graphicBuffer = (c.slots i).graphicBuffer := by
    rw [hd]
    split
    · by_cases hi : i = front.slot
      · rw [hi, setSlot_self, hbuffer]
      · rw [setSlot_other c f hi]
    · rfl
  intro slot
  have hcount := trackedCount_front hqueue hrest hbuffers slot
  have hbalance := h slot
  by_cases htrack : c.stillTracking front = true
  · rw [if_pos htrack] at hd
    by_cases hslot : slot = front.slot
    · rw [if_pos ⟨hslot.symm, htrack⟩] at hcount
      rw [hd, hslot, setSlot_self, if_neg (hstate _)]
      rw [hslot] at hcount hbalance
      split at hbalance
      · omega
      · omega
    · rw [if_neg (fun hfront => hslot hfront.1.symm)] at hcount
      rw [hd, setSlot_other c f hslot, ← hbalance, hcount]
      rfl
  · rw [if_neg htrack] at hd
    rw [if_neg (fun hfront => htrack hfront.2)] at hcount
    rw [hd, ← hbalance, hcount]
    rfl

/-- The item that a queued slot has waited for. -/
theorem Balanced.push (h : c.Balanced (comingTo item.slot)) (htrack : c.stillTracking item = true)
    (hslots : d.slots = c.slots) (hqueue : d.queue.Perm (item :: c.queue)) : Owned d := by
  intro slot
  have hbalance := h slot
  have hcount : d.trackedCount slot = c.trackedCount slot + if item.slot = slot then 1 else 0 := by
    have htracking (i : BufferItem) : d.stillTracking i = c.stillTracking i := by rw [stillTracking, stillTracking, hslots]
    rw [trackedCount, trackedCount]
    simp only [htracking]
    rw [hqueue.countP_eq, countP_cons, htrack, Bool.and_true]
    simp only [decide_eq_true_eq]
  rw [hslots, ← hbalance, hcount, comingTo]
  simp only [eq_comm]

/-! ### Dropped items -/

/-- The item behind this one is to be presented soon before the expected time. -/
def TimedOut (queue : List BufferItem) (expectedPresent : ℤ) (item : BufferItem) : Prop :=
  item.isAutoTimestamp = false ∧ ∃ next, timely next expectedPresent ∧ [item, next] <:+: queue

/-- What dropping items comes to. -/
structure Drops (c : BufferQueueCore) (expectedPresent : ℤ) (c' : BufferQueueCore) : Prop where
  dropped : ∃ items, c.queue = items ++ c'.queue ∧ ∀ item ∈ items, TimedOut c.queue expectedPresent item
  nonempty : c.queue ≠ [] → c'.queue ≠ []
  frameCounter : c'.frameCounter = c.frameCounter
  owned : Owned c → Owned c'
  acquired : c'.acquiredCount ≤ c.acquiredCount

theorem Drops.refl (c : BufferQueueCore) (expectedPresent : ℤ) : Drops c expectedPresent c :=
  ⟨⟨[], rfl, fun _ h => absurd h not_mem_nil⟩, id, rfl, id, Nat.le_refl _⟩

theorem releaseFront_acquired (c : BufferQueueCore) (front : BufferItem) : (c.releaseFront front .free).acquiredCount ≤ c.acquiredCount := by
  refine acquiredCount_congr fun i hi => ?_
  rw [releaseFront] at hi
  split at hi
  · by_cases his : i = front.slot
    · rw [his, setSlot_self] at hi
      cases hi
    · rwa [setSlot_other c _ his] at hi
  · exact hi

theorem dropStale_drops (expectedPresent : ℤ) (items : List BufferItem) (c : BufferQueueCore) (hqueue : c.queue = items) :
    Drops c expectedPresent (c.dropStale expectedPresent items) := by
  induction items generalizing c with
  | nil => exact Drops.refl c expectedPresent
  | cons front items ih =>
    cases items with
    | nil => exact Drops.refl c expectedPresent
    | cons next rest =>
      rw [dropStale]
      by_cases htimely : front.isAutoTimestamp = false ∧ timely next expectedPresent
      · rw [if_pos htimely]
        have hdrops := ih { c.releaseFront front .free with queue := next :: rest } rfl
        obtain ⟨dropped, hsplit, hout⟩ := hdrops.dropped
        have hinfix : next :: rest <:+: c.queue := ⟨[front], [], by rw [hqueue]; simp⟩
        have hcounter : (c.releaseFront front .free).frameCounter = c.frameCounter := by
          rw [releaseFront]
          split
          · rfl
          · rfl
        refine ⟨⟨front :: dropped, ?_, fun item hitem => ?_⟩, fun _ => hdrops.nonempty (cons_ne_nil _ _),
          hdrops.frameCounter.trans hcounter, fun h => hdrops.owned ?_, Nat.le_trans hdrops.acquired (releaseFront_acquired c front)⟩
        · rw [hqueue, cons_append, ← hsplit]
        · rcases mem_cons.mp hitem with rfl | hitem
          · exact ⟨htimely.1, next, htimely.2, ⟨[], rest, by rw [hqueue]; rfl⟩⟩
          · obtain ⟨hauto, later, hlater, hin⟩ := hout item hitem
            exact ⟨hauto, later, hlater, hin.trans hinfix⟩
        · rw [owned_iff] at h ⊢
          refine h.pop hqueue (f := fun b => { b with bufferState := .free }) (fun _ => rfl) (fun _ => ?_) rfl rfl
          exact fun h => by cases h
      · rw [if_neg htimely]
        exact Drops.refl c expectedPresent

/-! ### A queued item -/

/-- A slot that is not queued becomes so, and is to get its item. -/
theorem Balanced.queueSlot (h : Owned c) {slot : ℕ} (hidle : (c.slots slot).bufferState ≠ .queued)
    (hbuffer : (f (c.slots slot)).graphicBuffer = (c.slots slot).graphicBuffer) (hstate : (f (c.slots slot)).bufferState = .queued) :
    (c.setSlot slot f).Balanced (comingTo slot) := by
  intro i
  by_cases hi : i = slot
  · have hcount : (c.setSlot slot f).trackedCount i = c.trackedCount i := trackedCount_congr rfl (by rw [hi, setSlot_self, hbuffer])
    rw [hcount, h i, hi, setSlot_self, if_neg hidle, if_pos hstate, comingTo, if_pos rfl]
  · have hcount : (c.setSlot slot f).trackedCount i = c.trackedCount i := trackedCount_congr rfl (by rw [setSlot_other c f hi])
    rw [hcount, h i, setSlot_other c f hi, comingTo, if_neg hi, Nat.add_zero]

theorem freeFront_eq (c : BufferQueueCore) (hdroppable : front.isDroppable = true) :
    c.freeFront front =
      if c.stillTracking front then c.setSlot front.slot fun b => { b with bufferState := .free, frameNumber := 0 } else c := by
  rw [freeFront, hdroppable, Bool.true_and]

theorem freeFront_of_kept (c : BufferQueueCore) (hkept : front.isDroppable ≠ true) : c.freeFront front = c := by
  rw [freeFront, eq_false_of_ne_true hkept, Bool.false_and]
  rfl

theorem freeFront_buffer (c : BufferQueueCore) (front : BufferItem) (slot : ℕ) :
    ((c.freeFront front).slots slot).graphicBuffer = (c.slots slot).graphicBuffer := by
  rw [freeFront]
  split
  · by_cases hslot : slot = front.slot
    · rw [hslot, setSlot_self]
    · rw [setSlot_other c _ hslot]
  · rfl

theorem freeFront_state (c : BufferQueueCore) (front : BufferItem) (slot : ℕ) (state : BufferState) (hstate : state ≠ .free)
    (h : ((c.freeFront front).slots slot).bufferState = state) : (c.slots slot).bufferState = state := by
  rw [freeFront] at h
  split at h
  · by_cases hslot : slot = front.slot
    · rw [hslot, setSlot_self] at h
      exact absurd h.symm hstate
    · rwa [setSlot_other c _ hslot] at h
  · exact h

theorem pushItem_queue (c : BufferQueueCore) (item : BufferItem) :
    (c.pushItem item).queue = c.queue ++ [item] ∨
      ∃ front rest, c.queue = front :: rest ∧ front.isDroppable = true ∧ (c.pushItem item).queue = item :: rest := by
  rw [pushItem]
  split
  · rename_i hqueue
    exact Or.inl (by rw [hqueue]; rfl)
  · rename_i front rest hqueue
    by_cases hdroppable : front.isDroppable = true
    · rw [if_pos hdroppable]
      exact Or.inr ⟨front, rest, hqueue, hdroppable, rfl⟩
    · rw [if_neg hdroppable]
      exact Or.inl (by rw [hqueue])

theorem pushItem_frameCounter (c : BufferQueueCore) (item : BufferItem) : (c.pushItem item).frameCounter = c.frameCounter := by
  rw [pushItem]
  split
  · rfl
  · rename_i front rest hqueue
    have hfree : (c.freeFront front).frameCounter = c.frameCounter := by
      rw [freeFront]
      split
      · rfl
      · rfl
    split
    · exact hfree
    · exact hfree

theorem pushItem_acquired (c : BufferQueueCore) (item : BufferItem) : (c.pushItem item).acquiredCount ≤ c.acquiredCount := by
  rw [pushItem]
  split
  · exact Nat.le_refl _
  · rename_i front rest hqueue
    have hfree (slot : ℕ) (h : ((c.freeFront front).slots slot).bufferState = .acquired) : (c.slots slot).bufferState = .acquired :=
      freeFront_state c front slot .acquired (fun h => by cases h) h
    split
    · exact acquiredCount_congr hfree
    · exact acquiredCount_congr hfree

/-- The item comes to the slot that has waited for it. -/
theorem pushItem_owned (h : c.Balanced (comingTo item.slot)) (htrack : c.stillTracking item = true) :
    Owned (c.pushItem item) := by
  rw [pushItem]
  split
  · rename_i hqueue
    exact h.push htrack rfl (by rw [hqueue])
  · rename_i front rest hqueue
    by_cases hdroppable : front.isDroppable = true
    · rw [if_pos hdroppable]
      have hpop : { c.freeFront front with queue := rest }.Balanced (comingTo item.slot) := by
        refine h.pop hqueue (f := fun b => { b with bufferState := .free, frameNumber := 0 }) (fun _ => rfl) (fun _ => ?_) ?_ rfl
        · exact fun h => by cases h
        · show (c.freeFront front).slots = _
          rw [freeFront_eq c hdroppable]
      refine hpop.push ?_ rfl (List.Perm.refl _)
      have hbuffer := freeFront_buffer c front item.slot
      rw [stillTracking_iff] at htrack ⊢
      dsimp only
      rw [hbuffer]
      exact htrack
    · rw [if_neg hdroppable, freeFront_of_kept c hdroppable]
      refine h.push htrack rfl ?_
      rw [hqueue]
      exact perm_append_singleton item (front :: rest)

/-- The checks of `QueueBuffer` pass. -/
def Queueable (c : BufferQueueCore) (slot : ℤ) (input : QueueBufferInput) : Prop :=
  ¬ (input.scalingMode < 0 ∨ input.scalingMode > 4) ∧ c.isAbandoned = false ∧
    ¬ (slot < 0 ∨ slot ≥ c.getMaxBufferCountLocked input.async) ∧ (c.slots slot.toNat).bufferState = .dequeued ∧
    (c.slots slot.toNat).requestBufferCalled = true

instance (c : BufferQueueCore) (slot : ℤ) (input : QueueBufferInput) : Decidable (c.Queueable slot input) :=
  inferInstanceAs (Decidable (_ ∧ _))

/-- What queueing a buffer comes to. -/
structure Queues (c : BufferQueueCore) (slot : ℕ) (c' : BufferQueueCore) : Prop where
  queue : ∃ item : BufferItem, item.frameNumber = c.frameCounter + 1 ∧
    (c'.queue = c.queue ++ [item] ∨ ∃ front rest, c.queue = front :: rest ∧ front.isDroppable = true ∧ c'.queue = item :: rest)
  frameCounter : c'.frameCounter = c.frameCounter + 1
  owned : Owned c → (c.slots slot).graphicBuffer ≠ none → Owned c'
  acquired : c'.acquiredCount ≤ c.acquiredCount

theorem queueBuffer_cases (c : BufferQueueCore) (slot : ℤ) (input : QueueBufferInput) :
    (c.queueBuffer slot input).1 = c ∨ c.Queueable slot input ∧ Queues c slot.toNat (c.queueBuffer slot input).1 := by
  rw [queueBuffer]
  split
  · exact Or.inl rfl
  split
  · exact Or.inl rfl
  split
  · exact Or.inl rfl
  split
  · exact Or.inl rfl
  split
  · exact Or.inl rfl
  rename_i hscaling habandoned hslot hstate hrequested
  have hdequeued : (c.slots slot.toNat).bufferState = .dequeued := not_not.mp hstate
  have hidle : (c.slots slot.toNat).bufferState ≠ .queued := fun h => by rw [hdequeued] at h; cases h
  refine Or.inr ⟨⟨hscaling, eq_false_of_ne_true habandoned, hslot, hdequeued, eq_true_of_ne_false hrequested⟩, ?_⟩
  dsimp only
  generalize hitem : BufferItem.mk .. = item
  have hframe : item.frameNumber = c.frameCounter + 1 := by rw [← hitem]
  have hitemSlot : item.slot = slot.toNat := by rw [← hitem]
  have hitemBuffer : item.graphicBuffer = (c.slots slot.toNat).graphicBuffer := by rw [← hitem]
  generalize hf : (fun b : BufferSlot => { b with bufferState := .queued, frameNumber := c.frameCounter + 1, fence := input.fence }) = f
  have hbuffer : (f (c.slots slot.toNat)).graphicBuffer = (c.slots slot.toNat).graphicBuffer := by rw [← hf]
  have hqueued : (f (c.slots slot.toNat)).bufferState = .queued := by rw [← hf]
  generalize hd : { c.setSlot slot.toNat f with frameCounter := c.frameCounter + 1 } = d
  have hdqueue : d.queue = c.queue := by rw [← hd]; rfl
  have hdslots : d.slots = (c.setSlot slot.toNat f).slots := by rw [← hd]
  refine ⟨⟨item, hframe, ?_⟩, ?_, fun howned hsome => ?_, ?_⟩
  · rw [← hdqueue]
    exact pushItem_queue d item
  · exact (pushItem_frameCounter d item).trans (by rw [← hd])
  · have hbalanced : d.Balanced (comingTo item.slot) := by
      rw [hitemSlot]
      have hset := Balanced.queueSlot howned hidle hbuffer hqueued
      rw [← hd]
      exact hset
    refine (keeps_of_slots (c := d.pushItem item) rfl rfl rfl).owned (pushItem_owned hbalanced ?_)
    rw [stillTracking_iff, hdslots, hitemSlot, setSlot_self, hbuffer]
    exact ⟨hsome, hitemBuffer⟩
  · refine Nat.le_trans (pushItem_acquired d item) (acquiredCount_congr fun i hi => ?_)
    rw [hdslots] at hi
    by_cases his : i = slot.toNat
    · rw [his, setSlot_self, hqueued] at hi
      cases hi
    · rwa [setSlot_other c f his] at hi

/-! ### An acquired item -/

/-- One more element satisfies `q`. -/
theorem countP_le_add_count {p q : ℕ → Bool} {a : ℕ} (h : ∀ i, q i = true → p i = true ∨ i = a) (l : List ℕ) :
    l.countP q ≤ l.countP p + l.count a := by
  induction l with
  | nil => exact Nat.zero_le _
  | cons i l ih =>
    rw [countP_cons, countP_cons, count_cons]
    by_cases hq : q i = true
    · rcases h i hq with hp | rfl
      · rw [if_pos hq, if_pos hp]
        omega
      · rw [if_pos hq, if_pos (beq_self_eq_true i)]
        omega
    · rw [if_neg hq]
      omega

theorem acquireSlot_acquired (c : BufferQueueCore) (front : BufferItem) : (c.acquireSlot front).acquiredCount ≤ c.acquiredCount + 1 := by
  have hone : (List.range numBufferSlots).count front.slot ≤ 1 := nodup_iff_count_le_one.mp nodup_range front.slot
  refine Nat.le_trans (countP_le_add_count (p := fun i => decide ((c.slots i).bufferState = .acquired)) (fun i hi => ?_) _)
    (Nat.add_le_add_left hone _)
  have hi := of_decide_eq_true hi
  rw [acquireSlot] at hi
  split at hi
  · by_cases hslot : i = front.slot
    · exact Or.inr hslot
    · rw [setSlot_other c _ hslot] at hi
      exact Or.inl (decide_eq_true hi)
  · exact Or.inl (decide_eq_true hi)

theorem acquireSlot_frameCounter (c : BufferQueueCore) (front : BufferItem) : (c.acquireSlot front).frameCounter = c.frameCounter := by
  rw [acquireSlot]
  split
  · rfl
  · rfl

/-- What acquiring a buffer comes to: items are dropped, and the front may be taken. -/
structure Acquires (c : BufferQueueCore) (expectedPresent : ℤ) (c' : BufferQueueCore) (reply : Reply) : Prop where
  owned : Owned c → Owned c'
  acquired : c'.acquiredCount ≤ max c.acquiredCount (maxAcquiredBufferCount + 1)
  frameCounter : c'.frameCounter = c.frameCounter
  dropped : ∃ items, (∀ item ∈ items, expectedPresent ≠ 0 ∧ TimedOut c.queue expectedPresent item) ∧
    ((c.queue = items ++ c'.queue ∧ ∀ out, reply ≠ .acquired out) ∨
      ∃ front out, c.queue = items ++ front :: c'.queue ∧ reply = .acquired out ∧ out.frameNumber = front.frameNumber)

theorem acquireBuffer_acquires (c : BufferQueueCore) (expectedPresent : ℤ) :
    Acquires c expectedPresent (c.acquireBuffer expectedPresent).1 (c.acquireBuffer expectedPresent).2 := by
  have hstay (status : Status) : Acquires c expectedPresent c (.status status) :=
    ⟨id, Nat.le_max_left _ _, rfl, [], fun _ h => absurd h not_mem_nil, Or.inl ⟨rfl, fun _ h => by cases h⟩⟩
  rw [acquireBuffer]
  split
  · exact hstay .invalidOperation
  split
  · exact hstay .noBufferAvailable
  rename_i hcount _
  have hzero : c.acquiredCount ≤ maxAcquiredBufferCount := Nat.le_of_lt_succ (Nat.lt_of_not_le hcount)
  generalize hd : (if expectedPresent ≠ 0 then c.dropStale expectedPresent c.queue else c) = d
  have hdrops : Drops c expectedPresent d := by
    rw [← hd]
    split
    · exact dropStale_drops expectedPresent c.queue c rfl
    · exact Drops.refl c expectedPresent
  obtain ⟨items, hsplit, hout⟩ := hdrops.dropped
  have hdropped (item : BufferItem) (hitem : item ∈ items) : expectedPresent ≠ 0 ∧ TimedOut c.queue expectedPresent item := by
    refine ⟨fun hnow => ?_, hout item hitem⟩
    rw [if_neg (not_not.mpr hnow)] at hd
    rw [← hd] at hsplit
    rw [self_eq_append_left.mp hsplit] at hitem
    exact not_mem_nil hitem
  have hleave (status : Status) : Acquires c expectedPresent d (.status status) :=
    ⟨hdrops.owned, Nat.le_trans hdrops.acquired (Nat.le_max_left _ _), hdrops.frameCounter, items, hdropped,
      Or.inl ⟨hsplit, fun _ h => by cases h⟩⟩
  dsimp only
  split
  · exact hleave .noBufferAvailable
  rename_i front rest hqueue
  split
  · exact hleave .presentLater
  refine ⟨fun howned => ?_, ?_, ?_, items, hdropped, Or.inr ⟨front, _, ?_, rfl, ?_⟩⟩
  · have hpop : Owned { d.acquireSlot front with queue := rest } := by
      have hbalanced := owned_iff.mp (hdrops.owned howned)
      rw [owned_iff]
      refine hbalanced.pop hqueue
        (f := fun b => { b with acquireCalled := true, needsCleanupOnRelease := false, bufferState := .acquired }) (fun _ => rfl)
        (fun _ => ?_) rfl rfl
      exact fun h => by cases h
    exact (keeps_of_slots (c := { d.acquireSlot front with queue := rest }) rfl rfl rfl).owned hpop
  · have hone : (d.acquireSlot front).acquiredCount ≤ maxAcquiredBufferCount + 1 :=
      Nat.le_trans (acquireSlot_acquired d front) (Nat.add_le_add_right (Nat.le_trans hdrops.acquired hzero) 1)
    exact Nat.le_trans hone (Nat.le_max_right _ _)
  · exact (acquireSlot_frameCounter d front).trans hdrops.frameCounter
  · rw [hsplit, hqueue]
    rfl
  · split
    · rfl
    · rfl

end BufferQueueCore
end Nvnflinger
end Citron
