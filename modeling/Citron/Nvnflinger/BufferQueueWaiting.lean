/-
# Threads that wait for a slot

One boolean carries the signals of all calls, and the first thread that wakes up takes it for everybody.
No thread is left behind as long as no other one waits or the one that wakes up leaves it nothing.
-/
import Citron.Nvnflinger.BufferQueueItems
import Citron.Nvnflinger.BufferQueueSystem

namespace Citron
namespace Nvnflinger
namespace BufferQueueCore

open List

variable {c c' d : BufferQueueCore}

/-- The loop of `WaitForFreeSlotThenRelock` may end: the queue is abandoned, or it is not too long and a slot below the maximum
is free. -/
def MayGoOn (c : BufferQueueCore) (async : Bool) : Prop :=
  c.isAbandoned = true ∨ c.queue.length ≤ c.getMaxBufferCountLocked async ∧
    ∃ slot < c.getMaxBufferCountLocked async, (c.slots slot).bufferState = .free

/-- The two checks that end the loop with `InvalidOperation`. -/
def Refused (c : BufferQueueCore) (async : Bool) : Prop :=
  let dequeuedCount := c.countState (c.getMaxBufferCountLocked async) .dequeued
  (c.overrideMaxBufferCount = 0 ∧ dequeuedCount ≠ 0) ∨ c.bufferHasBeenQueued = true ∧
    (c.getMaxBufferCountLocked async : ℤ) - (dequeuedCount + 1) < c.getMinUndequeuedBufferCountLocked async

/-! ### The calls that disconnect -/

/-- `Egl`, `Cpu`, `Media` and `Camera` -/
def isApi (api : ℕ) : Bool := 1 ≤ api && api ≤ 4

/-- `BufferQueueProducer::Disconnect`, with the api that is connected after it. -/
def disconnectProducer (c : BufferQueueCore) (connectedApi api : ℕ) : (BufferQueueCore × Reply) × ℕ :=
  if c.isAbandoned then ((c, .status .noError), connectedApi)
  else if connectedApi = 0 then ((c, .status .noInit), connectedApi)
  else if isApi api && connectedApi = api then
    (({ c with queue := [] }.freeAllBuffersLocked.signalDequeueCondition, .status .noError), 0)
  else ((c, .status .badValue), connectedApi)

/-- `BufferQueueConsumer::Disconnect` -/
def disconnectConsumer (c : BufferQueueCore) (connected : Bool) : BufferQueueCore × Reply :=
  if connected then ({ c with isAbandoned := true, queue := [] }.freeAllBuffersLocked.signalDequeueCondition, .status .noError)
  else (c, .status .badValue)

/-! ### Steps that wake nobody -/

/-- Nothing that a thread waits for has changed. -/
structure Unmoved (c c' : BufferQueueCore) : Prop where
  state : ∀ slot, (c'.slots slot).bufferState = (c.slots slot).bufferState
  queue : c'.queue = c.queue
  override : c'.overrideMaxBufferCount = c.overrideMaxBufferCount
  default : c'.defaultMaxBufferCount = c.defaultMaxBufferCount
  abandoned : c'.isAbandoned = c.isAbandoned
  hasQueued : c'.bufferHasBeenQueued = c.bufferHasBeenQueued
  signal : c'.dequeuePossible = c.dequeuePossible

theorem Unmoved.refl (c : BufferQueueCore) : Unmoved c c := ⟨fun _ => rfl, rfl, rfl, rfl, rfl, rfl, rfl⟩

theorem Unmoved.trans (h : Unmoved c c') (h' : Unmoved c' d) : Unmoved c d :=
  ⟨fun slot => (h'.state slot).trans (h.state slot), h'.queue.trans h.queue, h'.override.trans h.override, h'.default.trans h.default,
    h'.abandoned.trans h.abandoned, h'.hasQueued.trans h.hasQueued, h'.signal.trans h.signal⟩

variable {f : BufferSlot → BufferSlot} {slot count : ℕ}

theorem unmoved_setSlot (c : BufferQueueCore)
    (hstate : (f (c.slots slot)).bufferState = (c.slots slot).bufferState) : Unmoved c (c.setSlot slot f) where
  state i := by
    by_cases hi : i = slot
    · rw [hi, setSlot_self, hstate]
    · rw [setSlot_other c f hi]
  queue := rfl
  override := rfl
  default := rfl
  abandoned := rfl
  hasQueued := rfl
  signal := rfl

theorem unmoved_freeBeyond (c : BufferQueueCore) (count : ℕ) : Unmoved c (c.freeBeyond count).1 :=
  freeBeyond_rule (Unmoved.refl c) (fun d _ h hfree => h.trans (unmoved_setSlot d hfree.symm)) count

/-- The maximum depends on the states of the slots alone. -/
theorem Unmoved.max (h : Unmoved c c') (async : Bool) : c'.getMaxBufferCountLocked async = c.getMaxBufferCountLocked async := by
  simp only [getMaxBufferCountLocked, getMinUndequeuedBufferCountLocked, h.state, h.override, h.default]
  rfl

theorem Unmoved.mayGoOn (h : Unmoved c c') (async : Bool) : c'.MayGoOn async ↔ c.MayGoOn async := by
  simp only [MayGoOn, h.max, h.state, h.queue, h.abandoned]

/-- A signal is given, or no thread may go on that could not before. -/
def Wakes (c c' : BufferQueueCore) : Prop :=
  c'.dequeuePossible = true ∨ c'.dequeuePossible = c.dequeuePossible ∧ (c'.MayGoOn false → c.MayGoOn false)

theorem Unmoved.wakes (h : Unmoved c c') : Wakes c c' := Or.inr ⟨h.signal, (h.mayGoOn false).mp⟩

theorem wakes_refl (c : BufferQueueCore) : Wakes c c := (Unmoved.refl c).wakes

theorem wakes_signal (c d : BufferQueueCore) : Wakes c d.signalDequeueCondition := Or.inl rfl

/-! ### A turn of the loop -/

theorem findFree_none (h : c.findFree count = none) : ∀ slot < count, (c.slots slot).bufferState ≠ .free := by
  have hkeep {g : Option ℕ → ℕ → Option ℕ} (hg : ∀ f s, g (some f) s ≠ none) (slots : List ℕ) (f : ℕ) :
      slots.foldl g (some f) ≠ none := by
    induction slots generalizing f with
    | nil => exact Option.some_ne_none f
    | cons s slots ih =>
      obtain ⟨f', hf'⟩ := Option.ne_none_iff_exists'.mp (hg f s)
      rw [foldl_cons, hf']
      exact ih f'
  intro slot hslot hfree
  rw [findFree] at h
  have hmem : slot ∈ List.range count := mem_range.mpr hslot
  generalize List.range count = slots at h hmem
  induction slots with
  | nil => exact not_mem_nil hmem
  | cons s slots ih =>
    rw [foldl_cons] at h
    split at h
    · refine hkeep (fun f s => ?_) slots s h
      dsimp only
      split
      · split <;> exact Option.some_ne_none _
      · exact Option.some_ne_none f
    · rename_i hbusy
      rcases mem_cons.mp hmem with rfl | hmem
      · exact hbusy hfree
      · exact ih h hmem

/-- What an attempt says of the state before it. -/
def Attempt.Explained (c : BufferQueueCore) (async : Bool) : Attempt → Prop
  | .failed _ => c.isAbandoned = true ∨ c.Refused async ∨ ¬ c.MayGoOn async
  | .wait => ¬ c.MayGoOn async
  | .found slot => (slot < c.getMaxBufferCountLocked async ∧ (c.slots slot).bufferState = .free) ∧ c.isAbandoned = false ∧
      c.queue.length ≤ c.getMaxBufferCountLocked async

theorem waitForFreeSlot_turn (c : BufferQueueCore) (async : Bool) :
    ∃ d released attempt, c.waitForFreeSlot async = ((d, released), attempt) ∧ Unmoved c d ∧ attempt.Explained c async := by
  rw [waitForFreeSlot]
  by_cases habandoned : c.isAbandoned = true
  · rw [if_pos habandoned]
    exact ⟨_, _, _, rfl, Unmoved.refl c, Or.inl habandoned⟩
  rw [if_neg habandoned]
  have hunmoved := unmoved_freeBeyond c (c.getMaxBufferCountLocked async)
  have hcount (state : BufferState) : (c.freeBeyond (c.getMaxBufferCountLocked async)).1.countState (c.getMaxBufferCountLocked async)
      state = c.countState (c.getMaxBufferCountLocked async) state := by
    simp only [countState, hunmoved.state]
  dsimp only
  split
  · rename_i hrefused
    rw [hcount, hunmoved.override] at hrefused
    exact ⟨_, _, _, rfl, hunmoved, Or.inr (Or.inl (Or.inl hrefused))⟩
  split
  · rename_i hrefused
    rw [hcount, hunmoved.hasQueued] at hrefused
    exact ⟨_, _, _, rfl, hunmoved, Or.inr (Or.inl (Or.inr hrefused))⟩
  split
  · rename_i slot hfound
    obtain ⟨hslot, hfree⟩ := findFree_spec hfound
    rw [hunmoved.state] at hfree
    rw [hunmoved.queue]
    split
    · rename_i hlong
      have hblocked : ¬ c.MayGoOn async := not_or.mpr ⟨habandoned, fun h => absurd h.1 (Nat.not_le.mpr hlong)⟩
      split
      · exact ⟨_, _, _, rfl, hunmoved, Or.inr (Or.inr hblocked)⟩
      · exact ⟨_, _, _, rfl, hunmoved, hblocked⟩
    · rename_i hshort
      exact ⟨_, _, _, rfl, hunmoved, ⟨hslot, hfree⟩, eq_false_of_ne_true habandoned, Nat.le_of_not_lt hshort⟩
  · rename_i hnone
    have hblocked : ¬ c.MayGoOn async := by
      refine not_or.mpr ⟨habandoned, fun h => ?_⟩
      obtain ⟨slot, hslot, hfree⟩ := h.2
      rw [← hunmoved.state] at hfree
      exact findFree_none hnone slot hslot hfree
    split
    · exact ⟨_, _, _, rfl, hunmoved, Or.inr (Or.inr hblocked)⟩
    · exact ⟨_, _, _, rfl, hunmoved, hblocked⟩

/-! ### A slot that is taken -/

/-- The last used slot, in an ascending list, against a bound. -/
theorem foldl_lastUsed_le {p : ℕ → Prop} [DecidablePred p] {slots : List ℕ} (hsorted : slots.Pairwise (· < ·))
    (hfrom : ∀ s ∈ slots, count ≤ s) (bound : ℕ) :
    slots.foldl (fun count s => if p s then s + 1 else count) count ≤ bound ↔ count ≤ bound ∧ ∀ s ∈ slots, p s → s < bound := by
  induction slots generalizing count with
  | nil => exact ⟨fun h => ⟨h, fun _ hs => absurd hs not_mem_nil⟩, And.left⟩
  | cons s slots ih =>
    obtain ⟨hs, hsorted⟩ := pairwise_cons.mp hsorted
    obtain ⟨hcount, hfrom⟩ := forall_mem_cons.mp hfrom
    rw [foldl_cons, forall_mem_cons]
    by_cases hp : p s
    · rw [if_pos hp, ih hsorted hs]
      exact ⟨fun h => ⟨Nat.le_trans hcount (Nat.le_of_lt h.1), fun _ => h.1, h.2⟩, fun h => ⟨h.2.1 hp, h.2.2⟩⟩
    · rw [if_neg hp, ih hsorted hfrom]
      exact ⟨fun h => ⟨h.1, fun h' => absurd h' hp, h.2⟩, fun h => ⟨h.1, h.2.2⟩⟩

/-- A slot is dequeued and nothing else changes that a thread waits for. -/
structure Takes (c : BufferQueueCore) (slot : ℕ) (c' : BufferQueueCore) : Prop where
  taken : (c'.slots slot).bufferState = .dequeued
  state : ∀ i, i ≠ slot → (c'.slots i).bufferState = (c.slots i).bufferState
  queue : c'.queue = c.queue
  override : c'.overrideMaxBufferCount = c.overrideMaxBufferCount
  default : c'.defaultMaxBufferCount = c.defaultMaxBufferCount
  abandoned : c'.isAbandoned = c.isAbandoned
  signal : c'.dequeuePossible = c.dequeuePossible

theorem takes_setSlot (c : BufferQueueCore) (hstate : (f (c.slots slot)).bufferState = .dequeued) :
    Takes c slot (c.setSlot slot f) where
  taken := by rw [setSlot_self, hstate]
  state i hi := by rw [setSlot_other c f hi]
  queue := rfl
  override := rfl
  default := rfl
  abandoned := rfl
  signal := rfl

theorem Takes.after (h : Takes c' slot d) (h' : Unmoved c c') : Takes c slot d :=
  ⟨h.taken, fun i hi => (h.state i hi).trans (h'.state i), h.queue.trans h'.queue, h.override.trans h'.override,
    h.default.trans h'.default, h.abandoned.trans h'.abandoned, h.signal.trans h'.signal⟩

theorem Takes.before (h : Takes c slot c') (h' : Unmoved c' d) : Takes c slot d :=
  ⟨(h'.state slot).trans h.taken, fun i hi => (h'.state i).trans (h.state i hi), h'.queue.trans h.queue, h'.override.trans h.override,
    h'.default.trans h.default, h'.abandoned.trans h.abandoned, h'.signal.trans h.signal⟩

variable {async : Bool}

/-- The maximum does not grow when a slot below it is taken. -/
theorem Takes.max_le (h : Takes c slot c') (hslot : slot < c.getMaxBufferCountLocked async) :
    c'.getMaxBufferCountLocked async ≤ c.getMaxBufferCountLocked async := by
  have hused := Nat.le_refl (c.getMaxBufferCountLocked async)
  generalize hbound : c.getMaxBufferCountLocked async = bound at hused hslot
  rw [getMaxBufferCountLocked] at hbound ⊢
  have hmin : c'.getMinUndequeuedBufferCountLocked async = c.getMinUndequeuedBufferCountLocked async := rfl
  rw [h.override, h.default, hmin]
  rw [← hbound] at hused hslot ⊢
  generalize (if c.overrideMaxBufferCount ≠ 0 then c.overrideMaxBufferCount
    else max c.defaultMaxBufferCount (c.getMinUndequeuedBufferCountLocked async)) = count at hused hslot ⊢
  have hsorted : (List.range' count (numBufferSlots - count)).Pairwise (· < ·) := pairwise_lt_range'
  have hfrom (s : ℕ) (hs : s ∈ List.range' count (numBufferSlots - count)) : count ≤ s := (mem_range'_1.mp hs).1
  rw [foldl_lastUsed_le hsorted hfrom] at hused ⊢
  refine ⟨hused.1, fun s hs hp => ?_⟩
  by_cases hsame : s = slot
  · rwa [hsame]
  · rw [h.state s hsame] at hp
    exact hused.2 s hs hp

/-- The last free slot is taken. -/
theorem Takes.blocked (h : Takes c slot c') (hslot : slot < c.getMaxBufferCountLocked async)
    (hopen : c.isAbandoned = false)
    (hone : ∀ i < c.getMaxBufferCountLocked async, (c.slots i).bufferState = .free → i = slot) : ¬ c'.MayGoOn async := by
  intro hgoes
  rcases hgoes with habandoned | ⟨-, i, hi, hfree⟩
  · rw [h.abandoned, hopen] at habandoned
    cases habandoned
  by_cases hsame : i = slot
  · rw [hsame, h.taken] at hfree
    cases hfree
  · rw [h.state i hsame] at hfree
    exact hsame (hone i (Nat.lt_of_lt_of_le hi (h.max_le hslot)) hfree)

/-! ### The calls -/

/-- The flag of a call that waits for a slot. -/
def Pending.waits : Pending → Option Bool
  | .dequeueWait input _ => some input.async
  | .attachWait _ _ => some false
  | .allocate _ _ _ _ _ => none

/-- What a turn of the loop makes of a call. -/
inductive Turn (c : BufferQueueCore) (async : Bool) (r : BufferQueueCore × Reply) : Prop
  | failed (h : Unmoved c r.1) (hwhy : c.isAbandoned = true ∨ c.Refused async ∨ ¬ c.MayGoOn async) (hover : ∀ call, r.2 ≠ .pending call)
  | wait (h : Unmoved c r.1) (hblocked : ¬ c.MayGoOn async)
  | took (slot : ℕ) (hslot : slot < c.getMaxBufferCountLocked async ∧ (c.slots slot).bufferState = .free)
      (hopen : c.isAbandoned = false ∧ c.queue.length ≤ c.getMaxBufferCountLocked async) (htakes : Takes c slot r.1)
      (hover : ∀ call, r.2 = .pending call → call.waits = none)

theorem dequeueLocked_turn (c : BufferQueueCore) (input : DequeueInput) (flags : ReturnFlags) :
    Turn c input.async (c.dequeueLocked input flags) := by
  obtain ⟨d, released, attempt, hwait, hunmoved, hwhy⟩ := waitForFreeSlot_turn c input.async
  rw [dequeueLocked, hwait]
  cases attempt with
  | failed status => exact .failed hunmoved hwhy fun _ h => by cases h
  | wait => exact .wait hunmoved hwhy
  | found slot =>
    have htakes : Takes c slot (d.setSlot slot fun b => { b with bufferState := .dequeued }) := (takes_setSlot d rfl).after hunmoved
    dsimp only
    generalize (d.setSlot slot fun b => { b with bufferState := .dequeued }) = e at htakes ⊢
    have hfence : Unmoved e (e.setSlot slot fun b => { b with fence := .noFence }) := unmoved_setSlot e rfl
    have hempty : Unmoved e (e.setSlot slot fun b =>
        { b with acquireCalled := false, graphicBuffer := none, requestBufferCalled := false, fence := .noFence }) := unmoved_setSlot e rfl
    have hfound (flags : ReturnFlags) (fence : Fence) : Turn c input.async (e.setSlot slot fun b => { b with fence := .noFence },
        .slot slot fence flags) :=
      .took slot hwhy.1 hwhy.2 (htakes.before hfence) fun _ h => by cases h
    have hallocate (input' : DequeueInput) (flags : ReturnFlags) (attachedByConsumer : Bool) : Turn c input.async
        (e.setSlot slot fun b => { b with acquireCalled := false, graphicBuffer := none, requestBufferCalled := false, fence := .noFence },
          .pending (.allocate slot input' .noFence flags attachedByConsumer)) := by
      refine .took slot hwhy.1 hwhy.2 (htakes.before hempty) fun call h => ?_
      rw [← Reply.pending.inj h]
      rfl
    split
    · split
      · exact hfound _ _
      · exact hallocate _ _ _
    · split
      · exact hfound _ _
      · exact hallocate _ _ _

theorem attachBuffer_turn (c : BufferQueueCore) (buffer : GraphicBuffer) (flags : ReturnFlags) :
    Turn c false (c.attachBuffer buffer flags) := by
  obtain ⟨d, released, attempt, hwait, hunmoved, hwhy⟩ := waitForFreeSlot_turn c false
  rw [attachBuffer, hwait]
  cases attempt with
  | failed status => exact .failed hunmoved hwhy fun _ h => by cases h
  | wait => exact .wait hunmoved hwhy
  | found slot =>
    have htakes : Takes c slot (d.setSlot slot fun b =>
        { b with graphicBuffer := some buffer, bufferState := .dequeued, fence := .noFence, requestBufferCalled := true }) :=
      (takes_setSlot d rfl).after hunmoved
    exact .took slot hwhy.1 hwhy.2 htakes fun _ h => by cases h

/-- A call signals what it changes, and waits only for what is not there. -/
structure Heeds (c : BufferQueueCore) (r : BufferQueueCore × Reply) : Prop where
  wakes : Wakes c r.1
  waits : ∀ call, r.2 = .pending call → call.waits ≠ none → ¬ r.1.MayGoOn false

/-- A call that is over. -/
theorem heeds_over {reply : Reply} (hwakes : Wakes c c') (hover : ∀ call, reply ≠ .pending call) : Heeds c (c', reply) :=
  ⟨hwakes, fun call hcall => absurd hcall (hover call)⟩

theorem heeds_status (hwakes : Wakes c c') (status : Status) : Heeds c (c', .status status) :=
  heeds_over hwakes fun _ h => by cases h

variable {r : BufferQueueCore × Reply}

theorem Turn.heeds (h : Turn c async r) : Heeds c r := by
  cases h with
  | failed hunmoved hwhy hover => exact heeds_over hunmoved.wakes hover
  | wait hunmoved hblocked => exact ⟨hunmoved.wakes, fun _ _ _ hgoes => hblocked ((hunmoved.mayGoOn false).mp hgoes)⟩
  | took slot hslot hopen htakes hover =>
    exact ⟨Or.inr ⟨htakes.signal, fun _ => Or.inr ⟨hopen.2, slot, hslot⟩⟩, fun call hcall hwaits => absurd (hover call hcall) hwaits⟩

/-- A check that refuses the call. -/
theorem heeds_check {p : Prop} [Decidable p] {status : Status} (h : ¬ p → Heeds c r) :
    Heeds c (if p then (c, .status status) else r) := by
  split
  · exact heeds_status (wakes_refl c) status
  · rename_i hpass
    exact h hpass

theorem heeds_requestBuffer (c : BufferQueueCore) (slot : ℤ) : Heeds c (c.requestBuffer slot) := by
  rw [requestBuffer]
  refine heeds_check fun _ => ?_
  refine heeds_check fun _ => ?_
  split
  · exact heeds_status (wakes_refl c) .badValue
  · refine heeds_over (Unmoved.wakes (unmoved_setSlot c ?_)) fun _ h => ?_
    · rfl
    · cases h

theorem heeds_setBufferCount (c : BufferQueueCore) (bufferCount : ℤ) : Heeds c (c.setBufferCount bufferCount) := by
  rw [setBufferCount]
  refine heeds_check fun _ => ?_
  refine heeds_check fun _ => ?_
  refine heeds_check fun _ => ?_
  split
  · exact heeds_status (wakes_signal c _) .noError
  split
  · exact heeds_status (wakes_refl c) .badValue
  · exact heeds_status (wakes_signal c _) .noError

theorem heeds_dequeueBuffer (c : BufferQueueCore) (input : DequeueInput) : Heeds c (c.dequeueBuffer input) := by
  rw [dequeueBuffer]
  split
  · exact heeds_status (wakes_refl c) .badValue
  · exact (dequeueLocked_turn c _ _).heeds

theorem heeds_dequeueAllocated (c : BufferQueueCore) (slot : ℕ) (buffer : GraphicBuffer) (fence : Fence) (flags : ReturnFlags)
    (attachedByConsumer : Bool) : Heeds c (c.dequeueAllocated slot buffer fence flags attachedByConsumer) := by
  rw [dequeueAllocated]
  split
  · exact heeds_status (wakes_refl c) .noInit
  · refine heeds_over (Unmoved.wakes (unmoved_setSlot c ?_)) fun _ h => ?_
    · rfl
    · cases h

theorem heeds_detachBuffer (c : BufferQueueCore) (slot : ℤ) : Heeds c (c.detachBuffer slot) := by
  rw [detachBuffer]
  refine heeds_check fun _ => ?_
  refine heeds_check fun _ => ?_
  refine heeds_check fun _ => ?_
  split
  · exact heeds_status (wakes_refl c) .badValue
  · exact heeds_status (wakes_signal c _) .noError

theorem heeds_queueBuffer (c : BufferQueueCore) (slot : ℤ) (input : QueueBufferInput) : Heeds c (c.queueBuffer slot input) := by
  rw [queueBuffer]
  refine heeds_check fun _ => ?_
  refine heeds_check fun _ => ?_
  refine heeds_check fun _ => ?_
  refine heeds_check fun _ => ?_
  split
  · exact heeds_status (wakes_refl c) .badValue
  · exact heeds_status (wakes_signal c _) .noError

theorem heeds_cancelBuffer (c : BufferQueueCore) (slot : ℤ) (fence : Fence) : Heeds c (c.cancelBuffer slot fence) := by
  rw [cancelBuffer]
  refine heeds_check fun _ => ?_
  refine heeds_check fun _ => ?_
  split
  · exact heeds_status (wakes_refl c) .badValue
  · exact heeds_status (wakes_signal c _) .noError

/-- When items were dropped, the front is not to be presented later. -/
theorem dropStale_front (expectedPresent : ℤ) (items : List BufferItem) (c : BufferQueueCore) (hqueue : c.queue = items) :
    c.dropStale expectedPresent items = c ∨
      ∀ front ∈ (c.dropStale expectedPresent items).queue.head?, front.timestamp ≤ expectedPresent := by
  induction items generalizing c with
  | nil => exact Or.inl rfl
  | cons front items ih =>
    cases items with
    | nil => exact Or.inl rfl
    | cons next rest =>
      rw [dropStale]
      split
      · rename_i htimely
        rcases ih { c.releaseFront front .free with queue := next :: rest } rfl with hsame | hfront
        · rw [hsame]
          refine Or.inr fun item hitem => ?_
          rw [← Option.mem_some.mp hitem]
          exact Int.not_lt.mp (not_or.mp htimely.2).2
        · exact Or.inr hfront
      · exact Or.inl rfl

theorem heeds_acquireBuffer (c : BufferQueueCore) (expectedPresent : ℤ) : Heeds c (c.acquireBuffer expectedPresent) := by
  rw [acquireBuffer]
  refine heeds_check fun _ => ?_
  refine heeds_check fun hempty => ?_
  have hne : c.queue ≠ [] := fun h => hempty (by rw [h]; rfl)
  have hfront : (if expectedPresent ≠ 0 then c.dropStale expectedPresent c.queue else c) = c ∨
      ∀ front ∈ (if expectedPresent ≠ 0 then c.dropStale expectedPresent c.queue else c).queue.head?, front.timestamp ≤ expectedPresent := by
    split
    · exact dropStale_front expectedPresent c.queue c rfl
    · exact Or.inl rfl
  have hnonempty : (if expectedPresent ≠ 0 then c.dropStale expectedPresent c.queue else c).queue ≠ [] := by
    split
    · exact (dropStale_drops expectedPresent c.queue c rfl).nonempty hne
    · exact hne
  dsimp only
  generalize (if expectedPresent ≠ 0 then c.dropStale expectedPresent c.queue else c) = d at hfront hnonempty ⊢
  split
  · rename_i hqueue
    exact absurd hqueue hnonempty
  · rename_i front rest hqueue
    split
    · rename_i hlater
      rcases hfront with hsame | hfront
      · rw [hsame]
        exact heeds_status (wakes_refl c) .presentLater
      · have hearly := hfront front (by rw [hqueue]; rfl)
        exact absurd hlater.2.1 (Int.not_lt.mpr hearly)
    · exact heeds_over (wakes_signal c _) fun _ h => by cases h

theorem heeds_releaseBuffer (c : BufferQueueCore) (slot : ℤ) (frameNumber : ℕ) : Heeds c (c.releaseBuffer slot frameNumber) := by
  rw [releaseBuffer]
  refine heeds_check fun _ => ?_
  refine heeds_check fun _ => ?_
  refine heeds_check fun _ => ?_
  split
  · exact heeds_status (wakes_signal c _) .noError
  split
  · refine heeds_status (Unmoved.wakes (unmoved_setSlot c ?_)) .staleBufferSlot
    rfl
  · exact heeds_status (wakes_refl c) .badValue

theorem heeds_disconnectProducer (c : BufferQueueCore) (connectedApi api : ℕ) : Heeds c (c.disconnectProducer connectedApi api).1 := by
  rw [disconnectProducer]
  split
  · exact heeds_status (wakes_refl c) .noError
  split
  · exact heeds_status (wakes_refl c) .noInit
  split
  · exact heeds_status (wakes_signal c _) .noError
  · exact heeds_status (wakes_refl c) .badValue

theorem heeds_disconnectConsumer (c : BufferQueueCore) (connected : Bool) : Heeds c (c.disconnectConsumer connected) := by
  rw [disconnectConsumer]
  split
  · exact heeds_status (wakes_signal c _) .noError
  · exact heeds_status (wakes_refl c) .badValue

end BufferQueueCore
end Nvnflinger
end Citron
