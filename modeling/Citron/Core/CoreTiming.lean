/-
# The timing events

Events in a heap, the earliest one first. `Advance` calls the callbacks of those that are due, and unlocks
the queue for it: the callback and the other threads schedule and unschedule events in the meantime.
-/
import Mathlib
import Citron.Lib.Histories

namespace Citron
namespace Core
namespace Timing

open List

/-- An event has a number for its type, and one for its node in the heap. -/
structure Event where
  time : ℤ
  fifoOrder : ℕ
  type : ℕ
  rescheduleTime : ℤ
  handle : ℕ
  deriving DecidableEq

/-- The order of the keys. -/
instance preorderKey : Preorder (ℤ ×ₗ ℕ) := (Prod.Lex.instLinearOrder ℤ ℕ).toPreorder

/-- Events are sorted by time, and those at one time by the order added to the queue. -/
def Event.key (e : Event) : ℤ ×ₗ ℕ := toLex (e.time, e.fifoOrder)

/-- A type is expired when it was destroyed; the queue does not own it. -/
structure CoreTiming where
  eventQueue : List Event
  eventFifoId : ℕ
  nextHandle : ℕ
  globalTimer : ℤ
  pauseEndTime : ℤ
  expired : ℕ → Bool
  sequenceNumber : ℕ → ℕ

namespace CoreTiming

def initial : CoreTiming := ⟨[], 0, 0, 0, 0, fun _ => false, fun _ => 0⟩

variable (s : CoreTiming)

def emplace (time : ℤ) (type : ℕ) (rescheduleTime : ℤ) : CoreTiming :=
  { s with
    eventQueue := ⟨time, s.eventFifoId, type, rescheduleTime, s.nextHandle⟩ :: s.eventQueue
    eventFifoId := s.eventFifoId + 1
    nextHandle := s.nextHandle + 1 }

def scheduleEvent (time : ℤ) (type : ℕ) : CoreTiming := s.emplace time type 0

def scheduleLoopingEvent (time rescheduleTime : ℤ) (type : ℕ) : CoreTiming := s.emplace time type rescheduleTime

/-- Whoever unschedules a type owns it, so it is not expired. -/
def unscheduleEvent (type : ℕ) : CoreTiming :=
  { s with
    eventQueue := s.eventQueue.filter fun e => e.type != type
    sequenceNumber := Function.update s.sequenceNumber type (s.sequenceNumber type + 1) }

/-- What a thread does in one go while the queue is unlocked. The times are absolute. -/
inductive Action
  | schedule (time : ℤ) (type : ℕ)
  | scheduleLooping (time rescheduleTime : ℤ) (type : ℕ)
  | unschedule (type : ℕ)
  | destroy (type : ℕ)
  | resume (now : ℤ)

/-- Nothing is scheduled. -/
def Action.Quiet (action : Action) : Prop :=
  (∀ time type, action ≠ .schedule time type) ∧ ∀ time rescheduleTime type, action ≠ .scheduleLooping time rescheduleTime type

def act : Action → CoreTiming
  | .schedule time type => s.scheduleEvent time type
  | .scheduleLooping time rescheduleTime type => s.scheduleLoopingEvent time rescheduleTime type
  | .unschedule type => s.unscheduleEvent type
  | .destroy type => { s with expired := Function.update s.expired type true }
  | .resume now => { s with pauseEndTime := now }

def acts (actions : List Action) : CoreTiming := actions.foldl act s

/-! ### Dispatch -/

def top : Option Event := s.eventQueue.argmin Event.key

def pop (evt : Event) : CoreTiming := { s with eventQueue := s.eventQueue.filter fun e => e.handle != evt.handle }

/-- The time of a looping event that comes again. -/
def nextTime (evt : Event) (nextScheduleTime : ℤ) : ℤ :=
  if evt.time < s.pauseEndTime then s.pauseEndTime + nextScheduleTime else evt.time + nextScheduleTime

def update (evt : Event) (nextScheduleTime : ℤ) : CoreTiming :=
  { s with
    eventQueue := s.eventQueue.map fun e =>
      if e.handle = evt.handle then ⟨s.nextTime evt nextScheduleTime, s.eventFifoId, evt.type, nextScheduleTime, evt.handle⟩ else e
    eventFifoId := s.eventFifoId + 1 }

/-- The event at the front, when the loop goes on for it. -/
def due : Option Event := s.top.filter fun evt => evt.time ≤ s.globalTimer

/-- What happens while the queue is unlocked, what the callback returns, and the time after that. -/
structure Meanwhile where
  actions : List Action
  newScheduleTime : Option ℤ
  now : ℤ

/-- What a looping event is rescheduled by. -/
def Meanwhile.interval (m : Meanwhile) (evt : Event) : ℤ := m.newScheduleTime.getD evt.rescheduleTime

/-- One iteration of the loop for an event. -/
def dispatch (evt : Event) (m : Meanwhile) : CoreTiming :=
  if s.expired evt.type then { s with globalTimer := m.now }
  else if evt.rescheduleTime = 0 then { (s.pop evt).acts m.actions with globalTimer := m.now }
  else
    let s' := s.acts m.actions
    -- the event was unscheduled
    if s.sequenceNumber evt.type ≠ s'.sequenceNumber evt.type then s'
    else { s'.update evt (m.interval evt) with globalTimer := m.now }

/-- The events of a run: what the threads do while `Advance` is not running, its call, and the iterations of its loop. -/
inductive Step
  | act (action : Action)
  | advance (now : ℤ)
  | iterate (m : Meanwhile)

def step (s : CoreTiming) : Step → Option (CoreTiming × Option Event)
  | .act action => some (s.act action, none)
  | .advance now => some ({ s with globalTimer := now }, none)
  | .iterate m => s.due.map fun evt => (s.dispatch evt m, some evt)

/-! ### Progress -/

/-- The event is not in the queue any more, or it has a later position. -/
def Progresses (evt : Event) (s' : CoreTiming) : Prop := ∀ e ∈ s'.eventQueue, e.handle = evt.handle → evt.key < e.key

/-- The type of the event is there, and a looping event that is not unscheduled is not set back: its interval is not
negative, or it is at a time of a pause and the end of the pause makes up for it. -/
def NotSetBack (before : ℤ → ℤ → Prop) (s : CoreTiming) (evt : Event) (m : Meanwhile) : Prop :=
  s.expired evt.type = false ∧
    (evt.rescheduleTime = 0 ∨ .unschedule evt.type ∈ m.actions ∨ 0 ≤ m.interval evt ∨
      (evt.time < (s.acts m.actions).pauseEndTime ∧ before evt.time ((s.acts m.actions).pauseEndTime + m.interval evt)))

end CoreTiming

/-! ## The loop of `Advance`

What an iteration does to the event it is for. An event whose type is not there any more stays at the
front; otherwise the event is removed or comes later, unless its callback sets it back.
-/

namespace CoreTiming

/-- The nodes of the heap are distinct, and new numbers come after those that were given. -/
structure Numbered (s : CoreTiming) : Prop where
  distinct : ∀ e ∈ s.eventQueue, ∀ e' ∈ s.eventQueue, e.handle = e'.handle → e = e'
  nodup : s.eventQueue.Nodup
  handle : ∀ e ∈ s.eventQueue, e.handle < s.nextHandle
  fifo : ∀ e ∈ s.eventQueue, e.fifoOrder < s.eventFifoId

variable {s s' : CoreTiming} {evt e : Event} {m : Meanwhile}

/-! ### While the queue is unlocked -/

/-- What an action leaves of the queue, and what it adds. -/
structure Acted (s s' : CoreTiming) : Prop where
  numbered : s.Numbered → s'.Numbered
  nextHandle : s.nextHandle ≤ s'.nextHandle
  fifo : s.eventFifoId ≤ s'.eventFifoId
  old : ∀ e ∈ s'.eventQueue, e.handle < s.nextHandle → e ∈ s.eventQueue

theorem Numbered.emplace (h : s.Numbered) (time : ℤ) (type : ℕ) (interval : ℤ) : (s.emplace time type interval).Numbered where
  distinct := by
    intro e he e' he' heq
    rcases mem_cons.1 he with rfl | he <;> rcases mem_cons.1 he' with rfl | he'
    · rfl
    · exact absurd heq (h.handle e' he').ne'
    · exact absurd heq (h.handle e he).ne
    · exact h.distinct e he e' he' heq
  nodup := by
    refine nodup_cons.2 ⟨?_, h.nodup⟩
    intro hmem
    exact absurd (h.handle _ hmem) (lt_irrefl _)
  handle := by
    intro e he
    rcases mem_cons.1 he with rfl | he
    · exact Nat.lt_succ_self _
    · exact (h.handle e he).trans (Nat.lt_succ_self _)
  fifo := by
    intro e he
    rcases mem_cons.1 he with rfl | he
    · exact Nat.lt_succ_self _
    · exact (h.fifo e he).trans (Nat.lt_succ_self _)

theorem Numbered.sublist (h : s.Numbered) {queue : List Event} (hsub : queue.Sublist s.eventQueue) :
    ({ s with eventQueue := queue } : CoreTiming).Numbered :=
  ⟨fun e he e' he' => h.distinct e (hsub.subset he) e' (hsub.subset he'), h.nodup.sublist hsub,
    fun e he => h.handle e (hsub.subset he), fun e he => h.fifo e (hsub.subset he)⟩

theorem act_acted (s : CoreTiming) (action : Action) : Acted s (s.act action) := by
  have hemplace (time : ℤ) (type : ℕ) (interval : ℤ) : Acted s (s.emplace time type interval) := by
    refine ⟨fun h => h.emplace time type interval, Nat.le_succ _, Nat.le_succ _, ?_⟩
    intro e he hlt
    rcases mem_cons.1 he with rfl | he
    · exact absurd hlt (lt_irrefl _)
    · exact he
  cases action with
  | schedule time type => exact hemplace time type 0
  | scheduleLooping time interval type => exact hemplace time type interval
  | unschedule type =>
    refine ⟨?_, le_rfl, le_rfl, fun e he _ => mem_of_mem_filter he⟩
    intro h
    exact ⟨(h.sublist filter_sublist).distinct, h.nodup.filter _, (h.sublist filter_sublist).handle,
      (h.sublist filter_sublist).fifo⟩
  | destroy type => exact ⟨fun h => ⟨h.distinct, h.nodup, h.handle, h.fifo⟩, le_rfl, le_rfl, fun e he _ => he⟩
  | resume now => exact ⟨fun h => ⟨h.distinct, h.nodup, h.handle, h.fifo⟩, le_rfl, le_rfl, fun e he _ => he⟩

theorem acts_acted (s : CoreTiming) (actions : List Action) : Acted s (s.acts actions) := by
  induction actions generalizing s with
  | nil => exact ⟨id, le_rfl, le_rfl, fun e he _ => he⟩
  | cons action actions ih =>
    have hfirst := act_acted s action
    have hrest := ih (s.act action)
    refine ⟨fun h => hrest.numbered (hfirst.numbered h), hfirst.nextHandle.trans hrest.nextHandle, hfirst.fifo.trans hrest.fifo, ?_⟩
    intro e he hlt
    exact hfirst.old e (hrest.old e he (hlt.trans_le hfirst.nextHandle)) hlt

variable {actions : List Action}

/-- An event that is not unscheduled stays. -/
theorem mem_acts (he : e ∈ s.eventQueue) (hnot : .unschedule e.type ∉ actions) :
    e ∈ (s.acts actions).eventQueue := by
  induction actions generalizing s with
  | nil => exact he
  | cons action actions ih =>
    obtain ⟨hfirst, hrest⟩ := not_or.1 (mt mem_cons.2 hnot)
    refine ih ?_ hrest
    cases action with
    | schedule time type => exact mem_cons_of_mem _ he
    | scheduleLooping time interval type => exact mem_cons_of_mem _ he
    | unschedule type =>
      refine mem_filter.2 ⟨he, bne_iff_ne.2 ?_⟩
      rintro rfl
      exact hfirst rfl
    | destroy type => exact he
    | resume now => exact he

/-- An event that is unscheduled is removed. -/
theorem notMem_acts (hlt : e.handle < s.nextHandle) (hmem : .unschedule e.type ∈ actions) :
    e ∉ (s.acts actions).eventQueue := by
  induction actions generalizing s with
  | nil => cases hmem
  | cons action actions ih =>
    rcases mem_cons.1 hmem with rfl | hmem
    · intro he
      have hold := (acts_acted (s.act (.unschedule e.type)) actions).old e he hlt
      exact absurd (mem_filter.1 hold).2 (by simp)
    · exact ih (hlt.trans_le (act_acted s action).nextHandle) hmem

/-- The sequence number of a type tells whether it was unscheduled. -/
theorem acts_sequenceNumber (s : CoreTiming) (actions : List Action) (type : ℕ) :
    s.sequenceNumber type ≤ (s.acts actions).sequenceNumber type ∧
      (s.sequenceNumber type = (s.acts actions).sequenceNumber type ↔ .unschedule type ∉ actions) := by
  induction actions generalizing s with
  | nil => exact ⟨le_rfl, iff_of_true rfl not_mem_nil⟩
  | cons action actions ih =>
    obtain ⟨hle, hiff⟩ := ih (s.act action)
    have hsame (hact : (s.act action).sequenceNumber type = s.sequenceNumber type) (hne : .unschedule type ≠ action) :
        s.sequenceNumber type ≤ (s.acts (action :: actions)).sequenceNumber type ∧
          (s.sequenceNumber type = (s.acts (action :: actions)).sequenceNumber type ↔ .unschedule type ∉ action :: actions) := by
      rw [← hact, mem_cons, not_or]
      exact ⟨hle, hiff.trans ⟨fun h => ⟨hne, h⟩, fun h => h.2⟩⟩
    cases action with
    | schedule time t => exact hsame rfl nofun
    | scheduleLooping time interval t => exact hsame rfl nofun
    | destroy t => exact hsame rfl nofun
    | resume now => exact hsame rfl nofun
    | unschedule t =>
      by_cases ht : type = t
      · subst ht
        have hact : (s.act (.unschedule type)).sequenceNumber type = s.sequenceNumber type + 1 := Function.update_self _ _ _
        rw [hact] at hle
        change s.sequenceNumber type + 1 ≤ (s.acts (.unschedule type :: actions)).sequenceNumber type at hle
        refine ⟨by omega, iff_of_false (by omega) ?_⟩
        exact not_not.2 mem_cons_self
      · refine hsame (Function.update_of_ne ht _ _) ?_
        intro heq
        exact ht (Action.unschedule.inj heq)

/-! ### An iteration -/

theorem due_iff : s.due = some evt ↔ evt ∈ s.eventQueue.argmin Event.key ∧ evt.time ≤ s.globalTimer := by
  rw [due, Option.filter_eq_some_iff, decide_eq_true_iff]
  rfl

theorem due_mem (h : s.due = some evt) : evt ∈ s.eventQueue := argmin_mem (due_iff.1 h).1

/-- The ways through the body of the loop. -/
theorem dispatch_cases (s : CoreTiming) (evt : Event) (m : Meanwhile) :
    (s.expired evt.type = true ∧ s.dispatch evt m = { s with globalTimer := m.now }) ∨
      s.expired evt.type = false ∧
        ((evt.rescheduleTime = 0 ∧ s.dispatch evt m = { (s.pop evt).acts m.actions with globalTimer := m.now }) ∨
          evt.rescheduleTime ≠ 0 ∧
            ((.unschedule evt.type ∈ m.actions ∧ s.dispatch evt m = s.acts m.actions) ∨
              (.unschedule evt.type ∉ m.actions ∧
                s.dispatch evt m = { (s.acts m.actions).update evt (m.interval evt) with globalTimer := m.now }))) := by
  unfold dispatch
  cases hexpired : s.expired evt.type with
  | true => exact Or.inl ⟨rfl, rfl⟩
  | false =>
    right
    refine ⟨rfl, ?_⟩
    by_cases hone : evt.rescheduleTime = 0
    · exact Or.inl ⟨hone, if_pos hone⟩
    · right
      refine ⟨hone, ?_⟩
      have hsequence := (acts_sequenceNumber s m.actions evt.type).2
      by_cases hmem : .unschedule evt.type ∈ m.actions
      · exact Or.inl ⟨hmem, (if_neg hone).trans (if_pos (mt hsequence.1 (not_not.2 hmem)))⟩
      · exact Or.inr ⟨hmem, (if_neg hone).trans (if_neg (not_not.2 (hsequence.2 hmem)))⟩

theorem Numbered.pop (h : s.Numbered) (evt : Event) : (s.pop evt).Numbered := h.sublist filter_sublist

theorem Numbered.update (h : s.Numbered) (evt : Event) (interval : ℤ) : (s.update evt interval).Numbered := by
  have hhandle (e : Event) :
      (if e.handle = evt.handle then ⟨s.nextTime evt interval, s.eventFifoId, evt.type, interval, evt.handle⟩ else e).handle =
        e.handle := by
    split
    · rename_i hsame
      exact hsame.symm
    · rfl
  refine ⟨?_, ?_, ?_, ?_⟩
  · intro e he e' he' heq
    obtain ⟨a, ha, rfl⟩ := mem_map.1 he
    obtain ⟨b, hb, rfl⟩ := mem_map.1 he'
    rw [hhandle, hhandle] at heq
    rw [h.distinct a ha b hb heq]
  · apply List.Nodup.map_on _ h.nodup
    intro a ha b hb heq
    apply h.distinct a ha b hb
    rw [← hhandle a, ← hhandle b, heq]
  · intro e he
    obtain ⟨a, ha, rfl⟩ := mem_map.1 he
    rw [hhandle]
    exact h.handle a ha
  · intro e he
    obtain ⟨a, ha, rfl⟩ := mem_map.1 he
    split
    · exact Nat.lt_succ_self _
    · exact (h.fifo a ha).trans (Nat.lt_succ_self _)

/-- The position of an event that is rescheduled. -/
theorem update_key (hfifo : evt.fifoOrder < s.eventFifoId) (interval : ℤ) :
    evt.key < (⟨s.nextTime evt interval, s.eventFifoId, evt.type, interval, evt.handle⟩ : Event).key ↔
      0 ≤ interval ∨ (evt.time < s.pauseEndTime ∧ evt.time ≤ s.pauseEndTime + interval) := by
  rw [Event.key, Event.key, Prod.Lex.toLex_lt_toLex, nextTime]
  dsimp only
  split <;> omega

/-- **An iteration makes progress exactly if the type of the event is there and the event is not set back.** -/
theorem dispatch_progresses_iff (h : s.Numbered) (hdue : s.due = some evt) (m : Meanwhile) :
    Progresses evt (s.dispatch evt m) ↔ NotSetBack (· ≤ ·) s evt m := by
  have hmem := due_mem hdue
  have hlt := h.handle evt hmem
  have hkeep := (acts_acted s m.actions)
  rcases dispatch_cases s evt m with ⟨hexpired, hstep⟩ | ⟨hthere, ⟨hone, hstep⟩ | ⟨hloop, ⟨hunscheduled, hstep⟩ | ⟨hnot, hstep⟩⟩⟩
  · rw [hstep]
    refine iff_of_false ?_ ?_
    · intro hprogress
      exact lt_irrefl _ (hprogress evt hmem rfl)
    · intro hgoes
      exact absurd (hexpired.symm.trans hgoes.1) (by decide)
  · rw [hstep]
    refine iff_of_true ?_ ⟨hthere, Or.inl hone⟩
    intro e he hhandle
    have hold := (acts_acted (s.pop evt) m.actions).old e he (hhandle ▸ hlt)
    exact absurd hhandle (bne_iff_ne.1 (mem_filter.1 hold).2)
  · rw [hstep]
    refine iff_of_true ?_ ⟨hthere, Or.inr (Or.inl hunscheduled)⟩
    intro e he hhandle
    have hold := hkeep.old e he (hhandle ▸ hlt)
    rw [h.distinct e hold evt hmem hhandle] at he
    exact absurd he (notMem_acts hlt hunscheduled)
  · rw [hstep]
    have hstays := mem_acts hmem hnot
    have hfifo := (h.fifo evt hmem).trans_le hkeep.fifo
    have hiff := update_key hfifo (m.interval evt)
    constructor
    · intro hprogress
      have hnew := hprogress _ (mem_map_of_mem hstays) (by rw [if_pos rfl])
      rw [if_pos rfl] at hnew
      exact ⟨hthere, Or.inr (Or.inr (hiff.1 hnew))⟩
    · rintro ⟨-, hone | hunscheduled | hlater⟩
      · exact absurd hone hloop
      · exact absurd hunscheduled hnot
      · intro e he hhandle
        obtain ⟨e', he', rfl⟩ := mem_map.1 he
        by_cases hsame : e'.handle = evt.handle
        · rw [if_pos hsame]
          exact hiff.2 hlater
        · rw [if_neg hsame] at hhandle
          exact absurd hhandle hsame

theorem Numbered.dispatch (h : s.Numbered) (evt : Event) (m : Meanwhile) : (s.dispatch evt m).Numbered := by
  have htimer {s : CoreTiming} (h : s.Numbered) : ({ s with globalTimer := m.now } : CoreTiming).Numbered :=
    ⟨h.distinct, h.nodup, h.handle, h.fifo⟩
  rcases dispatch_cases s evt m with ⟨-, hstep⟩ | ⟨-, ⟨-, hstep⟩ | ⟨-, ⟨-, hstep⟩ | ⟨-, hstep⟩⟩⟩
  · rw [hstep]
    exact htimer h
  · rw [hstep]
    exact htimer ((acts_acted _ m.actions).numbered (h.pop evt))
  · rw [hstep]
    exact (acts_acted s m.actions).numbered h
  · rw [hstep]
    exact htimer (((acts_acted s m.actions).numbered h).update evt _)

theorem step_numbered (h : s.Numbered) {event : Step} {output : Option Event} (hstep : s.step event = some (s', output)) :
    s'.Numbered := by
  cases event with
  | act action =>
    cases hstep
    exact (act_acted s action).numbered h
  | advance now =>
    cases hstep
    exact ⟨h.distinct, h.nodup, h.handle, h.fifo⟩
  | iterate m =>
    obtain ⟨evt, -, heq⟩ := Option.map_eq_some_iff.1 hstep
    cases heq
    exact h.dispatch evt m

theorem run_numbered {history : List (Step × Option Event)} (h : Lib.History step (fun _ _ => True) initial s history) :
    s.Numbered := by
  apply h.invariant (P := fun s _ => s.Numbered)
  · exact ⟨nofun, nodup_nil, nofun, nofun⟩
  · intro s _ event s' output hs _ hstep
    exact step_numbered hs hstep

/-! ### The end of the loop -/

/-- How often an event can be dispatched up to a time: a looping event comes later every time, or it is no longer looping. -/
def turnsOf (last : ℤ) (e : Event) : ℕ :=
  if last < e.time then 0 else if e.rescheduleTime = 0 then 1 else (last - e.time).toNat + 2

def turns (last : ℤ) (s : CoreTiming) : ℕ := (s.eventQueue.map (turnsOf last)).sum

variable {last : ℤ}

theorem turnsOf_pos (h : evt.time ≤ last) : 0 < turnsOf last evt := by
  unfold turnsOf
  split
  · omega
  · split <;> omega

theorem acts_sublist (hquiet : ∀ action ∈ actions, action.Quiet) :
    (s.acts actions).eventQueue.Sublist s.eventQueue := by
  induction actions generalizing s with
  | nil => exact List.Sublist.refl _
  | cons action actions ih =>
    apply (ih fun a ha => hquiet a (mem_cons_of_mem _ ha)).trans
    have hfirst := hquiet action mem_cons_self
    cases action with
    | schedule time type => exact absurd rfl (hfirst.1 time type)
    | scheduleLooping time interval type => exact absurd rfl (hfirst.2 time interval type)
    | unschedule type => exact filter_sublist
    | destroy type => exact List.Sublist.refl _
    | resume now => exact List.Sublist.refl _

theorem sum_le_of_sublist {l l' : List Event} (h : l'.Sublist l) :
    (l'.map (turnsOf last)).sum ≤ (l.map (turnsOf last)).sum :=
  (h.map _).sum_le_sum fun _ _ => Nat.zero_le _

/-- What is left when an event was removed. -/
theorem sum_lt_of_removed {l l' : List Event} (h : l'.Sublist l) (hmem : evt ∈ l) (hnot : evt ∉ l') (htime : evt.time ≤ last) :
    (l'.map (turnsOf last)).sum < (l.map (turnsOf last)).sum := by
  have herase : l'.Sublist (l.erase evt) := by
    rw [← erase_of_not_mem hnot]
    exact h.erase evt
  have hsum := sum_map_erase (turnsOf last) hmem
  have hle : ((l').map (turnsOf last)).sum ≤ ((l.erase evt).map (turnsOf last)).sum := sum_le_of_sublist herase
  have hpos := turnsOf_pos htime
  omega

/-- What is left when an event was rescheduled. -/
theorem turns_update (last : ℤ) (h : s.Numbered) (hmem : evt ∈ s.eventQueue) (interval : ℤ) :
    turns last (s.update evt interval) + turnsOf last evt =
      turns last s + turnsOf last ⟨s.nextTime evt interval, s.eventFifoId, evt.type, interval, evt.handle⟩ := by
  have hother : ∀ e ∈ s.eventQueue.erase evt,
      (if e.handle = evt.handle then ⟨s.nextTime evt interval, s.eventFifoId, evt.type, interval, evt.handle⟩ else e) = e := by
    intro e he
    obtain ⟨hne, he⟩ := (h.nodup.mem_erase_iff).1 he
    exact if_neg fun hsame => hne (h.distinct e he evt hmem hsame)
  have hnew := sum_map_erase (fun e => turnsOf last
    (if e.handle = evt.handle then ⟨s.nextTime evt interval, s.eventFifoId, evt.type, interval, evt.handle⟩ else e)) hmem
  have hold := sum_map_erase (turnsOf last) hmem
  have hsame : ((s.eventQueue.erase evt).map fun e => turnsOf last
      (if e.handle = evt.handle then ⟨s.nextTime evt interval, s.eventFifoId, evt.type, interval, evt.handle⟩ else e)) =
        (s.eventQueue.erase evt).map (turnsOf last) := by
    apply map_congr_left
    intro e he
    rw [hother e he]
  rw [hsame, if_pos rfl] at hnew
  have hmap : turns last (s.update evt interval) = (s.eventQueue.map fun e => turnsOf last
      (if e.handle = evt.handle then ⟨s.nextTime evt interval, s.eventFifoId, evt.type, interval, evt.handle⟩ else e)).sum := by
    rw [turns, update, map_map]
    rfl
  rw [hmap, turns]
  omega

/-- A looping event that is not set back has fewer turns left. -/
theorem turnsOf_nextTime {interval : ℤ} (hloop : evt.rescheduleTime ≠ 0) (htime : evt.time ≤ last)
    (hlater : 0 ≤ interval ∨ (evt.time < s.pauseEndTime ∧ evt.time < s.pauseEndTime + interval)) :
    turnsOf last ⟨s.nextTime evt interval, s.eventFifoId, evt.type, interval, evt.handle⟩ < turnsOf last evt := by
  unfold turnsOf nextTime
  rw [if_neg (not_lt.2 htime), if_neg hloop]
  dsimp only
  split <;> split <;> (try split) <;> omega

/-- **An iteration that schedules nothing and does not set its event back leaves fewer turns.** -/
theorem dispatch_turns (h : s.Numbered) (hdue : s.due = some evt) (hlast : s.globalTimer ≤ last)
    (hquiet : ∀ action ∈ m.actions, action.Quiet) (hlater : NotSetBack (· < ·) s evt m) :
    turns last (s.dispatch evt m) < turns last s := by
  have hmem := due_mem hdue
  have htime : evt.time ≤ last := (due_iff.1 hdue).2.trans hlast
  have hlt := h.handle evt hmem
  have hsublist := acts_sublist hquiet (s := s)
  rcases dispatch_cases s evt m with ⟨hexpired, -⟩ | ⟨-, ⟨-, hstep⟩ | ⟨hloop, ⟨hunscheduled, hstep⟩ | ⟨hnot, hstep⟩⟩⟩
  · exact absurd (hexpired.symm.trans hlater.1) (by decide)
  · rw [hstep]
    have hpop : ((s.pop evt).acts m.actions).eventQueue.Sublist s.eventQueue :=
      (acts_sublist hquiet).trans filter_sublist
    refine sum_lt_of_removed hpop hmem ?_ htime
    intro hstill
    have hold := (acts_acted (s.pop evt) m.actions).old evt hstill hlt
    exact absurd rfl (bne_iff_ne.1 (mem_filter.1 hold).2)
  · rw [hstep]
    exact sum_lt_of_removed hsublist hmem (notMem_acts hlt hunscheduled) htime
  · rw [hstep]
    have hthen := (acts_acted s m.actions).numbered h
    have hmore : 0 ≤ m.interval evt ∨
        (evt.time < (s.acts m.actions).pauseEndTime ∧ evt.time < (s.acts m.actions).pauseEndTime + m.interval evt) := by
      rcases hlater.2 with hone | hunscheduled | hmore
      · exact absurd hone hloop
      · exact absurd hunscheduled hnot
      · exact hmore
    have hfewer := turnsOf_nextTime (s := s.acts m.actions) hloop htime hmore
    have hupdate := turns_update last hthen (mem_acts hmem hnot) (m.interval evt)
    have hacts : turns last (s.acts m.actions) ≤ turns last s := sum_le_of_sublist hsublist
    have htimer : turns last { (s.acts m.actions).update evt (m.interval evt) with globalTimer := m.now } =
        turns last ((s.acts m.actions).update evt (m.interval evt)) := rfl
    omega

theorem acts_globalTimer (s : CoreTiming) (actions : List Action) : (s.acts actions).globalTimer = s.globalTimer := by
  induction actions generalizing s with
  | nil => rfl
  | cons action actions ih =>
    apply (ih (s.act action)).trans
    cases action <;> rfl

theorem dispatch_globalTimer (s : CoreTiming) (evt : Event) (m : Meanwhile) :
    (s.dispatch evt m).globalTimer = m.now ∨ (s.dispatch evt m).globalTimer = s.globalTimer := by
  rcases dispatch_cases s evt m with ⟨-, hstep⟩ | ⟨-, ⟨-, hstep⟩ | ⟨-, ⟨-, hstep⟩ | ⟨-, hstep⟩⟩⟩
  · exact Or.inl (congrArg globalTimer hstep)
  · exact Or.inl (congrArg globalTimer hstep)
  · exact Or.inr ((congrArg globalTimer hstep).trans (acts_globalTimer s m.actions))
  · exact Or.inl (congrArg globalTimer hstep)

/-- **The loop ends**: no run of iterations goes on forever when nothing is scheduled from some point on, the time stops, and
no event is set back. -/
theorem loop_ends {run : ℕ → CoreTiming} {evts : ℕ → Event} {during : ℕ → Meanwhile} (h : (run 0).Numbered)
    (hdue : ∀ i, (run i).due = some (evts i)) (hrun : ∀ i, run (i + 1) = (run i).dispatch (evts i) (during i))
    (htimer : (run 0).globalTimer ≤ last) (hnow : ∀ i, (during i).now ≤ last) {n : ℕ}
    (hquiet : ∀ i ≥ n, ∀ action ∈ (during i).actions, action.Quiet)
    (hlater : ∀ i, NotSetBack (· < ·) (run i) (evts i) (during i)) : False := by
  have hnumbered (i : ℕ) : (run i).Numbered := by
    induction i with
    | zero => exact h
    | succ i ih =>
      rw [hrun]
      exact ih.dispatch _ _
  have hlast (i : ℕ) : (run i).globalTimer ≤ last := by
    induction i with
    | zero => exact htimer
    | succ i ih =>
      rw [hrun]
      rcases dispatch_globalTimer (run i) (evts i) (during i) with hnew | hold
      · exact hnew.trans_le (hnow i)
      · exact hold.trans_le ih
  have hfewer (i : ℕ) : turns last (run (n + i)) + i ≤ turns last (run n) := by
    induction i with
    | zero => exact le_rfl
    | succ i ih =>
      have hstep := dispatch_turns (hnumbered (n + i)) (hdue (n + i)) (hlast (n + i)) (hquiet _ (Nat.le_add_right n i)) (hlater (n + i))
      rw [← hrun] at hstep
      rw [← Nat.add_assoc n i 1]
      omega
  have := hfewer (turns last (run n) + 1)
  omega

theorem step_iterate {output : Option Event} (h : s.step (.iterate m) = some (s', output)) :
    ∃ evt, output = some evt ∧ s.due = some evt ∧ s' = s.dispatch evt m := by
  obtain ⟨evt, hdue, heq⟩ := Option.map_eq_some_iff.1 h
  cases heq
  exact ⟨evt, rfl, hdue, rfl⟩

/-- **An iteration makes progress exactly if the type of its event is there and the event is not set back, and a loop whose
iterations all do ends when nothing is scheduled any more and the time stops.** -/
theorem advance_progresses {history : List (Step × Option Event)} (h : Lib.History step (fun _ _ => True) initial s history) :
    (∀ m s' evt, s.step (.iterate m) = some (s', some evt) → (Progresses evt s' ↔ NotSetBack (· ≤ ·) s evt m)) ∧
    ¬∃ (run : ℕ → CoreTiming) (evts : ℕ → Event) (during : ℕ → Meanwhile) (last : ℤ) (n : ℕ), run 0 = s ∧
      (∀ i, (run i).step (.iterate (during i)) = some (run (i + 1), some (evts i))) ∧
      (∀ i, (during i).now ≤ last) ∧ (∀ i ≥ n, ∀ action ∈ (during i).actions, action.Quiet) ∧
      ∀ i, NotSetBack (· < ·) (run i) (evts i) (during i) := by
  have hnumbered := run_numbered h
  constructor
  · intro m s' evt hstep
    obtain ⟨evt', hevt, hdue, rfl⟩ := step_iterate hstep
    cases hevt
    exact dispatch_progresses_iff hnumbered hdue m
  · rintro ⟨run, evts, during, last, n, rfl, hrun, hnow, hquiet, hlater⟩
    have hsteps (i : ℕ) : (run i).due = some (evts i) ∧ run (i + 1) = (run i).dispatch (evts i) (during i) := by
      obtain ⟨evt, hevt, hdue, hnext⟩ := step_iterate (hrun i)
      cases hevt
      exact ⟨hdue, hnext⟩
    exact loop_ends hnumbered (fun i => (hsteps i).1) (fun i => (hsteps i).2) (le_max_left (run 0).globalTimer last)
      (fun i => (hnow i).trans (le_max_right _ _)) hquiet hlater

/-- A looping event that is due. -/
def loopingDue : CoreTiming := { initial.scheduleLoopingEvent 5 3 0 with globalTimer := 10 }

theorem advance_progresses_looping : Progresses ⟨5, 0, 0, 3, 0⟩ (loopingDue.dispatch ⟨5, 0, 0, 3, 0⟩ ⟨[], none, 10⟩) := by
  have hschedule : initial.step (.act (.scheduleLooping 5 3 0)) = some (initial.scheduleLoopingEvent 5 3 0, none) := rfl
  have hadvance : (initial.scheduleLoopingEvent 5 3 0).step (.advance 10) = some (loopingDue, none) := rfl
  have hrun : Lib.History step (fun _ _ => True) initial loopingDue _ :=
    (Lib.History.start.step trivial hschedule).step trivial hadvance
  exact ((advance_progresses hrun).1 ⟨[], none, 10⟩ _ _ rfl).2 ⟨rfl, Or.inr (Or.inr (Or.inl (by decide)))⟩

/-- An event whose type is destroyed before it is due. -/
def destroyed : CoreTiming := { (initial.scheduleEvent 5 0).act (.destroy 0) with globalTimer := 10 }

/-- **The event stays at the front, and every iteration is the same.** -/
theorem advance_stuck : ∃ history, Lib.History step (fun _ _ => True) initial destroyed history ∧
    destroyed.step (.iterate ⟨[], none, 10⟩) = some (destroyed, some ⟨5, 0, 0, 0, 0⟩) ∧ ¬Progresses ⟨5, 0, 0, 0, 0⟩ destroyed := by
  have hschedule : initial.step (.act (.schedule 5 0)) = some (initial.scheduleEvent 5 0, none) := rfl
  have hdestroy : (initial.scheduleEvent 5 0).step (.act (.destroy 0)) = some ((initial.scheduleEvent 5 0).act (.destroy 0), none) := rfl
  have hadvance : ((initial.scheduleEvent 5 0).act (.destroy 0)).step (.advance 10) = some (destroyed, none) := rfl
  refine ⟨_, ((Lib.History.start.step trivial hschedule).step trivial hdestroy).step trivial hadvance, rfl, ?_⟩
  intro hprogress
  exact lt_irrefl _ (hprogress _ mem_cons_self rfl)

end CoreTiming
end Timing
end Core
end Citron
