/-
# The address arbiter

`KAddressArbiter` keeps the waiting threads of all addresses in one tree, ordered by address and priority, and its signals go
through the waiters of an address in the order of the tree. **`signalToAddress_spec`** says what a signal stores and whom it
wakes, in every state that waits, cancelled waits, changes of priorities and other stores lead to.
-/
import Mathlib.Data.List.Sort
import Mathlib.Data.List.TakeWhile

namespace Citron
namespace Kernel

open List Function

/-- A thread in the tree, and how many insertions there were before its own. -/
structure Waiter where
  thread : ℕ
  cvKey : ℕ
  priority : ℕ
  arrival : ℕ

/-- `ConditionVariableComparator::Compare`, by the key and the priority on the left. -/
def Waiter.compare (lKey : ℕ) (lPriority : ℤ) (rhs : Waiter) : ℤ :=
  if lKey < rhs.cvKey then -1
  else if lKey = rhs.cvKey ∧ lPriority < rhs.priority then -1
  else 1

inductive SignalType
  | signal
  | signalAndIncrementIfEqual
  | signalAndModifyByWaitingCountIfEqual
  deriving DecidableEq

inductive ArbitrationType
  | waitIfLessThan
  | decrementAndWaitIfLessThan
  | waitIfEqual

inductive ArbiterResult
  | success
  | waiting
  | terminationRequested
  | invalidState
  | timedOut

/-- The tree by its threads in order, and the words of the process. -/
structure KAddressArbiter where
  tree : List Waiter := []
  memory : ℕ → BitVec 32
  inserted : ℕ := 0

namespace KAddressArbiter

/-- The result of a call, the threads whose waits it has ended in their order, and the state. -/
structure Outcome where
  result : ArbiterResult
  woken : List Waiter := []
  state : KAddressArbiter

/-! ### The tree -/

variable (s : KAddressArbiter) (thread addr priority : ℕ) (value : BitVec 32) (count : ℤ)

/-- A thread goes to the left of those that it compares less than, and to the right of all others. -/
def insert : KAddressArbiter :=
  { s with
    tree := s.tree.orderedInsert (fun w rhs => rhs.compare w.cvKey w.priority < 0) ⟨thread, addr, priority, s.inserted⟩
    inserted := s.inserted + 1 }

/-- `CancelWait` of a thread in the tree. -/
def cancelWait : KAddressArbiter := { s with tree := s.tree.eraseP fun w => w.thread = thread }

/-- `BeforeUpdatePriority` and `AfterUpdatePriority` -/
def updatePriority : KAddressArbiter :=
  match s.tree.find? fun w => w.thread = thread with
  | some w => (s.cancelWait thread).insert thread w.cvKey priority
  | none => s

/-- The threads before the one that is found, and the others. -/
def nfindKey (key : ℕ) (priority : ℤ) : List Waiter × List Waiter :=
  (s.tree.takeWhile fun w => 0 < w.compare key priority, s.tree.dropWhile fun w => 0 < w.compare key priority)

/-! ### Signals -/

def updateIfEqual (newValue : BitVec 32) : KAddressArbiter :=
  { s with memory := if s.memory addr = value then update s.memory addr newValue else s.memory }

/-- The loop that ends waits, from an iterator on: the threads that it takes from the tree, and those that are left. -/
def wakeLoop : ℤ → List Waiter → List Waiter × List Waiter
  | _, [] => ([], [])
  | numWaiters, w :: rest =>
    if (count ≤ 0 ∨ numWaiters < count) ∧ w.cvKey = addr then
      let (woken, left) := wakeLoop (numWaiters + 1) rest
      (w :: woken, left)
    else ([], w :: rest)

def signal : Outcome :=
  let (before, it) := s.nfindKey addr (-1)
  let (woken, left) := wakeLoop addr count 0 it
  ⟨.success, woken, { s with tree := before ++ left }⟩

def signalAndIncrementIfEqual : Outcome :=
  let updated := s.updateIfEqual addr value (value + 1)
  if s.memory addr ≠ value then ⟨.invalidState, [], updated⟩ else updated.signal addr count

/-- The loop that counts the waiters behind the first one. -/
def countLoop : ℤ → List Waiter → ℤ
  | tmpNumWaiters, [] => tmpNumWaiters
  | tmpNumWaiters, w :: rest =>
    if w.cvKey = addr then
      if tmpNumWaiters ≥ count then tmpNumWaiters + 1 else countLoop (tmpNumWaiters + 1) rest
    else tmpNumWaiters

/-- The updated value, by the threads from the iterator on. -/
def newValue (it : List Waiter) : BitVec 32 :=
  let found := it.head?.any fun w => w.cvKey = addr
  if count ≤ 0 then if found then value - 2 else value + 1
  else if found then if countLoop addr count 0 it.tail < count then value - 1 else value
  else value + 1

def signalAndModifyByWaitingCountIfEqual : Outcome :=
  let newValue := newValue addr value count (s.nfindKey addr (-1)).2
  let updated := if value ≠ newValue then s.updateIfEqual addr value newValue else s
  if s.memory addr ≠ value then ⟨.invalidState, [], updated⟩ else updated.signal addr count

def signalToAddress : SignalType → Outcome
  | .signal => s.signal addr count
  | .signalAndIncrementIfEqual => s.signalAndIncrementIfEqual addr value count
  | .signalAndModifyByWaitingCountIfEqual => s.signalAndModifyByWaitingCountIfEqual addr value count

/-! ### Waits -/

/-- The end of a wait: the timeout, and the insertion of the thread. -/
def beginWait (timeout : ℤ) : Outcome :=
  if timeout = 0 then ⟨.timedOut, [], s⟩ else ⟨.waiting, [], s.insert thread addr priority⟩

def decrementIfLessThan : KAddressArbiter :=
  { s with memory := if (s.memory addr).slt value then update s.memory addr (s.memory addr - 1) else s.memory }

def waitIfLessThan (decrement terminationRequested : Bool) (timeout : ℤ) : Outcome :=
  if terminationRequested then ⟨.terminationRequested, [], s⟩
  else
    let updated := if decrement then s.decrementIfLessThan addr value else s
    if value.sle (s.memory addr) then ⟨.invalidState, [], updated⟩
    else updated.beginWait thread addr priority timeout

def waitIfEqual (terminationRequested : Bool) (timeout : ℤ) : Outcome :=
  if terminationRequested then ⟨.terminationRequested, [], s⟩
  else if value ≠ s.memory addr then ⟨.invalidState, [], s⟩
  else s.beginWait thread addr priority timeout

def waitForAddress (terminationRequested : Bool) (timeout : ℤ) : ArbitrationType → Outcome
  | .waitIfLessThan => s.waitIfLessThan thread addr priority value false terminationRequested timeout
  | .decrementAndWaitIfLessThan => s.waitIfLessThan thread addr priority value true terminationRequested timeout
  | .waitIfEqual => s.waitIfEqual thread addr priority value terminationRequested timeout

inductive Call
  | waitForAddress (thread addr priority : ℕ) (value : BitVec 32) (terminationRequested : Bool) (timeout : ℤ) (type : ArbitrationType)
  | cancelWait (thread : ℕ)
  | updatePriority (thread priority : ℕ)
  | store (addr : ℕ) (value : BitVec 32)
  | signalToAddress (addr : ℕ) (value : BitVec 32) (count : ℤ) (type : SignalType)

def step : Call → KAddressArbiter
  | .waitForAddress thread addr priority value terminationRequested timeout type =>
    (s.waitForAddress thread addr priority value terminationRequested timeout type).state
  | .cancelWait thread => s.cancelWait thread
  | .updatePriority thread priority => s.updatePriority thread priority
  | .store addr value => { s with memory := update s.memory addr value }
  | .signalToAddress addr value count type => (s.signalToAddress addr value count type).state

def run (memory : ℕ → BitVec 32) (calls : List Call) : KAddressArbiter := calls.foldl step { memory }

/-! ### What a signal is for -/

def waiters : List Waiter := s.tree.filter fun w => w.cvKey = addr

/-- By priority, and within a priority by arrival. -/
def Before (w w' : Waiter) : Prop := w.priority < w'.priority ∨ w.priority = w'.priority ∧ w.arrival < w'.arrival

/-- The first waiters of the address are woken, as many as the count says or all, and the others stay as they are. -/
structure Wakes (memory : ℕ → BitVec 32) (outcome : Outcome) : Prop where
  result : outcome.result = .success
  woken : outcome.woken = (s.waiters addr).take (if count ≤ 0 then (s.waiters addr).length else count.toNat)
  others : ∃ before after, s.tree = before ++ outcome.woken ++ after ∧ outcome.state.tree = before ++ after
  memory : outcome.state.memory = memory

/-- What a signal stores, by the number of the waiters. -/
def signalledValue (waitingCount : ℕ) : SignalType → BitVec 32
  | .signal => s.memory addr
  | .signalAndIncrementIfEqual => value + 1
  | .signalAndModifyByWaitingCountIfEqual =>
    if waitingCount = 0 then value + 1
    else if count ≤ 0 then value - 2
    else if waitingCount ≤ count then value - 1
    else value

variable {s : KAddressArbiter} {addr : ℕ} {value : BitVec 32} {count n : ℤ} {l ws others : List Waiter} {w : Waiter}

/-! ### The order of the tree -/

/-- By address, priority and arrival, and no thread has arrived in the future. -/
structure Ordered (s : KAddressArbiter) : Prop where
  tree : s.tree.Pairwise fun w w' => w.cvKey < w'.cvKey ∨ w.cvKey = w'.cvKey ∧ Before w w'
  arrival : ∀ w ∈ s.tree, w.arrival < s.inserted

theorem compare_neg_iff {key : ℕ} {priority : ℤ} :
    w.compare key priority < 0 ↔ key < w.cvKey ∨ key = w.cvKey ∧ priority < w.priority := by
  unfold Waiter.compare
  split_ifs <;> omega

theorem pos_compare_iff {key : ℕ} : 0 < w.compare key (-1) ↔ w.cvKey < key := by
  unfold Waiter.compare
  split_ifs <;> omega

theorem Ordered.sublist (h : Ordered s) (hsub : l.Sublist s.tree) (memory : ℕ → BitVec 32) : Ordered { s with tree := l, memory } :=
  ⟨h.tree.sublist hsub, fun w hw => h.arrival w (hsub.subset hw)⟩

theorem Ordered.insert (h : Ordered s) (thread addr priority : ℕ) : Ordered (s.insert thread addr priority) := by
  obtain ⟨htree, harrival⟩ := h
  refine ⟨?_, fun w hw => ?_⟩
  · unfold KAddressArbiter.insert
    dsimp only
    generalize s.tree = tree at htree harrival
    induction tree with
    | nil => exact pairwise_singleton _ _
    | cons w tree ih =>
      obtain ⟨hfirst, hrest⟩ := pairwise_cons.mp htree
      have hlt := harrival w mem_cons_self
      rw [orderedInsert_cons]
      split_ifs with hless <;> rw [compare_neg_iff] at hless
      · refine pairwise_cons.mpr ⟨forall_mem_cons.mpr ⟨?_, fun w' hw' => ?_⟩, htree⟩
        · grind [Before]
        · grind [Before]
      · refine pairwise_cons.mpr ⟨fun w' hw' => ?_, ih hrest fun w' hw' => harrival w' (mem_cons_of_mem _ hw')⟩
        rcases mem_orderedInsert _ |>.mp hw' with rfl | hw'
        · grind [Before]
        · exact hfirst w' hw'
  · rcases mem_orderedInsert _ |>.mp hw with rfl | hw
    · exact Nat.lt_succ_self _
    · exact Nat.lt_succ_of_lt (harrival w hw)

theorem Ordered.updatePriority (h : Ordered s) (thread priority : ℕ) : Ordered (s.updatePriority thread priority) := by
  unfold KAddressArbiter.updatePriority
  split
  · exact (h.sublist eraseP_sublist s.memory).insert _ _ _
  · exact h

theorem Ordered.waiters (h : Ordered s) (addr : ℕ) : (s.waiters addr).Pairwise Before := by
  unfold KAddressArbiter.waiters
  refine (h.tree.filter _).imp_of_mem fun {w w'} hw hw' hle => ?_
  have hkey := of_decide_eq_true (mem_filter.mp hw).2
  have hkey' := of_decide_eq_true (mem_filter.mp hw').2
  rcases hle with hlt | ⟨-, hbefore⟩
  · omega
  · exact hbefore

/-- In the order of the addresses, the waiters of one address stand together. -/
theorem dropWhile_eq_filter (h : l.Pairwise fun w w' => w.cvKey ≤ w'.cvKey) (addr : ℕ) :
    (l.dropWhile fun w => w.cvKey < addr) = (l.filter fun w => w.cvKey = addr) ++ l.filter fun w => addr < w.cvKey := by
  induction l with
  | nil => rfl
  | cons w l ih =>
    obtain ⟨hfirst, hrest⟩ := pairwise_cons.mp h
    rcases lt_or_ge w.cvKey addr with hlt | hge
    · simp [hlt, hlt.ne, hlt.not_gt, ih hrest]
    · have hle : ∀ w' ∈ l, addr ≤ w'.cvKey := fun w' hw' => hge.trans (hfirst w' hw')
      rw [dropWhile_cons_of_neg (by simpa using hge)]
      rcases hge.eq_or_lt with rfl | hgt
      · have hall : l.dropWhile (fun w' => decide (w'.cvKey < w.cvKey)) = l := by
          cases l with
          | nil => rfl
          | cons w' l => exact dropWhile_cons_of_neg (by simpa using hle w' mem_cons_self)
        simp [← ih hrest, hall]
      · have hlt : ∀ w' ∈ w :: l, addr < w'.cvKey := forall_mem_cons.mpr ⟨hgt, fun w' hw' => hgt.trans_le (hfirst w' hw')⟩
        rw [filter_eq_nil_iff.mpr, filter_eq_self.mpr, nil_append]
        · simpa using hlt
        · simpa using fun w' hw' => (hlt w' hw').ne'

/-- The iterator that a signal finds begins with the waiters of its address. -/
theorem Ordered.nfindKey (h : Ordered s) (addr : ℕ) :
    ∃ before others, s.nfindKey addr (-1) = (before, s.waiters addr ++ others) ∧
      s.tree = before ++ (s.waiters addr ++ others) ∧ (∀ w ∈ s.waiters addr, w.cvKey = addr) ∧ ∀ w ∈ others, w.cvKey ≠ addr := by
  have hsplit := dropWhile_eq_filter (h.tree.imp fun hle => by omega) addr
  refine ⟨s.tree.takeWhile fun w => w.cvKey < addr, s.tree.filter fun w => addr < w.cvKey, ?_, ?_,
    fun w hw => of_decide_eq_true (mem_filter.mp hw).2, fun w hw => (of_decide_eq_true (mem_filter.mp hw).2).ne'⟩
  · simp only [KAddressArbiter.nfindKey, pos_compare_iff, hsplit, KAddressArbiter.waiters]
  · rw [KAddressArbiter.waiters, ← hsplit, takeWhile_append_dropWhile]

/-! ### The loops -/

section

variable (hws : ∀ w ∈ ws, w.cvKey = addr) (hothers : ∀ w ∈ others, w.cvKey ≠ addr)
include hws hothers

theorem wakeLoop_eq (hn : 0 ≤ n) :
    wakeLoop addr count n (ws ++ others) = (ws.take (if count ≤ 0 then ws.length else (count - n).toNat),
      ws.drop (if count ≤ 0 then ws.length else (count - n).toNat) ++ others) := by
  induction ws generalizing n with
  | nil =>
    cases others with
    | nil => simp [wakeLoop]
    | cons w rest =>
      rw [nil_append, wakeLoop, if_neg fun hgo => hothers w mem_cons_self hgo.2]
      simp
  | cons w ws ih =>
    obtain ⟨hw, hws⟩ := forall_mem_cons.mp hws
    rw [cons_append, wakeLoop, ih hws (by omega)]
    split_ifs with hgo hall hall
    · rfl
    · have hleft : (count - n).toNat = (count - (n + 1)).toNat + 1 := by omega
      rw [hleft]
      rfl
    · exact absurd ⟨.inl hall, hw⟩ hgo
    · have hzero : (count - n).toNat = 0 := by
        by_contra hne
        exact hgo ⟨.inr (by omega), hw⟩
      rw [hzero]
      rfl

theorem countLoop_lt_iff (hn : n ≤ count) : countLoop addr count n (ws ++ others) < count ↔ n + ws.length < count := by
  induction ws generalizing n with
  | nil =>
    cases others with
    | nil => simp [countLoop]
    | cons w rest => simp [countLoop, hothers w mem_cons_self]
  | cons w ws ih =>
    obtain ⟨hw, hws⟩ := forall_mem_cons.mp hws
    rw [cons_append, countLoop, if_pos hw, length_cons]
    split_ifs with hge
    · omega
    · rw [ih hws (by omega)]
      omega

theorem newValue_eq : newValue addr value count (ws ++ others) =
    s.signalledValue addr value count ws.length .signalAndModifyByWaitingCountIfEqual := by
  unfold newValue signalledValue
  cases ws with
  | nil =>
    cases others with
    | nil => simp
    | cons w rest => simp [hothers w mem_cons_self]
  | cons w ws =>
    obtain ⟨hw, hws⟩ := forall_mem_cons.mp hws
    rw [length_cons, if_neg (Nat.succ_ne_zero _)]
    simp only [cons_append, head?_cons, Option.any_some, hw, decide_true, if_true, tail_cons]
    by_cases hall : count ≤ 0
    · rw [if_pos hall, if_pos hall]
    · rw [if_neg hall, if_neg hall]
      refine if_congr ((countLoop_lt_iff hws hothers (Int.le_of_not_le hall)).trans ?_) rfl rfl
      omega

end

/-! ### The calls -/

theorem Ordered.signal (h : Ordered s) (addr : ℕ) (count : ℤ) (memory : ℕ → BitVec 32) :
    s.Wakes addr count memory ({ s with memory }.signal addr count) := by
  obtain ⟨before, others, hfind, htree, hws, hothers⟩ := h.nfindKey addr
  unfold KAddressArbiter.signal
  rw [show KAddressArbiter.nfindKey { s with memory } addr (-1) = _ from hfind]
  dsimp only
  rw [wakeLoop_eq hws hothers le_rfl, Int.sub_zero]
  exact ⟨rfl, rfl, ⟨before, _, by rw [append_assoc, ← append_assoc (take _ _), take_append_drop, ← htree], rfl⟩, rfl⟩

/-- A signal compares the value, and wakes the waiters after it has stored the new one. -/
theorem Ordered.signalToAddress_eq (h : Ordered s) (type : SignalType) :
    s.signalToAddress addr value count type =
      if type = .signal ∨ s.memory addr = value then
        { s with memory := update s.memory addr (s.signalledValue addr value count (s.waiters addr).length type) }.signal addr count
      else ⟨.invalidState, [], s⟩ := by
  cases type with
  | signal => simp [signalToAddress, signalledValue]
  | signalAndIncrementIfEqual =>
    by_cases heq : s.memory addr = value <;>
      simp [signalToAddress, signalAndIncrementIfEqual, updateIfEqual, signalledValue, heq]
  | signalAndModifyByWaitingCountIfEqual =>
    obtain ⟨before, others, hfind, -, hws, hothers⟩ := h.nfindKey addr
    rw [signalToAddress, signalAndModifyByWaitingCountIfEqual, hfind]
    dsimp only
    rw [newValue_eq (s := s) hws hothers]
    generalize s.signalledValue addr value count (s.waiters addr).length _ = new
    by_cases heq : s.memory addr = value
    · subst heq
      by_cases hsame : s.memory addr = new
      · subst hsame
        simp
      · simp [updateIfEqual, hsame]
    · simp [updateIfEqual, heq]

/-- A signal takes threads from the tree. -/
theorem Wakes.ordered {memory : ℕ → BitVec 32} {outcome : Outcome} (hwakes : s.Wakes addr count memory outcome) (h : Ordered s)
    (hinserted : outcome.state.inserted = s.inserted) : Ordered outcome.state := by
  obtain ⟨before, after, htree, hstate⟩ := hwakes.others
  have hsub : outcome.state.tree.Sublist s.tree := by
    rw [htree, hstate, append_assoc]
    exact (Sublist.refl before).append (sublist_append_right _ _)
  exact ⟨h.tree.sublist hsub, fun w hw => hinserted ▸ h.arrival w (hsub.subset hw)⟩

theorem Ordered.beginWait (h : Ordered s) (thread addr priority : ℕ) (timeout : ℤ) :
    Ordered (s.beginWait thread addr priority timeout).state := by
  unfold KAddressArbiter.beginWait
  split_ifs
  · exact h
  · exact h.insert _ _ _

theorem Ordered.waitIfLessThan (h : Ordered s) (thread addr priority : ℕ) (value : BitVec 32)
    (decrement terminationRequested : Bool) (timeout : ℤ) :
    Ordered (s.waitIfLessThan thread addr priority value decrement terminationRequested timeout).state := by
  have hupdated : Ordered (if decrement then s.decrementIfLessThan addr value else s) := by
    split_ifs
    · exact ⟨h.tree, h.arrival⟩
    · exact h
  unfold KAddressArbiter.waitIfLessThan
  generalize (if decrement then s.decrementIfLessThan addr value else s) = updated at hupdated ⊢
  dsimp only
  split_ifs
  · exact h
  · exact hupdated
  · exact hupdated.beginWait _ _ _ _

theorem Ordered.step (h : Ordered s) (call : Call) : Ordered (s.step call) := by
  cases call with
  | waitForAddress thread addr priority value terminationRequested timeout type =>
    cases type with
    | waitIfEqual =>
      change Ordered (s.waitIfEqual _ _ _ _ _ _).state
      unfold waitIfEqual
      split_ifs
      · exact h
      · exact h
      · exact h.beginWait _ _ _ _
    | _ => exact h.waitIfLessThan _ _ _ _ _ _ _
  | cancelWait thread => exact h.sublist eraseP_sublist s.memory
  | updatePriority thread priority => exact h.updatePriority _ _
  | store addr value => exact ⟨h.tree, h.arrival⟩
  | signalToAddress addr value count type =>
    change Ordered (s.signalToAddress _ _ _ _).state
    rw [h.signalToAddress_eq]
    split_ifs
    · exact (h.signal addr count _).ordered h rfl
    · exact h

theorem ordered_run (memory : ℕ → BitVec 32) (calls : List Call) : Ordered (run memory calls) :=
  foldlRecOn calls KAddressArbiter.step ⟨Pairwise.nil, fun _ hw => absurd hw not_mem_nil⟩ fun _ h call _ => h.step call

/-- **A signal wakes the first waiters of the address** by priority and arrival and leaves all other threads in the tree, and
stores the value for the number of waiters; one that compares the value with another one fails and changes nothing. -/
theorem signalToAddress_spec (memory : ℕ → BitVec 32) (calls : List Call) (addr : ℕ) (value : BitVec 32) (count : ℤ)
    (type : SignalType) :
    let s := run memory calls
    (s.waiters addr).Pairwise Before ∧
      if type = .signal ∨ s.memory addr = value then
        s.Wakes addr count (update s.memory addr (s.signalledValue addr value count (s.waiters addr).length type))
          (s.signalToAddress addr value count type)
      else s.signalToAddress addr value count type = ⟨.invalidState, [], s⟩ := by
  intro s
  have h : Ordered s := ordered_run memory calls
  refine ⟨h.waiters addr, ?_⟩
  rw [h.signalToAddress_eq type]
  split_ifs
  · exact h.signal addr count _
  · rfl

end KAddressArbiter
end Kernel
end Citron
