/-
# The scheduler's priority queue

`KPriorityQueue`: for each core a queue of the threads that are scheduled on it and one
of the threads that could run on it. A queue has a list for each priority, and the set of
the priorities whose lists have members. The lists, which the source links through the
members, are lists here; to unlink a member that is not in the list is a fault. Cores are
numbers, where -1 is no core.
-/
import Citron.Lib.Levels

namespace Citron
namespace Kernel

inductive SchedulerFault
  | notLinked
  | nullThread
  | candidatesFull
  | outOfFuel
deriving DecidableEq, Repr

/-- `Svc::LowestThreadPriority`. -/
def LowestPriority : ℕ := 63

def NumPriority : ℕ := LowestPriority + 1

/-- What the queue reads of its members. -/
structure QueueMembers (T : Type) where
  priority : T → ℕ
  activeCore : T → ℤ
  affinityMask : T → BitVec 64
  isDummyThread : T → Bool

/-- `KPriorityQueueImpl`. -/
structure KPriorityQueueImpl (T : Type) where
  queues : ℕ → ℤ → List T
  availablePriorities : ℤ → ℕ → Bool

structure KPriorityQueue (T : Type) where
  scheduledQueue : KPriorityQueueImpl T
  suggestedQueue : KPriorityQueueImpl T

namespace QueueMembers

variable {T : Type}

def getAffinity (m : QueueMembers T) (t : T) (core : ℤ) : Bool := (m.affinityMask t).getLsbD core.toNat

def setActiveCore [DecidableEq T] (m : QueueMembers T) (t : T) (core : ℤ) : QueueMembers T :=
  { m with activeCore := Function.update m.activeCore t core }

end QueueMembers

namespace KPriorityQueueImpl

variable {T : Type}

def setQueue (q : KPriorityQueueImpl T) (priority : ℕ) (core : ℤ) (list : List T) : KPriorityQueueImpl T :=
  { q with queues := fun p c => if p = priority ∧ c = core then list else q.queues p c }

/-- `SetBit` and `ClearBit`. -/
def setAvailable (q : KPriorityQueueImpl T) (core : ℤ) (priority : ℕ) (available : Bool) : KPriorityQueueImpl T :=
  { q with
    availablePriorities := fun c p => if c = core ∧ p = priority then available else q.availablePriorities c p }

def pushBack (q : KPriorityQueueImpl T) (priority : ℕ) (core : ℤ) (member : T) : KPriorityQueueImpl T :=
  if priority > LowestPriority then q
  else
    let list := q.queues priority core
    let q := q.setQueue priority core (list ++ [member])
    if list.isEmpty then q.setAvailable core priority true else q

def pushFront (q : KPriorityQueueImpl T) (priority : ℕ) (core : ℤ) (member : T) : KPriorityQueueImpl T :=
  if priority > LowestPriority then q
  else
    let list := q.queues priority core
    let q := q.setQueue priority core (member :: list)
    if list.isEmpty then q.setAvailable core priority true else q

variable [DecidableEq T]

/-- Unlink a member of the list, and clear the bit of its priority if the list is empty then. -/
def unlink (q : KPriorityQueueImpl T) (priority : ℕ) (core : ℤ) (member : T) : KPriorityQueueImpl T :=
  let list := (q.queues priority core).erase member
  let q := q.setQueue priority core list
  if list.isEmpty then q.setAvailable core priority false else q

def remove (q : KPriorityQueueImpl T) (priority : ℕ) (core : ℤ) (member : T) :
    Except SchedulerFault (KPriorityQueueImpl T) :=
  if priority > LowestPriority then .ok q
  else if member ∈ q.queues priority core then .ok (q.unlink priority core member)
  else .error .notLinked

omit [DecidableEq T] in
/-- `CountLeadingZero` finds the first available priority. -/
def getFront (q : KPriorityQueueImpl T) (core : ℤ) : Option T :=
  ((List.range NumPriority).find? (q.availablePriorities core)).bind fun priority => (q.queues priority core).head?

/-- The member behind in the list, or the front of the next available priority (`GetNextSet`). -/
def getNext (q : KPriorityQueueImpl T) (m : QueueMembers T) (core : ℤ) (member : T) :
    Except SchedulerFault (Option T) :=
  let list := q.queues (m.priority member) core
  if member ∈ list then
    .ok ((Lib.behind member list).head?.or
      (((List.range NumPriority).find? fun p => m.priority member < p && q.availablePriorities core p).bind
        fun priority => (q.queues priority core).head?))
  else .error .notLinked

end KPriorityQueueImpl

namespace KPriorityQueue

variable {T : Type}

def getScheduledFront (q : KPriorityQueue T) (core : ℤ) : Option T := q.scheduledQueue.getFront core

def getSuggestedFront (q : KPriorityQueue T) (core : ℤ) : Option T := q.suggestedQueue.getFront core

variable [DecidableEq T]

def getScheduledNext (q : KPriorityQueue T) (m : QueueMembers T) (core : ℤ) (member : T) :
    Except SchedulerFault (Option T) :=
  q.scheduledQueue.getNext m core member

def getSuggestedNext (q : KPriorityQueue T) (m : QueueMembers T) (core : ℤ) (member : T) :
    Except SchedulerFault (Option T) :=
  q.suggestedQueue.getNext m core member

/-- `ChangeCore` of a member whose active core is the new one already. -/
def changeCore (q : KPriorityQueue T) (m : QueueMembers T) (prevCore : ℤ) (member : T) (toFront : Bool) :
    Except SchedulerFault (KPriorityQueue T) :=
  let newCore := m.activeCore member
  let priority := m.priority member
  if m.isDummyThread member || prevCore == newCore then .ok q
  else do
    let scheduled ← (if prevCore ≥ 0 then q.scheduledQueue.remove priority prevCore member else .ok q.scheduledQueue)
    let suggested ← (if newCore ≥ 0 then q.suggestedQueue.remove priority newCore member else .ok q.suggestedQueue)
    let scheduled := if newCore ≥ 0 then
        if toFront then scheduled.pushFront priority newCore member else scheduled.pushBack priority newCore member
      else scheduled
    let suggested := if prevCore ≥ 0 then suggested.pushBack priority prevCore member else suggested
    .ok ⟨scheduled, suggested⟩

end KPriorityQueue

end Kernel
end Citron
