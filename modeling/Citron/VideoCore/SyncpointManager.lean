/-
# Syncpoints, their actions and their waiters

`SyncpointManager`: a counter for each syncpoint, the actions that wait for its value in the
order of their values, and the threads that wait for it. A section under the guard is one
step, and so is each access to a counter outside of it; between two steps of its call a thread
stands at a `Point`, and the other threads take theirs. An action is known by the number of its
registration. The last fields of the state keep what has happened, for the statements.
-/
import Mathlib

namespace Citron
namespace Tegra

inductive SyncpointKind
  | guest
  | host
deriving DecidableEq, Repr

def NumMaxSyncpoints : ℕ := 192

structure Syncpoint where
  kind : SyncpointKind
  id : Fin NumMaxSyncpoints
deriving DecidableEq, Repr

structure RegisteredAction where
  id : ℕ
  expectedValue : ℕ
  action : ℕ
deriving DecidableEq, Repr

/-- Where a thread stands between two steps: outside, past the first check of `RegisterAction`
(and about to run the action, or to take the guard), past the increment of the counter, about to
check for a wait under the guard, or asleep in it. -/
inductive Point
  | idle
  | running (syncpoint : Syncpoint) (expectedValue action : ℕ)
  | locking (syncpoint : Syncpoint) (expectedValue action : ℕ)
  | incrementing (syncpoint : Syncpoint) (newValue : ℕ)
  | waiting (syncpoint : Syncpoint) (expectedValue : ℕ)
  | blocked (syncpoint : Syncpoint) (expectedValue : ℕ)
deriving DecidableEq, Repr

structure SyncpointManager (T : Type) where
  syncpoints : Syncpoint → ℕ
  actionStorage : Syncpoint → List RegisteredAction
  nextActionId : ℕ
  points : T → Point
  registrations : List (Syncpoint × ℕ)
  ran : List (ℕ × ℕ)
  returned : List (ℕ × ℕ)
  deregistered : List (ℕ × ℕ)
  increments : Syncpoint → ℕ

/-- `upper_bound` and `insert` of a list that is in the order of the values. -/
def insertAction (entry : RegisteredAction) : List RegisteredAction → List RegisteredAction
  | [] => [entry]
  | a :: rest => if entry.expectedValue < a.expectedValue then entry :: a :: rest else a :: insertAction entry rest

namespace SyncpointManager

variable {T : Type} [DecidableEq T]

section calls

variable (s : SyncpointManager T)

def initial : SyncpointManager T where
  syncpoints := fun _ => 0
  actionStorage := fun _ => []
  nextActionId := 0
  points := fun _ => .idle
  registrations := []
  ran := []
  returned := []
  deregistered := []
  increments := fun _ => 0

def goto (t : T) (p : Point) : SyncpointManager T := { s with points := Function.update s.points t p }

/-- `action()`: the run is noted with the value of the counter at the time. -/
def runAction (syncpoint : Syncpoint) (action : ℕ) : SyncpointManager T :=
  { s with ran := s.ran ++ [(action, s.syncpoints syncpoint)] }

/-- `RegisterAction` returns a handle; `ActionHandle{}` is 0. -/
def returnHandle (t : T) (action handle : ℕ) : SyncpointManager T :=
  { s.goto t .idle with returned := s.returned ++ [(action, handle)] }

/-! ### `RegisterAction` -/

/-- The call, up to its first look at the counter. -/
def registerAction (t : T) (syncpoint : Syncpoint) (expectedValue : ℕ) : SyncpointManager T :=
  let action := s.registrations.length
  let s := { s with registrations := s.registrations ++ [(syncpoint, expectedValue)] }
  if expectedValue ≤ s.syncpoints syncpoint then s.goto t (.running syncpoint expectedValue action)
  else s.goto t (.locking syncpoint expectedValue action)

def registerReached (t : T) (syncpoint : Syncpoint) (action : ℕ) : SyncpointManager T :=
  (s.runAction syncpoint action).returnHandle t action 0

/-- The section under the guard. -/
def registerLocked (t : T) (syncpoint : Syncpoint) (expectedValue action : ℕ) : SyncpointManager T :=
  if expectedValue ≤ s.syncpoints syncpoint then (s.runAction syncpoint action).returnHandle t action 0
  else
    let id := (s.nextActionId + 1) % 2 ^ 64
    let s := { s with
      nextActionId := id
      actionStorage := Function.update s.actionStorage syncpoint
        (insertAction ⟨id, expectedValue, action⟩ (s.actionStorage syncpoint)) }
    s.returnHandle t action id

/-! ### `Increment` -/

/-- `fetch_add`. -/
def fetchAdd (t : T) (syncpoint : Syncpoint) : SyncpointManager T :=
  let newValue := (s.syncpoints syncpoint + 1) % 2 ^ 32
  { s.goto t (.incrementing syncpoint newValue) with
    syncpoints := Function.update s.syncpoints syncpoint newValue
    increments := Function.update s.increments syncpoint (s.increments syncpoint + 1) }

/-- The loop over the actions of a syncpoint, which takes the first off at each turn. -/
def runDue (syncpoint : Syncpoint) (newValue : ℕ) : List RegisteredAction → SyncpointManager T → SyncpointManager T
  | [], s => s
  | a :: rest, s =>
    if newValue < a.expectedValue then s
    else runDue syncpoint newValue rest
      { s.runAction syncpoint a.action with
        actionStorage := Function.update s.actionStorage syncpoint rest }

/-- `notify_all` of the condition variable of a kind. -/
def notifyAll (kind : SyncpointKind) : SyncpointManager T :=
  { s with
    points := fun t =>
      match s.points t with
      | .blocked syncpoint expectedValue =>
        if syncpoint.kind = kind then .waiting syncpoint expectedValue else .blocked syncpoint expectedValue
      | p => p }

/-- The section under the guard. -/
def incrementLocked (t : T) (syncpoint : Syncpoint) (newValue : ℕ) : SyncpointManager T :=
  ((runDue syncpoint newValue (s.actionStorage syncpoint) s).notifyAll syncpoint.kind).goto t .idle

/-! ### `DeregisterAction` and `Wait` -/

def deregisterAction (syncpoint : Syncpoint) (handle : ℕ) : SyncpointManager T :=
  if handle = 0 then s
  else
    match (s.actionStorage syncpoint).find? (·.id = handle) with
    | none => s
    | some a =>
      { s with
        actionStorage := Function.update s.actionStorage syncpoint ((s.actionStorage syncpoint).erase a)
        deregistered := s.deregistered ++ [(a.action, handle)] }

/-- The call, up to its first look at the counter. -/
def wait (t : T) (syncpoint : Syncpoint) (expectedValue : ℕ) : SyncpointManager T :=
  if expectedValue ≤ s.syncpoints syncpoint then s else s.goto t (.waiting syncpoint expectedValue)

/-- The predicate under the guard, at first and after each wake-up. -/
def waitLocked (t : T) (syncpoint : Syncpoint) (expectedValue : ℕ) : SyncpointManager T :=
  if expectedValue ≤ s.syncpoints syncpoint then s.goto t .idle else s.goto t (.blocked syncpoint expectedValue)

end calls

/-! ### Interleavings -/

/-- A step of one thread. -/
inductive Step : SyncpointManager T → SyncpointManager T → Prop
  | registerAction {s t} (h : s.points t = .idle) (syncpoint expectedValue) :
      Step s (s.registerAction t syncpoint expectedValue)
  | registerReached {s t syncpoint expectedValue action}
      (h : s.points t = .running syncpoint expectedValue action) : Step s (s.registerReached t syncpoint action)
  | registerLocked {s t syncpoint expectedValue action}
      (h : s.points t = .locking syncpoint expectedValue action) :
      Step s (s.registerLocked t syncpoint expectedValue action)
  | fetchAdd {s t} (h : s.points t = .idle) (syncpoint) : Step s (s.fetchAdd t syncpoint)
  | incrementLocked {s t syncpoint newValue} (h : s.points t = .incrementing syncpoint newValue) :
      Step s (s.incrementLocked t syncpoint newValue)
  | deregisterAction {s} (syncpoint handle) : Step s (s.deregisterAction syncpoint handle)
  | wait {s t} (h : s.points t = .idle) (syncpoint expectedValue) : Step s (s.wait t syncpoint expectedValue)
  | waitLocked {s t syncpoint expectedValue} (h : s.points t = .waiting syncpoint expectedValue) :
      Step s (s.waitLocked t syncpoint expectedValue)
  | wakeUp {s t syncpoint expectedValue} (h : s.points t = .blocked syncpoint expectedValue) :
      Step s (s.goto t (.waiting syncpoint expectedValue))

inductive Reaches : SyncpointManager T → Prop
  | initial : Reaches .initial
  | step {s s'} (hr : Reaches s) (hs : Step s s') : Reaches s'

end SyncpointManager

end Tegra
end Citron
