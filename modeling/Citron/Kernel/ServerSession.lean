/-
# The requests of a server session

`KServerSession`: requests are accepted into a list, received one at a time, answered, and
cleaned up when the client or the server closes its end. A section under the scheduler
lock is one step. A call that holds the session lock stands between its steps at a
`Call`, and other threads take their steps meanwhile. Messages are not modelled here: what
they and the clean-ups return is given from outside. The last fields of the state keep
what has happened, for the statements.
-/
import Citron.Kernel.PriorityInheritance

namespace Citron
namespace Kernel

open Function

abbrev RequestId := ℕ

/-- The results that the session tells apart. -/
inductive IpcResult
  | success
  | sessionClosed
  | notFound
  | failure (description : ℕ)
deriving DecidableEq, Repr

/-- What a client gets: its wait ends with a result, or its message gets an error, if there is
one, its buffer is unlocked and its event signaled. -/
inductive Answer
  | endWait (result : IpcResult)
  | signal (error : Option IpcResult)
deriving DecidableEq, Repr

/-- `KSession::State`. -/
inductive KSessionState
  | normal
  | clientClosed
  | serverClosed
deriving DecidableEq, Repr

/-- How far the close of one end is: `Destroy` reads the session's state, writes it if it was
normal, and calls the server session under its lock. -/
inductive ClosePhase
  | alive
  | destroying (wasNormal : Bool)
  | pending
  | running
  | finished
deriving DecidableEq, Repr

/-- A call that holds the session lock, and where it is. -/
inductive Call
  | receiveRequest (isHle : Bool)
  | receivePopped (isHle : Bool) (request : RequestId) (clientThread : ThreadId)
  | receiveMessage (isHle : Bool) (request : RequestId) (clientThread : ThreadId)
  | receiveFailed (request : RequestId) (clientThread : ThreadId) (result : IpcResult)
  | receiveReply (request : RequestId) (clientThread : ThreadId) (result : IpcResult)
  | receiveClose (request : RequestId)
  | sendReply (isHle : Bool)
  | sendMessage (isHle : Bool) (request : RequestId)
  | sendAnswer (request : RequestId) (clientResult : IpcResult)
  | sendClose (request : RequestId)
  | cleanupRequests
  | cleanupAnswer (request : RequestId)
  | cleanupClose (request : RequestId)
  | onClientClosed (prevRequest : Option RequestId)
  | clientClosedAnswer (request : RequestId) (curRequest : Bool) (prevRequest : Option RequestId)
  | clientClosedClose (request : RequestId) (prevRequest : Option RequestId)
deriving DecidableEq, Repr

/-- A server session with its parent's state, the requests and the threads of its clients. -/
structure KServerSession where
  state : KSessionState
  requestList : List RequestId
  currentRequest : Option RequestId
  requestThread : RequestId → Option ThreadId
  requestEvent : RequestId → Bool
  isTerminationRequested : ThreadId → Bool
  /-- The request that a thread waits for in `OnRequest`. -/
  waiting : ThreadId → Option RequestId
  call : Option Call
  clientPhase : ClosePhase
  serverPhase : ClosePhase
  accepted : List RequestId
  received : List RequestId
  opened : RequestId → ℕ
  closed : RequestId → ℕ
  answers : RequestId → List Answer
  client : RequestId → ThreadId
  isAsync : RequestId → Bool

def IpcResult.succeeded : IpcResult → Bool
  | .success => true
  | _ => false

namespace KServerSession

def initial : KServerSession where
  state := .normal
  requestList := []
  currentRequest := none
  requestThread _ := none
  requestEvent _ := false
  isTerminationRequested _ := false
  waiting _ := none
  call := none
  clientPhase := .alive
  serverPhase := .alive
  accepted := []
  received := []
  opened _ := 0
  closed _ := 0
  answers _ := []
  client _ := 0
  isAsync _ := false

/-- `IsClientClosed` and `IsServerClosed` are the same test. -/
def isClosed (s : KServerSession) : Bool := s.state != .normal

def openRequest (s : KServerSession) (r : RequestId) : KServerSession :=
  { s with opened := update s.opened r (s.opened r + 1) }

def closeRequest (s : KServerSession) (r : RequestId) : KServerSession :=
  { s with closed := update s.closed r (s.closed r + 1) }

def answer (s : KServerSession) (r : RequestId) (a : Answer) : KServerSession :=
  { s with answers := update s.answers r (s.answers r ++ [a]) }

/-- `EndWait` ends the wait that the thread is in, if it is in one. -/
def endWait (s : KServerSession) (t : ThreadId) (result : IpcResult) : KServerSession :=
  match s.waiting t with
  | some r => { s with waiting := update s.waiting t none }.answer r (.endWait result)
  | none => s

/-- Answer a request: an event is signaled after the message got the error, if there is one, and
otherwise the thread's wait ends, if the thread is not terminating. -/
def replyTo (s : KServerSession) (r : RequestId) (t : ThreadId) (error : Option IpcResult) (result : IpcResult) :
    KServerSession :=
  if s.requestEvent r then s.answer r (.signal error)
  else if s.isTerminationRequested t then s
  else s.endWait t result

def unlock (s : KServerSession) : KServerSession := { s with call := none }

def goTo (s : KServerSession) (c : Call) : KServerSession := { s with call := some c }

/-- `SendSyncRequest` or `SendAsyncRequest` of a thread with a new request, and `OnRequest`. -/
def onRequest (s : KServerSession) (t : ThreadId) (r : RequestId) (isAsync : Bool) : KServerSession :=
  if s.isClosed then s
  else if s.isTerminationRequested t then s
  else
    let s := { s with
      requestThread := update s.requestThread r (some t)
      requestEvent := update s.requestEvent r isAsync
      client := update s.client r t
      isAsync := update s.isAsync r isAsync
      requestList := s.requestList ++ [r]
      accepted := s.accepted ++ [r] }.openRequest r
    if isAsync then s else { s with waiting := update s.waiting t (some r) }

/-- `ReceiveRequest`. The message and an HLE context come in `result`. -/
def advanceReceive (s : KServerSession) (result : IpcResult) : Call → Option KServerSession
  | .receiveRequest isHle =>
    if s.isClosed then some s.unlock
    else if s.currentRequest.isSome then some s.unlock
    else
      match s.requestList with
      | [] => some s.unlock
      | r :: rs =>
        let s := { s with requestList := rs, received := s.received ++ [r] }
        match s.requestThread r with
        | none => some s.unlock
        | some t => some (s.goTo (.receivePopped isHle r t))
  | .receivePopped isHle r t => some ({ s with currentRequest := some r }.goTo (.receiveMessage isHle r t))
  | .receiveMessage isHle r t =>
    if isHle || result.succeeded then some s.unlock else some (s.goTo (.receiveFailed r t result))
  | .receiveFailed r t result => some ({ s with currentRequest := none }.goTo (.receiveReply r t result))
  | .receiveReply r t result => some ((s.replyTo r t (some result) result).goTo (.receiveClose r))
  | .receiveClose r => some (s.closeRequest r).unlock
  | _ => none

/-- `SendReply`. `SendMessage`, or `CleanupServerHandles` of a closed session, returns `result`, and `CleanupMap`
returns `mapResult`. -/
def advanceSend (s : KServerSession) (result mapResult : IpcResult) : Call → Option KServerSession
  | .sendReply isHle =>
    match s.currentRequest with
    | none => some s.unlock
    | some r => some ({ s with currentRequest := none }.goTo (.sendMessage isHle r))
  | .sendMessage isHle r =>
    let closed := (s.requestThread r).isNone || s.isClosed
    let result :=
      if isHle then .success
      else if closed then if result.succeeded then mapResult else result
      else result
    let clientResult := if closed && result.succeeded then .sessionClosed else result
    some (s.goTo (.sendAnswer r clientResult))
  | .sendAnswer r clientResult =>
    let error := if clientResult.succeeded then none else some clientResult
    match s.requestThread r with
    | some t => some ((s.replyTo r t error clientResult).goTo (.sendClose r))
    | none => some (s.goTo (.sendClose r))
  | .sendClose r => some (s.closeRequest r).unlock
  | _ => none

/-- `CleanupRequests`, where `CleanupMap` returns `mapResult`. -/
def advanceCleanup (s : KServerSession) (mapResult : IpcResult) : Call → Option KServerSession
  | .cleanupRequests =>
    match s.currentRequest, s.requestList with
    | some r, _ => some ({ s with currentRequest := none }.goTo (.cleanupAnswer r))
    | none, r :: rs => some ({ s with requestList := rs }.goTo (.cleanupAnswer r))
    | none, [] => some { s with serverPhase := .finished }.unlock
  | .cleanupAnswer r =>
    match s.requestThread r with
    | some t =>
      let error := if mapResult.succeeded then .sessionClosed else mapResult
      some ((s.replyTo r t (some error) .sessionClosed).goTo (.cleanupClose r))
    | none => some (s.goTo (.cleanupClose r))
  | .cleanupClose r => some ((s.closeRequest r).goTo .cleanupRequests)
  | _ => none

/-- The section of `OnClientClosed` that takes the next request from the list. -/
def popOnClientClosed (s : KServerSession) (prevRequest : Option RequestId) : KServerSession :=
  match s.requestList with
  | r :: rs => { s with requestList := rs }.goTo (.clientClosedAnswer r false prevRequest)
  | [] => { s with clientPhase := .finished }.unlock

/-- `OnClientClosed`. A current request without a thread is a null pointer. -/
def advanceClientClosed (s : KServerSession) : Call → Option KServerSession
  | .onClientClosed prevRequest =>
    match s.currentRequest with
    | none => some (s.popOnClientClosed prevRequest)
    | some r =>
      if prevRequest = some r then some (s.popOnClientClosed prevRequest)
      else
        match s.requestThread r with
        | none => none
        | some t =>
          let s := s.openRequest r
          let s := if s.isTerminationRequested t then
              { s with
                requestThread := update s.requestThread r none
                requestEvent := update s.requestEvent r false }
            else s
          some (s.goTo (.clientClosedAnswer r true (some r)))
  | .clientClosedAnswer r curRequest prevRequest =>
    let s := if s.requestEvent r && !curRequest then s.answer r (.signal (some .sessionClosed)) else s
    some (s.goTo (.clientClosedClose r prevRequest))
  | .clientClosedClose r prevRequest => some ((s.closeRequest r).goTo (.onClientClosed prevRequest))
  | _ => none

/-- The next step of the call that holds the lock. -/
def advance (s : KServerSession) (result mapResult : IpcResult) (c : Call) : Option KServerSession :=
  match c with
  | .receiveRequest .. | .receivePopped .. | .receiveMessage .. | .receiveFailed .. | .receiveReply .. | .receiveClose .. =>
    s.advanceReceive result c
  | .sendReply .. | .sendMessage .. | .sendAnswer .. | .sendClose .. => s.advanceSend result mapResult c
  | .cleanupRequests | .cleanupAnswer .. | .cleanupClose .. => s.advanceCleanup mapResult c
  | .onClientClosed .. | .clientClosedAnswer .. | .clientClosedClose .. => s.advanceClientClosed c

/-- The steps of the clients, the server and the threads. A thread in `SendSyncRequest` refers to the client session,
which is destroyed only when no thread waits. -/
inductive Step : KServerSession → KServerSession → Prop
  | onRequest {s} (t r isAsync) (halive : s.clientPhase = .alive) (hrun : s.waiting t = none) (hnew : r ∉ s.accepted) :
      Step s (s.onRequest t r isAsync)
  | receiveRequest {s} (isHle) (hfree : s.call = none) : Step s (s.goTo (.receiveRequest isHle))
  | sendReply {s} (isHle) (hfree : s.call = none) : Step s (s.goTo (.sendReply isHle))
  | advance {s s' c} (result mapResult) (hcall : s.call = some c) (hstep : s.advance result mapResult c = some s') :
      Step s s'
  | requestTermination {s t} :
      Step s { s with isTerminationRequested := update s.isTerminationRequested t true }
  | cancelWait {s t} (hterm : s.isTerminationRequested t = true) :
      Step s { s with waiting := update s.waiting t none }
  | destroyClient {s} (halive : s.clientPhase = .alive) (hwait : ∀ t, s.waiting t = none) :
      Step s { s with clientPhase := .destroying (s.state == .normal) }
  | closeClient {s} (hphase : s.clientPhase = .destroying true) :
      Step s { s with state := .clientClosed, clientPhase := .pending }
  | skipClient {s} (hphase : s.clientPhase = .destroying false) : Step s { s with clientPhase := .finished }
  | onClientClosed {s} (hphase : s.clientPhase = .pending) (hfree : s.call = none) :
      Step s ({ s with clientPhase := .running }.goTo (.onClientClosed none))
  | destroyServer {s} (halive : s.serverPhase = .alive) :
      Step s { s with serverPhase := .destroying (s.state == .normal) }
  | closeServer {s wasNormal} (hphase : s.serverPhase = .destroying wasNormal) :
      Step s { s with state := if wasNormal then .serverClosed else s.state, serverPhase := .pending }
  | cleanupRequests {s} (hphase : s.serverPhase = .pending) (hfree : s.call = none) :
      Step s ({ s with serverPhase := .running }.goTo .cleanupRequests)

/-- The states of a session that any steps lead to. -/
inductive Reaches : KServerSession → Prop
  | initial : Reaches .initial
  | step {s s'} (hr : Reaches s) (hs : Step s s') : Reaches s'

end KServerSession

/-! ## The invariant of a server session

A request waits in the list, is the current one, or is in the hand of the call that holds
the lock, and the session has a reference for each of these places. It has no answer until
a call has answered it, and one answer after that, unless its thread is terminating.
-/

/-- The request whose reference a call holds. -/
def Call.held : Call → Option RequestId
  | .receivePopped _ r _ | .receiveReply r _ _ | .receiveClose r | .sendMessage _ r | .sendAnswer r _ | .sendClose r
  | .cleanupAnswer r | .cleanupClose r | .clientClosedAnswer r _ _ | .clientClosedClose r _ => some r
  | _ => none

/-- The request that a call has taken and not answered yet. -/
def Call.unanswered : Call → Option RequestId
  | .receivePopped _ r _ | .receiveReply r _ _ | .sendMessage _ r | .sendAnswer r _ | .cleanupAnswer r
  | .clientClosedAnswer r false _ => some r
  | _ => none

/-- The request that `OnClientClosed` has seen as the current one. -/
def Call.prev : Call → Option RequestId
  | .onClientClosed prev | .clientClosedAnswer _ _ prev | .clientClosedClose _ prev => prev
  | _ => none

namespace KServerSession

def held (s : KServerSession) : Option RequestId := s.call.bind Call.held

def unanswered (s : KServerSession) : Option RequestId := s.call.bind Call.unanswered

def prev (s : KServerSession) : Option RequestId := s.call.bind Call.prev

/-- A request that is in the list, the current one, or taken and not answered. -/
def Unanswered (s : KServerSession) (r : RequestId) : Prop :=
  r ∈ s.requestList ∨ s.currentRequest = some r ∨ s.unanswered = some r

/-- A request that has no answer yet. A client that is not terminating waits for its request, and only a
terminating one loses its thread and event. -/
structure PendingOk (s : KServerSession) (r : RequestId) : Prop where
  answers : s.answers r = []
  thread : s.requestThread r = some (s.client r) ∧ s.requestEvent r = s.isAsync r ∨
    s.requestThread r = none ∧ s.requestEvent r = false ∧ s.isTerminationRequested (s.client r) = true
  waits : s.isAsync r = false → s.isTerminationRequested (s.client r) = false → s.waiting (s.client r) = some r

/-- A request that the session is done with. -/
def SettledOk (s : KServerSession) (r : RequestId) : Prop :=
  (s.answers r).length = 1 ∨ s.answers r = [] ∧ s.isTerminationRequested (s.client r) = true

/-- The places that refer to a request. -/
def references (s : KServerSession) (r : RequestId) : ℕ :=
  s.requestList.count r + (if s.currentRequest = some r then 1 else 0) + (if s.held = some r then 1 else 0)

/-- What holds at each step of a call. -/
def CallOk (s : KServerSession) : Call → Prop
  | .receiveRequest _ | .sendReply _ => True
  | .receivePopped _ r t | .receiveReply r t _ => s.currentRequest = none ∧ r ∈ s.received ∧ s.requestThread r = some t
  | .receiveMessage _ r t | .receiveFailed r t _ => s.currentRequest = some r ∧ s.requestThread r = some t
  | .receiveClose r | .sendMessage _ r | .sendAnswer r _ | .sendClose r => s.currentRequest = none ∧ r ∈ s.received
  | .cleanupRequests => s.serverPhase = .running
  | .cleanupAnswer _ | .cleanupClose _ => s.currentRequest = none ∧ s.serverPhase = .running
  | .onClientClosed _ => s.clientPhase = .running
  | .clientClosedAnswer r true prev => s.clientPhase = .running ∧ s.currentRequest = some r ∧ prev = some r
  | .clientClosedAnswer r false _ => s.clientPhase = .running ∧ r ∉ s.received ∧ s.requestThread r ≠ none
  | .clientClosedClose r prev => s.clientPhase = .running ∧ (s.currentRequest = some r ∧ prev = some r ∨ r ∉ s.received)

/-- The server has taken its close to the session, which cleans up the requests. -/
def ServerClosing (s : KServerSession) : Prop :=
  s.serverPhase = .pending ∨ s.serverPhase = .running ∨ s.serverPhase = .finished

/-- What the closes of the two ends have done. A close of the client that finds the session closed leaves the
requests to the server's. -/
structure ClosesOk (s : KServerSession) : Prop where
  noWaiters : s.clientPhase ≠ .alive → ∀ t, s.waiting t = none
  serverPhase : s.serverPhase = .destroying false ∨ s.ServerClosing → s.state ≠ .normal
  serverClosed : s.state = .serverClosed → s.ServerClosing
  clientClosed : s.state = .clientClosed → s.clientPhase ≠ .alive ∧ ∀ wasNormal, s.clientPhase ≠ .destroying wasNormal
  skipped : s.clientPhase = .destroying false → s.ServerClosing
  drained : s.clientPhase = .finished → s.requestList = [] ∨ s.ServerClosing

structure Inv (s : KServerSession) : Prop where
  order : ∃ popped, s.accepted = popped ++ s.requestList ∧ s.received.Sublist popped
  nodup : s.accepted.Nodup
  fresh : ∀ r, r ∉ s.accepted → s.answers r = []
  current : ∀ r, s.currentRequest = some r → r ∈ s.received
  held : ∀ r, s.held = some r → r ∈ s.accepted ∧ r ∉ s.requestList
  call : ∀ c, s.call = some c → CallOk s c
  pending : ∀ r, s.Unanswered r → PendingOk s r
  settled : ∀ r ∈ s.accepted, ¬ s.Unanswered r → SettledOk s r
  listed : ∀ r ∈ s.requestList, s.requestThread r ≠ none
  cleared : ∀ r, s.currentRequest = some r → s.requestThread r = none → s.clientPhase = .finished ∨ s.prev = some r
  references : ∀ r, s.opened r = s.closed r + s.references r
  closes : ClosesOk s
  finished : s.serverPhase = .finished → s.requestList = [] ∧ s.currentRequest = none ∧ s.held = none

variable {s s' : KServerSession} {c : Call} {r q : RequestId} {t : ThreadId}

theorem Call.held_of_unanswered (hc : c.unanswered = some r) : c.held = some r := by
  cases c with
  | clientClosedAnswer q curRequest prev =>
    cases curRequest with
    | true => simp [Call.unanswered] at hc
    | false => exact hc
  | _ => first | exact hc | simp [Call.unanswered] at hc

/-- A call reads the received requests, the current one, their threads, the thread of the request that
`OnClientClosed` has taken, and the two phases. -/
theorem CallOk.congr (h : CallOk s c) (hcurrent : s'.currentRequest = s.currentRequest) (hrec : s'.received = s.received)
    (hthread : ∀ q, q ∈ s.received ∨ s.currentRequest = some q ∨ s.clientPhase = .running →
      s'.requestThread q = s.requestThread q)
    (hclient : s.clientPhase = .running → s'.clientPhase = .running)
    (hserver : s.serverPhase = .running → s'.serverPhase = .running) : CallOk s' c := by
  cases c with
  | clientClosedAnswer r curRequest prev => cases curRequest <;> grind [CallOk]
  | _ => grind [CallOk]

theorem ClosesOk.congr (h : ClosesOk s) (hlist : s'.requestList ⊆ s.requestList) (hstate : s'.state = s.state)
    (hclient : s'.clientPhase = s.clientPhase) (hserver : s'.serverPhase = s.serverPhase)
    (hwaiting : ∀ t, s.waiting t = none → s'.waiting t = none) : ClosesOk s' := by
  obtain ⟨h1, h2, h3, h4, h5, h6⟩ := h
  have hclosing : s'.ServerClosing ↔ s.ServerClosing := by
    unfold ServerClosing
    rw [hserver]
  refine ⟨fun hphase t => hwaiting t (h1 (hclient ▸ hphase) t), ?_, ?_, ?_, ?_, fun hphase => ?_⟩
  · rwa [hclosing, hserver, hstate]
  · rwa [hclosing, hstate]
  · rwa [hclient, hstate]
  · rwa [hclient, hclosing]
  · rw [hclosing]
    refine (h6 (hclient ▸ hphase)).imp_left fun hnil => ?_
    rw [hnil] at hlist
    exact List.subset_nil.mp hlist

theorem PendingOk.congr (h : PendingOk s r) (hanswers : s'.answers r = s.answers r)
    (hthread : s'.requestThread r = s.requestThread r) (hevent : s'.requestEvent r = s.requestEvent r)
    (hclient : s'.client = s.client) (hasync : s'.isAsync = s.isAsync)
    (hterm : s'.isTerminationRequested = s.isTerminationRequested) (hwaiting : s'.waiting = s.waiting) : PendingOk s' r := by
  obtain ⟨h1, h2, h3⟩ := h
  exact ⟨by rw [hanswers, h1], by rwa [hthread, hevent, hclient, hasync, hterm], by rwa [hclient, hasync, hterm, hwaiting]⟩

theorem held_of_call (hc : s.call = some c) : s.held = c.held := by rw [held, hc]; rfl

theorem unanswered_of_call (hc : s.call = some c) : s.unanswered = c.unanswered := by rw [unanswered, hc]; rfl

theorem prev_of_call (hc : s.call = some c) : s.prev = c.prev := by rw [prev, hc]; rfl

/-- The received requests are not in the list. -/
theorem Inv.received (h : Inv s) (hr : r ∈ s.received) : r ∈ s.accepted ∧ r ∉ s.requestList := by
  obtain ⟨popped, heq, hsub⟩ := h.order
  have hmem := hsub.subset hr
  have hnodup := h.nodup
  rw [heq] at hnodup ⊢
  exact ⟨List.mem_append_left _ hmem, fun hl => (List.nodup_append.mp hnodup).2.2 r hmem r hl rfl⟩

theorem Inv.mem_of_list (h : Inv s) (hr : r ∈ s.requestList) : r ∈ s.accepted := by
  obtain ⟨popped, heq, -⟩ := h.order
  rw [heq]
  exact List.mem_append_right _ hr

theorem Inv.mem_accepted (h : Inv s) (hr : s.Unanswered r) : r ∈ s.accepted := by
  rcases hr with hr | hr | hr
  · exact h.mem_of_list hr
  · exact (h.received (h.current r hr)).1
  · obtain ⟨c, hc, hun⟩ := Option.bind_eq_some_iff.mp hr
    exact (h.held r (by rw [held_of_call hc, Call.held_of_unanswered hun])).1

/-! ### Moves of a request -/

/-- A request moves between the list, the current request and the hand of the call, and nothing else changes. -/
theorem Inv.move (h : Inv s) {requestList received : List RequestId} {currentRequest : Option RequestId}
    {call : Option Call} (hs : s' = { s with requestList, received, currentRequest, call })
    (horder : ∃ popped, s.accepted = popped ++ requestList ∧ received.Sublist popped)
    (hcurrent : ∀ r, currentRequest = some r → r ∈ received)
    (hheld : ∀ r, s'.held = some r → r ∈ s.accepted ∧ r ∉ requestList) (hcall : ∀ c, call = some c → CallOk s' c)
    (hun : ∀ r, s'.Unanswered r ↔ s.Unanswered r)
    (hcleared : ∀ r, currentRequest = some r → s.requestThread r = none → s.clientPhase = .finished ∨ s'.prev = some r)
    (hrefs : ∀ r, s'.references r = s.references r) (hlist : requestList ⊆ s.requestList)
    (hfinished : s.serverPhase = .finished → currentRequest = none ∧ s'.held = none) : Inv s' := by
  subst hs
  refine ⟨horder, h.nodup, h.fresh, hcurrent, hheld, hcall, fun r hr => ?_, fun r hr hn => ?_,
    fun r hr => h.listed r (hlist hr), hcleared, fun r => ?_, h.closes.congr hlist rfl rfl rfl fun _ => id, fun hf => ?_⟩
  · obtain ⟨h1, h2, h3⟩ := h.pending r ((hun r).mp hr)
    exact ⟨h1, h2, h3⟩
  · exact h.settled r hr (mt (hun r).mpr hn)
  · rw [hrefs]
    exact h.references r
  · have hnil := (h.finished hf).1
    rw [hnil] at hlist
    exact ⟨List.subset_nil.mp hlist, hfinished hf⟩

/-! ### Answers -/

/-- The call is done with the request in its hand, which has an answer then or a client that is
terminating. -/
theorem Inv.settle (h : Inv s) (hc : s.call = some c) (hun : c.unanswered = some r) (hnot : s.currentRequest ≠ some r)
    (answers : RequestId → List Answer) (waiting : ThreadId → Option RequestId) {c' : Call}
    (hs : s' = { s with answers, waiting, call := some c' }) (hsame : ∀ q, q ≠ r → answers q = s.answers q)
    (hdone : (answers r).length = 1 ∨ answers r = [] ∧ s.isTerminationRequested (s.client r) = true)
    (hnone : ∀ t, s.waiting t = none → waiting t = none)
    (hwaits : ∀ q, q ≠ r → s.isAsync q = false → s.waiting (s.client q) = some q → waiting (s.client q) = some q)
    (hun' : c'.unanswered = none) (hheld' : c'.held = c.held) (hprev' : c'.prev = c.prev) (hcall : CallOk s c') :
    Inv s' := by
  have hheld : s.held = some r := by rw [held_of_call hc, Call.held_of_unanswered hun]
  have hsheld : s'.held = s.held := by rw [hs, held_of_call hc, held_of_call rfl, hheld']
  have hunans : ∀ q, s'.Unanswered q ↔ s.Unanswered q ∧ q ≠ r := by
    intro q
    unfold Unanswered
    rw [unanswered_of_call hc, hun, hs, unanswered_of_call rfl, hun']
    constructor
    · rintro (hq | hq | hq)
      · exact ⟨.inl hq, fun hqr => (h.held r hheld).2 (hqr ▸ hq)⟩
      · exact ⟨.inr (.inl hq), fun hqr => hnot (hqr ▸ hq)⟩
      · exact absurd hq.symm (Option.some_ne_none q)
    · rintro ⟨hq | hq | hq, hne⟩
      · exact .inl hq
      · exact .inr (.inl hq)
      · exact absurd (Option.some.inj hq).symm hne
  have hrefs : ∀ q, s'.references q = s.references q := by
    intro q
    unfold KServerSession.references
    rw [hsheld, hs]
  have hraccepted : r ∈ s.accepted := (h.held r hheld).1
  refine ⟨?_, ?_, fun q hq => ?_, ?_, ?_, ?_, fun q hq => ?_, fun q hq hn => ?_, ?_, ?_, fun q => ?_, ?_, ?_⟩
  · rw [hs]; exact h.order
  · rw [hs]; exact h.nodup
  · rw [hs] at hq ⊢
    exact (hsame q fun hqr => hq (hqr ▸ hraccepted)).trans (h.fresh q hq)
  · rw [hs]; exact h.current
  · rw [hsheld, hs]; exact h.held
  · rw [hs]
    rintro d hd
    cases hd
    exact hcall.congr rfl rfl (fun _ _ => rfl) id id
  · obtain ⟨hq, hne⟩ := (hunans q).mp hq
    obtain ⟨h1, h2, h3⟩ := h.pending q hq
    rw [hs]
    exact ⟨(hsame q hne).trans h1, h2, fun hasync hterm => hwaits q hne hasync (h3 hasync hterm)⟩
  · rw [hs] at hq ⊢
    by_cases hqr : q = r
    · rw [hqr]
      exact hdone
    · unfold SettledOk
      dsimp only
      rw [hsame q hqr]
      exact h.settled q hq fun hu => hn ((hunans q).mpr ⟨hu, hqr⟩)
  · rw [hs]; exact h.listed
  · intro q hq hn
    rw [prev, hs, Option.bind_some, hprev', ← prev_of_call hc]
    rw [hs] at hq hn
    exact h.cleared q hq hn
  · rw [hrefs, hs]
    exact h.references q
  · rw [hs]
    exact h.closes.congr (List.Subset.refl _) rfl rfl rfl hnone
  · rw [hsheld, hs]; exact h.finished

theorem Inv.reply (h : Inv s) (hc : s.call = some c) (hun : c.unanswered = some r) (hnot : s.currentRequest ≠ some r)
    (ht : s.requestThread r = some t) (error : Option IpcResult) (result : IpcResult) {c' : Call}
    (hun' : c'.unanswered = none) (hheld' : c'.held = c.held) (hprev' : c'.prev = c.prev) (hcall : CallOk s c') :
    Inv ((s.replyTo r t error result).goTo c') := by
  obtain ⟨hanswers, hthread, hwaits⟩ := h.pending r (.inr (.inr ((unanswered_of_call hc).trans hun)))
  have hthread : t = s.client r ∧ s.requestEvent r = s.isAsync r := by
    rcases hthread with ⟨hr, he⟩ | ⟨hr, -⟩
    · exact ⟨Option.some.inj (ht.symm.trans hr), he⟩
    · exact absurd (ht.symm.trans hr) (Option.some_ne_none t)
  obtain ⟨rfl, hevent⟩ := hthread
  have hlen : ∀ a, (update s.answers r (s.answers r ++ [a]) r).length = 1 := by
    intro a
    rw [update_self, hanswers]
    rfl
  unfold replyTo
  by_cases he : s.requestEvent r = true
  · rw [if_pos he]
    exact h.settle hc hun hnot (update s.answers r (s.answers r ++ [.signal error])) s.waiting rfl
      (fun q hq => update_of_ne hq _ _) (.inl (hlen _)) (fun _ => id) (fun _ _ _ => id) hun' hheld' hprev' hcall
  · rw [if_neg he]
    by_cases hterm : s.isTerminationRequested (s.client r) = true
    · rw [if_pos hterm]
      exact h.settle hc hun hnot s.answers s.waiting rfl (fun _ _ => rfl) (.inr ⟨hanswers, hterm⟩) (fun _ => id) (fun _ _ _ => id) hun' hheld'
        hprev' hcall
    · rw [if_neg hterm]
      have hwait : s.waiting (s.client r) = some r := by
        rw [hevent] at he
        exact hwaits (by simpa using he) (by simpa using hterm)
      have hend : s.endWait (s.client r) result =
          { s with waiting := update s.waiting (s.client r) none }.answer r (.endWait result) := by
        rw [endWait, hwait]
      rw [hend]
      refine h.settle hc hun hnot (update s.answers r (s.answers r ++ [.endWait result]))
        (update s.waiting (s.client r) none) rfl (fun q hq => update_of_ne hq _ _)
        (.inl (hlen _)) (fun u hu => ?_) (fun q hq _ hw => ?_) hun' hheld' hprev' hcall
      · by_cases hur : u = s.client r
        · rw [hur, update_self]
        · rw [update_of_ne hur, hu]
      · have hne : s.client q ≠ s.client r := by
          intro heq
          rw [heq, hwait] at hw
          exact hq (Option.some.inj hw).symm
        rw [update_of_ne hne, hw]

/-! ### References -/

/-- A call at a place without a request in its hand, after a call that had answered its own, closes the reference. -/
theorem Inv.close (h : Inv s) (hc : s.call = some c) (hheld : c.held = some r) (hun : c.unanswered = none)
    {call : Option Call} (hheld' : call.bind Call.held = none) (hun' : call.bind Call.unanswered = none)
    (hprev' : call.bind Call.prev = c.prev) (hcall : ∀ c, call = some c → CallOk { s.closeRequest r with call } c) :
    Inv { s.closeRequest r with call } := by
  have hsheld : s.held = some r := (held_of_call hc).trans hheld
  have hunans : ∀ q, Unanswered { s.closeRequest r with call } q ↔ s.Unanswered q := by
    intro q
    unfold Unanswered
    rw [unanswered_of_call hc, hun, unanswered, hun']
    exact Iff.rfl
  refine ⟨h.order, h.nodup, h.fresh, h.current, fun q hq => ?_, hcall, fun q hq => ?_, fun q hq hn => ?_, h.listed,
    fun q hq hn => ?_, fun q => ?_, h.closes.congr (List.Subset.refl _) rfl rfl rfl fun _ => id, fun hf => ?_⟩
  · rw [KServerSession.held, hheld'] at hq
    cases hq
  · obtain ⟨h1, h2, h3⟩ := h.pending q ((hunans q).mp hq)
    exact ⟨h1, h2, h3⟩
  · exact h.settled q hq (mt (hunans q).mpr hn)
  · rw [prev, hprev', ← prev_of_call hc]
    exact h.cleared q hq hn
  · have hrefs := h.references q
    unfold KServerSession.references at hrefs ⊢
    rw [hsheld] at hrefs
    rw [KServerSession.held, hheld']
    by_cases hqr : q = r
    · subst hqr
      rw [closeRequest]
      dsimp only
      rw [update_self]
      simp only [if_true, reduceCtorEq, if_false] at hrefs ⊢
      omega
    · rw [closeRequest]
      dsimp only
      rw [update_of_ne hqr]
      rw [if_neg (fun heq => hqr (Option.some.inj heq).symm)] at hrefs
      simpa using hrefs
  · obtain ⟨hl, hcur, -⟩ := h.finished hf
    exact ⟨hl, hcur, hheld'⟩

end KServerSession
end Kernel
end Citron
