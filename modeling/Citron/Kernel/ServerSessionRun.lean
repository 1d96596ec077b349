/-
# The runs of a server session

Each step of a call, and each step of the threads and of the closes around it, keeps the
invariant, so it holds after any interleaving.
-/
import Citron.Kernel.ServerSession

namespace Citron
namespace Kernel
namespace KServerSession

open List Function Option

variable {s s' : KServerSession} {c : Call} {r q : RequestId} {t : ThreadId} {result mapResult : IpcResult}

/-! ### Calls that keep the requests in their places -/

/-- The call goes on, or leaves the lock, with the same request in its hand. -/
theorem Inv.stay (h : Inv s) (hc : s.call = some c) {call : Option Call} (hheld : call.bind Call.held = c.held)
    (hun : call.bind Call.unanswered = c.unanswered) (hprev : call.bind Call.prev = c.prev)
    (hcall : ∀ d, call = some d → CallOk { s with call := call } d) : Inv { s with call := call } := by
  have hheld' : KServerSession.held { s with call := call } = s.held := hheld.trans (held_of_call hc).symm
  refine h.move rfl h.order h.current (fun r hr => h.held r (hheld' ▸ hr)) hcall (fun r => ?_) (fun r hr hn => ?_)
    (fun r => ?_) (fun _ => id) (fun hf => ?_)
  · unfold Unanswered
    rw [unanswered_of_call hc, unanswered, hun]
  · rw [prev, hprev, ← prev_of_call hc]
    exact h.cleared r hr hn
  · unfold KServerSession.references
    rw [hheld']
  · rw [hheld']
    exact (h.finished hf).2

variable {d : Call}

theorem Inv.goTo (h : Inv s) (hc : s.call = some c) (hheld : d.held = c.held)
    (hun : d.unanswered = c.unanswered) (hprev : d.prev = c.prev) (hcall : CallOk (s.goTo d) d) : Inv (s.goTo d) :=
  h.stay hc hheld hun hprev fun _ he => Option.some.inj he ▸ hcall

theorem Inv.unlock (h : Inv s) (hc : s.call = some c) (hheld : c.held = none) (hun : c.unanswered = none)
    (hprev : c.prev = none) : Inv s.unlock :=
  h.stay hc hheld.symm hun.symm hprev.symm fun _ he => nomatch he

/-! ### Calls that move a request -/

section

variable (h : Inv s) (hc : s.call = some c)
include h hc

/-- The call takes the first request of the list. -/
theorem Inv.pop {rs : List RequestId} (hlist : s.requestList = r :: rs)
    (hcheld : c.held = none) (hcun : c.unanswered = none) {received : List RequestId}
    (hs : s' = { s with requestList := rs, received, call := some d })
    (hrec : received = s.received ∨ received = s.received ++ [r]) (hheld : d.held = some r)
    (hun : d.unanswered = some r) (hprev : d.prev = c.prev) (hcall : CallOk s' d) : Inv s' := by
  obtain ⟨popped, heq, hsub⟩ := h.order
  have hrlist : r ∈ s.requestList := hlist ▸ mem_cons_self
  have hnodup : (r :: rs).Nodup := by
    rw [← hlist]
    exact (nodup_append.mp (heq ▸ h.nodup)).2.1
  have hsheld : s'.held = some r := by rw [hs, ← hheld]; rfl
  have hcnone : s.held = none := (held_of_call hc).trans hcheld
  refine h.move hs ⟨popped ++ [r], ?_, ?_⟩ (fun q hq => ?_) (fun q hq => ?_) (fun e he => ?_) (fun q => ?_)
    (fun q hq hn => ?_) (fun q => ?_) (hlist ▸ subset_cons_self r rs) (fun hf => ?_)
  · rw [heq, hlist, append_assoc, singleton_append]
  · rcases hrec with hrec | hrec <;> rw [hrec]
    · exact hsub.trans (sublist_append_left _ _)
    · exact hsub.append (List.Sublist.refl _)
  · rcases hrec with hrec | hrec <;> rw [hrec]
    · exact h.current q hq
    · exact mem_append_left _ (h.current q hq)
  · rw [hsheld] at hq
    cases hq
    exact ⟨h.mem_of_list hrlist, (nodup_cons.mp hnodup).1⟩
  · cases he
    exact hcall
  · unfold Unanswered
    rw [unanswered_of_call hc, hcun, hs, unanswered_of_call rfl, hun, hlist, mem_cons]
    have hqr : some r = some q ↔ q = r := ⟨fun he => (Option.some.inj he).symm, fun he => he ▸ rfl⟩
    rw [hqr]
    tauto
  · rw [hs, prev_of_call rfl, hprev, ← prev_of_call hc]
    exact h.cleared q hq hn
  · unfold KServerSession.references
    rw [hsheld, hcnone, hlist, hs]
    by_cases hqr : r = q
    · subst hqr
      simp only [count_cons_self, if_true, reduceCtorEq, if_false]
      omega
    · rw [count_cons_of_ne hqr, if_neg (fun he => hqr (Option.some.inj he)), if_neg (some_ne_none q).symm]
  · have hnil := (h.finished hf).1
    rw [hnil] at hlist
    cases hlist

/-- The call makes the request in its hand the current one. -/
theorem Inv.setCurrent (hnone : s.currentRequest = none) (hcheld : c.held = some r)
    (hcun : c.unanswered = some r) (hrec : r ∈ s.received) (ht : s.requestThread r = some t)
    (hheld : d.held = none) (hun : d.unanswered = none) (hcall : CallOk { s with currentRequest := some r } d) :
    Inv ({ s with currentRequest := some r }.goTo d) := by
  have hsheld : s.held = some r := (held_of_call hc).trans hcheld
  refine h.move rfl h.order (fun q hq => ?_) (fun q hq => ?_) (fun e he => ?_) (fun q => ?_) (fun q hq hn => ?_)
    (fun q => ?_) (fun _ => id) (fun hf => ?_)
  · cases hq
    exact hrec
  · rw [held_of_call rfl, hheld] at hq
    cases hq
  · cases he
    exact hcall.congr rfl rfl (fun _ _ => rfl) id id
  · unfold Unanswered
    rw [unanswered_of_call hc, hcun, unanswered_of_call rfl, hun, hnone]
    simp only [KServerSession.goTo, reduceCtorEq, or_false, false_or]
  · cases hq
    cases ht.symm.trans hn
  · unfold KServerSession.references
    rw [held_of_call rfl, hheld, hsheld, hnone, if_neg (some_ne_none q).symm, Nat.add_right_comm]
    rfl
  · rw [(h.finished hf).2.2] at hsheld
    cases hsheld

/-- The call takes the current request. -/
theorem Inv.takeCurrent (hcur : s.currentRequest = some r) (hcheld : c.held = none)
    (hcun : c.unanswered = none) (hheld : d.held = some r) (hun : d.unanswered = some r)
    (hcall : CallOk { s with currentRequest := none } d) :
    Inv ({ s with currentRequest := none }.goTo d) := by
  have hsheld : s.held = none := (held_of_call hc).trans hcheld
  refine h.move rfl h.order (fun q hq => nomatch hq) (fun q hq => ?_) (fun e he => ?_) (fun q => ?_)
    (fun q hq => nomatch hq) (fun q => ?_) (fun _ => id) (fun hf => ?_)
  · rw [held_of_call rfl, hheld] at hq
    cases hq
    exact h.received (h.current r hcur)
  · cases he
    exact hcall.congr rfl rfl (fun _ _ => rfl) id id
  · unfold Unanswered
    rw [unanswered_of_call hc, hcun, unanswered_of_call rfl, hun, hcur]
    simp only [KServerSession.goTo, reduceCtorEq, or_false, false_or]
  · unfold KServerSession.references
    rw [held_of_call rfl, hheld, hsheld, hcur, if_neg (some_ne_none q).symm, Nat.add_right_comm]
    rfl
  · rw [(h.finished hf).2.1] at hcur
    cases hcur

/-- A request without a thread is not answered: its client is terminating. -/
theorem Inv.skip (hun : c.unanswered = some r) (hnot : s.currentRequest ≠ some r)
    (hterm : s.isTerminationRequested (s.client r) = true) (hun' : d.unanswered = none)
    (hheld' : d.held = c.held) (hprev' : d.prev = c.prev) (hcall : CallOk s d) : Inv (s.goTo d) :=
  have hpending := h.pending r (.inr (.inr ((unanswered_of_call hc).trans hun)))
  h.settle hc hun hnot s.answers s.waiting rfl (fun _ _ => rfl) (.inr ⟨hpending.answers, hterm⟩) (fun _ => id) (fun _ _ _ => id) hun' hheld'
    hprev' hcall

end

theorem Inv.terminating (h : Inv s) (hr : s.Unanswered r) (ht : s.requestThread r = none) :
    s.isTerminationRequested (s.client r) = true := by
  rcases (h.pending r hr).thread with ⟨hsome, -⟩ | ⟨-, -, hterm⟩
  · exact absurd (ht.symm.trans hsome) nofun
  · exact hterm

/-- The call answers the request in its hand, if its thread is still there. -/
theorem Inv.replyOrSkip (h : Inv s) (hc : s.call = some c) (hun : c.unanswered = some r)
    (hnone : s.currentRequest = none) (error : Option IpcResult) (result : IpcResult)
    (hun' : d.unanswered = none) (hheld' : d.held = c.held) (hprev' : d.prev = c.prev) (hcall : CallOk s d) :
    Inv (match s.requestThread r with
      | some t => (s.replyTo r t error result).goTo d
      | none => s.goTo d) := by
  have hnot : s.currentRequest ≠ some r := by rw [hnone]; nofun
  cases ht : s.requestThread r with
  | some t => exact h.reply hc hun hnot ht error result hun' hheld' hprev' hcall
  | none =>
    have hunans : s.Unanswered r := .inr (.inr ((unanswered_of_call hc).trans hun))
    exact h.skip hc hun hnot (h.terminating hunans ht) hun' hheld' hprev' hcall

/-! ### The steps of the calls -/

theorem Inv.isSome_of_list (h : Inv s) {rs : List RequestId} (hlist : s.requestList = r :: rs) :
    ∃ t, s.requestThread r = some t :=
  ne_none_iff_exists'.mp (h.listed r (hlist ▸ mem_cons_self))

theorem Inv.advanceReceive (h : Inv s) (hc : s.call = some c) (hs : s.advanceReceive result c = some s') : Inv s' := by
  have hcall := h.call c hc
  cases c with
  | receiveRequest isHle =>
    simp only [KServerSession.advanceReceive] at hs
    by_cases hclosed : s.isClosed = true
    · rw [if_pos hclosed] at hs
      exact Option.some.inj hs ▸ h.unlock hc rfl rfl rfl
    · rw [if_neg hclosed] at hs
      by_cases hcur : s.currentRequest.isSome = true
      · rw [if_pos hcur] at hs
        exact Option.some.inj hs ▸ h.unlock hc rfl rfl rfl
      · rw [if_neg hcur] at hs
        cases hlist : s.requestList with
        | nil =>
          rw [hlist] at hs
          exact Option.some.inj hs ▸ h.unlock hc rfl rfl rfl
        | cons r rs =>
          obtain ⟨t, ht⟩ := h.isSome_of_list hlist
          rw [hlist] at hs
          dsimp only at hs
          rw [ht] at hs
          have hnone : s.currentRequest = none := not_isSome_iff_eq_none.mp hcur
          exact h.pop hc hlist rfl rfl (Option.some.inj hs).symm (.inr rfl) rfl rfl rfl
            (Option.some.inj hs ▸ ⟨hnone, mem_append_right _ (mem_singleton_self r), ht⟩)
  | receivePopped isHle r t =>
    obtain ⟨hnone, hrec, ht⟩ := hcall
    exact Option.some.inj hs ▸ h.setCurrent hc hnone rfl rfl hrec ht rfl rfl ⟨rfl, ht⟩
  | receiveMessage isHle r t =>
    simp only [KServerSession.advanceReceive] at hs
    by_cases hok : (isHle || result.succeeded) = true
    · rw [if_pos hok] at hs
      exact Option.some.inj hs ▸ h.unlock hc rfl rfl rfl
    · rw [if_neg hok] at hs
      exact Option.some.inj hs ▸ h.goTo hc rfl rfl rfl hcall
  | receiveFailed r t result' =>
    obtain ⟨hcur, ht⟩ := hcall
    exact Option.some.inj hs ▸ h.takeCurrent hc hcur rfl rfl rfl rfl ⟨rfl, h.current r hcur, ht⟩
  | receiveReply r t result' =>
    obtain ⟨hnone, hrec, ht⟩ := hcall
    have hnot : s.currentRequest ≠ some r := by rw [hnone]; nofun
    exact Option.some.inj hs ▸ h.reply hc rfl hnot ht _ _ rfl rfl rfl ⟨hnone, hrec⟩
  | receiveClose r => exact Option.some.inj hs ▸ h.close hc rfl rfl rfl rfl rfl nofun
  | _ => cases hs

theorem Inv.advanceSend (h : Inv s) (hc : s.call = some c) (hs : s.advanceSend result mapResult c = some s') :
    Inv s' := by
  have hcall := h.call c hc
  cases c with
  | sendReply isHle =>
    cases hcur : s.currentRequest with
    | none =>
      simp only [KServerSession.advanceSend, hcur] at hs
      exact Option.some.inj hs ▸ h.unlock hc rfl rfl rfl
    | some r =>
      simp only [KServerSession.advanceSend, hcur] at hs
      exact Option.some.inj hs ▸ h.takeCurrent hc hcur rfl rfl rfl rfl ⟨rfl, h.current r hcur⟩
  | sendMessage isHle r => exact Option.some.inj hs ▸ h.goTo hc rfl rfl rfl hcall
  | sendAnswer r clientResult =>
    have hreply := h.replyOrSkip hc rfl hcall.1 (if clientResult.succeeded then none else some clientResult) clientResult
      (d := .sendClose r) rfl rfl rfl hcall
    simp only [KServerSession.advanceSend] at hs
    cases ht : s.requestThread r with
    | none => rw [ht] at hs hreply; exact Option.some.inj hs ▸ hreply
    | some t => rw [ht] at hs hreply; exact Option.some.inj hs ▸ hreply
  | sendClose r => exact Option.some.inj hs ▸ h.close hc rfl rfl rfl rfl rfl nofun
  | _ => cases hs

/-- The server's close is finished when no request is left. -/
theorem Inv.finishServer (h : Inv s) (hc : s.call = some .cleanupRequests) (hlist : s.requestList = [])
    (hcur : s.currentRequest = none) : Inv { s with serverPhase := .finished }.unlock := by
  have hcall : s.serverPhase = .running := h.call _ hc
  have hunlock := h.unlock hc rfl rfl rfl
  have hclosing : s.ServerClosing := .inr (.inl hcall)
  have hcloses : ClosesOk { s with serverPhase := .finished } :=
    ⟨h.closes.noWaiters, fun _ => h.closes.serverPhase (.inr hclosing), fun _ => .inr (.inr rfl), h.closes.clientClosed,
      fun _ => .inr (.inr rfl), fun _ => .inl hlist⟩
  exact ⟨hunlock.order, hunlock.nodup, hunlock.fresh, hunlock.current, hunlock.held, nofun,
    fun r hr => (hunlock.pending r hr).congr rfl rfl rfl rfl rfl rfl rfl, hunlock.settled, hunlock.listed, hunlock.cleared,
    hunlock.references, hcloses.congr (List.Subset.refl _) rfl rfl rfl fun _ => id, fun _ => ⟨hlist, hcur, rfl⟩⟩

theorem Inv.advanceCleanup (h : Inv s) (hc : s.call = some c) (hs : s.advanceCleanup mapResult c = some s') :
    Inv s' := by
  have hcall := h.call c hc
  cases c with
  | cleanupRequests =>
    cases hcur : s.currentRequest with
    | some r =>
      simp only [KServerSession.advanceCleanup, hcur] at hs
      exact Option.some.inj hs ▸ h.takeCurrent hc hcur rfl rfl rfl rfl ⟨rfl, hcall⟩
    | none =>
      cases hlist : s.requestList with
      | cons r rs =>
        simp only [KServerSession.advanceCleanup, hcur, hlist] at hs
        rw [← hcur] at hs
        exact h.pop hc hlist rfl rfl (Option.some.inj hs).symm (.inl rfl) rfl rfl rfl (Option.some.inj hs ▸ ⟨hcur, hcall⟩)
      | nil =>
        simp only [KServerSession.advanceCleanup, hcur, hlist] at hs
        have hfinish := h.finishServer hc hlist hcur
        rw [← Option.some.inj hs]
        rwa [hcur, hlist] at hfinish
  | cleanupAnswer r =>
    have hreply := h.replyOrSkip hc rfl hcall.1 (some (if mapResult.succeeded then .sessionClosed else mapResult))
      .sessionClosed (d := .cleanupClose r) rfl rfl rfl hcall
    simp only [KServerSession.advanceCleanup] at hs
    cases ht : s.requestThread r with
    | none => rw [ht] at hs hreply; exact Option.some.inj hs ▸ hreply
    | some t => rw [ht] at hs hreply; exact Option.some.inj hs ▸ hreply
  | cleanupClose r =>
    exact Option.some.inj hs ▸ h.close hc rfl rfl rfl rfl rfl fun _ he => Option.some.inj he ▸ hcall.2
  | _ => cases hs

variable {prevRequest : Option RequestId}

section

variable (h : Inv s) (hc : s.call = some (.onClientClosed prevRequest))
include h hc

/-- `OnClientClosed` is finished when no request is left in the list. -/
theorem Inv.finishClient (hlist : s.requestList = []) : Inv { s with clientPhase := .finished }.unlock := by
  have hcall : s.clientPhase = .running := h.call _ hc
  have hheld : s.held = none := held_of_call hc
  have hun : ∀ r, Unanswered { s with clientPhase := .finished }.unlock r ↔ s.Unanswered r := by
    intro r
    unfold Unanswered
    rw [unanswered_of_call hc]
    exact Iff.rfl
  have hcloses : ClosesOk { s with clientPhase := .finished } :=
    ⟨fun _ => h.closes.noWaiters (by rw [hcall]; nofun), h.closes.serverPhase, h.closes.serverClosed,
      fun _ => ⟨nofun, nofun⟩, nofun, fun _ => .inl hlist⟩
  refine ⟨h.order, h.nodup, h.fresh, h.current, nofun, nofun, fun r hr => ?_, fun r hr hn => ?_, h.listed,
    fun _ _ _ => .inl rfl, fun r => ?_, hcloses.congr (List.Subset.refl _) rfl rfl rfl fun _ => id, fun hf => ?_⟩
  · exact (h.pending r ((hun r).mp hr)).congr rfl rfl rfl rfl rfl rfl rfl
  · exact h.settled r hr (mt (hun r).mpr hn)
  · have hrefs := h.references r
    unfold KServerSession.references at hrefs
    rw [hheld] at hrefs
    exact hrefs
  · obtain ⟨hlist, hcur, -⟩ := h.finished hf
    exact ⟨hlist, hcur, rfl⟩

/-- `OnClientClosed` takes the first request of the list, or is finished. -/
theorem Inv.popOnClientClosed :
    Inv (s.popOnClientClosed prevRequest) := by
  have hcall : s.clientPhase = .running := h.call _ hc
  unfold KServerSession.popOnClientClosed
  cases hlist : s.requestList with
  | cons r rs =>
    have hr : r ∈ s.requestList := hlist ▸ mem_cons_self
    exact h.pop hc hlist rfl rfl rfl (.inl rfl) rfl rfl rfl ⟨hcall, fun hrec => (h.received hrec).2 hr, h.listed r hr⟩
  | nil =>
    have hfinish := h.finishClient hc hlist
    rwa [hlist] at hfinish

/-- `OnClientClosed` opens the current request, and takes the thread and the event from it when the
thread is terminating. -/
theorem Inv.openCurrent
    (hcur : s.currentRequest = some r) (ht : s.requestThread r = some t) {requestThread : RequestId → Option ThreadId}
    {requestEvent : RequestId → Bool}
    (hs : s' = { s.openRequest r with requestThread, requestEvent, call := some (.clientClosedAnswer r true (some r)) })
    (hsame : ∀ q, q ≠ r → requestThread q = s.requestThread q ∧ requestEvent q = s.requestEvent q)
    (hclear : requestThread r = s.requestThread r ∧ requestEvent r = s.requestEvent r ∨
      requestThread r = none ∧ requestEvent r = false ∧ s.isTerminationRequested t = true) : Inv s' := by
  have hcall : s.clientPhase = .running := h.call _ hc
  have hheld : s.held = none := held_of_call hc
  have hrec := h.received (h.current r hcur)
  have hun : ∀ q, s'.Unanswered q ↔ s.Unanswered q := by
    intro q
    unfold Unanswered
    rw [unanswered_of_call hc, hs]
    exact Iff.rfl
  refine ⟨?_, ?_, ?_, ?_, fun q hq => ?_, fun e he => ?_, fun q hq => ?_, fun q hq hn => ?_, fun q hq => ?_,
    fun q hq _ => .inr ?_, fun q => ?_, ?_, fun hf => ?_⟩
  · rw [hs]; exact h.order
  · rw [hs]; exact h.nodup
  · rw [hs]; exact h.fresh
  · rw [hs]; exact h.current
  · rw [hs] at hq ⊢
    cases hq
    exact hrec
  · rw [hs] at he ⊢
    cases he
    exact ⟨hcall, hcur, rfl⟩
  · obtain ⟨hanswers, hthread, hwaits⟩ := h.pending q ((hun q).mp hq)
    rw [hs]
    refine ⟨hanswers, ?_, hwaits⟩
    by_cases hqr : q = r
    · subst hqr
      rcases hclear with ⟨h1, h2⟩ | ⟨h1, h2, hterm⟩
      · dsimp only
        rwa [h1, h2]
      · rcases hthread with ⟨hsome, -⟩ | ⟨hnone, -⟩
        · cases ht.symm.trans hsome
          exact .inr ⟨h1, h2, hterm⟩
        · cases ht.symm.trans hnone
    · dsimp only
      rwa [(hsame q hqr).1, (hsame q hqr).2]
  · rw [hs] at hq ⊢
    exact h.settled q hq (mt (hun q).mpr hn)
  · rw [hs] at hq ⊢
    have hqr : q ≠ r := fun heq => hrec.2 (heq ▸ hq)
    dsimp only
    rw [(hsame q hqr).1]
    exact h.listed q hq
  · rw [hs] at hq ⊢
    exact hcur.symm.trans hq
  · have hrefs := h.references q
    unfold KServerSession.references at hrefs ⊢
    rw [hheld, if_neg (some_ne_none q).symm] at hrefs
    rw [hs]
    change update s.opened r (s.opened r + 1) q = s.closed q + (s.requestList.count q +
      (if s.currentRequest = some q then 1 else 0) + if some r = some q then 1 else 0)
    by_cases hqr : q = r
    · subst hqr
      rw [update_self, if_pos rfl]
      omega
    · rw [update_of_ne hqr, if_neg fun heq => hqr (Option.some.inj heq).symm]
      exact hrefs
  · rw [hs]
    exact h.closes.congr (List.Subset.refl _) rfl rfl rfl fun _ => id
  · rw [hs] at hf
    cases hcur.symm.trans (h.finished hf).2.1

/-- The current request of a call to `OnClientClosed` that has not seen it has a thread. -/
theorem Inv.thread_of_current (hcur : s.currentRequest = some r) (hne : prevRequest ≠ some r) :
    ∃ t, s.requestThread r = some t := by
  have hcall : s.clientPhase = .running := h.call _ hc
  refine ne_none_iff_exists'.mp fun hnone => ?_
  rcases h.cleared r hcur hnone with hf | hp
  · rw [hcall] at hf
    cases hf
  · exact hne ((prev_of_call hc).symm.trans hp)

end

/-- The answer of `OnClientClosed` to a request of the list. A thread that waits is terminating. -/
theorem Inv.clientClosedAnswer (h : Inv s)
    (hc : s.call = some (.clientClosedAnswer r false prevRequest)) {answers : RequestId → List Answer}
    (hanswers : answers = if s.requestEvent r then
      update s.answers r (s.answers r ++ [.signal (some .sessionClosed)]) else s.answers) :
    Inv ({ s with answers }.goTo (.clientClosedClose r prevRequest)) := by
  obtain ⟨hphase, hrec, ht⟩ : s.clientPhase = .running ∧ r ∉ s.received ∧ s.requestThread r ≠ none := h.call _ hc
  have hnot : s.currentRequest ≠ some r := fun hcur => hrec (h.current r hcur)
  have hpending := h.pending r (.inr (.inr (unanswered_of_call hc)))
  have hevent : s.requestEvent r = s.isAsync r := hpending.thread.elim And.right fun hn => absurd hn.1 ht
  refine h.settle hc rfl hnot answers s.waiting rfl (fun q hq => ?_) ?_ (fun _ => id) (fun _ _ _ => id) rfl rfl rfl
    ⟨hphase, .inr hrec⟩
  · rw [hanswers]
    split_ifs with he
    · exact update_of_ne hq _ _
    · rfl
  · rw [hanswers]
    split_ifs with he
    · rw [update_self, hpending.answers]
      exact .inl rfl
    · refine .inr ⟨hpending.answers, ?_⟩
      by_contra hterm
      have hwait := hpending.waits (by rw [← hevent]; simpa using he) (by simpa using hterm)
      rw [h.closes.noWaiters (by rw [hphase]; nofun)] at hwait
      cases hwait

theorem Inv.advanceClientClosed (h : Inv s) (hc : s.call = some c) (hs : s.advanceClientClosed c = some s') : Inv s' := by
  have hcall := h.call c hc
  cases c with
  | onClientClosed prevRequest =>
    cases hcur : s.currentRequest with
    | none =>
      simp only [KServerSession.advanceClientClosed, hcur] at hs
      exact Option.some.inj hs ▸ h.popOnClientClosed hc
    | some r =>
      simp only [KServerSession.advanceClientClosed, hcur] at hs
      by_cases hprev : prevRequest = some r
      · rw [if_pos hprev] at hs
        exact Option.some.inj hs ▸ h.popOnClientClosed hc
      · rw [if_neg hprev] at hs
        obtain ⟨t, ht⟩ := h.thread_of_current hc hcur hprev
        rw [ht] at hs
        dsimp only at hs
        by_cases hterm : (s.openRequest r).isTerminationRequested t = true
        · rw [if_pos hterm] at hs
          exact h.openCurrent hc hcur ht (Option.some.inj hs).symm
            (fun q hq => ⟨update_of_ne hq _ _, update_of_ne hq _ _⟩)
            (.inr ⟨update_self _ _ _, update_self _ _ _, hterm⟩)
        · rw [if_neg hterm] at hs
          exact h.openCurrent hc hcur ht (Option.some.inj hs).symm (fun _ _ => ⟨rfl, rfl⟩) (.inl ⟨rfl, rfl⟩)
  | clientClosedAnswer r curRequest prevRequest =>
    cases curRequest with
    | true =>
      simp only [KServerSession.advanceClientClosed, Bool.not_true, Bool.and_false, Bool.false_eq_true, if_false] at hs
      exact Option.some.inj hs ▸ h.goTo hc rfl rfl rfl ⟨hcall.1, .inl hcall.2⟩
    | false =>
      have hanswer := h.clientClosedAnswer hc rfl
      simp only [KServerSession.advanceClientClosed, Bool.not_false, Bool.and_true] at hs
      rw [← Option.some.inj hs]
      by_cases he : s.requestEvent r = true
      · rw [if_pos he] at hanswer ⊢
        exact hanswer
      · rw [if_neg he] at hanswer ⊢
        exact hanswer
  | clientClosedClose r prevRequest =>
    exact Option.some.inj hs ▸ h.close hc rfl rfl rfl rfl rfl fun _ he => Option.some.inj he ▸ hcall.1
  | _ => cases hs

/-- A call keeps the invariant. -/
theorem Inv.advance (h : Inv s) (hc : s.call = some c) (hs : s.advance result mapResult c = some s') : Inv s' := by
  unfold KServerSession.advance at hs
  split at hs
  all_goals first
    | exact h.advanceReceive hc hs
    | exact h.advanceSend hc hs
    | exact h.advanceCleanup hc hs
    | exact h.advanceClientClosed hc hs

/-- A call always has a next step. -/
theorem Inv.advance_isSome (h : Inv s) (hc : s.call = some c) : (s.advance result mapResult c).isSome = true := by
  cases c with
  | onClientClosed prevRequest =>
    cases hcur : s.currentRequest with
    | none => simp [KServerSession.advance, KServerSession.advanceClientClosed, hcur]
    | some r =>
      by_cases hprev : prevRequest = some r
      · simp [KServerSession.advance, KServerSession.advanceClientClosed, hcur, hprev]
      · obtain ⟨t, ht⟩ := h.thread_of_current hc hcur hprev
        simp [KServerSession.advance, KServerSession.advanceClientClosed, hcur, hprev, ht]
  | _ =>
    simp only [KServerSession.advance, KServerSession.advanceReceive, KServerSession.advanceSend,
      KServerSession.advanceCleanup, KServerSession.advanceClientClosed]
    repeat' split
    all_goals rfl

/-! ### The steps of the threads and of the closes -/

variable {clientPhase serverPhase : ClosePhase}

/-- A close goes on, and a call takes the lock if it was free. -/
theorem Inv.enter (h : Inv s) {state : KSessionState} (call : Option Call)
    (hheld : call.bind Call.held = s.held) (hun : call.bind Call.unanswered = s.unanswered)
    (hprev : clientPhase ≠ .finished → s.prev = none ∨ call.bind Call.prev = s.prev)
    (hcall : ∀ c, call = some c → CallOk { s with state, clientPhase, serverPhase } c)
    (hcloses : ClosesOk { s with state, clientPhase, serverPhase }) (hclient : s.clientPhase = .finished → clientPhase = .finished)
    (hserver : serverPhase = .finished → s.serverPhase = .finished) :
    Inv { s with state, clientPhase, serverPhase, call } := by
  have hunans : ∀ r, Unanswered { s with state, clientPhase, serverPhase, call } r ↔ s.Unanswered r := by
    intro r
    unfold Unanswered
    rw [← hun]
    exact Iff.rfl
  refine ⟨h.order, h.nodup, h.fresh, h.current, fun r hr => h.held r (hheld ▸ hr), fun c hc => ?_, fun r hr => ?_,
    fun r hr hn => ?_, h.listed, fun r hr hn => ?_, fun r => ?_, hcloses.congr (List.Subset.refl _) rfl rfl rfl fun _ => id,
    fun hf => ?_⟩
  · exact (hcall c hc).congr rfl rfl (fun _ _ => rfl) id id
  · exact (h.pending r ((hunans r).mp hr)).congr rfl rfl rfl rfl rfl rfl rfl
  · exact h.settled r hr (mt (hunans r).mpr hn)
  · by_cases hf : clientPhase = .finished
    · exact .inl hf
    · rcases h.cleared r hr hn with hold | hold
      · exact .inl (hclient hold)
      · rcases hprev hf with hp | hp
        · cases hold.symm.trans hp
        · exact .inr (hp.trans hold)
  · have hrefs := h.references r
    unfold KServerSession.references at hrefs
    rw [← hheld] at hrefs
    exact hrefs
  · obtain ⟨hlist, hcur, hnone⟩ := h.finished (hserver hf)
    exact ⟨hlist, hcur, hheld.trans hnone⟩

theorem held_of_free (hfree : s.call = none) : s.held = none := by rw [held, hfree]; rfl

theorem unanswered_of_free (hfree : s.call = none) : s.unanswered = none := by rw [unanswered, hfree]; rfl

theorem prev_of_free (hfree : s.call = none) : s.prev = none := by rw [prev, hfree]; rfl

/-- A call of the server takes the lock. -/
theorem Inv.lock (h : Inv s) (hfree : s.call = none) (hheld : c.held = none) (hun : c.unanswered = none)
    (hcall : CallOk s c) : Inv (s.goTo c) :=
  h.enter (some c) (hheld.trans (held_of_free hfree).symm) (hun.trans (unanswered_of_free hfree).symm)
    (fun _ => .inl (prev_of_free hfree)) (fun _ he => Option.some.inj he ▸ hcall) h.closes id id

/-- A close goes on while any call may hold the lock. -/
theorem Inv.phase (h : Inv s) {state : KSessionState} (hcloses : ClosesOk { s with state, clientPhase, serverPhase })
    (hclient : clientPhase = s.clientPhase ∨ s.clientPhase ≠ .running ∧ s.clientPhase ≠ .finished)
    (hserver : serverPhase = s.serverPhase ∨ s.serverPhase ≠ .running ∧ serverPhase ≠ .finished) :
    Inv { s with state, clientPhase, serverPhase } := by
  refine h.enter s.call rfl rfl (fun _ => .inr rfl) (fun c hc => ?_) hcloses ?_ ?_
  · refine (h.call c hc).congr rfl rfl (fun _ _ => rfl) (fun hr => ?_) fun hr => ?_
    · rcases hclient with he | ⟨hne, -⟩
      · exact he.trans hr
      · exact absurd hr hne
    · rcases hserver with he | ⟨hne, -⟩
      · exact he.trans hr
      · exact absurd hr hne
  · intro hf
    rcases hclient with he | ⟨-, hne⟩
    · exact he.trans hf
    · exact absurd hf hne
  · intro hf
    rcases hserver with he | ⟨-, hne⟩
    · exact he ▸ hf
    · exact absurd hf hne

variable {waiting : ThreadId → Option RequestId}

/-- More threads terminate, and those may stop waiting. -/
theorem Inv.threads (h : Inv s) {isTerminationRequested : ThreadId → Bool}
    (hterm : ∀ t, s.isTerminationRequested t = true → isTerminationRequested t = true)
    (hwaits : ∀ t, isTerminationRequested t = false → waiting t = s.waiting t)
    (hnone : ∀ t, s.waiting t = none → waiting t = none) : Inv { s with isTerminationRequested, waiting } := by
  refine ⟨h.order, h.nodup, h.fresh, h.current, h.held, fun c hc => (h.call c hc).congr rfl rfl (fun _ _ => rfl) id id, fun r hr => ?_,
    fun r hr hn => ?_, h.listed, h.cleared, h.references, h.closes.congr (List.Subset.refl _) rfl rfl rfl hnone,
    h.finished⟩
  · obtain ⟨hanswers, hthread, hw⟩ := h.pending r hr
    refine ⟨hanswers, hthread.imp_right fun ⟨h1, h2, h3⟩ => ⟨h1, h2, hterm _ h3⟩, fun hasync hnot => ?_⟩
    dsimp only at hnot ⊢
    rw [hwaits _ hnot]
    refine hw hasync ?_
    by_contra hyes
    rw [hterm _ (by simpa using hyes)] at hnot
    cases hnot
  · exact (h.settled r hr hn).imp_right fun ⟨h1, h2⟩ => ⟨h1, hterm _ h2⟩

/-- A thread that does not wait adds a new request to an open session. -/
theorem Inv.accept (h : Inv s) (hstate : s.state = .normal) (halive : s.clientPhase = .alive) (hrun : s.waiting t = none)
    (hnew : r ∉ s.accepted) (isAsync : Bool)
    (hwaiting : waiting = if isAsync then s.waiting else update s.waiting t (some r))
    (hs : s' = { s.openRequest r with
      requestThread := update s.requestThread r (some t)
      requestEvent := update s.requestEvent r isAsync
      client := update s.client r t
      isAsync := update s.isAsync r isAsync
      requestList := s.requestList ++ [r]
      accepted := s.accepted ++ [r]
      waiting }) : Inv s' := by
  have hne : ∀ {q}, q ∈ s.accepted → q ≠ r := fun hq heq => hnew (heq ▸ hq)
  have hmem : ∀ {q}, q ∈ s.accepted ++ [r] → q ≠ r → q ∈ s.accepted := fun hq hqr =>
    (mem_append.mp hq).resolve_right fun he => hqr (mem_singleton.mp he)
  have hheld : s'.held = s.held := by rw [hs]; rfl
  have hunans : ∀ q, s'.Unanswered q ↔ s.Unanswered q ∨ q = r := by
    intro q
    rw [hs]
    change (q ∈ s.requestList ++ [r] ∨ s.currentRequest = some q ∨ s.unanswered = some q) ↔ _
    rw [mem_append, mem_singleton]
    unfold Unanswered
    tauto
  have hnotclosing : ¬ s.ServerClosing := fun hc => h.closes.serverPhase (.inr hc) hstate
  refine ⟨?_, ?_, fun q hq => ?_, ?_, fun q hq => ?_, fun c hc => ?_, fun q hq => ?_, fun q hq hn => ?_, fun q hq => ?_,
    fun q hq hn => ?_, fun q => ?_, ?_, fun hf => ?_⟩
  · obtain ⟨popped, heq, hsub⟩ := h.order
    rw [hs]
    exact ⟨popped, by rw [heq, append_assoc], hsub⟩
  · rw [hs]
    exact nodup_append.mpr ⟨h.nodup, nodup_singleton r, fun q hq u hu => mem_singleton.mp hu ▸ hne hq⟩
  · rw [hs] at hq ⊢
    exact h.fresh q fun ha => hq (mem_append_left _ ha)
  · rw [hs]; exact h.current
  · rw [hheld] at hq
    obtain ⟨ha, hl⟩ := h.held q hq
    rw [hs]
    exact ⟨mem_append_left _ ha, fun hl' =>
      (mem_append.mp hl').elim hl fun he => hne ha (mem_singleton.mp he)⟩
  · rw [hs] at hc ⊢
    refine (h.call c hc).congr rfl rfl (fun q hq => update_of_ne ?_ _ _) id id
    rcases hq with hq | hq | hq
    · exact hne (h.received hq).1
    · exact hne (h.received (h.current q hq)).1
    · cases halive.symm.trans hq
  · by_cases hqr : q = r
    · subst hqr
      have hwait : isAsync = false → s'.waiting t = some q := by
        intro hasync
        rw [hs]
        rw [hwaiting, hasync]
        exact update_self _ _ _
      rw [hs] at hwait ⊢
      refine ⟨h.fresh q hnew, .inl ?_, ?_⟩
      · simp only [update_self, and_self]
      · simp only [update_self]
        exact fun hasync _ => hwait hasync
    · obtain ⟨hanswers, hthread, hw⟩ := h.pending q (((hunans q).mp hq).resolve_right hqr)
      rw [hs]
      refine ⟨hanswers, ?_, ?_⟩
      · simp only [update_of_ne hqr]
        exact hthread
      · simp only [update_of_ne hqr]
        intro hasync hnot
        have hold := hw hasync hnot
        have hcl : s.client q ≠ t := by
          intro heq
          rw [heq, hrun] at hold
          cases hold
        rw [hwaiting]
        split_ifs
        · exact hold
        · rw [update_of_ne hcl, hold]
  · rw [hunans, not_or] at hn
    rw [hs] at hq ⊢
    unfold SettledOk
    dsimp only
    rw [update_of_ne hn.2]
    exact h.settled q (hmem hq hn.2) hn.1
  · rw [hs] at hq ⊢
    dsimp only
    by_cases hqr : q = r
    · rw [hqr, update_self]
      nofun
    · rw [update_of_ne hqr]
      exact h.listed q ((mem_append.mp hq).resolve_right fun he => hqr (mem_singleton.mp he))
  · rw [hs] at hq hn ⊢
    have hqr : q ≠ r := hne (h.received (h.current q hq)).1
    dsimp only at hn
    rw [update_of_ne hqr] at hn
    exact h.cleared q hq hn
  · have hrefs := h.references q
    unfold KServerSession.references at hrefs ⊢
    rw [hheld, hs]
    change update s.opened r (s.opened r + 1) q = s.closed q + ((s.requestList ++ [r]).count q +
      (if s.currentRequest = some q then 1 else 0) + if s.held = some q then 1 else 0)
    rw [count_append]
    by_cases hqr : q = r
    · subst hqr
      rw [update_self, count_singleton_self]
      omega
    · rw [update_of_ne hqr, count_singleton, if_neg (by simpa using Ne.symm hqr)]
      exact hrefs
  · rw [hs]
    refine ⟨fun hphase => absurd halive hphase, h.closes.serverPhase, fun hst => ?_, fun hst => ?_, fun hphase => ?_,
      fun hphase => ?_⟩
    · cases hstate.symm.trans hst
    · cases hstate.symm.trans hst
    · cases halive.symm.trans hphase
    · cases halive.symm.trans hphase
  · rw [hs] at hf
    exact absurd (.inr (.inr hf)) hnotclosing

theorem Inv.onRequest (h : Inv s) (halive : s.clientPhase = .alive) (hrun : s.waiting t = none) (hnew : r ∉ s.accepted)
    (isAsync : Bool) : Inv (s.onRequest t r isAsync) := by
  unfold KServerSession.onRequest
  split_ifs with hclosed hterm hasync
  · exact h
  · exact h
  all_goals
    have hstate : s.state = .normal := by
      cases hst : s.state <;> simp [isClosed, hst] at hclosed ⊢
    exact h.accept hstate halive hrun hnew isAsync (by simp only [hasync]; rfl) rfl

/-! ### Runs -/

theorem Inv.initial : Inv .initial := by
  refine ⟨⟨[], rfl, List.Sublist.refl _⟩, nodup_nil, fun _ _ => rfl, nofun, nofun, nofun, fun r hr => ?_, nofun, nofun,
    nofun, fun _ => rfl, ⟨fun _ _ => rfl, ?_, nofun, nofun, nofun, nofun⟩, nofun⟩
  · rcases hr with hr | hr | hr <;> cases hr
  · rintro (hs | hs | hs | hs) <;> cases hs

/-- Each step keeps the invariant. -/
theorem Step.inv (hs : Step s s') (h : Inv s) : Inv s' := by
  cases hs with
  | onRequest t r isAsync halive hrun hnew => exact h.onRequest halive hrun hnew _
  | receiveRequest isHle hfree => exact h.lock hfree rfl rfl trivial
  | sendReply isHle hfree => exact h.lock hfree rfl rfl trivial
  | advance result mapResult hcall hstep => exact h.advance hcall hstep
  | @requestTermination t =>
    refine h.threads (fun u hu => ?_) (fun _ _ => rfl) fun _ => id
    by_cases hut : u = t
    · rw [hut, update_self]
    · rw [update_of_ne hut, hu]
  | @cancelWait t hterm =>
    refine h.threads (fun _ => id) (fun u hu => ?_) fun u hu => ?_
    · rw [update_of_ne]
      rintro rfl
      cases hterm.symm.trans hu
    · by_cases hut : u = t
      · rw [hut, update_self]
      · rw [update_of_ne hut, hu]
  | destroyClient halive hwait =>
    obtain ⟨-, h2, h3, h4, -, -⟩ := h.closes
    refine h.phase ⟨fun _ => hwait, h2, h3, fun hst => ?_, fun hphase => ?_, nofun⟩ (.inr ?_) (.inl rfl)
    · exact absurd halive (h4 hst).1
    · cases hst : s.state with
      | normal => rw [hst] at hphase; cases hphase
      | clientClosed => exact absurd halive (h4 hst).1
      | serverClosed => exact h3 hst
    · rw [halive]
      exact ⟨nofun, nofun⟩
  | closeClient hphase =>
    obtain ⟨h1, h2, h3, h4, -, -⟩ := h.closes
    refine h.phase ⟨fun _ => h1 (by rw [hphase]; nofun), nofun, nofun, fun _ => ⟨nofun, nofun⟩, nofun, nofun⟩ (.inr ?_)
      (.inl rfl)
    rw [hphase]
    exact ⟨nofun, nofun⟩
  | skipClient hphase =>
    obtain ⟨h1, h2, h3, h4, h5, -⟩ := h.closes
    refine h.phase ⟨fun _ => h1 (by rw [hphase]; nofun), h2, h3, fun _ => ⟨nofun, nofun⟩, nofun, fun _ => .inr (h5 hphase)⟩
      (.inr ?_) (.inl rfl)
    rw [hphase]
    exact ⟨nofun, nofun⟩
  | onClientClosed hphase hfree =>
    obtain ⟨h1, h2, h3, -, -, -⟩ := h.closes
    refine h.enter _ (held_of_free hfree).symm (unanswered_of_free hfree).symm (fun _ => .inl (prev_of_free hfree))
      (fun _ he => ?_) ⟨fun _ => h1 (by rw [hphase]; nofun), h2, h3, fun _ => ⟨nofun, nofun⟩, nofun, nofun⟩ ?_ id
    · cases he
      rfl
    · rw [hphase]
      nofun
  | destroyServer halive =>
    obtain ⟨h1, -, h3, h4, h5, h6⟩ := h.closes
    have hno : ¬ s.ServerClosing := by
      rintro (hc | hc | hc) <;> cases halive.symm.trans hc
    refine h.phase ⟨h1, ?_, fun hst => absurd (h3 hst) hno, h4, fun hp => absurd (h5 hp) hno,
      fun hp => .inl ((h6 hp).resolve_right hno)⟩ (.inl rfl) (.inr ?_)
    · rintro (hp | hp | hp | hp) hst
      · rw [hst] at hp
        cases hp
      all_goals cases hp
    · rw [halive]
      exact ⟨nofun, nofun⟩
  | closeServer hphase =>
    obtain ⟨h1, h2, -, h4, -, h6⟩ := h.closes
    refine h.phase ⟨h1, fun _ => ?_, fun _ => .inl rfl, fun hst => ?_, fun _ => .inl rfl, fun _ => .inr (.inl rfl)⟩ (.inl rfl)
      (.inr ?_)
    · split_ifs with hwas
      · nofun
      · exact h2 (.inl (by rw [hphase, Bool.eq_false_of_not_eq_true hwas]))
    · split_ifs at hst with hwas
      exact h4 hst
    · rw [hphase]
      exact ⟨nofun, nofun⟩
  | cleanupRequests hphase hfree =>
    obtain ⟨h1, h2, h3, h4, h5, h6⟩ := h.closes
    have hclosing : s.ServerClosing := .inl hphase
    refine h.enter _ (held_of_free hfree).symm (unanswered_of_free hfree).symm (fun _ => .inl (prev_of_free hfree))
      (fun _ he => ?_) ⟨h1, fun _ => h2 (.inr hclosing), fun _ => .inr (.inl rfl), h4, fun _ => .inr (.inl rfl),
        fun _ => .inr (.inr (.inl rfl))⟩ id nofun
    cases he
    rfl

theorem Reaches.inv (hr : Reaches s) : Inv s := by
  induction hr with
  | initial => exact Inv.initial
  | step _ hs ih => exact hs.inv ih

/-- A received request in the hand of a call that has not answered it is not the current one, nor is any other. -/
theorem CallOk.current_none (h : CallOk s c) (hun : c.unanswered = some r) (hr : r ∈ s.received) :
    s.currentRequest = none := by
  cases c with
  | clientClosedAnswer q curRequest prev =>
    cases curRequest with
    | true => cases hun
    | false => exact absurd hr (Option.some.inj hun ▸ h.2.1)
  | receivePopped | receiveReply | sendMessage | sendAnswer | cleanupAnswer => exact h.1
  | _ => cases hun

/-- Two requests that are received and not answered are the same one. -/
theorem Inv.unique (h : Inv s) (hr : r ∈ s.received) (hq : q ∈ s.received) (hrun : s.Unanswered r)
    (hqun : s.Unanswered q) : r = q := by
  have hplace : ∀ {u}, u ∈ s.received → s.Unanswered u →
      s.currentRequest = some u ∨ s.currentRequest = none ∧ s.unanswered = some u := by
    intro u hu hun
    rcases hun with hun | hun | hun
    · exact absurd hun (h.received hu).2
    · exact .inl hun
    · obtain ⟨c, hc, hcun⟩ := bind_eq_some_iff.mp hun
      exact .inr ⟨(h.call c hc).current_none hcun hu, hun⟩
  rcases hplace hr hrun with hrc | ⟨hrn, hrh⟩ <;> rcases hplace hq hqun with hqc | ⟨hqn, hqh⟩
  · exact Option.some.inj (hrc.symm.trans hqc)
  · cases hrc.symm.trans hqn
  · cases hqc.symm.trans hrn
  · exact Option.some.inj (hrh.symm.trans hqh)

theorem SettledOk.length_le (h : SettledOk s r) : (s.answers r).length ≤ 1 := by
  rcases h with h | ⟨h, -⟩
  · exact h.le
  · rw [h]
    exact Nat.zero_le 1

theorem SettledOk.length_eq (h : SettledOk s r) (hterm : s.isTerminationRequested (s.client r) = false) :
    (s.answers r).length = 1 := by
  rcases h with h | ⟨-, h⟩
  · exact h
  · cases hterm.symm.trans h

/-- **The requests of a session.** After any steps the received requests are in the order in which they were accepted,
one of them at most is not answered, a request has one answer from the moment no place holds it unanswered, unless its
thread terminates, and each reference is closed once when its place is left. No request is left by the close of the
server, nor in the list by the client's, unless the server's is cleaning up, and a call that holds the lock goes on. -/
theorem reaches_lifecycle (hr : Reaches s) :
    (∃ popped, s.accepted = popped ++ s.requestList ∧ s.received.Sublist popped) ∧ s.accepted.Nodup ∧
    (∀ r ∈ s.received, ∀ q ∈ s.received, s.Unanswered r → s.Unanswered q → r = q) ∧
    (∀ r, s.Unanswered r → r ∈ s.accepted ∧ s.answers r = []) ∧
    (∀ r ∈ s.accepted, ¬ s.Unanswered r → (s.answers r).length ≤ 1 ∧
      (s.isTerminationRequested (s.client r) = false → (s.answers r).length = 1)) ∧
    (∀ r, s.opened r = s.closed r + s.references r) ∧
    (s.serverPhase = .finished → s.requestList = [] ∧ ∀ r, ¬ s.Unanswered r ∧ s.references r = 0) ∧
    (s.clientPhase = .finished → s.requestList = [] ∨ s.ServerClosing) ∧
    ∀ c result mapResult, s.call = some c → ∃ s', s.advance result mapResult c = some s' := by
  have h := hr.inv
  refine ⟨h.order, h.nodup, fun r hr q hq => h.unique hr hq, fun r hr => ⟨h.mem_accepted hr, (h.pending r hr).answers⟩,
    fun r hr hn => ⟨(h.settled r hr hn).length_le, (h.settled r hr hn).length_eq⟩, h.references, fun hf => ?_,
    h.closes.drained, fun c result mapResult hc => isSome_iff_exists.mp (h.advance_isSome hc)⟩
  obtain ⟨hlist, hcur, hheld⟩ := h.finished hf
  refine ⟨hlist, fun r => ⟨?_, ?_⟩⟩
  · rintro (hr | hr | hr)
    · rw [hlist] at hr
      cases hr
    · cases hcur.symm.trans hr
    · obtain ⟨c, hc, hun⟩ := bind_eq_some_iff.mp hr
      cases hheld.symm.trans ((held_of_call hc).trans (Call.held_of_unanswered hun))
  · unfold KServerSession.references
    rw [hlist, hcur, hheld]
    rfl

/-- One thread's request is received and replied to, and then both ends are closed. -/
theorem reaches_oneRequest : ∃ s, Reaches s ∧ s.serverPhase = .finished ∧ s.clientPhase = .finished ∧ s.accepted = [7] ∧
    s.isTerminationRequested (s.client 7) = false := by
  have h := Reaches.initial
  have h := h.step (.onRequest 1 7 false rfl rfl not_mem_nil)
  have h := h.step (.receiveRequest false rfl)
  have h := h.step (.advance .success .success rfl rfl)
  have h := h.step (.advance .success .success rfl rfl)
  have h := h.step (.advance .success .success rfl rfl)
  have h := h.step (.sendReply false rfl)
  have h := h.step (.advance .success .success rfl rfl)
  have h := h.step (.advance .success .success rfl rfl)
  have h := h.step (.advance .success .success rfl rfl)
  have h := h.step (.advance .success .success rfl rfl)
  have h := h.step (.destroyServer rfl)
  have h := h.step (.closeServer rfl)
  have h := h.step (.cleanupRequests rfl rfl)
  have h := h.step (.advance .success .success rfl rfl)
  have h := h.step (.destroyClient rfl fun t => by
    by_cases ht : t = 1
    · subst ht
      rfl
    · exact (update_of_ne ht _ _).trans (update_of_ne ht _ _))
  have h := h.step (.skipClient rfl)
  exact ⟨_, h, rfl, rfl, rfl, rfl⟩

/-- A request whose session is closed has had its answer. -/
theorem answered_oneRequest : ∃ s, Reaches s ∧ s.accepted = [7] ∧ (s.answers 7).length = 1 ∧ s.opened 7 = s.closed 7 := by
  obtain ⟨s, hr, hserver, -, haccepted, hterm⟩ := reaches_oneRequest
  obtain ⟨-, -, -, -, hsettled, hrefs, hfinished, -, -⟩ := reaches_lifecycle hr
  obtain ⟨hun, hzero⟩ := (hfinished hserver).2 7
  refine ⟨s, hr, haccepted, (hsettled 7 (haccepted ▸ mem_singleton_self 7) hun).2 hterm, ?_⟩
  rw [hrefs, hzero, Nat.add_zero]

end KServerSession
end Kernel
end Citron
