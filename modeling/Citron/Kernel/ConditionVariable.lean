/-
# Condition variables and mutex words

`KConditionVariable`: the calls that wait for a mutex word and signal it, wait on a
condition variable and signal that, and the cancellation of a wait. A mutex word holds
its owner's handle, and a mask while threads wait in the kernel. Each call runs under the
scheduler lock and is one step. Priorities order the tree of a condition variable; here
the tree is a list, and a signal is given its targets.
-/
import Citron.Kernel.PriorityInheritanceRun

namespace Citron
namespace Kernel

open Function Option

abbrev Tag := BitVec 32

/-- `Svc::HandleWaitMask`. -/
def handleWaitMask : Tag := 1 <<< 30

/-- `Svc::InvalidHandle`. -/
def invalidHandle : Tag := 0

inductive WaitResult
  | success
  | terminationRequested
  | invalidHandle
  | invalidState
  | timedOut
  | cancelled
deriving DecidableEq, Repr

/-- The wait queues that a thread can be in. -/
inductive WaitQueue
  | waitForAddress
  | waitConditionVariable
deriving DecidableEq, Repr

/-- The threads of a process and the memory words that the calls read and write. -/
structure MutexState where
  threads : Threads
  addressKeyValue : ThreadId → Tag
  conditionVariableKey : ThreadId → ℕ
  tree : List ThreadId
  waitQueue : ThreadId → Option WaitQueue
  waitResult : ThreadId → WaitResult
  memory : ℕ → Tag

namespace MutexState

def writeToUser (s : MutexState) (address : ℕ) (value : Tag) : MutexState :=
  { s with memory := update s.memory address value }

def beginWait (s : MutexState) (t : ThreadId) (queue : WaitQueue) : MutexState :=
  { s with waitQueue := update s.waitQueue t (some queue) }

/-- `EndWait` of a thread that waits, if it does. -/
def endWait (s : MutexState) (t : ThreadId) (waitResult : WaitResult) : MutexState :=
  if (s.waitQueue t).isSome then
    { s with
      waitQueue := update s.waitQueue t none
      waitResult := update s.waitResult t waitResult }
  else s

/-- `SetUserAddressKey`. -/
def setUserAddressKey (s : MutexState) (t : ThreadId) (key : ℕ) (value : Tag) : MutexState :=
  { s with
    threads := s.threads.setAddressKey t key false
    addressKeyValue := update s.addressKeyValue t value }

/-- `SetConditionVariable`, and the insertion into the tree. -/
def setConditionVariable (s : MutexState) (t : ThreadId) (address cvKey : ℕ) (value : Tag) : MutexState :=
  { s.setUserAddressKey t address value with
    conditionVariableKey := update s.conditionVariableKey t cvKey
    tree := t :: s.tree }

/-- `ClearConditionVariable`, and the removal from the tree. -/
def clearConditionVariable (s : MutexState) (t : ThreadId) : MutexState := { s with tree := s.tree.erase t }

/-- The expected value, and the state after the new one is stored. -/
def updateLockAtomic (s : MutexState) (address : ℕ) (ifZero newOrrMask : Tag) : Tag × MutexState :=
  let expected := s.memory address
  let value := if expected = 0 then ifZero else expected ||| newOrrMask
  (expected, s.writeToUser address value)

/-- The tag for the next owner. -/
def nextValue (s : MutexState) (nextOwnerThread : Option ThreadId) (hasWaiters : Bool) : Tag :=
  match nextOwnerThread with
  | some t => if hasWaiters then s.addressKeyValue t ||| handleWaitMask else s.addressKeyValue t
  | none => 0

/-! ### The mutex -/

def signalToAddress (fuel : ℕ) (s : MutexState) (ownerThread : ThreadId) (addr : ℕ) : Option MutexState := do
  let (nextOwnerThread, hasWaiters, threads) ← s.threads.removeWaiterByKey fuel ownerThread addr false
  let s := { s with threads }
  let s := s.writeToUser addr (s.nextValue nextOwnerThread hasWaiters)
  match nextOwnerThread with
  | some t => some (s.endWait t .success)
  | none => some s

/-- `WaitForAddress`; `none` in the first place is a thread that waits. -/
def waitForAddress (lookup : Tag → Option ThreadId) (fuel : ℕ) (s : MutexState) (curThread : ThreadId) (handle : Tag)
    (addr : ℕ) (value : Tag) (terminationRequested : Bool) : Option (Option WaitResult × MutexState) :=
  if terminationRequested then some (some .terminationRequested, s)
  else if s.memory addr ≠ handle ||| handleWaitMask then some (some .success, s)
  else
    match lookup handle with
    | none => some (some .invalidHandle, s)
    | some ownerThread => do
      let s := s.setUserAddressKey curThread addr value
      let threads ← s.threads.addWaiter fuel ownerThread curThread
      some (none, { s with threads }.beginWait curThread .waitForAddress)

/-! ### The condition variable -/

def signalImpl (lookup : Tag → Option ThreadId) (fuel : ℕ) (s : MutexState) (thread : ThreadId) : Option MutexState :=
  let address := s.threads.addressKey thread
  let ownTag := s.addressKeyValue thread
  let (prevTag, s) := s.updateLockAtomic address ownTag handleWaitMask
  if prevTag = invalidHandle then some (s.endWait thread .success)
  else
    match lookup (prevTag &&& ~~~handleWaitMask) with
    | some ownerThread => do
      let threads ← s.threads.addWaiter fuel ownerThread thread
      some { s with threads }
    | none => some (s.endWait thread .invalidState)

/-- The loop of `Signal` over the threads that it takes from the tree. -/
def signalTargets (lookup : Tag → Option ThreadId) (fuel : ℕ) : List ThreadId → MutexState → Option MutexState
  | [], s => some s
  | t :: ts, s => do
    let s ← signalImpl lookup fuel (s.clearConditionVariable t) t
    signalTargets lookup fuel ts s

def signal (lookup : Tag → Option ThreadId) (fuel : ℕ) (s : MutexState) (cvKey : ℕ) (targets : List ThreadId) :
    Option MutexState := do
  let s ← signalTargets lookup fuel targets s
  if s.tree.any fun t => s.conditionVariableKey t == cvKey then some s else some (s.writeToUser cvKey 0)

/-- `Wait`; `none` in the first place is a thread that waits. -/
def wait (fuel : ℕ) (s : MutexState) (curThread : ThreadId) (addr key : ℕ) (value : Tag) (timeout : ℤ)
    (terminationRequested : Bool) : Option (Option WaitResult × MutexState) :=
  if terminationRequested then some (some .terminationRequested, s)
  else do
    let (nextOwnerThread, hasWaiters, threads) ← s.threads.removeWaiterByKey fuel curThread addr false
    let s := { s with threads }
    let nextValue := s.nextValue nextOwnerThread hasWaiters
    let s := match nextOwnerThread with
      | some t => s.endWait t .success
      | none => s
    let s := s.writeToUser key 1
    let s := s.writeToUser addr nextValue
    if timeout = 0 then some (some .timedOut, s)
    else some (none, (s.setConditionVariable curThread addr key value).beginWait curThread .waitConditionVariable)

/-! ### Cancellation -/

/-- `CancelWait` of both queues. -/
def cancelWait (fuel : ℕ) (s : MutexState) (waitingThread : ThreadId) (waitResult : WaitResult) : Option MutexState :=
  match s.waitQueue waitingThread with
  | none => some s
  | some .waitForAddress => do
    let owner ← s.threads.getLockOwner waitingThread
    let threads ← s.threads.removeWaiter fuel owner waitingThread
    some ({ s with threads }.endWait waitingThread waitResult)
  | some .waitConditionVariable => do
    let threads ← (match s.threads.getLockOwner waitingThread with
      | some owner => s.threads.removeWaiter fuel owner waitingThread
      | none => some s.threads)
    let s := { s with threads }
    let s := if waitingThread ∈ s.tree then s.clearConditionVariable waitingThread else s
    some (s.endWait waitingThread waitResult)

end MutexState

/-! ## Waits, whatever the priorities

What the calls of the priority inheritance do to the waits of the threads, without the
assumption that the waits have no cycle: threads that wait for several mutex words may
deadlock, and a call that returns still keeps the links (`Joined`).
-/

namespace Threads

/-- The links agree, and the threads that wait on one thread with one key are in one tree. -/
structure Joined (s : Threads) : Prop where
  links : Links s
  full : Full s
  unique : Unique s

/-- The waits and the keys are as before. -/
structure Rejoined (s s₁ : Threads) : Prop where
  joined : Joined s₁
  owner : s₁.getLockOwner = s.getLockOwner
  addressKey : s₁.addressKey = s.addressKey
  isKernelAddressKey : s₁.isKernelAddressKey = s.isKernelAddressKey

variable {s s₁ : Threads} {t u o n : ThreadId} {l : LockInfoId} {fuel : ℕ}

theorem Joined.setPriority (h : Joined s) (hw : s.waitingLockInfo u = none) (p : ℤ) : Joined (s.setPriority u p) :=
  ⟨h.links.setPriority hw p, h.full, h.unique⟩

theorem Joined.inheritedPriority (h : Joined s) (t : ThreadId) : ∃ p, s.inheritedPriority t = some p := by
  obtain ⟨p, hrun, -⟩ := h.links.foldPriorities h.full (b := s.basePriority t) fun l hl => by
    obtain ⟨info, hinfo, -⟩ := (h.links.held t l).mp hl
    exact ⟨info, hinfo⟩
  exact ⟨p, hrun⟩

/-- A thread takes another priority while it is out of the tree. -/
theorem Joined.changePriority (h : Joined s) (ht : s.getLockOwner t = some o) (p : ℤ) :
    ∃ s₁ s₂, s.removeWaiterImpl o t = some s₁ ∧ (s₁.setPriority t p).addWaiterImpl o t = some s₂ ∧ Rejoined s s₂ := by
  obtain ⟨s₁, hrun₁, hlinks₁, hframe₁, hfull₁, hunique₁, howner₁, -⟩ := h.links.removeWaiterImpl ht
  have hnone : s₁.getLockOwner t = none := by rw [howner₁, update_self]
  have hwait : s₁.waitingLockInfo t = none := hlinks₁.waiting_none (hfull₁ h.full) hnone
  have hset : Joined (s₁.setPriority t p) := ⟨hlinks₁.setPriority hwait p, hfull₁ h.full, hunique₁ h.unique⟩
  obtain ⟨s₂, hrun₂, hlinks₂, hframe₂, hfull₂, hunique₂, howner₂, -⟩ := hset.links.addWaiterImpl o hwait
  refine ⟨s₁, s₂, hrun₁, hrun₂, ⟨hlinks₂, hfull₂ hset.full, hunique₂ hset.full hset.unique⟩, ?_,
    hframe₂.addressKey.trans hframe₁.addressKey, hframe₂.isKernelAddressKey.trans hframe₁.isKernelAddressKey⟩
  calc s₂.getLockOwner = update s₁.getLockOwner t (some o) := howner₂
    _ = update s.getLockOwner t (some o) := by rw [howner₁, update_idem]
    _ = s.getLockOwner := by rw [← ht, update_eq_self]

theorem Joined.restorePriority : ∀ {fuel : ℕ} {s : Threads} {t : Option ThreadId}, Joined s →
    Threads.restorePriority fuel s t = some s₁ → Rejoined s s₁ := by
  intro fuel
  induction fuel with
  | zero =>
    intro s t h hrun
    cases t with
    | none =>
      obtain rfl := Option.some.inj hrun
      exact ⟨h, rfl, rfl, rfl⟩
    | some t =>
      unfold Threads.restorePriority at hrun
      cases hrun
  | succ fuel ih =>
    intro s t h hrun
    cases t with
    | none =>
      obtain rfl := Option.some.inj hrun
      exact ⟨h, rfl, rfl, rfl⟩
    | some t =>
      obtain ⟨p, hp⟩ := h.inheritedPriority t
      unfold Threads.restorePriority at hrun
      simp only [hp, bind_eq_bind, bind_some] at hrun
      by_cases hsame : p = s.priority t
      · rw [if_pos hsame] at hrun
        obtain rfl := Option.some.inj hrun
        exact ⟨h, rfl, rfl, rfl⟩
      · rw [if_neg hsame] at hrun
        cases ho : s.getLockOwner t with
        | none =>
          have hset := h.setPriority (h.links.waiting_none h.full ho) p
          simp only [ho, bind_some] at hrun
          have hrest := ih hset hrun
          exact ⟨hrest.joined, hrest.owner, hrest.addressKey, hrest.isKernelAddressKey⟩
        | some o =>
          obtain ⟨s₂, s₃, hrun₂, hrun₃, h₃⟩ := h.changePriority ho p
          simp only [ho, hrun₂, hrun₃, bind_some] at hrun
          have hrest := ih h₃.joined hrun
          exact ⟨hrest.joined, hrest.owner.trans h₃.owner, hrest.addressKey.trans h₃.addressKey,
            hrest.isKernelAddressKey.trans h₃.isKernelAddressKey⟩

/-- A thread that waits for nothing needs no other thread's priority. -/
theorem Joined.restorePriority_returns (h : Joined s) (ht : s.getLockOwner t = none) (hf : 0 < fuel) :
    ∃ s₁, Threads.restorePriority fuel s (some t) = some s₁ := by
  obtain ⟨fuel, rfl⟩ := Nat.exists_eq_succ_of_ne_zero hf.ne'
  obtain ⟨p, hp⟩ := h.inheritedPriority t
  unfold Threads.restorePriority
  simp only [hp, ht, bind_eq_bind, bind_some]
  by_cases hsame : p = s.priority t
  · exact ⟨s, if_pos hsame⟩
  · rw [if_neg hsame]
    unfold Threads.restorePriority
    exact ⟨_, rfl⟩

/-- A restoration under a condition. -/
theorem Joined.restoreIf (h : Joined s) {c : Prop} [Decidable c]
    (hrun : (if c then Threads.restorePriority fuel s (some t) else some s) = some s₁) : Rejoined s s₁ := by
  by_cases hc : c
  · rw [if_pos hc] at hrun
    exact h.restorePriority hrun
  · rw [if_neg hc] at hrun
    obtain rfl := Option.some.inj hrun
    exact ⟨h, rfl, rfl, rfl⟩

/-! ### The calls -/

theorem Joined.addWaiter (h : Joined s) (hw : s.waitingLockInfo u = none) (hrun : Threads.addWaiter fuel s t u = some s₁) :
    Joined s₁ ∧ s₁.getLockOwner = update s.getLockOwner u (some t) ∧ s₁.addressKey = s.addressKey ∧
      s₁.isKernelAddressKey = s.isKernelAddressKey := by
  obtain ⟨s₂, hrun₂, hlinks, hframe, hfull, hunique, howner, -⟩ := h.links.addWaiterImpl t hw
  unfold Threads.addWaiter at hrun
  rw [hrun₂, bind_eq_bind, bind_some] at hrun
  have hrest := Joined.restoreIf ⟨hlinks, hfull h.full, hunique h.full h.unique⟩ hrun
  exact ⟨hrest.joined, hrest.owner.trans howner, hrest.addressKey.trans hframe.addressKey,
    hrest.isKernelAddressKey.trans hframe.isKernelAddressKey⟩

theorem Joined.removeWaiter (h : Joined s) (ho : s.getLockOwner u = some t)
    (hrun : Threads.removeWaiter fuel s t u = some s₁) :
    Joined s₁ ∧ s₁.getLockOwner = update s.getLockOwner u none ∧ s₁.addressKey = s.addressKey ∧
      s₁.isKernelAddressKey = s.isKernelAddressKey := by
  obtain ⟨s₂, hrun₂, hlinks, hframe, hfull, hunique, howner, -⟩ := h.links.removeWaiterImpl ho
  unfold Threads.removeWaiter at hrun
  rw [hrun₂, bind_eq_bind, bind_some] at hrun
  have hrest := Joined.restoreIf ⟨hlinks, hfull h.full, hunique h.unique⟩ hrun
  exact ⟨hrest.joined, hrest.owner.trans howner, hrest.addressKey.trans hframe.addressKey,
    hrest.isKernelAddressKey.trans hframe.isKernelAddressKey⟩

/-- The key of a thread that waits for nothing. -/
theorem Joined.setAddressKey (h : Joined s) (hw : s.waitingLockInfo t = none) (key : ℕ) (isKernel : Bool) :
    Joined (s.setAddressKey t key isKernel) := by
  have hne : ∀ l info, s.lockInfo l = some info → ∀ v ∈ info.tree, v ≠ t := by
    intro l info hl v hv heq
    rw [heq, h.links.mem_tree hl, hw] at hv
    cases hv
  have hown : ∀ v o, s.getLockOwner v = some o → v ≠ t := by
    intro v o hv
    obtain ⟨l, info, hl, hmem, -⟩ := h.links.getLockOwner_eq.mp hv
    exact hne l info hl v hmem
  refine ⟨⟨h.links.waiting, h.links.held, h.links.heldNodup, fun l info hl => ?_, h.links.fresh⟩, h.full, ?_⟩
  · have hok := h.links.info l info hl
    refine ⟨hok.nodup, hok.sorted, hok.count, fun v hv => ?_⟩
    have hvt := hne l info hl v hv
    show update s.addressKey t key v = _ ∧ update s.isKernelAddressKey t isKernel v = _
    rw [update_of_ne hvt, update_of_ne hvt]
    exact hok.keys v hv
  · intro v w o hv hw₁ hkey hkernel
    have hkey₁ : update s.addressKey t key v = update s.addressKey t key w := hkey
    have hkernel₁ : update s.isKernelAddressKey t isKernel v =
      update s.isKernelAddressKey t isKernel w := hkernel
    rw [update_of_ne (hown v o hv), update_of_ne (hown w o hw₁)] at hkey₁ hkernel₁
    exact h.unique v w o hv hw₁ hkey₁ hkernel₁

/-- A lock that nobody waits for with its key is not found. -/
theorem Joined.findHeldLock_none {key : ℕ} {isKernel : Bool} (h : Joined s)
    (hf : s.findHeldLock t key isKernel = none) (hv : s.getLockOwner u = some t) :
    ¬ (s.addressKey u = key ∧ s.isKernelAddressKey u = isKernel) := by
  rintro ⟨hkey, hkernel⟩
  obtain ⟨l, info, hl, hmem, ho⟩ := h.links.getLockOwner_eq.mp hv
  have hok := (h.links.info l info hl).keys u hmem
  have hnone := List.find?_eq_none.mp hf l ((h.links.mem_held hl).mpr ho)
  refine hnone ?_
  rw [hl, any_some, Bool.and_eq_true, beq_iff_eq, beq_iff_eq]
  exact ⟨hok.1.symm.trans hkey, hok.2.symm.trans hkernel⟩

/-- `RemoveWaiterByKey` of a thread that waits for nothing returns, when nobody waits with
the key on a thread that itself does. Either nobody waits on the thread with the key, or one
of those that do is the next owner, and the others wait on it. -/
theorem Joined.removeWaiterByKey (h : Joined s) (ht : s.getLockOwner t = none) (key : ℕ) (isKernel : Bool)
    (hfree : ∀ v w, s.getLockOwner v = some w → s.addressKey v = key ∧ s.isKernelAddressKey v = isKernel →
      s.getLockOwner w = some t → ¬ (s.addressKey w = key ∧ s.isKernelAddressKey w = isKernel)) :
    (s.findHeldLock t key isKernel = none ∧
      ∀ fuel, Threads.removeWaiterByKey fuel s t key isKernel = some (none, false, s)) ∨
    ∃ tree n, n ∈ tree ∧ tree.Nodup ∧ (∀ v, v ∈ tree ↔ s.getLockOwner v = some t ∧ s.addressKey v = key ∧
        s.isKernelAddressKey v = isKernel) ∧
      (∀ fuel r, Threads.removeWaiterByKey fuel s t key isKernel = some r →
        ∃ s₁, r = (some n, !(tree.erase n).isEmpty, s₁) ∧ Joined s₁ ∧
          s₁.getLockOwner = handedOver s.getLockOwner tree n ∧ s₁.addressKey = s.addressKey ∧
          s₁.isKernelAddressKey = s.isKernelAddressKey) ∧
      ∀ fuel, 0 < fuel → ∃ r, Threads.removeWaiterByKey fuel s t key isKernel = some r := by
  cases hf : s.findHeldLock t key isKernel with
  | none =>
    refine .inl ⟨rfl, fun fuel => ?_⟩
    unfold Threads.removeWaiterByKey
    simp only [hf]
  | some l =>
    obtain ⟨info, hl, ho, hkey, hkernel⟩ := h.links.findHeldLock hf
    obtain ⟨n, hn, hmem, -⟩ := h.links.highestPriorityWaiter h.full hl
    obtain ⟨s₁, hlinks, hframe, hfull, -, howner, heq⟩ := h.links.handOver hl ho hmem
    have hok := h.links.info l info hl
    have htree : ∀ v, v ∈ info.tree ↔ s.getLockOwner v = some t ∧ s.addressKey v = key ∧
        s.isKernelAddressKey v = isKernel := by
      intro v
      constructor
      · intro hv
        obtain ⟨hkv, hkk⟩ := hok.keys v hv
        exact ⟨h.links.getLockOwner_eq.mpr ⟨l, info, hl, hv, ho⟩, hkv.trans hkey, hkk.trans hkernel⟩
      · rintro ⟨hv, hkv, hkk⟩
        -- the threads with the key wait in one tree
        obtain ⟨hkn, hkkn⟩ := hok.keys n hmem
        have hnowner := h.links.getLockOwner_eq.mpr ⟨l, info, hl, hmem, ho⟩
        have hsame := h.unique v n t hv hnowner (hkv.trans (hkey.symm.trans hkn.symm))
          (hkk.trans (hkernel.symm.trans hkkn.symm))
        rw [h.links.mem_tree hl, hsame, ← h.links.mem_tree hl]
        exact hmem
    have hnt : n ≠ t := by
      intro heq
      have := ((htree n).mp hmem).1
      rw [heq, ht] at this
      cases this
    have hwait : s₁.waitingLockInfo = update s.waitingLockInfo n none := by
      rw [heq, Threads.passedOn]
      split <;> rfl
    have hcall := h.links.removeWaiterByKey_eq hf hl hn heq
    -- the trees of the next owner stay apart
    have hapart : ∀ v, s.getLockOwner v = some n → ¬ (s.addressKey v = key ∧ s.isKernelAddressKey v = isKernel) := by
      intro v hv hkv
      obtain ⟨hnt, hkn⟩ := (htree n).mp hmem
      exact hfree v n hv hkv hnt hkn
    have hjoined : Joined (countHandedOver s₁ s t n info) := by
      refine ⟨⟨hlinks.waiting, hlinks.held, hlinks.heldNodup, fun k info₁ hk => ?_, hlinks.fresh⟩, hfull h.full, ?_⟩
      · have hok₁ := hlinks.info k info₁ hk
        exact ⟨hok₁.nodup, hok₁.sorted, hok₁.count, hok₁.keys⟩
      · intro v w o hv hw hkv hkw
        have hv₁ : s₁.getLockOwner v = some o := hv
        have hw₁ : s₁.getLockOwner w = some o := hw
        have hkv₁ : s₁.addressKey v = s₁.addressKey w := hkv
        have hkw₁ : s₁.isKernelAddressKey v = s₁.isKernelAddressKey w := hkw
        show s₁.waitingLockInfo v = s₁.waitingLockInfo w
        rw [howner] at hv₁ hw₁
        rw [hframe.addressKey] at hkv₁
        rw [hframe.isKernelAddressKey] at hkw₁
        have hne : ∀ x o, handedOver s.getLockOwner info.tree n x = some o → x ≠ n := by
          intro x o hx hxn
          unfold handedOver at hx
          rw [if_pos hxn] at hx
          cases hx
        rw [hwait, update_of_ne (hne v o hv₁), update_of_ne (hne w o hw₁)]
        unfold handedOver at hv₁ hw₁
        rw [if_neg (hne v o hv₁)] at hv₁
        rw [if_neg (hne w o hw₁)] at hw₁
        by_cases hvt : v ∈ info.tree
        · rw [if_pos hvt, Option.some.injEq] at hv₁
          subst hv₁
          by_cases hwt : w ∈ info.tree
          · rw [(h.links.mem_tree hl).mp hvt, (h.links.mem_tree hl).mp hwt]
          · rw [if_neg hwt] at hw₁
            obtain ⟨-, h1, h2⟩ := (htree v).mp hvt
            exact absurd ⟨hkv₁.symm.trans h1, hkw₁.symm.trans h2⟩ (hapart w hw₁)
        · rw [if_neg hvt] at hv₁
          by_cases hwt : w ∈ info.tree
          · rw [if_pos hwt, Option.some.injEq] at hw₁
            subst hw₁
            obtain ⟨-, h1, h2⟩ := (htree w).mp hwt
            exact absurd ⟨hkv₁.trans h1, hkw₁.trans h2⟩ (hapart v hv₁)
          · rw [if_neg hwt] at hw₁
            exact h.unique v w o hv₁ hw₁ hkv₁ hkw₁
    refine .inr ⟨info.tree, n, hmem, hok.nodup, htree, fun fuel r hrun => ?_, fun fuel hpos => ?_⟩
    · rw [hcall fuel] at hrun
      obtain ⟨s₂, hs₂, hr⟩ := map_eq_some_iff.mp hrun
      have hrest := hjoined.restoreIf hs₂
      exact ⟨s₂, hr.symm, hrest.joined, hrest.owner.trans howner, hrest.addressKey.trans hframe.addressKey,
        hrest.isKernelAddressKey.trans hframe.isKernelAddressKey⟩
    · have htt : t ∉ info.tree := by
        intro hmt
        have := ((htree t).mp hmt).1
        rw [ht] at this
        cases this
      have hnone : (countHandedOver s₁ s t n info).getLockOwner t = none := by
        show s₁.getLockOwner t = none
        rw [howner]
        unfold handedOver
        rw [if_neg hnt.symm, if_neg htt]
        exact ht
      rw [hcall fuel]
      by_cases hc : s.priority t = s.priority n ∧ s.priority t < s.basePriority t
      · rw [if_pos hc]
        obtain ⟨s₂, hs₂⟩ := hjoined.restorePriority_returns hnone hpos
        exact ⟨_, by rw [hs₂]; rfl⟩
      · rw [if_neg hc]
        exact ⟨_, rfl⟩

end Threads

end Kernel
end Citron
