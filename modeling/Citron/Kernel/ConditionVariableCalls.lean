/-
# The calls on the mutexes

Each call keeps the agreement of the words with their owners. The kernel's release of a
word returns, and wakes one of the threads that are blocked on it (`Wakes`).
-/
import Citron.Kernel.ConditionVariableInv

namespace Citron
namespace Kernel
namespace MutexState

open Threads List Function

/-- One of the threads that are blocked on a word is woken, if there are any, and its handle is in the word. -/
def Wakes (P : Process) (s s' : MutexState) (a : ℕ) : Prop :=
  ∀ u, BlockedOn s u a → ∃ n, BlockedOn s n a ∧ Acquired s s' n a ∧ s'.memory a &&& ~~~handleWaitMask = P.handle n

variable {P : Process} {s s' : MutexState} {owns : ThreadId → ℕ → Prop} {t u o n : ThreadId} {a b : ℕ} {fuel : ℕ}

/-- The one thread that is woken takes its word. -/
theorem acquired_iff (hn : s.waitQueue n ≠ none) (hqueue : s'.waitQueue = update s.waitQueue n none)
    (hresult : s'.waitResult n = .success) (hkey : s'.threads.addressKey n = a) :
    Acquired s s' u b ↔ u = n ∧ b = a := by
  constructor
  · rintro ⟨hne, hnow, -, hub⟩
    have hun : u = n := by
      by_contra hun
      rw [hqueue, update_of_ne hun] at hnow
      exact hne hnow
    subst hun
    exact ⟨rfl, hub.symm.trans hkey⟩
  · rintro ⟨rfl, rfl⟩
    exact ⟨hn, by rw [hqueue, update_self], hresult, hkey⟩

/-! ### The mutex -/

/-- The waiters of a thread that waits on another have other keys. -/
theorem Inv.apart (h : Inv P s owns) {v w : ThreadId} (hv : s.threads.getLockOwner v = some w)
    (hkv : s.threads.addressKey v = a ∧ s.threads.isKernelAddressKey v = false)
    (hw : s.threads.getLockOwner w = some t) :
    ¬ (s.threads.addressKey w = a ∧ s.threads.isKernelAddressKey w = false) := by
  rintro ⟨hkw, -⟩
  obtain ⟨-, -, hown, -⟩ := h.lockOwner hv
  obtain ⟨hwaits, -, -, -⟩ := h.lockOwner hw
  apply hwaits.notOwner
  rw [hkw, ← hkv.1]
  exact hown

theorem Inv.blockedOn (h : Inv P s owns) (ho : owns o a) (hu : BlockedOn s u a) :
    s.threads.getLockOwner u = some o ∧ s.threads.isKernelAddressKey u = false ∧
      s.memory a = P.handle o ||| handleWaitMask := by
  obtain ⟨hqueue, hnot, hkey⟩ := hu
  have hw := h.waiting u hqueue
  rcases hw.place with ⟨hmem, -⟩ | ⟨-, v, hv, hown, hword⟩
  · exact absurd hmem hnot
  · rw [hkey] at hown hword
    rw [h.unique v o a hown ho] at hv hword
    exact ⟨hv, hw.isKernel, hword⟩

theorem Inv.signalToAddress (h : Inv P s owns) (hrun : s.waitQueue t = none) (ho : owns t a) :
    (∀ fuel s', s.signalToAddress fuel t a = some s' →
      Inv P s' (fun u b => released owns t a u b ∨ Acquired s s' u b) ∧ s'.waitQueue t = none ∧ Wakes P s s' a) ∧
    ∀ fuel, 0 < fuel → ∃ s', s.signalToAddress fuel t a = some s' := by
  have hnone : s.threads.getLockOwner t = none := (h.running t hrun).1
  rcases h.joined.removeWaiterByKey hnone a false (fun v w hv hkv hw => h.apart hv hkv hw) with
    ⟨hfind, hcall⟩ | ⟨tree, n, hn, -, htree, hcall, hreturns⟩
  · have heq : ∀ fuel, s.signalToAddress fuel t a = some (s.writeToUser a 0) := by
      intro fuel
      unfold MutexState.signalToAddress
      rw [hcall fuel]
      rfl
    refine ⟨fun fuel s' hs' => ?_, fun fuel _ => ⟨_, heq fuel⟩⟩
    rw [heq fuel] at hs'
    obtain rfl := Option.some.inj hs'
    have howns : (fun u b => released owns t a u b ∨ Acquired s (s.writeToUser a 0) u b) = released owns t a := by
      funext u b
      apply propext
      constructor
      · rintro (hu | ⟨hne, hnow, -⟩)
        · exact hu
        · exact absurd hnow hne
      · exact .inl
    rw [howns]
    have hkeys : ∀ u, s.threads.getLockOwner u = some t → s.threads.addressKey u ≠ a := by
      intro u hu hkey
      exact h.joined.findHeldLock_none hfind hu ⟨hkey, (h.lockOwner hu).1.isKernel⟩
    refine ⟨h.release ho hkeys, hrun, fun u hu => ?_⟩
    exact absurd hu.2.2 (hkeys u (h.blockedOn ho hu).1)
  · obtain ⟨hnt, hna, hnk⟩ := (htree n).mp hn
    obtain ⟨hnw, hncv, -, -⟩ := h.lockOwner hnt
    have hqueue : s.waitQueue n ≠ none := by
      intro hq
      rw [(h.running n hq).1] at hnt
      cases hnt
    refine ⟨fun fuel s' hs' => ?_, fun fuel hpos => ?_⟩
    · unfold MutexState.signalToAddress at hs'
      cases hr : Threads.removeWaiterByKey fuel s.threads t a false with
      | none =>
        rw [hr] at hs'
        cases hs'
      | some r =>
        obtain ⟨threads, rfl, hjoined, howner, hkey, hkernel⟩ := hcall fuel r hr
        rw [hr] at hs'
        obtain rfl := Option.some.inj hs'
        set s₁ := ({ s with threads } : MutexState).writeToUser a
          (({ s with threads } : MutexState).nextValue (some n) !(tree.erase n).isEmpty) with hs₁
        have hvalue : ({ s with threads } : MutexState).nextValue (some n) (!(tree.erase n).isEmpty) =
            if (tree.erase n).isEmpty then P.handle n else P.handle n ||| handleWaitMask := by
          show (if (!(tree.erase n).isEmpty) = true then s.addressKeyValue n ||| _ else s.addressKeyValue n) = _
          rw [hnw.value]
          cases (tree.erase n).isEmpty <;> rfl
        have hmemory : (s₁.endWait n .success).memory = update s.memory a
            (if (tree.erase n).isEmpty then P.handle n else P.handle n ||| handleWaitMask) := by
          rw [endWait_memory, ← hvalue]
          rfl
        have hacquired : ∀ u b, Acquired s (s₁.endWait n .success) u b ↔ u = n ∧ b = a := by
          intro u b
          have hqueue₁ : (s₁.endWait n .success).waitQueue = update s.waitQueue n none := endWait_waitQueue
          have hresult : (s₁.endWait n .success).waitResult n = .success := endWait_waitResult_self hqueue
          apply acquired_iff hqueue hqueue₁ hresult
          rw [endWait_threads, ← hna]
          exact congrFun hkey n
        have howns : (fun u b => released owns t a u b ∨ Acquired s (s₁.endWait n .success) u b) =
            fun u b => released owns t a u b ∨ u = n ∧ b = a := by
          funext u b
          rw [hacquired]
        have hinv : Inv P (s₁.endWait n .success) fun u b => released owns t a u b ∨ u = n ∧ b = a := by
          apply h.handOver ho hn htree
          · rw [endWait_threads]
            exact hjoined
          · rw [endWait_threads]
            exact howner
          · rw [endWait_threads]
            exact hkey
          · rw [endWait_threads]
            exact hkernel
          · exact endWait_addressKeyValue
          · exact endWait_waitQueue
          · exact hmemory
          · exact endWait_tree
        rw [howns]
        refine ⟨hinv, ?_, fun u hu => ⟨n, ⟨hqueue, hncv, hna⟩, (hacquired n a).mpr ⟨rfl, rfl⟩, ?_⟩⟩
        · have htn : t ≠ n := by
            rintro rfl
            exact hqueue hrun
          rw [endWait_waitQueue, update_of_ne htn]
          exact hrun
        · exact hinv.word_handle (.inr ⟨rfl, rfl⟩)
    · obtain ⟨r, hr⟩ := hreturns fuel hpos
      obtain ⟨threads, rfl, -⟩ := hcall fuel r hr
      unfold MutexState.signalToAddress
      rw [hr]
      exact ⟨_, rfl⟩

theorem endWait_writeToUser {v : Tag} {r : WaitResult} :
    (s.writeToUser a v).endWait t r = (s.endWait t r).writeToUser a v := by
  unfold endWait
  show (if (s.waitQueue t).isSome = true then _ else _) = _
  split <;> rfl

/-- `Wait` releases the word as `SignalToAddress` does. -/
theorem wait_eq {key : ℕ} {value : Tag} {timeout : ℤ} (hne : key ≠ a) :
    s.wait fuel t a key value timeout false = (s.signalToAddress fuel t a).map fun s₁ =>
      if timeout = 0 then (some .timedOut, s₁.writeToUser key 1)
      else (none, ((s₁.writeToUser key 1).setConditionVariable t a key value).beginWait t .waitConditionVariable) := by
  unfold MutexState.wait MutexState.signalToAddress
  rw [if_neg Bool.false_ne_true]
  cases Threads.removeWaiterByKey fuel s.threads t a false with
  | none => rfl
  | some r =>
    obtain ⟨next, hasWaiters, threads⟩ := r
    have hswap : ∀ (s₁ : MutexState) (v w : Tag),
        (s₁.writeToUser key v).writeToUser a w = (s₁.writeToUser a w).writeToUser key v := by
      intro s₁ v w
      show ({ s₁ with memory := _ } : MutexState) = { s₁ with memory := _ }
      congr 1
      exact update_comm hne.symm w v s₁.memory |>.symm
    simp only [Option.bind_eq_bind, Option.bind_some, hswap]
    cases next with
    | none => split <;> rfl
    | some n =>
      simp only [endWait_writeToUser, Option.map_some]
      split <;> rfl

/-- A thread begins to wait in the tree of the condition variables. -/
theorem Inv.enterTree {key : ℕ} (h : Inv P s owns) (ht : t ∈ P.threads) (hrun : s.waitQueue t = none) (ha : a ∈ P.mutexes)
    (hnot : ¬ owns t a) :
    Inv P ((s.setConditionVariable t a key (P.handle t)).beginWait t .waitConditionVariable) owns := by
  obtain ⟨hnone, hncv⟩ := h.running t hrun
  have hjoined := h.joined.setAddressKey (h.waitingLockInfo_none hnone) a false
  set s' := (s.setConditionVariable t a key (P.handle t)).beginWait t .waitConditionVariable with hs'
  have hqueue : s'.waitQueue = update s.waitQueue t (some .waitConditionVariable) := rfl
  refine ⟨hjoined, h.owner, h.unique, h.word, h.free, nodup_cons.mpr ⟨hncv, h.tree⟩, fun u hu => ?_, fun u hu => ?_⟩
  · have hut : u ≠ t := by
      rintro rfl
      rw [hqueue, update_self] at hu
      cases hu
    rw [hqueue, update_of_ne hut] at hu
    obtain ⟨hnone, hnot⟩ := h.running u hu
    exact ⟨hnone, not_mem_cons_of_ne_of_not_mem hut hnot⟩
  · by_cases hut : u = t
    · subst hut
      have hkey : s'.threads.addressKey u = a := update_self ..
      refine ⟨ht, ?_, update_self .., update_self .., ?_, .inl ⟨mem_cons_self, hnone⟩⟩
      · rw [hkey]
        exact ha
      · rw [hkey]
        exact hnot
    · rw [hqueue, update_of_ne hut] at hu
      refine (h.waiting u hu).congr (update_of_ne hut ..) (update_of_ne hut ..)
        (update_of_ne hut ..) ?_ rfl id fun o _ hown hword => ⟨hown, hword⟩
      show u ∈ t :: s.tree ↔ u ∈ s.tree
      rw [mem_cons, or_iff_right hut]

theorem Inv.wait {key : ℕ} {timeout : ℤ} (h : Inv P s owns) (hrun : s.waitQueue t = none) (ho : owns t a)
    (hkey : key ∉ P.mutexes) :
    (∀ fuel r s', s.wait fuel t a key (P.handle t) timeout false = some (r, s') →
      Inv P s' (fun u b => released owns t a u b ∨ Acquired s s' u b) ∧ Wakes P s s' a) ∧
    ∀ fuel, 0 < fuel → ∃ r s', s.wait fuel t a key (P.handle t) timeout false = some (r, s') := by
  obtain ⟨ht, ha⟩ := h.owner t a ho
  have hne : key ≠ a := by
    rintro rfl
    exact hkey ha
  obtain ⟨hcall, hreturns⟩ := h.signalToAddress hrun ho
  refine ⟨fun fuel r s' hs' => ?_, fun fuel hpos => ?_⟩
  · rw [wait_eq hne] at hs'
    obtain ⟨s₁, hs₁, heq⟩ := Option.map_eq_some_iff.mp hs'
    obtain ⟨hinv, hrun₁, hwakes⟩ := hcall fuel s₁ hs₁
    have hinv₁ := hinv.write hkey 1
    by_cases hzero : timeout = 0
    · rw [if_pos hzero] at heq
      obtain ⟨rfl, rfl⟩ := Prod.mk.inj heq
      refine ⟨hinv₁, fun u hu => ?_⟩
      obtain ⟨n, hn, hacq, hword⟩ := hwakes u hu
      refine ⟨n, hn, hacq, ?_⟩
      rw [← hword]
      congr 1
      exact update_of_ne hne.symm ..
    · rw [if_neg hzero] at heq
      obtain ⟨rfl, rfl⟩ := Prod.mk.inj heq
      set s' := ((s₁.writeToUser key 1).setConditionVariable t a key (P.handle t)).beginWait t .waitConditionVariable
      have hacquired : ∀ u b, Acquired s s' u b ↔ Acquired s s₁ u b := by
        intro u b
        by_cases hut : u = t
        · subst hut
          exact iff_of_false (fun hacq => hacq.1 hrun) fun hacq => hacq.1 hrun
        · have hqueue : s'.waitQueue u = s₁.waitQueue u := update_of_ne hut ..
          have hkeyu : s'.threads.addressKey u = s₁.threads.addressKey u := update_of_ne hut ..
          unfold Acquired
          rw [hqueue, hkeyu]
          exact Iff.rfl
      have howns : (fun u b => released owns t a u b ∨ Acquired s s' u b) =
          fun u b => released owns t a u b ∨ Acquired s s₁ u b := by
        funext u b
        rw [hacquired]
      have hnot : ¬ (released owns t a t a ∨ Acquired s s₁ t a) := by
        rintro (hown | hacq)
        · exact hown.2 ⟨rfl, rfl⟩
        · exact hacq.1 hrun
      refine ⟨?_, fun u hu => ?_⟩
      · rw [howns]
        exact hinv₁.enterTree ht hrun₁ ha hnot
      · obtain ⟨n, hn, hacq, hword⟩ := hwakes u hu
        refine ⟨n, hn, (hacquired n a).mpr hacq, ?_⟩
        rw [← hword]
        congr 1
        exact update_of_ne hne.symm ..
  · obtain ⟨s₁, hs₁⟩ := hreturns fuel hpos
    rw [wait_eq hne, hs₁]
    exact ⟨_, _, rfl⟩

theorem Inv.waitForAddress {handle : Tag} {terminationRequested : Bool} {r : Option WaitResult} (h : Inv P s owns)
    (ht : t ∈ P.threads) (hrun : s.waitQueue t = none) (ha : a ∈ P.mutexes) (hnot : ¬ owns t a)
    (hhandle : handle &&& handleWaitMask = 0)
    (hcall : s.waitForAddress P.lookup fuel t handle a (P.handle t) terminationRequested = some (r, s')) :
    Inv P s' owns := by
  unfold MutexState.waitForAddress at hcall
  by_cases hterm : terminationRequested = true
  · rw [if_pos hterm] at hcall
    obtain ⟨-, rfl⟩ := Prod.mk.inj (Option.some.inj hcall)
    exact h
  rw [if_neg hterm] at hcall
  by_cases hword : s.memory a ≠ handle ||| handleWaitMask
  · rw [if_pos hword] at hcall
    obtain ⟨-, rfl⟩ := Prod.mk.inj (Option.some.inj hcall)
    exact h
  rw [if_neg hword, not_not] at *
  obtain ⟨o, ho⟩ := h.exists_owner ha (by rw [hword]; exact or_mask_ne handle)
  -- the handle is the owner's
  have howner : handle = P.handle o := by
    rw [← h.word_handle ho, hword, or_and_not_mask hhandle]
  rw [howner, P.lookup_handle o (h.owner o a ho).1] at hcall
  obtain ⟨hnone, hncv⟩ := h.running t hrun
  have hwait := h.waitingLockInfo_none hnone
  have hjoined := h.joined.setAddressKey hwait a false
  cases hadd : Threads.addWaiter fuel (s.setUserAddressKey t a (P.handle t)).threads o t with
  | none =>
    simp only [hadd, Option.bind_eq_bind, Option.bind_none] at hcall
    cases hcall
  | some threads =>
    simp only [hadd, Option.bind_eq_bind, Option.bind_some] at hcall
    obtain ⟨-, rfl⟩ := Prod.mk.inj (Option.some.inj hcall)
    obtain ⟨hjoined₁, howner₁, hkey₁, hkernel₁⟩ := hjoined.addWaiter hwait hadd
    refine h.block ht ho hnot hjoined₁ howner₁ (fun u hut => ⟨?_, ?_, update_of_ne hut .., update_of_ne hut ..⟩)
      ?_ ?_ (update_self ..) ?_ ?_ (erase_of_not_mem hncv).symm
    · exact (congrFun hkey₁ u).trans (update_of_ne hut ..)
    · exact (congrFun hkernel₁ u).trans (update_of_ne hut ..)
    · exact (congrFun hkey₁ t).trans (update_self ..)
    · exact (congrFun hkernel₁ t).trans (update_self ..)
    · show update s.waitQueue t (some .waitForAddress) t ≠ none
      rw [update_self]
      simp
    · show s.memory = _
      rw [← howner, ← hword, update_eq_self]

/-! ### The condition variable -/

/-- A thread that waits for nothing but the condition variable. -/
theorem Inv.of_mem_tree (h : Inv P s owns) (ht : t ∈ s.tree) :
    s.waitQueue t ≠ none ∧ Waiting P s owns t ∧ s.threads.getLockOwner t = none := by
  have hqueue : s.waitQueue t ≠ none := fun hnone => (h.running t hnone).2 ht
  have hw := h.waiting t hqueue
  rcases hw.place with ⟨-, hnone⟩ | ⟨hnot, -⟩
  · exact ⟨hqueue, hw, hnone⟩
  · exact absurd ht hnot

/-- What a signal of some threads leaves as it is. -/
structure Signalled (targets : List ThreadId) (s s' : MutexState) : Prop where
  tree : ∀ u, u ∉ targets → (u ∈ s'.tree ↔ u ∈ s.tree)
  addressKey : s'.threads.addressKey = s.threads.addressKey
  others : ∀ u, u ∉ targets → s'.waitQueue u = s.waitQueue u ∧ s'.waitResult u = s.waitResult u

theorem signalImpl_free {lookup : Tag → Option ThreadId} (hzero : s.memory (s.threads.addressKey t) = 0) :
    MutexState.signalImpl lookup fuel s t =
      some ((s.writeToUser (s.threads.addressKey t) (s.addressKeyValue t)).endWait t .success) := by
  unfold MutexState.signalImpl updateLockAtomic invalidHandle
  simp only [hzero, if_true]

theorem signalImpl_owned {lookup : Tag → Option ThreadId} (hne : s.memory (s.threads.addressKey t) ≠ 0)
    (ho : lookup (s.memory (s.threads.addressKey t) &&& ~~~handleWaitMask) = some o) :
    MutexState.signalImpl lookup fuel s t = (Threads.addWaiter fuel s.threads o t).map fun threads =>
      { s.writeToUser (s.threads.addressKey t) (s.memory (s.threads.addressKey t) ||| handleWaitMask) with threads } := by
  unfold MutexState.signalImpl updateLockAtomic invalidHandle
  simp only [if_neg hne, ho]
  show ((Threads.addWaiter fuel s.threads o t).bind fun threads => _) = _
  cases Threads.addWaiter fuel s.threads o t <;> rfl

/-- A signalled thread takes the word if it is free, or else waits on its owner. -/
theorem Inv.signalImpl (h : Inv P s owns) (ht : t ∈ s.tree)
    (hcall : signalImpl P.lookup fuel (s.clearConditionVariable t) t = some s') :
    Inv P s' (fun u b => owns u b ∨ Acquired s s' u b) ∧ Signalled [t] s s' := by
  obtain ⟨hqueue, hw, hnone⟩ := h.of_mem_tree ht
  have herase : ∀ u, u ∉ [t] → (u ∈ s.tree.erase t ↔ u ∈ s.tree) := by
    intro u hu
    exact mem_erase_of_ne fun heq => hu (mem_singleton.mpr heq)
  by_cases hzero : s.memory (s.threads.addressKey t) = 0
  · have heq : s' = (((s.clearConditionVariable t).endWait t .success).writeToUser (s.threads.addressKey t) (P.handle t)) := by
      have hfree : (s.clearConditionVariable t).memory (s.threads.addressKey t) = 0 := hzero
      rw [signalImpl_free hfree] at hcall
      rw [← endWait_writeToUser, ← hw.value]
      exact (Option.some.inj hcall).symm
    have hleave : Inv P ((s.clearConditionVariable t).endWait t .success) owns := by
      apply h.leave
      · rw [endWait_threads]
        exact h.joined
      · rw [endWait_threads, ← hnone, update_eq_self]
        rfl
      · rw [endWait_threads]
        rfl
      · rw [endWait_threads]
        rfl
      · exact endWait_addressKeyValue
      · exact endWait_waitQueue
      · exact endWait_memory
      · exact endWait_tree
    have hacquired : ∀ u b, Acquired s s' u b ↔ u = t ∧ b = s.threads.addressKey t := by
      intro u b
      rw [heq]
      apply acquired_iff hqueue
      · exact endWait_waitQueue
      · exact endWait_waitResult_self hqueue
      · show ((s.clearConditionVariable t).endWait t .success).threads.addressKey t = _
        rw [endWait_threads]
        rfl
    have howns : (fun u b => owns u b ∨ Acquired s s' u b) = fun u b => owns u b ∨ u = t ∧ b = s.threads.addressKey t := by
      funext u b
      rw [hacquired]
    rw [howns, heq]
    refine ⟨hleave.acquire hw.thread ?_ hw.key ?_, fun u hu => ?_, ?_, fun u hu => ⟨?_, ?_⟩⟩
    · rw [endWait_waitQueue, update_self]
    · rw [endWait_memory]
      exact hzero
    · show u ∈ ((s.clearConditionVariable t).endWait t .success).tree ↔ _
      rw [endWait_tree]
      exact herase u hu
    · show ((s.clearConditionVariable t).endWait t .success).threads.addressKey = _
      rw [endWait_threads]
      rfl
    · show ((s.clearConditionVariable t).endWait t .success).waitQueue u = _
      rw [endWait_waitQueue, update_of_ne fun heq => hu (mem_singleton.mpr heq)]
      rfl
    · exact endWait_waitResult_of_ne fun heq => hu (mem_singleton.mpr heq)
  · obtain ⟨o, ho⟩ := h.exists_owner hw.key hzero
    have hlookup : P.lookup (s.memory (s.threads.addressKey t) &&& ~~~handleWaitMask) = some o := by
      rw [h.word_handle ho]
      exact P.lookup_handle o (h.owner o _ ho).1
    have hne : (s.clearConditionVariable t).memory (s.threads.addressKey t) ≠ 0 := hzero
    rw [signalImpl_owned hne hlookup] at hcall
    obtain ⟨threads, hadd, rfl⟩ := Option.map_eq_some_iff.mp hcall
    obtain ⟨hjoined₁, howner₁, hkey₁, hkernel₁⟩ := h.joined.addWaiter (h.waitingLockInfo_none hnone) hadd
    set s' : MutexState := { (s.clearConditionVariable t).writeToUser (s.threads.addressKey t)
      (s.memory (s.threads.addressKey t) ||| handleWaitMask) with threads }
    refine ⟨?_, herase, hkey₁, fun u _ => ⟨rfl, rfl⟩⟩
    show Inv P s' fun u b => owns u b ∨ Acquired s s' u b
    have howns : (fun u b => owns u b ∨ Acquired s s' u b) = owns := by
      funext u b
      apply propext
      exact or_iff_left fun hacq => hacq.1 hacq.2.1
    rw [howns]
    apply h.block hw.thread ho hw.notOwner hjoined₁ howner₁
    · exact fun u _ => ⟨congrFun hkey₁ u, congrFun hkernel₁ u, rfl, rfl⟩
    · exact congrFun hkey₁ t
    · exact (congrFun hkernel₁ t).trans hw.isKernel
    · exact hw.value
    · exact hqueue
    · rw [← h.word_or_mask ho]
      rfl
    · rfl

/-- The loop over the threads that are signalled. -/
theorem Inv.signalTargets : ∀ {targets : List ThreadId} {s : MutexState} {owns : ThreadId → ℕ → Prop}, Inv P s owns →
    targets.Nodup → (∀ t ∈ targets, t ∈ s.tree) → signalTargets P.lookup fuel targets s = some s' →
    Inv P s' (fun u b => owns u b ∨ Acquired s s' u b) ∧ Signalled targets s s' := by
  intro targets
  induction targets with
  | nil =>
    intro s owns h _ _ hcall
    obtain rfl := Option.some.inj hcall
    have howns : (fun u b => owns u b ∨ Acquired s s u b) = owns := by
      funext u b
      apply propext
      exact or_iff_left fun hacq => hacq.1 hacq.2.1
    rw [howns]
    exact ⟨h, fun _ _ => Iff.rfl, rfl, fun _ _ => ⟨rfl, rfl⟩⟩
  | cons t ts ih =>
    intro s owns h hnodup htree hcall
    obtain ⟨htts, hts⟩ := nodup_cons.mp hnodup
    unfold MutexState.signalTargets at hcall
    cases hone : MutexState.signalImpl P.lookup fuel (s.clearConditionVariable t) t with
    | none =>
      rw [hone] at hcall
      cases hcall
    | some s₁ =>
      rw [hone, Option.bind_eq_bind, Option.bind_some] at hcall
      obtain ⟨h₁, hsig₁⟩ := h.signalImpl (htree t mem_cons_self) hone
      have htree₁ : ∀ u ∈ ts, u ∈ s₁.tree := by
        intro u hu
        have hut : u ∉ [t] := by
          rw [mem_singleton]
          rintro rfl
          exact htts hu
        exact (hsig₁.tree u hut).mpr (htree u (mem_cons_of_mem t hu))
      obtain ⟨h₂, hsig₂⟩ := ih h₁ hts htree₁ hcall
      -- a thread is woken in the step for it
      have hacquired : ∀ u b, Acquired s s' u b ↔ Acquired s s₁ u b ∨ Acquired s₁ s' u b := by
        intro u b
        by_cases hut : u = t
        · subst hut
          obtain ⟨hqueue, hresult⟩ := hsig₂.others u htts
          unfold Acquired
          rw [hqueue, hresult, hsig₂.addressKey]
          exact (or_iff_left fun hacq => hacq.1 hacq.2.1).symm
        · obtain ⟨hqueue, hresult⟩ := hsig₁.others u (by rwa [mem_singleton])
          unfold Acquired
          rw [hqueue]
          exact (or_iff_right fun hacq => hacq.1 hacq.2.1).symm
      have howns : (fun u b => owns u b ∨ Acquired s s' u b) =
          fun u b => (owns u b ∨ Acquired s s₁ u b) ∨ Acquired s₁ s' u b := by
        funext u b
        rw [hacquired, or_assoc]
      rw [howns]
      refine ⟨h₂, fun u hu => ?_, hsig₂.addressKey.trans hsig₁.addressKey, fun u hu => ?_⟩
      · have hut : u ≠ t := ne_of_not_mem_cons hu
        have huts : u ∉ ts := not_mem_of_not_mem_cons hu
        exact (hsig₂.tree u huts).trans (hsig₁.tree u (by rwa [mem_singleton]))
      · have hut : u ≠ t := ne_of_not_mem_cons hu
        have huts : u ∉ ts := not_mem_of_not_mem_cons hu
        obtain ⟨hqueue₁, hresult₁⟩ := hsig₁.others u (by rwa [mem_singleton])
        obtain ⟨hqueue₂, hresult₂⟩ := hsig₂.others u huts
        exact ⟨hqueue₂.trans hqueue₁, hresult₂.trans hresult₁⟩

theorem Inv.signal {key : ℕ} {targets : List ThreadId} (h : Inv P s owns) (hkey : key ∉ P.mutexes) (hnodup : targets.Nodup)
    (htargets : ∀ t ∈ targets, t ∈ s.tree) (hcall : s.signal P.lookup fuel key targets = some s') :
    Inv P s' fun u b => owns u b ∨ Acquired s s' u b := by
  unfold MutexState.signal at hcall
  cases hloop : MutexState.signalTargets P.lookup fuel targets s with
  | none =>
    rw [hloop] at hcall
    cases hcall
  | some s₁ =>
    rw [hloop, Option.bind_eq_bind, Option.bind_some] at hcall
    obtain ⟨h₁, -⟩ := h.signalTargets hnodup htargets hloop
    split at hcall
    · obtain rfl := Option.some.inj hcall
      exact h₁
    · obtain rfl := Option.some.inj hcall
      exact h₁.write hkey 0

/-! ### Cancellation -/

theorem Inv.cancelWait {result : WaitResult} (h : Inv P s owns) (hcall : s.cancelWait fuel t result = some s') :
    Inv P s' owns := by
  -- the thread is out of its owner's waiters and out of the tree
  have hleave : ∀ threads : Threads, Joined threads →
      threads.getLockOwner = update s.threads.getLockOwner t none → threads.addressKey = s.threads.addressKey →
      threads.isKernelAddressKey = s.threads.isKernelAddressKey →
      Inv P (({ s with threads, tree := s.tree.erase t } : MutexState).endWait t result) owns := by
    intro threads hjoined howner hkey hkernel
    apply h.leave
    · rw [endWait_threads]
      exact hjoined
    · rw [endWait_threads]
      exact howner
    · rw [endWait_threads]
      exact hkey
    · rw [endWait_threads]
      exact hkernel
    · exact endWait_addressKeyValue
    · exact endWait_waitQueue
    · exact endWait_memory
    · exact endWait_tree
  unfold MutexState.cancelWait at hcall
  cases hqueue : s.waitQueue t with
  | none =>
    rw [hqueue] at hcall
    obtain rfl := Option.some.inj hcall
    exact h
  | some queue =>
    rw [hqueue] at hcall
    cases howner : s.threads.getLockOwner t with
    | none =>
      cases queue with
      | waitForAddress =>
        simp only [howner, Option.bind_eq_bind, Option.bind_none] at hcall
        cases hcall
      | waitConditionVariable =>
        have hw := h.waiting t (by rw [hqueue]; simp)
        rcases hw.place with ⟨hmem, -⟩ | ⟨-, o, ho, -⟩
        · simp only [howner, Option.bind_eq_bind, Option.bind_some, if_pos hmem] at hcall
          obtain rfl := Option.some.inj hcall
          apply hleave s.threads h.joined _ rfl rfl
          rw [← howner, update_eq_self]
        · rw [howner] at ho
          cases ho
    | some o =>
      obtain ⟨-, hncv, -, -⟩ := h.lockOwner howner
      cases hremove : Threads.removeWaiter fuel s.threads o t with
      | none =>
        cases queue <;> simp only [howner, hremove, Option.bind_eq_bind, Option.bind_some, Option.bind_none] at hcall <;>
          cases hcall
      | some threads =>
        obtain ⟨hjoined₁, howner₁, hkey₁, hkernel₁⟩ := h.joined.removeWaiter howner hremove
        have hinv := hleave threads hjoined₁ howner₁ hkey₁ hkernel₁
        rw [erase_of_not_mem hncv] at hinv
        cases queue with
        | waitForAddress =>
          simp only [howner, hremove, Option.bind_eq_bind, Option.bind_some] at hcall
          obtain rfl := Option.some.inj hcall
          exact hinv
        | waitConditionVariable =>
          simp only [howner, hremove, Option.bind_eq_bind, Option.bind_some, if_neg hncv] at hcall
          obtain rfl := Option.some.inj hcall
          exact hinv

end MutexState

end Kernel
end Citron
