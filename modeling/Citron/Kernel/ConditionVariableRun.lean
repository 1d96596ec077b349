/-
# Runs of the mutexes

The threads of a process take and release mutex words and call the kernel in any order.
A thread owns a word from the exchange that put its handle there, or from the end of a
wait with success, until it releases the word.
-/
import Citron.Kernel.ConditionVariableCalls

namespace Citron
namespace Kernel
namespace MutexState

open Threads

/-- The states that the threads of a process can reach, with the owners of the words. A
thread that runs takes a free word, sets the mask of a word that is not free, waits for a
word that it does not own, and releases one that it owns. Words that are no mutexes are
written at will. A call that fails because its thread terminates changes nothing. -/
inductive Reaches (P : Process) : MutexState → (ThreadId → ℕ → Prop) → Prop
  | initial {basePriority addressKey isKernel values keys results memory} (hmem : ∀ a ∈ P.mutexes, memory a = 0) :
      Reaches P ⟨initialThreads basePriority addressKey isKernel, values, keys, [], fun _ => none, results, memory⟩
        fun _ _ => False
  | write {s owns a v} (hr : Reaches P s owns) (ha : a ∉ P.mutexes) : Reaches P (s.writeToUser a v) owns
  | acquire {s owns t a} (hr : Reaches P s owns) (ht : t ∈ P.threads) (hrun : s.waitQueue t = none) (ha : a ∈ P.mutexes)
      (hzero : s.memory a = 0) : Reaches P (s.writeToUser a (P.handle t)) fun u b => owns u b ∨ u = t ∧ b = a
  | setWaitMask {s owns a} (hr : Reaches P s owns) (ha : a ∈ P.mutexes) (hne : s.memory a ≠ 0) :
      Reaches P (s.writeToUser a (s.memory a ||| handleWaitMask)) owns
  | waitForAddress {s s' owns t a handle fuel terminationRequested r} (hr : Reaches P s owns) (ht : t ∈ P.threads)
      (hrun : s.waitQueue t = none) (ha : a ∈ P.mutexes) (hnot : ¬ owns t a) (hhandle : handle &&& handleWaitMask = 0)
      (hcall : s.waitForAddress P.lookup fuel t handle a (P.handle t) terminationRequested = some (r, s')) :
      Reaches P s' owns
  | release {s owns t a} (hr : Reaches P s owns) (hrun : s.waitQueue t = none) (ho : owns t a)
      (hword : s.memory a = P.handle t) : Reaches P (s.writeToUser a 0) (released owns t a)
  | signalToAddress {s s' owns t a fuel} (hr : Reaches P s owns) (hrun : s.waitQueue t = none) (ho : owns t a)
      (hcall : s.signalToAddress fuel t a = some s') :
      Reaches P s' fun u b => released owns t a u b ∨ Acquired s s' u b
  | wait {s s' owns t a key timeout fuel r} (hr : Reaches P s owns) (hrun : s.waitQueue t = none) (ho : owns t a)
      (hkey : key ∉ P.mutexes) (hcall : s.wait fuel t a key (P.handle t) timeout false = some (r, s')) :
      Reaches P s' fun u b => released owns t a u b ∨ Acquired s s' u b
  | signal {s s' owns key targets fuel} (hr : Reaches P s owns) (hkey : key ∉ P.mutexes) (hnodup : targets.Nodup)
      (htargets : ∀ t ∈ targets, t ∈ s.tree ∧ s.conditionVariableKey t = key)
      (hcall : s.signal P.lookup fuel key targets = some s') : Reaches P s' fun u b => owns u b ∨ Acquired s s' u b
  | cancelWait {s s' owns t result fuel} (hr : Reaches P s owns) (hresult : result ≠ .success)
      (hcall : s.cancelWait fuel t result = some s') : Reaches P s' owns

variable {P : Process} {s : MutexState} {owns : ThreadId → ℕ → Prop} {a : ℕ}

theorem Reaches.inv (hr : Reaches P s owns) : Inv P s owns := by
  induction hr with
  | initial hmem =>
    refine ⟨⟨(inv_initialThreads _ _ _).links, (inv_initialThreads _ _ _).full, ?_⟩, fun _ _ ho => ho.elim,
      fun _ _ _ ho => ho.elim, fun _ _ ho => ho.elim, fun a ha _ => hmem a ha, List.nodup_nil,
      fun _ _ => ⟨rfl, List.not_mem_nil⟩, fun _ hne => absurd rfl hne⟩
    intro t u o ht
    cases ht
  | write _ ha ih => exact ih.write ha _
  | acquire _ ht hrun ha hzero ih => exact ih.acquire ht hrun ha hzero
  | setWaitMask _ ha hne ih => exact ih.setWaitMask ha hne
  | waitForAddress _ ht hrun ha hnot hhandle hcall ih => exact ih.waitForAddress ht hrun ha hnot hhandle hcall
  | release _ _ ho hword ih => exact ih.release ho fun u hu => ih.word_handle_ne ho hword hu
  | signalToAddress _ hrun ho hcall ih => exact ((ih.signalToAddress hrun ho).1 _ _ hcall).1
  | wait _ hrun ho hkey hcall ih => exact ((ih.wait hrun ho hkey).1 _ _ _ hcall).1
  | signal _ hkey hnodup htargets hcall ih => exact ih.signal hkey hnodup (fun t ht => (htargets t ht).1) hcall
  | cancelWait _ _ hcall ih => exact ih.cancelWait hcall

/-- **The hand-over of a mutex.** One thread at most owns a word, and the word without the
mask is its handle, or 0 if there is none. While a thread is blocked on the word, the mask
is set and the thread is among the owner's waiters, so the word is not released without
the kernel, and both calls that release it return and wake a thread that is blocked on it. -/
theorem Reaches.mutex (hr : Reaches P s owns) (ha : a ∈ P.mutexes) :
    (∀ t u, owns t a → owns u a → t = u) ∧
    (∀ t, owns t a → s.memory a &&& ~~~handleWaitMask = P.handle t) ∧
    ((∀ t, ¬ owns t a) → s.memory a = 0) ∧
    (∀ u, BlockedOn s u a → s.memory a &&& handleWaitMask = handleWaitMask ∧
      ∃ o l info, owns o a ∧ l ∈ s.threads.heldLockInfoList o ∧ s.threads.lockInfo l = some info ∧ info.addressKey = a ∧
        u ∈ info.tree) ∧
    (∀ t u, owns t a → BlockedOn s u a → s.memory a ≠ P.handle t) ∧
    ∀ t, owns t a → s.waitQueue t = none →
      ((∀ fuel s', s.signalToAddress fuel t a = some s' → Wakes P s s' a) ∧
        ∀ fuel, 0 < fuel → ∃ s', s.signalToAddress fuel t a = some s') ∧
      ∀ key timeout, key ∉ P.mutexes →
        (∀ fuel r s', s.wait fuel t a key (P.handle t) timeout false = some (r, s') → Wakes P s s' a) ∧
        ∀ fuel, 0 < fuel → ∃ r s', s.wait fuel t a key (P.handle t) timeout false = some (r, s') := by
  have h := hr.inv
  have hblocked : ∀ u, BlockedOn s u a → ∃ o, owns o a := by
    intro u hu
    rcases (h.waiting u hu.1).place with ⟨hmem, -⟩ | ⟨-, o, -, hown, -⟩
    · exact absurd hmem hu.2.1
    · exact ⟨o, hu.2.2 ▸ hown⟩
  refine ⟨fun t u => h.unique t u a, fun t ho => h.word_handle ho, h.free a ha, fun u hu => ?_, fun t u ho hu hword => ?_,
    fun t ho hrun => ⟨⟨fun fuel s' hcall => ?_, (h.signalToAddress hrun ho).2⟩, fun key timeout hkey =>
      ⟨fun fuel r s' hcall => ?_, (h.wait hrun ho hkey).2⟩⟩⟩
  · obtain ⟨o, ho⟩ := hblocked u hu
    obtain ⟨howner, -, hword⟩ := h.blockedOn ho hu
    obtain ⟨l, info, hl, hmem, hinfo⟩ := h.joined.links.getLockOwner_eq.mp howner
    refine ⟨?_, o, l, info, ho, (h.joined.links.mem_held hl).mpr hinfo, hl, ?_, hmem⟩
    · rw [hword, or_and_mask]
    · exact ((h.joined.links.info l info hl).keys u hmem).1.symm.trans hu.2.2
  · exact h.word_handle_ne ho hword (h.blockedOn ho hu).1 hu.2.2
  · exact ((h.signalToAddress hrun ho).1 fuel s' hcall).2.2
  · exact ((h.wait hrun ho hkey).1 fuel r s' hcall).2

/-- Threads 0 and 1 have the handles 1 and 2, and the word at 16 is a mutex. -/
def twoThreads : Process where
  threads := {0, 1}
  handle t := BitVec.ofNat 32 (t + 1)
  lookup handle := some (handle.toNat - 1)
  mutexes := {16}
  lookup_handle t ht := by
    rcases ht with rfl | rfl
    · rfl
    · rfl
  handle_ne t ht := by
    rcases ht with rfl | rfl
    · decide
    · decide
  handle_mask t ht := by
    rcases ht with rfl | rfl
    · decide
    · decide

/-- Thread 1 waits for the word that thread 0 owns, and is woken by the release. -/
theorem mutex_twoThreads : ∃ s s' owns, Reaches twoThreads s owns ∧ BlockedOn s 1 16 ∧ owns 0 16 ∧
    s.memory 16 &&& handleWaitMask = handleWaitMask ∧ s.signalToAddress 1 0 16 = some s' ∧
    ∃ n, BlockedOn s n 16 ∧ Acquired s s' n 16 ∧ s'.memory 16 &&& ~~~handleWaitMask = twoThreads.handle n := by
  have ha : 16 ∈ twoThreads.mutexes := rfl
  let s₀ : MutexState := ⟨initialThreads (fun _ => 44) (fun _ => 0) fun _ => false, fun _ => 0, fun _ => 0, [],
    fun _ => none, fun _ => .success, fun _ => 0⟩
  let s₁ := s₀.writeToUser 16 (twoThreads.handle 0)
  let s₂ := s₁.writeToUser 16 (s₁.memory 16 ||| handleWaitMask)
  have hr₀ : Reaches twoThreads s₀ fun _ _ => False := .initial fun _ _ => rfl
  have h0 : (0 : ThreadId) ∈ twoThreads.threads := Or.inl rfl
  have h1 : (1 : ThreadId) ∈ twoThreads.threads := Or.inr rfl
  have hr₁ : Reaches twoThreads s₁ _ := .acquire hr₀ h0 rfl ha rfl
  have hr₂ : Reaches twoThreads s₂ _ := .setWaitMask hr₁ ha (by decide)
  have hcall : ((s₂.waitForAddress twoThreads.lookup 1 1 1 16 (twoThreads.handle 1) false).map fun r =>
      (r.2.waitQueue 0, r.2.waitQueue 1, r.2.tree, r.2.threads.addressKey 1)) =
      some (none, some .waitForAddress, [], 16) := by decide
  obtain ⟨⟨r, s⟩, hs, hfields⟩ := Option.map_eq_some_iff.mp hcall
  simp only [Prod.mk.injEq] at hfields
  obtain ⟨hrun, hqueue, htree, hkey⟩ := hfields
  have hnot : ¬ (False ∨ (1 : ThreadId) = 0 ∧ 16 = 16) := by decide
  have hr : Reaches twoThreads s _ := .waitForAddress hr₂ h1 rfl ha hnot (by decide) hs
  have hblocked : BlockedOn s 1 16 := ⟨by rw [hqueue]; simp, by rw [htree]; simp, hkey⟩
  obtain ⟨-, -, -, hmask, -, hrelease⟩ := Reaches.mutex hr ha
  obtain ⟨⟨hwakes, hreturns⟩, -⟩ := hrelease 0 (.inr ⟨rfl, rfl⟩) hrun
  obtain ⟨s', hs'⟩ := hreturns 1 one_pos
  exact ⟨s, s', _, hr, hblocked, .inr ⟨rfl, rfl⟩, (hmask 1 hblocked).1, hs', hwakes 1 s' hs' 1 hblocked⟩

end MutexState

end Kernel
end Citron
