/-
# The owner of a mutex word

Who owns a word is kept beside the state. The word has the owner's handle, a thread that
waits for the word waits on the owner, and then the word has the mask (`Inv`). Each step
on a word, and each change of who waits, keeps this.
-/
import Citron.Kernel.ConditionVariable

namespace Citron
namespace Kernel

open Function BitVec

/-- The threads of a process with their handles, and the addresses of its mutex words. -/
structure Process where
  threads : Set ThreadId
  handle : ThreadId → Tag
  lookup : Tag → Option ThreadId
  mutexes : Set ℕ
  lookup_handle : ∀ t ∈ threads, lookup (handle t) = some t
  handle_ne : ∀ t ∈ threads, handle t ≠ invalidHandle
  handle_mask : ∀ t ∈ threads, handle t &&& handleWaitMask = 0

section Masks

variable {w : ℕ} {x m : BitVec w}

theorem or_and_mask : (x ||| m) &&& m = m := by
  ext i hi
  rw [getElem_and, getElem_or]
  cases x[i] <;> cases m[i] <;> rfl

theorem and_not_mask (h : x &&& m = 0) : x &&& ~~~m = x := by
  ext i hi
  have hbit : (x &&& m)[i] = false := by rw [h, ofNat_eq_ofNat, getElem_zero]
  rw [getElem_and] at hbit
  rw [getElem_and, getElem_not]
  revert hbit
  cases x[i] <;> cases m[i] <;> simp

theorem or_and_not_mask (h : x &&& m = 0) : (x ||| m) &&& ~~~m = x := by
  ext i hi
  have hbit : (x &&& m)[i] = false := by rw [h, ofNat_eq_ofNat, getElem_zero]
  rw [getElem_and] at hbit
  rw [getElem_and, getElem_or, getElem_not]
  revert hbit
  cases x[i] <;> cases m[i] <;> simp

theorem or_mask_or_mask : x ||| m ||| m = x ||| m := by rw [BitVec.or_assoc, BitVec.or_self]

theorem handleWaitMask_ne : handleWaitMask ≠ 0 := by decide

/-- A word with the mask is not free. -/
theorem or_mask_ne (tag : Tag) : tag ||| handleWaitMask ≠ 0 := by
  intro h
  have := or_and_mask (x := tag) (m := handleWaitMask)
  rw [h] at this
  exact handleWaitMask_ne (this.symm.trans zero_and)

end Masks

namespace MutexState

open Threads

/-- The kernel ended a thread's wait for a word with success. -/
def Acquired (s s' : MutexState) (t : ThreadId) (a : ℕ) : Prop :=
  s.waitQueue t ≠ none ∧ s'.waitQueue t = none ∧ s'.waitResult t = .success ∧ s'.threads.addressKey t = a

/-- A thread that is blocked in the kernel on a word. -/
def BlockedOn (s : MutexState) (t : ThreadId) (a : ℕ) : Prop :=
  s.waitQueue t ≠ none ∧ t ∉ s.tree ∧ s.threads.addressKey t = a

/-- The words that are owned, without one that is released. -/
def released (owns : ThreadId → ℕ → Prop) (t : ThreadId) (a : ℕ) (u : ThreadId) (b : ℕ) : Prop :=
  owns u b ∧ ¬ (u = t ∧ b = a)

/-- A thread that waits is in the tree of the condition variables, or it waits on the owner
of the word, and the word has the mask. -/
structure Waiting (P : Process) (s : MutexState) (owns : ThreadId → ℕ → Prop) (t : ThreadId) : Prop where
  thread : t ∈ P.threads
  key : s.threads.addressKey t ∈ P.mutexes
  isKernel : s.threads.isKernelAddressKey t = false
  value : s.addressKeyValue t = P.handle t
  notOwner : ¬ owns t (s.threads.addressKey t)
  place : (t ∈ s.tree ∧ s.threads.getLockOwner t = none) ∨
    (t ∉ s.tree ∧ ∃ o, s.threads.getLockOwner t = some o ∧ owns o (s.threads.addressKey t) ∧
      s.memory (s.threads.addressKey t) = P.handle o ||| handleWaitMask)

structure Inv (P : Process) (s : MutexState) (owns : ThreadId → ℕ → Prop) : Prop where
  joined : Joined s.threads
  owner : ∀ t a, owns t a → t ∈ P.threads ∧ a ∈ P.mutexes
  unique : ∀ t u a, owns t a → owns u a → t = u
  word : ∀ t a, owns t a → s.memory a = P.handle t ∨ s.memory a = P.handle t ||| handleWaitMask
  free : ∀ a ∈ P.mutexes, (∀ t, ¬ owns t a) → s.memory a = 0
  tree : s.tree.Nodup
  running : ∀ t, s.waitQueue t = none → s.threads.getLockOwner t = none ∧ t ∉ s.tree
  waiting : ∀ t, s.waitQueue t ≠ none → Waiting P s owns t

/-! ### Words and owners -/

variable {P : Process} {s s' : MutexState} {owns owns' : ThreadId → ℕ → Prop} {t u o n : ThreadId} {a b : ℕ} {fuel : ℕ}
  {tree : List ThreadId}

theorem Inv.word_ne (h : Inv P s owns) (ho : owns t a) : s.memory a ≠ 0 := by
  rcases h.word t a ho with hw | hw
  · rw [hw]
    exact P.handle_ne t (h.owner t a ho).1
  · rw [hw]
    exact or_mask_ne _

theorem Inv.exists_owner (h : Inv P s owns) (ha : a ∈ P.mutexes) (hne : s.memory a ≠ 0) : ∃ o, owns o a := by
  by_contra hnone
  exact hne (h.free a ha fun t ht => hnone ⟨t, ht⟩)

/-- The word of an owner, with the mask or without, names the owner. -/
theorem Inv.word_handle (h : Inv P s owns) (ho : owns o a) : s.memory a &&& ~~~handleWaitMask = P.handle o := by
  have hmask := P.handle_mask o (h.owner o a ho).1
  rcases h.word o a ho with hw | hw
  · rw [hw, and_not_mask hmask]
  · rw [hw, or_and_not_mask hmask]

/-- The mask of a word is added to its owner's handle. -/
theorem Inv.word_or_mask (h : Inv P s owns) (ho : owns o a) :
    s.memory a ||| handleWaitMask = P.handle o ||| handleWaitMask := by
  rcases h.word o a ho with hw | hw
  · rw [hw]
  · rw [hw, or_mask_or_mask]

/-- The owner of the word that a thread waits for is the thread that it waits on. -/
theorem Inv.lockOwner (h : Inv P s owns) (hu : s.threads.getLockOwner u = some t) :
    Waiting P s owns u ∧ u ∉ s.tree ∧ owns t (s.threads.addressKey u) ∧
      s.memory (s.threads.addressKey u) = P.handle t ||| handleWaitMask := by
  have hne : s.waitQueue u ≠ none := by
    intro hnone
    rw [(h.running u hnone).1] at hu
    cases hu
  have hw := h.waiting u hne
  rcases hw.place with ⟨-, hnone⟩ | ⟨hnot, o, ho, hown, hmem⟩
  · rw [hnone] at hu
    cases hu
  · obtain rfl := Option.some.inj (ho.symm.trans hu)
    exact ⟨hw, hnot, hown, hmem⟩

theorem Inv.waitingLockInfo_none (h : Inv P s owns) (hu : s.threads.getLockOwner u = none) :
    s.threads.waitingLockInfo u = none := h.joined.links.waiting_none h.joined.full hu

/-- What a thread that waits needs of the state that a step leads to. -/
theorem Waiting.congr (h : Waiting P s owns t) (hkey : s'.threads.addressKey t = s.threads.addressKey t)
    (hkernel : s'.threads.isKernelAddressKey t = s.threads.isKernelAddressKey t)
    (hvalue : s'.addressKeyValue t = s.addressKeyValue t) (htree : t ∈ s'.tree ↔ t ∈ s.tree)
    (howner : s'.threads.getLockOwner t = s.threads.getLockOwner t)
    (hnot : owns' t (s.threads.addressKey t) → owns t (s.threads.addressKey t))
    (hword : ∀ o, s.threads.getLockOwner t = some o → owns o (s.threads.addressKey t) →
      s.memory (s.threads.addressKey t) = P.handle o ||| handleWaitMask → owns' o (s.threads.addressKey t) ∧
        s'.memory (s.threads.addressKey t) = P.handle o ||| handleWaitMask) : Waiting P s' owns' t := by
  refine ⟨h.thread, ?_, ?_, ?_, ?_, ?_⟩
  · rw [hkey]
    exact h.key
  · rw [hkernel]
    exact h.isKernel
  · rw [hvalue]
    exact h.value
  · rw [hkey]
    exact fun hown => h.notOwner (hnot hown)
  · rw [hkey, htree, howner]
    rcases h.place with hp | ⟨hp, o, ho, hown, hmem⟩
    · exact .inl hp
    · exact .inr ⟨hp, o, ho, hword o ho hown hmem⟩

/-! ### The fields after a step -/

section EndWait

variable {r : WaitResult}

@[simp] theorem endWait_threads : (s.endWait t r).threads = s.threads := by
  unfold endWait
  split <;> rfl

@[simp] theorem endWait_memory : (s.endWait t r).memory = s.memory := by
  unfold endWait
  split <;> rfl

@[simp] theorem endWait_tree : (s.endWait t r).tree = s.tree := by
  unfold endWait
  split <;> rfl

@[simp] theorem endWait_addressKeyValue : (s.endWait t r).addressKeyValue = s.addressKeyValue := by
  unfold endWait
  split <;> rfl

@[simp] theorem endWait_waitQueue : (s.endWait t r).waitQueue = update s.waitQueue t none := by
  unfold endWait
  split
  · rfl
  · next hnone =>
    have : s.waitQueue t = none := by rwa [Bool.not_eq_true, Option.isSome_eq_false_iff, Option.isNone_iff_eq_none] at hnone
    rw [← this, update_eq_self]

theorem endWait_waitResult_self (ht : s.waitQueue t ≠ none) : (s.endWait t r).waitResult t = r := by
  unfold endWait
  rw [if_pos (Option.isSome_iff_ne_none.mpr ht)]
  exact update_self ..

theorem endWait_waitResult_of_ne (hu : u ≠ t) : (s.endWait t r).waitResult u = s.waitResult u := by
  unfold endWait
  split
  · exact update_of_ne hu ..
  · rfl

end EndWait

/-! ### Steps -/

section

variable (h : Inv P s owns)
include h

theorem Inv.write (ha : a ∉ P.mutexes) (v : Tag) : Inv P (s.writeToUser a v) owns := by
  have hmem : ∀ b ∈ P.mutexes, (s.writeToUser a v).memory b = s.memory b := by
    intro b hb
    apply update_of_ne
    rintro rfl
    exact ha hb
  refine ⟨h.joined, h.owner, h.unique, fun t b ho => ?_, fun b hb hnone => ?_, h.tree, h.running, fun t ht => ?_⟩
  · rw [hmem b (h.owner t b ho).2]
    exact h.word t b ho
  · rw [hmem b hb]
    exact h.free b hb hnone
  · have hw := h.waiting t ht
    refine hw.congr rfl rfl rfl Iff.rfl rfl id ?_
    intro o _ hown hword
    exact ⟨hown, (hmem _ hw.key).trans hword⟩

theorem Inv.acquire (ht : t ∈ P.threads) (hrun : s.waitQueue t = none) (ha : a ∈ P.mutexes)
    (hzero : s.memory a = 0) : Inv P (s.writeToUser a (P.handle t)) fun u b => owns u b ∨ u = t ∧ b = a := by
  have hfree : ∀ u, ¬ owns u a := fun u hu => h.word_ne hu hzero
  have hself : (s.writeToUser a (P.handle t)).memory a = P.handle t := update_self ..
  have hother : ∀ b, b ≠ a → (s.writeToUser a (P.handle t)).memory b = s.memory b := by
    intro b hb
    exact update_of_ne hb ..
  refine ⟨h.joined, fun u b ho => ?_, fun u v b hu hv => ?_, fun u b ho => ?_, fun b hb hnone => ?_, h.tree, h.running,
    fun u hu => ?_⟩
  · rcases ho with ho | ⟨rfl, rfl⟩
    · exact h.owner u b ho
    · exact ⟨ht, ha⟩
  · rcases hu with hu | ⟨rfl, rfl⟩
    · rcases hv with hv | ⟨rfl, rfl⟩
      · exact h.unique u v b hu hv
      · exact absurd hu (hfree u)
    · rcases hv with hv | ⟨rfl, -⟩
      · exact absurd hv (hfree v)
      · rfl
  · rcases ho with ho | ⟨rfl, rfl⟩
    · rw [hother b (by rintro rfl; exact hfree u ho)]
      exact h.word u b ho
    · exact .inl hself
  · by_cases hba : b = a
    · exact absurd (.inr ⟨rfl, hba⟩) (hnone t)
    · rw [hother b hba]
      exact h.free b hb fun u hu => hnone u (.inl hu)
  · refine (h.waiting u hu).congr rfl rfl rfl Iff.rfl rfl ?_ ?_
    · rintro (hown | ⟨rfl, -⟩)
      · exact hown
      · exact absurd hrun hu
    · intro o _ hown hword
      refine ⟨.inl hown, ?_⟩
      rw [hother _ (by intro heq; rw [heq] at hown; exact hfree o hown)]
      exact hword

theorem Inv.setWaitMask (ha : a ∈ P.mutexes) (hne : s.memory a ≠ 0) :
    Inv P (s.writeToUser a (s.memory a ||| handleWaitMask)) owns := by
  obtain ⟨o, ho⟩ := h.exists_owner ha hne
  have hself : (s.writeToUser a (s.memory a ||| handleWaitMask)).memory a = P.handle o ||| handleWaitMask :=
    (update_self ..).trans (h.word_or_mask ho)
  have hother : ∀ b, b ≠ a → (s.writeToUser a (s.memory a ||| handleWaitMask)).memory b = s.memory b := by
    intro b hb
    exact update_of_ne hb ..
  refine ⟨h.joined, h.owner, h.unique, fun u b hu => ?_, fun b hb hnone => ?_, h.tree, h.running, fun u hu => ?_⟩
  · by_cases hba : b = a
    · subst hba
      rw [h.unique u o b hu ho]
      exact .inr hself
    · rw [hother b hba]
      exact h.word u b hu
  · by_cases hba : b = a
    · subst hba
      exact absurd ho (hnone o)
    · rw [hother b hba]
      exact h.free b hb hnone
  · refine (h.waiting u hu).congr rfl rfl rfl Iff.rfl rfl id ?_
    intro v _ hown hword
    refine ⟨hown, ?_⟩
    by_cases hba : s.threads.addressKey u = a
    · rw [hba] at hown ⊢
      rw [h.unique v o a hown ho]
      exact hself
    · rw [hother _ hba]
      exact hword

/-- A word is released that nobody waits for. -/
theorem Inv.release (ho : owns t a) (hnone : ∀ u, s.threads.getLockOwner u = some t → s.threads.addressKey u ≠ a) :
    Inv P (s.writeToUser a 0) (released owns t a) := by
  have hother : ∀ b, b ≠ a → (s.writeToUser a 0).memory b = s.memory b := by
    intro b hb
    exact update_of_ne hb ..
  refine ⟨h.joined, fun u b hu => h.owner u b hu.1, fun u v b hu hv => h.unique u v b hu.1 hv.1, fun u b hu => ?_,
    fun b hb hnone => ?_, h.tree, h.running, fun u hu => ?_⟩
  · have hba : b ≠ a := by
      rintro rfl
      exact hu.2 ⟨h.unique u t b hu.1 ho, rfl⟩
    rw [hother b hba]
    exact h.word u b hu.1
  · by_cases hba : b = a
    · rw [hba]
      exact update_self ..
    · rw [hother b hba]
      exact h.free b hb fun u hu => hnone u ⟨hu, fun heq => hba heq.2⟩
  · refine (h.waiting u hu).congr rfl rfl rfl Iff.rfl rfl And.left ?_
    intro o hu hown hmask
    have hba : s.threads.addressKey u ≠ a := by
      intro heq
      rw [heq] at hown
      rw [h.unique o t a hown ho] at hu
      exact hnone u hu heq
    exact ⟨⟨hown, fun heq => hba heq.2⟩, (hother _ hba).trans hmask⟩

/-- Nobody waits for a word without the mask. -/
theorem Inv.word_handle_ne (ho : owns t a) (hword : s.memory a = P.handle t)
    (hu : s.threads.getLockOwner u = some o) : s.threads.addressKey u ≠ a := by
  intro heq
  obtain ⟨-, -, -, hmask⟩ := h.lockOwner hu
  rw [heq, hword] at hmask
  have hzero := P.handle_mask t (h.owner t a ho).1
  rw [hmask, or_and_mask] at hzero
  exact handleWaitMask_ne hzero

/-- A waiter is the next owner of a word, and the other waiters wait on it. -/
theorem Inv.handOver (ho : owns t a) (hn : n ∈ tree)
    (htree : ∀ v, v ∈ tree ↔ s.threads.getLockOwner v = some t ∧ s.threads.addressKey v = a ∧
      s.threads.isKernelAddressKey v = false)
    (hjoined : Joined s'.threads) (howner : s'.threads.getLockOwner = handedOver s.threads.getLockOwner tree n)
    (hkey : s'.threads.addressKey = s.threads.addressKey)
    (hkernel : s'.threads.isKernelAddressKey = s.threads.isKernelAddressKey)
    (hvalue : s'.addressKeyValue = s.addressKeyValue) (hqueue : s'.waitQueue = update s.waitQueue n none)
    (hmemory : s'.memory = update s.memory a
      (if (tree.erase n).isEmpty then P.handle n else P.handle n ||| handleWaitMask))
    (hcv : s'.tree = s.tree) : Inv P s' fun u b => released owns t a u b ∨ u = n ∧ b = a := by
  have hother : ∀ b, b ≠ a → s'.memory b = s.memory b := by
    intro b hb
    rw [hmemory, update_of_ne hb]
  obtain ⟨hnt, hna, -⟩ := (htree n).mp hn
  obtain ⟨hnw, hncv, -, -⟩ := h.lockOwner hnt
  have hapart : ∀ u b, released owns t a u b → b ≠ a := by
    rintro u b hu rfl
    exact hu.2 ⟨h.unique u t b hu.1 ho, rfl⟩
  refine ⟨hjoined, fun u b hu => ?_, fun u v b hu hv => ?_, fun u b hu => ?_, fun b hb hnone => ?_, ?_, fun u hu => ?_,
    fun u hu => ?_⟩
  · rcases hu with hu | ⟨rfl, rfl⟩
    · exact h.owner u b hu.1
    · exact ⟨hnw.thread, (h.owner t b ho).2⟩
  · rcases hu with hu | ⟨rfl, rfl⟩
    · rcases hv with hv | ⟨-, rfl⟩
      · exact h.unique u v b hu.1 hv.1
      · exact absurd rfl (hapart u b hu)
    · rcases hv with hv | ⟨rfl, -⟩
      · exact absurd rfl (hapart v b hv)
      · rfl
  · rcases hu with hu | ⟨rfl, rfl⟩
    · rw [hother b (hapart u b hu)]
      exact h.word u b hu.1
    · rw [hmemory, update_self]
      split
      · exact .inl rfl
      · exact .inr rfl
  · by_cases hba : b = a
    · exact absurd (.inr ⟨rfl, hba⟩) (hnone n)
    · rw [hother b hba]
      exact h.free b hb fun u hu => hnone u (.inl ⟨hu, fun heq => hba heq.2⟩)
  · rw [hcv]
    exact h.tree
  · rw [hcv, howner]
    unfold handedOver
    by_cases hun : u = n
    · subst hun
      exact ⟨if_pos rfl, hncv⟩
    · rw [hqueue, update_of_ne hun] at hu
      obtain ⟨hnone, hnot⟩ := h.running u hu
      have hut : u ∉ tree := by
        intro hmem
        have := ((htree u).mp hmem).1
        rw [hnone] at this
        cases this
      rw [if_neg hun, if_neg hut]
      exact ⟨hnone, hnot⟩
  · have hun : u ≠ n := by
      rintro rfl
      rw [hqueue, update_self] at hu
      exact hu rfl
    rw [hqueue, update_of_ne hun] at hu
    have hw := h.waiting u hu
    have hnotOwner : ¬ (released owns t a u (s.threads.addressKey u) ∨ u = n ∧ s.threads.addressKey u = a) := by
      rintro (hown | hown)
      · exact hw.notOwner hown.1
      · exact hun hown.1
    by_cases hmem : u ∈ tree
    · -- the next owner has waiters
      obtain ⟨hut, hua, -⟩ := (htree u).mp hmem
      have hne : (tree.erase n).isEmpty = false := by
        rw [List.isEmpty_eq_false_iff_exists_mem]
        exact ⟨u, (List.mem_erase_of_ne hun).mpr hmem⟩
      refine ⟨hw.thread, ?_, ?_, ?_, ?_, .inr ⟨?_, n, ?_, ?_, ?_⟩⟩
      · rw [hkey]
        exact hw.key
      · rw [hkernel]
        exact hw.isKernel
      · rw [hvalue]
        exact hw.value
      · rw [hkey]
        exact hnotOwner
      · rw [hcv]
        exact (h.lockOwner hut).2.1
      · rw [howner]
        unfold handedOver
        rw [if_neg hun, if_pos hmem]
      · rw [hkey]
        exact .inr ⟨rfl, hua⟩
      · rw [hkey, hua, hmemory, update_self, hne]
        rfl
    · apply hw.congr (congrFun hkey u) (congrFun hkernel u) (congrFun hvalue u) (by rw [hcv]) _ fun hown => absurd hown hnotOwner
      · intro o huo hown hword
        have hba : s.threads.addressKey u ≠ a := by
          intro heq
          rw [heq] at hown
          rw [h.unique o t a hown ho] at huo
          exact hmem ((htree u).mpr ⟨huo, heq, hw.isKernel⟩)
        exact ⟨.inl ⟨hown, fun heq => hba heq.2⟩, (hother _ hba).trans hword⟩
      · rw [howner]
        unfold handedOver
        rw [if_neg hun, if_neg hmem]

/-- A thread begins to wait on the owner of a word. -/
theorem Inv.block (ht : t ∈ P.threads) (ho : owns o a) (hnot : ¬ owns t a) (hjoined : Joined s'.threads)
    (howner : s'.threads.getLockOwner = update s.threads.getLockOwner t (some o))
    (hothers : ∀ u, u ≠ t → s'.threads.addressKey u = s.threads.addressKey u ∧
      s'.threads.isKernelAddressKey u = s.threads.isKernelAddressKey u ∧ s'.addressKeyValue u = s.addressKeyValue u ∧
      s'.waitQueue u = s.waitQueue u)
    (hkey : s'.threads.addressKey t = a) (hkernel : s'.threads.isKernelAddressKey t = false)
    (hvalue : s'.addressKeyValue t = P.handle t) (hqueue : s'.waitQueue t ≠ none)
    (hmemory : s'.memory = update s.memory a (P.handle o ||| handleWaitMask)) (htree : s'.tree = s.tree.erase t) :
    Inv P s' owns := by
  have hself : s'.memory a = P.handle o ||| handleWaitMask := by rw [hmemory, update_self]
  have hother : ∀ b, b ≠ a → s'.memory b = s.memory b := by
    intro b hb
    rw [hmemory, update_of_ne hb]
  refine ⟨hjoined, h.owner, h.unique, fun u b hu => ?_, fun b hb hnone => ?_, ?_, fun u hu => ?_, fun u hu => ?_⟩
  · by_cases hba : b = a
    · subst hba
      rw [h.unique u o b hu ho]
      exact .inr hself
    · rw [hother b hba]
      exact h.word u b hu
  · by_cases hba : b = a
    · subst hba
      exact absurd ho (hnone o)
    · rw [hother b hba]
      exact h.free b hb hnone
  · rw [htree]
    exact h.tree.erase t
  · have hut : u ≠ t := by
      rintro rfl
      exact hqueue hu
    rw [(hothers u hut).2.2.2] at hu
    rw [howner, update_of_ne hut, htree, List.mem_erase_of_ne hut]
    exact h.running u hu
  · by_cases hut : u = t
    · subst hut
      refine ⟨ht, ?_, hkernel, hvalue, ?_, .inr ⟨?_, o, ?_, ?_, ?_⟩⟩
      · rw [hkey]
        exact (h.owner o a ho).2
      · rw [hkey]
        exact hnot
      · rw [htree]
        exact h.tree.not_mem_erase
      · rw [howner, update_self]
      · rw [hkey]
        exact ho
      · rw [hkey]
        exact hself
    · obtain ⟨hkey₁, hkernel₁, hvalue₁, hqueue₁⟩ := hothers u hut
      rw [hqueue₁] at hu
      apply (h.waiting u hu).congr hkey₁ hkernel₁ hvalue₁ _ _ id
      · intro v _ hown hword
        refine ⟨hown, ?_⟩
        by_cases hba : s.threads.addressKey u = a
        · rw [hba] at hown ⊢
          rw [h.unique v o a hown ho]
          exact hself
        · rw [hother _ hba]
          exact hword
      · rw [htree, List.mem_erase_of_ne hut]
      · rw [howner, update_of_ne hut]

/-- A thread stops waiting without the word. -/
theorem Inv.leave (hjoined : Joined s'.threads)
    (howner : s'.threads.getLockOwner = update s.threads.getLockOwner t none)
    (hkey : s'.threads.addressKey = s.threads.addressKey)
    (hkernel : s'.threads.isKernelAddressKey = s.threads.isKernelAddressKey)
    (hvalue : s'.addressKeyValue = s.addressKeyValue) (hqueue : s'.waitQueue = update s.waitQueue t none)
    (hmemory : s'.memory = s.memory) (htree : s'.tree = s.tree.erase t) : Inv P s' owns := by
  refine ⟨hjoined, h.owner, h.unique, fun u b hu => ?_, fun b hb hnone => ?_, ?_, fun u hu => ?_, fun u hu => ?_⟩
  · rw [hmemory]
    exact h.word u b hu
  · rw [hmemory]
    exact h.free b hb hnone
  · rw [htree]
    exact h.tree.erase t
  · rw [howner, htree]
    by_cases hut : u = t
    · subst hut
      exact ⟨update_self .., h.tree.not_mem_erase⟩
    · rw [hqueue, update_of_ne hut] at hu
      rw [update_of_ne hut, List.mem_erase_of_ne hut]
      exact h.running u hu
  · have hut : u ≠ t := by
      rintro rfl
      rw [hqueue, update_self] at hu
      exact hu rfl
    rw [hqueue, update_of_ne hut] at hu
    apply (h.waiting u hu).congr (congrFun hkey u) (congrFun hkernel u) (congrFun hvalue u) _ _ id
    · intro o _ hown hword
      rw [hmemory]
      exact ⟨hown, hword⟩
    · rw [htree, List.mem_erase_of_ne hut]
    · rw [howner, update_of_ne hut]

end

end MutexState

end Kernel
end Citron
