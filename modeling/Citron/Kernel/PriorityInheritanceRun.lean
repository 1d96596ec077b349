/-
# Runs of the priority inheritance

Each call changes the waits and then restores the priorities from one thread on, or
skips that when the priority cannot have changed. Every thread inherits after each call
of a run without a cycle of waits (`Reaches.inherited`).
-/
import Citron.Kernel.PriorityInheritanceHandOver

namespace Citron
namespace Kernel

open Inheritance Function Option

namespace Threads

variable {s s₁ : Threads} {t u n : ThreadId} {l : LockInfoId} {info : LockWithPriorityInheritanceInfo}

/-- The results of a call are restored, and it returns with enough fuel. -/
def Settles (s : Threads) (call : ℕ → Option Threads) : Prop :=
  (∀ fuel s₁, call fuel = some s₁ → Restored s s₁) ∧ ∃ n, ∀ fuel, n ≤ fuel → ∃ s₁, call fuel = some s₁

/-- The priority of `t` is restored if `c`; else `t` inherits anyway. -/
theorem Linked.settles (h : Linked s) (hothers : ∀ u, u ≠ t → s.Inherited u) {c : Prop} [Decidable c]
    (hkeep : ¬ c → s.Inherited t) :
    Settles s fun fuel => if c then Threads.restorePriority fuel s (some t) else some s := by
  obtain ⟨rank, hrank⟩ := h.ranked
  by_cases hc : c
  · simp only [if_pos hc]
    refine ⟨fun fuel s₁ hs => (h.restorePriority hothers).1 s₁ hs, rank t + 1, fun fuel hle => ?_⟩
    exact isSome_iff_exists.mp ((h.restorePriority hothers).2 rank hrank hle)
  · simp only [if_neg hc]
    have hall : ∀ u, s.Inherited u := by
      intro u
      by_cases hut : u = t
      · rw [hut]
        exact hkeep hc
      · exact hothers u hut
    refine ⟨fun fuel s₁ hs => ?_, 0, fun fuel _ => ⟨s, rfl⟩⟩
    obtain rfl := Option.some.inj hs
    exact ⟨⟨h, hall⟩, rfl, rfl, rfl, rfl⟩

/-! ### The calls -/

theorem Inv.addWaiter (h : Inv s) (hu : s.getLockOwner u = none)
    (hnot : ¬ Relation.ReflTransGen (fun a b => s.getLockOwner a = some b) t u) :
    ∃ s₁, s₁.getLockOwner = update s.getLockOwner u (some t) ∧ Frame s s₁ ∧
      Settles s₁ fun fuel => Threads.addWaiter fuel s t u := by
  obtain ⟨s₁, hrun, h₁, hframe, howner⟩ := h.addWaiterImpl hu hnot
  have hcall : (fun fuel => Threads.addWaiter fuel s t u) = fun fuel =>
      if s₁.priority u < s₁.priority t then Threads.restorePriority fuel s₁ (some t) else some s₁ := by
    funext fuel
    unfold Threads.addWaiter
    rw [hrun, bind_eq_bind, bind_some]
  refine ⟨s₁, howner, hframe, ?_⟩
  rw [hcall]
  have hiff : ∀ v, v ≠ t → ∀ x, s₁.getLockOwner x = some v ↔ s.getLockOwner x = some v := by
    intro v hvt x
    rw [howner]
    by_cases hxu : x = u
    · rw [hxu, update_self, hu]
      exact iff_of_false (fun heq => hvt (Option.some.inj heq).symm) (by simp)
    · rw [update_of_ne hxu]
  apply h₁.settles (t := t)
  · intro v hvt
    show Inherits s₁.basePriority s₁.priority s₁.getLockOwner v
    rw [hframe.basePriority, hframe.priority]
    exact (h.inherited v).congr rfl rfl (hiff v hvt) fun _ _ => rfl
  · intro hle
    show Inherits s₁.basePriority s₁.priority s₁.getLockOwner t
    rw [hframe.priority] at hle
    rw [hframe.basePriority, hframe.priority, howner]
    apply (h.inherited t).gain
    · intro x hx
      by_cases hxu : x = u
      · rw [hxu, hu] at hx
        cases hx
      · rwa [update_of_ne hxu]
    · intro x hx
      by_cases hxu : x = u
      · rw [hxu]
        exact .inr (not_lt.mp hle)
      · rw [update_of_ne hxu] at hx
        exact .inl hx

theorem Inv.removeWaiter (h : Inv s) (hu : s.getLockOwner u = some t) :
    ∃ s₁, s₁.getLockOwner = update s.getLockOwner u none ∧ Frame s s₁ ∧
      Settles s₁ fun fuel => Threads.removeWaiter fuel s t u := by
  obtain ⟨s₁, hrun, h₁, hframe, howner⟩ := h.removeWaiterImpl hu
  have hcall : (fun fuel => Threads.removeWaiter fuel s t u) = fun fuel =>
      if s₁.priority t = s₁.priority u ∧ s₁.priority t < s₁.basePriority t then
        Threads.restorePriority fuel s₁ (some t) else some s₁ := by
    funext fuel
    unfold Threads.removeWaiter
    rw [hrun, bind_eq_bind, bind_some]
  refine ⟨s₁, howner, hframe, ?_⟩
  rw [hcall]
  apply h₁.settles (t := t)
  · intro v hvt
    show Inherits s₁.basePriority s₁.priority s₁.getLockOwner v
    rw [hframe.basePriority, hframe.priority, howner]
    refine (h.inherited v).congr rfl rfl (fun x => ?_) fun _ _ => rfl
    by_cases hxu : x = u
    · rw [hxu, update_self, hu]
      exact iff_of_false (by simp) fun heq => hvt (Option.some.inj heq).symm
    · rw [update_of_ne hxu]
  · intro hnot
    show Inherits s₁.basePriority s₁.priority s₁.getLockOwner t
    rw [hframe.basePriority, hframe.priority] at hnot
    rw [hframe.basePriority, hframe.priority, howner]
    apply (h.inherited t).lose hu
    · intro x hx
      by_cases hxu : x = u
      · rw [hxu, update_self] at hx
        cases hx
      · rwa [update_of_ne hxu] at hx
    · intro x hx
      by_cases hxu : x = u
      · rw [hxu]
        exact .inr le_rfl
      · exact .inl (by rwa [update_of_ne hxu])
    · exact hnot

/-- A change of a base priority, with the restoration. -/
theorem Inv.setBasePriority (h : Inv s) (t : ThreadId) (value : ℤ) :
    Settles { s with basePriority := update s.basePriority t value } fun fuel =>
      Threads.setBasePriority fuel s t value := by
  have hl : Linked { s with basePriority := update s.basePriority t value } := by
    refine ⟨⟨h.links.waiting, h.links.held, h.links.heldNodup, fun l info hl => ?_, h.links.fresh⟩, h.full, h.counts, h.ranked⟩
    have hok := h.links.info l info hl
    exact ⟨hok.nodup, hok.sorted, hok.count, hok.keys⟩
  have hcall : (fun fuel => Threads.setBasePriority fuel s t value) = fun fuel => if True then
      Threads.restorePriority fuel { s with basePriority := update s.basePriority t value } (some t)
      else some { s with basePriority := update s.basePriority t value } := by
    funext fuel
    rw [if_pos trivial]
    rfl
  rw [hcall]
  apply hl.settles
  · intro v hvt
    exact (h.inherited v).congr (update_of_ne hvt _ _) rfl (fun _ => Iff.rfl) fun _ _ => rfl
  · exact fun hfalse => absurd trivial hfalse

/-- The highest priority waiter of the lock takes it over. -/
theorem Inv.removeWaiterByKey {key : ℕ} {isKernel : Bool} (h : Inv s) (hf : s.findHeldLock t key isKernel = some l) :
    ∃ info n s₁, s.lockInfo l = some info ∧ info.getHighestPriorityWaiter = some n ∧
      s₁.getLockOwner = Threads.handedOver s.getLockOwner info.tree n ∧ Frame s s₁ ∧
      ∃ call, Settles s₁ call ∧ ∀ fuel, Threads.removeWaiterByKey fuel s t key isKernel =
        (call fuel).map fun s₂ => (some n, !(info.tree.erase n).isEmpty, s₂) := by
  obtain ⟨info, hl, ho, -, -⟩ := h.links.findHeldLock hf
  obtain ⟨n, hn, hmem, hmin⟩ := h.links.highestPriorityWaiter h.full hl
  obtain ⟨s₁, hlinks, hframe, hfull, -, howner, heq⟩ := h.links.handOver hl ho hmem
  have hok := h.links.info l info hl
  have ht : ∀ v ∈ info.tree, s.getLockOwner v = some t := fun v hv => h.links.getLockOwner_eq.mpr ⟨l, info, hl, hv, ho⟩
  have htn : t ≠ n := (h.ranked.ne (ht n hmem)).symm
  have hself : s.getLockOwner n ≠ some n := fun heq => h.ranked.ne heq rfl
  have hcounted : Linked (countHandedOver s₁ s t n info) := by
    refine ⟨⟨hlinks.waiting, hlinks.held, hlinks.heldNodup, fun k info₁ hk => ?_, hlinks.fresh⟩, hfull h.full, ?_, ?_⟩
    · have hok₁ := hlinks.info k info₁ hk
      exact ⟨hok₁.nodup, hok₁.sorted, hok₁.count, hok₁.keys⟩
    · show Counts s₁.getLockOwner s₁.isKernelAddressKey _
      rw [howner, hframe.isKernelAddressKey]
      exact h.counts.handedOver ht hmem hok.nodup htn hself fun v hv => (hok.keys v hv).2
    · show Ranked s₁.getLockOwner
      rw [howner]
      exact Ranked.handedOver h.ranked ht hmem
  obtain ⟨hothers, hkeep⟩ := inherits_handedOver h.inherited ht hmem htn hself hmin
  have hinherits : ∀ v, Inherits s.basePriority s.priority (Threads.handedOver s.getLockOwner info.tree n) v →
      (countHandedOver s₁ s t n info).Inherited v := by
    intro v hv
    show Inherits s₁.basePriority s₁.priority s₁.getLockOwner v
    rwa [hframe.basePriority, hframe.priority, howner]
  refine ⟨info, n, countHandedOver s₁ s t n info, hl, hn, howner, ⟨hframe.priority, hframe.basePriority,
    hframe.addressKey, hframe.isKernelAddressKey⟩, _, ?_, fun fuel => h.links.removeWaiterByKey_eq hf hl hn heq fuel⟩
  apply hcounted.settles (t := t)
  · exact fun v hvt => hinherits v (hothers v hvt)
  · exact fun hnot => hinherits t (hkeep hnot)

/-- The key of a thread that waits for nothing. -/
theorem Inv.setAddressKey (h : Inv s) (hw : s.waitingLockInfo t = none) (key : ℕ) (isKernel : Bool) :
    Inv (s.setAddressKey t key isKernel) := by
  have hne : ∀ l info, s.lockInfo l = some info → ∀ v ∈ info.tree, v ≠ t := by
    intro l info hl v hv heq
    rw [heq, h.links.mem_tree hl, hw] at hv
    cases hv
  refine ⟨⟨⟨h.links.waiting, h.links.held, h.links.heldNodup, fun l info hl => ?_, h.links.fresh⟩, h.full, fun v => ?_, h.ranked⟩,
    h.inherited⟩
  · have hok := h.links.info l info hl
    refine ⟨hok.nodup, hok.sorted, hok.count, fun v hv => ?_⟩
    have hvt := hne l info hl v hv
    show update s.addressKey t key v = _ ∧ update s.isKernelAddressKey t isKernel v = _
    rw [update_of_ne hvt, update_of_ne hvt]
    exact hok.keys v hv
  · have hset : kernelWaiters s.getLockOwner (update s.isKernelAddressKey t isKernel) v =
        kernelWaiters s.getLockOwner s.isKernelAddressKey v := by
      ext x
      refine and_congr_right fun hx => ?_
      obtain ⟨l, info, hl, hmem, -⟩ := h.links.getLockOwner_eq.mp hx
      rw [update_of_ne (hne l info hl x hmem)]
    show (kernelWaiters s.getLockOwner (update s.isKernelAddressKey t isKernel) v).Finite ∧ s.numKernelWaiters v =
      (kernelWaiters s.getLockOwner (update s.isKernelAddressKey t isKernel) v).ncard
    rw [hset]
    exact h.counts v

theorem inv_initialThreads (basePriority : ThreadId → ℤ) (addressKey : ThreadId → ℕ) (isKernel : ThreadId → Bool) :
    Inv (initialThreads basePriority addressKey isKernel) := by
  refine ⟨⟨⟨fun v k => ?_, fun v k => ?_, fun _ => List.nodup_nil, fun l info hl => ?_, fun _ _ => rfl⟩,
    fun l info hl => ?_, fun v => ?_, ⟨fun _ => 0, fun a b hab => ?_⟩⟩, fun v => ?_⟩
  · exact iff_of_false (fun hk => by cases hk) fun ⟨_, hk, _⟩ => by cases hk
  · exact iff_of_false (fun hk => by cases hk) fun ⟨_, hk, _⟩ => by cases hk
  · cases hl
  · cases hl
  · have hset : kernelWaiters (initialThreads basePriority addressKey isKernel).getLockOwner
        (initialThreads basePriority addressKey isKernel).isKernelAddressKey v = ∅ :=
      Set.eq_empty_of_forall_notMem fun x hx => by cases hx.1
    rw [hset, Set.ncard_empty]
    exact ⟨Set.finite_empty, rfl⟩
  · cases hab
  · exact inherits_iff.mpr ⟨.inl rfl, le_rfl, fun x hx => by cases hx⟩

/-! ### Runs -/

/-- The threads that a run of the calls can reach. A thread waits for one lock at a time,
its key changes while it waits for none, and no wait closes a cycle. -/
inductive Reaches : Threads → Prop
  | initial {basePriority addressKey isKernel} : Reaches (initialThreads basePriority addressKey isKernel)
  | setAddressKey {s t key isKernel} (hr : Reaches s) (hw : s.waitingLockInfo t = none) :
      Reaches (s.setAddressKey t key isKernel)
  | addWaiter {s s₁ t u fuel} (hr : Reaches s) (hw : s.waitingLockInfo u = none)
      (hacyclic : ¬ Relation.ReflTransGen (fun a b => s.getLockOwner a = some b) t u)
      (hrun : addWaiter fuel s t u = some s₁) : Reaches s₁
  | removeWaiter {s s₁ t u fuel} (hr : Reaches s) (ho : s.getLockOwner u = some t)
      (hrun : removeWaiter fuel s t u = some s₁) : Reaches s₁
  | removeWaiterByKey {s s₁ t key isKernel fuel next hasWaiters} (hr : Reaches s)
      (hrun : removeWaiterByKey fuel s t key isKernel = some (next, hasWaiters, s₁)) : Reaches s₁
  | setBasePriority {s s₁ t value fuel} (hr : Reaches s) (hrun : setBasePriority fuel s t value = some s₁) : Reaches s₁
  | increaseBasePriority {s s₁ t priority fuel} (hr : Reaches s)
      (hrun : increaseBasePriority fuel s t priority = some s₁) : Reaches s₁

theorem getLockOwner_of_waiting_none (hw : s.waitingLockInfo u = none) : s.getLockOwner u = none := by
  unfold getLockOwner
  rw [hw]
  rfl

theorem Reaches.inv (hr : Reaches s) : Inv s := by
  induction hr with
  | initial => exact inv_initialThreads _ _ _
  | setAddressKey _ hw ih => exact ih.setAddressKey hw _ _
  | addWaiter _ hw hacyclic hrun ih =>
    obtain ⟨_, -, -, hsettles, -⟩ := ih.addWaiter (getLockOwner_of_waiting_none hw) hacyclic
    exact (hsettles _ _ hrun).inv
  | removeWaiter _ ho hrun ih =>
    obtain ⟨_, -, -, hsettles, -⟩ := ih.removeWaiter ho
    exact (hsettles _ _ hrun).inv
  | @removeWaiterByKey s s₁ t key isKernel fuel next hasWaiters _ hrun ih =>
    cases hf : s.findHeldLock t key isKernel with
    | none =>
      unfold Threads.removeWaiterByKey at hrun
      simp only [hf, Option.some.injEq, Prod.mk.injEq] at hrun
      rw [← hrun.2.2]
      exact ih
    | some l =>
      obtain ⟨info, n, _, -, -, -, -, call, ⟨hsettles, -⟩, hcall⟩ := ih.removeWaiterByKey hf
      rw [hcall fuel] at hrun
      obtain ⟨s₂, hs₂, heq⟩ := map_eq_some_iff.mp hrun
      simp only [Prod.mk.injEq] at heq
      rw [← heq.2.2]
      exact (hsettles _ _ hs₂).inv
  | setBasePriority _ hrun ih => exact ((ih.setBasePriority _ _).1 _ _ hrun).inv
  | @increaseBasePriority s s₁ t priority fuel _ hrun ih =>
    unfold Threads.increaseBasePriority at hrun
    by_cases hlt : s.basePriority t > priority
    · rw [if_pos hlt] at hrun
      exact ((ih.setBasePriority t priority).1 _ _ hrun).inv
    · rw [if_neg hlt, Option.some.injEq] at hrun
      rwa [← hrun]

/-- In every run each thread has the least of its base priority and the priorities of the
threads that wait on locks it owns; each lock info is in its owner's held list only, once,
and has waiters, which it counts; its waiters point to it; the kernel waiters are counted;
and the calls return. -/
theorem Reaches.priority_inheritance (hr : Reaches s) :
    (∀ t, IsLeast (insert (s.basePriority t) (s.priority '' {u | s.getLockOwner u = some t})) (s.priority t)) ∧
    (∀ l info, s.lockInfo l = some info →
      (∃ t, info.owner = some t ∧ (s.heldLockInfoList t).count l = 1 ∧ ∀ u, u ≠ t → l ∉ s.heldLockInfoList u) ∧
      info.tree.Nodup ∧ info.waiterCount = info.tree.length ∧ info.tree ≠ []) ∧
    (∀ t l, l ∈ s.heldLockInfoList t → ∃ info, s.lockInfo l = some info ∧ info.owner = some t) ∧
    (∀ u l, s.waitingLockInfo u = some l ↔ ∃ info, s.lockInfo l = some info ∧ u ∈ info.tree) ∧
    (∀ t, s.numKernelWaiters t = {u | s.getLockOwner u = some t ∧ s.isKernelAddressKey u = true}.ncard) ∧
    (∀ t u, s.waitingLockInfo u = none → ¬ Relation.ReflTransGen (fun a b => s.getLockOwner a = some b) t u →
      ∃ n, ∀ fuel, n ≤ fuel → ∃ s₁, Threads.addWaiter fuel s t u = some s₁) ∧
    (∀ t u, s.getLockOwner u = some t → ∃ n, ∀ fuel, n ≤ fuel → ∃ s₁, Threads.removeWaiter fuel s t u = some s₁) ∧
    (∀ t key isKernel, ∃ n, ∀ fuel, n ≤ fuel → ∃ r, Threads.removeWaiterByKey fuel s t key isKernel = some r) ∧
    (∀ t value, ∃ n, ∀ fuel, n ≤ fuel → ∃ s₁, Threads.setBasePriority fuel s t value = some s₁) ∧
    ∀ t priority, ∃ n, ∀ fuel, n ≤ fuel → ∃ s₁, Threads.increaseBasePriority fuel s t priority = some s₁ := by
  have h := hr.inv
  refine ⟨h.inherited, fun l info hl => ?_, fun t l => (h.links.held t l).mp, h.links.waiting, fun t => (h.counts t).2,
    fun t u hw hacyclic => ?_, fun t u ho => ?_, fun t key isKernel => ?_, fun t value => ?_, fun t priority => ?_⟩
  · have hok := h.links.info l info hl
    obtain ⟨hne, hsome⟩ := h.full l info hl
    obtain ⟨t, ho⟩ := isSome_iff_exists.mp hsome
    refine ⟨⟨t, ho, ?_, fun u hut hmem => ?_⟩, hok.nodup, hok.count, hne⟩
    · exact List.count_eq_one_of_mem (h.links.heldNodup t) ((h.links.mem_held hl).mpr ho)
    · rw [h.links.mem_held hl, ho] at hmem
      exact hut (Option.some.inj hmem).symm
  · obtain ⟨_, -, -, -, hreturns⟩ := h.addWaiter (getLockOwner_of_waiting_none hw) hacyclic
    exact hreturns
  · obtain ⟨_, -, -, -, hreturns⟩ := h.removeWaiter ho
    exact hreturns
  · cases hf : s.findHeldLock t key isKernel with
    | none =>
      refine ⟨0, fun fuel _ => ⟨(none, false, s), ?_⟩⟩
      unfold Threads.removeWaiterByKey
      simp only [hf]
    | some l =>
      obtain ⟨info, n, _, -, -, -, -, call, ⟨-, m, hreturns⟩, hcall⟩ := h.removeWaiterByKey hf
      refine ⟨m, fun fuel hle => ?_⟩
      obtain ⟨s₂, hs₂⟩ := hreturns fuel hle
      exact ⟨_, by rw [hcall fuel, hs₂]; rfl⟩
  · exact (h.setBasePriority t value).2
  · unfold Threads.increaseBasePriority
    by_cases hlt : s.basePriority t > priority
    · simp only [if_pos hlt]
      exact (h.setBasePriority t priority).2
    · simp only [if_neg hlt]
      exact ⟨0, fun _ _ => ⟨s, rfl⟩⟩

/-- Thread `t` has the base priority `44 - t`, and the key 16. -/
def threeThreads : Threads := initialThreads (fun t => 44 - t) (fun _ => 16) fun _ => false

/-- Thread 0 inherits the priority of thread 2, which waits on it. -/
theorem priority_inheritance_threeThreads : ∃ s, Reaches s ∧ s.priority 0 = 42 ∧
    IsLeast (insert (s.basePriority 0) (s.priority '' {u | s.getLockOwner u = some 0})) (s.priority 0) := by
  have hinitial : Reaches threeThreads := .initial
  have hacyclic : ¬ Relation.ReflTransGen (fun a b => threeThreads.getLockOwner a = some b) 0 2 := by
    intro hreach
    rcases Relation.ReflTransGen.cases_head hreach with heq | ⟨x, hx, -⟩
    · cases heq
    · cases hx
  have hrun : ((addWaiter 2 threeThreads 0 2).map fun s => s.priority 0) = some 42 := by decide
  obtain ⟨s, hs, hprio⟩ := map_eq_some_iff.mp hrun
  have hr : Reaches s := .addWaiter hinitial rfl hacyclic hs
  obtain ⟨hleast, -⟩ := Reaches.priority_inheritance hr
  exact ⟨s, hr, hprio, hleast 0⟩

end Threads

end Kernel
end Citron
