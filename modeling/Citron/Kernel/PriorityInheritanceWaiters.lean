/-
# Adding and removing waiters

`AddWaiterImpl` and `RemoveWaiterImpl` change what one thread waits for, and keep the
links and the counts of the kernel waiters (`Linked`).
-/
import Citron.Kernel.PriorityInheritanceLinks

namespace Citron

open List Function

namespace Kernel

open Inheritance

namespace Threads

/-! ### The counts -/

/-- The threads that wait on a thread with a kernel key. -/
def kernelWaiters (owner : ThreadId → Option ThreadId) (isKernel : ThreadId → Bool) (t : ThreadId) : Set ThreadId :=
  {u | owner u = some t ∧ isKernel u = true}

/-- Each thread counts its waiters with a kernel key. -/
def Counts (owner : ThreadId → Option ThreadId) (isKernel : ThreadId → Bool) (num : ThreadId → ℤ) : Prop :=
  ∀ t, (kernelWaiters owner isKernel t).Finite ∧ num t = (kernelWaiters owner isKernel t).ncard

section Counts

variable {owner : ThreadId → Option ThreadId} {isKernel : ThreadId → Bool} {num : ThreadId → ℤ} {t u v : ThreadId}

theorem kernelWaiters_update_of_ne {w : Option ThreadId} (h : w ≠ some v) (hold : owner u ≠ some v) :
    kernelWaiters (update owner u w) isKernel v = kernelWaiters owner isKernel v := by
  ext x
  by_cases hx : x = u
  · subst hx
    refine iff_of_false (fun hmem => h ?_) fun hmem => hold hmem.1
    have heq : update owner x w x = some v := hmem.1
    rwa [update_self] at heq
  · show update owner u w x = some v ∧ _ ↔ _
    rw [update_of_ne hx]
    exact Iff.rfl

theorem Counts.add (h : Counts owner isKernel num) (hu : owner u = none) :
    Counts (update owner u (some t)) isKernel
      (if isKernel u then update num t (num t + 1) else num) := by
  intro v
  obtain ⟨hfin, hnum⟩ := h v
  by_cases hvt : v = t
  · subst hvt
    by_cases hk : isKernel u = true
    · have hset : kernelWaiters (update owner u (some v)) isKernel v = insert u (kernelWaiters owner isKernel v) := by
        ext x
        show update owner u (some v) x = some v ∧ isKernel x = true ↔ x = u ∨ (owner x = some v ∧ isKernel x = true)
        by_cases hx : x = u
        · subst hx
          rw [update_self]
          exact iff_of_true ⟨rfl, hk⟩ (.inl rfl)
        · rw [update_of_ne hx, or_iff_right hx]
      have hnot : u ∉ kernelWaiters owner isKernel v := fun hmem => by
        have := hmem.1
        rw [hu] at this
        cases this
      rw [hset, if_pos hk, update_self, Set.ncard_insert_of_notMem hnot hfin, hnum]
      exact ⟨hfin.insert u, by push_cast; rfl⟩
    · have hset : kernelWaiters (update owner u (some v)) isKernel v = kernelWaiters owner isKernel v := by
        ext x
        show update owner u (some v) x = some v ∧ isKernel x = true ↔ owner x = some v ∧ isKernel x = true
        by_cases hx : x = u
        · subst hx
          exact iff_of_false (fun hmem => hk hmem.2) fun hmem => hk hmem.2
        · rw [update_of_ne hx]
      rw [hset, if_neg hk]
      exact ⟨hfin, hnum⟩
  · have hset : kernelWaiters (update owner u (some t)) isKernel v = kernelWaiters owner isKernel v :=
      kernelWaiters_update_of_ne (fun heq => hvt (Option.some.inj heq).symm) (by rw [hu]; simp)
    have hsame : (if isKernel u then update num t (num t + 1) else num) v = num v := by
      by_cases hk : isKernel u = true
      · rw [if_pos hk, update_of_ne hvt]
      · rw [if_neg hk]
    rw [hset, hsame]
    exact ⟨hfin, hnum⟩

theorem Counts.remove (h : Counts owner isKernel num) (hu : owner u = some t) :
    Counts (update owner u none) isKernel
      (if isKernel u then update num t (num t + -1) else num) := by
  intro v
  obtain ⟨hfin, hnum⟩ := h v
  by_cases hvt : v = t
  · subst hvt
    have hset : kernelWaiters (update owner u none) isKernel v = kernelWaiters owner isKernel v \ {u} := by
      ext x
      show update owner u none x = some v ∧ isKernel x = true ↔ (owner x = some v ∧ isKernel x = true) ∧ x ≠ u
      by_cases hx : x = u
      · subst hx
        rw [update_self]
        exact iff_of_false (fun hmem => by cases hmem.1) fun hmem => hmem.2 rfl
      · rw [update_of_ne hx]
        exact (and_iff_left hx).symm
    rw [hset]
    by_cases hk : isKernel u = true
    · have hmem : u ∈ kernelWaiters owner isKernel v := ⟨hu, hk⟩
      have hpos : 0 < (kernelWaiters owner isKernel v).ncard := (Set.ncard_pos hfin).mpr ⟨u, hmem⟩
      rw [if_pos hk, update_self, Set.ncard_sdiff_singleton_of_mem hmem, hnum]
      refine ⟨hfin.subset Set.sdiff_subset, ?_⟩
      omega
    · have hnot : u ∉ kernelWaiters owner isKernel v := fun hmem => hk hmem.2
      rw [Set.sdiff_singleton_eq_self hnot, if_neg hk]
      exact ⟨hfin, hnum⟩
  · have hset : kernelWaiters (update owner u none) isKernel v = kernelWaiters owner isKernel v :=
      kernelWaiters_update_of_ne (by simp) fun heq => hvt (Option.some.inj (heq.symm.trans hu))
    have hsame : (if isKernel u then update num t (num t + -1) else num) v = num v := by
      by_cases hk : isKernel u = true
      · rw [if_pos hk, update_of_ne hvt]
      · rw [if_neg hk]
    rw [hset, hsame]
    exact ⟨hfin, hnum⟩

end Counts

/-! ### Waiters -/

variable {s s₁ : Threads} {t u o : ThreadId} {l : LockInfoId} {info : LockWithPriorityInheritanceInfo}

theorem getLockOwner_congr (hw : s₁.waitingLockInfo = s.waitingLockInfo)
    (hl : ∀ v k, s.waitingLockInfo v = some k → s₁.lockInfo k = s.lockInfo k) : s₁.getLockOwner = s.getLockOwner := by
  funext v
  unfold getLockOwner
  rw [hw]
  cases hk : s.waitingLockInfo v with
  | none => rfl
  | some k => rw [Option.bind_some, Option.bind_some, hl v k hk]

theorem Links.addNumKernelWaiters (h : Links s) (n : ℤ) : Links (s.addNumKernelWaiters t n) :=
  ⟨h.waiting, h.held, h.heldNodup, fun l info hl =>
    have hok := h.info l info hl
    ⟨hok.nodup, hok.sorted, hok.count, hok.keys⟩, h.fresh⟩

/-- The kernel waiters are counted before the links change. -/
theorem Links.counted (h : Links s) (n : ℤ) :
    Links (if s.isKernelAddressKey u then s.addNumKernelWaiters t n else s) ∧
    Frame s (if s.isKernelAddressKey u then s.addNumKernelWaiters t n else s) ∧
    (if s.isKernelAddressKey u then s.addNumKernelWaiters t n else s).getLockOwner = s.getLockOwner ∧
    (if s.isKernelAddressKey u then s.addNumKernelWaiters t n else s).waitingLockInfo = s.waitingLockInfo ∧
    (if s.isKernelAddressKey u then s.addNumKernelWaiters t n else s).lockInfo = s.lockInfo ∧
    (if s.isKernelAddressKey u then s.addNumKernelWaiters t n else s).numKernelWaiters =
      if s.isKernelAddressKey u then update s.numKernelWaiters t (s.numKernelWaiters t + n)
      else s.numKernelWaiters := by
  by_cases hk : s.isKernelAddressKey u = true
  · rw [if_pos hk, if_pos hk]
    exact ⟨h.addNumKernelWaiters n, ⟨rfl, rfl, rfl, rfl⟩, rfl, rfl, rfl, rfl⟩
  · rw [if_neg hk, if_neg hk]
    exact ⟨h, ⟨rfl, rfl, rfl, rfl⟩, rfl, rfl, rfl, rfl⟩

theorem Links.findHeldLock {key : ℕ} {isKernel : Bool} (h : Links s) (hf : s.findHeldLock t key isKernel = some l) :
    ∃ info, s.lockInfo l = some info ∧ info.owner = some t ∧ info.addressKey = key ∧ info.isKernelAddressKey = isKernel := by
  obtain ⟨info, hl, ho⟩ := (h.held t l).mp (mem_of_find?_eq_some hf)
  have hkey := find?_some hf
  rw [hl, Option.any_some, Bool.and_eq_true, beq_iff_eq, beq_iff_eq] at hkey
  exact ⟨info, hl, ho, hkey⟩

theorem Full.update (h : Full s) (hinfo : info.tree ≠ [] ∧ info.owner.isSome)
    (hl : s₁.lockInfo = update s.lockInfo l (some info)) : Full s₁ := by
  intro k info₁ hk
  rw [hl, update_apply] at hk
  by_cases hkl : k = l
  · rw [if_pos hkl, Option.some.injEq] at hk
    rwa [← hk]
  · rw [if_neg hkl] at hk
    exact h k info₁ hk

theorem Unique.addWaiter (h : Unique s) (ho : s₁.getLockOwner = update s.getLockOwner u (some t))
    (hw : s₁.waitingLockInfo = update s.waitingLockInfo u (some l)) (hframe : Frame s s₁)
    (hsame : ∀ v, s.getLockOwner v = some t → s.addressKey v = s.addressKey u →
      s.isKernelAddressKey v = s.isKernelAddressKey u → s.waitingLockInfo v = some l) : Unique s₁ := by
  intro v w o hv hw₁ hkey hkernel
  rw [ho] at hv hw₁
  rw [hframe.addressKey] at hkey
  rw [hframe.isKernelAddressKey] at hkernel
  rw [hw]
  by_cases hvu : v = u
  · by_cases hwu : w = u
    · rw [hvu, hwu]
    · rw [update_of_ne hwu] at hw₁
      rw [hvu, update_self, Option.some.injEq] at hv
      subst hv
      rw [hvu, update_self, update_of_ne hwu, hsame w hw₁ (hvu ▸ hkey.symm) (hvu ▸ hkernel.symm)]
  · rw [update_of_ne hvu] at hv
    by_cases hwu : w = u
    · rw [hwu, update_self, Option.some.injEq] at hw₁
      subst hw₁
      rw [hwu, update_self, update_of_ne hvu, hsame v hv (hwu ▸ hkey) (hwu ▸ hkernel)]
    · rw [update_of_ne hwu] at hw₁
      rw [update_of_ne hvu, update_of_ne hwu]
      exact h v w o hv hw₁ hkey hkernel

theorem Unique.removeWaiter (h : Unique s) (ho : s₁.getLockOwner = update s.getLockOwner u none)
    (hw : s₁.waitingLockInfo = update s.waitingLockInfo u none) (hframe : Frame s s₁) : Unique s₁ := by
  have hne : ∀ {v o}, s₁.getLockOwner v = some o → v ≠ u ∧ s.getLockOwner v = some o := by
    intro v o hv
    rw [ho] at hv
    by_cases hvu : v = u
    · rw [hvu, update_self] at hv
      cases hv
    · rw [update_of_ne hvu] at hv
      exact ⟨hvu, hv⟩
  intro v w o hv hw₁ hkey hkernel
  obtain ⟨hvu, hv⟩ := hne hv
  obtain ⟨hwu, hw₁⟩ := hne hw₁
  rw [hframe.addressKey] at hkey
  rw [hframe.isKernelAddressKey] at hkernel
  rw [hw, update_of_ne hvu, update_of_ne hwu]
  exact h v w o hv hw₁ hkey hkernel

/-- The lock info that a thread is to wait on: the held lock of its key, or a new one. -/
theorem Links.heldLock (h : Links s) (t : ThreadId) (key : ℕ) (isKernel : Bool) :
    ∃ l info s₁, Links s₁ ∧ Frame s s₁ ∧ s₁.numKernelWaiters = s.numKernelWaiters ∧ s₁.getLockOwner = s.getLockOwner ∧
      s₁.waitingLockInfo = s.waitingLockInfo ∧ s₁.lockInfo l = some info ∧ info.owner = some t ∧
      info.addressKey = key ∧ info.isKernelAddressKey = isKernel ∧ (∀ k, k ≠ l → s₁.lockInfo k = s.lockInfo k) ∧
      (Full s → Unique s → ∀ v, s.getLockOwner v = some t → s.addressKey v = key → s.isKernelAddressKey v = isKernel →
        s.waitingLockInfo v = some l) ∧
      ∀ u, (match s.findHeldLock t key isKernel with
        | some l => s.lockAddWaiter l u
        | none => do
          let (l, s) := s.createLockInfo key isKernel
          let s ← s.addHeldLock t l
          s.lockAddWaiter l u) = s₁.lockAddWaiter l u := by
  cases hf : s.findHeldLock t key isKernel with
  | some l =>
    obtain ⟨info, hl, ho, hkey, hkernel⟩ := h.findHeldLock hf
    refine ⟨l, info, s, h, ⟨rfl, rfl, rfl, rfl⟩, rfl, rfl, rfl, hl, ho, hkey, hkernel, fun _ _ => rfl, ?_, fun _ => rfl⟩
    intro hfull hunique v hv hvkey hvkernel
    -- the lock has a waiter, and `v` waits in the same tree
    obtain ⟨w, hw⟩ := exists_mem_of_ne_nil _ (hfull l info hl).1
    have hok := (h.info l info hl).keys w hw
    have howner : s.getLockOwner w = some t := h.getLockOwner_eq.mpr ⟨l, info, hl, hw, ho⟩
    rw [hunique v w t hv howner (hvkey.trans (hkey.symm.trans hok.1.symm)) (hvkernel.trans (hkernel.symm.trans hok.2.symm))]
    exact (h.mem_tree hl).mp hw
  | none =>
    obtain ⟨h₁, hframe, hinfo⟩ := h.createLockInfo key isKernel
    have hl : (s.createLockInfo key isKernel).2.lockInfo s.nextLockInfo = some ⟨[], key, none, 0, isKernel⟩ := by
      rw [hinfo, update_self]
    obtain ⟨s₂, hrun, h₂, hframe₂, hnum, hwaiting, -, hinfo₂⟩ := h₁.setOwner (t := t) hl rfl
    have hsame : ∀ k, k ≠ s.nextLockInfo → s₂.lockInfo k = s.lockInfo k := by
      intro k hk
      rw [hinfo₂, update_of_ne hk, hinfo, update_of_ne hk]
    refine ⟨s.nextLockInfo, ⟨[], key, some t, 0, isKernel⟩, s₂, h₂, hframe.trans hframe₂, hnum, ?_, hwaiting, ?_, rfl, rfl,
      rfl, hsame, fun _ _ v hv hvkey hvkernel => ?_, fun u => ?_⟩
    · have hwaiting₁ : s₂.waitingLockInfo = s.waitingLockInfo := hwaiting
      apply getLockOwner_congr hwaiting₁
      intro v k hk
      refine hsame k fun heq => ?_
      obtain ⟨info, hlk, -⟩ := (h.waiting v k).mp hk
      rw [heq, h.fresh _ le_rfl] at hlk
      cases hlk
    · rw [hinfo₂, update_self]
    · -- the owner would have had the lock of the key
      obtain ⟨l, info, hlv, hmem, ho⟩ := h.getLockOwner_eq.mp hv
      have hok := (h.info l info hlv).keys v hmem
      have hnone := find?_eq_none.mp hf l ((h.mem_held hlv).mpr ho)
      refine absurd ?_ hnone
      rw [hlv, Option.any_some, Bool.and_eq_true, beq_iff_eq, beq_iff_eq]
      exact ⟨hok.1.symm.trans hvkey, hok.2.symm.trans hvkernel⟩
    · show ((s.createLockInfo key isKernel).2.addHeldLock t s.nextLockInfo).bind
        (fun x => x.lockAddWaiter s.nextLockInfo u) = _
      rw [hrun, Option.bind_some]

theorem Links.addWaiterImpl (h : Links s) (t : ThreadId) (hw : s.waitingLockInfo u = none) :
    ∃ s₁, s.addWaiterImpl t u = some s₁ ∧ Links s₁ ∧ Frame s s₁ ∧ (Full s → Full s₁) ∧
      (Full s → Unique s → Unique s₁) ∧ s₁.getLockOwner = update s.getLockOwner u (some t) ∧
      s₁.numKernelWaiters = if s.isKernelAddressKey u then
        update s.numKernelWaiters t (s.numKernelWaiters t + 1) else s.numKernelWaiters := by
  set counted := if s.isKernelAddressKey u then s.addNumKernelWaiters t 1 else s
  obtain ⟨h₀, hframe₀, howner₀, hwait₀, hinfo₀, hnum₀⟩ := h.counted (t := t) (u := u) 1
  obtain ⟨l, info, s₁, h₁, hframe₁, hnum₁, howner₁, hwait₁, hl, ho, hkey, hkernel, hother, hsame, hrun₁⟩ :=
    h₀.heldLock t (s.addressKey u) (s.isKernelAddressKey u)
  have hframe := hframe₀.trans hframe₁
  have hkeys : s₁.addressKey u = info.addressKey ∧ s₁.isKernelAddressKey u = info.isKernelAddressKey := by
    rw [hframe.addressKey, hframe.isKernelAddressKey]
    exact ⟨hkey.symm, hkernel.symm⟩
  have hnone : s₁.waitingLockInfo u = none := by rw [hwait₁, hwait₀, hw]
  obtain ⟨s₂, hrun₂, h₂, hframe₂, hnum₂, howner₂, hwait₂, tree, count, htree, hinfo₂⟩ := h₁.lockAddWaiter hl hnone hkeys
  have howners : s₂.getLockOwner = update s.getLockOwner u (some t) := by rw [howner₂, howner₁, howner₀, ho]
  refine ⟨s₂, ?_, h₂, hframe.trans hframe₂, fun hfull k info₁ hk => ?_, fun hfull hunique => ?_, howners, ?_⟩
  · exact (hrun₁ u).trans hrun₂
  · rw [hinfo₂, update_apply] at hk
    by_cases hkl : k = l
    · rw [if_pos hkl, Option.some.injEq] at hk
      rw [← hk]
      exact ⟨htree, by rw [ho]; rfl⟩
    · rw [if_neg hkl, hother k hkl, hinfo₀] at hk
      exact hfull k info₁ hk
  · apply Unique.addWaiter hunique howners (hwait₂.trans (by rw [hwait₁, hwait₀])) (hframe.trans hframe₂)
    intro v hv hvkey hvkernel
    rw [← hwait₀]
    apply hsame
    · split <;> exact hfull
    · split <;> exact hunique
    · rw [howner₀, hv]
    · rw [hframe₀.addressKey, hvkey]
    · rw [hframe₀.isKernelAddressKey, hvkernel]
  · rw [hnum₂, hnum₁, hnum₀]

theorem Links.removeWaiterImpl (h : Links s) (ho : s.getLockOwner u = some t) :
    ∃ s₁, s.removeWaiterImpl t u = some s₁ ∧ Links s₁ ∧ Frame s s₁ ∧ (Full s → Full s₁) ∧
      (Unique s → Unique s₁) ∧ s₁.getLockOwner = update s.getLockOwner u none ∧
      s₁.numKernelWaiters = if s.isKernelAddressKey u then
        update s.numKernelWaiters t (s.numKernelWaiters t + -1) else s.numKernelWaiters := by
  set counted := if s.isKernelAddressKey u then s.addNumKernelWaiters t (-1) else s
  obtain ⟨h₀, hframe₀, howner₀, hwait₀, hinfo₀, hnum₀⟩ := h.counted (t := t) (u := u) (-1)
  obtain ⟨l, info, hl, hmem, howner⟩ := h.getLockOwner_eq.mp ho
  have hw : s.waitingLockInfo u = some l := (h.mem_tree hl).mp hmem
  have hl₀ : counted.lockInfo l = some info := by rw [hinfo₀, hl]
  have hw₀ : counted.waitingLockInfo u = some l := by rw [hwait₀, hw]
  obtain ⟨s₁, hrun₁, h₁, hframe₁, hnum₁, hheld₁, howner₁, hwait₁, hinfo₁⟩ := h₀.lockRemoveWaiter hl₀ hw₀
  have hunique₁ : Unique s → Unique s₁ := fun hunique =>
    Unique.removeWaiter hunique (howner₁.trans (by rw [howner₀])) (hwait₁.trans (by rw [hwait₀])) (hframe₀.trans hframe₁)
  have hl₁ : s₁.lockInfo l = some { info with tree := info.tree.erase u, waiterCount := info.waiterCount - 1 } := by
    rw [hinfo₁, update_self]
  have hstep : s.removeWaiterImpl t u = if (info.tree.erase u).isEmpty then
      some ((s₁.setHeld t ((s₁.heldLockInfoList t).erase l)).setLockInfo l none) else some s₁ := by
    show (counted.waitingLockInfo u).bind (fun l => (counted.lockRemoveWaiter l u).bind fun x =>
      if x.1 then some ((x.2.setHeld t ((x.2.heldLockInfoList t).erase l)).setLockInfo l none) else some x.2) = _
    rw [hw₀, Option.bind_some, hrun₁, Option.bind_some]
  rw [hstep]
  by_cases hempty : (info.tree.erase u).isEmpty = true
  · -- it was the last one: the lock info goes
    have hnil : info.tree.erase u = [] := List.isEmpty_iff.mp hempty
    have hfree : ((s₁.setHeld t ((s₁.heldLockInfoList t).erase l)).setLockInfo l none).getLockOwner = s₁.getLockOwner := by
      refine getLockOwner_congr (s := s₁) rfl fun v k hk => ?_
      refine update_of_ne (fun heq => ?_) _ _
      rw [heq, ← h₁.mem_tree hl₁] at hk
      have hk' : v ∈ info.tree.erase u := hk
      rw [hnil] at hk'
      exact absurd hk' not_mem_nil
    rw [if_pos hempty]
    refine ⟨_, rfl, ?_, ⟨hframe₁.priority.trans hframe₀.priority, hframe₁.basePriority.trans hframe₀.basePriority,
      hframe₁.addressKey.trans hframe₀.addressKey, hframe₁.isKernelAddressKey.trans hframe₀.isKernelAddressKey⟩,
      fun hfull k info₂ hk => ?_, fun hunique => ?_, ?_, ?_⟩
    · apply h₁.freeLockInfo hl₁ hnil
      intro o hio
      exact Option.some.inj (hio.symm.trans howner)
    · have hget : update s₁.lockInfo l none k = some info₂ := hk
      rw [update_apply] at hget
      by_cases hkl : k = l
      · rw [if_pos hkl] at hget
        cases hget
      · rw [if_neg hkl, hinfo₁, update_of_ne hkl, hinfo₀] at hget
        exact hfull k info₂ hget
    · intro v w o hv hw
      rw [hfree] at hv hw
      exact hunique₁ hunique v w o hv hw
    · rw [hfree, howner₁, howner₀]
    · exact hnum₁.trans hnum₀
  · rw [if_neg hempty]
    refine ⟨s₁, rfl, h₁, hframe₀.trans hframe₁, fun hfull => ?_, hunique₁, ?_, hnum₁.trans hnum₀⟩
    · apply Full.update hfull _ (hinfo₁.trans (by rw [hinfo₀]))
      exact ⟨fun hnil => hempty (List.isEmpty_iff.mpr hnil), (hfull l info hl).2⟩
    · rw [howner₁, howner₀]

end Threads
end Kernel

/-! ## Restoring priorities

`RestorePriority` goes from a thread up the owners that it waits for. At each thread it
finds the priority that the thread is to inherit; all threads but that one inherit
already, and after the change all but the owner do (`Linked.restorePriority`).
-/

namespace Kernel

open Inheritance

namespace Threads

/-- The links agree, and no thread waits for itself. -/
structure Linked (s : Threads) : Prop where
  links : Links s
  full : Full s
  counts : Counts s.getLockOwner s.isKernelAddressKey s.numKernelWaiters
  ranked : Ranked s.getLockOwner

/-- The thread has the least of its base priority and the priorities of those that wait on it. -/
abbrev Inherited (s : Threads) (t : ThreadId) : Prop := Inherits s.basePriority s.priority s.getLockOwner t

structure Inv (s : Threads) : Prop extends Linked s where
  inherited : ∀ t, s.Inherited t

variable {s s₁ : Threads} {t u o : ThreadId} {l : LockInfoId} {info : LockWithPriorityInheritanceInfo}

theorem Links.waiting_none (h : Links s) (hfull : Full s) (hu : s.getLockOwner u = none) : s.waitingLockInfo u = none := by
  cases hw : s.waitingLockInfo u with
  | none => rfl
  | some l =>
    obtain ⟨info, hl, hmem⟩ := (h.waiting u l).mp hw
    obtain ⟨o, ho⟩ := Option.isSome_iff_exists.mp (hfull l info hl).2
    have howner := h.getLockOwner_eq.mpr ⟨l, info, hl, hmem, ho⟩
    rw [hu] at howner
    cases howner

theorem Linked.addWaiterImpl (h : Linked s) (hu : s.getLockOwner u = none)
    (hnot : ¬ Relation.ReflTransGen (fun a b => s.getLockOwner a = some b) t u) :
    ∃ s₁, s.addWaiterImpl t u = some s₁ ∧ Linked s₁ ∧ Frame s s₁ ∧
      s₁.getLockOwner = update s.getLockOwner u (some t) := by
  obtain ⟨s₁, hrun, hlinks, hframe, hfull, -, howner, hnum⟩ := h.links.addWaiterImpl t (h.links.waiting_none h.full hu)
  refine ⟨s₁, hrun, ⟨hlinks, hfull h.full, ?_, ?_⟩, hframe, howner⟩
  · rw [howner, hnum, hframe.isKernelAddressKey]
    exact h.counts.add hu
  · rw [howner]
    exact h.ranked.add hnot

theorem Linked.removeWaiterImpl (h : Linked s) (hu : s.getLockOwner u = some t) :
    ∃ s₁, s.removeWaiterImpl t u = some s₁ ∧ Linked s₁ ∧ Frame s s₁ ∧
      s₁.getLockOwner = update s.getLockOwner u none := by
  obtain ⟨s₁, hrun, hlinks, hframe, hfull, -, howner, hnum⟩ := h.links.removeWaiterImpl hu
  refine ⟨s₁, hrun, ⟨hlinks, hfull h.full, ?_, ?_⟩, hframe, howner⟩
  · rw [howner, hnum, hframe.isKernelAddressKey]
    exact h.counts.remove hu
  · rw [howner]
    refine h.ranked.mono fun a b hab => ?_
    by_cases hau : a = u
    · rw [hau, update_self] at hab
      cases hab
    · rwa [update_of_ne hau] at hab

/-- The priority of a thread that waits for nothing may change: no tree is sorted by it. -/
theorem Links.setPriority (h : Links s) (hw : s.waitingLockInfo u = none) (p : ℤ) : Links (s.setPriority u p) := by
  refine ⟨h.waiting, h.held, h.heldNodup, fun l info hl => ?_, h.fresh⟩
  have hok := h.info l info hl
  have hne : ∀ v ∈ info.tree, v ≠ u := by
    intro v hv heq
    rw [heq, h.mem_tree hl, hw] at hv
    cases hv
  refine ⟨hok.nodup, ?_, hok.count, hok.keys⟩
  refine hok.sorted.imp_of_mem fun {a b} ha hb hab => ?_
  show update s.priority u p a ≤ update s.priority u p b
  rwa [update_of_ne (hne a ha), update_of_ne (hne b hb)]

theorem Linked.setPriority (h : Linked s) (hu : s.getLockOwner u = none) (p : ℤ) : Linked (s.setPriority u p) :=
  ⟨h.links.setPriority (h.links.waiting_none h.full hu) p, h.full, h.counts, h.ranked⟩

/-! ### The priority to inherit -/

/-- The first waiter of a lock info has the highest priority of all. -/
theorem Links.highestPriorityWaiter (h : Links s) (hfull : Full s) (hl : s.lockInfo l = some info) :
    ∃ w, info.getHighestPriorityWaiter = some w ∧ w ∈ info.tree ∧ ∀ u ∈ info.tree, s.priority w ≤ s.priority u := by
  have hsorted := (h.info l info hl).sorted
  have hne := (hfull l info hl).1
  unfold LockWithPriorityInheritanceInfo.getHighestPriorityWaiter
  cases htree : info.tree with
  | nil => exact absurd htree hne
  | cons w us =>
    rw [htree] at hsorted
    refine ⟨w, rfl, mem_cons_self, fun u hu => ?_⟩
    rcases mem_cons.mp hu with rfl | hu
    · exact le_rfl
    · exact (pairwise_cons.mp hsorted).1 u hu

/-- The least of a priority and those of the waiters of some lock infos. -/
theorem Links.foldPriorities (h : Links s) (hfull : Full s) : ∀ {held : List LockInfoId} {b : ℤ},
    (∀ l ∈ held, ∃ info, s.lockInfo l = some info) →
    ∃ p, held.foldlM (fun newPriority l => do
        let heldLock ← s.lockInfo l
        let waiter ← heldLock.getHighestPriorityWaiter
        some (min newPriority (s.priority waiter))) b = some p ∧
      p ≤ b ∧ (∀ l ∈ held, ∀ info, s.lockInfo l = some info → ∀ u ∈ info.tree, p ≤ s.priority u) ∧
      (p = b ∨ ∃ l ∈ held, ∃ info, s.lockInfo l = some info ∧ ∃ u ∈ info.tree, s.priority u = p) := by
  intro held
  induction held with
  | nil => exact fun {b} _ => ⟨b, rfl, le_rfl, fun l hl => absurd hl not_mem_nil, .inl rfl⟩
  | cons l held ih =>
    intro b hall
    obtain ⟨⟨info, hl⟩, hall⟩ := forall_mem_cons.mp hall
    obtain ⟨w, hw, hmem, hmin⟩ := h.highestPriorityWaiter hfull hl
    obtain ⟨p, hrun, hp, hle, hcase⟩ := ih (b := min b (s.priority w)) hall
    refine ⟨p, ?_, hp.trans (min_le_left ..), fun k hk info₁ hinfo u hu => ?_, ?_⟩
    · rw [foldlM_cons, hl, Option.bind_eq_bind, Option.bind_eq_bind, Option.bind_some, hw, Option.bind_eq_bind,
        Option.bind_some, Option.bind_some]
      exact hrun
    · rcases mem_cons.mp hk with rfl | hk
      · obtain rfl := Option.some.inj (hl.symm.trans hinfo)
        exact (hp.trans (min_le_right ..)).trans (hmin u hu)
      · exact hle k hk info₁ hinfo u hu
    · rcases hcase with heq | ⟨k, hk, hrest⟩
      · rcases min_choice b (s.priority w) with hb | hb
        · exact .inl (heq.trans hb)
        · exact .inr ⟨l, mem_cons_self, info, hl, w, hmem, (heq.trans hb).symm⟩
      · exact .inr ⟨k, mem_cons_of_mem _ hk, hrest⟩

/-- With the priority that is found, the thread inherits. -/
theorem Linked.inheritedPriority (h : Linked s) (t : ThreadId) :
    ∃ p, s.inheritedPriority t = some p ∧
      Inherits s.basePriority (update s.priority t p) s.getLockOwner t := by
  obtain ⟨p, hrun, hp, hle, hcase⟩ := h.links.foldPriorities h.full (b := s.basePriority t) fun l hl => by
    obtain ⟨info, hinfo, -⟩ := (h.links.held t l).mp hl
    exact ⟨info, hinfo⟩
  refine ⟨p, hrun, inherits_iff.mpr ?_⟩
  have hne : ∀ u, s.getLockOwner u = some t → update s.priority t p u = s.priority u := fun u hu =>
    update_of_ne (h.ranked.ne hu) _ _
  rw [update_self]
  refine ⟨?_, hp, fun u hu => ?_⟩
  · rcases hcase with heq | ⟨l, hl, info, hinfo, u, hu, heq⟩
    · exact .inl heq
    · have howner : s.getLockOwner u = some t :=
        h.links.getLockOwner_eq.mpr ⟨l, info, hinfo, hu, (h.links.mem_held hinfo).mp hl⟩
      exact .inr ⟨u, howner, (hne u howner).trans heq⟩
  · obtain ⟨l, info, hinfo, hmem, ho⟩ := h.links.getLockOwner_eq.mp hu
    rw [hne u hu]
    exact hle l ((h.links.mem_held hinfo).mpr ho) info hinfo u hmem

/-! ### The loop -/

/-- What `RestorePriority` gives: all threads inherit, and they wait for the same threads. -/
structure Restored (s s₁ : Threads) : Prop where
  inv : Inv s₁
  owner : s₁.getLockOwner = s.getLockOwner
  basePriority : s₁.basePriority = s.basePriority
  addressKey : s₁.addressKey = s.addressKey
  isKernelAddressKey : s₁.isKernelAddressKey = s.isKernelAddressKey

theorem Restored.trans {s₂ : Threads} (howner : s₁.getLockOwner = s.getLockOwner)
    (hbase : s₁.basePriority = s.basePriority) (hkey : s₁.addressKey = s.addressKey)
    (hkernel : s₁.isKernelAddressKey = s.isKernelAddressKey) (h : Restored s₁ s₂) : Restored s s₂ :=
  ⟨h.inv, h.owner.trans howner, h.basePriority.trans hbase, h.addressKey.trans hkey,
    h.isKernelAddressKey.trans hkernel⟩

/-- A thread takes another priority while it is out of the tree of the lock it waits for. -/
theorem Linked.changePriority (h : Linked s) (ht : s.getLockOwner t = some o) (p : ℤ) :
    ∃ s₁ s₂, s.removeWaiterImpl o t = some s₁ ∧ (s₁.setPriority t p).addWaiterImpl o t = some s₂ ∧ Linked s₂ ∧
      s₂.getLockOwner = s.getLockOwner ∧ s₂.priority = update s.priority t p ∧
      s₂.basePriority = s.basePriority ∧ s₂.addressKey = s.addressKey ∧ s₂.isKernelAddressKey = s.isKernelAddressKey := by
  obtain ⟨s₁, hrun₁, h₁, hframe₁, howner₁⟩ := h.removeWaiterImpl ht
  have hnone : s₁.getLockOwner t = none := by rw [howner₁, update_self]
  have hsub : ∀ a b, s₁.getLockOwner a = some b → s.getLockOwner a = some b := by
    intro a b hab
    rw [howner₁] at hab
    by_cases hat : a = t
    · rw [hat, update_self] at hab
      cases hab
    · rwa [update_of_ne hat] at hab
  have hset := h₁.setPriority hnone p
  have hnot : ¬ Relation.ReflTransGen (fun a b => (s₁.setPriority t p).getLockOwner a = some b) o t := fun hreach =>
    h.ranked.not_reach ht (Relation.ReflTransGen.mono hsub _ _ hreach)
  obtain ⟨s₂, hrun₂, h₂, hframe₂, howner₂⟩ := hset.addWaiterImpl hnone hnot
  refine ⟨s₁, s₂, hrun₁, hrun₂, h₂, ?_, ?_, hframe₂.basePriority.trans hframe₁.basePriority,
    hframe₂.addressKey.trans hframe₁.addressKey, hframe₂.isKernelAddressKey.trans hframe₁.isKernelAddressKey⟩
  · calc s₂.getLockOwner = update s₁.getLockOwner t (some o) := howner₂
      _ = update s.getLockOwner t (some o) := by rw [howner₁, update_idem]
      _ = s.getLockOwner := by rw [← ht, update_eq_self]
  · calc s₂.priority = update s₁.priority t p := hframe₂.priority
      _ = update s.priority t p := by rw [hframe₁.priority]

/-- All threads but `t` inherit before the loop, and all threads do after it; it ends, as
the owners go down a rank. -/
theorem Linked.restorePriority : ∀ {fuel : ℕ} {s : Threads} {t : ThreadId}, Linked s →
    (∀ u, u ≠ t → s.Inherited u) →
    (∀ s₁, restorePriority fuel s (some t) = some s₁ → Restored s s₁) ∧
      ∀ rank : ThreadId → ℕ, (∀ a b, s.getLockOwner a = some b → rank b < rank a) → rank t < fuel →
        (restorePriority fuel s (some t)).isSome := by
  intro fuel
  induction fuel with
  | zero =>
    intro s t _ _
    refine ⟨fun s₁ hs => ?_, fun rank _ hlt => absurd hlt (Nat.not_lt_zero _)⟩
    cases hs
  | succ fuel ih =>
    intro s t h hothers
    obtain ⟨p, hp, hinherits⟩ := h.inheritedPriority t
    unfold Threads.restorePriority
    simp only [hp, Option.bind_eq_bind, Option.bind_some]
    by_cases hsame : p = s.priority t
    · rw [if_pos hsame]
      rw [hsame, update_eq_self] at hinherits
      have hall : ∀ u, s.Inherited u := by
        intro u
        by_cases hut : u = t
        · rwa [hut]
        · exact hothers u hut
      refine ⟨fun s₁ hs => ?_, fun _ _ _ => rfl⟩
      obtain rfl := Option.some.inj hs
      exact ⟨⟨h, hall⟩, rfl, rfl, rfl, rfl⟩
    · rw [if_neg hsame]
      -- a thread that `t` does not wait for still inherits
      have hkeep : ∀ u, u ≠ t → s.getLockOwner t ≠ some u →
          Inherits s.basePriority (update s.priority t p) s.getLockOwner u := by
        intro u hut hnot
        apply (hothers u hut).congr rfl (update_of_ne hut _ _) fun _ => Iff.rfl
        intro v hv
        refine update_of_ne (fun heq => hnot ?_) _ _
        rwa [← heq]
      cases ho : s.getLockOwner t with
      | none =>
        have hset := h.setPriority ho p
        simp only [Option.bind_some]
        have hdone : Threads.restorePriority fuel (s.setPriority t p) none = some (s.setPriority t p) := by
          unfold Threads.restorePriority
          rfl
        rw [hdone]
        refine ⟨fun s₁ hs => ?_, fun _ _ _ => rfl⟩
        obtain rfl := Option.some.inj hs
        refine ⟨⟨hset, fun u => ?_⟩, rfl, rfl, rfl, rfl⟩
        by_cases hut : u = t
        · rw [hut]
          exact hinherits
        · exact hkeep u hut (by rw [ho]; simp)
      | some o =>
        obtain ⟨s₁, s₂, hrun₁, hrun₂, h₂, howner, hprio, hbase, hkey, hkernel⟩ := h.changePriority ho p
        simp only [hrun₁, hrun₂, Option.bind_some]
        have hothers₂ : ∀ u, u ≠ o → s₂.Inherited u := by
          intro u huo
          show Inherits s₂.basePriority s₂.priority s₂.getLockOwner u
          rw [hbase, hprio, howner]
          by_cases hut : u = t
          · rw [hut]
            exact hinherits
          · exact hkeep u hut fun heq => huo (Option.some.inj (heq.symm.trans ho))
        obtain ⟨hrestored, hends⟩ := ih h₂ hothers₂
        refine ⟨fun s₃ hs => (hrestored s₃ hs).trans howner hbase hkey hkernel, fun rank hrank hlt => ?_⟩
        apply hends rank
        · rwa [howner]
        · have := hrank t o ho
          omega

end Threads

end Kernel
end Citron
