/-
# The links of the lock infos

A lock info's tree and the `waitingLockInfo` of its threads agree, and so do its owner
and the held lists (`Links`). The lemmas say what the small operations on a lock info do
to the owners that threads wait for (`getLockOwner`).
-/
import Citron.Kernel.PriorityInheritance

namespace Citron
namespace Kernel

open List Function Option

/-! ### The tree -/

section Tree

variable {priority : ThreadId → ℤ} {t u : ThreadId} {us : List ThreadId}

theorem insertWaiter_perm (priority : ThreadId → ℤ) (t : ThreadId) :
    ∀ us : List ThreadId, (insertWaiter priority t us).Perm (t :: us)
  | [] => List.Perm.refl _
  | u :: us => by
    unfold insertWaiter
    by_cases h : priority t < priority u
    · rw [if_pos h]
    · rw [if_neg h]
      exact ((insertWaiter_perm priority t us).cons u).trans (List.Perm.swap t u us)

theorem mem_insertWaiter : u ∈ insertWaiter priority t us ↔ u = t ∨ u ∈ us := by
  rw [(insertWaiter_perm priority t us).mem_iff, mem_cons]

theorem length_insertWaiter : (insertWaiter priority t us).length = us.length + 1 :=
  (insertWaiter_perm priority t us).length_eq

theorem insertWaiter_sorted : ∀ {us : List ThreadId}, us.Pairwise (fun u v => priority u ≤ priority v) →
    (insertWaiter priority t us).Pairwise fun u v => priority u ≤ priority v := by
  intro us
  induction us with
  | nil => exact fun _ => pairwise_singleton _ _
  | cons u us ih =>
    intro h
    obtain ⟨hu, hus⟩ := pairwise_cons.mp h
    unfold insertWaiter
    by_cases hlt : priority t < priority u
    · rw [if_pos hlt]
      refine pairwise_cons.mpr ⟨fun v hv => ?_, h⟩
      rcases mem_cons.mp hv with rfl | hv
      · exact hlt.le
      · exact hlt.le.trans (hu v hv)
    · rw [if_neg hlt]
      refine pairwise_cons.mpr ⟨fun v hv => ?_, ih hus⟩
      rcases mem_insertWaiter.mp hv with rfl | hv
      · exact not_lt.mp hlt
      · exact hu v hv

end Tree

namespace Threads

/-- What holds of a lock info and the threads in its tree. -/
structure InfoOk (s : Threads) (info : LockWithPriorityInheritanceInfo) : Prop where
  nodup : info.tree.Nodup
  sorted : info.tree.Pairwise fun u v => s.priority u ≤ s.priority v
  count : info.waiterCount = info.tree.length
  keys : ∀ u ∈ info.tree, s.addressKey u = info.addressKey ∧ s.isKernelAddressKey u = info.isKernelAddressKey

/-- The links between the threads and the lock infos agree. -/
structure Links (s : Threads) : Prop where
  waiting : ∀ t l, s.waitingLockInfo t = some l ↔ ∃ info, s.lockInfo l = some info ∧ t ∈ info.tree
  held : ∀ t l, l ∈ s.heldLockInfoList t ↔ ∃ info, s.lockInfo l = some info ∧ info.owner = some t
  heldNodup : ∀ t, (s.heldLockInfoList t).Nodup
  info : ∀ l info, s.lockInfo l = some info → InfoOk s info
  fresh : ∀ l, s.nextLockInfo ≤ l → s.lockInfo l = none

/-- Every lock info has a waiter and an owner. -/
def Full (s : Threads) : Prop := ∀ l info, s.lockInfo l = some info → info.tree ≠ [] ∧ info.owner.isSome

/-- Threads that wait on one thread with one key wait in one tree. -/
def Unique (s : Threads) : Prop :=
  ∀ u v o, s.getLockOwner u = some o → s.getLockOwner v = some o → s.addressKey u = s.addressKey v →
    s.isKernelAddressKey u = s.isKernelAddressKey v → s.waitingLockInfo u = s.waitingLockInfo v

/-- The members that no link changes. -/
structure Frame (s s₁ : Threads) : Prop where
  priority : s₁.priority = s.priority
  basePriority : s₁.basePriority = s.basePriority
  addressKey : s₁.addressKey = s.addressKey
  isKernelAddressKey : s₁.isKernelAddressKey = s.isKernelAddressKey

theorem Frame.trans {s s₁ s₂ : Threads} (h : Frame s s₁) (h₁ : Frame s₁ s₂) : Frame s s₂ :=
  ⟨h₁.priority.trans h.priority, h₁.basePriority.trans h.basePriority, h₁.addressKey.trans h.addressKey,
    h₁.isKernelAddressKey.trans h.isKernelAddressKey⟩

variable {s s₁ : Threads} {t u o : ThreadId} {l : LockInfoId} {info : LockWithPriorityInheritanceInfo}

theorem Links.getLockOwner_eq (h : Links s) :
    s.getLockOwner t = some o ↔ ∃ l info, s.lockInfo l = some info ∧ t ∈ info.tree ∧ info.owner = some o := by
  unfold getLockOwner
  constructor
  · intro hsome
    obtain ⟨l, hl, hrest⟩ := bind_eq_some_iff.mp hsome
    obtain ⟨info, hinfo, hmem⟩ := (h.waiting t l).mp hl
    rw [hinfo, bind_some] at hrest
    exact ⟨l, info, hinfo, hmem, hrest⟩
  · rintro ⟨l, info, hinfo, hmem, howner⟩
    rw [(h.waiting t l).mpr ⟨info, hinfo, hmem⟩, bind_some, hinfo, bind_some, howner]

theorem Links.mem_tree (h : Links s) (hl : s.lockInfo l = some info) : u ∈ info.tree ↔ s.waitingLockInfo u = some l := by
  rw [h.waiting]
  constructor
  · exact fun hu => ⟨info, hl, hu⟩
  · rintro ⟨info₁, hl₁, hu⟩
    obtain rfl := Option.some.inj (hl.symm.trans hl₁)
    exact hu

theorem Links.mem_held (h : Links s) (hl : s.lockInfo l = some info) : l ∈ s.heldLockInfoList t ↔ info.owner = some t := by
  rw [h.held]
  constructor
  · rintro ⟨info₁, hl₁, ho⟩
    obtain rfl := Option.some.inj (hl.symm.trans hl₁)
    exact ho
  · exact fun ho => ⟨info, hl, ho⟩

/-- Another lock info with the same owner, whose tree says who waits for it. -/
theorem Links.setTree (h : Links s) (hl : s.lockInfo l = some info) {tree : List ThreadId} {count : ℕ}
    {w : Option LockInfoId} (hu : ∀ v, v ≠ u → (v ∈ tree ↔ v ∈ info.tree)) (hself : u ∈ tree ↔ w = some l)
    (hold : ∀ k, s.waitingLockInfo u = some k → k = l) (hw : ∀ k, w = some k → k = l)
    (hok : InfoOk s { info with tree, waiterCount := count }) :
    Links ((s.setLockInfo l (some { info with tree, waiterCount := count })).setWaitingLockInfo u w) := by
  have hget : ∀ k, update s.lockInfo l (some { info with tree, waiterCount := count }) k =
      if k = l then some { info with tree, waiterCount := count } else s.lockInfo k := fun k => update_apply ..
  refine ⟨fun v k => ?_, fun v k => ?_, h.heldNodup, fun k info₁ hk => ?_, fun k hk => ?_⟩
  · show update s.waitingLockInfo u w v = some k ↔ ∃ info₁, update s.lockInfo l _ k = some info₁ ∧ _
    rw [hget]
    by_cases hkl : k = l
    · subst hkl
      rw [if_pos rfl]
      by_cases hvu : v = u
      · subst hvu
        rw [update_self, ← hself]
        exact ⟨fun hmem => ⟨_, rfl, hmem⟩, fun ⟨_, heq, hmem⟩ => by
          obtain rfl := Option.some.inj heq
          exact hmem⟩
      · rw [update_of_ne hvu, ← h.mem_tree hl, ← hu v hvu]
        exact ⟨fun hmem => ⟨_, rfl, hmem⟩, fun ⟨_, heq, hmem⟩ => by
          obtain rfl := Option.some.inj heq
          exact hmem⟩
    · rw [if_neg hkl]
      by_cases hvu : v = u
      · subst hvu
        rw [update_self, ← h.waiting]
        exact iff_of_false (fun heq => hkl (hw k heq)) fun heq => hkl (hold k heq)
      · rw [update_of_ne hvu, h.waiting]
  · show k ∈ s.heldLockInfoList v ↔ ∃ info₁, update s.lockInfo l _ k = some info₁ ∧ _
    rw [hget]
    by_cases hkl : k = l
    · subst hkl
      rw [if_pos rfl, h.mem_held hl]
      exact ⟨fun ho => ⟨_, rfl, ho⟩, fun ⟨_, heq, ho⟩ => by
        obtain rfl := Option.some.inj heq
        exact ho⟩
    · rw [if_neg hkl, h.held]
  · have hk' := (hget k).symm.trans hk
    by_cases hkl : k = l
    · rw [if_pos hkl, Option.some.injEq] at hk'
      subst hk'
      exact ⟨hok.nodup, hok.sorted, hok.count, hok.keys⟩
    · rw [if_neg hkl] at hk'
      have hold := h.info k info₁ hk'
      exact ⟨hold.nodup, hold.sorted, hold.count, hold.keys⟩
  · show update s.lockInfo l _ k = none
    rw [hget]
    by_cases hkl : k = l
    · subst hkl
      exact absurd ((h.fresh k hk).symm.trans hl) (by simp)
    · rw [if_neg hkl]
      exact h.fresh k hk

/-! ### The operations of a lock info -/

theorem getLockOwner_setTree (hl : s.lockInfo l = some info) {tree : List ThreadId} {count : ℕ} {w : Option LockInfoId}
    (hw : ∀ k, w = some k → k = l) :
    ((s.setLockInfo l (some { info with tree, waiterCount := count })).setWaitingLockInfo u w).getLockOwner =
      update s.getLockOwner u (w.bind fun _ => info.owner) := by
  funext v
  show (update s.waitingLockInfo u w v).bind (fun k =>
    (update s.lockInfo l (some { info with tree, waiterCount := count }) k).bind fun info => info.owner) = _
  -- the owner of every lock info is as before
  have howner : ∀ k, (update s.lockInfo l (some { info with tree, waiterCount := count }) k).bind
      (fun info => info.owner) = (s.lockInfo k).bind fun info => info.owner := by
    intro k
    by_cases hkl : k = l
    · rw [hkl, update_self, hl, bind_some, bind_some]
    · rw [update_of_ne hkl]
  simp only [howner]
  by_cases hvu : v = u
  · subst hvu
    rw [update_self, update_self]
    cases w with
    | none => rfl
    | some k => rw [bind_some, bind_some, hw k rfl, hl, bind_some]
  · rw [update_of_ne hvu, update_of_ne hvu]
    rfl

theorem lockAddWaiter_eq (hl : s.lockInfo l = some info) : s.lockAddWaiter l u =
    some ((s.setLockInfo l (some { info with
      tree := insertWaiter s.priority u info.tree
      waiterCount := info.waiterCount + 1 })).setWaitingLockInfo u (some l)) := by
  unfold Threads.lockAddWaiter
  rw [hl, bind_eq_bind, bind_some]

theorem lockRemoveWaiter_eq (hl : s.lockInfo l = some info) : s.lockRemoveWaiter l u =
    some (decide (info.waiterCount - 1 = 0), (s.setLockInfo l (some { info with
      tree := info.tree.erase u
      waiterCount := info.waiterCount - 1 })).setWaitingLockInfo u none) := by
  unfold Threads.lockRemoveWaiter
  rw [hl, bind_eq_bind, bind_some]

theorem addHeldLock_eq (hl : s.lockInfo l = some info) : s.addHeldLock t l =
    some ((s.setLockInfo l (some { info with owner := some t })).setHeld t (l :: s.heldLockInfoList t)) := by
  unfold Threads.addHeldLock
  rw [hl, bind_eq_bind, bind_some]

theorem Links.lockAddWaiter (h : Links s) (hl : s.lockInfo l = some info) (hw : s.waitingLockInfo u = none)
    (hkey : s.addressKey u = info.addressKey ∧ s.isKernelAddressKey u = info.isKernelAddressKey) :
    ∃ s₁, s.lockAddWaiter l u = some s₁ ∧ Links s₁ ∧ Frame s s₁ ∧ s₁.numKernelWaiters = s.numKernelWaiters ∧
      s₁.getLockOwner = update s.getLockOwner u info.owner ∧
      s₁.waitingLockInfo = update s.waitingLockInfo u (some l) ∧
      ∃ tree count, tree ≠ [] ∧ s₁.lockInfo = update s.lockInfo l (some { info with tree, waiterCount := count }) := by
  have hok := h.info l info hl
  have hnot : u ∉ info.tree := by
    rw [h.mem_tree hl, hw]
    simp
  refine ⟨_, lockAddWaiter_eq hl, ?_, ⟨rfl, rfl, rfl, rfl⟩, rfl, ?_, rfl, _, _, ?_, rfl⟩
  · apply h.setTree hl
    · intro v hv
      rw [mem_insertWaiter]
      exact or_iff_right hv
    · exact iff_of_true (mem_insertWaiter.mpr (.inl rfl)) rfl
    · intro k hk
      rw [hw] at hk
      cases hk
    · exact fun k hk => (Option.some.inj hk).symm
    · refine ⟨?_, insertWaiter_sorted hok.sorted, ?_, fun v hv => ?_⟩
      · exact (insertWaiter_perm s.priority u info.tree).nodup_iff.mpr (nodup_cons.mpr ⟨hnot, hok.nodup⟩)
      · show info.waiterCount + 1 = (insertWaiter s.priority u info.tree).length
        rw [length_insertWaiter, hok.count]
      · rcases mem_insertWaiter.mp hv with rfl | hv
        · exact hkey
        · exact hok.keys v hv
  · exact getLockOwner_setTree hl fun k hk => (Option.some.inj hk).symm
  · intro hnil
    have hlen : (insertWaiter s.priority u info.tree).length = 0 := by rw [hnil]; rfl
    rw [length_insertWaiter] at hlen
    omega

theorem Links.lockRemoveWaiter (h : Links s) (hl : s.lockInfo l = some info) (hw : s.waitingLockInfo u = some l) :
    ∃ s₁, s.lockRemoveWaiter l u = some ((info.tree.erase u).isEmpty, s₁) ∧ Links s₁ ∧ Frame s s₁ ∧
      s₁.numKernelWaiters = s.numKernelWaiters ∧ s₁.heldLockInfoList = s.heldLockInfoList ∧
      s₁.getLockOwner = update s.getLockOwner u none ∧
      s₁.waitingLockInfo = update s.waitingLockInfo u none ∧
      s₁.lockInfo = update s.lockInfo l
        (some { info with tree := info.tree.erase u, waiterCount := info.waiterCount - 1 }) := by
  have hok := h.info l info hl
  have hmem : u ∈ info.tree := (h.mem_tree hl).mpr hw
  have hlen := length_erase_of_mem hmem
  have hempty : decide (info.waiterCount - 1 = 0) = (info.tree.erase u).isEmpty := by
    rw [hok.count, ← hlen, Bool.eq_iff_iff, decide_eq_true_iff, List.isEmpty_iff]
    exact length_eq_zero_iff
  have hrun := lockRemoveWaiter_eq (u := u) hl
  rw [hempty] at hrun
  refine ⟨_, hrun, ?_, ⟨rfl, rfl, rfl, rfl⟩, rfl, rfl, ?_, rfl, rfl⟩
  · apply h.setTree hl
    · exact fun v hv => mem_erase_of_ne hv
    · exact iff_of_false (fun hv => (List.Nodup.mem_erase_iff hok.nodup).mp hv |>.1 rfl) (by simp)
    · intro k hk
      exact Option.some.inj (hk.symm.trans hw)
    · exact fun k hk => by cases hk
    · refine ⟨hok.nodup.erase u, hok.sorted.sublist erase_sublist, ?_, fun v hv => hok.keys v (mem_of_mem_erase hv)⟩
      show info.waiterCount - 1 = (info.tree.erase u).length
      rw [hlen, hok.count]
  · exact getLockOwner_setTree hl fun k hk => by cases hk

/-- Another owner of a lock info, with the held lists that go with it. -/
theorem Links.setOwner (h : Links s) (hl : s.lockInfo l = some info) (hnone : info.owner = none) :
    ∃ s₁, s.addHeldLock t l = some s₁ ∧ Links s₁ ∧ Frame s s₁ ∧ s₁.numKernelWaiters = s.numKernelWaiters ∧
      s₁.waitingLockInfo = s.waitingLockInfo ∧ s₁.nextLockInfo = s.nextLockInfo ∧
      s₁.lockInfo = update s.lockInfo l (some { info with owner := some t }) := by
  have hget : ∀ k, update s.lockInfo l (some { info with owner := some t }) k =
      if k = l then some { info with owner := some t } else s.lockInfo k := fun k => update_apply ..
  have hnot : ∀ v, l ∉ s.heldLockInfoList v := by
    intro v
    rw [h.mem_held hl, hnone]
    simp
  refine ⟨_, addHeldLock_eq hl, ⟨fun v k => ?_, fun v k => ?_, fun v => ?_, fun k info₁ hk => ?_,
    fun k hk => ?_⟩, ⟨rfl, rfl, rfl, rfl⟩, rfl, rfl, rfl, rfl⟩
  · show s.waitingLockInfo v = some k ↔ ∃ info₁, update s.lockInfo l _ k = some info₁ ∧ _
    rw [hget]
    by_cases hkl : k = l
    · subst hkl
      rw [if_pos rfl, ← h.mem_tree hl]
      exact ⟨fun hmem => ⟨_, rfl, hmem⟩, fun ⟨_, heq, hmem⟩ => by
        obtain rfl := Option.some.inj heq
        exact hmem⟩
    · rw [if_neg hkl, h.waiting]
  · show k ∈ update s.heldLockInfoList t (l :: s.heldLockInfoList t) v ↔
      ∃ info₁, update s.lockInfo l _ k = some info₁ ∧ _
    rw [hget]
    by_cases hkl : k = l
    · subst hkl
      rw [if_pos rfl]
      by_cases hvt : v = t
      · subst hvt
        rw [update_self]
        exact iff_of_true mem_cons_self ⟨_, rfl, rfl⟩
      · rw [update_of_ne hvt]
        refine iff_of_false (hnot v) ?_
        rintro ⟨_, heq, ho⟩
        obtain rfl := Option.some.inj heq
        exact hvt (Option.some.inj ho).symm
    · rw [if_neg hkl, ← h.held]
      by_cases hvt : v = t
      · subst hvt
        rw [update_self, mem_cons]
        exact or_iff_right hkl
      · rw [update_of_ne hvt]
  · show (update s.heldLockInfoList t (l :: s.heldLockInfoList t) v).Nodup
    by_cases hvt : v = t
    · subst hvt
      rw [update_self]
      exact nodup_cons.mpr ⟨hnot v, h.heldNodup v⟩
    · rw [update_of_ne hvt]
      exact h.heldNodup v
  · have hk' := (hget k).symm.trans hk
    by_cases hkl : k = l
    · rw [if_pos hkl, Option.some.injEq] at hk'
      subst hk'
      have hok := h.info l info hl
      exact ⟨hok.nodup, hok.sorted, hok.count, hok.keys⟩
    · rw [if_neg hkl] at hk'
      have hok := h.info k info₁ hk'
      exact ⟨hok.nodup, hok.sorted, hok.count, hok.keys⟩
  · show update s.lockInfo l _ k = none
    rw [hget]
    by_cases hkl : k = l
    · subst hkl
      exact absurd ((h.fresh k hk).symm.trans hl) (by simp)
    · rw [if_neg hkl]
      exact h.fresh k hk

/-- A new lock info, without a waiter and an owner. -/
theorem Links.createLockInfo (h : Links s) (key : ℕ) (isKernel : Bool) :
    Links (s.createLockInfo key isKernel).2 ∧ Frame s (s.createLockInfo key isKernel).2 ∧
      (s.createLockInfo key isKernel).2.lockInfo =
        update s.lockInfo s.nextLockInfo (some ⟨[], key, none, 0, isKernel⟩) := by
  have hfresh := h.fresh s.nextLockInfo le_rfl
  have hget : ∀ k, update s.lockInfo s.nextLockInfo (some ⟨[], key, none, 0, isKernel⟩) k =
      if k = s.nextLockInfo then some ⟨[], key, none, 0, isKernel⟩ else s.lockInfo k := fun k => update_apply ..
  have hnone : ∀ k info, s.lockInfo k = some info → k ≠ s.nextLockInfo := by
    intro k info hk heq
    rw [heq, hfresh] at hk
    cases hk
  refine ⟨⟨fun v k => ?_, fun v k => ?_, h.heldNodup, fun k info₁ hk => ?_, fun k hk => ?_⟩, ⟨rfl, rfl, rfl, rfl⟩, rfl⟩
  · show s.waitingLockInfo v = some k ↔ ∃ info₁, update s.lockInfo s.nextLockInfo _ k = some info₁ ∧ _
    rw [hget, h.waiting]
    by_cases hkl : k = s.nextLockInfo
    · rw [if_pos hkl]
      refine iff_of_false (fun ⟨info₁, hk, _⟩ => hnone k info₁ hk hkl) ?_
      rintro ⟨_, heq, hmem⟩
      obtain rfl := Option.some.inj heq
      exact absurd hmem not_mem_nil
    · rw [if_neg hkl]
  · show k ∈ s.heldLockInfoList v ↔ ∃ info₁, update s.lockInfo s.nextLockInfo _ k = some info₁ ∧ _
    rw [hget, h.held]
    by_cases hkl : k = s.nextLockInfo
    · rw [if_pos hkl]
      refine iff_of_false (fun ⟨info₁, hk, _⟩ => hnone k info₁ hk hkl) ?_
      rintro ⟨_, heq, ho⟩
      obtain rfl := Option.some.inj heq
      cases ho
    · rw [if_neg hkl]
  · have hk' := (hget k).symm.trans hk
    by_cases hkl : k = s.nextLockInfo
    · rw [if_pos hkl, Option.some.injEq] at hk'
      subst hk'
      exact ⟨nodup_nil, List.Pairwise.nil, rfl, fun u hu => absurd hu not_mem_nil⟩
    · rw [if_neg hkl] at hk'
      have hok := h.info k info₁ hk'
      exact ⟨hok.nodup, hok.sorted, hok.count, hok.keys⟩
  · have hlt : s.nextLockInfo < k := hk
    show update s.lockInfo s.nextLockInfo _ k = none
    rw [hget, if_neg hlt.ne']
    exact h.fresh k hlt.le

/-- A lock info without waiters leaves its owner's held list, and is freed. -/
theorem Links.freeLockInfo (h : Links s) (hl : s.lockInfo l = some info) (hempty : info.tree = [])
    (ho : ∀ o, info.owner = some o → o = t) :
    Links ((s.setHeld t ((s.heldLockInfoList t).erase l)).setLockInfo l none) := by
  have hget : ∀ k, update s.lockInfo l none k = if k = l then none else s.lockInfo k :=
    fun k => update_apply ..
  refine ⟨fun v k => ?_, fun v k => ?_, fun v => ?_, fun k info₁ hk => ?_, fun k hk => ?_⟩
  · show s.waitingLockInfo v = some k ↔ ∃ info₁, update s.lockInfo l none k = some info₁ ∧ _
    rw [hget]
    by_cases hkl : k = l
    · subst hkl
      rw [if_pos rfl, ← h.mem_tree hl, hempty]
      exact iff_of_false not_mem_nil fun ⟨_, heq, _⟩ => by cases heq
    · rw [if_neg hkl, h.waiting]
  · show k ∈ update s.heldLockInfoList t ((s.heldLockInfoList t).erase l) v ↔
      ∃ info₁, update s.lockInfo l none k = some info₁ ∧ _
    rw [hget]
    by_cases hkl : k = l
    · subst hkl
      rw [if_pos rfl]
      refine iff_of_false (fun hmem => ?_) fun ⟨_, heq, _⟩ => by cases heq
      by_cases hvt : v = t
      · subst hvt
        rw [update_self] at hmem
        exact (List.Nodup.mem_erase_iff (h.heldNodup v)).mp hmem |>.1 rfl
      · rw [update_of_ne hvt] at hmem
        exact hvt (ho v ((h.mem_held hl).mp hmem))
    · rw [if_neg hkl, ← h.held]
      by_cases hvt : v = t
      · subst hvt
        rw [update_self, mem_erase_of_ne hkl]
      · rw [update_of_ne hvt]
  · show (update s.heldLockInfoList t ((s.heldLockInfoList t).erase l) v).Nodup
    by_cases hvt : v = t
    · subst hvt
      rw [update_self]
      exact (h.heldNodup v).erase l
    · rw [update_of_ne hvt]
      exact h.heldNodup v
  · have hk' := (hget k).symm.trans hk
    by_cases hkl : k = l
    · rw [if_pos hkl] at hk'
      cases hk'
    · rw [if_neg hkl] at hk'
      have hok := h.info k info₁ hk'
      exact ⟨hok.nodup, hok.sorted, hok.count, hok.keys⟩
  · show update s.lockInfo l none k = none
    rw [hget]
    by_cases hkl : k = l
    · rw [if_pos hkl]
    · rw [if_neg hkl]
      exact h.fresh k hk

end Threads

end Kernel
end Citron
