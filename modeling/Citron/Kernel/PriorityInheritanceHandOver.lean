/-
# Handing a lock over

`RemoveWaiterByKey` takes the highest priority waiter of a lock as its next owner; the
other waiters of the lock wait on that thread from then on (`handedOver`).
-/
import Citron.Kernel.PriorityInheritanceWaiters

namespace Citron
namespace Kernel

open Inheritance Function Option Set

namespace Threads

/-- Whom the threads wait on after the waiters `tree` of a lock have `n` as its owner. -/
def handedOver (owner : ThreadId → Option ThreadId) (tree : List ThreadId) (n v : ThreadId) : Option ThreadId :=
  if v = n then none else if v ∈ tree then some n else owner v

section HandedOver

variable {owner : ThreadId → Option ThreadId} {isKernel : ThreadId → Bool} {num : ThreadId → ℤ}
  {tree : List ThreadId} {t n v w : ThreadId}

theorem handedOver_eq (ht : ∀ v ∈ tree, owner v = some t) (hn : n ∈ tree) (hwt : w ≠ t) (hwn : w ≠ n) :
    handedOver owner tree n v = some w ↔ owner v = some w := by
  unfold handedOver
  by_cases hvn : v = n
  · rw [if_pos hvn, hvn, ht n hn]
    exact iff_of_false (by simp) fun heq => hwt (Option.some.inj heq).symm
  · rw [if_neg hvn]
    by_cases hv : v ∈ tree
    · rw [if_pos hv, ht v hv]
      exact iff_of_false (fun heq => hwn (Option.some.inj heq).symm) fun heq => hwt (Option.some.inj heq).symm
    · rw [if_neg hv]

theorem handedOver_old (hn : n ∈ tree) (htn : t ≠ n) :
    handedOver owner tree n v = some t ↔ owner v = some t ∧ v ∉ tree := by
  unfold handedOver
  by_cases hvn : v = n
  · rw [if_pos hvn, hvn]
    exact iff_of_false (by simp) fun hand => hand.2 hn
  · rw [if_neg hvn]
    by_cases hv : v ∈ tree
    · rw [if_pos hv]
      exact iff_of_false (fun heq => htn (Option.some.inj heq).symm) fun hand => hand.2 hv
    · rw [if_neg hv]
      exact (and_iff_left hv).symm

theorem handedOver_new (hself : owner n ≠ some n) :
    handedOver owner tree n v = some n ↔ owner v = some n ∨ (v ∈ tree ∧ v ≠ n) := by
  unfold handedOver
  by_cases hvn : v = n
  · rw [if_pos hvn, hvn]
    exact iff_of_false (by simp) fun hor => hor.elim hself fun hand => hand.2 rfl
  · rw [if_neg hvn]
    by_cases hv : v ∈ tree
    · rw [if_pos hv]
      exact iff_of_true rfl (.inr ⟨hv, hvn⟩)
    · rw [if_neg hv]
      exact (or_iff_left fun hand => hv hand.1).symm

theorem Ranked.handedOver (h : Ranked owner) (ht : ∀ v ∈ tree, owner v = some t) (hn : n ∈ tree) :
    Ranked (Threads.handedOver owner tree n) := by
  apply h.handOver (ht n hn)
  · unfold Threads.handedOver
    rw [if_pos rfl]
  · intro v w hvw
    unfold Threads.handedOver at hvw
    by_cases hvn : v = n
    · rw [if_pos hvn] at hvw
      cases hvw
    · rw [if_neg hvn] at hvw
      by_cases hv : v ∈ tree
      · rw [if_pos hv] at hvw
        exact .inr ⟨(Option.some.inj hvw).symm, ht v hv⟩
      · rw [if_neg hv] at hvw
        exact .inl hvw

/-- The counts of the kernel waiters of both owners. -/
def handedCounts (num : ThreadId → ℤ) (t n : ThreadId) (count : ℤ) : ThreadId → ℤ :=
  update (update num t (num t + -count)) n
    (update num t (num t + -count) n + (count - 1))

theorem Counts.handedOver (h : Counts owner isKernel num) (ht : ∀ v ∈ tree, owner v = some t) (hn : n ∈ tree)
    (hnodup : tree.Nodup) (htn : t ≠ n) (hself : owner n ≠ some n) {k : Bool} (hk : ∀ v ∈ tree, isKernel v = k) :
    Counts (Threads.handedOver owner tree n) isKernel (if k then handedCounts num t n tree.length else num) := by
  have hcard : ({v | v ∈ tree} : Set ThreadId).ncard = tree.length := by
    have hset : ({v | v ∈ tree} : Set ThreadId) = ↑tree.toFinset := by
      ext v
      simp
    rw [hset, ncard_coe_finset, List.toFinset_card_of_nodup hnodup]
  have hfin : ({v | v ∈ tree} : Set ThreadId).Finite := List.finite_toSet tree
  have hpos : 0 < tree.length := List.length_pos_of_mem hn
  intro w
  obtain ⟨hfinw, hnumw⟩ := h w
  by_cases hwt : w = t
  · -- the old owner loses all threads of the tree
    subst hwt
    have hset : kernelWaiters (Threads.handedOver owner tree n) isKernel w =
        kernelWaiters owner isKernel w \ {v | v ∈ tree} := by
      ext v
      show Threads.handedOver owner tree n v = some w ∧ isKernel v = true ↔ (owner v = some w ∧ isKernel v = true) ∧ v ∉ tree
      rw [handedOver_old hn htn]
      tauto
    rw [hset]
    refine ⟨hfinw.subset sdiff_subset, ?_⟩
    cases k with
    | true =>
      have hsub : {v | v ∈ tree} ⊆ kernelWaiters owner isKernel w := fun v hv => ⟨ht v hv, hk v hv⟩
      have hle := ncard_le_ncard hsub hfinw
      rw [ncard_sdiff hsub hfin, if_pos rfl, handedCounts, update_of_ne htn, update_self, hnumw]
      omega
    | false =>
      have hdis : kernelWaiters owner isKernel w \ {v | v ∈ tree} = kernelWaiters owner isKernel w := by
        refine sdiff_eq_left.mpr (disjoint_left.mpr fun v hv hvt => ?_)
        have h1 := hv.2
        rw [hk v hvt] at h1
        cases h1
      rw [hdis, if_neg (by simp), hnumw]
  by_cases hwn : w = n
  · -- the new one has the others of the tree
    subst hwn
    have hset : kernelWaiters (Threads.handedOver owner tree w) isKernel w =
        kernelWaiters owner isKernel w ∪ {v | (v ∈ tree ∧ v ≠ w) ∧ isKernel v = true} := by
      ext v
      show Threads.handedOver owner tree w v = some w ∧ isKernel v = true ↔
        (owner v = some w ∧ isKernel v = true) ∨ ((v ∈ tree ∧ v ≠ w) ∧ isKernel v = true)
      rw [handedOver_new hself]
      exact or_and_right
    rw [hset]
    cases k with
    | true =>
      have hnew : {v | (v ∈ tree ∧ v ≠ w) ∧ isKernel v = true} = {v | v ∈ tree} \ {w} := by
        ext v
        exact ⟨fun hv => hv.1, fun hv => ⟨hv, hk v hv.1⟩⟩
      have hdis : Disjoint (kernelWaiters owner isKernel w) ({v | v ∈ tree} \ {w}) := by
        refine disjoint_left.mpr fun v hv hvt => htn ?_
        exact Option.some.inj ((ht v hvt.1).symm.trans hv.1)
      rw [hnew, ncard_union_eq hdis hfinw (hfin.subset sdiff_subset),
        ncard_sdiff_singleton_of_mem (show w ∈ {v | v ∈ tree} from hn), hcard, if_pos rfl, handedCounts,
        update_self, update_of_ne hwt, hnumw]
      refine ⟨hfinw.union (hfin.subset sdiff_subset), ?_⟩
      push_cast [Nat.cast_sub hpos]
      ring
    | false =>
      have hnew : {v | (v ∈ tree ∧ v ≠ w) ∧ isKernel v = true} = ∅ := by
        refine eq_empty_of_forall_notMem fun v hv => ?_
        have h1 := hv.2
        rw [hk v hv.1.1] at h1
        cases h1
      rw [hnew, union_empty, if_neg (by simp)]
      exact ⟨hfinw, hnumw⟩
  · have hset : kernelWaiters (Threads.handedOver owner tree n) isKernel w = kernelWaiters owner isKernel w := by
      ext v
      show Threads.handedOver owner tree n v = some w ∧ _ ↔ _
      rw [handedOver_eq ht hn hwt hwn]
      exact Iff.rfl
    have hsame : (if k then handedCounts num t n tree.length else num) w = num w := by
      cases k with
      | true => rw [if_pos rfl, handedCounts, update_of_ne hwn, update_of_ne hwt]
      | false => rw [if_neg (by simp)]
    rw [hset, hsame]
    exact ⟨hfinw, hnumw⟩

/-- All threads but the old owner still inherit; it does unless it owes its priority to the new one. -/
theorem inherits_handedOver {base prio : ThreadId → ℤ} (h : ∀ v, Inherits base prio owner v)
    (ht : ∀ v ∈ tree, owner v = some t) (hn : n ∈ tree) (htn : t ≠ n) (hself : owner n ≠ some n)
    (hmin : ∀ v ∈ tree, prio n ≤ prio v) :
    (∀ v, v ≠ t → Inherits base prio (Threads.handedOver owner tree n) v) ∧
      (¬ (prio t = prio n ∧ prio t < base t) → Inherits base prio (Threads.handedOver owner tree n) t) := by
  refine ⟨fun v hvt => ?_, fun hnot => ?_⟩
  · by_cases hvn : v = n
    · subst hvn
      apply (h v).gain
      · exact fun x hx => (handedOver_new hself).mpr (.inl hx)
      · intro x hx
        rcases (handedOver_new hself).mp hx with hx | ⟨hx, -⟩
        · exact .inl hx
        · exact .inr (hmin x hx)
    · exact (h v).congr rfl rfl (fun x => handedOver_eq ht hn hvt hvn) fun _ _ => rfl
  · apply (h t).lose (ht n hn)
    · exact fun x hx => ((handedOver_old hn htn).mp hx).1
    · intro x hx
      by_cases hxt : x ∈ tree
      · exact .inr (hmin x hxt)
      · exact .inl ((handedOver_old hn htn).mpr ⟨hx, hxt⟩)
    · exact hnot

end HandedOver

/-! ### The links -/

variable {s s₁ : Threads} {t u o n : ThreadId} {l : LockInfoId} {info : LockWithPriorityInheritanceInfo}

/-- A lock info that has left its owner's held list. -/
def disowned (s : Threads) (t : ThreadId) (l : LockInfoId) (info : LockWithPriorityInheritanceInfo) : Threads :=
  (s.setHeld t ((s.heldLockInfoList t).erase l)).setLockInfo l (some { info with owner := none })

theorem Links.disowned (h : Links s) (hl : s.lockInfo l = some info) (ho : info.owner = some t) :
    Links (s.disowned t l info) := by
  have hget : ∀ k, (s.disowned t l info).lockInfo k = if k = l then some { info with owner := none } else s.lockInfo k :=
    fun k => update_apply ..
  have hheld : (s.disowned t l info).heldLockInfoList =
      update s.heldLockInfoList t ((s.heldLockInfoList t).erase l) := rfl
  refine ⟨fun v k => ?_, fun v k => ?_, fun v => ?_, fun k info₁ hk => ?_, fun k hk => ?_⟩
  · show s.waitingLockInfo v = some k ↔ _
    rw [hget]
    by_cases hkl : k = l
    · subst hkl
      rw [if_pos rfl, ← h.mem_tree hl]
      exact ⟨fun hmem => ⟨_, rfl, hmem⟩, fun ⟨_, heq, hmem⟩ => by
        obtain rfl := Option.some.inj heq
        exact hmem⟩
    · rw [if_neg hkl, h.waiting]
  · rw [hget, hheld]
    by_cases hkl : k = l
    · subst hkl
      rw [if_pos rfl]
      refine iff_of_false (fun hmem => ?_) fun ⟨_, heq, ho₁⟩ => ?_
      · by_cases hvt : v = t
        · subst hvt
          rw [update_self] at hmem
          exact (List.Nodup.mem_erase_iff (h.heldNodup v)).mp hmem |>.1 rfl
        · rw [update_of_ne hvt, h.mem_held hl, ho] at hmem
          exact hvt (Option.some.inj hmem).symm
      · obtain rfl := Option.some.inj heq
        cases ho₁
    · rw [if_neg hkl, ← h.held]
      by_cases hvt : v = t
      · subst hvt
        rw [update_self, List.mem_erase_of_ne hkl]
      · rw [update_of_ne hvt]
  · rw [hheld]
    by_cases hvt : v = t
    · subst hvt
      rw [update_self]
      exact (h.heldNodup v).erase l
    · rw [update_of_ne hvt]
      exact h.heldNodup v
  · rw [hget] at hk
    by_cases hkl : k = l
    · rw [if_pos hkl, Option.some.injEq] at hk
      subst hk
      have hok := h.info l info hl
      exact ⟨hok.nodup, hok.sorted, hok.count, hok.keys⟩
    · rw [if_neg hkl] at hk
      have hok := h.info k info₁ hk
      exact ⟨hok.nodup, hok.sorted, hok.count, hok.keys⟩
  · rw [hget]
    by_cases hkl : k = l
    · subst hkl
      exact absurd ((h.fresh k hk).symm.trans hl) (by simp)
    · rw [if_neg hkl]
      exact h.fresh k hk

/-- The owners after the lock info `l` has a new owner, or is freed. -/
theorem Links.getLockOwner_handedOver (h : Links s) (hl : s.lockInfo l = some info)
    {x : Option LockWithPriorityInheritanceInfo} (hx : ∀ v ∈ info.tree, v ≠ n → x.bind (fun info => info.owner) = some n)
    (hw : s₁.waitingLockInfo = update s.waitingLockInfo n none)
    (hinfo : s₁.lockInfo = update s.lockInfo l x) :
    s₁.getLockOwner = Threads.handedOver s.getLockOwner info.tree n := by
  funext v
  show (s₁.waitingLockInfo v).bind _ = if v = n then none else if v ∈ info.tree then some n else
    (s.waitingLockInfo v).bind _
  rw [hw]
  by_cases hvn : v = n
  · rw [if_pos hvn, hvn, update_self]
    rfl
  · rw [if_neg hvn, update_of_ne hvn]
    by_cases hv : v ∈ info.tree
    · rw [if_pos hv, (h.mem_tree hl).mp hv, bind_some, hinfo, update_self, hx v hv hvn]
    · rw [if_neg hv]
      apply Option.bind_congr
      intro k hk
      have hkl : k ≠ l := fun heq => hv ((h.mem_tree hl).mpr (heq ▸ hk))
      rw [hinfo, update_of_ne hkl]

/-- The links after the lock of the info has the new owner `n`. -/
def passedOn (s : Threads) (t n : ThreadId) (l : LockInfoId) (info : LockWithPriorityInheritanceInfo) : Threads :=
  if (info.tree.erase n).isEmpty then
    { s with
      heldLockInfoList := update s.heldLockInfoList t ((s.heldLockInfoList t).erase l)
      waitingLockInfo := update s.waitingLockInfo n none
      lockInfo := update s.lockInfo l none }
  else
    { s with
      heldLockInfoList := update (update s.heldLockInfoList t ((s.heldLockInfoList t).erase l)) n
        (l :: update s.heldLockInfoList t ((s.heldLockInfoList t).erase l) n)
      waitingLockInfo := update s.waitingLockInfo n none
      lockInfo := update s.lockInfo l (some { info with
        tree := info.tree.erase n, waiterCount := info.waiterCount - 1, owner := some n }) }

theorem Links.handOver (h : Links s) (hl : s.lockInfo l = some info) (ho : info.owner = some t) (hn : n ∈ info.tree) :
    ∃ s₁, Links s₁ ∧ Frame s s₁ ∧ (Full s → Full s₁) ∧ s₁.numKernelWaiters = s.numKernelWaiters ∧
      s₁.getLockOwner = Threads.handedOver s.getLockOwner info.tree n ∧
      s₁ = s.passedOn t n l info := by
  have hd := h.disowned hl ho
  have hdl : (s.disowned t l info).lockInfo l = some { info with owner := none } := update_self ..
  have hdw : (s.disowned t l info).waitingLockInfo n = some l := (h.mem_tree hl).mp hn
  obtain ⟨s₁, hrun₁, h₁, -, -, -, -, -, hinfo₁⟩ := hd.lockRemoveWaiter hdl hdw
  rw [lockRemoveWaiter_eq hdl, Option.some.injEq, Prod.mk.injEq] at hrun₁
  obtain ⟨-, hs₁⟩ := hrun₁
  have hl₁ : s₁.lockInfo l =
      some { info with tree := info.tree.erase n, waiterCount := info.waiterCount - 1, owner := none } := by
    rw [hinfo₁, update_self]
  have hother : ∀ x : Option LockWithPriorityInheritanceInfo,
      update s₁.lockInfo l x = update s.lockInfo l x := by
    intro x
    rw [hinfo₁, update_idem]
    show update (update s.lockInfo l _) l x = _
    rw [update_idem]
  have hwaiting : s₁.waitingLockInfo = update s.waitingLockInfo n none := by
    rw [← hs₁]
    rfl
  have hframe : Frame s s₁ := by
    rw [← hs₁]
    exact ⟨rfl, rfl, rfl, rfl⟩
  have hnum : s₁.numKernelWaiters = s.numKernelWaiters := by
    rw [← hs₁]
    rfl
  have hheld : s₁.heldLockInfoList = update s.heldLockInfoList t ((s.heldLockInfoList t).erase l) := by
    rw [← hs₁]
    rfl
  have hnext : s₁.nextLockInfo = s.nextLockInfo := by
    rw [← hs₁]
    rfl
  by_cases hempty : (info.tree.erase n).isEmpty = true
  · have hnil : info.tree.erase n = [] := List.isEmpty_iff.mp hempty
    have hfree := h₁.freeLockInfo (t := t) hl₁ hnil fun o heq => by cases heq
    have hnot : l ∉ s₁.heldLockInfoList t := by
      rw [h₁.mem_held hl₁]
      simp
    rw [List.erase_of_not_mem hnot] at hfree
    have hsame : s₁.setHeld t (s₁.heldLockInfoList t) = s₁ := by
      unfold Threads.setHeld
      rw [update_eq_self]
    rw [hsame] at hfree
    have hinfo₂ : (s₁.setLockInfo l none).lockInfo = update s.lockInfo l none := hother none
    have hwaiting₂ : (s₁.setLockInfo l none).waitingLockInfo = update s.waitingLockInfo n none := hwaiting
    refine ⟨s₁.setLockInfo l none, hfree, ⟨hframe.priority, hframe.basePriority, hframe.addressKey,
      hframe.isKernelAddressKey⟩, fun hfull k info₁ hk => ?_, hnum, ?_, ?_⟩
    · rw [hinfo₂, update_apply] at hk
      by_cases hkl : k = l
      · rw [if_pos hkl] at hk
        cases hk
      · rw [if_neg hkl] at hk
        exact hfull k info₁ hk
    · apply h.getLockOwner_handedOver hl _ hwaiting₂ hinfo₂
      intro v hv hvn
      have hmem : v ∈ info.tree.erase n := (List.mem_erase_of_ne hvn).mpr hv
      rw [hnil] at hmem
      exact absurd hmem List.not_mem_nil
    · rw [Threads.passedOn, if_pos hempty]
      unfold Threads.setLockInfo
      rw [hother, hwaiting, hheld, hframe.priority, hframe.basePriority, hframe.addressKey, hframe.isKernelAddressKey,
        hnum, hnext]
  · obtain ⟨s₂, hrun₂, h₂, hframe₂, hnum₂, hwaiting₂, -, hinfo₂⟩ := h₁.setOwner (t := n) hl₁ rfl
    rw [addHeldLock_eq hl₁, Option.some.injEq] at hrun₂
    refine ⟨s₂, h₂, hframe.trans hframe₂, fun hfull => ?_, hnum₂.trans hnum, ?_, ?_⟩
    · apply Full.update hfull _ (hinfo₂.trans (hother _))
      exact ⟨fun hnil => hempty (List.isEmpty_iff.mpr hnil), rfl⟩
    · exact h.getLockOwner_handedOver hl (fun _ _ _ => rfl) (hwaiting₂.trans hwaiting) (hinfo₂.trans (hother _))
    · rw [Threads.passedOn, if_neg hempty, ← hrun₂]
      unfold Threads.setLockInfo Threads.setHeld
      rw [hother, hwaiting, hheld, hframe.priority, hframe.basePriority, hframe.addressKey, hframe.isKernelAddressKey,
        hnum, hnext]

/-! ### The call -/

/-- The threads with the kernel waiters of both owners counted anew. -/
def countHandedOver (s₁ s : Threads) (t n : ThreadId) (info : LockWithPriorityInheritanceInfo) : Threads :=
  { s₁ with numKernelWaiters :=
      if info.isKernelAddressKey then handedCounts s.numKernelWaiters t n info.tree.length else s.numKernelWaiters }

theorem handedCounts_one (num : ThreadId → ℤ) (t n : ThreadId) :
    handedCounts num t n (1 : ℕ) = update num t (num t + -1) := by
  unfold handedCounts
  rw [Nat.cast_one, sub_self, add_zero, update_eq_self]

/-- `RemoveWaiterByKey` hands the lock over, and restores the old owner's priority if need be. -/
theorem Links.removeWaiterByKey_eq {key : ℕ} {isKernel : Bool} (h : Links s)
    (hf : s.findHeldLock t key isKernel = some l) (hl : s.lockInfo l = some info)
    (hn : info.getHighestPriorityWaiter = some n)
    (hs₁ : s₁ = s.passedOn t n l info) (fuel : ℕ) :
    s.removeWaiterByKey fuel t key isKernel =
      (if s.priority t = s.priority n ∧ s.priority t < s.basePriority t then
        Threads.restorePriority fuel (countHandedOver s₁ s t n info) (some t)
      else some (countHandedOver s₁ s t n info)).map fun s₂ => (some n, !(info.tree.erase n).isEmpty, s₂) := by
  have hok := h.info l info hl
  have hmem : n ∈ info.tree := List.mem_of_head? hn
  have hlen := List.length_erase_of_mem hmem
  have hpos := List.length_pos_of_mem hmem
  have hempty : decide (info.waiterCount - 1 = 0) = (info.tree.erase n).isEmpty := by
    rw [hok.count, ← hlen, Bool.eq_iff_iff, decide_eq_true_iff, List.isEmpty_iff]
    exact List.length_eq_zero_iff
  have hcount : (info.waiterCount : ℤ) = info.tree.length := by rw [hok.count]
  -- the lock leaves the old owner
  obtain ⟨counted, hcounted⟩ : ∃ c, c = { s with
      heldLockInfoList := update s.heldLockInfoList t ((s.heldLockInfoList t).erase l)
      numKernelWaiters := if info.isKernelAddressKey then
        update s.numKernelWaiters t (s.numKernelWaiters t + -(info.tree.length : ℤ)) else s.numKernelWaiters } :=
    ⟨_, rfl⟩
  have hleave : (if info.isKernelAddressKey = true then
      (s.setHeld t ((s.heldLockInfoList t).erase l)).addNumKernelWaiters t (-(info.waiterCount : ℤ))
      else s.setHeld t ((s.heldLockInfoList t).erase l)) = counted := by
    rw [hcounted, hcount]
    cases info.isKernelAddressKey <;> rfl
  have hlc : counted.lockInfo l = some info := by
    rw [hcounted]
    exact hl
  -- it goes to the new one, or is freed
  have hgive : ((if (info.tree.erase n).isEmpty = true then
      some (((counted.setLockInfo l (some { info with
        tree := info.tree.erase n, waiterCount := info.waiterCount - 1 })).setWaitingLockInfo n none).setLockInfo l none)
      else (((counted.setLockInfo l (some { info with
        tree := info.tree.erase n, waiterCount := info.waiterCount - 1 })).setWaitingLockInfo n none).addHeldLock n l).bind
        fun s => if info.isKernelAddressKey = true then
          (s.lockInfo l).bind fun info => some (s.addNumKernelWaiters n info.waiterCount) else some s)) =
      some (countHandedOver s₁ s t n info) := by
    cases he : (info.tree.erase n).isEmpty with
    | true =>
      have hone : info.tree.length = 1 := by
        rw [List.isEmpty_iff.mp he, List.length_nil] at hlen
        omega
      rw [if_pos rfl, hs₁, passedOn, if_pos he, hcounted, countHandedOver, hone, handedCounts_one]
      unfold setLockInfo setWaitingLockInfo
      simp only [update_idem, Nat.cast_one]
    | false =>
      have hl₁ : ((counted.setLockInfo l (some { info with
          tree := info.tree.erase n, waiterCount := info.waiterCount - 1 })).setWaitingLockInfo n none).lockInfo l =
          some { info with tree := info.tree.erase n, waiterCount := info.waiterCount - 1 } := update_self ..
      rw [if_neg (by simp), hs₁, passedOn, if_neg (by simp [he]), addHeldLock_eq hl₁, bind_some, hcounted, countHandedOver]
      unfold setLockInfo setWaitingLockInfo setHeld
      simp only [update_idem, update_self, bind_some]
      cases hk : info.isKernelAddressKey with
      | true =>
        have hcast : ((info.waiterCount - 1 : ℕ) : ℤ) = (info.tree.length : ℤ) - 1 := by
          rw [hok.count, Nat.cast_sub hpos, Nat.cast_one]
        simp only [if_true, hcast, handedCounts]
        rfl
      | false => rfl
  unfold Threads.removeWaiterByKey
  simp only [hf, hl, hn, bind_eq_bind, bind_some]
  rw [hleave, lockRemoveWaiter_eq hlc, bind_some, hempty]
  have hprio : (countHandedOver s₁ s t n info).priority = s.priority ∧
      (countHandedOver s₁ s t n info).basePriority = s.basePriority := by
    rw [hs₁, passedOn]
    split <;> exact ⟨rfl, rfl⟩
  refine (congrArg (Option.bind · _) hgive).trans ?_
  simp only [bind_some, hprio.1, hprio.2]
  exact (map_eq_bind ..).symm

end Threads

end Kernel
end Citron
