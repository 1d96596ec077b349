/-
# The order of service in the priority queue

The queue of a core is served by priority. `order` has its members in that order: the
front is its head, the next of a member is what comes behind, and `ChangeCore` moves one
member between the orders of two cores.
-/
import Citron.Kernel.PriorityQueue

namespace Citron
namespace Kernel

open Lib List

namespace KPriorityQueueImpl

variable {T : Type} {q : KPriorityQueueImpl T} {priority : T → ℕ} {core c : ℤ} {t u : T}

def order (q : KPriorityQueueImpl T) (core : ℤ) : List T := inOrder NumPriority fun p => q.queues p core

/-- The members of a list have its priority, and the available priorities are those of the lists
that are not empty. -/
structure Linked (q : KPriorityQueueImpl T) (priority : T → ℕ) : Prop where
  priority : ∀ p core, ∀ t ∈ q.queues p core, priority t = p
  nodup : ∀ p core, (q.queues p core).Nodup
  available : ∀ core, ∀ p < NumPriority, q.availablePriorities core p = !(q.queues p core).isEmpty

theorem Linked.mem_order (hq : q.Linked priority) :
    t ∈ q.order core ↔ priority t < NumPriority ∧ t ∈ q.queues (priority t) core := by
  unfold order
  rw [mem_inOrder]
  constructor
  · rintro ⟨p, hp, ht⟩
    rw [hq.priority p core t ht]
    exact ⟨hp, ht⟩
  · exact fun ⟨hp, ht⟩ => ⟨_, hp, ht⟩

theorem Linked.nodup_order (hq : q.Linked priority) : (q.order core).Nodup := by
  refine nodup_inOrder (fun p _ => hq.nodup p core) fun p _ p' _ t ht ht' => ?_
  rw [← hq.priority p core t ht, ← hq.priority p' core t ht']

theorem Linked.getFront (hq : q.Linked priority) : q.getFront core = (q.order core).head? := by
  unfold KPriorityQueueImpl.getFront order
  rw [head?_inOrder]
  congr 1
  apply find?_congr
  exact fun p hp => hq.available core p (mem_range.mp hp)

/-! ### Pushing -/

theorem queues_pushBack (hp : priority t ≤ LowestPriority) (p : ℕ) :
    (q.pushBack (priority t) core t).queues p c =
      if p = priority t ∧ c = core then q.queues (priority t) core ++ [t] else q.queues p c := by
  unfold pushBack
  rw [if_neg (by omega)]
  by_cases hl : (q.queues (priority t) core).isEmpty = true
  · rw [if_pos hl]
    rfl
  · rw [if_neg hl]
    rfl

theorem available_pushBack (hp : priority t ≤ LowestPriority) (p : ℕ) :
    (q.pushBack (priority t) core t).availablePriorities c p =
      if (c = core ∧ p = priority t) ∧ (q.queues (priority t) core).isEmpty then true
      else q.availablePriorities c p := by
  unfold pushBack
  rw [if_neg (by omega)]
  by_cases hl : (q.queues (priority t) core).isEmpty = true
  · rw [if_pos hl]
    simp only [hl, and_true]
    rfl
  · rw [if_neg hl, if_neg (fun h => hl h.2)]
    rfl

theorem Linked.pushBack (hq : q.Linked priority) (hp : priority t ≤ LowestPriority) (ht : t ∉ q.order core) :
    (q.pushBack (priority t) core t).Linked priority := by
  have hnot : t ∉ q.queues (priority t) core := by
    intro hmem
    exact ht (hq.mem_order.mpr ⟨Nat.lt_succ_of_le hp, hmem⟩)
  refine ⟨fun p c u hu => ?_, fun p c => ?_, fun c p hlt => ?_⟩
  · rw [queues_pushBack hp] at hu
    split_ifs at hu with hc
    · rcases mem_append.mp hu with hu | hu
      · rw [hc.1]
        exact hq.priority _ core u hu
      · rw [mem_singleton.mp hu, hc.1]
    · exact hq.priority p c u hu
  · rw [queues_pushBack hp]
    split_ifs
    · refine nodup_append.mpr ⟨hq.nodup _ _, nodup_singleton t, ?_⟩
      rintro u hu v hv rfl
      exact hnot (mem_singleton.mp hv ▸ hu)
    · exact hq.nodup p c
  · rw [queues_pushBack hp, available_pushBack hp, hq.available c p hlt]
    by_cases hc : p = priority t ∧ c = core
    · obtain ⟨rfl, rfl⟩ := hc
      cases hl : q.queues (priority t) c <;> simp
    · rw [if_neg hc, if_neg (fun h => hc ⟨h.1.2, h.1.1⟩)]

theorem Linked.mem_order_pushBack (hq : q.Linked priority) (hp : priority t ≤ LowestPriority) (ht : t ∉ q.order core) :
    u ∈ (q.pushBack (priority t) core t).order c ↔ u ∈ q.order c ∨ c = core ∧ u = t := by
  rw [(hq.pushBack hp ht).mem_order, hq.mem_order, queues_pushBack hp]
  by_cases hc : priority u = priority t ∧ c = core
  · obtain ⟨hu, rfl⟩ := hc
    rw [if_pos ⟨hu, rfl⟩, hu, mem_append, mem_singleton]
    have : priority t < NumPriority := Nat.lt_succ_of_le hp
    simp [this]
  · rw [if_neg hc]
    have hne : ¬ (c = core ∧ u = t) := fun h => hc ⟨by rw [h.2], h.1⟩
    simp [hne]

theorem order_pushBack_of_ne (hp : priority t ≤ LowestPriority) (hc : c ≠ core) :
    (q.pushBack (priority t) core t).order c = q.order c := by
  apply inOrder_congr
  intro p _
  rw [queues_pushBack hp, if_neg (fun h => hc h.2)]

variable [DecidableEq T]

theorem Linked.getNext (hq : q.Linked priority) {m : QueueMembers T} (hm : m.priority = priority)
    (ht : t ∈ q.order core) : q.getNext m core t = .ok (behind t (q.order core)).head? := by
  obtain ⟨hp, hmem⟩ := hq.mem_order.mp ht
  unfold KPriorityQueueImpl.getNext
  rw [hm]
  simp only [if_pos hmem]
  unfold order
  rw [head?_behind_inOrder hp hmem]
  · congr 3
    apply find?_congr
    intro p hp'
    rw [hq.available core p (mem_range.mp hp')]
  · intro p hp' ht'
    have := hq.priority p core t ht'
    omega

/-! ### Unlinking -/

theorem queues_unlink (p : ℕ) :
    (q.unlink (priority t) core t).queues p c =
      if p = priority t ∧ c = core then (q.queues (priority t) core).erase t else q.queues p c := by
  unfold unlink
  by_cases hl : ((q.queues (priority t) core).erase t).isEmpty = true
  · rw [if_pos hl]
    rfl
  · rw [if_neg hl]
    rfl

theorem available_unlink (p : ℕ) :
    (q.unlink (priority t) core t).availablePriorities c p =
      if (c = core ∧ p = priority t) ∧ ((q.queues (priority t) core).erase t).isEmpty then false
      else q.availablePriorities c p := by
  unfold unlink
  by_cases hl : ((q.queues (priority t) core).erase t).isEmpty = true
  · rw [if_pos hl]
    simp only [hl, and_true]
    rfl
  · rw [if_neg hl, if_neg (fun h => hl h.2)]
    rfl

theorem Linked.unlink (hq : q.Linked priority) (ht : t ∈ q.order core) :
    (q.unlink (priority t) core t).Linked priority := by
  obtain ⟨-, hmem⟩ := hq.mem_order.mp ht
  refine ⟨fun p c u hu => ?_, fun p c => ?_, fun c p hlt => ?_⟩
  · rw [queues_unlink] at hu
    split_ifs at hu with hc
    · rw [hc.1]
      exact hq.priority _ core u (mem_of_mem_erase hu)
    · exact hq.priority p c u hu
  · rw [queues_unlink]
    split_ifs
    · exact (hq.nodup _ _).erase t
    · exact hq.nodup p c
  · rw [queues_unlink, available_unlink, hq.available c p hlt]
    by_cases hc : p = priority t ∧ c = core
    · obtain ⟨rfl, rfl⟩ := hc
      have hne : (q.queues (priority t) c).isEmpty = false := isEmpty_eq_false_iff.mpr (ne_nil_of_mem hmem)
      rw [if_pos (show priority t = priority t ∧ c = c from ⟨rfl, rfl⟩), hne]
      cases hl : ((q.queues (priority t) c).erase t).isEmpty
      · rw [if_neg (fun h => Bool.false_ne_true h.2)]
      · rw [if_pos ⟨⟨rfl, rfl⟩, rfl⟩]
        rfl
    · rw [if_neg hc, if_neg (fun h => hc ⟨h.1.2, h.1.1⟩)]

theorem Linked.order_unlink (hq : q.Linked priority) (ht : t ∈ q.order core) :
    (q.unlink (priority t) core t).order core = (q.order core).erase t := by
  obtain ⟨hp, hmem⟩ := hq.mem_order.mp ht
  refine inOrder_erase hp (fun p hlt ht' => ?_) hmem ?_ fun p hne => ?_
  · have := hq.priority p core t ht'
    omega
  · rw [queues_unlink, if_pos ⟨rfl, rfl⟩]
  · rw [queues_unlink, if_neg (fun h => hne h.1)]

theorem order_unlink_of_ne (hc : c ≠ core) : (q.unlink (priority t) core t).order c = q.order c := by
  apply inOrder_congr
  intro p _
  rw [queues_unlink, if_neg (fun h => hc h.2)]

/-- A member of the queue can be unlinked. -/
theorem Linked.remove (hq : q.Linked priority) (ht : t ∈ q.order core) :
    q.remove (priority t) core t = .ok (q.unlink (priority t) core t) := by
  obtain ⟨hp, hmem⟩ := hq.mem_order.mp ht
  unfold KPriorityQueueImpl.remove
  rw [if_neg (Nat.not_lt.mpr (Nat.le_of_lt_succ hp)), if_pos hmem]

end KPriorityQueueImpl

/-! ### Moving a member -/

namespace KPriorityQueue

variable {T : Type} [DecidableEq T] {q q' : KPriorityQueue T} {m : QueueMembers T} {core prevCore c : ℤ} {t u : T}

/-- A member that was scheduled on `prevCore`, or on no core, and suggested for `core`, is scheduled
on `core` and suggested for `prevCore`. -/
structure Moved (q q' : KPriorityQueue T) (priority : T → ℕ) (t : T) (prevCore core : ℤ) : Prop where
  scheduled : q'.scheduledQueue.Linked priority
  suggested : q'.suggestedQueue.Linked priority
  scheduled_prev : 0 ≤ prevCore → q'.scheduledQueue.order prevCore = (q.scheduledQueue.order prevCore).erase t
  scheduled_core : ∀ u, u ∈ q'.scheduledQueue.order core ↔ u ∈ q.scheduledQueue.order core ∨ u = t
  scheduled_of_ne : ∀ c, 0 ≤ c → c ≠ prevCore → c ≠ core → q'.scheduledQueue.order c = q.scheduledQueue.order c
  suggested_prev : ∀ u, u ∈ q'.suggestedQueue.order prevCore → u ∈ q.suggestedQueue.order prevCore ∨ u = t
  suggested_core : ∀ u, u ∈ q'.suggestedQueue.order core → u ∈ q.suggestedQueue.order core ∧ u ≠ t
  suggested_of_ne : ∀ c, c ≠ prevCore → c ≠ core → q'.suggestedQueue.order c = q.suggestedQueue.order c

theorem changeCore_moves (hsched : q.scheduledQueue.Linked m.priority) (hsugg : q.suggestedQueue.Linked m.priority)
    (hdummy : m.isDummyThread t = false) (hcore : 0 ≤ core) (hnew : m.activeCore t = core) (hne : prevCore ≠ core)
    (hprev : 0 ≤ prevCore → t ∈ q.scheduledQueue.order prevCore) (ht : t ∈ q.suggestedQueue.order core)
    (hfree : t ∉ q.scheduledQueue.order core) (hnot : 0 ≤ prevCore → t ∉ q.suggestedQueue.order prevCore) :
    ∃ q', q.changeCore m prevCore t false = .ok q' ∧ Moved q q' m.priority t prevCore core := by
  have hp : m.priority t ≤ LowestPriority := Nat.le_of_lt_succ (hsugg.mem_order.mp ht).1
  have hsugg' := hsugg.unlink ht
  have hmem' : ∀ u, u ∈ (q.suggestedQueue.unlink (m.priority t) core t).order core →
      u ∈ q.suggestedQueue.order core ∧ u ≠ t := by
    intro u hu
    rw [hsugg.order_unlink ht] at hu
    exact ⟨mem_of_mem_erase hu, fun h => (hsugg.nodup_order.not_mem_erase (h ▸ hu))⟩
  have hbeq : (prevCore == core) = false := beq_eq_false_iff_ne.mpr hne
  unfold changeCore
  rw [hnew, hdummy]
  simp only [hbeq, Bool.or_self, Bool.false_eq_true, if_false, ge_iff_le, if_pos hcore, hsugg.remove ht]
  by_cases h0 : 0 ≤ prevCore
  · have hmem := hprev h0
    have hsched' := hsched.unlink hmem
    have hfree' : t ∉ (q.scheduledQueue.unlink (m.priority t) prevCore t).order core := by
      rwa [KPriorityQueueImpl.order_unlink_of_ne hne.symm]
    have hnot' : t ∉ (q.suggestedQueue.unlink (m.priority t) core t).order prevCore := by
      rw [KPriorityQueueImpl.order_unlink_of_ne hne]
      exact hnot h0
    simp only [if_pos h0, hsched.remove hmem]
    refine ⟨_, rfl, hsched'.pushBack hp hfree', hsugg'.pushBack hp hnot', fun _ => ?_, fun u => ?_, fun c _ hc hc' => ?_,
      fun u hu => ?_, fun u hu => ?_, fun c hc hc' => ?_⟩
    · rw [KPriorityQueueImpl.order_pushBack_of_ne hp hne, hsched.order_unlink hmem]
    · rw [hsched'.mem_order_pushBack hp hfree', KPriorityQueueImpl.order_unlink_of_ne hne.symm]
      simp
    · rw [KPriorityQueueImpl.order_pushBack_of_ne hp hc', KPriorityQueueImpl.order_unlink_of_ne hc]
    · rw [hsugg'.mem_order_pushBack hp hnot', KPriorityQueueImpl.order_unlink_of_ne hne] at hu
      exact hu.imp_right And.right
    · rw [KPriorityQueueImpl.order_pushBack_of_ne hp hne.symm] at hu
      exact hmem' u hu
    · rw [KPriorityQueueImpl.order_pushBack_of_ne hp hc, KPriorityQueueImpl.order_unlink_of_ne hc']
  · simp only [if_neg h0]
    refine ⟨_, rfl, hsched.pushBack hp hfree, hsugg', fun h => absurd h h0, fun u => ?_, fun c _ hc hc' => ?_,
      fun u hu => ?_, fun u hu => ?_, fun c hc hc' => ?_⟩
    · rw [hsched.mem_order_pushBack hp hfree]
      simp
    · rw [KPriorityQueueImpl.order_pushBack_of_ne hp hc']
    · rw [KPriorityQueueImpl.order_unlink_of_ne hne] at hu
      exact .inl hu
    · exact hmem' u hu
    · exact KPriorityQueueImpl.order_unlink_of_ne hc'

end KPriorityQueue

end Kernel
end Citron
