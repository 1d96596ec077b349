/-
# The update of the highest priority threads

The loop over all cores records the front of each queue. The loop over the idle cores
keeps the local top threads in step with the queues (`Filling`), whichever way a thread is
moved: a thread that is not the top of its core, or the top thread of a core that has
another. A core that was left idle stays as it was left, since only threads of cores with
two threads are moved.
-/
import Citron.Kernel.Scheduler
import Citron.Kernel.PriorityQueueOrder
import Citron.Kernel.PageBitmapBits

namespace Citron
namespace Kernel

open Lib KPriorityQueueImpl List Function BitVec

def IsCore (c : ℤ) : Prop := 0 ≤ c ∧ c < NumCpuCores

/-- The queues hold the threads of `runnable`: each is scheduled on its active core, if it has one, and
suggested for the other cores of its affinity mask. -/
structure QueueOk (s : SchedulerContext) (runnable : Set ThreadId) : Prop where
  scheduledLinked : s.queue.scheduledQueue.Linked s.members.priority
  suggestedLinked : s.queue.suggestedQueue.Linked s.members.priority
  dummy : ∀ t ∈ runnable, s.members.isDummyThread t = false
  activeCore : ∀ t ∈ runnable, s.members.activeCore t = -1 ∨ IsCore (s.members.activeCore t)
  scheduled : ∀ c, IsCore c → ∀ t, t ∈ s.queue.scheduledQueue.order c ↔ t ∈ runnable ∧ s.members.activeCore t = c
  suggested : ∀ c, IsCore c → ∀ t, t ∈ s.queue.suggestedQueue.order c ↔
    t ∈ runnable ∧ s.members.getAffinity t c = true ∧ s.members.activeCore t ≠ c

/-- A thread that is the only one scheduled on its core. -/
def Alone (s : SchedulerContext) (t : ThreadId) : Prop :=
  IsCore (s.members.activeCore t) ∧ s.queue.scheduledQueue.order (s.members.activeCore t) = [t]

/-- A search for the core was stopped. -/
def Stopped (log : List SearchEvent) (c : ℤ) : Prop := ∃ t u, SearchEvent.stop c t u ∈ log

/-- What the log says of one event: a thread moves to a core of its affinity mask, and a search stops at the
top thread of another thread's core, whose priority is too high for a migration. -/
def EventOk (s : SchedulerContext) : SearchEvent → Prop
  | .migrate t _ c => IsCore c ∧ s.members.getAffinity t c = true
  | .stop c t u => IsCore c ∧ s.members.getAffinity t c = true ∧ u ≠ t ∧
      s.members.priority u < HighestCoreMigrationAllowedPriority

/-- The state between two steps of the loop over the idle cores, with the cores that are pending, from the
context `s₀`. -/
structure Filling (s₀ : SchedulerContext) (runnable : Set ThreadId) (pending : Set ℤ) (s : SearchState) : Prop where
  scheduledLinked : s.context.queue.scheduledQueue.Linked s₀.members.priority
  suggestedLinked : s.context.queue.suggestedQueue.Linked s₀.members.priority
  members : ∃ f, s.context.members = { s₀.members with activeCore := f }
  dummy : ∀ t ∈ runnable, s₀.members.isDummyThread t = false
  activeCore : ∀ t ∈ runnable, s.context.members.activeCore t = -1 ∨ IsCore (s.context.members.activeCore t)
  scheduled : ∀ c, IsCore c → ∀ t,
    t ∈ s.context.queue.scheduledQueue.order c ↔ t ∈ runnable ∧ s.context.members.activeCore t = c
  suggested : ∀ c, IsCore c → ∀ t ∈ s.context.queue.suggestedQueue.order c,
    t ∈ runnable ∧ s.context.members.activeCore t ≠ c
  pendingIdle : ∀ c ∈ pending, IsCore c ∧ s.context.queue.scheduledQueue.order c = [] ∧
    ∀ t ∈ s.context.queue.suggestedQueue.order c, s₀.members.getAffinity t c = true
  top : ∀ c, IsCore c → s.topThreads c = (s.context.queue.scheduledQueue.order c).head? ∧
    s.context.highestPriorityThread c = s.topThreads c
  mask : ∀ c, IsCore c → s.context.highestPriorityThread c ≠ s₀.highestPriorityThread c →
    s.coresNeedingScheduling.getLsbD c.toNat = true
  log : ∀ e ∈ s.log, EventOk s₀ e
  moved : ∀ t, s.context.members.activeCore t ≠ s₀.members.activeCore t →
    ∃ c, SearchEvent.migrate t c (s.context.members.activeCore t) ∈ s.log
  settled : ∀ c, IsCore c → s.context.queue.scheduledQueue.order c = [] → c ∈ pending ∨ Stopped s.log c ∨
    ∀ t ∈ s.context.queue.suggestedQueue.order c, Alone s.context t

variable {s₀ : SchedulerContext} {s s' : SearchState} {runnable : Set ThreadId} {pending : Set ℤ}
  {c d : ℤ} {t u : ThreadId} {top : Option ThreadId}

/-! ### Setting a top thread -/

theorem setTopThread_queue : (s.setTopThread c top).context.queue = s.context.queue := by
  unfold SearchState.setTopThread SchedulerContext.updateHighestPriorityThread
  split_ifs <;> rfl

theorem setTopThread_members : (s.setTopThread c top).context.members = s.context.members := by
  unfold SearchState.setTopThread SchedulerContext.updateHighestPriorityThread
  split_ifs <;> rfl

theorem setTopThread_topThreads : (s.setTopThread c top).topThreads = update s.topThreads c top := rfl

theorem setTopThread_log : (s.setTopThread c top).log = s.log := rfl

theorem setTopThread_highest : (s.setTopThread c top).context.highestPriorityThread =
    update s.context.highestPriorityThread c top := by
  unfold SearchState.setTopThread SchedulerContext.updateHighestPriorityThread
  by_cases h : s.context.highestPriorityThread c = top
  · rw [if_neg (not_not.mpr h), ← h, update_eq_self]
  · rw [if_pos h]

theorem IsCore.lt (hc : IsCore c) : c.toNat < 64 := by
  have hlt : c < 4 := hc.2
  omega

theorem getLsbD_coreMask (hc : IsCore c) (i : ℕ) : (coreMask c).getLsbD i = decide (i = c.toNat) := by
  have hlt := hc.lt
  unfold coreMask
  rw [getLsbD_shiftLeft, ofNat_eq_ofNat, getLsbD_one]
  by_cases hi : i = c.toNat
  · subst hi
    simp [hlt]
  · by_cases hlt' : i < c.toNat
    · simp [hlt', hi]
    · have : i - c.toNat ≠ 0 := by omega
      simp [this, hi]

/-- The mask keeps its bits, and has the bit of the core if its record changes. -/
theorem setTopThread_mask (hc : IsCore c) (i : ℕ) :
    (s.setTopThread c top).coresNeedingScheduling.getLsbD i =
      (s.coresNeedingScheduling.getLsbD i || decide (i = c.toNat ∧ s.context.highestPriorityThread c ≠ top)) := by
  unfold SearchState.setTopThread SchedulerContext.updateHighestPriorityThread
  by_cases h : s.context.highestPriorityThread c = top
  · rw [if_neg (not_not.mpr h)]
    simp [h]
  · rw [if_pos h]
    simp [getLsbD_or, getLsbD_coreMask hc, h]

theorem setTopThread_changed (hc : IsCore c)
    (hmask : s.context.highestPriorityThread d ≠ s₀.highestPriorityThread d →
      s.coresNeedingScheduling.getLsbD d.toNat = true)
    (hne : (s.setTopThread c top).context.highestPriorityThread d ≠ s₀.highestPriorityThread d) :
    (s.setTopThread c top).coresNeedingScheduling.getLsbD d.toNat = true := by
  rw [setTopThread_mask hc]
  rw [setTopThread_highest] at hne
  by_cases hdc : d = c
  · subst hdc
    rw [update_self] at hne
    by_cases h : s.context.highestPriorityThread d = top
    · rw [hmask (h ▸ hne), Bool.true_or]
    · simp [h]
  · rw [update_of_ne hdc] at hne
    rw [hmask hne, Bool.true_or]

/-! ### Moving a thread -/

/-- **One migration.** A thread that is suggested for a pending core is moved there, where the local top
threads are those of the queues without the thread, and the thread is not alone on its core. -/
theorem Filling.migrate (h : Filling s₀ runnable pending s) (s' : SearchState) (hc : c ∈ pending)
    (ht : t ∈ s.context.queue.suggestedQueue.order c)
    (hrest : IsCore (s.context.members.activeCore t) →
      (s.context.queue.scheduledQueue.order (s.context.members.activeCore t)).erase t ≠ [])
    (htop : (s'.context.queue = s.context.queue ∧ s'.context.members = s.context.members ∧ s'.log = s.log) ∧
      (∀ d, IsCore d → s'.topThreads d = ((s.context.queue.scheduledQueue.order d).erase t).head? ∧
        s'.context.highestPriorityThread d = s'.topThreads d) ∧
      ∀ d, IsCore d → s'.context.highestPriorityThread d ≠ s₀.highestPriorityThread d →
        s'.coresNeedingScheduling.getLsbD d.toNat = true) :
    ∃ s'', s'.migrate c (s.context.members.activeCore t) t = .ok s'' ∧ Filling s₀ runnable (pending \ {c}) s'' ∧
      s''.idleCores = s'.idleCores := by
  obtain ⟨⟨hqueue, hmembers, hlog⟩, htop, hmask⟩ := htop
  obtain ⟨hcore, hempty, haffinity⟩ := h.pendingIdle c hc
  obtain ⟨hrun, hne⟩ := h.suggested c hcore t ht
  obtain ⟨f, hf⟩ := h.members
  set d := s.context.members.activeCore t with hd
  have hdcore := h.activeCore t hrun
  rw [← hd] at hdcore
  have hdc : 0 ≤ d → IsCore d := fun h0 => hdcore.resolve_left (by omega)
  set m := s.context.members.setActiveCore t c with hm
  have hpriority : m.priority = s₀.members.priority := by rw [hm, hf]; rfl
  have hactive : m.activeCore = update s.context.members.activeCore t c := rfl
  have hsched := h.scheduledLinked
  have hsugg := h.suggestedLinked
  obtain ⟨q', hcall, hmoved⟩ : ∃ q', s.context.queue.changeCore m d t false = .ok q' ∧
      KPriorityQueue.Moved s.context.queue q' m.priority t d c := KPriorityQueue.changeCore_moves (hpriority ▸ hsched) (hpriority ▸ hsugg) (by rw [hm, hf]; exact h.dummy t hrun) hcore.1
    (by rw [hactive, update_self]) hne
    (fun h0 => (h.scheduled d (hdc h0) t).mpr ⟨hrun, rfl⟩) ht (by rw [hempty]; exact not_mem_nil)
    (fun h0 hmem => (h.suggested d (hdc h0) t hmem).2 rfl)
  rw [hpriority] at hmoved
  set s₁ : SearchState := { s' with
    context := { s'.context with members := m, queue := q' }
    log := s'.log ++ [SearchEvent.migrate t d c] } with hs₁
  have hcall' : s'.migrate c d t = .ok (s₁.setTopThread c (some t)) := by
    unfold SearchState.migrate
    rw [hqueue, hmembers]
    dsimp only
    rw [← hm, hcall]
    rfl
  have hmem_erase : ∀ v e, v ∈ (s.context.queue.scheduledQueue.order e).erase t ↔
      v ≠ t ∧ v ∈ s.context.queue.scheduledQueue.order e := fun v e => hsched.nodup_order.mem_erase_iff
  have horder : ∀ e, IsCore e → e ≠ c → q'.scheduledQueue.order e = (s.context.queue.scheduledQueue.order e).erase t := by
    intro e he hec
    by_cases hed : e = d
    · rw [hed, hmoved.scheduled_prev (hed ▸ he.1)]
    · rw [hmoved.scheduled_of_ne e he.1 hed hec, erase_of_not_mem]
      exact fun hmem => hed (((h.scheduled e he t).mp hmem).2.symm)
  have hactive' : ∀ v, v ≠ t → m.activeCore v = s.context.members.activeCore v := by
    intro v hv
    rw [hactive, update_of_ne hv]
  have hsame : ∀ v e, IsCore e → v ≠ t → (v ∈ q'.scheduledQueue.order e ↔ v ∈ s.context.queue.scheduledQueue.order e) := by
    intro v e he hv
    by_cases hec : e = c
    · rw [hec, hmoved.scheduled_core]
      simp [hv]
    · rw [horder e he hec, hmem_erase]
      simp [hv]
  have hnewtop : q'.scheduledQueue.order c = [t] := by
    have hmem : ∀ v, v ∈ q'.scheduledQueue.order c ↔ v = t := by
      intro v
      rw [hmoved.scheduled_core, hempty]
      simp
    exact perm_singleton.mp
      ((perm_ext_iff_of_nodup hmoved.scheduled.nodup_order (nodup_singleton t)).mpr (by simpa using hmem))
  refine ⟨_, hcall', ⟨?_, ?_, ?_, h.dummy, ?_, ?_, ?_, ?_, ?_, ?_, ?_, ?_, ?_⟩, rfl⟩
  all_goals simp only [setTopThread_queue, setTopThread_members, setTopThread_log, setTopThread_topThreads,
    setTopThread_highest]
  · exact hmoved.scheduled
  · exact hmoved.suggested
  · exact ⟨m.activeCore, by rw [hs₁, hm, hf]; rfl⟩
  · intro v hv
    show m.activeCore v = -1 ∨ IsCore (m.activeCore v)
    by_cases hvt : v = t
    · rw [hvt, hactive, update_self]
      exact .inr hcore
    · rw [hactive' v hvt]
      exact h.activeCore v hv
  · intro e he v
    show v ∈ q'.scheduledQueue.order e ↔ v ∈ runnable ∧ m.activeCore v = e
    by_cases hvt : v = t
    · rw [hvt, hactive, update_self]
      by_cases hec : e = c
      · rw [hec, hnewtop]
        simp [hrun]
      · rw [horder e he hec, hmem_erase]
        simp [Ne.symm hec]
    · rw [hsame v e he hvt, hactive' v hvt, h.scheduled e he]
  · intro e he v hv
    show v ∈ runnable ∧ m.activeCore v ≠ e
    change v ∈ q'.suggestedQueue.order e at hv
    by_cases hvt : v = t
    · subst hvt
      refine ⟨hrun, ?_⟩
      rw [hactive, update_self]
      rintro rfl
      exact (hmoved.suggested_core v hv).2 rfl
    · rw [hactive' v hvt]
      by_cases hec : e = c
      · subst hec
        exact h.suggested e he v (hmoved.suggested_core v hv).1
      · by_cases hed : e = d
        · subst hed
          exact h.suggested d he v ((hmoved.suggested_prev v hv).resolve_right hvt)
        · rw [hmoved.suggested_of_ne e hed hec] at hv
          exact h.suggested e he v hv
  · rintro e ⟨hmem, hec⟩
    obtain ⟨he, hnil, haff⟩ := h.pendingIdle e hmem
    have hed : e ≠ d := by
      intro hed
      have hmem' := (h.scheduled e he t).mpr ⟨hrun, hed.symm⟩
      rw [hnil] at hmem'
      exact absurd hmem' not_mem_nil
    refine ⟨he, ?_, ?_⟩
    · show q'.scheduledQueue.order e = []
      rw [horder e he hec, hnil]
      rfl
    · show ∀ v ∈ q'.suggestedQueue.order e, _
      rwa [hmoved.suggested_of_ne e hed hec]
  · intro e he
    show update s'.topThreads c (some t) e = (q'.scheduledQueue.order e).head? ∧
      update s'.context.highestPriorityThread c (some t) e = update s'.topThreads c (some t) e
    by_cases hec : e = c
    · rw [hec, update_self, update_self, hnewtop]
      exact ⟨rfl, rfl⟩
    · rw [update_of_ne hec, update_of_ne hec, horder e he hec]
      exact htop e he
  · intro e he hne'
    apply setTopThread_changed (s := s₁) hcore (hmask e he)
    rw [setTopThread_highest]
    exact hne'
  · intro e he
    rw [hs₁, hlog] at he
    rcases mem_append.mp he with he | he
    · exact h.log e he
    · rw [mem_singleton.mp he]
      exact ⟨hcore, haffinity t ht⟩
  · intro v hv
    show ∃ e, SearchEvent.migrate v e (m.activeCore v) ∈ s'.log ++ [SearchEvent.migrate t d c]
    change m.activeCore v ≠ s₀.members.activeCore v at hv
    by_cases hvt : v = t
    · rw [hvt, hactive, update_self]
      exact ⟨d, mem_append_right _ (mem_singleton.mpr rfl)⟩
    · rw [hactive' v hvt] at hv ⊢
      obtain ⟨e, he⟩ := h.moved v hv
      exact ⟨e, mem_append_left _ (hlog ▸ he)⟩
  · intro e he hnil
    change q'.scheduledQueue.order e = [] at hnil
    have hec : e ≠ c := by
      rintro rfl
      rw [hnewtop] at hnil
      exact absurd hnil (cons_ne_nil t [])
    rw [horder e he hec] at hnil
    have hed : e ≠ d := fun hed => hrest (hed ▸ he) (hed ▸ hnil)
    have hnot : t ∉ s.context.queue.scheduledQueue.order e := fun hmem => hed ((h.scheduled e he t).mp hmem).2.symm
    rw [erase_of_not_mem hnot] at hnil
    rcases h.settled e he hnil with hmem | ⟨v, u, hstop⟩ | halone
    · exact .inl ⟨hmem, hec⟩
    · refine .inr (.inl ⟨v, u, ?_⟩)
      exact mem_append_left _ (hlog ▸ hstop)
    · refine .inr (.inr fun v hv => ?_)
      change v ∈ q'.suggestedQueue.order e at hv
      rw [hmoved.suggested_of_ne e hed hec] at hv
      obtain ⟨hvcore, hvorder⟩ := halone v hv
      have hvt : v ≠ t := by
        rintro rfl
        apply hrest hvcore
        rw [hvorder]
        simp
      have hvc : s.context.members.activeCore v ≠ c := by
        intro heq
        rw [heq, hempty] at hvorder
        exact absurd hvorder.symm (cons_ne_nil v [])
      unfold Alone
      rw [setTopThread_members, setTopThread_queue]
      change IsCore (m.activeCore v) ∧ q'.scheduledQueue.order (m.activeCore v) = [v]
      rw [hactive' v hvt]
      refine ⟨hvcore, ?_⟩
      rw [horder _ hvcore hvc, hvorder]
      simp [Ne.symm hvt]

/-- The invariant when a core is done without a migration. -/
theorem Filling.done (h : Filling s₀ runnable pending s) (hc : c ∈ pending)
    (hsettled : Stopped s.log c ∨ ∀ t ∈ s.context.queue.suggestedQueue.order c, Alone s.context t) :
    Filling s₀ runnable (pending \ {c}) s := by
  refine { h with pendingIdle := fun e he => h.pendingIdle e he.1, settled := fun e he hnil => ?_ }
  by_cases hec : e = c
  · subst hec
    exact .inr hsettled
  · exact (h.settled e he hnil).imp_left fun hmem => ⟨hmem, hec⟩

/-! ### The search for a thread -/

/-- A thread that is the local top thread of its core. -/
def IsTop (s : SearchState) (t : ThreadId) : Prop :=
  IsCore (s.context.members.activeCore t) ∧ s.topThreads (s.context.members.activeCore t) = some t

/-- The cores of different top threads differ, so that there is room for the candidates. -/
theorem IsTop.length_le {ts : List ThreadId} (hnodup : ts.Nodup) (htop : ∀ t ∈ ts, IsTop s t) :
    ts.length ≤ NumCpuCores := by
  have hinj : (ts.map fun t => (s.context.members.activeCore t).toNat).Nodup := by
    refine List.Nodup.map_on ?_ hnodup
    intro t ht u hu heq
    have hcore : s.context.members.activeCore t = s.context.members.activeCore u := by
      have := (htop t ht).1.1
      have := (htop u hu).1.1
      omega
    have htu := (htop t ht).2
    rw [hcore, (htop u hu).2] at htu
    exact (Option.some.inj htu).symm
  have hsub : (ts.map fun t => (s.context.members.activeCore t).toNat) ⊆ List.range NumCpuCores := by
    intro i hi
    obtain ⟨t, ht, rfl⟩ := mem_map.mp hi
    have hlt := (htop t ht).1
    unfold IsCore at hlt
    exact mem_range.mpr (by omega)
  simpa using (subperm_of_subset hinj hsub).length_le

/-- A thread that is not the top of its core is not the only one there. -/
theorem Filling.erase_of_not_top (h : Filling s₀ runnable pending s) (ht : t ∈ runnable)
    (hnot : IsCore (s.context.members.activeCore t) → s.topThreads (s.context.members.activeCore t) ≠ some t) :
    (IsCore (s.context.members.activeCore t) →
      (s.context.queue.scheduledQueue.order (s.context.members.activeCore t)).erase t ≠ []) ∧
    ∀ d, IsCore d → s.topThreads d = ((s.context.queue.scheduledQueue.order d).erase t).head? := by
  have hcons : ∀ d, IsCore d → t ∈ s.context.queue.scheduledQueue.order d →
      ∃ u l, u ≠ t ∧ s.context.queue.scheduledQueue.order d = u :: l := by
    intro d hd hmem
    obtain ⟨-, rfl⟩ := (h.scheduled d hd t).mp hmem
    cases hl : s.context.queue.scheduledQueue.order (s.context.members.activeCore t) with
    | nil =>
      rw [hl] at hmem
      exact absurd hmem not_mem_nil
    | cons u l =>
      refine ⟨u, l, ?_, rfl⟩
      rintro rfl
      exact hnot hd (by rw [(h.top _ hd).1, hl]; rfl)
  refine ⟨fun hd => ?_, fun d hd => ?_⟩
  · obtain ⟨u, l, hu, hl⟩ := hcons _ hd ((h.scheduled _ hd t).mpr ⟨ht, rfl⟩)
    rw [hl, erase_cons_tail (by simpa using hu)]
    exact cons_ne_nil _ _
  · rw [(h.top d hd).1]
    by_cases hmem : t ∈ s.context.queue.scheduledQueue.order d
    · obtain ⟨u, l, hu, hl⟩ := hcons d hd hmem
      rw [hl, erase_cons_tail (by simpa using hu)]
      rfl
    · rw [erase_of_not_mem hmem]

/-- A suggested thread that is not the top of its core is moved. -/
theorem Filling.migrate_suggested (h : Filling s₀ runnable pending s) (hc : c ∈ pending)
    (ht : t ∈ s.context.queue.suggestedQueue.order c)
    (hnot : IsCore (s.context.members.activeCore t) → s.topThreads (s.context.members.activeCore t) ≠ some t) :
    ∃ s', s.migrate c (s.context.members.activeCore t) t = .ok s' ∧ Filling s₀ runnable (pending \ {c}) s' ∧
      s'.idleCores = s.idleCores := by
  have hrun := (h.suggested c (h.pendingIdle c hc).1 t ht).1
  obtain ⟨hrest, htop⟩ := h.erase_of_not_top hrun hnot
  exact h.migrate s hc ht hrest ⟨⟨rfl, rfl, rfl⟩, fun d hd => ⟨htop d hd, (h.top d hd).2⟩, h.mask⟩

/-- The search goes on behind the top thread of a core. -/
theorem searchSuggested_of_top (htop : IsTop s t) (room : ℕ) (candidates : List ℤ) :
    SearchState.searchSuggested c (room + 1) (some t) candidates s =
      (s.context.queue.getSuggestedNext s.context.members c t >>= fun next =>
        SearchState.searchSuggested c room next (candidates ++ [s.context.members.activeCore t]) s) := by
  rw [SearchState.searchSuggested]
  simp only [ge_iff_le, if_pos htop.1.1, htop.2, ne_eq, not_true_eq_false, if_false]

/-- The search ends at any other thread: that thread is moved, or the search is stopped. -/
theorem Filling.searchSuggested_of_not_top (h : Filling s₀ runnable pending s) (hc : c ∈ pending)
    (ht : t ∈ s.context.queue.suggestedQueue.order c) (hnot : ¬ IsTop s t) (room : ℕ) (candidates : List ℤ) :
    ∃ s', SearchState.searchSuggested c room (some t) candidates s = .ok (some t, candidates, s') ∧
      s'.idleCores = s.idleCores ∧ Filling s₀ runnable (pending \ {c}) s' := by
  obtain ⟨hcore, -, haffinity⟩ := h.pendingIdle c hc
  have hactive := h.activeCore t (h.suggested c hcore t ht).1
  have hnot' : IsCore (s.context.members.activeCore t) → s.topThreads (s.context.members.activeCore t) ≠ some t :=
    fun hd htop => hnot ⟨hd, htop⟩
  obtain ⟨s', hs', hfill, hidle⟩ := h.migrate_suggested hc ht hnot'
  obtain ⟨f, hf⟩ := h.members
  have hpriority : s.context.members.priority = s₀.members.priority := by rw [hf]
  unfold SearchState.searchSuggested
  dsimp only
  generalize htop : (if s.context.members.activeCore t ≥ 0 then s.topThreads (s.context.members.activeCore t)
    else none) = top
  have hne : top ≠ some t := by
    rintro rfl
    split_ifs at htop with h0
    exact hnot' (hactive.resolve_left (by omega)) htop
  rw [if_pos hne]
  cases top with
  | none =>
    simp only [hs']
    exact ⟨s', rfl, hidle, hfill⟩
  | some u =>
    by_cases hlimit : s.context.members.priority u < HighestCoreMigrationAllowedPriority
    · simp only [if_pos hlimit]
      refine ⟨_, rfl, rfl, Filling.done ?_ hc (.inl ⟨t, u, mem_append_right _ (mem_singleton.mpr rfl)⟩)⟩
      refine { h with log := fun e he => ?_, moved := fun v hv => ?_, settled := fun e he hnil => ?_ }
      · rcases mem_append.mp he with he | he
        · exact h.log e he
        · rw [mem_singleton.mp he]
          exact ⟨hcore, haffinity t ht, fun hut => hne (hut ▸ rfl), hpriority ▸ hlimit⟩
      · obtain ⟨e, he⟩ := h.moved v hv
        exact ⟨e, mem_append_left _ he⟩
      · refine (h.settled e he hnil).imp_right fun hor => hor.imp_left ?_
        rintro ⟨v, w, hstop⟩
        exact ⟨v, w, mem_append_left _ hstop⟩
    · simp only [if_neg hlimit, hs']
      exact ⟨s', rfl, hidle, hfill⟩

/-- **The search.** It passes over the top threads of their cores and ends at the first other thread, or
with all suggested threads as candidates. -/
theorem Filling.searchSuggested (h : Filling s₀ runnable pending s) (hc : c ∈ pending) :
    ∀ (rest pre : List ThreadId), s.context.queue.suggestedQueue.order c = pre ++ rest → (∀ t ∈ pre, IsTop s t) →
      ∀ room, room + pre.length = NumCpuCores → ∃ found candidates s',
        SearchState.searchSuggested c room rest.head? (pre.map s.context.members.activeCore) s =
          .ok (found, candidates, s') ∧ s'.idleCores = s.idleCores ∧
        (found = none ∧ s' = s ∧ candidates = (pre ++ rest).map s.context.members.activeCore ∧
            (∀ t ∈ pre ++ rest, IsTop s t) ∨
          found ≠ none ∧ Filling s₀ runnable (pending \ {c}) s') := by
  intro rest
  induction rest with
  | nil =>
    intro pre _ htops room _
    refine ⟨none, pre.map s.context.members.activeCore, s, ?_, rfl, .inl ⟨rfl, rfl, ?_, ?_⟩⟩
    · cases room <;> rfl
    · rw [append_nil]
    · rwa [append_nil]
  | cons t rest ih =>
    intro pre hpre htops room hroom
    have hmem : t ∈ s.context.queue.suggestedQueue.order c := by rw [hpre]; simp
    by_cases htop : IsTop s t
    · have hassoc : pre ++ t :: rest = pre ++ [t] ++ rest := by simp
      have htops' : ∀ u ∈ pre ++ [t], IsTop s u := by
        intro u hu
        rcases mem_append.mp hu with hu | hu
        · exact htops u hu
        · exact mem_singleton.mp hu ▸ htop
      have hnodup : (s.context.queue.suggestedQueue.order c).Nodup := h.suggestedLinked.nodup_order
      have hlen := IsTop.length_le (hnodup.sublist (by rw [hpre, hassoc]; exact sublist_append_left _ _)) htops'
      rw [length_append, length_singleton] at hlen
      obtain ⟨f, hf⟩ := h.members
      have hnext : s.context.queue.getSuggestedNext s.context.members c t = .ok rest.head? := by
        have hpriority : s.context.members.priority = s₀.members.priority := by rw [hf]
        rw [hpre] at hnodup
        unfold KPriorityQueue.getSuggestedNext
        rw [h.suggestedLinked.getNext hpriority hmem, hpre, behind_of_nodup hnodup]
      obtain ⟨room, rfl⟩ : ∃ r, room = r + 1 := ⟨room - 1, by omega⟩
      obtain ⟨found, candidates, s', hrun, hidle, hres⟩ :=
        ih (pre ++ [t]) (by rw [hpre, hassoc]) htops' room (by rw [length_append, length_singleton]; omega)
      refine ⟨found, candidates, s', ?_, hidle, by rwa [hassoc]⟩
      rw [head?_cons, searchSuggested_of_top htop, hnext]
      rw [map_append, map_singleton] at hrun
      exact hrun
    · obtain ⟨s', hrun, hidle, hfill⟩ :=
        h.searchSuggested_of_not_top hc hmem htop room (pre.map s.context.members.activeCore)
      exact ⟨some t, _, s', hrun, hidle, .inr ⟨Option.some_ne_none t, hfill⟩⟩

/-! ### The candidates -/

/-- **The candidates.** The first candidate core that has another thread gives its top thread; if there is
none, every candidate is alone on its core. -/
theorem Filling.tryCandidates (h : Filling s₀ runnable pending s) (hc : c ∈ pending) :
    ∀ ts : List ThreadId, (∀ t ∈ ts, t ∈ s.context.queue.suggestedQueue.order c ∧ IsTop s t) →
      (∀ t ∈ s.context.queue.suggestedQueue.order c, t ∈ ts ∨ Alone s.context t) →
      ∃ s', SearchState.tryCandidates c (ts.map s.context.members.activeCore) s = .ok s' ∧
        s'.idleCores = s.idleCores ∧ Filling s₀ runnable (pending \ {c}) s' := by
  intro ts
  induction ts with
  | nil =>
    intro _ halone
    exact ⟨s, rfl, rfl, h.done hc (.inr fun t ht => (halone t ht).resolve_left not_mem_nil)⟩
  | cons t ts ih =>
    intro htops halone
    obtain ⟨hmem, hcore, htop⟩ := htops t mem_cons_self
    set d := s.context.members.activeCore t with hd
    obtain ⟨l, hl⟩ : ∃ l, s.context.queue.scheduledQueue.order d = t :: l := by
      have hhead := (h.top d hcore).1
      rw [htop] at hhead
      exact head?_eq_some_iff.mp hhead.symm
    obtain ⟨f, hf⟩ := h.members
    have hnext : s.context.queue.getScheduledNext s.context.members d t = .ok l.head? := by
      have hpriority : s.context.members.priority = s₀.members.priority := by rw [hf]
      unfold KPriorityQueue.getScheduledNext
      rw [h.scheduledLinked.getNext hpriority (by rw [hl]; exact mem_cons_self), hl, behind_cons_self]
    rw [map_cons, ← hd, SearchState.tryCandidates, htop]
    simp only [hnext]
    cases l with
    | nil =>
      have hne : Alone s.context t := ⟨hcore, hl⟩
      refine ih (fun u hu => htops u (mem_cons_of_mem t hu)) fun u hu => ?_
      rcases halone u hu with hu | hu
      · rcases mem_cons.mp hu with rfl | hu
        · exact .inr hne
        · exact .inl hu
      · exact .inr hu
    | cons n l =>
      have herase : (s.context.queue.scheduledQueue.order d).erase t = n :: l := by rw [hl, erase_cons_head]
      have htops' : ∀ e, IsCore e → (s.setTopThread d (some n)).topThreads e =
          ((s.context.queue.scheduledQueue.order e).erase t).head? ∧
          (s.setTopThread d (some n)).context.highestPriorityThread e = (s.setTopThread d (some n)).topThreads e := by
        intro e he
        rw [setTopThread_topThreads, setTopThread_highest]
        by_cases hed : e = d
        · rw [hed, update_self, update_self, herase]
          exact ⟨rfl, rfl⟩
        · rw [update_of_ne hed, update_of_ne hed, erase_of_not_mem]
          · exact h.top e he
          · exact fun hmem' => hed ((h.scheduled e he t).mp hmem').2.symm
      obtain ⟨s', hs', hfill, hidle⟩ := h.migrate (s.setTopThread d (some n)) hc hmem
        (fun _ => by rw [← hd, herase]; exact cons_ne_nil n l)
        ⟨⟨setTopThread_queue, setTopThread_members, rfl⟩, htops',
          fun e he => setTopThread_changed hcore (h.mask e he)⟩
      exact ⟨s', hs', hidle, hfill⟩

/-! ### The loops -/

/-- The cores of a mask. -/
def coresOf (mask : BitVec 64) : Set ℤ := {c | 0 ≤ c ∧ mask.getLsbD c.toNat = true}

theorem countrZero_mem {mask : BitVec 64} (h : mask ≠ 0) : (countrZero mask : ℤ) ∈ coresOf mask :=
  ⟨Int.natCast_nonneg _, (countrZero_selects () mask h).2⟩

/-- One turn of the loop over the idle cores. -/
theorem Filling.fillIdleCore (h : Filling s₀ runnable (coresOf s.idleCores) s) (hne : s.idleCores ≠ 0) :
    ∃ s', s.fillIdleCore = .ok s' ∧ Filling s₀ runnable (coresOf s'.idleCores) s' ∧
      s'.idleCores = s.idleCores &&& ~~~coreMask (countrZero s.idleCores) := by
  have hc := countrZero_mem hne
  set c : ℤ := (countrZero s.idleCores : ℤ) with hcdef
  have hcore := (h.pendingIdle c hc).1
  have hcores : coresOf (s.idleCores &&& ~~~coreMask c) = coresOf s.idleCores \ {c} := by
    ext e
    simp only [coresOf, Set.mem_ofPred_eq, Set.mem_sdiff, Set.mem_singleton_iff, getLsbD_and, getLsbD_not,
      getLsbD_coreMask hcore, Bool.and_eq_true, decide_eq_true_eq, Bool.not_eq_true', decide_eq_false_iff_not]
    constructor
    · rintro ⟨he, hbit, -, hne⟩
      exact ⟨⟨he, hbit⟩, fun hec => hne (by rw [hec])⟩
    · rintro ⟨⟨he, hbit⟩, hec⟩
      exact ⟨he, hbit, lt_of_getLsbD hbit, by omega⟩
  obtain ⟨found, candidates, s₁, hrun, hidle, hres⟩ := h.searchSuggested hc (s.context.queue.suggestedQueue.order c) []
    rfl (fun _ ht => absurd ht not_mem_nil) NumCpuCores rfl
  have hfront : s.context.queue.getSuggestedFront c = (s.context.queue.suggestedQueue.order c).head? :=
    h.suggestedLinked.getFront
  unfold SearchState.fillIdleCore
  simp only [← hcdef, hfront]
  rw [map_nil] at hrun
  simp only [hrun]
  rcases hres with ⟨rfl, rfl, rfl, htops⟩ | ⟨hfound, hfill⟩
  · obtain ⟨s₂, hrun₂, hidle₂, hfill⟩ := h.tryCandidates hc (s₁.context.queue.suggestedQueue.order c)
      (fun t ht => ⟨ht, htops t ht⟩) fun t ht => .inl ht
    refine ⟨{ s₂ with idleCores := s₂.idleCores &&& ~~~coreMask c }, ?_, ?_, by simp only [hidle₂]⟩
    · simp only [bind, Except.bind, if_true, nil_append, hrun₂]
    · rw [hidle₂, hcores]
      exact { hfill with }
  · refine ⟨{ s₁ with idleCores := s₁.idleCores &&& ~~~coreMask c }, ?_, ?_, by simp only [hidle]⟩
    · simp only [bind, Except.bind, if_neg hfound]
    · rw [hidle, hcores]
      exact { hfill with }

/-- The cores that a mask has. -/
def coreCount (mask : BitVec 64) : ℕ := ((Finset.range 64).filter fun i => mask.getLsbD i = true).card

theorem coreCount_clear {mask : BitVec 64} (hcore : IsCore c) (hc : c ∈ coresOf mask) :
    coreCount (mask &&& ~~~coreMask c) < coreCount mask := by
  apply Finset.card_lt_card
  rw [Finset.ssubset_iff_of_subset]
  · refine ⟨c.toNat, Finset.mem_filter.mpr ⟨Finset.mem_range.mpr hcore.lt, hc.2⟩, fun hmem => ?_⟩
    have := (Finset.mem_filter.mp hmem).2
    rw [getLsbD_and, getLsbD_not, getLsbD_coreMask hcore] at this
    simp at this
  · intro i hi
    obtain ⟨hrange, hbit⟩ := Finset.mem_filter.mp hi
    rw [getLsbD_and, Bool.and_eq_true] at hbit
    exact Finset.mem_filter.mpr ⟨hrange, hbit.1⟩

theorem coreCount_le (mask : BitVec 64) : coreCount mask ≤ 64 :=
  (Finset.card_filter_le _ _).trans (Finset.card_range 64).le

/-- The loop over the idle cores ends with no core pending. -/
theorem Filling.fillIdleCores (h : Filling s₀ runnable (coresOf s.idleCores) s) :
    ∃ s', whileLoop .outOfFuel (fun s => s.idleCores != 0) SearchState.fillIdleCore 64 s = .ok s' ∧
      Filling s₀ runnable ∅ s' := by
  have hturn : ∀ s, Filling s₀ runnable (coresOf s.idleCores) s → (s.idleCores != 0) = true →
      ∃ s', s.fillIdleCore = .ok s' ∧ Filling s₀ runnable (coresOf s'.idleCores) s' ∧
        coreCount s'.idleCores < coreCount s.idleCores := by
    intro s hfill hne
    have hne' : s.idleCores ≠ 0 := bne_iff_ne.mp hne
    have hc := countrZero_mem hne'
    obtain ⟨s', hrun, hfill', hidle⟩ := hfill.fillIdleCore hne'
    refine ⟨s', hrun, hfill', ?_⟩
    rw [hidle]
    exact coreCount_clear (hfill.pendingIdle _ hc).1 hc
  obtain ⟨s', hrun, hfill, hzero⟩ := whileLoop_spec SchedulerFault.outOfFuel (fun s => s.idleCores != 0)
    SearchState.fillIdleCore (fun s => Filling s₀ runnable (coresOf s.idleCores) s) (fun s => coreCount s.idleCores)
    hturn 64 s h (coreCount_le _)
  refine ⟨s', hrun, ?_⟩
  have hempty : coresOf s'.idleCores = ∅ := by
    rw [bne_eq_false_iff_eq.mp hzero]
    ext e
    simp [coresOf]
  rwa [hempty] at hfill

/-- The state of the loop over all cores, before core `k`. -/
structure Found (s₀ : SchedulerContext) (k : ℕ) (s : SearchState) : Prop where
  queue : s.context.queue = s₀.queue
  members : s.context.members = s₀.members
  pinnedThread : s.context.pinnedThread = s₀.pinnedThread
  log : s.log = []
  top : ∀ i < k, s.topThreads i = s₀.queue.getScheduledFront i ∧ s.context.highestPriorityThread i = s.topThreads i
  mask : ∀ c, IsCore c → s.context.highestPriorityThread c ≠ s₀.highestPriorityThread c →
    s.coresNeedingScheduling.getLsbD c.toNat = true
  idle : ∀ i, s.idleCores.getLsbD i = true ↔ i < k ∧ s₀.queue.getScheduledFront i = none

theorem setTopThread_pinnedThread : (s.setTopThread c top).context.pinnedThread = s.context.pinnedThread := by
  unfold SearchState.setTopThread SchedulerContext.updateHighestPriorityThread
  split_ifs <;> rfl

theorem selectTopThread_of_not_pinned {s : SchedulerContext} (hpin : ∀ t c, s.pinnedThread t c = none) :
    s.selectTopThread c = s.queue.getScheduledFront c := by
  unfold SchedulerContext.selectTopThread
  cases s.queue.getScheduledFront c with
  | none => rfl
  | some t => simp only [hpin]

/-- One turn of the loop over all cores. -/
theorem Found.findTopThread {k : ℕ} (h : Found s₀ k s) (hk : k < NumCpuCores) (hpin : ∀ t c, s₀.pinnedThread t c = none) :
    Found s₀ (k + 1) (s.findTopThread k) := by
  have hcore : IsCore k := ⟨Int.natCast_nonneg k, by exact_mod_cast hk⟩
  have hselect : s.context.selectTopThread k = s₀.queue.getScheduledFront k := by
    rw [selectTopThread_of_not_pinned (by rw [h.pinnedThread]; exact hpin), h.queue]
  set s₁ := s.setTopThread k (s₀.queue.getScheduledFront k) with hs₁
  have hfound : ∀ idle : BitVec 64, (∀ i, idle.getLsbD i = true ↔ i < k + 1 ∧ s₀.queue.getScheduledFront i = none) →
      Found s₀ (k + 1) { s₁ with idleCores := idle } := by
    intro idle hidle
    refine ⟨setTopThread_queue.trans h.queue, setTopThread_members.trans h.members,
      setTopThread_pinnedThread.trans h.pinnedThread, h.log, fun i hi => ?_, fun d hd => ?_, hidle⟩
    · rw [hs₁, setTopThread_topThreads, setTopThread_highest]
      by_cases hik : i = k
      · rw [hik, update_self, update_self]
        exact ⟨rfl, rfl⟩
      · have hne : (i : ℤ) ≠ k := by exact_mod_cast hik
        rw [update_of_ne hne, update_of_ne hne]
        exact h.top i (by omega)
    · exact setTopThread_changed hcore (h.mask d hd)
  unfold SearchState.findTopThread
  simp only [hselect, h.queue, ← hs₁]
  cases hfront : s₀.queue.getScheduledFront k with
  | some t =>
    refine hfound s.idleCores fun i => ?_
    rw [h.idle]
    constructor
    · exact fun ⟨hi, hnone⟩ => ⟨by omega, hnone⟩
    · rintro ⟨hi, hnone⟩
      refine ⟨?_, hnone⟩
      by_contra hlt
      obtain rfl : i = k := by omega
      rw [hfront] at hnone
      exact absurd hnone (Option.some_ne_none t)
  | none =>
    refine hfound (s.idleCores ||| coreMask k) fun i => ?_
    rw [getLsbD_or, Bool.or_eq_true, h.idle, getLsbD_coreMask hcore, decide_eq_true_eq, Int.toNat_natCast]
    constructor
    · rintro (⟨hi, hnone⟩ | rfl)
      · exact ⟨by omega, hnone⟩
      · exact ⟨by omega, hfront⟩
    · rintro ⟨hi, hnone⟩
      by_cases hik : i = k
      · exact .inr hik
      · exact .inl ⟨by omega, hnone⟩

theorem found_foldl (hpin : ∀ t c, s₀.pinnedThread t c = none) :
    ∀ k ≤ NumCpuCores, Found s₀ k
      ((List.range k).foldl (fun s (coreId : ℕ) => s.findTopThread coreId) ⟨s₀, fun _ => none, 0, 0, []⟩) := by
  intro k
  induction k with
  | zero =>
    intro _
    exact ⟨rfl, rfl, rfl, rfl, fun i hi => absurd hi (Nat.not_lt_zero i), fun c _ hne => absurd rfl hne,
      fun i => by simp⟩
  | succ k ih =>
    intro hk
    rw [range_succ, foldl_append]
    exact (ih (by omega)).findTopThread hk hpin

/-- The idle cores are filled from the state that the loop over all cores leaves. -/
theorem Found.filling (h : Found s₀ NumCpuCores s) (hq : QueueOk s₀ runnable) :
    Filling s₀ runnable (coresOf s.idleCores) s := by
  have hfront : ∀ d, s₀.queue.getScheduledFront d = (s₀.queue.scheduledQueue.order d).head? :=
    fun d => hq.scheduledLinked.getFront
  have hcores : ∀ d, d ∈ coresOf s.idleCores ↔ IsCore d ∧ s₀.queue.scheduledQueue.order d = [] := by
    intro d
    unfold coresOf IsCore
    rw [Set.mem_ofPred_eq, h.idle, hfront, head?_eq_none_iff]
    constructor
    · rintro ⟨h0, hlt, hnil⟩
      rw [Int.toNat_of_nonneg h0] at hnil
      exact ⟨⟨h0, by omega⟩, hnil⟩
    · rintro ⟨⟨h0, hlt⟩, hnil⟩
      rw [Int.toNat_of_nonneg h0]
      exact ⟨h0, by omega, hnil⟩
  refine ⟨h.queue ▸ hq.scheduledLinked, h.queue ▸ hq.suggestedLinked, ⟨s₀.members.activeCore, h.members⟩, hq.dummy,
    h.members ▸ hq.activeCore, ?_, ?_, ?_, ?_, h.mask, ?_, ?_, ?_⟩
  · rw [h.queue, h.members]
    exact hq.scheduled
  · rw [h.queue, h.members]
    exact fun d hd t ht => ⟨((hq.suggested d hd t).mp ht).1, ((hq.suggested d hd t).mp ht).2.2⟩
  · rw [h.queue]
    intro d hd
    obtain ⟨hcore, hnil⟩ := (hcores d).mp hd
    exact ⟨hcore, hnil, fun t ht => ((hq.suggested d hcore t).mp ht).2.1⟩
  · rintro d ⟨h0, hlt⟩
    obtain ⟨i, rfl⟩ := Int.eq_ofNat_of_zero_le h0
    rw [h.queue, ← hfront]
    exact h.top i (by exact_mod_cast hlt)
  · rw [h.log]
    exact fun e he => absurd he not_mem_nil
  · rw [h.members]
    exact fun t hne => absurd rfl hne
  · rw [h.queue]
    exact fun d hd hnil => .inl ((hcores d).mpr ⟨hd, hnil⟩)

/-- **The records after an update.** Without pinned threads, each core's record is the front of its queue,
no thread is recorded twice, threads move within their affinity masks only, the mask has each core whose
record changed, and a core is left idle only if its search was stopped or the threads suggested for it are
alone on their cores. -/
theorem SchedulerContext.updateHighestPriorityThreadsImpl_records (hq : QueueOk s₀ runnable)
    (hpin : ∀ t c, s₀.pinnedThread t c = none) :
    ∃ mask s log, s₀.updateHighestPriorityThreadsImpl = .ok (mask, s, log) ∧
      (∃ f, s.members = { s₀.members with activeCore := f }) ∧
      (∀ c, IsCore c → s.highestPriorityThread c = s.queue.getScheduledFront c ∧
        (∀ t, t ∈ s.queue.scheduledQueue.order c ↔ t ∈ runnable ∧ s.members.activeCore t = c) ∧
        (s.highestPriorityThread c = none ↔ s.queue.scheduledQueue.order c = [])) ∧
      (∀ c d t, IsCore c → IsCore d → s.highestPriorityThread c = some t → s.highestPriorityThread d = some t → c = d) ∧
      (∀ e ∈ log, EventOk s₀ e) ∧
      (∀ t, s.members.activeCore t ≠ s₀.members.activeCore t →
        ∃ c, SearchEvent.migrate t c (s.members.activeCore t) ∈ log) ∧
      (∀ c, IsCore c → s.highestPriorityThread c ≠ s₀.highestPriorityThread c → mask.getLsbD c.toNat = true) ∧
      ∀ c, IsCore c → s.highestPriorityThread c = none →
        Stopped log c ∨ ∀ t ∈ s.queue.suggestedQueue.order c, Alone s t := by
  have hfound := found_foldl hpin NumCpuCores le_rfl
  obtain ⟨s, hrun, h⟩ := (hfound.filling hq).fillIdleCores
  have hrecord : ∀ c, IsCore c → s.context.highestPriorityThread c = (s.context.queue.scheduledQueue.order c).head? :=
    fun c hc => (h.top c hc).2.trans (h.top c hc).1
  refine ⟨s.coresNeedingScheduling, s.context, s.log, ?_, h.members, fun c hc => ⟨?_, h.scheduled c hc, ?_⟩, ?_, h.log,
    h.moved, h.mask, ?_⟩
  · unfold SchedulerContext.updateHighestPriorityThreadsImpl
    simp only [hrun]
    rfl
  · rw [hrecord c hc]
    exact h.scheduledLinked.getFront.symm
  · rw [hrecord c hc, head?_eq_none_iff]
  · intro c d t hc hd hct hdt
    rw [hrecord c hc] at hct
    rw [hrecord d hd] at hdt
    rw [← ((h.scheduled c hc t).mp (mem_of_head? hct)).2, ← ((h.scheduled d hd t).mp (mem_of_head? hdt)).2]
  · intro c hc hnone
    rw [hrecord c hc, head?_eq_none_iff] at hnone
    exact (h.settled c hc hnone).resolve_left (Set.notMem_empty c)

/-- A queue of the threads 1 and 2 for one core. -/
def twoThreadQueue (core : ℤ) : KPriorityQueueImpl ThreadId :=
  ⟨fun p c => if p = 44 ∧ c = core then [1, 2] else [], fun c p => decide (p = 44 ∧ c = core)⟩

theorem linked_twoThreadQueue (core : ℤ) : (twoThreadQueue core).Linked fun _ => 44 := by
  refine ⟨fun p c t ht => ?_, fun p c => ?_, fun c p _ => ?_⟩
  all_goals dsimp only [twoThreadQueue] at *
  · split_ifs at ht with h
    · exact h.1.symm
    · exact absurd ht not_mem_nil
  · split_ifs
    · decide
    · exact nodup_nil
  · split_ifs with h <;> simp [h]

theorem mem_twoThreadQueue (core c : ℤ) (t : ThreadId) :
    t ∈ (twoThreadQueue core).order c ↔ t ∈ ({1, 2} : Set ThreadId) ∧ c = core := by
  rw [(linked_twoThreadQueue core).mem_order]
  dsimp only [twoThreadQueue]
  by_cases hc : c = core <;> simp [hc, NumPriority, LowestPriority]

/-- Threads 1 and 2 are scheduled on core 0 and may run on core 1. -/
def twoOnOneCore : SchedulerContext where
  members := ⟨fun _ => 44, fun _ => 0, fun _ => 3, fun _ => false⟩
  pinnedThread _ _ := none
  numKernelWaiters _ := 0
  isRunnable _ := true
  queue := ⟨twoThreadQueue 0, twoThreadQueue 1⟩
  highestPriorityThread _ := none
  needsScheduling _ := false

theorem queueOk_twoOnOneCore : QueueOk twoOnOneCore {1, 2} := by
  refine ⟨linked_twoThreadQueue 0, linked_twoThreadQueue 1, fun _ _ => rfl,
    fun _ _ => .inr ⟨le_refl (0 : ℤ), by show (0 : ℤ) < 4; decide⟩, fun c hc t => ?_, fun c hc t => ?_⟩
  · rw [show twoOnOneCore.queue.scheduledQueue = twoThreadQueue 0 from rfl, mem_twoThreadQueue]
    exact and_congr_right fun _ => eq_comm
  · rw [show twoOnOneCore.queue.suggestedQueue = twoThreadQueue 1 from rfl, mem_twoThreadQueue]
    refine and_congr_right fun _ => ?_
    obtain ⟨h0, hlt⟩ := hc
    change c < 4 at hlt
    show c = 1 ↔ (3 : BitVec 64).getLsbD c.toNat = true ∧ (0 : ℤ) ≠ c
    interval_cases c <;> decide

/-- Thread 2 is moved to core 1, which would be idle. -/
theorem records_twoOnOneCore : ∃ mask s log, twoOnOneCore.updateHighestPriorityThreadsImpl = .ok (mask, s, log) ∧
    s.highestPriorityThread 0 = some 1 ∧ s.highestPriorityThread 1 = some 2 ∧ mask = 3 ∧
    log = [.migrate 2 0 1] ∧ s.queue.getScheduledFront 1 = some 2 := by
  obtain ⟨mask, s, log, hrun, -, hrecord, -⟩ :=
    SchedulerContext.updateHighestPriorityThreadsImpl_records queueOk_twoOnOneCore fun _ _ => rfl
  have heval : (twoOnOneCore.updateHighestPriorityThreadsImpl.toOption.map fun r =>
      (r.1, r.2.1.highestPriorityThread 0, r.2.1.highestPriorityThread 1, r.2.2)) =
      some (3, some 1, some 2, [.migrate 2 0 1]) := by decide +kernel
  rw [hrun] at heval
  simp only [Except.toOption, Option.map_some, Option.some.injEq, Prod.mk.injEq] at heval
  obtain ⟨hmask, h0, h1, hlog⟩ := heval
  have hcore : IsCore 1 := ⟨by decide, by decide⟩
  exact ⟨mask, s, log, hrun, h0, h1, hmask, hlog, (hrecord 1 hcore).1.symm.trans h1⟩

end Kernel
end Citron
