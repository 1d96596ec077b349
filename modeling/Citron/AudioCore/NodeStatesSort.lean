/-
# The sort of the mix graph

A call of `Tsort` starts with the entries that an earlier call, ended by a cycle, left on the stack.
They are nodes like any others to the search, so its result does not depend on them, but the room
that is left does.
-/
import Citron.AudioCore.NodeStates
import Citron.Lib.DepthFirst
import Citron.Lib.Folds

namespace Citron
namespace AudioCore
namespace Renderer

open Lib Relation List

namespace NodeStates

variable {m : EdgeMatrix} {n : ℕ} {s s' : NodeStates} {done : List ℕ}

/-! ### States of the nodes -/

@[simp] theorem getState_setState (s : NodeStates) (id : ℕ) (state : SearchState) (x : ℕ) :
    (s.setState id state).getState x = if x = id then state else s.getState x := by
  by_cases hx : x = id
  · subst hx
    cases state <;> simp [setState, getState]
  · cases state <;> simp [setState, getState, hx]

@[simp] theorem getState_resetState (s : NodeStates) (x : ℕ) : s.resetState.getState x = .unknown := rfl

@[simp] theorem stack_setState (s : NodeStates) (id : ℕ) (state : SearchState) :
    (s.setState id state).stack = s.stack := by
  cases state <;> rfl

/-- The nodes that the search has not met. -/
def unknowns (s : NodeStates) : Finset ℕ := {x ∈ Finset.range s.nodeCount | s.getState x = .unknown}

theorem mem_unknowns {x : ℕ} : x ∈ s.unknowns ↔ x < s.nodeCount ∧ s.getState x = .unknown := by
  rw [unknowns, Finset.mem_filter, Finset.mem_range]

theorem card_unknowns_le (s : NodeStates) : s.unknowns.card ≤ s.nodeCount :=
  (Finset.card_filter_le _ _).trans_eq (Finset.card_range _)

/-- Each node that is still to be expanded puts at most the other unknown ones on the stack. -/
def Roomy (s : NodeStates) : Prop := s.stack.length + s.unknowns.card.choose 2 ≤ s.stackSize

/-! ### The search under way -/

/-- The states of `n` nodes as a call finds and leaves them. -/
structure Intact (n : ℕ) (s : NodeStates) : Prop where
  nodeCount : s.nodeCount = n
  stackSize : s.stackSize = n * n
  length : s.results.length = n
  stackBound : ∀ x ∈ s.stack, x < n

/-- The search has got through the nodes `done`, in this order. -/
structure Searching (m : EdgeMatrix) (n : ℕ) (s : NodeStates) (done : List ℕ) : Prop where
  nodeCount : s.nodeCount = n
  stackSize : s.stackSize = n * n
  search : Search m.Edge (fun x => s.getState x = .found) s.stack done
  complete : ∀ x, s.getState x = .complete ↔ x ∈ done
  stackBound : ∀ x ∈ s.stack, x < n
  doneBound : ∀ x ∈ done, x < n
  results : s.results = done ++ List.replicate (n - done.length) noResult
  resultPos : s.resultPos = done.length
  roomy : s.Roomy

/-- The call found a cycle: the states are reset, and some entries are left on the stack. -/
def Aborted (m : EdgeMatrix) (n : ℕ) (stop : Stop) : Prop := ¬ m.Acyclic ∧ ∃ t, stop = .cycle t ∧ Intact n t

theorem Searching.length_le (h : Searching m n s done) : done.length ≤ n := by
  have hsub : done ⊆ List.range n := fun x hx => mem_range.mpr (h.doneBound x hx)
  have hle := (h.search.nodup.subperm hsub).length_le
  rwa [length_range] at hle

theorem Searching.results_length (h : Searching m n s done) : s.results.length = n := by
  have hle := h.length_le
  rw [h.results, length_append, length_replicate]
  omega

theorem Searching.intact (h : Searching m n s done) : Intact n s :=
  ⟨h.nodeCount, h.stackSize, h.results_length, h.stackBound⟩

/-- The successors that the loop over the edges pushes. -/
def fresh (m : EdgeMatrix) (s : NodeStates) (node : ℕ) (ids : List ℕ) : List ℕ :=
  ids.filter fun id => m.connected node id && s.getState id = .unknown

variable {ids rest : List ℕ} {node id c turns : ℕ}

theorem mem_fresh :
    id ∈ fresh m s node ids ↔ id ∈ ids ∧ m.connected node id = true ∧ s.getState id = .unknown := by
  rw [fresh, mem_filter, Bool.and_eq_true, decide_eq_true_eq]

/-- What the loop over the edges comes to: it pushes the unknown successors, unless it meets one that is found. -/
def Scanned (m : EdgeMatrix) (s : NodeStates) (node : ℕ) (ids : List ℕ) : Prop :=
  ((∀ id ∈ ids, m.connected node id = true → s.getState id ≠ .found) ∧
    ids.foldlM (scanEdge m node) s = .ok { s with stack := (fresh m s node ids).reverse ++ s.stack }) ∨
  ∃ id ∈ ids, m.connected node id = true ∧ s.getState id = .found ∧ ∃ stack,
    ids.foldlM (scanEdge m node) s = .error (.cycle { s with stack := stack }.resetState) ∧
      ∀ x ∈ stack, x ∈ s.stack ∨ x ∈ ids

/-- An edge that is passed over. -/
theorem Scanned.skip (h : Scanned m s node ids) (hstep : scanEdge m node s id = .ok s)
    (hfresh : fresh m s node (id :: ids) = fresh m s node ids)
    (hnot : ¬ (m.connected node id = true ∧ s.getState id = .found)) : Scanned m s node (id :: ids) := by
  rw [Scanned, hfresh, foldlM_cons, hstep]
  rcases h with ⟨hall, hok⟩ | ⟨x, hx, hedge, hfound, stack, herr, hstack⟩
  · refine Or.inl ⟨fun x hx hedge hfound => ?_, hok⟩
    rcases mem_cons.mp hx with rfl | hx
    · exact hnot ⟨hedge, hfound⟩
    · exact hall x hx hedge hfound
  · refine Or.inr ⟨x, mem_cons_of_mem id hx, hedge, hfound, stack, herr, fun y hy => ?_⟩
    exact (hstack y hy).imp_right (mem_cons_of_mem id)

/-- An unknown successor that is pushed. -/
theorem Scanned.push (h : Scanned m { s with stack := id :: s.stack } node ids)
    (hstep : scanEdge m node s id = .ok { s with stack := id :: s.stack })
    (hfresh : fresh m s node (id :: ids) = id :: fresh m s node ids) (hstate : s.getState id = .unknown) :
    Scanned m s node (id :: ids) := by
  rw [Scanned, hfresh, foldlM_cons, hstep, reverse_cons, append_assoc]
  rcases h with ⟨hall, hok⟩ | ⟨x, hx, hedge, hfound, stack, herr, hstack⟩
  · refine Or.inl ⟨fun x hx hedge hfound => ?_, hok⟩
    rcases mem_cons.mp hx with rfl | hx
    · rw [hstate] at hfound
      cases hfound
    · exact hall x hx hedge hfound
  · refine Or.inr ⟨x, mem_cons_of_mem id hx, hedge, hfound, stack, herr, fun y hy => ?_⟩
    rcases hstack y hy with hy | hy
    · rcases mem_cons.mp hy with rfl | hy
      · exact .inr mem_cons_self
      · exact .inl hy
    · exact .inr (mem_cons_of_mem id hy)

/-- The loop over the edges keeps within the stack when there is room for the unknown successors. -/
theorem scanEdges_spec
    (hroom : s.stack.length + (fresh m s node ids).length ≤ s.stackSize) : Scanned m s node ids := by
  induction ids generalizing s with
  | nil => exact .inl ⟨fun _ h => absurd h not_mem_nil, rfl⟩
  | cons id ids ih =>
    by_cases hedge : m.connected node id = true
    · cases hstate : s.getState id with
      | unknown =>
        have hfresh : fresh m s node (id :: ids) = id :: fresh m s node ids := by
          rw [fresh, filter_cons_of_pos (by simp [hedge, hstate])]
          rfl
        rw [hfresh, length_cons] at hroom
        have hpush : scanEdge m node s id = .ok { s with stack := id :: s.stack } := by
          simp only [scanEdge, hedge, if_true, hstate, NodeStates.push]
          rw [if_pos (by omega)]
        refine Scanned.push (ih ?_) hpush hfresh hstate
        calc (id :: s.stack).length + (fresh m s node ids).length
            = s.stack.length + ((fresh m s node ids).length + 1) := by rw [length_cons]; omega
          _ ≤ s.stackSize := hroom
      | found =>
        refine Or.inr ⟨id, mem_cons_self, hedge, hstate, s.stack, ?_, fun y hy => .inl hy⟩
        rw [foldlM_cons]
        simp only [scanEdge, hedge, if_true, hstate]
        rfl
      | complete =>
        have hfresh : fresh m s node (id :: ids) = fresh m s node ids := by
          rw [fresh, filter_cons_of_neg (by simp [hstate])]
          rfl
        apply (ih (hfresh ▸ hroom)).skip _ hfresh
        · rintro ⟨-, hfound⟩
          rw [hstate] at hfound
          cases hfound
        · simp only [scanEdge, hedge, if_true, hstate]
    · have hfresh : fresh m s node (id :: ids) = fresh m s node ids := by
        rw [fresh, filter_cons_of_neg (by simp [hedge])]
        rfl
      apply (ih (hfresh ▸ hroom)).skip _ hfresh
      · exact fun h => hedge h.1
      · simp only [scanEdge, hedge, Bool.false_eq_true, if_false]

/-! ### One turn -/

theorem fresh_length_le (hcount : m.count = s.nodeCount) :
    (fresh m s node (List.range m.count)).length ≤ s.unknowns.card := by
  have hnodup : (fresh m s node (List.range m.count)).Nodup := nodup_range.filter _
  rw [← toFinset_card_of_nodup hnodup]
  refine Finset.card_le_card fun id hid => ?_
  obtain ⟨hlt, -, hstate⟩ := mem_fresh.mp (mem_toFinset.mp hid)
  rw [mem_range, hcount] at hlt
  exact mem_unknowns.mpr ⟨hlt, hstate⟩

theorem card_unknowns_setState_found (hc : c ∈ s.unknowns) :
    (s.setState c .found).unknowns.card + 1 = s.unknowns.card := by
  have herase : (s.setState c .found).unknowns = s.unknowns.erase c := by
    ext x
    rw [Finset.mem_erase, mem_unknowns, mem_unknowns, getState_setState]
    by_cases hx : x = c
    · simp [hx]
    · simp [hx, setState]
  rw [herase]
  exact Finset.card_erase_add_one hc

theorem unknowns_setState_complete (hc : s.getState c ≠ .unknown) :
    (s.setState c .complete).unknowns = s.unknowns := by
  ext x
  rw [mem_unknowns, mem_unknowns, getState_setState]
  by_cases hx : x = c
  · subst hx
    simp [hc]
  · simp [hx, setState]

/-- The turns that the loop over the stack has left. -/
def turnsLeft (n : ℕ) (s : NodeStates) : ℕ := (n + 1) * s.unknowns.card + s.stack.length

theorem Searching.turnsLeft_le (h : Searching m n s done) : turnsLeft n s ≤ (n + 1) * n + s.stack.length :=
  Nat.add_le_add_right (Nat.mul_le_mul_left _ ((card_unknowns_le s).trans_eq h.nodeCount)) _

/-- What a turn of the search comes to. -/
def Turned (m : EdgeMatrix) (n : ℕ) (s : NodeStates) (done : List ℕ) (r : Except Stop NodeStates) : Prop :=
  (∃ s' done', r = .ok s' ∧ Searching m n s' done' ∧ turnsLeft n s' < turnsLeft n s ∧ done ⊆ done' ∧
      ∀ x ∈ s.stack, x ∈ s'.stack ∨ x ∈ done') ∨
    ∃ e, r = .error e ∧ Aborted m n e

/-- The node on top is met first: it is expanded. -/
theorem Searching.expand (h : Searching m n s done) (hcount : m.count = n) {c : ℕ} {rest : List ℕ}
    (hstack : s.stack = c :: rest) (hc : s.getState c = .unknown) :
    Turned m n s done ((List.range m.count).foldlM (scanEdge m c) (s.setState c .found)) := by
  have hcn : c < n := h.stackBound c (hstack ▸ mem_cons_self)
  have hcmem : c ∈ s.unknowns := mem_unknowns.mpr ⟨h.nodeCount ▸ hcn, hc⟩
  have hcard := card_unknowns_setState_found hcmem
  set t := s.setState c .found with ht
  have htstack : t.stack = s.stack := stack_setState s c .found
  have htsize : t.stackSize = n * n := h.stackSize
  have htcount : m.count = t.nodeCount := hcount.trans h.nodeCount.symm
  have hfresh : (fresh m t c (List.range m.count)).length ≤ t.unknowns.card := fresh_length_le htcount
  have hchoose : (t.unknowns.card + 1).choose 2 = t.unknowns.card + t.unknowns.card.choose 2 := by
    rw [Nat.choose_succ_succ' _ 1, Nat.choose_one_right]
  have hroomy := h.roomy
  rw [Roomy, ← hcard, hchoose, h.stackSize] at hroomy
  have hroom : t.stack.length + (fresh m t c (List.range m.count)).length ≤ t.stackSize := by
    rw [htstack, htsize]
    omega
  have hstate : ∀ x, t.getState x = if x = c then .found else s.getState x := getState_setState s c .found
  have hsearch : Search m.Edge (fun x => s.getState x = .found) (c :: rest) done := hstack ▸ h.search
  rcases scanEdges_spec hroom with ⟨hall, hok⟩ | ⟨id, hid, hedge, hfound, stack, herr, hmem⟩
  · refine .inl ⟨_, done, hok, ⟨h.nodeCount, htsize, ?_, ?_, ?_, h.doneBound, h.results, h.resultPos, ?_⟩, ?_,
      List.Subset.refl done, fun x hx => .inl (mem_append_right _ (htstack ▸ hx))⟩
    · have hnotfound : s.getState c ≠ .found := by simp [hc]
      have hnotdone : c ∉ done := fun hmem => by
        rw [← h.complete, hc] at hmem
        cases hmem
      have hnew := @Search.expand _ _ _ _ _ _ hsearch hnotfound hnotdone (fresh m t c (List.range m.count)).reverse ?_ ?_ ?_
      · have hpred : (fun x => s.getState x = .found ∨ x = c) = fun x => t.getState x = .found := by
          funext x
          rw [hstate]
          by_cases hx : x = c <;> simp [hx]
        rw [hpred, ← hstack, ← htstack] at hnew
        exact hnew
      · intro y hy
        obtain ⟨hlt, hedge, -⟩ := mem_fresh.mp (mem_reverse.mp hy)
        exact ⟨hcount ▸ hcn, mem_range.mp hlt, hedge⟩
      · intro y hy
        obtain ⟨-, -, hunknown⟩ := mem_fresh.mp (mem_reverse.mp hy)
        rw [hstate] at hunknown
        by_cases hyc : y = c
        · simp [hyc] at hunknown
        · rw [if_neg hyc] at hunknown
          exact ⟨hyc, by simp [hunknown]⟩
      · intro y hy
        have hy' : y ∈ List.range m.count := mem_range.mpr hy.2.1
        cases hst : t.getState y with
        | unknown => exact .inr (mem_reverse.mpr (mem_fresh.mpr ⟨hy', hy.2.2, hst⟩))
        | found => exact absurd hst (hall y hy' hy.2.2)
        | complete =>
          refine .inl ((h.complete y).mp ?_)
          rw [hstate] at hst
          by_cases hyc : y = c
          · simp [hyc] at hst
          · rwa [if_neg hyc] at hst
    · intro x
      rw [← h.complete]
      change t.getState x = .complete ↔ _
      rw [hstate]
      by_cases hx : x = c
      · simp [hx, hc]
      · simp [hx]
    · intro x hx
      rcases mem_append.mp hx with hx | hx
      · obtain ⟨hlt, -⟩ := mem_fresh.mp (mem_reverse.mp hx)
        exact hcount ▸ mem_range.mp hlt
      · exact h.stackBound x (htstack ▸ hx)
    · change ((fresh m t c (List.range m.count)).reverse ++ t.stack).length + t.unknowns.card.choose 2 ≤ t.stackSize
      rw [length_append, length_reverse, htstack, htsize]
      omega
    · change (n + 1) * t.unknowns.card + ((fresh m t c (List.range m.count)).reverse ++ t.stack).length < _
      have hle : t.unknowns.card ≤ n := (card_unknowns_le t).trans_eq h.nodeCount
      rw [turnsLeft, ← hcard, length_append, length_reverse, htstack, Nat.mul_succ]
      omega
  · refine .inr ⟨_, herr, ?_, _, rfl, h.nodeCount, h.stackSize, ?_, ?_⟩
    · intro hacyclic
      have hfound' : s.getState id = .found ∨ id = c := by
        rw [hstate] at hfound
        by_cases hidc : id = c
        · exact .inr hidc
        · rw [if_neg hidc] at hfound
          exact .inl hfound
      obtain ⟨x, hx⟩ := hsearch.cycle ⟨hcount ▸ hcn, mem_range.mp hid, hedge⟩ hfound'
      exact hacyclic x hx
    · change (s.results.map fun _ => noResult).length = n
      rw [length_map, h.results_length]
    · intro x hx
      rcases hmem x hx with hx | hx
      · exact h.stackBound x (htstack ▸ hx)
      · exact hcount ▸ mem_range.mp hx

/-- The node on top was met before: it goes to the results. -/
theorem Searching.finish (h : Searching m n s done) (hstack : s.stack = c :: rest) (hc : s.getState c = .found) :
    Turned m n s done (do
      let s ← (s.setState c .complete).pushTsortResult c
      return s.pop) := by
  have hcn : c < n := h.stackBound c (hstack ▸ mem_cons_self)
  have hsearch : Search m.Edge (fun x => s.getState x = .found) (c :: rest) done := hstack ▸ h.search
  have hnew := hsearch.finish hc
  have hbound : ∀ x ∈ done ++ [c], x < n := fun x hx => by
    rcases mem_append.mp hx with hx | hx
    · exact h.doneBound x hx
    · exact (mem_singleton.mp hx) ▸ hcn
  have hlt : done.length < n := by
    have hsub : done ++ [c] ⊆ List.range n := fun x hx => mem_range.mpr (hbound x hx)
    have hle := (hnew.nodup.subperm hsub).length_le
    rwa [length_range, length_append, length_singleton] at hle
  have hresults : s.results.set s.resultPos c =
      (done ++ [c]) ++ List.replicate (n - (done ++ [c]).length) noResult := by
    have hrep : List.replicate (n - done.length) noResult =
        noResult :: List.replicate (n - (done.length + 1)) noResult := by
      rw [← replicate_succ]
      congr 1
      omega
    rw [h.results, h.resultPos, hrep, set_append_right _ _ (Nat.le_refl _), Nat.sub_self, set_cons_zero,
      length_append, length_singleton, append_assoc, singleton_append]
  have hpush : (s.setState c .complete).pushTsortResult c =
      .ok { s.setState c .complete with results := s.results.set s.resultPos c, resultPos := s.resultPos + 1 } := by
    rw [pushTsortResult]
    apply if_pos
    change s.resultPos < s.results.length
    rw [h.resultPos, h.results_length]
    exact hlt
  have hstate : ∀ x, (s.setState c .complete).getState x = if x = c then .complete else s.getState x :=
    getState_setState s c .complete
  have hunknowns : (s.setState c .complete).unknowns = s.unknowns := unknowns_setState_complete (by simp [hc])
  rw [hpush]
  refine .inl ⟨_, done ++ [c], rfl, ⟨h.nodeCount, h.stackSize, ?_, ?_, ?_, hbound, hresults, ?_, ?_⟩, ?_,
    subset_append_left done [c], ?_⟩
  · have hpred : (fun x => s.getState x = .found ∧ x ≠ c) = fun x => (s.setState c .complete).getState x = .found := by
      funext x
      rw [hstate]
      by_cases hx : x = c <;> simp [hx]
    change Search m.Edge (fun x => (s.setState c .complete).getState x = .found) s.stack.tail _
    rw [← hpred, hstack]
    exact hnew
  · intro x
    change (s.setState c .complete).getState x = .complete ↔ _
    rw [hstate, mem_append, mem_singleton, ← h.complete]
    by_cases hx : x = c
    · simp [hx]
    · simp [hx]
  · intro x hx
    exact h.stackBound x (mem_of_mem_tail hx)
  · change s.resultPos + 1 = _
    rw [h.resultPos, length_append, length_singleton]
  · have hroomy := h.roomy
    rw [Roomy, hstack, length_cons] at hroomy
    change s.stack.tail.length + (s.setState c .complete).unknowns.card.choose 2 ≤ s.stackSize
    rw [hunknowns, hstack, tail_cons]
    omega
  · change (n + 1) * (s.setState c .complete).unknowns.card + s.stack.tail.length < turnsLeft n s
    rw [hunknowns, turnsLeft, hstack, tail_cons, length_cons]
    omega
  · intro x hx
    rcases mem_cons.mp (hstack ▸ hx) with rfl | hx
    · exact .inr (mem_append_right _ (mem_singleton_self x))
    · exact .inl (show x ∈ s.stack.tail by rwa [hstack])

/-- The node on top is done: it only leaves the stack. -/
theorem Searching.below (h : Searching m n s done) (hstack : s.stack = c :: rest)
    (hc : s.getState c = .complete) : Turned m n s done (.ok s.pop) := by
  have hsearch : Search m.Edge (fun x => s.getState x = .found) (c :: rest) done := hstack ▸ h.search
  have hroomy := h.roomy
  rw [Roomy, hstack, length_cons] at hroomy
  refine .inl ⟨_, done, rfl, ⟨h.nodeCount, h.stackSize, ?_, h.complete, ?_, h.doneBound, h.results, h.resultPos, ?_⟩,
    ?_, List.Subset.refl done, ?_⟩
  · change Search m.Edge (fun x => s.getState x = .found) s.stack.tail done
    rw [hstack]
    exact hsearch.below (by simp [hc]) ((h.complete c).mp hc)
  · intro x hx
    exact h.stackBound x (mem_of_mem_tail hx)
  · change s.stack.tail.length + s.unknowns.card.choose 2 ≤ s.stackSize
    rw [hstack, tail_cons]
    omega
  · change (n + 1) * s.unknowns.card + s.stack.tail.length < turnsLeft n s
    rw [turnsLeft, hstack, tail_cons, length_cons]
    omega
  · intro x hx
    rcases mem_cons.mp (hstack ▸ hx) with rfl | hx
    · exact .inr ((h.complete x).mp hc)
    · exact .inl (show x ∈ s.stack.tail by rwa [hstack])

theorem visitTop_spec (h : Searching m n s done) (hcount : m.count = n) (hne : 0 < s.stack.length) :
    Turned m n s done (visitTop m s) := by
  obtain ⟨c, rest, hstack⟩ := exists_cons_of_length_pos hne
  have htop : s.top = c := by rw [top, hstack, headD_cons]
  rw [visitTop, htop]
  cases hc : s.getState c with
  | unknown => exact h.expand hcount hstack hc
  | found => exact h.finish hstack hc
  | complete => exact h.below hstack hc

/-! ### One node after the other -/

/-- The loop over the stack empties it, and what was on it is done. -/
theorem whileLoop_visitTop (h : Searching m n s done) (hcount : m.count = n) (hturns : turnsLeft n s < turns) :
    (∃ s' done', whileLoop .outOfTurns (fun s => 0 < s.stack.length) (visitTop m) turns s = .ok s' ∧
      Searching m n s' done' ∧ s'.stack = [] ∧ done ⊆ done' ∧ ∀ x ∈ s.stack, x ∈ done') ∨
    ∃ e, whileLoop .outOfTurns (fun s => 0 < s.stack.length) (visitTop m) turns s = .error e ∧ Aborted m n e := by
  have hrun := whileLoop_spec_or Stop.outOfTurns (fun s : NodeStates => decide (0 < s.stack.length)) (visitTop m)
    (fun t => ∃ done', Searching m n t done' ∧ done ⊆ done' ∧ ∀ x ∈ s.stack, x ∈ t.stack ∨ x ∈ done')
    (Aborted m n) (turnsLeft n) ?turn turns s ⟨done, h, List.Subset.refl done, fun x hx => .inl hx⟩ hturns
  case turn =>
    rintro t ⟨done₁, ht, hsub, hstack⟩ hne
    rcases visitTop_spec ht hcount (of_decide_eq_true hne) with ⟨t', done₂, hok, ht', hlt, hsub', hstack'⟩ | hfault
    · refine .inl ⟨t', hok, ⟨done₂, ht', fun x hx => hsub' (hsub hx), fun x hx => ?_⟩, hlt⟩
      rcases hstack x hx with hx | hx
      · exact hstack' x hx
      · exact .inr (hsub' hx)
    · exact .inr hfault
  rcases hrun with ⟨t, hok, ⟨done', ht, hsub, hstack⟩, hend⟩ | hfault
  · have hnil : t.stack = [] := length_eq_zero_iff.mp (by simpa using hend)
    refine .inl ⟨t, done', hok, ht, hnil, hsub, fun x hx => ?_⟩
    rcases hstack x hx with hx | hx
    · rw [hnil] at hx
      exact absurd hx not_mem_nil
    · exact hx
  · exact .inr hfault

/-- The node to start from goes on what the stack holds. -/
theorem Searching.push (h : Searching m n s done) (hnone : ∀ x, s.getState x ≠ .found) {a : ℕ} (ha : a < n)
    (hroom : s.stack.length + 1 + s.unknowns.card.choose 2 ≤ n * n) :
    s.push a = .ok { s with stack := a :: s.stack } ∧ Searching m n { s with stack := a :: s.stack } done := by
  have hsize := h.stackSize
  refine ⟨if_pos (by omega), h.nodeCount, h.stackSize, h.search.setStack hnone _, h.complete, fun x hx => ?_,
    h.doneBound, h.results, h.resultPos, ?_⟩
  · rcases mem_cons.mp hx with rfl | hx
    · exact ha
    · exact h.stackBound x hx
  · change (a :: s.stack).length + s.unknowns.card.choose 2 ≤ s.stackSize
    rw [length_cons, hsize]
    exact hroom

/-- Between two nodes of the outer loop: those of `ids` are still to come. -/
structure Between (m : EdgeMatrix) (n turns : ℕ) (ids : List ℕ) (s : NodeStates) : Prop where
  searching : ∃ done, Searching m n s done ∧ ∀ x < n, x ∉ ids → x ∈ done
  none : ∀ x, s.getState x ≠ .found
  bound : ∀ x ∈ ids, x < n
  room : ids ≠ [] → s.stack.length + 1 + s.unknowns.card.choose 2 ≤ n * n
  nil : ids = [] → s.stack = []
  turns : (n + 1) * n + s.stack.length + 1 < turns

theorem choose_two_lt {k n : ℕ} (hk : k ≤ n) (hn : 0 < n) : 0 + 1 + k.choose 2 ≤ n * n := by
  have hle : k.choose 2 ≤ n * (n - 1) := by
    calc k.choose 2 ≤ n.choose 2 := Nat.choose_le_choose 2 hk
      _ = n * (n - 1) / 2 := Nat.choose_two_right n
      _ ≤ n * (n - 1) := Nat.div_le_self _ 2
  have hmul : n * n = n * (n - 1) + n := by
    rw [← Nat.mul_succ]
    congr 1
    omega
  omega

theorem Between.step {turns a : ℕ} {ids : List ℕ} (h : Between m n turns (a :: ids) s) (hcount : m.count = n) :
    (∃ s', searchFrom turns m s a = .ok s' ∧ Between m n turns ids s') ∨
      ∃ e, searchFrom turns m s a = .error e ∧ Aborted m n e := by
  obtain ⟨done, hs, hdone⟩ := h.searching
  have ha : a < n := h.bound a mem_cons_self
  have hturns := h.turns
  have hleft := hs.turnsLeft_le
  -- the loop over the stack, from the state in which the node is done or on the stack
  have hloop : ∀ t : NodeStates, Searching m n t done → turnsLeft n t < turns →
      a ∈ t.stack ∨ a ∈ done →
      (∃ s', whileLoop .outOfTurns (fun s => 0 < s.stack.length) (visitTop m) turns t = .ok s' ∧ Between m n turns ids s') ∨
        ∃ e, whileLoop .outOfTurns (fun s => 0 < s.stack.length) (visitTop m) turns t = .error e ∧ Aborted m n e := by
    intro t ht hlt hmem
    rcases whileLoop_visitTop ht hcount hlt with ⟨s', done', hok, hs', hnil, hsub, hstack⟩ | hfault
    · refine .inl ⟨s', hok, ⟨done', hs', fun x hx hmem' => ?_⟩, ?_, fun x hx => h.bound x (mem_cons_of_mem a hx), ?_,
        fun _ => hnil, ?_⟩
      · by_cases hxa : x = a
        · subst hxa
          exact hmem.elim (hstack x) (fun hx => hsub hx)
        · exact hsub (hdone x hx (not_mem_cons_of_ne_of_not_mem hxa hmem'))
      · have hsearch := hs'.search
        rw [hnil] at hsearch
        exact hsearch.not_found_of_nil
      · intro _
        rw [hnil]
        exact choose_two_lt ((card_unknowns_le s').trans_eq hs'.nodeCount) (by omega)
      · rw [hnil, length_nil]
        omega
    · exact .inr hfault
  rw [searchFrom]
  by_cases hstate : s.getState a = .unknown
  · obtain ⟨hpush, hpushed⟩ := hs.push h.none ha (h.room (cons_ne_nil a ids))
    rw [if_pos hstate, hpush]
    have hpushLeft : turnsLeft n { s with stack := a :: s.stack } = turnsLeft n s + 1 := by
      rfl
    exact hloop _ hpushed (by omega) (.inl mem_cons_self)
  · rw [if_neg hstate]
    have hmem : a ∈ done := by
      refine (hs.complete a).mp ?_
      cases hc : s.getState a with
      | unknown => exact absurd hc hstate
      | found => exact absurd hc (h.none a)
      | complete => rfl
    exact hloop s hs (by omega) (.inr hmem)

/-! ### The result -/

/-- What is left on the stack leaves room for the search with the most entries: one for the node it
starts from, and from each node one for each of the others that are still unknown. -/
def RoomLeft (s : NodeStates) : Prop :=
  s.nodeCount ≠ 0 → s.stack.length + 1 + s.nodeCount.choose 2 ≤ s.stackSize

theorem unknowns_resetState (s : NodeStates) : s.resetState.unknowns.card = s.nodeCount := by
  have hall : s.resetState.unknowns = Finset.range s.nodeCount := by
    ext x
    rw [mem_unknowns, Finset.mem_range, getState_resetState]
    exact and_iff_left rfl
  rw [hall, Finset.card_range]

theorem Intact.start (h : Intact n s) (hroom : s.RoomLeft) (hturns : (n + 1) * n + s.stack.length + 1 < turns) :
    Between m n turns (List.range n) s.resetState := by
  have hcard : s.resetState.unknowns.card = n := (unknowns_resetState s).trans h.nodeCount
  have hempty : n = 0 → s.stack = [] := fun hn =>
    eq_nil_iff_forall_not_mem.mpr fun x hx => absurd (h.stackBound x hx) (by omega)
  have hfit : n ≠ 0 → s.stack.length + 1 + n.choose 2 ≤ n * n := fun hn => by
    have hle := hroom (h.nodeCount ▸ hn)
    rwa [h.nodeCount, h.stackSize] at hle
  refine ⟨⟨[], ⟨h.nodeCount, h.stackSize, ?_, ?_, h.stackBound, ?_, ?_, rfl, ?_⟩, ?_⟩, ?_, ?_, ?_, ?_, hturns⟩
  · have hnone : (fun x => s.resetState.getState x = .found) = fun _ => False := by
      funext x
      simp
    rw [hnone]
    exact Search.start s.stack
  · intro x
    simp
  · intro x hx
    exact absurd hx not_mem_nil
  · change s.results.map (fun _ => noResult) = [] ++ List.replicate (n - 0) noResult
    rw [map_const', h.length]
    rfl
  · rw [Roomy, hcard]
    change s.stack.length + n.choose 2 ≤ s.stackSize
    rw [h.stackSize]
    by_cases hn : n = 0
    · rw [hempty hn, hn]
      rfl
    · omega
  · intro x hx hmem
    exact absurd (mem_range.mpr hx) hmem
  · intro x
    simp
  · intro x hx
    exact mem_range.mp hx
  · intro hne
    rw [hcard]
    apply hfit
    rintro rfl
    exact hne rfl
  · intro hnil
    exact hempty (range_eq_nil.mp hnil)

/-- The nodes in an order in which each comes before those it connects to. -/
structure Sorted (m : EdgeMatrix) (n : ℕ) (order : List ℕ) : Prop where
  once : order.Perm (List.range n)
  before : ∀ x y, m.Edge x y → order.idxOf x < order.idxOf y

theorem Sorted.of_postorder (hnodup : done.Nodup) (hpost : Postorder m.Edge done) (hbound : ∀ x ∈ done, x < n)
    (hall : ∀ x < n, x ∈ done) (hcount : m.count = n) : Sorted m n done.reverse := by
  refine ⟨?_, fun x y hedge => ?_⟩
  · refine (reverse_perm done).trans ((perm_ext_iff_of_nodup hnodup nodup_range).mpr fun x => ?_)
    rw [mem_range]
    exact ⟨hbound x, hall x⟩
  · obtain ⟨pre, post, hsplit⟩ := append_of_mem (hall x (hcount ▸ hedge.1))
    have hy : y ∈ pre := hpost pre x post hsplit y hedge
    rw [hsplit, nodup_append, nodup_cons] at hnodup
    obtain ⟨-, ⟨hxpost, -⟩, hdisj⟩ := hnodup
    have hxy : x ≠ y := fun hxy => hdisj y hy x mem_cons_self hxy.symm
    have hypost : y ∉ post := fun hmem => hdisj y hy y (mem_cons_of_mem x hmem) rfl
    have hreverse : done.reverse = post.reverse ++ x :: pre.reverse := by simp [hsplit]
    rw [hreverse, idxOf_append_of_notMem (mt mem_reverse.mp hxpost),
      idxOf_append_of_notMem (mt mem_reverse.mp hypost), idxOf_cons_self, idxOf_cons_ne _ hxy]
    omega

theorem Between.sorted (h : Between m n turns [] s) (hcount : m.count = n) :
    Intact n s ∧ s.stack = [] ∧ m.Acyclic ∧ Sorted m n s.getSortedResults := by
  obtain ⟨done, hs, hdone⟩ := h.searching
  have hall : ∀ x < n, x ∈ done := fun x hx => hdone x hx not_mem_nil
  have hsorted := Sorted.of_postorder hs.search.nodup hs.search.postorder hs.doneBound hall hcount
  have hlen : done.length = n := by
    have hle := hsorted.once.length_eq
    rwa [length_reverse, length_range] at hle
  refine ⟨hs.intact, h.nil rfl, fun x hcycle => ?_, ?_⟩
  · have hx : x < n := by
      obtain ⟨y, hxy, -⟩ := TransGen.head'_iff.mp hcycle
      exact hcount ▸ hxy.1
    exact hs.search.postorder.not_cyclic hs.search.nodup (hall x hx) hcycle
  · have hresults : s.getSortedResults = done.reverse := by
      rw [getSortedResults, hs.results, hs.resultPos, hlen, Nat.sub_self, replicate_zero, append_nil]
      exact take_of_length_le (by rw [length_reverse, hlen])
    rw [hresults]
    exact hsorted

/-- What a call with enough room comes to. -/
structure Sorts (m : EdgeMatrix) (n : ℕ) (s' : NodeStates) (sorted : Bool) : Prop where
  intact : Intact n s'
  acyclic : sorted = true ↔ m.Acyclic
  order : sorted = true → Sorted m n s'.getSortedResults
  nil : sorted = true → s'.stack = []

theorem Intact.tsort (h : Intact n s) (hcount : m.count = n) (hroom : s.RoomLeft)
    (hturns : (n + 1) * n + s.stack.length + 1 < turns) :
    ∃ s' sorted, s.tsort turns m = .ok (s', sorted) ∧ Sorts m n s' sorted := by
  have hstep : ∀ a ids t, Between m n turns (a :: ids) t →
      (∃ t', searchFrom turns m t a = .ok t' ∧ Between m n turns ids t') ∨
        ∃ e, searchFrom turns m t a = .error e ∧ Aborted m n e := fun a ids t ht => ht.step hcount
  have hfold := foldlM_total_or hstep (h.start hroom hturns)
  rw [NodeStates.tsort, depthFirstSearch, h.nodeCount]
  rcases hfold with ⟨s', hok, hend⟩ | ⟨e, herr, hcyclic, t, rfl, ht⟩
  · obtain ⟨hintact, hnil, hacyclic, horder⟩ := hend.sorted hcount
    rw [hok]
    exact ⟨s', true, rfl, hintact, iff_of_true rfl hacyclic, fun _ => horder, fun _ => hnil⟩
  · rw [herr]
    refine ⟨t, false, rfl, ht, iff_of_false Bool.false_ne_true hcyclic, ?_, ?_⟩
    · intro hfalse
      cases hfalse
    · intro hfalse
      cases hfalse

end NodeStates
end Renderer
end AudioCore
end Citron
