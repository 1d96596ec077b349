/-
# Calls after calls

The states that calls leave behind one another. What a cycle leaves on the stack is never taken off
before the next search, and the graph whose search takes the most entries shows how much of that
there may be.
-/
import Citron.AudioCore.NodeStatesSort

namespace Citron
namespace AudioCore
namespace Renderer

open Lib Relation List

namespace NodeStates

variable {m : EdgeMatrix} {n turns : ℕ} {s s' : NodeStates}

/-! ### The search with the most entries -/

/-- The first node has edges to all others, and any other one to those between the first and itself. -/
def widest (n : ℕ) : EdgeMatrix where
  count := n
  edges i := decide (i % n ≠ 0 ∧ (i / n = 0 ∨ i % n < i / n))

theorem connected_widest {x y : ℕ} (hy : y < n) :
    (widest n).connected x y = true ↔ y ≠ 0 ∧ (x = 0 ∨ y < x) := by
  have hmod : (n * x + y) % n = y := by rw [Nat.mul_add_mod, Nat.mod_eq_of_lt hy]
  have hdiv : (n * x + y) / n = x := by
    rw [Nat.mul_add_div (by omega), Nat.div_eq_of_lt hy, Nat.add_zero]
  simp only [EdgeMatrix.connected, widest, hmod, hdiv, decide_eq_true_eq]

/-- The loop over the edges goes past the stack when there is no room for the unknown successors. -/
theorem scanEdges_overflow {node : ℕ} {ids : List ℕ} (hall : ∀ id ∈ ids, m.connected node id = true → s.getState id ≠ .found)
    (hroom : s.stackSize < s.stack.length + (fresh m s node ids).length) (hle : s.stack.length ≤ s.stackSize) :
    ids.foldlM (scanEdge m node) s = .error .stackOverflow := by
  induction ids generalizing s with
  | nil =>
    rw [fresh, filter_nil, length_nil] at hroom
    omega
  | cons id ids ih =>
    have hall' : ∀ x ∈ ids, m.connected node x = true → s.getState x ≠ .found := fun x hx =>
      hall x (mem_cons_of_mem id hx)
    rw [foldlM_cons]
    by_cases hnew : m.connected node id = true ∧ s.getState id = .unknown
    · have hfresh : fresh m s node (id :: ids) = id :: fresh m s node ids := by
        rw [fresh, filter_cons_of_pos (by simp [hnew.1, hnew.2])]
        rfl
      rw [hfresh, length_cons] at hroom
      by_cases hfull : s.stack.length < s.stackSize
      · have hpush : scanEdge m node s id = .ok { s with stack := id :: s.stack } := by
          simp only [scanEdge, hnew.1, if_true, hnew.2, NodeStates.push]
          rw [if_pos hfull]
        rw [hpush]
        apply ih (s := { s with stack := id :: s.stack }) hall'
        · change s.stackSize < (id :: s.stack).length + (fresh m s node ids).length
          rw [length_cons]
          omega
        · exact hfull
      · have hpush : scanEdge m node s id = .error .stackOverflow := by
          simp only [scanEdge, hnew.1, if_true, hnew.2, NodeStates.push]
          rw [if_neg hfull]
        rw [hpush]
        rfl
    · have hfresh : fresh m s node (id :: ids) = fresh m s node ids := by
        rw [fresh, filter_cons_of_neg (by simpa using hnew)]
        rfl
      have hskip : scanEdge m node s id = .ok s := by
        by_cases hedge : m.connected node id = true
        · cases hstate : s.getState id with
          | unknown => exact absurd ⟨hedge, hstate⟩ hnew
          | found => exact absurd hstate (hall id mem_cons_self hedge)
          | complete => simp only [scanEdge, hedge, if_true, hstate]
        · simp only [scanEdge, hedge, Bool.false_eq_true, if_false]
      rw [hskip]
      exact ih hall' (hfresh ▸ hroom) hle

theorem filter_between {k n : ℕ} (hkn : k + 1 ≤ n) :
    ((List.range n).filter fun y => decide (0 < y ∧ y ≤ k)) = List.range' 1 k := by
  have hsplit : List.range n = [0] ++ (List.range' 1 k ++ List.range' (1 + k) (n - (k + 1))) := by
    have hn : n = k + (n - (k + 1)) + 1 := by omega
    rw [range'_append_1, range_eq_range', singleton_append]
    conv_lhs => rw [hn]
    rfl
  have hmid : ((List.range' 1 k).filter fun y => decide (0 < y ∧ y ≤ k)) = List.range' 1 k := by
    refine filter_eq_self.mpr fun y hy => decide_eq_true ?_
    rw [mem_range'_1] at hy
    omega
  have hlast : ((List.range' (1 + k) (n - (k + 1))).filter fun y => decide (0 < y ∧ y ≤ k)) = [] := by
    refine filter_eq_nil_iff.mpr fun y hy => ?_
    rw [mem_range'_1] at hy
    simp only [decide_eq_true_eq]
    omega
  rw [hsplit, filter_append, filter_append, hmid, hlast, append_nil]
  rfl

/-- The unknown successors of a node are those from 1 up to `k`. -/
theorem fresh_widest {k c : ℕ} (hkn : k + 1 ≤ n) (hck : c = 0 ∧ k + 1 = n ∨ c = k + 1)
    (hunknown : ∀ y, 0 < y → y ≤ k → s.getState y = .unknown) :
    fresh (widest n) s c (List.range (widest n).count) = List.range' 1 k := by
  rw [← filter_between hkn, fresh]
  refine filter_congr fun y hy => ?_
  have hyn : y < n := mem_range.mp hy
  by_cases hyk : 0 < y ∧ y ≤ k
  · have hedge : (widest n).connected c y = true := (connected_widest hyn).mpr ⟨by omega, by omega⟩
    simp [hedge, hunknown y hyk.1 hyk.2, hyk]
  · have hedge : ¬ (widest n).connected c y = true := by
      rw [connected_widest hyn]
      omega
    simp only [hedge, Bool.false_and, hyk, decide_false]

/-- The loop over the stack, from a node whose unknown successors are those from 1 up to `k`: each of
them puts those below it on the stack again. -/
theorem whileLoop_widest {k c : ℕ} {rest : List ℕ} (hstack : s.stack = c :: rest) (hc : s.getState c = .unknown)
    (hkn : k + 1 ≤ n) (hck : c = 0 ∧ k + 1 = n ∨ c = k + 1) (hunknown : ∀ y, 0 < y → y ≤ k → s.getState y = .unknown)
    (hle : s.stack.length ≤ s.stackSize) (hroom : s.stackSize < s.stack.length + (k + 1).choose 2) (hturns : k < turns) :
    whileLoop .outOfTurns (fun s => 0 < s.stack.length) (visitTop (widest n)) turns s = .error .stackOverflow := by
  induction k generalizing s c rest turns with
  | zero =>
    rw [Nat.choose_eq_zero_of_lt (by omega)] at hroom
    omega
  | succ k ih =>
    obtain ⟨turns, rfl⟩ : ∃ u, turns = u + 1 := ⟨turns - 1, by omega⟩
    have hne : decide (0 < s.stack.length) = true := by simp [hstack]
    have htop : s.top = c := by rw [top, hstack, headD_cons]
    set t := s.setState c .found with ht
    have htstack : t.stack = s.stack := stack_setState s c .found
    have hunknown' : ∀ y, 0 < y → y ≤ k + 1 → t.getState y = .unknown := fun y hy hyk => by
      rw [ht, getState_setState, if_neg (by omega)]
      exact hunknown y hy hyk
    have hvisit : visitTop (widest n) s = (List.range (widest n).count).foldlM (scanEdge (widest n) c) t := by
      rw [visitTop, htop]
      simp only [hc]
      rfl
    have hfresh := fresh_widest hkn hck hunknown'
    have hnotfound : ∀ id ∈ List.range (widest n).count, (widest n).connected c id = true → t.getState id ≠ .found := by
      intro id hid hedge hfound
      have hid' := (connected_widest (mem_range.mp hid)).mp hedge
      have hidn : id < n := mem_range.mp hid
      rw [hunknown' id (by omega) (by omega)] at hfound
      cases hfound
    by_cases hfull : t.stackSize < t.stack.length + (fresh (widest n) t c (List.range (widest n).count)).length
    · have hfault := scanEdges_overflow hnotfound hfull (htstack ▸ hle)
      refine whileLoop_fault ?_ (hvisit.trans hfault) turns
      exact hne
    · rcases scanEdges_spec (Nat.le_of_not_lt hfull) with ⟨-, hok⟩ | ⟨id, hid, hedge, hfound, -⟩
      · refine (whileLoop_turn ?_ (hvisit.trans hok) turns).trans ?_
        · exact hne
        rw [hfresh, length_range'] at hfull
        have hpushed : (fresh (widest n) t c (List.range (widest n).count)).reverse ++ t.stack =
            (k + 1) :: ((List.range' 1 k).reverse ++ s.stack) := by
          rw [hfresh, range'_1_concat, reverse_append, htstack, Nat.add_comm 1 k]
          rfl
        have hchoose : (k + 1 + 1).choose 2 = (k + 1) + (k + 1).choose 2 := by
          rw [Nat.choose_succ_succ' _ 1, Nat.choose_one_right]
        have hlen : ((k + 1) :: ((List.range' 1 k).reverse ++ s.stack)).length = s.stack.length + (k + 1) := by
          rw [length_cons, length_append, length_reverse, length_range']
          omega
        apply ih (c := k + 1) hpushed
        · exact hunknown' (k + 1) (Nat.succ_pos k) (Nat.le_refl _)
        · omega
        · exact .inr rfl
        · exact fun y hy hyk => hunknown' y hy (by omega)
        · rw [hpushed, hlen]
          rw [htstack] at hfull
          exact Nat.le_of_not_lt hfull
        · rw [hpushed, hlen]
          change s.stackSize < _
          omega
        · omega
      · exact absurd hfound (hnotfound id hid hedge)

/-- A call without enough room does not get through the graph. -/
theorem Intact.overflow (h : Intact n s) (hroom : ¬ s.RoomLeft) (hturns : n < turns) :
    s.tsort turns (widest n) = .error .stackOverflow := by
  have hroom' : n ≠ 0 ∧ n * n < s.stack.length + 1 + n.choose 2 := by
    rw [RoomLeft, h.nodeCount, h.stackSize] at hroom
    by_contra hcon
    exact hroom fun hn => Nat.le_of_not_lt fun hlt => hcon ⟨hn, hlt⟩
  obtain ⟨k, rfl⟩ : ∃ k, n = k + 1 := ⟨n - 1, by omega⟩
  have hfirst : searchFrom turns (widest (k + 1)) s.resetState 0 = .error .stackOverflow := by
    rw [searchFrom, getState_resetState, if_pos rfl]
    by_cases hfull : s.stack.length < s.stackSize
    · have hpush : s.resetState.push 0 = .ok { s.resetState with stack := 0 :: s.stack } := if_pos hfull
      rw [hpush]
      refine whileLoop_widest (k := k) (c := 0) rfl rfl (Nat.le_refl _) (.inl ⟨rfl, rfl⟩)
        (fun y _ _ => rfl) hfull ?_ (by omega)
      change s.stackSize < (0 :: s.stack).length + _
      rw [length_cons, h.stackSize]
      exact hroom'.2
    · have hpush : s.resetState.push 0 = .error .stackOverflow := if_neg hfull
      rw [hpush]
      rfl
  rw [NodeStates.tsort, depthFirstSearch, h.nodeCount, range_succ_eq_map, foldlM_cons, hfirst]
  rfl

/-! ### Runs -/

/-- As many turns as a loop over the stack can take. -/
def turnBound (s : NodeStates) : ℕ := (s.nodeCount + 1) * s.nodeCount + s.stack.length + 2

/-- The states after calls that had room. -/
inductive Run (n : ℕ) : NodeStates → Prop
  | initial : Run n (initializeStates n)
  | tsort {s s' : NodeStates} {turns : ℕ} {m : EdgeMatrix} {sorted : Bool} (h : Run n s) (hroom : s.RoomLeft)
      (hcount : m.count = n) (hturns : s.turnBound ≤ turns) (hcall : s.tsort turns m = .ok (s', sorted)) : Run n s'

theorem intact_initializeStates (n : ℕ) : Intact n (initializeStates n) :=
  ⟨rfl, rfl, length_replicate, fun _ hx => absurd hx not_mem_nil⟩

theorem Intact.turnBound (h : Intact n s) {turns : ℕ} (hturns : s.turnBound ≤ turns) :
    (n + 1) * n + s.stack.length + 1 < turns := by
  rw [NodeStates.turnBound, h.nodeCount] at hturns
  exact hturns

theorem Run.intact (h : Run n s) : Intact n s := by
  induction h with
  | initial => exact intact_initializeStates n
  | tsort _ hroom hcount hturns hcall ih =>
    obtain ⟨t, sorted, hok, hsorts⟩ := ih.tsort hcount hroom (ih.turnBound hturns)
    rw [hok, Except.ok.injEq, Prod.mk.injEq] at hcall
    exact hcall.1 ▸ hsorts.intact

/-- What is asked of a call: it ends, tells the acyclic graphs from the others and puts their nodes in order. -/
def Meets (s : NodeStates) (n : ℕ) (m : EdgeMatrix) : Prop :=
  ∀ turns, s.turnBound ≤ turns → ∃ s' sorted, s.tsort turns m = .ok (s', sorted) ∧ (sorted = true ↔ m.Acyclic) ∧
    (sorted = true → Sorted m n s'.getSortedResults)

/-- **Sorting after any calls.** The calls on all graphs do what is asked of them exactly when there is
room left for the search with the most entries. -/
theorem tsort_meets_iff {n : ℕ} {s : NodeStates} (h : Run n s) :
    (∀ m : EdgeMatrix, m.count = n → s.Meets n m) ↔ s.RoomLeft := by
  constructor
  · intro hmeets
    by_contra hroom
    have hbound : n < s.turnBound + n + 1 := by omega
    obtain ⟨s', sorted, hok, -⟩ := hmeets (widest n) rfl (s.turnBound + n + 1) (by omega)
    rw [h.intact.overflow hroom hbound] at hok
    cases hok
  · intro hroom m hcount turns hturns
    obtain ⟨s', sorted, hok, hsorts⟩ := h.intact.tsort hcount hroom (h.intact.turnBound hturns)
    exact ⟨s', sorted, hok, hsorts.acyclic, hsorts.order⟩

theorem tsort_meets_iff_initializeStates :
    (∀ m : EdgeMatrix, m.count = 2 → (initializeStates 2).Meets 2 m) ↔ (initializeStates 2).RoomLeft :=
  tsort_meets_iff Run.initial

/-- A node with an edge to itself. -/
def selfLoop : EdgeMatrix := ({ count := 1, edges := fun _ => false } : EdgeMatrix).connect 0 0

/-- The first call ends at the cycle and leaves the node on the stack, and the second one has no room for it. -/
theorem tsort_selfLoop_twice :
    ∃ s, (initializeStates 1).tsort 4 selfLoop = .ok (s, false) ∧ ∀ turns, s.tsort turns selfLoop = .error .stackOverflow :=
  ⟨_, rfl, fun _ => rfl⟩

end NodeStates
end Renderer
end AudioCore
end Citron
