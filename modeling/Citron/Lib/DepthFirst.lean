/-
# Iterative depth first search

A stack on which a node may stand several times. The node on top is expanded when it is met first
(its new successors go on the stack above it) and is done when it is met again. Only the topmost
entry of a node is the one it was expanded at, so what is above it is reachable from it, and when
nothing is above it any more its successors are done.
-/
import Mathlib.Logic.Relation
import Mathlib.Data.List.Nodup

namespace Citron
namespace Lib

open Relation List

variable {α : Type*} {E : α → α → Prop}

/-- Every node of the list comes after the nodes it has an edge to. -/
def Postorder (E : α → α → Prop) (done : List α) : Prop :=
  ∀ pre x post, done = pre ++ x :: post → ∀ y, E x y → y ∈ pre

/-- A search with the nodes it has found, those on the stack (top first) and those done, in order. -/
structure Search (E : α → α → Prop) (found : α → Prop) (stack done : List α) : Prop where
  apart : ∀ x, found x → x ∉ done
  nodup : done.Nodup
  postorder : Postorder E done
  onStack : ∀ x, found x → x ∈ stack
  covered : ∀ above x below, stack = above ++ x :: below → found x → ∀ y, E x y → y ∈ done ∨ y ∈ above
  reaches : ∀ above x below, stack = above ++ x :: below → found x → x ∉ above → ∀ y ∈ above, TransGen E x y

variable {found : α → Prop} {stack rest done : List α} {c : α}

/-- An entry that is not among the upper ones is among the lower ones. -/
theorem split_of_notMem {above below up : List α} {x : α} (hsplit : above ++ rest = up ++ x :: below) (hx : x ∉ above) :
    ∃ mid, up = above ++ mid ∧ rest = mid ++ x :: below := by
  rcases append_eq_append_iff.mp hsplit with ⟨mid, hup, hmid⟩ | ⟨mid, habove, hmid⟩
  · exact ⟨mid, hup, hmid⟩
  · cases mid with
    | nil => exact ⟨[], by simpa using habove.symm, hmid.symm⟩
    | cons z mid =>
      rw [cons_append, List.cons.injEq] at hmid
      refine absurd ?_ hx
      rw [habove, hmid.1]
      exact mem_append_right _ mem_cons_self

theorem Postorder.concat (h : Postorder E done) (hc : ∀ y, E c y → y ∈ done) : Postorder E (done ++ [c]) := by
  intro pre x post hsplit y hy
  rcases append_eq_append_iff.mp hsplit with ⟨mid, hpre, hmid⟩ | ⟨mid, hdone, hmid⟩
  · -- the node comes after all that was done, so it is the new one
    cases mid with
    | nil =>
      rw [nil_append, List.cons.injEq] at hmid
      rw [append_nil] at hpre
      rw [hpre]
      exact hc y (hmid.1 ▸ hy)
    | cons z mid =>
      have hlen := congrArg List.length hmid
      simp only [length_cons, length_append, length_nil] at hlen
      omega
  · cases mid with
    | nil =>
      rw [nil_append, List.cons.injEq] at hmid
      rw [append_nil] at hdone
      rw [← hdone]
      exact hc y (hmid.1 ▸ hy)
    | cons z mid =>
      rw [cons_append, List.cons.injEq] at hmid
      obtain ⟨rfl, -⟩ := hmid
      exact h pre x mid hdone y hy

/-- What a done node reaches comes before it. -/
theorem Postorder.reaches_before (h : Postorder E done) {pre post : List α} {x y : α} (hsplit : done = pre ++ x :: post)
    (hreach : TransGen E x y) : y ∈ pre := by
  induction hreach with
  | single hxy => exact h pre x post hsplit _ hxy
  | @tail b d _ hbd ih =>
    obtain ⟨pre', post', hpre⟩ := append_of_mem ih
    have hmem := h pre' b (post' ++ x :: post) (by rw [hsplit, hpre]; simp) d hbd
    rw [hpre]
    exact mem_append_left _ hmem

/-- No cycle goes through a done node. -/
theorem Postorder.not_cyclic (h : Postorder E done) (hnodup : done.Nodup) {x : α} (hx : x ∈ done) :
    ¬ TransGen E x x := by
  intro hcycle
  obtain ⟨pre, post, hsplit⟩ := append_of_mem hx
  have hmem := h.reaches_before hsplit hcycle
  rw [hsplit] at hnodup
  exact (nodup_append.mp hnodup).2.2 x hmem x mem_cons_self rfl

namespace Search

/-- Nothing is found yet, whatever the stack holds. -/
theorem start (stack : List α) : Search E (fun _ => False) stack [] :=
  ⟨fun _ => False.elim, nodup_nil, fun pre x post h => by simp at h, fun _ => False.elim,
    fun _ _ _ _ => False.elim, fun _ _ _ _ => False.elim⟩

theorem setStack (h : Search E found stack done) (hnone : ∀ x, ¬ found x) (stack' : List α) :
    Search E found stack' done :=
  ⟨h.apart, h.nodup, h.postorder, fun x hx => absurd hx (hnone x), fun _ x _ _ hx => absurd hx (hnone x),
    fun _ x _ _ hx => absurd hx (hnone x)⟩

section

variable (h : Search E found (c :: rest) done)
include h

/-- The successors of the node on top that are not done go above it. -/
theorem expand (hc : ¬ found c) (hdone : c ∉ done) {above : List α}
    (hedge : ∀ y ∈ above, E c y) (hnew : ∀ y ∈ above, y ≠ c ∧ ¬ found y) (hall : ∀ y, E c y → y ∈ done ∨ y ∈ above) :
    Search E (fun x => found x ∨ x = c) (above ++ c :: rest) done := by
  refine ⟨fun x hx => ?_, h.nodup, h.postorder, fun x hx => ?_, fun up x below hsplit hx y hy => ?_,
    fun up x below hsplit hx hup y hy => ?_⟩
  · rcases hx with hx | rfl
    · exact h.apart x hx
    · exact hdone
  · rcases hx with hx | rfl
    · exact mem_append_right _ (h.onStack x hx)
    · exact mem_append_right _ mem_cons_self
  · have hx' : x ∉ above := fun hmem => by
      rcases hx with hx | rfl
      · exact (hnew x hmem).2 hx
      · exact (hnew x hmem).1 rfl
    obtain ⟨mid, rfl, hmid⟩ := split_of_notMem hsplit hx'
    rcases hx with hx | rfl
    · rcases h.covered mid x below hmid hx y hy with hy' | hy'
      · exact .inl hy'
      · exact .inr (mem_append_right _ hy')
    · rcases hall y hy with hy' | hy'
      · exact .inl hy'
      · exact .inr (mem_append_left _ hy')
  · have hx' : x ∉ above := fun hmem => by
      rcases hx with hx | rfl
      · exact (hnew x hmem).2 hx
      · exact (hnew x hmem).1 rfl
    obtain ⟨mid, rfl, hmid⟩ := split_of_notMem hsplit hx'
    cases mid with
    | nil =>
      rw [nil_append, List.cons.injEq] at hmid
      rw [append_nil] at hy
      exact .single (hmid.1 ▸ hedge y hy)
    | cons z mid =>
      rw [cons_append, List.cons.injEq] at hmid
      obtain ⟨rfl, hrest⟩ := hmid
      have hxc : x ≠ c := fun hxc => hup (mem_append_right _ (hxc ▸ mem_cons_self))
      have hxfound : found x := hx.resolve_right hxc
      have hmid' : x ∉ c :: mid := fun hmem => hup (mem_append_right _ hmem)
      have hreach := h.reaches (c :: mid) x below (by rw [hrest]; rfl) hxfound hmid'
      rcases mem_append.mp hy with hy | hy
      · exact (hreach c mem_cons_self).tail (hedge y hy)
      · exact hreach y hy

theorem below (hc : ¬ found c) (hdone : c ∈ done) : Search E found rest done := by
  refine ⟨h.apart, h.nodup, h.postorder, fun x hx => ?_, fun up x low hsplit hx y hy => ?_,
    fun up x low hsplit hx hup y hy => ?_⟩
  · rcases mem_cons.mp (h.onStack x hx) with rfl | hmem
    · exact absurd hx hc
    · exact hmem
  · rcases h.covered (c :: up) x low (by rw [hsplit]; rfl) hx y hy with hy | hy
    · exact .inl hy
    · rcases mem_cons.mp hy with rfl | hy
      · exact .inl hdone
      · exact .inr hy
  · have hxc : x ≠ c := fun hxc => hc (hxc ▸ hx)
    exact h.reaches (c :: up) x low (by rw [hsplit]; rfl) hx (not_mem_cons_of_ne_of_not_mem hxc hup) y
      (mem_cons_of_mem c hy)

/-- The node on top was met before: what it has edges to is done, and now it is itself. -/
theorem finish (hc : found c) :
    Search E (fun x => found x ∧ x ≠ c) rest (done ++ [c]) := by
  have hedges : ∀ y, E c y → y ∈ done := fun y hy =>
    (h.covered [] c rest rfl hc y hy).resolve_right not_mem_nil
  have hnew : Search E (fun x => found x ∧ x ≠ c) (c :: rest) (done ++ [c]) := by
    refine ⟨fun x hx hmem => ?_, ?_, h.postorder.concat hedges, fun x hx => h.onStack x hx.1,
      fun up x low hsplit hx y hy => ?_, fun up x low hsplit hx => h.reaches up x low hsplit hx.1⟩
    · rcases mem_append.mp hmem with hmem | hmem
      · exact h.apart x hx.1 hmem
      · exact hx.2 (mem_singleton.mp hmem)
    · rw [nodup_append]
      refine ⟨h.nodup, nodup_singleton c, fun x hx y hy hxy => ?_⟩
      rw [mem_singleton.mp hy] at hxy
      exact h.apart c hc (hxy ▸ hx)
    · rcases h.covered up x low hsplit hx.1 y hy with hy | hy
      · exact .inl (mem_append_left _ hy)
      · exact .inr hy
  exact hnew.below (fun hx => hx.2 rfl) (mem_append_right _ (mem_singleton_self c))

/-- An edge from the node on top to itself or to a node that was found closes a cycle. -/
theorem cycle {y : α} (hedge : E c y) (hy : found y ∨ y = c) :
    ∃ x, TransGen E x x := by
  rcases hy with hy | rfl
  · by_cases hyc : y = c
    · exact ⟨c, .single (hyc ▸ hedge)⟩
    · obtain ⟨up, low, hsplit, hup⟩ := eq_append_cons_of_mem (h.onStack y hy)
      cases up with
      | nil =>
        rw [nil_append, List.cons.injEq] at hsplit
        exact absurd hsplit.1.symm hyc
      | cons z up =>
        obtain ⟨rfl, -⟩ := List.cons.inj hsplit
        have hreach := h.reaches (c :: up) y low hsplit hy hup c mem_cons_self
        exact ⟨y, hreach.tail hedge⟩
  · exact ⟨y, .single hedge⟩

end

/-- When the stack is empty nothing is left half done. -/
theorem not_found_of_nil (h : Search E found [] done) (x : α) : ¬ found x :=
  fun hx => absurd (h.onStack x hx) not_mem_nil

end Search

end Lib
end Citron
