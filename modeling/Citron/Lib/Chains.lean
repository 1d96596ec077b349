/-
# Chains of successors

Every node has at most one successor. A chain starts at a node and ends at one without a successor; a start has at most
one chain, and a chain never comes back to a node. Taking a chain apart and putting nodes into a new one changes the
successors of these nodes alone.
-/
import Mathlib.Data.List.Nodup
import Mathlib.Logic.Function.Basic

namespace Citron
namespace Lib

variable {α : Type*} {next next' : α → Option α} {start : Option α} {xs ys : List α} {x : α}

/-- The nodes from a start on, up to one that has no successor. -/
def Chained (next : α → Option α) : Option α → List α → Prop
  | start, [] => start = none
  | start, x :: xs => start = some x ∧ Chained next (next x) xs

/-- So many successors on from a start. -/
def follow (next : α → Option α) : ℕ → Option α → Option α
  | 0, start => start
  | _ + 1, none => none
  | n + 1, some x => follow next n (next x)

namespace Chained

theorem nil : Chained next none [] := rfl

theorem eq_of_chained (hx : Chained next start xs) (hy : Chained next start ys) : xs = ys := by
  induction xs generalizing start ys with
  | nil =>
    obtain rfl : start = none := hx
    cases ys with
    | nil => rfl
    | cons y ys => cases hy.1
  | cons x xs ih =>
    obtain ⟨rfl, hx⟩ := hx
    cases ys with
    | nil => cases hy
    | cons y ys =>
      obtain ⟨hxy, hy⟩ := hy
      cases hxy
      rw [ih hx hy]

/-- The chain from a node of the chain on. -/
theorem of_mem (h : Chained next start xs) (hx : x ∈ xs) : ∃ ys, Chained next (next x) ys ∧ ys.length < xs.length := by
  induction xs generalizing start with
  | nil => exact absurd hx List.not_mem_nil
  | cons y xs ih =>
    obtain ⟨-, h⟩ := h
    rcases List.mem_cons.mp hx with rfl | hx
    · exact ⟨xs, h, Nat.lt_succ_self _⟩
    · obtain ⟨ys, hys, hlt⟩ := ih h hx
      exact ⟨ys, hys, Nat.lt_succ_of_lt hlt⟩

/-- **A chain has no node twice.** -/
theorem nodup (h : Chained next start xs) : xs.Nodup := by
  induction xs generalizing start with
  | nil => exact List.nodup_nil
  | cons x xs ih =>
    obtain ⟨-, h⟩ := h
    refine List.nodup_cons.mpr ⟨fun hx => ?_, ih h⟩
    -- the rest of the chain would be shorter than itself
    obtain ⟨ys, hys, hlt⟩ := h.of_mem hx
    rw [eq_of_chained h hys] at hlt
    exact Nat.lt_irrefl _ hlt

theorem congr (h : Chained next start xs) (hsame : ∀ x ∈ xs, next' x = next x) : Chained next' start xs := by
  induction xs generalizing start with
  | nil => exact h
  | cons x xs ih =>
    obtain ⟨hstart, h⟩ := h
    refine ⟨hstart, ?_⟩
    rw [hsame x List.mem_cons_self]
    exact ih h fun y hy => hsame y (List.mem_cons_of_mem x hy)

/-- The node so many steps after the start, if the chain has it. -/
theorem follow_eq (h : Chained next start xs) (n : ℕ) : follow next n start = xs[n]? := by
  induction n generalizing start xs with
  | zero =>
    cases xs with
    | nil => exact h
    | cons x xs => exact h.1
  | succ n ih =>
    cases xs with
    | nil =>
      obtain rfl : start = none := h
      rfl
    | cons x xs =>
      obtain ⟨rfl, h⟩ := h
      exact ih h

end Chained

/-! ### Taking apart and putting together -/

variable [DecidableEq α]

/-- The nodes have no successors any more. -/
def unlinkAll (next : α → Option α) (xs : List α) : α → Option α := fun x => if x ∈ xs then none else next x

/-- Each node but the last gets the one after it as its successor. -/
def linkAll (next : α → Option α) : List α → α → Option α
  | [] => next
  | [_] => next
  | x :: y :: xs => linkAll (Function.update next x (some y)) (y :: xs)

theorem linkAll_of_notMem (hx : x ∉ xs) : linkAll next xs x = next x := by
  induction xs generalizing next with
  | nil => rfl
  | cons y xs ih =>
    obtain ⟨hne, hx⟩ := not_or.mp (mt List.mem_cons.mpr hx)
    cases xs with
    | nil => rfl
    | cons z xs =>
      rw [linkAll, ih hx]
      exact Function.update_of_ne hne _ _

/-- **Nodes without successors, each once, are put into a chain.** -/
theorem chained_linkAll (hnodup : xs.Nodup) (hfree : ∀ x ∈ xs, next x = none) : Chained (linkAll next xs) xs.head? xs := by
  induction xs generalizing next with
  | nil => exact Chained.nil
  | cons x xs ih =>
    obtain ⟨hx, hnodup⟩ := List.nodup_cons.mp hnodup
    refine ⟨rfl, ?_⟩
    cases xs with
    | nil =>
      rw [linkAll, hfree x List.mem_cons_self]
      exact Chained.nil
    | cons y xs =>
      rw [linkAll, linkAll_of_notMem hx, Function.update_self]
      apply ih hnodup
      intro z hz
      have hzx : z ≠ x := fun h => hx (h ▸ hz)
      rw [Function.update_of_ne hzx]
      exact hfree z (List.mem_cons_of_mem x hz)

end Lib
end Citron
