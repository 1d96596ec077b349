/-
# Linked lists in numbered cells

A cell has the number of the next one and a value; `0` numbers no cell and ends a list. A list is written
with the numbers of its cells beside their values, and an edit of one link is an edit of the list.
-/
import Mathlib.Data.List.Basic

namespace Citron
namespace Lib

open List

variable {α : Type*} {cell cell' : ℕ → Option (ℕ × α)}

/-- The number of the first cell. -/
def startOf : List (ℕ × α) → ℕ
  | [] => 0
  | (i, _) :: _ => i

/-- The cells of the list, each linked to the one after it. -/
def Linked (cell : ℕ → Option (ℕ × α)) : List (ℕ × α) → Prop
  | [] => True
  | (i, v) :: l => i ≠ 0 ∧ cell i = some (startOf l, v) ∧ Linked cell l

@[simp]
theorem startOf_cons (i : ℕ) (v : α) (l : List (ℕ × α)) : startOf ((i, v) :: l) = i := rfl

variable {l m : List (ℕ × α)}

theorem startOf_append_of_ne_nil (h : l ≠ []) : startOf (l ++ m) = startOf l := by
  cases l with
  | nil => exact absurd rfl h
  | cons p l => rfl

/-- A list is over when its first cell is numbered `0`. -/
theorem Linked.startOf_eq_zero (h : Linked cell l) : startOf l = 0 ↔ l = [] := by
  cases l with
  | nil => exact ⟨fun _ => rfl, fun _ => rfl⟩
  | cons p l => exact ⟨fun hzero => absurd hzero h.1, fun hnil => by cases hnil⟩

/-- A list stays when its cells do. -/
theorem Linked.congr (h : Linked cell l) (hsame : ∀ p ∈ l, cell' p.1 = cell p.1) : Linked cell' l := by
  induction l with
  | nil => trivial
  | cons p l ih =>
    obtain ⟨i, v⟩ := p
    obtain ⟨hi, hcell, htail⟩ := h
    refine ⟨hi, ?_, ih htail fun q hq => hsame q (mem_cons_of_mem _ hq)⟩
    exact (hsame (i, v) mem_cons_self).trans hcell

theorem Linked.of_append (h : Linked cell (l ++ m)) : Linked cell m := by
  induction l with
  | nil => exact h
  | cons p l ih => exact ih h.2.2

/-- What a cell of the list holds. -/
theorem Linked.cell_of_mem (h : Linked cell l) {i : ℕ} {v : α} (hmem : (i, v) ∈ l) :
    ∃ j, cell i = some (j, v) := by
  induction l with
  | nil => exact absurd hmem not_mem_nil
  | cons p l ih =>
    rcases mem_cons.mp hmem with rfl | hmem
    · exact ⟨startOf l, h.2.1⟩
    · exact ih h.2.2 hmem

/-- A cell is put behind the last one. -/
theorem Linked.concat {x y : ℕ} {v w : α} (h : Linked cell (l ++ [(x, v)]))
    (hnodup : ((l ++ [(x, v)]).map Prod.fst).Nodup) (hx : cell' x = some (y, v)) (hother : ∀ p ∈ l, p.1 ≠ x → cell' p.1 = cell p.1)
    (hy : cell' y = some (0, w)) (hy0 : y ≠ 0) : Linked cell' (l ++ [(x, v)] ++ [(y, w)]) := by
  induction l with
  | nil => exact ⟨h.1, hx, hy0, hy, trivial⟩
  | cons p l ih =>
    obtain ⟨i, u⟩ := p
    obtain ⟨hi, hcell, htail⟩ := h
    obtain ⟨hnotin, hnodup⟩ := nodup_cons.mp hnodup
    have hix : i ≠ x := fun hix => hnotin (by simp [hix])
    refine ⟨hi, ?_, ih htail hnodup fun q hq => hother q (mem_cons_of_mem _ hq)⟩
    have hkeep := hother (i, u) mem_cons_self hix
    have hstart : startOf (l ++ [(x, v)]) = startOf (l ++ [(x, v)] ++ [(y, w)]) :=
      (startOf_append_of_ne_nil (append_ne_nil_of_right_ne_nil l (cons_ne_nil _ _))).symm
    exact (hkeep.trans hcell).trans (congrArg (fun j => some (j, u)) hstart)

/-- A cell behind another is taken out. -/
theorem Linked.unlink {post : List (ℕ × α)} {x y : ℕ} {v w : α} (h : Linked cell (l ++ (x, v) :: (y, w) :: post))
    (hnodup : ((l ++ (x, v) :: (y, w) :: post).map Prod.fst).Nodup) (hx : cell' x = some (startOf post, v))
    (hother : ∀ p ∈ l ++ post, p.1 ≠ x → cell' p.1 = cell p.1) : Linked cell' (l ++ (x, v) :: post) := by
  induction l with
  | nil =>
    obtain ⟨hx0, -, -, -, hpost⟩ := h
    refine ⟨hx0, hx, hpost.congr fun p hp => hother p hp fun hpx => ?_⟩
    have hnotin : x ∉ ((y, w) :: post).map Prod.fst := (nodup_cons.mp hnodup).1
    rw [← hpx] at hnotin
    exact hnotin (mem_map_of_mem (mem_cons_of_mem _ hp))
  | cons p l ih =>
    obtain ⟨i, u⟩ := p
    obtain ⟨hi, hcell, htail⟩ := h
    obtain ⟨hnotin, hnodup⟩ := nodup_cons.mp hnodup
    have hix : i ≠ x := fun hix => hnotin (by simp [hix])
    refine ⟨hi, ?_, ih htail hnodup fun q hq => hother q (mem_cons_of_mem _ hq)⟩
    have hkeep := hother (i, u) mem_cons_self hix
    rw [hkeep, hcell]
    cases l with
    | nil => rfl
    | cons q l => rfl

end Lib
end Citron
