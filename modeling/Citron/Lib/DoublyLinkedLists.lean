/-
# Doubly linked lists

The links of the nodes of a list: every node knows the one before it and the one after it. A part of a
list is linked between what is before it and what is after it, so that two parts can be put together and
one can be taken out.
-/
import Mathlib.Data.List.Basic

namespace Citron
namespace Lib

open List

variable {α : Type*}

/-- The nodes of a list are linked in order, between what is before the list and what is after it. -/
def DoublyLinked (next prev : α → Option α) : Option α → List α → Option α → Prop
  | _, [], _ => True
  | before, x :: xs, after => prev x = before ∧ next x = xs.head?.or after ∧ DoublyLinked next prev (some x) xs after

variable {next prev next' prev' : α → Option α} {before before' after after' : Option α}

theorem getLast?_cons_or (x : α) (xs : List α) (o : Option α) : (x :: xs).getLast?.or o = xs.getLast?.or (some x) := by
  rw [getLast?_cons]
  cases xs.getLast? <;> rfl

theorem doublyLinked_append (xs ys : List α) :
    DoublyLinked next prev before (xs ++ ys) after ↔
      DoublyLinked next prev before xs (ys.head?.or after) ∧ DoublyLinked next prev (xs.getLast?.or before) ys after := by
  induction xs generalizing before with
  | nil => exact ⟨fun h => ⟨trivial, h⟩, fun h => h.2⟩
  | cons x xs ih =>
    rw [getLast?_cons_or, cons_append]
    show (_ ∧ _ ∧ _) ↔ (_ ∧ _ ∧ _) ∧ _
    rw [ih, head?_append, Option.or_assoc]
    constructor
    · intro ⟨hprev, hnext, hxs, hys⟩
      exact ⟨⟨hprev, hnext, hxs⟩, hys⟩
    · intro ⟨⟨hprev, hnext, hxs⟩, hys⟩
      exact ⟨hprev, hnext, hxs, hys⟩

/-- Only the links of the nodes of the list matter. -/
theorem DoublyLinked.congr {xs : List α} (h : DoublyLinked next prev before xs after) (hnext : ∀ x ∈ xs, next' x = next x)
    (hprev : ∀ x ∈ xs, prev' x = prev x) : DoublyLinked next' prev' before xs after := by
  induction xs generalizing before with
  | nil => trivial
  | cons x xs ih =>
    obtain ⟨hbefore, hafter, hrest⟩ := h
    refine ⟨(hprev x mem_cons_self).trans hbefore, (hnext x mem_cons_self).trans hafter, ih hrest ?_ ?_⟩
    · intro y hy
      exact hnext y (mem_cons_of_mem x hy)
    · intro y hy
      exact hprev y (mem_cons_of_mem x hy)

/-- The last node gets another one after it. -/
theorem DoublyLinked.relinkLast [DecidableEq α] {xs : List α} (h : DoublyLinked next prev before xs after) (hdistinct : xs.Nodup)
    (hnext : ∀ x ∈ xs, next' x = if xs.getLast? = some x then after' else next x) (hprev : ∀ x ∈ xs, prev' x = prev x) :
    DoublyLinked next' prev' before xs after' := by
  induction xs generalizing before with
  | nil => trivial
  | cons x xs ih =>
    obtain ⟨hbefore, hafter, hrest⟩ := h
    obtain ⟨hx, hxs⟩ := nodup_cons.1 hdistinct
    have hlast (hne : xs ≠ []) : (x :: xs).getLast? = xs.getLast? := by
      rw [getLast?_cons, getLast?_eq_some_getLast hne]
      rfl
    refine ⟨(hprev x mem_cons_self).trans hbefore, ?_, ih hrest hxs ?_ ?_⟩
    · rw [hnext x mem_cons_self]
      cases xs with
      | nil => exact if_pos rfl
      | cons y ys =>
        rw [if_neg, hafter]
        · rfl
        · intro hlastx
          rw [hlast (cons_ne_nil y ys)] at hlastx
          exact hx (mem_of_getLast? hlastx)
    · intro y hy
      rw [hnext y (mem_cons_of_mem x hy), hlast (ne_nil_of_mem hy)]
    · intro y hy
      exact hprev y (mem_cons_of_mem x hy)

/-- The first node gets another one before it. -/
theorem DoublyLinked.relinkHead [DecidableEq α] {xs : List α} (h : DoublyLinked next prev before xs after) (hdistinct : xs.Nodup)
    (hnext : ∀ x ∈ xs, next' x = next x) (hprev : ∀ x ∈ xs, prev' x = if xs.head? = some x then before' else prev x) :
    DoublyLinked next' prev' before' xs after := by
  cases xs with
  | nil => trivial
  | cons x xs =>
    obtain ⟨-, hafter, hrest⟩ := h
    have hx := (nodup_cons.1 hdistinct).1
    refine ⟨?_, (hnext x mem_cons_self).trans hafter, hrest.congr ?_ ?_⟩
    · rw [hprev x mem_cons_self]
      exact if_pos rfl
    · intro y hy
      exact hnext y (mem_cons_of_mem x hy)
    · intro y hy
      rw [hprev y (mem_cons_of_mem x hy), if_neg]
      intro heq
      rw [head?_cons, Option.some.injEq] at heq
      exact hx (heq ▸ hy)

/-- A node is taken out: its neighbours get linked to each other. -/
theorem DoublyLinked.remove [DecidableEq α] {xs ys : List α} {x : α} (h : DoublyLinked next prev none (xs ++ x :: ys) none)
    (hdistinct : (xs ++ x :: ys).Nodup)
    (hnext : ∀ y ∈ xs ++ ys, next' y = if xs.getLast? = some y then ys.head? else next y)
    (hprev : ∀ y ∈ xs ++ ys, prev' y = if ys.head? = some y then xs.getLast? else prev y) :
    DoublyLinked next' prev' none (xs ++ ys) none := by
  obtain ⟨hxs, -, -, hys⟩ := (doublyLinked_append xs (x :: ys)).1 h
  obtain ⟨hdx, hdy, hdisjoint⟩ := nodup_append.1 hdistinct
  rw [doublyLinked_append, Option.or_none, Option.or_none]
  constructor
  · apply hxs.relinkLast hdx
    · intro y hy
      exact hnext y (mem_append_left ys hy)
    · intro y hy
      rw [hprev y (mem_append_left ys hy), if_neg]
      intro hhead
      exact hdisjoint y hy y (mem_cons_of_mem x (mem_of_head? hhead)) rfl
  · apply hys.relinkHead (nodup_cons.1 hdy).2
    · intro y hy
      rw [hnext y (mem_append_right xs hy), if_neg]
      intro hlast
      exact hdisjoint y (mem_of_getLast? hlast) y (mem_cons_of_mem x hy) rfl
    · intro y hy
      exact hprev y (mem_append_right xs hy)

/-- A node is put behind the others. -/
theorem DoublyLinked.concat [DecidableEq α] {xs : List α} {x : α} (h : DoublyLinked next prev none xs none) (hdistinct : xs.Nodup)
    (hnext : ∀ y ∈ xs, next' y = if xs.getLast? = some y then some x else next y) (hprev : ∀ y ∈ xs, prev' y = prev y)
    (hx : prev' x = xs.getLast?) (hx' : next' x = none) : DoublyLinked next' prev' none (xs ++ [x]) none := by
  rw [doublyLinked_append, Option.or_none, Option.or_none]
  exact ⟨h.relinkLast hdistinct hnext hprev, hx, hx', trivial⟩

/-- What a node of a list is linked to. -/
theorem DoublyLinked.links {xs ys : List α} {x : α} (h : DoublyLinked next prev none (xs ++ x :: ys) none) :
    prev x = xs.getLast? ∧ next x = ys.head? := by
  obtain ⟨-, hprev, hnext, -⟩ := (doublyLinked_append xs (x :: ys)).1 h
  rw [Option.or_none] at hprev hnext
  exact ⟨hprev, hnext⟩

end Lib
end Citron
