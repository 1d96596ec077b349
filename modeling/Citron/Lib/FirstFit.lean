/-
# First fit

The least element of a set, or the news that it is empty (`LeastOf`). A search
that takes the least element of the first of several sets that has one finds
the least element of them all, if the sets lie one above the other
(`leastOf_findSome?`). The sets here are the places in `[lo, hi)` for an object
of a given size whose address leaves a given remainder (`leastOf_firstFit`).
-/
import Mathlib

namespace Citron
namespace Lib

variable {α β : Type*}

section Order

variable [Preorder α]

/-- The least element of the set, or nothing if the set is empty. -/
def LeastOf (A : Set α) : Option α → Prop
  | some a => IsLeast A a
  | none => A = ∅

@[simp] theorem leastOf_none {A : Set α} : LeastOf A none ↔ A = ∅ := Iff.rfl

/-- The first set that has an element has the least one. -/
theorem leastOf_findSome? {f : β → Option α} {S : β → Set α} {l : List β}
    (hf : ∀ b ∈ l, LeastOf (S b) (f b))
    (hl : l.Pairwise fun b c => ∀ x ∈ S b, ∀ y ∈ S c, x ≤ y) :
    LeastOf {x | ∃ b ∈ l, x ∈ S b} (l.findSome? f) := by
  induction l with
  | nil => simp [LeastOf]
  | cons b l ih =>
    obtain ⟨hbl, hl⟩ := List.pairwise_cons.mp hl
    have hb := hf b List.mem_cons_self
    specialize ih (fun c hc => hf c (List.mem_cons_of_mem _ hc)) hl
    simp only [List.findSome?_cons, List.mem_cons, exists_eq_or_imp]
    cases hfb : f b with
    | some x =>
      rw [hfb] at hb
      refine ⟨Or.inl hb.1, fun y hy => ?_⟩
      rcases hy with hy | ⟨c, hc, hy⟩
      · exact hb.2 hy
      · exact hbl c hc x hb.1 y hy
    | none =>
      rw [hfb, leastOf_none] at hb
      simpa [hb] using ih

end Order

/-! ### Places with a remainder -/

/-- The first number from `a` on that is `o` modulo `m`. -/
def firstCongruent (m o a : ℕ) : ℕ :=
  if a ≤ a / m * m + o then a / m * m + o else a / m * m + o + m

variable {m o : ℕ}

theorem isLeast_firstCongruent (ho : o < m) (a : ℕ) :
    IsLeast {x | a ≤ x ∧ x % m = o} (firstCongruent m o a) := by
  have hq := Nat.div_add_mod' a m
  have hr := Nat.mod_lt a (by omega : 0 < m)
  unfold firstCongruent
  constructor
  · have h1 : (a / m * m + o) % m = o := by rw [Nat.mul_add_mod', Nat.mod_eq_of_lt ho]
    split_ifs with h
    · exact ⟨h, h1⟩
    · exact ⟨by omega, by rw [Nat.add_mod_right, h1]⟩
  · rintro y ⟨hay, rfl⟩
    have hy := Nat.div_add_mod' y m
    have hdiv : a / m * m ≤ y / m * m := Nat.mul_le_mul_right m (Nat.div_le_div_right hay)
    split_ifs with h
    · omega
    · -- `y` is below the next multiple only if it is below `a`
      have hne : a / m ≠ y / m := fun heq => by rw [heq] at h; omega
      have hlt : a / m + 1 ≤ y / m := lt_of_le_of_ne (Nat.div_le_div_right hay) hne
      have := Nat.mul_le_mul_right m hlt
      rw [Nat.add_mul] at this
      omega

/-- The first place from `lo` on for `n` cells below `hi`. -/
def firstFit (m o n lo hi : ℕ) : Option ℕ :=
  if firstCongruent m o lo + n ≤ hi then some (firstCongruent m o lo) else none

theorem leastOf_firstFit (ho : o < m) (n lo hi : ℕ) :
    LeastOf {x | lo ≤ x ∧ x % m = o ∧ x + n ≤ hi} (firstFit m o n lo hi) := by
  obtain ⟨⟨h1, h2⟩, h3⟩ := isLeast_firstCongruent ho lo
  unfold firstFit
  split_ifs with h
  · exact ⟨⟨h1, h2, h⟩, fun y hy => h3 ⟨hy.1, hy.2.1⟩⟩
  · refine Set.eq_empty_of_forall_notMem fun y hy => h ?_
    calc firstCongruent m o lo + n ≤ y + n := Nat.add_le_add_right (h3 ⟨hy.1, hy.2.1⟩) n
      _ ≤ hi := hy.2.2

end Lib
end Citron
