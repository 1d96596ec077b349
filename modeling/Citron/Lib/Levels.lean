/-
# Queues by level

A queue with one list for each of `n` levels is served from the lowest level up and in
the order of each list. Its front is the head of the first list that is not empty, and
what comes behind a member is the rest of its list and then the lists of the levels above.
-/
import Mathlib

namespace Citron
namespace Lib

open List

variable {T : Type*} {n p : ℕ} {f g : ℕ → List T} {t u : T} {l l' : List T}

/-- The members of a queue in the order of service. -/
def inOrder (n : ℕ) (f : ℕ → List T) : List T := (List.range n).flatMap f

theorem mem_inOrder : t ∈ inOrder n f ↔ ∃ p < n, t ∈ f p := by simp [inOrder]

theorem inOrder_congr (h : ∀ p < n, f p = g p) : inOrder n f = inOrder n g := by
  apply flatMap_congr
  exact fun p hp => h p (mem_range.mp hp)

theorem range_split (hp : p < n) : List.range n = List.range (p + 1) ++ List.range' (p + 1) (n - (p + 1)) := by
  have hsum : n = p + 1 + (n - (p + 1)) := by omega
  conv_lhs => rw [hsum, range_eq_range', ← range'_append_1]
  rw [Nat.zero_add, range_eq_range']

theorem inOrder_split (hp : p < n) :
    inOrder n f = inOrder p f ++ (f p ++ (List.range' (p + 1) (n - (p + 1))).flatMap f) := by
  unfold inOrder
  rw [range_split hp, flatMap_append, range_succ, flatMap_append, flatMap_singleton, append_assoc]

/-- The members of different levels differ. -/
theorem nodup_inOrder (hn : ∀ p < n, (f p).Nodup) (hd : ∀ p < n, ∀ q < n, ∀ t, t ∈ f p → t ∈ f q → p = q) :
    (inOrder n f).Nodup := by
  unfold inOrder
  rw [nodup_flatMap]
  refine ⟨fun p hp => hn p (mem_range.mp hp), ?_⟩
  refine List.Pairwise.imp_of_mem ?_ nodup_range
  intro p q hp hq hne t htp htq
  exact hne (hd p (mem_range.mp hp) q (mem_range.mp hq) t htp htq)

/-! ### The front -/

theorem head?_flatMap_eq (levels : List ℕ) (f : ℕ → List T) :
    (levels.flatMap f).head? = (levels.find? fun p => !(f p).isEmpty).bind fun p => (f p).head? := by
  induction levels with
  | nil => rfl
  | cons p levels ih =>
    rw [flatMap_cons, find?_cons]
    cases hf : f p with
    | nil => simp [ih]
    | cons t l => simp [hf]

theorem head?_inOrder :
    (inOrder n f).head? = ((List.range n).find? fun p => !(f p).isEmpty).bind fun p => (f p).head? :=
  head?_flatMap_eq _ _

section Behind

variable [DecidableEq T]

/-- What comes behind the first occurrence of `t`. -/
def behind (t : T) : List T → List T
  | [] => []
  | u :: us => if u = t then us else behind t us

theorem behind_cons_self : behind t (t :: l) = l := if_pos rfl

theorem behind_append_of_notMem (h : t ∉ l) : behind t (l ++ l') = behind t l' := by
  induction l with
  | nil => rfl
  | cons u l ih =>
    obtain ⟨hu, hl⟩ := not_or.mp (mt mem_cons.mpr h)
    rw [cons_append, behind, if_neg (Ne.symm hu), ih hl]

theorem behind_append_of_mem (h : t ∈ l) : behind t (l ++ l') = behind t l ++ l' := by
  induction l with
  | nil => exact absurd h not_mem_nil
  | cons u l ih =>
    rw [cons_append, behind, behind]
    by_cases hu : u = t
    · rw [if_pos hu, if_pos hu]
    · rw [if_neg hu, if_neg hu, ih ((mem_cons.mp h).resolve_left (Ne.symm hu))]

theorem behind_of_nodup (h : (l ++ t :: l').Nodup) : behind t (l ++ t :: l') = l' := by
  have hnot : t ∉ l := fun hmem => (nodup_append.mp h).2.2 t hmem t mem_cons_self rfl
  rw [behind_append_of_notMem hnot, behind_cons_self]

/-- Behind a member of a level come the rest of its level and then the first level above that
is not empty. -/
theorem head?_behind_inOrder (hp : p < n) (ht : t ∈ f p) (hbelow : ∀ q < p, t ∉ f q) :
    (behind t (inOrder n f)).head? =
      (behind t (f p)).head?.or
        (((List.range n).find? fun q => p < q && !(f q).isEmpty).bind fun q => (f q).head?) := by
  have hnot : t ∉ inOrder p f := by
    intro hmem
    obtain ⟨q, hq, htq⟩ := mem_inOrder.mp hmem
    exact hbelow q hq htq
  rw [inOrder_split hp, behind_append_of_notMem hnot, behind_append_of_mem ht, head?_append, head?_flatMap_eq]
  congr 2
  have hlow : (List.range (p + 1)).find? (fun q => p < q && !(f q).isEmpty) = none := by
    rw [find?_eq_none]
    intro q hq
    have := mem_range.mp hq
    simp; omega
  rw [range_split hp, find?_append, hlow, Option.none_or]
  apply find?_congr
  intro q hq
  have hlt : p < q := by
    have := mem_range'_1.mp hq
    omega
  simp [hlt]

/-- A member is taken out of its level. -/
theorem inOrder_erase (hp : p < n) (hbelow : ∀ q < p, t ∉ f q) (ht : t ∈ f p) (hg : g p = (f p).erase t)
    (hsame : ∀ q ≠ p, g q = f q) : inOrder n g = (inOrder n f).erase t := by
  have hnot : t ∉ inOrder p f := by
    intro hmem
    obtain ⟨q, hq, htq⟩ := mem_inOrder.mp hmem
    exact hbelow q hq htq
  have hlow : inOrder p g = inOrder p f := inOrder_congr fun q hq => hsame q (by omega)
  have habove : (List.range' (p + 1) (n - (p + 1))).flatMap g = (List.range' (p + 1) (n - (p + 1))).flatMap f := by
    apply flatMap_congr
    intro q hq
    have := mem_range'_1.mp hq
    exact hsame q (by omega)
  rw [inOrder_split hp, inOrder_split hp, hlow, habove, hg, erase_append_right _ hnot,
    erase_append_left _ ht]

end Behind

end Lib
end Citron
