/-
# Lists of breakpoints

A list with ascending keys stands for a function of the keys that is constant
between its keys: the entry that holds at a number is the last one whose key is
not above it (`lastAt`). Cutting the list at a number, and putting other entries
between two cuts, changes what holds between them and nothing else.
-/
import Mathlib

namespace Citron
namespace Lib

open List

variable {β κ : Type*} [LinearOrder κ] (key : β → κ)

def Ascending (l : List β) : Prop := l.Pairwise fun x y => key x < key y

/-- The last entry whose key is not above `a`. -/
def lastAt (l : List β) (a : κ) : Option β := (l.filter fun b => decide (key b ≤ a)).getLast?

variable {key} {l r : List β} {b c : β} {a v : κ}

theorem lastAt_append : lastAt key (l ++ r) a = (lastAt key r a).or (lastAt key l a) := by
  simp [lastAt, getLast?_append]

theorem lastAt_eq_none (h : ∀ b ∈ l, a < key b) : lastAt key l a = none := by
  simp only [lastAt, getLast?_eq_none_iff, filter_eq_nil_iff, decide_eq_true_eq, not_le]
  exact h

theorem lastAt_concat_of_le (h : key b ≤ a) : lastAt key (l ++ [b]) a = some b := by
  simp [lastAt, h]

/-- Entries above the number do not hold at it. -/
theorem lastAt_append_of_lt (h : ∀ b ∈ r, a < key b) : lastAt key (l ++ r) a = lastAt key l a := by
  rw [lastAt_append, lastAt_eq_none h, Option.none_or]

theorem lastAt_cons_isSome (h : key b ≤ a) : (lastAt key (b :: r) a).isSome := by
  simp only [lastAt, getLast?_isSome, ne_eq, filter_eq_nil_iff, not_forall]
  exact ⟨b, mem_cons_self, by simpa using h⟩

/-- An entry at the number or below it hides all entries before it. -/
theorem lastAt_append_cons_of_le (h : key b ≤ a) :
    lastAt key (l ++ b :: r) a = lastAt key (b :: r) a := by
  rw [lastAt_append]
  exact Option.or_of_isSome (lastAt_cons_isSome h)

theorem lastAt_cons_of_le (h : key b ≤ a) : lastAt key (b :: r) a = (lastAt key r a).or (some b) := by
  rw [← singleton_append, lastAt_append, ← nil_append [b], lastAt_concat_of_le h]

theorem lastAt_cons_of_lt (h : key b ≤ a) (hr : ∀ c ∈ r, a < key c) : lastAt key (b :: r) a = some b := by
  rw [← singleton_append, lastAt_append_of_lt hr, ← nil_append [b], lastAt_concat_of_le h]

/-! ### Cuts -/

theorem ascending_append : Ascending key (l ++ r) ↔
    Ascending key l ∧ Ascending key r ∧ ∀ b ∈ l, ∀ c ∈ r, key b < key c := pairwise_append

theorem ascending_cons : Ascending key (b :: l) ↔ (∀ c ∈ l, key b < key c) ∧ Ascending key l :=
  pairwise_cons

/-- A list with ascending keys, cut at a number. -/
theorem Ascending.exists_cut : ∀ {l : List β}, Ascending key l → ∀ v,
    ∃ l₁ l₂, l = l₁ ++ l₂ ∧ (∀ b ∈ l₁, key b < v) ∧ ∀ b ∈ l₂, v ≤ key b
  | [], _, _ => ⟨[], [], rfl, by simp, by simp⟩
  | b :: l, h, v => by
    obtain ⟨hb, hl⟩ := ascending_cons.mp h
    by_cases hv : key b < v
    · obtain ⟨l₁, l₂, rfl, h1, h2⟩ := hl.exists_cut v
      exact ⟨b :: l₁, l₂, rfl, forall_mem_cons.mpr ⟨hv, h1⟩, h2⟩
    · refine ⟨[], b :: l, rfl, by simp, forall_mem_cons.mpr ⟨not_lt.mp hv, fun c hc => ?_⟩⟩
      exact (not_lt.mp hv).trans (hb c hc).le

/-- A cut is where the search for the first key from `v` on ends. -/
theorem findIdx_cut (hl : ∀ b ∈ l, key b < v) (hr : ∀ b ∈ r, v ≤ key b) :
    (l ++ r).findIdx (fun b => decide (v ≤ key b)) = l.length := by
  have hnone : l.findIdx (fun b => decide (v ≤ key b)) = l.length :=
    findIdx_eq_length.mpr fun b hb => by simpa using hl b hb
  rw [findIdx_append, hnone, if_neg (lt_irrefl _)]
  cases r with
  | nil => simp
  | cons b r => simp [findIdx_cons, hr b mem_cons_self]

/-- Entries between two cuts keep the keys ascending. -/
theorem Ascending.splice {x : List β} {w : κ} (hl : Ascending key l) (hx : Ascending key x)
    (hr : Ascending key r) (h1 : ∀ b ∈ l, key b < v) (h2 : ∀ b ∈ x, v ≤ key b ∧ key b < w)
    (h3 : ∀ b ∈ r, w ≤ key b) (hv : v ≤ w) : Ascending key (l ++ x ++ r) := by
  refine ascending_append.mpr ⟨ascending_append.mpr ⟨hl, hx, fun b hb c hc => ?_⟩, hr, fun b hb c hc => ?_⟩
  · exact (h1 b hb).trans_le (h2 c hc).1
  · rcases mem_append.mp hb with hb | hb
    · exact (h1 b hb).trans_le (hv.trans (h3 c hc))
    · exact (h2 b hb).2.trans_le (h3 c hc)

end Lib
end Citron
