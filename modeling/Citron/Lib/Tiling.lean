/-
# Lists of adjacent intervals

A list of tiles, each an interval `[lo b, hi b)`, that covers `[a, e)` from
left to right without a gap (`Tiles`). Every point of the range lies in
exactly one tile (`tileAt`), so such a list is a map of the points to tiles,
and a cut of the list at a tile border is a cut of the map
(`tileAt_append_left`, `tileAt_append_right`).
-/
import Mathlib

namespace Citron
namespace Lib

variable {β : Type*} (lo hi : β → ℕ)

/-- The tiles cover `[a, e)` from left to right, none empty. -/
def Tiles : ℕ → List β → ℕ → Prop
  | a, [], e => a = e
  | a, b :: bs, e => lo b = a ∧ a < hi b ∧ Tiles (hi b) bs e

/-- The point lies in the tile. -/
def Inside (b : β) (p : ℕ) : Prop := lo b ≤ p ∧ p < hi b

instance (b : β) (p : ℕ) : Decidable (Inside lo hi b p) := inferInstanceAs (Decidable (_ ∧ _))

/-- The tile that holds the point. -/
def tileAt (l : List β) (p : ℕ) : Option β := l.find? fun b => decide (Inside lo hi b p)

/-- The point lies in a tile, away from its left border. -/
def Cuts (l : List β) (p : ℕ) : Prop := ∃ b ∈ l, lo b < p ∧ p < hi b

instance (l : List β) (p : ℕ) : Decidable (Cuts lo hi l p) :=
  inferInstanceAs (Decidable (∃ b ∈ l, _))

variable {lo hi} {a m e p : ℕ} {b : β} {l r : List β}

@[simp] theorem tiles_nil : Tiles lo hi a [] e ↔ a = e := Iff.rfl

@[simp] theorem tiles_cons :
    Tiles lo hi a (b :: l) e ↔ lo b = a ∧ a < hi b ∧ Tiles lo hi (hi b) l e := Iff.rfl

theorem Tiles.le : ∀ {l : List β} {a : ℕ}, Tiles lo hi a l e → a ≤ e
  | [], _, h => Nat.le_of_eq h
  | _ :: _, _, ⟨_, h1, h2⟩ => (Nat.le_of_lt h1).trans h2.le

theorem tiles_append : ∀ {l : List β} {a : ℕ},
    Tiles lo hi a (l ++ r) e ↔ ∃ m, Tiles lo hi a l m ∧ Tiles lo hi m r e
  | [], a => by simp
  | b :: l, a => by
    simp only [List.cons_append, tiles_cons, tiles_append (l := l)]
    constructor
    · rintro ⟨h1, h2, m, h3, h4⟩; exact ⟨m, ⟨h1, h2, h3⟩, h4⟩
    · rintro ⟨m, ⟨h1, h2, h3⟩, h4⟩; exact ⟨h1, h2, m, h3, h4⟩

theorem Tiles.append (hl : Tiles lo hi a l m) (hr : Tiles lo hi m r e) :
    Tiles lo hi a (l ++ r) e := tiles_append.mpr ⟨m, hl, hr⟩

theorem Tiles.bounds : ∀ {l : List β} {a : ℕ}, Tiles lo hi a l e → ∀ b ∈ l,
    a ≤ lo b ∧ lo b < hi b ∧ hi b ≤ e
  | [], _, _, _, hb => by cases hb
  | c :: l, a, ⟨h1, h2, h3⟩, b, hb => by
    rcases List.mem_cons.mp hb with rfl | hb
    · exact ⟨h1.ge, h1 ▸ h2, h3.le⟩
    · obtain ⟨h4, h5, h6⟩ := h3.bounds b hb
      exact ⟨by omega, h5, h6⟩

/-- A tiling of a non-empty range has a first tile. -/
theorem Tiles.exists_cons (h : Tiles lo hi a l e) (hlt : a < e) :
    ∃ b t, l = b :: t ∧ lo b = a ∧ a < hi b ∧ Tiles lo hi (hi b) t e := by
  cases l with
  | nil => exact absurd h (by simp; omega)
  | cons b t => exact ⟨b, t, rfl, h⟩

/-- The left borders increase strictly. -/
theorem Tiles.pairwise_lo (h : Tiles lo hi a l e) : l.Pairwise fun x y => lo x < lo y := by
  induction l generalizing a with
  | nil => exact .nil
  | cons b l ih =>
    obtain ⟨h1, h2, h3⟩ := h
    refine .cons (fun y hy => ?_) (ih h3)
    have := (h3.bounds y hy).1
    omega

/-! ### The map of points to tiles -/

theorem tileAt_cons_of_inside (h : Inside lo hi b p) : tileAt lo hi (b :: l) p = some b := by
  simp [tileAt, h]

theorem tileAt_cons_of_not (h : ¬ Inside lo hi b p) :
    tileAt lo hi (b :: l) p = tileAt lo hi l p := by
  simp [tileAt, h]

theorem tileAt_eq_none_of_lt (h : Tiles lo hi a l e) (hp : p < a) : tileAt lo hi l p = none := by
  simp only [tileAt, List.find?_eq_none, decide_eq_true_eq]
  rintro b hb ⟨h1, h2⟩
  have := h.bounds b hb
  omega

theorem tileAt_eq_none_of_le (h : Tiles lo hi a l e) (hp : e ≤ p) : tileAt lo hi l p = none := by
  simp only [tileAt, List.find?_eq_none, decide_eq_true_eq]
  rintro b hb ⟨h1, h2⟩
  have := h.bounds b hb
  omega

theorem tileAt_append_left (hr : Tiles lo hi m r e) (hp : p < m) :
    tileAt lo hi (l ++ r) p = tileAt lo hi l p := by
  have := tileAt_eq_none_of_lt hr hp
  simp only [tileAt] at this ⊢
  simp [List.find?_append, this]

theorem tileAt_append_right (hl : Tiles lo hi a l m) (hp : m ≤ p) :
    tileAt lo hi (l ++ r) p = tileAt lo hi r p := by
  have := tileAt_eq_none_of_le hl hp
  simp only [tileAt] at this ⊢
  simp [List.find?_append, this]

theorem inside_of_tileAt (h : tileAt lo hi l p = some b) : Inside lo hi b p := by
  simpa using List.find?_some h

theorem mem_of_tileAt (h : tileAt lo hi l p = some b) : b ∈ l := List.mem_of_find?_eq_some h

/-- The tiles to the left of the point, the tile that holds it, and the rest. -/
theorem Tiles.exists_split : ∀ {l : List β} {a : ℕ}, Tiles lo hi a l e → a ≤ p → p < e →
    ∃ l₁ b l₂, l = l₁ ++ b :: l₂ ∧ Tiles lo hi a l₁ (lo b) ∧ Inside lo hi b p ∧
      Tiles lo hi (hi b) l₂ e
  | [], a, h, h1, h2 => by simp at h; omega
  | b :: l, a, ⟨h3, h4, h5⟩, h1, h2 => by
    by_cases hp : p < hi b
    · exact ⟨[], b, l, rfl, h3.symm, ⟨by omega, hp⟩, h5⟩
    · obtain ⟨l₁, c, l₂, rfl, h6, h7, h8⟩ := h5.exists_split (by omega) h2
      exact ⟨b :: l₁, c, l₂, rfl, ⟨h3, h4, h6⟩, h7, h8⟩

theorem Tiles.tileAt_isSome (h : Tiles lo hi a l e) (h1 : a ≤ p) (h2 : p < e) :
    (tileAt lo hi l p).isSome := by
  obtain ⟨l₁, b, l₂, rfl, h3, h4, -⟩ := h.exists_split h1 h2
  rw [tileAt_append_right h3 h4.1, tileAt_cons_of_inside h4]
  rfl

/-- A tile is the one that holds its points. -/
theorem Tiles.tileAt_of_mem (h : Tiles lo hi a l e) (hb : b ∈ l) (hp : Inside lo hi b p) :
    tileAt lo hi l p = some b := by
  obtain ⟨l₁, l₂, rfl⟩ := List.append_of_mem hb
  obtain ⟨x, h1, h2⟩ := tiles_append.mp h
  obtain rfl := h2.1
  rw [tileAt_append_right h1 hp.1, tileAt_cons_of_inside hp]

theorem cuts_cons : Cuts lo hi (b :: l) p ↔ (lo b < p ∧ p < hi b) ∨ Cuts lo hi l p := by
  simp [Cuts]

end Lib
end Citron
