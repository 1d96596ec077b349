/-
# Coalescing adjacent intervals

Two adjacent tiles that are `mergeable` can be replaced by their `join`. One
list of tiles `Joins` to another if it does so by such replacements. A pass to
the right that begins at one tile and ends past a point `x` (`coalesceFrom`)
is such a series, and leaves no mergeable neighbours behind if there were none
past `x` (`coalesceFrom_isChain`).
-/
import Citron.Lib.Tiling

namespace Citron
namespace Lib

variable {β : Type*} (lo hi : β → ℕ) (mergeable : β → β → Bool) (join : β → β → β)

/-- What joining two tiles does to their borders and to merging with others. -/
structure JoinLaws : Prop where
  lo_join : ∀ b c, lo (join b c) = lo b
  hi_join : ∀ b c, hi b = lo c → hi (join b c) = hi c
  left : ∀ b c d, mergeable b c = true → mergeable (join b c) d = mergeable c d
  right : ∀ b c d, mergeable b c = true → mergeable d (join b c) = mergeable d b

/-- The list on the right arises by joining mergeable neighbours. -/
inductive Joins : List β → List β → Prop
  | refl (l : List β) : Joins l l
  | step {l₁ l₂ l : List β} {b c : β} (h : mergeable b c = true)
      (hl : Joins (l₁ ++ join b c :: l₂) l) : Joins (l₁ ++ b :: c :: l₂) l

/-- Join every tile with its left neighbour where the two are mergeable, from
`prev` on until a tile ends past `x`. -/
def coalesceFrom (x : ℕ) : β → List β → List β
  | prev, [] => [prev]
  | prev, cur :: rest =>
    if mergeable prev cur then
      if x < hi (join prev cur) then join prev cur :: rest
      else coalesceFrom x (join prev cur) rest
    else if x < hi cur then prev :: cur :: rest
    else prev :: coalesceFrom x cur rest

variable {lo hi mergeable join} {a e x : ℕ}

/-- **The induction rule.** What one join keeps, a series of joins keeps. -/
theorem Joins.preserves {P : List β → Prop} {l l' : List β} (h : Joins mergeable join l l')
    (step : ∀ l₁ l₂ b c, mergeable b c = true → P (l₁ ++ b :: c :: l₂) → P (l₁ ++ join b c :: l₂))
    (hl : P l) : P l' := by
  induction h with
  | refl => exact hl
  | step hm _ ih => exact ih (step _ _ _ _ hm hl)

theorem Joins.append_left {l l' : List β} (r : List β) (h : Joins mergeable join l l') :
    Joins mergeable join (r ++ l) (r ++ l') := by
  induction h with
  | refl => exact .refl _
  | step hm _ ih =>
    rw [← List.append_assoc] at ih ⊢
    exact .step hm ih

theorem coalesceFrom_joins (x : ℕ) : ∀ (prev : β) (rest : List β),
    Joins mergeable join (prev :: rest) (coalesceFrom hi mergeable join x prev rest)
  | prev, [] => .refl _
  | prev, cur :: rest => by
    simp only [coalesceFrom]
    split_ifs with h1 h2 h2
    · exact @Joins.step _ _ _ [] _ _ _ _ h1 (.refl _)
    · exact @Joins.step _ _ _ [] _ _ _ _ h1 (coalesceFrom_joins x _ rest)
    · exact .refl _
    · exact (coalesceFrom_joins x cur rest).append_left [prev]

/-- Joining keeps the range that the tiles cover. -/
theorem Joins.tiles (laws : JoinLaws lo hi mergeable join) {l l' : List β}
    (h : Joins mergeable join l l') (hl : Tiles lo hi a l e) : Tiles lo hi a l' e := by
  refine h.preserves (P := fun l => Tiles lo hi a l e) (fun l₁ l₂ b c _ hbc => ?_) hl
  obtain ⟨m, h1, rfl, h2, h3, h4, h5⟩ := tiles_append.mp hbc
  have hj : hi (join b c) = hi c := laws.hi_join b c h3.symm
  exact h1.append ⟨laws.lo_join b c, by omega, hj ▸ h5⟩

/-- The first tile of the pass merges to the left as the tile it begins with. -/
theorem coalesceFrom_head (laws : JoinLaws lo hi mergeable join) (x : ℕ) :
    ∀ (prev : β) (rest : List β), ∃ h t, coalesceFrom hi mergeable join x prev rest = h :: t ∧
      ∀ d, mergeable d h = mergeable d prev
  | prev, [] => ⟨prev, [], rfl, fun _ => rfl⟩
  | prev, cur :: rest => by
    simp only [coalesceFrom]
    split_ifs with h1 h2 h2
    · exact ⟨_, _, rfl, fun d => laws.right _ _ d h1⟩
    · obtain ⟨h, t, heq, hd⟩ := coalesceFrom_head laws x (join prev cur) rest
      exact ⟨h, t, heq, fun d => (hd d).trans (laws.right _ _ d h1)⟩
    · exact ⟨_, _, rfl, fun _ => rfl⟩
    · exact ⟨_, _, rfl, fun _ => rfl⟩

/-- **The pass coalesces.** If no two neighbours past `x` are mergeable before
the pass, no two neighbours are after it. -/
theorem coalesceFrom_isChain (laws : JoinLaws lo hi mergeable join) :
    ∀ {rest : List β} {prev : β} {a : ℕ}, Tiles lo hi a (prev :: rest) e →
      (prev :: rest).IsChain (fun b c => x < hi b → mergeable b c = false) →
      (coalesceFrom hi mergeable join x prev rest).IsChain fun b c => mergeable b c = false
  | [], _, _, _, _ => .singleton _
  | cur :: rest, prev, a, ⟨h1, h2, h3, h4, h5⟩, hc => by
    obtain ⟨hpc, hrest⟩ := List.isChain_cons_cons.mp hc
    have hj : hi (join prev cur) = hi cur := laws.hi_join _ _ h3.symm
    -- past `x` the whole rest is apart
    have late : x < hi cur → (cur :: rest).IsChain fun b c => mergeable b c = false := fun hx => by
      refine hrest.imp_of_mem_imp fun b c hb _ hbc => hbc ?_
      rcases List.mem_cons.mp hb with rfl | hb
      · exact hx
      · have := h5.bounds b hb
        omega
    simp only [coalesceFrom]
    split_ifs with hm hx hx
    · have hl := late (hj ▸ hx)
      refine hl.tail.cons fun y hy => ?_
      rw [laws.left _ _ y hm]
      exact hl.rel_head? hy
    · refine coalesceFrom_isChain laws ⟨laws.lo_join _ _, ?_, hj ▸ h5⟩
        (hrest.tail.cons fun y hy hx' => absurd hx' hx)
      rw [hj]
      omega
    · exact .cons_cons (by simpa using hm) (late hx)
    · obtain ⟨h, t, heq, hd⟩ := coalesceFrom_head laws x cur rest
      have ih := coalesceFrom_isChain laws ⟨h3, h4, h5⟩ hrest
      rw [heq] at ih ⊢
      exact .cons_cons (by rw [hd]; simpa using hm) ih

end Lib
end Citron
