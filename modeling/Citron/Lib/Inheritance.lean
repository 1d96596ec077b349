/-
# Inherited values along waits

Each member waits on at most one other (`owner`). A member inherits if its value is the
least of its base and of the values of those that wait on it (`Inherits`). The lemmas
say when a change of the waits keeps this without a change of a value, and when it
keeps the waits without a cycle (`Ranked`).

Key definitions: `Inherits`, `Ranked`.
Key theorems: `Inherits.gain`, `Inherits.lose`, `Ranked.add`, `Ranked.handOver`.
-/
import Mathlib

namespace Citron
namespace Inheritance

open Function

variable {T P : Type*} [LinearOrder P] {base prio : T → P} {owner owner₁ : T → Option T} {t u : T}

/-! ### Values -/

/-- The value is the least of the base and the values of those that wait on `t`. -/
def Inherits (base prio : T → P) (owner : T → Option T) (t : T) : Prop :=
  IsLeast (insert (base t) (prio '' {u | owner u = some t})) (prio t)

theorem Inherits.le_base (h : Inherits base prio owner t) : prio t ≤ base t := h.2 (Set.mem_insert _ _)

theorem Inherits.le_waiter (h : Inherits base prio owner t) (hu : owner u = some t) : prio t ≤ prio u :=
  h.2 (Set.mem_insert_of_mem _ ⟨u, hu, rfl⟩)

theorem inherits_iff : Inherits base prio owner t ↔
    (prio t = base t ∨ ∃ u, owner u = some t ∧ prio u = prio t) ∧ prio t ≤ base t ∧
      ∀ u, owner u = some t → prio t ≤ prio u := by
  constructor
  · intro h
    refine ⟨?_, h.le_base, fun u hu => h.le_waiter hu⟩
    rcases h.1 with hb | ⟨u, hu, hp⟩
    · exact .inl hb
    · exact .inr ⟨u, hu, hp⟩
  · rintro ⟨hmem, hb, hw⟩
    refine ⟨?_, ?_⟩
    · rcases hmem with hb | ⟨u, hu, hp⟩
      · exact .inl hb
      · exact .inr ⟨u, hu, hp⟩
    · rintro x (rfl | ⟨u, hu, rfl⟩)
      · exact hb
      · exact hw u hu

/-- Only the base and the value of `t` and those that wait on it matter. -/
theorem Inherits.congr {base₁ prio₁ : T → P} (h : Inherits base prio owner t) (hb : base₁ t = base t)
    (hp : prio₁ t = prio t) (ho : ∀ u, owner₁ u = some t ↔ owner u = some t)
    (hw : ∀ u, owner u = some t → prio₁ u = prio u) : Inherits base₁ prio₁ owner₁ t := by
  rw [inherits_iff] at h ⊢
  obtain ⟨hmem, hle, hall⟩ := h
  rw [hb, hp]
  refine ⟨?_, hle, fun u hu => ?_⟩
  · rcases hmem with heq | ⟨u, hu, heq⟩
    · exact .inl heq
    · exact .inr ⟨u, (ho u).mpr hu, (hw u hu).trans heq⟩
  · rw [hw u ((ho u).mp hu)]
    exact hall u ((ho u).mp hu)

/-- More wait on `t`, none of them with a smaller value. -/
theorem Inherits.gain (h : Inherits base prio owner t) (hold : ∀ u, owner u = some t → owner₁ u = some t)
    (hnew : ∀ u, owner₁ u = some t → owner u = some t ∨ prio t ≤ prio u) : Inherits base prio owner₁ t := by
  rw [inherits_iff] at h ⊢
  obtain ⟨hmem, hle, hall⟩ := h
  refine ⟨?_, hle, fun u hu => ?_⟩
  · rcases hmem with heq | ⟨u, hu, heq⟩
    · exact .inl heq
    · exact .inr ⟨u, hold u hu, heq⟩
  · rcases hnew u hu with hu | hu
    · exact hall u hu
    · exact hu

/-- Some that wait on `t` leave, none of them with a smaller value than `u`, and `t` does not owe its value to `u`. -/
theorem Inherits.lose (h : Inherits base prio owner t) (hu : owner u = some t)
    (hold : ∀ v, owner₁ v = some t → owner v = some t)
    (hgone : ∀ v, owner v = some t → owner₁ v = some t ∨ prio u ≤ prio v)
    (hnot : ¬ (prio t = prio u ∧ prio t < base t)) : Inherits base prio owner₁ t := by
  have hle := h.le_waiter hu
  rw [inherits_iff] at h ⊢
  obtain ⟨hmem, hb, hall⟩ := h
  refine ⟨?_, hb, fun v hv => hall v (hold v hv)⟩
  rcases hmem with heq | ⟨v, hv, heq⟩
  · exact .inl heq
  · rcases hgone v hv with hv | hv
    · exact .inr ⟨v, hv, heq⟩
    · -- the value came from one that leaves: it is that of `u`, and so the base
      left
      have hpu : prio t = prio u := le_antisymm hle (heq ▸ hv)
      by_contra hne
      exact hnot ⟨hpu, lt_of_le_of_ne hb hne⟩

/-! ### Waits without a cycle -/

/-- The waits go down a rank. -/
def Ranked (owner : T → Option T) : Prop := ∃ rank : T → ℕ, ∀ t u, owner t = some u → rank u < rank t

theorem Ranked.ne (h : Ranked owner) (ht : owner t = some u) : t ≠ u := by
  obtain ⟨rank, hrank⟩ := h
  intro heq
  have hlt := hrank t u ht
  rw [heq] at hlt
  exact lt_irrefl _ hlt

theorem Ranked.mono (h : Ranked owner) (hsub : ∀ t u, owner₁ t = some u → owner t = some u) : Ranked owner₁ := by
  obtain ⟨rank, hrank⟩ := h
  exact ⟨rank, fun t u ht => hrank t u (hsub t u ht)⟩

/-- No member waits on itself, through however many others. -/
theorem Ranked.acyclic (h : Ranked owner) : ¬ Relation.TransGen (fun a b => owner a = some b) t t := by
  obtain ⟨rank, hrank⟩ := h
  have hlt : ∀ {a b}, Relation.TransGen (fun a b => owner a = some b) a b → rank b < rank a := by
    intro a b hab
    induction hab with
    | single hab => exact hrank _ _ hab
    | tail _ hbc ih => exact (hrank _ _ hbc).trans ih
  exact fun hcycle => lt_irrefl _ (hlt hcycle)

theorem Ranked.not_reach (h : Ranked owner) (ht : owner t = some u) :
    ¬ Relation.ReflTransGen (fun a b => owner a = some b) u t :=
  fun hut => h.acyclic (Relation.TransGen.head' ht hut)

/-- A new wait of `u` on `t`, if `t` does not wait for `u`. -/
theorem Ranked.add [DecidableEq T] (h : Ranked owner)
    (hnot : ¬ Relation.ReflTransGen (fun a b => owner a = some b) t u) :
    Ranked (update owner u (some t)) := by
  classical
  obtain ⟨rank, hrank⟩ := h
  -- those that wait for `u` go above `t`
  let below : T → Prop := fun x => Relation.ReflTransGen (fun a b => owner a = some b) x u
  refine ⟨fun x => if below x then rank x + rank t + 1 else rank x, fun x y hxy => ?_⟩
  by_cases hxu : x = u
  · subst hxu
    rw [update_self, Option.some.injEq] at hxy
    subst hxy
    have hx : below x := Relation.ReflTransGen.refl
    have ht : ¬ below t := hnot
    show (if below t then _ else rank t) < (if below x then _ else rank x)
    rw [if_pos hx, if_neg ht]
    omega
  · rw [update_of_ne hxu] at hxy
    have hlt := hrank x y hxy
    have hiff : below x ↔ below y := by
      constructor
      · intro hx
        rcases Relation.ReflTransGen.cases_head hx with heq | ⟨z, hxz, hz⟩
        · exact absurd heq hxu
        · obtain rfl : z = y := Option.some.inj (hxz.symm.trans hxy)
          exact hz
      · exact fun hy => Relation.ReflTransGen.head hxy hy
    show (if below y then _ else rank y) < (if below x then _ else rank x)
    by_cases hx : below x
    · rw [if_pos hx, if_pos (hiff.mp hx)]
      omega
    · rw [if_neg hx, if_neg fun hy => hx (hiff.mpr hy)]
      exact hlt

/-- One of those that wait on `t` takes over some of the others. -/
theorem Ranked.handOver [DecidableEq T] (h : Ranked owner) (hu : owner u = some t) (hnone : owner₁ u = none)
    (hsub : ∀ v w, owner₁ v = some w → owner v = some w ∨ (w = u ∧ owner v = some t)) : Ranked owner₁ := by
  obtain ⟨rank, hrank⟩ := h
  have htu := hrank u t hu
  refine ⟨update rank u (rank t), fun v w hvw => ?_⟩
  have hvu : v ≠ u := by
    intro heq
    rw [heq, hnone] at hvw
    cases hvw
  rw [update_of_ne hvu]
  rcases hsub v w hvw with hold | ⟨rfl, hold⟩
  · have hlt := hrank v w hold
    by_cases hwu : w = u
    · rw [hwu, update_self]
      rw [hwu] at hlt
      exact htu.trans hlt
    · rwa [update_of_ne hwu]
  · rw [update_self]
    exact hrank v t hold

end Inheritance
end Citron
