/-
# Reading from the front of a list

A scanner takes items off the front of a list, or fails. Built from `next`, `pure`, `failure`
and `bind` it is local: what it gives depends on the items it took, and on nothing after them.
-/
import Mathlib

namespace Citron
namespace Lib

abbrev Scanner (τ α : Type) : Type := StateT (List τ) Option α

namespace Scanner

variable {τ α β : Type}

def next : Scanner τ τ
  | [] => none
  | x :: xs => some (x, xs)

/-- The scanner takes some items off the front, and would take them off any list that starts so. -/
def Local (p : Scanner τ α) : Prop :=
  ∀ xs a rest, p xs = some (a, rest) → ∃ used, xs = used ++ rest ∧ ∀ more, p (used ++ more) = some (a, more)

theorem local_pure (a : α) : Local (pure a : Scanner τ α) := by
  intro xs b rest h
  cases h
  exact ⟨[], rfl, fun _ => rfl⟩

theorem local_failure : Local (failure : Scanner τ α) := by
  intro xs b rest h
  cases h

theorem local_next : Local (next : Scanner τ τ) := by
  intro xs b rest h
  cases xs with
  | nil => cases h
  | cons x xs =>
    cases h
    exact ⟨[b], rfl, fun _ => rfl⟩

variable {p : Scanner τ α} {q : α → Scanner τ β}

theorem bind_eq_some {xs rest : List τ} {b : β}
    (h : (p >>= q) xs = some (b, rest)) : ∃ a mid, p xs = some (a, mid) ∧ q a mid = some (b, rest) := by
  change (p xs).bind (fun x => q x.1 x.2) = some (b, rest) at h
  obtain ⟨⟨a, mid⟩, hp, hq⟩ := Option.bind_eq_some_iff.mp h
  exact ⟨a, mid, hp, hq⟩

theorem bind_of_eq_some {xs mid : List τ} {a : α} (h : p xs = some (a, mid)) :
    (p >>= q) xs = q a mid := by
  change (p xs).bind (fun x => q x.1 x.2) = q a mid
  rw [h]
  rfl

theorem local_bind (hp : Local p) (hq : ∀ a, Local (q a)) : Local (p >>= q) := by
  intro xs b rest h
  obtain ⟨a, mid, h1, h2⟩ := bind_eq_some h
  obtain ⟨used, rfl, hu⟩ := hp _ _ _ h1
  obtain ⟨used', rfl, hu'⟩ := hq a _ _ _ h2
  refine ⟨used ++ used', (List.append_assoc _ _ _).symm, fun more => ?_⟩
  rw [List.append_assoc, bind_of_eq_some (hu _), hu']

/-- A scanner that starts with an item takes at least one. -/
theorem length_lt_of_next_bind {q : τ → Scanner τ β} (hq : ∀ a, Local (q a)) {xs rest : List τ} {b : β}
    (h : (next >>= q) xs = some (b, rest)) : rest.length < xs.length := by
  obtain ⟨a, mid, h1, h2⟩ := bind_eq_some h
  obtain ⟨used, rfl, -⟩ := hq a _ _ _ h2
  cases xs with
  | nil => cases h1
  | cons x xs =>
    cases h1
    rw [List.length_cons, List.length_append]
    omega

/-! ### What a scanner gives -/

def Gives (P : α → Prop) (p : Scanner τ α) : Prop := ∀ xs a rest, p xs = some (a, rest) → P a

variable {P : α → Prop}

theorem gives_pure {a : α} (h : P a) : Gives P (pure a : Scanner τ α) := by
  intro xs b rest hb
  cases hb
  exact h

theorem gives_failure : Gives P (failure : Scanner τ α) := by
  intro xs b rest h
  cases h

theorem gives_bind {p : Scanner τ β} {q : β → Scanner τ α} (hq : ∀ b, Gives P (q b)) : Gives P (p >>= q) := by
  intro xs a rest h
  obtain ⟨b, mid, -, h2⟩ := bind_eq_some h
  exact hq b mid a rest h2

end Scanner

end Lib
end Citron
