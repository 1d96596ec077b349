/-
# While loops that may fail

A loop `while (cond) body` over a state, whose body may fail with a fault.
The loop runs on fuel, one unit for each turn, and running out is a fault of
its own (`oof`), so that no result below can hold because a loop never ends:
`whileLoop_spec` asks for a measure that every turn makes smaller and gives
back a final state.
-/
import Mathlib

namespace Citron
namespace Lib

variable {σ ε : Type*}

/-- `while (cond s) s = body s`, for at most `fuel` turns. -/
def whileLoop (oof : ε) (cond : σ → Bool) (body : σ → Except ε σ) : ℕ → σ → Except ε σ
  | 0, s => if cond s then .error oof else .ok s
  | fuel + 1, s => if cond s then body s >>= whileLoop oof cond body fuel else .ok s

variable {oof : ε} {cond : σ → Bool} {body : σ → Except ε σ}

theorem whileLoop_of_not {s : σ} (h : cond s = false) (fuel : ℕ) :
    whileLoop oof cond body fuel s = .ok s := by
  cases fuel <;> simp [whileLoop, h]

theorem whileLoop_turn {s s' : σ} (h : cond s = true) (hb : body s = .ok s') (fuel : ℕ) :
    whileLoop oof cond body (fuel + 1) s = whileLoop oof cond body fuel s' := by
  simp [whileLoop, h, hb, bind, Except.bind]

theorem whileLoop_fault {s : σ} {e : ε} (h : cond s = true) (hb : body s = .error e) (fuel : ℕ) :
    whileLoop oof cond body (fuel + 1) s = .error e := by
  simp [whileLoop, h, hb, bind, Except.bind]

/-- **The invariant rule.** If every turn from an invariant state succeeds,
keeps the invariant and makes the measure smaller, the loop ends in an
invariant state where its condition fails. -/
theorem whileLoop_spec (oof : ε) (cond : σ → Bool) (body : σ → Except ε σ) (I : σ → Prop) (μ : σ → ℕ)
    (turn : ∀ s, I s → cond s = true → ∃ s', body s = .ok s' ∧ I s' ∧ μ s' < μ s) :
    ∀ (fuel : ℕ) (s : σ), I s → μ s ≤ fuel →
      ∃ s', whileLoop oof cond body fuel s = .ok s' ∧ I s' ∧ cond s' = false := by
  intro fuel
  induction fuel with
  | zero =>
    intro s hI hμ
    cases hc : cond s with
    | false => exact ⟨s, whileLoop_of_not hc 0, hI, hc⟩
    | true =>
      obtain ⟨s', -, -, hlt⟩ := turn s hI hc
      omega
  | succ fuel ih =>
    intro s hI hμ
    cases hc : cond s with
    | false => exact ⟨s, whileLoop_of_not hc _, hI, hc⟩
    | true =>
      obtain ⟨s', hb, hI', hlt⟩ := turn s hI hc
      rw [whileLoop_turn hc hb]
      exact ih s' hI' (by omega)

/-- The invariant rule where a turn may also fail, with a fault that `Q` allows. -/
theorem whileLoop_spec_or (oof : ε) (cond : σ → Bool) (body : σ → Except ε σ) (I : σ → Prop) (Q : ε → Prop) (μ : σ → ℕ)
    (turn : ∀ s, I s → cond s = true → (∃ s', body s = .ok s' ∧ I s' ∧ μ s' < μ s) ∨ ∃ e, body s = .error e ∧ Q e) :
    ∀ (fuel : ℕ) (s : σ), I s → μ s < fuel →
      (∃ s', whileLoop oof cond body fuel s = .ok s' ∧ I s' ∧ cond s' = false) ∨
        ∃ e, whileLoop oof cond body fuel s = .error e ∧ Q e := by
  intro fuel
  induction fuel with
  | zero =>
    intro s _ hμ
    exact absurd hμ (Nat.not_lt_zero _)
  | succ fuel ih =>
    intro s hI hμ
    cases hc : cond s with
    | false => exact .inl ⟨s, whileLoop_of_not hc _, hI, hc⟩
    | true =>
      rcases turn s hI hc with ⟨s', hb, hI', hlt⟩ | ⟨e, hb, hQ⟩
      · rw [whileLoop_turn hc hb]
        exact ih s' hI' (by omega)
      · exact .inr ⟨e, whileLoop_fault hc hb fuel, hQ⟩

end Lib
end Citron
