/-
# Steps that succeed, fail or fault

A step takes a state to an outcome and a new state. A sequence of steps and a counted
loop stop at the first step that does not succeed, with the state as that step left it.
-/
import Mathlib.Order.Basic

namespace Citron

inductive Outcome
  | success
  | failure
  | fault
deriving DecidableEq, Repr

variable {σ : Type}

/-- Go on with `f` if the step before it succeeded. -/
def tryThen (x : Outcome × σ) (f : σ → Outcome × σ) : Outcome × σ :=
  match x with
  | (.success, s) => f s
  | (o, s) => (o, s)

/-- `body 0`, …, `body (n - 1)` in order. -/
def forRange (body : ℕ → σ → Outcome × σ) : ℕ → σ → Outcome × σ
  | 0, s => (.success, s)
  | n + 1, s => tryThen (forRange body n s) (body n)

@[simp] theorem tryThen_success (s : σ) (f : σ → Outcome × σ) : tryThen (.success, s) f = f s := rfl

theorem tryThen_of_ne {o : Outcome} (ho : o ≠ .success) (s : σ) (f : σ → Outcome × σ) : tryThen (o, s) f = (o, s) := by
  cases o with
  | success => exact absurd rfl ho
  | failure => rfl
  | fault => rfl

theorem tryThen_assoc (x : Outcome × σ) (f g : σ → Outcome × σ) :
    tryThen (tryThen x f) g = tryThen x fun s => tryThen (f s) g := by
  obtain ⟨o, s⟩ := x
  cases o <;> rfl

theorem tryThen_self (x : Outcome × σ) : tryThen x (fun s => (.success, s)) = x := by
  obtain ⟨o, s⟩ := x
  cases o <;> rfl

/-- A loop is the loop over its first steps and the loop over the others. -/
theorem forRange_add (body : ℕ → σ → Outcome × σ) (m n : ℕ) (s : σ) :
    forRange body (m + n) s = tryThen (forRange body m s) (forRange (fun i => body (m + i)) n) := by
  induction n with
  | zero => exact (tryThen_self _).symm
  | succ n ih =>
    change tryThen (forRange body (m + n) s) (body (m + n)) = _
    rw [ih, tryThen_assoc]
    rfl

/-- The rule of a loop: a step that succeeds keeps `P`, and one that does not leaves `Q`. -/
theorem forRange_rule {P : ℕ → σ → Prop} {Q : ℕ → Outcome → σ → Prop} {body : ℕ → σ → Outcome × σ} {n : ℕ} {s : σ}
    (hstep : ∀ i < n, ∀ s, P i s → (∃ s', body i s = (.success, s') ∧ P (i + 1) s') ∨
      ∃ o s', body i s = (o, s') ∧ o ≠ .success ∧ Q i o s') (hzero : P 0 s) :
    (∃ s', forRange body n s = (.success, s') ∧ P n s') ∨
      ∃ i < n, ∃ o s', forRange body n s = (o, s') ∧ o ≠ .success ∧ Q i o s' := by
  induction n with
  | zero => exact .inl ⟨s, rfl, hzero⟩
  | succ n ih =>
    rcases ih fun i hi => hstep i (Nat.lt_succ_of_lt hi) with ⟨s', hs', hP⟩ | ⟨i, hi, o, s', hs', ho, hQ⟩
    · rw [forRange, hs', tryThen_success]
      rcases hstep n (Nat.lt_succ_self n) s' hP with ⟨t, ht, hPt⟩ | ⟨o, t, ht, ho, hQ⟩
      · exact .inl ⟨t, ht, hPt⟩
      · exact .inr ⟨n, Nat.lt_succ_self n, o, t, ht, ho, hQ⟩
    · refine .inr ⟨i, Nat.lt_succ_of_lt hi, o, s', ?_, ho, hQ⟩
      rw [forRange, hs', tryThen_of_ne ho]

end Citron
