/-
# Checked computations

A computation on a state that may fault: what its value and the state are when it ends, and which faults it may have.
An access of an array at an index that the array does not have is a fault.
-/
import Mathlib

namespace Citron
namespace Lib

abbrev Checked (ε σ α : Type) : Type := StateT σ (Except ε) α

namespace Checked

variable {ε σ α β : Type} {n : ℕ}

/-- The end of a computation: a value and a state with `Q`, or a fault with `E`. -/
def Ends (x : Checked ε σ α) (s : σ) (Q : α → σ → Prop) (E : ε → Prop) : Prop :=
  match x s with
  | .ok (a, s') => Q a s'
  | .error fault => E fault

variable {x : Checked ε σ α} {f : α → Checked ε σ β} {s : σ} {P : α → σ → Prop} {Q : β → σ → Prop} {E : ε → Prop}

theorem Ends.pure {a : α} (h : P a s) : Ends (pure a : Checked ε σ α) s P E := h

theorem Ends.bind (h : Ends x s P E) (hf : ∀ a s', P a s' → Ends (f a) s' Q E) : Ends (x >>= f) s Q E := by
  unfold Ends at h ⊢
  change match (x s).bind fun r => f r.1 r.2 with | .ok (a, s') => Q a s' | .error fault => E fault
  cases hx : x s with
  | error fault => simpa [hx, Except.bind] using h
  | ok r =>
    rw [hx] at h
    exact hf r.1 r.2 h

theorem Ends.mono {P' : α → σ → Prop} {E' : ε → Prop} (h : Ends x s P E) (hP : ∀ a s', P a s' → P' a s')
    (hE : ∀ fault, E fault → E' fault) : Ends x s P' E' := by
  unfold Ends at h ⊢
  split at h
  · exact hP _ _ h
  · exact hE _ h

theorem Ends.get {R : σ → σ → Prop} (h : R s s) : Ends (get : Checked ε σ σ) s R E := h

theorem Ends.set {s' : σ} {R : PUnit → σ → Prop} (h : R ⟨⟩ s') : Ends (set s' : Checked ε σ PUnit) s R E := h

theorem Ends.throw {fault : ε} (h : E fault) : Ends (throw fault : Checked ε σ α) s P E := h

theorem bind_eq_ok {a : α} {s' : σ} (h : x s = .ok (a, s')) : (x >>= f) s = f a s' := by
  change (x s).bind (fun r => f r.1 r.2) = f a s'
  rw [h]
  rfl

theorem Ends.congr {y : Checked ε σ α} {s' : σ} (h : x s = y s') (hy : Ends y s' P E) : Ends x s P E := by
  unfold Ends at hy ⊢
  rwa [h]

/-! ### Arrays -/

/-- The element at an index; `outside` if there is none. -/
def readAt (outside : ε) (array : σ → Vector α n) (i : ℕ) : Checked ε σ α := do
  let s ← get
  if h : i < n then return (array s)[i] else throw outside

/-- The array with another element at an index; `outside` if there is none. -/
def writeAt (outside : ε) (array : σ → Vector α n) (store : σ → Vector α n → σ) (i : ℕ) (a : α) : Checked ε σ Unit := do
  let s ← get
  if h : i < n then set (store s ((array s).set i a)) else throw outside

theorem readAt_eq (outside : ε) (array : σ → Vector α n) {i : ℕ} (h : i < n) (s : σ) :
    readAt outside array i s = .ok ((array s)[i], s) := by
  simp [readAt, h]
  rfl

theorem writeAt_eq (outside : ε) (array : σ → Vector α n) (store : σ → Vector α n → σ) {i : ℕ} (h : i < n) (a : α) (s : σ) :
    writeAt outside array store i a s = .ok ((), store s ((array s).set i a)) := by
  simp [writeAt, h]
  rfl

end Checked
end Lib
end Citron
