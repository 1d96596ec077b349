/-
# Loops of copies

A memory is a function of its addresses. A loop that copies one piece after the other follows two
maps, from the number of a byte to the place it is written to and to the place it is read from.
-/
import Mathlib.Data.Set.Function
import Mathlib.Order.Interval.Set.Defs

namespace Citron
namespace Lib

variable {σ β : Type}

/-- `for (i = 0; i < n; ++i) s = body(i, s)`. -/
def countLoop (body : ℕ → σ → σ) : ℕ → σ → σ
  | 0, s => s
  | n + 1, s => body n (countLoop body n s)

theorem countLoop_rule {I : ℕ → σ → Prop} {body : ℕ → σ → σ} {n : ℕ} {s : σ} (h0 : I 0 s)
    (step : ∀ i < n, ∀ s, I i s → I (i + 1) (body i s)) : I n (countLoop body n s) := by
  induction n with
  | zero => exact h0
  | succ n ih =>
    apply step n (Nat.lt_succ_self n)
    exact ih fun i hi => step i (Nat.lt_succ_of_lt hi)

/-- `memcpy(&output[dst], &input[src], n)`. -/
def copyBytes (n dst src : ℕ) (input output : ℕ → β) : ℕ → β :=
  fun a => if dst ≤ a ∧ a < dst + n then input (src + (a - dst)) else output a

/-- The bytes before the `n`-th are copied, and no other place has changed. -/
structure Copied (dst src : ℕ → ℕ) (input start : ℕ → β) (n : ℕ) (output : ℕ → β) : Prop where
  copied : ∀ i < n, output (dst i) = input (src i)
  rest : ∀ a, (∀ i < n, dst i ≠ a) → output a = start a

variable {dst src : ℕ → ℕ} {input start output : ℕ → β} {n k d s : ℕ}

theorem Copied.zero : Copied dst src input output 0 output :=
  ⟨fun i hi => absurd hi (Nat.not_lt_zero i), fun _ _ => rfl⟩

/-- A piece is copied after those before it. -/
theorem Copied.copy (h : Copied dst src input start n output) (hinj : Set.InjOn dst (Set.Iio (n + k)))
    (hd : ∀ b < k, dst (n + b) = d + b) (hs : ∀ b < k, src (n + b) = s + b) :
    Copied dst src input start (n + k) (copyBytes k d s input output) := by
  refine ⟨fun i hi => ?_, fun a ha => ?_⟩
  · by_cases hin : n ≤ i
    · obtain ⟨b, rfl⟩ := Nat.exists_eq_add_of_le hin
      have hb : b < k := Nat.lt_of_add_lt_add_left hi
      rw [hd b hb, hs b hb, copyBytes, if_pos ⟨Nat.le_add_right d b, Nat.add_lt_add_left hb d⟩,
        Nat.add_sub_cancel_left]
    · have hlt : i < n := Nat.lt_of_not_le hin
      have hout : ¬(d ≤ dst i ∧ dst i < d + k) := by
        rintro ⟨hle, hlt'⟩
        obtain ⟨b, hb⟩ := Nat.exists_eq_add_of_le hle
        have hbk : b < k := by omega
        have heq : dst i = dst (n + b) := hb.trans (hd b hbk).symm
        have := hinj (Set.mem_Iio.mpr hi) (Set.mem_Iio.mpr (Nat.add_lt_add_left hbk n)) heq
        omega
      rw [copyBytes, if_neg hout]
      exact h.copied i hlt
  · have hout : ¬(d ≤ a ∧ a < d + k) := by
      rintro ⟨hle, hlt⟩
      obtain ⟨b, rfl⟩ := Nat.exists_eq_add_of_le hle
      have hb : b < k := Nat.lt_of_add_lt_add_left hlt
      exact ha (n + b) (Nat.add_lt_add_left hb n) (hd b hb)
    rw [copyBytes, if_neg hout]
    exact h.rest a fun i hi => ha i (Nat.lt_add_right k hi)

/-- What is copied there and back is what it was. -/
theorem Copied.back {start' output' : ℕ → β} (h : Copied dst src input start n output)
    (h' : Copied src dst output start' n output') {i : ℕ} (hi : i < n) : output' (src i) = input (src i) :=
  (h'.copied i hi).trans (h.copied i hi)

end Lib
end Citron
