/-
# Copies of equal pieces

A loop that copies pieces of one size. Whatever the pieces are, each place has in the end what it had or a byte that was
copied to it; so if the loop copies along two given maps for all data, its own maps are these, as soon as they never
exceed them on one side.
-/
import Citron.Lib.Copies
import Mathlib.Algebra.BigOperators.Fin
import Mathlib.Algebra.Order.BigOperators.Group.Finset

namespace Citron
namespace Lib

open Finset

variable {σ β : Type} {size n m i : ℕ} {dst src dst' src' : ℕ → ℕ} {input start output : ℕ → β}

theorem countLoop_congr {body body' : ℕ → σ → σ} (h : ∀ i < n, ∀ s, body i s = body' i s) (s : σ) :
    countLoop body n s = countLoop body' n s := by
  induction n with
  | zero => rfl
  | succ n ih =>
    rw [countLoop, countLoop, ih fun i hi => h i (Nat.lt_succ_of_lt hi)]
    exact h n (Nat.lt_succ_self n) _

/-- Two loops in one another are one loop. -/
theorem countLoop_countLoop (body : ℕ → σ → σ) (n m : ℕ) (s : σ) :
    countLoop (fun i s => countLoop (fun j s => body (i * m + j) s) m s) n s = countLoop body (n * m) s := by
  induction n with
  | zero => rw [Nat.zero_mul, countLoop, countLoop]
  | succ n ih =>
    have hinner : ∀ k s, countLoop body (n * m + k) s =
        countLoop (fun j s => body (n * m + j) s) k (countLoop body (n * m) s) := by
      intro k s
      induction k with
      | zero => rfl
      | succ k ih => rw [← Nat.add_assoc, countLoop, ih, countLoop]
    rw [countLoop, ih, Nat.succ_mul, hinner]

/-- Each place has what it had before or one of the first `n` bytes copied to it. -/
def Traced (dst src : ℕ → ℕ) (input start : ℕ → β) (n : ℕ) (output : ℕ → β) : Prop :=
  ∀ a, output a = start a ∨ ∃ i < n, dst i = a ∧ output a = input (src i)

theorem Traced.zero : Traced dst src input start 0 start := fun _ => .inl rfl

theorem Traced.copy {k d s : ℕ} (h : Traced dst src input start n output) (hd : ∀ b < k, dst (n + b) = d + b)
    (hs : ∀ b < k, src (n + b) = s + b) : Traced dst src input start (n + k) (copyBytes k d s input output) := by
  intro a
  by_cases ha : d ≤ a ∧ a < d + k
  · obtain ⟨b, rfl⟩ := Nat.exists_eq_add_of_le ha.1
    have hb : b < k := Nat.lt_of_add_lt_add_left ha.2
    refine .inr ⟨n + b, Nat.add_lt_add_left hb n, hd b hb, ?_⟩
    rw [copyBytes, if_pos ha, hs b hb, Nat.add_sub_cancel_left]
  · rw [copyBytes, if_neg ha]
    rcases h a with hold | ⟨i, hi, hcopied⟩
    · exact .inl hold
    · exact .inr ⟨i, Nat.lt_add_right k hi, hcopied⟩

/-! ### Pieces -/

/-- The pieces before the `n`-th, each from `s` to `d`. -/
def copyPieces (size : ℕ) (d s : ℕ → ℕ) (input : ℕ → β) (n : ℕ) (start : ℕ → β) : ℕ → β :=
  countLoop (fun p output => copyBytes size (d p) (s p) input output) n start

/-- Where the bytes of the pieces are, when the pieces are at `d`. -/
def pieceMap (size : ℕ) (d : ℕ → ℕ) (i : ℕ) : ℕ := d (i / size) + i % size

variable {d s : ℕ → ℕ}

theorem pieceMap_add (p : ℕ) {b : ℕ} (hb : b < size) : pieceMap size d (p * size + b) = d p + b := by
  have hpos : 0 < size := by omega
  rw [pieceMap, Nat.mul_comm, Nat.mul_add_div hpos, Nat.div_eq_of_lt hb, Nat.mul_add_mod, Nat.mod_eq_of_lt hb,
    Nat.add_zero]

theorem copyPieces_copied (hinj : Set.InjOn (pieceMap size d) (Set.Iio (n * size))) :
    Copied (pieceMap size d) (pieceMap size s) input start (n * size) (copyPieces size d s input n start) := by
  apply countLoop_rule (I := fun p output => Copied (pieceMap size d) (pieceMap size s) input start (p * size) output)
  · rw [Nat.zero_mul]
    exact Copied.zero
  intro p hp output h
  rw [Nat.succ_mul]
  apply h.copy
  · apply hinj.mono
    rw [← Nat.succ_mul]
    exact Set.Iio_subset_Iio (Nat.mul_le_mul_right size hp)
  · exact fun b hb => pieceMap_add p hb
  · exact fun b hb => pieceMap_add p hb

theorem copyPieces_traced :
    Traced (pieceMap size d) (pieceMap size s) input start (n * size) (copyPieces size d s input n start) := by
  apply countLoop_rule (I := fun p output => Traced (pieceMap size d) (pieceMap size s) input start (p * size) output)
  · rw [Nat.zero_mul]
    exact Traced.zero
  intro p _ output h
  rw [Nat.succ_mul]
  exact h.copy (fun b hb => pieceMap_add p hb) fun b hb => pieceMap_add p hb

theorem Copied.congr (h : Copied dst src input start n output) (hdst : ∀ i < n, dst i = dst' i)
    (hsrc : ∀ i < n, src i = src' i) : Copied dst' src' input start n output := by
  refine ⟨fun i hi => ?_, fun a ha => h.rest a fun i hi => ?_⟩
  · rw [← hdst i hi, ← hsrc i hi]
    exact h.copied i hi
  · rw [hdst i hi]
    exact ha i hi

/-! ### The maps of a loop -/

section Maps

variable [Nontrivial β] {run : (ℕ → β) → (ℕ → β) → ℕ → β}
  (htraced : ∀ input start, Traced dst src input start n (run input start))
  (hcopied : ∀ input start, Copied dst' src' input start n (run input start))
include htraced hcopied

/-- A byte that comes out for all data was copied. -/
theorem exists_copy_of_copied (hi : i < n) : ∃ j < n, dst j = dst' i ∧ src j = src' i := by
  obtain ⟨x, y, hxy⟩ := exists_pair_ne β
  -- one value at the byte's source, the other everywhere else
  have hout := (hcopied (fun a => if a = src' i then x else y) fun _ => y).copied i hi
  rcases htraced (fun a => if a = src' i then x else y) (fun _ => y) (dst' i) with hold | ⟨j, hj, hdst, hval⟩
  · rw [hold, if_pos rfl] at hout
    exact absurd hout.symm hxy
  · refine ⟨j, hj, hdst, ?_⟩
    rw [hval, if_pos rfl] at hout
    by_contra hne
    exact hxy (hout.symm.trans (if_neg hne))

end Maps

/-- Maps that take the same pairs are equal, if one never exceeds the other's on a side where that is injective. -/
theorem maps_eq_of_le {a b a' b' : ℕ → ℕ} (hinj : Set.InjOn a' (Set.Iio n)) (hle : ∀ j < n, a j ≤ a' j)
    (hex : ∀ i < n, ∃ j < n, a j = a' i ∧ b j = b' i) : ∀ i < n, a i = a' i ∧ b i = b' i := by
  choose! f hf ha hb using hex
  -- the numbers are permuted, so both maps have the same sum
  have hfinj : Set.InjOn f (Finset.range n) := by
    intro i hi j hj hij
    have hi' := mem_range.mp hi
    have hj' := mem_range.mp hj
    apply hinj hi' hj'
    rw [← ha i hi', ← ha j hj', hij]
  have himage : (Finset.range n).image f = Finset.range n := by
    apply eq_of_subset_of_card_le
    · intro j hj
      obtain ⟨i, hi, rfl⟩ := mem_image.mp hj
      exact mem_range.mpr (hf i (mem_range.mp hi))
    · rw [card_image_of_injOn hfinj]
  have hsum : ∑ j ∈ Finset.range n, a j = ∑ i ∈ Finset.range n, a' i :=
    calc ∑ j ∈ Finset.range n, a j
        = ∑ j ∈ (Finset.range n).image f, a j := by rw [himage]
      _ = ∑ i ∈ Finset.range n, a (f i) := sum_image hfinj
      _ = ∑ i ∈ Finset.range n, a' i := sum_congr rfl fun i hi => ha i (mem_range.mp hi)
  have heq := (sum_eq_sum_iff_of_le fun j hj => hle j (mem_range.mp hj)).mp hsum
  intro i hi
  have hfi : f i = i := by
    apply hinj (hf i hi) hi
    rw [← heq (f i) (mem_range.mpr (hf i hi)), ha i hi]
  have hbi := hb i hi
  rw [hfi] at hbi
  exact ⟨heq i (mem_range.mpr hi), hbi⟩

/-- The pieces are copied along two maps, for all data, just when their own maps are these. -/
theorem copyPieces_copied_iff [Nontrivial β] (hdst : Set.InjOn dst' (Set.Iio (n * size)))
    (hsrc : Set.InjOn src' (Set.Iio (n * size)))
    (hle : (∀ i < n * size, pieceMap size d i ≤ dst' i) ∨ ∀ i < n * size, pieceMap size s i ≤ src' i) :
    (∀ input start : ℕ → β, Copied dst' src' input start (n * size) (copyPieces size d s input n start)) ↔
      ∀ i < n * size, pieceMap size d i = dst' i ∧ pieceMap size s i = src' i := by
  constructor
  · intro hcopied
    have hex : ∀ i < n * size, ∃ j < n * size, pieceMap size d j = dst' i ∧ pieceMap size s j = src' i :=
      fun i hi => exists_copy_of_copied (fun _ _ => copyPieces_traced) hcopied hi
    rcases hle with hle | hle
    · exact maps_eq_of_le hdst hle hex
    · have hswap := maps_eq_of_le hsrc hle fun i hi => (hex i hi).imp fun j hj => ⟨hj.1, hj.2.2, hj.2.1⟩
      exact fun i hi => (hswap i hi).symm
  · intro hmaps input start
    have hinj : Set.InjOn (pieceMap size d) (Set.Iio (n * size)) := hdst.congr fun i hi => (hmaps i hi).1.symm
    exact (copyPieces_copied hinj).congr (fun i hi => (hmaps i hi).1) fun i hi => (hmaps i hi).2

end Lib
end Citron
