/-
# Hash tables of chains

Keys are pushed one after the other, each in front of the chain of its bucket: it gets the head that the bucket has as its
successor, and becomes the head. So the chain of a bucket has the keys that were pushed there, the last one first
(`chained_pushKeys`).
-/
import Citron.Lib.Chains

namespace Citron
namespace Lib

open Function

variable {κ : Type*} {heads : ℕ → Option κ} {next : κ → Option κ} {keys : List (ℕ × κ)} {chain : ℕ → List κ}

/-- The heads of the buckets behind the keys, each with its bucket. -/
def pushKeys (heads : ℕ → Option κ) (keys : List (ℕ × κ)) : ℕ → Option κ :=
  keys.foldl (fun heads key => update heads key.1 (some key.2)) heads

/-- Every key has the head that its bucket had when the key was pushed as its successor. -/
def LinksPushed (next : κ → Option κ) : (ℕ → Option κ) → List (ℕ × κ) → Prop
  | _, [] => True
  | heads, key :: keys => next key.2 = heads key.1 ∧ LinksPushed next (update heads key.1 (some key.2)) keys

/-- The keys of a bucket, the last one first. -/
def keysOf (keys : List (ℕ × κ)) (b : ℕ) : List κ := ((keys.filter fun key => key.1 = b).map Prod.snd).reverse

theorem mem_keysOf {b : ℕ} {x : κ} : x ∈ keysOf keys b ↔ (b, x) ∈ keys := by
  simp [keysOf]

/-- **The chain of a bucket has the keys that were pushed there.** -/
theorem chained_pushKeys (hlinks : LinksPushed next heads keys) (h : ∀ b, Chained next (heads b) (chain b)) (b : ℕ) :
    Chained next (pushKeys heads keys b) (keysOf keys b ++ chain b) := by
  induction keys generalizing heads chain with
  | nil => exact h b
  | cons key keys ih =>
    obtain ⟨hnext, hlinks⟩ := hlinks
    have hpushed : ∀ c, Chained next (update heads key.1 (some key.2) c)
        (update chain key.1 (key.2 :: chain key.1) c) := by
      intro c
      rcases eq_or_ne c key.1 with rfl | hne
      · rw [update_self, update_self]
        exact ⟨rfl, by rw [hnext]; exact h key.1⟩
      · rw [update_of_ne hne, update_of_ne hne]
        exact h c
    have hrest := ih hlinks hpushed
    rcases eq_or_ne b key.1 with rfl | hne
    · rw [update_self] at hrest
      have hkeys : keysOf (key :: keys) key.1 = keysOf keys key.1 ++ [key.2] := by simp [keysOf]
      rw [hkeys, List.append_assoc]
      exact hrest
    · rw [update_of_ne hne] at hrest
      have hkeys : keysOf (key :: keys) b = keysOf keys b := by
        rw [keysOf, List.filter_cons_of_neg (by simpa using Ne.symm hne), keysOf]
      rw [hkeys]
      exact hrest

end Lib
end Citron
