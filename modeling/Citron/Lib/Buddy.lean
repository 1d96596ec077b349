/-
# Buddy blocks on several levels

Numbers (pages) in blocks of several sizes, each of which divides the next one.
A set of marks per level says which blocks are free. The marks are in order
(`Buddies`) if no page lies in two marked blocks, and no level has all the blocks
marked that make up a block of the next level. Marking a block, joining the blocks
that make up a larger one, and taking a mark away keep this.
-/
import Mathlib

namespace Citron
namespace Lib

open Function Set

/-- The sizes of the blocks: there are `levels` of them, each divides the next. -/
structure BlockSizes where
  levels : ℕ
  size : ℕ → ℕ
  pos : ∀ i, 0 < size i
  dvd : ∀ i, size i ∣ size (i + 1)

namespace BlockSizes

variable (S : BlockSizes)

/-- How many blocks make up one of the next level. -/
def ratio (i : ℕ) : ℕ := S.size (i + 1) / S.size i

/-- The pages of a block. -/
def block (i n : ℕ) : Set ℕ := {p | p / S.size i = n}

/-- The blocks that make up block `n` of the next level. -/
def parts (i n : ℕ) : Set ℕ := {m | m / S.ratio i = n}

/-- The pages of the marked blocks. -/
def pages (free : ℕ → Set ℕ) : Set ℕ := {p | ∃ i < S.levels, p / S.size i ∈ free i}

structure Buddies (free : ℕ → Set ℕ) : Prop where
  disjoint : ∀ p i j, i < S.levels → j < S.levels → p / S.size i ∈ free i → p / S.size j ∈ free j → i = j
  coalesced : ∀ i n, i + 1 < S.levels → ¬ S.parts i n ⊆ free i

variable {S} {free : ℕ → Set ℕ} {i j n m p : ℕ}

theorem ratio_mul (i : ℕ) : S.size i * S.ratio i = S.size (i + 1) := Nat.mul_div_cancel' (S.dvd i)

theorem ratio_pos (i : ℕ) : 0 < S.ratio i :=
  Nat.div_pos (Nat.le_of_dvd (S.pos _) (S.dvd i)) (S.pos i)

/-- The block of a page on the next level. -/
theorem div_div_ratio (p i : ℕ) : p / S.size i / S.ratio i = p / S.size (i + 1) := by
  rw [Nat.div_div_eq_div_mul, ratio_mul]

theorem mem_block : p ∈ S.block i n ↔ p / S.size i = n := Iff.rfl

theorem mem_parts : m ∈ S.parts i n ↔ m / S.ratio i = n := Iff.rfl

theorem mem_pages : p ∈ S.pages free ↔ ∃ i < S.levels, p / S.size i ∈ free i := Iff.rfl

theorem first_mem_block (i n : ℕ) : n * S.size i ∈ S.block i n := Nat.mul_div_cancel _ (S.pos i)

theorem block_eq_Ico (i n : ℕ) : S.block i n = Set.Ico (n * S.size i) ((n + 1) * S.size i) := by
  ext p
  rw [mem_block, mem_Ico, Nat.div_eq_iff (S.pos i), Nat.succ_mul]
  have := S.pos i
  omega

/-- A block of the next level is made up of its parts. -/
theorem mem_block_succ : p ∈ S.block (i + 1) n ↔ p / S.size i ∈ S.parts i n := by
  rw [mem_block, mem_parts, div_div_ratio]

theorem block_subset_succ (i n : ℕ) : S.block i n ⊆ S.block (i + 1) (n / S.ratio i) := by
  intro p hp
  rw [mem_block_succ, mem_parts, mem_block.mp hp]

theorem Buddies.of_subset {free' : ℕ → Set ℕ} (h : S.Buddies free) (hsub : ∀ i, free' i ⊆ free i) :
    S.Buddies free' where
  disjoint p i j hi hj h1 h2 := h.disjoint p i j hi hj (hsub i h1) (hsub j h2)
  coalesced i n hi hp := h.coalesced i n hi (hp.trans (hsub i))

theorem update_sdiff_subset (free : ℕ → Set ℕ) (i : ℕ) (t : Set ℕ) (j : ℕ) :
    update free i (free i \ t) j ⊆ free j := by
  by_cases hj : j = i
  · subst hj
    rw [update_self]
    exact sdiff_subset
  · rw [update_of_ne hj]

/-- Mark a block that has no free page and whose buddies are not all marked. -/
theorem Buddies.insert (h : S.Buddies free) (hi : i < S.levels) (hn : Disjoint (S.block i n) (S.pages free))
    (hb : i + 1 < S.levels → ¬ S.parts i (n / S.ratio i) ⊆ Insert.insert n (free i)) :
    S.Buddies (update free i (Insert.insert n (free i))) ∧
      S.pages (update free i (Insert.insert n (free i))) = S.pages free ∪ S.block i n := by
  have hmem : ∀ p j, p / S.size j ∈ update free i (Insert.insert n (free i)) j ↔
      p / S.size j ∈ free j ∨ (j = i ∧ p ∈ S.block i n) := by
    intro p j
    by_cases hj : j = i
    · subst hj
      rw [update_self, mem_insert_iff, mem_block]
      tauto
    · rw [update_of_ne hj]
      tauto
  refine ⟨⟨fun p j k hj hk h1 h2 => ?_, fun j m hj hp => ?_⟩, ?_⟩
  · rw [hmem] at h1 h2
    rcases h1 with h1 | ⟨rfl, h1⟩
    · rcases h2 with h2 | ⟨rfl, h2⟩
      · exact h.disjoint p j k hj hk h1 h2
      · exact absurd (mem_pages.mpr ⟨j, hj, h1⟩) (disjoint_left.mp hn h2)
    · rcases h2 with h2 | ⟨rfl, h2⟩
      · exact absurd (mem_pages.mpr ⟨k, hk, h2⟩) (disjoint_left.mp hn h1)
      · rfl
  · by_cases hji : j = i
    · subst hji
      rw [update_self] at hp
      by_cases hm : m = n / S.ratio j
      · exact hb hj (hm ▸ hp)
      · refine h.coalesced j m hj fun c hc => (hp hc).resolve_left ?_
        rintro rfl
        exact hm (mem_parts.mp hc).symm
    · rw [update_of_ne hji] at hp
      exact h.coalesced j m hj hp
  · ext p
    simp only [mem_union, mem_pages, hmem]
    constructor
    · rintro ⟨j, hj, h1 | ⟨rfl, h1⟩⟩
      · exact .inl ⟨j, hj, h1⟩
      · exact .inr h1
    · rintro (⟨j, hj, h1⟩ | h1)
      · exact ⟨j, hj, .inl h1⟩
      · exact ⟨i, hi, .inr ⟨rfl, h1⟩⟩

/-- Join the parts of a block of the next level, once the last of them is free. -/
theorem Buddies.join (h : S.Buddies free) (hi : i < S.levels) (hn : Disjoint (S.block i n) (S.pages free))
    (hb : S.parts i (n / S.ratio i) ⊆ Insert.insert n (free i)) :
    S.Buddies (update free i (free i \ S.parts i (n / S.ratio i))) ∧
      Disjoint (S.block (i + 1) (n / S.ratio i))
        (S.pages (update free i (free i \ S.parts i (n / S.ratio i)))) ∧
      S.pages (update free i (free i \ S.parts i (n / S.ratio i))) ∪
        S.block (i + 1) (n / S.ratio i) = S.pages free ∪ S.block i n := by
  have hsub := update_sdiff_subset free i (S.parts i (n / S.ratio i))
  have hpart : ∀ p ∈ S.block (i + 1) (n / S.ratio i), p ∈ S.block i n ∨ p / S.size i ∈ free i :=
    fun p hp => hb (mem_block_succ.mp hp)
  refine ⟨h.of_subset hsub, disjoint_left.mpr fun p hp hfree => ?_, ?_⟩
  · obtain ⟨j, hj, hfree⟩ := hfree
    by_cases hji : j = i
    · subst hji
      rw [update_self] at hfree
      exact hfree.2 (mem_block_succ.mp hp)
    · rw [update_of_ne hji] at hfree
      rcases hpart p hp with hp | hp
      · exact disjoint_left.mp hn hp ⟨j, hj, hfree⟩
      · exact hji (h.disjoint p j i hj hi hfree hp)
  · ext p
    constructor
    · rintro (⟨j, hj, hfree⟩ | hp)
      · exact .inl ⟨j, hj, hsub j hfree⟩
      · rcases hpart p hp with hp | hp
        · exact .inr hp
        · exact .inl ⟨i, hi, hp⟩
    · rintro (⟨j, hj, hfree⟩ | hp)
      · by_cases hji : j = i
        · subst hji
          by_cases hp : p / S.size j ∈ S.parts j (n / S.ratio j)
          · exact .inr (mem_block_succ.mpr hp)
          · refine .inl ⟨j, hj, ?_⟩
            rw [update_self]
            exact ⟨hfree, hp⟩
        · refine .inl ⟨j, hj, ?_⟩
          rwa [update_of_ne hji]
      · exact .inr (block_subset_succ i n hp)

/-- Take a mark away. -/
theorem Buddies.remove (h : S.Buddies free) (hi : i < S.levels) (hn : n ∈ free i) :
    S.Buddies (update free i (free i \ {n})) ∧
      S.pages (update free i (free i \ {n})) = S.pages free \ S.block i n ∧
      S.block i n ⊆ S.pages free := by
  refine ⟨h.of_subset (update_sdiff_subset free i {n}), ?_, fun p hp => ⟨i, hi, (mem_block.mp hp).symm ▸ hn⟩⟩
  ext p
  constructor
  · rintro ⟨j, hj, hfree⟩
    refine ⟨⟨j, hj, update_sdiff_subset free i {n} j hfree⟩, fun hp => ?_⟩
    have hji : j = i := h.disjoint p j i hj hi (update_sdiff_subset free i {n} j hfree)
      ((mem_block.mp hp).symm ▸ hn)
    subst hji
    rw [update_self] at hfree
    exact hfree.2 (mem_block.mp hp)
  · rintro ⟨⟨j, hj, hfree⟩, hp⟩
    refine ⟨j, hj, ?_⟩
    by_cases hji : j = i
    · subst hji
      rw [update_self]
      exact ⟨hfree, hp⟩
    · rwa [update_of_ne hji]

/-! ### Counting -/

/-- The pages of the marked blocks of one level. -/
theorem ncard_level (hf : (free i).Finite) :
    {p | p / S.size i ∈ free i}.Finite ∧ {p | p / S.size i ∈ free i}.ncard = (free i).ncard * S.size i := by
  have himage : {p | p / S.size i ∈ free i} =
      (fun x : ℕ × ℕ => x.1 * S.size i + x.2) '' (free i ×ˢ Set.Iio (S.size i)) := by
    ext p
    simp only [mem_ofPred_eq, mem_image, mem_prod, mem_Iio, Prod.exists]
    constructor
    · intro h
      exact ⟨p / S.size i, p % S.size i, ⟨h, Nat.mod_lt _ (S.pos i)⟩, Nat.div_add_mod' p (S.size i)⟩
    · rintro ⟨n, r, ⟨hn, hr⟩, rfl⟩
      rwa [Nat.mul_comm, Nat.mul_add_div (S.pos i), Nat.div_eq_of_lt hr, Nat.add_zero]
  have hinj : Set.InjOn (fun x : ℕ × ℕ => x.1 * S.size i + x.2) (free i ×ˢ Set.Iio (S.size i)) := by
    rintro ⟨n, r⟩ ⟨-, hr⟩ ⟨n', r'⟩ ⟨-, hr'⟩ heq
    simp only [mem_Iio] at hr hr' heq
    have h1 : (n * S.size i + r) / S.size i = n := by
      rw [Nat.mul_comm, Nat.mul_add_div (S.pos i), Nat.div_eq_of_lt hr, Nat.add_zero]
    have h2 : (n' * S.size i + r') / S.size i = n' := by
      rw [Nat.mul_comm, Nat.mul_add_div (S.pos i), Nat.div_eq_of_lt hr', Nat.add_zero]
    have hn : n = n' := by rw [← h1, ← h2, heq]
    subst hn
    rw [Prod.mk.injEq]
    exact ⟨rfl, by omega⟩
  rw [himage]
  refine ⟨(hf.prod (finite_Iio _)).image _, ?_⟩
  rw [Set.InjOn.ncard_image hinj, ncard_prod, ncard_Iio_nat]

/-- The number of free pages is the sum over the levels. -/
theorem Buddies.ncard_pages (h : S.Buddies free) (hf : ∀ i, (free i).Finite) :
    (S.pages free).ncard = ∑ i ∈ Finset.range S.levels, (free i).ncard * S.size i := by
  suffices ∀ k ≤ S.levels, {p | ∃ i < k, p / S.size i ∈ free i}.Finite ∧
      {p | ∃ i < k, p / S.size i ∈ free i}.ncard = ∑ i ∈ Finset.range k, (free i).ncard * S.size i from
    (this S.levels le_rfl).2
  intro k
  induction k with
  | zero => simp
  | succ k ih =>
    intro hk
    obtain ⟨hfin, hcard⟩ := ih (by omega)
    obtain ⟨hfin', hcard'⟩ := ncard_level (S := S) (hf k)
    have hunion : {p | ∃ i < k + 1, p / S.size i ∈ free i} =
        {p | ∃ i < k, p / S.size i ∈ free i} ∪ {p | p / S.size k ∈ free k} := by
      ext p
      simp only [mem_ofPred_eq, mem_union, Nat.lt_succ_iff_lt_or_eq, or_and_right, exists_or,
        exists_eq_left]
    have hdisj : Disjoint {p | ∃ i < k, p / S.size i ∈ free i} {p | p / S.size k ∈ free k} := by
      refine disjoint_left.mpr ?_
      rintro p ⟨i, hi, h1⟩ h2
      have := h.disjoint p i k (by omega) (by omega) h1 h2
      omega
    rw [hunion]
    refine ⟨hfin.union hfin', ?_⟩
    rw [ncard_union_eq hdisj hfin hfin', hcard, hcard', Finset.sum_range_succ]

end BlockSizes

end Lib
end Citron
