/-
# Pages and references

What a manager says of the pages of its region (`Impl.State`): which of them are free,
and how many references each has. `Free`, `Open`, `Close` and the allocations of a
manager change this for the pages of their range.
-/
import Citron.Kernel.MemoryManager

namespace Citron
namespace Kernel

open KPageHeap Option Set

/-! ### Pages -/

theorem pageRange_mul (a b : ℕ) : pageRange (a * PageSize) (b * PageSize) = Set.Ico a b := by
  ext p
  simp only [mem_pageRange, mem_Ico, PageSize]
  omega

theorem pageRange_block (a n : ℕ) : pageRange (a * PageSize) (a * PageSize + n * PageSize) = Set.Ico a (a + n) := by
  rw [← Nat.add_mul, pageRange_mul]

/-- The region of a manager, in pages. -/
structure Extent where
  base : ℕ
  len : ℕ
  pool : Pool
deriving DecidableEq, Repr

def Extent.pages (e : Extent) : Set ℕ := Set.Ico e.base (e.base + e.len)

/-- One more reference to the pages of a range. -/
def addRefs (refs : ℕ → ℕ) (a b p : ℕ) : ℕ := if a ≤ p ∧ p < b then refs p + 1 else refs p

/-- One reference less. -/
def dropRefs (refs : ℕ → ℕ) (a b p : ℕ) : ℕ := if a ≤ p ∧ p < b then refs p - 1 else refs p

/-- The pages of a range that lose their last reference. -/
def lastRefs (refs : ℕ → ℕ) (a b : ℕ) : Set ℕ := {p | a ≤ p ∧ p < b ∧ refs p = 1}

theorem addRefs_add (refs : ℕ → ℕ) (a k n : ℕ) :
    addRefs (addRefs refs a (a + k)) (a + k) (a + k + n) = addRefs refs a (a + (n + k)) := by
  funext p
  unfold addRefs
  split_ifs <;> omega

theorem dropRefs_add (refs : ℕ → ℕ) (a k n : ℕ) :
    dropRefs (dropRefs refs a (a + k)) (a + k) (a + k + n) = dropRefs refs a (a + (n + k)) := by
  funext p
  unfold dropRefs
  split_ifs <;> omega

theorem lastRefs_add (refs : ℕ → ℕ) (a k n : ℕ) :
    lastRefs refs a (a + (n + k)) = lastRefs refs a (a + k) ∪
      lastRefs (dropRefs refs a (a + k)) (a + k) (a + k + n) := by
  ext p
  simp only [lastRefs, dropRefs, mem_union, mem_ofPred_eq]
  constructor
  · rintro ⟨h1, h2, h3⟩
    by_cases hp : p < a + k
    · exact .inl ⟨h1, hp, h3⟩
    · exact .inr ⟨by omega, by omega, by rwa [if_neg (by omega)]⟩
  · rintro (⟨h1, h2, h3⟩ | ⟨h1, h2, h3⟩)
    · exact ⟨h1, by omega, h3⟩
    · rw [if_neg (by omega)] at h3
      exact ⟨by omega, by omega, h3⟩

variable {σ : Type}

/-- The manager has the region, the free pages and the reference counts. -/
structure Impl.State (m : Impl σ) (e : Extent) (free : Set ℕ) (refs : ℕ → ℕ) : Prop where
  inv : m.heap.Inv
  address : m.heap.heapAddress = e.base * PageSize
  size : m.heap.heapSize = e.len * PageSize
  pool : m.pool = e.pool
  free : m.heap.freePages = free
  length : m.pageReferenceCounts.length = e.len
  counts : ∀ i < e.len, m.pageReferenceCounts[i]? = some (refs (e.base + i))

namespace Impl

section State

variable {m : Impl σ} {e : Extent} {F S : Set ℕ} {refs : ℕ → ℕ} {a n i : ℕ}

section

variable (h : m.State e F refs)
include h

theorem State.region : m.heap.region = e.pages := by
  unfold KPageHeap.region Extent.pages
  rw [h.address, h.size, pageRange_block]

theorem State.endAddress : m.getEndAddress = (e.base + e.len) * PageSize := by
  unfold getEndAddress
  rw [h.address, h.size, Nat.add_mul]

theorem State.pageOffset (a : ℕ) : m.getPageOffset (a * PageSize) = a - e.base := by
  unfold getPageOffset
  rw [h.address, ← Nat.sub_mul, Nat.mul_div_cancel _ (by decide)]

theorem State.pageOffsetToEnd (a : ℕ) :
    m.getPageOffsetToEnd (a * PageSize) = e.base + e.len - a := by
  unfold getPageOffsetToEnd
  rw [h.endAddress, ← Nat.sub_mul, Nat.mul_div_cancel _ (by decide)]

/-- A manager says nothing of the references of other pages. -/
theorem State.congr {G : Set ℕ} {refs₁ : ℕ → ℕ} (hF : F = G)
    (hr : ∀ p ∈ e.pages, refs p = refs₁ p) : m.State e G refs₁ := by
  refine ⟨h.inv, h.address, h.size, h.pool, h.free.trans hF, h.length, fun i hi => ?_⟩
  rw [h.counts i hi, hr _ ⟨Nat.le_add_right .., Nat.add_lt_add_left hi _⟩]

/-- Another heap of the same region. -/
theorem State.withHeap {heap : KPageHeap σ} (hinv : heap.Inv)
    (ha : heap.heapAddress = m.heap.heapAddress) (hs : heap.heapSize = m.heap.heapSize) :
    Impl.State { m with heap } e heap.freePages refs :=
  ⟨hinv, ha.trans h.address, hs.trans h.size, h.pool, rfl, h.length, h.counts⟩

theorem State.held (hin : S ⊆ e.pages) (hout : Disjoint S F) : m.heap.Held S :=
  ⟨h.region.symm ▸ hin, h.free.symm ▸ hout⟩

end

end State

variable {m : Impl σ} {e : Extent} {F : Set ℕ} {refs : ℕ → ℕ} {a n : ℕ}

/-! ### The heap -/

theorem State.freeHeap (h : m.State e F refs) (hin : Set.Ico a (a + n) ⊆ e.pages)
    (hout : Disjoint (Set.Ico a (a + n)) F) :
    ∃ heap, m.heap.free (a * PageSize) n = some heap ∧
      Impl.State { m with heap } e (F ∪ Set.Ico a (a + n)) refs := by
  have hheld := h.held hin hout
  rw [← pageRange_block] at hheld
  obtain ⟨heap, hrun, hf⟩ := free_spec h.inv (Nat.dvd_mul_left ..) hheld
  refine ⟨heap, hrun, (h.withHeap hf.inv hf.address hf.size).congr ?_ fun _ _ => rfl⟩
  rw [hf.pages, h.free, pageRange_block]

theorem State.freeRange (h : m.State e F refs) (hin : Set.Ico a (a + n) ⊆ e.pages)
    (hout : Disjoint (Set.Ico a (a + n)) F) :
    ∃ m₁, m.free (a * PageSize) n = some m₁ ∧ m₁.State e (F ∪ Set.Ico a (a + n)) refs := by
  obtain ⟨heap, hrun, hst⟩ := h.freeHeap hin hout
  refine ⟨{ m with heap }, ?_, hst⟩
  unfold Impl.free
  rw [hrun]
  rfl

/-- An allocation takes free pages, or none. -/
theorem State.takes {heap : KPageHeap σ} {align addr : ℕ} (h : m.State e F refs) (hd : PageSize ∣ align)
    (ha : Allocates m.heap (n * PageSize) align addr heap) :
    (addr = 0 ∧ Impl.State { m with heap } e F refs) ∨
      ∃ a, 0 < a ∧ addr = a * PageSize ∧ Set.Ico a (a + n) ⊆ F ∧
        Impl.State { m with heap } e (F \ Set.Ico a (a + n)) refs := by
  rcases ha with ⟨h0, ht⟩ | ⟨hne, hdvd, ht⟩
  · refine .inl ⟨h0, (h.withHeap ht.inv ht.address ht.size).congr ?_ fun _ _ => rfl⟩
    rw [ht.pages, h.free, sdiff_empty]
  · obtain ⟨a, rfl⟩ := hd.trans hdvd
    rw [Nat.mul_comm] at hne ht
    refine .inr ⟨a, Nat.pos_of_mul_pos_right (Nat.pos_of_ne_zero hne), Nat.mul_comm .., ?_, ?_⟩
    · have := ht.sub
      rwa [pageRange_block, h.free] at this
    · refine (h.withHeap ht.inv ht.address ht.size).congr ?_ fun _ _ => rfl
      rw [ht.pages, h.free, pageRange_block]

theorem State.allocateBlock [TinyMT σ] {i : ℕ} (h : m.State e F refs) (hi : i < 7) (random : Bool) :
    ∃ addr heap, m.heap.allocateBlock i random = some (addr, heap) ∧
      ((addr = 0 ∧ Impl.State { m with heap } e F refs) ∨
        ∃ a, 0 < a ∧ addr = a * PageSize ∧ Set.Ico a (a + KMemoryManager.getBlockNumPages i) ⊆ F ∧
          Impl.State { m with heap } e (F \ Set.Ico a (a + KMemoryManager.getBlockNumPages i)) refs) := by
  obtain ⟨addr, heap, hrun, ha⟩ := h.inv.allocateBlock hi random
  have hbytes : bytes i = KMemoryManager.getBlockNumPages i * PageSize :=
    (Nat.div_mul_cancel (pageSize_dvd_bytes i)).symm
  refine ⟨addr, heap, hrun, h.takes (pageSize_dvd_bytes i) ?_⟩
  rwa [← hbytes]

/-- The alignment counts by its power of two only. -/
theorem countrZero_mul_odd {k j : ℕ} (hk : 2 ^ k * (2 * j + 1) < 2 ^ 64) :
    countrZero (BitVec.ofNat 64 (2 ^ k * (2 * j + 1))) = k := by
  have hk64 : k < 64 := by
    refine (Nat.pow_lt_pow_iff_right (by decide : 1 < 2)).mp (lt_of_le_of_lt ?_ hk)
    exact Nat.le_mul_of_pos_right _ (Nat.succ_pos _)
  have hfind : (List.range 64).find? (BitVec.ofNat 64 (2 ^ k * (2 * j + 1))).getLsbD = some k := by
    rw [List.find?_range_eq_some]
    refine ⟨?_, List.mem_range.mpr hk64, fun i hi => ?_⟩
    · rw [BitVec.getLsbD_ofNat, Nat.testBit_two_pow_mul, Nat.sub_self, Nat.testBit_zero]
      simpa using hk64
    · rw [BitVec.getLsbD_ofNat, Nat.testBit_two_pow_mul]
      simp only [ge_iff_le, not_le.mpr hi, decide_false, Bool.false_and, Bool.and_false, Bool.not_false]
  rw [countrZero, hfind, getD_some]

theorem State.allocateAligned [TinyMT σ] {align i : ℕ} (h : m.State e F refs) (ha : 0 < align)
    (hi : getAlignedBlockIndex n align = some i) :
    ∃ addr heap, m.heap.allocateAligned i n align = some (addr, heap) ∧
      ((addr = 0 ∧ Impl.State { m with heap } e F refs) ∨
        ∃ a, 0 < a ∧ addr = a * PageSize ∧ Set.Ico a (a + n) ⊆ F ∧
          Impl.State { m with heap } e (F \ Set.Ico a (a + n)) refs) := by
  obtain ⟨k, odd, ⟨j, rfl⟩, rfl⟩ := Nat.exists_eq_two_pow_mul_odd ha.ne'
  obtain ⟨hi7, hneeded, halign⟩ := getAlignedBlockIndex_spec hi
  have hbytes : bytes i = 2 ^ shiftOf i := Nat.one_shiftLeft _
  have hshift := shiftOf_lt i
  have hpow : 2 ^ k * PageSize = 2 ^ (k + 12) := by
    rw [pow_add]
    rfl
  have hmul : 2 ^ k * (2 * j + 1) * PageSize = 2 ^ (k + 12) * (2 * j + 1) := by
    rw [Nat.mul_right_comm, hpow]
  rw [hmul] at halign
  have hlt : 2 ^ (k + 12) * (2 * j + 1) < 2 ^ 64 := by
    refine lt_of_le_of_lt halign ?_
    rw [hbytes]
    exact Nat.pow_lt_pow_right (by decide) hshift
  have hle : k + 12 ≤ shiftOf i := by
    rw [hbytes] at halign
    exact (Nat.pow_le_pow_iff_right (by decide)).mp
      ((Nat.le_mul_of_pos_right _ (Nat.succ_pos _)).trans halign)
  have hd : 2 ^ k * PageSize ∣ bytes i := by
    rw [hpow, hbytes]
    exact pow_dvd_pow 2 hle
  obtain ⟨addr, heap, hrun, hall⟩ := h.inv.allocateByRandom hi7 hneeded hpow (by omega) hd
  refine ⟨addr, heap, ?_, h.takes (Nat.dvd_mul_left ..) hall⟩
  have hz : countrZero (BitVec.ofNat 64 (2 ^ k * (2 * j + 1) * PageSize)) =
      countrZero (BitVec.ofNat 64 (2 ^ k * PageSize)) := by
    rw [hmul, countrZero_mul_odd hlt, hpow, countrZero_twoPow (by omega)]
  have hsame : m.heap.allocateByRandom i n (2 ^ k * (2 * j + 1)) = m.heap.allocateByRandom i n (2 ^ k) := by
    unfold KPageHeap.allocateByRandom
    simp only [hz]
  exact hsame.trans hrun

/-! ### The counts -/

/-- The counts after one of them is set. -/
theorem State.setCount (h : m.State e F refs) {c : ℕ} (h1 : e.base ≤ a) (h2 : a < e.base + e.len)
    {refs₁ : ℕ → ℕ} (hc : refs₁ a = c) (hr : ∀ p, p ≠ a → refs₁ p = refs p) :
    Impl.State { m with pageReferenceCounts := m.pageReferenceCounts.set (a - e.base) c } e F refs₁ := by
  refine ⟨h.inv, h.address, h.size, h.pool, h.free, (List.length_set ..).trans h.length, fun i hi => ?_⟩
  have hlt : a - e.base < m.pageReferenceCounts.length := by
    rw [h.length]
    omega
  by_cases hia : a - e.base = i
  · subst hia
    rw [List.getElem?_set_self hlt, Nat.add_sub_cancel' h1, hc]
  · rw [List.getElem?_set_ne hia, h.counts i hi, hr]
    omega

theorem State.getCount (h : m.State e F refs) (h1 : e.base ≤ a) (h2 : a < e.base + e.len) :
    m.pageReferenceCounts[a - e.base]? = some (refs a) := by
  rw [h.counts _ (by omega), Nat.add_sub_cancel' h1]

theorem State.openFrom (h : m.State e F refs) (h1 : e.base ≤ a) (h2 : a + n ≤ e.base + e.len)
    (hc : ∀ p, a ≤ p → p < a + n → refs p + 1 < 65536) :
    ∃ m₁, m.openFrom (a - e.base) n = some m₁ ∧ m₁.State e F (addRefs refs a (a + n)) := by
  induction n generalizing m refs a with
  | zero =>
    refine ⟨m, rfl, h.congr rfl fun p _ => ?_⟩
    unfold addRefs
    rw [if_neg (by omega)]
  | succ n ih =>
    have hone : addRefs refs a (a + 1) a = refs a + 1 := if_pos ⟨le_rfl, Nat.lt_succ_self a⟩
    have hset := h.setCount h1 (by omega) hone fun p hp => if_neg (by omega)
    have hbase : a - e.base + 1 = a + 1 - e.base := (Nat.sub_add_comm h1).symm
    obtain ⟨m₁, hrun, hst⟩ := ih (a := a + 1) hset (by omega) (by omega) fun p hp1 hp2 => by
      unfold addRefs
      rw [if_neg (by omega)]
      exact hc p (by omega) (by omega)
    refine ⟨m₁, ?_, ?_⟩
    · unfold Impl.openFrom
      rw [h.getCount h1 (by omega), bind_eq_bind, bind_some, incU16_of_lt (hc a le_rfl (by omega)),
        hbase]
      exact hrun
    · rwa [addRefs_add] at hst

theorem State.openPages (h : m.State e F refs) (hin : Set.Ico a (a + n) ⊆ e.pages) (hn : 0 < n)
    (hc : ∀ p, a ≤ p → p < a + n → refs p + 1 < 65536) :
    ∃ m₁, m.openPages (a * PageSize) n = some m₁ ∧ m₁.State e F (addRefs refs a (a + n)) := by
  have h1 := hin (show a ∈ Set.Ico a (a + n) from ⟨le_rfl, by omega⟩)
  have h2 := hin (show a + n - 1 ∈ Set.Ico a (a + n) from ⟨by omega, by omega⟩)
  have h3 := h2.2
  unfold Impl.openPages
  rw [h.pageOffset]
  exact h.openFrom h1.1 (by omega) hc

/-! ### Close -/

/-- What holds in the loop of `Close` at a page: the pages found with no reference in a
row end there, and are not free yet. -/
structure CloseInv (s : CloseState σ) (e : Extent) (F : Set ℕ) (refs : ℕ → ℕ) (a : ℕ) : Prop where
  state : s.impl.State e F refs
  start : 0 < s.freeCount → e.base + s.freeStart + s.freeCount = a
  pending : Disjoint (Set.Ico (a - s.freeCount) a) F
  inside : Set.Ico (a - s.freeCount) a ⊆ e.pages

theorem CloseInv.flush [TinyMT σ] {s : CloseState σ} (h : CloseInv s e F refs a) :
    ∃ s₁, Impl.flush s = some s₁ ∧ s₁.freeCount = 0 ∧
      s₁.impl.State e (F ∪ Set.Ico (a - s.freeCount) a) refs := by
  unfold Impl.flush
  by_cases hc : 0 < s.freeCount
  · have hstart := h.start hc
    have ha : a - s.freeCount = e.base + s.freeStart := by omega
    have hend : a = e.base + s.freeStart + s.freeCount := hstart.symm
    have hpending := h.pending
    have hinside := h.inside
    rw [ha] at hpending hinside ⊢
    rw [hend] at hpending hinside ⊢
    obtain ⟨m₁, hrun, hst⟩ := h.state.freeRange hinside hpending
    refine ⟨{ s with impl := m₁, freeCount := 0 }, ?_, rfl, hst⟩
    rw [if_pos hc, h.state.address, ← Nat.add_mul, hrun]
    rfl
  · have h0 : s.freeCount = 0 := by omega
    refine ⟨s, if_neg hc, h0, h.state.congr ?_ fun _ _ => rfl⟩
    rw [h0, Nat.sub_zero, Set.Ico_self, union_empty]

/-- The loop of `Close` frees the pages that lose their last reference. -/
theorem CloseInv.closeFrom [TinyMT σ] : ∀ {n : ℕ} {s : CloseState σ} {F : Set ℕ} {refs : ℕ → ℕ} {a : ℕ},
    CloseInv s e F refs a → e.base ≤ a → a + n ≤ e.base + e.len →
    (∀ p, a ≤ p → p < a + n → 0 < refs p ∧ p ∉ F) →
    ∃ s₁ s₂, Impl.closeFrom s (a - e.base) n = some s₁ ∧ Impl.flush s₁ = some s₂ ∧
      s₂.impl.State e (F ∪ Set.Ico (a - s.freeCount) a ∪ lastRefs refs a (a + n)) (dropRefs refs a (a + n)) := by
  intro n
  induction n with
  | zero =>
    intro s F refs a h h1 h2 hp
    obtain ⟨s₁, hrun, -, hst⟩ := h.flush
    refine ⟨s, s₁, rfl, hrun, hst.congr ?_ fun p _ => ?_⟩
    · have hnil : lastRefs refs a (a + 0) = ∅ := by
        ext p
        simp only [lastRefs, mem_ofPred_eq, mem_empty_iff_false, iff_false]
        omega
      rw [hnil, union_empty]
    · unfold dropRefs
      rw [if_neg (by omega)]
  | succ n ih =>
    intro s F refs a h h1 h2 hp
    obtain ⟨hpos, hF⟩ := hp a le_rfl (by omega)
    have hone : dropRefs refs a (a + 1) a = refs a - 1 := if_pos ⟨le_rfl, Nat.lt_succ_self a⟩
    have hset := h.state.setCount h1 (by omega) hone fun p hp => if_neg (by omega)
    have hbase : a - e.base + 1 = a + 1 - e.base := (Nat.sub_add_comm h1).symm
    have hdec : decU16 (refs a) = refs a - 1 := if_neg (by omega)
    have hrest : ∀ p, a + 1 ≤ p → p < a + 1 + n → 0 < dropRefs refs a (a + 1) p ∧ p ∉ F := by
      intro p hp1 hp2
      unfold dropRefs
      rw [if_neg (by omega)]
      exact hp p (by omega) (by omega)
    unfold Impl.closeFrom
    simp only [h.state.getCount h1 (show a < e.base + e.len by omega), bind_eq_bind, bind_some, hdec,
      hbase]
    rw [lastRefs_add, ← dropRefs_add refs a 1 n, ← union_assoc]
    by_cases hlast : refs a - 1 = 0
    · -- the page is one more of the row, or begins a new one
      have hrow : ∀ k, k ≤ a → Disjoint (Set.Ico k a) F → Set.Ico k a ⊆ e.pages →
          Disjoint (Set.Ico k (a + 1)) F ∧ Set.Ico k (a + 1) ⊆ e.pages := by
        intro k hk hd hs
        rw [← Set.Ico_union_Ico_eq_Ico hk (Nat.le_succ a)]
        have ha : Set.Ico a (a + 1) = {a} := by
          ext p
          simp only [mem_Ico, mem_singleton_iff]
          omega
        rw [ha]
        refine ⟨hd.union_left (disjoint_singleton_left.mpr hF), union_subset hs ?_⟩
        rw [singleton_subset_iff]
        exact ⟨h1, by omega⟩
      have hsets : F ∪ Set.Ico (a - s.freeCount) a ∪ lastRefs refs a (a + 1) =
          F ∪ Set.Ico (a - s.freeCount) (a + 1) := by
        ext p
        simp only [lastRefs, mem_union, mem_Ico, mem_ofPred_eq]
        constructor
        · rintro ((hp | hp) | ⟨hp1, hp2, -⟩)
          · exact .inl hp
          · exact .inr (by omega)
          · exact .inr (by omega)
        · rintro (hp | hp)
          · exact .inl (.inl hp)
          · by_cases hpa : p = a
            · subst hpa
              exact .inr ⟨le_rfl, Nat.lt_succ_self _, by omega⟩
            · exact .inl (.inr (by omega))
      obtain ⟨hd, hs⟩ := hrow _ (Nat.sub_le ..) h.pending h.inside
      rw [if_pos hlast, hsets]
      by_cases hc : 0 < s.freeCount
      · rw [if_pos hc]
        have hstart := h.start hc
        have hcount : a + 1 - (s.freeCount + 1) = a - s.freeCount := by omega
        obtain ⟨s₁, s₂, hrun, hflush, hst⟩ := ih (a := a + 1) (s := ⟨_, s.freeStart, s.freeCount + 1⟩)
          ⟨hset, fun _ => by simp only; omega, by simpa only [hcount] using hd, by simpa only [hcount] using hs⟩
          (by omega) (by omega) hrest
        simp only [hcount] at hst
        exact ⟨s₁, s₂, hrun, hflush, hst⟩
      · rw [if_neg hc]
        have h0 : s.freeCount = 0 := by omega
        rw [h0, Nat.sub_zero] at hd hs ⊢
        obtain ⟨s₁, s₂, hrun, hflush, hst⟩ := ih (a := a + 1) (s := ⟨_, a - e.base, 1⟩)
          ⟨hset, fun _ => by simp only; omega, by simpa only [Nat.add_sub_cancel] using hd,
            by simpa only [Nat.add_sub_cancel] using hs⟩ (by omega) (by omega) hrest
        exact ⟨s₁, s₂, hrun, hflush, hst⟩
    · rw [if_neg hlast]
      obtain ⟨s₁, hrun₁, hcount, hst₁⟩ := CloseInv.flush (s := ⟨_, s.freeStart, s.freeCount⟩)
        ⟨hset, h.start, h.pending, h.inside⟩
      have hnone : lastRefs refs a (a + 1) = ∅ := by
        ext p
        simp only [lastRefs, mem_ofPred_eq, mem_empty_iff_false, iff_false]
        rintro ⟨hp1, hp2, hp3⟩
        obtain rfl : p = a := by omega
        omega
      have hnil : Set.Ico (a + 1 - s₁.freeCount) (a + 1) = ∅ := by
        rw [hcount, Nat.sub_zero, Set.Ico_self]
      obtain ⟨s₂, s₃, hrun₂, hflush, hst₂⟩ := ih (a := a + 1) (s := s₁) ⟨hst₁, fun hc => by omega,
        by rw [hnil]; exact empty_disjoint _, by rw [hnil]; exact empty_subset _⟩ (by omega) (by omega)
        fun p hp1 hp2 => ⟨(hrest p hp1 hp2).1, fun hmem => by
          rcases hmem with hmem | hmem
          · exact (hrest p hp1 hp2).2 hmem
          · have := hmem.2
            omega⟩
      refine ⟨s₂, s₃, ?_, hflush, hst₂.congr ?_ fun _ _ => rfl⟩
      · rw [hrun₁, bind_some]
        exact hrun₂
      · rw [hnil, hnone, union_empty]

theorem State.close [TinyMT σ] (h : m.State e F refs) (hin : Set.Ico a (a + n) ⊆ e.pages) (hn : 0 < n)
    (hp : ∀ p, a ≤ p → p < a + n → 0 < refs p ∧ p ∉ F) :
    ∃ m₁, m.close (a * PageSize) n = some m₁ ∧
      m₁.State e (F ∪ lastRefs refs a (a + n)) (dropRefs refs a (a + n)) := by
  have h1 := hin (show a ∈ Set.Ico a (a + n) from ⟨le_rfl, by omega⟩)
  have h2 := hin (show a + n - 1 ∈ Set.Ico a (a + n) from ⟨by omega, by omega⟩)
  have h3 := h2.2
  have hnil : Set.Ico (a - 0) a = ∅ := Set.Ico_self a
  have hstart : CloseInv ⟨m, 0, 0⟩ e F refs a := by
    refine ⟨h, fun hc => absurd hc (lt_irrefl 0), ?_, ?_⟩
    · rw [hnil]
      exact empty_disjoint _
    · rw [hnil]
      exact empty_subset _
  obtain ⟨s₁, s₂, hrun, hflush, hst⟩ := hstart.closeFrom h1.1 (by omega) hp
  refine ⟨s₂.impl, ?_, hst.congr ?_ fun _ _ => rfl⟩
  · unfold Impl.close
    rw [h.pageOffset, hrun]
    simp only [bind_eq_bind, bind_some, hflush]
  · simp only [hnil, union_empty]

end Impl

end Kernel
end Citron
