/-
# Initialization, continuous allocation, opened groups

What `Initialize` gives the managers, what `AllocateAndOpenContinuous` takes from them,
and the first references to the blocks of a page group.
-/
import Citron.Kernel.MemoryManagerRange

namespace Citron
namespace Kernel

open KPageHeap Option Set

/-- The region that a manager with the extent is initialized with. -/
def Extent.region (e : Extent) : KMemoryManager.PoolRegion := ⟨e.base * PageSize, e.len * PageSize, e.pool⟩

namespace KMemoryManager

variable {σ : Type} {mm mm₁ : KMemoryManager σ} {es : List Extent} {F unopened : Set ℕ} {refs : ℕ → ℕ}
  {e : Extent} {k p a n : ℕ}

/-! ### Initialize -/

theorem initializeImpl_state (rng : RandomBitGenerator σ) (rngs : ℕ → RandomBitGenerator σ)
    (hbase : 0 < e.base) (hlen : 0 < e.len) : (initializeImpl rng rngs e.region).State e ∅ fun _ => 0 := by
  obtain ⟨hinv, hfree⟩ := initializeHeap_inv rng rngs (Nat.mul_pos hbase (by decide : 0 < PageSize))
    (Nat.mul_pos hlen (by decide : 0 < PageSize))
  have hcounts : e.len * PageSize / PageSize = e.len := Nat.mul_div_cancel _ (by decide)
  refine ⟨hinv, rfl, rfl, rfl, hfree, ?_, fun i hi => ?_⟩
  · unfold initializeImpl Extent.region
    simp only [List.length_replicate, hcounts]
  · unfold initializeImpl Extent.region
    simp only [hcounts, List.getElem?_replicate, if_pos hi]

/-- A region is freed but for the initial process binary, which has one reference. -/
theorem initializeRegion_state {m : Impl σ} (hm : m.State e ∅ fun _ => 0) (hn : 0 < n) (hlen : 0 < e.len)
    (hini : Set.Ico a (a + n) ⊆ e.pages ∨ Disjoint (Set.Ico a (a + n)) e.pages) :
    ∃ m₁, initializeRegion (a * PageSize) (n * PageSize) e.region m = some m₁ ∧
      m₁.State e (e.pages \ Set.Ico a (a + n)) (addRefs (fun _ => 0) a (a + n)) := by
  have hfirst : (e.base * PageSize ≤ a * PageSize ∧
      a * PageSize + n * PageSize - 1 ≤ e.base * PageSize + e.len * PageSize - 1) ↔
      e.base ≤ a ∧ a + n ≤ e.base + e.len := by
    unfold PageSize
    omega
  have hinside : Set.Ico a (a + n) ⊆ e.pages ↔ e.base ≤ a ∧ a + n ≤ e.base + e.len := by
    unfold Extent.pages
    rw [Set.Ico_subset_Ico_iff (by omega)]
  have hdiv : ∀ x : ℕ, x * PageSize / PageSize = x := fun x => Nat.mul_div_cancel x (by decide)
  unfold initializeRegion Extent.region
  simp only [hfirst, hdiv]
  rcases hini with hin | hout
  · obtain ⟨h1, h2⟩ := hinside.mp hin
    rw [if_pos ⟨h1, h2⟩]
    -- the pages before the binary
    have hbefore : ∃ m₁, (if e.base * PageSize ≠ a * PageSize then
        m.free (e.base * PageSize) ((a * PageSize - e.base * PageSize) / PageSize) else some m) = some m₁ ∧
        m₁.State e (Set.Ico e.base a) fun _ => 0 := by
      by_cases heq : e.base = a
      · refine ⟨m, by rw [heq, if_neg (not_not.mpr rfl)], hm.congr ?_ fun _ _ => rfl⟩
        rw [heq, Set.Ico_self]
      · have hne : e.base * PageSize ≠ a * PageSize := fun h => heq (Nat.eq_of_mul_eq_mul_right (by decide) h)
        have hsub : Set.Ico e.base (e.base + (a - e.base)) ⊆ e.pages := Set.Ico_subset_Ico_right (by omega)
        obtain ⟨m₁, hrun, hst⟩ := hm.freeRange hsub (disjoint_empty _)
        refine ⟨m₁, ?_, hst.congr ?_ fun _ _ => rfl⟩
        · rw [if_pos hne, ← Nat.sub_mul, hdiv, hrun]
        · rw [Nat.add_sub_cancel' h1, empty_union]
    obtain ⟨m₁, hrun₁, hst₁⟩ := hbefore
    obtain ⟨m₂, hrun₂, hst₂⟩ := hst₁.openPages hin hn fun _ _ _ => by decide
    simp only [hrun₁, hrun₂, bind_eq_bind, bind_some]
    -- the pages after it
    by_cases hlast : a + n = e.base + e.len
    · refine ⟨m₂, ?_, hst₂.congr ?_ fun _ _ => rfl⟩
      · rw [if_neg]
        rw [← Nat.add_mul, ← Nat.add_mul, hlast, not_not]
      · ext q
        simp only [Extent.pages, mem_sdiff, mem_Ico]
        omega
    · have hne : a * PageSize + n * PageSize - 1 ≠ e.base * PageSize + e.len * PageSize - 1 := by
        unfold PageSize
        omega
      have hsub : Set.Ico (a + n) (a + n + (e.base + e.len - (a + n))) ⊆ e.pages :=
        Set.Ico_subset_Ico (by omega) (by omega)
      have hdis : Disjoint (Set.Ico (a + n) (a + n + (e.base + e.len - (a + n)))) (Set.Ico e.base a) := by
        refine disjoint_left.mpr fun q hq hq' => ?_
        have h3 := hq.1
        have h4 := hq'.2
        omega
      obtain ⟨m₃, hrun₃, hst₃⟩ := hst₂.freeRange hsub hdis
      refine ⟨m₃, ?_, hst₃.congr ?_ fun _ _ => rfl⟩
      · rw [if_pos hne, ← Nat.add_mul, ← Nat.add_mul, ← Nat.sub_mul, hdiv, hrun₃]
      · ext q
        simp only [Extent.pages, mem_union, mem_sdiff, mem_Ico]
        omega
  · have hnot : ¬ (e.base ≤ a ∧ a + n ≤ e.base + e.len) := by
      intro hin
      have ha : a ∈ Set.Ico a (a + n) := ⟨le_rfl, by omega⟩
      exact disjoint_left.mp hout ha (hinside.mpr hin ha)
    obtain ⟨m₁, hrun, hst⟩ := hm.freeRange (a := e.base) (n := e.len) subset_rfl (disjoint_empty _)
    refine ⟨m₁, ?_, hst.congr ?_ fun q hq => ?_⟩
    · rw [if_neg hnot, hrun]
    · rw [empty_union]
      exact hout.sdiff_eq_right.symm
    · exact (if_neg fun hq' => disjoint_left.mp hout hq' hq).symm

/-- The conditions of `Initialize`: the regions do not overlap, and the initial process
binary lies in one of them or in none. -/
structure Layout (es : List Extent) (a n : ℕ) : Prop where
  positive : ∀ e ∈ es, 0 < e.base ∧ 0 < e.len
  apart : es.Pairwise fun d e => Disjoint d.pages e.pages
  ini_pos : 0 < n
  ini : ∀ e ∈ es, Set.Ico a (a + n) ⊆ e.pages ∨ Disjoint (Set.Ico a (a + n)) e.pages

theorem Layout.disjoint (h : Layout es a n) (j k : ℕ) (d e : Extent) (hd : es[j]? = some d) (he : es[k]? = some e)
    (hne : j ≠ k) : Disjoint d.pages e.pages := by
  obtain ⟨hj, rfl⟩ := List.getElem?_eq_some_iff.mp hd
  obtain ⟨hk, rfl⟩ := List.getElem?_eq_some_iff.mp he
  rcases Nat.lt_or_gt_of_ne hne with hlt | hgt
  · exact List.pairwise_iff_getElem.mp h.apart j k hj hk hlt
  · exact (List.pairwise_iff_getElem.mp h.apart k j hk hj hgt).symm

theorem mapM_initializeRegion (rng : RandomBitGenerator σ) (rngs : ℕ → RandomBitGenerator σ) (hn : 0 < n) :
    ∀ {es : List Extent}, (∀ e ∈ es, 0 < e.base ∧ 0 < e.len) →
      (∀ e ∈ es, Set.Ico a (a + n) ⊆ e.pages ∨ Disjoint (Set.Ico a (a + n)) e.pages) →
      ∃ managers, ((es.map Extent.region).mapM fun r =>
          initializeRegion (a * PageSize) (n * PageSize) r (initializeImpl rng rngs r)) = some managers ∧
        managers.length = es.length ∧
        ∀ (k : ℕ) (m : Impl σ) (e : Extent), managers[k]? = some m → es[k]? = some e →
          m.State e (e.pages \ Set.Ico a (a + n)) (addRefs (fun _ => 0) a (a + n)) := by
  intro es
  induction es with
  | nil => exact fun _ _ => ⟨[], rfl, rfl, fun k m e hk => nomatch hk⟩
  | cons e es ih =>
    intro hpos hini
    obtain ⟨⟨hbase, hlen⟩, hpos⟩ := List.forall_mem_cons.mp hpos
    obtain ⟨hini₁, hini⟩ := List.forall_mem_cons.mp hini
    obtain ⟨m, hm, hst⟩ := initializeRegion_state (initializeImpl_state rng rngs hbase hlen) hn hlen hini₁
    obtain ⟨managers, hms, hlen, hall⟩ := ih hpos hini
    refine ⟨m :: managers, ?_, by rw [List.length_cons, hlen, List.length_cons], fun k m' e' hk he => ?_⟩
    · rw [List.map_cons, List.mapM_cons, hm, bind_eq_bind, bind_some, hms]
      rfl
    · cases k with
      | zero =>
        obtain rfl := Option.some.inj hk
        obtain rfl := Option.some.inj he
        exact hst
      | succ k => exact hall k m' e' hk he

theorem initializeManagers_state (rng : RandomBitGenerator σ) (rngs : ℕ → RandomBitGenerator σ)
    (h : Layout es a n) :
    ∃ mm, initializeManagers rng rngs (es.map Extent.region) (a * PageSize) (n * PageSize) = some mm ∧
      mm.State es (pagesOf es \ Set.Ico a (a + n)) (addRefs (fun _ => 0) a (a + n)) := by
  obtain ⟨managers, hrun, hlen, hall⟩ := mapM_initializeRegion rng rngs h.ini_pos h.positive h.ini
  refine ⟨⟨managers⟩, ?_, hlen, h.disjoint, fun k m e hm he => ?_, sdiff_subset⟩
  · unfold initializeManagers
    rw [hrun]
    rfl
  · refine (hall k m e hm he).congr ?_ fun _ _ => rfl
    have hsub : e.pages ⊆ pagesOf es := fun p hp => ⟨e, List.mem_of_getElem? he, hp⟩
    rw [← inter_sdiff_right_comm, inter_eq_right.mpr hsub]

/-! ### Continuous allocation -/

theorem State.allocateAlignedFrom [TinyMT σ] {index alignPages : ℕ} (ha : 0 < alignPages)
    (hi : getAlignedBlockIndex n alignPages = some index) :
    ∀ {ks : List ℕ} {mm : KMemoryManager σ}, mm.State es F refs → (∀ k ∈ ks, k < es.length) →
      ∃ k addr mm₁, allocateAlignedFrom index n alignPages ks mm = some (k, addr, mm₁) ∧
        ((addr = 0 ∧ mm₁.State es F refs) ∨ ∃ a e, 0 < a ∧ addr = a * PageSize ∧ es[k]? = some e ∧
          Set.Ico a (a + n) ⊆ F ∩ e.pages ∧ mm₁.State es (F \ Set.Ico a (a + n)) refs) := by
  intro ks
  induction ks with
  | nil => exact fun h _ => ⟨0, 0, _, rfl, .inl ⟨rfl, h⟩⟩
  | cons k ks ih =>
    intro mm h hks
    obtain ⟨hk, hks⟩ := List.forall_mem_cons.mp hks
    have he : es[k]? = some es[k] := List.getElem?_eq_getElem hk
    obtain ⟨m, hm, hst⟩ := h.get he
    obtain ⟨addr, heap, hrun, hcase⟩ := hst.allocateAligned ha hi
    unfold KMemoryManager.allocateAlignedFrom
    simp only [hm, hrun, bind_eq_bind, bind_some]
    rcases hcase with ⟨rfl, hst₁⟩ | ⟨a, hpos, rfl, hsub, hst₁⟩
    · rw [if_neg (not_not.mpr rfl)]
      exact ih (h.set he hst₁ (fun _ _ => Iff.rfl) fun _ _ => rfl) hks
    · rw [if_pos (Nat.mul_pos hpos (by decide)).ne']
      refine ⟨k, _, _, rfl, .inr ⟨a, _, hpos, rfl, he, hsub, ?_⟩⟩
      refine h.set he (hst₁.congr ?_ fun _ _ => rfl) (fun p hp => ?_) fun _ _ => rfl
      · rw [inter_sdiff_right_comm]
      · exact and_iff_left fun hmem => hp (hsub hmem).2

theorem State.allocateAndOpenContinuous [TinyMT σ] (h : mm.State es F refs) {alignPages index : ℕ}
    (ha : 0 < alignPages) (hi : getAlignedBlockIndex n alignPages = some index) (pool : Pool) (dir : Direction)
    (hF : ∀ p ∈ F, refs p = 0) :
    ∃ addr mm₁, mm.allocateAndOpenContinuous n alignPages pool dir = some (addr, mm₁) ∧
      ((addr = 0 ∧ mm₁.State es F refs) ∨ ∃ a, 0 < a ∧ 0 < n ∧ addr = a * PageSize ∧ Set.Ico a (a + n) ⊆ F ∧
        mm₁.State es (F \ Set.Ico a (a + n)) (addRefs refs a (a + n))) := by
  unfold KMemoryManager.allocateAndOpenContinuous
  by_cases h0 : n = 0
  · rw [if_pos h0]
    exact ⟨0, mm, rfl, .inl ⟨rfl, h⟩⟩
  rw [if_neg h0]
  obtain ⟨k, addr, mm₁, hrun, hcase⟩ := State.allocateAlignedFrom ha hi h (h.poolManagers_lt pool dir)
  simp only [hi, hrun, bind_eq_bind, bind_some]
  rcases hcase with ⟨rfl, hst₁⟩ | ⟨a, e, hpos, rfl, he, hsub, hst₁⟩
  · rw [if_pos rfl]
    exact ⟨0, mm₁, rfl, .inl ⟨rfl, hst₁⟩⟩
  · rw [if_neg (Nat.mul_pos hpos (by decide)).ne']
    obtain ⟨m, hm, hst⟩ := hst₁.get he
    obtain ⟨m₁, hopen, hst₂⟩ := hst.openPages (a := a) (n := n) (fun p hp => (hsub hp).2) (by omega)
      fun p hp1 hp2 => by
        rw [hF p (hsub ⟨hp1, hp2⟩).1]
        decide
    simp only [hm, hopen, bind_some]
    refine ⟨_, _, rfl, .inr ⟨a, hpos, by omega, rfl, fun p hp => (hsub hp).1, ?_⟩⟩
    refine hst₁.set he hst₂ (fun _ _ => Iff.rfl) fun p hp => ?_
    exact if_neg fun hp' => hp (hsub hp').2

/-! ### Opening a group -/

/-- One more reference to the pages of each block. -/
def addBlockRefs (refs : ℕ → ℕ) (blocks : List KBlockInfo) : ℕ → ℕ :=
  blocks.foldl (fun refs b => addRefs refs b.pageIndex (b.pageIndex + b.numPages)) refs

theorem addBlockRefs_of_notMem : ∀ {blocks : List KBlockInfo} {refs : ℕ → ℕ}, (∀ b ∈ blocks, p ∉ b.pages) →
    addBlockRefs refs blocks p = refs p := by
  intro blocks
  induction blocks with
  | nil => exact fun _ => rfl
  | cons b blocks ih =>
    intro refs hp
    obtain ⟨hb, hp⟩ := List.forall_mem_cons.mp hp
    unfold addBlockRefs
    rw [List.foldl_cons]
    refine (ih hp).trans ?_
    exact if_neg hb

/-- A page of a group has one reference more: its blocks do not overlap. -/
theorem addBlockRefs_of_mem : ∀ {blocks : List KBlockInfo} {refs : ℕ → ℕ} {b : KBlockInfo}, KPageGroup.Apart blocks →
    b ∈ blocks → p ∈ b.pages → addBlockRefs refs blocks p = refs p + 1 := by
  intro blocks
  induction blocks with
  | nil => exact fun _ hb => absurd hb List.not_mem_nil
  | cons c blocks ih =>
    intro refs b ha hb hp
    obtain ⟨hd1, hd2⟩ := List.pairwise_cons.mp ha.disjoint
    have htail : KPageGroup.Apart blocks := ⟨fun d hd => ha.nonempty d (List.mem_cons_of_mem _ hd), hd2⟩
    have hcons : addBlockRefs refs (c :: blocks) p =
        addBlockRefs (addRefs refs c.pageIndex (c.pageIndex + c.numPages)) blocks p := rfl
    rw [hcons]
    rcases List.mem_cons.mp hb with rfl | hb
    · rw [addBlockRefs_of_notMem fun d hd => disjoint_left.mp (hd1 d hd) hp]
      exact if_pos hp
    · rw [ih htail hb hp]
      congr 1
      exact if_neg (disjoint_right.mp (hd1 b hb) hp)

theorem State.openBlocks : ∀ {blocks : List KBlockInfo} {mm : KMemoryManager σ} {refs : ℕ → ℕ},
    mm.State es F refs → KPageGroup.Apart blocks → (∀ b ∈ blocks, b.pages ⊆ pagesOf es ∧ ∀ p ∈ b.pages, refs p = 0) →
    ∃ mm₁, blocks.foldlM (fun mm block => mm.openFirst block.getAddress block.numPages) mm = some mm₁ ∧
      mm₁.State es F (addBlockRefs refs blocks) := by
  intro blocks
  induction blocks with
  | nil => exact fun h _ _ => ⟨_, rfl, h⟩
  | cons b blocks ih =>
    intro mm refs h ha hb
    obtain ⟨⟨hin, hzero⟩, hb⟩ := List.forall_mem_cons.mp hb
    obtain ⟨hd1, hd2⟩ := List.pairwise_cons.mp ha.disjoint
    obtain ⟨mm₁, hrun, h₁⟩ := h.openRange (le_refl b.numPages) hin fun p hp1 hp2 => by
      rw [hzero p ⟨hp1, hp2⟩]
      decide
    obtain ⟨mm₂, hrun₂, h₂⟩ := ih h₁ ⟨fun c hc => ha.nonempty c (List.mem_cons_of_mem _ hc), hd2⟩ fun c hc => by
      refine ⟨(hb c hc).1, fun p hp => ?_⟩
      exact (if_neg (disjoint_right.mp (hd1 c hc) hp)).trans ((hb c hc).2 p hp)
    refine ⟨mm₂, ?_, h₂⟩
    rw [List.foldlM_cons, bind_eq_bind]
    refine (congrArg (Option.bind · _) hrun).trans ?_
    exact hrun₂

end KMemoryManager

end Kernel
end Citron
