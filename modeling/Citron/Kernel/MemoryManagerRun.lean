/-
# Page ownership

In a run of the memory manager each page is free, or allocated and not opened yet, or
counted with its open references, as long as no failed allocation has to undo a block
that crosses from one manager into the next (`UndoCovers`). `Reaches` keeps the pages
not opened yet and the open references beside the managers, and asks of each call what
its callers see to.
-/
import Citron.Kernel.MemoryManagerCalls

namespace Citron
namespace Kernel

open KPageHeap Option Set

namespace KMemoryManager

/-! ### Runs -/

/-- The managers that the callers can reach, with the pages allocated and not opened yet
and the open references of each page. A failed allocation gives an empty group. -/
inductive Reaches {σ : Type} [TinyMT σ] (es : List Extent) : KMemoryManager σ → Set ℕ → (ℕ → ℕ) → Prop
  | initial {rng rngs a n mm} (hl : Layout es a n)
      (hrun : initializeManagers rng rngs (es.map Extent.region) (a * PageSize) (n * PageSize) = some mm) :
      Reaches es mm ∅ (addRefs (fun _ => 0) a (a + n))
  | openFirst {mm mm₁ unopened refs a n} (hr : Reaches es mm unopened refs) (hin : Set.Ico a (a + n) ⊆ unopened)
      (hrun : mm.openFirst (a * PageSize) n = some mm₁) :
      Reaches es mm₁ (unopened \ Set.Ico a (a + n)) (addRefs refs a (a + n))
  | openPages {mm mm₁ unopened refs a n} (hr : Reaches es mm unopened refs) (hin : Set.Ico a (a + n) ⊆ pagesOf es)
      (hrefs : ∀ p ∈ Set.Ico a (a + n), 0 < refs p ∧ refs p + 1 < 2 ^ 16)
      (hrun : mm.openPages (a * PageSize) n = some mm₁) :
      Reaches es mm₁ unopened (addRefs refs a (a + n))
  | close {mm mm₁ unopened refs a n} (hr : Reaches es mm unopened refs) (hin : Set.Ico a (a + n) ⊆ pagesOf es)
      (hrefs : ∀ p ∈ Set.Ico a (a + n), 0 < refs p)
      (hrun : mm.close (a * PageSize) n = some mm₁) :
      Reaches es mm₁ unopened (dropRefs refs a (a + n))
  | allocateAndOpenContinuous {mm mm₁ unopened refs n alignPages pool dir addr} (hr : Reaches es mm unopened refs)
      (halign : 0 < alignPages) (hrun : mm.allocateAndOpenContinuous n alignPages pool dir = some (addr, mm₁)) :
      Reaches es mm₁ unopened (if addr = 0 then refs else addRefs refs (addr / PageSize) (addr / PageSize + n))
  | allocateAndOpen {mm mm₁ unopened refs out out₁ n pool dir r} (hr : Reaches es mm unopened refs)
      (hout : out.blocks = []) (hundo : mm.UndoCovers out n pool dir true)
      (hrun : mm.allocateAndOpen out n pool dir = some (r, mm₁, out₁)) :
      Reaches es mm₁ unopened (addBlockRefs refs out₁.blocks)
  | allocateForProcess {mm mm₁ unopened refs out out₁ n pool dir r} (hr : Reaches es mm unopened refs)
      (hout : out.blocks = []) (hundo : mm.UndoCovers out n pool dir false)
      (hrun : mm.allocateForProcess out n pool dir = some (r, mm₁, out₁)) :
      Reaches es mm₁ (unopened ∪ out₁.pages) refs

variable {σ : Type} {mm mm₁ : KMemoryManager σ} {es : List Extent} {F G unopened : Set ℕ} {refs : ℕ → ℕ} {p a n : ℕ}

/-- The heap of the page's manager has the page free. -/
def FreeAt (mm : KMemoryManager σ) (p : ℕ) : Prop :=
  ∃ k m, mm.getManager (p * PageSize) = some k ∧ mm.managers[k]? = some m ∧ p ∈ m.heap.freePages

/-- The reference count that the page's manager has for it. -/
def countAt (mm : KMemoryManager σ) (p : ℕ) : Option ℕ := do
  let k ← mm.getManager (p * PageSize)
  let m ← mm.managers[k]?
  m.pageReferenceCounts[m.getPageOffset (p * PageSize)]?

/-- A page is free, or allocated and not opened yet, or counted with its open references. -/
inductive PageOwner (mm : KMemoryManager σ) (unopened : Set ℕ) (refs : ℕ → ℕ) (p : ℕ) : Prop
  | free (hf : mm.FreeAt p) (hc : mm.countAt p = some 0) (hu : p ∉ unopened) (hr : refs p = 0)
  | unopened (hf : ¬ mm.FreeAt p) (hc : mm.countAt p = some 0) (hu : p ∈ unopened) (hr : refs p = 0)
  | opened (hf : ¬ mm.FreeAt p) (hc : mm.countAt p = some (refs p)) (hu : p ∉ unopened) (hr : 0 < refs p)

theorem State.freeAt_iff (h : mm.State es F refs) (hp : p ∈ pagesOf es) : mm.FreeAt p ↔ p ∈ F := by
  obtain ⟨e, he, hpe⟩ := hp
  obtain ⟨k, hk⟩ := List.mem_iff_getElem?.mp he
  obtain ⟨m, hm, hst⟩ := h.get hk
  have hget := h.getManager hk hpe
  constructor
  · rintro ⟨j, m₁, hj, hm₁, hfree⟩
    obtain rfl : k = j := Option.some.inj (hget.symm.trans hj)
    obtain rfl : m = m₁ := Option.some.inj (hm.symm.trans hm₁)
    rw [hst.free] at hfree
    exact hfree.1
  · intro hF
    refine ⟨k, m, hget, hm, ?_⟩
    rw [hst.free]
    exact ⟨hF, hpe⟩

theorem State.countAt_eq (h : mm.State es F refs) (hp : p ∈ pagesOf es) : mm.countAt p = some (refs p) := by
  obtain ⟨e, he, hpe⟩ := hp
  obtain ⟨k, hk⟩ := List.mem_iff_getElem?.mp he
  obtain ⟨m, hm, hst⟩ := h.get hk
  unfold countAt
  simp only [h.getManager hk hpe, hm, bind_eq_bind, bind_some, hst.pageOffset]
  exact hst.getCount hpe.1 hpe.2

/-! ### The invariant -/

/-- The managed pages that nobody has. -/
def unowned (es : List Extent) (unopened : Set ℕ) (refs : ℕ → ℕ) : Set ℕ :=
  {p | p ∈ pagesOf es ∧ p ∉ unopened ∧ refs p = 0}

/-- The free pages are those that nobody has. -/
structure Owned (es : List Extent) (mm : KMemoryManager σ) (unopened : Set ℕ) (refs : ℕ → ℕ) : Prop where
  state : mm.State es (unowned es unopened refs) refs
  sub : unopened ⊆ pagesOf es
  zero : ∀ p ∈ unopened, refs p = 0

theorem Owned.pageOwner (h : Owned es mm unopened refs) (hp : p ∈ pagesOf es) : PageOwner mm unopened refs p := by
  have hfree := h.state.freeAt_iff hp
  have hcount := h.state.countAt_eq hp
  by_cases hu : p ∈ unopened
  · have hzero := h.zero p hu
    rw [hzero] at hcount
    exact .unopened (fun hf => (hfree.mp hf).2.1 hu) hcount hu hzero
  · rcases Nat.eq_zero_or_pos (refs p) with hr | hr
    · have hf := hfree.mpr ⟨hp, hu, hr⟩
      rw [hr] at hcount
      exact .free hf hcount hu hr
    · exact .opened (fun hf => hr.ne' (hfree.mp hf).2.2) hcount hu hr

/-! ### One call -/

theorem Owned.openFirst (h : Owned es mm unopened refs) (hin : Set.Ico a (a + n) ⊆ unopened) :
    ∃ mm₁, mm.openFirst (a * PageSize) n = some mm₁ ∧
      Owned es mm₁ (unopened \ Set.Ico a (a + n)) (addRefs refs a (a + n)) := by
  obtain ⟨mm₁, hrun, hst⟩ := h.state.openRange (le_refl n) (hin.trans h.sub) fun p hp1 hp2 => by
    rw [h.zero p (hin ⟨hp1, hp2⟩)]
    decide
  refine ⟨mm₁, hrun, hst.congr ?_ fun _ _ => rfl, sdiff_subset.trans h.sub, fun p hp => ?_⟩
  · ext p
    refine and_congr_right fun _ => ?_
    by_cases hp : p ∈ Set.Ico a (a + n)
    · have hone : addRefs refs a (a + n) p = refs p + 1 := if_pos hp
      rw [hone]
      exact iff_of_false (fun hmem => hmem.1 (hin hp)) fun hmem => Nat.succ_ne_zero _ hmem.2
    · have hsame : addRefs refs a (a + n) p = refs p := if_neg hp
      rw [hsame, mem_sdiff, and_iff_left hp]
  · exact (if_neg hp.2).trans (h.zero p hp.1)

theorem Owned.openPages (h : Owned es mm unopened refs) (hin : Set.Ico a (a + n) ⊆ pagesOf es)
    (hr : ∀ p ∈ Set.Ico a (a + n), 0 < refs p ∧ refs p + 1 < 2 ^ 16) :
    ∃ mm₁, mm.openPages (a * PageSize) n = some mm₁ ∧ Owned es mm₁ unopened (addRefs refs a (a + n)) := by
  obtain ⟨mm₁, hrun, hst⟩ := h.state.openRange (le_refl n) hin fun p hp1 hp2 => (hr p ⟨hp1, hp2⟩).2
  have hzero : ∀ p, addRefs refs a (a + n) p = 0 ↔ refs p = 0 := by
    intro p
    by_cases hp : p ∈ Set.Ico a (a + n)
    · have hone : addRefs refs a (a + n) p = refs p + 1 := if_pos hp
      have hpos := (hr p hp).1
      omega
    · have hsame : addRefs refs a (a + n) p = refs p := if_neg hp
      rw [hsame]
  refine ⟨mm₁, hrun, hst.congr ?_ fun _ _ => rfl, h.sub, fun p hp => (hzero p).mpr (h.zero p hp)⟩
  ext p
  exact and_congr_right fun _ => and_congr_right fun _ => (hzero p).symm

theorem Owned.close [TinyMT σ] (h : Owned es mm unopened refs) (hin : Set.Ico a (a + n) ⊆ pagesOf es)
    (hr : ∀ p ∈ Set.Ico a (a + n), 0 < refs p) :
    ∃ mm₁, mm.close (a * PageSize) n = some mm₁ ∧ Owned es mm₁ unopened (dropRefs refs a (a + n)) ∧
      mm₁.State es (unowned es unopened refs ∪ lastRefs refs a (a + n)) (dropRefs refs a (a + n)) := by
  obtain ⟨mm₁, hrun, hst⟩ := h.state.closeRange (le_refl n) hin fun p hp1 hp2 =>
    ⟨hr p ⟨hp1, hp2⟩, fun hmem => (hr p ⟨hp1, hp2⟩).ne' hmem.2.2⟩
  have hdrop : ∀ p ∈ unopened, p ∉ Set.Ico a (a + n) := fun p hu hp => (hr p hp).ne' (h.zero p hu)
  refine ⟨mm₁, hrun, ⟨hst.congr ?_ fun _ _ => rfl, h.sub, fun p hp => ?_⟩, hst⟩
  · ext p
    by_cases hp : p ∈ Set.Ico a (a + n)
    · have hone : dropRefs refs a (a + n) p = refs p - 1 := if_pos hp
      have hpos := hr p hp
      constructor
      · rintro (hmem | hmem)
        · exact absurd hmem.2.2 hpos.ne'
        · refine ⟨hin hp, fun hu => hdrop p hu hp, ?_⟩
          rw [hone, hmem.2.2]
      · rintro ⟨_, _, hz⟩
        exact .inr ⟨hp.1, hp.2, by omega⟩
    · have hsame : dropRefs refs a (a + n) p = refs p := if_neg hp
      constructor
      · rintro (hmem | hmem)
        · exact ⟨hmem.1, hmem.2.1, hsame.trans hmem.2.2⟩
        · exact absurd ⟨hmem.1, hmem.2.1⟩ hp
      · rintro ⟨h1, h2, hz⟩
        exact .inl ⟨h1, h2, hsame.symm.trans hz⟩
  · exact (if_neg (hdrop p hp)).trans (h.zero p hp)

theorem unowned_sdiff_addRefs :
    unowned es unopened refs \ Set.Ico a (a + n) = unowned es unopened (addRefs refs a (a + n)) := by
  ext p
  by_cases hp : p ∈ Set.Ico a (a + n)
  · have hone : addRefs refs a (a + n) p = refs p + 1 := if_pos hp
    exact iff_of_false (fun hmem => hmem.2 hp) fun hmem => Nat.succ_ne_zero _ (hone.symm.trans hmem.2.2)
  · have hsame : addRefs refs a (a + n) p = refs p := if_neg hp
    refine (and_iff_left hp).trans (and_congr_right fun _ => and_congr_right fun _ => ?_)
    rw [hsame]

/-- The pages that a failed call loses are all that parts the free pages from those that nobody has. -/
theorem Owned.failed_iff (h : Owned es mm unopened refs) (hG : G ⊆ unowned es unopened refs)
    (hst : mm₁.State es (unowned es unopened refs \ G) refs) :
    (∀ p ∈ pagesOf es, PageOwner mm₁ unopened refs p) ↔ G = ∅ := by
  constructor
  · intro hall
    refine eq_empty_of_forall_notMem fun p hp => ?_
    have hpu := hG hp
    have hnot : ¬ mm₁.FreeAt p := fun hf => ((hst.freeAt_iff hpu.1).mp hf).2 hp
    rcases hall p hpu.1 with ⟨hf, -, -, -⟩ | ⟨-, -, hu, -⟩ | ⟨-, -, -, hr⟩
    · exact hnot hf
    · exact hpu.2.1 hu
    · exact hr.ne' hpu.2.2
  · rintro rfl p hp
    rw [sdiff_empty] at hst
    exact Owned.pageOwner ⟨hst, h.sub, h.zero⟩ hp

theorem Owned.allocateAndOpenContinuous [TinyMT σ] (h : Owned es mm unopened refs) {alignPages : ℕ}
    (ha : 0 < alignPages) {index : ℕ} (hi : getAlignedBlockIndex n alignPages = some index) (pool : Pool)
    (dir : Direction) :
    ∃ addr mm₁, mm.allocateAndOpenContinuous n alignPages pool dir = some (addr, mm₁) ∧
      ((addr = 0 ∧ Owned es mm₁ unopened refs) ∨ ∃ a, 0 < a ∧ 0 < n ∧ addr = a * PageSize ∧
        Set.Ico a (a + n) ⊆ unowned es unopened refs ∧ Owned es mm₁ unopened (addRefs refs a (a + n))) := by
  obtain ⟨addr, mm₁, hrun, hcase⟩ := h.state.allocateAndOpenContinuous ha hi pool dir fun p hp => hp.2.2
  refine ⟨addr, mm₁, hrun, ?_⟩
  rcases hcase with ⟨h0, hst⟩ | ⟨a, hpos, hn, haddr, hsub, hst⟩
  · exact .inl ⟨h0, hst, h.sub, h.zero⟩
  · refine .inr ⟨a, hpos, hn, haddr, hsub, hst.congr unowned_sdiff_addRefs fun _ _ => rfl, h.sub, fun p hp => ?_⟩
    exact (if_neg fun hp' => (hsub hp').2.1 hp).trans (h.zero p hp)

theorem Owned.allocateAndOpen [TinyMT σ] (h : Owned es mm unopened refs) {out : KPageGroup} (hout : out.blocks = [])
    (n : ℕ) (pool : Pool) (dir : Direction) :
    ∃ r mm₁ out₁, mm.allocateAndOpen out n pool dir = some (r, mm₁, out₁) ∧
      ((r = .success ∧ out₁.size = n ∧ KPageGroup.Apart out₁.blocks ∧ out₁.pages ⊆ unowned es unopened refs ∧
          Owned es mm₁ unopened (addBlockRefs refs out₁.blocks) ∧ mm.UndoCovers out n pool dir true) ∨
        (r ≠ .success ∧ out₁.blocks = [] ∧ ∃ G, G ⊆ unowned es unopened refs ∧
          mm₁.State es (unowned es unopened refs \ G) refs ∧ (G = ∅ ↔ mm.UndoCovers out n pool dir true))) := by
  unfold KMemoryManager.allocateAndOpen
  by_cases h0 : n = 0
  · rw [if_pos h0]
    refine ⟨_, _, _, rfl, .inl ⟨rfl, ?_, ?_, ?_, ?_, ?_⟩⟩
    · rw [h0, KPageGroup.size, hout]
      rfl
    · rw [hout]
      exact ⟨fun b hb => absurd hb List.not_mem_nil, List.Pairwise.nil⟩
    · rw [KPageGroup.pages_of_nil hout]
      exact empty_subset _
    · rw [hout]
      exact h
    · have hnone : getBlockIndex 0 = none := by decide
      unfold UndoCovers collected
      rw [h0, hnone]
      intro ok s hs
      cases hs
  rw [if_neg h0]
  obtain ⟨r, mm₁, out₁, hrun, hcase⟩ := h.state.allocatePageGroupImpl hout n pool dir true
  simp only [hrun, bind_eq_bind, bind_some]
  rcases hcase with ⟨rfl, hsize, hapart, hsub, hst, hundo⟩ | ⟨hr, hblocks, G, hG, hst, hiff⟩
  · rw [if_pos rfl]
    obtain ⟨mm₂, hopen, hst₂⟩ := hst.openBlocks hapart fun b hb =>
      ⟨fun p hp => (hsub ⟨b, hb, hp⟩).1, fun p hp => (hsub ⟨b, hb, hp⟩).2.2⟩
    simp only [hopen, bind_some]
    have hsame : ∀ p, p ∉ out₁.pages → addBlockRefs refs out₁.blocks p = refs p := fun p hp =>
      addBlockRefs_of_notMem fun b hb hpb => hp ⟨b, hb, hpb⟩
    refine ⟨_, _, _, rfl, .inl ⟨rfl, hsize, hapart, hsub, ⟨hst₂.congr ?_ fun _ _ => rfl, h.sub, fun p hp => ?_⟩, hundo⟩⟩
    · ext p
      by_cases hp : p ∈ out₁.pages
      · obtain ⟨b, hb, hpb⟩ := hp
        have hone : addBlockRefs refs out₁.blocks p = refs p + 1 := addBlockRefs_of_mem hapart hb hpb
        exact iff_of_false (fun hmem => hmem.2 ⟨b, hb, hpb⟩) fun hmem =>
          Nat.succ_ne_zero _ (hone.symm.trans hmem.2.2)
      · refine (and_iff_left hp).trans (and_congr_right fun _ => and_congr_right fun _ => ?_)
        rw [hsame p hp]
    · rw [hsame p fun hmem => (hsub hmem).2.1 hp]
      exact h.zero p hp
  · rw [if_neg hr]
    exact ⟨_, _, _, rfl, .inr ⟨hr, hblocks, G, hG, hst, hiff⟩⟩

theorem Owned.allocateForProcess [TinyMT σ] (h : Owned es mm unopened refs) {out : KPageGroup} (hout : out.blocks = [])
    (n : ℕ) (pool : Pool) (dir : Direction) :
    ∃ r mm₁ out₁, mm.allocateForProcess out n pool dir = some (r, mm₁, out₁) ∧
      ((r = .success ∧ out₁.size = n ∧ KPageGroup.Apart out₁.blocks ∧ out₁.pages ⊆ unowned es unopened refs ∧
          Owned es mm₁ (unopened ∪ out₁.pages) refs ∧ mm.UndoCovers out n pool dir false) ∨
        (r ≠ .success ∧ out₁.blocks = [] ∧ ∃ G, G ⊆ unowned es unopened refs ∧
          mm₁.State es (unowned es unopened refs \ G) refs ∧ (G = ∅ ↔ mm.UndoCovers out n pool dir false))) := by
  obtain ⟨r, mm₁, out₁, hrun, hcase⟩ := h.state.allocatePageGroupImpl hout n pool dir false
  refine ⟨r, mm₁, out₁, hrun, ?_⟩
  rcases hcase with ⟨rfl, hsize, hapart, hsub, hst, hundo⟩ | ⟨hr, hblocks, G, hG, hst, hiff⟩
  · refine .inl ⟨rfl, hsize, hapart, hsub, ⟨hst.congr ?_ fun _ _ => rfl, ?_, ?_⟩, hundo⟩
    · ext p
      constructor
      · rintro ⟨⟨h1, h2, h3⟩, hnot⟩
        exact ⟨h1, fun hmem => hmem.elim h2 hnot, h3⟩
      · rintro ⟨h1, h2, h3⟩
        exact ⟨⟨h1, fun hu => h2 (.inl hu), h3⟩, fun hmem => h2 (.inr hmem)⟩
    · exact union_subset h.sub fun p hp => (hsub hp).1
    · rintro p (hp | hp)
      · exact h.zero p hp
      · exact (hsub hp).2.2
  · exact .inr ⟨hr, hblocks, G, hG, hst, hiff⟩

/-! ### The free size -/

theorem State.numFreePages_sum : ∀ {managers : List (Impl σ)} {es : List Extent}, managers.length = es.length →
    (∀ (j k : ℕ) (d e : Extent), es[j]? = some d → es[k]? = some e → j ≠ k → Disjoint d.pages e.pages) →
    (∀ (k : ℕ) (m : Impl σ) (e : Extent), managers[k]? = some m → es[k]? = some e → m.State e (F ∩ e.pages) refs) →
    (managers.map fun m => m.heap.getNumFreePages * PageSize).sum = (F ∩ pagesOf es).ncard * PageSize ∧
      (F ∩ pagesOf es).Finite := by
  intro managers
  induction managers with
  | nil =>
    intro es hlen _ _
    obtain rfl : es = [] := List.length_eq_zero_iff.mp hlen.symm
    have hnone : F ∩ pagesOf [] = ∅ := eq_empty_of_forall_notMem fun p ⟨_, e, he, _⟩ => absurd he List.not_mem_nil
    rw [hnone]
    exact ⟨by rw [ncard_empty, Nat.zero_mul]; rfl, finite_empty⟩
  | cons m managers ih =>
    intro es hlen hapart hall
    cases es with
    | nil => cases hlen
    | cons e es =>
      obtain ⟨hsum, hfin⟩ := ih (Nat.succ.inj hlen)
        (fun j k d e' hd he hne => hapart (j + 1) (k + 1) d e' hd he (by omega))
        fun k m' e' hm he => hall (k + 1) m' e' hm he
      have hst := hall 0 m e rfl rfl
      have hsplit : F ∩ pagesOf (e :: es) = (F ∩ e.pages) ∪ (F ∩ pagesOf es) := by
        rw [← inter_union_distrib_left]
        congr 1
        ext p
        simp only [pagesOf, List.mem_cons, mem_union, mem_ofPred_eq, exists_eq_or_imp]
      have hfin₁ : (F ∩ e.pages).Finite := (finite_Ico ..).subset inter_subset_right
      have hdis : Disjoint (F ∩ e.pages) (F ∩ pagesOf es) := by
        refine disjoint_left.mpr ?_
        rintro p ⟨-, hp⟩ ⟨-, d, hd, hpd⟩
        obtain ⟨k, hk⟩ := List.mem_iff_getElem?.mp hd
        exact disjoint_left.mp (hapart 0 (k + 1) e d rfl hk (by omega)) hp hpd
      rw [hsplit, ncard_union_eq hdis hfin₁ hfin, Nat.add_mul, List.map_cons, List.sum_cons, hsum,
        hst.inv.getNumFreePages, hst.free]
      exact ⟨rfl, hfin₁.union hfin⟩

theorem State.getFreeSize (h : mm.State es F refs) : mm.getFreeSize = F.ncard * PageSize ∧ F.Finite := by
  have hsum := State.numFreePages_sum h.length h.apart h.each
  rwa [inter_eq_left.mpr h.sub] at hsum

/-! ### Every run -/

theorem allocateAndOpenContinuous_index [TinyMT σ] {alignPages addr : ℕ} {pool : Pool} {dir : Direction}
    (hrun : mm.allocateAndOpenContinuous n alignPages pool dir = some (addr, mm₁)) :
    (n = 0 ∧ addr = 0 ∧ mm₁ = mm) ∨ ∃ index, getAlignedBlockIndex n alignPages = some index := by
  unfold KMemoryManager.allocateAndOpenContinuous at hrun
  by_cases h0 : n = 0
  · rw [if_pos h0] at hrun
    obtain ⟨rfl, rfl⟩ := Prod.mk.inj (Option.some.inj hrun)
    exact .inl ⟨h0, rfl, rfl⟩
  · rw [if_neg h0] at hrun
    obtain ⟨index, hi, -⟩ := bind_eq_some_iff.mp hrun
    exact .inr ⟨index, hi⟩

theorem Reaches.owned [TinyMT σ] (hr : Reaches es mm unopened refs) : Owned es mm unopened refs := by
  induction hr with
  | initial hl hrun =>
    obtain ⟨mm₁, hrun₁, hst⟩ := initializeManagers_state _ _ hl
    obtain rfl := Option.some.inj (hrun.symm.trans hrun₁)
    refine ⟨hst.congr ?_ fun _ _ => rfl, empty_subset _, fun p hp => absurd hp (notMem_empty p)⟩
    have hnone : pagesOf es = unowned es ∅ fun _ => 0 := by
      ext p
      exact ⟨fun hp => ⟨hp, notMem_empty p, rfl⟩, fun hp => hp.1⟩
    rw [hnone, unowned_sdiff_addRefs]
  | openFirst _ hin hrun ih =>
    obtain ⟨mm₁, hrun₁, h₁⟩ := ih.openFirst hin
    obtain rfl := Option.some.inj (hrun.symm.trans hrun₁)
    exact h₁
  | openPages _ hin hrefs hrun ih =>
    obtain ⟨mm₁, hrun₁, h₁⟩ := ih.openPages hin hrefs
    obtain rfl := Option.some.inj (hrun.symm.trans hrun₁)
    exact h₁
  | close _ hin hrefs hrun ih =>
    obtain ⟨mm₁, hrun₁, h₁, -⟩ := ih.close hin hrefs
    obtain rfl := Option.some.inj (hrun.symm.trans hrun₁)
    exact h₁
  | allocateAndOpenContinuous _ halign hrun ih =>
    rcases allocateAndOpenContinuous_index hrun with ⟨-, rfl, rfl⟩ | ⟨index, hi⟩
    · rw [if_pos rfl]
      exact ih
    obtain ⟨addr, mm₁, hrun₁, hcase⟩ := ih.allocateAndOpenContinuous halign hi _ _
    obtain ⟨rfl, rfl⟩ := Prod.mk.inj (Option.some.inj (hrun.symm.trans hrun₁))
    rcases hcase with ⟨rfl, h₁⟩ | ⟨a, hpos, -, rfl, -, h₁⟩
    · rw [if_pos rfl]
      exact h₁
    · rw [if_neg (Nat.mul_pos hpos (by decide)).ne', Nat.mul_div_cancel _ (by decide)]
      exact h₁
  | allocateAndOpen _ hout hundo hrun ih =>
    obtain ⟨r, mm₁, out₁, hrun₁, hcase⟩ := ih.allocateAndOpen hout _ _ _
    obtain ⟨rfl, hpair⟩ := Prod.mk.inj (Option.some.inj (hrun.symm.trans hrun₁))
    obtain ⟨rfl, rfl⟩ := Prod.mk.inj hpair
    rcases hcase with ⟨-, -, -, -, h₁, -⟩ | ⟨-, hblocks, G, -, hst, hiff⟩
    · exact h₁
    · rw [hiff.mpr hundo, sdiff_empty] at hst
      rw [hblocks]
      exact ⟨hst, ih.sub, ih.zero⟩
  | allocateForProcess _ hout hundo hrun ih =>
    obtain ⟨r, mm₁, out₁, hrun₁, hcase⟩ := ih.allocateForProcess hout _ _ _
    obtain ⟨rfl, hpair⟩ := Prod.mk.inj (Option.some.inj (hrun.symm.trans hrun₁))
    obtain ⟨rfl, rfl⟩ := Prod.mk.inj hpair
    rcases hcase with ⟨-, -, -, -, h₁, -⟩ | ⟨-, hblocks, G, -, hst, hiff⟩
    · exact h₁
    · rw [hiff.mpr hundo, sdiff_empty] at hst
      rw [KPageGroup.pages_of_nil hblocks, union_empty]
      exact ⟨hst, ih.sub, ih.zero⟩

/-- The call gives a group of free pages, each once, and takes them from the heaps. -/
structure TakesFree (es : List Extent) (mm mm₁ : KMemoryManager σ) (out : KPageGroup) : Prop where
  apart : KPageGroup.Apart out.blocks
  managed : out.pages ⊆ pagesOf es
  free : ∀ p ∈ out.pages, mm.FreeAt p ∧ ¬ mm₁.FreeAt p

theorem takesFree_nil {out : KPageGroup} (h : out.blocks = []) : TakesFree es mm mm₁ out := by
  have hpages := KPageGroup.pages_of_nil h
  refine ⟨?_, ?_, fun p hp => ?_⟩
  · rw [h]
    exact ⟨fun b hb => absurd hb List.not_mem_nil, List.Pairwise.nil⟩
  · rw [hpages]
    exact empty_subset _
  · rw [hpages] at hp
    exact absurd hp (notMem_empty p)

/-- The free pages of the next state are not those of the group, which had been free. -/
theorem Owned.takesFree (h : Owned es mm unopened refs) {unopened₁ : Set ℕ} {refs₁ : ℕ → ℕ}
    (h₁ : Owned es mm₁ unopened₁ refs₁) {out : KPageGroup} (ha : KPageGroup.Apart out.blocks)
    (hsub : out.pages ⊆ unowned es unopened refs) (hnot : ∀ p ∈ out.pages, p ∈ unopened₁ ∨ 0 < refs₁ p) :
    TakesFree es mm mm₁ out := by
  refine ⟨ha, fun p hp => (hsub hp).1, fun p hp => ?_⟩
  have hpages := (hsub hp).1
  refine ⟨(h.state.freeAt_iff hpages).mpr (hsub hp), fun hf => ?_⟩
  obtain ⟨-, hu, hr⟩ := (h₁.state.freeAt_iff hpages).mp hf
  rcases hnot p hp with hp | hp
  · exact hu hp
  · exact hp.ne' hr

theorem Owned.closeFrees [TinyMT σ] (h : Owned es mm unopened refs) (hin : Set.Ico a (a + n) ⊆ pagesOf es)
    (hr : ∀ p ∈ Set.Ico a (a + n), 0 < refs p) :
    ∃ mm₁, mm.close (a * PageSize) n = some mm₁ ∧
      (∀ p ∈ pagesOf es, mm₁.FreeAt p ↔ mm.FreeAt p ∨ (p ∈ Set.Ico a (a + n) ∧ mm₁.countAt p = some 0)) ∧
      mm₁.getFreeSize = mm.getFreeSize + {p | p ∈ Set.Ico a (a + n) ∧ mm₁.countAt p = some 0}.ncard * PageSize := by
  obtain ⟨mm₁, hrun, -, hst⟩ := h.close hin hr
  -- the pages whose count reaches zero had one reference
  have hlast : {p | p ∈ Set.Ico a (a + n) ∧ mm₁.countAt p = some 0} = lastRefs refs a (a + n) := by
    ext p
    constructor
    · rintro ⟨hp, hc⟩
      have hcount := hst.countAt_eq (hin hp)
      have hdrop : dropRefs refs a (a + n) p = refs p - 1 := if_pos hp
      rw [hc, hdrop, Option.some.injEq] at hcount
      have hpos := hr p hp
      exact ⟨hp.1, hp.2, by omega⟩
    · rintro ⟨h1, h2, h3⟩
      have hp : p ∈ Set.Ico a (a + n) := ⟨h1, h2⟩
      have hdrop : dropRefs refs a (a + n) p = refs p - 1 := if_pos hp
      refine ⟨hp, ?_⟩
      rw [hst.countAt_eq (hin hp), hdrop, h3]
  have hmem : ∀ p, (p ∈ Set.Ico a (a + n) ∧ mm₁.countAt p = some 0) ↔ p ∈ lastRefs refs a (a + n) := fun p => by
    rw [← hlast]
    exact Iff.rfl
  refine ⟨mm₁, hrun, fun p hp => ?_, ?_⟩
  · rw [hst.freeAt_iff hp, h.state.freeAt_iff hp, hmem]
    exact Iff.rfl
  · obtain ⟨hsize, hfin⟩ := h.state.getFreeSize
    obtain ⟨hsize₁, -⟩ := hst.getFreeSize
    have hfin₁ : (lastRefs refs a (a + n)).Finite := (finite_Ico a (a + n)).subset fun p hp => ⟨hp.1, hp.2.1⟩
    have hdis : Disjoint (unowned es unopened refs) (lastRefs refs a (a + n)) :=
      disjoint_left.mpr fun p hp hp' => by
        have h0 := hp.2.2
        have h1 := hp'.2.2
        omega
    rw [hlast, hsize, hsize₁, ncard_union_eq hdis hfin hfin₁, Nat.add_mul]

/-- Two managers of the application pool, the second right behind the first. -/
def adjacentPages : List Extent := [⟨16, 1, .application⟩, ⟨17, 1, .application⟩]

theorem layout_adjacentPages : Layout adjacentPages 256 1 := by
  have hdis : ∀ {a b c d : ℕ}, b ≤ c → Disjoint (Set.Ico a b) (Set.Ico c d) := fun hbc =>
    disjoint_left.mpr fun p hp hp' => absurd (hp.2.trans_le hbc) (not_lt.mpr hp'.1)
  refine ⟨by decide, ?_, by decide, ?_⟩
  · exact List.pairwise_pair.mpr (hdis (by decide))
  · intro e he
    rcases List.mem_pair.mp he with rfl | rfl
    · exact .inr (hdis (by decide)).symm
    · exact .inr (hdis (by decide)).symm

/-- The memory manager of these managers. -/
def initializeAdjacent : Option (KMemoryManager Unit) :=
  initializeManagers ⟨(), 0, 0⟩ (fun _ => ⟨(), 0, 0⟩) (adjacentPages.map Extent.region) (256 * PageSize) (1 * PageSize)

/-- The first block that three pages are gathered from begins in the first manager and ends in the second one. -/
theorem not_undoCovers_adjacent {mm : KMemoryManager Unit} {F : Set ℕ} {refs : ℕ → ℕ}
    (hadjacent : initializeAdjacent = some mm) (hstate : mm.State adjacentPages F refs) :
    ¬ @UndoCovers Unit constantTinyMT mm ⟨[], 4⟩ 3 .application .fromFront false := by
  have hcollected : (initializeAdjacent.bind fun mm =>
      (@collected Unit constantTinyMT mm ⟨[], 4⟩ 3 .application .fromFront false).map fun x =>
        (x.1, x.2.out.blocks, x.2.numPages)) = some (true, [⟨16, 2⟩], 1) := by decide +kernel
  rw [hadjacent, bind_some] at hcollected
  obtain ⟨⟨ok, s⟩, hs, hblocks⟩ := map_eq_some_iff.mp hcollected
  simp only [Prod.mk.injEq] at hblocks
  obtain ⟨rfl, hout, hnum⟩ := hblocks
  intro hcovers
  obtain ⟨m, hm, hst⟩ := hstate.get (show adjacentPages[0]? = some ⟨16, 1, .application⟩ from rfl)
  have hget := hstate.getManager (show adjacentPages[0]? = some ⟨16, 1, .application⟩ from rfl)
    (show 16 ∈ Set.Ico 16 (16 + 1) from ⟨le_rfl, by decide⟩)
  have hle := hcovers true s hs (fun h => by omega) ⟨16, 2⟩ (by rw [hout]; exact List.mem_singleton_self _) 0 m hget hm
  rw [hst.endAddress] at hle
  exact absurd hle (by decide)

end KMemoryManager

end Kernel
end Citron
