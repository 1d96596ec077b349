/-
# Allocating all pages or none

`AllocatePageGroupImpl` gives as many pages as it was asked for, or it fails and gives all it has gathered back. It does give
back all, unless a block of the group was gathered from adjacent managers (`allocatePageGroupImpl_allOrNothing`).
-/
import Citron.Kernel.MemoryManagerRun

namespace Citron
namespace Kernel

open KPageHeap Option

namespace KPageGroup

variable {l : List KBlockInfo}

theorem Apart.tail {b : KBlockInfo} (h : Apart (b :: l)) : Apart l :=
  ⟨fun c hc => h.nonempty c (List.mem_cons_of_mem _ hc), (List.pairwise_cons.mp h.disjoint).2⟩

theorem ncard_pages_block (b : KBlockInfo) : b.pages.ncard = b.numPages := by
  rw [KBlockInfo.pages, ← Finset.coe_Ico, Set.ncard_coe_finset, Nat.card_Ico, Nat.add_sub_cancel_left]

/-- The pages of blocks that are apart are as many as the blocks say. -/
theorem Apart.ncard_pages (manager : ℕ) : ∀ {l : List KBlockInfo}, Apart l →
    (KPageGroup.pages ⟨l, manager⟩).Finite ∧
      (KPageGroup.pages ⟨l, manager⟩).ncard = KPageGroup.size ⟨l, manager⟩
  | [], _ => by
    rw [pages_of_nil rfl]
    exact ⟨Set.finite_empty, Set.ncard_empty _⟩
  | b :: l, h => by
    obtain ⟨hfinite, hcard⟩ := h.tail.ncard_pages manager
    have hsplit : KPageGroup.pages ⟨b :: l, manager⟩ = b.pages ∪ KPageGroup.pages ⟨l, manager⟩ := by
      have hone : KPageGroup.pages ⟨[b], manager⟩ = b.pages := pages_singleton
      rw [← hone, ← pages_append]
      rfl
    have hdisjoint : Disjoint b.pages (KPageGroup.pages ⟨l, manager⟩) := by
      rw [Set.disjoint_left]
      rintro p hp ⟨c, hc, hpc⟩
      exact Set.disjoint_left.mp ((List.pairwise_cons.mp h.disjoint).1 c hc) hp hpc
    have hblock : b.pages.Finite := Set.finite_Ico _ _
    rw [hsplit]
    refine ⟨hblock.union hfinite, ?_⟩
    rw [Set.ncard_union_eq hdisjoint hblock hfinite, ncard_pages_block, hcard]
    rfl

end KPageGroup

namespace KMemoryManager

variable {σ : Type} {mm mm₁ : KMemoryManager σ} {es : List Extent} {F G : Set ℕ} {refs : ℕ → ℕ}

/-- The free pages of a manager. -/
def freeSet (mm : KMemoryManager σ) (k : ℕ) : Option (Set ℕ) := (mm.managers[k]?).map fun m => m.heap.freePages

theorem State.freeSet_eq (h : mm.State es F refs) (k : ℕ) : mm.freeSet k = (es[k]?).map fun e => F ∩ e.pages := by
  unfold freeSet
  rcases Nat.lt_or_ge k es.length with hlt | hge
  · obtain ⟨m, hm, hst⟩ := h.get (List.getElem?_eq_getElem hlt)
    rw [hm, List.getElem?_eq_getElem hlt, map_some, map_some, hst.free]
  · rw [List.getElem?_eq_none (h.length ▸ hge), List.getElem?_eq_none hge]
    rfl

/-- Pages that are missing are missed by some manager. -/
theorem State.freeSet_eq_iff (h : mm.State es F refs) (h₁ : mm₁.State es (F \ G) refs) (hG : G ⊆ F) :
    (∀ k, mm₁.freeSet k = mm.freeSet k) ↔ G = ∅ := by
  constructor
  · intro hsame
    refine Set.eq_empty_of_forall_notMem fun p hp => ?_
    obtain ⟨e, he, hpe⟩ := h.sub (hG hp)
    obtain ⟨k, hk⟩ := List.mem_iff_getElem?.mp he
    have hk' := hsame k
    rw [h.freeSet_eq, h₁.freeSet_eq, hk, map_some, map_some, some_inj] at hk'
    have hmem : p ∈ F \ G ∩ e.pages := hk' ▸ ⟨hG hp, hpe⟩
    exact hmem.1.2 hp
  · rintro rfl k
    rw [h.freeSet_eq, h₁.freeSet_eq, Set.sdiff_empty]

variable [TinyMT σ]

/-- A call gives all pages it was asked for, each once and taken from the free ones, or it leaves the free pages of every
manager as they were, and the group empty. -/
def AllOrNothing (mm : KMemoryManager σ) (out : KPageGroup) (numPages : ℕ) (pool : Pool) (dir : Direction)
    (random : Bool) : Prop :=
  ∃ r mm₁ out₁, mm.allocatePageGroupImpl out numPages pool dir random = some (r, mm₁, out₁) ∧
    (r = .success → out₁.size = numPages ∧ out₁.pages.ncard = numPages ∧
      ∀ p ∈ out₁.pages, (∃ k free, mm.freeSet k = some free ∧ p ∈ free) ∧
        ∀ k free, mm₁.freeSet k = some free → p ∉ free) ∧
    (r ≠ .success → (∀ k, mm₁.freeSet k = mm.freeSet k) ∧ out₁.blocks = [])

section

variable (h : mm.State es F refs) {out : KPageGroup} (hout : out.blocks = [])
include h hout

/-- A call gives all pages or none exactly if no block that it has to give back was gathered from adjacent managers. -/
theorem State.allOrNothing_iff (numPages : ℕ) (pool : Pool) (dir : Direction) (random : Bool) :
    mm.AllOrNothing out numPages pool dir random ↔ mm.UndoCovers out numPages pool dir random := by
  obtain ⟨r, mm₁, out₁, hrun, hcase⟩ := h.allocatePageGroupImpl hout numPages pool dir random
  have hunique : mm.AllOrNothing out numPages pool dir random ↔
      (r = .success → out₁.size = numPages ∧ out₁.pages.ncard = numPages ∧
        ∀ p ∈ out₁.pages, (∃ k free, mm.freeSet k = some free ∧ p ∈ free) ∧
          ∀ k free, mm₁.freeSet k = some free → p ∉ free) ∧
      (r ≠ .success → (∀ k, mm₁.freeSet k = mm.freeSet k) ∧ out₁.blocks = []) := by
    constructor
    · rintro ⟨r', mm', out', hrun', hgive⟩
      rw [hrun] at hrun'
      cases hrun'
      exact hgive
    · exact fun hgive => ⟨r, mm₁, out₁, hrun, hgive⟩
  rw [hunique]
  rcases hcase with ⟨rfl, hsize, hapart, hsub, h₁, hundo⟩ | ⟨hfail, hblocks, G, hG, h₁, hiff⟩
  · refine iff_of_true ⟨fun _ => ⟨hsize, ?_, fun p hp => ⟨?_, ?_⟩⟩, fun hne => absurd rfl hne⟩ hundo
    · rw [← hsize]
      exact (hapart.ncard_pages out₁.manager).2
    · obtain ⟨e, he, hpe⟩ := h.sub (hsub hp)
      obtain ⟨k, hk⟩ := List.mem_iff_getElem?.mp he
      exact ⟨k, F ∩ e.pages, by rw [h.freeSet_eq, hk]; rfl, hsub hp, hpe⟩
    · intro k free hfree hmem
      rw [h₁.freeSet_eq] at hfree
      obtain ⟨e, -, rfl⟩ := map_eq_some_iff.mp hfree
      exact hmem.1.2 hp
  · rw [← hiff, ← h.freeSet_eq_iff h₁ hG]
    constructor
    · rintro ⟨-, hnothing⟩
      exact (hnothing hfail).1
    · exact fun hsame => ⟨fun hsuccess => absurd hsuccess hfail, fun _ => ⟨hsame, hblocks⟩⟩

/-- What the loops gather, before anything is undone. -/
theorem State.collects {numPages : ℕ} {pool : Pool} {dir : Direction} {random ok : Bool} {s : GroupState σ}
    (hrun : mm.collected out numPages pool dir random = some (ok, s)) : Collects es F refs numPages s := by
  unfold collected at hrun
  cases hi : getBlockIndex numPages with
  | none =>
    rw [hi] at hrun
    cases hrun
  | some i =>
    obtain ⟨ok', s', hrun', hs⟩ := (h.collects_start hout numPages).allocateSizes (h.poolManagers_lt pool dir) random
      (Nat.succ_le_of_lt (getBlockIndex_lt hi))
    rw [hi, bind_eq_bind, bind_some, hrun'] at hrun
    cases hrun
    exact hs

/-- Managers that are not adjacent never share a block. -/
theorem State.undoCovers_of_separated
    (hseparated : ∀ d ∈ es, ∀ e ∈ es, d.base + d.len ≠ e.base) (numPages : ℕ) (pool : Pool) (dir : Direction)
    (random : Bool) : mm.UndoCovers out numPages pool dir random := by
  intro ok s hrun _ b hb k m hk hm
  have hs := h.collects hout hrun
  have hpages : b.pages ⊆ pagesOf es := fun p hp => h.sub (hs.sub ⟨b, hb, hp⟩)
  have hpos := hs.apart.nonempty b hb
  obtain ⟨e, he, hpe⟩ := hpages (show b.pageIndex ∈ b.pages from ⟨le_rfl, by omega⟩)
  obtain ⟨j, hj⟩ := List.mem_iff_getElem?.mp he
  obtain rfl : j = k := Option.some.inj ((h.getManager hj hpe).symm.trans hk)
  obtain ⟨m', hm', hst⟩ := h.get hj
  obtain rfl : m' = m := Option.some.inj (hm'.symm.trans hm)
  rw [hst.endAddress]
  refine Nat.mul_le_mul_right _ ?_
  by_contra hgt
  -- the page behind the manager belongs to another one, which begins there or has the manager's last page too
  have hfirst := hpe.1
  have hlast := hpe.2
  obtain ⟨d, hd, hpd⟩ := hpages (show e.base + e.len ∈ b.pages from ⟨by omega, by omega⟩)
  obtain ⟨i, hi⟩ := List.mem_iff_getElem?.mp hd
  have hbase := hseparated e he d hd
  have hd₁ := hpd.1
  have hd₂ := hpd.2
  have hne : i ≠ j := by
    rintro rfl
    obtain rfl : d = e := Option.some.inj (hi.symm.trans hj)
    omega
  have hlastd : e.base + e.len - 1 ∈ d.pages := ⟨by omega, by omega⟩
  have hlaste : e.base + e.len - 1 ∈ e.pages := ⟨by omega, by omega⟩
  exact Set.disjoint_left.mp (h.apart i j d e hi hj hne) hlastd hlaste

end

end KMemoryManager

end Kernel
end Citron
