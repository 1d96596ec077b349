/-
# Ranges of several managers

What all managers together say of their pages (`KMemoryManager.State`), and the calls
that go through a range manager by manager: `Open` and `OpenFirst` add a reference to
each page of the range, and `Close` takes one away, and frees the pages that lose
their last one.
-/
import Citron.Kernel.MemoryManagerPages

namespace Citron

open Set

namespace Kernel

open KPageHeap

/-- The pages of all managers. -/
def pagesOf (es : List Extent) : Set ℕ := {p | ∃ e ∈ es, p ∈ e.pages}

variable {σ : Type}

/-- The managers have the regions, which are disjoint, the free pages and the counts. -/
structure KMemoryManager.State (mm : KMemoryManager σ) (es : List Extent) (F : Set ℕ) (refs : ℕ → ℕ) : Prop where
  length : mm.managers.length = es.length
  apart : ∀ (j k : ℕ) (d e : Extent), es[j]? = some d → es[k]? = some e → j ≠ k → Disjoint d.pages e.pages
  each : ∀ (k : ℕ) (m : Impl σ) (e : Extent), mm.managers[k]? = some m → es[k]? = some e →
    m.State e (F ∩ e.pages) refs
  sub : F ⊆ pagesOf es

namespace KMemoryManager

variable {mm : KMemoryManager σ} {es : List Extent} {F G : Set ℕ} {refs refs₁ : ℕ → ℕ} {e : Extent} {k p a n : ℕ}

theorem State.get (h : mm.State es F refs) (he : es[k]? = some e) :
    ∃ m, mm.managers[k]? = some m ∧ m.State e (F ∩ e.pages) refs := by
  obtain ⟨hk, -⟩ := List.getElem?_eq_some_iff.mp he
  rw [← h.length] at hk
  have hm : mm.managers[k]? = some mm.managers[k] := List.getElem?_eq_getElem hk
  exact ⟨_, hm, h.each k _ e hm he⟩

theorem State.holds_iff {m : Impl σ} (hm : m.State e F refs) :
    (m.heap.heapAddress ≤ p * PageSize && p * PageSize < m.getEndAddress) = true ↔ p ∈ e.pages := by
  rw [hm.address, hm.endAddress]
  simp only [Bool.and_eq_true, decide_eq_true_eq, Extent.pages, mem_Ico, PageSize]
  omega

theorem State.getManager (h : mm.State es F refs) (he : es[k]? = some e) (hp : p ∈ e.pages) :
    mm.getManager (p * PageSize) = some k := by
  obtain ⟨m, hm, hst⟩ := h.get he
  obtain ⟨hk, hmk⟩ := List.getElem?_eq_some_iff.mp hm
  refine List.findIdx?_eq_some_iff_getElem.mpr ⟨hk, ?_, fun j hj => ?_⟩
  · rw [hmk]
    exact (State.holds_iff hst).mpr hp
  · -- no other manager holds the page
    have hmj : mm.managers[j]? = some mm.managers[j] := List.getElem?_eq_getElem _
    obtain ⟨d, hd⟩ : ∃ d, es[j]? = some d := ⟨_, List.getElem?_eq_getElem (h.length ▸ hj.trans hk)⟩
    have hstj := h.each j _ d hmj hd
    intro hin
    exact disjoint_left.mp (h.apart j k d e hd he hj.ne) ((State.holds_iff hstj).mp hin) hp

/-- Another state of one manager. -/
theorem State.set (h : mm.State es F refs) (he : es[k]? = some e) {m : Impl σ}
    (hm : m.State e (G ∩ e.pages) refs₁) (hF : ∀ p, p ∉ e.pages → (p ∈ G ↔ p ∈ F))
    (hr : ∀ p, p ∉ e.pages → refs₁ p = refs p) : (mm.setManager k m).State es G refs₁ := by
  refine ⟨(List.length_set ..).trans h.length, h.apart, fun j m₁ d hj hd => ?_, fun p hp => ?_⟩
  · obtain ⟨hk, -⟩ := List.getElem?_eq_some_iff.mp he
    by_cases hjk : k = j
    · subst hjk
      rw [setManager, List.getElem?_set_self (h.length ▸ hk), Option.some.injEq] at hj
      obtain rfl : e = d := Option.some.inj (he.symm.trans hd)
      rwa [← hj]
    · rw [setManager, List.getElem?_set_ne hjk] at hj
      have hdis := h.apart k j e d he hd hjk
      refine (h.each j m₁ d hj hd).congr ?_ fun p hp => (hr p (disjoint_right.mp hdis hp)).symm
      ext p
      refine and_congr_left fun hp => (hF p (disjoint_right.mp hdis hp)).symm
  · by_cases hpe : p ∈ e.pages
    · exact ⟨e, List.mem_of_getElem? he, hpe⟩
    · exact h.sub ((hF p hpe).mp hp)

theorem State.congr (h : mm.State es F refs) (hF : F = G) (hr : ∀ p ∈ pagesOf es, refs p = refs₁ p) :
    mm.State es G refs₁ := by
  refine ⟨h.length, h.apart, fun k m e hm he => ?_, hF ▸ h.sub⟩
  exact (h.each k m e hm he).congr (by rw [hF]) fun p hp => hr p ⟨e, List.mem_of_getElem? he, hp⟩

/-! ### The pieces of a range -/

/-- The part of a range that lies in the manager of its first page. -/
theorem State.piece (h : mm.State es F refs) (hn : 0 < n) (hin : Set.Ico a (a + n) ⊆ pagesOf es) :
    ∃ (k : ℕ) (e : Extent) (m : Impl σ) (c : ℕ), es[k]? = some e ∧ mm.getManager (a * PageSize) = some k ∧
      mm.managers[k]? = some m ∧ m.State e (F ∩ e.pages) refs ∧
      c = min n (m.getPageOffsetToEnd (a * PageSize)) ∧ 0 < c ∧ c ≤ n ∧ Set.Ico a (a + c) ⊆ e.pages := by
  obtain ⟨e, he, hp⟩ := hin (show a ∈ Set.Ico a (a + n) from ⟨le_rfl, by omega⟩)
  obtain ⟨k, hk⟩ := List.mem_iff_getElem?.mp he
  obtain ⟨m, hm, hst⟩ := h.get hk
  have hp1 := hp.1
  have hp2 := hp.2
  refine ⟨k, e, m, _, hk, h.getManager hk hp, hm, hst, rfl, ?_, Nat.min_le_left .., fun q hq => ?_⟩
  · rw [hst.pageOffsetToEnd]
    omega
  · rw [hst.pageOffsetToEnd, mem_Ico] at hq
    exact ⟨by omega, by omega⟩

theorem forRange_zero {f : Impl σ → ℕ → ℕ → Option (Impl σ)} (fuel address : ℕ) :
    forRange f fuel mm address 0 = some mm := by
  unfold forRange
  rfl

theorem forRange_step {f : Impl σ → ℕ → ℕ → Option (Impl σ)} {fuel c : ℕ} {m m₁ : Impl σ} (hn : 0 < n)
    (hk : mm.getManager (a * PageSize) = some k) (hm : mm.managers[k]? = some m)
    (hc : c = min n (m.getPageOffsetToEnd (a * PageSize))) (hf : f m (a * PageSize) c = some m₁) :
    forRange f (fuel + 1) mm (a * PageSize) n =
      forRange f fuel (mm.setManager k m₁) ((a + c) * PageSize) (n - c) := by
  obtain ⟨n, rfl⟩ := Nat.exists_eq_succ_of_ne_zero hn.ne'
  conv_lhs => unfold forRange
  simp only [hk, hm, Option.bind_eq_bind, Option.bind_some, ← hc, hf, Nat.add_mul]

/-- `Open` and `OpenFirst`. -/
theorem State.openRange : ∀ {fuel n : ℕ} {mm : KMemoryManager σ} {refs : ℕ → ℕ} {a : ℕ}, n ≤ fuel →
    mm.State es F refs → Set.Ico a (a + n) ⊆ pagesOf es → (∀ p, a ≤ p → p < a + n → refs p + 1 < 65536) →
    ∃ mm₁, forRange Impl.openPages fuel mm (a * PageSize) n = some mm₁ ∧
      mm₁.State es F (addRefs refs a (a + n)) := by
  intro fuel
  induction fuel with
  | zero =>
    intro n mm refs a hn h hin hc
    obtain rfl : n = 0 := by omega
    refine ⟨mm, forRange_zero .., h.congr rfl fun p _ => ?_⟩
    unfold addRefs
    rw [if_neg (by omega)]
  | succ fuel ih =>
    intro n mm refs a hn h hin hc
    rcases Nat.eq_zero_or_pos n with rfl | hpos
    · refine ⟨mm, forRange_zero .., h.congr rfl fun p _ => ?_⟩
      unfold addRefs
      rw [if_neg (by omega)]
    obtain ⟨k, e, m, c, he, hk, hm, hst, hceq, hc0, hcn, hsub⟩ := h.piece hpos hin
    obtain ⟨m₁, hrun, hst₁⟩ := hst.openPages hsub hc0 fun p hp1 hp2 => hc p hp1 (by omega)
    have hset := h.set he hst₁ (fun _ _ => Iff.rfl) fun p hp => by
      exact if_neg fun hp' => hp (hsub hp')
    have hrest : Set.Ico (a + c) (a + c + (n - c)) ⊆ pagesOf es := fun p hp => hin
      ⟨by have := hp.1; omega, by have := hp.2; omega⟩
    obtain ⟨mm₁, hrun₁, hst₂⟩ := ih (by omega) hset hrest fun p hp1 hp2 => by
      unfold addRefs
      rw [if_neg (by omega)]
      exact hc p (by omega) (by omega)
    refine ⟨mm₁, (forRange_step hpos hk hm hceq hrun).trans hrun₁, ?_⟩
    rw [addRefs_add, Nat.sub_add_cancel hcn] at hst₂
    exact hst₂

/-- `Close`. -/
theorem State.closeRange [TinyMT σ] : ∀ {fuel n : ℕ} {mm : KMemoryManager σ} {F : Set ℕ} {refs : ℕ → ℕ} {a : ℕ}, n ≤ fuel →
    mm.State es F refs → Set.Ico a (a + n) ⊆ pagesOf es →
    (∀ p, a ≤ p → p < a + n → 0 < refs p ∧ p ∉ F) →
    ∃ mm₁, forRange Impl.close fuel mm (a * PageSize) n = some mm₁ ∧
      mm₁.State es (F ∪ lastRefs refs a (a + n)) (dropRefs refs a (a + n)) := by
  have hzero : ∀ {mm : KMemoryManager σ} {F : Set ℕ} {refs : ℕ → ℕ} {a : ℕ}, mm.State es F refs →
      mm.State es (F ∪ lastRefs refs a (a + 0)) (dropRefs refs a (a + 0)) := by
    intro mm F refs a h
    have hnil : lastRefs refs a (a + 0) = ∅ := by
      ext p
      simp only [lastRefs, mem_ofPred_eq, mem_empty_iff_false, iff_false]
      omega
    refine h.congr (by rw [hnil, union_empty]) fun p _ => ?_
    unfold dropRefs
    rw [if_neg (by omega)]
  intro fuel
  induction fuel with
  | zero =>
    intro n mm F refs a hn h hin hp
    obtain rfl : n = 0 := by omega
    exact ⟨mm, forRange_zero .., hzero h⟩
  | succ fuel ih =>
    intro n mm F refs a hn h hin hp
    rcases Nat.eq_zero_or_pos n with rfl | hpos
    · exact ⟨mm, forRange_zero .., hzero h⟩
    obtain ⟨k, e, m, c, he, hk, hm, hst, hceq, hc0, hcn, hsub⟩ := h.piece hpos hin
    obtain ⟨m₁, hrun, hst₁⟩ := hst.close hsub hc0 fun p hp1 hp2 =>
      ⟨(hp p hp1 (by omega)).1, fun hmem => (hp p hp1 (by omega)).2 hmem.1⟩
    have hlast : ∀ p ∈ lastRefs refs a (a + c), p ∈ e.pages := fun p hp => hsub ⟨hp.1, hp.2.1⟩
    have hset := h.set (G := F ∪ lastRefs refs a (a + c)) he (hst₁.congr (by
        rw [union_inter_distrib_right, inter_eq_left.mpr hlast]) fun _ _ => rfl)
      (fun p hpe => or_iff_left fun hmem => hpe (hlast p hmem)) fun p hp => by
        exact if_neg fun hp' => hp (hsub hp')
    have hrest : Set.Ico (a + c) (a + c + (n - c)) ⊆ pagesOf es := fun p hp => hin
      ⟨by have := hp.1; omega, by have := hp.2; omega⟩
    obtain ⟨mm₁, hrun₁, hst₂⟩ := ih (by omega) hset hrest fun p hp1 hp2 => by
      obtain ⟨h1, h2⟩ := hp p (by omega) (by omega)
      refine ⟨?_, ?_⟩
      · unfold dropRefs
        rwa [if_neg (by omega)]
      · rintro (hmem | hmem)
        · exact h2 hmem
        · have := hmem.2.1
          omega
    refine ⟨mm₁, (forRange_step hpos hk hm hceq hrun).trans hrun₁, ?_⟩
    rw [union_assoc, ← lastRefs_add, dropRefs_add, Nat.sub_add_cancel hcn] at hst₂
    exact hst₂

end KMemoryManager
end Kernel

/-! ## Allocation of page groups

`AllocatePageGroupImpl` takes blocks of free pages, and collects them in a page group
(`Collects`). If it fails it frees the blocks of the group again, but of each block
only the part in the manager of its first page (`kept`): a block that adjacent
managers gave in turn is one block of the group, and loses the rest.
-/

namespace Kernel

open KPageHeap

/-! ### Page groups -/

def KBlockInfo.pages (b : KBlockInfo) : Set ℕ := Set.Ico b.pageIndex (b.pageIndex + b.numPages)

namespace KPageGroup

def pages (g : KPageGroup) : Set ℕ := {p | ∃ b ∈ g.blocks, p ∈ b.pages}

/-- The number of pages of the group. -/
def size (g : KPageGroup) : ℕ := (g.blocks.map KBlockInfo.numPages).sum

/-- No block is empty, and no two blocks share a page. -/
structure Apart (blocks : List KBlockInfo) : Prop where
  nonempty : ∀ b ∈ blocks, 0 < b.numPages
  disjoint : blocks.Pairwise fun b c => Disjoint b.pages c.pages

variable {g g₁ : KPageGroup} {a n : ℕ} {b : KBlockInfo} {l : List KBlockInfo}

theorem Apart.disjoint_of_ne {c : KBlockInfo} (h : Apart l) (hb : b ∈ l) (hc : c ∈ l) (hne : b ≠ c) :
    Disjoint b.pages c.pages := by
  exact h.disjoint.forall hb hc hne

theorem pages_of_nil (h : g.blocks = []) : g.pages = ∅ := by
  ext p
  simp [pages, h]

theorem pages_append {x : List KBlockInfo} {manager : ℕ} :
    KPageGroup.pages ⟨l ++ x, manager⟩ = KPageGroup.pages ⟨l, manager⟩ ∪ KPageGroup.pages ⟨x, manager⟩ := by
  ext p
  simp only [pages, List.mem_append, mem_union, mem_ofPred_eq, or_and_right, exists_or]

theorem pages_singleton {manager : ℕ} : KPageGroup.pages ⟨[b], manager⟩ = b.pages := by
  ext p
  simp only [pages, List.mem_singleton, mem_ofPred_eq, exists_eq_left]

/-- The blocks before the last one, and another last one. -/
theorem Apart.concat (hl : Apart l) (hb : 0 < b.numPages) (hd : ∀ c ∈ l, Disjoint c.pages b.pages) :
    Apart (l ++ [b]) := by
  refine ⟨fun c hc => ?_, List.pairwise_append.mpr ⟨hl.disjoint, List.pairwise_singleton _ _, fun c hc d hd' => ?_⟩⟩
  · rcases List.mem_append.mp hc with hc | hc
    · exact hl.nonempty c hc
    · rwa [List.mem_singleton.mp hc]
  · rw [List.mem_singleton.mp hd']
    exact hd c hc

theorem addBlock_spec (h : Apart g.blocks) (hn : 0 < n) (hd : Disjoint (Set.Ico a (a + n)) g.pages)
    (hadd : g.addBlock (a * PageSize) n = some g₁) :
    g₁.pages = g.pages ∪ Set.Ico a (a + n) ∧ Apart g₁.blocks ∧ g₁.size = g.size + n := by
  have hdb : ∀ c ∈ g.blocks, Disjoint c.pages (Set.Ico a (a + n)) := by
    intro c hc
    have hsub : c.pages ⊆ g.pages := fun p hp => ⟨c, hc, hp⟩
    exact hd.symm.mono_left hsub
  unfold addBlock at hadd
  rw [if_neg hn.ne'] at hadd
  cases hlast : g.blocks.getLast?.bind (·.tryConcatenate (a * PageSize) n) with
  | some last =>
    -- the pages follow those of the last block
    rw [hlast, Option.some.injEq] at hadd
    obtain ⟨b, hb, hcat⟩ := Option.bind_eq_some_iff.mp hlast
    unfold KBlockInfo.tryConcatenate at hcat
    split_ifs at hcat with hend
    obtain ⟨l, hl⟩ := List.getLast?_eq_some_iff.mp hb
    have haddr : a = b.pageIndex + b.numPages := Nat.eq_of_mul_eq_mul_right (by decide) hend.2
    have hpages : last.pages = b.pages ∪ Set.Ico a (a + n) := by
      rw [← Option.some.inj hcat, haddr, KBlockInfo.pages, KBlockInfo.pages,
        Set.Ico_union_Ico_eq_Ico (Nat.le_add_right ..) (Nat.le_add_right ..), Nat.add_assoc]
    have hnum : last.numPages = b.numPages + n := by rw [← Option.some.inj hcat]
    obtain ⟨blocks, manager⟩ := g
    subst hl
    rw [List.dropLast_concat] at hadd
    subst hadd
    obtain ⟨h1, h2, h3⟩ := List.pairwise_append.mp h.disjoint
    refine ⟨?_, ?_, ?_⟩
    · rw [pages_append, pages_append, pages_singleton, pages_singleton, hpages, union_assoc]
    · refine Apart.concat ⟨fun c hc => h.nonempty c (List.mem_append_left _ hc), h1⟩ (by omega) fun c hc => ?_
      rw [hpages]
      exact (h3 c hc b (List.mem_singleton_self b)).union_right (hdb c (List.mem_append_left _ hc))
    · simp only [size, List.map_append, List.map_cons, List.map_nil, List.sum_append, List.sum_singleton, hnum]
      omega
  | none =>
    rw [hlast] at hadd
    cases hm : g.manager with
    | zero =>
      rw [hm] at hadd
      cases hadd
    | succ manager =>
      rw [hm, Option.some.injEq] at hadd
      subst hadd
      have hblock : (⟨a * PageSize / PageSize, n⟩ : KBlockInfo).pages = Set.Ico a (a + n) := by
        unfold KBlockInfo.pages
        rw [Nat.mul_div_cancel _ (by decide)]
      refine ⟨?_, h.concat hn fun c hc => hblock ▸ hdb c hc, ?_⟩
      · rw [pages_append, pages_singleton, hblock]
        rfl
      · simp only [size, List.map_append, List.map_cons, List.map_nil, List.sum_append, List.sum_singleton]

end KPageGroup

namespace KMemoryManager

variable {σ : Type} {mm : KMemoryManager σ} {es : List Extent} {F : Set ℕ} {refs : ℕ → ℕ} {k total : ℕ}
  {e : Extent} {s : GroupState σ}

/-! ### The loops -/

/-- The group holds pages that were free before. -/
structure Collects (es : List Extent) (F : Set ℕ) (refs : ℕ → ℕ) (total : ℕ) (s : GroupState σ) : Prop where
  state : s.mm.State es (F \ s.out.pages) refs
  sub : s.out.pages ⊆ F
  apart : KPageGroup.Apart s.out.blocks
  total : s.out.size + s.numPages = total

theorem getBlockNumPages_pos (i : ℕ) : 0 < getBlockNumPages i :=
  Nat.div_pos (Nat.le_of_dvd (bytes_pos i) (pageSize_dvd_bytes i)) (by decide)

theorem Collects.allocateWhile [TinyMT σ] {index : ℕ} (hi : index < 7) (he : es[k]? = some e) (random : Bool) :
    ∀ {fuel : ℕ} {s : GroupState σ}, s.numPages < fuel → Collects es F refs total s →
      ∃ ok s₁, allocateWhile k index (getBlockNumPages index) random fuel s = some (ok, s₁) ∧
        Collects es F refs total s₁ := by
  intro fuel
  induction fuel with
  | zero => exact fun hlt => absurd hlt (Nat.not_lt_zero _)
  | succ fuel ih =>
    intro s hlt h
    have hpos := getBlockNumPages_pos index
    unfold KMemoryManager.allocateWhile
    by_cases hle : getBlockNumPages index ≤ s.numPages
    · rw [if_pos hle]
      obtain ⟨m, hm, hst⟩ := h.state.get he
      obtain ⟨addr, heap, hrun, hcase⟩ := hst.allocateBlock hi random
      simp only [hm, hrun, Option.bind_eq_bind, Option.bind_some]
      rcases hcase with ⟨rfl, hst₁⟩ | ⟨a, ha, rfl, hsub, hst₁⟩
      · rw [if_pos rfl]
        exact ⟨true, _, rfl, ⟨h.state.set he hst₁ (fun _ _ => Iff.rfl) fun _ _ => rfl, h.sub, h.apart, h.total⟩⟩
      · rw [if_neg (Nat.mul_pos ha (by decide)).ne']
        set new := Set.Ico a (a + getBlockNumPages index) with hnew
        have hin : new ⊆ e.pages := fun p hp => (hsub hp).2
        have hdis : Disjoint new s.out.pages := disjoint_left.mpr fun p hp => (hsub hp).1.2
        cases hadd : s.out.addBlock (a * PageSize) (getBlockNumPages index) with
        | none =>
          -- the block goes back to the heap
          obtain ⟨heap₁, hheap, hst₂⟩ := hst₁.freeHeap hin disjoint_sdiff_right
          simp only [hheap, Option.bind_some]
          rw [sdiff_union_of_subset hsub] at hst₂
          exact ⟨false, _, rfl, ⟨h.state.set he hst₂ (fun _ _ => Iff.rfl) fun _ _ => rfl, h.sub, h.apart, h.total⟩⟩
        | some out =>
          obtain ⟨hpages, hapart, hsize⟩ := KPageGroup.addBlock_spec h.apart hpos hdis hadd
          have hstate : (s.mm.setManager k { m with heap }).State es (F \ out.pages) refs := by
            rw [hpages, ← Set.sdiff_sdiff]
            refine h.state.set he (hst₁.congr ?_ fun _ _ => rfl) (fun p hp => ?_) fun _ _ => rfl
            · rw [inter_sdiff_right_comm]
            · exact and_iff_left fun hmem => hp (hin hmem)
          have htotal := h.total
          refine ih (s := ⟨_, out, s.numPages - getBlockNumPages index⟩) (by simp only; omega) ⟨hstate, ?_, hapart, ?_⟩
          · rw [hpages]
            exact union_subset h.sub fun p hp => (hsub hp).1.1
          · simp only [hsize]
            omega
    · rw [if_neg hle]
      exact ⟨true, s, rfl, h⟩

theorem Collects.allocateManagers [TinyMT σ] {index : ℕ} (hi : index < 7) (random : Bool) :
    ∀ {ks : List ℕ} {s : GroupState σ}, (∀ k ∈ ks, k < es.length) → Collects es F refs total s →
      ∃ ok s₁, allocateManagers index (getBlockNumPages index) random ks s = some (ok, s₁) ∧
        Collects es F refs total s₁ := by
  intro ks
  induction ks with
  | nil => exact fun _ h => ⟨true, _, rfl, h⟩
  | cons k ks ih =>
    intro s hks h
    obtain ⟨hk, hks⟩ := List.forall_mem_cons.mp hks
    obtain ⟨ok, s₁, hrun, h₁⟩ := h.allocateWhile hi (List.getElem?_eq_getElem hk) random (Nat.lt_succ_self _)
    unfold KMemoryManager.allocateManagers
    simp only [hrun, Option.bind_eq_bind, Option.bind_some]
    cases ok with
    | true => exact ih hks h₁
    | false => exact ⟨false, s₁, rfl, h₁⟩

theorem Collects.allocateSizes [TinyMT σ] {managers : List ℕ} (hm : ∀ k ∈ managers, k < es.length) (random : Bool) :
    ∀ {index : ℕ} {s : GroupState σ}, index ≤ 7 → Collects es F refs total s →
      ∃ ok s₁, allocateSizes managers random index s = some (ok, s₁) ∧ Collects es F refs total s₁ := by
  intro index
  induction index with
  | zero => exact fun _ h => ⟨true, _, rfl, h⟩
  | succ index ih =>
    intro s hi h
    unfold KMemoryManager.allocateSizes
    by_cases hpos : 0 < s.numPages
    · rw [if_pos hpos]
      obtain ⟨ok, s₁, hrun, h₁⟩ := h.allocateManagers hi random hm
      simp only [hrun, Option.bind_eq_bind, Option.bind_some]
      cases ok with
      | true => exact ih (by omega) h₁
      | false => exact ⟨false, s₁, rfl, h₁⟩
    · rw [if_neg hpos]
      exact ⟨true, s, rfl, h⟩

/-! ### Undoing -/

/-- The part of a block that lies in the manager of its first page. -/
def kept (es : List Extent) (b : KBlockInfo) : Set ℕ :=
  {p | p ∈ b.pages ∧ ∃ e ∈ es, b.pageIndex ∈ e.pages ∧ p ∈ e.pages}

theorem State.kept_eq (h : mm.State es F refs) (he : es[k]? = some e) {b : KBlockInfo}
    (hb : b.pageIndex ∈ e.pages) : kept es b = b.pages ∩ e.pages := by
  ext p
  constructor
  · rintro ⟨hp, d, hd, hbd, hpd⟩
    obtain ⟨j, hj⟩ := List.mem_iff_getElem?.mp hd
    by_cases hjk : j = k
    · subst hjk
      obtain rfl : e = d := Option.some.inj (he.symm.trans hj)
      exact ⟨hp, hpd⟩
    · exact absurd hb (disjoint_left.mp (h.apart j k d e hj he hjk) hbd)
  · rintro ⟨hp, hpe⟩
    exact ⟨hp, e, List.mem_of_getElem? he, hb, hpe⟩

theorem State.undoBlock [TinyMT σ] (h : mm.State es F refs) {b : KBlockInfo} (hpos : 0 < b.numPages)
    (hin : b.pages ⊆ pagesOf es) (hout : Disjoint b.pages F) :
    ∃ mm₁, undoBlock mm b = some mm₁ ∧ mm₁.State es (F ∪ kept es b) refs := by
  obtain ⟨e, he, hp⟩ := hin (show b.pageIndex ∈ b.pages from ⟨le_rfl, by omega⟩)
  obtain ⟨k, hk⟩ := List.mem_iff_getElem?.mp he
  obtain ⟨m, hm, hst⟩ := h.get hk
  have hp1 := hp.1
  have hnode : (m.getEndAddress - b.getAddress) / PageSize = e.base + e.len - b.pageIndex :=
    hst.pageOffsetToEnd b.pageIndex
  have hpart : Set.Ico b.pageIndex (b.pageIndex + min b.numPages (e.base + e.len - b.pageIndex)) = kept es b := by
    rw [h.kept_eq hk hp]
    ext q
    simp only [mem_Ico, mem_inter_iff, KBlockInfo.pages, Extent.pages]
    omega
  have hkept : kept es b ⊆ b.pages ∩ e.pages := (h.kept_eq hk hp).le
  obtain ⟨m₁, hrun, hst₁⟩ := hst.freeRange (a := b.pageIndex)
    (n := min b.numPages (e.base + e.len - b.pageIndex)) (by rw [hpart]; exact fun q hq => (hkept hq).2)
    (by rw [hpart]; exact (hout.mono_left fun q hq => (hkept hq).1).mono_right inter_subset_left)
  refine ⟨mm.setManager k m₁, ?_, ?_⟩
  · unfold KMemoryManager.undoBlock KBlockInfo.getAddress
    unfold KBlockInfo.getAddress at hnode
    simp only [h.getManager hk hp, hm, Option.bind_eq_bind, Option.bind_some, hnode, hrun]
  · rw [hpart] at hst₁
    refine h.set hk (hst₁.congr ?_ fun _ _ => rfl) (fun q hq => ?_) fun _ _ => rfl
    · rw [union_inter_distrib_right, inter_eq_left.mpr fun q hq => (hkept hq).2]
    · exact or_iff_left fun hmem => hq (hkept hmem).2

/-- The blocks of a group that failed go back to the heaps, as far as they are kept. -/
theorem State.undo [TinyMT σ] : ∀ {blocks : List KBlockInfo} {mm : KMemoryManager σ} {F : Set ℕ},
    mm.State es F refs → KPageGroup.Apart blocks → (∀ b ∈ blocks, b.pages ⊆ pagesOf es ∧ Disjoint b.pages F) →
    ∃ mm₁, blocks.foldlM KMemoryManager.undoBlock mm = some mm₁ ∧
      mm₁.State es (F ∪ {p | ∃ b ∈ blocks, p ∈ kept es b}) refs := by
  intro blocks
  induction blocks with
  | nil =>
    intro mm F h _ _
    refine ⟨mm, rfl, h.congr ?_ fun _ _ => rfl⟩
    ext p
    simp
  | cons b blocks ih =>
    intro mm F h ha hb
    obtain ⟨hb1, hb2⟩ := List.forall_mem_cons.mp hb
    obtain ⟨hd1, hd2⟩ := List.pairwise_cons.mp ha.disjoint
    have hpos := ha.nonempty b List.mem_cons_self
    obtain ⟨mm₁, hrun, h₁⟩ := h.undoBlock hpos hb1.1 hb1.2
    obtain ⟨mm₂, hrun₂, h₂⟩ := ih h₁ ⟨fun c hc => ha.nonempty c (List.mem_cons_of_mem _ hc), hd2⟩ fun c hc =>
      ⟨(hb2 c hc).1, (hb2 c hc).2.union_right ((hd1 c hc).symm.mono_right fun p hp => hp.1)⟩
    refine ⟨mm₂, ?_, h₂.congr ?_ fun _ _ => rfl⟩
    · rw [List.foldlM_cons, hrun]
      exact hrun₂
    · ext p
      simp only [mem_union, mem_ofPred_eq, List.mem_cons, exists_eq_or_imp, or_assoc]

/-! ### The calls -/

/-- The group that the loops of `AllocatePageGroupImpl` collect. -/
def collected [TinyMT σ] (mm : KMemoryManager σ) (out : KPageGroup) (numPages : ℕ) (pool : Pool) (dir : Direction)
    (random : Bool) : Option (Bool × GroupState σ) := do
  let heapIndex ← getBlockIndex numPages
  allocateSizes (mm.poolManagers pool dir) random (heapIndex + 1) ⟨mm, out, numPages⟩

/-- If the loops do not find all pages, each block that they collected ends in the
manager of its first page. -/
def UndoCovers [TinyMT σ] (mm : KMemoryManager σ) (out : KPageGroup) (numPages : ℕ) (pool : Pool) (dir : Direction)
    (random : Bool) : Prop :=
  ∀ ok s, mm.collected out numPages pool dir random = some (ok, s) → ¬ (ok = true ∧ s.numPages = 0) →
    ∀ b ∈ s.out.blocks, ∀ k m, mm.getManager b.getAddress = some k → mm.managers[k]? = some m →
      b.getEndAddress ≤ m.getEndAddress

theorem getBlockIndex_lt {numPages i : ℕ} (h : getBlockIndex numPages = some i) : i < 7 := by
  have := List.mem_of_find?_eq_some h
  rw [List.mem_reverse, List.mem_range] at this
  exact this

theorem State.poolManagers_lt (h : mm.State es F refs) (pool : Pool) (dir : Direction) :
    ∀ k ∈ mm.poolManagers pool dir, k < es.length := by
  intro k hk
  have hmem : k ∈ (List.range mm.managers.length).filter fun k =>
      (mm.managers[k]?).any fun m => m.pool == pool := by
    cases dir with
    | fromFront => exact hk
    | fromBack => exact List.mem_reverse.mp hk
  rw [← h.length]
  exact List.mem_range.mp (List.mem_filter.mp hmem).1

/-- The pages of a group that its undoing loses. -/
def lost (es : List Extent) (blocks : List KBlockInfo) : Set ℕ := {p | ∃ b ∈ blocks, p ∈ b.pages \ kept es b}

/-- A block loses no page if it ends in the manager of its first page. -/
theorem State.lost_eq_empty_iff (h : mm.State es F refs) {blocks : List KBlockInfo} (ha : KPageGroup.Apart blocks)
    (hin : ∀ b ∈ blocks, b.pages ⊆ pagesOf es) :
    lost es blocks = ∅ ↔ ∀ b ∈ blocks, ∀ k m, mm.getManager b.getAddress = some k → mm.managers[k]? = some m →
      b.getEndAddress ≤ m.getEndAddress := by
  have hblock : ∀ b ∈ blocks, ∃ (k : ℕ) (e : Extent) (m : Impl σ), b.pageIndex ∈ e.pages ∧ mm.getManager b.getAddress = some k ∧
      mm.managers[k]? = some m ∧ m.getEndAddress = (e.base + e.len) * PageSize ∧
      kept es b = b.pages ∩ e.pages := by
    intro b hb
    have hpos := ha.nonempty b hb
    obtain ⟨e, he, hp⟩ := hin b hb (show b.pageIndex ∈ b.pages from ⟨le_rfl, by omega⟩)
    obtain ⟨k, hk⟩ := List.mem_iff_getElem?.mp he
    obtain ⟨m, hm, hst⟩ := h.get hk
    exact ⟨k, e, m, hp, h.getManager hk hp, hm, hst.endAddress, h.kept_eq hk hp⟩
  constructor
  · intro hempty b hb k m hk hm
    obtain ⟨j, e, m₁, hp, hj, hm₁, hend, hkept⟩ := hblock b hb
    obtain rfl : j = k := Option.some.inj (hj.symm.trans hk)
    obtain rfl : m₁ = m := Option.some.inj (hm₁.symm.trans hm)
    have hpos := ha.nonempty b hb
    have hlast : b.pageIndex + b.numPages - 1 ∈ b.pages := ⟨by omega, by omega⟩
    have hmem : b.pageIndex + b.numPages - 1 ∈ kept es b := by
      by_contra hnot
      exact eq_empty_iff_forall_notMem.mp hempty _ ⟨b, hb, hlast, hnot⟩
    rw [hkept] at hmem
    have hlt := hmem.2.2
    rw [hend]
    exact Nat.mul_le_mul_right _ (by omega)
  · intro hall
    refine eq_empty_of_forall_notMem ?_
    rintro p ⟨b, hb, hpb, hnot⟩
    obtain ⟨k, e, m, hp, hk, hm, hend, hkept⟩ := hblock b hb
    have hle := hall b hb k m hk hm
    rw [hend] at hle
    have hle' := Nat.le_of_mul_le_mul_right hle (by decide)
    rw [hkept] at hnot
    have h1 := hp.1
    have h2 := hpb.1
    have h3 := hpb.2
    exact hnot ⟨hpb, ⟨by omega, by omega⟩⟩

/-- Nothing is gathered at first. -/
theorem State.collects_start (h : mm.State es F refs) {out : KPageGroup} (hout : out.blocks = []) (numPages : ℕ) :
    Collects es F refs numPages ⟨mm, out, numPages⟩ := by
  have hpages : out.pages = ∅ := KPageGroup.pages_of_nil hout
  refine ⟨?_, ?_, ?_, ?_⟩
  · simp only [hpages, sdiff_empty]
    exact h
  · simp only [hpages]
    exact empty_subset _
  · simp only [hout]
    exact ⟨fun b hb => absurd hb List.not_mem_nil, List.Pairwise.nil⟩
  · simp [KPageGroup.size, hout]

theorem State.allocatePageGroupImpl [TinyMT σ] (h : mm.State es F refs) {out : KPageGroup} (hout : out.blocks = [])
    (numPages : ℕ) (pool : Pool) (dir : Direction) (random : Bool) :
    ∃ r mm₁ out₁, mm.allocatePageGroupImpl out numPages pool dir random = some (r, mm₁, out₁) ∧
      ((r = .success ∧ out₁.size = numPages ∧ KPageGroup.Apart out₁.blocks ∧ out₁.pages ⊆ F ∧
          mm₁.State es (F \ out₁.pages) refs ∧ mm.UndoCovers out numPages pool dir random) ∨
        (r ≠ .success ∧ out₁.blocks = [] ∧ ∃ G, G ⊆ F ∧ mm₁.State es (F \ G) refs ∧
          (G = ∅ ↔ mm.UndoCovers out numPages pool dir random))) := by
  unfold KMemoryManager.allocatePageGroupImpl UndoCovers collected
  cases hi : getBlockIndex numPages with
  | none =>
    refine ⟨_, _, _, rfl, .inr ⟨by decide, hout, ∅, empty_subset _, by rwa [sdiff_empty], ?_⟩⟩
    refine iff_of_true rfl fun ok s hs => ?_
    cases hs
  | some i =>
    obtain ⟨ok, s, hrun, hs⟩ := (h.collects_start hout numPages).allocateSizes (h.poolManagers_lt pool dir) random
      (Nat.succ_le_of_lt (getBlockIndex_lt hi))
    simp only [hrun, Option.bind_eq_bind, Option.bind_some]
    by_cases hok : ok = true ∧ s.numPages = 0
    · rw [if_pos hok]
      have htotal := hs.total
      refine ⟨_, _, _, rfl, .inl ⟨rfl, by omega, hs.apart, hs.sub, hs.state, fun ok₁ s₁ hs₁ hne => ?_⟩⟩
      obtain ⟨rfl, rfl⟩ := Prod.mk.inj (Option.some.inj hs₁)
      exact absurd hok hne
    · rw [if_neg hok]
      have hin : ∀ b ∈ s.out.blocks, b.pages ⊆ s.out.pages := fun b hb p hp => ⟨b, hb, hp⟩
      have hinF : ∀ b ∈ s.out.blocks, b.pages ⊆ pagesOf es := fun b hb => (hin b hb).trans (hs.sub.trans h.sub)
      obtain ⟨mm₁, hundo, hst⟩ := hs.state.undo hs.apart fun b hb =>
        ⟨hinF b hb, disjoint_sdiff_right.mono_left (hin b hb)⟩
      simp only [hundo, Option.bind_some]
      have hsets : F \ s.out.pages ∪ {p | ∃ b ∈ s.out.blocks, p ∈ kept es b} = F \ lost es s.out.blocks := by
        ext p
        constructor
        · rintro (⟨hp, hnot⟩ | ⟨b, hb, hp⟩)
          · exact ⟨hp, fun ⟨b, hb, hpb, _⟩ => hnot ⟨b, hb, hpb⟩⟩
          · refine ⟨hs.sub ⟨b, hb, hp.1⟩, fun ⟨c, hc, hpc, hnot⟩ => ?_⟩
            by_cases hbc : b = c
            · exact hnot (hbc ▸ hp)
            · exact disjoint_left.mp (hs.apart.disjoint_of_ne hb hc hbc) hp.1 hpc
        · rintro ⟨hp, hnot⟩
          by_cases hmem : p ∈ s.out.pages
          · obtain ⟨b, hb, hpb⟩ := hmem
            refine .inr ⟨b, hb, ?_⟩
            by_contra hk
            exact hnot ⟨b, hb, hpb, hk⟩
          · exact .inl ⟨hp, hmem⟩
      rw [hsets] at hst
      have hlost : lost es s.out.blocks ⊆ F := fun p ⟨b, hb, hp, _⟩ => hs.sub ⟨b, hb, hp⟩
      refine ⟨_, _, _, rfl, .inr ⟨?_, rfl, lost es s.out.blocks, hlost, hst, ?_⟩⟩
      · cases ok
        · exact fun hr => nomatch hr
        · exact fun hr => nomatch hr
      · rw [h.lost_eq_empty_iff hs.apart hinF]
        constructor
        · intro hall ok₁ s₁ hs₁ _
          obtain ⟨rfl, rfl⟩ := Prod.mk.inj (Option.some.inj hs₁)
          exact hall
        · exact fun hall => hall ok s rfl hok

end KMemoryManager

end Kernel
end Citron
