/-
# Free pages of the page heap

The invariant of the page heap (`Inv`): the marks of all sizes are buddies, and lie in
the region of the heap. `Frees h s h'` says that `h'` is `h` with the pages of `s` free
as well; `FreeBlock`, the loops of `Free`, and `Free` itself do this for their range.
-/
import Citron.Kernel.PageHeap

namespace Citron
namespace Kernel

open Common Lib Function Option Set

namespace KPageHeap

variable {σ : Type}

/-! ### The invariant -/

/-- The free blocks of a size. -/
def marks (h : KPageHeap σ) (i : ℕ) : Set ℕ :=
  match h.blocks[i]? with
  | some b => b.marks i
  | none => ∅

/-- The free pages. -/
def freePages (h : KPageHeap σ) : Set ℕ := sizes.pages h.marks

/-- The pages with addresses in `[start, stop)`. -/
def pageRange (start stop : ℕ) : Set ℕ := {p | start ≤ p * PageSize ∧ p * PageSize < stop}

/-- The pages of the heap. -/
def region (h : KPageHeap σ) : Set ℕ := pageRange h.heapAddress (h.heapAddress + h.heapSize)

structure Inv (h : KPageHeap σ) : Prop where
  address_pos : 0 < h.heapAddress
  length : h.blocks.length = 7
  ok : ∀ i (b : Block σ), h.blocks[i]? = some b → b.Ok h.heapAddress h.heapSize i
  buddies : sizes.Buddies h.marks
  inside : h.freePages ⊆ h.region

/-- `h'` is `h` with the pages of `s` free as well. -/
structure Frees (h : KPageHeap σ) (s : Set ℕ) (h' : KPageHeap σ) : Prop where
  inv : h'.Inv
  address : h'.heapAddress = h.heapAddress
  size : h'.heapSize = h.heapSize
  pages : h'.freePages = h.freePages ∪ s

/-- Pages of the heap that are not free. -/
structure Held (h : KPageHeap σ) (s : Set ℕ) : Prop where
  inside : s ⊆ h.region
  disjoint : Disjoint s h.freePages

section Pages

variable {h h' h'' : KPageHeap σ} {s t : Set ℕ} {a b c i n p : ℕ}

theorem mem_pageRange : p ∈ pageRange a b ↔ a ≤ p * PageSize ∧ p * PageSize < b := Iff.rfl

theorem pageRange_self (a : ℕ) : pageRange a a = ∅ := by
  ext p
  rw [mem_pageRange, mem_empty_iff_false, iff_false]
  omega

theorem pageRange_union (h1 : a ≤ b) (h2 : b ≤ c) : pageRange a b ∪ pageRange b c = pageRange a c := by
  ext p
  simp only [mem_union, mem_pageRange]
  omega

theorem pageRange_subset (h1 : a ≤ b) (h2 : c ≤ i) : pageRange b c ⊆ pageRange a i := by
  intro p hp
  rw [mem_pageRange] at hp ⊢
  omega

theorem pageRange_disjoint (h1 : b ≤ c) : Disjoint (pageRange a b) (pageRange c i) := by
  refine disjoint_left.mpr fun p hp hp' => ?_
  rw [mem_pageRange] at hp hp'
  omega

/-- A block as a range of addresses. -/
theorem block_eq_pageRange (i n : ℕ) : sizes.block i n = pageRange (n * bytes i) (n * bytes i + bytes i) := by
  have hp : 0 < PageSize := by decide
  ext p
  rw [BlockSizes.block_eq_Ico, mem_Ico, mem_pageRange, bytes_eq, ← Nat.mul_assoc, ← Nat.add_mul,
    Nat.mul_le_mul_right_iff hp, Nat.mul_lt_mul_right hp, Nat.succ_mul]

theorem marks_of_get {b : Block σ} (hb : h.blocks[i]? = some b) : h.marks i = b.marks i := by
  unfold marks
  rw [hb]

theorem marks_setBlock (b : Block σ) (hi : i < h.blocks.length) :
    (h.setBlock i b).marks = update h.marks i (b.marks i) := by
  funext j
  unfold marks setBlock
  by_cases hj : j = i
  · subst hj
    rw [update_self, List.getElem?_set_self hi]
  · rw [update_of_ne hj, List.getElem?_set_ne (Ne.symm hj)]

theorem Inv.get (hinv : h.Inv) (hi : i < 7) : ∃ b, h.blocks[i]? = some b ∧ b.Ok h.heapAddress h.heapSize i := by
  have hlt : i < h.blocks.length := by rw [hinv.length]; exact hi
  exact ⟨_, List.getElem?_eq_getElem hlt, hinv.ok _ _ (List.getElem?_eq_getElem hlt)⟩

/-- Replace the blocks of one size. -/
theorem Inv.setBlock {b : Block σ} (hinv : h.Inv) (hi : i < 7) (hb : b.Ok h.heapAddress h.heapSize i)
    (hbud : sizes.Buddies (update h.marks i (b.marks i)))
    (hin : sizes.pages (update h.marks i (b.marks i)) ⊆ h.region) :
    (h.setBlock i b).Inv ∧ (h.setBlock i b).freePages = sizes.pages (update h.marks i (b.marks i)) := by
  have hlt : i < h.blocks.length := by rw [hinv.length]; exact hi
  have hmarks := marks_setBlock b hlt
  have hpages : (h.setBlock i b).freePages = sizes.pages (update h.marks i (b.marks i)) := by
    unfold freePages
    rw [hmarks]
  refine ⟨⟨hinv.address_pos, ?_, ?_, hmarks ▸ hbud, hpages ▸ hin⟩, hpages⟩
  · show (h.blocks.set i b).length = 7
    rw [List.length_set, hinv.length]
  · intro j c hc
    by_cases hj : j = i
    · subst hj
      rw [show (h.setBlock j b).blocks[j]? = some b from List.getElem?_set_self hlt] at hc
      exact Option.some.inj hc ▸ hb
    · rw [show (h.setBlock i b).blocks[j]? = h.blocks[j]? from List.getElem?_set_ne (Ne.symm hj)] at hc
      exact hinv.ok j c hc

theorem Frees.refl (hinv : h.Inv) : Frees h ∅ h := ⟨hinv, rfl, rfl, (union_empty _).symm⟩

theorem Frees.trans (h1 : Frees h s h') (h2 : Frees h' t h'') : Frees h (s ∪ t) h'' :=
  ⟨h2.inv, h2.address.trans h1.address, h2.size.trans h1.size, by rw [h2.pages, h1.pages, union_assoc]⟩

theorem Frees.region (hf : Frees h s h') : h'.region = h.region := by
  unfold KPageHeap.region
  rw [hf.address, hf.size]

theorem Held.mono (hs : h.Held s) (hts : t ⊆ s) : h.Held t :=
  ⟨hts.trans hs.inside, hs.disjoint.mono_left hts⟩

/-- Pages apart from those freed are still not free. -/
theorem Frees.held (hf : Frees h s h') (ht : h.Held t) (hts : Disjoint t s) : h'.Held t := by
  refine ⟨hf.region ▸ ht.inside, ?_⟩
  rw [hf.pages]
  exact disjoint_union_right.mpr ⟨ht.disjoint, hts⟩

/-- The address of a block of the heap. -/
theorem Inv.block_address (hinv : h.Inv) (hsub : sizes.block i n ⊆ h.region) :
    h.heapAddress ≤ n * bytes i ∧ n * bytes i < h.heapAddress + h.heapSize ∧ n * bytes i ≠ 0 := by
  have hfirst := hsub (BlockSizes.first_mem_block i n)
  have hmul : n * sizes.size i * PageSize = n * bytes i := by rw [bytes_eq, Nat.mul_assoc]
  have h1 := hfirst.1
  have h2 := hfirst.2
  rw [hmul] at h1 h2
  have := hinv.address_pos
  omega

/-! ### Free a block -/

/-- One push: the block is marked, or a block of the next size is left to push. -/
theorem Inv.push (hinv : h.Inv) (hi : i < 7) (hheld : h.Held (sizes.block i n)) :
    ∃ b next b', h.blocks[i]? = some b ∧ b.pushBlock (n * bytes i) = some (next, b') ∧
      ((next = 0 ∧ Frees h (sizes.block i n) (h.setBlock i b')) ∨
        ∃ m, i + 1 < 7 ∧ next = m * bytes (i + 1) ∧ next ≠ 0 ∧ (h.setBlock i b').Inv ∧
          (h.setBlock i b').Held (sizes.block (i + 1) m) ∧
          (h.setBlock i b').freePages ∪ sizes.block (i + 1) m = h.freePages ∪ sizes.block i n) := by
  obtain ⟨hsub, hdisj⟩ := hheld
  obtain ⟨b, hb, hok⟩ := hinv.get hi
  have hmarks := marks_of_get hb
  obtain ⟨h1, h2, -⟩ := hinv.block_address hsub
  have hn : n ∉ b.marks i := by
    intro hn
    have hfirst := BlockSizes.first_mem_block (S := sizes) i n
    refine disjoint_left.mp hdisj hfirst ⟨i, hi, ?_⟩
    rwa [BlockSizes.mem_block.mp hfirst, hmarks]
  have hunion : h.freePages ∪ sizes.block i n ⊆ h.region := union_subset hinv.inside hsub
  obtain ⟨next, b', hpush, hok', ⟨hi1, hparts, hnext, hm'⟩ | ⟨hparts, hnext, hm'⟩⟩ := hok.pushBlock hi h1 h2 hn
  · rw [← hmarks] at hparts hm'
    obtain ⟨hbud, hdisj', hpages⟩ := hinv.buddies.join hi hdisj hparts
    rw [← hm'] at hbud hdisj' hpages
    have hin : sizes.pages (update h.marks i (b'.marks i)) ∪
        sizes.block (i + 1) (n / sizes.ratio i) ⊆ h.region := by
      rw [hpages]
      exact hunion
    obtain ⟨hinv', hfree⟩ := hinv.setBlock hi hok' hbud (subset_union_left.trans hin)
    have hsub' := subset_union_right.trans hin
    have hne : next ≠ 0 := by
      rw [hnext]
      exact (hinv.block_address hsub').2.2
    rw [← hfree] at hdisj' hpages
    exact ⟨b, next, b', hb, hpush, .inr ⟨_, hi1, hnext, hne, hinv', ⟨hsub', hdisj'⟩, hpages⟩⟩
  · rw [← hmarks] at hparts hm'
    obtain ⟨hbud, hpages⟩ := hinv.buddies.insert hi hdisj hparts
    rw [← hm'] at hbud hpages
    obtain ⟨hinv', hfree⟩ := hinv.setBlock hi hok' hbud (hpages.trans_subset hunion)
    exact ⟨b, next, b', hb, hpush, .inl ⟨hnext, hinv', rfl, rfl, hfree.trans hpages⟩⟩

/-- Push a block, then what it completes. -/
theorem freeBlockLoop_spec : ∀ (levels i n : ℕ) (h : KPageHeap σ), i + levels = 7 → i < 7 → h.Inv →
    h.Held (sizes.block i n) →
    ∃ h', freeBlockLoop levels h (n * bytes i) i = some h' ∧ Frees h (sizes.block i n) h' := by
  intro levels
  induction levels with
  | zero =>
    intro i n h hlev hi
    omega
  | succ levels ih =>
    intro i n h hlev hi hinv hheld
    obtain ⟨b, next, b', hb, hpush, hcase⟩ := hinv.push hi hheld
    unfold freeBlockLoop
    simp only [hb, hpush, bind_eq_bind, bind_some]
    rcases hcase with ⟨hnext, hfrees⟩ | ⟨m, hi1, hnext, hne, hinv', hheld', hpages⟩
    · rw [if_neg (not_not.mpr hnext)]
      exact ⟨_, rfl, hfrees⟩
    · rw [if_pos hne, hnext]
      obtain ⟨h', hrun, hfrees⟩ := ih (i + 1) m (h.setBlock i b') (by omega) hi1 hinv' hheld'
      exact ⟨h', hrun, hfrees.inv, hfrees.address, hfrees.size, hfrees.pages.trans hpages⟩

/-- Free a block that starts at an address. -/
theorem Inv.freeBlock (hinv : h.Inv) (hi : i < 7) (hd : bytes i ∣ a) (hheld : h.Held (pageRange a (a + bytes i))) :
    ∃ h', h.freeBlock a i = some h' ∧ Frees h (pageRange a (a + bytes i)) h' := by
  obtain ⟨n, rfl⟩ := hd
  rw [Nat.mul_comm (bytes i), ← block_eq_pageRange] at *
  unfold KPageHeap.freeBlock
  rw [hinv.length]
  exact freeBlockLoop_spec (7 - i) i n h (by omega) hi hinv hheld

/-! ### The loops of `Free` -/

theorem one_shiftLeft_shiftOf (i : ℕ) : 1 <<< shiftOf i = bytes i := rfl

/-- The big blocks: `k` of them. -/
theorem freeBig_spec (hi : i < 7) : ∀ (k a : ℕ) (h : KPageHeap σ), h.Inv → bytes i ∣ a →
    h.Held (pageRange a (a + k * bytes i)) →
    ∃ h', h.freeBig i (shiftOf i) a (a + k * bytes i) = some h' ∧ Frees h (pageRange a (a + k * bytes i)) h' := by
  intro k
  induction k with
  | zero =>
    intro a h hinv ha hheld
    unfold freeBig
    rw [Nat.zero_mul, Nat.add_zero, if_neg (lt_irrefl a), pageRange_self]
    exact ⟨h, rfl, .refl hinv⟩
  | succ k ih =>
    intro a h hinv ha hheld
    have hpos := bytes_pos i
    have hstop : a + (k + 1) * bytes i = a + bytes i + k * bytes i := by ring
    rw [hstop] at hheld ⊢
    obtain ⟨h₁, hrun₁, hfrees₁⟩ := hinv.freeBlock hi ha
      (hheld.mono (pageRange_subset le_rfl (Nat.le_add_right ..)))
    obtain ⟨h₂, hrun₂, hfrees₂⟩ := ih (a + bytes i) h₁ hfrees₁.inv (Nat.dvd_add ha dvd_rfl)
      (hfrees₁.held (hheld.mono (pageRange_subset (Nat.le_add_right ..) le_rfl)) (pageRange_disjoint le_rfl).symm)
    unfold freeBig
    rw [if_pos (by omega), one_shiftLeft_shiftOf, hrun₁]
    refine ⟨h₂, hrun₂, ?_⟩
    rw [← pageRange_union (Nat.le_add_right a (bytes i)) (Nat.le_add_right ..)]
    exact hfrees₁.trans hfrees₂

/-- The blocks before: what is left over is smaller than a block. -/
theorem freeBefore_spec (hi : i < 7) (start : ℕ) : ∀ (stop : ℕ) (h : KPageHeap σ), h.Inv → bytes i ∣ stop →
    start ≤ stop → h.Held (pageRange start stop) →
    ∃ stop' h', h.freeBefore i (shiftOf i) start stop = some (stop', h') ∧
      Frees h (pageRange stop' stop) h' ∧ bytes i ∣ stop' ∧ start ≤ stop' ∧ stop' ≤ stop ∧
      stop' < start + bytes i := by
  intro stop
  induction stop using Nat.strong_induction_on with
  | _ stop ih =>
    intro h hinv hd hle hheld
    have hpos := bytes_pos i
    unfold freeBefore
    rw [one_shiftLeft_shiftOf]
    by_cases hlt : start + bytes i ≤ stop
    · have hstop : stop - bytes i + bytes i = stop := by omega
      have hd' : bytes i ∣ stop - bytes i := Nat.dvd_sub hd dvd_rfl
      obtain ⟨h₁, hrun₁, hfrees₁⟩ := hinv.freeBlock hi hd'
        (hheld.mono (pageRange_subset (by omega) (by omega)))
      rw [hstop] at hfrees₁
      obtain ⟨stop', h₂, hrun₂, hfrees₂, h1, h2, h3, h4⟩ := ih (stop - bytes i) (by omega) h₁ hfrees₁.inv hd'
        (by omega) (hfrees₁.held (hheld.mono (pageRange_subset le_rfl (by omega))) (pageRange_disjoint le_rfl))
      rw [if_pos hlt, hrun₁]
      refine ⟨stop', h₂, hrun₂, ?_, h1, h2, by omega, h4⟩
      rw [← pageRange_union h3 (Nat.sub_le ..), union_comm]
      exact hfrees₁.trans hfrees₂
    · rw [if_neg hlt]
      refine ⟨stop, h, rfl, ?_, hd, hle, le_rfl, by omega⟩
      rw [pageRange_self]
      exact .refl hinv

/-- The blocks after: what is left over is smaller than a block. -/
theorem freeAfter_spec (hi : i < 7) (stop : ℕ) : ∀ (k start : ℕ) (h : KPageHeap σ), stop = start + k → h.Inv →
    bytes i ∣ start → h.Held (pageRange start stop) →
    ∃ start' h', h.freeAfter i (shiftOf i) start stop = some (start', h') ∧
      Frees h (pageRange start start') h' ∧ bytes i ∣ start' ∧ start ≤ start' ∧ start' ≤ stop ∧
      stop < start' + bytes i := by
  intro k
  induction k using Nat.strong_induction_on with
  | _ k ih =>
    intro start h hk hinv hd hheld
    have hpos := bytes_pos i
    unfold freeAfter
    rw [one_shiftLeft_shiftOf]
    by_cases hlt : start + bytes i ≤ stop
    · obtain ⟨h₁, hrun₁, hfrees₁⟩ := hinv.freeBlock hi hd (hheld.mono (pageRange_subset le_rfl hlt))
      obtain ⟨start', h₂, hrun₂, hfrees₂, h1, h2, h3, h4⟩ := ih (k - bytes i) (by omega) (start + bytes i) h₁
        (by omega) hfrees₁.inv (Nat.dvd_add hd dvd_rfl)
        (hfrees₁.held (hheld.mono (pageRange_subset (Nat.le_add_right ..) le_rfl)) (pageRange_disjoint le_rfl).symm)
      rw [if_pos hlt, hrun₁]
      refine ⟨start', h₂, hrun₂, ?_, h1, by omega, h3, h4⟩
      rw [← pageRange_union (Nat.le_add_right ..) h2]
      exact hfrees₁.trans hfrees₂
    · rw [if_neg hlt]
      refine ⟨start, h, rfl, ?_, hd, le_rfl, by omega, by omega⟩
      rw [pageRange_self]
      exact .refl hinv

/-- Two multiples of the page size that are less than a page apart. -/
theorem eq_of_pageSize_dvd (ha : PageSize ∣ a) (hb : PageSize ∣ b) (hab : a ≤ b) (hlt : b < a + bytes 0) : a = b := by
  obtain ⟨d, hd⟩ := Nat.dvd_sub hb ha
  have h0 : bytes 0 = PageSize := rfl
  rw [h0] at hlt
  rcases Nat.eq_zero_or_pos d with rfl | hd0
  · omega
  · have := Nat.le_mul_of_pos_right PageSize hd0
    omega

/-- Free the space before the big blocks, with ever smaller blocks. -/
theorem freeAllBefore_spec {start : ℕ} (hstart : PageSize ∣ start) : ∀ (i stop : ℕ) (h : KPageHeap σ), i ≤ 7 →
    h.Inv → bytes i ∣ stop → start ≤ stop → (i = 0 → stop = start) → h.Held (pageRange start stop) →
    ∃ h', h.freeAllBefore start i stop = some h' ∧ Frees h (pageRange start stop) h' := by
  intro i
  induction i with
  | zero =>
    intro stop h _ hinv _ _ hstop _
    rw [hstop rfl, pageRange_self]
    exact ⟨h, rfl, .refl hinv⟩
  | succ i ih =>
    intro stop h hi hinv hd hle _ hheld
    obtain ⟨b, hb, hok⟩ := hinv.get (i := i) (by omega)
    obtain ⟨stop', h₁, hrun₁, hfrees₁, hd', hle', hle'', hlt⟩ :=
      freeBefore_spec (by omega) start stop h hinv ((bytes_dvd i).trans hd) hle hheld
    obtain ⟨h₂, hrun₂, hfrees₂⟩ := ih stop' h₁ (by omega) hfrees₁.inv hd' hle'
      (fun h0 => (eq_of_pageSize_dvd hstart ((pageSize_dvd_bytes i).trans hd') hle' (h0 ▸ hlt)).symm)
      (hfrees₁.held (hheld.mono (pageRange_subset le_rfl hle'')) (pageRange_disjoint le_rfl))
    unfold freeAllBefore
    simp only [hb, hok.shift, hrun₁, bind_eq_bind, bind_some]
    refine ⟨h₂, hrun₂, ?_⟩
    rw [← pageRange_union hle' hle'', union_comm]
    exact hfrees₁.trans hfrees₂

/-- Free the space after the big blocks, with ever smaller blocks. -/
theorem freeAllAfter_spec {stop : ℕ} (hstop : PageSize ∣ stop) : ∀ (i start : ℕ) (h : KPageHeap σ), i ≤ 7 →
    h.Inv → bytes i ∣ start → start ≤ stop → (i = 0 → start = stop) → h.Held (pageRange start stop) →
    ∃ h', h.freeAllAfter stop i start = some h' ∧ Frees h (pageRange start stop) h' := by
  intro i
  induction i with
  | zero =>
    intro start h _ hinv _ _ hstart _
    rw [hstart rfl, pageRange_self]
    exact ⟨h, rfl, .refl hinv⟩
  | succ i ih =>
    intro start h hi hinv hd hle _ hheld
    obtain ⟨b, hb, hok⟩ := hinv.get (i := i) (by omega)
    obtain ⟨start', h₁, hrun₁, hfrees₁, hd', hle', hle'', hlt⟩ :=
      freeAfter_spec (by omega) stop (stop - start) start h (by omega) hinv ((bytes_dvd i).trans hd) hheld
    obtain ⟨h₂, hrun₂, hfrees₂⟩ := ih start' h₁ (by omega) hfrees₁.inv hd' hle''
      (fun h0 => eq_of_pageSize_dvd ((pageSize_dvd_bytes i).trans hd') hstop hle'' (h0 ▸ hlt))
      (hfrees₁.held (hheld.mono (pageRange_subset hle' le_rfl)) (pageRange_disjoint le_rfl).symm)
    unfold freeAllAfter
    simp only [hb, hok.shift, hrun₁, bind_eq_bind, bind_some]
    refine ⟨h₂, hrun₂, ?_⟩
    rw [← pageRange_union hle' hle'']
    exact hfrees₁.trans hfrees₂

/-! ### Free a range -/

/-- A size is found as soon as one below the limit fits. -/
theorem Inv.findBigIndex (hinv : h.Inv) : ∀ (k : ℕ), k ≤ 7 →
    (h.findBigIndex a b k = none ∧ ∀ j < k, alignDown b (bytes j) ≤ alignUp a (bytes j)) ∨
      ∃ j big, j < k ∧ h.findBigIndex a b k = some (j, big) ∧ big.Ok h.heapAddress h.heapSize j ∧
        alignUp a (bytes j) < alignDown b (bytes j) := by
  intro k
  induction k with
  | zero =>
    intro _
    exact .inl ⟨rfl, fun j hj => absurd hj (Nat.not_lt_zero j)⟩
  | succ k ih =>
    intro hk
    obtain ⟨big, hbig, hok⟩ := hinv.get (i := k) (by omega)
    have hsize : big.getSize = bytes k := by
      unfold Block.getSize
      rw [hok.shift, one_shiftLeft_shiftOf]
    unfold KPageHeap.findBigIndex
    simp only [hbig, hsize, bind_eq_bind, bind_some]
    by_cases hfit : alignUp a (bytes k) < alignDown b (bytes k)
    · rw [if_pos hfit]
      exact .inr ⟨k, big, Nat.lt_succ_self k, rfl, hok, hfit⟩
    · rw [if_neg hfit]
      rcases ih (by omega) with ⟨hrun, hall⟩ | ⟨j, big', hj, hrest⟩
      · refine .inl ⟨hrun, fun j hj => ?_⟩
        rcases Nat.lt_succ_iff_lt_or_eq.mp hj with hj | rfl
        · exact hall j hj
        · exact Nat.le_of_not_lt hfit
      · exact .inr ⟨j, big', hj.trans (Nat.lt_succ_self k), hrest⟩

/-- `Free` frees exactly the pages of its range. -/
theorem free_spec {addr numPages : ℕ} (hinv : h.Inv) (ha : PageSize ∣ addr)
    (hheld : h.Held (pageRange addr (addr + numPages * PageSize))) :
    ∃ h', h.free addr numPages = some h' ∧ Frees h (pageRange addr (addr + numPages * PageSize)) h' := by
  unfold free
  rcases Nat.eq_zero_or_pos numPages with rfl | hpos
  · rw [if_pos rfl, Nat.zero_mul, Nat.add_zero, pageRange_self]
    exact ⟨h, rfl, .refl hinv⟩
  rw [if_neg (by omega), hinv.length]
  have hstop : PageSize ∣ addr + numPages * PageSize := Nat.dvd_add ha (Nat.dvd_mul_left ..)
  have hlt : addr < addr + numPages * PageSize := by
    have := Nat.mul_pos hpos (show 0 < PageSize by decide)
    omega
  set stop := addr + numPages * PageSize
  rcases hinv.findBigIndex (a := addr) (b := stop) 7 le_rfl with ⟨-, hall⟩ | ⟨j, big, hj, hfind, hok, hfit⟩
  · have h0 := hall 0 (by decide)
    rw [show bytes 0 = PageSize from rfl, alignUp_of_dvd ha, alignDown_of_dvd hstop] at h0
    omega
  have hsize : big.getSize = bytes j := by
    unfold Block.getSize
    rw [hok.shift, one_shiftLeft_shiftOf]
  simp only [hfind, hok.shift, hsize]
  have hup : addr ≤ alignUp addr (bytes j) := le_alignUp (bytes_pos j)
  have hdown := alignDown_le stop (bytes j)
  have hdup := dvd_alignUp addr (bytes j)
  have hddown := dvd_alignDown stop (bytes j)
  set bigStart := alignUp addr (bytes j) with hbs
  set bigEnd := alignDown stop (bytes j) with hbe
  obtain ⟨k, hk⟩ := Nat.dvd_sub hddown hdup
  have hend : bigEnd = bigStart + k * bytes j := by
    rw [Nat.mul_comm k]
    omega
  obtain ⟨h₁, hrun₁, hfrees₁⟩ := freeBig_spec hj k bigStart h hinv hdup
    (hheld.mono (pageRange_subset hup (by omega)))
  rw [← hend] at hrun₁ hfrees₁
  obtain ⟨h₂, hrun₂, hfrees₂⟩ := freeAllBefore_spec ha j bigStart h₁ hj.le hfrees₁.inv hdup hup
    (fun h0 => by rw [hbs, h0]; exact alignUp_of_dvd ha)
    (hfrees₁.held (hheld.mono (pageRange_subset le_rfl (by omega))) (pageRange_disjoint le_rfl))
  have hfrees₁₂ := hfrees₁.trans hfrees₂
  rw [union_comm, pageRange_union hup hfit.le] at hfrees₁₂
  obtain ⟨h₃, hrun₃, hfrees₃⟩ := freeAllAfter_spec hstop j bigEnd h₂ hj.le hfrees₂.inv hddown hdown
    (fun h0 => by rw [hbe, h0]; exact alignDown_of_dvd hstop)
    (hfrees₁₂.held (hheld.mono (pageRange_subset (by omega) le_rfl)) (pageRange_disjoint le_rfl).symm)
  refine ⟨h₃, ?_, ?_⟩
  · simp only [hrun₁, hrun₂, hrun₃, bind_eq_bind, bind_some]
  · rw [← pageRange_union (hup.trans hfit.le) hdown]
    exact hfrees₁₂.trans hfrees₃

end Pages

end KPageHeap

end Kernel
end Citron
