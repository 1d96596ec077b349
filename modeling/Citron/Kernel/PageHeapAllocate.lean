/-
# Allocation from the page heap

`Takes h s h'` says that `h'` is `h` without the pages of `s`, which were free. An
allocation pops a block, and frees what it does not need of it; so it takes its own
pages only, whatever the random choices.
-/
import Citron.Kernel.PageHeapFree

namespace Citron
namespace Kernel

open Common Lib Option Set

namespace KPageHeap

variable {σ : Type} {h h' h'' : KPageHeap σ} {s t : Set ℕ} {a b c i n : ℕ}

/-- `h'` is `h` without the pages of `s`, which were free. -/
structure Takes (h : KPageHeap σ) (s : Set ℕ) (h' : KPageHeap σ) : Prop where
  inv : h'.Inv
  address : h'.heapAddress = h.heapAddress
  size : h'.heapSize = h.heapSize
  sub : s ⊆ h.freePages
  pages : h'.freePages = h.freePages \ s

theorem Takes.region (ht : Takes h s h') : h'.region = h.region := by
  unfold KPageHeap.region
  rw [ht.address, ht.size]

theorem Takes.inside (hinv : h.Inv) (ht : Takes h s h') : s ⊆ h.region := ht.sub.trans hinv.inside

/-- What was taken may be freed again. -/
theorem Takes.held (hinv : h.Inv) (ht : Takes h s h') : h'.Held s := by
  refine ⟨ht.region ▸ ht.inside hinv, ?_⟩
  rw [ht.pages]
  exact disjoint_sdiff_right

/-- Take pages, and give a part back. -/
theorem Takes.frees (ht : Takes h s h') (hf : Frees h' t h'') (hts : t ⊆ s) : Takes h (s \ t) h'' := by
  refine ⟨hf.inv, hf.address.trans ht.address, hf.size.trans ht.size, sdiff_subset.trans ht.sub, ?_⟩
  rw [hf.pages, ht.pages]
  ext p
  have h2 := @ht.sub p
  simp only [mem_union, mem_sdiff]
  tauto

/-- An allocation at `addr`, or none. -/
def Allocates (h : KPageHeap σ) (size align addr : ℕ) (h' : KPageHeap σ) : Prop :=
  (addr = 0 ∧ Takes h ∅ h') ∨ (addr ≠ 0 ∧ align ∣ addr ∧ Takes h (pageRange addr (addr + size)) h')

theorem Takes.refl (hinv : h.Inv) : Takes h ∅ h :=
  ⟨hinv, rfl, rfl, empty_subset _, sdiff_empty.symm⟩

theorem Takes.trans (h1 : Takes h ∅ h') (h2 : Takes h' s h'') : Takes h s h'' := by
  have hpages : h'.freePages = h.freePages := h1.pages.trans sdiff_empty
  exact ⟨h2.inv, h2.address.trans h1.address, h2.size.trans h1.size, hpages ▸ h2.sub, hpages ▸ h2.pages⟩

theorem Takes.allocates {size align addr : ℕ} (h1 : Takes h ∅ h') (h2 : Allocates h' size align addr h'') :
    Allocates h size align addr h'' := by
  rcases h2 with ⟨haddr, ht⟩ | ⟨hne, hd, ht⟩
  · exact .inl ⟨haddr, h1.trans ht⟩
  · exact .inr ⟨hne, hd, h1.trans ht⟩

theorem pageRange_sdiff_left (h1 : a ≤ b) : pageRange a c \ pageRange a b = pageRange b c := by
  ext p
  simp only [mem_sdiff, mem_pageRange]
  omega

theorem pageRange_sdiff_right (h1 : b ≤ c) : pageRange a c \ pageRange b c = pageRange a b := by
  ext p
  simp only [mem_sdiff, mem_pageRange]
  omega

/-- The generator of the heap does not matter. -/
theorem Takes.withRng (rng : RandomBitGenerator σ) (ht : Takes h s h') : Takes h s { h' with rng } :=
  ⟨⟨ht.inv.address_pos, ht.inv.length, ht.inv.ok, ht.inv.buddies, ht.inv.inside⟩, ht.address, ht.size, ht.sub,
    ht.pages⟩

theorem bytes_dvd_of_le (hab : a ≤ b) : bytes a ∣ bytes b := by
  induction b, hab using Nat.le_induction with
  | base => exact dvd_rfl
  | succ b _ ih => exact ih.trans (bytes_dvd b)

theorem bytes_le_of_le (hab : a ≤ b) : bytes a ≤ bytes b := Nat.le_of_dvd (bytes_pos b) (bytes_dvd_of_le hab)

/-- Give a part of the pages back. -/
theorem Takes.free {len : ℕ} (hinv : h.Inv) (ht : Takes h s h') (hb : PageSize ∣ b) (hlen : PageSize ∣ len)
    (hsub : pageRange b (b + len) ⊆ s) :
    ∃ h'', h'.free b (len / PageSize) = some h'' ∧ Takes h (s \ pageRange b (b + len)) h'' := by
  have hmul : len / PageSize * PageSize = len := Nat.div_mul_cancel hlen
  have hheld : h'.Held (pageRange b (b + len / PageSize * PageSize)) := hmul.symm ▸ (ht.held hinv).mono hsub
  obtain ⟨h'', hrun, hf⟩ := free_spec ht.inv hb hheld
  rw [hmul] at hf
  exact ⟨h'', hrun, ht.frees hf hsub⟩

/-- Free the space before the allocation. -/
theorem Takes.trimBefore {off : ℕ} (hinv : h.Inv) (ht : Takes h (pageRange a c) h') (ha : PageSize ∣ a)
    (hoff : PageSize ∣ off) (hle : a + off ≤ c) :
    ∃ h'', (if off ≠ 0 then h'.free a (off / PageSize) else some h') = some h'' ∧
      Takes h (pageRange (a + off) c) h'' := by
  by_cases h0 : off = 0
  · subst h0
    exact ⟨h', by rw [if_neg (not_not.mpr rfl)], ht⟩
  · obtain ⟨h'', hrun, ht'⟩ := ht.free hinv ha hoff (pageRange_subset le_rfl hle)
    rw [pageRange_sdiff_left (Nat.le_add_right ..)] at ht'
    exact ⟨h'', by rw [if_pos h0, hrun], ht'⟩

/-- Free the space after the allocation. -/
theorem Takes.trimAfter {off leftover : ℕ} (hinv : h.Inv) (ht : Takes h (pageRange a (b + (leftover - off))) h')
    (hb : PageSize ∣ b) (hoff : PageSize ∣ off) (hleft : PageSize ∣ leftover) (hab : a ≤ b) (hle : off ≤ leftover) :
    ∃ h'', (if off ≠ leftover then h'.free b ((leftover - off) / PageSize) else some h') = some h'' ∧
      Takes h (pageRange a b) h'' := by
  by_cases h0 : off = leftover
  · subst h0
    rw [Nat.sub_self, Nat.add_zero] at ht
    exact ⟨h', by rw [if_neg (not_not.mpr rfl)], ht⟩
  · obtain ⟨h'', hrun, ht'⟩ := ht.free hinv hb (Nat.dvd_sub hleft hoff) (pageRange_subset hab le_rfl)
    rw [pageRange_sdiff_right (Nat.le_add_right ..)] at ht'
    exact ⟨h'', by rw [if_pos h0, hrun], ht'⟩

theorem chooseIndex_mem {neededSize alignShift rnd : ℕ} : ∀ (bs : List (Block σ)) (j possible k : ℕ),
    chooseIndex neededSize alignShift rnd bs j possible = some k → j ≤ k ∧ k < j + bs.length := by
  intro bs
  induction bs with
  | nil =>
    intro j possible k hk
    exact absurd hk (by simp [chooseIndex])
  | cons b bs ih =>
    intro j possible k hk
    unfold chooseIndex at hk
    rw [List.length_cons]
    dsimp only at hk
    split_ifs at hk with hlt
    · obtain rfl := Option.some.inj hk
      omega
    · have := ih _ _ _ hk
      omega

section Alloc

variable [TinyMT σ]

/-- Pop a block: there is none, or its pages are taken. -/
theorem Inv.pop (hinv : h.Inv) (hi : i < 7) (random : Bool) :
    ∃ b addr b', h.blocks[i]? = some b ∧ b.Ok h.heapAddress h.heapSize i ∧ b.popBlock random = some (addr, b') ∧
      b'.Ok h.heapAddress h.heapSize i ∧
      Allocates h (bytes i) (bytes i) addr (h.setBlock i b') := by
  obtain ⟨b, hb, hok⟩ := hinv.get hi
  have hmarks := marks_of_get hb
  obtain ⟨addr, b', hpop, hok', ⟨haddr, hempty, hm'⟩ | ⟨n, hn, haddr, hm'⟩⟩ := hok.popBlock random
  · refine ⟨b, addr, b', hb, hok, hpop, hok', .inl ⟨haddr, ?_⟩⟩
    have hsame : Function.update h.marks i (b'.marks i) = h.marks := by
      rw [hm', ← hempty, ← hmarks, Function.update_eq_self]
    obtain ⟨hinv', hfree⟩ := hinv.setBlock hi hok' (by rw [hsame]; exact hinv.buddies)
      (by rw [hsame]; exact hinv.inside)
    refine ⟨hinv', rfl, rfl, empty_subset _, ?_⟩
    rw [hfree, hsame, sdiff_empty]
    rfl
  · rw [← hmarks] at hn hm'
    obtain ⟨hbud, hpages, hsub⟩ := hinv.buddies.remove hi hn
    rw [← hm'] at hbud hpages
    obtain ⟨hinv', hfree⟩ := hinv.setBlock hi hok' hbud
      (hpages.trans_subset (sdiff_subset.trans hinv.inside))
    have hne := (hinv.block_address (hsub.trans hinv.inside)).2.2
    rw [block_eq_pageRange, ← haddr] at hsub hpages
    exact ⟨b, addr, b', hb, hok, hpop, hok',
      .inr ⟨haddr ▸ hne, haddr ▸ Nat.dvd_mul_left .., hinv', rfl, rfl, hsub, hfree.trans hpages⟩⟩

/-! ### Linear search -/

theorem linearSearch_spec (index : ℕ) : ∀ (levels i : ℕ) (h : KPageHeap σ), i + levels = 7 → index ≤ i → h.Inv →
    ∃ addr h', linearSearch (bytes index) levels h i = some (addr, h') ∧
      Allocates h (bytes index) (bytes index) addr h' := by
  intro levels
  induction levels with
  | zero =>
    intro i h _ _ hinv
    exact ⟨0, h, rfl, .inl ⟨rfl, .refl hinv⟩⟩
  | succ levels ih =>
    intro i h hlev hle hinv
    obtain ⟨b, addr, b', hb, hok, hpop, hok', hcase⟩ := hinv.pop (i := i) (by omega) false
    unfold linearSearch
    simp only [hb, hpop, bind_eq_bind, bind_some]
    rcases hcase with ⟨haddr, htakes⟩ | ⟨hne, hd, htakes⟩
    · rw [if_neg (not_not.mpr haddr)]
      obtain ⟨addr', h', hrun, hcase⟩ := ih (i + 1) _ (by omega) (by omega) htakes.inv
      exact ⟨addr', h', hrun, htakes.allocates hcase⟩
    · have hsize : b'.getSize = bytes i := by
        unfold Block.getSize
        rw [hok'.shift, one_shiftLeft_shiftOf]
      have hle := bytes_le_of_le hle
      have hd' := (bytes_dvd_of_le ‹index ≤ i›).trans hd
      rw [if_pos hne, hsize]
      by_cases hlt : bytes i > bytes index
      · have hsub : pageRange (addr + bytes index) (addr + bytes index + (bytes i - bytes index)) ⊆
            pageRange addr (addr + bytes i) := pageRange_subset (by omega) (by omega)
        obtain ⟨h', hrun, htakes'⟩ := htakes.free hinv
          (Nat.dvd_add ((pageSize_dvd_bytes i).trans hd) (pageSize_dvd_bytes index))
          (Nat.dvd_sub (pageSize_dvd_bytes i) (pageSize_dvd_bytes index)) hsub
        rw [show addr + bytes index + (bytes i - bytes index) = addr + bytes i by omega,
          pageRange_sdiff_right (by omega)] at htakes'
        simp only [if_pos hlt, hrun, bind_some]
        exact ⟨addr, h', rfl, .inr ⟨hne, hd', htakes'⟩⟩
      · rw [if_neg hlt]
        have heq : bytes i = bytes index := by omega
        rw [heq] at htakes
        exact ⟨addr, _, rfl, .inr ⟨hne, hd', htakes⟩⟩

theorem Inv.allocateByLinearSearch (hinv : h.Inv) (hi : i < 7) :
    ∃ addr h', h.allocateByLinearSearch i = some (addr, h') ∧ Allocates h (bytes i) (bytes i) addr h' := by
  obtain ⟨b, hb, hok⟩ := hinv.get hi
  have hsize : b.getSize = bytes i := by
    unfold Block.getSize
    rw [hok.shift, one_shiftLeft_shiftOf]
  unfold KPageHeap.allocateByLinearSearch
  simp only [hb, hsize, hinv.length, bind_eq_bind, bind_some]
  exact linearSearch_spec i (7 - i) i h (by omega) le_rfl hinv

/-! ### Random choice -/

/-- The size chosen is no smaller than the one asked for. -/
theorem Inv.selectIndex (neededSize alignShift : ℕ) (hinv : h.Inv) (hi : i < 7) :
    ∃ j h', h.selectIndex i neededSize alignShift = (j, h') ∧ i ≤ j ∧ j < 7 ∧ Takes h ∅ h' := by
  unfold KPageHeap.selectIndex
  dsimp only
  split_ifs with hc
  · refine ⟨_, _, rfl, ?_, ?_, (Takes.refl hinv).withRng _⟩
    all_goals
      cases hk : chooseIndex _ _ _ _ i 0 with
      | none => simp [hi]
      | some k =>
        have := chooseIndex_mem _ _ _ _ hk
        rw [List.length_drop, List.length_take, hinv.length] at this
        rw [getD_some]
        omega
  · exact ⟨i, h, rfl, le_rfl, hi, .refl hinv⟩

theorem countrZero_twoPow {m : ℕ} (hm : m < 64) : countrZero (BitVec.ofNat 64 (2 ^ m)) = m := by
  have hfind : (List.range 64).find? (BitVec.ofNat 64 (2 ^ m)).getLsbD = some m := by
    rw [List.find?_range_eq_some]
    refine ⟨?_, List.mem_range.mpr hm, fun j hj => ?_⟩
    · rw [BitVec.getLsbD_ofNat, Nat.testBit_two_pow_self]
      simpa using hm
    · rw [BitVec.getLsbD_ofNat, Nat.testBit_two_pow_of_ne (by omega)]
      simp
  rw [countrZero, hfind, getD_some]

/-- `AllocateByRandom` takes exactly the pages asked for, aligned as asked for. -/
theorem Inv.allocateByRandom {numPages alignPages m : ℕ} (hinv : h.Inv) (hi : i < 7)
    (hneeded : numPages * PageSize ≤ bytes i) (halign : alignPages * PageSize = 2 ^ m) (hm : m < 64)
    (hd : alignPages * PageSize ∣ bytes i) :
    ∃ addr h', h.allocateByRandom i numPages alignPages = some (addr, h') ∧
      Allocates h (numPages * PageSize) (alignPages * PageSize) addr h' := by
  obtain ⟨j, h₁, hsel, hij, hj, hsame⟩ := hinv.selectIndex (numPages * PageSize) m hi
  obtain ⟨b, addr, b', hb, hok, hpop, hok', hcase⟩ := hsame.inv.pop hj true
  have hsize : b'.getSize = bytes j := by
    unfold Block.getSize
    rw [hok'.shift, one_shiftLeft_shiftOf]
  have hbytes := bytes_le_of_le hij
  have hpage : PageSize ∣ alignPages * PageSize := Nat.dvd_mul_left ..
  have hneededd : PageSize ∣ numPages * PageSize := Nat.dvd_mul_left ..
  unfold KPageHeap.allocateByRandom
  simp only [halign, countrZero_twoPow hm, hsel, hb, hpop, hsize, bind_eq_bind, bind_some]
  rw [halign] at hd hpage
  set needed := numPages * PageSize
  rcases hcase with ⟨haddr, htakes⟩ | ⟨hne, hdaddr, htakes⟩
  · rw [if_neg (not_not.mpr haddr)]
    exact ⟨0, _, rfl, .inl ⟨rfl, hsame.trans htakes⟩⟩
  · replace htakes := hsame.trans htakes
    have hdalign : 2 ^ m ∣ addr := (hd.trans (bytes_dvd_of_le hij)).trans hdaddr
    rw [if_pos hne]
    by_cases hpos : bytes j - needed > 0
    · rw [if_pos hpos]
      have hlt := RandomBitGenerator.generateRandom_lt (h₁.setBlock j b').rng
        (Nat.add_pos_left Nat.one_pos ((bytes j - needed) >>> m))
      set rnd := ((h₁.setBlock j b').rng.generateRandom (1 + (bytes j - needed) >>> m)).1
      have hoff : rnd <<< m ≤ bytes j - needed := by
        rw [Nat.shiftRight_eq_div_pow] at hlt
        rw [Nat.shiftLeft_eq]
        exact (Nat.mul_le_mul_right _ (by omega)).trans (Nat.div_mul_le_self _ _)
      have hdoff : 2 ^ m ∣ rnd <<< m := by
        rw [Nat.shiftLeft_eq]
        exact Nat.dvd_mul_left ..
      have hpoff := hpage.trans hdoff
      have hpaddr := hpage.trans hdalign
      obtain ⟨h₂, hrun₂, ht₂⟩ := (htakes.withRng _).trimBefore hinv hpaddr hpoff (by omega)
      rw [show addr + bytes j = addr + rnd <<< m + needed + (bytes j - needed - rnd <<< m) by omega] at ht₂
      obtain ⟨h₃, hrun₃, ht₃⟩ := ht₂.trimAfter hinv
        (Nat.dvd_add (Nat.dvd_add hpaddr hpoff) hneededd) hpoff (Nat.dvd_sub (pageSize_dvd_bytes j) hneededd)
        (Nat.le_add_right ..) hoff
      refine ⟨addr + rnd <<< m, h₃, ?_, .inr ⟨(Nat.add_pos_left (by omega) _).ne', Nat.dvd_add hdalign hdoff, ht₃⟩⟩
      rw [hrun₂, bind_some, hrun₃]
      rfl
    · rw [if_neg hpos]
      have heq : bytes j = needed := by omega
      rw [heq] at htakes
      exact ⟨addr, _, rfl, .inr ⟨hne, hdalign, htakes⟩⟩

end Alloc

end KPageHeap

end Kernel
end Citron
