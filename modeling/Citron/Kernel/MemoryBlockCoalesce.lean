/-
# Coalescing after an update

`CoalesceForUpdate` is the pass `coalesceFrom` over the blocks from the one
before the range on. It steps back from the block that holds the start of the
range, which has no predecessor if it is the first block of the address space:
there the pass reads the null node (`coalesceForUpdate_fault`). Everywhere else
the four operations end in a tree whose neighbours are all apart, and which
says of every page what it should (`updateRange_spec`).
-/
import Citron.Kernel.MemoryBlockPages

namespace Citron
namespace Kernel

open Lib List KMemoryBlock

/-- No two neighbours can be merged. -/
abbrev Coalesced (l : List KMemoryBlock) : Prop := l.IsChain fun b c => b.canMergeWith c = false

/-- The pass of `CoalesceForUpdate` over a list, from its first block on. -/
abbrev coalesceBlocks (stop : ℕ) (prev : KMemoryBlock) (rest : List KMemoryBlock) : List KMemoryBlock :=
  coalesceFrom getEndAddress canMergeWith add stop prev rest

section Pass

variable {address numPages e : ℕ}

/-- The loop runs the pass; it consumes a block each turn. -/
theorem coalesceLoop_eq (address numPages : ℕ) : ∀ (rest : List KMemoryBlock) (fuel : ℕ) (before : List KMemoryBlock)
    (prev : KMemoryBlock) (allocator : KMemoryBlockManagerUpdateAllocator), rest.length < fuel →
    ∃ s, whileLoop Fault.outOfFuel (fun s => !s.done) (coalesceStep address numPages) fuel
        ⟨allocator, ⟨before, prev :: rest⟩, false⟩ = .ok s ∧
      s.it.tree = before ++ coalesceBlocks (address + numPages * PageSize) prev rest
  | _, 0, _, _, _, h => absurd h (Nat.not_lt_zero _)
  | [], fuel + 1, before, prev, allocator, _ => by
    have hb : coalesceStep address numPages ⟨allocator, ⟨before, [prev]⟩, false⟩ =
        .ok ⟨allocator, ⟨before ++ [prev], []⟩, true⟩ := rfl
    refine ⟨_, by rw [whileLoop_turn rfl hb, whileLoop_of_not rfl], ?_⟩
    simp [Iterator.tree, coalesceFrom]
  | cur :: rest, fuel + 1, before, prev, allocator, h => by
    have hlen : rest.length < fuel := Nat.lt_of_succ_lt_succ h
    by_cases hm : prev.canMergeWith cur = true
    · have hb : coalesceStep address numPages ⟨allocator, ⟨before, prev :: cur :: rest⟩, false⟩ =
          .ok ⟨allocator.free cur, ⟨before, prev.add cur :: rest⟩,
            address + numPages * PageSize < (prev.add cur).getEndAddress⟩ := by
        simp [coalesceStep, Iterator.deref, Iterator.next, Iterator.erase, bind, Except.bind, pure,
          Except.pure, hm]
      by_cases hs : address + numPages * PageSize < (prev.add cur).getEndAddress
      · refine ⟨_, by rw [whileLoop_turn rfl hb, whileLoop_of_not (by simp [hs])], ?_⟩
        simp [Iterator.tree, coalesceFrom, hm, hs]
      · obtain ⟨s, h1, h2⟩ := coalesceLoop_eq address numPages rest fuel before (prev.add cur) (allocator.free cur) hlen
        refine ⟨s, by rw [whileLoop_turn rfl hb, ← h1]; simp [hs], ?_⟩
        simp [h2, coalesceFrom, hm, hs]
    · have hb : coalesceStep address numPages ⟨allocator, ⟨before, prev :: cur :: rest⟩, false⟩ =
          .ok ⟨allocator, ⟨before ++ [prev], cur :: rest⟩,
            address + numPages * PageSize < cur.getEndAddress⟩ := by
        simp [coalesceStep, Iterator.deref, Iterator.next, bind, Except.bind, pure, Except.pure, hm]
      by_cases hs : address + numPages * PageSize < cur.getEndAddress
      · refine ⟨_, by rw [whileLoop_turn rfl hb, whileLoop_of_not (by simp [hs])], ?_⟩
        simp [Iterator.tree, coalesceFrom, hm, hs]
      · obtain ⟨s, h1, h2⟩ := coalesceLoop_eq address numPages rest fuel (before ++ [prev]) cur allocator hlen
        refine ⟨s, by rw [whileLoop_turn rfl hb, ← h1]; simp [hs], ?_⟩
        simp [h2, coalesceFrom, hm, hs]

variable {m : KMemoryBlockManager} {allocator : KMemoryBlockManagerUpdateAllocator}

/-- Stepping back from the first block is a fault. -/
theorem coalesceForUpdate_fault {b : KMemoryBlock} (bs : List KMemoryBlock) (htree : m.tree = b :: bs)
    (hb : b.address < address) (hlt : address < b.getEndAddress) (hne : address ≠ m.startAddress) :
    coalesceForUpdate m allocator address numPages = .error .nullNode := by
  have hfind : findIterator m.tree address = ⟨[], b :: bs⟩ := by
    rw [htree]
    exact findIterator_eq (a := b.address) bs (tiles_nil.mpr rfl) hb.le hlt
  have hbegin : coalesceBegin m address = .ok ⟨b :: bs, []⟩ := by
    simp only [coalesceBegin, hfind, if_pos hne, Iterator.prev, getLast?_nil, Iterator.tree,
      nil_append]
  have hloop : whileLoop Fault.outOfFuel (fun s => !s.done) (coalesceStep address numPages)
      (m.tree.length + 1) ⟨allocator, ⟨b :: bs, []⟩, false⟩ = .error .nullNode := by
    have hturn : coalesceStep address numPages ⟨allocator, ⟨b :: bs, []⟩, false⟩ = .error .nullNode := rfl
    rw [whileLoop_fault rfl hturn]
  simp only [coalesceForUpdate, hbegin, bind, Except.bind, hloop]

/-- **Coalescing.** If there is a block before the range, or the range starts
at the start of the address space, the pass joins mergeable blocks until no two
neighbours are mergeable, if none away from the range were. -/
theorem coalesceForUpdate_spec (allocator : KMemoryBlockManagerUpdateAllocator) (numPages : ℕ) (hl : Spans m.startAddress m.tree e) (has : m.startAddress ≤ address)
    (hae : address < e)
    (hc : m.tree.IsChain fun b c => b.getEndAddress < address ∨
      address + numPages * PageSize < b.getEndAddress → b.canMergeWith c = false)
    (hhead : m.startAddress < address → ∀ b ∈ m.tree.head?, b.getEndAddress ≤ address) :
    ∃ l allocator', coalesceForUpdate m allocator address numPages =
        .ok ({ m with tree := l }, allocator') ∧
      Joins canMergeWith .add m.tree l ∧ Coalesced l := by
  -- the blocks before the first one of the pass, and that block
  obtain ⟨l₁, prev, rest, htree, hit, h1, hfar⟩ : ∃ l₁ prev rest, m.tree = l₁ ++ prev :: rest ∧
      coalesceBegin m address = .ok ⟨l₁, prev :: rest⟩ ∧
      Spans m.startAddress l₁ prev.address ∧ (l₁ ≠ [] → prev.address < address) := by
    obtain ⟨l₁, b, l₂, htree, h1, ⟨h2, h3⟩, h4⟩ := hl.exists_split has hae
    have hfind := findIterator_eq l₂ h1 h2 h3
    rw [← htree] at hfind
    by_cases hne : address = m.startAddress
    · obtain rfl : l₁ = [] := by
        cases l₁ with
        | nil => rfl
        | cons c l₁ => have := h1.2.1; have := h1.2.2.le; omega
      exact ⟨[], b, l₂, htree, by simp [coalesceBegin, hne, hne ▸ hfind], h1, by simp⟩
    · rcases l₁.eq_nil_or_concat' with rfl | ⟨l₀, c, rfl⟩
      · have := hhead (by omega) b (by rw [htree]; rfl)
        omega
      · obtain ⟨x, h5, h6, h7, h8⟩ := tiles_append.mp h1
        simp only [tiles_nil] at h8
        refine ⟨l₀, c, b :: l₂, by rw [htree, append_assoc]; rfl, ?_, h6 ▸ h5, fun _ => by omega⟩
        simp [coalesceBegin, hne, hfind, Iterator.prev]
  have hspan : Spans prev.address (prev :: rest) e := by
    obtain ⟨x, h2, h3⟩ := tiles_append.mp (htree ▸ hl)
    exact ⟨rfl, h3.1 ▸ h3.2.1, h3.2.2⟩
  obtain ⟨s, h2, h3⟩ := coalesceLoop_eq address numPages rest
    (m.tree.length + 1) l₁ prev allocator (by simp only [htree, length_append, length_cons]; omega)
  refine ⟨s.it.tree, s.allocator, ?_, ?_, ?_⟩
  · simp only [coalesceForUpdate, hit, bind, Except.bind, h2]
    rfl
  · rw [h3, htree]
    exact (coalesceFrom_joins _ prev rest).append_left l₁
  · rw [h3]
    rw [htree] at hc
    obtain ⟨hc1, hc2, hc3⟩ := isChain_append.mp hc
    obtain ⟨h, t, heq, hd⟩ := coalesceFrom_head joinLaws (address + numPages * PageSize)
      prev rest
    -- the blocks before the pass end before the range
    have hbefore : ∀ b ∈ l₁, b.getEndAddress < address := fun b hb =>
      lt_of_le_of_lt (h1.bounds b hb).2.2 (hfar (ne_nil_of_mem hb))
    refine isChain_append.mpr ⟨?_, ?_, ?_⟩
    · exact hc1.imp_of_mem_imp fun b c hb _ hbc => hbc (.inl (hbefore b hb))
    · exact coalesceFrom_isChain joinLaws hspan
        (hc2.imp fun b c hbc hx => hbc (.inr hx))
    · intro x hx y hy
      rw [show coalesceBlocks _ prev rest = h :: t from heq] at hy
      simp only [head?_cons, Option.mem_def, Option.some.injEq] at hy
      rw [← hy, hd]
      exact hc3 x hx prev (by simp) (.inl (hbefore x (mem_of_getLast? hx)))

end Pass

/-! ### The tree before the pass -/

section Pieces

variable {skip : KMemoryBlock → Bool} {upd : KMemoryBlock → KMemoryBlock} {a e start stop : ℕ}

/-- Two neighbours are apart, if they meet outside `[start, stop]`. -/
def ApartOutside (start stop : ℕ) (b c : KMemoryBlock) : Prop :=
  b.getEndAddress < start ∨ stop < b.getEndAddress → b.canMergeWith c = false

theorem pieces_isChain (hupd : KeepsPlace upd) (hst : start < stop) (hsd : PageSize ∣ start)
    (hed : PageSize ∣ stop) {b : KMemoryBlock} (hbd : PageSize ∣ b.address) :
    (pieces skip upd start stop b).IsChain (ApartOutside start stop) := by
  have hp := piecesOf skip upd start stop b
  generalize pieces skip upd start stop b = l at hp ⊢
  cases hp with
  | out => exact .singleton _
  | whole => exact .singleton _
  | left hs h1 h2 h3 =>
    have hl := leftPart_end h3.le hbd hed
    refine .cons_cons (fun h => ?_) (.singleton _)
    rw [hupd.getEndAddress, hl] at h
    omega
  | right hs h1 h2 h3 =>
    have hl := leftPart_end h1.le hbd hsd
    refine .cons_cons (fun h => ?_) (.singleton _)
    rw [hl] at h
    omega
  | middle hs h1 h2 =>
    have hl := leftPart_end h1.le hbd hsd
    have hml := leftPart_end (b := b.rightPart start) hst.le hsd hed
    refine .cons_cons (fun h => ?_) (.cons_cons (fun h => ?_) (.singleton _))
    · rw [hl] at h
      omega
    · rw [hupd.getEndAddress, hml] at h
      omega

/-- To the left of the range the first piece merges as the block does. -/
theorem pieces_head {b d : KMemoryBlock} (h : b.address < start) :
    ∀ x ∈ (pieces skip upd start stop b).head?, d.canMergeWith x = d.canMergeWith b := by
  have hp := piecesOf skip upd start stop b
  generalize pieces skip upd start stop b = l at hp ⊢
  have hcut : d.canMergeWith (b.leftPart start) = d.canMergeWith b :=
    canMergeWith_congr rfl rfl rfl leftPart_leftBits
  cases hp with
  | out => simp
  | whole hs h1 => exact absurd h (not_lt.mpr h1)
  | left hs h1 => exact absurd h (not_lt.mpr h1)
  | right => simpa using hcut
  | middle => simpa using hcut

/-- To the right of the range the last piece merges as the block does. -/
theorem pieces_getLast {b d : KMemoryBlock} (h : stop < b.getEndAddress) :
    ∀ x ∈ (pieces skip upd start stop b).getLast?, x.canMergeWith d = b.canMergeWith d := by
  have hp := piecesOf skip upd start stop b
  generalize pieces skip upd start stop b = l at hp ⊢
  have hcut : ∀ c : KMemoryBlock, (c.rightPart stop).canMergeWith d = c.canMergeWith d := fun c =>
    canMergeWith_congr rfl rightPart_rightBits rfl rfl
  cases hp with
  | out => simp
  | whole hs h1 h2 => exact absurd h (not_lt.mpr h2)
  | left => simpa using hcut b
  | right hs h1 h2 => exact absurd h (not_lt.mpr h2)
  | middle =>
    have hstart : (b.rightPart start).canMergeWith d = b.canMergeWith d :=
      canMergeWith_congr rfl rightPart_rightBits rfl rfl
    simpa using (hcut _).trans hstart

/-- If all neighbours were apart, those that meet outside the range still are. -/
theorem flatMap_pieces_isChain (skip : KMemoryBlock → Bool) (hupd : KeepsPlace upd) (hst : start < stop) (hsd : PageSize ∣ start)
    (hed : PageSize ∣ stop) : ∀ {l : List KMemoryBlock} {a : ℕ}, Spans a l e → PageSize ∣ a →
    Coalesced l → (l.flatMap (pieces skip upd start stop)).IsChain (ApartOutside start stop)
  | [], _, _, _, _ => .nil
  | [b], a, h, had, _ => by
    simpa using pieces_isChain hupd hst hsd hed (h.1 ▸ had)
  | b :: c :: l, a, ⟨h1, h2, h3⟩, had, hc => by
    subst h1
    have he : PageSize ∣ b.getEndAddress := Nat.dvd_add had (Nat.dvd_mul_left ..)
    have hb := pieces_spans skip hupd hst hsd hed h2 had
    obtain ⟨hbc, hcl⟩ := isChain_cons_cons.mp hc
    have hcb : c.address = b.getEndAddress := h3.1
    rw [flatMap_cons]
    refine isChain_append.mpr ⟨pieces_isChain hupd hst hsd hed had,
      flatMap_pieces_isChain skip hupd hst hsd hed h3 he hcl, fun x hx y hy hout => ?_⟩
    -- the neighbours meet where `b` and `c` do
    have hend : x.getEndAddress = b.getEndAddress := by
      obtain ⟨t, ht⟩ := getLast?_eq_some_iff.mp hx
      obtain ⟨_, -, h4⟩ := tiles_append.mp (ht ▸ hb)
      exact h4.2.2
    have hyc : y ∈ (pieces skip upd start stop c).head? := by
      have hne : (pieces skip upd start stop c) ≠ [] := by
        have := piecesOf skip upd start stop c
        generalize pieces skip upd start stop c = r at this ⊢
        cases this <;> simp
      rw [flatMap_cons, head?_append_of_ne_nil _ hne] at hy
      exact hy
    rw [hend] at hout
    rcases hout with hlt | hgt
    · rw [pieces_of_le hlt.le] at hx
      obtain rfl : b = x := by simpa using hx
      rw [pieces_head (hcb ▸ hlt) y hyc, hbc]
    · rw [pieces_of_ge (hcb ▸ hgt.le)] at hyc
      obtain rfl : c = y := by simpa using hyc
      rw [pieces_getLast hgt x hx, hbc]

end Pieces

/-! ### The operations -/

section Update

variable {skip : KMemoryBlock → Bool} {upd : KMemoryBlock → KMemoryBlock} {e start n : ℕ}
  {m : KMemoryBlockManager} {allocator : KMemoryBlockManagerUpdateAllocator}

/-- The range starts inside the first block of the tree, which the update leaves as it is. -/
def StartsInSkippedHead (skip : KMemoryBlock → Bool) (m : KMemoryBlockManager) (start : ℕ) : Prop :=
  m.startAddress < start ∧ ∃ b ∈ m.tree.head?, start < b.getEndAddress ∧ skip b = true

/-- What the four operations ask of a range: it is page aligned, not empty, and
lies in the address space. -/
structure InRange (m : KMemoryBlockManager) (start n : ℕ) : Prop where
  aligned : PageSize ∣ start
  nonempty : 0 < n
  start_le : m.startAddress ≤ start
  le_end : start + n * PageSize ≤ m.endAddress

/-- The blocks tile the address space, and no two neighbours can be merged. -/
structure WellFormed (m : KMemoryBlockManager) : Prop where
  aligned : PageSize ∣ m.startAddress
  spans : Spans m.startAddress m.tree m.endAddress
  coalesced : Coalesced m.tree

/-- The blocks that the splits at the two ends of a range take. -/
def splitsNeeded (m : KMemoryBlockManager) (start n : ℕ) : ℕ :=
  (if CutsBlock m.tree start then 1 else 0) + (if CutsBlock m.tree (start + n * PageSize) then 1 else 0)

/-- Stepping back from the range is a fault, if no block ends at its start or before. -/
theorem updateRange_fault (hupd : KeepsPlace upd) (hm : WellFormed m) (hr : InRange m start n)
    (hroom : splitsNeeded m start n ≤ allocator.blocks.length) (hbad : StartsInSkippedHead skip m start) :
    updateRange skip upd m allocator start n = .error .nullNode := by
  obtain ⟨hlt, b, hb, hbe, hskip⟩ := hbad
  obtain ⟨s, hs, htree⟩ := updateLoop_eq skip hupd hm.spans hm.aligned hr.aligned hr.start_le
    hr.nonempty rfl hr.le_end hroom
  cases hl : m.tree with
  | nil => simp [hl] at hb
  | cons c cs =>
    obtain rfl : c = b := by simpa [hl] using hb
    have hcs : c.address = m.startAddress := (hl ▸ hm.spans).1
    simp only [updateRange, hs, bind, Except.bind]
    refine coalesceForUpdate_fault (b := c) (cs.flatMap (pieces skip upd start (start + n * PageSize))) ?_
      (by omega) hbe (by simp only; omega)
    simp only [htree, hl, flatMap_cons, pieces_of_skip hskip]
    rfl

/-- **The operations.** Away from that case an operation ends without a fault,
in a tree of the same shape that says of the pages of the range what `upd`
makes of them, and of the other pages what it said before. -/
theorem updateRange_spec (skip : KMemoryBlock → Bool) {α : Type*} (V : BlockView α) {g : ℕ → α → α} (hupd : KeepsPlace upd)
    (hg : V.PageWise upd g start (start + n * PageSize)) (hm : WellFormed m) (hr : InRange m start n)
    (hgood : ∀ b ∈ m.tree.flatMap (pieces skip upd start (start + n * PageSize)), V.good b)
    (hroom : splitsNeeded m start n ≤ allocator.blocks.length)
    (hok : ¬ StartsInSkippedHead skip m start) :
    ∃ l allocator', updateRange skip upd m allocator start n = .ok ({ m with tree := l }, allocator') ∧
      WellFormed { m with tree := l } ∧ (∀ b ∈ l, V.good b) ∧
      ∀ p, PageSize ∣ p → V.viewAt l p = (blockAt m.tree p).map fun b =>
        if start ≤ p ∧ p < start + n * PageSize ∧ skip b = false then g p (V.view b p)
        else V.view b p := by
  have hst : start < start + n * PageSize := by
    have := hr.nonempty
    simp only [PageSize]
    omega
  have hed : PageSize ∣ start + n * PageSize := Nat.dvd_add hr.aligned (Nat.dvd_mul_left ..)
  obtain ⟨s, hs, htree⟩ := updateLoop_eq skip hupd hm.spans hm.aligned hr.aligned hr.start_le
    hr.nonempty rfl hr.le_end hroom
  have hspans := flatMap_pieces_spans skip hupd hst hr.aligned hed hm.spans hm.aligned
  have hchain := flatMap_pieces_isChain skip hupd hst hr.aligned hed hm.spans hm.aligned
    hm.coalesced
  rw [← htree] at hspans hchain hgood
  have hhead : m.startAddress < start → ∀ b ∈ s.it.tree.head?, b.getEndAddress ≤ start := by
    intro hlt
    obtain ⟨c, cs, hl, hc1, hc2, -⟩ := hm.spans.exists_cons (hr.start_le.trans_lt
      (hst.trans_le hr.le_end))
    have hcd : PageSize ∣ c.address := hc1 ▸ hm.aligned
    rw [htree, hl, flatMap_cons]
    have hp := piecesOf skip upd start (start + n * PageSize) c
    generalize pieces skip upd start _ c = r at hp ⊢
    cases hp with
    | out h =>
      simp only [cons_append, nil_append, head?_cons, Option.mem_def,
        Option.some.injEq, forall_eq']
      rcases h with h | h | h
      · exact h
      · omega
      · exact not_lt.mp fun hce => hok ⟨hlt, c, by rw [hl]; rfl, hce, h⟩
    | whole hs h1 => omega
    | left hs h1 => omega
    | right hs h1 => simpa using (leftPart_end h1.le hcd hr.aligned).le
    | middle hs h1 => simpa using (leftPart_end h1.le hcd hr.aligned).le
  obtain ⟨l, allocator', hco, hj, hl⟩ := coalesceForUpdate_spec s.allocator n (m := { m with tree := s.it.tree })
    hspans hr.start_le (hst.trans_le hr.le_end) hchain hhead
  obtain ⟨hgood', hview⟩ := BlockView.viewAt_joins (V := V) hj hspans hm.aligned hgood
  refine ⟨l, allocator', ?_, ⟨hm.aligned, hj.tiles joinLaws hspans, hl⟩, hgood', fun p hp => ?_⟩
  · simp only [updateRange, hs, bind, Except.bind, hco]
  · rw [hview p hp]
    simp only [htree]
    exact BlockView.viewAt_flatMap_pieces hupd hg hst hr.aligned hed hp hm.spans hm.aligned

end Update

end Kernel
end Citron
