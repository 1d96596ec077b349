/-
# The marks at the borders of blocks

Besides what it says of its pages a block carries marks for its two borders:
the bits that keep it from being merged, and the counts of the locks that set
them. The marks of the left border belong to the first page of the block, those
of the right border to its last page (`PageState`). Splitting a block puts empty
marks at the new border and merging drops empty ones, so both leave the state
of every page as it is (`lockView`), and a coalesced tree is determined by the
states of its pages (`tree_eq_of_viewAt_eq`).
-/
import Citron.Kernel.MemoryBlockUpdate

namespace Citron
namespace Kernel

open Lib KMemoryBlockDisableMergeAttribute KMemoryBlock

/-- A disable-merge bit is set exactly if its count is not zero. -/
structure Marked (x : KMemoryBlockDisableMergeAttribute) (ipcCount leftCount rightCount : ℕ) : Prop where
  ipcBit : x.getLsbD 2 = true ↔ 0 < ipcCount
  leftBit : x.getLsbD 1 = true ↔ 0 < leftCount
  rightBit : x.getLsbD 4 = true ↔ 0 < rightCount
  known : (x &&& allLeft) |||
    (x &&& allRight) = x

abbrev MarksOk (b : KMemoryBlock) : Prop :=
  Marked b.disableMergeAttribute b.ipcDisableMergeCount b.deviceDisableMergeLeftCount
    b.deviceDisableMergeRightCount

/-- What the tree says of a page and of the borders it lies at. -/
structure PageState where
  info : PageInfo
  ipcDisableMergeCount : ℕ
  deviceDisableMergeLeftCount : ℕ
  leftBits : KMemoryBlockDisableMergeAttribute
  deviceDisableMergeRightCount : ℕ
  rightBits : KMemoryBlockDisableMergeAttribute
deriving DecidableEq, Repr

def KMemoryBlock.pageState (b : KMemoryBlock) (p : ℕ) : PageState where
  info := b.pageInfo
  ipcDisableMergeCount := if b.address = p then b.ipcDisableMergeCount else 0
  deviceDisableMergeLeftCount := if b.address = p then b.deviceDisableMergeLeftCount else 0
  leftBits := if b.address = p then b.leftBits else 0
  deviceDisableMergeRightCount :=
    if b.getEndAddress = p + PageSize then b.deviceDisableMergeRightCount else 0
  rightBits := if b.getEndAddress = p + PageSize then b.rightBits else 0

section Marks

variable {b c : KMemoryBlock} {addr p : ℕ}

theorem leftBits_getElem : b.leftBits.getLsbD 1 = b.disableMergeAttribute.getLsbD 1 ∧
    b.leftBits.getLsbD 2 = b.disableMergeAttribute.getLsbD 2 ∧ b.leftBits.getLsbD 4 = false := by
  have h : ∀ x : KMemoryBlockDisableMergeAttribute,
      (x &&& allLeft).getLsbD 1 = x.getLsbD 1 ∧
      (x &&& allLeft).getLsbD 2 = x.getLsbD 2 ∧
      (x &&& allLeft).getLsbD 4 = false := by decide
  exact h b.disableMergeAttribute

theorem rightBits_getElem : b.rightBits.getLsbD 1 = false ∧ b.rightBits.getLsbD 2 = false ∧
    b.rightBits.getLsbD 4 = b.disableMergeAttribute.getLsbD 4 := by
  have h : ∀ x : KMemoryBlockDisableMergeAttribute,
      (x &&& allRight).getLsbD 1 = false ∧
      (x &&& allRight).getLsbD 2 = false ∧
      (x &&& allRight).getLsbD 4 = x.getLsbD 4 := by decide
  exact h b.disableMergeAttribute

theorem MarksOk.leftCounts_eq_zero (h : MarksOk b) (hb : b.leftBits = 0) :
    b.ipcDisableMergeCount = 0 ∧ b.deviceDisableMergeLeftCount = 0 := by
  have h1 := leftBits_getElem (b := b)
  rw [hb] at h1
  constructor
  · have : ¬ 0 < b.ipcDisableMergeCount := by rw [← h.ipcBit, ← h1.2.1]; decide
    omega
  · have : ¬ 0 < b.deviceDisableMergeLeftCount := by rw [← h.leftBit, ← h1.1]; decide
    omega

theorem MarksOk.rightCount_eq_zero (h : MarksOk b) (hb : b.rightBits = 0) :
    b.deviceDisableMergeRightCount = 0 := by
  have h1 := rightBits_getElem (b := b)
  rw [hb] at h1
  have : ¬ 0 < b.deviceDisableMergeRightCount := by rw [← h.rightBit, ← h1.2.2]; decide
  omega

theorem MarksOk.leftPart (h : MarksOk b) (addr : ℕ) : MarksOk (b.leftPart addr) := by
  have hl := leftBits_getElem (b := b)
  have hd : (b.leftPart addr).disableMergeAttribute = b.leftBits := rfl
  refine ⟨?_, ?_, ?_, ?_⟩
  · rw [hd, hl.2.1]; exact h.ipcBit
  · rw [hd, hl.1]; exact h.leftBit
  · rw [hd, hl.2.2]; exact iff_of_false (by decide) (lt_irrefl 0)
  · change (b.leftPart addr).leftBits ||| (b.leftPart addr).rightBits = _
    rw [leftPart_leftBits, leftPart_rightBits, hd]
    exact BitVec.or_zero

theorem MarksOk.rightPart (h : MarksOk b) (addr : ℕ) : MarksOk (b.rightPart addr) := by
  have hr := rightBits_getElem (b := b)
  have hd : (b.rightPart addr).disableMergeAttribute = b.rightBits := rfl
  refine ⟨?_, ?_, ?_, ?_⟩
  · rw [hd, hr.2.1]; exact iff_of_false (by decide) (lt_irrefl 0)
  · rw [hd, hr.1]; exact iff_of_false (by decide) (lt_irrefl 0)
  · rw [hd, hr.2.2]; exact h.rightBit
  · change (b.rightPart addr).leftBits ||| (b.rightPart addr).rightBits = _
    rw [rightPart_leftBits, rightPart_rightBits, hd]
    exact BitVec.zero_or

theorem MarksOk.add (hb : MarksOk b) (hc : MarksOk c) (hm : b.canMergeWith c = true) :
    MarksOk (b.add c) := by
  obtain ⟨-, hbr, hcl⟩ := canMergeWith_iff.mp hm
  have hl := leftBits_getElem (b := b.add c)
  have hr := rightBits_getElem (b := b.add c)
  rw [add_leftBits hm] at hl
  rw [add_rightBits hm] at hr
  refine ⟨?_, ?_, ?_, ?_⟩
  · rw [← hl.2.1, leftBits_getElem.2.1]; exact hb.ipcBit
  · rw [← hl.1, leftBits_getElem.1]; exact hb.leftBit
  · rw [← hr.2.2, rightBits_getElem.2.2]; exact hc.rightBit
  · have h1 : b.leftBits ||| b.rightBits = b.disableMergeAttribute := hb.known
    have h2 : c.leftBits ||| c.rightBits = c.disableMergeAttribute := hc.known
    rw [hbr] at h1
    rw [hcl] at h2
    change (b.add c).leftBits ||| (b.add c).rightBits = b.disableMergeAttribute ||| c.disableMergeAttribute
    rw [add_leftBits hm, add_rightBits hm]
    rw [← h1, ← h2]
    simp

/-- The state of a page, which no split and no merge changes. -/
def lockView : BlockView PageState where
  good := MarksOk
  view := pageState
  good_split b addr h := ⟨h.leftPart addr, h.rightPart addr⟩
  good_add _ _ := MarksOk.add
  view_left b addr p hp ha hb h1 h2 h3 := by
    have hend := leftPart_end (h1.trans h2.le) hb ha
    have hne : b.getEndAddress ≠ p + PageSize := by
      obtain ⟨i, rfl⟩ := hp
      obtain ⟨j, rfl⟩ := ha
      simp only [PageSize] at *
      omega
    have hright : (b.leftPart addr).deviceDisableMergeRightCount = 0 := rfl
    simp only [pageState, hend, if_neg hne, hright, leftPart_rightBits,
      leftPart_leftBits, ite_self]
    rfl
  view_right b addr p hp ha hb h1 h2 h3 := by
    have hend := rightPart_end h1.le (h2.trans h3.le) hb ha
    have hne : b.address ≠ p := by omega
    have hleft : (b.rightPart addr).ipcDisableMergeCount = 0 ∧
      (b.rightPart addr).deviceDisableMergeLeftCount = 0 := ⟨rfl, rfl⟩
    simp only [pageState, hend, if_neg hne, hleft.1, hleft.2,
      rightPart_leftBits, rightPart_rightBits, ite_self]
    rfl
  view_add_left b c p hp hgb hgc hm hbc hc hcd h1 h2 := by
    have hend := add_end hbc
    have hne : c.getEndAddress ≠ p + PageSize := by
      obtain ⟨i, rfl⟩ := hp
      obtain ⟨j, hj⟩ := hcd
      simp only [PageSize] at *
      omega
    have hbr := (canMergeWith_iff.mp hm).2.1
    simp only [pageState, hend, if_neg hne, add_leftBits hm, hbr,
      hgb.rightCount_eq_zero hbr, ite_self]
    rfl
  view_add_right b c p hp hgb hgc hm hbc hb hcd h1 h2 := by
    have hend := add_end hbc
    have hne : ¬ (b.add c).address = p := by rw [add_address]; omega
    obtain ⟨hinfo, -, hcl⟩ := canMergeWith_iff.mp hm
    obtain ⟨hc1, hc2⟩ := hgc.leftCounts_eq_zero hcl
    simp only [pageState, hend, if_neg hne, hc1, hc2, hcl,
      add_rightBits hm, add_pageInfo, hinfo, ite_self]
    rfl

end Marks

/-! ### The tree from the states of its pages -/

section Unique

variable {e : ℕ}

/-- The first blocks of two coalesced trees with the same page states are
equally long, or the shorter one could be merged with its neighbour. -/
theorem end_le_of_viewAt_eq {b b' : KMemoryBlock} {l l' : List KMemoryBlock} {a : ℕ}
    (h : Spans a (b :: l) e) (h' : Spans a (b' :: l') e) (ha : PageSize ∣ a) (hc : Coalesced (b :: l))
    (hv : ∀ p, PageSize ∣ p → lockView.viewAt (b :: l) p = lockView.viewAt (b' :: l') p) :
    b'.getEndAddress ≤ b.getEndAddress := by
  by_contra hlt
  obtain ⟨h1, h2, h3⟩ := h
  obtain ⟨h1', h2', h3'⟩ := h'
  have hbe : PageSize ∣ b.getEndAddress := by
    subst h1
    exact Nat.dvd_add ha (Nat.dvd_mul_left ..)
  obtain ⟨c, cs, rfl, hca, hce, -⟩ := h3.exists_cons ((not_le.mp hlt).trans_le h3'.le)
  obtain ⟨j, hj⟩ := hbe
  obtain ⟨i, hi⟩ := ha
  -- the last page of `b` and the first page of its neighbour `c` lie in `b'`
  have hlt' := not_le.mp hlt
  have hb := hv (b.getEndAddress - PageSize) (Nat.dvd_sub ⟨j, hj⟩ (Nat.dvd_refl _))
  have hcv := hv b.getEndAddress ⟨j, hj⟩
  simp only [PageSize] at hb hj hi
  rw [BlockView.viewAt_cons_of_lt (by omega) (by omega),
    BlockView.viewAt_cons_of_lt (by omega) (by omega), Option.some.injEq] at hb
  rw [BlockView.viewAt_cons_of_ge le_rfl, BlockView.viewAt_cons_of_lt hca.le hce,
    BlockView.viewAt_cons_of_lt (by omega) hlt', Option.some.injEq] at hcv
  simp only [lockView, pageState, PageState.mk.injEq, PageSize] at hb hcv
  obtain ⟨hb1, -, -, -, -, hb2⟩ := hb
  obtain ⟨hc1, -, -, hc2, -, -⟩ := hcv
  rw [if_pos (by omega), if_neg (by omega)] at hb2
  rw [if_pos hca, if_neg (by omega)] at hc2
  have hm : b.canMergeWith c = true := canMergeWith_iff.mpr ⟨hb1.trans hc1.symm, hb2, hc2⟩
  rw [(List.isChain_cons_cons.mp hc).1] at hm
  cases hm

/-- **Determinacy.** A coalesced tree with good marks is determined by the
states of its pages. -/
theorem tree_eq_of_viewAt_eq : ∀ {l l' : List KMemoryBlock} {a : ℕ}, Spans a l e → Spans a l' e →
    PageSize ∣ a → Coalesced l → Coalesced l' → (∀ b ∈ l, MarksOk b) → (∀ b ∈ l', MarksOk b) →
    (∀ p, PageSize ∣ p → lockView.viewAt l p = lockView.viewAt l' p) → l = l'
  | [], [], _, _, _, _, _, _, _, _, _ => rfl
  | [], b' :: l', a, h, h', _, _, _, _, _, _ => by
    have := h'.2.1
    have := h'.2.2.le
    simp only [tiles_nil] at h
    omega
  | b :: l, [], a, h, h', _, _, _, _, _, _ => by
    have := h.2.1
    have := h.2.2.le
    simp only [tiles_nil] at h'
    omega
  | b :: l, b' :: l', a, h, h', ha, hc, hc', hg, hg', hv => by
    have hend : b.getEndAddress = b'.getEndAddress :=
      le_antisymm (end_le_of_viewAt_eq h' h ha hc' fun p hp => (hv p hp).symm)
        (end_le_of_viewAt_eq h h' ha hc hv)
    obtain ⟨h1, h2, h3⟩ := h
    obtain ⟨h1', h2', h3'⟩ := h'
    have hbe : PageSize ∣ b.getEndAddress := by
      subst h1
      exact Nat.dvd_add ha (Nat.dvd_mul_left ..)
    -- the first page gives the left marks, the last one the right marks
    have hfirst := hv a ha
    have hlast := hv (b.getEndAddress - PageSize) (Nat.dvd_sub hbe (Nat.dvd_refl _))
    have hpage : b.getEndAddress = b.getEndAddress - PageSize + PageSize := by
      simp only [PageSize] at *
      omega
    rw [BlockView.viewAt_cons_of_lt h1.le h2, BlockView.viewAt_cons_of_lt h1'.le h2',
      Option.some.injEq] at hfirst
    rw [BlockView.viewAt_cons_of_lt (by simp only [PageSize] at *; omega) (by simp only [PageSize] at *; omega),
      BlockView.viewAt_cons_of_lt (by simp only [PageSize] at *; omega) (by simp only [PageSize] at *; omega),
      Option.some.injEq] at hlast
    simp only [lockView, pageState, PageState.mk.injEq, if_pos h1, if_pos h1'] at hfirst
    simp only [lockView, pageState, PageState.mk.injEq, if_pos hpage,
      if_pos (hend.symm.trans hpage)] at hlast
    obtain ⟨hinfo, hipc, hleft, hbits, -, -⟩ := hfirst
    obtain ⟨-, -, -, -, hright, hrbits⟩ := hlast
    have hdma : b.disableMergeAttribute = b'.disableMergeAttribute := by
      rw [← (hg b (by simp)).known, ← (hg' b' (by simp)).known]
      exact congrArg₂ (· ||| ·) hbits hrbits
    have hpages : b.numPages = b'.numPages := by
      have : b.address + b.numPages * PageSize = b'.address + b'.numPages * PageSize := hend
      simp only [PageSize] at this
      omega
    have hb : b = b' := by
      obtain ⟨hi1, hi2, hi3, hi4, hi5, hi6⟩ := PageInfo.mk.inj hinfo
      cases b
      cases b'
      exact mk.injEq .. |>.mpr ⟨hleft, hright, h1.trans h1'.symm, hpages, hi1, hi5, hi6,
        hipc, hi2, hi3, hi4, hdma⟩
    subst hb
    refine congrArg (b :: ·) (tree_eq_of_viewAt_eq h3 h3' hbe hc.tail hc'.tail
      (fun c hc => hg c (List.mem_cons_of_mem _ hc)) (fun c hc => hg' c (List.mem_cons_of_mem _ hc))
      fun p hp => ?_)
    by_cases hpb : p < b.getEndAddress
    · simp only [BlockView.viewAt, blockAt, tileAt_eq_none_of_lt h3 hpb, tileAt_eq_none_of_lt h3' hpb]
    · have := hv p hp
      rwa [BlockView.viewAt_cons_of_ge (not_lt.mp hpb), BlockView.viewAt_cons_of_ge (not_lt.mp hpb)] at this

end Unique

end Kernel
end Citron
