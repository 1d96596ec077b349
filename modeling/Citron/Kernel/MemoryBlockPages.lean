/-
# What a block says of its pages

Every page of a block has the block's state, permissions, attribute and lock
counts (`PageInfo`). Two blocks can be merged if they say the same of their
pages and no bit of the two sides that meet keeps them apart. Splitting a
block and adding a mergeable one to it change what is said of no page, and no
bit of the sides that stay outside.
-/
import Citron.Kernel.MemoryBlockRewrite
import Citron.Lib.Coalesce

namespace Citron
namespace Kernel

open Lib

/-- The members of a block that do not depend on its borders. -/
structure PageInfo where
  memoryState : KMemoryState
  permission : KMemoryPermission
  originalPermission : KMemoryPermission
  memoryAttribute : KMemoryAttribute
  ipcLockCount : ℕ
  deviceUseCount : ℕ
deriving DecidableEq, Repr

namespace KMemoryBlock

def pageInfo (b : KMemoryBlock) : PageInfo :=
  ⟨b.memoryState, b.permission, b.originalPermission, b.memoryAttribute, b.ipcLockCount,
    b.deviceUseCount⟩

/-- The bits that keep a block from being merged with its left neighbour. -/
def leftBits (b : KMemoryBlock) : KMemoryBlockDisableMergeAttribute :=
  b.disableMergeAttribute &&& KMemoryBlockDisableMergeAttribute.allLeft

/-- The bits that keep a block from being merged with its right neighbour. -/
def rightBits (b : KMemoryBlock) : KMemoryBlockDisableMergeAttribute :=
  b.disableMergeAttribute &&& KMemoryBlockDisableMergeAttribute.allRight

variable {b c d : KMemoryBlock} {addr : ℕ}

theorem hasSameProperties_iff : b.hasSameProperties c = true ↔ b.pageInfo = c.pageInfo := by
  simp [hasSameProperties, pageInfo, and_assoc]

theorem canMergeWith_iff :
    b.canMergeWith c = true ↔ b.pageInfo = c.pageInfo ∧ b.rightBits = 0 ∧ c.leftBits = 0 := by
  simp only [canMergeWith, Bool.and_eq_true, hasSameProperties_iff, beq_iff_eq, leftBits, rightBits,
    and_assoc]

/-- Merging looks at what the blocks say of their pages and at the sides that meet. -/
theorem canMergeWith_congr {b' c' : KMemoryBlock} (hb : b.pageInfo = b'.pageInfo)
    (hbr : b.rightBits = b'.rightBits) (hc : c.pageInfo = c'.pageInfo)
    (hcl : c.leftBits = c'.leftBits) : b.canMergeWith c = b'.canMergeWith c' := by
  rw [Bool.eq_iff_iff, canMergeWith_iff, canMergeWith_iff, hb, hbr, hc, hcl]

/-! ### Split -/

@[simp] theorem leftPart_pageInfo : (b.leftPart addr).pageInfo = b.pageInfo := rfl

@[simp] theorem rightPart_pageInfo : (b.rightPart addr).pageInfo = b.pageInfo := rfl

@[simp] theorem leftPart_leftBits : (b.leftPart addr).leftBits = b.leftBits := by
  simp only [leftBits, leftPart, split, BitVec.and_assoc, BitVec.and_self]

@[simp] theorem rightPart_rightBits : (b.rightPart addr).rightBits = b.rightBits := by
  simp only [rightBits, rightPart, split, BitVec.and_assoc, BitVec.and_self]

@[simp] theorem leftPart_rightBits : (b.leftPart addr).rightBits = 0 := by
  simp only [rightBits, leftPart, split, BitVec.and_assoc]
  exact BitVec.and_zero

@[simp] theorem rightPart_leftBits : (b.rightPart addr).leftBits = 0 := by
  simp only [leftBits, rightPart, split, BitVec.and_assoc]
  exact BitVec.and_zero

/-! ### Add -/

theorem or_and_distrib (x y m : BitVec 8) : (x ||| y) &&& m = (x &&& m) ||| (y &&& m) := by
  ext i hi
  simp only [BitVec.getElem_and, BitVec.getElem_or, Bool.and_or_distrib_right]

@[simp] theorem add_address : (b.add c).address = b.address := rfl

@[simp] theorem add_pageInfo : (b.add c).pageInfo = b.pageInfo := rfl

theorem add_end (h : b.getEndAddress = c.address) : (b.add c).getEndAddress = c.getEndAddress := by
  change b.address + (b.numPages + c.numPages) * PageSize = c.address + c.numPages * PageSize
  rw [Nat.add_mul, ← Nat.add_assoc]
  exact congrArg (· + _) h

theorem add_leftBits (h : b.canMergeWith c = true) : (b.add c).leftBits = b.leftBits :=
  calc (b.add c).leftBits = b.leftBits ||| c.leftBits := or_and_distrib ..
    _ = b.leftBits := by simp [(canMergeWith_iff.mp h).2.2]

theorem add_rightBits (h : b.canMergeWith c = true) : (b.add c).rightBits = c.rightBits :=
  calc (b.add c).rightBits = b.rightBits ||| c.rightBits := or_and_distrib ..
    _ = c.rightBits := by simp [(canMergeWith_iff.mp h).2.1]

/-- Blocks can be coalesced. -/
theorem joinLaws : JoinLaws address getEndAddress canMergeWith add where
  lo_join _ _ := rfl
  hi_join _ _ := add_end
  left _ _ _ h := canMergeWith_congr (canMergeWith_iff.mp h).1 (add_rightBits h) rfl rfl
  right _ _ _ h := canMergeWith_congr rfl rfl rfl (add_leftBits h)

end KMemoryBlock

/-! ### The pieces of a block -/

section Pieces

variable {skip : KMemoryBlock → Bool} {upd : KMemoryBlock → KMemoryBlock} {a e start stop : ℕ}
  {b : KMemoryBlock}

theorem pieces_of_skip (h : skip b = true) : pieces skip upd start stop b = [b] := by
  simp [pieces, h]

theorem pieces_of_le (h : b.getEndAddress ≤ start) : pieces skip upd start stop b = [b] := by
  simp [pieces, h]

theorem pieces_of_ge (h : stop ≤ b.address) : pieces skip upd start stop b = [b] := by
  simp [pieces, h]

/-- The block as it is, or cut at the ends of the range that lie inside it. -/
inductive PiecesOf (skip : KMemoryBlock → Bool) (upd : KMemoryBlock → KMemoryBlock) (start stop : ℕ)
    (b : KMemoryBlock) : List KMemoryBlock → Prop
  | out (h : b.getEndAddress ≤ start ∨ stop ≤ b.address ∨ skip b = true) :
    PiecesOf skip upd start stop b [b]
  | whole (hs : skip b = false) (h1 : start ≤ b.address) (h2 : b.getEndAddress ≤ stop) :
    PiecesOf skip upd start stop b [upd b]
  | left (hs : skip b = false) (h1 : start ≤ b.address) (h2 : stop < b.getEndAddress)
      (h3 : b.address < stop) :
    PiecesOf skip upd start stop b [upd (b.leftPart stop), b.rightPart stop]
  | right (hs : skip b = false) (h1 : b.address < start) (h2 : b.getEndAddress ≤ stop)
      (h3 : start < b.getEndAddress) :
    PiecesOf skip upd start stop b [b.leftPart start, upd (b.rightPart start)]
  | middle (hs : skip b = false) (h1 : b.address < start) (h2 : stop < b.getEndAddress) :
    PiecesOf skip upd start stop b
      [b.leftPart start, upd ((b.rightPart start).leftPart stop), (b.rightPart start).rightPart stop]

theorem piecesOf (skip : KMemoryBlock → Bool) (upd : KMemoryBlock → KMemoryBlock) (start stop : ℕ)
    (b : KMemoryBlock) : PiecesOf skip upd start stop b (pieces skip upd start stop b) := by
  by_cases hout : b.getEndAddress ≤ start ∨ stop ≤ b.address ∨ skip b = true
  · rw [pieces, if_pos hout]
    exact .out hout
  · rw [pieces, if_neg hout]
    simp only [not_or, not_le, Bool.not_eq_true] at hout
    obtain ⟨h1, h2, hs⟩ := hout
    by_cases h3 : b.address < start <;> by_cases h4 : stop < b.getEndAddress <;>
      simp only [h3, h4, if_true, if_false, List.nil_append, List.cons_append]
    · exact .middle hs h3 h4
    · exact .right hs h3 (not_lt.mp h4) h1
    · exact .left hs (not_lt.mp h3) h4 h2
    · exact .whole hs (not_lt.mp h3) (not_lt.mp h4)

/-- The pieces cover the block. -/
theorem pieces_spans (skip : KMemoryBlock → Bool) (hupd : KeepsPlace upd) (hst : start < stop) (hsd : PageSize ∣ start)
    (hed : PageSize ∣ stop) (hb : b.address < b.getEndAddress) (hbd : PageSize ∣ b.address) :
    Spans b.address (pieces skip upd start stop b) b.getEndAddress := by
  have hp := piecesOf skip upd start stop b
  generalize pieces skip upd start stop b = l at hp ⊢
  cases hp with
  | out => exact ⟨rfl, hb, rfl⟩
  | whole => exact ⟨hupd.address b, by rwa [hupd.getEndAddress], hupd.getEndAddress b⟩
  | left hs h1 h2 h3 =>
    have hl := KMemoryBlock.leftPart_end h3.le hbd hed
    have hr := KMemoryBlock.rightPart_end h3.le h2.le hbd hed
    have hu := hupd.getEndAddress (b.leftPart stop)
    exact ⟨hupd.address _, by rw [hu, hl]; exact h3, by rw [hu, hl]; rfl, by rw [hu, hl, hr]; exact h2, hr⟩
  | right hs h1 h2 h3 =>
    have hl := KMemoryBlock.leftPart_end h1.le hbd hsd
    have hr := KMemoryBlock.rightPart_end h1.le h3.le hbd hsd
    have hu := hupd.getEndAddress (b.rightPart start)
    exact ⟨rfl, hl.symm ▸ h1, (hupd.address _).trans hl.symm, by rw [hl, hu, hr]; exact h3, hu.trans hr⟩
  | middle hs h1 h2 =>
    have hl := KMemoryBlock.leftPart_end h1.le hbd hsd
    have hr := KMemoryBlock.rightPart_end h1.le (hst.trans h2).le hbd hsd
    have hml := KMemoryBlock.leftPart_end (b := b.rightPart start) hst.le hsd hed
    have hmr := KMemoryBlock.rightPart_end (b := b.rightPart start) hst.le (hr.symm ▸ h2.le) hsd hed
    have hu := hupd.getEndAddress ((b.rightPart start).leftPart stop)
    exact ⟨rfl, hl.symm ▸ h1, (hupd.address _).trans hl.symm, by rw [hl, hu, hml]; exact hst,
      by rw [hu, hml]; rfl, by rw [hu, hml, hmr, hr]; exact h2, hmr.trans hr⟩

theorem flatMap_pieces_spans (skip : KMemoryBlock → Bool) (hupd : KeepsPlace upd) (hst : start < stop) (hsd : PageSize ∣ start)
    (hed : PageSize ∣ stop) : ∀ {l : List KMemoryBlock} {a : ℕ}, Spans a l e → PageSize ∣ a →
    Spans a (l.flatMap (pieces skip upd start stop)) e
  | [], _, h, _ => h
  | b :: l, _, ⟨h1, h2, h3⟩, had => by
    subst h1
    have he : PageSize ∣ b.getEndAddress := Nat.dvd_add had (Nat.dvd_mul_left ..)
    rw [List.flatMap_cons]
    exact (pieces_spans skip hupd hst hsd hed h2 had).append (flatMap_pieces_spans skip hupd hst hsd hed h3 he)

end Pieces

/-! ### Views of a page

A view says something of every page of a block, such as its `PageInfo`; what
it says does not change when the block is split or added to, as long as the
blocks are `good`. -/

structure BlockView (α : Type*) where
  good : KMemoryBlock → Prop
  view : KMemoryBlock → ℕ → α
  good_split : ∀ b addr, good b → good (b.leftPart addr) ∧ good (b.rightPart addr)
  good_add : ∀ b c, good b → good c → b.canMergeWith c = true → good (b.add c)
  view_left : ∀ b addr p, PageSize ∣ p → PageSize ∣ addr → PageSize ∣ b.address → b.address ≤ p →
    p < addr → addr < b.getEndAddress → view (b.leftPart addr) p = view b p
  view_right : ∀ b addr p, PageSize ∣ p → PageSize ∣ addr → PageSize ∣ b.address →
    b.address < addr → addr ≤ p → p < b.getEndAddress → view (b.rightPart addr) p = view b p
  view_add_left : ∀ b c p, PageSize ∣ p → good b → good c → b.canMergeWith c = true →
    b.getEndAddress = c.address → c.address < c.getEndAddress → PageSize ∣ c.address →
    b.address ≤ p → p < c.address → view (b.add c) p = view b p
  view_add_right : ∀ b c p, PageSize ∣ p → good b → good c → b.canMergeWith c = true →
    b.getEndAddress = c.address → b.address < b.getEndAddress → PageSize ∣ c.address →
    c.address ≤ p → p < c.getEndAddress → view (b.add c) p = view c p

namespace BlockView

variable {α : Type*} (V : BlockView α)

/-- The view of the page in a tree. -/
def viewAt (l : List KMemoryBlock) (p : ℕ) : Option α := (blockAt l p).map (V.view · p)

variable {V} {p a e start stop : ℕ} {b c : KMemoryBlock} {l : List KMemoryBlock}

theorem viewAt_cons_of_lt (h1 : b.address ≤ p) (h2 : p < b.getEndAddress) :
    V.viewAt (b :: l) p = some (V.view b p) := by
  rw [viewAt, blockAt, tileAt_cons_of_inside ⟨h1, h2⟩]
  rfl

theorem viewAt_cons_of_ge (h : b.getEndAddress ≤ p) : V.viewAt (b :: l) p = V.viewAt l p := by
  rw [viewAt, blockAt, tileAt_cons_of_not (fun hb => absurd hb.2 (not_lt.mpr h))]
  rfl

/-- Joining blocks changes no view. -/
theorem viewAt_joins {l l' : List KMemoryBlock} (hj : Joins KMemoryBlock.canMergeWith .add l l')
    (hl : Spans a l e) (had : PageSize ∣ a) (hg : ∀ b ∈ l, V.good b) :
    (∀ b ∈ l', V.good b) ∧ ∀ p, PageSize ∣ p → V.viewAt l' p = V.viewAt l p := by
  refine (hj.preserves (P := fun l' => Spans a l' e ∧ (∀ b ∈ l', V.good b) ∧
    ∀ p, PageSize ∣ p → V.viewAt l' p = V.viewAt l p) ?_ ⟨hl, hg, fun _ _ => rfl⟩).2
  rintro l₁ l₂ b c hm ⟨hs, hgood, hv⟩
  have hgb : V.good b := hgood b (by simp)
  have hgc : V.good c := hgood c (by simp)
  obtain ⟨m, h1, rfl, h2, h3, h4, h5⟩ := tiles_append.mp hs
  have hend := KMemoryBlock.add_end h3.symm
  have hcd : PageSize ∣ c.address := (Spans.dvd hs had).1 c (by simp)
  have hright : Spans b.address (b.add c :: l₂) e := ⟨rfl, by omega, hend ▸ h5⟩
  refine ⟨h1.append hright, fun d hd => ?_, fun p hp => ?_⟩
  · rcases List.mem_append.mp hd with hd | hd
    · exact hgood d (by simp [hd])
    · rcases List.mem_cons.mp hd with rfl | hd
      · exact V.good_add b c hgb hgc hm
      · exact hgood d (by simp [hd])
  · rw [← hv p hp]
    by_cases hpb : p < b.address
    · rw [viewAt, viewAt, blockAt, blockAt, tileAt_append_left hright hpb,
        tileAt_append_left (r := b :: c :: l₂) ⟨rfl, h2, h3, h4, h5⟩ hpb]
    · have hbp := not_lt.mp hpb
      rw [viewAt, viewAt, blockAt, blockAt, tileAt_append_right h1 hbp, tileAt_append_right h1 hbp]
      change V.viewAt _ _ = V.viewAt _ _
      by_cases hpc : p < c.address
      · rw [viewAt_cons_of_lt (b := b.add c) hbp (by rw [hend]; omega), viewAt_cons_of_lt hbp (by omega),
          V.view_add_left b c p hp hgb hgc hm h3.symm (h3 ▸ h4) hcd hbp hpc]
      · have hcp := not_lt.mp hpc
        rw [viewAt_cons_of_ge (l := c :: l₂) (by omega)]
        by_cases hpe : p < c.getEndAddress
        · rw [viewAt_cons_of_lt (b := b.add c) hbp (by rw [hend]; omega), viewAt_cons_of_lt hcp hpe,
            V.view_add_right b c p hp hgb hgc hm h3.symm h2 hcd hcp hpe]
        · rw [viewAt_cons_of_ge (by rw [hend]; omega), viewAt_cons_of_ge (by omega)]

variable {skip : KMemoryBlock → Bool} {upd : KMemoryBlock → KMemoryBlock} {g : ℕ → α → α}

/-- On the pages of a block inside the range, `upd` changes the views by `g`. -/
def PageWise (V : BlockView α) (upd : KMemoryBlock → KMemoryBlock) (g : ℕ → α → α)
    (start stop : ℕ) : Prop :=
  ∀ c p, PageSize ∣ p → PageSize ∣ c.address → start ≤ c.address → c.getEndAddress ≤ stop →
    c.address ≤ p → p < c.getEndAddress → V.view (upd c) p = g p (V.view c p)

/-- The views of a block's pages once the block is in pieces. -/
theorem viewAt_pieces (hupd : KeepsPlace upd) (hg : PageWise V upd g start stop) (hst : start < stop)
    (hsd : PageSize ∣ start) (hed : PageSize ∣ stop) (hbd : PageSize ∣ b.address) (hp : PageSize ∣ p)
    (h1 : b.address ≤ p) (h2 : p < b.getEndAddress) :
    V.viewAt (pieces skip upd start stop b) p =
      some (if start ≤ p ∧ p < stop ∧ skip b = false then g p (V.view b p) else V.view b p) := by
  have hps := piecesOf skip upd start stop b
  generalize pieces skip upd start stop b = l at hps ⊢
  cases hps with
  | out h =>
    rw [viewAt_cons_of_lt h1 h2, if_neg]
    rintro ⟨h3, h4, h5⟩
    rcases h with h | h | h
    · omega
    · omega
    · simp [h5] at h
  | whole hs h3 h4 =>
    rw [viewAt_cons_of_lt (by rwa [hupd.address]) (by rwa [hupd.getEndAddress]),
      hg b p hp hbd h3 h4 h1 h2, if_pos ⟨by omega, by omega, hs⟩]
  | left hs h3 h4 h5 =>
    have hl := KMemoryBlock.leftPart_end h5.le hbd hed
    have hr := KMemoryBlock.rightPart_end h5.le h4.le hbd hed
    have hu := hupd.getEndAddress (b.leftPart stop)
    by_cases hps : p < stop
    · rw [viewAt_cons_of_lt (by rwa [hupd.address]) (by rwa [hu, hl]),
        hg (b.leftPart stop) p hp hbd h3 hl.le h1 (by rwa [hl]), V.view_left b stop p hp hed hbd h1 hps h4,
        if_pos ⟨by omega, hps, hs⟩]
    · rw [viewAt_cons_of_ge (by rw [hu, hl]; omega), viewAt_cons_of_lt (not_lt.mp hps) (by rwa [hr]),
        V.view_right b stop p hp hed hbd h5 (not_lt.mp hps) h2, if_neg (fun h => hps h.2.1)]
  | right hs h3 h4 h5 =>
    have hl := KMemoryBlock.leftPart_end h3.le hbd hsd
    have hr := KMemoryBlock.rightPart_end h3.le h5.le hbd hsd
    have hu := hupd.getEndAddress (b.rightPart start)
    by_cases hps : p < start
    · rw [viewAt_cons_of_lt (b := b.leftPart start) h1 (by rwa [hl]), V.view_left b start p hp hsd hbd h1 hps h5,
        if_neg (fun h => absurd hps (not_lt.mpr h.1))]
    · have hps' := not_lt.mp hps
      rw [viewAt_cons_of_ge (by rw [hl]; exact hps'),
        viewAt_cons_of_lt (by rwa [hupd.address]) (by rwa [hu, hr]),
        hg _ p hp hsd le_rfl (by rwa [hr]) hps' (by rwa [hr]), V.view_right b start p hp hsd hbd h3 hps' h2,
        if_pos ⟨hps', by omega, hs⟩]
  | middle hs h3 h4 =>
    have hl := KMemoryBlock.leftPart_end h3.le hbd hsd
    have hr := KMemoryBlock.rightPart_end h3.le (hst.trans h4).le hbd hsd
    have hml := KMemoryBlock.leftPart_end (b := b.rightPart start) hst.le hsd hed
    have hmr := KMemoryBlock.rightPart_end (b := b.rightPart start) hst.le (hr.symm ▸ h4.le) hsd hed
    have hu := hupd.getEndAddress ((b.rightPart start).leftPart stop)
    by_cases hps : p < start
    · rw [viewAt_cons_of_lt (b := b.leftPart start) h1 (by rwa [hl]), V.view_left b start p hp hsd hbd h1 hps (hst.trans h4),
        if_neg (fun h => absurd hps (not_lt.mpr h.1))]
    · have hps' := not_lt.mp hps
      have hvr := V.view_right b start p hp hsd hbd h3 hps' h2
      rw [viewAt_cons_of_ge (by rw [hl]; exact hps')]
      by_cases hpe : p < stop
      · rw [viewAt_cons_of_lt (by rwa [hupd.address]) (by rwa [hu, hml]),
          hg _ p hp hsd le_rfl hml.le hps' (by rwa [hml]),
          V.view_left _ stop p hp hed hsd hps' hpe (hr.symm ▸ h4), hvr, if_pos ⟨hps', hpe, hs⟩]
      · have hpe' := not_lt.mp hpe
        rw [viewAt_cons_of_ge (by rw [hu, hml]; exact hpe'),
          viewAt_cons_of_lt hpe' (by rw [hmr, hr]; exact h2),
          V.view_right _ stop p hp hed hsd hst hpe' (by rwa [hr]), hvr, if_neg (fun h => hpe h.2.1)]

/-- **The pieces page by page.** On the pages of the range whose block is not
skipped the views change by `g`; all other views stay. -/
theorem viewAt_flatMap_pieces (hupd : KeepsPlace upd) (hg : PageWise V upd g start stop)
    (hst : start < stop) (hsd : PageSize ∣ start) (hed : PageSize ∣ stop) (hp : PageSize ∣ p) :
    ∀ {l : List KMemoryBlock} {a : ℕ}, Spans a l e → PageSize ∣ a →
      V.viewAt (l.flatMap (pieces skip upd start stop)) p = (blockAt l p).map fun b =>
        if start ≤ p ∧ p < stop ∧ skip b = false then g p (V.view b p) else V.view b p
  | [], _, _, _ => rfl
  | b :: l, a, ⟨h1, h2, h3⟩, had => by
    subst h1
    have he : PageSize ∣ b.getEndAddress := Nat.dvd_add had (Nat.dvd_mul_left ..)
    have hb := pieces_spans skip hupd hst hsd hed h2 had
    have hl := flatMap_pieces_spans skip hupd hst hsd hed h3 he
    rw [List.flatMap_cons, viewAt, blockAt, blockAt]
    by_cases hpe : p < b.getEndAddress
    · rw [tileAt_append_left hl hpe]
      by_cases hpb : b.address ≤ p
      · rw [tileAt_cons_of_inside ⟨hpb, hpe⟩]
        exact viewAt_pieces hupd hg hst hsd hed had hp hpb hpe
      · rw [tileAt_eq_none_of_lt hb (not_le.mp hpb),
          tileAt_eq_none_of_lt (l := b :: l) ⟨rfl, h2, h3⟩ (not_le.mp hpb)]
        rfl
    · rw [tileAt_append_right hb (not_lt.mp hpe), tileAt_cons_of_not (fun h => hpe h.2)]
      exact viewAt_flatMap_pieces hupd hg hst hsd hed hp h3 he

/-- The pieces are good, if `upd` keeps the parts of the block in the range good. -/
theorem good_pieces (hst : start < stop) (hsd : PageSize ∣ start) (hed : PageSize ∣ stop)
    (hbd : PageSize ∣ b.address) (hlt : b.address < b.getEndAddress) (hb : V.good b)
    (hgood : ∀ c, V.good c → start ≤ c.address → c.getEndAddress ≤ stop → b.address ≤ c.address →
      c.address < c.getEndAddress → c.getEndAddress ≤ b.getEndAddress → PageSize ∣ c.address →
      (∀ p, PageSize ∣ p → c.address ≤ p → p < c.getEndAddress → V.view c p = V.view b p) →
      V.good (upd c)) :
    ∀ x ∈ pieces skip upd start stop b, V.good x := by
  have hps := piecesOf skip upd start stop b
  generalize pieces skip upd start stop b = l at hps ⊢
  cases hps with
  | out h => simpa using hb
  | whole hs h3 h4 => simpa using hgood b hb h3 h4 le_rfl hlt le_rfl hbd fun _ _ _ _ => rfl
  | left hs h3 h4 h5 =>
    have hl := KMemoryBlock.leftPart_end h5.le hbd hed
    obtain ⟨hgl, hgr⟩ := V.good_split b stop hb
    have hu : V.good (upd (b.leftPart stop)) := by
      refine hgood (b.leftPart stop) hgl h3 hl.le le_rfl (by rw [hl]; exact h5) (by rw [hl]; exact h4.le)
        hbd fun p hp h6 h7 => ?_
      exact V.view_left b stop p hp hed hbd h6 (hl ▸ h7) h4
    simpa using ⟨hu, hgr⟩
  | right hs h3 h4 h5 =>
    have hr := KMemoryBlock.rightPart_end h3.le h5.le hbd hsd
    obtain ⟨hgl, hgr⟩ := V.good_split b start hb
    have hu : V.good (upd (b.rightPart start)) := by
      refine hgood (b.rightPart start) hgr le_rfl (by rwa [hr]) h3.le (by rw [hr]; exact h5) hr.le
        hsd fun p hp h6 h7 => ?_
      exact V.view_right b start p hp hsd hbd h3 h6 (hr ▸ h7)
    simpa using ⟨hgl, hu⟩
  | middle hs h3 h4 =>
    have hr := KMemoryBlock.rightPart_end h3.le (hst.trans h4).le hbd hsd
    have hml := KMemoryBlock.leftPart_end (b := b.rightPart start) hst.le hsd hed
    obtain ⟨hgl, hgr⟩ := V.good_split b start hb
    obtain ⟨hgml, hgmr⟩ := V.good_split (b.rightPart start) stop hgr
    have hu : V.good (upd ((b.rightPart start).leftPart stop)) := by
      refine hgood _ hgml le_rfl hml.le h3.le (by rw [hml]; exact hst) (by rw [hml]; exact h4.le) hsd
        fun p hp h6 h7 => ?_
      rw [hml] at h7
      exact (V.view_left (b.rightPart start) stop p hp hed hsd h6 h7 (hr.symm ▸ h4)).trans
        (V.view_right b start p hp hsd hbd h3 h6 (h7.trans h4))
    simpa using ⟨hgl, hu, hgmr⟩

end BlockView

end Kernel
end Citron
