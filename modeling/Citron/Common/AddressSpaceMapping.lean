/-
# What the blocks say of an address

A block maps the addresses up to the next one (`lookup`). When the blocks that
begin in a range are replaced, and those from its end on by blocks that say the
same there (`Follows`), then only the range changes, and the blocks stay in order
(`Good.splice`). What `MapLocked` and `UnmapLocked` put behind the range is such
(`mapRest_follows`, `unmapRest_follows`).
-/
import Citron.Common.AddressSpaceCut

namespace Citron
namespace Common

open Lib PhysicalAddress List Option

namespace FlatAddressSpaceMap

variable {Pa Extra : Type} [DecidableEq Pa] [PhysicalAddress Pa]

/-! ### What the blocks say of an address -/

/-- The physical address `n` further on, where the physical side splits contiguously. -/
def offset (phys : Pa) (n : ℕ) : Pa := if paContigSplit Pa then add phys n else phys

omit [DecidableEq Pa] in
theorem offset_offset (phys : Pa) (a b : ℕ) : offset (offset phys a) b = offset phys (a + b) := by
  unfold offset
  split_ifs
  · exact add_add ..
  · rfl

/-- What a block says of an address that it reaches. -/
def target (b : Block Pa Extra) (a : ℕ) : Option (Pa × Extra) :=
  if b.unmapped then none else some (offset b.phys (a - b.virt), b.extraInfo)

/-- What the vector says of an address: the mapping, if it is mapped. -/
def lookup (blocks : List (Block Pa Extra)) (a : ℕ) : Option (Pa × Extra) :=
  (lastAt Block.virt blocks a).bind (target · a)

/-- Not both blocks are unmapped. -/
def Alternate (b c : Block Pa Extra) : Prop := ¬ (b.unmapped = true ∧ c.unmapped = true)

/-- The blocks are strictly sorted, the first one is unmapped and begins at 0,
and no two unmapped blocks are neighbours. -/
structure WellFormed (blocks : List (Block Pa Extra)) : Prop where
  ascending : Ascending Block.virt blocks
  head : ∃ b l, blocks = b :: l ∧ b.virt = 0 ∧ b.unmapped = true
  alternate : blocks.IsChain Alternate

/-- Moreover the last block is unmapped, and no address is mapped to `UnmappedPa`. -/
structure Good (blocks : List (Block Pa Extra)) : Prop extends WellFormed blocks where
  last : ∀ b ∈ blocks.getLast?, b.unmapped = true
  physical : ∀ a t, lookup blocks a = some t → t.1 ≠ unmappedPa

section Lookup

variable {l m r e x : List (Block Pa Extra)} {p q b y : Block Pa Extra} {virt virtEnd a : ℕ}

theorem target_of_unmapped (h : b.unmapped = true) : target b a = none := if_pos h

theorem target_eq_none : target b a = none ↔ b.unmapped = true := by
  unfold target
  split_ifs with h <;> simp [h]

/-- Before the block `y` nothing counts, from `y` on. -/
theorem lookup_append_of_le (hy : l.getLast? = some y) (ha : y.virt ≤ a) :
    lookup (l ++ e) a = ((lastAt Block.virt e a).or (some y)).bind (target · a) := by
  obtain ⟨l, rfl⟩ := getLast?_eq_some_iff.mp hy
  rw [lookup, lastAt_append, lastAt_concat_of_le ha]

theorem lookup_append_of_lt (he : ∀ b ∈ e, a < b.virt) : lookup (l ++ e) a = lookup l a := by
  rw [lookup, lastAt_append_of_lt he, lookup]

/-- The tail of a block says what the block says. -/
theorem target_tail {t : Block Pa Extra} (ht : t.virt = virtEnd) (hx : t.extraInfo = q.extraInfo)
    (hphys : t.phys = if q.unmapped then q.phys else offset q.phys (virtEnd - q.virt))
    (hq : q.unmapped = false → offset q.phys (virtEnd - q.virt) ≠ unmappedPa) (hv : q.virt ≤ virtEnd)
    (ha : virtEnd ≤ a) : target t a = target q a := by
  by_cases hu : q.unmapped = true
  · have : t.unmapped = true := by
      rw [if_pos hu] at hphys
      rwa [Block.unmapped, hphys]
    rw [target_of_unmapped hu, target_of_unmapped this]
  · rw [if_neg hu] at hphys
    have htu : t.unmapped = false := by
      rw [Block.unmapped, hphys]
      simpa using hq (by simpa using hu)
    unfold target
    rw [if_neg hu, if_neg (by simp [htu]), hphys, offset_offset, hx, ht]
    congr 3
    omega

/-- Blocks `x` in place of those that begin in the range, and `e` in place of
those from its end on: in the range the last of `x` holds. -/
theorem lookup_splice (hp : p.virt < virt) (hv : virt < virtEnd)
    (hm : ∀ b ∈ m, virt ≤ b.virt ∧ b.virt < virtEnd) (hr : ∀ b ∈ r, virtEnd ≤ b.virt)
    (hx : ∀ b ∈ x, b.virt = virt) (he : ∀ b ∈ e, virtEnd ≤ b.virt)
    (hq : (p :: m).getLast? = some q) (hy : (p :: x).getLast? = some y)
    (hrest : ∀ a, virtEnd ≤ a → ((lastAt Block.virt e a).or (some y)).bind (target · a) =
      ((lastAt Block.virt r a).or (some q)).bind (target · a)) :
    lookup (l ++ [p] ++ x ++ e) a =
      if virt ≤ a ∧ a < virtEnd then target y a else lookup (l ++ [p] ++ m ++ r) a := by
  have hlast : ∀ {m : List (Block Pa Extra)} {q}, (p :: m).getLast? = some q →
      (l ++ [p] ++ m).getLast? = some q := by
    intro m q hq
    rw [append_assoc, singleton_append, getLast?_append, hq, some_or]
  have hyv : y.virt ≤ virt := by
    rcases mem_cons.mp (mem_of_getLast? hy) with rfl | h
    · exact hp.le
    · exact (hx y h).le
  have hqv : q.virt < virtEnd := by
    rcases mem_cons.mp (mem_of_getLast? hq) with rfl | h
    · exact hp.trans hv
    · exact (hm q h).2
  by_cases h1 : virt ≤ a
  · by_cases h2 : a < virtEnd
    · rw [if_pos ⟨h1, h2⟩, lookup_append_of_lt fun b hb => h2.trans_le (he b hb), ← append_nil (_ ++ x),
        lookup_append_of_le (hlast hy) (hyv.trans h1)]
      rfl
    · rw [if_neg fun h => h2 h.2, lookup_append_of_le (hlast hy) (hyv.trans h1),
        lookup_append_of_le (hlast hq) (by omega)]
      exact hrest a (not_lt.mp h2)
  · rw [if_neg fun h => h1 h.1]
    have hxe : ∀ b ∈ x ++ e, a < b.virt := by
      intro b hb
      rcases mem_append.mp hb with hb | hb
      · have := hx b hb; omega
      · have := he b hb; omega
    have hmr : ∀ b ∈ m ++ r, a < b.virt := by
      intro b hb
      rcases mem_append.mp hb with hb | hb
      · have := (hm b hb).1; omega
      · have := hr b hb; omega
    rw [append_assoc _ x, append_assoc _ m, lookup_append_of_lt hxe, lookup_append_of_lt hmr]

end Lookup

/-! ### The blocks after the range -/

/-- The blocks `e` stand behind the block `y` for what the blocks `r` stand for
behind the block `q`, from the end of the range on. -/
structure Follows (q : Block Pa Extra) (r : List (Block Pa Extra)) (y : Block Pa Extra)
    (e : List (Block Pa Extra)) (virtEnd : ℕ) : Prop where
  bounds : ∀ b ∈ e, virtEnd ≤ b.virt
  ascending : Ascending Block.virt e
  alternate : (y :: e).IsChain Alternate
  last : ∀ b ∈ (y :: e).getLast?, b.unmapped = true
  rest : ∀ a, virtEnd ≤ a → ((lastAt Block.virt e a).or (some y)).bind (target · a) =
    ((lastAt Block.virt r a).or (some q)).bind (target · a)

section Follows

variable {m r : List (Block Pa Extra)} {q b y t : Block Pa Extra} {virtEnd a : ℕ}

theorem Alternate.of_mapped_left (h : b.unmapped = false) : Alternate b t := by
  rintro ⟨h', -⟩
  rw [h] at h'
  cases h'

theorem Alternate.of_mapped_right (h : t.unmapped = false) : Alternate b t := by
  rintro ⟨-, h'⟩
  rw [h] at h'
  cases h'

theorem Alternate.mapped (h : Alternate b t) (hb : b.unmapped = true) : t.unmapped = false := by
  by_contra ht
  exact h ⟨hb, by simpa using ht⟩

theorem bind_or_congr {x : Option (Block Pa Extra)} (h : target t a = target q a) :
    (x.or (some t)).bind (target · a) = (x.or (some q)).bind (target · a) := by
  cases x with
  | none => exact h
  | some b => rfl

variable (hr : ∀ b ∈ r, virtEnd ≤ b.virt) (hasc : Ascending Block.virt r)
  (halt : (q :: r).IsChain Alternate) (hlast : ∀ b ∈ (q :: r).getLast?, b.unmapped = true)
include hr hasc halt hlast

/-- The blocks from the end of the range on follow a mapped block at its start,
with a tail of the block `q` if none of them begins at the end. -/
theorem Follows.cons_tail (ht : t.virt = virtEnd) (htail : ∀ a, virtEnd ≤ a → target t a = target q a)
    (hne : ∀ b ∈ r, b.virt ≠ virtEnd) (hy : Alternate y t) : Follows q r y (t :: r) virtEnd where
  bounds := forall_mem_cons.mpr ⟨ht.ge, hr⟩
  ascending := ascending_cons.mpr ⟨fun b hb => lt_of_le_of_ne (ht.trans_le (hr b hb))
    fun h => hne b hb (h.symm.trans ht), hasc⟩
  alternate := by
    have htq : t.unmapped = q.unmapped := by
      have := htail virtEnd le_rfl
      rw [Bool.eq_iff_iff, ← target_eq_none, this, target_eq_none]
    refine isChain_cons_cons.mpr ⟨hy, ?_⟩
    cases r with
    | nil => exact isChain_singleton _
    | cons b r =>
      obtain ⟨h1, h2⟩ := isChain_cons_cons.mp halt
      refine isChain_cons_cons.mpr ⟨?_, h2⟩
      unfold Alternate at h1 ⊢
      rwa [htq]
  last := by
    have htq : t.unmapped = q.unmapped := by
      have := htail virtEnd le_rfl
      rw [Bool.eq_iff_iff, ← target_eq_none, this, target_eq_none]
    cases r with
    | nil =>
      intro b hb
      obtain rfl : t = b := by simpa using hb
      rw [htq]
      exact hlast q rfl
    | cons b r => simpa [getLast?_cons_cons] using hlast
  rest a ha := by
    rw [lastAt_cons_of_le (ht.trans_le ha), Option.or_assoc, some_or]
    exact bind_or_congr (htail a ha)

/-- The blocks from the end of the range on follow the block `y`, if what that
says at the end of the range does not matter. -/
theorem Follows.same (hy : ∀ b ∈ r.head?, Alternate y b) (hnil : r = [] → y.unmapped = true)
    (hrest : ∀ a, virtEnd ≤ a → (lastAt Block.virt r a).isSome ∨ target y a = target q a) :
    Follows q r y r virtEnd where
  bounds := hr
  ascending := hasc
  alternate := by
    cases r with
    | nil => exact isChain_singleton _
    | cons b r => exact isChain_cons_cons.mpr ⟨hy b rfl, halt.tail⟩
  last := by
    cases r with
    | nil =>
      intro b hb
      obtain rfl : y = b := by simpa using hb
      exact hnil rfl
    | cons b r => simpa [getLast?_cons_cons] using hlast
  rest a ha := by
    rcases hrest a ha with h | h
    · rw [or_of_isSome h, or_of_isSome h]
    · exact bind_or_congr h

/-- An unmapped block at the end of the range is dropped for an unmapped block
before it. -/
theorem Follows.drop (hb : b.unmapped = true) (hbv : b.virt = virtEnd) (hy : y.unmapped = true)
    {r' : List (Block Pa Extra)} (hr' : r = b :: r') : Follows q r y r' virtEnd := by
  subst hr'
  have hbr : (b :: r').IsChain Alternate := halt.tail
  have hyr : (y :: r').IsChain Alternate := by
    cases r' with
    | nil => exact isChain_singleton _
    | cons c r' =>
      obtain ⟨h1, h2⟩ := isChain_cons_cons.mp hbr
      exact isChain_cons_cons.mpr ⟨.of_mapped_right (h1.mapped hb), h2⟩
  refine ⟨fun c hc => hr c (mem_cons_of_mem _ hc), (ascending_cons.mp hasc).2, hyr, ?_, fun a ha => ?_⟩
  · cases r' with
    | nil =>
      intro c hc
      obtain rfl : y = c := by simpa using hc
      exact hy
    | cons c r' => simpa [getLast?_cons_cons] using hlast
  · rw [lastAt_cons_of_le (hbv.trans_le ha), Option.or_assoc, some_or]
    refine bind_or_congr ?_
    rw [target_of_unmapped hy, target_of_unmapped hb]

omit hr hasc halt hlast in
theorem mapTailPhys_eq : mapTailPhys q virtEnd =
    if q.unmapped then q.phys else offset q.phys (virtEnd - q.virt) := by
  unfold mapTailPhys offset
  cases paContigSplit Pa <;> simp

/-- Behind the first block from the end of the range on, no block begins there. -/
theorem ne_of_head_ne (hne : ∀ b ∈ r.head?, b.virt ≠ virtEnd) : ∀ b ∈ r, b.virt ≠ virtEnd := by
  cases r with
  | nil => simp
  | cons b r =>
    have hb := hr b mem_cons_self
    have hbne := hne b rfl
    refine forall_mem_cons.mpr ⟨hbne, fun c hc => ?_⟩
    have := (ascending_cons.mp hasc).1 c hc
    omega

theorem mapRest_follows [Inhabited Extra] (hqv : q.virt < virtEnd)
    (hphys : (∀ b ∈ r.head?, b.virt ≠ virtEnd) → q.unmapped = false →
      offset q.phys (virtEnd - q.virt) ≠ unmappedPa) (hy : y.unmapped = false) :
    Follows q r y (mapRest m r q virtEnd) virtEnd := by
  cases r with
  | nil =>
    have hqu : q.unmapped = true := hlast q rfl
    have hunmapped : ∀ t : Block Pa Extra, t.virt = virtEnd → t.unmapped = true →
        Follows q [] y [t] virtEnd := by
      intro t ht htu
      refine Follows.cons_tail hr hasc halt hlast ht (fun a _ => ?_) (by simp) (.of_mapped_left hy)
      rw [target_of_unmapped htu, target_of_unmapped hqu]
    unfold mapRest
    cases m.isEmpty
    · exact hunmapped _ rfl hqu
    · exact hunmapped _ rfl (beq_self_eq_true _)
  | cons b r =>
    rw [mapRest_cons]
    by_cases hbv : b.virt = virtEnd
    · rw [if_pos hbv]
      exact Follows.same hr hasc halt hlast (fun c _ => .of_mapped_left hy) (by simp)
        fun a ha => .inl (lastAt_cons_isSome (hbv.trans_le ha))
    · rw [if_neg hbv]
      have hne : ∀ c ∈ (b :: r).head?, c.virt ≠ virtEnd := by simpa using hbv
      exact Follows.cons_tail hr hasc halt hlast rfl
        (fun a ha => target_tail rfl rfl mapTailPhys_eq (hphys hne) hqv.le ha)
        (ne_of_head_ne hr hasc halt hlast hne) (.of_mapped_left hy)

theorem unmapRest_follows (hqv : q.virt < virtEnd)
    (hphys : (∀ b ∈ r.head?, b.virt ≠ virtEnd) → q.unmapped = false →
      offset q.phys (virtEnd - q.virt) ≠ unmappedPa) (hy : y.unmapped = true) :
    Follows q r y (unmapRest r q virtEnd) virtEnd := by
  unfold unmapRest
  by_cases hqu : q.unmapped = true
  · rw [if_pos hqu]
    refine Follows.same hr hasc halt hlast (fun b hb => ?_) (fun _ => hy) fun a _ => .inr ?_
    · cases r with
      | nil => cases hb
      | cons c r =>
        obtain rfl : c = b := by simpa using hb
        exact .of_mapped_right (Alternate.mapped (isChain_cons_cons.mp halt).1 hqu)
    · rw [target_of_unmapped hy, target_of_unmapped hqu]
  rw [if_neg hqu]
  rw [Bool.not_eq_true] at hqu
  cases r with
  | nil =>
    have := hlast q rfl
    rw [hqu] at this
    cases this
  | cons b r =>
    by_cases hbv : b.virt = virtEnd
    · by_cases hbu : b.unmapped = true
      · simp only [hbv, hbu, if_true]
        exact Follows.drop hr hasc halt hlast hbu hbv hy rfl
      · simp only [hbv, hbu, if_true, Bool.false_eq_true, if_false]
        refine Follows.same hr hasc halt hlast (fun c hc => ?_) (by simp)
          fun a ha => .inl (lastAt_cons_isSome (hbv.trans_le ha))
        obtain rfl : b = c := by simpa using hc
        exact .of_mapped_right (by simpa using hbu)
    · simp only [hbv, if_false]
      have hne : ∀ c ∈ (b :: r).head?, c.virt ≠ virtEnd := by simpa using hbv
      have hphys' := hphys hne hqu
      refine Follows.cons_tail hr hasc halt hlast rfl
        (fun a ha => target_tail rfl rfl ?_ (hphys hne) hqv.le ha)
        (ne_of_head_ne hr hasc halt hlast hne) (.of_mapped_right ?_)
      · rw [if_neg (by simp [hqu])]
        rfl
      · change (offset q.phys (virtEnd - q.virt) == unmappedPa) = false
        simpa using hphys'

end Follows

/-! ### One call -/

/-- The vector cut at the two ends of a range: `p` is the last block before the
range, and `q` the last one before its end. -/
structure Cut (l : List (Block Pa Extra)) (p : Block Pa Extra) (m r : List (Block Pa Extra))
    (q : Block Pa Extra) (virt virtEnd : ℕ) : Prop where
  left : ∀ b ∈ l, b.virt < virt
  predecessor : p.virt < virt
  middle : ∀ b ∈ m, virt ≤ b.virt ∧ b.virt < virtEnd
  right : ∀ b ∈ r, virtEnd ≤ b.virt
  last : (p :: m).getLast? = some q

section Step

variable {blocks l m r x e : List (Block Pa Extra)} {p q y : Block Pa Extra} {virt virtEnd a : ℕ}

theorem exists_cut (h : Ascending Block.virt blocks) (hhead : ∃ b l, blocks = b :: l ∧ b.virt = 0 ∧ b.unmapped = true)
    (hv : 0 < virt) (virtEnd : ℕ) :
    ∃ l p m r q, blocks = l ++ [p] ++ m ++ r ∧ Cut l p m r q virt virtEnd := by
  obtain ⟨l₀, l₁, rfl, h1, h2⟩ := h.exists_cut virt
  obtain ⟨m, r, rfl, h3, h4⟩ := (ascending_append.mp h).2.1.exists_cut virtEnd
  rcases eq_nil_or_concat' l₀ with rfl | ⟨l, p, rfl⟩
  · -- the first block begins at 0, before the range
    obtain ⟨b, l, hb, hb0, -⟩ := hhead
    have := h2 b (by rw [nil_append] at hb; rw [hb]; exact mem_cons_self)
    omega
  · obtain ⟨q, hq⟩ : ∃ q, (p :: m).getLast? = some q := isSome_iff_exists.mp (by simp)
    exact ⟨l, p, m, r, q, by simp, fun b hb => h1 b (by simp [hb]), h1 p (by simp),
      fun b hb => ⟨h2 b (by simp [hb]), h3 b hb⟩, h4, hq⟩

omit [DecidableEq Pa] [PhysicalAddress Pa] in
theorem Cut.last_virt (hc : Cut l p m r q virt virtEnd) (hlt : virt < virtEnd) : q.virt < virtEnd := by
  rcases mem_cons.mp (mem_of_getLast? hc.last) with rfl | h
  · exact hc.predecessor.trans hlt
  · exact (hc.middle q h).2

omit [DecidableEq Pa] [PhysicalAddress Pa] in
theorem Cut.getLast? (hc : Cut l p m r q virt virtEnd) : (l ++ [p] ++ m).getLast? = some q := by
  rw [append_assoc, singleton_append, getLast?_append, hc.last, some_or]

/-- The parts of a good vector. -/
theorem Good.parts (h : Good (l ++ [p] ++ m ++ r)) (hc : Cut l p m r q virt virtEnd) (hlt : virt < virtEnd) :
    Ascending Block.virt m ∧ Ascending Block.virt r ∧ (q :: r).IsChain Alternate ∧
      (∀ b ∈ (q :: r).getLast?, b.unmapped = true) ∧
      ((∀ b ∈ r.head?, b.virt ≠ virtEnd) → q.unmapped = false →
        offset q.phys (virtEnd - q.virt) ≠ unmappedPa) := by
  obtain ⟨h1, h2, -⟩ := ascending_append.mp h.ascending
  obtain ⟨a, ha⟩ := getLast?_eq_some_iff.mp hc.getLast?
  refine ⟨(ascending_append.mp h1).2.1, h2, ?_, ?_, fun hne hqu => ?_⟩
  · have := h.alternate
    rw [ha, append_assoc] at this
    exact this.right_of_append
  · have := h.last
    rw [ha, append_assoc, getLast?_append, singleton_append] at this
    cases hr : (q :: r).getLast? with
    | none => simp at hr
    | some b =>
      rw [hr] at this
      exact this
  · -- the block `q` reaches past the end of the range
    have hlook : lookup (l ++ [p] ++ m ++ r) virtEnd =
        some (offset q.phys (virtEnd - q.virt), q.extraInfo) := by
      rw [lookup_append_of_le hc.getLast? (hc.last_virt hlt).le, lastAt_eq_none, none_or]
      · exact if_neg (by simp [hqu])
      · intro b hb
        refine lt_of_le_of_ne (hc.right b hb) (Ne.symm ?_)
        cases r with
        | nil => cases hb
        | cons c r =>
          have hcv := hc.right c mem_cons_self
          have hcne := hne c rfl
          rcases mem_cons.mp hb with rfl | hb
          · exact hcne
          · have := (ascending_cons.mp h2).1 b hb
            omega
    exact h.physical _ _ hlook

/-- Other blocks in the range, and blocks that follow it, keep a vector good. -/
theorem Good.splice (h : Good (l ++ [p] ++ m ++ r)) (hc : Cut l p m r q virt virtEnd) (hlt : virt < virtEnd)
    (hx : (x = [] ∧ y = p) ∨ (x = [y] ∧ y.virt = virt ∧ Alternate p y))
    (hf : Follows q r y e virtEnd)
    (hphys : ∀ a t, virt ≤ a → a < virtEnd → target y a = some t → t.1 ≠ unmappedPa) :
    Good (l ++ [p] ++ x ++ e) ∧ ∀ a, lookup (l ++ [p] ++ x ++ e) a =
      if virt ≤ a ∧ a < virtEnd then target y a else lookup (l ++ [p] ++ m ++ r) a := by
  have hy : (p :: x).getLast? = some y := by
    rcases hx with ⟨rfl, rfl⟩ | ⟨rfl, -⟩ <;> rfl
  have hxv : ∀ b ∈ x, b.virt = virt := by
    rcases hx with ⟨rfl, -⟩ | ⟨rfl, hv, -⟩
    · simp
    · simpa using hv
  have hlook : ∀ a, lookup (l ++ [p] ++ x ++ e) a =
      if virt ≤ a ∧ a < virtEnd then target y a else lookup (l ++ [p] ++ m ++ r) a := fun a =>
    lookup_splice hc.predecessor hlt hc.middle hc.right hxv hf.bounds hc.last hy hf.rest
  obtain ⟨hlm, -, -⟩ := ascending_append.mp h.ascending
  obtain ⟨hlp, -, -⟩ := ascending_append.mp hlm
  refine ⟨⟨⟨?_, ?_, ?_⟩, ?_, fun a t ht => ?_⟩, hlook⟩
  · refine Ascending.splice (v := virt) (w := virtEnd) hlp ?_ hf.ascending ?_ (fun b hb => ?_) hf.bounds hlt.le
    · rcases hx with ⟨rfl, -⟩ | ⟨rfl, -⟩
      · exact .nil
      · exact pairwise_singleton _ _
    · simpa [or_imp, forall_and] using ⟨hc.left, hc.predecessor⟩
    · have := hxv b hb
      omega
  · obtain ⟨b, t, hb, hb'⟩ := h.head
    cases l with
    | nil =>
      obtain ⟨rfl, -⟩ := hb
      exact ⟨p, x ++ e, by simp, hb'⟩
    | cons c l =>
      simp only [cons_append, List.cons.injEq] at hb
      obtain ⟨rfl, -⟩ := hb
      exact ⟨c, l ++ [p] ++ x ++ e, by simp, hb'⟩
  · have hchain := h.alternate
    rw [append_assoc] at hchain
    have hlp := hchain.left_of_append
    rcases hx with ⟨rfl, rfl⟩ | ⟨rfl, -, hpy⟩
    · rw [append_nil, append_assoc, singleton_append, isChain_split]
      exact ⟨hlp, hf.alternate⟩
    · rw [append_assoc, append_assoc, singleton_append, singleton_append,
        isChain_append_cons_cons]
      exact ⟨hlp, hpy, hf.alternate⟩
  · have hlast : (l ++ [p] ++ x ++ e).getLast? = (y :: e).getLast? := by
      obtain ⟨z, hz⟩ := getLast?_eq_some_iff.mp hy
      have : l ++ [p] ++ x ++ e = l ++ z ++ (y :: e) := by
        rw [append_assoc l, singleton_append, hz]
        simp
      rw [this, getLast?_append, or_of_isSome (by simp)]
    rw [hlast]
    exact hf.last
  · rw [hlook] at ht
    split_ifs at ht with hin
    · exact hphys a t hin.1 hin.2 ht
    · exact h.physical a t ht

end Step

end FlatAddressSpaceMap

end Common
end Citron
