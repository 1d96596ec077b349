/-
# Runs of the flat allocator

`live` is the set of addresses that are allocated or fixed and not freed since. In a
run whose `Allocate` calls all find a free region (`AllocateOk`) every live address
is taken, and `Allocate` returns a region that is not live, or reports that the
address space is full.
-/
import Citron.Common.FlatAllocator

namespace Citron
namespace Common

open Lib Option

namespace FlatAddressSpaceMap

/-! ### The calls of the map -/

section Calls

variable {blocks l m r : List (Block Bool Unit)} {p q b : Block Bool Unit} {virt size vaLimit a : ℕ}

theorem Ordered.map (h : Ordered vaLimit blocks) (hv : 0 < virt) (hsize : 0 < size)
    (hlimit : virt + size ≤ vaLimit) :
    ∃ z, mapLocked blocks virt true size () = some z ∧ Ordered vaLimit z ∧
      ∀ a, Taken z a ↔ (virt ≤ a ∧ a < virt + size) ∨ Taken blocks a := by
  have hlt : virt < virt + size := Nat.lt_add_of_pos_right hsize
  obtain ⟨l, p, m, r, q, rfl, hc⟩ := exists_cut h.ascending h.head hv (virt + size)
  obtain ⟨-, hr, hasc, hlast⟩ := h.parts hc
  set y : Block Bool Unit := ⟨virt, true, ()⟩ with hy
  obtain ⟨hord, hlook⟩ := h.splice (x := [y]) (y := y) hc hlt hlimit (List.pairwise_singleton _ _)
    (by simpa [hy] using hsize) rfl (Trails.map (m := m) hr hasc hlast hlimit)
  have hlist : l ++ [p] ++ [y] ++ mapRest m r q (virt + size) =
    l ++ [p] ++ y :: mapRest m r q (virt + size) := by simp
  rw [hlist] at hord hlook
  refine ⟨_, mapLocked_cut true () hc.predecessor hsize hc.left hc.middle hc.right hc.last, hord,
    fun a => ?_⟩
  unfold Taken
  by_cases ha : virt ≤ a ∧ a < virt + size
  · have hbounds : ∀ b ∈ mapRest m r q (virt + size), a < b.virt := fun b hb =>
      ha.2.trans_le ((Trails.map (m := m) (y := y) hr hasc hlast hlimit).bounds b hb).1
    have hat : lookup (l ++ [p] ++ y :: mapRest m r q (virt + size)) a = target y a := by
      rw [← hlist, lookup_append_of_lt hbounds, ← List.append_nil (l ++ [p] ++ [y]),
        lookup_append_of_le (y := y) (by simp) ha.1]
      rfl
    have hty : (target y a).isSome = true := target_isSome
    rw [hat, hty]
    simp [ha]
  · rw [hlook a ha]
    simp [ha]

/-- A block is left behind only where the last block of the range is mapped, and no
unmapped block follows it at the end of the range. -/
theorem of_unmapStale {virtEnd : ℕ} (h : unmapStale p m r q virtEnd = some b) :
    ∃ c, r.head? = some c ∧ q.unmapped = false ∧ (c.virt = virtEnd → c.unmapped = false) := by
  unfold unmapStale at h
  cases r with
  | nil => cases h
  | cons c r =>
    have hqm : q.mapped = !q.unmapped := rfl
    have hcm : c.mapped = !c.unmapped := rfl
    simp only [hqm, hcm] at h
    by_cases hq : (p.unmapped && !q.unmapped) = true
    · rw [if_pos hq] at h
      rw [Bool.and_eq_true, Bool.not_eq_true'] at hq
      refine ⟨c, rfl, hq.2, fun hcv => ?_⟩
      rw [if_pos hcv] at h
      by_contra hcu
      rw [Bool.not_eq_false] at hcu
      rw [hcu] at h
      cases h
    · rw [if_neg hq] at h
      cases h

/-- The blocks of the range that `UnmapLocked` leaves, between those before the
range and those after it. -/
theorem Ordered.unmapLocked_splice (h : Ordered vaLimit (l ++ [p] ++ m ++ r))
    (hc : Cut l p m r q virt (virt + size)) (hsize : 0 < size) :
    ∃ x y, unmapLocked (l ++ [p] ++ m ++ r) virt size =
        some (l ++ [p] ++ x ++ unmapRest r q (virt + size)) ∧
      Ascending Block.virt x ∧ (∀ b ∈ x, virt ≤ b.virt ∧ b.virt < virt + size) ∧
      (p :: x).getLast? = some y ∧
      ((∃ b, r.head? = some b ∧ b.virt = virt + size ∧ b.unmapped = false) ∨
        (∃ b, r.head? = some b ∧ b.virt ≠ virt + size ∧ q.unmapped = false) ∨ y.unmapped = true) := by
  obtain ⟨hm, -, -, hlast⟩ := h.parts hc
  have hrnil : r = [] → q.unmapped = true := by
    rintro rfl
    exact hlast q rfl
  by_cases halt : m = [q] → q.unmapped = true → p.unmapped = false
  · obtain ⟨head, hhead, hrun⟩ := unmapLocked_cut hc.predecessor hsize hc.left hc.middle hc.right hc.last
      hm hrnil halt
    rw [List.append_assoc (l ++ [p]) head] at hrun
    unfold UnmapHead at hhead
    by_cases hpu : p.unmapped = true
    · rw [if_pos hpu] at hhead
      subst hhead
      cases hs : unmapStale p m r q (virt + size) with
      | none =>
        rw [hs] at hrun
        exact ⟨[], p, hrun, .nil, by simp, rfl, .inr (.inr hpu)⟩
      | some c =>
        rw [hs] at hrun
        refine ⟨[c], c, hrun, List.pairwise_singleton _ _, ?_, rfl, ?_⟩
        · simpa using hc.middle c (mem_of_unmapStale hs).2
        · obtain ⟨b, hb, hqu, hbv⟩ := of_unmapStale hs
          by_cases hbe : b.virt = virt + size
          · exact .inl ⟨b, hb, hbe, hbv hbe⟩
          · exact .inr (.inl ⟨b, hb, hbe, hqu⟩)
    · rw [if_neg hpu] at hhead
      obtain ⟨u, rfl, huv, hu⟩ := hhead
      have hs : unmapStale p m r q (virt + size) = none := by
        unfold unmapStale
        cases r <;> simp [hpu]
      rw [hs] at hrun
      refine ⟨[u], u, hrun, List.pairwise_singleton _ _, ?_, rfl, .inr (.inr hu)⟩
      simpa [huv] using hsize
  · -- two unmapped blocks, of which the second begins in the range
    simp only [Classical.not_imp, Bool.not_eq_false] at halt
    obtain ⟨rfl, hqu, hpu⟩ := halt
    obtain ⟨z, hz, hlen, hlow, hat⟩ := end_cut hc.predecessor hsize hc.left hc.middle hc.right hc.last
    obtain ⟨rfl, -⟩ : z = l ++ [p] ∧ [q] = [q] := List.append_inj' hz.symm rfl
    have hrest : unmapRest r q (virt + size) = r := if_pos hqu
    have hqv := hc.middle q List.mem_cons_self
    rw [unmapLocked_of_unmapped hlow hat hqu, hrest]
    by_cases hlt : q.virt > virt
    · obtain ⟨head, hhead, hrun⟩ := eraseBlocksWithEndUnmapped_cut (l := l) (m := []) (r := r)
        hc.predecessor (by simp) hqv.1 hqu
      unfold UnmapHead at hhead
      rw [if_pos hpu] at hhead
      subst hhead
      rw [List.append_nil] at hrun
      refine ⟨[], p, ?_, .nil, by simp, rfl, .inr (.inr hpu)⟩
      have hlist : l ++ [p] ++ [q] ++ r = l ++ [p] ++ q :: r := by simp
      rw [if_pos hlt, hlist, hrun, List.append_nil]
    · refine ⟨[q], q, ?_, List.pairwise_singleton _ _, by simpa using hqv, rfl, .inr (.inr hqu)⟩
      rw [if_neg hlt]

theorem Ordered.unmap (h : Ordered vaLimit blocks) (hv : 0 < virt) (hsize : 0 < size)
    (hlimit : virt + size ≤ vaLimit) :
    ∃ z, unmapLocked blocks virt size = some z ∧ Ordered vaLimit z ∧
      ∀ a, ¬ (virt ≤ a ∧ a < virt + size) → (Taken z a ↔ Taken blocks a) := by
  obtain ⟨l, p, m, r, q, rfl, hc⟩ := exists_cut h.ascending h.head hv (virt + size)
  obtain ⟨-, hr, hasc, hlast⟩ := h.parts hc
  obtain ⟨x, y, hrun, hx, hxv, hy, hq⟩ := h.unmapLocked_splice hc hsize
  obtain ⟨hord, hlook⟩ := h.splice hc (Nat.lt_add_of_pos_right hsize) hlimit hx hxv hy
    (Trails.unmap hr hasc hlast hlimit hq)
  refine ⟨_, hrun, hord, fun a ha => ?_⟩
  unfold Taken
  rw [hlook a ha]

/-- Between a block and the next one the block holds. -/
theorem taken_block (h : blocks = l ++ b :: r) (hb : b.unmapped = true) (hba : b.virt ≤ a)
    (hr : ∀ c ∈ r, a < c.virt) : ¬ Taken blocks a := by
  have hlist : l ++ b :: r = l ++ [b] ++ r := by simp
  unfold Taken
  rw [h, hlist, lookup_append_of_lt hr, ← List.append_nil (l ++ [b]),
    lookup_append_of_le (y := b) (by simp) hba]
  change ¬ (target b a).isSome
  rw [target_of_unmapped hb]
  simp

end Calls

end FlatAddressSpaceMap

namespace FlatAllocator

open FlatAddressSpaceMap

/-! ### Allocate -/

section Allocate

variable {a : FlatAllocator} {size vaLimit s : ℕ} {p b : Block Bool Unit} {l : List (Block Bool Unit)}

/-- An end that is not below the start did not wrap around. -/
theorem add_mod_of_le {v : ℕ} (hv : v < vaSize) (hsize : size < vaSize) (h : (v + size) % vaSize ≥ v) :
    (v + size) % vaSize = v + size := by
  apply Nat.mod_eq_of_lt
  by_contra hge
  rw [Nat.mod_eq_sub_mod (not_lt.mp hge), Nat.mod_eq_of_lt (by omega)] at h
  omega

/-- If the skip loop never stops at a block it ends at the last one, or finds nothing. -/
theorem skipMappings_spec (hpos : 0 < size) (hsize : size < vaSize) (hlimit : ∀ b ∈ l, b.virt < vaSize)
    (h : (p :: l).IsChain (Skips size)) :
    skipMappings vaLimit size p l = 0 ∨ ∃ z b, p :: l = z ++ [b] ∧ p.virt ≤ b.virt ∧
      skipMappings vaLimit size p l = b.virt ∧ b.virt + size ≤ vaLimit := by
  induction l generalizing p with
  | nil => exact .inl rfl
  | cons c l ih =>
    obtain ⟨⟨hp, hlen⟩, hrest⟩ := List.isChain_cons_cons.mp h
    have hcond : ¬ (c.virt - p.virt < size ∨ p.mapped = true) := by
      have hpm : p.mapped = !p.unmapped := rfl
      rw [hpm, hp]
      simpa using hlen
    have hc := hlimit c List.mem_cons_self
    unfold skipMappings
    rw [if_neg hcond]
    by_cases hl : l = []
    · subst hl
      rw [if_pos rfl]
      by_cases hfit : (c.virt + size) % vaSize ≥ c.virt ∧ (c.virt + size) % vaSize ≤ vaLimit
      · rw [if_pos hfit]
        refine .inr ⟨[p], c, rfl, by omega, rfl, ?_⟩
        rw [add_mod_of_le hc hsize hfit.1] at hfit
        exact hfit.2
      · rw [if_neg hfit]
        exact .inl rfl
    · rw [if_neg hl]
      rcases ih (fun b hb => hlimit b (List.mem_cons_of_mem _ hb)) hrest with h0 | ⟨z, b, hz, hcb, hs, hb⟩
      · exact .inl h0
      · exact .inr ⟨p :: z, b, by rw [hz]; rfl, by omega, hs, hb⟩

/-- The first gap that is long enough. -/
theorem searchGap_spec (h : searchGap size p l = some s) :
    ∃ z b c r, p :: l = z ++ b :: c :: r ∧ s = b.virt ∧ Skips size b c := by
  induction l generalizing p with
  | nil => cases h
  | cons c l ih =>
    unfold searchGap at h
    by_cases hcond : c.virt - p.virt < size ∨ p.mapped = true
    · rw [if_pos hcond] at h
      obtain ⟨z, b, d, r, hz, hs, hb⟩ := ih h
      exact ⟨p :: z, b, d, r, by rw [hz]; rfl, hs, hb⟩
    · rw [if_neg hcond, Option.some.injEq] at h
      have hpm : p.mapped = !p.unmapped := rfl
      rw [not_or, hpm, not_lt, Bool.not_eq_true, Bool.not_eq_false'] at hcond
      exact ⟨[], p, c, l, rfl, h.symm, hcond.2, hcond.1⟩

end Allocate

/-! ### The invariant -/

/-- The live addresses are taken, and the linear pass begins at the start or
further on. -/
structure Inv (virtStart vaLimit : ℕ) (live : Set ℕ) (a : FlatAllocator) : Prop where
  start_eq : a.virtStart = virtStart
  limit_eq : a.vaLimit = vaLimit
  limit_lt : vaLimit < vaSize
  ordered : Ordered vaLimit a.blocks
  taken : ∀ n ∈ live, Taken a.blocks n
  start_le : virtStart ≤ a.currentLinearAllocEnd
  linearEnd : a.currentLinearAllocEnd < vaSize

/-- A region that an allocation may return: from the start on, up to the limit, and
of no live address. -/
structure Region (virtStart vaLimit : ℕ) (live : Set ℕ) (s size : ℕ) : Prop where
  start_le : virtStart ≤ s
  limit : s + size ≤ vaLimit
  disjoint : Disjoint (Set.Ico s (s + size)) live

section Inv

variable {a : FlatAllocator} {virtStart vaLimit size s : ℕ} {live : Set ℕ}

section

variable (h : Inv virtStart vaLimit live a)
include h

theorem Inv.region (h1 : virtStart ≤ s) (h2 : s + size ≤ vaLimit)
    (h3 : ∀ n, s ≤ n → n < s + size → ¬ Taken a.blocks n) : Region virtStart vaLimit live s size :=
  ⟨h1, h2, Set.disjoint_left.mpr fun n hn hl => h3 n hn.1 hn.2 (h.taken n hl)⟩

/-- The window of the linear pass. -/
theorem Inv.exists_window (hpos : 0 < size) (hfit : a.currentLinearAllocEnd + size ≤ vaLimit) :
    ∃ before p after, Window a size before p after ∧
      lowerBound a.blocks (a.currentLinearAllocEnd + size) = before.length + 1 := by
  obtain ⟨l, p, m, r, q, hb, hc⟩ := exists_cut h.ordered.ascending h.ordered.head
    (by omega : 0 < a.currentLinearAllocEnd + size) (a.currentLinearAllocEnd + size)
  have hm : m = [] := by
    cases m with
    | nil => rfl
    | cons c m =>
      have := hc.middle c List.mem_cons_self
      omega
  subst hm
  refine ⟨l, p, r, ⟨by rw [hb]; simp, hfit.trans_eq h.limit_eq.symm, hc.left, hc.predecessor, hc.right⟩, ?_⟩
  have hlist : l ++ [p] ++ [] ++ r = (l ++ [p]) ++ r := by simp
  rw [hb, hlist, lowerBound_cut _ hc.right, List.length_append, List.length_singleton]
  simpa [or_imp, forall_and] using ⟨hc.left, hc.predecessor⟩

/-- The linear pass returns a free region, or finds nothing. -/
theorem Inv.linearStart (hpos : 0 < size) (hsize : size < vaSize) (hok : a.AllocateOk size) :
    ∃ s, a.linearStart size = some s ∧ (s = 0 ∨ Region virtStart vaLimit live s size) := by
  unfold FlatAllocator.linearStart
  by_cases hfit : (a.currentLinearAllocEnd + size) % vaSize ≥ a.currentLinearAllocEnd ∧
      (a.currentLinearAllocEnd + size) % vaSize ≤ a.vaLimit
  · simp only [if_pos hfit]
    rw [add_mod_of_le h.linearEnd hsize hfit.1]
    rw [add_mod_of_le h.linearEnd hsize hfit.1, h.limit_eq] at hfit
    obtain ⟨before, p, after, hw, hlow⟩ := h.exists_window hpos hfit.2
    have hat : a.blocks[before.length]? = some p := by rw [hw.blocks]; simp
    have hdrop : a.blocks.drop (before.length + 1) = after := by rw [hw.blocks]; simp
    simp only [hlow, prev, bind_eq_bind, bind_some, hat, hdrop]
    by_cases hp : p.virt ≤ a.currentLinearAllocEnd
    · -- one block holds the window
      rw [if_pos hp]
      refine ⟨_, rfl, .inr (h.region h.start_le hfit.2 fun n h1 h2 => ?_)⟩
      exact taken_block hw.blocks (hok.window _ _ _ hw hp) (hp.trans h1) fun c hc => h2.trans_le (hw.after c hc)
    · rw [if_neg hp]
      have hlt : ∀ b ∈ after, b.virt < vaSize := fun b hb =>
        (h.ordered.limit b (by rw [hw.blocks]; simp [hb])).trans_lt h.limit_lt
      have hskip := @skipMappings_spec _ a.vaLimit _ _ hpos hsize hlt (hok.skip _ _ _ hw (not_le.mp hp))
      rcases hskip with h0 | ⟨z, b, hz, hpb, hs, hb⟩
      · exact ⟨_, rfl, .inl h0⟩
      · -- the last block is free
        rw [hs]
        have hblocks : a.blocks = (before ++ z) ++ b :: [] := by rw [hw.blocks, hz]; simp
        have hbu := h.ordered.last b (by rw [hblocks]; simp)
        have hstart := h.start_le
        rw [h.limit_eq] at hb
        exact ⟨_, rfl, .inr (h.region (by omega) hb fun n h1 _ =>
          taken_block hblocks hbu h1 fun c hc => by cases hc)⟩
  · simp only [if_neg hfit]
    exact ⟨0, rfl, .inl rfl⟩

/-- A gap that the search finds, with no gap of the size below the start. -/
theorem Inv.searchGap {p : Block Bool Unit} {l : List (Block Bool Unit)} (hb : a.blocks.tail = p :: l)
    (hok : a.blocks.tail.IsChain fun b c => b.virt < a.virtStart → ¬ Skips size b c)
    (hs : FlatAllocator.searchGap size p l = some s) : 0 < s ∧ Region virtStart vaLimit live s size := by
  obtain ⟨z, b, c, r, hz, rfl, hu, hlen⟩ := searchGap_spec hs
  obtain ⟨d, t, ht, hd, -⟩ := h.ordered.head
  rw [ht, List.tail_cons] at hb hok
  have hblocks : a.blocks = (d :: z) ++ b :: c :: r := by rw [ht, hb, hz]; rfl
  have hasc := h.ordered.ascending
  rw [hblocks] at hasc
  obtain ⟨-, hbc, hdb⟩ := ascending_append.mp hasc
  obtain ⟨hbr, hcr⟩ := ascending_cons.mp hbc
  have hstart : virtStart ≤ b.virt := by
    rw [hb, hz] at hok
    have := (List.isChain_cons_cons.mp hok.right_of_append).1
    rw [h.start_eq] at this
    by_contra hlt
    exact this (not_le.mp hlt) ⟨hu, hlen⟩
  have hdbv := hdb d List.mem_cons_self b List.mem_cons_self
  have hbcv := hbr c List.mem_cons_self
  have hc := h.ordered.limit c (by rw [hblocks]; simp)
  refine ⟨by omega, h.region hstart (by omega) fun n h1 h2 => ?_⟩
  refine taken_block hblocks hu h1 (List.forall_mem_cons.mpr ⟨by omega, fun e he => ?_⟩)
  have := (ascending_cons.mp hbc).2
  have := (ascending_cons.mp this).1 e he
  omega

/-- A region that is taken for an allocation is live. -/
theorem Inv.map (hv : 0 < s) (hpos : 0 < size) (hlimit : s + size ≤ vaLimit) :
    ∃ z, mapLocked a.blocks s true size () = some z ∧ Ordered vaLimit z ∧
      ∀ n ∈ live ∪ Set.Ico s (s + size), Taken z n := by
  obtain ⟨z, hz, hord, htaken⟩ := h.ordered.map hv hpos hlimit
  refine ⟨z, hz, hord, fun n hn => (htaken n).mpr ?_⟩
  rcases hn with hn | hn
  · exact .inr (h.taken n hn)
  · exact .inl hn

/-- `Allocate` returns a free region and takes it, or reports that there is none. -/
theorem Inv.allocate (hpos : 0 < size) (hsize : size < vaSize) (hok : a.AllocateOk size) :
    a.allocate size = some (0, a) ∨ ∃ s b, 0 < s ∧ a.allocate size = some (s, b) ∧
      Region virtStart vaLimit live s size ∧ Inv virtStart vaLimit (live ∪ Set.Ico s (s + size)) b := by
  obtain ⟨s, hs, hfree⟩ := h.linearStart hpos hsize hok
  unfold FlatAllocator.allocate
  simp only [hs, bind_eq_bind, bind_some]
  by_cases h0 : s = 0
  · subst h0
    rw [if_neg (by simp)]
    obtain ⟨hne, hchain⟩ := hok.search hs
    cases hb : a.blocks.tail with
    | nil => exact absurd hb hne
    | cons p l =>
      simp only
      cases hgap : FlatAllocator.searchGap size p l with
      | none => exact .inl rfl
      | some s =>
        obtain ⟨hspos, hregion⟩ := h.searchGap hb hchain hgap
        obtain ⟨z, hz, hord, htaken⟩ := h.map hspos hpos hregion.limit
        simp only [hz, bind_some]
        exact .inr ⟨s, _, hspos, rfl, hregion, h.start_eq, h.limit_eq, h.limit_lt, hord, htaken, h.start_le,
          h.linearEnd⟩
  · have hregion := hfree.resolve_left h0
    obtain ⟨z, hz, hord, htaken⟩ := h.map (Nat.pos_of_ne_zero h0) hpos hregion.limit
    rw [if_pos h0, hz, bind_some]
    have hend : (s + size) % vaSize = s + size := Nat.mod_eq_of_lt (hregion.limit.trans_lt h.limit_lt)
    refine .inr ⟨s, _, Nat.pos_of_ne_zero h0, rfl, hregion, h.start_eq, h.limit_eq, h.limit_lt, hord, htaken,
      ?_, Nat.mod_lt _ (by decide)⟩
    have := hregion.start_le
    simp only [hend]
    omega

theorem Inv.allocateFixed (hv : 0 < s) (hpos : 0 < size) (hlimit : s + size ≤ vaLimit) :
    ∃ b, a.allocateFixed s size = some b ∧ Inv virtStart vaLimit (live ∪ Set.Ico s (s + size)) b := by
  obtain ⟨z, hz, hord, htaken⟩ := h.map hv hpos hlimit
  refine ⟨{ a with blocks := z }, ?_, h.start_eq, h.limit_eq, h.limit_lt, hord, htaken, h.start_le,
    h.linearEnd⟩
  unfold FlatAllocator.allocateFixed FlatAddressSpaceMap.map
  simp only [hz, bind_eq_bind, bind_some]

theorem Inv.free (hv : 0 < s) (hpos : 0 < size) (hlimit : s + size ≤ vaLimit) :
    ∃ b, a.free s size = some b ∧ Inv virtStart vaLimit (live \ Set.Ico s (s + size)) b := by
  obtain ⟨z, hz, hord, htaken⟩ := h.ordered.unmap hv hpos hlimit
  refine ⟨{ a with blocks := z }, ?_, h.start_eq, h.limit_eq, h.limit_lt, hord, fun n hn => ?_,
    h.start_le, h.linearEnd⟩
  · unfold FlatAllocator.free FlatAddressSpaceMap.unmap
    simp only [hz, bind_eq_bind, bind_some]
  · exact (htaken n hn.2).mpr (h.taken n hn.1)

end

end Inv

/-! ### Runs -/

/-- A region that `AllocateFixed` and `Free` may be called with: not empty, past
`UnmappedVa` and up to the limit. -/
structure ValidRegion (vaLimit virt size : ℕ) : Prop where
  virt_pos : 0 < virt
  size_pos : 0 < size
  limit : virt + size ≤ vaLimit

/-- The runs whose `Allocate` calls all meet the condition `ok`, with the live
addresses after them. -/
inductive Reaches (ok : FlatAllocator → ℕ → Prop) (virtStart vaLimit : ℕ) : Set ℕ → FlatAllocator → Prop
  | new (hstart : virtStart < vaSize) (hlimit : vaLimit < vaSize) :
    Reaches ok virtStart vaLimit ∅ (new virtStart vaLimit)
  | allocate {live a b} {size s : ℕ} (h : Reaches ok virtStart vaLimit live a) (hpos : 0 < size)
    (hsize : size < vaSize) (hok : ok a size) (hrun : a.allocate size = some (s, b)) (hs : s ≠ 0) :
    Reaches ok virtStart vaLimit (live ∪ Set.Ico s (s + size)) b
  | full {live a b} {size : ℕ} (h : Reaches ok virtStart vaLimit live a) (hpos : 0 < size)
    (hsize : size < vaSize) (hok : ok a size) (hrun : a.allocate size = some (0, b)) :
    Reaches ok virtStart vaLimit live b
  | allocateFixed {live a b} {virt size : ℕ} (h : Reaches ok virtStart vaLimit live a)
    (hv : ValidRegion vaLimit virt size) (hrun : a.allocateFixed virt size = some b) :
    Reaches ok virtStart vaLimit (live ∪ Set.Ico virt (virt + size)) b
  | free {live a b} {virt size : ℕ} (h : Reaches ok virtStart vaLimit live a)
    (hv : ValidRegion vaLimit virt size) (hrun : a.free virt size = some b) :
    Reaches ok virtStart vaLimit (live \ Set.Ico virt (virt + size)) b

section Runs

variable {a : FlatAllocator} {virtStart vaLimit : ℕ} {live : Set ℕ}

theorem ordered_new (vaLimit : ℕ) :
    Ordered vaLimit (FlatAddressSpaceMap.new vaLimit : FlatAddressSpaceMap Bool Unit).blocks where
  ascending := List.pairwise_singleton _ _
  head := ⟨_, _, rfl, rfl, rfl⟩
  last := by simp [FlatAddressSpaceMap.new, Block.unmapped]
  limit := by simp [FlatAddressSpaceMap.new]

theorem Reaches.inv (h : Reaches AllocateOk virtStart vaLimit live a) : Inv virtStart vaLimit live a := by
  induction h with
  | new hstart hlimit =>
    exact ⟨rfl, rfl, hlimit, ordered_new vaLimit, fun _ hn => hn.elim, le_rfl, hstart⟩
  | allocate h hpos hsize hok hrun hs ih =>
    rcases ih.allocate hpos hsize hok with hfull | ⟨s, b, -, hrun', -, hinv⟩
    · rw [hfull] at hrun
      cases hrun
      exact absurd rfl hs
    · rw [hrun'] at hrun
      cases hrun
      exact hinv
  | full h hpos hsize hok hrun ih =>
    rcases ih.allocate hpos hsize hok with hfull | ⟨s, b, hs, hrun', -⟩
    · rw [hfull] at hrun
      cases hrun
      exact ih
    · rw [hrun'] at hrun
      cases hrun
      exact absurd hs (lt_irrefl _)
  | allocateFixed h hv hrun ih =>
    obtain ⟨b, hrun', hinv⟩ := ih.allocateFixed hv.virt_pos hv.size_pos hv.limit
    rw [hrun'] at hrun
    cases hrun
    exact hinv
  | free h hv hrun ih =>
    obtain ⟨b, hrun', hinv⟩ := ih.free hv.virt_pos hv.size_pos hv.limit
    rw [hrun'] at hrun
    cases hrun
    exact hinv

end Runs

section Fixed

/-- One fixed region past the start. -/
def fixed : FlatAllocator :=
  ⟨⟨[⟨0, false, ()⟩, ⟨0x20, true, ()⟩, ⟨0x30, false, ()⟩], 0x100⟩, 0x10, 0x10⟩

theorem reaches_fixed (ok : FlatAllocator → ℕ → Prop) :
    Reaches ok 0x10 0x100 (∅ ∪ Set.Ico 0x20 (0x20 + 0x10)) fixed := by
  have hv : ValidRegion 0x100 0x20 0x10 := ⟨by decide, by decide, by decide⟩
  exact (Reaches.new (by decide) (by decide)).allocateFixed hv rfl

/-- The addresses up to the fixed region are free. -/
theorem allocateOk_fixed : fixed.AllocateOk 0x10 := by
  have hwindow : ∀ before p after, Window fixed 0x10 before p after → p = ⟨0, false, ()⟩ := by
    intro before p after hw
    have hp := hw.predecessor
    have hmem : p ∈ fixed.blocks := by rw [hw.blocks]; simp
    simp only [fixed, List.mem_cons, List.not_mem_nil, or_false] at hmem hp
    rcases hmem with rfl | rfl | rfl
    · rfl
    · exact absurd hp (by decide)
    · exact absurd hp (by decide)
  refine ⟨fun before p after hw _ => ?_, fun before p after hw hlt => ?_, fun h => ?_⟩
  · rw [hwindow _ _ _ hw]
    rfl
  · rw [hwindow _ _ _ hw] at hlt
    exact absurd hlt (by decide)
  · have : fixed.linearStart 0x10 = some 0x10 := by decide
    rw [this] at h
    cases h

end Fixed

end FlatAllocator

end Common
end Citron
