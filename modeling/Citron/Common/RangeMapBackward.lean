/-
# Ranges that end at 0

An end with the sign bit is cast to a negative key and then clipped to 0, below the
start of its range. `InternalMap` of such a range walks past the end of the container
if a key lies between, and changes nothing that an `Unmap` asks for otherwise; it is
right only where the range has the null value already.
-/
import Citron.Common.RangeMap

namespace Citron
namespace Common
namespace RangeMap

open Lib List

variable {V : Type} {K : KeyTBase} {m m' : RangeMap V} {l l₁ l₂ mid : List (ℤ × V)} {e : ℤ × V}
  {a b : ℤ} {v : V}

/-- An entry with a value other than null has its key at 0 or above. -/
theorem NullBelow.nonneg (h : NullBelow K m) (he : e ∈ m.container) (hv : e.2 ≠ m.nullValue) : 0 ≤ e.1 := by
  rcases h e he with h0 | rfl
  · exact h0
  · exact absurd rfl hv

theorem NullBelow.null (h : NullBelow K m) (he : e ∈ m.container) (h0 : e.1 < 0) : e.2 = m.nullValue := by
  by_contra hv
  exact absurd (h.nonneg he hv) (by omega)

/-- The value changes at a key. -/
theorem Canonical.noKey_of_const (h : Canonical K m) (h1 : ∀ x, 0 ≤ x → x < a → m.value x = m.value 0) :
    ∀ e ∈ m.container, e.1 ≤ 0 ∨ a ≤ e.1 := by
  intro e he
  by_contra hkey
  push Not at hkey
  have hlim := K.limit_pos
  obtain ⟨p, q, hpq⟩ := append_of_mem he
  have hasc := h.ascending
  rw [hpq, ascending_append, ascending_cons] at hasc
  have hp : p ≠ [] := by
    rintro rfl
    have hmin := h.minimum
    rw [hpq, nil_append, head?_cons, Option.map_some] at hmin
    have := Option.some.inj hmin
    omega
  obtain ⟨p, g, rfl⟩ := eq_nil_or_concat' p |>.resolve_left hp
  have hge : g.1 < e.1 := hasc.2.2 g (by simp) e mem_cons_self
  have hat : HoldsAt m.container e.1 (p ++ [g]) e q :=
    ⟨hpq, fun f hf => hasc.2.2 f hf e mem_cons_self, le_rfl, hasc.2.1.1⟩
  have hbefore : HoldsAt m.container (e.1 - 1) p g (e :: q) := by
    refine ⟨by rw [hpq, append_assoc]; rfl, fun f hf => ?_, by omega, ?_⟩
    · exact (ascending_append.mp hasc.1).2.2 f hf g mem_cons_self
    · refine forall_mem_cons.mpr ⟨by omega, fun f hf => ?_⟩
      have := hasc.2.1.1 f hf
      omega
  have hchange : g.2 ≠ e.2 := by
    have := isChain_append.mp (hpq ▸ h.changes)
    exact this.2.2 g (by simp) e rfl
  refine hchange ?_
  rw [← hbefore.value_eq, ← hat.value_eq, h1 _ (by omega) (by omega), h1 e.1 (by omega) (by omega)]

variable [DecidableEq V]

/-- An `Unmap` of the empty range at 0 changes nothing. -/
theorem Canonical.internalMap_zero (h : Canonical K m) (hn : NullBelow K m) :
    m.internalMap 0 0 m.nullValue = some m := by
  obtain ⟨l₁, e, mid, l₃, f, r, hc⟩ := h.exists_cut (a := 0) (b := 0) le_rfl
  have hmem : e ∈ m.container := by
    rw [hc.eq]
    exact mem_append_right _ mem_cons_self
  have he : e.2 = m.nullValue := hn.null hmem (hc.left e (by simp))
  have hchain := isChain_append.mp (hc.eq ▸ h.changes)
  rw [hc.internalMap h le_rfl, if_neg (not_not.mpr he)]
  dsimp only
  have hcont : m = { m with container := l₁ ++ [e] ++ (mid ++ r) } := by rw [← hc.eq_left]
  cases mid with
  | nil =>
    obtain rfl : e = f := by simpa using (append_inj' hc.last rfl).2
    rw [if_neg (not_not.mpr he)]
    exact congrArg some hcont.symm
  | cons g mid =>
    have hg : g.1 = 0 := le_antisymm (hc.middle g mem_cons_self).2 (hc.middle g mem_cons_self).1
    have hasc := h.ascending
    rw [hc.eq, ascending_append, ascending_cons, cons_append, ascending_cons] at hasc
    have hmid : mid = [] := by
      refine eq_nil_iff_forall_not_mem.mpr fun x hx => ?_
      have h1 := hasc.2.1.2.1 x (mem_append_left _ hx)
      have h2 := (hc.middle x (mem_cons_of_mem _ hx)).2
      omega
    subst hmid
    have hlast : (l₁ ++ [e]) ++ [g] = l₃ ++ [f] := by rw [← hc.last, append_assoc]; rfl
    obtain rfl : g = f := by simpa using (append_inj' hlast rfl).2
    have hne : g.2 ≠ m.nullValue := by
      have := isChain_cons_cons.mp hchain.2.1
      exact fun hgv => this.1 (he.trans hgv.symm)
    rw [if_pos hne, emplace_cut _ hc.left hc.right, ← hg]
    exact congrArg some hcont.symm

/-- A key between 0 and the start of the range: the loop walks past the end of the container. -/
theorem Canonical.internalMap_key (h : Canonical K m) (he : e ∈ m.container) (h0 : 0 < e.1) (ha : e.1 < a) :
    m.internalMap a 0 v = none := by
  obtain ⟨l₁, l₂, hl, h1, h2⟩ := h.ascending.exists_cut a
  have hel : e ∈ l₁ := by
    rw [hl] at he
    rcases mem_append.mp he with he | he
    · exact he
    · exact absurd (h2 e he) (by omega)
  obtain ⟨i, hi, hei⟩ := getElem_of_mem hel
  have hlow : lowerBound m.container a = l₁.length := by
    rw [hl]
    exact lowerBound_cut h1 h2
  have hup : upperBound m.container 0 < lowerBound m.container a := by
    have hle : upperBound m.container 0 ≤ i := by
      by_contra hlt
      have hget : m.container[i]? = some e := by rw [hl, getElem?_append_left hi, getElem?_eq_getElem hi, hei]
      have hfalse := not_of_lt_findIdx (not_le.mp hlt)
      rw [(List.getElem?_eq_some_iff.mp hget).2, decide_eq_false_iff_not] at hfalse
      exact hfalse h0
    omega
  unfold RangeMap.internalMap
  rw [eraseLoop_of_gt hup]
  cases m.getFirstValueWithin a <;> cases m.getLastValueWithin 0 <;> rfl

section

variable (h : Canonical K m) (hn : NullBelow K m) (ha : 0 < a)
include h hn ha

/-- No key between 0 and the start: the range is empty, and the start may be written. -/
theorem Canonical.internalMap_noKey (hkey : ∀ e ∈ m.container, e.1 ≤ 0 ∨ a ≤ e.1) :
    ∃ l₁ e r, m.container = l₁ ++ e :: r ∧ (∀ f ∈ l₁ ++ [e], f.1 ≤ 0) ∧ (∀ f ∈ r, a ≤ f.1) ∧
      m.internalMap a 0 m.nullValue = some { m with
        container := if e.2 ≠ m.nullValue then l₁ ++ e :: emplace r a m.nullValue else l₁ ++ e :: r } := by
  have hlim := K.limit_pos
  obtain ⟨l₁, e, r, hh⟩ := h.holdsAt (a := 0) (by omega)
  have hmem : ∀ x ∈ l₁ ++ [e], x ∈ m.container := by
    intro x hx
    rw [hh.eq, ← singleton_append, ← append_assoc]
    exact mem_append_left _ hx
  have hleft : ∀ x ∈ l₁ ++ [e], x.1 ≤ 0 := by
    intro x hx
    have := hh.le
    rcases mem_append.mp hx with hx | hx
    · have := hh.before x hx
      omega
    · rwa [mem_singleton.mp hx]
  have hright : ∀ x ∈ r, a ≤ x.1 := by
    intro x hx
    have h1 := hh.after x hx
    have h2 := hkey x (by rw [hh.eq]; exact mem_append_right _ (mem_cons_of_mem _ hx))
    omega
  have hlefta : ∀ x ∈ l₁ ++ [e], x.1 < a := fun x hx => (hleft x hx).trans_lt ha
  have hcont : m.container = (l₁ ++ [e]) ++ r := by rw [hh.eq, append_assoc]; rfl
  have hlow : lowerBound m.container a = upperBound m.container 0 := by
    rw [hcont, lowerBound_cut hlefta hright, upperBound_cut hleft hh.after]
  have herase : eraseLoop m.container (lowerBound m.container a) (upperBound m.container 0) = some m.container := by
    unfold eraseLoop
    rw [if_pos hlow]
  refine ⟨l₁, e, r, hh.eq, hleft, hright, ?_⟩
  unfold RangeMap.internalMap
  simp only [getFirstValueWithin_cut hh.eq h.last hlefta hright, getLastValueWithin_cut hh.eq h.last hleft hh.after,
    herase, Option.bind_eq_bind, Option.bind_some]
  by_cases hv : e.2 ≠ m.nullValue
  · have he0 : e.1 = 0 := le_antisymm hh.le (hn.nonneg (hmem e (by simp)) hv)
    have hbefore : ∀ x ∈ l₁, x.1 < e.1 := hh.before
    rw [if_pos hv, if_pos hv, if_pos hv, hcont, emplace_append _ _ hlefta, append_assoc, ← he0]
    show some { m with container := emplace (l₁ ++ e :: emplace r a m.nullValue) e.1 e.2 } = _
    rw [emplace_key _ hbefore]
  · rw [if_neg hv, if_neg hv, if_neg hv, hh.eq]

theorem Canonical.internalMap_same (hlt : a < K.limit) (h1 : ∀ x, 0 ≤ x → x < a → m.value x = m.value 0)
    (h2 : ∀ x, a ≤ x → x < K.limit → m.value x = m.nullValue) :
    m.internalMap a 0 m.nullValue = some m := by
  obtain ⟨l₁, e, r, hc, hleft, hright, hrun⟩ := h.internalMap_noKey hn ha (h.noKey_of_const h1)
  have hsame : m = { m with container := l₁ ++ e :: r } := by rw [← hc]
  rw [hrun]
  by_cases hv : e.2 ≠ m.nullValue
  · rw [if_pos hv]
    cases r with
    | nil =>
      have hlast := h.last
      rw [hc, getLast?_concat, Option.map_some] at hlast
      exact absurd (Option.some.inj hlast) hv
    | cons g r =>
      have hasc := h.ascending
      rw [hc, ascending_append, ascending_cons, ascending_cons] at hasc
      have hga : g.1 = a := by
        refine le_antisymm ?_ (hright g mem_cons_self)
        by_contra hag
        have hat : HoldsAt m.container a l₁ e (g :: r) := by
          refine ⟨hc, fun f hf => hasc.2.2 f hf e mem_cons_self, ?_, ?_⟩
          · have := hleft e (by simp)
            omega
          · refine forall_mem_cons.mpr ⟨by omega, fun f hf => ?_⟩
            have := hasc.2.1.2.1 f hf
            omega
        exact hv (hat.value_eq.symm.trans (h2 a le_rfl hlt))
      have hkey : emplace (g :: r) a m.nullValue = g :: r := by
        rw [← hga]
        exact emplace_key _ fun _ hf => absurd hf not_mem_nil
      rw [hkey]
      exact congrArg some hsame.symm
  · rw [if_neg hv]
    exact congrArg some hsame.symm

/-- What an `Unmap` that ends below its start leaves right: only a map that has one value
below the start, and the null value from it on. -/
theorem Canonical.of_internalMap_backward (hrun : m.internalMap a 0 m.nullValue = some m') (hc' : Canonical K m')
    (hnull : ∀ x, a ≤ x → x < K.limit → m'.value x = m.nullValue) :
    (∀ x, 0 ≤ x → x < a → m.value x = m.value 0) ∧ ∀ x, a ≤ x → x < K.limit → m.value x = m.nullValue := by
  have hkey : ∀ e ∈ m.container, e.1 ≤ 0 ∨ a ≤ e.1 := by
    intro e he
    by_contra hkey
    push Not at hkey
    rw [h.internalMap_key he hkey.1 hkey.2] at hrun
    exact absurd hrun (by simp)
  obtain ⟨l₁, e, r, hc, hleft, hright, hrun'⟩ := h.internalMap_noKey hn ha hkey
  have hasc := h.ascending
  rw [hc, ascending_append, ascending_cons] at hasc
  have hat : ∀ x, 0 ≤ x → x < a → m.value x = e.2 := by
    intro x hx hxa
    have hh : HoldsAt m.container x l₁ e r := by
      refine ⟨hc, fun f hf => hasc.2.2 f hf e mem_cons_self, ?_, fun f hf => hxa.trans_le (hright f hf)⟩
      exact (hleft e (by simp)).trans hx
    exact hh.value_eq
  refine ⟨fun x hx hxa => (hat x hx hxa).trans (hat 0 le_rfl ha).symm, ?_⟩
  suffices m' = m from this ▸ hnull
  have hsame : m = { m with container := l₁ ++ e :: r } := by rw [← hc]
  rw [hrun] at hrun'
  by_cases hv : e.2 ≠ m.nullValue
  · rw [if_pos hv] at hrun'
    have hm' := Option.some.inj hrun'
    cases r with
    | nil =>
      have hlast := h.last
      rw [hc, getLast?_concat, Option.map_some] at hlast
      exact absurd (Option.some.inj hlast) hv
    | cons g r =>
      by_cases hga : g.1 = a
      · have hkey : emplace (g :: r) a m.nullValue = g :: r := by
          rw [← hga]
          exact emplace_key _ fun _ hf => absurd hf not_mem_nil
        rw [hm', hkey]
        exact hsame.symm
      · have hag : a < g.1 := lt_of_le_of_ne (hright g mem_cons_self) (Ne.symm hga)
        rw [emplace, if_pos hag] at hm'
        have hc₁ : m'.container = (l₁ ++ [e, (a, m.nullValue)]) ++ g :: r := by
          rw [hm']
          simp
        have hasc' := hc'.ascending
        rw [hc₁, ascending_append, ascending_cons] at hasc'
        have hhg : HoldsAt m'.container g.1 (l₁ ++ [e, (a, m.nullValue)]) g r :=
          ⟨hc₁, fun f hf => hasc'.2.2 f hf g mem_cons_self, le_rfl, hasc'.2.1.1⟩
        have hgn : g.2 = m.nullValue := by
          rw [← hhg.value_eq]
          exact hnull _ hag.le (h.bound g (by rw [hc]; simp))
        have hchange := (isChain_append.mp (hc₁ ▸ hc'.changes)).2.2 (a, m.nullValue) (by simp) g rfl
        exact absurd hgn.symm hchange
  · rw [if_neg hv] at hrun'
    rw [Option.some.inj hrun']
    exact hsame.symm

end

end RangeMap
end Common
end Citron
