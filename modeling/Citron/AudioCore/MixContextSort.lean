/-
# The order of the mixes

The distances are right, and with them the order and the buffers, exactly when no chain takes the
shortcut after its first hop.
-/
import Mathlib.Algebra.Order.BigOperators.Group.List
import Mathlib.Data.List.Pairwise
import Mathlib.Order.Interval.Set.Disjoint
import Citron.AudioCore.MixContext

namespace Citron

open Function

namespace AudioCore
namespace Renderer
namespace MixContext

open Lib

variable {s t t' : MixContext} {i k : ℕ}

/-- The buffers that the mix takes. -/
def buffers (s : MixContext) (i : ℕ) : ℤ := if (s.mixInfos i).inUse then (s.mixInfos i).bufferCount else 0

/-- What the updates of the mixes keep: a mix is looked up under its own id, there are no more buffers
than an `s16` counts, and the sorted span has a place for each mix. -/
structure Valid (s : MixContext) : Prop where
  count_le : (s.count : ℤ) ≤ unusedMixId
  length : s.sortedMixInfos.length = s.count
  ownId : ∀ i < s.count, (s.mixInfos i).inUse = true → (s.mixInfos i).mixId = i
  nonneg : ∀ i < s.count, 0 ≤ (s.mixInfos i).bufferCount
  total : ((List.range s.count).map s.buffers).sum < 2 ^ 15

/-! ### One mix -/

/-- A distance that is not less than the number of mixes is none. -/
def bounded (s : MixContext) (r : ℤ) : ℤ := if r ≥ s.count then invalidDistanceFromFinalMix else r

theorem bounded_of_lt {r : ℕ} (h : r < s.count) : s.bounded r = r := if_neg (by omega)

/-- What the loop along the chain of a mix comes to is right exactly when the chain is direct. -/
theorem distanceToFinalMix_right_iff (hsame : SameChains s t) (hright : Right s t i) (hblank : Blank s t i)
    (hi : i < s.count) (hleaves : ¬ s.Leaves i) :
    ∃ r, t.distanceToFinalMix s.count i finalMixId = .ok r ∧
      (((∀ k : ℕ, Hops s i k → s.bounded r = k) ∧ ((¬ ∃ k, Hops s i k) → s.bounded r = invalidDistanceFromFinalMix)) ↔
        ∀ k, Hops s i k → s.Direct i) := by
  by_cases hends : ∃ k, Hops s i k
  · obtain ⟨k, hk⟩ := hends
    have hlt : k < s.count := hk.lt_count (by omega)
    cases k with
    | zero =>
      -- the final mix
      have hfinal : (i : ℤ) = finalMixId := hk.zero
      have hdirect : s.Direct i := by
        refine .inr fun hmeets => ?_
        have hnone : ∀ id, ¬ s.Earlier i id := fun id h => by
          have hlt := h.lt
          have hnonneg := h.nonneg
          rw [finalMixId] at hfinal
          omega
        generalize s.output i = id at hmeets
        induction hmeets with
        | here h => exact hnone _ h
        | next _ _ ih => exact ih
      obtain ⟨n, hn⟩ : ∃ n, s.count = n + 1 := ⟨s.count - 1, by omega⟩
      refine ⟨finalMixId, ?_, iff_of_true ⟨fun j hj => ?_, fun hcon => absurd ⟨0, hk⟩ hcon⟩ fun _ _ => hdirect⟩
      · rw [hn, distanceToFinalMix, if_pos hfinal]
      · rw [hk.unique hj]
        exact bounded_of_lt hlt
    | succ k =>
      obtain ⟨hlink, hrest⟩ := hk.succ
      obtain ⟨n, hn⟩ : ∃ n, s.count = n + 1 := ⟨s.count - 1, by omega⟩
      have hd : t.distance i = invalidDistanceFromFinalMix := hblank i hi (.inl (Nat.le_refl i))
      have hfirst : t.distanceToFinalMix s.count i finalMixId = t.distanceToFinalMix n (s.output i) 1 := by
        rw [hn, distanceToFinalMix_links hsame hlink, Int.toNat_natCast, hd]
        exact if_neg (fun hcon => hcon rfl)
      have hturns : k < n := by omega
      have hcount : ∀ r : ℕ, r < s.count → ((∀ j : ℕ, Hops s i j → s.bounded r = j) ∧
          ((¬ ∃ k, Hops s i k) → s.bounded r = invalidDistanceFromFinalMix) ↔ r = k + 1) := fun r hr => by
        rw [bounded_of_lt hr]
        refine ⟨fun h => ?_, fun h => ⟨fun j hj => ?_, fun hcon => absurd ⟨k + 1, hk⟩ hcon⟩⟩
        · have heq := h.1 (k + 1) hk
          omega
        · rw [hk.unique hj, h]
      have hdirect : (∀ k, Hops s i k → s.Direct i) ↔ s.Direct i := ⟨fun h => h _ hk, fun h _ _ => h⟩
      rw [hfirst]
      by_cases hearlier : s.Earlier i (s.output i)
      · refine ⟨((k + 1 : ℕ) : ℤ), distanceToFinalMix_earlier hsame hright hrest hearlier hturns 1, ?_⟩
        rw [hcount _ hlt, hdirect]
        exact iff_of_true rfl (.inl hearlier)
      · by_cases hmeets : s.Meets i (s.output i)
        · obtain ⟨r, hr, hle⟩ := distanceToFinalMix_meets hsame hright hblank hrest hmeets hearlier hturns 1
          refine ⟨r, hr, ?_⟩
          rw [hcount r (by omega), hdirect]
          refine iff_of_false (by omega) fun h => ?_
          rcases h with h | h
          · exact hearlier h
          · exact h hmeets
        · refine ⟨((k + 1 : ℕ) : ℤ), ?_, ?_⟩
          · rw [distanceToFinalMix_hops hsame hright hblank hrest hmeets hturns 1]
            congr 1
            omega
          · rw [hcount _ hlt, hdirect]
            exact iff_of_true rfl (.inr hmeets)
  · have hnone : ∀ k, Hops s i k → s.Direct i := fun k hk => absurd ⟨k, hk⟩ hends
    have hinvalid : s.bounded invalidDistanceFromFinalMix = invalidDistanceFromFinalMix := by
      rw [bounded]
      exact if_neg (by rw [invalidDistanceFromFinalMix]; omega)
    have hcount : s.bounded (finalMixId + s.count) = invalidDistanceFromFinalMix := by
      rw [bounded]
      exact if_pos (by rw [finalMixId]; omega)
    rcases distanceToFinalMix_endless hsame hright hblank hends hleaves finalMixId with hr | hr
    · exact ⟨_, hr, iff_of_true ⟨fun k hk => absurd ⟨k, hk⟩ hends, fun _ => hinvalid⟩ hnone⟩
    · exact ⟨_, hr, iff_of_true ⟨fun k hk => absurd ⟨k, hk⟩ hends, fun _ => hcount⟩ hnone⟩

theorem SameChains.point (h : SameChains s t) (i : ℕ) : SameChains s (t.point i) := ⟨h.count, h.mix⟩

theorem SameChains.setDistance (h : SameChains s t) (i : ℕ) (d : ℤ) : SameChains s (t.setDistance i d) := by
  refine ⟨h.count, fun j => ?_⟩
  by_cases hj : j = i
  · subst hj
    refine (h.mix j).trans ?_
    simp only [MixContext.setDistance, update_self]
    exact ⟨rfl, rfl, rfl, rfl⟩
  · simp only [MixContext.setDistance, update_of_ne hj]
    exact h.mix j

theorem distance_setDistance (t : MixContext) (i j : ℕ) (d : ℤ) :
    (t.setDistance i d).distance j = if j = i then d else t.distance j := by
  by_cases hj : j = i
  · subst hj
    simp [MixContext.setDistance, distance]
  · simp [MixContext.setDistance, distance, hj]

theorem updateDistance_unused (hsame : SameChains s t) (hi : (s.mixInfos i).inUse = false) :
    t.updateDistance i = .ok (t.point i) := by
  have hi' : ((t.point i).mixInfos i).inUse = false := (hsame.mix i).inUse.trans hi
  simp only [updateDistance, hi']
  rfl

theorem updateDistance_inUse (hvalid : s.Valid) (hsame : SameChains s t) (hlt : i < s.count)
    (hi : (s.mixInfos i).inUse = true) {r : ℤ}
    (h : (t.point i).distanceToFinalMix s.count i finalMixId = .ok r) :
    t.updateDistance i = .ok ((t.point i).setDistance i (s.bounded r)) := by
  have hi' : ((t.point i).mixInfos i).inUse = true := (hsame.mix i).inUse.trans hi
  have hid : ((t.point i).mixInfos i).mixId = i := (hsame.mix i).mixId.trans (hvalid.ownId i hlt hi)
  have hcount : (t.point i).count = s.count := hsame.count
  simp only [updateDistance, hi', hid, hcount, h, bounded]
  rfl

/-! ### All mixes -/

/-- What the loop over the mixes has got to. -/
structure Updated (s t : MixContext) (m : ℕ) : Prop where
  same : SameChains s t
  sorted : t.sortedMixInfos = List.range m ++ s.sortedMixInfos.drop m
  blank : Blank s t m
  right_iff : Right s t m ↔ ∀ i < m, (s.mixInfos i).inUse = true → ∀ k, Hops s i k → s.Direct i

theorem Updated.set_sorted (hvalid : s.Valid) {m : ℕ} (hm : m < s.count)
    (h : t.sortedMixInfos = List.range m ++ s.sortedMixInfos.drop m) :
    (t.point m).sortedMixInfos = List.range (m + 1) ++ s.sortedMixInfos.drop (m + 1) := by
  have hlt : m < s.sortedMixInfos.length := hvalid.length.symm ▸ hm
  have hlen : (List.range m).length ≤ m := List.length_range.le
  rw [point, h, List.set_append_right _ _ hlen, List.length_range, Nat.sub_self, List.drop_eq_getElem_cons hlt,
    List.set_cons_zero, List.range_succ, List.append_assoc, List.singleton_append]

/-- The mixes before `m` are right as they were, and `m` itself when its chain is direct. -/
theorem Updated.right_succ {m : ℕ} (h : Updated s t m) (hother : ∀ j, j ≠ m → t'.distance j = t.distance j)
    (hat : (s.mixInfos m).inUse = true → Right s t m → (RightAt s t' m ↔ ∀ k, Hops s m k → s.Direct m)) :
    Right s t' (m + 1) ↔ ∀ i < m + 1, (s.mixInfos i).inUse = true → ∀ k, Hops s i k → s.Direct i := by
  have hkeep : ∀ j < m, (RightAt s t' j ↔ RightAt s t j) := fun j hj => by
    have hd := hother j (by omega)
    constructor
    · rintro ⟨hhops, hendless⟩
      exact ⟨fun k hk => hd ▸ hhops k hk, fun hk => hd ▸ hendless hk⟩
    · rintro ⟨hhops, hendless⟩
      exact ⟨fun k hk => hd.symm ▸ hhops k hk, fun hk => hd.symm ▸ hendless hk⟩
  constructor
  · intro hright i hi huse
    have hbefore : Right s t m := fun j hj hj' => (hkeep j hj).mp (hright j (by omega) hj')
    rcases Nat.lt_succ_iff_lt_or_eq.mp hi with hi | rfl
    · exact h.right_iff.mp hbefore i hi huse
    · exact (hat huse hbefore).mp (hright i hi huse)
  · intro hdirect j hj huse
    have hbefore : Right s t m := h.right_iff.mpr fun i hi => hdirect i (by omega)
    rcases Nat.lt_succ_iff_lt_or_eq.mp hj with hj | rfl
    · exact (hkeep j hj).mpr (hbefore j hj huse)
    · exact (hat huse hbefore).mpr (hdirect j hj huse)

/-- The step of the loop at mix `m`. -/
theorem Updated.step (hvalid : s.Valid) {m : ℕ} (h : Updated s t m) (hm : m < s.count)
    (hleaves : (s.mixInfos m).inUse = true → ¬ s.Leaves m) :
    ∃ t', t.updateDistance m = .ok t' ∧ Updated s t' (m + 1) := by
  have hsorted := Updated.set_sorted hvalid hm h.sorted
  cases huse : (s.mixInfos m).inUse with
  | false =>
    refine ⟨t.point m, updateDistance_unused h.same huse, h.same.point m, hsorted, fun j hj hcase => ?_, ?_⟩
    · rcases hcase with hcase | hcase
      · exact h.blank j hj (.inl (by omega))
      · exact h.blank j hj (.inr hcase)
    · refine h.right_succ (fun j _ => rfl) fun hcon => ?_
      rw [huse] at hcon
      cases hcon
  | true =>
    have hsame : SameChains s (t.point m) := h.same.point m
    obtain ⟨r, hr⟩ := distanceToFinalMix_ok hsame (hleaves huse) s.count finalMixId
    have hother : ∀ j, j ≠ m → ((t.point m).setDistance m (s.bounded r)).distance j = t.distance j := fun j hj => by
      rw [distance_setDistance, if_neg hj]
      rfl
    have hat : ((t.point m).setDistance m (s.bounded r)).distance m = s.bounded r := by
      rw [distance_setDistance, if_pos rfl]
    refine ⟨_, updateDistance_inUse hvalid h.same hm huse hr, hsame.setDistance m _, hsorted, fun j hj hcase => ?_, ?_⟩
    · have hjm : j ≠ m := fun hjm => by
        rcases hcase with hcase | hcase
        · omega
        · rw [hjm, huse] at hcase
          cases hcase
      rw [hother j hjm]
      exact h.blank j hj (hcase.imp_left (by omega))
    · refine h.right_succ hother fun _ hright => ?_
      have hright' : Right s (t.point m) m := fun j hj huse' => ⟨(hright j hj huse').hops, (hright j hj huse').endless⟩
      obtain ⟨r', hr', hiff⟩ := distanceToFinalMix_right_iff hsame hright' h.blank hm (hleaves huse)
      rw [hr, Except.ok.injEq] at hr'
      rw [← hr', ← hat] at hiff
      exact Iff.trans ⟨fun h => ⟨h.hops, h.endless⟩, fun h => ⟨h.1, h.2⟩⟩ hiff

theorem updateDistancesFromFinalMix_spec (hvalid : s.Valid)
    (hleaves : ∀ i < s.count, (s.mixInfos i).inUse = true → ¬ s.Leaves i) :
    ∃ t, s.updateDistancesFromFinalMix = .ok t ∧ SameChains s t ∧ t.sortedMixInfos = List.range s.count ∧
      (∀ i < s.count, (s.mixInfos i).inUse = false → t.distance i = invalidDistanceFromFinalMix) ∧
      (Right s t s.count ↔ ∀ i < s.count, (s.mixInfos i).inUse = true → ∀ k, Hops s i k → s.Direct i) := by
  have hrun : ∀ m ≤ s.count, ∃ t, (List.range m).foldlM updateDistance s.clearDistances = .ok t ∧ Updated s t m := by
    intro m
    induction m with
    | zero =>
      intro _
      refine ⟨_, rfl, ⟨rfl, fun i => ?_⟩, rfl, fun j hj _ => ?_, ?_⟩
      · rw [clearDistances]
        by_cases hi : i < s.count
        · simp only [if_pos hi]
          exact ⟨rfl, rfl, rfl, rfl⟩
        · simp only [if_neg hi]
          exact SameMix.refl _
      · simp only [clearDistances, distance, if_pos hj]
      · exact iff_of_true (fun j hj => absurd hj (Nat.not_lt_zero j)) (fun j hj => absurd hj (Nat.not_lt_zero j))
    | succ m ih =>
      intro hm
      obtain ⟨t, ht, hupdated⟩ := ih (by omega)
      obtain ⟨t', ht', hupdated'⟩ := hupdated.step hvalid hm (hleaves m hm)
      refine ⟨t', ?_, hupdated'⟩
      rw [List.range_succ, List.foldlM_append, ht]
      change [m].foldlM updateDistance t = .ok t'
      rw [List.foldlM_cons, ht']
      rfl
  obtain ⟨t, ht, hupdated⟩ := hrun s.count (Nat.le_refl _)
  refine ⟨t, ht, hupdated.same, ?_, fun i hi huse => hupdated.blank i hi (.inr huse), hupdated.right_iff⟩
  rw [hupdated.sorted, List.drop_of_length_le hvalid.length.le, List.append_nil]

end MixContext

/-! ## Sorted mixes

With the right distances a mix stands before the one it outputs to, whatever the sort does with
mixes of one distance, and the buffers follow one another in the sorted order.
-/

namespace MixContext

open Lib

variable {s t : MixContext} {i : ℕ}

/-- The buffers of a mix. -/
def bufferRange (s : MixContext) (i : ℕ) : Set ℤ :=
  Set.Ico (s.mixInfos i).bufferOffset ((s.mixInfos i).bufferOffset + (s.mixInfos i).bufferCount)

/-! ### Buffers -/

theorem buffers_nonneg (h : 0 ≤ (s.mixInfos i).bufferCount) : 0 ≤ s.buffers i := by
  rw [buffers]
  split
  · exact h
  · exact Int.le_refl 0

/-- What placing the buffers of the mixes of `l` comes to. -/
structure Placed (s : MixContext) (l : List ℕ) (start stop : ℤ) (infos infos' : ℕ → MixInfo) : Prop where
  same : ∀ i, SameMix (s.mixInfos i) (infos' i)
  distance : ∀ i, (infos' i).distanceFromFinalMix = (infos i).distanceFromFinalMix
  other : ∀ i, i ∉ l → infos' i = infos i
  within : ∀ i ∈ l, (s.mixInfos i).inUse = true →
    start ≤ (infos' i).bufferOffset ∧ (infos' i).bufferOffset + (infos' i).bufferCount ≤ stop
  apart : l.Pairwise fun i j => (s.mixInfos i).inUse = true → (s.mixInfos j).inUse = true →
    (infos' i).bufferOffset + (infos' i).bufferCount ≤ (infos' j).bufferOffset

variable {infos infos' : ℕ → MixInfo} {start stop : ℤ}

theorem placeBuffers_unused (h : (infos i).inUse = false) :
    placeBuffers (start, infos) i = (start, infos) := by
  simp only [placeBuffers, h, Bool.false_eq_true, if_false]

theorem placeBuffers_inUse (h : (infos i).inUse = true) (hstart : 0 ≤ start)
    (hcount : 0 ≤ (infos i).bufferCount) (hfit : start + (infos i).bufferCount < 2 ^ 15) :
    placeBuffers (start, infos) i =
      (start + (infos i).bufferCount, update infos i { infos i with bufferOffset := start }) := by
  have hbmod : (start + (infos i).bufferCount).bmod (2 ^ 16) = start + (infos i).bufferCount := by
    apply Int.bmod_eq_of_le <;> omega
  simp only [placeBuffers, h, if_true, hbmod]

variable {l : List ℕ}

theorem Placed.unused {a : ℕ} (h : Placed s l start stop infos infos')
    (ha : (s.mixInfos a).inUse = false) : Placed s (a :: l) start stop infos infos' := by
  have hcon : ¬ (s.mixInfos a).inUse = true := by rw [ha]; exact Bool.false_ne_true
  refine ⟨h.same, h.distance, fun i hi => h.other i fun hmem => hi (List.mem_cons_of_mem a hmem), fun i hi huse => ?_,
    List.Pairwise.cons (fun j _ huse => absurd huse hcon) h.apart⟩
  rcases List.mem_cons.mp hi with rfl | hi
  · exact absurd huse hcon
  · exact h.within i hi huse

theorem Placed.inUse {a : ℕ} (hal : a ∉ l) (h : Placed s l (start + (infos a).bufferCount) stop
      (update infos a { infos a with bufferOffset := start }) infos')
    (hcount : 0 ≤ (infos a).bufferCount) (hstop : start + (infos a).bufferCount ≤ stop) :
    Placed s (a :: l) start stop infos infos' := by
  have ha : infos' a = { infos a with bufferOffset := start } := by
    rw [h.other a hal, update_self]
  refine ⟨h.same, fun i => ?_, fun i hi => ?_, fun i hi huse => ?_, List.Pairwise.cons (fun j hj _ huse => ?_) h.apart⟩
  · rw [h.distance i]
    by_cases hi : i = a
    · rw [hi, update_self]
    · rw [update_of_ne hi]
  · have hia : i ≠ a := fun hia => hi (hia ▸ List.mem_cons_self)
    rw [h.other i fun hil => hi (List.mem_cons_of_mem a hil), update_of_ne hia]
  · rcases List.mem_cons.mp hi with rfl | hi
    · rw [ha]
      exact ⟨Int.le_refl start, hstop⟩
    · obtain ⟨hlow, hhigh⟩ := h.within i hi huse
      exact ⟨by omega, hhigh⟩
  · rw [ha]
    exact (h.within j hj huse).1

theorem foldl_placeBuffers (hnodup : l.Nodup) (hnonneg : ∀ i ∈ l, 0 ≤ (s.mixInfos i).bufferCount) (hstart : 0 ≤ start) (hsame : ∀ i, SameMix (s.mixInfos i) (infos i))
    (hfit : start + (l.map s.buffers).sum < 2 ^ 15) :
    Placed s l start (start + (l.map s.buffers).sum) infos (l.foldl placeBuffers (start, infos)).2 := by
  induction l generalizing start infos with
  | nil => exact ⟨hsame, fun _ => rfl, fun _ _ => rfl, fun i hi => absurd hi List.not_mem_nil, List.Pairwise.nil⟩
  | cons a l ih =>
    obtain ⟨ha, hnodup⟩ := List.nodup_cons.mp hnodup
    have hnonneg' : ∀ i ∈ l, 0 ≤ (s.mixInfos i).bufferCount := fun i hi => hnonneg i (List.mem_cons_of_mem a hi)
    have hrest : 0 ≤ (l.map s.buffers).sum := by
      apply List.sum_nonneg
      intro x hx
      obtain ⟨i, hi, rfl⟩ := List.mem_map.mp hx
      exact buffers_nonneg (hnonneg' i hi)
    rw [List.map_cons, List.sum_cons, ← Int.add_assoc] at hfit ⊢
    rw [List.foldl_cons]
    cases huse : (s.mixInfos a).inUse with
    | false =>
      have hbuffers : s.buffers a = 0 := by simp only [buffers, huse, Bool.false_eq_true, if_false]
      rw [hbuffers, Int.add_zero] at hfit ⊢
      rw [placeBuffers_unused ((hsame a).inUse.trans huse)]
      exact (ih hnodup hnonneg' hstart hsame hfit).unused huse
    | true =>
      have hbuffers : s.buffers a = (infos a).bufferCount := by
        rw [(hsame a).bufferCount]
        simp only [buffers, huse, if_true]
      have hcount : 0 ≤ (infos a).bufferCount := (hsame a).bufferCount ▸ hnonneg a List.mem_cons_self
      rw [hbuffers] at hfit ⊢
      rw [placeBuffers_inUse ((hsame a).inUse.trans huse) hstart hcount (by omega)]
      refine Placed.inUse ha (ih hnodup hnonneg' (by omega) (fun i => ?_) hfit) hcount (by omega)
      by_cases hi : i = a
      · subst hi
        rw [update_self]
        exact (hsame i).trans ⟨rfl, rfl, rfl, rfl⟩
      · rw [update_of_ne hi]
        exact hsame i

/-! ### The result -/

/-- What is asked of the mixes `t` into which `s` is sorted. -/
structure Ordered (s t : MixContext) : Prop where
  perm : t.sortedMixInfos.Perm (List.range s.count)
  before : ∀ i < s.count, (s.mixInfos i).inUse = true → ∀ k, Hops s i (k + 1) →
    t.sortedMixInfos.idxOf i < t.sortedMixInfos.idxOf (s.output i).toNat
  distance : ∀ i < s.count, (s.mixInfos i).inUse = true → RightAt s t i
  disjoint : ∀ i < s.count, ∀ j < s.count, (s.mixInfos i).inUse = true → (s.mixInfos j).inUse = true → i ≠ j →
    Disjoint (t.bufferRange i) (t.bufferRange j)

/-- In a sorted list an element with a greater key stands before one with a smaller key. -/
theorem idxOf_lt_of_pairwise {key : ℕ → ℤ} {a b : ℕ} (h : l.Pairwise fun a b => ¬ key b > key a)
    (ha : a ∈ l) (hb : b ∈ l) (hkey : key b < key a) : l.idxOf a < l.idxOf b := by
  by_contra hcon
  have hne : l.idxOf b ≠ l.idxOf a := fun heq => by
    have hab := List.idxOf_inj hb |>.mp heq
    rw [hab] at hkey
    exact Int.lt_irrefl _ hkey
  have hlt : l.idxOf b < l.idxOf a := by omega
  have hrel := List.pairwise_iff_getElem.mp h _ _ (List.idxOf_lt_length_of_mem hb) (List.idxOf_lt_length_of_mem ha) hlt
  rw [List.getElem_idxOf, List.getElem_idxOf] at hrel
  exact hrel hkey

/-- The pointers as the sort by distance leaves them. -/
def sortedBy (t : MixContext) (sort : RangesSort) : List ℕ :=
  sort.run (fun lhs rhs => decide (t.distance lhs > t.distance rhs)) t.sortedMixInfos

theorem sortInfo_eq {sort : RangesSort} (h : s.updateDistancesFromFinalMix = .ok t) :
    s.sortInfo sort = .ok ({ t with sortedMixInfos := t.sortedBy sort } : MixContext).calcMixBufferOffset := by
  rw [sortInfo, h]
  rfl

/-- The mix that a mix with hops to the final mix outputs to is one of the context, and nearer. -/
theorem output_nearer {k : ℕ} (hright : Right s t s.count)
    (hunused : ∀ i < s.count, (s.mixInfos i).inUse = false → t.distance i = invalidDistanceFromFinalMix)
    (hi : i < s.count) (hk : Hops s i (k + 1)) :
    (s.output i).toNat < s.count ∧ t.distance (s.output i).toNat < ((k + 1 : ℕ) : ℤ) := by
  obtain ⟨-, hrest⟩ := hk.succ
  have hin : 0 ≤ s.output i ∧ s.output i < s.count := by
    cases k with
    | zero =>
      rw [hrest.zero, finalMixId]
      omega
    | succ k =>
      have hlink := hrest.succ.1
      exact ⟨hlink.nonneg, hlink.lt⟩
  have hid : (((s.output i).toNat : ℕ) : ℤ) = s.output i := Int.toNat_of_nonneg hin.1
  have hlt : (s.output i).toNat < s.count := by omega
  refine ⟨hlt, ?_⟩
  cases huse : (s.mixInfos (s.output i).toNat).inUse with
  | true =>
    rw [(hright _ hlt huse).hops k (hid.symm ▸ hrest)]
    omega
  | false =>
    rw [hunused _ hlt huse, invalidDistanceFromFinalMix]
    omega

/-- **The order of the mixes.** Whatever the sort does with equal distances, the mixes are ordered
exactly when the chain of each mix in use meets an earlier mix at once or not at all. -/
theorem sortInfo_ordered_iff {s : MixContext} (hvalid : s.Valid)
    (hleaves : ∀ i < s.count, (s.mixInfos i).inUse = true → ¬ s.Leaves i) (sort : RangesSort) :
    (∃ t, s.sortInfo sort = .ok t ∧ Ordered s t) ↔
      ∀ i < s.count, (s.mixInfos i).inUse = true → ∀ k, Hops s i k → s.Direct i := by
  obtain ⟨t, ht, hsame, hsorted, hunused, hiff⟩ := updateDistancesFromFinalMix_spec hvalid hleaves
  rw [← hiff, sortInfo_eq ht]
  set l := t.sortedBy sort with hl
  have hperm : l.Perm (List.range s.count) := hsorted ▸ sort.perm _ _
  have hpairwise : l.Pairwise fun a b => ¬ t.distance b > t.distance a := sort.sorted t.distance _
  have hmem : ∀ i, i ∈ l ↔ i < s.count := fun i => by rw [hperm.mem_iff, List.mem_range]
  have hsum : (l.map s.buffers).sum < 2 ^ 15 := by
    rw [(hperm.map s.buffers).sum_eq]
    exact hvalid.total
  have hplaced := foldl_placeBuffers (s := s) (l := l) (hperm.nodup_iff.mpr List.nodup_range)
    (fun i hi => hvalid.nonneg i ((hmem i).mp hi)) (Int.le_refl 0) hsame.mix (by rwa [Int.zero_add])
  set t' := ({ t with sortedMixInfos := l } : MixContext).calcMixBufferOffset with ht'
  have hdistance : ∀ i, t'.distance i = t.distance i := hplaced.distance
  have hright : ∀ i, RightAt s t' i ↔ RightAt s t i := fun i => by
    constructor
    · rintro ⟨hhops, hendless⟩
      exact ⟨fun k hk => hdistance i ▸ hhops k hk, fun hk => hdistance i ▸ hendless hk⟩
    · rintro ⟨hhops, hendless⟩
      exact ⟨fun k hk => (hdistance i).trans (hhops k hk), fun hk => (hdistance i).trans (hendless hk)⟩
  constructor
  · rintro ⟨u, hu, hordered⟩ i hi huse
    rw [Except.ok.injEq] at hu
    exact (hright i).mp (hu ▸ hordered.distance i hi huse)
  · intro hall
    refine ⟨t', rfl, hperm, fun i hi huse k hk => ?_, fun i hi huse => (hright i).mpr (hall i hi huse), ?_⟩
    · obtain ⟨hlt, hnearer⟩ := output_nearer hall hunused hi hk
      rw [← (hall i hi huse).hops (k + 1) hk] at hnearer
      exact idxOf_lt_of_pairwise hpairwise ((hmem i).mpr hi) ((hmem _).mpr hlt) hnearer
    · intro i hi j hj husei husej hij
      have hdisjoint : l.Pairwise fun i j => (s.mixInfos i).inUse = true → (s.mixInfos j).inUse = true →
          Disjoint (t'.bufferRange i) (t'.bufferRange j) := by
        refine hplaced.apart.imp fun h husei husej => Set.disjoint_left.mpr fun x hx hx' => ?_
        have hle := h husei husej
        exact absurd (hx.2.trans_le hle) (not_lt.mpr hx'.1)
      have hsymm : Std.Symm fun i j => (s.mixInfos i).inUse = true → (s.mixInfos j).inUse = true →
          Disjoint (t'.bufferRange i) (t'.bufferRange j) := ⟨fun _ _ h husei husej => (h husej husei).symm⟩
      exact hdisjoint.forall ((hmem i).mpr hi) ((hmem j).mpr hj) hij husei husej

/-! ### Examples -/

/-- The stable sort by insertion. -/
def insertionSort : RangesSort where
  run lt l := l.insertionSort fun a b => lt b a = false
  perm lt l := List.perm_insertionSort _ l
  sorted key l := by
    have hiff : ∀ a b, decide (key b > key a) = false ↔ ¬ key b > key a := fun a b => decide_eq_false_iff_not
    have htotal : Std.Total fun a b => decide (key b > key a) = false := ⟨fun a b => by rw [hiff, hiff]; omega⟩
    have htrans : IsTrans ℕ fun a b => decide (key b > key a) = false :=
      ⟨fun a b c hab hbc => by rw [hiff] at *; omega⟩
    exact (List.pairwise_insertionSort _ l).imp fun h => (hiff _ _).mp h

/-- A mix in use, with two buffers. -/
def mixTo (mixId dstMixId : ℤ) : MixInfo where
  bufferCount := 2
  inUse := true
  mixId := mixId
  bufferOffset := 0
  distanceFromFinalMix := invalidDistanceFromFinalMix
  dstMixId := dstMixId

/-- The mixes 1 and 2 output to the final mix. -/
def twoToFinal : MixContext where
  count := 3
  mixInfos i := mixTo i (if i = 0 then unusedMixId else finalMixId)
  sortedMixInfos := [0, 1, 2]

theorem twoToFinal_valid : twoToFinal.Valid where
  count_le := by decide
  length := rfl
  ownId := fun _ _ _ => rfl
  nonneg := fun _ _ => Int.zero_le_ofNat 2
  total := by decide

theorem twoToFinal_hops {i : ℕ} (hi : i < 3) : ∃ k, Hops twoToFinal i k := by
  by_cases h0 : i = 0
  · subst h0
    exact ⟨0, .final⟩
  · have hfinal : twoToFinal.output i = finalMixId := if_neg h0
    refine ⟨1, .next ⟨?_, ?_, Int.natCast_nonneg i, Int.ofNat_lt.mpr hi⟩ (hfinal ▸ .final)⟩
    · rw [finalMixId]
      omega
    · rw [unusedMixId]
      omega

theorem sortInfo_ordered_iff_twoToFinal :
    (∃ t, twoToFinal.sortInfo insertionSort = .ok t ∧ Ordered twoToFinal t) ↔
      ∀ i < 3, (twoToFinal.mixInfos i).inUse = true → ∀ k, Hops twoToFinal i k → twoToFinal.Direct i :=
  sortInfo_ordered_iff twoToFinal_valid (fun _ hi _ => (twoToFinal_hops hi).choose_spec.not_leaves) insertionSort

/-- The chain of mix 2 goes to mix 3, then to mix 1, whose distance is known by then, and to the final mix. -/
def shortcutAfterHop : MixContext where
  count := 4
  mixInfos i := mixTo i (if i = 1 then finalMixId else if i = 2 then 3 else if i = 3 then 1 else unusedMixId)
  sortedMixInfos := [0, 1, 2, 3]

/-- Mix 2 gets the distance 2, but it has three hops to the final mix. -/
theorem sortInfo_shortcutAfterHop :
    Hops shortcutAfterHop 2 3 ∧ ∃ t, shortcutAfterHop.sortInfo insertionSort = .ok t ∧ t.distance 2 = 2 ∧
      ¬ Ordered shortcutAfterHop t := by
  have hhops : Hops shortcutAfterHop 2 3 :=
    .next (by constructor <;> decide) (.next (by constructor <;> decide) (.next (by constructor <;> decide) .final))
  refine ⟨hhops, _, rfl, rfl, fun h => ?_⟩
  have hdistance := (h.distance 2 (by decide) rfl).hops 3 hhops
  have htwo : (2 : ℤ) = ((3 : ℕ) : ℤ) := hdistance
  omega

end MixContext
end Renderer
end AudioCore
end Citron
