/-
# Mixes without splitters

`MixContext::SortInfo`: the distances of the mixes from the final mix, the sort by distance and the
buffer offsets that follow from it. `std::ranges::sort` need not be stable, so it is any function
that permutes its list and leaves no later element that compares before an earlier one.
-/
import Mathlib
import Citron.Lib.Folds

namespace Citron
namespace AudioCore
namespace Renderer

open Finset

def finalMixId : ℤ := 0

def unusedMixId : ℤ := 2 ^ 31 - 1

def invalidDistanceFromFinalMix : ℤ := -2 ^ 31

/-- `bufferCount` and `bufferOffset` are 16 bits wide, the ids and the distance 32. -/
structure MixInfo where
  bufferCount : ℤ
  inUse : Bool
  mixId : ℤ
  bufferOffset : ℤ
  distanceFromFinalMix : ℤ
  dstMixId : ℤ

/-- The mixes of a context have indices below `count`; a pointer to one is its index. -/
structure MixContext where
  count : ℕ
  mixInfos : ℕ → MixInfo
  sortedMixInfos : List ℕ

/-- `std::ranges::sort` on pointers, with the documented effect for comparisons of a key. -/
structure RangesSort where
  run : (ℕ → ℕ → Bool) → List ℕ → List ℕ
  perm : ∀ lt l, (run lt l).Perm l
  sorted : ∀ (key : ℕ → ℤ) l, (run (fun a b => decide (key a > key b)) l).Pairwise fun a b => ¬ key b > key a

/-- An id that is no index of a mix is used as one. -/
inductive MixFault
  | outOfRange (id : ℤ)

namespace MixContext

variable (s : MixContext)

def getInfo (id : ℤ) : Except MixFault MixInfo :=
  if 0 ≤ id ∧ id < s.count then .ok (s.mixInfos id.toNat) else .error (.outOfRange id)

/-- The loop along the chain of a mix, with `turns` turns left before `distanceToFinalMix` is `count`. -/
def distanceToFinalMix : ℕ → ℤ → ℤ → Except MixFault ℤ
  | 0, _, distance => .ok distance
  | turns + 1, mixId, distance =>
    if mixId = finalMixId then .ok distance
    else if mixId = unusedMixId then .ok invalidDistanceFromFinalMix
    else do
      let info ← s.getInfo mixId
      if info.distanceFromFinalMix ≠ invalidDistanceFromFinalMix then
        return info.distanceFromFinalMix + 1
      distanceToFinalMix turns info.dstMixId (distance + 1)

def setDistance (i : ℕ) (distance : ℤ) : MixContext :=
  { s with mixInfos := Function.update s.mixInfos i { s.mixInfos i with distanceFromFinalMix := distance } }

/-- The pointer to mix `i` at its own place. -/
def point (i : ℕ) : MixContext := { s with sortedMixInfos := s.sortedMixInfos.set i i }

/-- The body of the loop of `UpdateDistancesFromFinalMix`. -/
def updateDistance (s : MixContext) (i : ℕ) : Except MixFault MixContext := do
  let s := s.point i
  if !(s.mixInfos i).inUse then return s
  let distance ← s.distanceToFinalMix s.count (s.mixInfos i).mixId finalMixId
  return s.setDistance i (if distance ≥ s.count then invalidDistanceFromFinalMix else distance)

def clearDistances : MixContext :=
  { s with mixInfos := fun i =>
      if i < s.count then { s.mixInfos i with distanceFromFinalMix := invalidDistanceFromFinalMix } else s.mixInfos i }

def updateDistancesFromFinalMix : Except MixFault MixContext :=
  (List.range s.count).foldlM updateDistance s.clearDistances

/-- The body of the loop of `CalcMixBufferOffset`; the offset wraps at 16 bits. -/
def placeBuffers (st : ℤ × (ℕ → MixInfo)) (i : ℕ) : ℤ × (ℕ → MixInfo) :=
  if (st.2 i).inUse then
    ((st.1 + (st.2 i).bufferCount).bmod (2 ^ 16), Function.update st.2 i { st.2 i with bufferOffset := st.1 })
  else st

def calcMixBufferOffset : MixContext :=
  { s with mixInfos := (s.sortedMixInfos.foldl placeBuffers (0, s.mixInfos)).2 }

def sortInfo (sort : RangesSort) : Except MixFault MixContext := do
  let s ← s.updateDistancesFromFinalMix
  let sorted := sort.run (fun lhs rhs =>
    decide ((s.mixInfos lhs).distanceFromFinalMix > (s.mixInfos rhs).distanceFromFinalMix)) s.sortedMixInfos
  return { s with sortedMixInfos := sorted }.calcMixBufferOffset

end MixContext

/-! ## Chains of mixes

A mix outputs to another mix, and so on, to the final mix, to no mix, or around a cycle. The loop
along a chain stops at the first mix whose distance is known and takes one more than that, whatever
it has counted up to there.
-/

namespace MixContext

variable {s t : MixContext} {id : ℤ} {i k : ℕ}

/-- The mix that the mix outputs to. -/
def output (s : MixContext) (id : ℤ) : ℤ := (s.mixInfos id.toNat).dstMixId

/-- The id is that of a mix other than the final one. -/
structure Links (s : MixContext) (id : ℤ) : Prop where
  ne_final : id ≠ finalMixId
  ne_unused : id ≠ unusedMixId
  nonneg : 0 ≤ id
  lt : id < s.count

/-- The chain ends in the final mix, after `k` hops. -/
inductive Hops (s : MixContext) : ℤ → ℕ → Prop
  | final : Hops s finalMixId 0
  | next {id : ℤ} {k : ℕ} (hlink : s.Links id) (h : Hops s (s.output id) k) : Hops s id (k + 1)

/-- The chain comes to an id that is neither a mix nor the unused one. -/
inductive Leaves (s : MixContext) : ℤ → Prop
  | here {id : ℤ} (hfinal : id ≠ finalMixId) (hunused : id ≠ unusedMixId) (hout : ¬ (0 ≤ id ∧ id < s.count)) : Leaves s id
  | next {id : ℤ} (hlink : s.Links id) (h : Leaves s (s.output id)) : Leaves s id

/-- A mix in use, other than the final one, that comes before mix `i`. -/
structure Earlier (s : MixContext) (i : ℕ) (id : ℤ) : Prop where
  ne_final : id ≠ finalMixId
  nonneg : 0 ≤ id
  lt : id < i
  inUse : (s.mixInfos id.toNat).inUse = true

/-- The chain goes through such a mix. -/
inductive Meets (s : MixContext) (i : ℕ) : ℤ → Prop
  | here {id : ℤ} (h : s.Earlier i id) : Meets s i id
  | next {id : ℤ} (hlink : s.Links id) (h : Meets s i (s.output id)) : Meets s i id

/-- The chain of mix `i` meets an earlier mix at once, or not at all. -/
def Direct (s : MixContext) (i : ℕ) : Prop := s.Earlier i (s.output i) ∨ ¬ s.Meets i (s.output i)

/-! ### Hops -/

theorem not_links_final : ¬ s.Links finalMixId := fun h => h.ne_final rfl

theorem Hops.zero (h : Hops s id 0) : id = finalMixId := by
  cases h
  rfl

theorem Hops.succ (h : Hops s id (k + 1)) : s.Links id ∧ Hops s (s.output id) k := by
  cases h with
  | next hlink h => exact ⟨hlink, h⟩

theorem Hops.of_links (hlink : s.Links id) (h : Hops s id k) : ∃ j, k = j + 1 ∧ Hops s (s.output id) j := by
  cases h with
  | final => exact absurd hlink not_links_final
  | @next _ j _ h => exact ⟨j, rfl, h⟩

theorem Hops.unique {j : ℕ} (h : Hops s id k) (h' : Hops s id j) : j = k := by
  induction h generalizing j with
  | final =>
    cases h' with
    | final => rfl
    | next hlink _ => exact absurd hlink not_links_final
  | next hlink _ ih =>
    obtain ⟨l, hl, hrest⟩ := h'.of_links hlink
    rw [hl, ih hrest]

/-- A chain that ends stays among the mixes. -/
theorem Hops.not_leaves (h : Hops s id k) : ¬ s.Leaves id := by
  induction h with
  | final =>
    intro hleaves
    cases hleaves with
    | here hfinal _ _ => exact hfinal rfl
    | next hlink _ => exact not_links_final hlink
  | next hlink _ ih =>
    intro hleaves
    cases hleaves with
    | here _ _ hout => exact hout ⟨hlink.nonneg, hlink.lt⟩
    | next _ hrest => exact ih hrest

/-- A chain does not go through a mix twice before it ends, so it has fewer hops than there are mixes. -/
theorem Hops.lt_count (h : Hops s id k) (hpos : 0 < s.count) : k < s.count := by
  have hids : ∃ ids : Finset ℕ, ids ⊆ Finset.range s.count ∧ ids.card = k + 1 ∧ ∀ x ∈ ids, ∃ j ≤ k, Hops s x j := by
    induction h with
    | final =>
      refine ⟨{0}, fun x hx => ?_, card_singleton 0, fun x hx => ?_⟩
      · rw [mem_singleton.mp hx, mem_range]
        exact hpos
      · rw [mem_singleton.mp hx]
        exact ⟨0, Nat.le_refl 0, Hops.final⟩
    | @next id k hlink h ih =>
      obtain ⟨ids, hsub, hcard, hhops⟩ := ih
      have hid : ((id.toNat : ℕ) : ℤ) = id := Int.toNat_of_nonneg hlink.nonneg
      have hwhole : Hops s ((id.toNat : ℕ) : ℤ) (k + 1) := hid.symm ▸ Hops.next hlink h
      have hnew : id.toNat ∉ ids := fun hmem => by
        obtain ⟨j, hj, hj'⟩ := hhops _ hmem
        have heq := hwhole.unique hj'
        omega
      refine ⟨insert id.toNat ids, fun x hx => ?_, ?_, fun x hx => ?_⟩
      · rcases mem_insert.mp hx with rfl | hx
        · have hlt := hlink.lt
          rw [mem_range]
          omega
        · exact hsub hx
      · rw [card_insert_of_notMem hnew, hcard]
      · rcases mem_insert.mp hx with rfl | hx
        · exact ⟨k + 1, Nat.le_refl _, hwhole⟩
        · obtain ⟨j, hj, hj'⟩ := hhops x hx
          exact ⟨j, Nat.le_succ_of_le hj, hj'⟩
  obtain ⟨ids, hsub, hcard, -⟩ := hids
  have hle := card_le_card hsub
  rw [hcard, card_range] at hle
  exact hle

/-! ### Contexts that differ in their distances -/

/-- The mixes differ in their distances and buffer offsets only. -/
structure SameMix (x y : MixInfo) : Prop where
  inUse : y.inUse = x.inUse
  mixId : y.mixId = x.mixId
  dstMixId : y.dstMixId = x.dstMixId
  bufferCount : y.bufferCount = x.bufferCount

theorem SameMix.refl (x : MixInfo) : SameMix x x := ⟨rfl, rfl, rfl, rfl⟩

theorem SameMix.trans {x y z : MixInfo} (h : SameMix x y) (h' : SameMix y z) : SameMix x z :=
  ⟨h'.inUse.trans h.inUse, h'.mixId.trans h.mixId, h'.dstMixId.trans h.dstMixId, h'.bufferCount.trans h.bufferCount⟩

/-- What the distances are worked out from has not changed. -/
structure SameChains (s t : MixContext) : Prop where
  count : t.count = s.count
  mix : ∀ i, SameMix (s.mixInfos i) (t.mixInfos i)

def distance (s : MixContext) (i : ℕ) : ℤ := (s.mixInfos i).distanceFromFinalMix

/-- The distance is the number of hops to the final mix, and invalid when the chain does not get there. -/
structure RightAt (s t : MixContext) (i : ℕ) : Prop where
  hops : ∀ k : ℕ, Hops s i k → t.distance i = k
  endless : (¬ ∃ k, Hops s i k) → t.distance i = invalidDistanceFromFinalMix

/-- The distances of the mixes before `i` are right. -/
def Right (s t : MixContext) (i : ℕ) : Prop := ∀ j < i, (s.mixInfos j).inUse = true → RightAt s t j

/-- The mixes from `i` on have no distance yet, nor have those that are not in use. -/
def Blank (s t : MixContext) (i : ℕ) : Prop :=
  ∀ j < s.count, i ≤ j ∨ (s.mixInfos j).inUse = false → t.distance j = invalidDistanceFromFinalMix

theorem ne_invalid (k : ℕ) : (k : ℤ) ≠ invalidDistanceFromFinalMix := by
  rw [invalidDistanceFromFinalMix]
  omega

/-! ### The loop along a chain -/

theorem getInfo_of_links (hsame : SameChains s t) (hlink : s.Links id) : t.getInfo id = .ok (t.mixInfos id.toNat) :=
  if_pos ⟨hlink.nonneg, hsame.count ▸ hlink.lt⟩

/-- A turn of the loop at a mix. -/
theorem distanceToFinalMix_links (hsame : SameChains s t) (hlink : s.Links id) (turns : ℕ) (d : ℤ) :
    t.distanceToFinalMix (turns + 1) id d =
      if t.distance id.toNat ≠ invalidDistanceFromFinalMix then .ok (t.distance id.toNat + 1)
      else t.distanceToFinalMix turns (s.output id) (d + 1) := by
  rw [distanceToFinalMix, if_neg hlink.ne_final, if_neg hlink.ne_unused, getInfo_of_links hsame hlink, output,
    ← (hsame.mix _).dstMixId]
  by_cases hd : t.distance id.toNat ≠ invalidDistanceFromFinalMix
  · rw [if_pos hd]
    exact if_pos hd
  · rw [if_neg hd]
    exact if_neg hd

theorem Earlier.distance (hright : Right s t i) (h : s.Earlier i id) (hhops : Hops s id k) : t.distance id.toNat = k := by
  have hid : ((id.toNat : ℕ) : ℤ) = id := Int.toNat_of_nonneg h.nonneg
  have hlt := h.lt
  exact (hright id.toNat (by omega) h.inUse).hops k (hid.symm ▸ hhops)

/-- A mix with a distance is an earlier one, and its chain ends. -/
theorem Right.earlier (hright : Right s t i) (hblank : Blank s t i) (hlink : s.Links id)
    (hd : t.distance id.toNat ≠ invalidDistanceFromFinalMix) : s.Earlier i id ∧ ∃ k, Hops s id k := by
  have hid : ((id.toNat : ℕ) : ℤ) = id := Int.toNat_of_nonneg hlink.nonneg
  have hlt := hlink.lt
  have hknown : id.toNat < i ∧ (s.mixInfos id.toNat).inUse = true := by
    by_contra hcon
    refine hd (hblank id.toNat (by omega) ?_)
    rw [not_and_or, not_lt, Bool.not_eq_true] at hcon
    exact hcon
  refine ⟨⟨hlink.ne_final, hlink.nonneg, by omega, hknown.2⟩, ?_⟩
  by_contra hcon
  exact hd ((hright id.toNat hknown.1 hknown.2).endless (hid.symm ▸ hcon))

section

variable (hsame : SameChains s t) (hright : Right s t i)
include hsame hright

/-- The chain comes to the final mix without a shortcut. -/
theorem distanceToFinalMix_hops (hblank : Blank s t i)
    (h : Hops s id k) (hmeets : ¬ s.Meets i id) {turns : ℕ} (hturns : k < turns) (d : ℤ) :
    t.distanceToFinalMix turns id d = .ok (d + k) := by
  induction h generalizing turns d with
  | final =>
    obtain ⟨turns, rfl⟩ : ∃ u, turns = u + 1 := ⟨turns - 1, by omega⟩
    rw [distanceToFinalMix, if_pos rfl, Int.natCast_zero, Int.add_zero]
  | @next id k hlink h ih =>
    obtain ⟨turns, rfl⟩ : ∃ u, turns = u + 1 := ⟨turns - 1, by omega⟩
    have hd : ¬ t.distance id.toNat ≠ invalidDistanceFromFinalMix := fun hd =>
      hmeets (.here (hright.earlier hblank hlink hd).1)
    rw [distanceToFinalMix_links hsame hlink, if_neg hd, ih (fun hm => hmeets (.next hlink hm)) (by omega)]
    congr 1
    omega

/-- At an earlier mix the loop stops with one more than its distance. -/
theorem distanceToFinalMix_earlier (h : Hops s id k)
    (hearlier : s.Earlier i id) {turns : ℕ} (hturns : k < turns) (d : ℤ) :
    t.distanceToFinalMix turns id d = .ok (k + 1) := by
  obtain ⟨turns, rfl⟩ : ∃ u, turns = u + 1 := ⟨turns - 1, by omega⟩
  cases h with
  | final => exact absurd rfl hearlier.ne_final
  | @next _ k hlink h =>
    have hd := hearlier.distance hright (.next hlink h)
    rw [distanceToFinalMix_links hsame hlink, hd, if_pos (ne_invalid (k + 1))]

/-- A shortcut further down loses the hops that were counted before it. -/
theorem distanceToFinalMix_meets (hblank : Blank s t i)
    (h : Hops s id k) (hmeets : s.Meets i id) (hearlier : ¬ s.Earlier i id) {turns : ℕ} (hturns : k < turns) (d : ℤ) :
    ∃ r : ℕ, t.distanceToFinalMix turns id d = .ok (r : ℤ) ∧ r ≤ k := by
  induction h generalizing turns d with
  | final =>
    cases hmeets with
    | here h => exact absurd h hearlier
    | next hlink _ => exact absurd hlink not_links_final
  | @next id k hlink h ih =>
    obtain ⟨turns, rfl⟩ : ∃ u, turns = u + 1 := ⟨turns - 1, by omega⟩
    have hd : ¬ t.distance id.toNat ≠ invalidDistanceFromFinalMix := fun hd =>
      hearlier (hright.earlier hblank hlink hd).1
    have hmeets' : s.Meets i (s.output id) := by
      cases hmeets with
      | here h => exact absurd h hearlier
      | next _ h => exact h
    rw [distanceToFinalMix_links hsame hlink, if_neg hd]
    by_cases hnext : s.Earlier i (s.output id)
    · exact ⟨k + 1, distanceToFinalMix_earlier hsame hright h hnext (by omega) _, Nat.le_refl _⟩
    · obtain ⟨r, hr, hle⟩ := ih hmeets' hnext (Nat.lt_of_succ_lt_succ hturns) (d + 1)
      exact ⟨r, hr, Nat.le_succ_of_le hle⟩

/-- A chain that does not end comes to the unused id or uses up its turns. -/
theorem distanceToFinalMix_endless (hblank : Blank s t i) {turns : ℕ}
    (hends : ¬ ∃ k, Hops s id k) (hleaves : ¬ s.Leaves id) (d : ℤ) :
    t.distanceToFinalMix turns id d = .ok invalidDistanceFromFinalMix ∨
      t.distanceToFinalMix turns id d = .ok (d + turns) := by
  induction turns generalizing id d with
  | zero =>
    refine .inr ?_
    rw [distanceToFinalMix, Int.natCast_zero, Int.add_zero]
  | succ turns ih =>
    have hfinal : id ≠ finalMixId := by
      rintro rfl
      exact hends ⟨0, .final⟩
    by_cases hunused : id = unusedMixId
    · refine .inl ?_
      rw [distanceToFinalMix, if_neg hfinal, if_pos hunused]
    · have hin : 0 ≤ id ∧ id < s.count := by
        by_contra hout
        exact hleaves (.here hfinal hunused hout)
      have hlink : s.Links id := ⟨hfinal, hunused, hin.1, hin.2⟩
      have hd : ¬ t.distance id.toNat ≠ invalidDistanceFromFinalMix := fun hd =>
        hends (hright.earlier hblank hlink hd).2
      rw [distanceToFinalMix_links hsame hlink, if_neg hd]
      have hnext := @ih (s.output id) (fun ⟨k, hk⟩ => hends ⟨k + 1, .next hlink hk⟩) (fun hl => hleaves (.next hlink hl))
        (d + 1)
      have hsum : d + 1 + (turns : ℤ) = d + ((turns + 1 : ℕ) : ℤ) := by
        omega
      rwa [hsum] at hnext

end

/-- Whatever the distances are, the loop stays among the mixes. -/
theorem distanceToFinalMix_ok (hsame : SameChains s t) (hleaves : ¬ s.Leaves id) (turns : ℕ) (d : ℤ) :
    ∃ r, t.distanceToFinalMix turns id d = .ok r := by
  induction turns generalizing id d with
  | zero => exact ⟨d, rfl⟩
  | succ turns ih =>
    by_cases hfinal : id = finalMixId
    · exact ⟨d, by rw [distanceToFinalMix, if_pos hfinal]⟩
    by_cases hunused : id = unusedMixId
    · exact ⟨_, by rw [distanceToFinalMix, if_neg hfinal, if_pos hunused]⟩
    have hin : 0 ≤ id ∧ id < s.count := by
      by_contra hout
      exact hleaves (.here hfinal hunused hout)
    have hlink : s.Links id := ⟨hfinal, hunused, hin.1, hin.2⟩
    rw [distanceToFinalMix_links hsame hlink]
    by_cases hd : t.distance id.toNat ≠ invalidDistanceFromFinalMix
    · exact ⟨_, if_pos hd⟩
    · rw [if_neg hd]
      exact ih (fun hl => hleaves (.next hlink hl)) (d + 1)

end MixContext
end Renderer
end AudioCore
end Citron
