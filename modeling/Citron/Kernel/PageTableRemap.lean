/-
# Remapping a page group

`RemapPageGroup` maps the pages of a group to a range, with the permission of each memory block, and opens a reference to
each page. It walks the blocks and the nodes of the group at once. Where a node ends inside a block it maps as many pages as
are left of the block, and not of the node: the pages behind the node are mapped over in the next turn, but the references
to them stay (`remapPageGroup_iff`).
-/
import Citron.Kernel.MemoryBlockFreeArea
import Citron.Kernel.MemoryManagerRange
import Citron.Kernel.PageTableGroups

namespace Citron
namespace Kernel
namespace PageTable

open KPageHeap Lib List

/-! ### `Operate` -/

/-- `Common::MemoryPermission` without `HAS_NCE`. -/
structure MemoryPermission where
  read : Bool
  write : Bool
deriving DecidableEq, Repr

def convertToMemoryPermission (perm : KMemoryPermission) : MemoryPermission where
  read := perm &&& .userRead != 0
  write := perm &&& .userWrite != 0

/-- What a map operation changes: the physical page and the permission of each page, and the references to each physical
page. -/
structure MapState where
  mapped : ℕ → Option (ℕ × MemoryPermission)
  refs : ℕ → ℕ

/-- `Operate` with `OperationType::Map`. -/
def operateMap (isHeap : ℕ → Bool) (s : MapState) (virtAddr numPages physAddr : ℕ) (perm : KMemoryPermission) : MapState where
  mapped page :=
    if virtAddr / PageSize ≤ page ∧ page < virtAddr / PageSize + numPages then
      some (physAddr / PageSize + (page - virtAddr / PageSize), convertToMemoryPermission perm)
    else s.mapped page
  refs :=
    if isHeap physAddr then addRefs s.refs (physAddr / PageSize) (physAddr / PageSize + numPages) else s.refs

/-- The references are those of the memory manager: as long as no count overflows, opening the pages is what `Open` does. -/
theorem operateMap_open {σ : Type} {mm : KMemoryManager σ} {es : List Extent} {F : Set ℕ} {s : MapState} {isHeap : ℕ → Bool}
    {virtAddr first n : ℕ} {perm : KMemoryPermission} (h : mm.State es F s.refs)
    (hheap : isHeap (first * PageSize) = true) (hin : Set.Ico first (first + n) ⊆ pagesOf es)
    (hcount : ∀ p, first ≤ p → p < first + n → s.refs p + 1 < 65536) :
    ∃ mm', mm.openPages (first * PageSize) n = some mm' ∧
      mm'.State es F (operateMap isHeap s virtAddr n (first * PageSize) perm).refs := by
  obtain ⟨mm', hrun, hstate⟩ := h.openRange (le_refl n) hin hcount
  refine ⟨mm', hrun, ?_⟩
  unfold operateMap
  simp only [hheap, if_true, Nat.mul_div_cancel _ (by decide : 0 < PageSize)]
  exact hstate

/-! ### `RemapPageGroup` -/

variable (isHeap : ℕ → Bool)

theorem length_of_updateCurrentIterator {it next : BlockCursor} (h : it.updateCurrentIterator = some next) :
    next.rest.length ≤ it.rest.length ∧ (next.curBlockPages = 0 → next.rest.length < it.rest.length) := by
  unfold BlockCursor.updateCurrentIterator at h
  split_ifs at h with hzero
  · split at h
    · cases h
    · next block rest hrest =>
      obtain rfl := Option.some.inj h
      rw [hrest]
      simp
  · obtain rfl := Option.some.inj h
    exact ⟨le_refl _, fun h => absurd h hzero⟩

/-- The loop over the pages of a block; reading past the end of the group is `none`. -/
def mapBlockPages (perm : KMemoryPermission) (it : BlockCursor) (mapAddress mapPages : ℕ) (s : MapState) :
    Option (BlockCursor × MapState) :=
  if hpages : 0 < mapPages then
    match hnext : it.updateCurrentIterator with
    | none => none
    | some next =>
      let curPages := min next.curBlockPages mapPages
      have hdecreasing : next.rest.length + (mapPages - curPages) < it.rest.length + mapPages := by
        obtain ⟨hle, hlt⟩ := length_of_updateCurrentIterator hnext
        rcases Nat.eq_zero_or_pos next.curBlockPages with hzero | hpos
        · have hshorter := hlt hzero
          omega
        · omega
      -- All that is left of the block is mapped.
      let s := operateMap isHeap s mapAddress mapPages next.curBlockAddress perm
      mapBlockPages perm
        ⟨next.curBlockAddress + curPages * PageSize, next.curBlockPages - curPages, next.rest⟩
        (mapAddress + curPages * PageSize) (mapPages - curPages) s
  else some (it, s)
termination_by it.rest.length + mapPages

/-- The loop over the blocks; stepping past the last one is `none`. -/
def remapLoop (startAddress endAddress : ℕ) : List KMemoryBlock → BlockCursor → MapState → Option MapState
  | [], _, _ => none
  | info :: its, it, s =>
    let mapAddress := max info.address startAddress
    let mapEndAddress := min info.getEndAddress endAddress
    match mapBlockPages isHeap info.permission it mapAddress ((mapEndAddress - mapAddress) / PageSize) s with
    | none => none
    | some (it, s) =>
      if endAddress - 1 ≤ info.getLastAddress then some s else remapLoop startAddress endAddress its it s

def remapPageGroup (m : KMemoryBlockManager) (address size : ℕ) (pg : KPageGroup) (s : MapState) : Option MapState :=
  match pg.blocks with
  | [] => none
  | block :: rest =>
    remapLoop isHeap address (address + size) (findIterator m.tree address).rest
      ⟨block.getAddress, block.numPages, rest⟩ s

/-! ### What a step maps and opens -/

variable {isHeap} {s s₁ s₂ : MapState} {v k n x : ℕ} {ps qs : List (ℕ × MemoryPermission)} {extra extra' : List ℕ}

/-- From a page on some physical pages are mapped, a reference to each of them is opened, and references to some more. -/
structure Remaps (s s' : MapState) (v : ℕ) (ps : List (ℕ × MemoryPermission)) (extra : List ℕ) : Prop where
  mapped : ∀ page, s'.mapped page = if v ≤ page ∧ page < v + ps.length then ps[page - v]? else s.mapped page
  refs : ∀ p, s'.refs p = s.refs p + (ps.map (·.1)).count p + extra.count p

theorem Remaps.refl (s : MapState) (v : ℕ) : Remaps s s v [] [] where
  mapped page := by
    rw [if_neg]
    simp
  refs p := rfl

theorem Remaps.trans (h : Remaps s s₁ v ps extra) (h' : Remaps s₁ s₂ (v + ps.length) qs extra') :
    Remaps s s₂ v (ps ++ qs) (extra ++ extra') where
  mapped page := by
    rw [h'.mapped, h.mapped, length_append]
    by_cases hfirst : v ≤ page ∧ page < v + ps.length
    · rw [if_neg (by omega), if_pos hfirst, if_pos (by omega), getElem?_append_left (by omega)]
    · by_cases hsecond : v + ps.length ≤ page ∧ page < v + ps.length + qs.length
      · rw [if_pos hsecond, if_pos (by omega), getElem?_append_right (by omega)]
        congr 1
        omega
      · rw [if_neg hsecond, if_neg hfirst, if_neg (by omega)]
  refs p := by
    rw [h'.refs, h.refs, map_append, count_append, count_append]
    omega

/-- The pages of a run with a permission. -/
def withPermission (perm : KMemoryPermission) (pages : List ℕ) : List (ℕ × MemoryPermission) :=
  pages.map fun p => (p, convertToMemoryPermission perm)

@[simp] theorem length_withPermission (perm : KMemoryPermission) (pages : List ℕ) :
    (withPermission perm pages).length = pages.length := length_map _

@[simp] theorem map_fst_withPermission (perm : KMemoryPermission) (pages : List ℕ) :
    (withPermission perm pages).map (·.1) = pages := by
  unfold withPermission
  rw [map_map]
  exact map_id _

theorem addRefs_eq (refs : ℕ → ℕ) (a n p : ℕ) : addRefs refs a (a + n) p = refs p + (List.range' a n).count p := by
  unfold addRefs
  split_ifs with h
  · rw [count_eq_one_of_mem (nodup_range' ..) (mem_range'_1.mpr h)]
  · rw [count_eq_zero_of_not_mem fun hmem => h (mem_range'_1.mp hmem)]
    rfl

/-- **An operation on too many pages**: what is behind the first `k` of them is mapped over by what comes next, but the
references to it stay. -/
theorem operateMap_remaps {perm : KMemoryPermission} {first m : ℕ} (hheap : isHeap (first * PageSize) = true) (hk : k ≤ m)
    (hlength : qs.length = m - k)
    (h : Remaps (operateMap isHeap s (v * PageSize) m (first * PageSize) perm) s₂ (v + k) qs extra) :
    Remaps s s₂ v (withPermission perm (List.range' first k) ++ qs) (List.range' (first + k) (m - k) ++ extra) where
  mapped page := by
    rw [h.mapped, length_append, length_withPermission, length_range']
    by_cases hnext : v + k ≤ page ∧ page < v + k + qs.length
    · rw [if_pos hnext, if_pos (by omega), getElem?_append_right (by simp; omega)]
      congr 1
      simp
      omega
    · rw [if_neg hnext]
      unfold operateMap
      simp only [Nat.mul_div_cancel _ (by decide : 0 < PageSize)]
      by_cases hrun : v ≤ page ∧ page < v + m
      · rw [if_pos hrun, if_pos (by omega), getElem?_append_left (by simp; omega)]
        unfold withPermission
        rw [getElem?_map, getElem?_range' (by omega), Option.map_some, Nat.one_mul]
      · rw [if_neg hrun, if_neg (by omega)]
  refs p := by
    rw [h.refs]
    unfold operateMap
    simp only [hheap, if_true, Nat.mul_div_cancel _ (by decide : 0 < PageSize)]
    rw [addRefs_eq, map_append, map_fst_withPermission, count_append, count_append]
    have hsplit : List.range' first m = List.range' first k ++ List.range' (first + k) (m - k) := by
      rw [range'_append_1, Nat.add_sub_cancel' hk]
    rw [hsplit, count_append]
    omega

/-! ### The loop over the pages of a block -/

section Block

variable {perm : KMemoryPermission} {cur : ℕ × ℕ} {rest : List (ℕ × ℕ)} {m : ℕ}

theorem mapBlockPages_zero (it : BlockCursor) (mapAddress : ℕ) :
    mapBlockPages isHeap perm it mapAddress 0 s = some (it, s) := by
  rw [mapBlockPages, dif_neg (Nat.lt_irrefl 0)]

theorem mapBlockPages_step (hm : 0 < m) : mapBlockPages isHeap perm (nodeAt cur rest) (v * PageSize) m s =
    match nextBlock cur rest with
    | none => none
    | some (b, bs) =>
      mapBlockPages isHeap perm (nodeAt (b.1 + min b.2 m, b.2 - min b.2 m) bs) ((v + min b.2 m) * PageSize) (m - min b.2 m)
        (operateMap isHeap s (v * PageSize) m (b.1 * PageSize) perm) := by
  have hupdate := updateCurrentIterator_eq cur rest
  rw [mapBlockPages, dif_pos hm]
  split
  · next hnext =>
    rw [hupdate] at hnext
    cases hblock : nextBlock cur rest with
    | none => rfl
    | some found => rw [hblock] at hnext; cases hnext
  · next next hnext =>
    rw [hupdate] at hnext
    cases hblock : nextBlock cur rest with
    | none => rw [hblock] at hnext; cases hnext
    | some found =>
      rw [hblock] at hnext
      obtain rfl := Option.some.inj hnext
      unfold nodeAt
      simp only [Nat.add_mul]

/-- **The pages of a block**: the next pages of the group are mapped to it, and a reference to each is opened. No further
reference is opened just when no node ends before the block does. -/
theorem mapBlockPages_spec : ∀ {m v : ℕ} {cur : ℕ × ℕ} {rest : List (ℕ × ℕ)} {s : MapState}, (∀ c ∈ rest, 0 < c.2) →
    m ≤ (expand (cur :: rest)).length → (∀ p ∈ expand (cur :: rest), isHeap (p * PageSize) = true) →
    ∃ cur' rest' s' extra, mapBlockPages isHeap perm (nodeAt cur rest) (v * PageSize) m s = some (nodeAt cur' rest', s') ∧
      Remaps s s' v (withPermission perm ((expand (cur :: rest)).take m)) extra ∧
      expand (cur' :: rest') = (expand (cur :: rest)).drop m ∧ (∀ c ∈ rest', c ∈ rest) ∧
      (∀ x, 0 < x → (IsEnd (cur' :: rest') x ↔ IsEnd (cur :: rest) (x + m))) ∧
      (extra = [] ↔ ∀ x, 0 < x → IsEnd (cur :: rest) x → m ≤ x) := by
  intro m
  induction m using Nat.strong_induction_on with
  | _ m ih =>
    intro v cur rest s hrest hlength hheap
    rcases Nat.eq_zero_or_pos m with rfl | hm
    · refine ⟨cur, rest, s, [], mapBlockPages_zero _ _, Remaps.refl s v, rfl, fun c hc => hc, fun x _ => Iff.rfl, ?_⟩
      exact ⟨fun _ x _ _ => Nat.zero_le x, fun _ => rfl⟩
    · have hleft : 0 < (expand (cur :: rest)).length := by omega
      obtain ⟨b, bs, hnext, hb, hbs⟩ := exists_nextBlock hleft hrest
      set k := min b.2 m with hk
      have hkm : k ≤ m := Nat.min_le_right _ _
      have hkb : k ≤ b.2 := Nat.min_le_left _ _
      rw [expand_of_nextBlock hnext, expand_take hkb] at hlength hheap ⊢
      rw [length_append, length_range'] at hlength
      have hfirst : isHeap (b.1 * PageSize) = true :=
        hheap b.1 (mem_append_left _ (mem_range'_1.mpr ⟨le_refl _, by omega⟩))
      set next : List (ℕ × ℕ) := (b.1 + k, b.2 - k) :: bs with hnextBlocks
      obtain ⟨cur', rest', s', extra, hrun, hremaps, hdrop, hsub, hends, hextra⟩ :=
        ih (m - k) (by omega) (fun c hc => hrest c (hbs c hc)) (by omega : m - k ≤ (expand next).length)
          fun p hp => hheap p (mem_append_right _ hp)
      have htaken : ((expand next).take (m - k)).length = m - k := by
        rw [length_take]
        omega
      refine ⟨cur', rest', s', List.range' (b.1 + k) (m - k) ++ extra, ?_, ?_, ?_, fun c hc => hbs c (hsub c hc),
        fun x hx => ?_, ?_⟩
      · rw [mapBlockPages_step hm, hnext]
        exact hrun
      · have htake : (List.range' b.1 k ++ expand next).take m = List.range' b.1 k ++ (expand next).take (m - k) := by
          rw [take_append, length_range', take_of_length_le (by rw [length_range']; exact hkm)]
        rw [htake]
        have hall := operateMap_remaps hfirst hkm (by rw [length_withPermission, htaken]) hremaps
        unfold withPermission at hall ⊢
        rwa [map_append]
      · have hgone : (List.range' b.1 k).drop m = [] := drop_of_length_le (by rw [length_range']; exact hkm)
        rw [hdrop, drop_append, length_range', hgone, nil_append]
      · have hsum : x + (m - k) + k = x + m := by omega
        rw [hends x hx, isEnd_take hkb, hsum, isEnd_of_nextBlock hnext (by omega)]
      · rw [append_eq_nil_iff, hextra, range'_eq_nil_iff]
        constructor
        · rintro ⟨hzero, -⟩ x hx hend
          have hle := le_of_isEnd ((isEnd_of_nextBlock hnext hx).mp hend)
          omega
        · intro h
          have hend := h b.2 hb ((isEnd_of_nextBlock hnext hb).mpr (.inl rfl))
          exact ⟨by omega, fun x _ _ => by omega⟩

end Block

/-! ### The loop over the blocks -/

/-- The pages from an address on, each with the permission of its block. -/
def InBlocks (its : List KMemoryBlock) (address : ℕ) (pages : List ℕ) (ps : List (ℕ × MemoryPermission)) : Prop :=
  ps.map (·.1) = pages ∧ ∀ i < pages.length, ∃ b ∈ its, b.address ≤ address + i * PageSize ∧
    address + i * PageSize < b.getEndAddress ∧ (ps[i]?).map (·.2) = some (convertToMemoryPermission b.permission)

theorem mul_pageSize_lt {a b : ℕ} : a * PageSize < b * PageSize ↔ a < b := Nat.mul_lt_mul_right (by decide)

theorem mul_pageSize_le {a b : ℕ} : a * PageSize ≤ b * PageSize ↔ a ≤ b := Nat.mul_le_mul_right_iff (by decide)

/-- What a block has of a range, in pages. -/
theorem mapPages_eq {info : KMemoryBlock} {start stop w z : ℕ} (hmax : max info.address start = v * PageSize)
    (hend : info.getEndAddress = w * PageSize) (hstop : stop = z * PageSize) :
    (min info.getEndAddress stop - max info.address start) / PageSize = min w z - v := by
  have hmin : min info.getEndAddress stop = min w z * PageSize := by
    rw [hend, hstop]
    rcases Nat.le_total w z with h | h
    · rw [Nat.min_eq_left h, Nat.min_eq_left (mul_pageSize_le.mpr h)]
    · rw [Nat.min_eq_right h, Nat.min_eq_right (mul_pageSize_le.mpr h)]
  rw [hmin, hmax, ← Nat.sub_mul, Nat.mul_div_cancel _ (by decide)]

theorem cutsBlock_cons {info : KMemoryBlock} {its : List KMemoryBlock} {y : ℕ} : CutsBlock (info :: its) y ↔
    (info.address < y ∧ y < info.getEndAddress) ∨ CutsBlock its y := by
  unfold CutsBlock Cuts
  simp only [mem_cons, exists_eq_or_imp]

/-- **The loop over the blocks** maps what is left of the group. No further reference is opened just when no node ends
inside a block. -/
theorem remapLoop_spec {start stop z : ℕ} (hstop : stop = z * PageSize) : ∀ {its : List KMemoryBlock} {a e v : ℕ}
    {cur : ℕ × ℕ} {rest : List (ℕ × ℕ)} {s : MapState}, Spans a its e → PageSize ∣ a → max a start = v * PageSize →
    (∀ b ∈ its, start < b.getEndAddress) → stop ≤ e → v < z → v + (expand (cur :: rest)).length = z →
    (∀ c ∈ rest, 0 < c.2) → (∀ p ∈ expand (cur :: rest), isHeap (p * PageSize) = true) →
    ∃ s' ps extra, remapLoop isHeap start stop its (nodeAt cur rest) s = some s' ∧ Remaps s s' v ps extra ∧
      InBlocks its (v * PageSize) (expand (cur :: rest)) ps ∧
      (extra = [] ↔ ∀ x, 0 < x → x < (expand (cur :: rest)).length → IsEnd (cur :: rest) x →
        ¬ CutsBlock its ((v + x) * PageSize)) := by
  intro its
  induction its with
  | nil =>
    intro a e v cur rest s hspans _ hmax _ hle hlt _ _ _
    have hsame : a = e := hspans
    have hstart : a ≤ v * PageSize := hmax ▸ Nat.le_max_left a start
    have hbefore := mul_pageSize_lt.mpr hlt
    omega
  | cons info its ih =>
    intro a e v cur rest s hspans hdvd hmax hafter hle hlt hlength hrest hheap
    obtain ⟨rfl, hend, htail⟩ := hspans
    have hdvdEnd : PageSize ∣ info.getEndAddress := Nat.dvd_add hdvd (Nat.dvd_mul_left _ _)
    obtain ⟨w, hw⟩ := hdvdEnd
    rw [Nat.mul_comm] at hw
    have hvw : v < w := by
      rw [← mul_pageSize_lt, ← hmax, ← hw]
      exact max_lt hend (hafter info mem_cons_self)
    have hstart : info.address ≤ v * PageSize := hmax ▸ Nat.le_max_left _ _
    have hpages := mapPages_eq hmax hw hstop
    have hfits : min w z - v ≤ (expand (cur :: rest)).length := by omega
    have hblock := @mapBlockPages_spec isHeap info.permission (min w z - v) v cur rest s hrest hfits hheap
    obtain ⟨cur', rest', s₁, extra, hrun, hremaps, hdrop, hsub, hends, hextra⟩ := hblock
    have hloop : remapLoop isHeap start stop (info :: its) (nodeAt cur rest) s =
        if stop - 1 ≤ info.getLastAddress then some s₁ else remapLoop isHeap start stop its (nodeAt cur' rest') s₁ := by
      rw [remapLoop, hpages, hmax, hrun]
    have hlast : stop - 1 ≤ info.getLastAddress ↔ z ≤ w := by
      have hle : z ≤ w ↔ stop ≤ info.getEndAddress := by
        rw [hstop, hw]
        exact mul_pageSize_le.symm
      unfold KMemoryBlock.getLastAddress
      rw [hle]
      omega
    have hinside : ∀ x, 0 < x → v + x < w → CutsBlock (info :: its) ((v + x) * PageSize) := by
      intro x hx hxw
      refine cutsBlock_cons.mpr (.inl ⟨hstart.trans_lt (mul_pageSize_lt.mpr (by omega)), ?_⟩)
      rw [hw]
      exact mul_pageSize_lt.mpr hxw
    by_cases hzw : z ≤ w
    · -- The last block.
      have hall : min w z - v = (expand (cur :: rest)).length := by omega
      rw [hall, take_of_length_le (le_refl _)] at hremaps
      rw [hall] at hextra
      refine ⟨s₁, _, extra, ?_, hremaps, ⟨map_fst_withPermission _ _, fun i hi => ?_⟩, ?_⟩
      · rw [hloop, if_pos (hlast.mpr hzw)]
      · refine ⟨info, mem_cons_self, hstart.trans (Nat.le_add_right _ _), ?_, ?_⟩
        · rw [← Nat.add_mul, hw]
          exact mul_pageSize_lt.mpr (by omega)
        · unfold withPermission
          rw [getElem?_map, getElem?_eq_getElem hi]
          rfl
      · rw [hextra]
        constructor
        · intro h x hx hlt hend
          exact absurd (h x hx hend) (by omega)
        · intro h x hx hend
          by_contra hbefore
          exact h x hx (by omega) hend (hinside x hx (by omega))
    · have hsome : min w z - v = w - v := by omega
      rw [hsome] at hremaps hdrop hends hextra
      have hnext : max info.getEndAddress start = w * PageSize := by
        rw [Nat.max_eq_left (hafter info mem_cons_self).le, hw]
      have hlength' : w + (expand (cur' :: rest')).length = z := by
        rw [hdrop, length_drop]
        omega
      obtain ⟨s', ps, extra', hrun', hremaps', ⟨hpages', hperm'⟩, hextra'⟩ :=
        ih htail (Dvd.intro_left w hw.symm) hnext (fun b hb => hafter b (mem_cons_of_mem _ hb)) hle (by omega) hlength'
          (fun c hc => hrest c (hsub c hc)) (fun p hp => hheap p (mem_of_mem_drop (hdrop ▸ hp)))
      have htaken : ((expand (cur :: rest)).take (w - v)).length = w - v := by
        rw [length_take]
        omega
      refine ⟨s', withPermission info.permission ((expand (cur :: rest)).take (w - v)) ++ ps, extra ++ extra', ?_, ?_,
        ⟨?_, fun i hi => ?_⟩, ?_⟩
      · rw [hloop, if_neg (fun h => hzw (hlast.mp h)), hrun']
      · refine hremaps.trans ?_
        rw [length_withPermission, htaken, Nat.add_sub_cancel' hvw.le]
        exact hremaps'
      · rw [map_append, map_fst_withPermission, hpages', hdrop, take_append_drop]
      · by_cases hfirst : i < w - v
        · refine ⟨info, mem_cons_self, hstart.trans (Nat.le_add_right _ _), ?_, ?_⟩
          · rw [← Nat.add_mul, hw]
            exact mul_pageSize_lt.mpr (by omega)
          · rw [getElem?_append_left (by rw [length_withPermission, htaken]; exact hfirst)]
            unfold withPermission
            rw [getElem?_map, getElem?_take_of_lt hfirst, getElem?_eq_getElem hi]
            rfl
        · obtain ⟨b, hb, hlow, hhigh, hat⟩ := hperm' (i - (w - v)) (by omega)
          have hplace : w * PageSize + (i - (w - v)) * PageSize = v * PageSize + i * PageSize := by
            rw [← Nat.add_mul, ← Nat.add_mul]
            congr 1
            omega
          rw [hplace] at hlow hhigh
          refine ⟨b, mem_cons_of_mem _ hb, hlow, hhigh, ?_⟩
          rw [getElem?_append_right (by rw [length_withPermission, htaken]; omega), length_withPermission, htaken]
          exact hat
      · rw [append_eq_nil_iff, hextra, hextra']
        constructor
        · rintro ⟨hbefore, hbehind⟩ x hx hxlt hend hcut
          have hmx := hbefore x hx hend
          rcases cutsBlock_cons.mp hcut with ⟨-, hin⟩ | ⟨b, hb, hlow, hhigh⟩
          · rw [hw, mul_pageSize_lt] at hin
            omega
          · rcases Nat.eq_or_lt_of_le hmx with heq | hmore
            · have hborder := (htail.bounds b hb).1
              rw [← heq, Nat.add_sub_cancel' hvw.le, ← hw] at hlow
              omega
            · have hplace : v + x = w + (x - (w - v)) := by omega
              refine hbehind (x - (w - v)) (by omega) (by omega) ((hends _ (by omega)).mpr ?_) ⟨b, hb, ?_⟩
              · rwa [Nat.sub_add_cancel hmx]
              · rw [← hplace]
                exact ⟨hlow, hhigh⟩
        · intro h
          refine ⟨fun x hx hend => ?_, fun x hx hxlt hend hcut => ?_⟩
          · by_contra hbefore
            exact h x hx (by omega) hend (hinside x hx (by omega))
          · have hplace : v + (x + (w - v)) = w + x := by omega
            refine h (x + (w - v)) (by omega) (by omega) ((hends x hx).mp hend) (cutsBlock_cons.mpr (.inr ?_))
            rwa [hplace]

/-! ### The whole group -/

/-- The nodes of a group: their first pages and their lengths. -/
def nodes (pg : KPageGroup) : List (ℕ × ℕ) := pg.blocks.map fun block => (block.pageIndex, block.numPages)

theorem map_toBlock_nodes (pg : KPageGroup) : (nodes pg).map toBlock = pg.blocks := by
  unfold nodes
  rw [map_map]
  exact map_id _

theorem pageList_eq (pg : KPageGroup) : pageList pg = expand (nodes pg) :=
  pageList_of_blocks (map_toBlock_nodes pg).symm

theorem length_pageList (pg : KPageGroup) : (pageList pg).length = pg.size := by
  rw [pageList_eq, length_expand]
  unfold nodes KPageGroup.size
  rw [map_map]
  rfl

/-- Counts that grow by one for each page of a list and by one for each further page: they grow by just one, for the pages
of the list only, if the list has no page twice and there is no further page. -/
theorem refs_iff {refs refs' : ℕ → ℕ} {pages extra : List ℕ}
    (h : ∀ p, refs' p = refs p + pages.count p + extra.count p) :
    ((∀ p ∈ pages, refs' p = refs p + 1) ∧ ∀ p, p ∉ pages → refs' p = refs p) ↔ pages.Nodup ∧ extra = [] := by
  constructor
  · rintro ⟨hin, hout⟩
    constructor
    · refine nodup_iff_count_le_one.mpr fun p => ?_
      by_cases hp : p ∈ pages
      · have hone := hin p hp
        rw [h] at hone
        omega
      · rw [count_eq_zero_of_not_mem hp]
        exact Nat.zero_le 1
    · refine eq_nil_iff_forall_not_mem.mpr fun p hp => ?_
      have hextra : 0 < extra.count p := count_pos_iff.mpr hp
      by_cases hmem : p ∈ pages
      · have hone := hin p hmem
        have hcount : 0 < pages.count p := count_pos_iff.mpr hmem
        rw [h] at hone
        omega
      · have hsame := hout p hmem
        rw [h] at hsame
        omega
  · rintro ⟨hnodup, rfl⟩
    refine ⟨fun p hp => ?_, fun p hp => ?_⟩
    · rw [h, count_eq_one_of_mem hnodup hp]
      rfl
    · rw [h, count_eq_zero_of_not_mem hp]
      rfl

variable {m : KMemoryBlockManager} {address : ℕ} {pg : KPageGroup}

/-- **`RemapPageGroup`** maps the pages of the group with the permissions of the blocks, and opens a reference to each of
them. No further reference is opened just when no node but the last ends inside a block. -/
theorem remapPageGroup_spec (hm : WellFormed m) (hr : InRange m address n) (hpg : ∀ block ∈ pg.blocks, 0 < block.numPages)
    (hsize : pg.size = n) (hheap : ∀ p ∈ pageList pg, isHeap (p * PageSize) = true) (s : MapState) :
    ∃ s' ps extra, remapPageGroup isHeap m address (n * PageSize) pg s = some s' ∧ Remaps s s' (address / PageSize) ps extra ∧
      InBlocks m.tree address (pageList pg) ps ∧
      (extra = [] ↔ ∀ x, 0 < x → x < n → IsEnd (nodes pg) x → ¬ CutsBlock m.tree (address + x * PageSize)) := by
  obtain ⟨v, hv⟩ := hr.aligned
  rw [Nat.mul_comm] at hv
  have hpos : 0 < n * PageSize := Nat.mul_pos hr.nonempty (by decide)
  have hle := hr.le_end
  obtain ⟨l₁, b, l₂, htree, h₁, ⟨hlow, hhigh⟩, h₂⟩ := hm.spans.exists_split hr.start_le (by omega : address < m.endAddress)
  have hfind : (findIterator m.tree address).rest = b :: l₂ := by rw [htree, findIterator_eq l₂ h₁ hlow hhigh]
  have hspans : Spans b.address (b :: l₂) m.endAddress := ⟨rfl, by omega, h₂⟩
  have hdvd : PageSize ∣ b.address := (hm.spans.dvd hm.aligned).1 b (htree ▸ mem_append_right _ mem_cons_self)
  have hafter : ∀ c ∈ b :: l₂, address < c.getEndAddress := by
    intro c hc
    rcases mem_cons.mp hc with rfl | hc
    · exact hhigh
    · obtain ⟨hfirst, hlt, -⟩ := h₂.bounds c hc
      omega
  have hcuts : ∀ y, address < y → (CutsBlock m.tree y ↔ CutsBlock (b :: l₂) y) := by
    intro y hy
    rw [htree]
    constructor
    · rintro ⟨c, hc, hcut⟩
      rcases mem_append.mp hc with hc | hc
      · have hend := (h₁.bounds c hc).2.2
        omega
      · exact ⟨c, hc, hcut⟩
    · rintro ⟨c, hc, hcut⟩
      exact ⟨c, mem_append_right _ hc, hcut⟩
  have hlength : (expand (nodes pg)).length = n := by rw [← pageList_eq, length_pageList, hsize]
  rw [pageList_eq] at hheap ⊢
  have hblocks := map_toBlock_nodes pg
  have hpositive : ∀ c ∈ nodes pg, 0 < c.2 := by
    intro c hc
    obtain ⟨block, hblock, rfl⟩ := mem_map.mp hc
    exact hpg block hblock
  cases hnodes : nodes pg with
  | nil =>
    rw [hnodes] at hlength
    exact absurd hlength (Nat.ne_of_lt hr.nonempty)
  | cons cur rest =>
    rw [hnodes] at hheap hlength hblocks hpositive
    have hstop : address + n * PageSize = (v + n) * PageSize := by rw [hv, Nat.add_mul]
    obtain ⟨s', ps, extra, hrun, hremaps, hin, hextra⟩ :=
      remapLoop_spec hstop (s := s) hspans hdvd ((Nat.max_eq_right hlow).trans hv) hafter hle
        (Nat.lt_add_of_pos_right hr.nonempty) (congrArg (v + ·) hlength) (fun c hc => hpositive c (mem_cons_of_mem _ hc))
        hheap
    refine ⟨s', ps, extra, ?_, ?_, ?_, ?_⟩
    · unfold remapPageGroup
      rw [← hblocks, hfind]
      exact hrun
    · rwa [hv, Nat.mul_div_cancel _ (by decide)]
    · rw [hv]
      refine ⟨hin.1, fun i hi => ?_⟩
      obtain ⟨c, hc, hplace⟩ := hin.2 i hi
      exact ⟨c, htree ▸ mem_append_right _ hc, hplace⟩
    · rw [hextra, hlength]
      refine forall_congr' fun x => forall_congr' fun hx => ?_
      have hplace : (v + x) * PageSize = address + x * PageSize := by rw [hv, Nat.add_mul]
      rw [hplace, hcuts _ (Nat.lt_add_of_pos_right (Nat.mul_pos hx (by decide)))]

/-- What the call is to do: page for page the range maps the group, and every page of the group has one more reference. -/
structure RemapsGroup (m : KMemoryBlockManager) (address n : ℕ) (pg : KPageGroup) (s s' : MapState) : Prop where
  mapped : ∀ i < n, ∃ b ∈ m.tree, ∃ p, b.address ≤ address + i * PageSize ∧ address + i * PageSize < b.getEndAddress ∧
    (pageList pg)[i]? = some p ∧
    s'.mapped (address / PageSize + i) = some (p, convertToMemoryPermission b.permission)
  opened : ∀ p ∈ pageList pg, s'.refs p = s.refs p + 1
  kept : ∀ p, p ∉ pageList pg → s'.refs p = s.refs p

/-- **`RemapPageGroup` does what it is to do** just when the group has no page twice and no node but the last ends inside a
block. -/
theorem remapPageGroup_iff (hm : WellFormed m) (hr : InRange m address n) (hpg : ∀ block ∈ pg.blocks, 0 < block.numPages)
    (hsize : pg.size = n) (hheap : ∀ p ∈ pageList pg, isHeap (p * PageSize) = true) (s : MapState) :
    (∃ s', remapPageGroup isHeap m address (n * PageSize) pg s = some s' ∧ RemapsGroup m address n pg s s') ↔
      (pageList pg).Nodup ∧ ∀ x, 0 < x → x < n → IsEnd (nodes pg) x → ¬ CutsBlock m.tree (address + x * PageSize) := by
  obtain ⟨s', ps, extra, hrun, hremaps, ⟨hpages, hperm⟩, hextra⟩ := remapPageGroup_spec hm hr hpg hsize hheap s
  have hlength : (pageList pg).length = n := (length_pageList pg).trans hsize
  have hcounts : ∀ p, s'.refs p = s.refs p + (pageList pg).count p + extra.count p := fun p => by rw [hremaps.refs p, hpages]
  rw [← hextra, ← refs_iff hcounts]
  constructor
  · rintro ⟨s₁, hrun₁, h⟩
    obtain rfl := Option.some.inj (hrun₁.symm.trans hrun)
    exact ⟨h.opened, h.kept⟩
  · rintro ⟨hopened, hkept⟩
    refine ⟨s', hrun, fun i hi => ?_, hopened, hkept⟩
    obtain ⟨b, hb, hlow, hhigh, hat⟩ := hperm i (by omega)
    have hps : ps.length = n := by rw [← hlength, ← hpages, length_map]
    have hget : ps[i]? = some ps[i] := getElem?_eq_getElem (by omega)
    rw [hget, Option.map_some, Option.some.injEq] at hat
    refine ⟨b, hb, ps[i].1, hlow, hhigh, ?_, ?_⟩
    · rw [← hpages, getElem?_map, hget]
      rfl
    · rw [hremaps.mapped, if_pos (by omega), Nat.add_sub_cancel_left, hget, ← hat]

/-- An address space of one block with two pages. -/
def oneBlock : KMemoryBlockManager where
  tree := [{ address := 2 * PageSize, numPages := 2, permission := .userReadWrite }]
  startAddress := 2 * PageSize
  endAddress := 4 * PageSize

theorem oneBlock_wellFormed : WellFormed oneBlock where
  aligned := by decide
  spans := by
    refine ⟨rfl, by decide, ?_⟩
    rfl
  coalesced := by
    unfold Coalesced oneBlock
    simp

theorem oneBlock_inRange : InRange oneBlock (2 * PageSize) 2 := ⟨by decide, by decide, by decide, by decide⟩

/-- Two pages of the heap that follow each other, in one node. -/
theorem remapPageGroup_oneNode : ∃ s', remapPageGroup (fun _ => true) oneBlock (2 * PageSize) (2 * PageSize)
    ⟨[⟨0x80000, 2⟩], 0⟩ ⟨fun _ => none, fun _ => 1⟩ = some s' ∧
      RemapsGroup oneBlock (2 * PageSize) 2 ⟨[⟨0x80000, 2⟩], 0⟩ ⟨fun _ => none, fun _ => 1⟩ s' := by
  refine (remapPageGroup_iff oneBlock_wellFormed oneBlock_inRange (by decide) rfl (fun _ _ => rfl) _).mpr
    ⟨by decide, fun x _ hx hend => ?_⟩
  simp only [nodes, map_cons, map_nil, IsEnd, false_and, exists_false, or_false] at hend
  omega

/-- Two pages of the heap that do not follow each other: a reference is opened to the page behind the first one. -/
theorem remapPageGroup_twoNodes :
    (remapPageGroup (fun _ => true) oneBlock (2 * PageSize) (2 * PageSize) ⟨[⟨0x80000, 1⟩, ⟨0x80010, 1⟩], 0⟩
        ⟨fun _ => none, fun _ => 1⟩).map (fun s' => s'.refs 0x80001) = some 2 ∧
      ¬ ∃ s', remapPageGroup (fun _ => true) oneBlock (2 * PageSize) (2 * PageSize) ⟨[⟨0x80000, 1⟩, ⟨0x80010, 1⟩], 0⟩
          ⟨fun _ => none, fun _ => 1⟩ = some s' ∧
        RemapsGroup oneBlock (2 * PageSize) 2 ⟨[⟨0x80000, 1⟩, ⟨0x80010, 1⟩], 0⟩ ⟨fun _ => none, fun _ => 1⟩ s' := by
  have hrefs : (remapPageGroup (fun _ => true) oneBlock (2 * PageSize) (2 * PageSize)
      ⟨[⟨0x80000, 1⟩, ⟨0x80010, 1⟩], 0⟩ ⟨fun _ => none, fun _ => 1⟩).map (fun s' => s'.refs 0x80001) = some 2 := by
    decide +kernel
  refine ⟨hrefs, ?_⟩
  rintro ⟨s', hrun, h⟩
  rw [hrun, Option.map_some, h.kept 0x80001 (by decide)] at hrefs
  cases hrefs

end PageTable
end Kernel
end Citron
