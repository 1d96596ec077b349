/-
# The device pages of a physical page

The table back from physical pages holds the page itself when one device page is mapped, and a chain
when several are. Each step of `Map` adds a device page to those of one physical page, each step of
`Unmap` takes one out, and the others keep theirs.
-/
import Citron.Core.DeviceMemoryManagerRun
import Citron.Core.MultiAddressContainer

namespace Citron
namespace Core
namespace DeviceMemory
namespace DeviceMemoryManager

open Lib MultiAddressContainer List Function Option

variable {s s' : DeviceMemoryManager} {L L' : ℕ → List (ℕ × ℕ)}

/-- The pages of the device address space. -/
def devicePages : ℕ := 2 ^ 27

/-! ### Numbers with the flag -/

variable {x P d : ℕ}

theorem flag_or (hx : x ≤ devicePages) : multiFlag ||| x = multiFlag + x := by
  have hor := Nat.two_pow_add_eq_or_of_lt (i := multiFlagBits) (hx.trans_lt (by decide)) 1
  rw [Nat.mul_one] at hor
  exact hor.symm

theorem flag_shift (hx : x ≤ devicePages) : (multiFlag ||| x) >>> multiFlagBits = 1 := by
  rw [flag_or hx, Nat.shiftRight_eq_div_pow]
  have hbound : x < 2 ^ 31 := hx.trans_lt (by decide)
  simp only [multiFlag, multiFlagBits]
  omega

theorem flag_mask (hx : x ≤ devicePages) : (multiFlag ||| x) &&& multiMask = x := by
  have hbound : x < 2 ^ 31 := hx.trans_lt (by decide)
  rw [flag_or hx, multiMask, Nat.and_two_pow_sub_one_eq_mod]
  simp only [multiFlag, multiFlagBits]
  omega

theorem page_shift (hx : x < devicePages) : x >>> multiFlagBits = 0 := by
  rw [Nat.shiftRight_eq_div_pow]
  exact Nat.div_eq_of_lt (hx.trans (by decide))

/-! ### The invariant -/

/-- The device pages of a physical page, as the table back has them. -/
def pagesOf (s : DeviceMemoryManager) (L : ℕ → List (ℕ × ℕ)) (P : ℕ) : List ℕ :=
  if L P = [] then if s.compressedDeviceAddr P = 0 then [] else [s.compressedDeviceAddr P] else (L P).map Prod.snd

/-- The form of the table back: chains of two entries at least, flagged, or a page or nothing. -/
structure Stored (s : DeviceMemoryManager) (L : ℕ → List (ℕ × ℕ)) : Prop where
  chains : Chains s.multiDevAddress L []
  base : ∀ P, L P ≠ [] → s.compressedDeviceAddr P = multiFlag ||| startOf (L P)
  two : ∀ P, L P ≠ [] → 2 ≤ (L P).length
  storage : s.multiDevAddress.storage.length ≤ devicePages

/-- The table back holds the pages of the table, each once. -/
structure Inverse (s : DeviceMemoryManager) (L : ℕ → List (ℕ × ℕ)) : Prop where
  nodup : ∀ P, (s.pagesOf L P).Nodup
  mem : ∀ P d, d ∈ s.pagesOf L P ↔ s.table d = P + 1
  bounded : ∀ d, s.table d ≠ 0 → 0 < d ∧ d < devicePages

theorem Inverse.mem_bounded (h : Inverse s L) (hd : d ∈ s.pagesOf L P) : 0 < d ∧ d < devicePages :=
  h.bounded d (by rw [(h.mem P d).mp hd]; exact Nat.succ_ne_zero P)

theorem pagesOf_chain (hP : L P ≠ []) : s.pagesOf L P = (L P).map Prod.snd := if_neg hP

theorem pagesOf_single (hP : L P = []) (hbase : s.compressedDeviceAddr P ≠ 0) :
    s.pagesOf L P = [s.compressedDeviceAddr P] := by
  rw [pagesOf, if_pos hP, if_neg hbase]

theorem pagesOf_none (hP : L P = []) (hbase : s.compressedDeviceAddr P = 0) : s.pagesOf L P = [] := by
  rw [pagesOf, if_pos hP, if_pos hbase]

theorem pagesOf_congr (hL : L' P = L P) (hbase : s'.compressedDeviceAddr P = s.compressedDeviceAddr P) :
    s'.pagesOf L' P = s.pagesOf L P := by
  rw [pagesOf, pagesOf, hL, hbase]

/-- The values in the chains are device pages, each in one place. -/
theorem Inverse.distinct (h : Inverse s L) : Distinct L devicePages where
  nodup P := by
    by_cases hP : L P = []
    · rw [hP]
      exact nodup_nil
    · rw [← pagesOf_chain hP]
      exact h.nodup P
  disjoint P Q d hd hd' := by
    have hP : L P ≠ [] := fun hP => by rw [hP] at hd; cases hd
    have hQ : L Q ≠ [] := fun hQ => by rw [hQ] at hd'; cases hd'
    rw [← pagesOf_chain hP, h.mem] at hd
    rw [← pagesOf_chain hQ, h.mem] at hd'
    omega
  bounded P d hd := by
    have hP : L P ≠ [] := fun hP => by rw [hP] at hd; cases hd
    rw [← pagesOf_chain hP] at hd
    exact (h.mem_bounded hd).2

variable {c : MultiAddressContainer}

theorem startOf_le_of_chains (h : Chains c L []) (hlength : c.storage.length ≤ devicePages) (P : ℕ) :
    startOf (L P) ≤ devicePages := by
  cases hl : L P with
  | nil => exact Nat.zero_le _
  | cons p l =>
    obtain ⟨i, v⟩ := p
    have hin := (h.cover i).mpr (.inr ⟨P, by rw [hl]; exact mem_cons_self⟩)
    exact Nat.le_trans hin.2 hlength

theorem Stored.startOf_le (h : Stored s L) (P : ℕ) : startOf (L P) ≤ devicePages := startOf_le_of_chains h.chains h.storage P

/-- A base is flagged exactly when there is a chain. -/
theorem base_shift (hs : Stored s L) (h : Inverse s L) (P : ℕ) : s.compressedDeviceAddr P >>> multiFlagBits = 0 ↔ L P = [] := by
  constructor
  · intro hshift
    by_contra hP
    rw [hs.base P hP, flag_shift (hs.startOf_le P)] at hshift
    cases hshift
  · intro hP
    by_cases hbase : s.compressedDeviceAddr P = 0
    · rw [hbase, Nat.zero_shiftRight]
    · have hmem : s.compressedDeviceAddr P ∈ s.pagesOf L P := by
        rw [pagesOf_single hP hbase]
        exact mem_singleton_self _
      exact page_shift (h.mem_bounded hmem).2

theorem Stored.base_mask (h : Stored s L) (hP : L P ≠ []) : s.compressedDeviceAddr P &&& multiMask = startOf (L P) := by
  rw [h.base P hP, flag_mask (h.startOf_le P)]

/-! ### A device page is added -/

/-- The pages of one physical page change. -/
structure Repaged (s : DeviceMemoryManager) (L : ℕ → List (ℕ × ℕ)) (P : ℕ) (pages : List ℕ) (s' : DeviceMemoryManager)
    (L' : ℕ → List (ℕ × ℕ)) : Prop where
  stored : Stored s' L'
  pages : s'.pagesOf L' P = pages
  other : ∀ Q, Q ≠ P → s'.pagesOf L' Q = s.pagesOf L Q

/-- The storage grows only when the entries are fewer than the device pages. -/
theorem storage_le {c' : MultiAddressContainer} (h : Chains c L []) (hbound : c.storage.length ≤ devicePages)
    (hgrown : c'.storage.length = c.storage.length ∨ c.freeEntries = [] ∧ c'.storage.length = c.storage.length + 1)
    (hdistinct : Distinct L devicePages) {value : ℕ} (hvalue : value < devicePages) (hnew : ∀ P, value ∉ (L P).map Prod.snd) :
    c'.storage.length ≤ devicePages := by
  rcases hgrown with hsame | ⟨hfree, hlonger⟩
  · rw [hsame]
    exact hbound
  · rw [hlonger]
    exact h.length_lt hfree hdistinct hvalue hnew

/-- The state with another base and other chains. -/
def withBase (s : DeviceMemoryManager) (P base : ℕ) (c : MultiAddressContainer) : DeviceMemoryManager :=
  { s with compressedDeviceAddr := update s.compressedDeviceAddr P base, multiDevAddress := c }

theorem withBase_self (s : DeviceMemoryManager) (P base : ℕ) (c : MultiAddressContainer) :
    (s.withBase P base c).compressedDeviceAddr P = base := update_self ..

theorem withBase_other (s : DeviceMemoryManager) {Q : ℕ} (base : ℕ) (c : MultiAddressContainer) (hQ : Q ≠ P) :
    (s.withBase P base c).compressedDeviceAddr Q = s.compressedDeviceAddr Q := update_of_ne hQ ..

theorem repaged_chain (hs : Stored s L) {l : List (ℕ × ℕ)}
    (hchains : Chains c (update L P l) []) (hlength : c.storage.length ≤ devicePages) (htwo : 2 ≤ l.length) :
    Repaged s L P (l.map Prod.snd) (s.withBase P (multiFlag ||| startOf l) c) (update L P l) where
  stored := by
    refine ⟨hchains, fun Q hQ => ?_, fun Q hQ => ?_, hlength⟩
    · by_cases hQP : Q = P
      · rw [hQP, withBase_self, update_self]
      · rw [update_of_ne hQP] at hQ ⊢
        rw [withBase_other _ _ _ hQP, hs.base Q hQ]
    · by_cases hQP : Q = P
      · rw [hQP, update_self]
        exact htwo
      · rw [update_of_ne hQP] at hQ ⊢
        exact hs.two Q hQ
  pages := by
    have hself : update L P l P = l := update_self ..
    have hl : l ≠ [] := fun hl => by rw [hl] at htwo; exact absurd htwo (by decide)
    rw [pagesOf_chain (hself.symm ▸ hl), hself]
  other Q hQ := pagesOf_congr (update_of_ne hQ _ _) (withBase_other s _ c hQ)

theorem repaged_page (hs : Stored s L) (page : ℕ)
    (hchains : Chains c (update L P []) []) (hlength : c.storage.length ≤ devicePages) :
    Repaged s L P (if page = 0 then [] else [page]) (s.withBase P page c) (update L P []) where
  stored := by
    refine ⟨hchains, fun Q hQ => ?_, fun Q hQ => ?_, hlength⟩
    · have hQP : Q ≠ P := fun hQP => hQ (by rw [hQP, update_self])
      rw [update_of_ne hQP] at hQ ⊢
      rw [withBase_other _ _ _ hQP, hs.base Q hQ]
    · have hQP : Q ≠ P := fun hQP => hQ (by rw [hQP, update_self])
      rw [update_of_ne hQP] at hQ ⊢
      exact hs.two Q hQ
  pages := by
    have hself : update L P [] P = [] := update_self ..
    have hbase := withBase_self s P page c
    by_cases hpage : page = 0
    · rw [if_pos hpage, pagesOf_none hself (hbase.trans hpage)]
    · rw [if_neg hpage, pagesOf_single hself (by rw [hbase]; exact hpage), hbase]
  other Q hQ := pagesOf_congr (update_of_ne hQ _ _) (withBase_other s _ c hQ)

/-- A page that is in no list of pages is in no chain. -/
theorem notMem_chains (hnew : ∀ Q, L Q ≠ [] → d ∉ s.pagesOf L Q) (Q : ℕ) : d ∉ (L Q).map Prod.snd := by
  intro hmem
  have hQ : L Q ≠ [] := fun hQ => by rw [hQ] at hmem; cases hmem
  exact hnew Q hQ (pagesOf_chain hQ ▸ hmem)

/-- A device page is added behind those of the physical page. -/
theorem insertDeviceAddr_repaged (hs : Stored s L) (h : Inverse s L) (hd : 0 < d ∧ d < devicePages)
    (hnew : ∀ Q, d ∉ s.pagesOf L Q) :
    ∃ s' L', s.insertDeviceAddr P d = some s' ∧ Repaged s L P (s.pagesOf L P ++ [d]) s' L' := by
  have hshift := base_shift hs h P
  have hdistinct := h.distinct
  have hnewChains := notMem_chains fun Q _ => hnew Q
  rw [insertDeviceAddr]
  by_cases hbase : s.compressedDeviceAddr P = 0
  · -- the first page
    have hP : L P = [] := hshift.mp (by rw [hbase, Nat.zero_shiftRight])
    have hL : update L P [] = L := by rw [← hP, update_eq_self]
    refine ⟨s.withBase P d s.multiDevAddress, update L P [], ?_, ?_⟩
    · simp only [hbase, if_true]
      rfl
    · have hrepaged := repaged_page hs (P := P) d (by rw [hL]; exact hs.chains) hs.storage
      rw [if_neg (Nat.ne_of_gt hd.1)] at hrepaged
      rw [pagesOf_none hP hbase]
      exact hrepaged
  by_cases hP : L P = []
  · -- the second page, the first chain
    have hpage := pagesOf_single hP hbase
    have hfirst : s.compressedDeviceAddr P ∈ s.pagesOf L P := hpage ▸ mem_singleton_self _
    have hfirstNew := notMem_chains fun Q hQ hmem => by
      rw [h.mem, (h.mem P _).mp hfirst] at hmem
      obtain rfl : P = Q := by omega
      exact hQ hP
    obtain ⟨e₀, c₀, hregister, htakes⟩ := hs.chains.take (s.compressedDeviceAddr P)
    have hchain₀ := htakes.single hP
    have hle₀ := storage_le hs.chains hs.storage htakes.length hdistinct (h.mem_bounded hfirst).2 hfirstNew
    have hdistinct₀ := hdistinct.insert P e₀ (h.mem_bounded hfirst).2 hfirstNew
    rw [hP, nil_append] at hdistinct₀
    have hself : update L P [(e₀, s.compressedDeviceAddr P)] P = [(e₀, s.compressedDeviceAddr P)] := update_self ..
    obtain ⟨e₁, c₁, hregister₁, hchain₁, hlength₁⟩ := hchain₀.register d (P := P) (by rw [hself]; exact cons_ne_nil _ _)
    rw [hself, startOf_cons] at hregister₁
    rw [hself, update_idem] at hchain₁
    have hle₁ : c₁.storage.length ≤ devicePages := by
      refine storage_le hchain₀ hle₀ hlength₁ hdistinct₀ hd.2 fun Q hmem => ?_
      by_cases hQ : Q = P
      · rw [hQ, hself] at hmem
        obtain rfl := mem_singleton.mp hmem
        exact hnew P hfirst
      · rw [update_of_ne hQ] at hmem
        exact hnewChains Q hmem
    refine ⟨s.withBase P (multiFlag ||| e₀) c₁, update L P [(e₀, s.compressedDeviceAddr P), (e₁, d)], ?_, ?_⟩
    · simp only [hbase, if_false, hshift.mpr hP, if_true, hregister, hregister₁, bind_eq_bind, bind_some]
      rfl
    · have hrepaged := repaged_chain hs hchain₁ hle₁ (Nat.le_refl 2)
      rw [hpage]
      exact hrepaged
  · -- one more entry
    obtain ⟨e, c, hregister, hchain, hlength⟩ := hs.chains.register d hP
    have hle := storage_le hs.chains hs.storage hlength hdistinct hd.2 hnewChains
    have htwo : 2 ≤ (L P ++ [(e, d)]).length := by
      rw [length_append]
      exact Nat.le_add_right_of_le (hs.two P hP)
    have hstart : multiFlag ||| startOf (L P ++ [(e, d)]) = s.compressedDeviceAddr P := by
      rw [startOf_append_of_ne_nil hP, hs.base P hP]
    refine ⟨s.withBase P (s.compressedDeviceAddr P) c, update L P (L P ++ [(e, d)]), ?_, ?_⟩
    · have hflag : ¬ s.compressedDeviceAddr P >>> multiFlagBits = 0 := fun hzero => hP (hshift.mp hzero)
      simp only [hbase, if_false, hflag, hs.base_mask hP, hregister, bind_eq_bind, bind_some, withBase,
        update_eq_self]
      rfl
    · have hrepaged := repaged_chain hs hchain hle htwo
      rw [hstart, map_append] at hrepaged
      rw [pagesOf_chain hP]
      exact hrepaged

/-! ### A device page is taken out -/

/-- The first place of a value. -/
theorem exists_split {l : List (ℕ × ℕ)} (hd : d ∈ l.map Prod.snd) (hnodup : (l.map Prod.snd).Nodup) :
    ∃ pre i post, l = pre ++ (i, d) :: post ∧ ∀ p ∈ pre, p.2 ≠ d := by
  obtain ⟨⟨i, v⟩, hmem, rfl⟩ := List.mem_map.mp hd
  obtain ⟨pre, post, rfl⟩ := append_of_mem hmem
  refine ⟨pre, i, post, rfl, fun p hp hpv => ?_⟩
  rw [map_append, map_cons] at hnodup
  exact (nodup_append.mp hnodup).2.2 p.2 (List.mem_map_of_mem hp) _ mem_cons_self hpv

/-- The device page is taken out of those of the physical page. -/
theorem removeDeviceAddr_repaged (hs : Stored s L) (h : Inverse s L) (hd : d ∈ s.pagesOf L P) :
    ∃ s' L' pre post, s.removeDeviceAddr P d = some s' ∧ s.pagesOf L P = pre ++ d :: post ∧ Repaged s L P (pre ++ post) s' L' := by
  have hshift := base_shift hs h P
  rw [removeDeviceAddr]
  by_cases hP : L P = []
  · -- the only page
    have hL : update L P [] = L := by rw [← hP, update_eq_self]
    have hbase : s.compressedDeviceAddr P ≠ 0 := fun hbase => by
      rw [pagesOf_none hP hbase] at hd
      cases hd
    have hpage := pagesOf_single hP hbase
    have hsame : d = s.compressedDeviceAddr P := mem_singleton.mp (hpage ▸ hd)
    refine ⟨s.withBase P 0 s.multiDevAddress, update L P [], [], [], ?_, by rw [hpage, hsame]; rfl, ?_⟩
    · simp only [hshift.mpr hP, if_true]
      rfl
    · exact repaged_page hs (P := P) 0 (by rw [hL]; exact hs.chains) hs.storage
  · have hpages := pagesOf_chain (s := s) hP
    have hflag : ¬ s.compressedDeviceAddr P >>> multiFlagBits = 0 := fun hzero => hP (hshift.mp hzero)
    have htwo := hs.two P hP
    obtain ⟨pre, i, post, hl, hfirst⟩ := exists_split (hpages ▸ hd) (h.distinct.nodup P)
    obtain ⟨c, hunregister, hchain, hlength⟩ := hs.chains.unregister hl hfirst
    have hsplit : s.pagesOf L P = pre.map Prod.snd ++ d :: post.map Prod.snd := by
      rw [hpages, hl, map_append, map_cons]
    have hle : c.storage.length ≤ devicePages := hlength ▸ hs.storage
    have hrest : (pre ++ post).length + 1 = (L P).length := by
      rw [hl]
      simp only [length_append, length_cons]
      omega
    by_cases hmore : 2 ≤ (pre ++ post).length
    · -- a chain is left
      refine ⟨s.withBase P (multiFlag ||| startOf (pre ++ post)) c, update L P (pre ++ post), pre.map Prod.snd,
        post.map Prod.snd, ?_, hsplit, ?_⟩
      · simp only [hflag, if_false, hs.base_mask hP, hunregister, bind_eq_bind, bind_some, hmore, decide_true,
          Bool.not_true, Bool.false_eq_true, Nat.or_comm _ multiFlag]
        rfl
      · rw [← map_append]
        exact repaged_chain hs hchain hle hmore
    · -- one page is left
      obtain ⟨⟨j, v⟩, hone⟩ := length_eq_one_iff.mp (by omega : (pre ++ post).length = 1)
      have hself : update L P (pre ++ post) P = [(j, v)] := by rw [update_self, hone]
      obtain ⟨c', hrelease, hchain', hlength'⟩ := hchain.releaseEntry hself
      rw [hself, startOf_cons] at hrelease
      rw [update_idem] at hchain'
      have hv : v ∈ s.pagesOf L P := by
        have hmem : v ∈ (pre ++ post).map Prod.snd := by
          rw [hone]
          exact mem_singleton_self v
        rw [hsplit]
        rw [map_append] at hmem
        rcases mem_append.mp hmem with hpre | hpost
        · exact mem_append_left _ hpre
        · exact mem_append_right _ (mem_cons_of_mem _ hpost)
      refine ⟨s.withBase P v c', update L P [], pre.map Prod.snd, post.map Prod.snd, ?_, hsplit, ?_⟩
      · simp only [hflag, if_false, hs.base_mask hP, hunregister, bind_eq_bind, bind_some, hone,
          startOf_cons, hrelease]
        rfl
      · have hrepaged := repaged_page hs v hchain' (by rw [hlength']; exact hle)
        rw [if_neg (Nat.ne_of_gt (h.mem_bounded hv).1)] at hrepaged
        rw [← map_append, hone]
        exact hrepaged

/-! ### The invariant after a step -/

/-- What holds in every state of a run. -/
structure ReverseInv (s : DeviceMemoryManager) (L : ℕ → List (ℕ × ℕ)) : Prop where
  stored : Stored s L
  inverse : Inverse s L

theorem Inverse.inserted (h : Inverse s L) (hd : 0 < d ∧ d < devicePages) (hunmapped : s.table d = 0)
    (htable : s'.table = update s.table d (P + 1)) (hpages : s'.pagesOf L' P = s.pagesOf L P ++ [d])
    (hother : ∀ Q, Q ≠ P → s'.pagesOf L' Q = s.pagesOf L Q) : Inverse s' L' where
  nodup Q := by
    by_cases hQ : Q = P
    · rw [hQ, hpages]
      refine nodup_append.mpr ⟨h.nodup P, nodup_singleton d, fun x hx y hy hxy => ?_⟩
      rw [hxy, mem_singleton.mp hy, h.mem, hunmapped] at hx
      cases hx
    · rw [hother Q hQ]
      exact h.nodup Q
  mem Q x := by
    rw [htable, update_apply]
    by_cases hQ : Q = P
    · rw [hQ, hpages, mem_append, mem_singleton, h.mem]
      by_cases hx : x = d
      · simp [hx]
      · simp [hx]
    · rw [hother Q hQ, h.mem]
      by_cases hx : x = d
      · rw [if_pos hx, hx, hunmapped]
        omega
      · rw [if_neg hx]
  bounded x hx := by
    rw [htable, update_apply] at hx
    by_cases hxd : x = d
    · rw [hxd]
      exact hd
    · rw [if_neg hxd] at hx
      exact h.bounded x hx

theorem Inverse.removed (h : Inverse s L) {pre post : List ℕ} (hmapped : s.table d = P + 1)
    (htable : s'.table = update s.table d 0) (hsplit : s.pagesOf L P = pre ++ d :: post)
    (hpages : s'.pagesOf L' P = pre ++ post) (hother : ∀ Q, Q ≠ P → s'.pagesOf L' Q = s.pagesOf L Q) : Inverse s' L' where
  nodup Q := by
    by_cases hQ : Q = P
    · have hnodup := h.nodup P
      rw [hsplit] at hnodup
      rw [hQ, hpages]
      exact hnodup.sublist (List.Sublist.append_left (sublist_cons_self d post) pre)
    · rw [hother Q hQ]
      exact h.nodup Q
  mem Q x := by
    rw [htable, update_apply]
    by_cases hQ : Q = P
    · have hnodup := h.nodup P
      have hmem := h.mem P x
      rw [hsplit] at hnodup hmem
      rw [hQ, hpages]
      by_cases hx : x = d
      · have hnotin := (nodup_middle.mp hnodup)
        rw [if_pos hx, hx]
        exact ⟨fun hin => absurd hin (nodup_cons.mp hnotin).1, fun hzero => absurd hzero.symm (Nat.succ_ne_zero P)⟩
      · rw [if_neg hx, ← hmem]
        simp [hx]
    · rw [hother Q hQ, h.mem]
      by_cases hx : x = d
      · rw [if_pos hx, hx, hmapped]
        omega
      · rw [if_neg hx]
  bounded x hx := by
    rw [htable, update_apply] at hx
    by_cases hxd : x = d
    · rw [if_pos hxd] at hx
      exact absurd rfl hx
    · rw [if_neg hxd] at hx
      exact h.bounded x hx

end DeviceMemoryManager
end DeviceMemory
end Core
end Citron
