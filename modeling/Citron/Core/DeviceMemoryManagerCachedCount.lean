/-
# When the calls of the caching are right

The loop of `UpdatePagesCachedCount` sets its process when a page is of another process than the first page, and never
back. So a page of the first process is called for under the process of the last page before it that is of another one.
-/
import Citron.Core.DeviceMemoryManagerCaching

namespace Citron
namespace Core
namespace DeviceMemory
namespace CachingManager

open List

variable {M : Type} (s : CachingManager M) {addr size asid : ℕ} {delta : ℤ}

/-! ### What the calls should cover -/

/-- The pages of the range. -/
def pages (addr size : ℕ) : List ℕ :=
  if size = 0 then [] else List.range' (addr / pageSize) ((addr + size + pageSize - 1) / pageSize - addr / pageSize)

/-- The count of the page becomes 1 by an increment, or 0 by a decrement. -/
def changes (delta : ℤ) (page : ℕ) : Bool :=
  s.vpage page ≠ 0 && Collects delta (s.cachedPages.count page + BitVec.ofInt 8 delta)

/-- The process and the CPU page behind a page. -/
def own (page : ℕ) : Option M × ℕ := (s.process page, s.vpage page)

/-- Each backed page of the range is counted, and each page that changes is called for once, in its own process. -/
def Correct (addr size : ℕ) (delta : ℤ) : Prop :=
  ∃ counters marks, s.updatePagesCachedCount addr size delta = some (counters, marks) ∧
    (∀ page, ((counters.count page).toNat : ℤ) =
      (s.cachedPages.count page).toNat + if page ∈ pages addr size ∧ s.vpage page ≠ 0 then delta else 0) ∧
    (marks.flatMap Mark.covers).Perm
      (((pages addr size).filter (s.changes delta)).map fun page => (s.process page, s.vpage page, decide (0 < delta)))

/-- The last page that sets the process of the loop. -/
def lastOther (asid : ℕ) (pages : List ℕ) : Option ℕ :=
  (pages.filter fun page => s.vpage page ≠ 0 && asid ≠ s.asid page).getLast?

/-- The page has a process, and if that is the first one, no page before it has set another. -/
def RightProcess (asid : ℕ) (before : List ℕ) (page : ℕ) : Prop :=
  (s.process page).isSome ∧ (asid = s.asid page → ∀ other ∈ s.lastOther asid before, s.process other = s.process page)

/-- The calls are right: nothing of the range is backed, or the range is not below the first page, its first page has a
process, and each page that changes is called for in its own. -/
def Serves (addr size : ℕ) (delta : ℤ) : Prop :=
  (∀ page ∈ pages addr size, s.vpage page = 0) ∨
    pageSize ≤ addr ∧ (s.process (addr / pageSize)).isSome ∧
      ∀ before page after, pages addr size = before ++ page :: after → s.changes delta page →
        s.RightProcess (s.asid (addr / pageSize)) before page

/-! ### The process of the loop -/

/-- The process that the loop has after some pages. -/
def interAfter (asid : ℕ) (process : Option M) (pages : List ℕ) : Option M :=
  pages.foldl (fun process page => if s.vpage page = 0 then process else s.interAt asid process page) process

theorem interAfter_eq (asid : ℕ) (process : Option M) (pages : List ℕ) :
    s.interAfter asid process pages = ((s.lastOther asid pages).map s.process).getD process := by
  induction pages using List.reverseRecOn with
  | nil => rfl
  | append_singleton pages page ih =>
    have hlast : s.interAfter asid process (pages ++ [page]) =
        if s.vpage page = 0 then s.interAfter asid process pages else s.interAt asid (s.interAfter asid process pages) page := by
      rw [interAfter, foldl_append]
      rfl
    rw [hlast, ih]
    by_cases hbacked : s.vpage page = 0
    · simp [hbacked, lastOther, filter_append]
    · by_cases hasid : asid = s.asid page
      · simp [hbacked, hasid, interAt, lastOther, filter_append]
      · simp [hbacked, hasid, interAt, lastOther, filter_append]

theorem process_congr {page page' : ℕ} (h : s.asid page = s.asid page') : s.process page = s.process page' := by
  unfold process
  congr 1
  exact Fin.ext h

theorem collect_append (asid : ℕ) (delta : ℤ) (process : Option M) (l l' : List ℕ) :
    s.collect asid delta process (l ++ l') =
      s.collect asid delta process l ++ s.collect asid delta (s.interAfter asid process l) l' := by
  induction l generalizing process with
  | nil => rfl
  | cons page l ih =>
    rw [cons_append, collect, collect]
    by_cases hbacked : s.vpage page = 0
    · rw [if_pos hbacked, if_pos hbacked, ih, interAfter, interAfter, foldl_cons, if_pos hbacked]
    · rw [if_neg hbacked, if_neg hbacked, ih, append_assoc, interAfter, interAfter, foldl_cons, if_neg hbacked]

theorem collect_singleton (process : Option M) (page : ℕ) :
    s.collect asid delta process [page] =
      if s.changes delta page then [(s.interAt asid process page, s.vpage page)] else [] := by
  by_cases hbacked : s.vpage page = 0
  · simp [collect, changes, hbacked]
  · simp [collect, changes, hbacked]

/-- A collected page is a page that changes, under its own process unless that is the first. -/
theorem collect_forall₂ {first : ℕ} (process : Option M) (l : List ℕ) :
    List.Forall₂ (fun e page => e.2 = s.vpage page ∧ (e.1 = s.process page ∨ s.process page = s.process first))
      (s.collect (s.asid first) delta process l) (l.filter (s.changes delta)) := by
  induction l generalizing process with
  | nil => exact .nil
  | cons page l ih =>
    have hpage : List.Forall₂ (fun e page => e.2 = s.vpage page ∧ (e.1 = s.process page ∨ s.process page = s.process first))
        (s.collect (s.asid first) delta process [page]) ([page].filter (s.changes delta)) := by
      rw [collect_singleton]
      by_cases hchanges : s.changes delta page
      · rw [if_pos hchanges, filter_cons_of_pos hchanges]
        refine .cons ⟨rfl, ?_⟩ .nil
        by_cases hasid : s.asid first = s.asid page
        · exact .inr (s.process_congr hasid.symm)
        · exact .inl (if_pos hasid)
      · rw [if_neg hchanges, filter_cons_of_neg hchanges]
        exact .nil
    have hsplit := s.collect_append (s.asid first) delta process [page] l
    have hfilter := filter_append (p := s.changes delta) [page] l
    rw [singleton_append] at hsplit hfilter
    rw [hsplit, hfilter]
    exact rel_append hpage (ih _)

theorem collect_length (first : ℕ) (delta : ℤ) (process : Option M) (l : List ℕ) :
    (s.collect (s.asid first) delta process l).length = (l.filter (s.changes delta)).length :=
  (s.collect_forall₂ process l).length_eq

/-- A page is collected under its own process exactly when the last page that has set the process agrees with it. -/
theorem interAt_eq_iff {first page : ℕ} (before : List ℕ) :
    s.interAt (s.asid first) (s.interAfter (s.asid first) (s.process first) before) page = s.process page ↔
      (s.asid first = s.asid page → ∀ other ∈ s.lastOther (s.asid first) before, s.process other = s.process page) := by
  unfold interAt
  by_cases hasid : s.asid first = s.asid page
  · rw [if_neg (not_not.2 hasid), interAfter_eq]
    cases s.lastOther (s.asid first) before with
    | none => simp [s.process_congr hasid]
    | some other => simp [hasid]
  · simp [hasid]

/-- All collected pages are under their own processes exactly when each of them is. -/
theorem collect_eq_iff (first : ℕ) (delta : ℤ) (l : List ℕ) :
    s.collect (s.asid first) delta (s.process first) l = (l.filter (s.changes delta)).map s.own ↔
      ∀ before page after, l = before ++ page :: after → s.changes delta page →
        (s.asid first = s.asid page → ∀ other ∈ s.lastOther (s.asid first) before, s.process other = s.process page) := by
  constructor
  · rintro heq before page after rfl hchanges
    have hlength := s.collect_length first delta (s.process first) before
    rw [← singleton_append, collect_append, collect_append, collect_singleton, if_pos hchanges, filter_append,
      filter_append, filter_cons_of_pos hchanges, map_append, map_append] at heq
    obtain ⟨-, hrest⟩ := append_inj heq (by rw [hlength, length_map])
    have hown := (List.cons.inj hrest).1
    exact (s.interAt_eq_iff before).1 (congrArg Prod.fst hown)
  · intro hright
    suffices h : ∀ rest before, l = before ++ rest →
        s.collect (s.asid first) delta (s.interAfter (s.asid first) (s.process first) before) rest =
          (rest.filter (s.changes delta)).map s.own from h l [] rfl
    intro rest
    induction rest with
    | nil => exact fun _ _ => rfl
    | cons page rest ih =>
      intro before hl
      have hrest := ih (before ++ [page]) (by rw [hl, append_assoc]; rfl)
      have hafter : s.interAfter (s.asid first) (s.process first) (before ++ [page]) =
          s.interAfter (s.asid first) (s.interAfter (s.asid first) (s.process first) before) [page] := by
        rw [interAfter, foldl_append]
        rfl
      rw [← singleton_append, collect_append, collect_singleton, ← hafter, hrest, filter_append, map_append]
      congr 1
      by_cases hchanges : s.changes delta page
      · rw [if_pos hchanges, filter_cons_of_pos hchanges, (s.interAt_eq_iff before).2 (hright before page rest hl hchanges)]
        rfl
      · rw [if_neg hchanges, filter_cons_of_neg hchanges]
        rfl

/-! ### Coverings that are the same up to their order -/

open scoped Classical in
/-- A collected page can only be under another process than its own if its own is `o`. So as many pages as should be are
under other processes than `o` only if all are under their own. -/
theorem eq_map_own {o : Option M} {col : List (Option M × ℕ)} {l : List ℕ}
    (h : List.Forall₂ (fun e page => e.2 = s.vpage page ∧ (e.1 = s.process page ∨ s.process page = o)) col l) :
    (l.map s.own).countP (fun e => e.1 ≠ o) ≤ col.countP (fun e => e.1 ≠ o) ∧
      (col.countP (fun e => e.1 ≠ o) = (l.map s.own).countP (fun e => e.1 ≠ o) → col = l.map s.own) := by
  induction h with
  | nil => exact ⟨le_rfl, fun _ => rfl⟩
  | @cons e page col l hhead _ ih =>
    obtain ⟨hle, heq⟩ := ih
    obtain ⟨hv, hprocess⟩ := hhead
    rw [map_cons, countP_cons, countP_cons]
    rcases hprocess with hown | hother
    · have he : e = s.own page := Prod.ext hown hv
      subst he
      exact ⟨by omega, fun hcount => by rw [heq (by omega)]⟩
    · by_cases he : e.1 = o
      · have : e = s.own page := Prod.ext (he.trans hother.symm) hv
        subst this
        exact ⟨by omega, fun hcount => by rw [heq (by omega)]⟩
      · rw [if_pos (decide_eq_true he), if_neg (by rw [decide_eq_true_eq]; exact not_not.2 hother)]
        exact ⟨by omega, fun hcount => absurd hcount (by omega)⟩

/-- The calls cover the pages that change in their own processes only if these are what the loop has for them. -/
theorem called_perm_iff (first : ℕ) (delta : ℤ) (l : List ℕ) :
    (called (0 < delta) (s.collect (s.asid first) delta (s.process first) l)).Perm
        ((l.filter (s.changes delta)).map fun page => (s.process page, s.vpage page, decide (0 < delta))) ↔
      s.collect (s.asid first) delta (s.process first) l = (l.filter (s.changes delta)).map s.own ∧
        ∀ page ∈ l.filter (s.changes delta), (s.process page).isSome := by
  constructor
  · intro hperm
    have hlength := hperm.length_eq
    rw [called, length_map, length_map, ← s.collect_length first delta (s.process first) l] at hlength
    have hsome := length_filter_eq_length_iff.1 hlength
    have hfilter := filter_eq_self.2 hsome
    rw [called, hfilter] at hperm
    have hdrop := hperm.map fun e => (e.1, e.2.1)
    rw [map_map, map_map] at hdrop
    have hcol : (s.collect (s.asid first) delta (s.process first) l).Perm ((l.filter (s.changes delta)).map s.own) := by
      have hown : s.own = fun page => (s.process page, s.vpage page) := rfl
      rw [hown]
      simpa [Function.comp_def] using hdrop
    classical
    have heq := (s.eq_map_own (s.collect_forall₂ (s.process first) l)).2 (hcol.countP_eq _)
    refine ⟨heq, fun page hpage => ?_⟩
    have hmem := hsome (s.own page)
    rw [heq] at hmem
    exact hmem (mem_map_of_mem hpage)
  · rintro ⟨heq, hsome⟩
    have hfilter : ((l.filter (s.changes delta)).map s.own).filter (fun e => e.1.isSome) =
        (l.filter (s.changes delta)).map s.own := by
      refine filter_eq_self.2 fun e he => ?_
      obtain ⟨page, hpage, rfl⟩ := mem_map.1 he
      exact hsome page hpage
    rw [called, heq, hfilter, map_map]
    exact List.Perm.refl _

/-! ### The call -/

theorem toNat_add_ofInt {count : BitVec 8} (hdelta : delta = 1 ∨ delta = -1)
    (hcount : 0 ≤ (count.toNat : ℤ) + delta ∧ (count.toNat : ℤ) + delta ≤ 255) :
    ((count + BitVec.ofInt 8 delta).toNat : ℤ) = count.toNat + delta := by
  rw [BitVec.toNat_add]
  rcases hdelta with rfl | rfl
  · have h1 : (BitVec.ofInt 8 1).toNat = 1 := rfl
    omega
  · have h1 : (BitVec.ofInt 8 (-1)).toNat = 255 := rfl
    omega

theorem count_counted {c : Counters} {l : List ℕ} (hnodup : l.Nodup) (page : ℕ) :
    (s.counted delta c l).count page =
      if page ∈ l ∧ s.vpage page ≠ 0 then c.count page + BitVec.ofInt 8 delta else c.count page := by
  induction l generalizing c with
  | nil => simp [counted]
  | cons p l ih =>
    obtain ⟨hnew, hnodup⟩ := nodup_cons.1 hnodup
    have hcons : s.counted delta c (p :: l) = s.counted delta (if s.vpage p = 0 then c else c.fetchAdd p delta) l := rfl
    rw [hcons, ih hnodup]
    by_cases hpage : page = p
    · subst hpage
      by_cases hbacked : s.vpage page = 0 <;> simp [hnew, hbacked]
    · by_cases hbacked : s.vpage p = 0
      · simp [hpage, hbacked]
      · simp [hpage, hbacked, Counters.count_fetchAdd_of_ne _ hpage]

theorem pages_nodup (addr size : ℕ) : (pages addr size).Nodup := by
  unfold pages
  split
  · exact nodup_nil
  · exact nodup_range'

/-- The call when there is nothing to do for it: the counters stay and nothing is called. -/
theorem updatePagesCachedCount_skip (h : (addr < pageSize ∨ size = 0) ∨ s.process (addr / pageSize) = none) :
    s.updatePagesCachedCount addr size delta = some (s.cachedPages, []) := by
  unfold updatePagesCachedCount
  split
  · rfl
  · next hrange =>
    have hnone := h.resolve_left hrange
    dsimp only
    rw [hnone]

theorem updatePagesCachedCount_loop {memory : M} (hsize : size ≠ 0) (haddr : pageSize ≤ addr)
    (hmemory : s.process (addr / pageSize) = some memory) :
    s.updatePagesCachedCount addr size delta =
      ((pages addr size).foldlM (s.turn (s.asid (addr / pageSize)) delta)
        ⟨some memory, (s.vpage (addr / pageSize) : ℤ) - 1, ⟨0, 0⟩, ⟨0, 0⟩, s.cachedPages, []⟩).map
          fun t => (t.releasePending.cachedPages, t.releasePending.marks) := by
  unfold updatePagesCachedCount
  rw [if_neg (by omega), pages, if_neg hsize]
  dsimp only
  rw [hmemory]
  exact bind_pure_comp _ _

/-- The call in a range that is not below the first page and starts in a process. -/
theorem updatePagesCachedCount_spec (hdelta : delta = 1 ∨ delta = -1) (hsize : size ≠ 0) (haddr : pageSize ≤ addr)
    (hcounts : ∀ page ∈ pages addr size, s.vpage page ≠ 0 →
      0 ≤ ((s.cachedPages.count page).toNat : ℤ) + delta ∧ ((s.cachedPages.count page).toNat : ℤ) + delta ≤ 255)
    (hprocess : (s.process (addr / pageSize)).isSome) :
    match s.updatePagesCachedCount addr size delta with
    | none => ∃ e ∈ s.collect (s.asid (addr / pageSize)) delta (s.process (addr / pageSize)) (pages addr size), e.1 = none
    | some (counters, marks) => counters = s.counted delta s.cachedPages (pages addr size) ∧
      marks.flatMap Mark.covers =
        called (0 < delta) (s.collect (s.asid (addr / pageSize)) delta (s.process (addr / pageSize)) (pages addr size)) := by
  obtain ⟨memory, hmemory⟩ := Option.isSome_iff_exists.1 hprocess
  have hwrap : ∀ page ∈ pages addr size, s.vpage page ≠ 0 →
      s.cachedPages.count page + BitVec.ofInt 8 delta = 0 → ¬ 0 < delta := by
    intro page hpage hbacked h0 hpos
    have hadd := toNat_add_ofInt hdelta (hcounts page hpage hbacked)
    have hzero : ((0 : BitVec 8).toNat : ℤ) = 0 := rfl
    rw [h0, hzero] at hadd
    omega
  have hstart : Progress.Collects (decide (0 < delta))
      (⟨some memory, (s.vpage (addr / pageSize) : ℤ) - 1, ⟨0, 0⟩, ⟨0, 0⟩, s.cachedPages, []⟩ : Progress M) [] := by
    refine ⟨⟨⟨[], ?_, rfl⟩, ?_, ?_⟩, ?_⟩ <;> cases decide (0 < delta) <;> simp [Progress.pending, Pending.pages]
  have hloop := s.foldlM_turn (s.asid (addr / pageSize)) (pages_nodup addr size) (fun _ _ => rfl) hwrap hstart
  rw [s.updatePagesCachedCount_loop hsize haddr hmemory, hmemory]
  cases hresult : (pages addr size).foldlM (s.turn (s.asid (addr / pageSize)) delta)
      ⟨some memory, (s.vpage (addr / pageSize) : ℤ) - 1, ⟨0, 0⟩, ⟨0, 0⟩, s.cachedPages, []⟩ with
  | none =>
    rw [hresult] at hloop
    exact hloop
  | some t =>
    rw [hresult] at hloop
    obtain ⟨hcollects, hcounted⟩ := hloop
    refine ⟨hcounted, ?_⟩
    obtain ⟨before, hbefore, hmarks⟩ := (hcollects.release t.memoryDeviceInter).collected.covered
    rw [pages_of_bytes_eq_zero (Progress.pending_release t _ _), map_nil, append_nil] at hbefore
    exact hmarks.trans (by rw [← hbefore]; rfl)

/-- **The calls are right exactly when each page that changes is met with its own process.** -/
theorem updatePagesCachedCount_correct_iff (hdelta : delta = 1 ∨ delta = -1)
    (hcounts : ∀ page ∈ pages addr size, s.vpage page ≠ 0 →
      0 ≤ ((s.cachedPages.count page).toNat : ℤ) + delta ∧ ((s.cachedPages.count page).toNat : ℤ) + delta ≤ 255) :
    s.Correct addr size delta ↔ s.Serves addr size delta := by
  have hnodup := pages_nodup addr size
  by_cases hskip : (addr < pageSize ∨ size = 0) ∨ s.process (addr / pageSize) = none
  · constructor
    · rintro ⟨counters, marks, hcall, hcount, -⟩
      rw [s.updatePagesCachedCount_skip hskip] at hcall
      cases hcall
      refine .inl fun page hpage => by_contra fun hbacked => ?_
      have hpage' := hcount page
      rw [if_pos ⟨hpage, hbacked⟩] at hpage'
      omega
    · intro hserves
      have hnone : ∀ page ∈ pages addr size, s.vpage page = 0 := by
        rcases hserves with hnone | ⟨haddr, hsome, -⟩
        · exact hnone
        · rcases hskip with (hlow | hsize) | hprocess
          · omega
          · simp [pages, hsize]
          · rw [hprocess] at hsome
            cases hsome
      refine ⟨_, _, s.updatePagesCachedCount_skip hskip, fun page => ?_, ?_⟩
      · rw [if_neg fun h => h.2 (hnone page h.1), add_zero]
      · have hfilter : (pages addr size).filter (s.changes delta) = [] :=
          filter_eq_nil_iff.2 fun page hpage => by simp [changes, hnone page hpage]
        rw [hfilter]
        exact List.Perm.refl _
  · obtain ⟨hrange, hprocess⟩ := not_or.1 hskip
    obtain ⟨haddr, hsize⟩ := not_or.1 hrange
    have hsome := Option.isSome_iff_ne_none.2 hprocess
    have hspec := s.updatePagesCachedCount_spec hdelta hsize (not_lt.1 haddr) hcounts hsome
    have hperm := s.called_perm_iff (addr / pageSize) delta (pages addr size)
    have hcollect := s.collect_eq_iff (addr / pageSize) delta (pages addr size)
    constructor
    · rintro ⟨counters, marks, hcall, -, hcovers⟩
      rw [hcall] at hspec
      rw [hspec.2, hperm] at hcovers
      obtain ⟨heq, hprocesses⟩ := hcovers
      refine .inr ⟨not_lt.1 haddr, hsome, fun before page after hl hchanges => ?_⟩
      refine ⟨?_, hcollect.1 heq before page after hl hchanges⟩
      exact hprocesses page (mem_filter.2 ⟨by rw [hl]; simp, hchanges⟩)
    · intro hserves
      have hright : ∀ before page after, pages addr size = before ++ page :: after → s.changes delta page →
          s.RightProcess (s.asid (addr / pageSize)) before page := by
        rcases hserves with hnone | ⟨-, -, hright⟩
        · intro before page after hl hchanges
          have hbacked := hnone page (by rw [hl]; simp)
          simp [changes, hbacked] at hchanges
        · exact hright
      have heq := hcollect.2 fun before page after hl hchanges => (hright before page after hl hchanges).2
      have hprocesses : ∀ page ∈ (pages addr size).filter (s.changes delta), (s.process page).isSome := by
        intro page hpage
        obtain ⟨hmem, hchanges⟩ := mem_filter.1 hpage
        obtain ⟨before, after, hl⟩ := append_of_mem hmem
        exact (hright before page after hl hchanges).1
      cases hcall : s.updatePagesCachedCount addr size delta with
      | none =>
        rw [hcall] at hspec
        obtain ⟨e, he, hnone⟩ := hspec
        rw [heq] at he
        obtain ⟨page, hpage, rfl⟩ := mem_map.1 he
        have := hprocesses page hpage
        rw [show s.process page = none from hnone] at this
        cases this
      | some r =>
        rw [hcall] at hspec
        obtain ⟨hcounters, hcovers⟩ := hspec
        refine ⟨r.1, r.2, hcall, fun page => ?_, by rw [hcovers]; exact hperm.2 ⟨heq, hprocesses⟩⟩
        rw [hcounters, s.count_counted hnodup]
        split
        · next hpage => exact toNat_add_ofInt hdelta (hcounts page hpage.1 hpage.2)
        · rw [add_zero]

/-- The device pages 1 and 3 are of process 0, and the page between them of process 1; nothing is counted. -/
def interleaved : CachingManager Bool where
  manager :=
    { DeviceMemoryManager.initial true with
      entries := fun page => ⟨[0, 5 <<< 12, 1 <<< 39 ||| 9 <<< 12, 7 <<< 12].getD page 0, 0, 0⟩ }
  registeredProcesses := [some false, some true]
  cachedPages := fun _ _ => 0
  known := by
    intro page
    match page with
    | 0 | 1 | 2 | 3 => decide
    | _ + 4 => exact (show 0 >>> DeviceMemoryManager.guestMaxAsBits < 2 by decide)

theorem interleaved_correct : interleaved.Correct 0x1000 0x2000 1 := by
  have hpages : pages 0x1000 0x2000 = [1, 2] := by decide
  refine (interleaved.updatePagesCachedCount_correct_iff (.inl rfl) ?_).2 (.inr ⟨by decide, rfl, ?_⟩)
  · intro page _ _
    rw [show interleaved.cachedPages.count page = 0 from rfl]
    decide
  · intro before page after hl _
    rw [hpages] at hl
    match before with
    | [] =>
      obtain rfl : 1 = page := (List.cons.inj hl).1
      exact ⟨rfl, fun _ other hother => nomatch hother⟩
    | [_] =>
      obtain rfl : 2 = page := (List.cons.inj (List.cons.inj hl).2).1
      exact ⟨rfl, fun hasid => absurd hasid (by decide)⟩
    | _ :: _ :: before => simp at hl

/-- Page 3 is called for in process 1. -/
theorem interleaved_not_correct : ¬ interleaved.Correct 0x1000 0x3000 1 := by
  rintro ⟨counters, marks, hcall, -, hperm⟩
  have hcovers : (interleaved.updatePagesCachedCount 0x1000 0x3000 1).map (fun r => r.2.flatMap Mark.covers) =
      some [(some false, 5, true), (some true, 9, true), (some true, 7, true)] := by decide +kernel
  rw [hcall, Option.map_some] at hcovers
  rw [Option.some.inj hcovers] at hperm
  exact absurd hperm (by decide +kernel)

end CachingManager
end DeviceMemory
end Core
end Citron
