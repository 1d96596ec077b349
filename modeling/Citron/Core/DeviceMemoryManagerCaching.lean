/-
# Counting the cached pages

`DeviceMemoryManager::UpdatePagesCachedCount`: a count for each device page, and calls that turn the caching of the CPU
pages behind them on and off. Pages that follow each other in the memory of one process are collected into one call.
-/
import Mathlib
import Citron.Core.DeviceMemoryManager

namespace Citron
namespace Core
namespace DeviceMemory

open List

/-- `CITRON_PAGEBITS` -/
abbrev pageBits : ℕ := 12

/-- The process and the CPU address behind a device page. -/
def DeviceMemoryManager.extractCPUBacking (s : DeviceMemoryManager) (pageIndex : ℕ) : ℕ × ℕ :=
  let content := (s.entries pageIndex).cpuBackingAddress
  (content >>> guestMaxAsBits, content &&& (2 ^ guestMaxAsBits - 1))

/-! ### The counters -/

abbrev Counters : Type := ℕ → Fin 8 → BitVec 8

namespace Counters

def subentry (page : ℕ) : Fin 8 := ⟨page % 8, Nat.mod_lt _ (by decide)⟩

/-- `cached_pages[page >> subentries_shift].Count(page)` -/
def count (c : Counters) (page : ℕ) : BitVec 8 := c (page / 8) (subentry page)

def fetchAdd (c : Counters) (page : ℕ) (delta : ℤ) : Counters :=
  Function.update c (page / 8) (Function.update (c (page / 8)) (subentry page) (c.count page + BitVec.ofInt 8 delta))

@[simp] theorem count_fetchAdd (c : Counters) (page : ℕ) (delta : ℤ) :
    (c.fetchAdd page delta).count page = c.count page + BitVec.ofInt 8 delta := by
  simp [count, fetchAdd]

theorem count_fetchAdd_of_ne (c : Counters) {page page' : ℕ} (h : page' ≠ page) (delta : ℤ) :
    (c.fetchAdd page delta).count page' = c.count page' := by
  unfold count fetchAdd
  by_cases hentry : page' / 8 = page / 8
  · have hsub : subentry page' ≠ subentry page := by
      intro hsub
      have : page' % 8 = page % 8 := congrArg Fin.val hsub
      omega
    rw [hentry, Function.update_self, Function.update_of_ne hsub]
  · rw [Function.update_of_ne hentry]

end Counters

/-! ### Marking -/

/-- A call of `MarkRegionCaching`. -/
structure Mark (M : Type) where
  process : M
  address : ℕ
  size : ℕ
  caching : Bool

/-- Pages that wait for a call: the first of them, and how many bytes they have. -/
structure Pending where
  start : ℕ
  bytes : ℕ

namespace Pending

variable {M : Type}

def mark (pending : Pending) (caching : Bool) (process : M) : Mark M :=
  ⟨process, pending.start <<< pageBits, pending.bytes, caching⟩

/-- A part of `release_pending`; without a process nothing is called. -/
def release (pending : Pending) (caching : Bool) (process : Option M) : List (Mark M) :=
  if 0 < pending.bytes then (process.map (pending.mark caching)).toList else []

/-- A page is collected, or what waits is called for. There the process is not tested: none is a null pointer. -/
def track (pending : Pending) (caching collect : Bool) (vpage : ℕ) (process : Option M) : Option (Pending × List (Mark M)) :=
  if collect then some (⟨if pending.bytes = 0 then vpage else pending.start, pending.bytes + pageSize⟩, [])
  else if 0 < pending.bytes then do
    let process ← process
    return ({ pending with bytes := 0 }, [pending.mark caching process])
  else some (pending, [])

end Pending

/-- The state of the loop, with the calls so far. -/
structure Progress (M : Type) where
  memoryDeviceInter : Option M
  oldVpage : ℤ
  uncache : Pending
  cache : Pending
  cachedPages : Counters
  marks : List (Mark M)

def Progress.releasePending {M : Type} (t : Progress M) : Progress M :=
  { t with
    uncache := { t.uncache with bytes := 0 }
    cache := { t.cache with bytes := 0 }
    marks := t.marks ++ t.uncache.release false t.memoryDeviceInter ++ t.cache.release true t.memoryDeviceInter }

/-- The manager with the memories of the processes; one that is unregistered has none. The ids in the table are those that
were given to processes. -/
structure CachingManager (M : Type) where
  manager : DeviceMemoryManager
  registeredProcesses : List (Option M)
  cachedPages : Counters
  known : ∀ page, (manager.extractCPUBacking page).1 < registeredProcesses.length

namespace CachingManager

variable {M : Type} (s : CachingManager M)

def asid (page : ℕ) : ℕ := (s.manager.extractCPUBacking page).1

def vpage (page : ℕ) : ℕ := (s.manager.extractCPUBacking page).2 >>> pageBits

/-- `registered_processes[asid.id]` for the process of a page. -/
def process (page : ℕ) : Option M := s.registeredProcesses.get ⟨s.asid page, s.known page⟩

/-- The body of the loop; none when it calls with a null pointer. -/
def turn (asid : ℕ) (delta : ℤ) (t : Progress M) (page : ℕ) : Option (Progress M) :=
  let vpage := s.vpage page
  if vpage = 0 then some t.releasePending
  else do
    let t := if asid ≠ s.asid page then { t.releasePending with memoryDeviceInter := s.process page } else t
    let t := if (vpage : ℤ) ≠ t.oldVpage + 1 then t.releasePending else t
    let cachedPages := t.cachedPages.fetchAdd page delta
    let count := cachedPages.count page
    let (uncache, uncached) ← t.uncache.track false (count = 0) vpage t.memoryDeviceInter
    let (cache, cached) ← t.cache.track true (count = 1 ∧ 0 < delta) vpage t.memoryDeviceInter
    return { t with
      oldVpage := vpage
      uncache := uncache
      cache := cache
      cachedPages := cachedPages
      marks := t.marks ++ uncached ++ cached }

/-- The counters and the calls. -/
def updatePagesCachedCount (addr size : ℕ) (delta : ℤ) : Option (Counters × List (Mark M)) :=
  if addr < pageSize ∨ size = 0 then some (s.cachedPages, [])
  else
    let pageEnd := (addr + size + pageSize - 1) / pageSize
    let page := addr / pageSize
    match s.process page with
    | none => some (s.cachedPages, [])
    | some memory => do
      let t ← (List.range' page (pageEnd - page)).foldlM (s.turn (s.asid page) delta)
        ⟨some memory, (s.vpage page : ℤ) - 1, ⟨0, 0⟩, ⟨0, 0⟩, s.cachedPages, []⟩
      return (t.releasePending.cachedPages, t.releasePending.marks)

end CachingManager

/-! ## What the calls of the caching cover

The pages that the loop of `UpdatePagesCachedCount` collects are those of the calls so far and those that wait, in their
order, each under the process that the loop had for it.
-/

variable {M : Type}

/-! ### Pages of calls -/

theorem pageSize_pos : 0 < pageSize := by decide

def Pending.pages (p : Pending) : List ℕ := List.range' p.start (p.bytes / pageSize)

/-- The process, the CPU page and whether it is cached now, for each page of a call. -/
def Mark.covers (m : Mark M) : List (Option M × ℕ × Bool) :=
  (List.range' (m.address / pageSize) (m.size / pageSize)).map fun vpage => (some m.process, vpage, m.caching)

theorem covers_mark (p : Pending) (caching : Bool) (process : M) :
    (p.mark caching process).covers = p.pages.map fun vpage => (some process, vpage, caching) := by
  have haddress : p.start <<< pageBits / pageSize = p.start := by
    rw [Nat.shiftLeft_eq]
    exact Nat.mul_div_cancel _ pageSize_pos
  rw [Mark.covers, Pending.mark, haddress]
  rfl

theorem pages_of_bytes_eq_zero {p : Pending} (h : p.bytes = 0) : p.pages = [] := by
  rw [Pending.pages, h]
  rfl

/-! ### What is collected -/

/-- A collected page with the process that the loop had, of which only a process is called for. -/
def called (caching : Bool) (collected : List (Option M × ℕ)) : List (Option M × ℕ × Bool) :=
  (collected.filter fun e => e.1.isSome).map fun e => (e.1, e.2, caching)

theorem called_append (caching : Bool) (l l' : List (Option M × ℕ)) :
    called caching (l ++ l') = called caching l ++ called caching l' := by
  rw [called, filter_append, map_append]
  rfl

theorem called_none (caching : Bool) (pages : List ℕ) :
    called caching (pages.map fun vpage => ((none : Option M), vpage)) = [] := by
  simp [called]

theorem called_some (caching : Bool) (process : M) (pages : List ℕ) :
    called caching (pages.map fun vpage => (some process, vpage)) = pages.map fun vpage => (some process, vpage, caching) := by
  simp [called, filter_map, Function.comp_def]

theorem covers_release (p : Pending) (caching : Bool) (process : Option M) :
    (p.release caching process).flatMap Mark.covers = called caching (p.pages.map fun vpage => (process, vpage)) := by
  unfold Pending.release
  split
  · cases process with
    | none => rw [called_none]; rfl
    | some process =>
      rw [called_some]
      simp [covers_mark]
  · next h =>
    rw [pages_of_bytes_eq_zero (by omega)]
    rfl

/-- The pages that are collected for one kind of calls. -/
structure Collected (caching : Bool) (process : Option M) (oldVpage : ℤ) (p : Pending) (marks : List (Mark M))
    (collected : List (Option M × ℕ)) : Prop where
  covered : ∃ before, collected = before ++ p.pages.map (fun vpage => (process, vpage)) ∧
    marks.flatMap Mark.covers = called caching before
  whole : pageSize ∣ p.bytes
  adjacent : 0 < p.bytes → ((p.start + p.bytes / pageSize : ℕ) : ℤ) = oldVpage + 1

namespace Collected

variable {caching : Bool} {process : Option M} {oldVpage : ℤ} {p : Pending} {marks : List (Mark M)}
  {collected : List (Option M × ℕ)}

section

variable (h : Collected caching process oldVpage p marks collected)
include h

/-- After a release nothing waits, and the process and the page may be others. -/
theorem release (process' : Option M) (oldVpage' : ℤ) :
    Collected caching process' oldVpage' { p with bytes := 0 } (marks ++ p.release caching process) collected where
  covered := by
    obtain ⟨before, hcollected, hmarks⟩ := h.covered
    refine ⟨collected, by rw [pages_of_bytes_eq_zero rfl]; simp, ?_⟩
    rw [flatMap_append, hmarks, covers_release, hcollected, called_append]
  whole := dvd_zero _
  adjacent := fun h0 => absurd h0 (lt_irrefl _)

/-- A page is collected that follows those that wait, or nothing waits. -/
theorem collect {vpage : ℕ} (hnext : (vpage : ℤ) = oldVpage + 1 ∨ p.bytes = 0) :
    Collected caching process vpage ⟨if p.bytes = 0 then vpage else p.start, p.bytes + pageSize⟩ marks
      (collected ++ [(process, vpage)]) := by
  obtain ⟨before, hcollected, hmarks⟩ := h.covered
  have hpages : (p.bytes + pageSize) / pageSize = p.bytes / pageSize + 1 := Nat.add_div_right _ pageSize_pos
  by_cases h0 : p.bytes = 0
  · refine ⟨⟨collected, ?_, ?_⟩, ?_, ?_⟩
    · simp [h0, Pending.pages, Nat.div_self pageSize_pos]
    · rw [hmarks, hcollected, pages_of_bytes_eq_zero h0]
      simp
    · simp [h0]
    · intro _
      simp [h0, Nat.div_self pageSize_pos]
  · have hadjacent := h.adjacent (Nat.pos_of_ne_zero h0)
    have hv : vpage = p.start + p.bytes / pageSize := by
      rcases hnext with hnext | hnext
      · omega
      · exact absurd hnext h0
    refine ⟨⟨before, ?_, hmarks⟩, h.whole.add (dvd_refl _), ?_⟩
    · rw [hcollected, append_assoc, if_neg h0]
      simp only [Pending.pages, hpages, range'_concat, map_append, map_cons, map_nil, hv, Nat.one_mul]
    · intro _
      rw [if_neg h0, hpages, hv]
      push_cast
      ring

/-- What waits is called for; it cannot be without a process. -/
theorem flush (vpage : ℤ) (hbytes : 0 < p.bytes) :
    match process with
    | none => ∃ e ∈ collected, e.1 = none
    | some process =>
      Collected caching (some process) vpage { p with bytes := 0 } (marks ++ [p.mark caching process]) collected := by
  cases process with
  | none =>
    obtain ⟨before, hcollected, -⟩ := h.covered
    have hpos : 0 < p.bytes / pageSize := Nat.div_pos (Nat.le_of_dvd hbytes h.whole) pageSize_pos
    refine ⟨(none, p.start), ?_, rfl⟩
    rw [hcollected]
    refine mem_append_right _ (mem_map.2 ⟨p.start, ?_, rfl⟩)
    exact mem_range'_1.2 ⟨le_rfl, by omega⟩
  | some process =>
    have hrelease := h.release (some process) vpage
    rwa [Pending.release, if_pos hbytes] at hrelease

/-- Nothing happens to the page. -/
theorem pass (vpage : ℤ) (hbytes : p.bytes = 0) :
    Collected caching process vpage p marks collected :=
  ⟨h.covered, h.whole, fun h0 => absurd hbytes (Nat.pos_iff_ne_zero.1 h0)⟩

/-- A page is tracked. -/
theorem track {vpage : ℕ} (collect : Bool) (hnext : (vpage : ℤ) = oldVpage + 1 ∨ p.bytes = 0) :
    match p.track caching collect vpage process with
    | none => ∃ e ∈ collected, e.1 = none
    | some (p', called) =>
      Collected caching process vpage p' (marks ++ called) (collected ++ if collect then [(process, vpage)] else []) := by
  unfold Pending.track
  cases collect with
  | true =>
    simp only [if_true, append_nil]
    exact h.collect hnext
  | false =>
    by_cases hbytes : 0 < p.bytes
    · have hflush := h.flush vpage hbytes
      cases process with
      | none => simpa [hbytes] using hflush
      | some process => simpa [hbytes] using hflush
    · have hpass := h.pass vpage (by omega)
      simpa [hbytes] using hpass

end

end Collected

/-! ### The loop -/

namespace Progress

/-- What waits for the calls of one kind. -/
def pending (t : Progress M) : Bool → Pending
  | true => t.cache
  | false => t.uncache

/-- The pages of one kind are collected, and none of the other. -/
structure Collects (caching : Bool) (t : Progress M) (collected : List (Option M × ℕ)) : Prop where
  collected : Collected caching t.memoryDeviceInter t.oldVpage (t.pending caching) t.marks collected
  idle : (t.pending !caching).bytes = 0

theorem Collects.release {caching : Bool} {t : Progress M} {collected : List (Option M × ℕ)} (h : t.Collects caching collected)
    (process : Option M) : { t.releasePending with memoryDeviceInter := process }.Collects caching collected where
  collected := by
    have hrelease := h.collected.release process t.oldVpage
    have hidle := h.idle
    cases caching with
    | true =>
      have hbytes : t.uncache.bytes = 0 := hidle
      have hnone : t.uncache.release false t.memoryDeviceInter = [] := if_neg (by omega)
      simpa [releasePending, pending, hnone] using hrelease
    | false =>
      have hbytes : t.cache.bytes = 0 := hidle
      have hnone : t.cache.release true t.memoryDeviceInter = [] := if_neg (by omega)
      simpa [releasePending, pending, hnone] using hrelease
  idle := by cases caching <;> rfl

theorem pending_release (t : Progress M) (process : Option M) (caching : Bool) :
    ({ t.releasePending with memoryDeviceInter := process }.pending caching).bytes = 0 := by
  cases caching <;> rfl

end Progress

namespace CachingManager

variable (s : CachingManager M) {t t' : Progress M} {collected : List (Option M × ℕ)}

/-- The process that the loop has for a page: the one before, unless the page is of another process than the first. -/
def interAt (asid : ℕ) (process : Option M) (page : ℕ) : Option M := if asid ≠ s.asid page then s.process page else process

/-- The page is among those that are cached or uncached now. -/
def Collects (delta : ℤ) (count : BitVec 8) : Bool := if 0 < delta then count = 1 else count = 0

/-- The state in which a backed page is counted. -/
def arrive (asid : ℕ) (t : Progress M) (page : ℕ) : Progress M :=
  let t := if asid ≠ s.asid page then { t.releasePending with memoryDeviceInter := s.process page } else t
  if (s.vpage page : ℤ) ≠ t.oldVpage + 1 then t.releasePending else t

theorem arrive_collects {caching : Bool} (asid page : ℕ) (h : t.Collects caching collected) :
    (s.arrive asid t page).Collects caching collected ∧
      (s.arrive asid t page).memoryDeviceInter = s.interAt asid t.memoryDeviceInter page ∧
      (s.arrive asid t page).cachedPages = t.cachedPages ∧
      ((s.vpage page : ℤ) = (s.arrive asid t page).oldVpage + 1 ∨ ((s.arrive asid t page).pending caching).bytes = 0) := by
  unfold arrive interAt
  dsimp only
  by_cases hasid : asid ≠ s.asid page
  · rw [if_pos hasid, if_pos hasid]
    have hrelease := h.release (s.process page)
    split
    · exact ⟨hrelease.release _, rfl, rfl, .inr (Progress.pending_release _ _ caching)⟩
    · exact ⟨hrelease, rfl, rfl, .inr (Progress.pending_release _ _ caching)⟩
  · rw [if_neg hasid, if_neg hasid]
    split
    · exact ⟨h.release _, rfl, rfl, .inr (Progress.pending_release t _ caching)⟩
    · next hnext => exact ⟨h, rfl, rfl, .inl (not_not.1 hnext)⟩

theorem turn_unbacked {asid page : ℕ} {delta : ℤ} (h : s.vpage page = 0) :
    s.turn asid delta t page = some t.releasePending := by
  rw [turn, h]
  rfl

theorem turn_backed {asid page : ℕ} {delta : ℤ} (h : s.vpage page ≠ 0) : s.turn asid delta t page = (do
    let t := s.arrive asid t page
    let cachedPages := t.cachedPages.fetchAdd page delta
    let count := cachedPages.count page
    let (uncache, uncached) ← t.uncache.track false (count = 0) (s.vpage page) t.memoryDeviceInter
    let (cache, cached) ← t.cache.track true (count = 1 ∧ 0 < delta) (s.vpage page) t.memoryDeviceInter
    return { t with
      oldVpage := s.vpage page
      uncache := uncache
      cache := cache
      cachedPages := cachedPages
      marks := t.marks ++ uncached ++ cached }) := by
  unfold turn arrive
  rw [if_neg h]

theorem track_idle {p : Pending} (caching : Bool) (h : p.bytes = 0) (vpage : ℕ) (process : Option M) :
    p.track caching false vpage process = some (p, []) := by
  simp [Pending.track, h]

/-- **What a backed page adds to the pages that are collected.** Without a process the turn may fault. -/
theorem turn_collects (asid : ℕ) {page : ℕ} {delta : ℤ}
    (hcounts : t.cachedPages.count page + BitVec.ofInt 8 delta = 0 → ¬ 0 < delta)
    (h : t.Collects (0 < delta) collected) (hbacked : s.vpage page ≠ 0) :
    match s.turn asid delta t page with
    | none => ∃ e ∈ collected, e.1 = none
    | some t' =>
      t'.Collects (0 < delta) (collected ++ if Collects delta (t.cachedPages.count page + BitVec.ofInt 8 delta)
        then [(s.interAt asid t.memoryDeviceInter page, s.vpage page)] else []) ∧
      t'.memoryDeviceInter = s.interAt asid t.memoryDeviceInter page ∧ t'.cachedPages = t.cachedPages.fetchAdd page delta := by
  obtain ⟨harrive, hinter, hcached, hnext⟩ := s.arrive_collects asid page h
  have hidle := harrive.idle
  have htrack := harrive.collected.track (Collects delta (t.cachedPages.count page + BitVec.ofInt 8 delta)) hnext
  rw [turn_backed s hbacked]
  simp only [hcached, Counters.count_fetchAdd]
  rw [← hinter]
  by_cases hdelta : 0 < delta
  · have hzero : ¬ t.cachedPages.count page + BitVec.ofInt 8 delta = 0 := fun h0 => hcounts h0 hdelta
    simp only [hdelta, decide_true, Bool.not_true, Progress.pending] at hidle htrack ⊢
    simp only [Collects, hdelta, if_true] at htrack ⊢
    simp only [hzero, decide_false, track_idle _ hidle, and_true, Option.bind_eq_bind, Option.bind_some, append_nil]
    generalize (s.arrive asid t page).cache.track _ _ _ _ = tracked at htrack ⊢
    cases tracked with
    | none => exact htrack
    | some r => exact ⟨⟨htrack, hidle⟩, rfl, rfl⟩
  · simp only [hdelta, decide_false, Bool.not_false, Progress.pending] at hidle htrack ⊢
    simp only [Collects, hdelta, if_false] at htrack ⊢
    simp only [decide_false, and_false, Option.bind_eq_bind]
    generalize (s.arrive asid t page).uncache.track _ _ _ _ = tracked at htrack ⊢
    cases tracked with
    | none => exact htrack
    | some r =>
      simp only [track_idle _ hidle, Option.bind_some, append_nil]
      exact ⟨⟨htrack, hidle⟩, rfl, rfl⟩

/-- The pages of the loop that are collected, each with the process that the loop has for it. -/
def collect (asid : ℕ) (delta : ℤ) : Option M → List ℕ → List (Option M × ℕ)
  | _, [] => []
  | process, page :: pages =>
    if s.vpage page = 0 then collect asid delta process pages
    else
      (if Collects delta (s.cachedPages.count page + BitVec.ofInt 8 delta) then [(s.interAt asid process page, s.vpage page)]
        else []) ++ collect asid delta (s.interAt asid process page) pages

/-- The counters after the loop. -/
def counted (delta : ℤ) (c : Counters) (pages : List ℕ) : Counters :=
  pages.foldl (fun c page => if s.vpage page = 0 then c else c.fetchAdd page delta) c

/-- **The whole loop**, over pages that are not counted yet. -/
theorem foldlM_turn (asid : ℕ) {delta : ℤ} {pages : List ℕ} (hnodup : pages.Nodup)
    (hcached : ∀ page ∈ pages, t.cachedPages.count page = s.cachedPages.count page)
    (hcounts : ∀ page ∈ pages, s.vpage page ≠ 0 → s.cachedPages.count page + BitVec.ofInt 8 delta = 0 → ¬ 0 < delta)
    (h : t.Collects (0 < delta) collected) :
    match pages.foldlM (s.turn asid delta) t with
    | none => ∃ e ∈ collected ++ s.collect asid delta t.memoryDeviceInter pages, e.1 = none
    | some t' => t'.Collects (0 < delta) (collected ++ s.collect asid delta t.memoryDeviceInter pages) ∧
      t'.cachedPages = s.counted delta t.cachedPages pages := by
  induction pages generalizing t collected with
  | nil => exact ⟨by simpa [collect] using h, rfl⟩
  | cons page pages ih =>
    obtain ⟨hnew, hnodup⟩ := nodup_cons.1 hnodup
    rw [foldlM_cons]
    by_cases hvpage : s.vpage page = 0
    · have hrest := ih hnodup (t := t.releasePending) (fun q hq => hcached q (mem_cons_of_mem _ hq))
        (fun q hq => hcounts q (mem_cons_of_mem _ hq)) (h.release t.memoryDeviceInter)
      simpa [turn_unbacked s hvpage, collect, counted, hvpage, Progress.releasePending] using hrest
    · have hwrap : t.cachedPages.count page + BitVec.ofInt 8 delta = 0 → ¬ 0 < delta := by
        rw [hcached page mem_cons_self]
        exact hcounts page mem_cons_self hvpage
      have hturn := s.turn_collects asid hwrap h hvpage
      rw [hcached page mem_cons_self] at hturn
      cases hresult : s.turn asid delta t page with
      | none =>
        rw [hresult] at hturn
        obtain ⟨e, he, hnone⟩ := hturn
        exact ⟨e, mem_append_left _ he, hnone⟩
      | some t' =>
        rw [hresult] at hturn
        obtain ⟨hcollects, hinter, hcounters⟩ := hturn
        have hrest := ih hnodup (t := t') (fun q hq => by
          have hne : q ≠ page := fun hq' => hnew (hq' ▸ hq)
          rw [hcounters, Counters.count_fetchAdd_of_ne _ hne]
          exact hcached q (mem_cons_of_mem _ hq)) (fun q hq => hcounts q (mem_cons_of_mem _ hq)) hcollects
        rw [hinter, hcounters] at hrest
        simpa [collect, counted, hvpage, append_assoc] using hrest

end CachingManager
end DeviceMemory
end Core
end Citron
