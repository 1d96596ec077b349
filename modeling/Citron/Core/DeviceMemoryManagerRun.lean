/-
# Runs of the device memory manager

`Map` sets the run lengths of the pages that it maps and `Unmap` sets none, so that the run of an earlier
page may cover pages that were changed since. What a step must not touch for the runs to stay true.
-/
import Citron.Core.DeviceMemoryManagerBlocks

namespace Citron
namespace Core
namespace DeviceMemory
namespace DeviceMemoryManager

variable {host : HostMemory} {process : ProcessMemory host} {s s' : DeviceMemoryManager}

/-! ### What the steps do to the table and to the runs -/

theorem insertDeviceAddr_entries {physicalPage newDev : ℕ} (h : s.insertDeviceAddr physicalPage newDev = some s') :
    s'.entries = s.entries := by
  rw [insertDeviceAddr] at h
  split at h
  · rw [← Option.some.inj h]
  · split at h
    · obtain ⟨c, -, hc⟩ := Option.bind_eq_some_iff.mp h
      rw [← Option.some.inj hc]
    · obtain ⟨c, -, hc⟩ := Option.bind_eq_some_iff.mp h
      rw [← Option.some.inj hc]

theorem removeDeviceAddr_entries {physicalPage device : ℕ} (h : s.removeDeviceAddr physicalPage device = some s') :
    s'.entries = s.entries := by
  rw [removeDeviceAddr] at h
  split at h
  · rw [← Option.some.inj h]
  · obtain ⟨⟨⟨more, start⟩, c⟩, -, hc⟩ := Option.bind_eq_some_iff.mp h
    dsimp only at hc
    split at hc
    · obtain ⟨⟨value, c⟩, -, hc⟩ := Option.bind_eq_some_iff.mp hc
      rw [← Option.some.inj hc]
    · rw [← Option.some.inj hc]

/-- The entry of a page changes and no other. -/
structure Sets (s : DeviceMemoryManager) (page value : ℕ) (s' : DeviceMemoryManager) : Prop where
  table : s'.table = Function.update s.table page value
  continuityAt : s'.continuityAt = s.continuityAt

theorem sets_setEntry {page value : ℕ} {f : GpuCoalescedEntry → GpuCoalescedEntry}
    (hptr : (f (s.entries page)).compressedPhysicalPtr = value)
    (hrun : (f (s.entries page)).continuityTracker = (s.entries page).continuityTracker) : s.Sets page value (s.setEntry page f) where
  table := by
    funext q
    by_cases hq : q = page
    · simp [DeviceMemoryManager.table, setEntry, hq, hptr]
    · simp [DeviceMemoryManager.table, setEntry, hq]
  continuityAt := by
    funext q
    by_cases hq : q = page
    · simp [DeviceMemoryManager.continuityAt, setEntry, hq, hrun]
    · simp [DeviceMemoryManager.continuityAt, setEntry, hq]

theorem Sets.of_entries {page value : ℕ} {t : DeviceMemoryManager} (h : s.Sets page value t) (hentries : s'.entries = t.entries) :
    s.Sets page value s' where
  table := by
    rw [← h.table]
    funext q
    rw [DeviceMemoryManager.table, DeviceMemoryManager.table, hentries]
  continuityAt := by
    rw [← h.continuityAt]
    funext q
    rw [DeviceMemoryManager.continuityAt, DeviceMemoryManager.continuityAt, hentries]

theorem unmapPage_sets {page : ℕ} (h : s.unmapPage page = some s') : s.Sets page 0 s' := by
  rw [unmapPage] at h
  have hset : s.Sets page 0 (s.setEntry page fun e => { e with compressedPhysicalPtr := 0, cpuBackingAddress := 0 }) :=
    sets_setEntry rfl rfl
  split at h
  · exact hset.of_entries (removeDeviceAddr_entries h)
  · rw [← Option.some.inj h]
    exact hset

/-- The entry that `Map` gives to a page. -/
def backing (process : ProcessMemory host) (virtualAddress i : ℕ) : ℕ :=
  if pagePointer process virtualAddress i = 0 then 0 else physicalPage host (pagePointer process virtualAddress i) + 1

theorem mapPage_sets {virtualAddress asid startPage i : ℕ} (h : s.mapPage process virtualAddress asid startPage i = some s') :
    s.Sets (startPage + i) (backing process virtualAddress i) s' := by
  rw [mapPage] at h
  rw [backing]
  split at h
  · rename_i hptr
    rw [if_pos hptr, ← Option.some.inj h]
    exact sets_setEntry rfl rfl
  · rename_i hptr
    rw [if_neg hptr]
    have hentries := insertDeviceAddr_entries h
    refine Sets.of_entries (t := s.setEntry (startPage + i) fun e => ?_) ?_ ?_
    · exact { e with
        compressedPhysicalPtr := physicalPage host (pagePointer process virtualAddress i) + 1
        cpuBackingAddress := (virtualAddress + i * pageSize) ||| asid <<< guestMaxAsBits }
    · exact sets_setEntry rfl rfl
    · rw [hentries, insertCPUBacking, setEntry, setEntry, setEntry]
      simp

/-- The entries of a range of pages change and no other. -/
theorem foldlM_sets {step : DeviceMemoryManager → ℕ → Option DeviceMemoryManager} (value : ℕ → ℕ) {start : ℕ}
    (hstep : ∀ s i s', step s i = some s' → s.Sets (start + i) (value i) s') {n : ℕ}
    (h : (List.range n).foldlM step s = some s') : s'.continuityAt = s.continuityAt ∧
      ∀ page, s'.table page = if start ≤ page ∧ page < start + n then value (page - start) else s.table page := by
  induction n generalizing s' with
  | zero =>
    rw [List.range_zero, List.foldlM_nil] at h
    rw [← Option.some.inj h]
    refine ⟨rfl, fun page => ?_⟩
    rw [if_neg (by omega)]
  | succ n ih =>
    rw [List.range_succ, List.foldlM_append] at h
    obtain ⟨t, ht, hlast⟩ := Option.bind_eq_some_iff.mp h
    rw [List.foldlM_cons] at hlast
    obtain ⟨u, hu, hdone⟩ := Option.bind_eq_some_iff.mp hlast
    obtain rfl : u = s' := Option.some.inj hdone
    obtain ⟨hrun, htable⟩ := ih ht
    have hset := hstep t n u hu
    refine ⟨hset.continuityAt.trans hrun, fun page => ?_⟩
    rw [hset.table, Function.update_apply]
    by_cases hpage : page = start + n
    · rw [if_pos hpage, if_pos (by omega), hpage, Nat.add_sub_cancel_left]
    · rw [if_neg hpage, htable page]
      by_cases hin : start ≤ page ∧ page < start + n
      · rw [if_pos hin, if_pos (by omega)]
      · rw [if_neg hin, if_neg (by omega)]

/-- The pointers of `c` pages from the `j`-th on are one page apart. -/
structure Contiguous (f : ℕ → ℕ) (n j c : ℕ) : Prop where
  pos : 0 < c
  fits : j + c ≤ n
  pointers : ∀ k < c, f (j + k) = f j + k * pageSize

theorem Contiguous.one {f : ℕ → ℕ} {n j : ℕ} (h : j < n) : Contiguous f n j 1 where
  pos := Nat.one_pos
  fits := h
  pointers k hk := by
    obtain rfl : k = 0 := by omega
    rw [Nat.zero_mul, Nat.add_zero, Nat.add_zero]

theorem Contiguous.cons {f : ℕ → ℕ} {n j c : ℕ} (h : Contiguous f n (j + 1) c) (hnext : f j + pageSize = f (j + 1)) :
    Contiguous f n j (c + 1) where
  pos := Nat.succ_pos c
  fits := by
    have hfits := h.fits
    omega
  pointers k hk := by
    cases k with
    | zero => rw [Nat.zero_mul, Nat.add_zero, Nat.add_zero]
    | succ k =>
      have hpointer := h.pointers k (by omega)
      calc f (j + (k + 1)) = f (j + 1 + k) := by rw [Nat.add_assoc, Nat.add_comm 1 k]
        _ = f j + pageSize + k * pageSize := by rw [hpointer, hnext]
        _ = f j + (k + 1) * pageSize := by rw [Nat.add_assoc, Nat.add_mul, Nat.one_mul, Nat.add_comm pageSize]

/-- Where the loop over the pages is: behind the last page, or in front of a page with its run. -/
def Tracked (f : ℕ → ℕ) (n index lastPtr pageCount : ℕ) : Prop :=
  (index = n ∧ lastPtr = 0) ∨ (lastPtr = f index ∧ Contiguous f n index pageCount)

theorem Tracked.step {f : ℕ → ℕ} {n index lastPtr pageCount : ℕ} (h : Tracked f n (index + 1) lastPtr pageCount) :
    Contiguous f n index (if f index + pageSize = lastPtr then pageCount + 1 else 1) := by
  have hpage : 0 < pageSize := by decide
  rcases h with ⟨hlast, hptr⟩ | ⟨hptr, hrun⟩
  · rw [if_neg (by omega)]
    exact .one (by omega)
  · by_cases hnext : f index + pageSize = lastPtr
    · rw [if_pos hnext]
      exact hrun.cons (hnext.trans hptr)
    · rw [if_neg hnext]
      have hfits := hrun.fits
      exact .one (by omega)

theorem continuityAt_setEntry_same (s : DeviceMemoryManager) (page : ℕ) {c : ℕ} (hc : 0 < c) :
    (s.setEntry page fun e => { e with continuityTracker := c }).continuityAt page = c := by
  simp [continuityAt, setEntry, Nat.ne_of_gt hc]

theorem continuityAt_setEntry_of_ne (s : DeviceMemoryManager) {page q : ℕ} (f : GpuCoalescedEntry → GpuCoalescedEntry)
    (hq : q ≠ page) : (s.setEntry page f).continuityAt q = s.continuityAt q := by
  simp [continuityAt, setEntry, hq]

theorem table_setEntry_tracker (s : DeviceMemoryManager) (page c : ℕ) :
    (s.setEntry page fun e => { e with continuityTracker := c }).table = s.table := by
  funext q
  by_cases hq : q = page
  · simp [table, setEntry, hq]
  · simp [table, setEntry, hq]

/-- The loop leaves in each page the run that it found. -/
theorem trackFrom_spec (process : ProcessMemory host) (virtualAddress startPage : ℕ) {n : ℕ} (index lastPtr pageCount : ℕ) (s : DeviceMemoryManager)
    (h : Tracked (pagePointer process virtualAddress) n index lastPtr pageCount) :
    (trackFrom process virtualAddress startPage index lastPtr pageCount s).table = s.table ∧
    (∀ page, ¬ (startPage ≤ page ∧ page < startPage + index) →
      (trackFrom process virtualAddress startPage index lastPtr pageCount s).continuityAt page = s.continuityAt page) ∧
    ∀ j < index, Contiguous (pagePointer process virtualAddress) n j
      ((trackFrom process virtualAddress startPage index lastPtr pageCount s).continuityAt (startPage + j)) := by
  induction index generalizing lastPtr pageCount s with
  | zero => exact ⟨rfl, fun _ _ => rfl, fun j hj => absurd hj (Nat.not_lt_zero j)⟩
  | succ index ih =>
    rw [trackFrom]
    have hrun := h.step
    generalize (if pagePointer process virtualAddress index + pageSize = lastPtr then pageCount + 1 else 1) = count at hrun ⊢
    obtain ⟨htable, hother, hruns⟩ := ih (pagePointer process virtualAddress index) count
      (s.setEntry (startPage + index) fun e => { e with continuityTracker := count }) (.inr ⟨rfl, hrun⟩)
    refine ⟨htable.trans (table_setEntry_tracker s _ _), fun page hpage => ?_, fun j hj => ?_⟩
    · rw [hother page (by omega), continuityAt_setEntry_of_ne _ _ (by omega)]
    · by_cases hlast : j = index
      · rw [hlast, hother (startPage + index) (by omega), continuityAt_setEntry_same _ _ hrun.pos]
        exact hrun
      · exact hruns j (by omega)

/-- What `Map` with its runs does. -/
structure Maps (s : DeviceMemoryManager) (process : ProcessMemory host) (start virtualAddress n : ℕ) (s' : DeviceMemoryManager) :
    Prop where
  table : ∀ page, s'.table page =
    if start ≤ page ∧ page < start + n then backing process virtualAddress (page - start) else s.table page
  other : ∀ page, ¬ (start ≤ page ∧ page < start + n) → s'.continuityAt page = s.continuityAt page
  runs : ∀ j < n, Contiguous (pagePointer process virtualAddress) n j (s'.continuityAt (start + j))

theorem map_maps {address virtualAddress size asid : ℕ} (h : s.map process address virtualAddress size asid true = some s') :
    s.Maps process (address / pageSize) virtualAddress (numPages size) s' := by
  rw [map] at h
  obtain ⟨t, ht, hs'⟩ := Option.bind_eq_some_iff.mp h
  obtain ⟨hrun, htable⟩ := foldlM_sets (backing process virtualAddress) (fun s i s' => mapPage_sets) ht
  rw [← Option.some.inj hs', if_pos rfl, trackContinuity]
  obtain ⟨htracked, hother, hruns⟩ := trackFrom_spec process virtualAddress (address / pageSize) (numPages size) 0 1 t (.inl ⟨rfl, rfl⟩)
  refine ⟨fun page => ?_, fun page hpage => ?_, hruns⟩
  · rw [htracked, htable page]
  · rw [hother page hpage, hrun]

/-- What `Unmap` does. -/
structure Unmaps (s : DeviceMemoryManager) (start n : ℕ) (s' : DeviceMemoryManager) : Prop where
  table : ∀ page, s'.table page = if start ≤ page ∧ page < start + n then 0 else s.table page
  runs : s'.continuityAt = s.continuityAt

theorem unmap_unmaps {address size : ℕ} (heffective : ¬ (address < pageSize ∨ size = 0 ∨ s.deviceInter = false))
    (h : s.unmap address size = some s') : s.Unmaps (address / pageSize) (numPages size) s' := by
  rw [unmap, if_neg heffective] at h
  obtain ⟨hrun, htable⟩ := foldlM_sets (fun _ => 0) (fun s i s' => unmapPage_sets) h
  exact ⟨htable, hrun⟩

/-! ### What keeps the runs true -/

/-- The run of a page whose pages were just mapped. -/
theorem Contiguous.backing {virtualAddress n j c : ℕ} (h : Contiguous (pagePointer process virtualAddress) n j c) {k : ℕ}
    (hk : k < c) : backing process virtualAddress (j + k) =
      if backing process virtualAddress j = 0 then 0 else backing process virtualAddress j + k := by
  have hpointer := h.pointers k hk
  by_cases hnull : pagePointer process virtualAddress j = 0
  · cases k with
    | zero => simp [DeviceMemoryManager.backing, hnull]
    | succ k =>
      -- a page behind a page without a pointer would be at the first page of the host
      have hnext := h.pointers 1 (by omega)
      rw [hnull, Nat.one_mul, Nat.zero_add] at hnext
      have hinside := (process.inside (virtualAddress + (j + 1) * pageSize) (by
        change pagePointer process virtualAddress (j + 1) ≠ 0
        rw [hnext]
        decide)).1
      change host.physicalBase ≤ pagePointer process virtualAddress (j + 1) at hinside
      have habove := host.above
      omega
  · have hbase : host.physicalBase ≤ pagePointer process virtualAddress j := (process.inside _ hnull).1
    have hphysical : physicalPage host (pagePointer process virtualAddress (j + k)) =
        physicalPage host (pagePointer process virtualAddress j) + k := by
      rw [physicalPage, physicalPage, hpointer, Nat.sub_add_comm hbase, Nat.add_mul_div_right _ _ (by decide)]
    have hnext : pagePointer process virtualAddress (j + k) ≠ 0 := by omega
    simp only [DeviceMemoryManager.backing, hnull, hnext, if_false, hphysical, Nat.succ_ne_zero]
    omega

/-- `Map` leaves as it is each page of its range that the run of an earlier page reaches. -/
def MapKeeps (s : DeviceMemoryManager) (process : ProcessMemory host) (start virtualAddress n : ℕ) : Prop :=
  ∀ q page, q < start → start ≤ page → page < start + n → page < q + s.continuityAt q →
    backing process virtualAddress (page - start) = s.table page

/-- No run of a mapped page crosses this place. -/
def NoRunCrosses (s : DeviceMemoryManager) (place : ℕ) : Prop :=
  ∀ q, q < place → s.table q ≠ 0 → q + s.continuityAt q ≤ place

theorem Maps.runsAgree_iff {start virtualAddress n : ℕ} (hmaps : s.Maps process start virtualAddress n s') (h : RunsAgree s) :
    RunsAgree s' ↔ s.MapKeeps process start virtualAddress n := by
  constructor
  · intro h' q page hq hstart hend hreach
    have hrun := h' q (page - q) (by rw [hmaps.other q (by omega)]; omega)
    have hold := h q (page - q) (by omega)
    have hplace : q + (page - q) = page := by omega
    rw [hplace] at hrun hold
    have hq' : s'.table q = s.table q := by rw [hmaps.table q, if_neg (by omega)]
    have hpage' : s'.table page = backing process virtualAddress (page - start) := by rw [hmaps.table page, if_pos ⟨hstart, hend⟩]
    rw [hq', hpage'] at hrun
    rw [hrun, hold]
  · intro hkeeps q k hk
    by_cases hq : start ≤ q ∧ q < start + n
    · obtain ⟨j, rfl⟩ : ∃ j, q = start + j := ⟨q - start, by omega⟩
      have hrun := hmaps.runs j (by omega)
      have hfits := hrun.fits
      have hnext : start + j + k - start = j + k := by omega
      rw [hmaps.table (start + j), if_pos hq, hmaps.table, if_pos (by omega), hnext, Nat.add_sub_cancel_left]
      exact hrun.backing hk
    · rw [hmaps.other q hq] at hk
      rw [hmaps.table q, if_neg hq, ← h q k hk, hmaps.table]
      split
      · rename_i hin
        exact hkeeps q (q + k) (by omega) hin.1 hin.2 (by omega)
      · rfl

theorem Unmaps.runsAgree_iff {start n : ℕ} (hunmaps : s.Unmaps start n s') (hn : 0 < n) (h : RunsAgree s) :
    RunsAgree s' ↔ s.NoRunCrosses start ∧ s.NoRunCrosses (start + n) := by
  constructor
  · intro h'
    have hstart : s.NoRunCrosses start := by
      intro q hq hmapped
      by_contra hcross
      have hrun := h' q (start - q) (by rw [hunmaps.runs]; omega)
      have hplace : q + (start - q) = start := by omega
      have hq' : s'.table q = s.table q := by rw [hunmaps.table q, if_neg (by omega)]
      have hstart' : s'.table start = 0 := by rw [hunmaps.table start, if_pos (by omega)]
      rw [hplace, hstart', hq', if_neg hmapped] at hrun
      omega
    refine ⟨hstart, fun q hq hmapped => ?_⟩
    by_contra hcross
    have hin : start ≤ q := by
      by_contra hbefore
      have hbound := hstart q (by omega) hmapped
      omega
    have hrun := h' q (start + n - q) (by rw [hunmaps.runs]; omega)
    have hold := h q (start + n - q) (by omega)
    have hplace : q + (start + n - q) = start + n := by omega
    rw [hplace] at hrun hold
    have hq' : s'.table q = 0 := by rw [hunmaps.table q, if_pos ⟨hin, hq⟩]
    have hend' : s'.table (start + n) = s.table (start + n) := by rw [hunmaps.table (start + n), if_neg (by omega)]
    rw [hend', hold, hq', if_pos rfl, if_neg hmapped] at hrun
    omega
  · rintro ⟨hstart, hend⟩ q k hk
    rw [hunmaps.runs] at hk
    have hold := h q k hk
    rw [hunmaps.table q, hunmaps.table (q + k)]
    by_cases hmapped : s.table q = 0
    · rw [if_pos hmapped] at hold
      rw [hold, hmapped, ite_self, ite_self, if_pos rfl]
    · have hbefore := hstart q
      have hbehind := hend q
      by_cases hq : start ≤ q ∧ q < start + n
      · rw [if_pos hq, if_pos rfl, if_pos (by omega)]
      · rw [if_neg hq, if_neg hmapped, if_neg (by omega), hold, if_neg hmapped]

/-! ### Whole runs -/

/-- A call, with the memory of the process as it is then. -/
inductive Call (host : HostMemory)
  | map (process : ProcessMemory host) (address virtualAddress size asid : ℕ) (track : Bool)
  | unmap (address size : ℕ)

/-- `Map` that does not track is followed by `TrackContinuity`. -/
def call (s : DeviceMemoryManager) : Call host → Option DeviceMemoryManager
  | .map process address virtualAddress size asid true => s.map process address virtualAddress size asid true
  | .map process address virtualAddress size asid false => do
    let s ← s.map process address virtualAddress size asid false
    return s.trackContinuity process address virtualAddress size
  | .unmap address size => s.unmap address size

/-- What a call must leave alone: `Map` the pages of its range that the run of an earlier page reaches, and
`Unmap`, if it does anything, the runs of mapped pages that cross an end of its range. -/
def Keeps (s : DeviceMemoryManager) : Call host → Prop
  | .map process address virtualAddress size _ _ => s.MapKeeps process (address / pageSize) virtualAddress (numPages size)
  | .unmap address size => ¬ (address < pageSize ∨ size = 0 ∨ s.deviceInter = false) →
    s.NoRunCrosses (address / pageSize) ∧ s.NoRunCrosses (address / pageSize + numPages size)

/-- Every state of a run moves blocks as its table says. -/
def AlwaysFaithful (s : DeviceMemoryManager) : List (Call host) → Prop
  | [] => Faithful s
  | c :: calls => Faithful s ∧ ∀ s', s.call c = some s' → s'.AlwaysFaithful calls

/-- Every call of a run leaves alone what it must. -/
def AlwaysKeeps (s : DeviceMemoryManager) : List (Call host) → Prop
  | [] => True
  | c :: calls => ∀ s', s.call c = some s' → s.Keeps c ∧ s'.AlwaysKeeps calls

theorem map_false_track (s : DeviceMemoryManager) (process : ProcessMemory host) (address virtualAddress size asid : ℕ) :
    s.call (.map process address virtualAddress size asid false) = s.call (.map process address virtualAddress size asid true) := by
  rw [call, call, map, map]
  simp

theorem runsAgree_call_iff {c : Call host} (h : RunsAgree s) (hcall : s.call c = some s') : RunsAgree s' ↔ s.Keeps c := by
  cases c with
  | map process address virtualAddress size asid track =>
    have htrack : s.map process address virtualAddress size asid true = some s' := by
      cases track with
      | true => exact hcall
      | false => exact (map_false_track s process address virtualAddress size asid).symm.trans hcall
    exact (map_maps htrack).runsAgree_iff h
  | unmap address size =>
    by_cases heffective : address < pageSize ∨ size = 0 ∨ s.deviceInter = false
    · rw [call, unmap, if_pos heffective] at hcall
      rw [← Option.some.inj hcall]
      exact ⟨fun _ hnot => absurd heffective hnot, fun _ => h⟩
    · have hsize : 0 < numPages size := Nat.div_pos (by simp only [pageSize]; omega) (by decide)
      rw [(unmap_unmaps heffective hcall).runsAgree_iff hsize h]
      exact ⟨fun hends _ => hends, fun hends => hends heffective⟩

theorem AlwaysFaithful.faithful {calls : List (Call host)} (h : s.AlwaysFaithful calls) : Faithful s := by
  cases calls with
  | nil => exact h
  | cons c calls => exact h.1

theorem alwaysFaithful_iff (calls : List (Call host)) (h : RunsAgree s) : s.AlwaysFaithful calls ↔ s.AlwaysKeeps calls := by
  induction calls generalizing s with
  | nil => exact ⟨fun _ => trivial, fun _ => h.faithful⟩
  | cons c calls ih =>
    constructor
    · intro halways s' hcall
      have hnext := halways.2 s' hcall
      have hagree : RunsAgree s' := hnext.faithful.runsAgree
      exact ⟨(runsAgree_call_iff h hcall).mp hagree, (ih hagree).mp hnext⟩
    · intro hkeeps
      refine ⟨h.faithful, fun s' hcall => ?_⟩
      obtain ⟨hkeep, hnext⟩ := hkeeps s' hcall
      exact (ih ((runsAgree_call_iff h hcall).mpr hkeep)).mpr hnext

theorem runsAgree_initial (deviceInter : Bool) : RunsAgree (initial deviceInter) := by
  intro page k hk
  obtain rfl : k = 0 := by
    change k < 1 at hk
    omega
  rfl

/-- **In every run, each state moves blocks as its table says exactly when each call leaves alone the pages
that a run it does not set relies on.** -/
theorem device_memory_translation (deviceInter : Bool) (calls : List (Call host)) :
    (initial deviceInter).AlwaysFaithful calls ↔ (initial deviceInter).AlwaysKeeps calls :=
  alwaysFaithful_iff calls (runsAgree_initial deviceInter)

/-! ### A run that outlives its pages -/

def lowHost : HostMemory := ⟨0x10000, by decide⟩

/-- The virtual address is the place in the physical memory. -/
def identityProcess : ProcessMemory lowHost where
  getPointerSilent v := if v < 2 ^ physicalBits then 0x10000 + v else 0
  inside v hv := by
    split at hv
    · rename_i hin
      rw [if_pos hin]
      exact ⟨Nat.le_add_right _ _, Nat.add_lt_add_left hin _⟩
    · exact absurd rfl hv

/-- Three pages are mapped and the second is unmapped. -/
def unmapMiddle : List (Call lowHost) := [.map identityProcess 0x1000 0x5000 0x3000 0 true, .unmap 0x2000 0x1000]

/-- The span over the first two pages is given out still. -/
theorem unmapMiddle_not_faithful : ¬ (initial true).AlwaysFaithful unmapMiddle := by
  intro h
  have hfaithful := (h.2 _ rfl).2 _ rfl
  have hspan := hfaithful.faithful.span 0x1000 0x2000 0x5000 (by decide) 0x1000 (by decide)
  revert hspan
  decide

end DeviceMemoryManager
end DeviceMemory
end Core
end Citron
