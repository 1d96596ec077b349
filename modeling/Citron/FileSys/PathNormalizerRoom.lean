/-
# The room that the path normalizer needs

Between two components the destination is empty or starts with a separator, and there is room for a character more (`Room`);
a turn of the loop keeps this (`normalizeLoop_room`), so nothing is written outside the destination and no length wraps while
there is room for two characters. With room for one it depends on the first component (`RefusedEarly`), as a separator may
fill the destination before the loop. **`normalize_noFault_iff`** says when the normalizer makes no fault.
-/
import Citron.FileSys.PathNormalizerRun
import Citron.Lib.Yields

namespace Citron
namespace FileSys
namespace PathNormalizer

open Lib List

variable {m : ℕ} {win all drv skip : Bool} {s cur path out : List Char} {segs : List (List Char)}

/-! ### Ends without a fault -/

def IsResult : PathStop → Prop
  | .result _ => True
  | .fault _ => False

theorem noFault_iff_yields {α : Type} {x : PathRun α} : NoFault x ↔ Yields IsResult x fun _ => True := by
  cases x with
  | ok a => exact ⟨fun _ => trivial, fun _ _ h => nomatch h⟩
  | error e =>
    cases e with
    | result r => exact ⟨fun _ => trivial, fun _ _ h => nomatch h⟩
    | fault f => exact ⟨fun h => h f rfl, fun h => h.elim⟩

theorem not_noFault {α : Type} (f : PathFault) : ¬ NoFault (throwFault f : PathRun α) := fun h => h f rfl

theorem yields_result {α : Type} {Q : α → Prop} (r : PathResult) : Yields IsResult (throwResult r : PathRun α) Q := trivial

/-! ### The steps of a component -/

/-- The destination between two components. -/
structure Room (m : ℕ) (out : List Char) (skip : Bool) : Prop where
  length_lt : out.length < m
  root : out = [] ∨ out.head? = some directorySeparator
  skip_ne_nil : skip = true → out ≠ []

/-- The destination behind a separator. -/
structure Behind (m : ℕ) (out : List Char) : Prop where
  length_lt : out.length < m
  root : out.head? = some directorySeparator

theorem Behind.ne_nil (h : Behind m out) : out ≠ [] := by
  rintro rfl
  exact nomatch h.root

theorem Behind.room (h : Behind m out) (skip : Bool) : Room m out skip := ⟨h.length_lt, .inr h.root, fun _ => h.ne_nil⟩

theorem Room.behind (h : Room m out skip) (hne : out ≠ []) : Behind m out := ⟨h.length_lt, h.root.resolve_left hne⟩

theorem putSeparator_behind (h : Room m out skip) : Yields IsResult (putSeparator m out skip) (Behind m) := by
  rw [putSeparator_eq h.length_lt]
  split_ifs with hfull hskip
  · exact yields_result _
  · exact h.behind (h.skip_ne_nil hskip)
  · have hroom : out.length + 1 ≠ m := fun he => hfull ⟨Bool.eq_false_iff.mpr hskip, he⟩
    refine ⟨?_, ?_⟩
    · rw [length_append, length_singleton]
      have := h.length_lt
      omega
    · rcases h.root with rfl | hroot
      · rfl
      · rw [head?_append, hroot]
        rfl

theorem backUp_le (hroot : out.head? = some directorySeparator) : ∀ k, Yields IsResult (backUp out k) (· ≤ k)
  | 0 => by
    rw [backUp, ← List.head?_eq_getElem?, if_pos hroot]
    exact le_rfl
  | k + 1 => by
    rw [backUp]
    split_ifs
    · exact le_rfl
    · exact Nat.zero_le _
    · exact (backUp_le hroot k).mono fun _ => Nat.le_succ_of_le

theorem removeComponent_room (h : Behind m out) :
    Yields IsResult (removeComponent win out) fun out' => Room m out' false := by
  have hpos := length_pos_of_ne_nil h.ne_nil
  have hlt := h.length_lt
  unfold removeComponent
  split_ifs with hone hwin
  · exact ⟨by rw [length_nil]; omega, .inl rfl, nofun⟩
  · exact yields_result _
  · have hsub : subSize out.length 2 = .ok (out.length - 2) := if_pos (by omega)
    rw [hsub]
    refine (backUp_le h.root (out.length - 2)).bind fun k hk => ⟨?_, ?_, nofun⟩
    · rw [length_take]
      omega
    · rcases Nat.eq_zero_or_pos k with rfl | hk0
      · exact .inl rfl
      · rw [head?_take, if_neg (by omega)]
        exact .inr h.root

theorem copyComponent_room (h : Behind m out) (dir : List Char) :
    Yields IsResult (copyComponent m out dir) fun out' => Room m out' false := by
  rw [copyComponent_eq h.length_lt]
  split_ifs with hlong
  · exact yields_result _
  · refine ⟨?_, .inr ?_, nofun⟩
    · rw [length_append]
      omega
    · rw [head?_append, h.root]
      rfl

theorem putComponent_room (h : Behind m out) (cur : List Char) :
    Yields IsResult (putComponent m win all cur out false) fun r => Room m r.1 r.2 := by
  unfold putComponent
  simp only
  split_ifs
  · exact yields_result _
  · exact h.room true
  · exact (removeComponent_room h).bind fun _ hout => hout
  · exact (copyComponent_room h _).bind fun _ hout => hout

/-! ### The loop and the lines behind it -/

theorem behindComponent_head (cur : List Char) :
    behindComponent cur = [] ∨ (behindComponent cur).head? = some directorySeparator := by
  unfold behindComponent
  have hhead := head?_dropWhile_not (· != directorySeparator) (cur.dropWhile (· == directorySeparator))
  cases hrest : (cur.dropWhile (· == directorySeparator)).dropWhile (· != directorySeparator) with
  | nil => exact .inl rfl
  | cons c cs =>
    rw [hrest] at hhead
    right
    simpa using hhead

/-- **The loop keeps the room.** A path that does not start with a separator needs one in the destination. -/
theorem normalizeLoop_room (cur out : List Char) (skip : Bool) (h : Room m out skip)
    (hstart : cur ≠ [] → cur.head? ≠ some directorySeparator → skip = false ∧ out ≠ []) :
    Yields IsResult (normalizeLoop m win all cur out skip) fun r => Room m r.1 r.2 := by
  have hnext : ∀ out' skip', Room m out' skip' → cur ≠ [] →
      Yields IsResult (normalizeLoop m win all (behindComponent cur) out' skip') fun r => Room m r.1 r.2 := by
    intro out' skip' h' hcur
    have := behindComponent_length_lt hcur
    exact normalizeLoop_room (behindComponent cur) out' skip' h' fun hne hhead =>
      absurd ((behindComponent_head cur).resolve_left hne) hhead
  rw [normalizeLoop]
  split_ifs with hnil hhead
  · exact h
  · dsimp only
    split_ifs
    · exact h
    · refine (putSeparator_behind h).bind fun out' hout' => ?_
      exact (putComponent_room hout' _).bind fun r hr => hnext r.1 r.2 hr hnil
  · obtain ⟨rfl, hne⟩ := hstart hnil hhead
    exact (putComponent_room (h.behind hne) _).bind fun r hr => hnext r.1 r.2 hr hnil
termination_by cur.length

theorem closePath_noFault (hpos : 0 < out.length) (hlen : out.length < m) : NoFault (closePath m all out) := by
  have hsub : subSize out.length 1 = .ok (out.length - 1) := if_pos hpos
  rw [closePath, hsub, Except.bind, if_pos (by omega), terminate_eq hlen, Except.bind]
  cases isNormalized out all with
  | error r => exact noFault_result r
  | ok r => exact noFault_ok out

theorem dropSeparator_eq (h : skip = true → out ≠ []) :
    dropSeparator out skip = .ok (if skip then out.dropLast else out) := by
  cases skip with
  | false => rfl
  | true =>
    have hsub : subSize out.length 1 = .ok (out.length - 1) := if_pos (length_pos_of_ne_nil (h rfl))
    rw [dropSeparator, if_pos rfl, hsub, if_pos rfl, dropLast_eq_take]
    rfl

/-- With room for two characters. -/
theorem finishPath_noFault (h : Room m out skip) (hm : 1 < m) : NoFault (finishPath m all out skip) := by
  rw [finishPath, dropSeparator_eq h.skip_ne_nil]
  set last := if skip then out.dropLast else out with hlast
  have hle : last.length ≤ out.length := by
    rw [hlast]
    split_ifs
    · rw [length_dropLast]
      omega
    · exact le_rfl
  have hlt := h.length_lt
  change NoFault (rootIfEmpty m last >>= closePath m all)
  unfold rootIfEmpty
  split_ifs with hempty
  · have hput : put m [] directorySeparator = .ok [directorySeparator] := if_pos (by rw [length_nil]; omega)
    have hroom : [directorySeparator].length < m := hm
    rw [hput]
    exact closePath_noFault (length_pos_of_ne_nil (cons_ne_nil _ _)) hroom
  · exact closePath_noFault (by omega) (by omega)

/-- A separator cannot be put where only a NUL fits. -/
theorem finishPath_one (h : Room 1 out skip) : finishPath 1 all out skip = throwFault .write := by
  have hlt := h.length_lt
  obtain rfl := length_eq_zero_iff.mp (by omega : out.length = 0)
  obtain rfl : skip = false := Bool.eq_false_iff.mpr fun hskip => h.skip_ne_nil hskip rfl
  rfl

theorem normalizeLoop_finishPath (h : Room m out skip) (hm : 1 < m)
    (hstart : cur ≠ [] → cur.head? ≠ some directorySeparator → skip = false ∧ out ≠ []) :
    NoFault (normalizeLoop m win all cur out skip >>= fun r => finishPath m all r.1 r.2) := by
  rw [noFault_iff_yields]
  refine (normalizeLoop_room cur out skip h hstart).bind fun r hr => ?_
  exact noFault_iff_yields.mp (finishPath_noFault hr hm)

/-! ### Room for one character -/

/-- The components between separators. -/
def components (path : List Char) : List (List Char) := (path.splitOn directorySeparator).filter fun s => !s.isEmpty

/-- What is left of the components behind dots starts with one that is not allowed, or with a double dot; for a Windows path
with a double dot and a component more. -/
def RefusedEarly (isWindowsPath allowAllCharacters : Bool) (comps : List (List Char)) : Prop :=
  match comps.dropWhile (· == [dot]) with
  | [] => False
  | s :: rest => ¬ Valid allowAllCharacters s ∨ (s = [dot, dot] ∧ (isWindowsPath = true → rest ≠ []))

theorem noFault_bind_ok {α β : Type} {x : PathRun α} {f : α → PathRun β} {a : α} (h : x = .ok a) :
    NoFault (x >>= f) ↔ NoFault (f a) := by
  subst h
  exact Iff.rfl

/-- In an empty destination any component is too long. -/
theorem normalizeLoop_one (hsegs : ∀ s ∈ segs, directorySeparator ∉ s) :
    normalizeLoop 1 win all (leadAll directorySeparator segs) [] false =
      if segs.filter (fun s => !s.isEmpty) = [] then .ok ([], false) else throwResult .tooLongPath := by
  induction segs with
  | nil => exact normalizeLoop_nil
  | cons s segs ih =>
    obtain ⟨hs, hrest⟩ := forall_mem_cons.mp hsegs
    rcases eq_or_ne s [] with rfl | hne
    · rw [normalizeLoop_empty, ih hrest]
      rfl
    · have hturn : turn 1 win all s segs [] false = throwResult .tooLongPath := rfl
      have hkeep : (!s.isEmpty) = true := by simpa using hne
      rw [normalizeLoop_component ⟨hne, hs⟩, hturn, filter_cons_of_pos (by exact hkeep), if_neg (cons_ne_nil _ _)]
      rfl

theorem normalizeLoop_one_finishPath (hsegs : ∀ s ∈ segs, directorySeparator ∉ s) :
    NoFault (normalizeLoop 1 win all (leadAll directorySeparator segs) [] false >>= fun r => finishPath 1 all r.1 r.2) ↔
      segs.filter (fun s => !s.isEmpty) ≠ [] := by
  have hroom : Room 1 [] false := ⟨Nat.one_pos, .inl rfl, fun h => nomatch h⟩
  rw [normalizeLoop_one hsegs]
  split_ifs with hempty
  · rw [noFault_bind_ok rfl, finishPath_one hroom]
    exact iff_of_false (not_noFault _) (not_not.mpr hempty)
  · exact iff_of_true (noFault_result _) hempty

/-- A separator more cannot be put. -/
theorem normalizeLoop_filled (hsegs : ∀ s ∈ segs, directorySeparator ∉ s) (hne : segs.filter (fun s => !s.isEmpty) ≠ []) :
    normalizeLoop 1 win all (leadAll directorySeparator segs) [directorySeparator] false = throwFault .write := by
  induction segs with
  | nil => exact absurd rfl hne
  | cons s segs ih =>
    obtain ⟨hs, hrest⟩ := forall_mem_cons.mp hsegs
    rcases eq_or_ne s [] with rfl | hs0
    · rw [normalizeLoop_empty]
      exact ih hrest hne
    · have hturn : turn 1 win all s segs [directorySeparator] false = throwFault .write := rfl
      rw [normalizeLoop_component ⟨hs0, hs⟩, hturn]
      rfl

theorem refusedEarly_dot {comps : List (List Char)} : RefusedEarly win all ([dot] :: comps) ↔ RefusedEarly win all comps := by
  simp only [RefusedEarly, dropWhile_cons, beq_self_eq_true, if_true]

theorem refusedEarly_cons {comps : List (List Char)} (h : s ≠ [dot]) : RefusedEarly win all (s :: comps) ↔
    ¬ Valid all s ∨ (s = [dot, dot] ∧ (win = true → comps ≠ [])) := by
  have hs : (s == [dot]) = false := beq_false_of_ne h
  simp only [RefusedEarly, dropWhile_cons, hs, Bool.false_eq_true, if_false]

/-- In a destination that a separator has filled. -/
theorem normalizeLoop_filled_finishPath (hsegs : ∀ s ∈ segs, directorySeparator ∉ s) :
    NoFault (normalizeLoop 1 win all (leadAll directorySeparator segs) [directorySeparator] true >>=
      fun r => finishPath 1 all r.1 r.2) ↔ RefusedEarly win all (segs.filter fun s => !s.isEmpty) := by
  induction segs with
  | nil =>
    have hfinish : finishPath 1 all [directorySeparator] true = throwFault .write := rfl
    rw [leadAll_nil, normalizeLoop_nil, noFault_bind_ok rfl, hfinish]
    exact iff_of_false (not_noFault _) id
  | cons s segs ih =>
    obtain ⟨hs, hrest⟩ := forall_mem_cons.mp hsegs
    rcases eq_or_ne s [] with rfl | hne
    · rw [normalizeLoop_empty]
      exact ih hrest
    have hname : IsName s := ⟨hne, hs⟩
    have hkeep : (!s.isEmpty) = true := by simpa using hne
    have hturn : turn 1 win all s segs [directorySeparator] true =
        putComponent 1 win all (s ++ leadAll directorySeparator segs) [directorySeparator] false := rfl
    rw [normalizeLoop_component hname, hturn, putComponent_eq hname, filter_cons_of_pos (by exact hkeep)]
    split_ifs with hinvalid hdot hup
    · have hs' : s ≠ [dot] := by
        rintro rfl
        exact absurd hinvalid (by cases all <;> decide)
      rw [refusedEarly_cons hs']
      exact iff_of_true (noFault_result _) (.inl fun hv => valid_iff.mp hv hinvalid)
    · rw [hdot, refusedEarly_dot]
      exact ih hrest
    · have hvalid : Valid all [dot, dot] := .inr (by decide)
      rw [hup, refusedEarly_cons (by decide)]
      rw [show [directorySeparator] = destOf [] true from rfl, removeComponent_nil]
      cases win with
      | false => exact iff_of_true (noFault_result _) (.inr ⟨rfl, nofun⟩)
      | true =>
        refine (normalizeLoop_one_finishPath hrest).trans ?_
        simp [hvalid]
    · have hcopy : copyComponent 1 [directorySeparator] s = throwFault .wrap := by
        rw [copyComponent, if_pos (by rw [length_singleton]; omega)]
        rfl
      rw [hcopy, refusedEarly_cons hdot]
      refine iff_of_false (not_noFault .wrap) ?_
      rintro (hv | ⟨h, -⟩)
      · exact hv (valid_iff.mpr hinvalid)
      · exact hup h

/-! ### The normalization -/

/-- The replacement buffer has room for the path, if it needs the replacement. -/
def FitsReplacement (path : List Char) : Prop :=
  isParentDirectoryPathReplacementNeeded path = true → path.length ≤ entryNameLengthMax

/-- The paths that the normalizer treats without a fault. -/
def SafeBody (maxOutSize : ℕ) (isWindowsPath allowAllCharacters : Bool) (path : List Char) (isDriveRelativePath : Bool) :
    Prop :=
  if path.head? = some directorySeparator then FitsReplacement path ∧ (maxOutSize = 1 → components path ≠ [])
  else isDriveRelativePath = true → FitsReplacement path ∧ (maxOutSize = 1 →
    isParentDirectoryPathReplacementNeeded path = false ∧ RefusedEarly isWindowsPath allowAllCharacters (components path))

theorem replacePath_of_fits (h : FitsReplacement path) : replacePath path = .ok (replacedPath path) := by
  rw [replacePath_eq, if_neg fun hlong => Nat.not_lt.mpr (h hlong.1) hlong.2]

theorem replacePath_of_not_fits (h : ¬ FitsReplacement path) : replacePath path = throwFault .replacement := by
  obtain ⟨hneeded, hlong⟩ := Classical.not_imp.mp h
  rw [replacePath_eq, if_pos ⟨hneeded, Nat.not_le.mp hlong⟩]

theorem components_of_absolute (t : List Char) :
    components (directorySeparator :: t) = (t.splitOn directorySeparator).filter fun s => !s.isEmpty := by
  have hsegs : ∀ s ∈ t.splitOn directorySeparator, directorySeparator ∉ s := fun s hs => notMem_of_mem_splitOn hs
  rw [components, ← leadAll_splitOn, splitOn_leadAll hsegs]
  rfl

theorem components_ne_nil_of_mem {c : Char} (hc : c ∈ path) (hsep : c ≠ directorySeparator) : components path ≠ [] := by
  intro hnil
  have hmem : c ∈ leadAll directorySeparator (path.splitOn directorySeparator) := by
    rw [leadAll_splitOn]
    exact mem_cons_of_mem _ hc
  obtain ⟨s, hs, hcs⟩ := mem_flatMap.mp hmem
  have hempty : s = [] := by simpa using filter_eq_nil_iff.mp hnil s hs
  rw [hempty, mem_singleton] at hcs
  exact hsep hcs

theorem dot_mem_of_hasParent : ∀ {rest : List Char} {prev : Char}, hasParent prev rest = true → dot ∈ rest
  | [], _, h => nomatch h
  | c :: cs, prev, h => by
    rw [hasParent, Bool.or_eq_true] at h
    rcases h with h | h
    · simp only [Bool.and_eq_true, beq_iff_eq] at h
      rw [h.1.1.1]
      exact mem_cons_self
    · exact mem_cons_of_mem _ (dot_mem_of_hasParent h)

/-- The replacement changes separators only. -/
theorem dot_mem_replaceLoop : ∀ {rest : List Char} {prev last : Char}, dot ∈ rest → dot ∈ replaceLoop prev last rest
  | [], _, _, h => nomatch h
  | [c], _, _, h => mem_cons_of_mem _ h
  | [c, d], prev, last, h => by
    rw [replaceLoop]
    split_ifs <;> exact mem_cons_of_mem _ h
  | c₁ :: c₂ :: c₃ :: rest, prev, last, h => by
    rw [replaceLoop]
    split_ifs with hmatch
    · simp only [Bool.and_eq_true, beq_iff_eq] at hmatch
      rw [hmatch.1.2]
      exact mem_cons_of_mem _ (mem_cons_of_mem _ mem_cons_self)
    · rcases mem_cons.mp h with rfl | h
      · obtain ⟨t, ht⟩ : ∃ t, replaceLoop dot dot (c₂ :: c₃ :: rest) = dot :: t := by
          obtain ⟨x, t, ht, rfl | ⟨-, hsep⟩⟩ := @replaceLoop_head dot dot (c₂ :: c₃ :: rest)
          · exact ⟨t, ht⟩
          · exact absurd hsep (by decide)
        rw [ht]
        exact mem_cons_of_mem _ mem_cons_self
      · exact mem_cons_of_mem _ (dot_mem_replaceLoop h)

/-- A path that needs the replacement has a component, and keeps one. -/
theorem components_of_needed (h : isParentDirectoryPathReplacementNeeded path = true) :
    components path ≠ [] ∧ components (replacedPath path) ≠ [] := by
  have hdot : dot ≠ directorySeparator := by decide
  cases path with
  | nil => cases h
  | cons c rest =>
    have hmem : dot ∈ rest := by
      rw [isParentDirectoryPathReplacementNeeded, Bool.and_eq_true, findsParentDirectory_eq] at h
      exact dot_mem_of_hasParent h.2
    refine ⟨components_ne_nil_of_mem (mem_cons_of_mem _ hmem) hdot, components_ne_nil_of_mem ?_ hdot⟩
    rw [replacedPath, if_pos h]
    exact dot_mem_replaceLoop hmem

theorem replacedPath_root (h : isParentDirectoryPathReplacementNeeded path = true) :
    ∃ t, replacedPath path = directorySeparator :: t := by
  cases path with
  | nil => cases h
  | cons c rest =>
    rw [replacedPath, if_pos h]
    exact replaceLoop_root rest

theorem components_replacedPath : components (replacedPath path) ≠ [] ↔ components path ≠ [] := by
  cases hneeded : isParentDirectoryPathReplacementNeeded path with
  | true => exact iff_of_true (components_of_needed hneeded).2 (components_of_needed hneeded).1
  | false => rw [replacedPath_of_not_needed hneeded]

/-- A path that starts at the root. -/
theorem normalize_absolute_noFault_iff (hm : 0 < m) (hpath : path.head? = some directorySeparator) :
    NoFault (normalize m win all path drv) ↔ FitsReplacement path ∧ (m = 1 → components path ≠ []) := by
  rw [normalize_eq hpath]
  by_cases hfits : FitsReplacement path
  swap
  · rw [replacePath_of_not_fits hfits]
    exact iff_of_false (not_noFault .replacement) fun h => hfits h.1
  obtain ⟨t, ht, -⟩ := replacedPath_notNeeded hpath
  have hsegs : ∀ s ∈ t.splitOn directorySeparator, directorySeparator ∉ s := fun s hs => notMem_of_mem_splitOn hs
  rw [replacePath_of_fits hfits, noFault_bind_ok rfl, and_iff_right hfits]
  rcases Nat.lt_or_ge 1 m with hm1 | hm1
  · refine iff_of_true (normalizeLoop_finishPath ⟨hm, .inl rfl, nofun⟩ hm1 fun _ hhead => ?_) fun h => by omega
    exact absurd (by rw [ht]; rfl) hhead
  · obtain rfl : m = 1 := by omega
    rw [← components_replacedPath, ht, components_of_absolute, ← leadAll_splitOn, normalizeLoop_one_finishPath hsegs]
    simp

/-- A path behind a drive-relative prefix. -/
theorem normalize_relative_noFault_iff (hm : 0 < m) (hpath : path.head? ≠ some directorySeparator) :
    NoFault (normalize m win all path true) ↔ FitsReplacement path ∧ (m = 1 →
      isParentDirectoryPathReplacementNeeded path = false ∧ RefusedEarly win all (components path)) := by
  have hstart : startPath m path true = .ok [directorySeparator] := by
    rw [startPath, if_pos hpath, if_pos rfl]
    exact if_pos hm
  rw [normalize, noFault_bind_ok hstart]
  by_cases hfits : FitsReplacement path
  swap
  · rw [replacePath_of_not_fits hfits]
    exact iff_of_false (not_noFault .replacement) fun h => hfits h.1
  rw [replacePath_of_fits hfits, noFault_bind_ok rfl, and_iff_right hfits]
  rcases Nat.lt_or_ge 1 m with hm1 | hm1
  · have hroom : Room m [directorySeparator] false := ⟨hm1, .inr rfl, fun h => absurd h Bool.false_ne_true⟩
    exact iff_of_true (normalizeLoop_finishPath hroom hm1 fun _ _ => ⟨rfl, cons_ne_nil _ _⟩) fun h => by omega
  obtain rfl : m = 1 := by omega
  rw [eq_self_iff_true, true_imp_iff]
  cases hneeded : isParentDirectoryPathReplacementNeeded path with
  | true =>
    have hcomps := (components_of_needed hneeded).2
    obtain ⟨t, ht⟩ := replacedPath_root hneeded
    have hsegs : ∀ s ∈ t.splitOn directorySeparator, directorySeparator ∉ s := fun s hs => notMem_of_mem_splitOn hs
    rw [ht, components_of_absolute] at hcomps
    rw [ht, ← leadAll_splitOn, normalizeLoop_filled hsegs hcomps]
    exact iff_of_false (not_noFault .write) fun h => absurd h.1.symm Bool.false_ne_true
  | false =>
    rw [replacedPath_of_not_needed hneeded, and_iff_right rfl]
    rcases eq_or_ne path [] with rfl | hne
    · have hfinish : finishPath 1 all [directorySeparator] false = throwFault .write := rfl
      rw [normalizeLoop_nil, noFault_bind_ok rfl]
      change NoFault (finishPath 1 all [directorySeparator] false) ↔ _
      rw [hfinish]
      exact iff_of_false (not_noFault .write) id
    · obtain ⟨s, segs, hsplit⟩ := exists_cons_of_ne_nil (splitOn_ne_nil directorySeparator path)
      have hsegs : ∀ s' ∈ s :: segs, directorySeparator ∉ s' := fun s' hs' => notMem_of_mem_splitOn (by rw [hsplit]; exact hs')
      have hlead : directorySeparator :: path = directorySeparator :: (s ++ leadAll directorySeparator segs) := by
        rw [← leadAll_splitOn, hsplit, leadAll_cons]
      have heq := (List.cons.inj hlead).2
      have hs : s ≠ [] := by
        rintro rfl
        rw [heq, nil_append] at hpath hne
        cases segs with
        | nil => exact hne rfl
        | cons s segs => exact hpath rfl
      have hname : IsName s := ⟨hs, hsegs s mem_cons_self⟩
      rw [components, hsplit, ← normalizeLoop_filled_finishPath hsegs, ← normalizeLoop_first hname, ← heq]

/-- **When the path normalizer makes no fault.** -/
theorem normalize_noFault_iff (hm : 0 < m) :
    NoFault (normalize m win all path drv) ↔ SafeBody m win all path drv := by
  unfold SafeBody
  split_ifs with hpath
  · exact normalize_absolute_noFault_iff hm hpath
  · cases drv with
    | false =>
      have hstart : startPath m path false = throwResult .invalidPathFormat := by
        rw [startPath, if_pos hpath]
        rfl
      rw [normalize, hstart]
      exact iff_of_true (noFault_result _) fun h => absurd h Bool.false_ne_true
    | true =>
      rw [normalize_relative_noFault_iff hm hpath]
      simp

/-- What the normalizer gives has its NUL inside the destination. -/
theorem normalize_fits (h : normalize m win all path drv = .ok out) : out.length < m := by
  obtain ⟨start, -, h⟩ := bind_eq_ok h
  obtain ⟨cur, -, h⟩ := bind_eq_ok h
  obtain ⟨⟨dest, skip⟩, -, h⟩ := bind_eq_ok h
  obtain ⟨last, -, h⟩ := bind_eq_ok h
  obtain ⟨closed, -, h⟩ := bind_eq_ok h
  obtain ⟨n, -, h⟩ := bind_eq_ok (f := fun n => if m ≥ n then _ else _) h
  split_ifs at h
  · obtain ⟨_, hterm, h⟩ := bind_eq_ok h
    cases hnormal : isNormalized closed all with
    | error r =>
      rw [hnormal] at h
      cases h
    | ok r =>
      rw [hnormal] at h
      obtain rfl := Except.ok.inj h
      unfold terminate at hterm
      split_ifs at hterm with hlt
      · exact hlt
      · cases hterm
  · cases h

theorem normalize_yields_iff (hm : 0 < m) :
    Yields IsResult (normalize m win all path drv) (fun out => out.length < m) ↔ SafeBody m win all path drv := by
  rw [← normalize_noFault_iff hm, noFault_iff_yields]
  refine ⟨Yields.forget, fun h => ?_⟩
  exact (h.and fun _ hout => normalize_fits hout).mono fun _ hout => hout.2

end PathNormalizer
end FileSys
end Citron
