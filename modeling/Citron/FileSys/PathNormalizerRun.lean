/-
# What the path normalizer does

`IsNormalized` accepts an absolute path if and only if it is the root, or has no component that is empty, a dot or a double
dot (`isNormalized_iff`). The replacement of parent directories leaves nothing to replace (`replacedPath_notNeeded`). So
`Normalize` gives the path that its components reduce to, which is normalized, and which it leaves as it is
(**`normalize_absolute`**).
-/
import Citron.FileSys.PathNormalizerLoop

namespace Citron
namespace FileSys
namespace PathNormalizer

open Lib List

variable {m len : ℕ} {win all drv skip : Bool} {s t x path out : List Char} {st segs : List (List Char)} {state : PathState}
  {c prev last : Char}

/-! ### What the normalizer is for -/

/-- The path that the components reduce to: empty ones and dots are dropped, and a double dot takes the last one off. At the
root a double dot is refused, or dropped for a Windows path. -/
def referencePath (isWindowsPath : Bool) (path : List Char) : Option (List Char) :=
  (reduce isSkipped isUp isWindowsPath [] (path.splitOn directorySeparator)).map fun st =>
    directorySeparator :: [directorySeparator].intercalate st

/-- A component of a normalized path. -/
structure NormalName (allowAllCharacters : Bool) (s : List Char) : Prop where
  name : IsName s
  plain : Plain isSkipped isUp s
  valid : Valid allowAllCharacters s

/-- `IsNormalized` reports the path normalized. -/
def IsReportedNormalized (path : List Char) (allowAllCharacters : Bool) : Prop :=
  (isNormalized path allowAllCharacters).map Prod.fst = .ok true

instance : Decidable (IsReportedNormalized path all) := by unfold IsReportedNormalized; infer_instance

/-! ### The test -/

/-- The state after a character that is no separator. -/
def inside : PathState → Char → PathState
  | .firstSeparator, c => if c = dot then .currentDir else .normal
  | .separator, c => if c = dot then .currentDir else .normal
  | .currentDir, c => if c = dot then .parentDir else .normal
  | _, _ => .normal

theorem inside_ne_start (state : PathState) (c : Char) : inside state c ≠ .start := by
  cases state <;> by_cases hc : c = dot <;> simp [inside, hc]

theorem isNormalizedLoop_cons (hc : c ≠ directorySeparator) (hstate : state ≠ .start) (cs : List Char) :
    isNormalizedLoop all state len (c :: cs) =
      if !all && isInvalidCharacter c then .error .invalidCharacter
      else isNormalizedLoop all (inside state c) (len + 1) cs := by
  cases state with
  | start => exact absurd rfl hstate
  | _ => simp [isNormalizedLoop, nextState, hc, inside]

theorem valid_cons : Valid all (c :: t) ↔ ¬ (!all && isInvalidCharacter c) = true ∧ Valid all t := by
  rw [valid_iff, valid_iff, any_cons, Bool.and_or_distrib_left, Bool.or_eq_true, not_or]

/-- Characters without a separator. -/
theorem isNormalizedLoop_append (ht : directorySeparator ∉ t) (hv : Valid all t) (hstate : state ≠ .start) :
    isNormalizedLoop all state len (t ++ x) = isNormalizedLoop all (t.foldl inside state) (len + t.length) x := by
  induction t generalizing state len with
  | nil => rfl
  | cons c t ih =>
    rw [mem_cons, not_or] at ht
    obtain ⟨hc, hv⟩ := valid_cons.mp hv
    rw [cons_append, isNormalizedLoop_cons (Ne.symm ht.1) hstate, if_neg hc, ih ht.2 hv (inside_ne_start state c),
      foldl_cons, length_cons]
    congr 1
    omega

/-- A character that is not allowed is an error, whatever comes before it in the component. -/
theorem isNormalizedLoop_invalid (ht : directorySeparator ∉ t) (hv : ¬ Valid all t) (hstate : state ≠ .start) :
    isNormalizedLoop all state len (t ++ x) = .error .invalidCharacter := by
  induction t generalizing state len with
  | nil => exact absurd (.inr rfl) hv
  | cons c t ih =>
    rw [mem_cons, not_or] at ht
    rw [cons_append, isNormalizedLoop_cons (Ne.symm ht.1) hstate]
    split_ifs with hc
    · rfl
    · exact ih ht.2 (fun hv' => hv (valid_cons.mpr ⟨hc, hv'⟩)) (inside_ne_start state c)

theorem foldl_inside_normal (t : List Char) : t.foldl inside .normal = .normal := by
  induction t with
  | nil => rfl
  | cons c t ih => exact ih

/-- A name other than a dot or a double dot leads to the normal state. -/
theorem foldl_inside_plain (hs : Plain isSkipped isUp s) (hstate : state = .firstSeparator ∨ state = .separator) :
    s.foldl inside state = .normal := by
  have hfirst : ∀ c, inside state c = if c = dot then .currentDir else .normal := fun c => by
    rcases hstate with rfl | rfl <;> rfl
  match s with
  | [] => exact absurd hs.1 (by decide)
  | c :: s =>
    rw [foldl_cons, hfirst]
    by_cases hc : c = dot
    · subst hc
      rw [if_pos rfl]
      match s with
      | [] => exact absurd hs.1 (by decide)
      | d :: s =>
        rw [foldl_cons, inside]
        by_cases hd : d = dot
        · subst hd
          rw [if_pos rfl]
          match s with
          | [] => exact absurd hs.2 (by decide)
          | e :: s => exact foldl_inside_normal s
        · rw [if_neg hd]
          exact foldl_inside_normal s
    · rw [if_neg hc]
      exact foldl_inside_normal s

/-- Names behind separators. -/
theorem isNormalizedLoop_names (h : ∀ s ∈ segs, NormalName all s) :
    isNormalizedLoop all .normal len (leadAll directorySeparator segs) =
      .ok (true, some (len + (leadAll directorySeparator segs).length)) := by
  induction segs generalizing len with
  | nil => rfl
  | cons s segs ih =>
    obtain ⟨⟨hname, hplain, hv⟩, hsegs⟩ := forall_mem_cons.mp h
    have hsep : isNormalizedLoop all .normal len (directorySeparator :: (s ++ leadAll directorySeparator segs)) =
        isNormalizedLoop all .separator (len + 1) (s ++ leadAll directorySeparator segs) := by
      have hvalid : isInvalidCharacter directorySeparator = false := by decide
      simp [isNormalizedLoop, nextState, hvalid]
    rw [leadAll_cons, hsep, isNormalizedLoop_append hname.noSeparator hv (by decide), foldl_inside_plain hplain (.inr rfl),
      ih hsegs]
    simp only [length_cons, length_append]
    congr 3
    omega

/-- Behind a separator only such names are reported normalized. -/
theorem normalName_of_reported (hs : directorySeparator ∉ s) (hstate : state = .firstSeparator ∨ state = .separator)
    (h : (isNormalizedLoop all state len (s ++ leadAll directorySeparator segs)).map Prod.fst = .ok true)
    (hroot : state = .firstSeparator → s ++ leadAll directorySeparator segs ≠ []) :
    NormalName all s ∧
      (isNormalizedLoop all .normal (len + s.length) (leadAll directorySeparator segs)).map Prod.fst = .ok true := by
  have hstart : state ≠ .start := by rcases hstate with rfl | rfl <;> decide
  have hv : Valid all s := by
    by_contra hv
    rw [isNormalizedLoop_invalid hs hv hstart] at h
    cases h
  rw [isNormalizedLoop_append hs hv hstart] at h
  -- after nothing, a dot or a double dot the next character, or the end, gives another answer
  have hwrong : ∀ st, st = .separator ∨ st = .currentDir ∨ st = .parentDir ∨ (st = .firstSeparator ∧ segs ≠ []) →
      (isNormalizedLoop all st (len + s.length) (leadAll directorySeparator segs)).map Prod.fst ≠ .ok true := by
    have hvalid : isInvalidCharacter directorySeparator = false := by decide
    rintro st hst hok
    cases segs with
    | nil => rcases hst with rfl | rfl | rfl | ⟨-, hne⟩ <;> first | cases hok | exact absurd rfl hne
    | cons t segs =>
      rcases hst with rfl | rfl | rfl | ⟨rfl, -⟩ <;> simp [isNormalizedLoop, nextState, hvalid, Except.map] at hok
  have hne : s ≠ [] := by
    rintro rfl
    refine hwrong state ?_ h
    rcases hstate with rfl | rfl
    · refine .inr (.inr (.inr ⟨rfl, ?_⟩))
      rintro rfl
      exact hroot rfl rfl
    · exact .inl rfl
  have hdot : s ≠ [dot] := by
    rintro rfl
    refine hwrong _ (.inr (.inl ?_)) h
    rcases hstate with rfl | rfl <;> rfl
  have hup : s ≠ [dot, dot] := by
    rintro rfl
    refine hwrong _ (.inr (.inr (.inl ?_))) h
    rcases hstate with rfl | rfl <;> rfl
  have hplain : Plain isSkipped isUp s := by
    constructor
    · simp [isSkipped, hne, hdot]
    · simpa [isUp] using hup
  rw [foldl_inside_plain hplain hstate] at h
  exact ⟨⟨⟨hne, hs⟩, hplain, hv⟩, h⟩

/-- Behind a name too. -/
theorem normalNames_of_reported (hsegs : ∀ s ∈ segs, directorySeparator ∉ s)
    (h : (isNormalizedLoop all .normal len (leadAll directorySeparator segs)).map Prod.fst = .ok true) :
    ∀ s ∈ segs, NormalName all s := by
  induction segs generalizing len with
  | nil => simp
  | cons s segs ih =>
    obtain ⟨hs, hrest⟩ := forall_mem_cons.mp hsegs
    have hsep : isNormalizedLoop all .normal len (leadAll directorySeparator (s :: segs)) =
        isNormalizedLoop all .separator (len + 1) (s ++ leadAll directorySeparator segs) := by
      have hvalid : isInvalidCharacter directorySeparator = false := by decide
      simp [isNormalizedLoop, nextState, hvalid]
    rw [hsep] at h
    obtain ⟨hname, hok⟩ := normalName_of_reported hs (.inr rfl) h fun hc => nomatch hc
    exact forall_mem_cons.mpr ⟨hname, ih hrest hok⟩

theorem isNormalized_separator (x : List Char) :
    isNormalized (directorySeparator :: x) all = isNormalizedLoop all .firstSeparator 1 x := by
  simp [isNormalized, isNormalizedLoop, nextState]

/-- A path of such names is reported normalized, with its length. -/
theorem isNormalized_names (hne : st ≠ []) (h : ∀ s ∈ st, NormalName all s) :
    isNormalized (leadAll directorySeparator st) all = .ok (true, some (leadAll directorySeparator st).length) := by
  obtain ⟨s, st, rfl⟩ := exists_cons_of_ne_nil hne
  obtain ⟨⟨hname, hplain, hv⟩, hst⟩ := forall_mem_cons.mp h
  rw [leadAll_cons, isNormalized_separator, isNormalizedLoop_append hname.noSeparator hv (by decide),
    foldl_inside_plain hplain (.inl rfl), isNormalizedLoop_names hst]
  simp only [length_cons, length_append]
  congr 3
  omega

/-- **The paths that are reported normalized**: the root, and those without empty components, dots and double dots. -/
theorem isNormalized_iff (hne : segs ≠ []) (hsegs : ∀ s ∈ segs, directorySeparator ∉ s) :
    IsReportedNormalized (leadAll directorySeparator segs) all ↔ segs = [[]] ∨ ∀ s ∈ segs, NormalName all s := by
  constructor
  · intro h
    obtain ⟨s, segs, rfl⟩ := exists_cons_of_ne_nil hne
    obtain ⟨hs, hrest⟩ := forall_mem_cons.mp hsegs
    unfold IsReportedNormalized at h
    rw [leadAll_cons, isNormalized_separator] at h
    by_cases hroot : s ++ leadAll directorySeparator segs = []
    · obtain ⟨rfl, hnil⟩ := append_eq_nil_iff.mp hroot
      cases segs with
      | nil => exact .inl rfl
      | cons t segs => cases hnil
    · obtain ⟨hname, hok⟩ := normalName_of_reported hs (.inl rfl) h fun _ => hroot
      exact .inr (forall_mem_cons.mpr ⟨hname, normalNames_of_reported hrest hok⟩)
  · rintro (rfl | h)
    · cases all <;> decide
    · unfold IsReportedNormalized
      rw [isNormalized_names hne h]
      rfl

/-! ### The replacement -/

/-- A double dot between separators, or at the end, with an alternate separator before or behind it. -/
def hasParent : Char → List Char → Bool
  | _, [] => false
  | prev, c :: cs =>
    (c == dot && cs.head? == some dot && isSeparator prev &&
      match cs.tail with
      | [] => prev == alternateDirectorySeparator
      | d :: _ => isSeparator d && (prev == alternateDirectorySeparator || d == alternateDirectorySeparator)) ||
      hasParent c cs

theorem findsParentDirectory_eq : ∀ (rest : List Char) (c₀ : Char), findsParentDirectory (c₀ :: rest) = hasParent c₀ rest
  | [], _ => rfl
  | [_], _ => by simp [findsParentDirectory, hasParent]
  | [c₁, c₂], c₀ => by
    have hsome : (some c₂ == some dot) = (c₂ == dot) := rfl
    simp only [findsParentDirectory, hasParent, head?_cons, tail_cons, head?_nil, isSeparator, hsome]
    cases c₀ == alternateDirectorySeparator <;> cases c₁ == dot <;> cases c₂ == dot <;> simp
  | c₁ :: c₂ :: c₃ :: rest, c₀ => by
    have ih := findsParentDirectory_eq (c₂ :: c₃ :: rest) c₁
    rw [findsParentDirectory, hasParent, ih]
    congr 1
    have hsome : (some c₂ == some dot) = (c₂ == dot) := rfl
    simp only [head?_cons, tail_cons, isSeparator, hsome]
    cases c₀ == alternateDirectorySeparator <;> cases c₃ == alternateDirectorySeparator <;> cases c₁ == dot <;>
      cases c₂ == dot <;> cases c₀ == directorySeparator <;> cases c₃ == directorySeparator <;> rfl

/-- A separator ends what is looked at. -/
theorem hasParent_append : ∀ {s : List Char} {prev : Char}, directorySeparator ∉ s → ∀ x : List Char,
    hasParent prev (s ++ directorySeparator :: x) = (hasParent prev s || hasParent directorySeparator x)
  | [], _, _, x => by
    have hdot : (directorySeparator == dot) = false := by decide
    simp [hasParent, hdot]
  | [c], prev, _, x => by
    have hdot : (directorySeparator == dot) = false := by decide
    simp [hasParent, hdot]
  | [c, d], prev, _, x => by
    have hdot : (directorySeparator == dot) = false := by decide
    have hsep : isSeparator directorySeparator = true := by decide
    have halt : (directorySeparator == alternateDirectorySeparator) = false := by decide
    simp [hasParent, hdot, hsep, halt]
  | c :: d :: e :: s, prev, hs, x => by
    have ih := @hasParent_append (d :: e :: s) c (fun h => hs (mem_cons_of_mem _ h)) x
    change (_ || hasParent c (d :: e :: s ++ directorySeparator :: x)) = ((_ || hasParent c (d :: e :: s)) || _)
    rw [ih, Bool.or_assoc]
    rfl

/-- Whether a path needs the replacement is a matter of its components one by one. -/
theorem replacementNeeded_iff (hsegs : ∀ s ∈ segs, directorySeparator ∉ s) :
    isParentDirectoryPathReplacementNeeded (leadAll directorySeparator segs) = true ↔
      ∃ s ∈ segs, hasParent directorySeparator s = true := by
  cases segs with
  | nil => simp [isParentDirectoryPathReplacementNeeded]
  | cons s segs =>
    have hsep : isSeparator directorySeparator = true := by decide
    have hneeded : isParentDirectoryPathReplacementNeeded (leadAll directorySeparator (s :: segs)) =
        hasParent directorySeparator (s ++ leadAll directorySeparator segs) := by
      rw [leadAll_cons, isParentDirectoryPathReplacementNeeded, hsep, Bool.true_and, findsParentDirectory_eq]
    rw [hneeded]
    clear hneeded
    induction segs generalizing s with
    | nil => simp
    | cons t segs ih =>
      obtain ⟨hs, hrest⟩ := forall_mem_cons.mp hsegs
      rw [leadAll_cons, hasParent_append hs, Bool.or_eq_true, exists_mem_cons_iff]
      exact or_congr_right (ih t hrest)

/-- The path that is normalized: with its parent directories replaced, if that is needed. -/
def replacedPath (path : List Char) : List Char :=
  match path with
  | [] => []
  | c :: rest => if isParentDirectoryPathReplacementNeeded path then replaceLoop c directorySeparator rest else path

/-- Nothing is replaced behind a character that is no separator. -/
theorem replaceLoop_of_not_separator (h : isSeparator prev = false) (cs : List Char) :
    replaceLoop prev last (c :: cs) = last :: replaceLoop c c cs := by
  have halt : (prev == alternateDirectorySeparator) = false := by
    by_contra hne
    rw [Bool.not_eq_false, beq_iff_eq] at hne
    subst hne
    cases h
  match cs with
  | [] => rfl
  | [d] => simp [replaceLoop, halt]
  | d :: e :: cs => simp [replaceLoop, h]

theorem replaceLoop_head (rest : List Char) : ∃ x t, replaceLoop prev last rest = x :: t ∧
    (x = last ∨ (x = directorySeparator ∧ isSeparator prev = true)) := by
  match rest with
  | [] => exact ⟨last, [], rfl, .inl rfl⟩
  | [c] => exact ⟨last, [c], rfl, .inl rfl⟩
  | [c, d] =>
    rw [replaceLoop]
    split_ifs with h
    · refine ⟨_, _, rfl, .inr ⟨rfl, ?_⟩⟩
      simp only [Bool.and_eq_true, beq_iff_eq] at h
      rw [h.1.1]
      decide
    · exact ⟨_, _, rfl, .inl rfl⟩
  | c :: d :: e :: cs =>
    rw [replaceLoop]
    split_ifs with h
    · refine ⟨_, _, rfl, .inr ⟨rfl, ?_⟩⟩
      simp only [Bool.and_eq_true] at h
      exact h.1.1.1
    · exact ⟨_, _, rfl, .inl rfl⟩

theorem replaceLoop_root (rest : List Char) : ∃ t, replaceLoop prev directorySeparator rest = directorySeparator :: t := by
  obtain ⟨x, t, h, rfl | ⟨rfl, -⟩⟩ := @replaceLoop_head prev directorySeparator rest <;> exact ⟨t, h⟩

/-- A character that is written as it is starts no double dot that should have been replaced. -/
theorem hasParent_cons_of_not {c₁ : Char} {rest : List Char}
    (hlast : last = prev ∨ (isSeparator prev = true ∧ last = directorySeparator))
    (h₂ : ∀ c₂, rest = [c₂] → ¬ (prev == alternateDirectorySeparator && c₁ == dot && c₂ == dot) = true)
    (h₃ : ∀ c₂ c₃ rest', rest = c₂ :: c₃ :: rest' → ¬ (isSeparator prev && c₁ == dot && c₂ == dot && isSeparator c₃) = true)
    (ih : ∀ y t, replaceLoop c₁ c₁ rest = y :: t → hasParent y t = false) :
    hasParent last (replaceLoop c₁ c₁ rest) = false := by
  obtain ⟨y, t, hy, hhead⟩ := @replaceLoop_head c₁ c₁ rest
  rw [hy, hasParent, ih y t hy, Bool.or_false]
  by_contra hlocal
  simp only [Bool.not_eq_false, Bool.and_eq_true, beq_iff_eq] at hlocal
  obtain ⟨⟨⟨hydot, htdot⟩, hsep⟩, htail⟩ := hlocal
  -- the first dot is the source's, so nothing is replaced behind it
  obtain rfl : c₁ = dot := by
    rcases hhead with rfl | ⟨rfl, -⟩
    · exact hydot
    · cases hydot
  have hdotSep : isSeparator dot = false := by decide
  match rest with
  | [] =>
    obtain rfl : t = [] := (List.cons.inj (hy.symm.trans rfl)).2
    cases htdot
  | c₂ :: rest =>
    rw [replaceLoop_of_not_separator hdotSep] at hy
    obtain ⟨rfl, rfl⟩ := List.cons.inj hy
    obtain ⟨z, t, hz, hheadz⟩ := @replaceLoop_head c₂ c₂ rest
    rw [hz] at htdot htail
    obtain rfl : c₂ = dot := by
      rcases hheadz with rfl | ⟨rfl, -⟩
      · exact Option.some.inj htdot
      · cases htdot
    match rest with
    | [] =>
      obtain rfl : t = [] := (List.cons.inj (hz.symm.trans rfl)).2
      have hprev : last = alternateDirectorySeparator := by simpa using htail
      rcases hlast with rfl | ⟨-, rfl⟩
      · exact h₂ dot rfl (by rw [hprev]; decide)
      · cases hprev
    | c₃ :: rest =>
      rw [replaceLoop_of_not_separator hdotSep] at hz
      obtain ⟨rfl, rfl⟩ := List.cons.inj hz
      obtain ⟨w, t, hw, hheadw⟩ := @replaceLoop_head c₃ c₃ rest
      rw [hw] at htail
      simp only [tail_cons, Bool.and_eq_true] at htail
      have hc₃ : isSeparator c₃ = true := by
        rcases hheadw with rfl | ⟨-, h⟩
        · exact htail.1
        · exact h
      have hprev : isSeparator prev = true := by
        rcases hlast with rfl | ⟨h, -⟩
        · exact hsep
        · exact h
      exact h₃ dot c₃ rest rfl (by rw [hprev, hc₃]; decide)

/-- What has been replaced needs no replacement. -/
theorem hasParent_replaceLoop : ∀ {rest : List Char} {prev last : Char},
    (last = prev ∨ (isSeparator prev = true ∧ last = directorySeparator)) →
      ∀ x t, replaceLoop prev last rest = x :: t → hasParent x t = false
  | [], _, _, _, _, _, h => by
    obtain ⟨rfl, rfl⟩ := List.cons.inj h
    rfl
  | [c], _, _, _, _, _, h => by
    obtain ⟨rfl, rfl⟩ := List.cons.inj h
    simp [hasParent]
  | [c, d], prev, last, hlast, x, t, h => by
    rw [replaceLoop] at h
    split_ifs at h with hmatch
    · obtain ⟨rfl, rfl⟩ := List.cons.inj h
      simp only [Bool.and_eq_true, beq_iff_eq] at hmatch
      rw [hmatch.1.2, hmatch.2]
      decide
    · obtain ⟨rfl, rfl⟩ := List.cons.inj h
      change hasParent last (replaceLoop c c [d]) = false
      refine hasParent_cons_of_not hlast (fun c₂ h₂ => ?_) (fun _ _ _ h₃ => nomatch h₃) ?_
      · obtain ⟨rfl, -⟩ := List.cons.inj h₂
        exact hmatch
      · exact hasParent_replaceLoop (.inl rfl)
  | c₁ :: c₂ :: c₃ :: rest, prev, last, hlast, x, t, h => by
    rw [replaceLoop] at h
    split_ifs at h with hmatch
    · obtain ⟨rfl, rfl⟩ := List.cons.inj h
      simp only [Bool.and_eq_true, beq_iff_eq] at hmatch
      obtain ⟨⟨⟨-, rfl⟩, rfl⟩, hc₃⟩ := hmatch
      obtain ⟨y, hy⟩ := @replaceLoop_root c₃ rest
      have ih := hasParent_replaceLoop (.inr ⟨hc₃, rfl⟩) _ _ hy
      rw [hy]
      have hdots : hasParent directorySeparator [dot, dot] = false := by decide
      have hsep : directorySeparator ∉ [dot, dot] := by decide
      have happend := @hasParent_append [dot, dot] directorySeparator hsep y
      rwa [hdots, ih] at happend
    · obtain ⟨rfl, rfl⟩ := List.cons.inj h
      refine hasParent_cons_of_not hlast (fun _ h₂ => nomatch h₂) (fun d e r h₃ => ?_) ?_
      · obtain ⟨rfl, htail⟩ := List.cons.inj h₃
        obtain ⟨rfl, -⟩ := List.cons.inj htail
        exact hmatch
      · exact hasParent_replaceLoop (.inl rfl)

theorem isParentDirectoryPathReplacementNeeded_eq (t : List Char) :
    isParentDirectoryPathReplacementNeeded (directorySeparator :: t) = hasParent directorySeparator t := by
  have hsep : isSeparator directorySeparator = true := by decide
  rw [isParentDirectoryPathReplacementNeeded, hsep, Bool.true_and, findsParentDirectory_eq]

/-- **The replacement leaves nothing to replace.** -/
theorem replacedPath_notNeeded (hpath : path.head? = some directorySeparator) :
    ∃ t, replacedPath path = directorySeparator :: t ∧
      isParentDirectoryPathReplacementNeeded (directorySeparator :: t) = false := by
  obtain ⟨rest, rfl⟩ : ∃ rest, path = directorySeparator :: rest := by
    cases path with
    | nil => cases hpath
    | cons c rest => exact ⟨rest, by rw [Option.some.inj hpath]⟩
  rw [replacedPath]
  split_ifs with h
  · obtain ⟨t, ht⟩ := @replaceLoop_root directorySeparator rest
    exact ⟨t, ht, by rw [isParentDirectoryPathReplacementNeeded_eq]; exact hasParent_replaceLoop (.inl rfl) _ _ ht⟩
  · exact ⟨rest, rfl, Bool.eq_false_iff.mpr h⟩

theorem replacedPath_of_not_needed (h : isParentDirectoryPathReplacementNeeded path = false) : replacedPath path = path := by
  cases path with
  | nil => rfl
  | cons c rest => rw [replacedPath, if_neg (Bool.eq_false_iff.mp h)]

/-! ### The normalization -/

/-- The path of a stack of names. -/
def rootPath (st : List (List Char)) : List Char := directorySeparator :: [directorySeparator].intercalate st

theorem rootPath_of_ne_nil (h : st ≠ []) : rootPath st = leadAll directorySeparator st := (leadAll_eq_intercalate h).symm

theorem dropSeparator_destOf (st : List (List Char)) (skip : Bool) :
    dropSeparator (destOf st skip) skip = .ok (leadAll directorySeparator st) := by
  cases skip with
  | false => exact congrArg _ (destOf_false st)
  | true =>
    have hsub : subSize (destOf st true).length 1 = .ok (leadAll directorySeparator st).length := by
      rw [destOf_true, length_append, length_singleton]
      exact if_pos (Nat.le_add_left ..)
    rw [dropSeparator, if_pos rfl, hsub]
    exact congrArg Except.ok take_left

theorem closePath_eq (hpos : 0 < out.length) (hlen : out.length < m) {r : Bool × Option ℕ} (h : isNormalized out all = .ok r) :
    closePath m all out = .ok out := by
  have hsub : subSize out.length 1 = .ok (out.length - 1) := if_pos hpos
  rw [closePath, hsub, Except.bind, if_pos (by omega), terminate_eq hlen, h]
  rfl

/-- The last lines give the path of the stack, if there is room for it. -/
theorem finishPath_destOf (hst : ∀ s ∈ st, NormalName all s) (hlen : (destOf st skip).length < m) :
    finishPath m all (destOf st skip) skip =
      if st = [] ∧ m = 1 then throwFault .write else .ok (rootPath st) := by
  have hle : (leadAll directorySeparator st).length < m := by
    unfold destOf at hlen
    rw [length_append] at hlen
    omega
  rw [finishPath, dropSeparator_destOf]
  change rootIfEmpty m (leadAll directorySeparator st) >>= closePath m all = _
  rcases eq_or_ne st [] with rfl | hne
  · have hroot : rootIfEmpty m [] = .ok [directorySeparator] := by
      rw [rootIfEmpty, if_pos ⟨rfl, by omega⟩]
      exact if_pos hle
    rw [leadAll_nil, hroot]
    change closePath m all [directorySeparator] = _
    by_cases hm : m = 1
    · rw [if_pos ⟨rfl, hm⟩, hm]
      rfl
    · have hroom : [directorySeparator].length < m := by
        rw [length_singleton]
        rw [leadAll_nil, length_nil] at hle
        omega
      have hnormal : isNormalized [directorySeparator] all = .ok (true, some 1) := by cases all <;> rfl
      rw [if_neg (fun h => hm h.2), closePath_eq (length_pos_of_ne_nil (cons_ne_nil _ _)) hroom hnormal]
      rfl
  · have hpos : 0 < (leadAll directorySeparator st).length := by
      obtain ⟨s, st, rfl⟩ := exists_cons_of_ne_nil hne
      exact Nat.succ_pos _
    have hroot : rootIfEmpty m (leadAll directorySeparator st) = .ok (leadAll directorySeparator st) := if_neg fun h => by omega
    rw [hroot, if_neg (fun h => hne h.1), rootPath_of_ne_nil hne]
    exact closePath_eq hpos hle (isNormalized_names hne hst)

theorem finishPath_zero (out : List Char) (skip : Bool) {x : List Char} : finishPath 0 all out skip ≠ .ok x := by
  intro h
  obtain ⟨mid, -, h⟩ := bind_eq_ok h
  obtain ⟨mid', -, h⟩ := bind_eq_ok h
  obtain ⟨last, hlast, h⟩ := bind_eq_ok (f := fun last => if 0 ≥ last then _ else _) h
  split_ifs at h
  · obtain ⟨_, hterm, -⟩ := bind_eq_ok h
    exact nomatch hterm
  · cases h

/-- For a path that starts at the root. -/
theorem normalize_eq (hpath : path.head? = some directorySeparator) :
    normalize m win all path drv =
      replacePath path >>= fun cur => normalizeLoop m win all cur [] false >>= fun r => finishPath m all r.1 r.2 := by
  have hstart : startPath m path drv = .ok [] := if_neg (not_not.mpr hpath)
  rw [normalize, hstart]
  rfl

theorem replacePath_eq (path : List Char) : replacePath path =
    if isParentDirectoryPathReplacementNeeded path = true ∧ entryNameLengthMax < path.length then throwFault .replacement
    else .ok (replacedPath path) := by
  cases path with
  | nil => rfl
  | cons c rest =>
    rw [replacePath, replacedPath]
    by_cases hneeded : isParentDirectoryPathReplacementNeeded (c :: rest) = true
    · rw [if_pos hneeded, if_pos hneeded, replaceParentDirectoryPath]
      by_cases hlong : entryNameLengthMax < (c :: rest).length
      · rw [if_neg (by omega), if_pos ⟨hneeded, hlong⟩]
      · rw [if_pos (by omega), if_neg (fun h => hlong h.2)]
    · rw [if_neg hneeded, if_neg hneeded, if_neg (fun h => hneeded h.1)]

/-- A path of names is normalized to itself. -/
theorem normalize_rootPath (hst : ∀ s ∈ st, NormalName all s) (hm : st = [] → m ≠ 1)
    (hlen : (leadAll directorySeparator st).length < m)
    (hneeded : isParentDirectoryPathReplacementNeeded (rootPath st) = false) :
    normalize m win all (rootPath st) drv = .ok (rootPath st) := by
  have hloop : normalizeLoop m win all (rootPath st) [] false = .ok (leadAll directorySeparator st, false) := by
    rcases eq_or_ne st [] with rfl | hne
    · exact normalizeLoop_separator
    · rw [rootPath_of_ne_nil hne]
      have hplain := @normalizeLoop_plain m win all [] st (fun s hs => ⟨(hst s hs).name, (hst s hs).plain, (hst s hs).valid⟩) hlen
      exact hplain
  have hfinish := @finishPath_destOf m all false st hst (by rw [destOf_false]; exact hlen)
  rw [destOf_false, if_neg (fun h => hm h.1 h.2)] at hfinish
  have hreplace : replacePath (rootPath st) = .ok (rootPath st) := if_neg (by rw [hneeded]; exact Bool.false_ne_true)
  rw [normalize_eq rfl, hreplace]
  change normalizeLoop m win all (rootPath st) [] false >>= _ = _
  rw [hloop]
  exact hfinish

/-- What `Normalize` accepts is a stack of names that the components of the path reduce to. -/
theorem normalize_ok (hpath : path.head? = some directorySeparator) (h : normalize m win all path drv = .ok out) :
    ∃ segs st, segs ≠ [] ∧ (∀ s ∈ segs, directorySeparator ∉ s) ∧ replacedPath path = leadAll directorySeparator segs ∧
      reduce isSkipped isUp win [] segs = some st ∧ (∀ s ∈ st, s ∈ segs ∧ NormalName all s) ∧ out = rootPath st ∧
      (leadAll directorySeparator st).length < m ∧ (st = [] → m ≠ 1) := by
  rw [normalize_eq hpath] at h
  obtain ⟨cur, hcur, h⟩ := bind_eq_ok h
  rw [replacePath_eq] at hcur
  split_ifs at hcur
  · cases hcur
  obtain rfl := Except.ok.inj hcur
  obtain ⟨t, ht, -⟩ := replacedPath_notNeeded hpath
  obtain ⟨⟨dest, skip⟩, hloop, hfinish⟩ := bind_eq_ok h
  have hsegs : ∀ s ∈ t.splitOn directorySeparator, directorySeparator ∉ s := fun s hs => notMem_of_mem_splitOn hs
  rw [ht, ← leadAll_splitOn] at hloop
  have hpos : 0 < m := by
    rcases Nat.eq_zero_or_pos m with rfl | hpos
    · exact absurd hfinish (finishPath_zero dest skip)
    · exact hpos
  obtain ⟨st, hred, rfl, hlen, hnames, hvalid⟩ :=
    @normalizeLoop_ok m win all false skip dest [] _ hsegs (fun _ h => nomatch h) hpos hloop
  have hst : ∀ s ∈ st, s ∈ t.splitOn directorySeparator ∧ NormalName all s := fun s hs => by
    rcases reduce_mem hred hs with hs' | ⟨hs', hplain⟩
    · cases hs'
    · exact ⟨hs', hnames s hs, hplain, hvalid s hs'⟩
  have hlen' : (leadAll directorySeparator st).length < m := by
    unfold destOf at hlen
    rw [length_append] at hlen
    omega
  rw [finishPath_destOf (fun s hs => (hst s hs).2) hlen] at hfinish
  split_ifs at hfinish with hfull
  · cases hfinish
  exact ⟨t.splitOn directorySeparator, st, splitOn_ne_nil _ _, hsegs, by rw [ht, leadAll_splitOn], hred, hst,
    (Except.ok.inj hfinish).symm, hlen', fun h1 h2 => hfull ⟨h1, h2⟩⟩

/-- The names of a stack over components that need no replacement need none. -/
theorem rootPath_notNeeded (hsegs : ∀ s ∈ segs, directorySeparator ∉ s) (hst : ∀ s ∈ st, s ∈ segs)
    (h : isParentDirectoryPathReplacementNeeded (leadAll directorySeparator segs) = false) :
    isParentDirectoryPathReplacementNeeded (rootPath st) = false := by
  rcases eq_or_ne st [] with rfl | hne
  · decide
  · rw [rootPath_of_ne_nil hne]
    by_contra hneeded
    rw [Bool.not_eq_false, replacementNeeded_iff fun s hs => hsegs s (hst s hs)] at hneeded
    obtain ⟨s, hs, hparent⟩ := hneeded
    rw [(replacementNeeded_iff hsegs).mpr ⟨s, hst s hs, hparent⟩] at h
    cases h

theorem referencePath_leadAll (hsegs : ∀ s ∈ segs, directorySeparator ∉ s) :
    referencePath win (leadAll directorySeparator segs) = (reduce isSkipped isUp win [] segs).map rootPath := by
  rw [referencePath, splitOn_leadAll hsegs, reduce_cons, reduceStep_empty]
  rfl

theorem isReportedNormalized_rootPath (hst : ∀ s ∈ st, NormalName all s) : IsReportedNormalized (rootPath st) all := by
  rcases eq_or_ne st [] with rfl | hne
  · cases all <;> decide
  · rw [rootPath_of_ne_nil hne]
    exact (isNormalized_iff hne fun s hs => (hst s hs).name.noSeparator).mpr (.inr hst)

/-- Components that are reported normalized reduce to the path they are of. -/
theorem rootPath_of_reported (hne : segs ≠ []) (hsegs : ∀ s ∈ segs, directorySeparator ∉ s)
    (hred : reduce isSkipped isUp win [] segs = some st) (h : IsReportedNormalized (leadAll directorySeparator segs) all) :
    rootPath st = leadAll directorySeparator segs := by
  rcases (isNormalized_iff hne hsegs).mp h with rfl | hnames
  · obtain rfl : [] = st := Option.some.inj hred
    rfl
  · rw [reduce_plain fun s hs => (hnames s hs).plain] at hred
    obtain rfl : segs = st := Option.some.inj hred
    exact rootPath_of_ne_nil hne

/-- **What `Normalize` makes of an absolute path.** A path that it accepts becomes the one that its components reduce to, after
the parent directories have been replaced. The result is reported normalized, is normalized to itself, and is the path itself
if and only if that is reported normalized and needs no replacement. -/
theorem normalize_absolute (hpath : path.head? = some directorySeparator) (h : normalize m win all path drv = .ok out) :
    referencePath win (replacedPath path) = some out ∧ IsReportedNormalized out all ∧
      normalize m win all out drv = .ok out ∧
      (out = path ↔ IsReportedNormalized path all ∧ isParentDirectoryPathReplacementNeeded path = false) := by
  obtain ⟨segs, st, hne, hsegs, hreplaced, hred, hst, rfl, hlen, hm⟩ := normalize_ok hpath h
  obtain ⟨t, ht, hnot⟩ := replacedPath_notNeeded hpath
  rw [← ht, hreplaced] at hnot
  have hnames : ∀ s ∈ st, NormalName all s := fun s hs => (hst s hs).2
  have hnot' := rootPath_notNeeded hsegs (fun s hs => (hst s hs).1) hnot
  have hreported := isReportedNormalized_rootPath hnames
  refine ⟨by rw [hreplaced, referencePath_leadAll hsegs, hred]; rfl, hreported, normalize_rootPath hnames hm hlen hnot', ?_⟩
  constructor
  · intro heq
    rw [← heq]
    exact ⟨hreported, hnot'⟩
  · rintro ⟨hrep, hneeded⟩
    rw [replacedPath_of_not_needed hneeded] at hreplaced
    rw [hreplaced] at hrep ⊢
    exact rootPath_of_reported hne hsegs hred hrep

/-- `/a/./b//../c` -/
def dottedPath : List Char := ['/', 'a', '/', '.', '/', 'b', '/', '/', '.', '.', '/', 'c']

theorem normalize_dottedPath : normalize 16 false false dottedPath false = .ok ['/', 'a', '/', 'c'] ∧
    referencePath false (replacedPath dottedPath) = some ['/', 'a', '/', 'c'] := by
  have h : normalize 16 false false dottedPath false = .ok ['/', 'a', '/', 'c'] := by decide +kernel
  exact ⟨h, (normalize_absolute rfl h).1⟩

/-- A double dot behind an alternate separator, which the components do not show. -/
def alternatePath : List Char := ['/', 'a', '\\', '.', '.']

/-- The result for a path that needs the replacement is not the one its components reduce to, and differs from the path although
that is reported normalized; and for a Windows path a double dot at the root is not refused. -/
theorem normalize_replaces : (normalize 16 false false alternatePath false = .ok ['/'] ∧
      referencePath false alternatePath = some alternatePath ∧ IsReportedNormalized alternatePath false) ∧
    normalize 16 true false ['/', '.', '.'] false = .ok ['/'] ∧ referencePath false ['/', '.', '.'] = none := by
  decide +kernel

end PathNormalizer
end FileSys
end Citron
