/-
# The loop of the path normalizer

Behind every component the destination is a stack of names, each with a separator before it, and a separator more if the last
component was a dot (`destOf`). On the components of a path the loop does to this stack what `reduce` does: a dot does
nothing, a double dot takes the top off, any other name goes on top (`normalizeLoop_ok`).
-/
import Citron.FileSys.PathNormalizer

namespace Citron
namespace FileSys
namespace PathNormalizer

open Lib List

/-- A component that has no effect. -/
def isSkipped (s : List Char) : Bool := s.isEmpty || s == [dot]

def isUp (s : List Char) : Bool := s == [dot, dot]

/-- A component that can be on the stack. -/
structure IsName (s : List Char) : Prop where
  ne_nil : s ≠ []
  noSeparator : directorySeparator ∉ s

/-- The destination for a stack of names. -/
def destOf (st : List (List Char)) (skipNextSep : Bool) : List Char :=
  leadAll directorySeparator st ++ if skipNextSep then [directorySeparator] else []

/-- The characters of a component are allowed. -/
def Valid (allowAllCharacters : Bool) (s : List Char) : Prop := allowAllCharacters = true ∨ s.any isInvalidCharacter = false

theorem valid_iff {allowAllCharacters : Bool} {s : List Char} :
    Valid allowAllCharacters s ↔ ¬ (!allowAllCharacters && s.any isInvalidCharacter) = true := by
  unfold Valid
  cases allowAllCharacters <;> cases s.any isInvalidCharacter <;> decide

/-- No fault, whatever the result. -/
def NoFault {α : Type} (r : PathRun α) : Prop := ∀ f, r ≠ .error (.fault f)

variable {m : ℕ} {win all skip skip' : Bool} {s : List Char} {out out' : List Char} {st st' segs : List (List Char)}

theorem noFault_ok {α : Type} (a : α) : NoFault (.ok a : PathRun α) := fun _ h => nomatch h

theorem noFault_result {α : Type} (r : PathResult) : NoFault (throwResult r : PathRun α) := fun _ h => nomatch h

theorem bind_eq_ok {α β : Type} {x : PathRun α} {f : α → PathRun β} {b : β} (h : (x >>= f) = .ok b) :
    ∃ a, x = .ok a ∧ f a = .ok b := by
  cases x with
  | error e => cases h
  | ok a => exact ⟨a, rfl, h⟩

@[simp] theorem destOf_false (st : List (List Char)) : destOf st false = leadAll directorySeparator st := append_nil _

@[simp] theorem destOf_true (st : List (List Char)) : destOf st true = leadAll directorySeparator st ++ [directorySeparator] :=
  rfl

/-! ### Components at the start of a path -/

theorem isCurrentDirectory_iff (hs : IsName s) (segs : List (List Char)) :
    isCurrentDirectory (s ++ leadAll directorySeparator segs) = true ↔ s = [dot] := by
  obtain ⟨hne, hsep⟩ := hs
  match s, hne, hsep with
  | [c], _, _ => cases segs <;> simp [isCurrentDirectory]
  | c :: d :: cs, _, hsep =>
    have hd : d ≠ directorySeparator := fun h => hsep (by simp [h])
    simp [isCurrentDirectory, hd]

theorem isParentDirectory_iff (hs : IsName s) (segs : List (List Char)) :
    isParentDirectory (s ++ leadAll directorySeparator segs) = true ↔ s = [dot, dot] := by
  obtain ⟨hne, hsep⟩ := hs
  have hdot : directorySeparator ≠ dot := by decide
  match s, hne, hsep with
  | [c], _, _ => cases segs <;> simp [isParentDirectory, hdot]
  | [c, d], _, _ => cases segs <;> simp [isParentDirectory]
  | c :: d :: e :: cs, _, hsep =>
    have he : e ≠ directorySeparator := fun h => hsep (by simp [h])
    simp [isParentDirectory, he]

/-! ### Writes -/

theorem putAll_eq : ∀ {cs out : List Char}, out.length + cs.length ≤ m → putAll m out cs = .ok (out ++ cs)
  | [], out, _ => by simp [putAll]; rfl
  | c :: cs, out, h => by
    rw [length_cons] at h
    have hput : put m out c = .ok (out ++ [c]) := if_pos (by omega)
    have ih := @putAll_eq cs (out ++ [c]) (by rw [length_append, length_singleton]; omega)
    unfold putAll at ih ⊢
    rw [foldlM_cons, hput]
    exact ih.trans (by rw [append_assoc]; rfl)

theorem terminate_eq (h : out.length < m) : terminate m out = .ok () := if_pos h

theorem putSeparator_eq (h : out.length < m) : putSeparator m out skip =
    if skip = false ∧ out.length + 1 = m then throwResult .tooLongPath
    else .ok (if skip then out else out ++ [directorySeparator]) := by
  unfold putSeparator
  cases skip with
  | true => simp
  | false =>
    by_cases hm : out.length + 1 = m
    · simp [hm, terminate_eq h]
      rfl
    · have hput : put m out directorySeparator = .ok (out ++ [directorySeparator]) := if_pos h
      simp [hm, hput]

theorem copyComponent_eq (h : out.length < m) (dir : List Char) : copyComponent m out dir =
    if out.length + dir.length + 1 > m then throwResult .tooLongPath else .ok (out ++ dir) := by
  unfold copyComponent
  split_ifs with hlong
  · have hsub : subSize m (out.length + 1) = .ok (m - (out.length + 1)) := if_pos h
    have hlen : (dir.take (m - (out.length + 1))).length = m - (out.length + 1) := by rw [length_take]; omega
    rw [hsub]
    change (putAll m out (dir.take (m - (out.length + 1))) >>= _) = _
    rw [putAll_eq (by omega)]
    change (terminate m _ >>= _) = _
    rw [terminate_eq (by rw [length_append, hlen]; omega)]
    rfl
  · exact putAll_eq (by omega)

/-- Backing up stops at the last separator. -/
theorem backUp_eq {a b : List Char} (hb : directorySeparator ∉ b) : ∀ {k : ℕ}, a.length ≤ k → k ≤ a.length + b.length →
    backUp (a ++ directorySeparator :: b ++ [directorySeparator]) k = .ok a.length
  | 0, h, _ => by
    obtain rfl := length_eq_zero_iff.mp (by omega : a.length = 0)
    rfl
  | k + 1, h, hk => by
    rw [backUp]
    rcases Nat.lt_or_ge a.length (k + 1) with hlt | hge
    · -- a character of `b`
      have hchar : (a ++ directorySeparator :: b ++ [directorySeparator])[k + 1]? = b[k - a.length]? := by
        rw [append_assoc, getElem?_append_right (by omega), cons_append]
        rw [show k + 1 - a.length = (k - a.length) + 1 by omega, getElem?_cons_succ,
          getElem?_append_left (by omega)]
      have hne : b[k - a.length]? ≠ some directorySeparator := fun he => hb (mem_of_getElem? he)
      rw [hchar, if_neg hne]
      split_ifs with hk0
      · rw [show a.length = 0 by omega]
      · exact backUp_eq hb (by omega) (by omega)
    · have hlen : a.length = k + 1 := by omega
      have hchar : (a ++ directorySeparator :: b ++ [directorySeparator])[k + 1]? = some directorySeparator := by
        rw [append_assoc, getElem?_append_right (by omega), hlen, Nat.sub_self]
        rfl
      rw [if_pos hchar, hlen]

theorem removeComponent_nil : removeComponent win (destOf [] true) =
    if win then .ok [] else throwResult .directoryUnobtainable := rfl

theorem removeComponent_concat (hs : IsName s) :
    removeComponent win (destOf (st ++ [s]) true) = .ok (leadAll directorySeparator st) := by
  have hdest : destOf (st ++ [s]) true = leadAll directorySeparator st ++ directorySeparator :: s ++ [directorySeparator] := by
    simp
  rw [hdest]
  set a := leadAll directorySeparator st
  have hlen : (a ++ directorySeparator :: s ++ [directorySeparator]).length = a.length + s.length + 2 := by
    simp only [length_append, length_cons, length_nil]
    omega
  have hsub : subSize (a.length + s.length + 2) 2 = .ok (a.length + s.length) := if_pos (by omega)
  unfold removeComponent
  rw [if_neg (by omega), hlen, hsub]
  change (backUp _ (a.length + s.length) >>= _) = _
  rw [backUp_eq hs.noSeparator (by omega) (by omega)]
  change Except.ok ((a ++ directorySeparator :: s ++ [directorySeparator]).take a.length) = _
  rw [append_assoc, take_left]

/-! ### A component -/

/-- A component behind its separator. -/
theorem putComponent_eq (hs : IsName s) (segs : List (List Char)) (out : List Char) :
    putComponent m win all (s ++ leadAll directorySeparator segs) out false =
      if !all && s.any isInvalidCharacter then throwResult .invalidCharacter
      else if s = [dot] then .ok (out, true)
      else if s = [dot, dot] then (removeComponent win out).map fun out => (out, false)
      else (copyComponent m out s).map fun out => (out, false) := by
  unfold putComponent
  simp only [takeWhile_leadAll hs.noSeparator, isCurrentDirectory_iff hs, isParentDirectory_iff hs]
  split_ifs
  · rfl
  · rfl
  · cases removeComponent win out <;> rfl
  · cases copyComponent m out s <;> rfl

/-- A component with the separator before it. -/
def turn (m : ℕ) (win all : Bool) (s : List Char) (segs : List (List Char)) (out : List Char) (skip : Bool) :
    PathRun (List Char × Bool) := do
  let out ← putSeparator m out skip
  putComponent m win all (s ++ leadAll directorySeparator segs) out false

theorem turn_eq (h : (destOf st skip).length < m) : turn m win all s segs (destOf st skip) skip =
    if skip = false ∧ (destOf st skip).length + 1 = m then throwResult .tooLongPath
    else putComponent m win all (s ++ leadAll directorySeparator segs) (destOf st true) false := by
  unfold turn
  rw [putSeparator_eq h]
  split_ifs with hfull hskip
  · rfl
  · rw [hskip]
    rfl
  · obtain rfl := Bool.eq_false_iff.mpr hskip
    rw [destOf_false, ← destOf_true]
    rfl

/-- Where the separator is put there is room behind it. -/
theorem length_lt_of_not_full (hlen : (destOf st skip).length < m)
    (hfull : ¬ (skip = false ∧ (destOf st skip).length + 1 = m)) : (destOf st true).length < m := by
  cases skip with
  | true => exact hlen
  | false =>
    rw [destOf_false] at hlen hfull
    rw [destOf_true, length_append, length_singleton]
    have : ¬ (leadAll directorySeparator st).length + 1 = m := fun he => hfull ⟨rfl, he⟩
    omega

/-- A turn reduces the stack by the component. -/
theorem turn_ok (hs : IsName s) (hst : ∀ s ∈ st, IsName s) (hlen : (destOf st skip).length < m)
    (h : turn m win all s segs (destOf st skip) skip = .ok (out', skip')) :
    ∃ st', reduceStep isSkipped isUp win st s = some st' ∧ out' = destOf st' skip' ∧ out'.length < m ∧ Valid all s := by
  rw [turn_eq hlen] at h
  split_ifs at h with hfull
  · cases h
  have hroom := length_lt_of_not_full hlen hfull
  have hskipped : isSkipped s = true ↔ s = [dot] := by simp [isSkipped, hs.ne_nil]
  rw [putComponent_eq hs] at h
  split_ifs at h with hinvalid hdot hup
  · cases h
  · obtain ⟨rfl, rfl⟩ := Prod.mk.inj (Except.ok.inj h)
    exact ⟨st, reduceStep_skip (hskipped.mpr hdot), rfl, hroom, valid_iff.mpr hinvalid⟩
  · have hvalid : Valid all s := by rw [hup]; exact .inr (by decide)
    have hstep : reduceStep isSkipped isUp win st s =
        if st = [] then if win then some [] else none else some st.dropLast := by
      rw [reduceStep, if_neg (fun hc => hdot (hskipped.mp hc)), if_pos (by rw [hup]; rfl)]
    rw [hstep]
    rcases eq_nil_or_concat st with rfl | ⟨st₀, s₀, rfl⟩
    · rw [removeComponent_nil] at h
      split_ifs at h with hwin
      · obtain ⟨rfl, rfl⟩ := Prod.mk.inj (Except.ok.inj h)
        exact ⟨[], by rw [if_pos rfl, if_pos hwin], rfl, by rw [length_nil]; omega, hvalid⟩
      · cases h
    · rw [concat_eq_append] at *
      rw [removeComponent_concat (hst s₀ (by simp))] at h
      obtain ⟨rfl, rfl⟩ := Prod.mk.inj (Except.ok.inj h)
      refine ⟨st₀, by rw [if_neg (by simp), dropLast_concat], (destOf_false st₀).symm, ?_, hvalid⟩
      rw [destOf_true, leadAll_append, length_append, length_append] at hroom
      omega
  · have hplain : Plain isSkipped isUp s :=
      ⟨Bool.eq_false_iff.mpr fun hc => hdot (hskipped.mp hc), Bool.eq_false_iff.mpr fun hc => hup (by simpa [isUp] using hc)⟩
    rw [copyComponent_eq hroom] at h
    split_ifs at h with hlong
    · cases h
    · obtain ⟨rfl, rfl⟩ := Prod.mk.inj (Except.ok.inj h)
      refine ⟨st ++ [s], reduceStep_plain hplain, by simp, ?_, valid_iff.mpr hinvalid⟩
      rw [length_append]
      omega

/-! ### The loop -/

theorem normalizeLoop_nil : normalizeLoop m win all [] out skip = .ok (out, skip) := by
  rw [normalizeLoop, dif_pos rfl]

theorem normalizeLoop_separator : normalizeLoop m win all [directorySeparator] out skip = .ok (out, skip) := by
  rw [normalizeLoop, dif_neg (cons_ne_nil _ _)]
  rfl

/-- Separators are swallowed together. -/
theorem normalizeLoop_separators {x : List Char} (hx : x.head? = some directorySeparator) :
    normalizeLoop m win all (directorySeparator :: x) out skip = normalizeLoop m win all x out skip := by
  obtain ⟨x, rfl⟩ : ∃ y, x = directorySeparator :: y := by
    cases x with
    | nil => cases hx
    | cons c x => exact ⟨x, by rw [Option.some.inj hx]⟩
  rw [normalizeLoop, normalizeLoop, dif_neg (cons_ne_nil _ _), dif_neg (cons_ne_nil _ _)]
  rfl

theorem head?_ne_separator (hs : IsName s) (x : List Char) : (s ++ x).head? ≠ some directorySeparator := by
  obtain ⟨c, cs, rfl⟩ := exists_cons_of_ne_nil hs.ne_nil
  intro h
  exact hs.noSeparator (by rw [Option.some.inj h]; exact mem_cons_self)

theorem dropWhile_separator (hs : IsName s) (x : List Char) :
    (s ++ x).dropWhile (· == directorySeparator) = s ++ x := by
  obtain ⟨c, cs, rfl⟩ := exists_cons_of_ne_nil hs.ne_nil
  have hc : c ≠ directorySeparator := fun h => hs.noSeparator (by rw [h]; exact mem_cons_self)
  simp [hc]

theorem normalizeLoop_component (hs : IsName s) :
    normalizeLoop m win all (leadAll directorySeparator (s :: segs)) out skip =
      turn m win all s segs out skip >>= fun r => normalizeLoop m win all (leadAll directorySeparator segs) r.1 r.2 := by
  have hdrop : (leadAll directorySeparator (s :: segs)).dropWhile (· == directorySeparator) =
      s ++ leadAll directorySeparator segs := by
    rw [leadAll_cons]
    exact dropWhile_separator hs _
  have hbehind : behindComponent (leadAll directorySeparator (s :: segs)) = leadAll directorySeparator segs := by
    rw [behindComponent, hdrop, dropWhile_leadAll hs.noSeparator]
  have hne : s ++ leadAll directorySeparator segs ≠ [] := append_ne_nil_of_left_ne_nil hs.ne_nil _
  have hcons : leadAll directorySeparator (s :: segs) ≠ [] := cons_ne_nil _ _
  have hhead : (leadAll directorySeparator (s :: segs)).head? = some directorySeparator := rfl
  rw [normalizeLoop, dif_neg hcons]
  simp only [hdrop, hhead, hbehind, if_true]
  rw [if_neg hne, turn]
  cases putSeparator m out skip <;> rfl

/-- A path that starts with a component is taken as one behind a separator that is there already. -/
theorem normalizeLoop_first (hs : IsName s) : normalizeLoop m win all (s ++ leadAll directorySeparator segs) out false =
    normalizeLoop m win all (leadAll directorySeparator (s :: segs)) out true := by
  have hne : s ++ leadAll directorySeparator segs ≠ [] := append_ne_nil_of_left_ne_nil hs.ne_nil _
  have hbehind : behindComponent (s ++ leadAll directorySeparator segs) = leadAll directorySeparator segs := by
    rw [behindComponent, dropWhile_separator hs, dropWhile_leadAll hs.noSeparator]
  rw [normalizeLoop_component hs, normalizeLoop, dif_neg hne, if_neg (head?_ne_separator hs _), dropWhile_separator hs, hbehind]
  rfl

/-- An empty segment is a separator more. -/
theorem normalizeLoop_empty : normalizeLoop m win all (leadAll directorySeparator ([] :: segs)) out skip =
    normalizeLoop m win all (leadAll directorySeparator segs) out skip := by
  cases segs with
  | nil => rw [leadAll_cons, leadAll_nil, append_nil, normalizeLoop_separator, normalizeLoop_nil]
  | cons s segs =>
    rw [leadAll_cons, nil_append]
    exact normalizeLoop_separators rfl

theorem reduceStep_empty : reduceStep isSkipped isUp win st [] = some st := reduceStep_skip rfl

/-- The names on the stack stay names. -/
theorem IsName.of_reduceStep (hst : ∀ s ∈ st, IsName s) (hs : directorySeparator ∉ s)
    (h : reduceStep isSkipped isUp win st s = some st') : ∀ s ∈ st', IsName s := by
  intro x hx
  rcases reduceStep_mem h hx with hx | ⟨rfl, hp⟩
  · exact hst x hx
  · refine ⟨?_, hs⟩
    rintro rfl
    exact absurd hp.1 (by decide)

/-- **The loop reduces the components.** -/
theorem normalizeLoop_ok (hsegs : ∀ s ∈ segs, directorySeparator ∉ s) (hst : ∀ s ∈ st, IsName s)
    (hlen : (destOf st skip).length < m)
    (h : normalizeLoop m win all (leadAll directorySeparator segs) (destOf st skip) skip = .ok (out', skip')) :
    ∃ st', reduce isSkipped isUp win st segs = some st' ∧ out' = destOf st' skip' ∧ out'.length < m ∧
      (∀ s ∈ st', IsName s) ∧ ∀ s ∈ segs, Valid all s := by
  induction segs generalizing st skip with
  | nil =>
    rw [leadAll_nil, normalizeLoop_nil] at h
    obtain ⟨rfl, rfl⟩ := Prod.mk.inj (Except.ok.inj h)
    exact ⟨st, rfl, rfl, hlen, hst, by simp⟩
  | cons s segs ih =>
    obtain ⟨hs, hrest⟩ := forall_mem_cons.mp hsegs
    rw [reduce_cons]
    by_cases hempty : s = []
    · subst hempty
      rw [normalizeLoop_empty] at h
      obtain ⟨st', hred, hout, hlen', hst', hvalid⟩ := ih hrest hst hlen h
      exact ⟨st', by rw [reduceStep_empty]; exact hred, hout, hlen', hst', forall_mem_cons.mpr ⟨.inr rfl, hvalid⟩⟩
    · have hname : IsName s := ⟨hempty, hs⟩
      rw [normalizeLoop_component hname] at h
      obtain ⟨⟨mid, skipMid⟩, hturn, hgo⟩ := bind_eq_ok h
      obtain ⟨stMid, hstep, rfl, hlenMid, hvalid⟩ := turn_ok hname hst hlen hturn
      obtain ⟨st', hred, hout, hlen', hst', hvalids⟩ := ih hrest (IsName.of_reduceStep hst hs hstep) hlenMid hgo
      exact ⟨st', by rw [hstep]; exact hred, hout, hlen', hst', forall_mem_cons.mpr ⟨hvalid, hvalids⟩⟩

/-- Names that stay are copied. -/
theorem normalizeLoop_plain (hsegs : ∀ s ∈ segs, IsName s ∧ Plain isSkipped isUp s ∧ Valid all s)
    (hlen : (leadAll directorySeparator (st ++ segs)).length < m) :
    normalizeLoop m win all (leadAll directorySeparator segs) (destOf st false) false =
      .ok (leadAll directorySeparator (st ++ segs), false) := by
  induction segs generalizing st with
  | nil => rw [leadAll_nil, normalizeLoop_nil, destOf_false, append_nil]
  | cons s segs ih =>
    obtain ⟨⟨hname, hplain, hvalid⟩, hsegs⟩ := forall_mem_cons.mp hsegs
    have hdot : s ≠ [dot] := by rintro rfl; exact absurd hplain.1 (by decide)
    have hup : s ≠ [dot, dot] := by rintro rfl; exact absurd hplain.2 (by decide)
    have hcons : st ++ s :: segs = (st ++ [s]) ++ segs := by rw [append_assoc]; rfl
    have hlen' : (leadAll directorySeparator st).length + s.length + 1 < m := by
      rw [leadAll_append, leadAll_cons, length_append, length_cons, length_append] at hlen
      omega
    have hturn : turn m win all s segs (destOf st false) false = .ok (leadAll directorySeparator (st ++ [s]), false) := by
      rw [turn_eq (by rw [destOf_false]; omega), if_neg (by rw [destOf_false]; omega), putComponent_eq hname,
        if_neg (valid_iff.mp hvalid), if_neg hdot, if_neg hup]
      rw [copyComponent_eq (by rw [destOf_true, length_append, length_singleton]; omega),
        if_neg (by rw [destOf_true, length_append, length_singleton]; omega)]
      simp [Except.map]
    rw [normalizeLoop_component hname, hturn]
    change normalizeLoop m win all _ (leadAll directorySeparator (st ++ [s])) false = _
    rw [hcons] at hlen ⊢
    rw [← ih hsegs hlen, destOf_false]

end PathNormalizer
end FileSys
end Citron
