/-
# The cache of compiled macros

`MacroEngine` keeps the words uploaded at each position, and for each position that was
executed the words its program was compiled from. A call into the middle of a macro copies
the tail of the macro to the position of the call, among the uploaded words and in the cache.
Nothing clears the copy with its macro, so it outlives it. Programs of the HLE, which stand
for the words of a hash, are left out.

The loop over the uploaded words goes through them in an order of the map's own, and the
reference it copies from is taken before the copy is inserted: an insertion that moves the
values of the map leaves the reference dangling.
-/
import Mathlib.Data.List.AList

namespace Citron
namespace Tegra

abbrev MacroCode := List (BitVec 32)

abbrev CodeMap := AList fun _ : ℕ => MacroCode

/-- The order in which a loop over a map meets its entries. -/
structure MapOrder where
  entries : CodeMap → List (Sigma fun _ : ℕ => MacroCode)
  perm : ∀ map, (entries map).Perm map.entries

/-- The values of the map stay in place at an insertion, or move, and a reference to one of
them then finds other words. -/
inductive Insertion
  | stays
  | moves (found : MacroCode)
deriving DecidableEq

/-- `uploaded_macro_code[method].push_back(data)`. -/
def CodeMap.push (map : CodeMap) (method : ℕ) (data : BitVec 32) : CodeMap :=
  map.insert method ((map.lookup method).getD [] ++ [data])

/-- The position `method` is in the words at `base`. -/
abbrev InRange (base : ℕ) (code : MacroCode) (method : ℕ) : Prop := base ≤ method ∧ method - base < code.length

structure MacroEngine where
  macroCache : CodeMap
  uploadedMacroCode : CodeMap

namespace MacroEngine

def addCode (method : ℕ) (data : BitVec 32) (e : MacroEngine) : MacroEngine :=
  { e with uploadedMacroCode := e.uploadedMacroCode.push method data }

def clearCode (method : ℕ) (e : MacroEngine) : MacroEngine where
  macroCache := e.macroCache.erase method
  uploadedMacroCode := e.uploadedMacroCode.erase method

/-- The first macro of the loop that has `method` in its range. -/
def findMidMethod (order : MapOrder) (method : ℕ) (e : MacroEngine) : Option (Sigma fun _ : ℕ => MacroCode) :=
  (order.entries e.uploadedMacroCode).find? fun entry => decide (InRange entry.1 entry.2 method)

/-- The words that are run, if any are, and the engine after. -/
def execute (order : MapOrder) (method : ℕ) (insertion : Insertion) (e : MacroEngine) :
    Option MacroCode × MacroEngine :=
  match e.macroCache.lookup method with
  | some program => (some program, e)
  | none =>
    match e.uploadedMacroCode.lookup method with
    | some code => (some code, { e with macroCache := e.macroCache.insert method code })
    | none =>
      match e.findMidMethod order method with
      | none => (none, e)
      | some entry =>
        let macroCached := match insertion with
          | .stays => entry.2
          | .moves found => found
        let code := macroCached.drop (method - entry.1)
        (some code, {
          macroCache := e.macroCache.insert method code
          uploadedMacroCode := e.uploadedMacroCode.insert method code })

end MacroEngine

/-! ### The engine without caches -/

/-- `code` is the tail from `method` of a macro that is uploaded and has `method` in its range. -/
def IsTail (uploads : CodeMap) (method : ℕ) (code : MacroCode) : Prop :=
  ∃ base words, uploads.lookup base = some words ∧ InRange base words method ∧ code = words.drop (method - base)

/-- What an execution of `method` runs: the words uploaded there, or else such a tail, or else nothing. -/
def Runs (uploads : CodeMap) (method : ℕ) : Option MacroCode → Prop
  | some code => uploads.lookup method = some code ∨ uploads.lookup method = none ∧ IsTail uploads method code
  | none => uploads.lookup method = none ∧ ∀ base words, uploads.lookup base = some words → ¬ InRange base words method

variable {P : ℕ → MacroCode → Prop}

theorem exists_lookup_iff {map : CodeMap} :
    (∃ base words, map.lookup base = some words ∧ P base words) ↔ ∃ entry ∈ map.entries, P entry.1 entry.2 := by
  constructor
  · rintro ⟨base, words, hl, hp⟩
    exact ⟨⟨base, words⟩, AList.mem_lookup_iff.mp hl, hp⟩
  · rintro ⟨entry, hmem, hp⟩
    exact ⟨entry.1, entry.2, AList.mem_lookup_iff.mpr hmem, hp⟩

theorem forall_lookup_iff {map : CodeMap} :
    (∀ base words, map.lookup base = some words → P base words) ↔ ∀ entry ∈ map.entries, P entry.1 entry.2 := by
  constructor
  · intro h entry hmem
    exact h entry.1 entry.2 (AList.mem_lookup_iff.mpr hmem)
  · intro h base words hl
    exact h ⟨base, words⟩ (AList.mem_lookup_iff.mp hl)

instance (uploads : CodeMap) (method : ℕ) (code : MacroCode) : Decidable (IsTail uploads method code) :=
  decidable_of_iff _ exists_lookup_iff.symm

instance (uploads : CodeMap) (method : ℕ) : ∀ result, Decidable (Runs uploads method result)
  | some _ => inferInstanceAs (Decidable (_ ∨ _))
  | none => @instDecidableAnd _ _ _ (decidable_of_iff _ forall_lookup_iff.symm)

inductive MacroCall
  | clearCode (method : ℕ)
  | addCode (method : ℕ) (data : BitVec 32)
  | execute (method : ℕ) (insertion : Insertion)

/-- An engine, and the words that were uploaded to it and not cleared. -/
structure MacroRun where
  engine : MacroEngine
  uploads : CodeMap

namespace MacroRun

def initial : MacroRun := ⟨⟨∅, ∅⟩, ∅⟩

def apply (order : MapOrder) (s : MacroRun) : MacroCall → MacroRun
  | .clearCode method => ⟨s.engine.clearCode method, s.uploads.erase method⟩
  | .addCode method data => ⟨s.engine.addCode method data, s.uploads.push method data⟩
  | .execute method insertion => ⟨(s.engine.execute order method insertion).2, s.uploads⟩

/-- If the call executes a macro, it runs the words that an engine without caches would. -/
def Right (order : MapOrder) (s : MacroRun) : MacroCall → Prop
  | .execute method insertion => Runs s.uploads method (s.engine.execute order method insertion).1
  | _ => True

instance (order : MapOrder) (s : MacroRun) : ∀ call, Decidable (s.Right order call)
  | .execute method _ => inferInstanceAs (Decidable (Runs s.uploads method _))
  | .clearCode _ | .addCode _ _ => inferInstanceAs (Decidable True)

/-- A property of each call of a run, in the state before it. -/
def Each (order : MapOrder) (P : MacroRun → MacroCall → Prop) : MacroRun → List MacroCall → Prop
  | _, [] => True
  | s, call :: calls => P s call ∧ Each order P (s.apply order call) calls

end MacroRun

instance (order : MapOrder) (P : MacroRun → MacroCall → Prop) [∀ s call, Decidable (P s call)] :
    ∀ s calls, Decidable (MacroRun.Each order P s calls)
  | _, [] => inferInstanceAs (Decidable True)
  | s, call :: calls =>
    @instDecidableAnd _ _ _ (instDecidableEach order P (s.apply order call) calls)

/-- Words are added to a position right after it was cleared, or after other words of it. -/
def UploadsAfterClear : Option ℕ → List MacroCall → Prop
  | _, [] => True
  | _, .clearCode method :: calls => UploadsAfterClear (some method) calls
  | last, .addCode method _ :: calls => last = some method ∧ UploadsAfterClear last calls
  | _, .execute _ _ :: calls => UploadsAfterClear none calls

/-! ### Copies that do not outlive their macros -/

namespace MacroRun

variable {order : MapOrder} {s : MacroRun}

/-- Each copy of a tail is a tail of some macro other than the one at `base`. -/
def CopiesWithout (s : MacroRun) (base : ℕ) : Prop :=
  ∀ method code, s.engine.uploadedMacroCode.lookup method = some code → method ≠ base →
    s.uploads.lookup method = none → IsTail (s.uploads.erase base) method code

instance (s : MacroRun) (base : ℕ) : Decidable (s.CopiesWithout base) := decidable_of_iff _ forall_lookup_iff.symm

/-- The calls after which the copies and the programs are still those of the uploaded words. -/
def StepOk (order : MapOrder) (s : MacroRun) : MacroCall → Prop
  | .clearCode method => s.CopiesWithout method
  | .addCode method _ => s.engine.macroCache.lookup method = none ∧ s.CopiesWithout method
  | .execute method insertion => insertion = .stays ∨ s.engine.macroCache.lookup method ≠ none ∨
      s.engine.uploadedMacroCode.lookup method ≠ none ∨ s.engine.findMidMethod order method = none

/-- The cache has the words of the map, and these were uploaded or are a cached tail of words that were. -/
structure Coherent (s : MacroRun) : Prop where
  cached : ∀ {method code}, s.engine.macroCache.lookup method = some code →
    s.engine.uploadedMacroCode.lookup method = some code
  uploaded : ∀ {method code}, s.uploads.lookup method = some code →
    s.engine.uploadedMacroCode.lookup method = some code
  copied : ∀ {method code}, s.engine.uploadedMacroCode.lookup method = some code →
    s.uploads.lookup method = none → s.engine.macroCache.lookup method = some code ∧ IsTail s.uploads method code

instance (order : MapOrder) (s : MacroRun) : ∀ call, Decidable (s.StepOk order call)
  | .clearCode method => inferInstanceAs (Decidable (s.CopiesWithout method))
  | .addCode _ _ => inferInstanceAs (Decidable (_ ∧ _))
  | .execute _ _ => inferInstanceAs (Decidable (_ ∨ _))

theorem initial_coherent : initial.Coherent where
  cached h := by cases h
  uploaded h := by cases h
  copied h := by cases h

variable {code : MacroCode} {base method : ℕ}

/-- The tail of a macro stays its tail while other positions change. -/
theorem isTail_of_erase {uploads uploads' : CodeMap} (h : IsTail (uploads.erase base) method code)
    (hsame : ∀ other, other ≠ base → uploads'.lookup other = uploads.lookup other) : IsTail uploads' method code := by
  obtain ⟨other, words, hl, hr, he⟩ := h
  have hne : other ≠ base := by
    intro heq
    rw [heq, AList.lookup_erase] at hl
    cases hl
  rw [AList.lookup_erase_ne hne] at hl
  exact ⟨other, words, by rw [hsame other hne, hl], hr, he⟩

theorem Coherent.runs (h : s.Coherent)
    (hl : s.engine.uploadedMacroCode.lookup method = some code) : Runs s.uploads method (some code) := by
  cases hu : s.uploads.lookup method with
  | some words =>
    have := h.uploaded hu
    rw [hl] at this
    exact .inl (hu.trans this.symm)
  | none => exact .inr ⟨hu, (h.copied hl hu).2⟩

/-- A tail of a copy is a tail of the macro it was copied from. -/
theorem Coherent.tail (h : s.Coherent) {base method : ℕ} {words : MacroCode}
    (hl : s.engine.uploadedMacroCode.lookup base = some words) (hr : InRange base words method) :
    IsTail s.uploads method (words.drop (method - base)) := by
  cases hu : s.uploads.lookup base with
  | some real =>
    have := h.uploaded hu
    rw [hl] at this
    exact ⟨base, words, hu.trans this.symm, hr, rfl⟩
  | none =>
    obtain ⟨-, other, real, hlo, hro, he⟩ := h.copied hl hu
    obtain ⟨hle, hlt⟩ := hr
    obtain ⟨hle', hlt'⟩ := hro
    rw [he, List.length_drop] at hlt
    refine ⟨other, real, hlo, ⟨Nat.le_trans hle' hle, by omega⟩, ?_⟩
    rw [he, List.drop_drop]
    congr 1
    omega

variable {entry : Sigma fun _ : ℕ => MacroCode}

theorem findMidMethod_some {e : MacroEngine} (h : e.findMidMethod order method = some entry) :
    e.uploadedMacroCode.lookup entry.1 = some entry.2 ∧ InRange entry.1 entry.2 method := by
  have hmem := (order.perm _).mem_iff.mp (List.mem_of_find?_eq_some h)
  have hrange := List.find?_some h
  exact ⟨AList.mem_lookup_iff.mpr hmem, of_decide_eq_true hrange⟩

theorem findMidMethod_none {e : MacroEngine} {words : MacroCode}
    (h : e.findMidMethod order method = none) (hl : e.uploadedMacroCode.lookup base = some words) :
    ¬ InRange base words method := by
  have hmem := (order.perm _).mem_iff.mpr (AList.mem_lookup_iff.mp hl)
  have := List.find?_eq_none.mp h _ hmem
  exact fun hr => this (decide_eq_true hr)

variable {insertion : Insertion}

section

variable (h : s.Coherent)
include h

theorem Coherent.apply_cached {program : MacroCode} (hc : s.engine.macroCache.lookup method = some program) :
    s.Right order (.execute method insertion) ∧ (s.apply order (.execute method insertion)).Coherent := by
  have he : s.engine.execute order method insertion = (some program, s.engine) := by simp only [MacroEngine.execute, hc]
  rw [Right, apply, he]
  exact ⟨h.runs (h.cached hc), h⟩

theorem Coherent.apply_uploaded
    (hc : s.engine.macroCache.lookup method = none) (hu : s.engine.uploadedMacroCode.lookup method = some code) :
    s.Right order (.execute method insertion) ∧ (s.apply order (.execute method insertion)).Coherent := by
  have he : s.engine.execute order method insertion =
      (some code, { s.engine with macroCache := s.engine.macroCache.insert method code }) := by
    simp only [MacroEngine.execute, hc, hu]
  rw [Right, apply, he]
  refine ⟨h.runs hu, ⟨fun {m words} hl => ?_, h.uploaded, fun {m words} hl hr => ?_⟩⟩
  · by_cases hm : m = method
    · subst hm
      rw [AList.lookup_insert] at hl
      exact hu.trans hl
    · rw [AList.lookup_insert_ne hm] at hl
      exact h.cached hl
  · obtain ⟨hcache, htail⟩ := h.copied hl hr
    have hm : m ≠ method := by
      intro hm
      rw [hm, hc] at hcache
      cases hcache
    exact ⟨(AList.lookup_insert_ne hm).trans hcache, htail⟩

theorem Coherent.apply_copy
    (hc : s.engine.macroCache.lookup method = none) (hu : s.engine.uploadedMacroCode.lookup method = none)
    (hf : s.engine.findMidMethod order method = some entry) :
    s.Right order (.execute method .stays) ∧ (s.apply order (.execute method .stays)).Coherent := by
  have he : s.engine.execute order method .stays = (some (entry.2.drop (method - entry.1)), {
      macroCache := s.engine.macroCache.insert method (entry.2.drop (method - entry.1))
      uploadedMacroCode := s.engine.uploadedMacroCode.insert method (entry.2.drop (method - entry.1)) }) := by
    simp only [MacroEngine.execute, hc, hu, hf]
  have hnone : s.uploads.lookup method = none := by
    cases hl : s.uploads.lookup method with
    | none => rfl
    | some words =>
      rw [h.uploaded hl] at hu
      cases hu
  obtain ⟨hbase, hrange⟩ := findMidMethod_some hf
  have htail := h.tail hbase hrange
  rw [Right, apply, he]
  refine ⟨.inr ⟨hnone, htail⟩, ⟨fun {m words} hl => ?_, fun {m words} hl => ?_, fun {m words} hl hr => ?_⟩⟩
  · by_cases hm : m = method
    · subst hm
      rw [AList.lookup_insert] at hl ⊢
      exact hl
    · rw [AList.lookup_insert_ne hm] at hl ⊢
      exact h.cached hl
  · have hm : m ≠ method := by
      intro hm
      rw [hm, hnone] at hl
      cases hl
    exact (AList.lookup_insert_ne hm).trans (h.uploaded hl)
  · by_cases hm : m = method
    · subst hm
      rw [AList.lookup_insert] at hl ⊢
      cases hl
      exact ⟨rfl, htail⟩
    · rw [AList.lookup_insert_ne hm] at hl ⊢
      exact h.copied hl hr

theorem Coherent.apply_missing
    (hc : s.engine.macroCache.lookup method = none) (hu : s.engine.uploadedMacroCode.lookup method = none)
    (hf : s.engine.findMidMethod order method = none) :
    s.Right order (.execute method insertion) ∧ (s.apply order (.execute method insertion)).Coherent := by
  have he : s.engine.execute order method insertion = (none, s.engine) := by
    simp only [MacroEngine.execute, hc, hu, hf]
  rw [Right, apply, he]
  refine ⟨⟨?_, ?_⟩, h⟩
  · cases hl : s.uploads.lookup method with
    | none => rfl
    | some words =>
      rw [h.uploaded hl] at hu
      cases hu
  · intro base words hl
    exact findMidMethod_none hf (h.uploaded hl)

theorem Coherent.apply_execute (hok : s.StepOk order (.execute method insertion)) :
    s.Right order (.execute method insertion) ∧ (s.apply order (.execute method insertion)).Coherent := by
  cases hc : s.engine.macroCache.lookup method with
  | some program => exact h.apply_cached hc
  | none =>
    cases hu : s.engine.uploadedMacroCode.lookup method with
    | some code => exact h.apply_uploaded hc hu
    | none =>
      cases hf : s.engine.findMidMethod order method with
      | none => exact h.apply_missing hc hu hf
      | some entry =>
        have hstays : insertion = .stays := by
          rcases hok with h' | h' | h' | h'
          · exact h'
          · exact absurd hc h'
          · exact absurd hu h'
          · rw [h'] at hf
            cases hf
        rw [hstays]
        exact h.apply_copy hc hu hf

theorem Coherent.apply_clearCode (hok : s.StepOk order (.clearCode base)) :
    (s.apply order (.clearCode base)).Coherent := by
  refine ⟨fun {m words} hl => ?_, fun {m words} hl => ?_, fun {m words} hl hr => ?_⟩
  all_goals
    have hm : m ≠ base := by
      intro hm
      rw [hm] at hl
      cases (AList.lookup_erase base _).symm.trans hl
    have hl := (AList.lookup_erase_ne hm).symm.trans hl
  · exact (AList.lookup_erase_ne hm).trans (h.cached hl)
  · exact (AList.lookup_erase_ne hm).trans (h.uploaded hl)
  · have hr := (AList.lookup_erase_ne hm).symm.trans hr
    exact ⟨(AList.lookup_erase_ne hm).trans (h.copied hl hr).1, hok m words hl hm hr⟩

/-- Where nothing was compiled, the words of the map are the words uploaded. -/
theorem Coherent.lookup_eq (hc : s.engine.macroCache.lookup base = none) :
    s.engine.uploadedMacroCode.lookup base = s.uploads.lookup base := by
  cases hu : s.uploads.lookup base with
  | some words => exact h.uploaded hu
  | none =>
    cases hl : s.engine.uploadedMacroCode.lookup base with
    | none => rfl
    | some code =>
      rw [(h.copied hl hu).1] at hc
      cases hc

theorem Coherent.apply_addCode {data : BitVec 32}
    (hok : s.StepOk order (.addCode base data)) : (s.apply order (.addCode base data)).Coherent := by
  obtain ⟨hc, hcopies⟩ := hok
  refine ⟨fun {m words} hl => ?_, fun {m words} hl => ?_, fun {m words} hl hr => ?_⟩
  · have hm : m ≠ base := by
      intro hm
      rw [hm] at hl
      cases hc.symm.trans hl
    exact (AList.lookup_insert_ne hm).trans (h.cached hl)
  · by_cases hm : m = base
    · subst hm
      have hl := (AList.lookup_insert _).symm.trans hl
      rw [← h.lookup_eq hc] at hl
      exact (AList.lookup_insert _).trans hl
    · exact (AList.lookup_insert_ne hm).trans (h.uploaded ((AList.lookup_insert_ne hm).symm.trans hl))
  · have hm : m ≠ base := by
      intro hm
      rw [hm] at hr
      cases hr.symm.trans (AList.lookup_insert _)
    have hl := (AList.lookup_insert_ne hm).symm.trans hl
    have hr := (AList.lookup_insert_ne hm).symm.trans hr
    refine ⟨(h.copied hl hr).1, ?_⟩
    apply isTail_of_erase (hcopies m words hl hm hr)
    exact fun other hne => AList.lookup_insert_ne hne

theorem Coherent.step {call : MacroCall} (hok : s.StepOk order call) :
    s.Right order call ∧ (s.apply order call).Coherent := by
  cases call with
  | clearCode base => exact ⟨trivial, h.apply_clearCode hok⟩
  | addCode base data => exact ⟨trivial, h.apply_addCode hok⟩
  | execute method insertion => exact h.apply_execute hok

end

theorem Coherent.run : ∀ (calls : List MacroCall) {s : MacroRun}, s.Coherent → s.Each order (StepOk order) calls →
    s.Each order (Right order) calls
  | [], _, _, _ => trivial
  | _ :: calls, _, h, hok => ⟨(h.step hok.1).1, Coherent.run calls (h.step hok.1).2 hok.2⟩

/-- **Where no copy outlives its macro and nothing is added behind a compiled program**, and no
insertion moves the words that are being copied, every execution of a run is right. -/
theorem each_right (order : MapOrder) (calls : List MacroCall) (hok : initial.Each order (StepOk order) calls) :
    initial.Each order (Right order) calls := initial_coherent.run calls hok

/-- The order of the entries of the list. -/
def listOrder : MapOrder where
  entries map := map.entries
  perm _ := .refl _

/-- A macro is uploaded at 16, called at 17 and at 16, and another is uploaded at 32. -/
theorem each_right_midCall : initial.Each listOrder (Right listOrder) [.clearCode 16, .addCode 16 1#32, .addCode 16 2#32,
    .execute 17 .stays, .execute 16 .stays, .clearCode 32, .addCode 32 3#32, .execute 32 .stays] := by
  apply each_right
  decide

/-- The macro at 16 is uploaded anew, and a call at 17 still runs the copy of its old words. -/
theorem stale_copy : UploadsAfterClear none [.clearCode 16, .addCode 16 1#32, .addCode 16 2#32, .execute 17 .stays,
      .clearCode 16, .addCode 16 3#32, .addCode 16 4#32, .execute 17 .stays] ∧
    ¬ initial.Each listOrder (Right listOrder) [.clearCode 16, .addCode 16 1#32, .addCode 16 2#32, .execute 17 .stays,
      .clearCode 16, .addCode 16 3#32, .addCode 16 4#32, .execute 17 .stays] := by
  constructor
  · simp [UploadsAfterClear]
  · decide

end MacroRun

end Tegra
end Citron
