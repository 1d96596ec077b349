/-
# Segments between separators

A list whose segments each have a separator before them (`leadAll`); cutting it at the separators gives the segments back
(`splitOn_leadAll`). Below that a stack of segments, on which some segments have no effect and some take the top off
(`reduce`).
-/
import Mathlib.Data.List.Basic
import Mathlib.Data.Nat.Basic

namespace Citron
namespace Lib

open List

variable {α : Type*} {sep : α} {s t : List α} {segs segs' : List (List α)}

/-- Every segment with a separator before it. -/
def leadAll (sep : α) (segs : List (List α)) : List α := segs.flatMap fun s => sep :: s

@[simp] theorem leadAll_nil : leadAll sep ([] : List (List α)) = [] := rfl

@[simp] theorem leadAll_cons : leadAll sep (s :: segs) = sep :: (s ++ leadAll sep segs) := rfl

@[simp] theorem leadAll_append : leadAll sep (segs ++ segs') = leadAll sep segs ++ leadAll sep segs' := flatMap_append

theorem leadAll_eq_intercalate (h : segs ≠ []) : leadAll sep segs = sep :: [sep].intercalate segs := by
  induction segs with
  | nil => exact absurd rfl h
  | cons s segs ih =>
    rcases eq_or_ne segs [] with rfl | hne
    · simp
    · rw [leadAll_cons, ih hne, intercalate_cons_of_ne_nil hne]
      simp

section Split

variable [BEq α] [LawfulBEq α]

theorem leadAll_splitOn (t : List α) : leadAll sep (t.splitOn sep) = sep :: t := by
  rw [leadAll_eq_intercalate (splitOn_ne_nil sep t), intercalate_splitOn]

theorem notMem_of_mem_splitOn : ∀ {t s : List α}, s ∈ t.splitOn sep → sep ∉ s
  | [], s, h => by
    rw [splitOn_eq_singleton not_mem_nil, mem_singleton] at h
    rw [h]
    exact not_mem_nil
  | c :: t, s, h => by
    rw [splitOn_cons_eq_if_modifyHead] at h
    split_ifs at h with hc
    · rcases mem_cons.mp h with rfl | h
      · exact not_mem_nil
      · exact notMem_of_mem_splitOn h
    · obtain ⟨s₀, rest, hsplit⟩ := exists_cons_of_ne_nil (splitOn_ne_nil sep t)
      rw [hsplit, modifyHead_cons] at h
      have hmem : ∀ s' ∈ s₀ :: rest, sep ∉ s' := fun s' hs' => notMem_of_mem_splitOn (by rw [hsplit]; exact hs')
      rcases mem_cons.mp h with rfl | h
      · rw [mem_cons, not_or]
        refine ⟨fun he => hc ?_, hmem s₀ mem_cons_self⟩
        rw [he]
        exact beq_self_eq_true c
      · exact hmem s (mem_cons_of_mem _ h)

theorem splitOn_leadAll (h : ∀ s ∈ segs, sep ∉ s) : (leadAll sep segs).splitOn sep = [] :: segs := by
  rcases eq_or_ne segs [] with rfl | hne
  · exact splitOn_eq_singleton not_mem_nil
  · rw [leadAll_eq_intercalate hne, splitOn_cons_eq_if_modifyHead, if_pos (beq_self_eq_true sep),
      splitOn_intercalate sep h hne]

theorem takeWhile_leadAll (h : sep ∉ s) : (s ++ leadAll sep segs).takeWhile (· != sep) = s := by
  have hs : ∀ c ∈ s, (c != sep) = true := fun c hc => bne_iff_ne.mpr fun he => h (he ▸ hc)
  rw [takeWhile_append_of_pos hs]
  cases segs <;> simp

theorem dropWhile_leadAll (h : sep ∉ s) : (s ++ leadAll sep segs).dropWhile (· != sep) = leadAll sep segs := by
  have hs : ∀ c ∈ s, (c != sep) = true := fun c hc => bne_iff_ne.mpr fun he => h (he ▸ hc)
  rw [dropWhile_append_of_pos hs]
  cases segs <;> simp

end Split

/-! ### The stack of segments -/

section Reduce

variable {β : Type*} (skip up : β → Bool) (floor : Bool)

/-- What a segment does to the stack: nothing, or it takes the top off, or it goes on top. With a floor, taking off an
empty stack does nothing. -/
def reduceStep (st : List β) (c : β) : Option (List β) :=
  if skip c then some st
  else if up c then if st = [] then if floor then some [] else none else some st.dropLast
  else some (st ++ [c])

/-- The stack after segments. -/
def reduce (st cs : List β) : Option (List β) := cs.foldlM (reduceStep skip up floor) st

/-- A segment that goes on the stack. -/
def Plain (c : β) : Prop := skip c = false ∧ up c = false

variable {skip up floor} {st st' cs : List β} {c : β}

@[simp] theorem reduce_nil : reduce skip up floor st [] = some st := rfl

theorem reduce_cons : reduce skip up floor st (c :: cs) =
    (reduceStep skip up floor st c).bind fun st => reduce skip up floor st cs := rfl

theorem reduceStep_skip (h : skip c = true) : reduceStep skip up floor st c = some st := if_pos h

theorem reduceStep_plain (h : Plain skip up c) : reduceStep skip up floor st c = some (st ++ [c]) := by
  simp [reduceStep, h.1, h.2]

/-- What a step leaves on the stack was there, or is the segment. -/
theorem reduceStep_mem (h : reduceStep skip up floor st c = some st') {x : β} (hx : x ∈ st') :
    x ∈ st ∨ (x = c ∧ Plain skip up c) := by
  unfold reduceStep at h
  split_ifs at h with h1 h2 h3 h4
  · obtain rfl := Option.some.inj h
    exact .inl hx
  · obtain rfl := Option.some.inj h
    cases hx
  · obtain rfl := Option.some.inj h
    exact .inl ((dropLast_sublist _).subset hx)
  · obtain rfl := Option.some.inj h
    rcases mem_append.mp hx with hx | hx
    · exact .inl hx
    · exact .inr ⟨mem_singleton.mp hx, Bool.eq_false_iff.mpr h1, Bool.eq_false_iff.mpr h2⟩

/-- The stack has plain segments only. -/
theorem reduce_mem (h : reduce skip up floor st cs = some st') {x : β} (hx : x ∈ st') :
    x ∈ st ∨ (x ∈ cs ∧ Plain skip up x) := by
  induction cs generalizing st with
  | nil =>
    obtain rfl := Option.some.inj h
    exact .inl hx
  | cons c cs ih =>
    rw [reduce_cons] at h
    obtain ⟨mid, hmid, hrest⟩ := Option.bind_eq_some_iff.mp h
    rcases ih hrest with hx | ⟨hx, hp⟩
    · rcases reduceStep_mem hmid hx with hx | ⟨rfl, hp⟩
      · exact .inl hx
      · exact .inr ⟨mem_cons_self, hp⟩
    · exact .inr ⟨mem_cons_of_mem _ hx, hp⟩

theorem reduce_plain (h : ∀ c ∈ cs, Plain skip up c) : reduce skip up floor st cs = some (st ++ cs) := by
  induction cs generalizing st with
  | nil => simp
  | cons c cs ih =>
    rw [reduce_cons, reduceStep_plain (h c mem_cons_self), Option.bind_some,
      ih fun d hd => h d (mem_cons_of_mem _ hd), append_assoc]
    rfl

end Reduce

end Lib
end Citron
