/-
# Splitting and replacing strings

`SplitString` and `ReplaceAll` of the string utilities. A string is the list of its characters.
-/
import Mathlib.Data.List.Infix

namespace Citron
namespace Common

open List

/-- `std::getline` on what is left, with the part read so far: at the end of the string an empty part is no part. -/
def splitFrom (delim : Char) (part : List Char) : List Char → List (List Char)
  | [] => if part = [] then [] else [part]
  | c :: str => if c = delim then part :: splitFrom delim [] str else splitFrom delim (part ++ [c]) str

def splitString (str : List Char) (delim : Char) : List (List Char) := splitFrom delim [] str

/-- `ReplaceAll` from a position on, where the next `skip` characters were part of the last match. -/
def replaceFrom (src dest : List Char) : ℕ → List Char → List Char
  | _, [] => []
  | skip + 1, _ :: result => replaceFrom src dest skip result
  | 0, c :: result =>
    if src.isPrefixOf (c :: result) then dest ++ replaceFrom src dest (src.length - 1) result
    else c :: replaceFrom src dest 0 result

def replaceAll (result src dest : List Char) : List Char := if src = dest then result else replaceFrom src dest 0 result

/-! ### Splitting -/

variable {delim : Char} {s dest : List Char}

/-- A part without the delimiter is read in one go. -/
theorem splitFrom_append (part : List Char) (hs : delim ∉ s) (str : List Char) :
    splitFrom delim part (s ++ str) = splitFrom delim (part ++ s) str := by
  induction s generalizing part with
  | nil => rw [nil_append, append_nil]
  | cons c s ih =>
    obtain ⟨hc, hs⟩ := not_or.mp (mt mem_cons.mpr hs)
    rw [cons_append, splitFrom, if_neg (Ne.symm hc), ih (part ++ [c]) hs, append_assoc]
    rfl

/-- A part that ends at the delimiter. -/
theorem splitString_delim (hs : delim ∉ s) (str : List Char) :
    splitString (s ++ delim :: str) delim = s :: splitString str delim := by
  rw [splitString, splitFrom_append [] hs, splitFrom, if_pos rfl]
  rfl

/-- A part that ends with the string. -/
theorem splitString_last (hs : delim ∉ s) (hne : s ≠ []) : splitString s delim = [s] := by
  have hsplit := splitFrom_append [] hs []
  rw [append_nil] at hsplit
  rw [splitString, hsplit, nil_append, splitFrom, if_neg hne]

theorem splitString_nil (delim : Char) : splitString [] delim = [] := rfl

/-! ### Replacing -/

/-- One character is replaced wherever it stands. -/
theorem replaceFrom_singleton (c : Char) (dest s : List Char) :
    replaceFrom [c] dest 0 s = s.flatMap fun d => if d = c then dest else [d] := by
  induction s with
  | nil => rfl
  | cons d s ih =>
    have hhead : [c].isPrefixOf (d :: s) = true ↔ d = c := by
      rw [isPrefixOf_cons_cons, isPrefixOf_nil_left, Bool.and_true, beq_iff_eq]
      exact eq_comm
    rw [replaceFrom, flatMap_cons]
    by_cases hd : d = c
    · rw [if_pos (hhead.mpr hd), if_pos hd]
      exact congrArg (dest ++ ·) ih
    · rw [if_neg (mt hhead.mp hd), if_neg hd, ih]
      rfl

/-- Text in which the mark `e` stands only in front of another character, as one piece. -/
def Marked (e : Char) (piece : List Char) : Prop := (∃ c, piece = [c] ∧ c ≠ e) ∨ ∃ d, piece = [e, d] ∧ d ≠ e

/-- A mark and its character are replaced wherever they are a piece of the text. -/
theorem replaceFrom_pair (e d : Char) (dest : List Char) {f : Char → List Char} (hmarked : ∀ c, Marked e (f c)) (s : List Char) :
    replaceFrom [e, d] dest 0 (s.flatMap f) = s.flatMap fun c => if f c = [e, d] then dest else f c := by
  induction s with
  | nil => rfl
  | cons c s ih =>
    rw [flatMap_cons, flatMap_cons]
    rcases hmarked c with ⟨c', hpiece, hne⟩ | ⟨d', hpiece, hne⟩
    · have hno : ¬ [e, d].isPrefixOf (c' :: s.flatMap f) = true := by
        rw [isPrefixOf_cons_cons, Bool.and_eq_true, beq_iff_eq]
        exact fun h => hne h.1.symm
      have hpair : ¬ [c'] = [e, d] := by simp
      rw [hpiece, singleton_append, replaceFrom, if_neg hno, if_neg hpair, ih]
      rfl
    · have hmatch : [e, d].isPrefixOf (e :: d' :: s.flatMap f) = true ↔ d' = d := by
        rw [isPrefixOf_cons_cons, isPrefixOf_cons_cons, isPrefixOf_nil_left, Bool.and_true, beq_self_eq_true, Bool.true_and,
          beq_iff_eq]
        exact eq_comm
      have htext : [e, d'] ++ s.flatMap f = e :: d' :: s.flatMap f := rfl
      rw [hpiece, htext, replaceFrom]
      by_cases hd : d' = d
      · rw [if_pos (hmatch.mpr hd), if_pos (by rw [hd])]
        exact congrArg (dest ++ ·) ih
      · have hpair : ¬ [e, d'] = [e, d] := by simp [hd]
        have hno : ¬ [e, d].isPrefixOf (d' :: s.flatMap f) = true := by
          rw [isPrefixOf_cons_cons, Bool.and_eq_true, beq_iff_eq]
          exact fun h => hne h.1.symm
        rw [if_neg (mt hmatch.mp hd), if_neg hpair, replaceFrom, if_neg hno, ih]
        rfl

theorem replaceAll_singleton {c : Char} (hne : [c] ≠ dest) (s : List Char) :
    replaceAll s [c] dest = s.flatMap fun d => if d = c then dest else [d] := by
  rw [replaceAll, if_neg hne, replaceFrom_singleton]

theorem replaceAll_pair {e d : Char} (hne : [e, d] ≠ dest) {f : Char → List Char} (hmarked : ∀ c, Marked e (f c))
    (s : List Char) : replaceAll (s.flatMap f) [e, d] dest = s.flatMap fun c => if f c = [e, d] then dest else f c := by
  rw [replaceAll, if_neg hne, replaceFrom_pair e d dest hmarked]

end Common
end Citron
