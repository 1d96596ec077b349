/-
# Parameter packages

A package as text: the separators and the escape character are escaped in keys and values. Reading it back
gives the same map if and only if no value is empty.
-/
import Citron.Common.StringUtil
import Mathlib.Data.List.Nodup

namespace Citron
namespace Common

open List

abbrev keyValueSeparator : Char := ':'

abbrev paramSeparator : Char := ','

abbrev escapeCharacter : Char := '$'

abbrev keyValueSeparatorEscape : List Char := ['$', '0']

abbrev paramSeparatorEscape : List Char := ['$', '1']

abbrev escapeCharacterEscape : List Char := ['$', '2']

def emptyPlaceholder : List Char := ['[', 'e', 'm', 'p', 't', 'y', ']']

/-- The entries of the map, in the order of an iteration. -/
structure ParamPackage where
  data : List (List Char × List Char)
  nodup : (data.map Prod.fst).Nodup

namespace ParamPackage

/-- `insert_or_assign` -/
def assign (data : List (List Char × List Char)) (key value : List Char) : List (List Char × List Char) :=
  if key ∈ data.map Prod.fst then data.map fun entry => if entry.1 = key then (key, value) else entry else data ++ [(key, value)]

variable {data : List (List Char × List Char)}

theorem assign_nodup (h : (data.map Prod.fst).Nodup) (key value : List Char) :
    ((assign data key value).map Prod.fst).Nodup := by
  rw [assign]
  split
  · have hkeys : (data.map fun entry => if entry.1 = key then (key, value) else entry).map Prod.fst = data.map Prod.fst := by
      rw [map_map]
      refine map_congr_left fun entry _ => ?_
      by_cases hkey : entry.1 = key
      · rw [Function.comp_apply, if_pos hkey, hkey]
      · rw [Function.comp_apply, if_neg hkey]
    rwa [hkeys]
  · rename_i hnew
    rw [map_append]
    exact h.append (nodup_singleton key) (disjoint_singleton.mpr hnew)

def set (p : ParamPackage) (key value : List Char) : ParamPackage := ⟨assign p.data key value, assign_nodup p.nodup key value⟩

def empty : ParamPackage := ⟨[], nodup_nil⟩

/-- The value of a key. -/
def find (p : ParamPackage) (key : List Char) : Option (List Char) :=
  (p.data.find? fun entry => entry.1 = key).map Prod.snd

def unescape (part : List Char) : List Char :=
  let part := replaceAll part keyValueSeparatorEscape [keyValueSeparator]
  let part := replaceAll part paramSeparatorEscape [paramSeparator]
  replaceAll part escapeCharacterEscape [escapeCharacter]

def readPair (p : ParamPackage) (pair : List Char) : ParamPackage :=
  match splitString pair keyValueSeparator with
  | [key, value] => p.set (unescape key) (unescape value)
  | _ => p

def ofSerialized (serialized : List Char) : ParamPackage :=
  if serialized = emptyPlaceholder then empty
  else (splitString serialized paramSeparator).foldl readPair empty

def escape (part : List Char) : List Char :=
  let part := replaceAll part [escapeCharacter] escapeCharacterEscape
  let part := replaceAll part [paramSeparator] paramSeparatorEscape
  replaceAll part [keyValueSeparator] keyValueSeparatorEscape

def writePair (entry : List Char × List Char) : List Char :=
  escape entry.1 ++ [keyValueSeparator] ++ escape entry.2 ++ [paramSeparator]

def serialize (p : ParamPackage) : List Char :=
  if p.data = [] then emptyPlaceholder else (p.data.flatMap writePair).dropLast

/-! ### Escaping -/

/-- What a character is escaped to. -/
def escapeChar (c : Char) : List Char :=
  if c = escapeCharacter then escapeCharacterEscape
  else if c = paramSeparator then paramSeparatorEscape
  else if c = keyValueSeparator then keyValueSeparatorEscape
  else [c]

theorem escape_eq (part : List Char) : escape part = part.flatMap escapeChar := by
  rw [escape, replaceAll_singleton (by decide), replaceAll_singleton (by decide), replaceAll_singleton (by decide), flatMap_assoc,
    flatMap_assoc]
  refine flatMap_congr fun c _ => ?_
  rw [escapeChar]
  by_cases hescape : c = escapeCharacter
  · rw [if_pos hescape, if_pos hescape]
    rfl
  rw [if_neg hescape, if_neg hescape, flatMap_singleton]
  by_cases hparam : c = paramSeparator
  · rw [if_pos hparam, if_pos hparam]
    rfl
  · rw [if_neg hparam, if_neg hparam, flatMap_singleton]

/-- A character of an escaped text: no separator, and the escape character with one of its three numbers. -/
theorem escapeChar_marked (c : Char) : Marked '$' (escapeChar c) := by
  rw [escapeChar]
  split
  · exact Or.inr ⟨'2', rfl, by decide⟩
  split
  · exact Or.inr ⟨'1', rfl, by decide⟩
  split
  · exact Or.inr ⟨'0', rfl, by decide⟩
  · rename_i hescape _ _
    exact Or.inl ⟨c, rfl, hescape⟩

/-- A mark that is replaced by another character than its own leaves the text marked. -/
theorem Marked.replace {f : Char → List Char} (hmarked : ∀ c, Marked '$' (f c)) (src : List Char) {d : Char} (hd : d ≠ '$') (c : Char) :
    Marked '$' (if f c = src then [d] else f c) := by
  split
  · exact Or.inl ⟨d, rfl, hd⟩
  · exact hmarked c

theorem unescape_escape (part : List Char) : unescape (escape part) = part := by
  have hkey := escapeChar_marked
  have hparam := Marked.replace hkey keyValueSeparatorEscape (d := keyValueSeparator) (by decide)
  have hlast := Marked.replace hparam paramSeparatorEscape (d := paramSeparator) (by decide)
  rw [unescape, escape_eq]
  rw [replaceAll_pair (by decide) hkey, replaceAll_pair (by decide) hparam, replaceAll_pair (by decide) hlast]
  have hpieces (c : Char) (_ : c ∈ part) : (fun c =>
      let piece := if escapeChar c = keyValueSeparatorEscape then [keyValueSeparator] else escapeChar c
      let piece := if piece = paramSeparatorEscape then [paramSeparator] else piece
      if piece = escapeCharacterEscape then [escapeCharacter] else piece) c = [c] := by
    dsimp only
    rw [escapeChar]
    by_cases hescape : c = escapeCharacter
    · rw [if_pos hescape, hescape]
      decide
    rw [if_neg hescape]
    by_cases hparam : c = paramSeparator
    · rw [if_pos hparam, hparam]
      decide
    rw [if_neg hparam]
    by_cases hkey : c = keyValueSeparator
    · rw [if_pos hkey, hkey]
      decide
    · rw [if_neg hkey, if_neg (by simp), if_neg (by simp), if_neg (by simp)]
  calc _ = part.flatMap fun c => [c] := flatMap_congr hpieces
    _ = part := flatMap_singleton' part

/-- No separator stands in an escaped text. -/
theorem separators_not_mem_escape (part : List Char) : keyValueSeparator ∉ escape part ∧ paramSeparator ∉ escape part := by
  rw [escape_eq]
  have hpiece (c d : Char) (hd : d = keyValueSeparator ∨ d = paramSeparator) : d ∉ escapeChar c := by
    rw [escapeChar]
    split
    · rcases hd with rfl | rfl
      · decide
      · decide
    split
    · rcases hd with rfl | rfl
      · decide
      · decide
    split
    · rcases hd with rfl | rfl
      · decide
      · decide
    · rename_i _ hparam hkey
      intro hmem
      rw [mem_singleton] at hmem
      rcases hd with rfl | rfl
      · exact hkey hmem.symm
      · exact hparam hmem.symm
  constructor
  · intro h
    obtain ⟨c, -, hc⟩ := mem_flatMap.mp h
    exact hpiece c _ (Or.inl rfl) hc
  · intro h
    obtain ⟨c, -, hc⟩ := mem_flatMap.mp h
    exact hpiece c _ (Or.inr rfl) hc

theorem escape_eq_nil (part : List Char) : escape part = [] ↔ part = [] := by
  constructor
  · intro h
    rw [← unescape_escape part, h]
    rfl
  · rintro rfl
    rfl

/-! ### Pairs -/

/-- A pair without the separator behind it. -/
def pairText (entry : List Char × List Char) : List Char := escape entry.1 ++ keyValueSeparator :: escape entry.2

theorem paramSeparator_not_mem_pairText (entry : List Char × List Char) : paramSeparator ∉ pairText entry := by
  intro h
  rcases mem_append.mp h with h | h
  · exact (separators_not_mem_escape entry.1).2 h
  rcases mem_cons.mp h with h | h
  · revert h
    decide
  · exact (separators_not_mem_escape entry.2).2 h

theorem pairText_ne_nil (entry : List Char × List Char) : pairText entry ≠ [] := by
  rw [pairText]
  exact append_ne_nil_of_right_ne_nil _ (cons_ne_nil _ _)

theorem writePair_eq (entry : List Char × List Char) : writePair entry = pairText entry ++ [paramSeparator] := by
  rw [writePair, pairText, append_assoc (escape entry.1)]
  rfl

/-- The text is the pairs with a separator between them. -/
theorem serialize_pairs (hne : data ≠ []) :
    splitString (data.flatMap writePair).dropLast paramSeparator = data.map pairText := by
  induction data with
  | nil => exact absurd rfl hne
  | cons entry data ih =>
    have hpair := paramSeparator_not_mem_pairText entry
    rw [flatMap_cons, writePair_eq]
    cases data with
    | nil =>
      rw [flatMap_nil, append_nil, dropLast_concat, splitString_last hpair (pairText_ne_nil entry)]
      rfl
    | cons entry' data =>
      have hrest : (entry' :: data).flatMap writePair ≠ [] := by
        rw [flatMap_cons, writePair_eq]
        exact append_ne_nil_of_left_ne_nil (append_ne_nil_of_left_ne_nil (pairText_ne_nil entry') _) _
      rw [dropLast_append_of_ne_nil hrest, append_assoc, singleton_append, splitString_delim hpair,
        ih (cons_ne_nil _ _)]
      rfl

/-- A pair with an empty value is no pair when it is read. -/
theorem readPair_pairText (p : ParamPackage) (entry : List Char × List Char) :
    p.readPair (pairText entry) = if entry.2 = [] then p else p.set entry.1 entry.2 := by
  obtain ⟨hkey, -⟩ := separators_not_mem_escape entry.1
  obtain ⟨hvalue, -⟩ := separators_not_mem_escape entry.2
  rw [readPair, pairText, splitString_delim hkey]
  by_cases hempty : entry.2 = []
  · rw [if_pos hempty, (escape_eq_nil entry.2).mpr hempty, splitString_nil]
  · rw [if_neg hempty, splitString_last hvalue (mt (escape_eq_nil entry.2).mp hempty)]
    dsimp only
    rw [unescape_escape, unescape_escape]

variable {key value : List Char} {p : ParamPackage}

theorem set_data (hnew : key ∉ p.data.map Prod.fst) (value : List Char) :
    (p.set key value).data = p.data ++ [(key, value)] := if_neg hnew

/-- The entries that are read back. -/
theorem foldl_readPair (data : List (List Char × List Char)) (p : ParamPackage) (hnodup : ((p.data ++ data).map Prod.fst).Nodup) :
    ((data.map pairText).foldl readPair p).data = p.data ++ data.filter fun entry => entry.2 ≠ [] := by
  induction data generalizing p with
  | nil => rw [map_nil, foldl_nil, filter_nil, append_nil]
  | cons entry data ih =>
    rw [map_cons, foldl_cons, readPair_pairText]
    by_cases hempty : entry.2 = []
    · have hsub : (p.data ++ data).Sublist (p.data ++ entry :: data) := List.Sublist.append_left (sublist_cons_self entry data) p.data
      rw [if_pos hempty, ih p (hnodup.sublist (hsub.map Prod.fst)), filter_cons_of_neg (by simpa using hempty)]
    · have hnew : entry.1 ∉ p.data.map Prod.fst := by
        intro hmem
        rw [map_append, map_cons] at hnodup
        exact (nodup_append.mp hnodup).2.2 entry.1 hmem entry.1 mem_cons_self rfl
      have hset := set_data hnew entry.2
      have hnodup' : (((p.set entry.1 entry.2).data ++ data).map Prod.fst).Nodup := by
        rw [hset, append_assoc]
        exact hnodup
      rw [if_neg hempty, ih _ hnodup', hset, filter_cons_of_pos (by simpa using hempty), append_assoc]
      rfl

/-! ### The round trip -/

theorem serialize_ne_placeholder (hne : p.data ≠ []) : p.serialize ≠ emptyPlaceholder := by
  intro hplaceholder
  have hpairs := serialize_pairs hne
  rw [serialize, if_neg hne] at hplaceholder
  have hplaceholder' : splitString emptyPlaceholder paramSeparator = [emptyPlaceholder] := by decide
  rw [hplaceholder, hplaceholder'] at hpairs
  obtain ⟨entry, -, hentry⟩ : ∃ entry ∈ p.data, pairText entry = emptyPlaceholder :=
    mem_map.mp (by rw [← hpairs]; exact mem_singleton.mpr rfl)
  have hmem : keyValueSeparator ∈ pairText entry := mem_append_right _ mem_cons_self
  rw [hentry] at hmem
  revert hmem
  decide

theorem ofSerialized_serialize (p : ParamPackage) : (ofSerialized p.serialize).data = p.data.filter fun entry => entry.2 ≠ [] := by
  by_cases hempty : p.data = []
  · rw [serialize, if_pos hempty, hempty]
    rfl
  · rw [ofSerialized, if_neg (serialize_ne_placeholder hempty), serialize, if_neg hempty, serialize_pairs hempty,
      foldl_readPair p.data empty p.nodup]
    rfl

theorem find_of_mem (h : (key, value) ∈ p.data) : p.find key = some value := by
  rw [find]
  cases hfound : p.data.find? fun entry => entry.1 = key with
  | none => exact absurd (decide_eq_true rfl) (find?_eq_none.mp hfound (key, value) h)
  | some entry =>
    have hkey : entry.1 = key := by simpa using find?_some hfound
    have hsame : entry = (key, value) := inj_on_of_nodup_map p.nodup (mem_of_find?_eq_some hfound) h hkey
    rw [hsame]
    rfl

theorem mem_of_find (h : p.find key = some value) : (key, value) ∈ p.data := by
  obtain ⟨entry, hfound, hvalue⟩ := Option.map_eq_some_iff.mp h
  have hkey : entry.1 = key := by simpa using find?_some hfound
  rw [← hkey, ← hvalue]
  exact mem_of_find?_eq_some hfound

/-- The same keys with the same values. -/
def SameMap (p q : ParamPackage) : Prop := ∀ key, p.find key = q.find key

/-- **A package is read back as it was if and only if no value is empty.** -/
theorem roundTrip_iff (p : ParamPackage) : SameMap (ofSerialized p.serialize) p ↔ ∀ entry ∈ p.data, entry.2 ≠ [] := by
  have hdata := ofSerialized_serialize p
  constructor
  · intro hsame entry hentry hempty
    have hread := mem_of_find ((hsame entry.1).trans (find_of_mem hentry))
    rw [hdata] at hread
    exact of_decide_eq_true (mem_filter.mp hread).2 hempty
  · intro hvalues key
    rw [filter_eq_self.mpr fun entry hentry => decide_eq_true (hvalues entry hentry)] at hdata
    rw [find, find, hdata]

/-- The key of an empty value is lost. -/
theorem roundTrip_emptyValue : ¬ ∀ p : ParamPackage, SameMap (ofSerialized p.serialize) p := by
  intro h
  have hlost := h ⟨[(['a'], [])], nodup_singleton _⟩ ['a']
  revert hlost
  decide

end ParamPackage
end Common
end Citron
