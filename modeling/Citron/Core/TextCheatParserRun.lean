/-
# What the cheat parser makes of a text

The entries after admitted pieces are the ones for their headers and words, but for the name of entry 0: a header `{name}`
that follows another leaves the end of a longer name in place (`mainName_eq_iff`). With the lemmas on cuts this says on which
texts `Parse` does what it should (**`parse_correct_iff`**).
-/
import Citron.Core.TextCheatParserLoop
import Mathlib.Data.List.Induction

namespace Citron
namespace Core
namespace TextCheatParser

open List View

variable {ps : List Piece} {ts : List Token} {data name field : List UInt8} {names : List (List UInt8)} {i : ℕ}

/-! ### The name field -/

/-- What the `memcpy` of a name makes of the field. -/
def putName (field name : List UInt8) : List UInt8 := (CheatDefinition.setName ⟨field, []⟩ name).readableName

theorem setName_eq (d : CheatDefinition) (name : List UInt8) : d.setName name = ⟨putName d.readableName name, d.opcodes⟩ := rfl

theorem putName_length (h : field.length = readableNameSize) : (putName field name).length = readableNameSize := by
  simp only [putName, CheatDefinition.setName, length_set, length_append, length_take, length_drop, h]
  omega

theorem putName_getElem? (field name : List UInt8) (hi : i < readableNameSize - 1) :
    (putName field name)[i]? = if i < name.length then name[i]? else field[i]? := by
  have hne : readableNameSize - 1 ≠ i := by omega
  simp only [putName, CheatDefinition.setName, getElem?_set_ne hne]
  by_cases hlt : i < name.length
  · rw [getElem?_append_left (by rw [length_take]; omega), getElem?_take_of_lt (by omega), if_pos hlt]
  · have hmin : min readableNameSize name.length = name.length := by omega
    rw [hmin, take_length, getElem?_append_right (by omega), getElem?_drop, if_neg hlt]
    congr 1
    omega

theorem putName_getElem?_last (h : field.length = readableNameSize) : (putName field name)[readableNameSize - 1]? = some 0 := by
  have hlen : readableNameSize - 1 < (putName field name).length := by rw [putName_length h]; decide
  simp only [putName, CheatDefinition.setName] at hlen ⊢
  rw [length_set] at hlen
  exact getElem?_set_self hlen

/-- The field after names. -/
def putNames (names : List (List UInt8)) : List UInt8 := names.foldl putName (List.replicate readableNameSize 0)

theorem putNames_concat (names : List (List UInt8)) (name : List UInt8) :
    putNames (names ++ [name]) = putName (putNames names) name := by
  simp [putNames, foldl_append]

theorem putNames_length : (putNames names).length = readableNameSize := by
  induction names using List.reverseRecOn with
  | nil => rfl
  | append_singleton names name ih => rw [putNames_concat, putName_length ih]

theorem charAt_concat (names : List (List UInt8)) (name : List UInt8) (i : ℕ) :
    charAt (names ++ [name]) i = if i < name.length then name[i]?.getD 0 else charAt names i := by
  unfold charAt
  by_cases hi : i < name.length
  · simp [hi]
  · simp [hi]

theorem putNames_getElem? (names : List (List UInt8)) (hi : i < readableNameSize - 1) :
    (putNames names)[i]? = some (charAt names i) := by
  induction names using List.reverseRecOn with
  | nil =>
    rw [putNames, foldl_nil, getElem?_replicate, if_pos (by omega)]
    rfl
  | append_singleton names name ih =>
    rw [putNames_concat, putName_getElem? _ name hi, charAt_concat, ih]
    by_cases hlt : i < name.length
    · rw [if_pos hlt, if_pos hlt, getElem?_eq_getElem hlt]
      rfl
    · rw [if_neg hlt, if_neg hlt]

theorem putNames_getElem?_last (names : List (List UInt8)) : (putNames names)[readableNameSize - 1]? = some 0 := by
  induction names using List.reverseRecOn with
  | nil => rfl
  | append_singleton names name _ => rw [putNames_concat, putName_getElem?_last putNames_length]

/-- A field is decided by its characters before the last. -/
theorem putNames_eq_iff (names names' : List (List UInt8)) :
    putNames names = putNames names' ↔ ∀ i < readableNameSize - 1, charAt names i = charAt names' i := by
  constructor
  · intro h i hi
    have := putNames_getElem? names hi
    rw [h, putNames_getElem? names' hi] at this
    exact (Option.some.inj this).symm
  · intro h
    refine ext_getElem? fun i => ?_
    rcases Nat.lt_trichotomy i (readableNameSize - 1) with hi | rfl | hi
    · rw [putNames_getElem? names hi, putNames_getElem? names' hi, h i hi]
    · rw [putNames_getElem?_last, putNames_getElem?_last]
    · rw [getElem?_eq_none (by rw [putNames_length]; omega), getElem?_eq_none (by rw [putNames_length]; omega)]

theorem nameField_eq (name : List UInt8) : nameField name = putNames [name] := by
  have htake : ((name ++ List.replicate readableNameSize 0).take (readableNameSize - 1)).length = readableNameSize - 1 := by
    simp only [length_take, length_append, length_replicate]
    omega
  have hlen : (nameField name).length = readableNameSize := by
    rw [nameField, length_append, htake]
    rfl
  refine ext_getElem? fun i => ?_
  rcases Nat.lt_trichotomy i (readableNameSize - 1) with hi | rfl | hi
  · rw [putNames_getElem? [name] hi, nameField, getElem?_append_left (by omega), getElem?_take_of_lt hi]
    rw [← nil_append [name], charAt_concat]
    by_cases hlt : i < name.length
    · rw [getElem?_append_left hlt, if_pos hlt, getElem?_eq_getElem hlt]
      rfl
    · rw [getElem?_append_right (by omega), getElem?_replicate, if_pos (by omega), if_neg hlt]
      rfl
  · rw [putNames_getElem?_last, nameField, getElem?_append_right (by omega), htake, Nat.sub_self]
    rfl
  · rw [getElem?_eq_none (by omega), getElem?_eq_none (by rw [putNames_length]; omega)]

/-- The field has the last name exactly where that name stands. -/
theorem mainName_eq_iff (names : List (List UInt8)) :
    putNames names = nameField (names.getLast?.getD []) ↔ LastNameStands names := by
  rw [nameField_eq, putNames_eq_iff]
  rcases eq_nil_or_concat names with rfl | ⟨names, name, rfl⟩
  · have hnil : ∀ i, charAt [[]] i = 0 := fun i => charAt_concat [] [] i
    exact ⟨fun _ => by rintro name ⟨⟩, fun _ i _ => (hnil i).symm⟩
  · rw [concat_eq_append]
    have hsingle : ∀ i, charAt [name] i = if i < name.length then name[i]?.getD 0 else 0 := fun i => charAt_concat [] name i
    simp only [getLast?_concat, Option.getD_some, LastNameStands, dropLast_concat, Option.mem_some_iff, forall_eq',
      charAt_concat, hsingle]
    refine forall_congr' fun i => forall_congr' fun _ => ?_
    by_cases hlt : i < name.length
    · simp [hlt, Nat.not_le.mpr hlt]
    · simp [hlt, Nat.not_lt.mp hlt]

/-! ### The entries -/

theorem setName_default (name : List UInt8) : ({} : CheatDefinition).setName name = ⟨nameField name, []⟩ := by
  rw [setName_eq, nameField_eq]
  rfl

/-- The opcodes of entry 0 that come before the next header. -/
def View.leadingMain : View → List Token → List Dword
  | .main _ _, ts => leadingWords ts
  | _, _ => []

/-- The entries, with the opcodes that come before the next header. -/
def View.entriesWith : View → List Dword → List CheatDefinition
  | .entry _ es d, ws => es ++ [⟨d.readableName, d.opcodes ++ ws⟩]
  | v, _ => v.entries

@[simp] theorem View.entriesWith_main (m : CheatDefinition) (es : List CheatDefinition) (ws : List Dword) :
    (View.main m es).entriesWith ws = es := rfl

@[simp] theorem View.entriesWith_entry (m d : CheatDefinition) (es : List CheatDefinition) (ws : List Dword) :
    (View.entry m es d).entriesWith ws = es ++ [⟨d.readableName, d.opcodes ++ ws⟩] := rfl

theorem View.entriesWith_nil (v : View) : v.entriesWith [] = v.entries := by
  cases v <;> simp [entriesWith, entries]

theorem View.takeAll_cons (v : View) (p : Piece) (ps : List Piece) : v.takeAll (p :: ps) = (v.take p).takeAll ps := rfl

theorem takeAll_mainDef (v : View) (ps : List Piece) : (v.takeAll ps).mainDef =
    ⟨(mainNames (tokensOf ps)).foldl putName v.mainDef.readableName,
      v.mainDef.opcodes ++ v.leadingMain (tokensOf ps) ++ mainWords (tokensOf ps)⟩ := by
  induction ps generalizing v with
  | nil => cases v <;> simp [takeAll, mainNames, mainWords, leadingMain, leadingWords]
  | cons p ps ih =>
    rw [takeAll_cons, ih]
    cases p with
    | space => rfl
    | main name =>
      simp [View.take, mainDef, leadingMain, setName_eq, tokensOf_cons, Piece.token?, mainNames, mainWords]
      cases v <;> rfl
    | entry name =>
      simp only [View.take, leadingMain, tokensOf_cons, Piece.token?, Option.toList_some, singleton_append, mainNames,
        mainWords, append_nil]
      cases v <;> simp [mainDef, leadingWords]
    | word digits follow =>
      cases v <;> simp [View.take, mainDef, leadingMain, tokensOf_cons, Piece.token?, mainNames, mainWords,
        leadingWords, CheatDefinition.addOpcode]

theorem takeAll_entries (v : View) (ps : List Piece) : (v.takeAll ps).entries =
    v.entriesWith (leadingWords (tokensOf ps)) ++ (namedEntries (tokensOf ps)).map fun e => ⟨nameField e.1, e.2⟩ := by
  induction ps generalizing v with
  | nil => simp [takeAll, namedEntries, leadingWords, entriesWith_nil]
  | cons p ps ih =>
    rw [takeAll_cons, ih]
    cases p with
    | space => rfl
    | main name =>
      simp only [View.take, entriesWith_main, tokensOf_cons, Piece.token?, Option.toList_some, singleton_append,
        namedEntries, leadingWords, entriesWith_nil]
    | entry name =>
      simp only [View.take, entriesWith_entry, setName_default, tokensOf_cons, Piece.token?, Option.toList_some,
        singleton_append, namedEntries, leadingWords, entriesWith_nil, map_cons, nil_append,
        append_assoc]
    | word digits follow =>
      cases v <;> simp [View.take, entriesWith, entries, tokensOf_cons, Piece.token?, namedEntries, leadingWords,
        CheatDefinition.addOpcode]

/-- The entries are the ones for the headers and words, if the last name of entry 0 stands. -/
theorem finish_eq_iff (ps : List Piece) (tk : List Token) :
    finish (((nothing).takeAll ps).state tk).out = entriesOf (tokensOf ps) ↔ LastNameStands (mainNames (tokensOf ps)) := by
  have hout : (((nothing).takeAll ps).state tk).out =
      { definition := ⟨putNames (mainNames (tokensOf ps)), mainWords (tokensOf ps)⟩ } ::
        (namedEntries (tokensOf ps)).map fun e => { definition := ⟨nameField e.1, e.2⟩ } := by
    have hentries := takeAll_entries .nothing ps
    rw [show nothing.entriesWith (leadingWords (tokensOf ps)) = [] from rfl, nil_append] at hentries
    simp only [state, takeAll_mainDef, hentries, map_cons, map_map]
    rfl
  rw [hout, entriesOf, ← mainName_eq_iff]
  constructor
  · intro h
    simp only [finish, mapIdx_cons, List.cons.injEq, CheatEntry.mk.injEq, CheatDefinition.mk.injEq] at h
    exact h.1.2.2.1
  · intro h
    rw [h]

theorem finish_ne_nil (v : View) (tk : List Token) : finish (v.state tk).out ≠ [] := by
  simp [finish, state]

/-! ### The parser -/

theorem parse_eq_error_iff : parse data = .error .outOfRange ↔ OpensHeader 0 .nothing data := by
  have hloop := @parseLoop_eq_error_iff .nothing [] data
  change _ ↔ OpensHeader nothing.mainCount nothing.selected data
  rw [← hloop]
  change (parseLoop 0 data (nothing.state [])).map _ = _ ↔ _
  cases h : parseLoop 0 data (nothing.state []) with
  | error e => cases e; exact ⟨fun _ => rfl, fun _ => rfl⟩
  | ok r => exact ⟨fun h => (nomatch h), fun h => (nomatch h)⟩

/-- A result that is not empty comes from a cut into admitted pieces. -/
theorem parse_eq_ok_iff {out : List CheatEntry} (hout : out ≠ []) : parse data = .ok out ↔
    ∃ ps, Cuts data ps ∧ Admits ps ∧ out = finish ((nothing.takeAll ps).state (tokensOf ps)).out := by
  have hloop := @parseLoop_eq_some_iff .nothing [] data
  change (parseLoop 0 data (nothing.state [])).map _ = _ ↔ _
  constructor
  · intro h
    cases hr : parseLoop 0 data (nothing.state []) with
    | error e => rw [hr] at h; cases h
    | ok r =>
      rw [hr] at h
      cases r with
      | none => exact absurd (Except.ok.inj h).symm hout
      | some s =>
        obtain ⟨ps, hcut, ha, rfl⟩ := hloop.mp hr
        exact ⟨ps, hcut, ha, (Except.ok.inj h).symm⟩
  · rintro ⟨ps, hcut, ha, rfl⟩
    rw [hloop.mpr ⟨ps, hcut, ha, rfl⟩]
    rfl

theorem taken_eq (hcut : Cuts data ps) (ha : Admits ps) : taken data = tokensOf ps := by
  have hloop := (@parseLoop_eq_some_iff .nothing [] data _).mpr ⟨ps, hcut, ha, rfl⟩
  have hdata : parseLoop 0 data {} = parseLoop 0 data (nothing.state []) := rfl
  rw [taken, hdata, hloop]
  rfl

/-- What a correct result says about the pieces. -/
theorem ParsesCorrectly.clean (h : ParsesCorrectly data) (hcut : Cuts data ps) (ha : Admits ps) :
    (∀ p ∈ ps, p.Clean) ∧ LastNameStands (mainNames (tokensOf ps)) := by
  have hout := (parse_eq_ok_iff (finish_ne_nil _ _)).mpr ⟨ps, hcut, ha, rfl⟩
  obtain ⟨hs, heq⟩ := h.2 _ hout (finish_ne_nil _ _)
  rw [taken_eq hcut ha] at hs heq
  exact ⟨hcut.clean rfl hs, (finish_eq_iff ps _).mp heq⟩

/-- **When `Parse` reads a text correctly.** It does so if and only if the text has no header without an end where the parser
comes to it, and, should the parser admit the pieces it cuts the text into, every word has eight digits and a space or nothing
behind it, and the last header `{name}` leaves nothing of longer names before it. -/
theorem parse_correct_iff (data : List UInt8) : ParsesCorrectly data ↔
    ¬ OpensHeader 0 .nothing data ∧
      ∀ ps, Cuts data ps → Admits ps → (∀ p ∈ ps, p.Clean) ∧ LastNameStands (mainNames (tokensOf ps)) := by
  constructor
  · intro h
    exact ⟨fun hopen => h.1 _ (parse_eq_error_iff.mpr hopen), fun ps hcut ha => h.clean hcut ha⟩
  · rintro ⟨hopen, h⟩
    refine ⟨fun fault hf => ?_, fun out hout hne => ?_⟩
    · cases fault
      exact hopen (parse_eq_error_iff.mp hf)
    · obtain ⟨ps, hcut, ha, rfl⟩ := (parse_eq_ok_iff hne).mp hout
      obtain ⟨hclean, hname⟩ := h ps hcut ha
      rw [taken_eq hcut ha]
      refine ⟨?_, (finish_eq_iff ps _).mpr hname⟩
      simpa using hcut.says hclean .nil

/-! ### Texts that are not read correctly -/

/-- `{a` -/
def openText : List UInt8 := [openBrace, 0x61]

/-- `{a}1` -/
def shortWordText : List UInt8 := [openBrace, 0x61, closeBrace, 0x31]

/-- `{a}111111112` -/
def nineDigitsText : List UInt8 := [openBrace, 0x61, closeBrace] ++ List.replicate 8 0x31 ++ [0x32]

/-- `{ab}{c}` -/
def twoNamesText : List UInt8 := [openBrace, 0x61, 0x62, closeBrace, openBrace, 0x63, closeBrace]

/-- A header without an end, a short word, a ninth digit, and a shorter second name. -/
theorem parse_incorrect : ¬ ParsesCorrectly openText ∧ ¬ ParsesCorrectly shortWordText ∧ ¬ ParsesCorrectly nineDigitsText ∧
    ¬ ParsesCorrectly twoNamesText := by
  refine ⟨fun h => ?_, fun h => ?_, fun h => ?_, fun h => ?_⟩
  · exact h.1 .outOfRange (by decide +kernel)
  · have hcut : Cuts shortWordText [.main [0x61], .word [0x31] none] :=
      @CutsTo.main [0x61] [0x31] [] _ (by decide) (by decide) (.lastWord (by decide) (by decide) (by decide))
    have hclean := (h.clean hcut ⟨rfl, by decide, trivial⟩).1 (.word [0x31] none) (by decide)
    exact absurd hclean.1 (by decide)
  · have hcut : Cuts nineDigitsText [.main [0x61], .word (List.replicate 8 0x31) (some 0x32)] :=
      @CutsTo.main [0x61] (List.replicate 8 0x31 ++ [0x32]) [] _ (by decide) (by decide) (.word (by decide) (by decide) .nil)
    have hclean := (h.clean hcut ⟨rfl, by decide, trivial⟩).1 (.word (List.replicate 8 0x31) (some 0x32)) (by decide)
    exact absurd (hclean.2 0x32 rfl) (by decide)
  · have hcut : Cuts twoNamesText [.main [0x61, 0x62], .main [0x63]] :=
      @CutsTo.main [0x61, 0x62] [openBrace, 0x63, closeBrace] [] _ (by decide) (by decide)
        (@CutsTo.main [0x63] [] [] _ (by decide) (by decide) .nil)
    have hname := (h.clean hcut ⟨rfl, rfl, trivial⟩).2
    exact absurd (hname [0x63] rfl 1 (by decide) (by decide)) (by decide)

end TextCheatParser
end Core
end Citron
