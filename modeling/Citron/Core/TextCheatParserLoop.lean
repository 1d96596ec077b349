/-
# The loop of the cheat parser

The loop's state is the entries in the order of their headers, one of them selected (`View`). A turn of the loop takes one
piece of the text (`CutsTo.turn`), so the loop ends well on a text that is cut into admitted pieces, and on no other
(`parseLoop_eq_some_iff`), and it reads behind the text if and only if it comes to a header that has no end
(`parseLoop_eq_error_iff`).
-/
import Citron.Core.TextCheatParser

namespace Citron
namespace Core
namespace TextCheatParser

open List

/-! ### The state as a view of the text read -/

/-- The definitions of the entries: that of entry 0, those of the others in order, and the last of these apart if it is
selected. -/
inductive View
  | nothing
  | main (main : CheatDefinition) (entries : List CheatDefinition)
  | entry (main : CheatDefinition) (entries : List CheatDefinition) (last : CheatDefinition)

namespace View

def mainDef : View → CheatDefinition
  | nothing => {}
  | main m _ => m
  | entry m _ _ => m

def entries : View → List CheatDefinition
  | nothing => []
  | main _ es => es
  | entry _ es d => es ++ [d]

def selected : View → Selected
  | nothing => .nothing
  | main _ _ => .main
  | entry _ _ d => .entry d.opcodes.length

def index : View → Option ℕ
  | nothing => none
  | main _ _ => some 0
  | entry _ es _ => some (es.length + 1)

def mainCount (v : View) : ℕ := v.mainDef.opcodes.length

def state (v : View) (taken : List Token) : ParseState where
  out := (v.mainDef :: v.entries).map fun d => { definition := d }
  currentEntry := v.index
  taken := taken

/-- The view after a piece. -/
def take : View → Piece → View
  | v, .space => v
  | v, .main name => main (v.mainDef.setName name) v.entries
  | v, .entry name => entry v.mainDef v.entries (({} : CheatDefinition).setName name)
  | nothing, .word .. => nothing
  | main m es, .word digits _ => main (m.addOpcode (wordValue digits)) es
  | entry m es d, .word digits _ => entry m es (d.addOpcode (wordValue digits))

def takeAll (v : View) (ps : List Piece) : View := ps.foldl take v

/-- The piece is admitted next. -/
def AdmitsNext : View → Piece → Prop
  | v, .main _ => v.mainCount = 0
  | nothing, .word .. => False
  | main m _, .word .. => m.opcodes.length < maxOpcodes
  | entry _ _ d, .word .. => d.opcodes.length < maxOpcodes
  | _, _ => True

instance (v : View) : ∀ p : Piece, Decidable (v.AdmitsNext p)
  | .space | .entry _ => isTrue (by cases v <;> trivial)
  | .main _ => decidable_of_iff (v.mainCount = 0) (by cases v <;> exact Iff.rfl)
  | .word .. =>
    match v with
    | nothing => instDecidableFalse
    | main m _ => inferInstanceAs (Decidable (m.opcodes.length < maxOpcodes))
    | entry _ _ d => inferInstanceAs (Decidable (d.opcodes.length < maxOpcodes))

end View

/-- The pieces are admitted after what the view has. -/
abbrev View.Admits (v : View) (ps : List Piece) : Prop := AdmitsFrom v.mainCount v.selected ps

variable {v : View} {p : Piece} {ps qs : List Piece} {tk : List Token} {data cs rest name digits : List UInt8} {c closing : UInt8}
  {skip : ℕ} {s : ParseState}

@[simp] theorem View.addOpcode_length (d : CheatDefinition) (value : Dword) :
    (d.addOpcode value).opcodes.length = d.opcodes.length + 1 := by
  simp [CheatDefinition.addOpcode]

@[simp] theorem View.setName_opcodes (d : CheatDefinition) (name : List UInt8) : (d.setName name).opcodes = d.opcodes := rfl

theorem View.admits_cons : v.Admits (p :: ps) ↔ v.AdmitsNext p ∧ (v.take p).Admits ps := by
  cases p with
  | space => simp [View.Admits, AdmitsFrom, View.AdmitsNext, View.take]
  | main name => simp [View.Admits, AdmitsFrom, View.AdmitsNext, View.take, View.mainCount, View.mainDef, View.selected]
  | entry name =>
    simp [View.Admits, AdmitsFrom, View.AdmitsNext, View.take, View.mainCount, View.mainDef, View.selected,
      CheatDefinition.setName]
  | word digits follow =>
    cases v <;>
      simp [View.Admits, AdmitsFrom, View.AdmitsNext, View.take, View.mainCount, View.mainDef, View.selected]

theorem View.admits_append : v.Admits (ps ++ qs) ↔ v.Admits ps ∧ (v.takeAll ps).Admits qs := by
  induction ps generalizing v with
  | nil => simp [View.Admits, AdmitsFrom, View.takeAll]
  | cons p ps ih => simp only [cons_append, View.admits_cons, ih, View.takeAll, foldl_cons, and_assoc]

/-! ### The names -/

theorem matchIndex_of_notMem : closing ∉ data → matchIndex closing data = .error .outOfRange := by
  induction data with
  | nil => intro _; rfl
  | cons c cs ih =>
    intro h
    rw [mem_cons, not_or] at h
    rw [matchIndex, if_neg (Ne.symm h.1), ih h.2]
    rfl

theorem matchIndex_append (h : closing ∉ name) : matchIndex closing (name ++ closing :: cs) = .ok name.length := by
  induction name with
  | nil => simp [matchIndex]
  | cons c name ih =>
    rw [mem_cons, not_or] at h
    rw [cons_append, matchIndex, if_neg (Ne.symm h.1), ih h.2]
    rfl

theorem extractName_of_notMem (h : closing ∉ data) : extractName data closing = .error .outOfRange := by
  rw [extractName, matchIndex_of_notMem h]
  rfl

theorem extractName_append (h : closing ∉ name) :
    extractName (name ++ closing :: cs) closing = .ok (name.take readableNameSize, name.length) := by
  rw [extractName, matchIndex_append h, Except.map, take_append_of_le_length (Nat.min_le_left ..)]
  have hmin : min (min name.length readableNameSize) name.length = min readableNameSize name.length := by omega
  rw [take_eq_take_iff.mpr hmin]

theorem setName_take (d : CheatDefinition) (name : List UInt8) :
    d.setName (name.take readableNameSize) = d.setName name := by
  simp [CheatDefinition.setName, take_take]

/-- A text either has the closing character, after a name without it, or not at all. -/
theorem exists_name_or_notMem (closing : UInt8) (data : List UInt8) :
    (∃ name cs, data = name ++ closing :: cs ∧ closing ∉ name) ∨ closing ∉ data := by
  by_cases h : closing ∈ data
  · obtain ⟨name, cs, rfl, hn⟩ := eq_append_cons_of_mem h
    exact .inl ⟨name, cs, rfl, hn⟩
  · exact .inr h

/-! ### The state of a view -/

theorem modify_concat {α : Type*} (l : List α) (x : α) (f : α → α) : (l ++ [x]).modify l.length f = l ++ [f x] := by
  induction l with
  | nil => rfl
  | cons y l ih => simp [ih]

theorem state_main_modify (v : View) (tk : List Token) (f : CheatDefinition → CheatDefinition) :
    (v.state tk).selectMain.modifyDefinition 0 f = (View.main (f v.mainDef) v.entries).state tk := rfl

theorem state_entry_modify (v : View) (tk : List Token) (f : CheatDefinition → CheatDefinition) :
    (v.state tk).emplaceEntry.modifyDefinition ((v.state tk).emplaceEntry.out.length - 1) f =
      (View.entry v.mainDef v.entries (f {})).state tk := by
  have hlen : (v.state tk).emplaceEntry.out.length - 1 = (v.state tk).out.length := by simp [ParseState.emplaceEntry]
  rw [hlen]
  unfold ParseState.modifyDefinition ParseState.emplaceEntry
  simp only [modify_concat]
  simp [View.state, View.mainDef, View.entries, View.index]

theorem state_last_modify (m d : CheatDefinition) (es : List CheatDefinition) (tk : List Token)
    (f : CheatDefinition → CheatDefinition) :
    ((View.entry m es d).state tk).modifyDefinition (es.length + 1) f = (View.entry m es (f d)).state tk := by
  have h := modify_concat (es.map fun d => ({ definition := d } : CheatEntry)) { definition := d }
    fun e => { e with definition := f e.definition }
  rw [length_map] at h
  simp [ParseState.modifyDefinition, View.state, View.mainDef, View.entries, View.index, h]

theorem state_last_numOpcodes (m d : CheatDefinition) (es : List CheatDefinition) (tk : List Token) :
    ((View.entry m es d).state tk).numOpcodes (es.length + 1) = d.opcodes.length := by
  simp [ParseState.numOpcodes, View.state, View.mainDef, View.entries]

/-! ### The turns of the loop -/

theorem parseLoop_skip : ∀ (skip : ℕ) (data : List UInt8) (s : ParseState),
    parseLoop skip data s = parseLoop 0 (data.drop skip) s
  | 0, _, _ => rfl
  | _ + 1, [], _ => rfl
  | skip + 1, _ :: cs, s => parseLoop_skip skip cs s

theorem parseLoop_space (hc : isSpace c = true) : parseLoop 0 (c :: cs) s = parseLoop 0 cs s := by
  rw [parseLoop, if_pos hc]

theorem isEmpty_name (h0 : name ≠ []) : (name.take readableNameSize).isEmpty = false := by
  rw [isEmpty_eq_false_iff, ne_eq, take_eq_nil_iff, not_or]
  exact ⟨by decide, h0⟩

theorem parseLoop_main (hn : closeBrace ∉ name) (h0 : name ≠ []) :
    parseLoop 0 (openBrace :: (name ++ closeBrace :: cs)) (v.state tk) =
      if v.mainCount = 0 then parseLoop 0 cs ((v.take (.main name)).state (tk ++ [.main name])) else .ok none := by
  have hcount : (v.state tk).selectMain.numOpcodes 0 = v.mainCount := rfl
  rw [parseLoop, if_neg (by decide), if_pos rfl]
  by_cases hm : v.mainCount = 0
  · rw [if_neg (by omega), if_pos hm, extractName_append hn]
    simp only [isEmpty_name h0, Bool.false_eq_true, if_false, state_main_modify, setName_take, take_left]
    rw [parseLoop_skip, drop_length_add_append]
    rfl
  · rw [if_pos (by omega), if_neg hm]

theorem parseLoop_entry (hn : closeBracket ∉ name) (h0 : name ≠ []) :
    parseLoop 0 (openBracket :: (name ++ closeBracket :: cs)) (v.state tk) =
      parseLoop 0 cs ((v.take (.entry name)).state (tk ++ [.entry name])) := by
  rw [parseLoop, if_neg (by decide), if_neg (by decide), if_pos rfl, extractName_append hn]
  simp only [isEmpty_name h0, Bool.false_eq_true, if_false, state_entry_modify, setName_take, take_left]
  rw [parseLoop_skip, drop_length_add_append]
  rfl

theorem parseLoop_digits (hd : data.take 8 = digits) (h0 : digits ≠ []) (hx : digits.all isXDigit = true)
    (follow : Option UInt8) :
    parseLoop 0 data (v.state tk) =
      if v.AdmitsNext (.word digits follow) then
        parseLoop 0 (data.drop 9) ((v.take (.word digits follow)).state (tk ++ [.word digits]))
      else .ok none := by
  cases data with
  | nil => exact absurd hd.symm h0
  | cons c cs =>
    have hc : isXDigit c = true := all_eq_true.mp hx c (by rw [← hd]; simp)
    have hne : c ≠ openBrace ∧ c ≠ openBracket := by
      constructor <;> rintro rfl <;> revert hc <;> decide
    rw [parseLoop, if_neg (by rw [isSpace_of_isXDigit hc]; simp), if_neg hne.1, if_neg hne.2, if_pos hc]
    simp only [hd, hx, if_true, parseLoop_skip 8]
    cases v with
    | nothing => rfl
    | main m es =>
      by_cases hm : m.opcodes.length < maxOpcodes
      · exact (if_neg (Nat.not_le.mpr hm)).trans (if_pos hm).symm
      · exact (if_pos (Nat.not_lt.mp hm)).trans (if_neg hm).symm
    | entry m es d =>
      have hindex : ((View.entry m es d).state tk).currentEntry = some (es.length + 1) := rfl
      simp only [hindex, state_last_numOpcodes, state_last_modify]
      by_cases hm : d.opcodes.length < maxOpcodes
      · exact (if_neg (Nat.not_le.mpr hm)).trans (if_pos hm).symm
      · exact (if_pos (Nat.not_lt.mp hm)).trans (if_neg hm).symm

/-- A turn of the loop takes a piece, or ends the loop if the piece is not admitted. -/
theorem CutsTo.turn (h : CutsTo data [p] cs) :
    parseLoop 0 data (v.state tk) =
      if v.AdmitsNext p then parseLoop 0 cs ((v.take p).state (tk ++ p.token?.toList)) else .ok none := by
  cases h with
  | space hc hcs =>
    cases hcs
    have hadm : v.AdmitsNext .space := by cases v <;> trivial
    rw [if_pos hadm, parseLoop_space hc]
    simp [View.take, Piece.token?]
  | main h0 hn hcs =>
    cases hcs
    rw [parseLoop_main hn h0]
    exact if_congr Iff.rfl rfl rfl
  | entry h0 hn hcs =>
    cases hcs
    have hadm : ∀ name, v.AdmitsNext (.entry name) := fun name => by cases v <;> trivial
    rw [if_pos (hadm _)]
    exact parseLoop_entry hn h0
  | @word digits _ _ c _ hlen hx hcs =>
    cases hcs
    have hne : digits ≠ [] := ne_nil_of_length_pos (by omega)
    rw [parseLoop_digits (by rw [take_left' hlen]) hne hx (some c)]
    have hdrop : (digits ++ c :: cs).drop (digits.length + 1) = cs := drop_length_add_append 1
    rw [hlen] at hdrop
    rw [hdrop]
    rfl
  | lastWord h0 hlen hx =>
    rw [parseLoop_digits (take_of_length_le hlen) h0 hx none, drop_eq_nil_of_le (by omega)]
    rfl

/-- A header without an end is read behind the text, unless it is not admitted. -/
theorem parseLoop_openMain (hn : closeBrace ∉ name) :
    parseLoop 0 (openBrace :: name) (v.state tk) = if v.mainCount = 0 then .error .outOfRange else .ok none := by
  have hcount : (v.state tk).selectMain.numOpcodes 0 = v.mainCount := rfl
  rw [parseLoop, if_neg (by decide), if_pos rfl]
  by_cases hm : v.mainCount = 0
  · rw [if_neg (by omega), if_pos hm, extractName_of_notMem hn]
  · rw [if_pos (by omega), if_neg hm]

theorem parseLoop_openEntry (hn : closeBracket ∉ name) :
    parseLoop 0 (openBracket :: name) (v.state tk) = .error .outOfRange := by
  rw [parseLoop, if_neg (by decide), if_neg (by decide), if_pos rfl, extractName_of_notMem hn]

/-- A text starts with a piece, with a header that has no end, or with what the parser refuses. -/
theorem first_piece (h0 : data ≠ []) :
    (∃ p cs, CutsTo data [p] cs ∧ cs.length < data.length) ∨
      (∃ name, data = openBrace :: name ∧ closeBrace ∉ name) ∨
      (∃ name, data = openBracket :: name ∧ closeBracket ∉ name) ∨
      ∀ (v : View) (tk : List Token), parseLoop 0 data (v.state tk) = .ok none := by
  obtain ⟨c, cs, rfl⟩ := exists_cons_of_ne_nil h0
  cases hc : isSpace c with
  | true => exact .inl ⟨.space, cs, .space hc .nil, Nat.lt_succ_self _⟩
  | false =>
  by_cases hbrace : c = openBrace
  · subst hbrace
    rcases exists_name_or_notMem closeBrace cs with ⟨name, rest, rfl, hn⟩ | hn
    · by_cases hname : name = []
      · subst hname
        refine .inr (.inr (.inr fun v tk => ?_))
        rw [parseLoop, if_neg (by decide), if_pos rfl, extractName_append hn]
        simp
      · exact .inl ⟨.main name, rest, .main hname hn .nil, by simp; omega⟩
    · exact .inr (.inl ⟨cs, rfl, hn⟩)
  by_cases hbracket : c = openBracket
  · subst hbracket
    rcases exists_name_or_notMem closeBracket cs with ⟨name, rest, rfl, hn⟩ | hn
    · by_cases hname : name = []
      · subst hname
        refine .inr (.inr (.inr fun v tk => ?_))
        rw [parseLoop, if_neg (by decide), if_neg (by decide), if_pos rfl, extractName_append hn]
        simp
      · exact .inl ⟨.entry name, rest, .entry hname hn .nil, by simp; omega⟩
    · exact .inr (.inr (.inl ⟨cs, rfl, hn⟩))
  have hrefused : isXDigit c = false ∨ ((c :: cs).take 8).all isXDigit = false →
      ∀ (v : View) (tk : List Token), parseLoop 0 (c :: cs) (v.state tk) = .ok none := by
    intro h v tk
    rw [parseLoop, if_neg (by rw [hc]; simp), if_neg hbrace, if_neg hbracket]
    rcases h with h | h
    · rw [if_neg (by rw [h]; simp)]
    · simp only [h, Bool.false_eq_true, if_false]
      split_ifs
      · split
        · rfl
        · exact ite_self _
      · rfl
  cases hx : ((c :: cs).take 8).all isXDigit with
  | false => exact .inr (.inr (.inr (hrefused (.inr hx))))
  | true =>
    refine .inl ?_
    by_cases hlen : (c :: cs).length ≤ 8
    · rw [take_of_length_le hlen] at hx
      exact ⟨.word (c :: cs) none, [], .lastWord (cons_ne_nil _ _) hlen hx, Nat.succ_pos _⟩
    · obtain ⟨d, rest, hrest⟩ : ∃ d rest, (c :: cs).drop 8 = d :: rest :=
        exists_cons_of_ne_nil (by rw [ne_eq, drop_eq_nil_iff]; exact hlen)
      have hcut : c :: cs = (c :: cs).take 8 ++ d :: rest := by rw [← hrest, take_append_drop]
      have h8 : ((c :: cs).take 8).length = 8 := by rw [length_take]; omega
      refine ⟨.word ((c :: cs).take 8) (some d), rest, ?_, ?_⟩
      · have hw := CutsTo.word (c := d) h8 hx (CutsTo.nil (t := rest))
        rwa [← hcut] at hw
      · rw [hcut, length_append, length_cons]
        omega

/-! ### Cuts, a piece at a time -/

theorem CutsTo.of_nil (h : CutsTo data ps rest) (hdata : data = []) : ps = [] ∧ rest = [] := by
  cases h with
  | nil => exact ⟨rfl, hdata⟩
  | space => cases hdata
  | main => cases hdata
  | entry => cases hdata
  | word => simp at hdata
  | lastWord h0 => exact absurd hdata h0

theorem CutsTo.cons (h : CutsTo data [p] cs) (hcs : CutsTo cs ps rest) : CutsTo data (p :: ps) rest := by
  cases h with
  | space hc h => cases h; exact .space hc hcs
  | main h0 hn h => cases h; exact .main h0 hn hcs
  | entry h0 hn h => cases h; exact .entry h0 hn hcs
  | word hlen hx h => cases h; exact .word hlen hx hcs
  | lastWord h0 hlen hx =>
    obtain ⟨rfl, rfl⟩ := hcs.of_nil rfl
    exact .lastWord h0 hlen hx

theorem CutsTo.uncons (h : CutsTo data (p :: ps) rest) : ∃ cs, CutsTo data [p] cs ∧ CutsTo cs ps rest := by
  cases h with
  | space hc h => exact ⟨_, .space hc .nil, h⟩
  | main h0 hn h => exact ⟨_, .main h0 hn .nil, h⟩
  | entry h0 hn h => exact ⟨_, .entry h0 hn .nil, h⟩
  | word hlen hx h => exact ⟨_, .word hlen hx .nil, h⟩
  | lastWord h0 hlen hx => exact ⟨[], .lastWord h0 hlen hx, .nil⟩

/-- Admitted pieces are taken one after the other. -/
theorem CutsTo.parseLoop_eq (h : CutsTo data ps rest) (ha : v.Admits ps) :
    parseLoop 0 data (v.state tk) = parseLoop 0 rest ((v.takeAll ps).state (tk ++ tokensOf ps)) := by
  induction ps generalizing data v tk with
  | nil =>
    cases h
    rw [tokensOf_nil, append_nil]
    rfl
  | cons p ps ih =>
    obtain ⟨cs, hp, hcs⟩ := h.uncons
    obtain ⟨hnext, hps⟩ := View.admits_cons.mp ha
    rw [hp.turn, if_pos hnext, ih hcs hps, tokensOf_cons, append_assoc]
    rfl

theorem OpensHeader.cons (hp : CutsTo data [p] cs) (hnext : v.AdmitsNext p)
    (h : OpensHeader (v.take p).mainCount (v.take p).selected cs) : OpensHeader v.mainCount v.selected data := by
  cases h with
  | main ps name hcut hn ha => exact .main (p :: ps) name (hp.cons hcut) hn (View.admits_cons.mpr ⟨hnext, ha⟩)
  | entry ps name hcut hn ha => exact .entry (p :: ps) name (hp.cons hcut) hn (View.admits_cons.mpr ⟨hnext, ha⟩)

/-- The three ends of the loop. -/
theorem parseLoop_cases (n : ℕ) : ∀ (data : List UInt8) (v : View) (tk : List Token), data.length ≤ n →
    parseLoop 0 data (v.state tk) = .ok none ∨
      (∃ ps, Cuts data ps ∧ v.Admits ps ∧ parseLoop 0 data (v.state tk) = .ok (some ((v.takeAll ps).state (tk ++ tokensOf ps)))) ∨
      (OpensHeader v.mainCount v.selected data ∧ parseLoop 0 data (v.state tk) = .error .outOfRange) := by
  induction n with
  | zero =>
    intro data v tk hn
    obtain rfl : data = [] := length_eq_zero_iff.mp (by omega)
    exact .inr (.inl ⟨[], .nil, trivial, by rw [tokensOf_nil, append_nil]; rfl⟩)
  | succ n ih =>
    intro data v tk hn
    by_cases h0 : data = []
    · exact ih data v tk (by rw [h0]; exact Nat.zero_le _)
    rcases first_piece h0 with ⟨p, cs, hp, hlt⟩ | ⟨name, rfl, hname⟩ | ⟨name, rfl, hname⟩ | hnone
    · rw [hp.turn]
      by_cases hnext : v.AdmitsNext p
      · rw [if_pos hnext]
        rcases ih cs (v.take p) (tk ++ p.token?.toList) (by omega) with h | ⟨ps, hcut, ha, h⟩ | ⟨hopen, h⟩
        · exact .inl h
        · refine .inr (.inl ⟨p :: ps, hp.cons hcut, View.admits_cons.mpr ⟨hnext, ha⟩, ?_⟩)
          rw [h, tokensOf_cons, append_assoc]
          rfl
        · exact .inr (.inr ⟨hopen.cons hp hnext, h⟩)
      · exact .inl (if_neg hnext)
    · rw [parseLoop_openMain hname]
      by_cases hm : v.mainCount = 0
      · refine .inr (.inr ⟨.main [] name .nil hname ?_, if_pos hm⟩)
        exact ⟨hm, trivial⟩
      · exact .inl (if_neg hm)
    · refine .inr (.inr ⟨.entry [] name .nil hname ?_, parseLoop_openEntry hname⟩)
      exact View.admits_cons.mpr ⟨by cases v <;> trivial, trivial⟩
    · exact .inl (hnone v tk)

/-- **The loop ends well on the texts that are cut into admitted pieces.** -/
theorem parseLoop_eq_some_iff : parseLoop 0 data (v.state tk) = .ok (some s) ↔
    ∃ ps, Cuts data ps ∧ v.Admits ps ∧ s = (v.takeAll ps).state (tk ++ tokensOf ps) := by
  constructor
  · intro h
    rcases parseLoop_cases _ data v tk (Nat.le_refl _) with h' | ⟨ps, hcut, ha, h'⟩ | ⟨-, h'⟩
    · rw [h] at h'; cases h'
    · rw [h] at h'
      exact ⟨ps, hcut, ha, Option.some.inj (Except.ok.inj h')⟩
    · rw [h] at h'; cases h'
  · rintro ⟨ps, hcut, ha, rfl⟩
    rw [hcut.parseLoop_eq ha]
    rfl

/-- **The loop reads behind the text exactly where it comes to a header that has no end.** -/
theorem parseLoop_eq_error_iff : parseLoop 0 data (v.state tk) = .error .outOfRange ↔
    OpensHeader v.mainCount v.selected data := by
  constructor
  · intro h
    rcases parseLoop_cases _ data v tk (Nat.le_refl _) with h' | ⟨ps, hcut, ha, h'⟩ | ⟨hopen, -⟩
    · rw [h] at h'; cases h'
    · rw [h] at h'; cases h'
    · exact hopen
  · rintro (⟨ps, name, hcut, hn, ha⟩ | ⟨ps, name, hcut, hn, ha⟩)
    · obtain ⟨hps, hlast⟩ := View.admits_append.mp ha
      rw [hcut.parseLoop_eq hps, parseLoop_openMain hn, if_pos hlast.1]
    · obtain ⟨hps, -⟩ := View.admits_append.mp ha
      rw [hcut.parseLoop_eq hps, parseLoop_openEntry hn]

end TextCheatParser
end Core
end Citron
