/-
# Reading cheats from a text

`TextCheatParser::Parse` walks over the characters of a text with one index. A header `{name}` selects entry 0, a header
`[name]` opens the next entry, and a word of hexadecimal digits is an opcode of the entry that is selected. After a header
or a word the index is moved on, and then the loop moves it once more. A read behind the end of the text is a fault.

The entries are as the parser leaves them. The list of the headers and words it took is kept beside them, to speak about;
the parser has no such list.
-/
import Citron.Core.CheatVm

namespace Citron
namespace Core
namespace TextCheatParser

open List

abbrev openBrace : UInt8 := 0x7B

abbrev closeBrace : UInt8 := 0x7D

abbrev openBracket : UInt8 := 0x5B

abbrev closeBracket : UInt8 := 0x5D

/-- In the C locale, as the next. -/
def isSpace (c : UInt8) : Bool := c == 0x20 || (0x09 ≤ c && c ≤ 0x0D)

def isXDigit (c : UInt8) : Bool := (0x30 ≤ c && c ≤ 0x39) || (0x41 ≤ c && c ≤ 0x46) || (0x61 ≤ c && c ≤ 0x66)

def digitValue (c : UInt8) : ℕ :=
  if c ≤ 0x39 then c.toNat - 0x30 else if c ≤ 0x46 then c.toNat - 0x37 else c.toNat - 0x57

/-- `strtoul` on digits, cut to 32 bits. -/
def wordValue (digits : List UInt8) : Dword := BitVec.ofNat 32 (digits.foldl (fun n c => 16 * n + digitValue c) 0)

/-! ### The entries -/

/-- `sizeof(CheatDefinition::readable_name)` -/
abbrev readableNameSize : ℕ := 0x40

abbrev maxOpcodes : ℕ := 0x100

/-- The opcodes are the first `num_opcodes` of the array; the others are 0. -/
structure CheatDefinition where
  readableName : List UInt8 := List.replicate readableNameSize 0
  opcodes : List Dword := []
deriving DecidableEq, Repr

structure CheatEntry where
  enabled : Bool := false
  cheatId : ℕ := 0
  definition : CheatDefinition := {}
deriving DecidableEq, Repr

/-- The `memcpy` into the name and the NUL at its end. -/
def CheatDefinition.setName (d : CheatDefinition) (name : List UInt8) : CheatDefinition :=
  let size := min readableNameSize name.length
  { d with readableName := (name.take size ++ d.readableName.drop size).set (readableNameSize - 1) 0 }

def CheatDefinition.addOpcode (d : CheatDefinition) (value : Dword) : CheatDefinition :=
  { d with opcodes := d.opcodes ++ [value] }

/-! ### The parser -/

inductive Fault
  /-- A character behind the end of the text is read. -/
  | outOfRange
deriving DecidableEq, Repr

/-- The loop of `ExtractName`, from `end_index` on. The comparison of the index with the size comes after the read, so it
can only follow a read behind the end. -/
def matchIndex (closing : UInt8) : List UInt8 → Except Fault ℕ
  | [] => .error .outOfRange
  | c :: cs => if c = closing then .ok 0 else (matchIndex closing cs).map (· + 1)

/-- `ExtractName`: the name, clamped, and its size, which is not. -/
def extractName (data : List UInt8) (closing : UInt8) : Except Fault (List UInt8 × ℕ) :=
  (matchIndex closing data).map fun nameSize => (data.take (min nameSize readableNameSize), nameSize)

/-- A header or a word of the text. -/
inductive Token
  | main (name : List UInt8)
  | entry (name : List UInt8)
  | word (digits : List UInt8)
deriving DecidableEq, Repr

structure ParseState where
  out : List CheatEntry := [{}]
  currentEntry : Option ℕ := none
  taken : List Token := []
deriving DecidableEq, Repr

namespace ParseState

/-- `num_opcodes` of an entry. -/
def numOpcodes (s : ParseState) (i : ℕ) : ℕ := (s.out[i]?.getD ({} : CheatEntry)).definition.opcodes.length

/-- A change of the definition of an entry. -/
def modifyDefinition (s : ParseState) (i : ℕ) (f : CheatDefinition → CheatDefinition) : ParseState :=
  { s with out := s.out.modify i fun e => { e with definition := f e.definition } }

def selectMain (s : ParseState) : ParseState := { s with currentEntry := some 0 }

/-- A new entry, and its selection. -/
def emplaceEntry (s : ParseState) : ParseState :=
  { s with currentEntry := some s.out.length, out := s.out ++ [({} : CheatEntry)] }

def take (s : ParseState) (t : Token) : ParseState := { s with taken := s.taken ++ [t] }

end ParseState

/-- The loop of `Parse`. `skip` is by how much the index was moved on, beside the steps of the loop itself. An empty result
that is returned early is `none`. -/
def parseLoop : ℕ → List UInt8 → ParseState → Except Fault (Option ParseState)
  | _, [], s => .ok (some s)
  | skip + 1, _ :: cs, s => parseLoop skip cs s
  | 0, c :: cs, s =>
    if isSpace c then parseLoop 0 cs s
    else if c = openBrace then
      let s := s.selectMain
      if s.numOpcodes 0 > 0 then .ok none
      else
        match extractName cs closeBrace with
        | .error e => .error e
        | .ok (name, nameSize) =>
          if name.isEmpty then .ok none
          else parseLoop (nameSize + 1) cs ((s.modifyDefinition 0 (·.setName name)).take (.main (cs.take nameSize)))
    else if c = openBracket then
      let s := s.emplaceEntry
      match extractName cs closeBracket with
      | .error e => .error e
      | .ok (name, nameSize) =>
        if name.isEmpty then .ok none
        else
          parseLoop (nameSize + 1) cs
            ((s.modifyDefinition (s.out.length - 1) (·.setName name)).take (.entry (cs.take nameSize)))
    else if isXDigit c then
      match s.currentEntry with
      | none => .ok none
      | some i =>
        if s.numOpcodes i ≥ maxOpcodes then .ok none
        else
          let hex := (c :: cs).take 8
          if hex.all isXDigit then
            parseLoop 8 cs ((s.modifyDefinition i (·.addOpcode (wordValue hex))).take (.word hex))
          else .ok none
    else .ok none

/-- The last lines of `Parse`. -/
def finish (out : List CheatEntry) : List CheatEntry :=
  out.mapIdx fun i e => { e with enabled := decide (0 < e.definition.opcodes.length), cheatId := i }

/-- `TextCheatParser::Parse` -/
def parse (data : List UInt8) : Except Fault (List CheatEntry) :=
  (parseLoop 0 data {}).map fun
    | some s => finish s.out
    | none => []

/-- The headers and words that `Parse` took, if it did not return early. -/
def taken (data : List UInt8) : List Token :=
  match parseLoop 0 data {} with
  | .ok (some s) => s.taken
  | _ => []

/-! ### What a text says -/

/-- The text is made of spaces, headers and words of eight digits, and these are its headers and words. -/
inductive Says : List UInt8 → List Token → Prop
  | nil : Says [] []
  | space {c : UInt8} {cs : List UInt8} {ts : List Token} : isSpace c = true → Says cs ts → Says (c :: cs) ts
  | main {name cs : List UInt8} {ts : List Token} :
    closeBrace ∉ name → Says cs ts → Says (openBrace :: (name ++ closeBrace :: cs)) (.main name :: ts)
  | entry {name cs : List UInt8} {ts : List Token} :
    closeBracket ∉ name → Says cs ts → Says (openBracket :: (name ++ closeBracket :: cs)) (.entry name :: ts)
  | word {digits cs : List UInt8} {ts : List Token} :
    digits.length = 8 → digits.all isXDigit = true → Says cs ts → Says (digits ++ cs) (.word digits :: ts)

/-- The words up to the next header. -/
def leadingWords : List Token → List Dword
  | .word digits :: ts => wordValue digits :: leadingWords ts
  | _ => []

/-- The words under headers `{name}`. -/
def mainWords : List Token → List Dword
  | [] => []
  | .main _ :: ts => leadingWords ts ++ mainWords ts
  | _ :: ts => mainWords ts

/-- The names in headers `{name}`. -/
def mainNames : List Token → List (List UInt8)
  | [] => []
  | .main name :: ts => name :: mainNames ts
  | _ :: ts => mainNames ts

/-- The names in headers `[name]`, with the words under them. -/
def namedEntries : List Token → List (List UInt8 × List Dword)
  | [] => []
  | .entry name :: ts => (name, leadingWords ts) :: namedEntries ts
  | _ :: ts => namedEntries ts

/-- The name field for a name: clamped, with a NUL at its end. -/
def nameField (name : List UInt8) : List UInt8 := (name ++ List.replicate readableNameSize 0).take (readableNameSize - 1) ++ [0]

/-- The entries for the headers and words of a text. -/
def entriesOf (ts : List Token) : List CheatEntry :=
  finish ({ definition := ⟨nameField ((mainNames ts).getLast?.getD []), mainWords ts⟩ } ::
    (namedEntries ts).map fun e => { definition := ⟨nameField e.1, e.2⟩ })

/-- No character outside the text is read; and if there is a result, then the headers and words that were taken are those of
the text, and the entries are the ones for them. -/
def ParsesCorrectly (data : List UInt8) : Prop :=
  (∀ fault, parse data ≠ .error fault) ∧
    ∀ out, parse data = .ok out → out ≠ [] → Says data (taken data) ∧ out = entriesOf (taken data)

/-! ## How the cheat parser cuts a text

The parser takes a text as a sequence of pieces: a space, a closed header with a name, a word of eight digits with whatever
character follows it, or up to eight digits at the end of the text (`Cuts`). It admits a sequence of pieces if every word has
a header before it, if no header `{name}` comes after a word under such a header, and if no entry gets more opcodes than it
has room for (`Admits`). The cut of a text is a matter of the text alone.
-/

inductive Piece
  | space
  | main (name : List UInt8)
  | entry (name : List UInt8)
  /-- A word and the character that follows it, if there is one. -/
  | word (digits : List UInt8) (follow : Option UInt8)
deriving DecidableEq, Repr

/-- The header or word of a piece. -/
def Piece.token? : Piece → Option Token
  | .space => none
  | .main name => some (.main name)
  | .entry name => some (.entry name)
  | .word digits _ => some (.word digits)

/-- The headers and words of the pieces. -/
def tokensOf (ps : List Piece) : List Token := ps.filterMap Piece.token?

/-- A piece as the text should have it: a word has eight digits and a space or nothing behind it. -/
def Piece.Clean : Piece → Prop
  | .word digits follow => digits.length = 8 ∧ ∀ c ∈ follow, isSpace c = true
  | _ => True

instance : DecidablePred Piece.Clean := fun p => by
  cases p <;> unfold Piece.Clean <;> infer_instance

/-- The text is cut into the pieces, up to the rest. -/
inductive CutsTo : List UInt8 → List Piece → List UInt8 → Prop
  | nil {t : List UInt8} : CutsTo t [] t
  | space {c : UInt8} {cs t : List UInt8} {ps : List Piece} :
    isSpace c = true → CutsTo cs ps t → CutsTo (c :: cs) (.space :: ps) t
  | main {name cs t : List UInt8} {ps : List Piece} : name ≠ [] → closeBrace ∉ name → CutsTo cs ps t →
    CutsTo (openBrace :: (name ++ closeBrace :: cs)) (.main name :: ps) t
  | entry {name cs t : List UInt8} {ps : List Piece} : name ≠ [] → closeBracket ∉ name → CutsTo cs ps t →
    CutsTo (openBracket :: (name ++ closeBracket :: cs)) (.entry name :: ps) t
  | word {digits cs t : List UInt8} {c : UInt8} {ps : List Piece} : digits.length = 8 → digits.all isXDigit = true →
    CutsTo cs ps t → CutsTo (digits ++ c :: cs) (.word digits (some c) :: ps) t
  | lastWord {digits : List UInt8} : digits ≠ [] → digits.length ≤ 8 → digits.all isXDigit = true →
    CutsTo digits [.word digits none] []

/-- The whole text is cut into the pieces. -/
abbrev Cuts (data : List UInt8) (ps : List Piece) : Prop := CutsTo data ps []

/-- What words count to: the number of opcodes of entry 0, and the entry that is selected. -/
inductive Selected
  | nothing
  | main
  /-- The last entry, with the number of its opcodes. -/
  | entry (opcodes : ℕ)
deriving DecidableEq, Repr

/-- The pieces are admitted after pieces that left entry 0 with a number of opcodes. -/
def AdmitsFrom : ℕ → Selected → List Piece → Prop
  | _, _, [] => True
  | m, sel, .space :: ps => AdmitsFrom m sel ps
  | m, _, .main _ :: ps => m = 0 ∧ AdmitsFrom m .main ps
  | m, _, .entry _ :: ps => AdmitsFrom m (.entry 0) ps
  | _, .nothing, .word .. :: _ => False
  | m, .main, .word .. :: ps => m < maxOpcodes ∧ AdmitsFrom (m + 1) .main ps
  | m, .entry k, .word .. :: ps => k < maxOpcodes ∧ AdmitsFrom m (.entry (k + 1)) ps

abbrev Admits (ps : List Piece) : Prop := AdmitsFrom 0 .nothing ps

/-- After admitted pieces the text goes on with a header that has no end. -/
inductive OpensHeader (m : ℕ) (sel : Selected) (data : List UInt8) : Prop
  | main (ps : List Piece) (name : List UInt8) : CutsTo data ps (openBrace :: name) → closeBrace ∉ name →
    AdmitsFrom m sel (ps ++ [.main name]) → OpensHeader m sel data
  | entry (ps : List Piece) (name : List UInt8) : CutsTo data ps (openBracket :: name) → closeBracket ∉ name →
    AdmitsFrom m sel (ps ++ [.entry name]) → OpensHeader m sel data

/-- The character that the names leave at a place of the name field: of those that reach it, the last one's. -/
def charAt (names : List (List UInt8)) (i : ℕ) : UInt8 :=
  ((names.filter fun name => i < name.length).getLast?.bind (·[i]?)).getD 0

/-- Behind the last name, the ones before it leave NULs only. -/
def LastNameStands (names : List (List UInt8)) : Prop :=
  ∀ name ∈ names.getLast?, ∀ i < readableNameSize - 1, name.length ≤ i → charAt names.dropLast i = 0

/-! ### Characters -/

theorem isSpace_of_isXDigit {c : UInt8} (h : isXDigit c = true) : isSpace c = false := by
  have hall : ∀ n : Fin 256, isXDigit (.ofFin n) = true → isSpace (.ofFin n) = false := by decide +kernel
  exact hall c.toFin h

theorem isSpace_openBrace : isSpace openBrace = false := by decide

theorem isSpace_openBracket : isSpace openBracket = false := by decide

theorem isSpace_head {digits : List UInt8} (hx : digits.all isXDigit = true) {c : UInt8} (hc : c ∈ digits) :
    isSpace c = false := isSpace_of_isXDigit (all_eq_true.mp hx c hc)

/-! ### Tokens as text -/

def Token.text : Token → List UInt8
  | .main name => openBrace :: (name ++ [closeBrace])
  | .entry name => openBracket :: (name ++ [closeBracket])
  | .word digits => digits

variable {data cs rest x y : List UInt8} {ps : List Piece} {t : Token} {ts : List Token}

@[simp] theorem tokensOf_nil : tokensOf [] = [] := rfl

theorem tokensOf_cons (p : Piece) (ps : List Piece) : tokensOf (p :: ps) = p.token?.toList ++ tokensOf ps := by
  unfold tokensOf
  rw [filterMap_cons]
  cases p.token? <;> rfl

/-- Up to its first header or word a text has spaces only. -/
theorem CutsTo.exists_token (h : CutsTo y ps rest) (hrest : rest = []) (ht : tokensOf ps = t :: ts) :
    ∃ sp follow y' ps', y = sp ++ (t.text ++ (follow ++ y')) ∧ Cuts y' ps' ∧ tokensOf ps' = ts := by
  induction h with
  | nil => cases ht
  | @space c cs _ ps _ _ ih =>
    obtain ⟨sp, follow, y', ps', rfl, h1, h2⟩ := ih hrest ht
    exact ⟨c :: sp, follow, y', ps', rfl, h1, h2⟩
  | @main name cs _ ps _ _ hcs _ =>
    subst hrest
    obtain ⟨rfl, rfl⟩ := List.cons.inj ht
    exact ⟨[], [], cs, ps, by simp [Token.text], hcs, rfl⟩
  | @entry name cs _ ps _ _ hcs _ =>
    subst hrest
    obtain ⟨rfl, rfl⟩ := List.cons.inj ht
    exact ⟨[], [], cs, ps, by simp [Token.text], hcs, rfl⟩
  | @word digits cs _ c ps _ _ hcs _ =>
    subst hrest
    obtain ⟨rfl, rfl⟩ := List.cons.inj ht
    exact ⟨[], [c], cs, ps, rfl, hcs, rfl⟩
  | @lastWord digits _ _ _ =>
    obtain ⟨rfl, rfl⟩ := List.cons.inj ht
    exact ⟨[], [], [], [], by simp [Token.text], .nil, rfl⟩

/-- A copy of `t` that starts later ends later. -/
theorem exists_mem_of_append_eq {α : Type*} {t cs a y : List α} (h : t ++ cs = a ++ (t ++ y)) (ha : a ≠ []) (hne : t ≠ []) :
    ∃ d, cs = d ++ y ∧ t.getLast hne ∈ d := by
  refine ⟨(a ++ t).drop t.length, ?_, ?_⟩
  · have hlen : t.length ≤ (a ++ t).length := by simp
    calc cs = (t ++ cs).drop t.length := (drop_left).symm
      _ = ((a ++ t) ++ y).drop t.length := by rw [h, append_assoc]
      _ = (a ++ t).drop t.length ++ y := drop_append_of_le_length hlen
  · have hdrop : (a ++ t).drop t.length ≠ [] := by
      rw [ne_eq, drop_eq_nil_iff, length_append, Nat.not_le]
      have := length_pos_of_ne_nil ha
      omega
    have hlast : ((a ++ t).drop t.length).getLast hdrop = t.getLast hne := by
      rw [getLast_drop, getLast_append_of_ne_nil _ hne]
    rw [← hlast]
    exact getLast_mem hdrop

theorem getLast_header (o c : UInt8) (name : List UInt8) (h : o :: (name ++ [c]) ≠ []) : (o :: (name ++ [c])).getLast h = c := by
  rw [getLast_cons (append_ne_nil_of_right_ne_nil _ (cons_ne_nil _ _)), getLast_append_singleton]

/-- **A cut that starts later lags behind.** A cut that leaves out a character that is no space does not have the headers and
words that the text has. -/
theorem Says.tokensOf_ne (h : Says x ts) : ∀ {d y : List UInt8} {ps : List Piece}, x = d ++ y → (∃ c ∈ d, isSpace c = false) →
    Cuts y ps → tokensOf ps ≠ ts := by
  -- after each header or word of the text the cut is still behind by a character that is no space
  have step : ∀ {t : Token} {cs : List UInt8} {ts : List Token} (hne : t.text ≠ []), isSpace (t.text.getLast hne) = false →
      (∀ {d y : List UInt8} {ps : List Piece}, cs = d ++ y → (∃ c ∈ d, isSpace c = false) → Cuts y ps → tokensOf ps ≠ ts) →
      ∀ {d y : List UInt8} {ps : List Piece}, t.text ++ cs = d ++ y → (∃ c ∈ d, isSpace c = false) → Cuts y ps →
        tokensOf ps ≠ t :: ts := by
    intro t cs ts hne hlast ih d y ps hx hd hy hts
    obtain ⟨sp, follow, y', ps', rfl, hy', hts'⟩ := hy.exists_token rfl hts
    obtain ⟨c, hc, -⟩ := hd
    have hd : d ++ sp ≠ [] := append_ne_nil_of_left_ne_nil (ne_nil_of_mem hc) sp
    rw [← append_assoc] at hx
    obtain ⟨d', hcs, hmem⟩ := exists_mem_of_append_eq hx hd hne
    exact ih (d := d' ++ follow) (by rw [hcs, append_assoc]) ⟨_, mem_append_left _ hmem, hlast⟩ hy' hts'
  induction h with
  | nil =>
    rintro d y ps hx ⟨c, hc, -⟩ -
    rw [(append_eq_nil_iff.mp hx.symm).1] at hc
    cases hc
  | @space c cs ts hc _ ih =>
    rintro d y ps hx ⟨c', hc', hns⟩ hy
    cases d with
    | nil => cases hc'
    | cons e d =>
      obtain ⟨rfl, rfl⟩ := List.cons.inj hx
      refine ih rfl ⟨c', ?_, hns⟩ hy
      exact (mem_cons.mp hc').resolve_left fun he => by rw [he, hc] at hns; cases hns
  | @main name cs ts _ _ ih =>
    intro d y ps hx
    refine step (t := .main name) (cons_ne_nil _ _) ?_ ih (by rw [← hx]; simp [Token.text])
    have hlast := getLast_header openBrace closeBrace name (cons_ne_nil _ _)
    exact (congrArg isSpace hlast).trans rfl
  | @entry name cs ts _ _ ih =>
    intro d y ps hx
    refine step (t := .entry name) (cons_ne_nil _ _) ?_ ih (by rw [← hx]; simp [Token.text])
    have hlast := getLast_header openBracket closeBracket name (cons_ne_nil _ _)
    exact (congrArg isSpace hlast).trans rfl
  | @word digits cs ts hlen hx' _ ih =>
    have hne : digits ≠ [] := ne_nil_of_length_pos (by omega)
    intro d y ps hx
    exact step (t := .word digits) hne (isSpace_head hx' (getLast_mem hne)) ih hx

/-! ### Clean cuts -/

/-- Clean pieces are what the text says. -/
theorem CutsTo.says (h : CutsTo data ps rest) (hps : ∀ p ∈ ps, p.Clean) (hrest : Says rest ts) :
    Says data (tokensOf ps ++ ts) := by
  induction h with
  | nil => exact hrest
  | space hc _ ih => exact .space hc (ih (fun p hp => hps p (mem_cons_of_mem _ hp)) hrest)
  | main _ hn _ ih => exact .main hn (ih (fun p hp => hps p (mem_cons_of_mem _ hp)) hrest)
  | entry _ hn _ ih => exact .entry hn (ih (fun p hp => hps p (mem_cons_of_mem _ hp)) hrest)
  | @word digits cs _ c ps hlen hx _ ih =>
    have hc : isSpace c = true := (hps _ mem_cons_self).2 c rfl
    exact .word hlen hx (.space hc (ih (fun p hp => hps p (mem_cons_of_mem _ hp)) hrest))
  | @lastWord digits _ _ hx =>
    have hlen : digits.length = 8 := (hps _ mem_cons_self).1
    simpa [tokensOf, Piece.token?] using Says.word hlen hx hrest

theorem Says.of_space {c : UInt8} (hc : isSpace c = true) (h : Says (c :: cs) ts) : Says cs ts := by
  generalize hx : c :: cs = x at h
  cases h with
  | nil => cases hx
  | space _ h => obtain ⟨rfl, rfl⟩ := List.cons.inj hx; exact h
  | main => obtain ⟨rfl, -⟩ := List.cons.inj hx; cases hc
  | entry => obtain ⟨rfl, -⟩ := List.cons.inj hx; cases hc
  | @word digits cs' ts hlen hd h =>
    cases digits with
    | nil => cases hlen
    | cons e digits =>
      obtain ⟨rfl, -⟩ := List.cons.inj hx
      rw [isSpace_head hd mem_cons_self] at hc
      cases hc

/-- What the text says begins with the token it begins with. -/
theorem Says.of_token (hne : ∀ c ∈ t.text.head?, isSpace c = false) (h0 : t.text ≠ []) (h : Says (t.text ++ cs) (t :: ts)) :
    Says cs ts := by
  generalize hx : t.text ++ cs = x at h
  generalize hts : t :: ts = ts' at h
  cases h with
  | nil => cases hts
  | space hc _ =>
    obtain ⟨c, l, hl⟩ := exists_cons_of_ne_nil h0
    rw [hl] at hx hne
    obtain ⟨rfl, -⟩ := List.cons.inj hx
    rw [hne c rfl] at hc
    cases hc
  | main _ h =>
    obtain ⟨rfl, rfl⟩ := List.cons.inj hts
    simp only [Token.text, cons_append, append_assoc, List.cons.injEq, append_cancel_left_eq, true_and,
      nil_append] at hx
    exact hx ▸ h
  | entry _ h =>
    obtain ⟨rfl, rfl⟩ := List.cons.inj hts
    simp only [Token.text, cons_append, append_assoc, List.cons.injEq, append_cancel_left_eq, true_and,
      nil_append] at hx
    exact hx ▸ h
  | word _ _ h =>
    obtain ⟨rfl, rfl⟩ := List.cons.inj hts
    exact append_cancel_left hx ▸ h

/-- **What the text says decides the pieces to be clean.** -/
theorem CutsTo.clean (h : CutsTo data ps rest) (hrest : rest = []) (hs : Says data (tokensOf ps)) : ∀ p ∈ ps, p.Clean := by
  induction h with
  | nil => simp
  | space hc _ ih => exact forall_mem_cons.mpr ⟨trivial, ih hrest (hs.of_space hc)⟩
  | @main name cs _ ps _ _ _ ih =>
    refine forall_mem_cons.mpr ⟨trivial, ih hrest (Says.of_token (t := .main name) ?_ (cons_ne_nil _ _) ?_)⟩
    · rintro c ⟨⟩; exact isSpace_openBrace
    · simpa [Token.text, tokensOf_cons, Piece.token?] using hs
  | @entry name cs _ ps _ _ _ ih =>
    refine forall_mem_cons.mpr ⟨trivial, ih hrest (Says.of_token (t := .entry name) ?_ (cons_ne_nil _ _) ?_)⟩
    · rintro c ⟨⟩; exact isSpace_openBracket
    · simpa [Token.text, tokensOf_cons, Piece.token?] using hs
  | @word digits cs _ c ps hlen hx hcs ih =>
    subst hrest
    have hne : digits ≠ [] := ne_nil_of_length_pos (by omega)
    have hs : Says (c :: cs) (tokensOf ps) :=
      Says.of_token (t := .word digits) (fun c hc => isSpace_head hx (mem_of_mem_head? hc)) hne hs
    cases hc : isSpace c with
    | true =>
      refine forall_mem_cons.mpr ⟨⟨hlen, fun c' hc' => ?_⟩, ih rfl (hs.of_space hc)⟩
      rw [Option.mem_some.mp hc'] at hc
      exact hc
    | false => exact absurd rfl (hs.tokensOf_ne (d := [c]) rfl ⟨c, mem_singleton_self c, hc⟩ hcs)
  | @lastWord digits hne _ hx =>
    have hlen : digits.length = 8 := by
      generalize hts : tokensOf [Piece.word digits none] = ts at hs
      cases hs with
      | nil => exact absurd rfl hne
      | space hc _ => rw [isSpace_head hx mem_cons_self] at hc; cases hc
      | main => cases hts
      | entry => cases hts
      | word hlen _ _ => obtain ⟨h, -⟩ := List.cons.inj hts; rw [Token.word.inj h]; exact hlen
    exact forall_mem_singleton.mpr ⟨hlen, fun _ h => nomatch h⟩

end TextCheatParser
end Core
end Citron
