/-
# The cheat VM runs structured programs

Skipping passes over a whole block and comes back to the depth it started at, because every block
inside begins and ends on the way. So the VM, at the start of a block of a structured program, ends
up after it at the same depth, with what the structured interpreter makes of the block.
-/
import Citron.Core.CheatVmStructured

namespace Citron
namespace Core

open List

variable {W : Type} {c : Context W} {program a b : List Dword} {pos depth desired : ℕ} {tops : RegIndex → ℕ}
  {m : Machine W} {isIf : Bool} {kind : Opcode → Prop}

/-! ### Words at a position -/

def PlacedAt (program : List Dword) (pos : ℕ) (words : List Dword) : Prop := words <+: program.drop pos

theorem PlacedAt.left (h : PlacedAt program pos (a ++ b)) : PlacedAt program pos a := (prefix_append a b).trans h

theorem PlacedAt.right (h : PlacedAt program pos (a ++ b)) : PlacedAt program (pos + a.length) b := by
  obtain ⟨post, hp⟩ := h
  refine ⟨post, ?_⟩
  calc b ++ post
      = (a ++ b ++ post).drop a.length := by rw [append_assoc, drop_left]
    _ = (program.drop pos).drop a.length := by rw [hp]
    _ = program.drop (pos + a.length) := drop_drop

namespace DmntCheatVm

variable (depth tops m) in
/-- An instruction at the pointer is decoded, and the pointer is moved behind it. -/
theorem decodeNextOpcode_instruction (i : Instruction kind) (h : PlacedAt program pos i.words) :
    (⟨program, pos, depth, true, tops, m⟩ : DmntCheatVm W).decodeNextOpcode =
      (⟨program, pos + i.words.length, depth, true, tops, m⟩, some ⟨i.opcode.isCondition, i.opcode⟩) := by
  obtain ⟨post, hp⟩ := h
  obtain ⟨used, hused, hmore⟩ := local_decode _ _ _ i.decodes
  rw [append_nil] at hused
  have hd : decode (program.drop pos) = some (⟨i.flag, i.opcode⟩, post) := by
    rw [← hp, hused]
    exact hmore post
  have hflag : i.flag = i.opcode.isCondition := decode_flag i.decodes
  have hlen : 0 < i.words.length := decode_length i.decodes
  have htotal := congrArg List.length hp
  rw [length_append, length_drop] at htotal
  have hptr : program.length - post.length = pos + i.words.length := by omega
  simp only [decodeNextOpcode, if_true, hd, hptr, hflag]

/-! ### Skipping -/

theorem skipTo_instruction (i : Instruction kind) (h : PlacedAt program pos i.words) (hd : desired < depth) :
    skipTo isIf desired ⟨program, pos, depth, true, tops, m⟩ =
      if i.opcode.isCondition then
        skipTo isIf desired ⟨program, pos + i.words.length, depth + 1, true, tops, m⟩
      else match i.opcode with
        | .endConditional false => skipTo isIf desired ⟨program, pos + i.words.length, depth - 1, true, tops, m⟩
        | .endConditional true =>
          if isIf ∧ depth - 1 = desired then ⟨program, pos + i.words.length, depth, true, tops, m⟩
          else skipTo isIf desired ⟨program, pos + i.words.length, depth, true, tops, m⟩
        | _ => skipTo isIf desired ⟨program, pos + i.words.length, depth, true, tops, m⟩ := by
  rw [skipTo, if_pos hd]
  have hi := decodeNextOpcode_instruction depth tops m i h
  split
  · next hn =>
    rw [hi] at hn
    cases hn
  · next hn =>
    rw [hi] at hn
    cases hn
    rfl

theorem skipTo_of_le (h : depth ≤ desired) : skipTo isIf desired (⟨program, pos, depth, true, tops, m⟩ : DmntCheatVm W) =
    ⟨program, pos, depth, true, tops, m⟩ := by
  rw [skipTo, if_neg (Nat.not_lt.mpr h)]

theorem skipTo_pass (i : Instruction kind) (hc : i.opcode.isCondition = false)
    (he : ∀ isElse, i.opcode ≠ .endConditional isElse) (h : PlacedAt program pos i.words) (hd : desired < depth) :
    skipTo isIf desired (⟨program, pos, depth, true, tops, m⟩ : DmntCheatVm W) =
      skipTo isIf desired ⟨program, pos + i.words.length, depth, true, tops, m⟩ := by
  rw [skipTo_instruction i h hd, hc, if_neg Bool.false_ne_true]
  split
  · next ho => exact absurd ho (he _)
  · next ho => exact absurd ho (he _)
  · rfl

theorem skipTo_condition (i : Instruction fun o => o.isCondition) (h : PlacedAt program pos i.words)
    (hd : desired < depth) : skipTo isIf desired (⟨program, pos, depth, true, tops, m⟩ : DmntCheatVm W) =
      skipTo isIf desired ⟨program, pos + i.words.length, depth + 1, true, tops, m⟩ := by
  rw [skipTo_instruction i h hd, if_pos i.isKind]

theorem skipTo_endIf (i : Instruction fun o => o = .endConditional false) (h : PlacedAt program pos i.words)
    (hd : desired < depth) : skipTo isIf desired (⟨program, pos, depth, true, tops, m⟩ : DmntCheatVm W) =
      skipTo isIf desired ⟨program, pos + i.words.length, depth - 1, true, tops, m⟩ := by
  rw [skipTo_instruction i h hd, i.isKind]
  rfl

/-- The else of a block inside the one that is skipped. -/
theorem skipTo_elseIf_inside (i : Instruction fun o => o = .endConditional true) (h : PlacedAt program pos i.words)
    (hd : desired + 1 < depth) : skipTo isIf desired (⟨program, pos, depth, true, tops, m⟩ : DmntCheatVm W) =
      skipTo isIf desired ⟨program, pos + i.words.length, depth, true, tops, m⟩ := by
  have hne : ¬(isIf = true ∧ depth - 1 = desired) := by
    rintro ⟨-, he⟩
    omega
  rw [skipTo_instruction i h (Nat.lt_of_succ_lt hd), i.isKind]
  exact if_neg hne

/-- The else of the block that is skipped. -/
theorem skipTo_elseIf (i : Instruction fun o => o = .endConditional true) (h : PlacedAt program pos i.words) :
    skipTo true depth (⟨program, pos, depth + 1, true, tops, m⟩ : DmntCheatVm W) =
      ⟨program, pos + i.words.length, depth + 1, true, tops, m⟩ := by
  rw [skipTo_instruction i h (Nat.lt_succ_self depth), i.isKind]
  exact if_pos (show true = true ∧ depth + 1 - 1 = depth from ⟨rfl, rfl⟩)

/-- Skipping passes over a block. -/
theorem skipTo_block (block : Block) : ∀ {pos depth}, PlacedAt program pos block.words → desired < depth →
    skipTo isIf desired (⟨program, pos, depth, true, tops, m⟩ : DmntCheatVm W) =
      skipTo isIf desired ⟨program, pos + block.words.length, depth, true, tops, m⟩ := by
  induction block with
  | done => exact fun _ _ => rfl
  | plain i rest ih =>
    intro pos depth h hd
    have hc : i.opcode.isCondition = false := isCondition_of_isPlain i.isKind
    rw [skipTo_pass i hc (ne_endConditional_of_isPlain i.isKind) h.left hd, ih h.right hd, Block.words,
      length_append, Nat.add_assoc]
  | ifThen cond body endIf rest hbody hrest =>
    intro pos depth h hd
    have hinside : desired < depth + 1 := Nat.lt_succ_of_lt hd
    rw [skipTo_condition cond h.left.left.left hd, hbody (by simpa using h.left.left.right) hinside,
      skipTo_endIf endIf (by simpa [Nat.add_assoc] using h.left.right) hinside, Nat.add_sub_cancel,
      hrest (by simpa [Nat.add_assoc] using h.right) hd]
    simp [Block.words, Nat.add_assoc]
  | ifElse cond body elseIf other endIf rest hbody hother hrest =>
    intro pos depth h hd
    have hinside : desired < depth + 1 := Nat.lt_succ_of_lt hd
    rw [skipTo_condition cond h.left.left.left.left.left hd, hbody (by simpa using h.left.left.left.left.right) hinside,
      skipTo_elseIf_inside elseIf (by simpa [Nat.add_assoc] using h.left.left.left.right) (Nat.succ_lt_succ hd),
      hother (by simpa [Nat.add_assoc] using h.left.left.right) hinside,
      skipTo_endIf endIf (by simpa [Nat.add_assoc] using h.left.right) hinside, Nat.add_sub_cancel,
      hrest (by simpa [Nat.add_assoc] using h.right) hd]
    simp [Block.words, Nat.add_assoc]
  | loop regIndex numIters start body finish rest hbody hrest =>
    intro pos depth h hd
    have hstart : start.opcode = .controlLoop true regIndex numIters := start.isKind
    have hfinish : finish.opcode = .controlLoop false regIndex 0 := finish.isKind
    rw [skipTo_pass start (by rw [hstart]; rfl) (by simp [hstart]) h.left.left.left hd,
      hbody (by simpa using h.left.left.right) hd,
      skipTo_pass finish (by rw [hfinish]; rfl) (by simp [hfinish]) (by simpa [Nat.add_assoc] using h.left.right) hd,
      hrest (by simpa [Nat.add_assoc] using h.right) hd]
    simp [Block.words, Nat.add_assoc]

/-- A condition that is not met, in front of a block without an else, or an else that is reached. -/
theorem skip_toEnd (isIf : Bool) (block : Block) (endIf : Instruction fun o => o = .endConditional false)
    (h : PlacedAt program pos (block.words ++ endIf.words)) :
    skipConditionalBlock isIf (⟨program, pos, depth + 1, true, tops, m⟩ : DmntCheatVm W) =
      ⟨program, pos + block.words.length + endIf.words.length, depth, true, tops, m⟩ := by
  rw [skipConditionalBlock, if_pos (Nat.succ_pos depth)]
  change skipTo isIf depth _ = _
  rw [skipTo_block block h.left (Nat.lt_succ_self depth), skipTo_endIf endIf h.right (Nat.lt_succ_self depth)]
  exact skipTo_of_le (Nat.le_refl depth)

/-- A condition that is not met, in front of a block with an else. -/
theorem skip_toElse (body : Block) (elseIf : Instruction fun o => o = .endConditional true)
    (h : PlacedAt program pos (body.words ++ elseIf.words)) :
    skipConditionalBlock true (⟨program, pos, depth + 1, true, tops, m⟩ : DmntCheatVm W) =
      ⟨program, pos + body.words.length + elseIf.words.length, depth + 1, true, tops, m⟩ := by
  rw [skipConditionalBlock, if_pos (Nat.succ_pos depth)]
  change skipTo true depth _ = _
  rw [skipTo_block body h.left (Nat.lt_succ_self depth), skipTo_elseIf elseIf h.right]

/-! ### Steps of the loop -/

/-- The loop of `Execute` comes from one state to another. -/
def Steps (c : Context W) (s s' : DmntCheatVm W) : Prop :=
  ∃ n, ∀ fuel, executeLoop c (n + fuel) s = executeLoop c fuel s'

theorem Steps.refl (s : DmntCheatVm W) : Steps c s s := ⟨0, fun fuel => by rw [Nat.zero_add]⟩

theorem Steps.trans {s₁ s₂ s₃ : DmntCheatVm W} (h₁ : Steps c s₁ s₂) (h₂ : Steps c s₂ s₃) : Steps c s₁ s₃ := by
  obtain ⟨n₁, h₁⟩ := h₁
  obtain ⟨n₂, h₂⟩ := h₂
  exact ⟨n₁ + n₂, fun fuel => by rw [Nat.add_assoc, h₁, h₂]⟩

variable (c depth tops m) in
theorem steps_instruction (i : Instruction kind) (h : PlacedAt program pos i.words) :
    Steps c ⟨program, pos, depth, true, tops, m⟩
      (executeOpcode c pos ⟨i.opcode.isCondition, i.opcode⟩
        ⟨program, pos + i.words.length, depth, true, tops, m⟩) := by
  refine ⟨1, fun fuel => ?_⟩
  rw [Nat.add_comm 1 fuel, executeLoop, decodeNextOpcode_instruction depth tops m i h]

theorem steps_plain (i : Instruction fun o => o.isPlain) (h : PlacedAt program pos i.words) :
    Steps c ⟨program, pos, depth, true, tops, m⟩
      ⟨program, pos + i.words.length, depth, true, tops, perform c (m.visit pos depth) i.opcode⟩ := by
  have hs := steps_instruction c depth tops m i h
  obtain ⟨words, opcode, flag, decodes, isKind⟩ := i
  cases opcode <;> first | exact hs | cases isKind

variable (c depth tops m) in
theorem steps_condition (i : Instruction fun o => o.isCondition) (h : PlacedAt program pos i.words) :
    Steps c ⟨program, pos, depth, true, tops, m⟩
      (if conditionMet c (m.visit pos depth) i.opcode then
        ⟨program, pos + i.words.length, depth + 1, true, tops, m.visit pos depth⟩
      else skipConditionalBlock true ⟨program, pos + i.words.length, depth + 1, true, tops, m.visit pos depth⟩) := by
  have hs := steps_instruction c depth tops m i h
  obtain ⟨words, opcode, flag, decodes, isKind⟩ := i
  cases opcode <;> first | exact hs | cases isKind

theorem steps_elseIf (i : Instruction fun o => o = .endConditional true) (h : PlacedAt program pos i.words) :
    Steps c ⟨program, pos, depth, true, tops, m⟩
      (skipConditionalBlock false ⟨program, pos + i.words.length, depth, true, tops, m.visit pos depth⟩) := by
  have hs := steps_instruction c depth tops m i h
  rwa [i.isKind] at hs

theorem steps_endIf (i : Instruction fun o => o = .endConditional false) (h : PlacedAt program pos i.words) :
    Steps c ⟨program, pos, depth + 1, true, tops, m⟩
      ⟨program, pos + i.words.length, depth, true, tops, m.visit pos (depth + 1)⟩ := by
  have hs := steps_instruction c (depth + 1) tops m i h
  rwa [i.isKind] at hs

variable (c depth tops m) in
theorem steps_start {regIndex : RegIndex} {numIters : Dword}
    (i : Instruction fun o => o = .controlLoop true regIndex numIters) (h : PlacedAt program pos i.words) :
    Steps c ⟨program, pos, depth, true, tops, m⟩
      ⟨program, pos + i.words.length, depth, true, Function.update tops regIndex (pos + i.words.length),
        (m.visit pos depth).setRegister regIndex (numIters.setWidth 64)⟩ := by
  have hs := steps_instruction c depth tops m i h
  rwa [i.isKind] at hs

variable (c depth tops m) in
theorem steps_finish {regIndex : RegIndex} (i : Instruction fun o => o = .controlLoop false regIndex 0)
    (h : PlacedAt program pos i.words) :
    Steps c ⟨program, pos, depth, true, tops, m⟩
      ⟨program, if m.registers regIndex - 1 = 0#64 then pos + i.words.length else tops regIndex, depth, true, tops,
        (m.visit pos depth).setRegister regIndex (m.registers regIndex - 1)⟩ := by
  have hs := steps_instruction c depth tops m i h
  rw [i.isKind] at hs
  simp only [executeOpcode, Opcode.isCondition, Bool.false_eq_true, if_false, Machine.registers_visit,
    Machine.registers_setRegister] at hs
  split at hs
  · next hz => rwa [if_pos hz]
  · next hz => rwa [if_neg hz]

/-! ### Parts of programs -/

/-- From the start of the words to their end, at the same depth and leaving the loop tops of other registers. -/
def Runs (c : Context W) (words : List Dword) (writes : RegIndex → Bool)
    (effect : (pos depth : ℕ) → Machine W → Machine W) : Prop :=
  ∀ (program : List Dword) (pos depth : ℕ) (tops : RegIndex → ℕ) (m : Machine W), PlacedAt program pos words →
    ∃ tops', (∀ r, writes r = false → tops' r = tops r) ∧
      Steps c ⟨program, pos, depth, true, tops, m⟩
        ⟨program, pos + words.length, depth, true, tops', effect pos depth m⟩

variable {w w' : RegIndex → Bool} {effect effect' : (pos depth : ℕ) → Machine W → Machine W}

theorem Runs.congr (h : Runs c a w effect) (hwords : b = a) (hw : ∀ r, w' r = w r)
    (heffect : ∀ pos depth m, effect' pos depth m = effect pos depth m) : Runs c b w' effect' := by
  intro program pos depth tops m hb
  rw [hwords] at hb ⊢
  obtain ⟨tops', ht, hs⟩ := h program pos depth tops m hb
  rw [← heffect] at hs
  exact ⟨tops', fun r hr => ht r (by rw [← hw]; exact hr), hs⟩

theorem Runs.append (ha : Runs c a w effect) (hb : Runs c b w' effect') :
    Runs c (a ++ b) (fun r => w r || w' r) fun pos depth m =>
      effect' (pos + a.length) depth (effect pos depth m) := by
  intro program pos depth tops m h
  obtain ⟨tops₁, ht₁, hs₁⟩ := ha program pos depth tops m h.left
  obtain ⟨tops₂, ht₂, hs₂⟩ := hb program (pos + a.length) depth tops₁ (effect pos depth m) h.right
  refine ⟨tops₂, fun r hr => ?_, ?_⟩
  · obtain ⟨hr₁, hr₂⟩ := Bool.or_eq_false_iff.mp hr
    exact (ht₂ r hr₂).trans (ht₁ r hr₁)
  · rw [length_append, ← Nat.add_assoc]
    exact hs₁.trans hs₂

theorem runs_plain (i : Instruction fun o => o.isPlain) :
    Runs c i.words (fun r => i.opcode.writes r) fun pos depth m => perform c (m.visit pos depth) i.opcode :=
  fun _ _ _ tops _ h => ⟨tops, fun _ _ => rfl, steps_plain i h⟩

theorem runs_ifThen (cond : Instruction fun o => o.isCondition) (body : Block)
    (endIf : Instruction fun o => o = .endConditional false) (hbody : Runs c body.words w effect) :
    Runs c (cond.words ++ (body.words ++ endIf.words)) w fun pos depth m =>
      let bodyPos := pos + cond.words.length
      let m := m.visit pos depth
      if conditionMet c m cond.opcode then
        (effect bodyPos (depth + 1) m).visit (bodyPos + body.words.length) (depth + 1)
      else m := by
  intro program pos depth tops m h
  have hcond := steps_condition c depth tops m cond h.left
  rw [length_append, length_append, ← Nat.add_assoc, ← Nat.add_assoc]
  dsimp only
  split at hcond
  · next hmet =>
    obtain ⟨tops', ht, hs⟩ := hbody program _ (depth + 1) tops (m.visit pos depth) h.right.left
    refine ⟨tops', ht, ?_⟩
    rw [if_pos hmet]
    exact (hcond.trans hs).trans (steps_endIf endIf h.right.right)
  · next hmet =>
    refine ⟨tops, fun _ _ => rfl, ?_⟩
    rw [if_neg hmet]
    rwa [skip_toEnd true body endIf h.right] at hcond

theorem runs_ifElse (cond : Instruction fun o => o.isCondition) (body : Block)
    (elseIf : Instruction fun o => o = .endConditional true) (other : Block)
    (endIf : Instruction fun o => o = .endConditional false) (hbody : Runs c body.words w effect)
    (hother : Runs c other.words w' effect') :
    Runs c (cond.words ++ ((body.words ++ elseIf.words) ++ (other.words ++ endIf.words))) (fun r => w r || w' r)
      fun pos depth m =>
        let bodyPos := pos + cond.words.length
        let elsePos := bodyPos + body.words.length
        let otherPos := elsePos + elseIf.words.length
        let m := m.visit pos depth
        if conditionMet c m cond.opcode then (effect bodyPos (depth + 1) m).visit elsePos (depth + 1)
        else (effect' otherPos (depth + 1) m).visit (otherPos + other.words.length) (depth + 1) := by
  intro program pos depth tops m h
  have hcond := steps_condition c depth tops m cond h.left
  have hlast := h.right.right
  rw [length_append, ← Nat.add_assoc] at hlast
  simp only [length_append, ← Nat.add_assoc]
  split at hcond
  · next hmet =>
    obtain ⟨tops', ht, hs⟩ := hbody program _ (depth + 1) tops (m.visit pos depth) h.right.left.left
    refine ⟨tops', fun r hr => ht r (Bool.or_eq_false_iff.mp hr).1, ?_⟩
    have helse := (hcond.trans hs).trans (steps_elseIf elseIf h.right.left.right)
    rw [if_pos hmet]
    rwa [skip_toEnd false other endIf hlast] at helse
  · next hmet =>
    rw [skip_toElse body elseIf h.right.left] at hcond
    obtain ⟨tops', ht, hs⟩ := hother program _ (depth + 1) tops (m.visit pos depth) hlast.left
    refine ⟨tops', fun r hr => ht r (Bool.or_eq_false_iff.mp hr).2, ?_⟩
    rw [if_neg hmet]
    exact (hcond.trans hs).trans (steps_endIf endIf hlast.right)

theorem pred_ofNat (k : ℕ) : BitVec.ofNat 64 (k + 1) - 1 = BitVec.ofNat 64 k := by
  rw [BitVec.ofNat_add]
  exact BitVec.add_sub_cancel _ _

theorem ofNat_succ_ne_zero {k : ℕ} (h : k + 1 < 2 ^ 64) : BitVec.ofNat 64 (k + 1) ≠ 0#64 := by
  intro he
  have hmod := congrArg BitVec.toNat he
  rw [BitVec.toNat_ofNat, Nat.mod_eq_of_lt h] at hmod
  cases hmod

variable (depth tops) in
/-- One pass through the body, when the counter says that it and `k` more are left. -/
theorem steps_pass {regIndex : RegIndex} (finish : Instruction fun o => o = .controlLoop false regIndex 0)
    (hbody : Runs c b w effect) (hkeep : ∀ pos depth m, (effect pos depth m).registers regIndex = m.registers regIndex)
    (h : PlacedAt program pos (b ++ finish.words)) {k : ℕ} (hm : m.registers regIndex = BitVec.ofNat 64 (k + 1)) :
    ∃ tops', (∀ r, w r = false → tops' r = tops r) ∧
      Steps c ⟨program, pos, depth, true, tops, m⟩
        ⟨program, if BitVec.ofNat 64 k = 0#64 then pos + b.length + finish.words.length else tops' regIndex, depth,
          true, tops', ((effect pos depth m).visit (pos + b.length) depth).setRegister regIndex (BitVec.ofNat 64 k)⟩ := by
  obtain ⟨tops', ht, hs⟩ := hbody program pos depth tops m h.left
  have hfinish := steps_finish c depth tops' (effect pos depth m) finish h.right
  rw [hkeep, hm, pred_ofNat] at hfinish
  exact ⟨tops', ht, hs.trans hfinish⟩

variable (depth) in
/-- All the passes that are left, from the start of the body. -/
theorem steps_passes {regIndex : RegIndex} (finish : Instruction fun o => o = .controlLoop false regIndex 0)
    (hbody : Runs c b w effect) (hw : w regIndex = false)
    (hkeep : ∀ pos depth m, (effect pos depth m).registers regIndex = m.registers regIndex)
    (h : PlacedAt program pos (b ++ finish.words)) (k : ℕ) (hk : k + 1 < 2 ^ 64) :
    ∀ (tops : RegIndex → ℕ) (m : Machine W), tops regIndex = pos →
      ∃ tops', (∀ r, w r = false → tops' r = tops r) ∧
        Steps c ⟨program, pos, depth, true, tops, m.setRegister regIndex (BitVec.ofNat 64 (k + 1))⟩
          ⟨program, pos + b.length + finish.words.length, depth, true, tops',
            Block.repeatCounted regIndex (fun m => (effect pos depth m).visit (pos + b.length) depth) (k + 1) m⟩ := by
  induction k with
  | zero =>
    intro tops m _
    obtain ⟨tops', ht, hs⟩ := steps_pass depth tops finish hbody hkeep h
      (m.registers_setRegister regIndex (BitVec.ofNat 64 1))
    exact ⟨tops', ht, hs⟩
  | succ k ih =>
    intro tops m htop
    obtain ⟨tops₁, ht₁, hs₁⟩ := steps_pass depth tops finish hbody hkeep h
      (m.registers_setRegister regIndex (BitVec.ofNat 64 (k + 1 + 1)))
    have htop₁ : tops₁ regIndex = pos := (ht₁ regIndex hw).trans htop
    rw [if_neg (ofNat_succ_ne_zero (Nat.lt_of_succ_lt hk)), htop₁] at hs₁
    obtain ⟨tops₂, ht₂, hs₂⟩ := ih (Nat.lt_of_succ_lt hk) tops₁ _ htop₁
    exact ⟨tops₂, fun r hr => (ht₂ r hr).trans (ht₁ r hr), hs₁.trans hs₂⟩

theorem runs_loop {regIndex : RegIndex} {numIters : Dword}
    (start : Instruction fun o => o = .controlLoop true regIndex numIters)
    (finish : Instruction fun o => o = .controlLoop false regIndex 0) (hn : numIters ≠ 0)
    (hbody : Runs c b w effect) (hw : w regIndex = false)
    (hkeep : ∀ pos depth m, (effect pos depth m).registers regIndex = m.registers regIndex) :
    Runs c (start.words ++ (b ++ finish.words)) (fun r => regIndex = r || w r) fun pos depth m =>
      let bodyPos := pos + start.words.length
      Block.repeatCounted regIndex (fun m => (effect bodyPos depth m).visit (bodyPos + b.length) depth)
        numIters.toNat (m.visit pos depth) := by
  intro program pos depth tops m h
  have hstart := steps_start c depth tops m start h.left
  obtain ⟨k, hk⟩ : ∃ k, numIters.toNat = k + 1 :=
    Nat.exists_eq_succ_of_ne_zero fun h0 => hn (BitVec.eq_of_toNat_eq h0)
  have hlt : k + 1 < 2 ^ 64 := by
    omega
  have hcount : numIters.setWidth 64 = BitVec.ofNat 64 (k + 1) := by
    apply BitVec.eq_of_toNat_eq
    rw [BitVec.toNat_setWidth, BitVec.toNat_ofNat, hk]
  rw [hcount] at hstart
  obtain ⟨tops', ht, hs⟩ := steps_passes depth finish hbody hw hkeep h.right k hlt
    (Function.update tops regIndex (pos + start.words.length)) (m.visit pos depth) (Function.update_self ..)
  refine ⟨tops', fun r hr => ?_, ?_⟩
  · obtain ⟨hne, hr⟩ := Bool.or_eq_false_iff.mp hr
    have hne : r ≠ regIndex := fun he => of_decide_eq_false hne he.symm
    rw [ht r hr, Function.update_of_ne hne]
  · simp only [hk, length_append, ← Nat.add_assoc]
    exact hstart.trans hs

/-! ### Whole programs -/

/-- **A structured program runs as it is interpreted.** -/
theorem runs_block (block : Block) (hcount : block.Counted) :
    Runs c block.words (fun r => block.writes r) (block.interpret c) := by
  induction block with
  | done => exact fun program pos depth tops m _ => ⟨tops, fun _ _ => rfl, Steps.refl _⟩
  | plain i rest ih =>
    exact ((runs_plain i).append (ih hcount)).congr rfl (fun _ => rfl) fun _ _ _ => rfl
  | ifThen cond body endIf rest hbody hrest =>
    refine ((runs_ifThen cond body endIf (hbody hcount.1)).append (hrest hcount.2)).congr ?_ (fun _ => rfl)
      fun pos depth m => ?_
    · simp only [Block.words, append_assoc]
    · simp only [Block.interpret, length_append, Nat.add_assoc]
  | ifElse cond body elseIf other endIf rest hbody hother hrest =>
    refine ((runs_ifElse cond body elseIf other endIf (hbody hcount.1) (hother hcount.2.1)).append
      (hrest hcount.2.2)).congr ?_ (fun _ => rfl) fun pos depth m => ?_
    · simp only [Block.words, append_assoc]
    · simp only [Block.interpret, length_append, Nat.add_assoc]
  | loop regIndex numIters start body finish rest hbody hrest =>
    obtain ⟨hn, hw, hb, hr⟩ := hcount
    refine ((runs_loop start finish hn (hbody hb) hw fun pos depth m => Block.registers_interpret body hw pos depth m).append
      (hrest hr)).congr ?_ (fun _ => rfl) fun pos depth m => ?_
    · simp only [Block.words, append_assoc]
    · simp only [Block.interpret, length_append, Nat.add_assoc]

/-- Behind the last instruction nothing is decoded. -/
theorem executeLoop_end (fuel : ℕ) : executeLoop c (fuel + 1) ⟨program, program.length, depth, true, tops, m⟩ =
    some ⟨program, program.length, depth, false, tops, m⟩ := by
  have hd : decode (program.drop program.length) = none := by
    rw [drop_length]
    rfl
  simp only [executeLoop, decodeNextOpcode, if_true, hd]

/-- **`Execute` and the structured interpreter agree**: on the registers, the writes and all else an instruction
can change, and the condition depth at every instruction executed is the number of blocks around it. -/
theorem execute_structured (callbacks : Callbacks W) (metadata : CheatProcessMetadata) (block : Block)
    (hcount : block.Counted) (s : DmntCheatVm W) (hprogram : s.program = block.words) :
    ∃ n s', (∀ fuel, n ≤ fuel → execute callbacks metadata fuel s = some s') ∧
      s'.machine = block.interpret ⟨callbacks, metadata, callbacks.hidKeysDown s.machine.world⟩ 0 0
        s.resetState.machine ∧
      s'.conditionDepth = 0 ∧ ∀ v ∈ s'.machine.visited, v ∈ block.nesting 0 0 := by
  have hplaced : PlacedAt s.program 0 block.words := by
    rw [hprogram]
    exact prefix_rfl
  obtain ⟨tops, -, n, hn⟩ := runs_block (c := ⟨callbacks, metadata, callbacks.hidKeysDown s.machine.world⟩) block hcount
    s.program 0 0 (fun _ => 0) s.resetState.machine hplaced
  rw [Nat.zero_add, ← hprogram] at hn
  let m' := block.interpret ⟨callbacks, metadata, callbacks.hidKeysDown s.machine.world⟩ 0 0 s.resetState.machine
  refine ⟨n + 1, ⟨s.program, s.program.length, 0, false, tops, m'⟩, fun fuel hfuel => ?_, rfl, rfl, fun v hv => ?_⟩
  · obtain ⟨k, rfl⟩ := Nat.exists_eq_add_of_le hfuel
    rw [Nat.add_assoc, Nat.add_comm 1 k]
    exact (hn (k + 1)).trans (executeLoop_end k)
  · exact (Block.visited_interpret block 0 0 s.resetState.machine hv).resolve_left not_mem_nil

/-- While a key is held a register is increased twice; else another one gets a value that looks like an end. -/
def keyLoop : Block :=
  .ifElse ⟨[0x80000001#32], .beginKeypressConditional 1, true, rfl, rfl⟩
    (.loop 1 2 ⟨[0x30100000#32, 2], .controlLoop true 1 2, false, rfl, rfl⟩
      (.plain ⟨[0x78020000#32, 5], .performArithmeticStatic 8 2 .addition 5, false, rfl, rfl⟩ .done)
      ⟨[0x31100000#32], .controlLoop false 1 0, false, rfl, rfl⟩ .done)
    ⟨[0x21000000#32], .endConditional true, false, rfl, rfl⟩
    (.plain ⟨[0x40030000#32, 0x20000000, 0x20000000], .loadRegisterStatic 3 0x2000000020000000, false, rfl, rfl⟩ .done)
    ⟨[0x20000000#32], .endConditional false, false, rfl, rfl⟩ .done

def keyHeld : Callbacks Unit := ⟨fun _ _ _ => 0, fun w _ => w, fun _ => 1, id, id, fun w _ _ => w⟩

/-- A machine with a program loaded. -/
def loaded (program : List Dword) : DmntCheatVm Unit :=
  ⟨program, 0, 0, true, fun _ => 0, ⟨fun _ => 0, fun _ => 0, fun _ => 0, (), [], []⟩⟩

theorem execute_structured_keyLoop : ∃ n s',
    (∀ fuel, n ≤ fuel → execute keyHeld ⟨0, 0, 0, 0⟩ fuel (loaded keyLoop.words) = some s') ∧
      s'.machine.registers 2 = 10 ∧ s'.machine.visited = [(0, 0), (1, 1), (3, 1), (5, 1), (3, 1), (5, 1), (6, 1)] := by
  have hcount : keyLoop.Counted := ⟨⟨by decide, rfl, trivial, trivial⟩, trivial, trivial⟩
  obtain ⟨n, s', hrun, hm, -, -⟩ := execute_structured keyHeld ⟨0, 0, 0, 0⟩ keyLoop hcount (loaded keyLoop.words) rfl
  refine ⟨n, s', hrun, ?_, ?_⟩ <;> rw [hm] <;> rfl

end DmntCheatVm

end Core
end Citron
