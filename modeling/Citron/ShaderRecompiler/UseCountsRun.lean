/-
# Use counts over a whole translation

A program is built and rewritten in any order. Replacing an opcode in place is a step only where
neither the references nor a link depend on the opcode; every other mutator keeps the accounts by
itself.
-/
import Citron.ShaderRecompiler.UseCountsPasses

namespace Citron
namespace Shader
namespace IR
namespace InstStorage

open Lib Optimization List

variable {s s' : InstStorage} {i block : ℕ}

/-! ### New instructions -/

theorem insertBefore_perm (index : ℕ) (before : Option ℕ) (list : List ℕ) :
    (insertBefore index before list).Perm (index :: list) := by
  induction list with
  | nil => exact .refl _
  | cons i list ih =>
    rw [insertBefore]
    split
    · exact .refl _
    · exact (ih.cons i).trans (.swap index i list)

theorem blocks_link (s : InstStorage) (block index : ℕ) (before : Option ℕ) (b : ℕ) :
    (s.link block index before).blocks b = if b = block then insertBefore index before (s.blocks b) else s.blocks b := by
  change Function.update s.blocks block _ b = _
  split
  next hb => rw [hb, Function.update_self]
  next hb => rw [Function.update_of_ne hb]

theorem mem_blocks_link {index : ℕ} {before : Option ℕ} {b k : ℕ} :
    k ∈ (s.link block index before).blocks b ↔ k ∈ s.blocks b ∨ b = block ∧ k = index := by
  rw [blocks_link]
  split
  next hb =>
    rw [(insertBefore_perm index before (s.blocks b)).mem_iff, mem_cons, or_comm]
    simp [hb]
  next hb => simp [hb]

/-- The new instruction of a block is live, and the others stay where they are. -/
theorem Placed.emplace_link (h : s.Placed []) (opcode : Opcode) (before : Option ℕ) :
    ((s.emplace opcode).link block s.size before).Placed [] := by
  have hold : ∀ k, k < s.size → (s.emplace opcode).insts k = s.insts k := fun k hk => if_neg (Nat.ne_of_lt hk)
  have hnew : ∀ b, s.size ∉ s.blocks b := fun b hmem => Nat.lt_irrefl _ (h.bound b _ hmem)
  refine ⟨fun b k hk => ?_, fun b => ?_, fun b c k hb hc => ?_, fun k hk hlive _ => ?_⟩
  · change k < s.size + 1
    rcases mem_blocks_link.mp hk with hk | hk
    · exact Nat.lt_succ_of_lt (h.bound b k hk)
    · rw [hk.2]
      exact Nat.lt_succ_self _
  · rw [blocks_link]
    split
    · rw [(insertBefore_perm s.size before _).nodup_iff, nodup_cons]
      exact ⟨hnew b, h.nodup b⟩
    · exact h.nodup b
  · rcases mem_blocks_link.mp hb with hb | ⟨hb, hbk⟩ <;> rcases mem_blocks_link.mp hc with hc | ⟨hc, hck⟩
    · exact h.disjoint b c k hb hc
    · exact absurd (hck ▸ hb) (hnew b)
    · exact absurd (hbk ▸ hc) (hnew c)
    · exact hb.trans hc.symm
  · have hne : k ≠ s.size := fun heq => hlive ⟨block, mem_blocks_link.mpr (.inr ⟨rfl, heq⟩)⟩
    have hlt : k < s.size := Nat.lt_of_le_of_ne (Nat.le_of_lt_succ hk) hne
    have hdead : ¬ s.Live k := fun ⟨b, hb⟩ => hlive ⟨b, mem_blocks_link.mpr (.inl hb)⟩
    change ((s.emplace opcode).insts k).op = .Void ∧ ((s.emplace opcode).insts k).targets = 0
    rw [hold k hlt]
    exact h.blank k hlt hdead not_mem_nil

/-- The accounts hold and what is in no block is invalidated. -/
def Sound (s : InstStorage) : Prop := s.Counted ∧ s.Placed []

theorem Sound.setArg (h : s.Sound) (hi : s.Live i) {index : ℕ} {value : Value} (hv : value.Below s.size)
    (hset : s.setArg i index value = .ok s') : s'.Sound ∧ s'.size = s.size ∧ s'.blocks = s.blocks := by
  obtain ⟨hcounted, hcodes⟩ := h.1.setArg (h.2.lt_size hi) hv hset
  exact ⟨⟨hcounted, h.2.of_modify hcodes (.inl hi)⟩, hcodes.size, hcodes.blocks⟩

theorem Sound.setArgs (h : s.Sound) (hi : s.Live i) {index : ℕ} {values : List Value}
    (hv : ∀ value ∈ values, value.Below s.size) (hset : s.setArgs i index values = .ok s') : s'.Sound := by
  induction values generalizing s index with
  | nil =>
    cases hset
    exact h
  | cons value values ih =>
    rw [InstStorage.setArgs] at hset
    cases hfirst : s.setArg i index value with
    | error e =>
      rw [hfirst] at hset
      cases hset
    | ok t =>
      rw [hfirst] at hset
      obtain ⟨ht, hsize, hblocks⟩ := h.setArg hi (hv value mem_cons_self) hfirst
      apply ih ht ((live_of_blocks hblocks).mpr hi) _ hset
      intro v hmem
      rw [hsize]
      exact hv v (mem_cons_of_mem value hmem)

theorem Sound.prependNewInst (h : s.Sound) {before : Option ℕ} {opcode : Opcode} {args : List Value}
    (hv : ∀ value ∈ args, value.Below s.size) (hnew : s.prependNewInst block before opcode args = .ok s') :
    s'.Sound := by
  rw [InstStorage.prependNewInst] at hnew
  split at hnew
  · cases hnew
  · have hlinked : ((s.emplace opcode).link block s.size before).Sound :=
      ⟨h.1.emplace.link block s.size before, h.2.emplace_link opcode before⟩
    apply hlinked.setArgs ⟨block, mem_blocks_link.mpr (.inr ⟨rfl, rfl⟩)⟩ _ hnew
    intro value hmem
    exact (hv value hmem).mono (Nat.le_succ _)

/-! ### Steps -/

/-- The storage of a program nothing has been built of. -/
def empty : InstStorage := { insts := fun _ => { op := .Void }, size := 0, blocks := fun _ => [] }

/-- Building an instruction, a mutator on an instruction that is in a block, or a pass over the
program. Identity removal walks every block, and returns when the chains of identities end. -/
inductive Step : InstStorage → InstStorage → Prop
  | build {s s' : InstStorage} (block : ℕ) (before opcode args) (hargs : ∀ value ∈ args, Value.Below s.size value)
      (hnew : s.prependNewInst block before opcode args = .ok s') : Step s s'
  | setArg {s s' : InstStorage} {i : ℕ} (index value) (hi : s.Live i) (hvalue : Value.Below s.size value)
      (hset : s.setArg i index value = .ok s') : Step s s'
  | addPhiOperand {s s' : InstStorage} {i : ℕ} (predecessor value) (hi : s.Live i) (hphi : s.op i = .Phi)
      (hvalue : Value.Below s.size value) (hadd : s.addPhiOperand i predecessor value = .ok s') : Step s s'
  | replaceUsesWith {s s' : InstStorage} {i : ℕ} (value) (hi : s.Live i) (hvalue : Value.Below s.size value)
      (hreplace : s.replaceUsesWith i value = .ok s') : Step s s'
  | replaceOpcode {s s' : InstStorage} {i : ℕ} (opcode) (hi : s.Live i) (hmay : s.MayReplaceOpcode i opcode)
      (hreplace : s.replaceOpcode i opcode = .ok s') : Step s s'
  | invalidate {s s' : InstStorage} {i : ℕ} (hi : s.Live i) (hinvalidate : s.invalidate i = .ok s') : Step s s'
  | deadCodeEliminationPass {s s' : InstStorage} (blocks) (hpass : deadCodeEliminationPass s blocks = .ok s') : Step s s'
  | identityRemovalPass {s s' : InstStorage} (blocks) (hcover : ∀ b, s.blocks b ≠ [] → b ∈ blocks) (hends : ChainsEnd s)
      (hpass : identityRemovalPass s blocks = .ok s') : Step s s'

/-- The storages that any steps lead to. -/
inductive Reaches : InstStorage → Prop
  | empty : Reaches .empty
  | step {s s' : InstStorage} (hr : Reaches s) (hs : Step s s') : Reaches s'

theorem Sound.empty : InstStorage.empty.Sound := by
  have hsize : ∀ {k}, ¬ k < InstStorage.empty.size := fun hk => absurd hk (Nat.not_lt_zero _)
  refine ⟨⟨⟨fun _ hj => absurd hj hsize, fun _ hj => absurd hj hsize, fun _ hj => absurd hj hsize,
    fun _ hj => absurd hj hsize⟩, fun _ hj => absurd hj hsize⟩, fun _ _ hk => absurd hk not_mem_nil,
    fun _ => nodup_nil, fun _ _ _ hk => absurd hk not_mem_nil, fun _ hj => absurd hj hsize⟩

theorem Sound.step (h : s.Sound) (hstep : Step s s') : s'.Sound := by
  cases hstep with
  | build block before opcode args hargs hnew => exact h.prependNewInst hargs hnew
  | setArg index value hi hvalue hset => exact (h.setArg hi hvalue hset).1
  | addPhiOperand predecessor value hi hphi hvalue hadd =>
    obtain ⟨hcounted, hcodes⟩ := h.1.addPhiOperand (h.2.lt_size hi) hphi hvalue hadd
    exact ⟨hcounted, h.2.of_modify hcodes (.inl hi)⟩
  | replaceUsesWith value hi hvalue hreplace =>
    obtain ⟨t, ht, hcounted, hcodes⟩ := h.1.replaceUsesWith (h.2.lt_size hi) hvalue
    obtain rfl : t = s' := Except.ok.inj (ht.symm.trans hreplace)
    exact ⟨hcounted, h.2.of_modify hcodes (.inl hi)⟩
  | replaceOpcode opcode hi hmay hreplace =>
    have hopcode : opcode ≠ .Phi := by
      intro hphi
      rw [InstStorage.replaceOpcode, if_pos hphi] at hreplace
      cases hreplace
    rw [replaceOpcode_eq hopcode] at hreplace
    cases hreplace
    exact ⟨h.1.replaceOpcode opcode hopcode hmay, h.2.of_modify (.refl _) (.inl hi)⟩
  | invalidate hi hinvalidate =>
    obtain ⟨t, ht, hcounted, hcodes⟩ := h.1.invalidate (h.2.lt_size hi)
    obtain rfl : t = s' := Except.ok.inj (ht.symm.trans hinvalidate)
    exact ⟨hcounted, h.2.of_modify hcodes (.inl hi)⟩
  | deadCodeEliminationPass blocks hpass =>
    obtain ⟨t, ht, hcounted, hplaced, -⟩ := deadCodeEliminationPass_spec h.1 h.2 blocks
    obtain rfl : t = s' := Except.ok.inj (ht.symm.trans hpass)
    exact ⟨hcounted, hplaced⟩
  | identityRemovalPass blocks hcover hends hpass =>
    obtain ⟨hcounted, hplaced, -⟩ := identityRemovalPass_spec h.1 h.2 hends hcover hpass
    exact ⟨hcounted, hplaced⟩

theorem Reaches.sound (h : Reaches s) : s.Sound := by
  induction h with
  | empty => exact .empty
  | step hr hs ih => exact ih.step hs

/-! ### Values -/

variable {cbuf : BitVec 32 → BitVec 32 → BitVec 32} {ρ : Valuation}

/-- An invalidated instruction may yield anything. -/
theorem computes_of_not_live (hp : s.Placed []) (hi : i < s.size) (hlive : ¬ s.Live i) (arg : ℕ → Datum) (d : Datum) :
    Computes cbuf (s.op i) arg d := by
  rw [(hp.blank i hi hlive not_mem_nil).1]
  trivial

theorem models_of_eliminates (hp : s'.Placed []) (helim : Eliminates s s') (h : s.Models cbuf ρ) :
    s'.Models cbuf ρ := by
  intro i hi
  by_cases hlive : s'.Live i
  · have hcode := (helim.kept i hlive).2
    have hcomputes := h i (helim.size ▸ hi)
    rw [InstStorage.op, ← hcode.1] at hcomputes
    rw [InstStorage.op]
    simpa only [hcode.rawArg] using hcomputes
  · exact computes_of_not_live hp hi hlive _ _

theorem models_of_removesIdentities (hclosed : s.Closed) (hp : s'.Placed []) (hremoves : RemovesIdentities s s')
    (h : s.Models cbuf ρ) : s'.Models cbuf ρ := by
  intro i hi
  have hi' : i < s.size := hremoves.size ▸ hi
  by_cases hlive : s'.Live i
  · have hargs : (fun index => ((s'.insts i).rawArg index).denote ρ) =
        fun index => ((s.insts i).rawArg index).denote ρ := by
      funext index
      rcases hremoves.args i hlive index with hsame | hresolved
      · rw [hsame]
      · rw [hresolved]
        exact denote_arg hclosed h hi' index
    rw [(hremoves.kept i hlive).1, hargs]
    exact h i hi'
  · exact computes_of_not_live hp hi hlive _ _

/-! ### Use counts -/

theorem count_targetsOf (values : List Value) (j : ℕ) : (targetsOf values).count j = values.count (.inst j) := by
  induction values with
  | nil => rfl
  | cons value values ih =>
    cases value with
    | imm payload =>
      rw [targetsOf_imm, ih, count_cons_of_ne]
      intro heq
      cases heq
    | inst i =>
      rw [targetsOf_inst, Multiset.count_cons, ih, count_cons]
      by_cases hij : j = i
      · simp [hij]
      · simp [hij, Ne.symm hij]

open Classical in
/-- The slots that refer to an instruction are those of the instructions in the blocks. -/
theorem Sound.useCount (h : s.Sound) {j : ℕ} (hj : j < s.size) :
    (s.insts j).useCount = ∑ i ∈ Finset.range s.size with s.Live i, (s.insts i).slots.count (.inst j) := by
  have hlive : referencesTo {i ∈ Finset.range s.size | s.Live i} (fun i => (s.insts i).targets) j =
      referencesTo (Finset.range s.size) (fun i => (s.insts i).targets) j := by
    apply referencesTo_subset (Finset.filter_subset s.Live (Finset.range s.size))
    intro i hi hnot
    have hdead : ¬ s.Live i := fun hlive => hnot (Finset.mem_filter.mpr ⟨hi, hlive⟩)
    exact (h.2.blank i (Finset.mem_range.mp hi) hdead not_mem_nil).2
  rw [h.1.accounts.count j hj, ← hlive, referencesTo]
  apply congrArg Nat.cast
  apply Finset.sum_congr rfl
  intro i _
  exact count_targetsOf _ j

theorem Sound.pseudo (h : s.Sound) {j : ℕ} (hj : j < s.size) (l : PseudoLink) (p : ℕ) :
    (s.insts j).pseudo l = some p ↔ s.Live p ∧ (s.op p).pseudoLink = some l ∧ .inst j ∈ (s.insts p).slots := by
  rw [h.1.accounts.link j hj l p, Inst.targets, mem_targetsOf]
  constructor
  · intro hp
    obtain ⟨hlt, hlink, hmem⟩ := hp
    refine ⟨?_, hlink, hmem⟩
    by_contra hdead
    have hzero := (h.2.blank p hlt hdead not_mem_nil).2
    have hin : j ∈ (s.insts p).targets := mem_targetsOf.mpr hmem
    rw [hzero] at hin
    exact Multiset.notMem_zero j hin
  · intro hp
    obtain ⟨hlive, hlink, hmem⟩ := hp
    exact ⟨h.2.lt_size hlive, hlink, hmem⟩

open Classical in
/-- **In every storage a translation reaches the use counts are the slots of live instructions, the
links lead to the live pseudo-operations, and the passes take out only unused instructions without
side effects, identities and invalidated instructions, without changing a value.** -/
theorem Reaches.useCounts (h : Reaches s) (cbuf : BitVec 32 → BitVec 32 → BitVec 32) :
    (∀ j < s.size,
      (s.insts j).useCount = ∑ i ∈ Finset.range s.size with s.Live i, (s.insts i).slots.count (.inst j)) ∧
    (∀ j < s.size, ∀ l p, (s.insts j).pseudo l = some p ↔
      s.Live p ∧ (s.op p).pseudoLink = some l ∧ .inst j ∈ (s.insts p).slots) ∧
    (∀ blocks, ∃ s', deadCodeEliminationPass s blocks = .ok s' ∧ Eliminates s s' ∧
      ∀ ρ, s.Models cbuf ρ → s'.Models cbuf ρ) ∧
    ∀ blocks s', (∀ b, s.blocks b ≠ [] → b ∈ blocks) → ChainsEnd s → identityRemovalPass s blocks = .ok s' →
      RemovesIdentities s s' ∧ ∀ ρ, s.Models cbuf ρ → s'.Models cbuf ρ := by
  have hsound := h.sound
  refine ⟨fun j hj => hsound.useCount hj, fun j hj => hsound.pseudo hj, fun blocks => ?_,
    fun blocks s' hcover hends hpass => ?_⟩
  · obtain ⟨s', hs', -, hplaced, helim⟩ := deadCodeEliminationPass_spec hsound.1 hsound.2 blocks
    exact ⟨s', hs', helim, fun ρ hmodels => models_of_eliminates hplaced helim hmodels⟩
  · obtain ⟨-, hplaced, hremoves⟩ := identityRemovalPass_spec hsound.1 hsound.2 hends hcover hpass
    exact ⟨hremoves, fun ρ hmodels =>
      models_of_removesIdentities (closed_of_counted hsound.1) hplaced hremoves hmodels⟩

/-- A sum and the pseudo-operation that reads whether it is zero. -/
theorem useCounts_zeroFromOp :
    ∃ s, Reaches s ∧ s.size = 2 ∧ ((s.insts 0).pseudo .zero = some 1 ↔
      s.Live 1 ∧ (s.op 1).pseudoLink = some .zero ∧ .inst 0 ∈ (s.insts 1).slots) := by
  have hsum : Reaches _ :=
    .step .empty (.build 0 none .IAdd32 [.imm (.u32 1), .imm (.u32 2)] (by simp) rfl)
  have hzero : Reaches _ := .step hsum (.build 0 none .GetZeroFromOp [.inst 0] (by simp; decide) rfl)
  exact ⟨_, hzero, rfl, (hzero.useCounts fun _ _ => 0).2.1 0 (by decide) .zero 1⟩

/-- Replacing the opcode of a phi leaves its operands counted, and identity removal takes out an
invalidated instruction that is still used. -/
theorem useCounts_replacedPhi :
    (∃ s s', Reaches s ∧ s.Live 1 ∧ s.replaceOpcode 1 .Void = .ok s' ∧ (s'.insts 0).useCount = 1 ∧
      ∀ i < s'.size, .inst 0 ∉ (s'.insts i).slots) ∧
    ∃ s s', Reaches s ∧ identityRemovalPass s [0] = .ok s' ∧ 0 ∈ s.blocks 0 ∧ 0 ∉ s'.blocks 0 ∧
      s.op 0 ≠ .Identity ∧ (s.insts 0).useCount = 1 := by
  have hsum : Reaches _ :=
    .step .empty (.build 0 none .IAdd32 [.imm (.u32 1), .imm (.u32 2)] (by simp) rfl)
  constructor
  · have hphi : Reaches _ := .step hsum (.build 0 none .Phi [] (by simp) rfl)
    have hoperand : Reaches _ :=
      .step hphi (.addPhiOperand (i := 1) 0 (.inst 0) ⟨0, by decide⟩ rfl (by simp; decide) rfl)
    exact ⟨_, _, hoperand, ⟨0, by decide⟩, rfl, by decide, by decide⟩
  · have hnext : Reaches _ := .step hsum (.build 0 none .IAdd32 [.inst 0, .imm (.u32 1)] (by simp; decide) rfl)
    have hvoid : Reaches _ := .step hnext (.invalidate (i := 0) ⟨0, by decide⟩ rfl)
    exact ⟨_, _, hvoid, rfl, by decide, by decide, by decide, by decide⟩

end InstStorage
end IR
end Shader
end Citron
