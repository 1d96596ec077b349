/-
# The code the mutators leave

Of an instruction the mutators change the opcode and the arguments; every other instruction keeps
its code, only its uses and its links to pseudo-operations may differ.
-/
import Citron.ShaderRecompiler.MicroInstruction

namespace Citron
namespace Shader
namespace IR

@[simp] theorem Inst.op_withOpcode (inst : Inst) (opcode : Opcode) : (inst.withOpcode opcode).op = opcode := by
  unfold Inst.withOpcode
  split <;> rfl

@[simp] theorem Inst.op_putArg (inst : Inst) (index : ℕ) (value : Value) : (inst.putArg index value).op = inst.op := by
  unfold Inst.putArg
  split <;> rfl

theorem Inst.rawArg_putArg {inst : Inst} (hphi : inst.op ≠ .Phi) {index : ℕ} (hindex : index < 5) (value : Value)
    (k : ℕ) : (inst.putArg index value).rawArg k = if k = index then value else inst.rawArg k := by
  rw [Inst.rawArg, Inst.op_putArg, if_neg hphi, Inst.rawArg, if_neg hphi, Inst.putArg, if_neg hphi]
  rw [Vector.getElem?_setIfInBounds]
  split
  next hk => rw [if_pos hk.symm, Option.getD_some]
  next hk => rw [if_neg (Ne.symm hk)]

theorem Inst.rawArg_identityTo (inst : Inst) (replacement : Value) (k : ℕ) :
    (inst.identityTo replacement).rawArg k = if k = 0 then replacement else .imm .void := by
  rw [Inst.rawArg, if_neg (by simp [Inst.identityTo]), Inst.identityTo]
  rw [Vector.getElem?_set]
  split
  next hk => rw [if_pos hk.symm, Option.getD_some]
  next hk =>
    rw [if_neg (Ne.symm hk), Vector.getElem?_replicate]
    split <;> rfl

namespace InstStorage

variable {s s' : InstStorage}

/-- The two instructions differ in their uses at most. -/
def SameCode (a b : Inst) : Prop := a.op = b.op ∧ a.args = b.args ∧ a.phiArgs = b.phiArgs

theorem SameCode.refl (a : Inst) : SameCode a a := ⟨rfl, rfl, rfl⟩

variable {a b : Inst}

theorem SameCode.trans {c : Inst} (hab : SameCode a b) (hbc : SameCode b c) : SameCode a c :=
  ⟨hab.1.trans hbc.1, hab.2.1.trans hbc.2.1, hab.2.2.trans hbc.2.2⟩

theorem SameCode.rawArg (h : SameCode a b) (index : ℕ) : a.rawArg index = b.rawArg index := by
  obtain ⟨hop, hargs, hphi⟩ := h
  rw [Inst.rawArg, Inst.rawArg, hop, hargs, hphi]

theorem SameCode.putArg (h : SameCode a b) (index : ℕ) (value : Value) :
    SameCode (a.putArg index value) (b.putArg index value) := by
  obtain ⟨hop, hargs, hphi⟩ := h
  by_cases hb : b.op = .Phi
  · rw [Inst.putArg, Inst.putArg, if_pos hb, if_pos (hop.trans hb), hphi]
    exact ⟨hop, hargs, rfl⟩
  · rw [Inst.putArg, Inst.putArg, if_neg hb, if_neg (hop ▸ hb), hargs]
    exact ⟨hop, rfl, hphi⟩

theorem SameCode.cleared (h : SameCode a b) : SameCode a.cleared b.cleared := by
  obtain ⟨hop, hargs, hphi⟩ := h
  by_cases hb : b.op = .Phi
  · rw [Inst.cleared, Inst.cleared, if_pos hb, if_pos (hop.trans hb)]
    exact ⟨hop, hargs, rfl⟩
  · rw [Inst.cleared, Inst.cleared, if_neg hb, if_neg (hop ▸ hb)]
    exact ⟨hop, rfl, hphi⟩

theorem SameCode.withOpcode (h : SameCode a b) (opcode : Opcode) :
    SameCode (a.withOpcode opcode) (b.withOpcode opcode) := by
  obtain ⟨hop, hargs, hphi⟩ := h
  by_cases hb : b.op = .Phi
  · rw [Inst.withOpcode, Inst.withOpcode, if_pos hb, if_pos (hop.trans hb)]
    exact ⟨rfl, rfl, rfl⟩
  · rw [Inst.withOpcode, Inst.withOpcode, if_neg hb, if_neg (hop ▸ hb)]
    exact ⟨rfl, hargs, hphi⟩

/-- The steps of `ReplaceUsesWith` on the instruction leave the identity. -/
theorem SameCode.identityTo (h : SameCode a b) (replacement : Value) {hfirst : 0 < 5} :
    SameCode
      { (a.cleared.withOpcode .Void).withOpcode .Identity with
        args := ((a.cleared.withOpcode .Void).withOpcode .Identity).args.set 0 replacement hfirst }
      (b.identityTo replacement) := by
  obtain ⟨hop, hargs, hphi⟩ := h
  by_cases hb : b.op = .Phi
  · have ha := hop.trans hb
    simp [SameCode, Inst.cleared, Inst.withOpcode, Inst.identityTo, ha, hb]
  · have ha : a.op ≠ .Phi := hop ▸ hb
    simp [SameCode, Inst.cleared, Inst.withOpcode, Inst.identityTo, ha, hb, hphi]

theorem numArgs_of_op {i : ℕ} {opcode : Opcode} (hop : s.op i = opcode) (hphi : opcode ≠ .Phi) {n : ℕ}
    (hnum : opcode.numArgs = n) : (s.insts i).numArgs = n := by
  subst hop
  exact (if_neg hphi).trans hnum

/-- Only uses and links changed. -/
structure SameCodes (s' s : InstStorage) : Prop where
  size : s'.size = s.size
  blocks : s'.blocks = s.blocks
  code : ∀ i, SameCode (s'.insts i) (s.insts i)

theorem SameCodes.refl (s : InstStorage) : SameCodes s s := ⟨rfl, rfl, fun _ => .refl _⟩

variable {s₁ s₂ : InstStorage}

theorem SameCodes.trans {s₃ : InstStorage} (h₁ : SameCodes s₁ s₂) (h₂ : SameCodes s₂ s₃) : SameCodes s₁ s₃ :=
  ⟨h₁.size.trans h₂.size, h₁.blocks.trans h₂.blocks, fun i => (h₁.code i).trans (h₂.code i)⟩

theorem SameCodes.op (h : SameCodes s₁ s₂) (i : ℕ) : s₁.op i = s₂.op i := (h.code i).1

theorem insts_modify (s : InstStorage) (i : ℕ) (f : Inst → Inst) (j : ℕ) :
    (s.modify i f).insts j = if j = i then f (s.insts j) else s.insts j := rfl

theorem modify_modify (s : InstStorage) (i : ℕ) (f g : Inst → Inst) :
    (s.modify i f).modify i g = s.modify i fun inst => g (f inst) := by
  simp only [modify, InstStorage.mk.injEq, and_true]
  funext j
  split <;> rfl

theorem SameCodes.modify (h : SameCodes s₁ s₂) (i : ℕ) {f g : Inst → Inst}
    (hfg : ∀ a b, SameCode a b → SameCode (f a) (g b)) : SameCodes (s₁.modify i f) (s₂.modify i g) := by
  refine ⟨h.size, h.blocks, fun j => ?_⟩
  rw [insts_modify, insts_modify]
  split
  · exact hfg _ _ (h.code j)
  · exact h.code j

theorem sameCodes_modify (s : InstStorage) (i : ℕ) {f : Inst → Inst} (hf : ∀ a, SameCode (f a) a) :
    SameCodes (s.modify i f) s := by
  refine ⟨rfl, rfl, fun j => ?_⟩
  rw [insts_modify]
  split
  · exact hf _
  · exact .refl _

section Mutators

variable {i : ℕ} (hlink : (s.op i).pseudoLink = none)
include hlink

theorem use_ok (target : ℕ) : ∃ s', s.use i target = .ok s' ∧ SameCodes s' s := by
  have hcodes := sameCodes_modify s target (f := fun inst => { inst with useCount := inst.useCount + 1 })
    fun a => ⟨rfl, rfl, rfl⟩
  refine ⟨_, ?_, hcodes⟩
  rw [use, hcodes.op i, hlink]

theorem undoUse_ok (target : ℕ) : ∃ s', s.undoUse i target = .ok s' ∧ SameCodes s' s := by
  have hcodes := sameCodes_modify s target (f := fun inst => { inst with useCount := inst.useCount - 1 })
    fun a => ⟨rfl, rfl, rfl⟩
  refine ⟨_, ?_, hcodes⟩
  rw [undoUse, hcodes.op i, hlink]

theorem useValue_ok (value : Value) : ∃ s', s.useValue i value = .ok s' ∧ SameCodes s' s := by
  cases value with
  | imm payload => exact ⟨s, rfl, .refl s⟩
  | inst target => exact use_ok hlink target

theorem undoUseValue_ok (value : Value) : ∃ s', s.undoUseValue i value = .ok s' ∧ SameCodes s' s := by
  cases value with
  | imm payload => exact ⟨s, rfl, .refl s⟩
  | inst target => exact undoUse_ok hlink target

theorem undoUses_ok (values : List Value) : ∃ s', s.undoUses i values = .ok s' ∧ SameCodes s' s := by
  induction values generalizing s with
  | nil => exact ⟨s, rfl, .refl s⟩
  | cons value values ih =>
    obtain ⟨s₁, hs₁, hcodes₁⟩ := undoUseValue_ok hlink value
    obtain ⟨s₂, hs₂, hcodes₂⟩ := ih (s := s₁) (by rw [hcodes₁.op, hlink])
    refine ⟨s₂, ?_, hcodes₂.trans hcodes₁⟩
    rw [undoUses, List.foldlM_cons, hs₁]
    exact hs₂

theorem setArg_ok (index : ℕ) (hindex : index < (s.insts i).numArgs) (value : Value) :
    ∃ s', s.setArg i index value = .ok s' ∧ SameCodes s' (s.modify i fun inst => inst.putArg index value) := by
  obtain ⟨s₁, hs₁, hcodes₁⟩ := undoUseValue_ok hlink ((s.insts i).rawArg index)
  obtain ⟨s₂, hs₂, hcodes₂⟩ := useValue_ok (s := s₁) (by rw [hcodes₁.op, hlink]) value
  have hcodes := hcodes₂.trans hcodes₁
  refine ⟨s₂.modify i fun inst => inst.putArg index value, ?_, hcodes.modify i fun _ _ h => h.putArg index value⟩
  rw [setArg, if_neg (Nat.not_le.mpr hindex), hs₁]
  change (s₁.useValue i value >>= fun s₂ => .ok (s₂.modify i fun inst => inst.putArg index value)) = _
  rw [hs₂]
  rfl

/-- Both arguments of an instruction that takes two. -/
theorem setArgs_ok (hphi : s.op i ≠ .Phi) (hnum : (s.op i).numArgs = 2) (a b : Value) :
    ∃ s₁ s₂, s.setArg i 0 a = .ok s₁ ∧ s₁.setArg i 1 b = .ok s₂ ∧
      SameCodes s₂ (s.modify i fun inst => (inst.putArg 0 a).putArg 1 b) := by
  have hargs : (s.insts i).numArgs = 2 := numArgs_of_op rfl hphi hnum
  obtain ⟨s₁, hs₁, hcodes₁⟩ := setArg_ok hlink 0 (by omega) a
  have hcode : SameCode (s₁.insts i) ((s.insts i).putArg 0 a) := by
    have hcode := hcodes₁.code i
    rwa [insts_modify, if_pos rfl] at hcode
  have hop : s₁.op i = s.op i := hcode.1.trans (Inst.op_putArg _ _ _)
  have hargs₁ : (s₁.insts i).numArgs = 2 := numArgs_of_op hop hphi hnum
  obtain ⟨s₂, hs₂, hcodes₂⟩ := setArg_ok (by rw [hop, hlink]) 1 (by omega) b
  refine ⟨s₁, s₂, hs₁, hs₂, hcodes₂.trans ?_⟩
  rw [← modify_modify s i (fun inst => inst.putArg 0 a) fun inst => inst.putArg 1 b]
  exact hcodes₁.modify i fun _ _ h => h.putArg 1 b

theorem invalidate_ok :
    ∃ s', s.invalidate i = .ok s' ∧ SameCodes s' (s.modify i fun inst => inst.cleared.withOpcode .Void) := by
  obtain ⟨s₁, hs₁, hcodes⟩ := undoUses_ok hlink (s.insts i).slots
  refine ⟨(s₁.modify i Inst.cleared).modify i fun inst => inst.withOpcode .Void, ?_, ?_⟩
  · rw [invalidate, clearArgs, hs₁]
    rfl
  · rw [modify_modify]
    exact hcodes.modify i fun _ _ h => h.cleared.withOpcode .Void

/-- What `ReplaceUsesWith` makes of an instruction. -/
theorem replaceUsesWith_ok (replacement : Value) :
    ∃ s', s.replaceUsesWith i replacement = .ok s' ∧
      SameCodes s' (s.modify i fun inst => inst.identityTo replacement) := by
  obtain ⟨s₁, hs₁, hcodes₁⟩ := invalidate_ok hlink
  have hop : (s₁.modify i fun inst => inst.withOpcode .Identity).op i = .Identity := by
    rw [InstStorage.op, insts_modify, if_pos rfl, Inst.op_withOpcode]
  obtain ⟨s₃, hs₃, hcodes₃⟩ := useValue_ok (by rw [hop]; rfl) replacement
  refine ⟨s₃.modify i fun inst => { inst with args := inst.args.set 0 replacement }, ?_, ?_⟩
  · rw [replaceUsesWith, hs₁]
    change ((s₁.modify i fun inst => inst.withOpcode .Identity).useValue i replacement >>= fun s₃ =>
      .ok (s₃.modify i fun inst => { inst with args := inst.args.set 0 replacement })) = _
    rw [hs₃]
    rfl
  · have hset := (hcodes₃.trans (hcodes₁.modify i fun _ _ h => h.withOpcode .Identity)).modify i
      (f := fun inst => { inst with args := inst.args.set 0 replacement })
      (g := fun inst => { inst with args := inst.args.set 0 replacement })
      fun a b h => ⟨h.1, by rw [h.2.1], h.2.2⟩
    refine hset.trans ?_
    rw [modify_modify, modify_modify]
    exact (SameCodes.refl s).modify i fun a b h => h.identityTo replacement

end Mutators

/-- A new instruction of two arguments was put at the end of the storage. -/
structure Emitted (s' s : InstStorage) (opcode : Opcode) (a b : Value) : Prop where
  size : s'.size = s.size + 1
  code : ∀ j < s.size, SameCode (s'.insts j) (s.insts j)
  op : s'.op s.size = opcode
  arg : ∀ index, (s'.insts s.size).rawArg index = if index = 0 then a else if index = 1 then b else .imm .void

theorem prependNewInst_ok {opcode : Opcode} (hlink : opcode.pseudoLink = none) (hphi : opcode ≠ .Phi)
    (hnum : opcode.numArgs = 2) (block : ℕ) (before : Option ℕ) (a b : Value) :
    ∃ s', s.prependNewInst block before opcode [a, b] = .ok s' ∧ Emitted s' s opcode a b := by
  let fresh : Inst := { op := opcode }
  let s₀ := (s.emplace opcode).link block s.size before
  have hfresh : s₀.insts s.size = fresh := if_pos rfl
  have hop : s₀.op s.size = opcode := congrArg Inst.op hfresh
  have hargs : (s₀.insts s.size).numArgs = 2 := numArgs_of_op hop hphi hnum
  obtain ⟨s₁, s₂, hs₁, hs₂, hcodes⟩ := setArgs_ok (hop ▸ hlink) (hop ▸ hphi) (hop ▸ hnum) a b
  have hcode : SameCode (s₂.insts s.size) ((fresh.putArg 0 a).putArg 1 b) := by
    have hcode := hcodes.code s.size
    rwa [insts_modify, if_pos rfl, hfresh] at hcode
  refine ⟨s₂, ?_, hcodes.size, fun j hj => ?_, ?_, fun index => ?_⟩
  · rw [prependNewInst]
    change (if (s₀.insts s.size).numArgs ≠ 2 then _ else _) = _
    rw [if_neg (not_not.mpr hargs)]
    change (s₀.setArg s.size 0 a >>= fun s₁ => s₁.setArg s.size 1 b >>= fun s₂ => .ok s₂) = _
    rw [hs₁]
    change (s₁.setArg s.size 1 b >>= fun s₂ => .ok s₂) = _
    rw [hs₂]
    rfl
  · have hcode := hcodes.code j
    rw [insts_modify, if_neg (Nat.ne_of_lt hj)] at hcode
    change SameCode _ (if j = s.size then fresh else s.insts j) at hcode
    rwa [if_neg (Nat.ne_of_lt hj)] at hcode
  · exact hcode.1.trans (by simp [fresh])
  · rw [hcode.rawArg, Inst.rawArg_putArg (by simpa [fresh] using hphi) (by decide),
      Inst.rawArg_putArg (by simpa [fresh] using hphi) (by decide)]
    have hvoid : fresh.rawArg index = .imm .void := by
      rw [Inst.rawArg, if_neg hphi, Vector.getElem?_replicate]
      split <;> rfl
    rw [hvoid]
    by_cases h1 : index = 1
    · subst h1
      rfl
    · rw [if_neg h1, if_neg h1]

end InstStorage
end IR
end Shader
end Citron
