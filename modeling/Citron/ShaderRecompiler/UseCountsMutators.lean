/-
# The mutators keep the accounts

Between two calls the references are what the slots say. A pseudo-operation names an instruction in
its first slot only, so that its one link can be moved with the slot.
-/
import Citron.ShaderRecompiler.UseCounts

namespace Citron
namespace Shader
namespace IR

open Lib Function

/-! ### Slots -/

namespace Inst

variable (inst : Inst)

theorem rawArg_eq_slots (index : ℕ) : inst.rawArg index = (inst.slots[index]?).getD (.imm .void) := by
  rw [rawArg, slots]
  split
  · rw [List.getElem?_map]
  · rw [Vector.getElem?_toList]

@[simp] theorem useCount_putArg (index : ℕ) (value : Value) : (inst.putArg index value).useCount = inst.useCount := by
  unfold putArg
  split <;> rfl

@[simp] theorem pseudo_putArg (index : ℕ) (value : Value) : (inst.putArg index value).pseudo = inst.pseudo := by
  unfold putArg
  split <;> rfl

@[simp] theorem useCount_cleared : inst.cleared.useCount = inst.useCount := by
  unfold cleared
  split <;> rfl

@[simp] theorem pseudo_cleared : inst.cleared.pseudo = inst.pseudo := by
  unfold cleared
  split <;> rfl

@[simp] theorem useCount_withOpcode (opcode : Opcode) : (inst.withOpcode opcode).useCount = inst.useCount := by
  unfold withOpcode
  split <;> rfl

@[simp] theorem pseudo_withOpcode (opcode : Opcode) : (inst.withOpcode opcode).pseudo = inst.pseudo := by
  unfold withOpcode
  split <;> rfl

theorem numArgs_le_slots : inst.numArgs ≤ inst.slots.length := by
  rw [numArgs, slots]
  split
  · rw [List.length_map]
  · rw [Vector.length_toList]
    exact inst.op.numArgs_le

theorem slots_putArg (index : ℕ) (value : Value) : (inst.putArg index value).slots = inst.slots.set index value := by
  by_cases hphi : inst.op = .Phi
  · rw [slots, op_putArg, if_pos hphi, slots, if_pos hphi, putArg, if_pos hphi]
    apply List.ext_getElem?
    intro k
    rw [List.getElem?_map, List.getElem?_modify, List.getElem?_set, List.getElem?_map, List.length_map]
    by_cases hk : index = k
    · subst hk
      cases hget : inst.phiArgs[index]? with
      | none =>
        have hle := List.getElem?_eq_none_iff.mp hget
        simp [hle]
      | some operand =>
        have hlt := (List.getElem?_eq_some_iff.mp hget).1
        simp [hlt]
    · simp [hk]
  · rw [slots, op_putArg, if_neg hphi, slots, if_neg hphi, putArg, if_neg hphi]
    exact Vector.toList_setIfInBounds

theorem rawArg_putArg_of_lt {index : ℕ} (hindex : index < inst.numArgs) (value : Value) (k : ℕ) :
    (inst.putArg index value).rawArg k = if k = index then value else inst.rawArg k := by
  have hlt := Nat.lt_of_lt_of_le hindex inst.numArgs_le_slots
  rw [rawArg_eq_slots, slots_putArg, rawArg_eq_slots, List.getElem?_set]
  split
  next hk => rw [if_pos hk.symm, Option.getD_some]
  next hk => rw [if_neg (Ne.symm hk)]

theorem slots_split {index : ℕ} (hindex : index < inst.slots.length) :
    inst.slots.Perm (inst.rawArg index :: inst.slots.eraseIdx index) := by
  rw [rawArg_eq_slots, List.getElem?_eq_getElem hindex, Option.getD_some]
  exact (List.getElem_cons_eraseIdx_perm hindex).symm

theorem targetsOf_cons (value : Value) (values : List Value) :
    targetsOf (value :: values) = targetsOf [value] + targetsOf values := by
  cases value with
  | imm payload => simp
  | inst j => simp

theorem targets_split {index : ℕ} (hindex : index < inst.slots.length) :
    inst.targets = targetsOf [inst.rawArg index] + targetsOf (inst.slots.eraseIdx index) := by
  rw [← targetsOf_cons]
  exact targetsOf_perm (inst.slots_split hindex)

theorem targets_putArg {index : ℕ} (hindex : index < inst.slots.length) (value : Value) :
    (inst.putArg index value).targets = targetsOf [value] + targetsOf (inst.slots.eraseIdx index) := by
  rw [← targetsOf_cons, targets, slots_putArg]
  exact targetsOf_perm (List.set_perm_cons_eraseIdx hindex value)

theorem targetsOf_void (n : ℕ) : targetsOf (List.replicate n (.imm .void)) = 0 := by
  induction n with
  | zero => rfl
  | succ n ih => rw [List.replicate_succ, targetsOf_imm, ih]

theorem targets_cleared : inst.cleared.targets = 0 := by
  by_cases hphi : inst.op = .Phi
  · simp [targets, slots, cleared, hphi]
  · rw [targets, slots, cleared, if_neg hphi, if_neg hphi, Vector.toList_replicate]
    exact targetsOf_void 5

end Inst

namespace InstStorage

variable {s s' : InstStorage} {i index : ℕ} {value : Value}

theorem SameCode.slots {a b : Inst} (h : SameCode a b) : a.slots = b.slots := by
  rw [Inst.slots, Inst.slots, h.1, h.2.1, h.2.2]

theorem SameCode.targets {a b : Inst} (h : SameCode a b) : a.targets = b.targets :=
  congrArg targetsOf h.slots

theorem pseudo_of_link {opcode : Opcode} (h : opcode.pseudoLink ≠ none) : opcode ≠ .Phi ∧ opcode.numArgs = 1 := by
  cases opcode <;> first | exact absurd rfl h | exact ⟨by decide, rfl⟩

theorem targetsOf_tail {values : List Value} (h : targetsOf values = 0) : targetsOf values.tail = 0 := by
  cases values with
  | nil => rfl
  | cons value values =>
    rw [Inst.targetsOf_cons] at h
    exact (add_eq_zero.mp h).2

/-- Counts and links are those of the slots. -/
structure Counted (s : InstStorage) : Prop where
  accounts : s.Accounts fun i => (s.insts i).targets
  tidy : ∀ i < s.size, (s.op i).pseudoLink ≠ none → targetsOf (s.insts i).slots.tail = 0

theorem Counted.closed (h : s.Counted) (hi : i < s.size) {j : ℕ} (hmem : .inst j ∈ (s.insts i).slots) : j < s.size :=
  h.accounts.closed i hi j (mem_targetsOf.mpr hmem)

/-- The slots of one instruction changed along with the references. -/
theorem Counted.of_modify (h : s.Counted) {f : Inst → Inst} (hcodes : SameCodes s' (s.modify i f))
    (haccounts : s'.Accounts (update (fun k => (s.insts k).targets) i (f (s.insts i)).targets))
    (htidy : i < s.size → (f (s.insts i)).op.pseudoLink ≠ none → targetsOf (f (s.insts i)).slots.tail = 0) :
    s'.Counted := by
  have hsize : s'.size = s.size := hcodes.size
  have hcode : ∀ k, SameCode (s'.insts k) (if k = i then f (s.insts k) else s.insts k) := hcodes.code
  refine ⟨haccounts.congr fun k _ => ?_, fun k hk hlink => ?_⟩
  · rw [(hcode k).targets]
    by_cases hki : k = i
    · subst hki
      rw [if_pos rfl, update_self]
    · rw [if_neg hki, update_of_ne hki]
  · rw [(hcode k).slots]
    rw [InstStorage.op, (hcode k).1] at hlink
    by_cases hki : k = i
    · subst hki
      rw [if_pos rfl] at hlink ⊢
      exact htidy (hsize ▸ hk) hlink
    · rw [if_neg hki] at hlink ⊢
      exact h.tidy k (hsize ▸ hk) hlink

theorem Counted.setArg (h : s.Counted) (hi : i < s.size) (hv : ∀ j, value = .inst j → j < s.size)
    (hset : s.setArg i index value = .ok s') :
    s'.Counted ∧ SameCodes s' (s.modify i fun inst => inst.putArg index value) := by
  by_cases hnum : (s.insts i).numArgs ≤ index
  · rw [InstStorage.setArg, if_pos hnum] at hset
    cases hset
  have hindex : index < (s.insts i).slots.length :=
    Nat.lt_of_lt_of_le (Nat.not_le.mp hnum) (Inst.numArgs_le_slots _)
  obtain ⟨s₁, hs₁, haccounts₁, hcodes₁⟩ := h.accounts.undoUseValue hi (Inst.targets_split _ hindex)
  have hset' : (s₁.useValue i value >>= fun s₂ => .ok (s₂.modify i fun inst => inst.putArg index value)) = .ok s' := by
    rw [InstStorage.setArg, if_neg hnum, hs₁] at hset
    exact hset
  have hrest : (s₁.op i).pseudoLink ≠ none → targetsOf ((s.insts i).slots.eraseIdx index) = 0 := by
    intro hlink
    rw [hcodes₁.op] at hlink
    obtain ⟨hphi, hone⟩ := pseudo_of_link hlink
    have hzero : index = 0 := by
      have hargs := numArgs_of_op rfl hphi hone
      omega
    rw [hzero, List.eraseIdx_zero]
    exact h.tidy i hi hlink
  cases huse : s₁.useValue i value with
  | error e =>
    rw [huse] at hset'
    cases hset'
  | ok s₂ =>
    rw [huse] at hset'
    cases hset'
    obtain ⟨haccounts₂, hcodes₂⟩ := haccounts₁.useValue (hcodes₁.size.symm ▸ hi)
      (fun j hj => hcodes₁.size.symm ▸ hv j hj) (fun hlink => by rw [update_self]; exact hrest hlink) huse
    rw [update_idem, update_self, ← Inst.targets_putArg _ hindex] at haccounts₂
    have hcodes : SameCodes (s₂.modify i fun inst => inst.putArg index value)
        (s.modify i fun inst => inst.putArg index value) :=
      (hcodes₂.trans hcodes₁).modify i fun _ _ hcode => hcode.putArg index value
    refine ⟨h.of_modify hcodes (haccounts₂.modify i ?_ ?_ (.inl ?_)) fun _ hlink => ?_, hcodes⟩
    · exact Inst.useCount_putArg _ _ _
    · exact Inst.pseudo_putArg _ _ _
    · rw [Inst.op_putArg]
      rfl
    · rw [Inst.op_putArg] at hlink
      rw [Inst.slots_putArg]
      have hargs := numArgs_of_op rfl (pseudo_of_link hlink).1 (pseudo_of_link hlink).2
      have hzero : index = 0 := by omega
      rw [hzero]
      have htail := h.tidy i hi hlink
      cases hslots : (s.insts i).slots with
      | nil => rfl
      | cons old rest =>
        rw [hslots] at htail
        exact htail

theorem Counted.addPhiOperand (h : s.Counted) (hi : i < s.size) (hphi : s.op i = .Phi)
    (hv : ∀ j, value = .inst j → j < s.size) {predecessor : ℕ} (hadd : s.addPhiOperand i predecessor value = .ok s') :
    s'.Counted ∧
      SameCodes s' (s.modify i fun inst => { inst with phiArgs := inst.phiArgs ++ [(predecessor, value)] }) := by
  have hlink : (s.op i).pseudoLink = none := by
    rw [hphi]
    rfl
  rw [InstStorage.addPhiOperand] at hadd
  cases huse : s.useValue i value with
  | error e =>
    rw [huse] at hadd
    cases hadd
  | ok s₁ =>
    rw [huse] at hadd
    cases hadd
    obtain ⟨haccounts, hcodes₁⟩ := h.accounts.useValue hi hv (fun hne => absurd hlink hne) huse
    let f (inst : Inst) : Inst := { inst with phiArgs := inst.phiArgs ++ [(predecessor, value)] }
    have hcodes : SameCodes (s₁.modify i f) (s.modify i f) :=
      hcodes₁.modify i fun a b hcode => ⟨hcode.1, hcode.2.1, congrArg (· ++ _) hcode.2.2⟩
    have hslots : (f (s.insts i)).slots = (s.insts i).slots ++ [value] := by
      have hphi' : (s.insts i).op = .Phi := hphi
      rw [Inst.slots, Inst.slots, if_pos hphi', if_pos (show (f (s.insts i)).op = .Phi from hphi), List.map_append]
      rfl
    have htargets : (f (s.insts i)).targets = targetsOf [value] + (s.insts i).targets := by
      rw [Inst.targets, hslots, Inst.targets, ← Inst.targetsOf_cons]
      exact targetsOf_perm List.perm_append_comm
    refine ⟨h.of_modify hcodes ?_ fun _ hne => absurd hlink hne, hcodes⟩
    rw [htargets]
    exact haccounts.modify i rfl rfl (.inl rfl)

theorem Counted.clearArgs (h : s.Counted) (hi : i < s.size) :
    ∃ s', s.clearArgs i = .ok s' ∧ s'.Counted ∧ SameCodes s' (s.modify i Inst.cleared) := by
  obtain ⟨s₁, hs₁, haccounts, hcodes₁⟩ := h.accounts.undoUses hi rfl
  have hcodes : SameCodes (s₁.modify i Inst.cleared) (s.modify i Inst.cleared) :=
    hcodes₁.modify i fun _ _ hcode => hcode.cleared
  have hzero : targetsOf (s.insts i).cleared.slots = 0 := Inst.targets_cleared _
  refine ⟨s₁.modify i Inst.cleared, ?_, h.of_modify hcodes ?_ fun _ _ => targetsOf_tail hzero, hcodes⟩
  · rw [InstStorage.clearArgs, hs₁]
    rfl
  · rw [Inst.targets_cleared]
    exact haccounts.modify i (Inst.useCount_cleared _) (Inst.pseudo_cleared _) (.inr (update_self _ _ _))

/-- An opcode may be replaced as it is when neither the references nor the link depend on it. -/
def MayReplaceOpcode (s : InstStorage) (i : ℕ) (opcode : Opcode) : Prop :=
  (s.op i = .Phi → (s.insts i).targets = 0) ∧
    (opcode.pseudoLink = (s.op i).pseudoLink ∨ (s.insts i).targets = 0)

theorem Inst.targets_withOpcode {inst : Inst} {opcode : Opcode} (hopcode : opcode ≠ .Phi)
    (hphi : inst.op = .Phi → inst.targets = 0) : (inst.withOpcode opcode).targets = inst.targets := by
  by_cases hold : inst.op = .Phi
  · rw [hphi hold, Inst.targets, Inst.slots, Inst.op_withOpcode, if_neg hopcode, Inst.withOpcode, if_pos hold,
      Vector.toList_replicate]
    exact Inst.targetsOf_void 5
  · rw [Inst.targets, Inst.targets, Inst.slots, Inst.slots, Inst.op_withOpcode, if_neg hopcode, if_neg hold,
      Inst.withOpcode, if_neg hold]

theorem replaceOpcode_eq {opcode : Opcode} (hopcode : opcode ≠ .Phi) :
    s.replaceOpcode i opcode = .ok (s.modify i fun inst => inst.withOpcode opcode) := by
  rw [replaceOpcode, if_neg hopcode]
  rfl

theorem Counted.replaceOpcode (h : s.Counted) (opcode : Opcode) (hopcode : opcode ≠ .Phi)
    (hmay : s.MayReplaceOpcode i opcode) : (s.modify i fun inst => inst.withOpcode opcode).Counted := by
  have htargets := Inst.targets_withOpcode hopcode hmay.1
  apply h.of_modify (.refl _)
  · rw [htargets, update_eq_self]
    refine h.accounts.modify i (f := fun inst => inst.withOpcode opcode) (Inst.useCount_withOpcode _ _)
      (Inst.pseudo_withOpcode _ _) ?_
    rw [Inst.op_withOpcode]
    exact hmay.2
  · intro hi hlink
    rw [Inst.op_withOpcode] at hlink
    rcases hmay.2 with hsame | hzero
    · rw [hsame] at hlink
      have hold : (s.insts i).op ≠ .Phi := (pseudo_of_link hlink).1
      have hslots : ((s.insts i).withOpcode opcode).slots = (s.insts i).slots := by
        rw [Inst.slots, Inst.slots, Inst.op_withOpcode, if_neg hopcode, if_neg hold, Inst.withOpcode, if_neg hold]
      rw [hslots]
      exact h.tidy i hi hlink
    · exact targetsOf_tail (htargets.trans hzero)

theorem Counted.invalidate (h : s.Counted) (hi : i < s.size) :
    ∃ s', s.invalidate i = .ok s' ∧ s'.Counted ∧
      SameCodes s' (s.modify i fun inst => inst.cleared.withOpcode .Void) := by
  obtain ⟨s₁, hs₁, hcounted, hcodes⟩ := h.clearArgs hi
  have hzero : (s₁.insts i).targets = 0 := by
    have hcode := hcodes.code i
    rw [insts_modify, if_pos rfl] at hcode
    exact hcode.targets.trans (Inst.targets_cleared _)
  refine ⟨_, ?_, hcounted.replaceOpcode .Void (by decide) ⟨fun _ => hzero, .inr hzero⟩, ?_⟩
  · rw [InstStorage.invalidate, hs₁]
    exact replaceOpcode_eq (i := i) (show Opcode.Void ≠ .Phi by decide)
  · rw [← modify_modify s i Inst.cleared fun inst => inst.withOpcode .Void]
    exact hcodes.modify i fun _ _ hcode => hcode.withOpcode .Void

theorem targets_identityTo (inst : Inst) (value : Value) : (inst.identityTo value).targets = targetsOf [value] := by
  have hslots : (inst.identityTo value).slots = value :: List.replicate 4 (.imm .void) := by
    rw [Inst.slots, if_neg (by simp [Inst.identityTo])]
    rfl
  rw [Inst.targets, hslots, Inst.targetsOf_cons, Inst.targetsOf_void, add_zero]

theorem Counted.replaceUsesWith (h : s.Counted) (hi : i < s.size) (hv : ∀ j, value = .inst j → j < s.size) :
    ∃ s', s.replaceUsesWith i value = .ok s' ∧ s'.Counted ∧
      SameCodes s' (s.modify i fun inst => inst.identityTo value) := by
  obtain ⟨s₁, hs₁, hcounted₁, hcodes₁⟩ := h.invalidate hi
  let s₂ := s₁.modify i fun inst => inst.withOpcode .Identity
  have hcode₁ : SameCode (s₁.insts i) ((s.insts i).cleared.withOpcode .Void) := by
    have hcode := hcodes₁.code i
    rwa [insts_modify, if_pos rfl] at hcode
  have hzero₁ : (s₁.insts i).targets = 0 := by
    rw [hcode₁.targets, Inst.targets_withOpcode (by decide) fun _ => Inst.targets_cleared _, Inst.targets_cleared]
  have hcounted₂ : s₂.Counted :=
    hcounted₁.replaceOpcode .Identity (by decide) ⟨fun _ => hzero₁, .inr hzero₁⟩
  have hop₂ : s₂.op i = .Identity := by
    rw [InstStorage.op, insts_modify, if_pos rfl, Inst.op_withOpcode]
  have hlink₂ : (s₂.op i).pseudoLink = none := by
    rw [hop₂]
    rfl
  have hzero₂ : (s₂.insts i).targets = 0 := by
    rw [insts_modify, if_pos rfl, Inst.targets_withOpcode (by decide) fun _ => hzero₁, hzero₁]
  have hsize₂ : s₂.size = s.size := hcodes₁.size
  obtain ⟨s₃, hs₃, hcodes₃⟩ := useValue_ok hlink₂ value
  obtain ⟨haccounts₃, -⟩ := hcounted₂.accounts.useValue (hsize₂.symm ▸ hi) (fun j hj => hsize₂.symm ▸ hv j hj)
    (fun hne => absurd hlink₂ hne) hs₃
  rw [hzero₂, add_zero] at haccounts₃
  let f (inst : Inst) : Inst := { inst with args := inst.args.set 0 value }
  have hcodes : SameCodes (s₃.modify i f) (s.modify i fun inst => inst.identityTo value) := by
    have hset := (hcodes₃.trans (hcodes₁.modify i fun _ _ hcode => hcode.withOpcode .Identity)).modify i
      (f := f) (g := f) fun a b hcode => ⟨hcode.1, congrArg (Vector.set · 0 value) hcode.2.1, hcode.2.2⟩
    refine hset.trans ?_
    rw [modify_modify, modify_modify]
    exact (SameCodes.refl s).modify i fun a b hcode => hcode.identityTo value
  have hrest : ∀ k, k ≠ i → (s₂.insts k).targets = (s.insts k).targets := by
    intro k hk
    have hcode := hcodes₁.code k
    rw [insts_modify, if_neg hk] at hcode
    rw [insts_modify, if_neg hk]
    exact hcode.targets
  refine ⟨s₃.modify i f, ?_, h.of_modify hcodes ?_ fun _ hlink => absurd rfl hlink, hcodes⟩
  · rw [InstStorage.replaceUsesWith, hs₁]
    change (s₂.useValue i value >>= fun s₃ => .ok (s₃.modify i f)) = _
    rw [hs₃]
    rfl
  · apply (haccounts₃.modify i (f := f) rfl rfl (.inl rfl)).congr
    intro k _
    rw [targets_identityTo]
    by_cases hk : k = i
    · subst hk
      rw [update_self, update_self]
    · rw [update_of_ne hk, update_of_ne hk, hrest k hk]

/-! ### New instructions -/

theorem Counted.emplace (h : s.Counted) {opcode : Opcode} : (s.emplace opcode).Counted := by
  have hnew : (s.emplace opcode).insts s.size = { op := opcode } := if_pos rfl
  have hold : ∀ k, k < s.size → (s.emplace opcode).insts k = s.insts k := fun k hk => if_neg (Nat.ne_of_lt hk)
  have hzero : ((s.emplace opcode).insts s.size).targets = 0 := by
    rw [hnew, Inst.targets, Inst.slots]
    split
    · rfl
    · exact Inst.targetsOf_void 5
  have hrefs : ∀ j, referencesTo (Finset.range (s.size + 1)) (fun k => ((s.emplace opcode).insts k).targets) j =
      referencesTo (Finset.range s.size) (fun k => (s.insts k).targets) j := by
    intro j
    rw [Finset.range_add_one, referencesTo_insert Finset.notMem_range_self hzero]
    apply referencesTo_congr
    intro k hk
    rw [hold k (Finset.mem_range.mp hk)]
  have hcases : ∀ k, k < s.size + 1 → k < s.size ∨ k = s.size := fun k hk => by omega
  -- nothing refers to the new instruction yet
  have hunused : ∀ k < s.size + 1, s.size ∉ ((s.emplace opcode).insts k).targets := by
    intro k hk hmem
    rcases hcases k hk with hlt | rfl
    · rw [hold k hlt] at hmem
      exact Nat.lt_irrefl _ (h.accounts.closed k hlt _ hmem)
    · rw [hzero] at hmem
      exact absurd hmem (Multiset.notMem_zero _)
  refine ⟨⟨fun j hj => ?_, fun j hj l p => ?_, fun k hk hlink => ?_, fun k hk j hmem => ?_⟩, fun k hk hlink => ?_⟩
  · rcases hcases j hj with hlt | rfl
    · rw [hold j hlt, h.accounts.count j hlt]
      exact congrArg Int.ofNat (hrefs j).symm
    · rw [hnew]
      have hnone : referencesTo (Finset.range (s.size + 1)) (fun k => ((s.emplace opcode).insts k).targets) s.size = 0 :=
        referencesTo_eq_zero.mpr fun k hk => hunused k (Finset.mem_range.mp hk)
      exact congrArg Int.ofNat hnone.symm
  · rcases hcases j hj with hlt | rfl
    · rw [hold j hlt, h.accounts.link j hlt l p]
      constructor
      · rintro ⟨hp, hop, hmem⟩
        refine ⟨Nat.lt_succ_of_lt hp, ?_, ?_⟩
        · rw [InstStorage.op, hold p hp]
          exact hop
        · rw [hold p hp]
          exact hmem
      · rintro ⟨hp, hop, hmem⟩
        rcases hcases p hp with hplt | rfl
        · rw [hold p hplt] at hmem
          rw [InstStorage.op, hold p hplt] at hop
          exact ⟨hplt, hop, hmem⟩
        · rw [hzero] at hmem
          exact absurd hmem (Multiset.notMem_zero _)
    · rw [hnew]
      constructor
      · intro hp
        cases hp
      · rintro ⟨hp, -, hmem⟩
        exact absurd hmem (hunused p hp)
  · rcases hcases k hk with hlt | rfl
    · rw [hold k hlt]
      rw [InstStorage.op, hold k hlt] at hlink
      exact h.accounts.single k hlt hlink
    · rw [hzero]
      simp
  · rcases hcases k hk with hlt | rfl
    · rw [hold k hlt] at hmem
      exact Nat.lt_succ_of_lt (h.accounts.closed k hlt j hmem)
    · rw [hzero] at hmem
      exact absurd hmem (Multiset.notMem_zero _)
  · rcases hcases k hk with hlt | rfl
    · rw [hold k hlt]
      rw [InstStorage.op, hold k hlt] at hlink
      exact h.tidy k hlt hlink
    · exact targetsOf_tail hzero

theorem Counted.link (h : s.Counted) (block index : ℕ) (before : Option ℕ) : (s.link block index before).Counted :=
  ⟨⟨h.accounts.count, h.accounts.link, h.accounts.single, h.accounts.closed⟩, h.tidy⟩

theorem Counted.erase (h : s.Counted) (block index : ℕ) : (s.erase block index).Counted :=
  ⟨⟨h.accounts.count, h.accounts.link, h.accounts.single, h.accounts.closed⟩, h.tidy⟩

end InstStorage
end IR
end Shader
end Citron
