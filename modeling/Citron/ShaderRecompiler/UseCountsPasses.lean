/-
# Dead code elimination and identity removal

Both passes walk the blocks and take instructions out of them. Dead code elimination walks a block
backwards, so that a removal uncovers the next; identity removal resolves the arguments on its way
and invalidates what it took out when every block has been walked.
-/
import Citron.Lib.Folds
import Citron.ShaderRecompiler.UseCountsMutators
import Citron.ShaderRecompiler.Valuation

namespace Citron

open List Function

namespace Shader
namespace Optimization

open IR

/-! ### Dead code elimination -/

/-- The body of the loop of `DeadCodeEliminationPass`. -/
def eliminate (block : ℕ) (s : InstStorage) (i : ℕ) : Except Exception InstStorage :=
  if !(s.insts i).hasUses ∧ !(s.op i).mayHaveSideEffects then do
    let s₁ ← s.invalidate i
    return s₁.erase block i
  else return s

/-- The walk from the end of a block: only the instruction it stands on is erased. -/
def eliminateBlock (s : InstStorage) (block : ℕ) : Except Exception InstStorage :=
  (s.blocks block).reverse.foldlM (eliminate block) s

def deadCodeEliminationPass (s : InstStorage) (postOrderBlocks : List ℕ) : Except Exception InstStorage :=
  postOrderBlocks.foldlM eliminateBlock s

/-! ### Identity removal -/

def resolveArg (i : ℕ) (s : InstStorage) (index : ℕ) : Except Exception InstStorage :=
  if (s.insts i).rawArg index ≠ s.arg i index then s.setArg i index (s.arg i index) else return s

/-- The body of the loop of `IdentityRemovalPass` on a block, with `to_invalidate`. -/
def removeIdentity (block : ℕ) (state : InstStorage × List ℕ) (i : ℕ) :
    Except Exception (InstStorage × List ℕ) := do
  let s₁ ← (List.range (state.1.insts i).numArgs).foldlM (resolveArg i) state.1
  if s₁.op i = .Identity ∨ s₁.op i = .Void then
    return (s₁.erase block i, state.2 ++ [i])
  else return (s₁, state.2)

def removeIdentities (state : InstStorage × List ℕ) (block : ℕ) : Except Exception (InstStorage × List ℕ) :=
  (state.1.blocks block).foldlM (removeIdentity block) state

/-- On a storage with a cycle of identities the pass of the source does not return. -/
def identityRemovalPass (s : InstStorage) (blocks : List ℕ) : Except Exception InstStorage := do
  let state ← blocks.foldlM removeIdentities (s, [])
  state.2.foldlM (fun t i => t.invalidate i) state.1

end Optimization

/-! ## The passes keep the accounts

An instruction that is in no block is invalidated, identity removal's own list apart, so that the
references are those of the instructions in the blocks.
-/

namespace IR

open Lib

namespace InstStorage

/-- The instruction is in a block. -/
def Live (s : InstStorage) (i : ℕ) : Prop := ∃ block, i ∈ s.blocks block

/-- The blocks share no instruction, and what is outside of them and of the pending list is invalidated. -/
structure Placed (s : InstStorage) (pending : List ℕ) : Prop where
  bound : ∀ block, ∀ i ∈ s.blocks block, i < s.size
  nodup : ∀ block, (s.blocks block).Nodup
  disjoint : ∀ b c i, i ∈ s.blocks b → i ∈ s.blocks c → b = c
  blank : ∀ i < s.size, ¬ s.Live i → i ∉ pending → s.op i = .Void ∧ (s.insts i).targets = 0

variable {s s' : InstStorage} {i block : ℕ} {pending : List ℕ}

theorem Placed.lt_size (h : s.Placed pending) (hi : s.Live i) : i < s.size := by
  obtain ⟨block, hblock⟩ := hi
  exact h.bound block i hblock

theorem live_of_blocks (hblocks : s'.blocks = s.blocks) : s'.Live i ↔ s.Live i := by
  rw [Live, Live, hblocks]

/-- A change of an instruction that is in a block, or that invalidates it. -/
theorem Placed.of_modify (h : s.Placed pending) {f : Inst → Inst} (hcodes : SameCodes s' (s.modify i f))
    (hi : s.Live i ∨ i ∈ pending ∨ (f (s.insts i)).op = .Void ∧ (f (s.insts i)).targets = 0) : s'.Placed pending := by
  have hblocks : s'.blocks = s.blocks := hcodes.blocks
  have hsize : s'.size = s.size := hcodes.size
  refine ⟨?_, ?_, ?_, fun k hk hlive hpending => ?_⟩
  · rw [hblocks, hsize]
    exact h.bound
  · rw [hblocks]
    exact h.nodup
  · rw [hblocks]
    exact h.disjoint
  · rw [live_of_blocks hblocks] at hlive
    rw [hsize] at hk
    rw [InstStorage.op, (hcodes.code k).1, (hcodes.code k).targets, insts_modify]
    split
    next hki =>
      subst hki
      rcases hi with hi | hi | hi
      · exact absurd hi hlive
      · exact absurd hi hpending
      · exact hi
    next => exact h.blank k hk hlive hpending

theorem mem_erase_blocks (h : s.Placed pending) (hi : i ∈ s.blocks block) {b k : ℕ} :
    k ∈ (s.erase block i).blocks b ↔ k ∈ s.blocks b ∧ k ≠ i := by
  by_cases hb : b = block
  · subst hb
    change k ∈ update s.blocks b ((s.blocks b).erase i) b ↔ _
    rw [update_self, (h.nodup b).mem_erase_iff, and_comm]
  · change k ∈ update s.blocks block ((s.blocks block).erase i) b ↔ _
    rw [update_of_ne hb]
    constructor
    · intro hk
      refine ⟨hk, fun hki => hb ?_⟩
      exact h.disjoint b block i (hki ▸ hk) hi
    · intro hk
      exact hk.1

theorem erase_sublist (s : InstStorage) (block i b : ℕ) : ((s.erase block i).blocks b).Sublist (s.blocks b) := by
  by_cases hb : b = block
  · subst hb
    change (update s.blocks b ((s.blocks b).erase i) b).Sublist _
    rw [update_self]
    exact List.erase_sublist
  · change (update s.blocks block ((s.blocks block).erase i) b).Sublist _
    rw [update_of_ne hb]

theorem live_erase (h : s.Placed pending) (hi : i ∈ s.blocks block) {k : ℕ} :
    (s.erase block i).Live k ↔ s.Live k ∧ k ≠ i := by
  constructor
  · intro hk
    obtain ⟨b, hb⟩ := hk
    have hmem := (mem_erase_blocks h hi).mp hb
    exact ⟨⟨b, hmem.1⟩, hmem.2⟩
  · intro hk
    obtain ⟨⟨b, hb⟩, hne⟩ := hk
    exact ⟨b, (mem_erase_blocks h hi).mpr ⟨hb, hne⟩⟩

theorem Placed.erase (h : s.Placed pending) (hi : i ∈ s.blocks block) {pending' : List ℕ}
    (hsub : ∀ k ∈ pending, k ∈ pending')
    (hblank : i ∈ pending' ∨ s.op i = .Void ∧ (s.insts i).targets = 0) : (s.erase block i).Placed pending' := by
  refine ⟨fun b k hk => ?_, fun b => ?_, fun b c k hb hc => ?_, fun k hk hlive hpending => ?_⟩
  · exact h.bound b k ((mem_erase_blocks h hi).mp hk).1
  · by_cases hb : b = block
    · subst hb
      change (update s.blocks b ((s.blocks b).erase i) b).Nodup
      rw [update_self]
      exact (h.nodup b).erase i
    · change (update s.blocks block ((s.blocks block).erase i) b).Nodup
      rw [update_of_ne hb]
      exact h.nodup b
  · exact h.disjoint b c k ((mem_erase_blocks h hi).mp hb).1 ((mem_erase_blocks h hi).mp hc).1
  · rw [live_erase h hi] at hlive
    by_cases hki : k = i
    · subst hki
      rcases hblank with hin | hzero
      · exact absurd hin hpending
      · exact hzero
    · exact h.blank k hk (fun hk' => hlive ⟨hk', hki⟩) fun hin => hpending (hsub k hin)

theorem Placed.drop {a : ℕ} {l : List ℕ} (h : s.Placed (a :: l)) (hvoid : s.op a = .Void)
    (htargets : (s.insts a).targets = 0) : s.Placed l := by
  refine ⟨h.bound, h.nodup, h.disjoint, fun k hk hlive hl => ?_⟩
  by_cases hka : k = a
  · rw [hka]
    exact ⟨hvoid, htargets⟩
  · exact h.blank k hk hlive (not_mem_cons_of_ne_of_not_mem hka hl)

end InstStorage
end IR

namespace Optimization

open IR InstStorage Lib

variable {s s' t : InstStorage} {i block : ℕ}

/-! ### Dead code elimination -/

/-- What dead code elimination leaves of a storage. -/
structure Eliminates (s s' : InstStorage) : Prop where
  size : s'.size = s.size
  order : ∀ b, (s'.blocks b).Sublist (s.blocks b)
  kept : ∀ i, s'.Live i → s.Live i ∧ SameCode (s'.insts i) (s.insts i)
  removed : ∀ i, s.Live i → ¬ s'.Live i →
    (s.op i).mayHaveSideEffects = false ∧ ∀ k < s'.size, i ∉ (s'.insts k).targets
  fewer : ∀ k, (s'.insts k).targets = (s.insts k).targets ∨ (s'.insts k).targets = 0

theorem Eliminates.refl (s : InstStorage) : Eliminates s s :=
  ⟨rfl, fun _ => .refl _, fun _ hi => ⟨hi, .refl _⟩, fun _ hi hnot => absurd hi hnot, fun _ => .inl rfl⟩

theorem Eliminates.trans (h₁ : Eliminates s t) (h₂ : Eliminates t s') : Eliminates s s' := by
  refine ⟨h₂.size.trans h₁.size, fun b => (h₂.order b).trans (h₁.order b), fun i hi => ?_, fun i hi hnot => ?_, fun k => ?_⟩
  · obtain ⟨hit, hcode₂⟩ := h₂.kept i hi
    obtain ⟨his, hcode₁⟩ := h₁.kept i hit
    exact ⟨his, hcode₂.trans hcode₁⟩
  · by_cases hit : t.Live i
    · obtain ⟨-, hcode⟩ := h₁.kept i hit
      have hremoved := h₂.removed i hit hnot
      rw [InstStorage.op, hcode.1] at hremoved
      exact hremoved
    · obtain ⟨heffect, hunused⟩ := h₁.removed i hi hit
      refine ⟨heffect, fun k hk hmem => ?_⟩
      rw [h₂.size] at hk
      rcases h₂.fewer k with hsame | hzero
      · rw [hsame] at hmem
        exact hunused k hk hmem
      · rw [hzero] at hmem
        exact absurd hmem (Multiset.notMem_zero _)
  · rcases h₂.fewer k with hsame | hzero
    · rw [hsame]
      exact h₁.fewer k
    · exact .inr hzero

/-- An instruction without uses is in no slot. -/
theorem unused_of_hasUses (hc : s.Counted) (hi : i < s.size) (huses : (s.insts i).hasUses = false) :
    ∀ k < s.size, i ∉ (s.insts k).targets := by
  have hcount := hc.accounts.count i hi
  have hle : ¬ 0 < (s.insts i).useCount := of_decide_eq_false huses
  have hzero : referencesTo (Finset.range s.size) (fun k => (s.insts k).targets) i = 0 := by omega
  intro k hk
  exact referencesTo_eq_zero.mp hzero k (Finset.mem_range.mpr hk)

theorem eliminate_spec (hc : s.Counted) (hp : s.Placed []) (hi : i ∈ s.blocks block) :
    ∃ s', eliminate block s i = .ok s' ∧ s'.Counted ∧ s'.Placed [] ∧ Eliminates s s' ∧
      ∀ k ∈ s.blocks block, k ≠ i → k ∈ s'.blocks block := by
  unfold eliminate
  split
  next hdead =>
    obtain ⟨huses, heffect⟩ : (s.insts i).hasUses = false ∧ (s.op i).mayHaveSideEffects = false := by
      simpa using hdead
    have hlt := hp.bound block i hi
    have hunused := unused_of_hasUses hc hlt huses
    obtain ⟨s₁, hs₁, hc₁, hcodes⟩ := hc.invalidate hlt
    have hp₁ : s₁.Placed [] := hp.of_modify hcodes (.inl ⟨block, hi⟩)
    have hi₁ : i ∈ s₁.blocks block := by
      rw [hcodes.blocks]
      exact hi
    have hcode : ∀ k, SameCode (s₁.insts k) (if k = i then (s.insts k).cleared.withOpcode .Void else s.insts k) :=
      hcodes.code
    have hvoid : s₁.op i = .Void := by
      have hcode := hcode i
      rw [if_pos rfl] at hcode
      rw [InstStorage.op, hcode.1, Inst.op_withOpcode]
    have hblank : (s₁.insts i).targets = 0 := by
      have hcode := hcode i
      rw [if_pos rfl] at hcode
      rw [hcode.targets, Inst.targets_withOpcode (by decide) fun _ => Inst.targets_cleared _, Inst.targets_cleared]
    have hfewer : ∀ k, (s₁.insts k).targets = (s.insts k).targets ∨ (s₁.insts k).targets = 0 := by
      intro k
      by_cases hki : k = i
      · exact .inr (hki ▸ hblank)
      · have hcode := hcode k
        rw [if_neg hki] at hcode
        exact .inl hcode.targets
    refine ⟨s₁.erase block i, ?_, hc₁.erase block i, hp₁.erase hi₁ (fun _ => id) (.inr ⟨hvoid, hblank⟩),
      ⟨hcodes.size, fun b => ?_, fun k hk => ?_, fun k hk hnot => ?_, hfewer⟩, fun k hk hki => ?_⟩
    · rw [hs₁]
      rfl
    · have hsub := erase_sublist s₁ block i b
      rwa [hcodes.blocks] at hsub
    · obtain ⟨hk₁, hki⟩ := (live_erase hp₁ hi₁).mp hk
      have hcode := hcode k
      rw [if_neg hki] at hcode
      exact ⟨(live_of_blocks hcodes.blocks).mp hk₁, hcode⟩
    · have hki : k = i := by
        by_contra hki
        exact hnot ((live_erase hp₁ hi₁).mpr ⟨(live_of_blocks hcodes.blocks).mpr hk, hki⟩)
      subst hki
      refine ⟨heffect, fun m hm hmem => ?_⟩
      have hm' : m < s.size := hcodes.size ▸ hm
      rcases hfewer m with hsame | hzero
      · exact hunused m hm' (hsame ▸ hmem)
      · have hmem' : k ∈ (s₁.insts m).targets := hmem
        rw [hzero] at hmem'
        exact absurd hmem' (Multiset.notMem_zero _)
    · apply (mem_erase_blocks hp₁ hi₁).mpr
      rw [hcodes.blocks]
      exact ⟨hk, hki⟩
  next => exact ⟨s, rfl, hc, hp, .refl s, fun k hk _ => hk⟩

theorem eliminateBlock_spec (hc : s.Counted) (hp : s.Placed []) (block : ℕ) :
    ∃ s', eliminateBlock s block = .ok s' ∧ s'.Counted ∧ s'.Placed [] ∧ Eliminates s s' := by
  obtain ⟨s', hs', hc', hp', helim, -⟩ := foldlM_total (f := eliminate block)
    (P := fun l t => t.Counted ∧ t.Placed [] ∧ Eliminates s t ∧ l.Nodup ∧ ∀ k ∈ l, k ∈ t.blocks block)
    (by
      intro a l t ⟨hc, hp, helim, hnodup, hmem⟩
      obtain ⟨t', ht', hc', hp', helim', hkeep⟩ := eliminate_spec hc hp (hmem a mem_cons_self)
      rw [nodup_cons] at hnodup
      refine ⟨t', ht', hc', hp', helim.trans helim', hnodup.2, fun k hk => ?_⟩
      exact hkeep k (hmem k (mem_cons_of_mem a hk)) fun hka => hnodup.1 (hka ▸ hk))
    (l := (s.blocks block).reverse) (s := s)
    ⟨hc, hp, .refl s, nodup_reverse.mpr (hp.nodup block), fun k hk => mem_reverse.mp hk⟩
  exact ⟨s', hs', hc', hp', helim⟩

/-- Dead code elimination returns, keeps the accounts and takes out only what nothing refers to. -/
theorem deadCodeEliminationPass_spec (hc : s.Counted) (hp : s.Placed []) (blocks : List ℕ) :
    ∃ s', deadCodeEliminationPass s blocks = .ok s' ∧ s'.Counted ∧ s'.Placed [] ∧ Eliminates s s' := by
  obtain ⟨s', hs', hc', hp', helim⟩ := foldlM_total (f := eliminateBlock)
    (P := fun _ t => t.Counted ∧ t.Placed [] ∧ Eliminates s t)
    (by
      intro b l t ⟨hc, hp, helim⟩
      obtain ⟨t', ht', hc', hp', helim'⟩ := eliminateBlock_spec hc hp b
      exact ⟨t', ht', hc', hp', helim.trans helim'⟩)
    (l := blocks) (s := s) ⟨hc, hp, .refl s⟩
  exact ⟨s', hs', hc', hp', helim⟩

/-! ### Chains of identities -/

/-- The value is an immediate or refers to an instruction other than an identity. -/
def Ended (s : InstStorage) (value : Value) : Prop := ∀ j, value = .inst j → s.op j ≠ .Identity

/-- Every chain of identities ends, so that `Resolve` returns. -/
def ChainsEnd (s : InstStorage) : Prop := ∀ value : Value, value.Below s.size → Ended s (s.resolve value)

variable {value : Value}

theorem resolveFor_of_ended (hvalue : Ended s value) (n : ℕ) : s.resolveFor n value = value := by
  cases n with
  | zero => rfl
  | succ n =>
    cases value with
    | imm payload => rfl
    | inst j => rw [resolveFor, if_neg (hvalue j rfl)]

variable {n m k : ℕ}

theorem resolveFor_mono (hended : Ended s (s.resolveFor n value)) (hle : n ≤ m) :
    s.resolveFor m value = s.resolveFor n value := by
  induction n generalizing m value with
  | zero => exact resolveFor_of_ended hended m
  | succ n ih =>
    cases m with
    | zero => omega
    | succ m =>
      cases value with
      | imm payload => rfl
      | inst j =>
        rw [resolveFor] at hended
        rw [resolveFor, resolveFor]
        split
        next hid =>
          rw [if_pos hid] at hended
          exact ih hended (by omega)
        next => rfl

theorem resolveFor_eq (hn : Ended s (s.resolveFor n value))
    (hm : Ended s (s.resolveFor m value)) : s.resolveFor n value = s.resolveFor m value := by
  rcases Nat.le_total n m with hle | hle
  · exact (resolveFor_mono hn hle).symm
  · exact resolveFor_mono hm hle

theorem closed_of_counted (hc : s.Counted) : s.Closed := by
  intro i hi index j hj
  rw [Inst.rawArg_eq_slots] at hj
  cases hget : (s.insts i).slots[index]? with
  | none =>
    rw [hget] at hj
    cases hj
  | some value =>
    rw [hget] at hj
    cases hj
    exact hc.closed hi (mem_of_getElem? hget)

/-- Slots that are resolved already do not change what anything resolves to. -/
theorem resolve_of_resolved (hclosed : s.Closed) (hends : ChainsEnd s) (hsize : t.size = s.size)
    (hop : ∀ k, t.op k = s.op k)
    (hargs : ∀ k index, (t.insts k).rawArg index = (s.insts k).rawArg index ∨ (t.insts k).rawArg index = s.arg k index) (hv : value.Below s.size) : t.resolve value = s.resolve value := by
  have hfor : ∀ n, ∀ value : Value, value.Below s.size → Ended s (s.resolveFor n value) →
      t.resolveFor n value = s.resolveFor n value := by
    intro n
    induction n with
    | zero => exact fun _ _ _ => rfl
    | succ n ih =>
      intro value hv hended
      cases value with
      | imm payload => rfl
      | inst j =>
        have hj := Value.below_inst.mp hv
        have hraw := hclosed j hj 0
        rw [resolveFor] at hended
        rw [resolveFor, resolveFor, hop j]
        split
        next hid =>
          rw [if_pos hid] at hended
          rcases hargs j 0 with hsame | hresolved
          · rw [hsame]
            exact ih _ hraw hended
          · rw [hresolved]
            have hend : Ended s (s.resolve ((s.insts j).rawArg 0)) := hends _ hraw
            have htend : Ended t (s.arg j 0) := fun k hk => by
              rw [hop k]
              exact hend k hk
            rw [resolveFor_of_ended htend]
            exact resolveFor_eq hend hended
        next => rfl
  change t.resolveFor t.size value = s.resolveFor s.size value
  rw [hsize]
  exact hfor s.size value hv (hends value hv)

theorem resolve_idem (hends : ChainsEnd s) (hv : value.Below s.size) :
    s.resolve (s.resolve value) = s.resolve value :=
  resolveFor_of_ended (hends value hv) s.size

/-! ### Identity removal -/

/-- The predecessors a phi has operands for. -/
def labels (inst : Inst) : List ℕ := inst.phiArgs.map (·.1)

/-- The arguments are resolved, as the storage `s` resolves them, and it is no identity. -/
def Resolved (s t : InstStorage) (k : ℕ) : Prop :=
  (∀ index < (s.insts k).numArgs, (t.insts k).rawArg index = s.arg k index) ∧ s.op k ≠ .Identity ∧ s.op k ≠ .Void

/-- Identity removal under way from the storage `s`. -/
structure Removing (s : InstStorage) (state : InstStorage × List ℕ) : Prop where
  counted : state.1.Counted
  placed : state.1.Placed state.2
  size : state.1.size = s.size
  op : ∀ k, state.1.op k = s.op k
  labels : ∀ k, labels (state.1.insts k) = labels (s.insts k)
  args : ∀ k index, (state.1.insts k).rawArg index = (s.insts k).rawArg index ∨
    (state.1.insts k).rawArg index = s.arg k index
  order : ∀ b, (state.1.blocks b).Sublist (s.blocks b)
  gone : ∀ k, s.Live k → ¬ state.1.Live k → s.op k = .Identity ∨ s.op k = .Void
  pending : ∀ k ∈ state.2, k < s.size ∧ ¬ state.1.Live k

variable {state state' : InstStorage × List ℕ}

theorem Removing.numArgs (h : Removing s state) (k : ℕ) :
    (state.1.insts k).numArgs = (s.insts k).numArgs := by
  have hop : (state.1.insts k).op = (s.insts k).op := h.op k
  have hlen := congrArg List.length (h.labels k)
  rw [Optimization.labels, Optimization.labels, length_map, length_map] at hlen
  rw [Inst.numArgs, Inst.numArgs, hop, hlen]

theorem Removing.arg (h : Removing s state) (hclosed : s.Closed) (hends : ChainsEnd s) (hk : k < s.size) (index : ℕ) : state.1.arg k index = s.arg k index := by
  have hraw := hclosed k hk index
  rcases h.args k index with hsame | hresolved
  · rw [InstStorage.arg, hsame]
    exact resolve_of_resolved hclosed hends h.size h.op h.args hraw
  · rw [InstStorage.arg, hresolved, resolve_of_resolved hclosed hends h.size h.op h.args (arg_below hclosed hk index)]
    exact resolve_idem hends hraw

theorem labels_putArg (inst : Inst) (index : ℕ) (value : Value) : labels (inst.putArg index value) = labels inst := by
  unfold Inst.putArg
  split
  · apply ext_getElem?
    intro k
    simp only [labels, getElem?_map, getElem?_modify]
    by_cases hk : index = k
    · simp [hk, comp_def]
    · simp [hk]
  · rfl

theorem labels_congr {a b : Inst} (h : SameCode a b) : labels a = labels b :=
  congrArg (List.map Prod.fst) h.2.2

/-- One argument of a live instruction is resolved. -/
theorem resolveArg_spec {pending : List ℕ} (hclosed : s.Closed) (hends : ChainsEnd s) (h : Removing s (t, pending))
    (hi : t.Live i) {index : ℕ} {t' : InstStorage} (hstep : resolveArg i t index = .ok t') :
    Removing s (t', pending) ∧ t'.blocks = t.blocks ∧ (∀ k, k ≠ i → SameCode (t'.insts k) (t.insts k)) ∧
      (t'.insts i).rawArg index = s.arg i index ∧
      ∀ other, other ≠ index → (t'.insts i).rawArg other = (t.insts i).rawArg other := by
  have hlt : i < s.size := h.size ▸ h.placed.lt_size hi
  have harg := h.arg hclosed hends hlt index
  unfold resolveArg at hstep
  split at hstep
  next hne =>
    have hnum : index < (t.insts i).numArgs := by
      by_contra hle
      rw [InstStorage.setArg, if_pos (Nat.not_lt.mp hle)] at hstep
      cases hstep
    have hbelow : ∀ j, t.arg i index = .inst j → j < t.size := by
      intro j hj
      have hb := arg_below hclosed hlt index
      rw [← harg, hj] at hb
      exact h.size.symm ▸ Value.below_inst.mp hb
    obtain ⟨hc', hcodes⟩ := h.counted.setArg (h.placed.lt_size hi) hbelow hstep
    have hcode : ∀ k, SameCode (t'.insts k)
        (if k = i then (t.insts k).putArg index (t.arg i index) else t.insts k) := hcodes.code
    have hraw : ∀ k other, (t'.insts k).rawArg other =
        if k = i ∧ other = index then s.arg i index else (t.insts k).rawArg other := by
      intro k other
      rw [(hcode k).rawArg]
      by_cases hki : k = i
      · subst hki
        rw [if_pos rfl, Inst.rawArg_putArg_of_lt _ hnum, harg]
        simp only [true_and]
      · rw [if_neg hki, if_neg fun hcond => hki hcond.1]
    have hblocks : t'.blocks = t.blocks := hcodes.blocks
    refine ⟨⟨hc', h.placed.of_modify hcodes (.inl hi), hcodes.size.trans h.size, fun k => ?_, fun k => ?_,
      fun k other => ?_, ?_, fun k hk hnot => ?_, fun k hk => ?_⟩, hblocks, fun k hk => ?_, ?_, fun other hother => ?_⟩
    · have hop := (hcode k).1
      rw [InstStorage.op, hop]
      split
      · rw [Inst.op_putArg]
        exact h.op k
      · exact h.op k
    · rw [labels_congr (hcode k)]
      split
      · rw [labels_putArg]
        exact h.labels k
      · exact h.labels k
    · rw [hraw]
      split
      next hki =>
        obtain ⟨rfl, rfl⟩ := hki
        exact .inr rfl
      next => exact h.args k other
    · rw [hblocks]
      exact h.order
    · rw [live_of_blocks hblocks] at hnot
      exact h.gone k hk hnot
    · rw [live_of_blocks hblocks]
      exact h.pending k hk
    · have hcode := hcode k
      rwa [if_neg hk] at hcode
    · rw [hraw, if_pos ⟨rfl, rfl⟩]
    · rw [hraw, if_neg fun hcond => hother hcond.2]
  next heq =>
    cases hstep
    refine ⟨h, rfl, fun k _ => .refl _, ?_, fun _ _ => rfl⟩
    exact (not_not.mp heq).trans harg

theorem Resolved.congr {u : InstStorage} (h : Resolved s t k) (hcode : SameCode (u.insts k) (t.insts k)) :
    Resolved s u k := by
  refine ⟨fun index hindex => ?_, h.2⟩
  rw [hcode.rawArg]
  exact h.1 index hindex

/-- The loop over the arguments of a live instruction. -/
theorem resolveArgs_spec {pending : List ℕ} (hclosed : s.Closed) (hends : ChainsEnd s) (h : Removing s (t, pending))
    (hi : t.Live i) {t' : InstStorage} (hloop : (List.range n).foldlM (resolveArg i) t = .ok t') :
    Removing s (t', pending) ∧ t'.blocks = t.blocks ∧ (∀ k, k ≠ i → SameCode (t'.insts k) (t.insts k)) ∧
      ∀ index < n, (t'.insts i).rawArg index = s.arg i index := by
  have hinv := foldlM_partial (f := resolveArg i)
    (P := fun l u => Removing s (u, pending) ∧ u.blocks = t.blocks ∧ (∀ k, k ≠ i → SameCode (u.insts k) (t.insts k)) ∧
      ∀ index < n, index ∉ l → (u.insts i).rawArg index = s.arg i index)
    (by
      intro a l u u' ⟨h, hblocks, hcode, hdone⟩ hstep
      obtain ⟨h', hblocks', hcode', hnew, hold⟩ := resolveArg_spec hclosed hends h ((live_of_blocks hblocks).mpr hi) hstep
      refine ⟨h', hblocks'.trans hblocks, fun k hk => (hcode' k hk).trans (hcode k hk), fun index hindex hl => ?_⟩
      by_cases ha : index = a
      · rw [ha]
        exact hnew
      · rw [hold index ha]
        exact hdone index hindex (not_mem_cons_of_ne_of_not_mem ha hl))
    (l := List.range n) (s := t)
    ⟨h, rfl, fun _ _ => .refl _, fun index hindex hl => absurd (mem_range.mpr hindex) hl⟩ hloop
  obtain ⟨h', hblocks, hcode, hdone⟩ := hinv
  exact ⟨h', hblocks, hcode, fun index hindex => hdone index hindex not_mem_nil⟩

theorem Removing.erase {pending : List ℕ} (h : Removing s (t, pending)) (hi : i ∈ t.blocks block)
    (hop : t.op i = .Identity ∨ t.op i = .Void) : Removing s (t.erase block i, pending ++ [i]) := by
  have hlt : i < s.size := h.size ▸ h.placed.bound block i hi
  have hlive : ∀ k, (t.erase block i).Live k ↔ t.Live k ∧ k ≠ i := fun k => live_erase h.placed hi
  have hpend : i ∈ pending ++ [i] := mem_append_right _ (mem_singleton_self i)
  refine ⟨h.counted.erase block i, h.placed.erase hi (fun k hk => mem_append_left _ hk) (.inl hpend), h.size,
    h.op, h.labels, h.args, fun b => (erase_sublist t block i b).trans (h.order b), fun k hk hnot => ?_, fun k hk => ?_⟩
  · by_cases hki : k = i
    · subst hki
      rw [h.op k] at hop
      exact hop
    · exact h.gone k hk fun ht => hnot ((hlive k).mpr ⟨ht, hki⟩)
  · rw [hlive]
    rcases mem_append.mp hk with hk | hk
    · exact ⟨(h.pending k hk).1, fun ht => (h.pending k hk).2 ht.1⟩
    · rw [mem_singleton.mp hk]
      exact ⟨hlt, fun ht => ht.2 rfl⟩

/-- One instruction of a block: it stays resolved, or it was an identity or invalidated and goes. -/
theorem removeIdentity_spec (hclosed : s.Closed) (hends : ChainsEnd s)
    (h : Removing s state) (hi : i ∈ state.1.blocks block) (hstep : removeIdentity block state i = .ok state') :
    Removing s state' ∧ (∀ b, (state'.1.blocks b).Sublist (state.1.blocks b)) ∧
      (∀ b k, k ≠ i → k ∈ state.1.blocks b → k ∈ state'.1.blocks b) ∧
      (∀ k, k ≠ i → SameCode (state'.1.insts k) (state.1.insts k)) ∧ (state'.1.Live i → Resolved s state'.1 i) := by
  obtain ⟨t, pending⟩ := state
  rw [removeIdentity] at hstep
  cases hloop : (List.range (t.insts i).numArgs).foldlM (resolveArg i) t with
  | error e =>
    rw [hloop] at hstep
    cases hstep
  | ok t₁ =>
    obtain ⟨h₁, hblocks, hcode, hdone⟩ := resolveArgs_spec hclosed hends h ⟨block, hi⟩ hloop
    rw [h.numArgs] at hdone
    have hi₁ : i ∈ t₁.blocks block := hblocks ▸ hi
    rw [hloop] at hstep
    change (if t₁.op i = .Identity ∨ t₁.op i = .Void then _ else _) = Except.ok state' at hstep
    split at hstep
    next hop =>
      cases hstep
      refine ⟨h₁.erase hi₁ hop, fun b => ?_, fun b k hki hk => ?_, hcode, fun hlive => ?_⟩
      · exact hblocks ▸ erase_sublist t₁ block i b
      · apply (mem_erase_blocks h₁.placed hi₁).mpr
        rw [hblocks]
        exact ⟨hk, hki⟩
      · exact absurd rfl ((live_erase h₁.placed hi₁).mp hlive).2
    next hop =>
      cases hstep
      have hop₁ : t₁.op i = s.op i := h₁.op i
      rw [not_or, hop₁] at hop
      refine ⟨h₁, fun b => ?_, fun b k _ hk => ?_, hcode, fun _ => ⟨hdone, hop⟩⟩
      · rw [hblocks]
      · rw [hblocks]
        exact hk

/-- A block: what is live and not due later is resolved. -/
theorem removeIdentities_spec {later : ℕ → Prop} (hclosed : s.Closed) (hends : ChainsEnd s) (h : Removing s state)
    (hdue : ∀ k, state.1.Live k → k ∈ state.1.blocks block ∨ later k ∨ Resolved s state.1 k)
    (hstep : removeIdentities state block = .ok state') :
    Removing s state' ∧ ∀ k, state'.1.Live k → later k ∨ Resolved s state'.1 k := by
  obtain ⟨h', -, -, hdone⟩ := foldlM_partial (f := removeIdentity block)
    (P := fun l u => Removing s u ∧ l.Nodup ∧ (∀ k ∈ l, k ∈ u.1.blocks block) ∧
      ∀ k, u.1.Live k → k ∈ l ∨ later k ∨ Resolved s u.1 k)
    (by
      intro a l u u' ⟨h, hnodup, hmem, hdone⟩ hstep
      rw [nodup_cons] at hnodup
      obtain ⟨h', hsub, hkeep, hcode, hresolved⟩ :=
        removeIdentity_spec hclosed hends h (hmem a mem_cons_self) hstep
      refine ⟨h', hnodup.2, fun k hk => ?_, fun k hlive => ?_⟩
      · exact hkeep block k (fun hka => hnodup.1 (hka ▸ hk)) (hmem k (mem_cons_of_mem a hk))
      · by_cases hka : k = a
        · subst hka
          exact .inr (.inr (hresolved hlive))
        · obtain ⟨b, hb⟩ := hlive
          rcases hdone k ⟨b, (hsub b).subset hb⟩ with hin | hlater | hk
          · exact .inl (mem_of_ne_of_mem hka hin)
          · exact .inr (.inl hlater)
          · exact .inr (.inr (hk.congr (hcode k hka))))
    (l := state.1.blocks block) (s := state) ⟨h, h.placed.nodup block, fun _ hk => hk, hdue⟩ hstep
  exact ⟨h', fun k hlive => (hdone k hlive).resolve_left not_mem_nil⟩

/-- What identity removal leaves of a storage. -/
structure RemovesIdentities (s s' : InstStorage) : Prop where
  size : s'.size = s.size
  order : ∀ b, (s'.blocks b).Sublist (s.blocks b)
  kept : ∀ i, s'.Live i → s'.op i = s.op i ∧ labels (s'.insts i) = labels (s.insts i) ∧ Resolved s s' i
  args : ∀ i, s'.Live i → ∀ index, (s'.insts i).rawArg index = (s.insts i).rawArg index ∨
    (s'.insts i).rawArg index = s.arg i index
  removed : ∀ i, s.Live i → ¬ s'.Live i → s.op i = .Identity ∨ s.op i = .Void

/-- The loop over `to_invalidate` returns and leaves the blocks as they are. -/
theorem invalidatePending_spec {pending : List ℕ} (h : Removing s (t, pending)) :
    ∃ t', pending.foldlM (fun u i => u.invalidate i) t = .ok t' ∧ t'.Counted ∧ t'.Placed [] ∧ t'.size = t.size ∧
      t'.blocks = t.blocks ∧ ∀ k, t.Live k → SameCode (t'.insts k) (t.insts k) := by
  obtain ⟨t', ht', hc', hp', hsize, hblocks, -, hcode⟩ := foldlM_total (f := fun u i => u.invalidate i)
    (P := fun l u => u.Counted ∧ u.Placed l ∧ u.size = t.size ∧ u.blocks = t.blocks ∧
      (∀ k ∈ l, k < s.size ∧ ¬ t.Live k) ∧ ∀ k, t.Live k → SameCode (u.insts k) (t.insts k))
    (by
      intro a l u ⟨hc, hp, hsize, hblocks, hpend, hcode⟩
      obtain ⟨ha, hdead⟩ := hpend a mem_cons_self
      have hlt : a < u.size := by
        rw [hsize, h.size]
        exact ha
      obtain ⟨u', hu', hc', hcodes⟩ := hc.invalidate hlt
      have hcode_a : SameCode (u'.insts a) ((u.insts a).cleared.withOpcode .Void) := by
        have hcode := hcodes.code a
        rwa [insts_modify, if_pos rfl] at hcode
      have hvoid : u'.op a = .Void := by rw [InstStorage.op, hcode_a.1, Inst.op_withOpcode]
      have hzero : (u'.insts a).targets = 0 := by
        rw [hcode_a.targets, Inst.targets_withOpcode (by decide) fun _ => Inst.targets_cleared _, Inst.targets_cleared]
      refine ⟨u', hu', hc', ?_, hcodes.size.trans hsize, hcodes.blocks.trans hblocks,
        fun k hk => hpend k (mem_cons_of_mem a hk), fun k hk => ?_⟩
      · exact (hp.of_modify hcodes (.inr (.inl mem_cons_self))).drop hvoid hzero
      · have hka : k ≠ a := fun hka => hdead (hka ▸ hk)
        have hcode_k := hcodes.code k
        rw [insts_modify, if_neg hka] at hcode_k
        exact hcode_k.trans (hcode k hk))
    (l := pending) (s := t) ⟨h.counted, h.placed, rfl, rfl, h.pending, fun _ _ => .refl _⟩
  exact ⟨t', ht', hc', hp', hsize, hblocks, hcode⟩

/-- Identity removal keeps the accounts; what stays has its arguments resolved, and what goes was an
identity or invalidated. -/
theorem identityRemovalPass_spec (hc : s.Counted) (hp : s.Placed []) (hends : ChainsEnd s) {blocks : List ℕ}
    (hcover : ∀ b, s.blocks b ≠ [] → b ∈ blocks) (hpass : identityRemovalPass s blocks = .ok s') :
    s'.Counted ∧ s'.Placed [] ∧ RemovesIdentities s s' := by
  have hclosed := closed_of_counted hc
  have hstart : Removing s (s, []) :=
    ⟨hc, hp, rfl, fun _ => rfl, fun _ => rfl, fun _ _ => .inl rfl, fun _ => .refl _,
      fun _ hk hnot => absurd hk hnot, fun _ hk => absurd hk not_mem_nil⟩
  rw [identityRemovalPass] at hpass
  cases hwalk : blocks.foldlM removeIdentities (s, []) with
  | error e =>
    rw [hwalk] at hpass
    cases hpass
  | ok state =>
    rw [hwalk] at hpass
    -- an instruction is due in the one block it is in
    obtain ⟨h, hdone⟩ := foldlM_partial (f := removeIdentities)
      (P := fun l u => Removing s u ∧ ∀ k, u.1.Live k → (∃ b ∈ l, k ∈ s.blocks b) ∨ Resolved s u.1 k)
      (by
        intro a l u u' ⟨h, hdone⟩ hstep
        refine removeIdentities_spec hclosed hends h (fun k hlive => ?_) hstep
        rcases hdone k hlive with ⟨b, hb, hk⟩ | hk
        · obtain ⟨c, hc⟩ := hlive
          have hcb := hp.disjoint c b k ((h.order c).subset hc) hk
          rcases mem_cons.mp hb with rfl | hl
          · exact .inl (hcb ▸ hc)
          · exact .inr (.inl ⟨b, hl, hk⟩)
        · exact .inr (.inr hk))
      (l := blocks) (s := (s, []))
      ⟨hstart, fun k hlive => by
        obtain ⟨b, hb⟩ := hlive
        exact .inl ⟨b, hcover b (ne_nil_of_mem hb), hb⟩⟩ hwalk
    obtain ⟨t', ht', hc', hp', hsize, hblocks, hcode⟩ := invalidatePending_spec (t := state.1) h
    change state.2.foldlM (fun t i => t.invalidate i) state.1 = .ok s' at hpass
    obtain rfl : t' = s' := Except.ok.inj (ht'.symm.trans hpass)
    refine ⟨hc', hp', hsize.trans h.size, fun b => hblocks ▸ h.order b, fun i hlive => ?_, fun i hlive index => ?_,
      fun i hlive hnot => ?_⟩
    · rw [live_of_blocks hblocks] at hlive
      have hcode_i := hcode i hlive
      refine ⟨hcode_i.1.trans (h.op i), (labels_congr hcode_i).trans (h.labels i), ?_⟩
      rcases hdone i hlive with ⟨b, hb, -⟩ | hresolved
      · exact absurd hb not_mem_nil
      · exact hresolved.congr hcode_i
    · rw [live_of_blocks hblocks] at hlive
      rw [(hcode i hlive).rawArg]
      exact h.args i index
    · rw [live_of_blocks hblocks] at hnot
      exact h.gone i hlive hnot

end Optimization
end Shader
end Citron
