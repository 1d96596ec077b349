/-
# Use counts and pseudo-operation links

Every slot of an instruction that names another one is a reference to it. `Use` and `UndoUse` keep
the counts and the links to pseudo-operations in step with the references; what the references are
while a mutator runs is given beside the storage.
-/
import Citron.Lib.References
import Citron.ShaderRecompiler.MicroInstructionCode

namespace Citron
namespace Shader
namespace IR

open Lib Function Multiset

/-- What the slots refer to. -/
def targetsOf (values : List Value) : Multiset ℕ := (values.filterMap Value.instIndex : List ℕ)

def Inst.targets (inst : Inst) : Multiset ℕ := targetsOf inst.slots

theorem mem_targetsOf {values : List Value} {j : ℕ} : j ∈ targetsOf values ↔ .inst j ∈ values := by
  rw [targetsOf, mem_coe, List.mem_filterMap]
  constructor
  · intro h
    obtain ⟨value, hmem, hindex⟩ := h
    cases value with
    | imm payload => cases hindex
    | inst i =>
      cases hindex
      exact hmem
  · intro h
    exact ⟨.inst j, h, rfl⟩

@[simp] theorem targetsOf_nil : targetsOf [] = 0 := rfl

@[simp] theorem targetsOf_imm (payload : Imm) (values : List Value) :
    targetsOf (.imm payload :: values) = targetsOf values := rfl

@[simp] theorem targetsOf_inst (i : ℕ) (values : List Value) :
    targetsOf (.inst i :: values) = i ::ₘ targetsOf values := rfl

theorem targetsOf_perm {values values' : List Value} (h : values.Perm values') :
    targetsOf values = targetsOf values' :=
  coe_eq_coe.mpr (h.filterMap _)

namespace InstStorage

/-- The counts and the links are those of the references. -/
structure Accounts (s : InstStorage) (refs : ℕ → Multiset ℕ) : Prop where
  count : ∀ j < s.size, (s.insts j).useCount = referencesTo (Finset.range s.size) refs j
  link : ∀ j < s.size, ∀ l p,
    (s.insts j).pseudo l = some p ↔ p < s.size ∧ (s.op p).pseudoLink = some l ∧ j ∈ refs p
  single : ∀ i < s.size, (s.op i).pseudoLink ≠ none → (refs i).card ≤ 1
  closed : ∀ i < s.size, ∀ j ∈ refs i, j < s.size

variable {s s' : InstStorage} {refs : ℕ → Multiset ℕ} {i j : ℕ}

theorem Accounts.congr {refs' : ℕ → Multiset ℕ} (h : s.Accounts refs) (hrefs : ∀ i < s.size, refs' i = refs i) :
    s.Accounts refs' := by
  refine ⟨fun j hj => ?_, fun j hj l p => ?_, fun i hi hlink => ?_, fun i hi j hj => ?_⟩
  · rw [h.count j hj, referencesTo_congr fun i hi => hrefs i (Finset.mem_range.mp hi)]
  · rw [h.link j hj l p]
    refine and_congr_right fun hp => ?_
    rw [hrefs p hp]
  · rw [hrefs i hi]
    exact h.single i hi hlink
  · rw [hrefs i hi] at hj
    exact h.closed i hi j hj

/-! ### One use more or less -/

/-- What a change of uses by the instruction `i` leaves: the count of `j` and, for a
pseudo-operation, the link from `j`. -/
structure UseChange (s' s : InstStorage) (i j : ℕ) (delta : ℤ) (linked : Option ℕ) : Prop where
  codes : SameCodes s' s
  count : ∀ k, (s'.insts k).useCount = (s.insts k).useCount + if k = j then delta else 0
  pseudo : ∀ k l, (s'.insts k).pseudo l =
    if k = j ∧ (s.op i).pseudoLink = some l then linked else (s.insts k).pseudo l

theorem useChange_plain (hlink : (s.op i).pseudoLink = none) (delta : ℤ) (linked : Option ℕ) :
    UseChange (s.modify j fun inst => { inst with useCount := inst.useCount + delta }) s i j delta linked := by
  refine ⟨sameCodes_modify s j fun a => ⟨rfl, rfl, rfl⟩, fun k => ?_, fun k l => ?_⟩
  · rw [insts_modify]
    split
    · rfl
    · exact (Int.add_zero _).symm
  · rw [if_neg (by simp [hlink]), insts_modify]
    split <;> rfl

theorem useChange_linked {l : PseudoLink} (hlink : (s.op i).pseudoLink = some l) (delta : ℤ) (linked : Option ℕ) :
    UseChange ((s.modify j fun inst => { inst with useCount := inst.useCount + delta }).modify j fun inst =>
      { inst with pseudo := update inst.pseudo l linked }) s i j delta linked := by
  rw [modify_modify]
  refine ⟨sameCodes_modify s j fun a => ⟨rfl, rfl, rfl⟩, fun k => ?_, fun k m => ?_⟩
  · rw [insts_modify]
    split
    · rfl
    · exact (Int.add_zero _).symm
  · rw [insts_modify, hlink]
    by_cases hk : k = j
    · rw [if_pos hk]
      by_cases hm : l = m
      · subst hm
        rw [if_pos ⟨hk, rfl⟩]
        exact update_self _ _ _
      · rw [if_neg fun h => hm (Option.some.inj h.2)]
        exact update_of_ne (Ne.symm hm) _ _
    · rw [if_neg hk, if_neg fun h => hk h.1]

theorem op_counted (s : InstStorage) (i j : ℕ) (delta : ℤ) :
    (s.modify j fun inst => { inst with useCount := inst.useCount + delta }).op i = s.op i := by
  rw [InstStorage.op, insts_modify]
  split <;> rfl

theorem pseudo_counted (s : InstStorage) (i j : ℕ) (delta : ℤ) :
    ((s.modify j fun inst => { inst with useCount := inst.useCount + delta }).insts i).pseudo = (s.insts i).pseudo := by
  rw [insts_modify]
  split <;> rfl

theorem use_spec (huse : s.use i j = .ok s') :
    UseChange s' s i j 1 (some i) ∧ ∀ l, (s.op i).pseudoLink = some l → (s.insts j).pseudo l = none := by
  simp only [use, op_counted, pseudo_counted] at huse
  split at huse
  next hlink =>
    cases huse
    exact ⟨useChange_plain hlink 1 _, fun l hl => absurd (hlink.symm.trans hl) (by simp)⟩
  next l hlink =>
    split at huse
    next => cases huse
    next hnone =>
      cases huse
      refine ⟨useChange_linked hlink 1 _, fun m hm => ?_⟩
      cases hlink.symm.trans hm
      simpa using hnone

theorem undoUse_spec (hlink : ∀ l, (s.op i).pseudoLink = some l → (s.insts j).pseudo l = some i) :
    ∃ s', s.undoUse i j = .ok s' ∧ UseChange s' s i j (-1) none := by
  cases hl : (s.op i).pseudoLink with
  | none =>
    refine ⟨_, ?_, useChange_plain hl (-1) none⟩
    simp only [undoUse, Int.sub_eq_add_neg, op_counted, hl]
  | some l =>
    refine ⟨_, ?_, useChange_linked hl (-1) none⟩
    simp only [undoUse, Int.sub_eq_add_neg, op_counted, hl, pseudo_counted, hlink l hl, if_true]

/-- References that change with the counts and the links stay accounted. -/
theorem Accounts.change (h : s.Accounts refs) {delta : ℤ} {linked : Option ℕ} {m : Multiset ℕ}
    (hchange : UseChange s' s i j delta linked) (hi : i < s.size)
    (hcount : ∀ k, (referencesTo (Finset.range s.size) (update refs i m) k : ℤ) =
      referencesTo (Finset.range s.size) refs k + if k = j then delta else 0)
    (hlinked : ∀ l, (s.op i).pseudoLink = some l → ∀ p, linked = some p ↔
      p < s.size ∧ (s.op p).pseudoLink = some l ∧ j ∈ update refs i m p)
    (hother : ∀ k, k ≠ j → (k ∈ m ↔ k ∈ refs i)) (hsingle : (s.op i).pseudoLink ≠ none → m.card ≤ 1)
    (hclosed : ∀ k ∈ m, k < s.size) : s'.Accounts (update refs i m) := by
  have hsize : s'.size = s.size := hchange.codes.size
  have hop : ∀ k, s'.op k = s.op k := hchange.codes.op
  refine ⟨fun k hk => ?_, fun k hk l p => ?_, fun k hk hlink => ?_, fun k hk t ht => ?_⟩
  · rw [hsize] at hk ⊢
    rw [hchange.count, h.count k hk, hcount]
  · rw [hsize] at hk ⊢
    rw [hchange.pseudo, hop p]
    split
    next hkl =>
      rw [hkl.1]
      exact hlinked l hkl.2 p
    next hkl =>
      rw [h.link k hk l p]
      refine and_congr_right fun hp => and_congr_right fun hlp => ?_
      by_cases hpi : p = i
      · subst hpi
        rw [update_self]
        exact (hother k fun hkj => hkl ⟨hkj, hlp⟩).symm
      · rw [update_of_ne hpi]
  · rw [hop k] at hlink
    by_cases hki : k = i
    · subst hki
      rw [update_self]
      exact hsingle hlink
    · rw [update_of_ne hki]
      exact h.single k (hsize ▸ hk) hlink
  · rw [hsize] at hk ⊢
    by_cases hki : k = i
    · subst hki
      rw [update_self] at ht
      exact hclosed t ht
    · rw [update_of_ne hki] at ht
      exact h.closed k hk t ht

theorem Accounts.use (h : s.Accounts refs) (hi : i < s.size) (hj : j < s.size)
    (hfree : (s.op i).pseudoLink ≠ none → refs i = 0) (huse : s.use i j = .ok s') :
    s'.Accounts (update refs i (j ::ₘ refs i)) := by
  obtain ⟨hchange, hnone⟩ := use_spec huse
  apply h.change hchange hi
  · intro k
    rw [referencesTo_cons (Finset.mem_range.mpr hi)]
    split <;> simp
  · intro l hl p
    constructor
    · intro hp
      cases hp
      refine ⟨hi, hl, ?_⟩
      rw [update_self]
      exact mem_cons_self j _
    · rintro ⟨hp, hlp, hmem⟩
      by_cases hpi : p = i
      · rw [hpi]
      · -- another pseudo-operation of the kind would be linked
        rw [update_of_ne hpi] at hmem
        have hlinked := (h.link j hj l p).mpr ⟨hp, hlp, hmem⟩
        rw [hnone l hl] at hlinked
        cases hlinked
  · intro k hk
    rw [mem_cons]
    exact or_iff_right hk
  · intro hlink
    rw [hfree hlink]
    simp
  · intro k hk
    rw [mem_cons] at hk
    rcases hk with rfl | hk
    · exact hj
    · exact h.closed i hi k hk

theorem Accounts.undoUse (h : s.Accounts refs) (hi : i < s.size) (hmem : j ∈ refs i) :
    ∃ s', s.undoUse i j = .ok s' ∧ s'.Accounts (update refs i ((refs i).erase j)) ∧ SameCodes s' s := by
  have hj := h.closed i hi j hmem
  have hlink : ∀ l, (s.op i).pseudoLink = some l → (s.insts j).pseudo l = some i := fun l hl =>
    (h.link j hj l i).mpr ⟨hi, hl, hmem⟩
  obtain ⟨s', hs', hchange⟩ := undoUse_spec hlink
  refine ⟨s', hs', ?_, hchange.codes⟩
  apply h.change hchange hi
  · intro k
    have herase := referencesTo_erase (Finset.mem_range.mpr hi) hmem k
    split
    next hk =>
      rw [if_pos hk] at herase
      omega
    next hk =>
      rw [if_neg hk] at herase
      omega
  · intro l hl p
    constructor
    · intro hp
      cases hp
    · rintro ⟨hp, hlp, hin⟩
      by_cases hpi : p = i
      · -- a pseudo-operation has one reference only
        subst hpi
        rw [update_self] at hin
        have hcard := h.single p hi (by rw [hl]; simp)
        have hpos := card_pos_iff_exists_mem.mpr ⟨j, hin⟩
        rw [card_erase_of_mem hmem, Nat.pred_eq_sub_one] at hpos
        omega
      · rw [update_of_ne hpi] at hin
        have hp' := (h.link j hj l p).mpr ⟨hp, hlp, hin⟩
        exact absurd (Option.some.inj (hp'.symm.trans (hlink l hl))) hpi
  · intro k hk
    exact mem_erase_of_ne hk
  · intro hl
    exact Nat.le_trans (card_le_card (erase_le j _)) (h.single i hi hl)
  · intro k hk
    exact h.closed i hi k (mem_of_mem_erase hk)

/-! ### Values -/

theorem Accounts.undoUseValue (h : s.Accounts refs) (hi : i < s.size) {value : Value} {rest : Multiset ℕ}
    (hrefs : refs i = targetsOf [value] + rest) :
    ∃ s', s.undoUseValue i value = .ok s' ∧ s'.Accounts (update refs i rest) ∧ SameCodes s' s := by
  cases value with
  | imm payload =>
    refine ⟨s, rfl, ?_, .refl s⟩
    have hrest : rest = refs i := by simpa using hrefs.symm
    rw [hrest, update_eq_self]
    exact h
  | inst j =>
    have hcons : refs i = j ::ₘ rest := by simpa using hrefs
    obtain ⟨s', hs', haccounts, hcodes⟩ := h.undoUse hi (hcons ▸ mem_cons_self j rest)
    rw [hcons, erase_cons_head] at haccounts
    exact ⟨s', hs', haccounts, hcodes⟩

theorem Accounts.useValue (h : s.Accounts refs) (hi : i < s.size) {value : Value} (hv : ∀ j, value = .inst j → j < s.size)
    (hfree : (s.op i).pseudoLink ≠ none → refs i = 0) (huse : s.useValue i value = .ok s') :
    s'.Accounts (update refs i (targetsOf [value] + refs i)) ∧ SameCodes s' s := by
  cases value with
  | imm payload =>
    cases huse
    refine ⟨?_, .refl _⟩
    rw [targetsOf_imm, targetsOf_nil, zero_add, update_eq_self]
    exact h
  | inst j =>
    refine ⟨?_, (use_spec huse).1.codes⟩
    rw [targetsOf_inst, targetsOf_nil, cons_add, zero_add]
    exact h.use hi (hv j rfl) hfree huse

theorem Accounts.undoUses (h : s.Accounts refs) (hi : i < s.size) {values : List Value}
    (hrefs : refs i = targetsOf values) :
    ∃ s', s.undoUses i values = .ok s' ∧ s'.Accounts (update refs i 0) ∧ SameCodes s' s := by
  induction values generalizing s refs with
  | nil =>
    refine ⟨s, rfl, ?_, .refl s⟩
    have hzero : refs i = 0 := hrefs
    rw [← hzero, update_eq_self]
    exact h
  | cons value values ih =>
    have hsplit : refs i = targetsOf [value] + targetsOf values := by
      rw [hrefs]
      cases value with
      | imm payload => simp
      | inst j => simp
    obtain ⟨s₁, hs₁, haccounts₁, hcodes₁⟩ := h.undoUseValue hi hsplit
    have hi₁ : i < s₁.size := by
      rw [hcodes₁.size]
      exact hi
    obtain ⟨s₂, hs₂, haccounts₂, hcodes₂⟩ := ih haccounts₁ hi₁ (update_self _ _ _)
    refine ⟨s₂, ?_, ?_, hcodes₂.trans hcodes₁⟩
    · rw [InstStorage.undoUses, List.foldlM_cons, hs₁]
      exact hs₂
    · rwa [update_idem] at haccounts₂

/-- Counts and links do not depend on the arguments. -/
theorem Accounts.modify (h : s.Accounts refs) (i : ℕ) {f : Inst → Inst}
    (hcount : (f (s.insts i)).useCount = (s.insts i).useCount) (hpseudo : (f (s.insts i)).pseudo = (s.insts i).pseudo)
    (hop : (f (s.insts i)).op.pseudoLink = (s.op i).pseudoLink ∨ refs i = 0) : (s.modify i f).Accounts refs := by
  have hcount' : ∀ k, ((s.modify i f).insts k).useCount = (s.insts k).useCount := by
    intro k
    rw [insts_modify]
    split
    next hk => rw [hk, hcount]
    next => rfl
  have hpseudo' : ∀ k, ((s.modify i f).insts k).pseudo = (s.insts k).pseudo := by
    intro k
    rw [insts_modify]
    split
    next hk => rw [hk, hpseudo]
    next => rfl
  have hop' : ∀ k, ((s.modify i f).op k).pseudoLink = (s.op k).pseudoLink ∨ refs k = 0 := by
    intro k
    rw [InstStorage.op, insts_modify]
    split
    next hk => exact hk ▸ hop
    next => exact .inl rfl
  refine ⟨fun k hk => ?_, fun k hk l p => ?_, fun k hk hlink => ?_, h.closed⟩
  · rw [hcount']
    exact h.count k hk
  · rw [hpseudo', h.link k hk l p]
    refine and_congr_right fun _ => ?_
    rcases hop' p with hsame | hzero
    · rw [hsame]
    · simp [hzero]
  · rcases hop' k with hsame | hzero
    · exact h.single k hk (hsame ▸ hlink)
    · simp [hzero]

end InstStorage
end IR
end Shader
end Citron
