/-
# The folds keep the values

Each structural fold but one leaves a storage in which every instruction has the result it had. The
subtraction of a sum from a constant buffer read is the exception.
-/
import Citron.ShaderRecompiler.ConstantPropagation
import Citron.ShaderRecompiler.Valuation

namespace Citron
namespace Shader
namespace Optimization

open IR InstStorage Option Immediate

variable {cbuf : BitVec 32 → BitVec 32 → BitVec 32} {s : InstStorage} {ρ : Valuation} {i : ℕ}

/-- The fold returns a storage that keeps the values. -/
def FoldsSoundly (cbuf : BitVec 32 → BitVec 32 → BitVec 32) (s : InstStorage) (ρ : Valuation)
    (result : Except Exception InstStorage) : Prop :=
  ∃ s', result = .ok s' ∧ s.size ≤ s'.size ∧ s'.Closed ∧ s'.KeepsValues cbuf s ρ

theorem foldsSoundly_self (hs : s.Closed) (h : s.Models cbuf ρ) : FoldsSoundly cbuf s ρ (.ok s) :=
  ⟨s, rfl, Nat.le_refl _, hs, ρ, fun _ _ => rfl, h⟩

/-! ### Replacing an instruction -/

variable (cbuf ρ) in
theorem replaceUsesWith_spec (hs : s.Closed) (hlink : (s.op i).pseudoLink = none) {value : Value}
    (hv : value.Below s.size) :
    ∃ s', s.replaceUsesWith i value = .ok s' ∧ s'.size = s.size ∧ s'.Closed ∧
      (s.Models cbuf ρ → value.denote ρ = ρ i → s'.Models cbuf ρ) ∧
      (i < s.size → ∀ ρ', s'.Models cbuf ρ' → ρ' i = value.denote ρ') := by
  obtain ⟨s', hs', hcodes⟩ := replaceUsesWith_ok hlink value
  have hcode := code_of_eq hcodes
  refine ⟨s', hs', hcodes.size, ?_, ?_, ?_⟩
  · apply closed_of_modify hcodes hs
    intro index
    rw [Inst.rawArg_identityTo]
    split
    · exact hv
    · exact Value.below_imm _ _
  · intro h hval
    apply models_of_modify hcodes h
    change ρ i = (((s.insts i).identityTo value).rawArg 0).denote ρ
    rw [Inst.rawArg_identityTo]
    exact hval.symm
  · intro hi ρ' h'
    have hc := h' i (by rw [hcodes.size]; exact hi)
    rw [InstStorage.op, hcode.1] at hc
    change ρ' i = ((s'.insts i).rawArg 0).denote ρ' at hc
    rwa [hcode.rawArg, Inst.rawArg_identityTo] at hc

theorem replaceUsesWith_sound (hs : s.Closed) (h : s.Models cbuf ρ) (hlink : (s.op i).pseudoLink = none)
    {value : Value} (hv : value.Below s.size) (hval : value.denote ρ = ρ i) :
    FoldsSoundly cbuf s ρ (s.replaceUsesWith i value) := by
  obtain ⟨s', hs', hsize, hclosed, hmodels, -⟩ := replaceUsesWith_spec cbuf ρ hs hlink hv
  exact ⟨s', hs', Nat.le_of_eq hsize.symm, hclosed, ρ, fun _ _ => rfl, hmodels h hval⟩

/-- Both arguments of a two-argument instruction set anew. -/
theorem setArgs_spec (hs : s.Closed) (hi : i < s.size) (hlink : (s.op i).pseudoLink = none) (hphi : s.op i ≠ .Phi)
    (hnum : (s.op i).numArgs = 2) {a b : Value} (ha : a.Below s.size) (hb : b.Below s.size) :
    ∃ s₁ s₂, s.setArg i 0 a = .ok s₁ ∧ s₁.setArg i 1 b = .ok s₂ ∧ s₂.size = s.size ∧ s₂.op i = s.op i ∧
      s₂.Closed ∧
      (s.Models cbuf ρ →
        (∀ arg : ℕ → Datum, arg 0 = a.denote ρ → arg 1 = b.denote ρ → Computes cbuf (s.op i) arg (ρ i)) →
        s₂.Models cbuf ρ) := by
  obtain ⟨s₁, s₂, hs₁, hs₂, hcodes⟩ := setArgs_ok hlink hphi hnum a b
  have hraw : ∀ index, (((s.insts i).putArg 0 a).putArg 1 b).rawArg index =
      if index = 1 then b else if index = 0 then a else (s.insts i).rawArg index := by
    intro index
    rw [Inst.rawArg_putArg (by rw [Inst.op_putArg]; exact hphi) (by decide), Inst.rawArg_putArg hphi (by decide)]
  have hop : (((s.insts i).putArg 0 a).putArg 1 b).op = s.op i := by
    rw [Inst.op_putArg, Inst.op_putArg]
    rfl
  refine ⟨s₁, s₂, hs₁, hs₂, hcodes.size, (code_of_eq hcodes).1.trans hop, ?_, ?_⟩
  · apply closed_of_modify hcodes hs
    intro index
    rw [hraw]
    split
    · exact hb
    · split
      · exact ha
      · exact hs i hi index
  · intro h hcomputes
    apply models_of_modify hcodes h
    rw [hop]
    apply hcomputes
    · rw [hraw]
      rfl
    · rw [hraw]
      rfl

/-! ### Commutative operations -/

theorem argOf_imm {T : Type} [Immediate T] {value : Value} {x : T} (himm : value.isImmediate = true)
    (hx : value.denote ρ = .scalar (make x)) : argOf T value = x := by
  cases value with
  | inst j => cases himm
  | imm payload =>
    cases hx
    exact get_make x

/-- The opcode computes the function from its two arguments. -/
def ComputesFn {T : Type} [Immediate T] (cbuf : BitVec 32 → BitVec 32 → BitVec 32) (opcode : Opcode)
    (fn : T → T → T) : Prop :=
  ∀ arg result, Computes cbuf opcode arg result ↔
    ∃ a b, arg 0 = .scalar (make a) ∧ arg 1 = .scalar (make b) ∧
      result = .scalar (make (fn a b))

theorem make_inj {T : Type} [Immediate T] {a b : T}
    (h : Datum.scalar (make a) = Datum.scalar (make b)) : a = b := by
  injection h with hmake
  rw [← get_make a, hmake, get_make]

section Commutative

variable {T : Type} [Immediate T] {fn : T → T → T} (hs : s.Closed) (h : s.Models cbuf ρ) (hi : i < s.size)
  (hlink : (s.op i).pseudoLink = none) (hphi : s.op i ≠ .Phi) (hnum : (s.op i).numArgs = 2)
  (hfn : ComputesFn cbuf (s.op i) fn)
include hs h hi hlink hphi hnum hfn

/-- New arguments that combine to the same result. -/
theorem setArgs_commutative {a b : Value} (ha : a.Below s.size) (hb : b.Below s.size) {x y : T}
    (hx : a.denote ρ = .scalar (make x)) (hy : b.denote ρ = .scalar (make y))
    (hxy : ρ i = .scalar (make (fn x y))) :
    ∃ s₁ s₂, s.setArg i 0 a = .ok s₁ ∧ s₁.setArg i 1 b = .ok s₂ ∧ s₂.size = s.size ∧ s₂.op i = s.op i ∧
      s₂.Closed ∧ s₂.Models cbuf ρ := by
  obtain ⟨s₁, s₂, hs₁, hs₂, hsize, hop, hclosed, hmodels⟩ := setArgs_spec hs hi hlink hphi hnum ha hb
  refine ⟨s₁, s₂, hs₁, hs₂, hsize, hop, hclosed, hmodels h ?_⟩
  intro arg h0 h1
  exact (hfn arg (ρ i)).mpr ⟨x, y, h0.trans hx, h1.trans hy, hxy⟩

omit hlink hphi hnum in
/-- An operand that is the same operation on some value and a constant. -/
theorem inner_spec {index r : ℕ} (hr : s.arg i index = .inst r) (hop : s.op r = s.op i) {b : T}
    (hb : (s.arg i index).denote ρ = .scalar (make b)) :
    r < s.size ∧ ∃ c d, (s.arg r 0).denote ρ = .scalar (make c) ∧
      (s.arg r 1).denote ρ = .scalar (make d) ∧ b = fn c d := by
  have hlt : r < s.size := by
    have hbelow := arg_below hs hi index
    rw [hr] at hbelow
    exact Value.below_inst.mp hbelow
  have hcomputes := h.computes hs hlt
  rw [hop] at hcomputes
  obtain ⟨c, d, hc, hd, hcd⟩ := (hfn _ _).mp hcomputes
  rw [hr] at hb
  exact ⟨hlt, c, d, hc, hd, make_inj (hb.symm.trans hcd)⟩

theorem foldCommutative_spec (hcomm : ∀ a b, fn a b = fn b a) (hassoc : ∀ a b c, fn (fn a b) c = fn a (fn b c)) :
    ∃ s' folds, foldCommutative s i fn = .ok (s', folds) ∧ s'.size = s.size ∧ s'.Closed ∧ s'.Models cbuf ρ ∧
      (folds = true → s'.op i = s.op i) := by
  obtain ⟨a, b, ha, hb, hab⟩ := (hfn _ _).mp (h.computes hs hi)
  have hlhs := arg_below hs hi 0
  have hrhs := arg_below hs hi 1
  cases hl : s.arg i 0 with
  | imm l =>
    have hal : argOf T (.imm l) = a := argOf_imm rfl (hl ▸ ha)
    cases hr : s.arg i 1 with
    | imm r =>
      have hbr : argOf T (.imm r) = b := argOf_imm rfl (hr ▸ hb)
      obtain ⟨s', hs', hsize, hclosed, hmodels, -⟩ :=
        replaceUsesWith_spec cbuf ρ hs hlink (Value.below_imm _ (make (fn a b)))
      refine ⟨s', false, ?_, hsize, hclosed, hmodels h hab.symm, fun hfalse => absurd hfalse (by decide)⟩
      simp only [foldCommutative, hl, hr, hal, hbr, immediate, hs']
      rfl
    | inst r =>
      by_cases hinner : s.op r = s.op i ∧ (s.arg r 1).isImmediate = true
      · obtain ⟨hlt, c, d, hc, hd, hbcd⟩ := inner_spec hs h hi hfn hr hinner.1 hb
        have hdr : argOf T (s.arg r 1) = d := argOf_imm hinner.2 hd
        have hval : fn a b = fn c (fn a d) := by
          rw [hbcd, ← hassoc, hcomm a c, hassoc]
        obtain ⟨s₁, s₂, hs₁, hs₂, hsize, hop, hclosed, hmodels⟩ :=
          setArgs_commutative hs h hi hlink hphi hnum hfn (arg_below hs hlt 0)
            (Value.below_imm _ (make (fn a d))) hc rfl (hval ▸ hab)
        refine ⟨s₂, true, ?_, hsize, hclosed, hmodels, fun _ => hop⟩
        simp only [foldCommutative, hl, hr, if_pos hinner, hal, hdr, immediate]
        rw [hs₁]
        change (s₁.setArg i 1 _ >>= _) = _
        rw [hs₂]
        rfl
      · obtain ⟨s₁, s₂, hs₁, hs₂, hsize, hop, hclosed, hmodels⟩ :=
          setArgs_commutative hs h hi hlink hphi hnum hfn hrhs hlhs hb ha (hcomm a b ▸ hab)
        refine ⟨s₂, true, ?_, hsize, hclosed, hmodels, fun _ => hop⟩
        simp only [foldCommutative, hl, hr, if_neg hinner]
        rw [hr] at hs₁
        rw [hl] at hs₂
        rw [hs₁]
        change (s₁.setArg i 1 _ >>= _) = _
        rw [hs₂]
        rfl
  | inst l =>
    cases hr : s.arg i 1 with
    | imm r =>
      have hbr : argOf T (.imm r) = b := argOf_imm rfl (hr ▸ hb)
      by_cases hinner : s.op l = s.op i ∧ (s.arg l 1).isImmediate = true
      · obtain ⟨hlt, c, d, hc, hd, hacd⟩ := inner_spec hs h hi hfn hl hinner.1 ha
        have hdl : argOf T (s.arg l 1) = d := argOf_imm hinner.2 hd
        have hval : fn a b = fn c (fn b d) := by
          rw [hacd, hassoc, hcomm d b]
        obtain ⟨s₁, s₂, hs₁, hs₂, hsize, hop, hclosed, hmodels⟩ :=
          setArgs_commutative hs h hi hlink hphi hnum hfn (arg_below hs hlt 0)
            (Value.below_imm _ (make (fn b d))) hc rfl (hval ▸ hab)
        refine ⟨s₂, true, ?_, hsize, hclosed, hmodels, fun _ => hop⟩
        simp only [foldCommutative, hl, hr, if_pos hinner, hbr, hdl, immediate]
        rw [hs₁]
        change (s₁.setArg i 1 _ >>= _) = _
        rw [hs₂]
        rfl
      · refine ⟨s, true, ?_, rfl, hs, h, fun _ => rfl⟩
        simp only [foldCommutative, hl, hr, if_neg hinner]
        rfl
    | inst r =>
      refine ⟨s, true, ?_, rfl, hs, h, fun _ => rfl⟩
      simp only [foldCommutative, hl, hr]
      rfl

end Commutative

/-! ### Logic -/

theorem computesFn_of_eq {T : Type} [Immediate T] {opcode opcode' : Opcode} {fn : T → T → T} (hop : opcode = opcode')
    (h : ComputesFn cbuf opcode' fn) : ComputesFn cbuf opcode fn := hop ▸ h

theorem computesFn_logicalAnd : ComputesFn cbuf .LogicalAnd (fun a b : Bool => a && b) := fun _ _ => Iff.rfl

theorem computesFn_logicalOr : ComputesFn cbuf .LogicalOr (fun a b : Bool => a || b) := fun _ _ => Iff.rfl

theorem computesFn_iAdd32 : ComputesFn cbuf .IAdd32 (fun a b : BitVec 32 => a + b) := fun _ _ => Iff.rfl

theorem computesFn_iAdd64 : ComputesFn cbuf .IAdd64 (fun a b : BitVec 64 => a + b) := fun _ _ => Iff.rfl

/-- A fold of a storage of the same size that keeps the values may go first. -/
theorem FoldsSoundly.of_size {s₁ : InstStorage} {result : Except Exception InstStorage} (hsize : s₁.size = s.size)
    (h : FoldsSoundly cbuf s₁ ρ result) : FoldsSoundly cbuf s ρ result := by
  obtain ⟨s', hs', hle, hclosed, ρ', hagree, hmodels⟩ := h
  rw [hsize] at hle hagree
  exact ⟨s', hs', hle, hclosed, ρ', hagree, hmodels⟩

theorem foldLogicalAnd_sound (hs : s.Closed) (h : s.Models cbuf ρ) (hi : i < s.size) (hop : s.op i = .LogicalAnd) :
    FoldsSoundly cbuf s ρ (foldLogicalAnd s i) := by
  obtain ⟨s₁, folds, hfold, hsize, hclosed, hmodels, hop₁⟩ :=
    foldCommutative_spec hs h hi (by rw [hop]; rfl) (by rw [hop]; decide) (by rw [hop]; rfl)
      (computesFn_of_eq hop computesFn_logicalAnd) Bool.and_comm Bool.and_assoc
  apply FoldsSoundly.of_size hsize
  rw [foldLogicalAnd, hfold]
  cases folds with
  | false => exact foldsSoundly_self hclosed hmodels
  | true =>
    have hi₁ : i < s₁.size := hsize ▸ hi
    have hop' : s₁.op i = .LogicalAnd := (hop₁ rfl).trans hop
    obtain ⟨a, b, ha, hb, hab⟩ : ∃ a b, (s₁.arg i 0).denote ρ = .u1 a ∧ (s₁.arg i 1).denote ρ = .u1 b ∧
        ρ i = .u1 (a && b) := hmodels.computes_op hclosed hi₁ hop'
    change FoldsSoundly cbuf s₁ ρ (if (s₁.arg i 1).isImmediate = true then
      if argOf Bool (s₁.arg i 1) = true then s₁.replaceUsesWith i (s₁.arg i 0)
      else s₁.replaceUsesWith i (immediate false) else .ok s₁)
    split
    next himm =>
      rw [argOf_imm himm hb]
      cases b with
      | true =>
        apply replaceUsesWith_sound hclosed hmodels (by rw [hop']; rfl) (arg_below hclosed hi₁ 0)
        rw [ha, hab, Bool.and_true]
      | false =>
        apply replaceUsesWith_sound hclosed hmodels (by rw [hop']; rfl) (Value.below_imm _ _)
        rw [hab, Bool.and_false]
        rfl
    next => exact foldsSoundly_self hclosed hmodels

theorem foldLogicalOr_sound (hs : s.Closed) (h : s.Models cbuf ρ) (hi : i < s.size) (hop : s.op i = .LogicalOr) :
    FoldsSoundly cbuf s ρ (foldLogicalOr s i) := by
  obtain ⟨s₁, folds, hfold, hsize, hclosed, hmodels, hop₁⟩ :=
    foldCommutative_spec hs h hi (by rw [hop]; rfl) (by rw [hop]; decide) (by rw [hop]; rfl)
      (computesFn_of_eq hop computesFn_logicalOr) Bool.or_comm Bool.or_assoc
  apply FoldsSoundly.of_size hsize
  rw [foldLogicalOr, hfold]
  cases folds with
  | false => exact foldsSoundly_self hclosed hmodels
  | true =>
    have hi₁ : i < s₁.size := hsize ▸ hi
    have hop' : s₁.op i = .LogicalOr := (hop₁ rfl).trans hop
    obtain ⟨a, b, ha, hb, hab⟩ : ∃ a b, (s₁.arg i 0).denote ρ = .u1 a ∧ (s₁.arg i 1).denote ρ = .u1 b ∧
        ρ i = .u1 (a || b) := hmodels.computes_op hclosed hi₁ hop'
    change FoldsSoundly cbuf s₁ ρ (if (s₁.arg i 1).isImmediate = true then
      if argOf Bool (s₁.arg i 1) = true then s₁.replaceUsesWith i (immediate true)
      else s₁.replaceUsesWith i (s₁.arg i 0) else .ok s₁)
    split
    next himm =>
      rw [argOf_imm himm hb]
      cases b with
      | true =>
        apply replaceUsesWith_sound hclosed hmodels (by rw [hop']; rfl) (Value.below_imm _ _)
        rw [hab, Bool.or_true]
        rfl
      | false =>
        apply replaceUsesWith_sound hclosed hmodels (by rw [hop']; rfl) (arg_below hclosed hi₁ 0)
        rw [ha, hab, Bool.or_false]
    next => exact foldsSoundly_self hclosed hmodels

theorem inst_of_arg (hs : s.Closed) (hi : i < s.size) {index j : ℕ} (harg : s.arg i index = .inst j) :
    j < s.size := by
  have hbelow := arg_below hs hi index
  rw [harg] at hbelow
  exact Value.below_inst.mp hbelow

theorem foldLogicalNot_sound (hs : s.Closed) (h : s.Models cbuf ρ) (hi : i < s.size) (hop : s.op i = .LogicalNot) :
    FoldsSoundly cbuf s ρ (foldLogicalNot s i) := by
  obtain ⟨a, ha, hres⟩ : ∃ a, (s.arg i 0).denote ρ = .u1 a ∧ ρ i = .u1 (!a) := h.computes_op hs hi hop
  unfold foldLogicalNot
  cases harg : s.arg i 0 with
  | imm payload =>
    rw [harg] at ha
    have ha' : argOf Bool (.imm payload) = a := argOf_imm rfl ha
    apply replaceUsesWith_sound hs h (by rw [hop]; rfl) (Value.below_imm _ _)
    rw [ha', hres]
    rfl
  | inst j =>
    have hj := inst_of_arg hs hi harg
    change FoldsSoundly cbuf s ρ (if s.op j = .LogicalNot then s.replaceUsesWith i (s.arg j 0) else .ok s)
    split
    next hnot =>
      obtain ⟨b, hb, hinner⟩ : ∃ b, (s.arg j 0).denote ρ = .u1 b ∧ ρ j = .u1 (!b) := h.computes_op hs hj hnot
      rw [harg] at ha
      have hab : a = !b := make_inj (ha.symm.trans hinner)
      apply replaceUsesWith_sound hs h (by rw [hop]; rfl) (arg_below hs hj 0)
      rw [hb, hres, hab, Bool.not_not]
    next => exact foldsSoundly_self hs h

theorem foldSelect_sound (hs : s.Closed) (h : s.Models cbuf ρ) (hi : i < s.size) {element : Element}
    (hop : s.op i = .Select element) : FoldsSoundly cbuf s ρ (foldSelect s i) := by
  obtain ⟨condition, hcond, hres⟩ : ∃ condition, (s.arg i 0).denote ρ = .u1 condition ∧
      ρ i = if condition then (s.arg i 1).denote ρ else (s.arg i 2).denote ρ := h.computes_op hs hi hop
  change FoldsSoundly cbuf s ρ (if (s.arg i 0).isImmediate = true then
    s.replaceUsesWith i (if argOf Bool (s.arg i 0) = true then s.arg i 1 else s.arg i 2) else .ok s)
  split
  next himm =>
    rw [argOf_imm himm hcond]
    cases condition with
    | true => exact replaceUsesWith_sound hs h (by rw [hop]; rfl) (arg_below hs hi 1) hres.symm
    | false => exact replaceUsesWith_sound hs h (by rw [hop]; rfl) (arg_below hs hi 2) hres.symm
  next => exact foldsSoundly_self hs h

/-! ### Composites -/

/-- What the extraction finds is the element of the composite. -/
theorem foldCompositeExtractFor_spec (hs : s.Closed) (h : s.Models cbuf ρ) {element : Element} {size : Fin 5}
    {firstIndex : BitVec 32} {n : ℕ} {value result : Value} (hv : value.Below s.size)
    (hfold : foldCompositeExtractFor s (.CompositeInsert element size) (.CompositeConstruct element size) firstIndex
      n value = some result)
    {elements : List Imm} (helements : value.denote ρ = .composite elements) {x : Imm}
    (hx : elements[firstIndex.toNat]? = some x) :
    result.Below s.size ∧ result.denote ρ = .scalar x := by
  induction n generalizing value elements with
  | zero => cases hfold
  | succ n ih =>
    rw [foldCompositeExtractFor, bind_eq_bind, bind_eq_some_iff] at hfold
    obtain ⟨j, hget, hfold⟩ := hfold
    obtain ⟨hj, hval⟩ := get_spec hs h hv hget
    rw [hval] at helements
    split at hfold
    next hconstruct =>
      obtain ⟨built, hlength, hargs, hbuilt⟩ : ∃ built : List Imm, built.length = size.val ∧
          (∀ k x, built[k]? = some x → (s.arg j k).denote ρ = .scalar x) ∧ ρ j = .composite built :=
        h.computes_op hs hj hconstruct
      rw [hbuilt] at helements
      cases helements
      cases hfold
      exact ⟨arg_below hs hj _, hargs _ _ hx⟩
    next =>
      obtain ⟨_, hinsert, hfold⟩ := bind_eq_some_iff.mp hfold
      rw [guard_eq_some'] at hinsert
      obtain ⟨base, y, index, hbase, hy, hindex, hlt, hset⟩ : ∃ (base : List Imm) (y : Imm) (index : BitVec 32),
          (s.arg j 0).denote ρ = .composite base ∧ (s.arg j 1).denote ρ = .scalar y ∧
            (s.arg j 2).denote ρ = .u32 index ∧ index.toNat < base.length ∧
              ρ j = .composite (base.set index.toNat y) := h.computes_op hs hj hinsert
      obtain ⟨_, himm, hfold⟩ := bind_eq_some_iff.mp hfold
      rw [guard_eq_some'] at himm
      rw [argOf_imm himm hindex] at hfold
      rw [hset] at helements
      cases helements
      split at hfold
      next hne =>
        obtain ⟨_, -, hfold⟩ := bind_eq_some_iff.mp hfold
        have hne' : index.toNat ≠ firstIndex.toNat := fun heq => hne (BitVec.eq_of_toNat_eq heq.symm)
        rw [List.getElem?_set_ne hne'] at hx
        exact ih (arg_below hs hj 0) hfold hbase hx
      next heq =>
        have heq' : firstIndex = index := not_not.mp heq
        cases hfold
        rw [heq', List.getElem?_set_self hlt] at hx
        cases hx
        exact ⟨arg_below hs hj 1, hy⟩

theorem foldCompositeExtractFor_imm {insert construct : Opcode} {firstIndex : BitVec 32} (n : ℕ) (payload : Imm) :
    foldCompositeExtractFor s insert construct firstIndex n (.imm payload) = none := by
  cases n with
  | zero => rfl
  | succ n =>
    have hget : s.get (.imm payload) = none := by
      rw [InstStorage.get, resolve_imm]
      rfl
    simp [foldCompositeExtractFor, hget]

/-- Insertions enough to look through give the one result: the extraction ends by itself. -/
theorem foldCompositeExtractFor_enough {position : ℕ → ℕ} (ho : s.Ordered position) (hs : s.Closed)
    {insert construct : Opcode} (hinsert : insert ≠ .Phi) {firstIndex : BitVec 32} {n m : ℕ} {value : Value}
    (hv : value.Below s.size) (hn : ∀ j, value = .inst j → position j < n)
    (hm : ∀ j, value = .inst j → position j < m) :
    foldCompositeExtractFor s insert construct firstIndex n value =
      foldCompositeExtractFor s insert construct firstIndex m value := by
  induction n generalizing m value with
  | zero =>
    cases value with
    | imm payload => rw [foldCompositeExtractFor_imm, foldCompositeExtractFor_imm]
    | inst i => exact absurd (hn i rfl) (Nat.not_lt_zero _)
  | succ n ih =>
    cases value with
    | imm payload => rw [foldCompositeExtractFor_imm, foldCompositeExtractFor_imm]
    | inst i =>
      cases m with
      | zero => exact absurd (hm i rfl) (Nat.not_lt_zero _)
      | succ m =>
        have hi := Value.below_inst.mp hv
        have hin := hn i rfl
        have him := hm i rfl
        cases hget : s.get (.inst i) with
        | none => simp [foldCompositeExtractFor, hget]
        | some j =>
          have hres : s.resolveFor s.size (.inst i) = .inst j := instIndex_eq_some hget
          have hj : j < s.size := by
            have hbelow := resolveFor_below hs s.size hv
            rw [hres] at hbelow
            exact Value.below_inst.mp hbelow
          have hle : position j ≤ position i := resolveFor_position ho hs hi hres
          by_cases hop : s.op j = insert
          · -- the composite the value is inserted in comes earlier
            have hlt : ∀ k, s.arg j 0 = .inst k → position k < position j := fun k hk =>
              arg_position ho hs hj (hop ▸ hinsert) hk
            have hrec := ih (m := m) (arg_below hs hj 0) (fun k hk => by have := hlt k hk; omega)
              (fun k hk => by have := hlt k hk; omega)
            simp only [foldCompositeExtractFor, hget, bind_eq_bind, Option.bind_some, hrec]
          · simp [foldCompositeExtractFor, hget, hop]

theorem foldCompositeExtract_sound (hs : s.Closed) (h : s.Models cbuf ρ) (hi : i < s.size) {element : Element}
    {size : Fin 5} (hop : s.op i = .CompositeExtract element size) :
    FoldsSoundly cbuf s ρ
      (foldCompositeExtract s i (.CompositeConstruct element size) (.CompositeInsert element size)) := by
  obtain ⟨elements, index, x, hcomposite, hindex, hx, hres⟩ : ∃ (elements : List Imm) (index : BitVec 32) (x : Imm),
      (s.arg i 0).denote ρ = .composite elements ∧ (s.arg i 1).denote ρ = .u32 index ∧
        elements[index.toNat]? = some x ∧ ρ i = .scalar x := h.computes_op hs hi hop
  simp only [foldCompositeExtract]
  split
  next => exact foldsSoundly_self hs h
  next himm =>
    simp only [not_or, Bool.not_eq_true, Bool.not_eq_false'] at himm
    rw [argOf_imm himm.2 hindex]
    split
    next => exact foldsSoundly_self hs h
    next result hfold =>
      obtain ⟨hbelow, hval⟩ := foldCompositeExtractFor_spec hs h (arg_below hs hi 0) hfold hcomposite hx
      exact replaceUsesWith_sound hs h (by rw [hop]; rfl) hbelow (hval.trans hres.symm)

end Optimization
end Shader
end Citron
