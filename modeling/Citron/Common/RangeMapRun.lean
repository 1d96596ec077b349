/-
# Runs of the range map

After a run of calls the map is to give, at each address, the value of the last call
that covers it, to be canonical, and to know how far each value reaches
(`Represents`). This is so after every call of a run exactly if each call stays below
the sign bit, or is an `Unmap` that finds nothing to do (`InDomain`).
-/
import Citron.Common.RangeMapBackward

namespace Citron
namespace Common
namespace RangeMap

open Lib List

variable {V : Type}

inductive Call (V : Type) where
  | map (address addressEnd : ℤ) (value : V)
  | unmap (address addressEnd : ℤ)

namespace Call

def address : Call V → ℤ
  | .map a _ _ => a
  | .unmap a _ => a

def addressEnd : Call V → ℤ
  | .map _ b _ => b
  | .unmap _ b => b

def value (null : V) : Call V → V
  | .map _ _ v => v
  | .unmap _ _ => null

def run [DecidableEq V] (K : KeyTBase) (m : RangeMap V) : Call V → Option (RangeMap V)
  | .map a b v => m.map K a b v
  | .unmap a b => m.unmap K a b

/-- The arguments are of the type, and the range is not empty. -/
structure Valid (K : KeyTBase) (c : Call V) : Prop where
  address : K.Valid c.address
  addressEnd : K.Valid c.addressEnd
  lt : c.address < c.addressEnd

end Call

/-- The map after the calls, the last call first. -/
def runCalls [DecidableEq V] (K : KeyTBase) (null : V) : List (Call V) → Option (RangeMap V)
  | [] => some (initial K null)
  | c :: cs => do
    let m ← runCalls K null cs
    c.run K m

/-- The value of the last call that covers the address. -/
def valueOf (null : V) : List (Call V) → ℤ → V
  | [], _ => null
  | c :: cs, a => if c.address ≤ a ∧ a < c.addressEnd then c.value null else valueOf null cs a

structure Represents [DecidableEq V] (K : KeyTBase) (null : V) (cs : List (Call V)) (m : RangeMap V) : Prop where
  values : ∀ a, K.Valid a → m.getValueAt K a = valueOf null cs a
  canonical : Canonical K m
  sizes : ∀ a, K.Valid a → if valueOf null cs a = null then m.getContinuousSizeFrom K a = 0
    else IsLeast {d | 0 < d ∧ K.Valid (a + d) ∧ valueOf null cs (a + d) ≠ valueOf null cs a}
      (m.getContinuousSizeFrom K a)

/-- The call stays below the sign bit, or unmaps addresses above it only, or unmaps from a start below
it where nothing is mapped and one value lies below. -/
def InDomain (K : KeyTBase) (null : V) (cs : List (Call V)) (c : Call V) : Prop :=
  (0 ≤ K.toKey c.address ∧ K.toKey c.address < K.toKey c.addressEnd) ∨
    (c.value null = null ∧ (K.toKey c.address < 0 ∨
      ((∀ x, 0 ≤ x → x < K.toKey c.address → valueOf null cs x = valueOf null cs 0) ∧
        ∀ x, K.toKey c.address ≤ x → x < K.limit → valueOf null cs x = null)))

section Lookup

variable {K : KeyTBase} {null : V} {m m' : RangeMap V} {cs : List (Call V)} {c : Call V} {a : ℤ}

theorem HoldsAt.getValueInternal {l₁ l₂ : List (ℤ × V)} {e : ℤ × V} (h : HoldsAt m.container a l₁ e l₂) :
    m.getValueInternal a = e.2 := by
  unfold RangeMap.getValueInternal
  rw [h.getFirstElementBeforeOrOn, h.eq, getElem?_append_right le_rfl, Nat.sub_self]
  rfl

/-- Keys at 0 or above are addresses. -/
theorem toKey_of_lt (h : a < K.limit) : K.toKey a = a := by
  unfold KeyTBase.toKey
  rw [if_pos h]

theorem toKey_of_le (h : K.limit ≤ a) : K.toKey a = a - 2 * K.limit := by
  unfold KeyTBase.toKey
  rw [if_neg (by omega)]

theorem valid_of_key (h0 : 0 ≤ a) (h : a < K.limit) : K.Valid a := by
  unfold KeyTBase.Valid
  split_ifs <;> omega

/-- An address with a key at 0 or above is its key. -/
theorem toKey_eq (hv : K.Valid a) (h0 : 0 ≤ K.toKey a) : K.toKey a = a ∧ a < K.limit := by
  rcases lt_or_ge a K.limit with h | h
  · exact ⟨toKey_of_lt h, h⟩
  · rw [toKey_of_le h] at h0
    unfold KeyTBase.Valid at hv
    split_ifs at hv <;> omega

/-- The value at the last address is null. -/
theorem Canonical.value_last (h : Canonical K m) : m.value (K.limit - 1) = m.nullValue := by
  have := K.limit_pos
  obtain ⟨l₁, e, l₂, hh⟩ := h.holdsAt (a := K.limit - 1) (by omega)
  have hl₂ : l₂ = [] := by
    refine eq_nil_iff_forall_not_mem.mpr fun f hf => ?_
    have h1 := hh.after f hf
    have h2 := h.bound f (by rw [hh.eq]; simp [hf])
    omega
  have hlast := h.last
  rw [hh.eq, hl₂, getLast?_concat, Option.map_some] at hlast
  rw [hh.value_eq]
  exact Option.some.inj hlast

theorem Canonical.getValueAt (h : Canonical K m) (ha : 0 ≤ K.toKey a) : m.getValueAt K a = m.value (K.toKey a) := by
  have := K.limit_pos
  obtain ⟨l₁, e, l₂, hh⟩ := h.holdsAt (a := K.toKey a) (by omega)
  unfold RangeMap.getValueAt
  rw [if_neg (by omega), hh.getValueInternal, hh.value_eq]

/-- What holds after a run of calls in the domain. -/
structure Inv (K : KeyTBase) (null : V) (cs : List (Call V)) (m : RangeMap V) : Prop where
  canonical : Canonical K m
  nullBelow : NullBelow K m
  nullValue : m.nullValue = null
  values : ∀ a, 0 ≤ a → a < K.limit → m.value a = valueOf null cs a
  negative : ∀ a, K.Valid a → K.toKey a < 0 → valueOf null cs a = null

theorem Inv.getValueAt (h : Inv K null cs m) (ha : K.Valid a) : m.getValueAt K a = valueOf null cs a := by
  rcases lt_or_ge (K.toKey a) 0 with h0 | h0
  · unfold RangeMap.getValueAt
    rw [if_pos h0, h.negative a ha h0, h.nullValue]
  · obtain ⟨heq, hlt⟩ := toKey_eq ha h0
    rw [h.canonical.getValueAt h0, heq, h.values a (heq ▸ h0) hlt]

theorem initial_inv (K : KeyTBase) (null : V) : Inv K null [] (initial K null) := by
  have hlim := K.limit_pos
  refine ⟨⟨?_, ?_, rfl, rfl, ?_⟩, ?_, rfl, fun a h0 _ => ?_, fun _ _ _ => rfl⟩
  · simp [initial, Ascending]
  · simp [initial]
    omega
  · simp [initial]
  · simp [initial, NullBelow]
  · unfold RangeMap.value initial lastAt
    simp [show -K.limit ≤ a by omega, valueOf]

/-! ### One call -/

/-- A call that maps nothing but null where null is already. -/
theorem Inv.skip (h : Inv K null cs m) (hv : c.value null = null)
    (hnull : ∀ x, K.Valid x → 0 ≤ K.toKey x → c.address ≤ x → x < c.addressEnd → valueOf null cs x = null) :
    Inv K null (c :: cs) m := by
  refine ⟨h.canonical, h.nullBelow, h.nullValue, fun x h0 hlt => ?_, fun x hx hneg => ?_⟩
  · rw [h.values x h0 hlt, valueOf]
    split_ifs with hc
    · rw [hv]
      exact hnull x (valid_of_key h0 hlt) (by rwa [toKey_of_lt hlt]) hc.1 hc.2
    · rfl
  · rw [valueOf, hv, h.negative x hx hneg, ite_self]

/-- Where an address with a negative key lies. -/
theorem neg_key (h : K.toKey a < 0) : a < 0 ∨ K.limit ≤ a := by
  rcases lt_or_ge a K.limit with hlt | hlt
  · rw [toKey_of_lt hlt] at h
    exact .inl h
  · exact .inr hlt

/-- An end with a negative key above a start without one is past the sign bit. -/
theorem Call.Valid.end_of_start (hc : c.Valid K) (h0 : 0 ≤ K.toKey c.address)
    (hn : ¬ K.toKey c.address < K.toKey c.addressEnd) : K.toKey c.addressEnd < 0 ∧ K.limit ≤ c.addressEnd := by
  obtain ⟨hs, hs'⟩ := toKey_eq hc.address h0
  have hlt := hc.lt
  have hneg : K.toKey c.addressEnd < 0 := by
    by_contra he
    obtain ⟨he, -⟩ := toKey_eq hc.addressEnd (not_lt.mp he)
    omega
  refine ⟨hneg, ?_⟩
  rcases neg_key hneg with h | h
  · omega
  · exact h

variable [DecidableEq V]

/-- The value at an address reaches to the next key. -/
theorem Inv.getContinuousSizeFrom (h : Inv K null cs m) (ha : K.Valid a) :
    if valueOf null cs a = null then m.getContinuousSizeFrom K a = 0
    else IsLeast {d | 0 < d ∧ K.Valid (a + d) ∧ valueOf null cs (a + d) ≠ valueOf null cs a}
      (m.getContinuousSizeFrom K a) := by
  rcases lt_or_ge (K.toKey a) 0 with h0 | h0
  · rw [if_pos (h.negative a ha h0)]
    unfold RangeMap.getContinuousSizeFrom
    rw [if_pos h0]
  obtain ⟨heq, hlt⟩ := toKey_eq ha h0
  rw [heq] at h0
  obtain ⟨l₁, e, l₂, hh⟩ := h.canonical.holdsAt (a := a) (by omega)
  have hval : valueOf null cs a = e.2 := by rw [← h.values a h0 hlt, hh.value_eq]
  have hget : m.container[l₁.length]? = some e := by
    rw [hh.eq, getElem?_append_right le_rfl, Nat.sub_self]
    rfl
  have hnext : m.container[l₁.length + 1]? = l₂.head? := by
    rw [hh.eq, getElem?_append_right (by omega), Nat.add_sub_cancel_left, getElem?_cons_succ,
      List.head?_eq_getElem?]
  unfold RangeMap.getContinuousSizeFrom continuousSizeInternal
  rw [heq, if_neg (not_lt.mpr h0)]
  simp only [hh.getFirstElementBeforeOrOn, hget, hnext, hval, h.nullValue]
  by_cases hnull : e.2 = null
  · rw [if_pos hnull, if_pos hnull]
  rw [if_neg hnull, if_neg hnull]
  cases l₂ with
  | nil =>
    have hlast := h.canonical.last
    rw [hh.eq, getLast?_concat, Option.map_some, h.nullValue] at hlast
    exact absurd (Option.some.inj hlast) hnull
  | cons g l₂ =>
    have hasc := h.canonical.ascending
    rw [hh.eq, ascending_append, ascending_cons, ascending_cons] at hasc
    have hag := hh.after g mem_cons_self
    have hglt : g.1 < K.limit := h.canonical.bound g (by rw [hh.eq]; simp)
    have hhg : HoldsAt m.container g.1 (l₁ ++ [e]) g l₂ := by
      refine ⟨by rw [hh.eq, append_assoc]; rfl, fun f hf => ?_, le_rfl, hasc.2.1.2.1⟩
      rcases mem_append.mp hf with hf | hf
      · exact hasc.2.2 f hf g (by simp)
      · rw [mem_singleton.mp hf]
        exact hasc.2.1.1 g mem_cons_self
    have hchange : e.2 ≠ g.2 := by
      have := isChain_append.mp (hh.eq ▸ h.canonical.changes)
      exact (isChain_cons_cons.mp this.2.1).1
    refine ⟨⟨by simpa using hag, ?_, ?_⟩, ?_⟩
    · rw [head?_cons, add_sub_cancel]
      exact valid_of_key (by omega) hglt
    · rw [head?_cons, add_sub_cancel, ← h.values g.1 (by omega) hglt, hhg.value_eq]
      exact hchange.symm
    · rintro d ⟨hd, -, hne⟩
      show g.1 - a ≤ d
      by_contra hlt'
      have hhd : HoldsAt m.container (a + d) l₁ e (g :: l₂) := by
        refine ⟨hh.eq, hh.before, by have := hh.le; omega, ?_⟩
        refine forall_mem_cons.mpr ⟨by omega, fun f hf => ?_⟩
        have := hasc.2.1.2.1 f hf
        omega
      rw [← h.values (a + d) (by omega) (by omega), hhd.value_eq] at hne
      exact hne rfl

theorem Inv.represents (h : Inv K null cs m) : Represents K null cs m :=
  ⟨fun _ ha => h.getValueAt ha, h.canonical, fun _ ha => h.getContinuousSizeFrom ha⟩

theorem Call.run_eq (c : Call V) (m : RangeMap V) : c.run K m = m.internalMap
    (if K.toKey c.address < 0 then 0 else K.toKey c.address)
    (if K.toKey c.addressEnd < 0 then 0 else K.toKey c.addressEnd) (c.value m.nullValue) := by
  cases c <;> rfl

/-- The map after a call that changes the values of `[start, stop)`. -/
theorem Inv.write {start stop : ℤ} (h : Inv K null cs m) (hs : 0 ≤ start) (hlt : start < stop) (he : stop < K.limit)
    (hcover : ∀ x, 0 ≤ x → x < K.limit → ((start ≤ x ∧ x < stop) ↔ (c.address ≤ x ∧ x < c.addressEnd)))
    (hneg : ∀ x, K.Valid x → K.toKey x < 0 → c.address ≤ x → x < c.addressEnd → c.value null = null) :
    ∃ m', m.internalMap start stop (c.value m.nullValue) = some m' ∧ Inv K null (c :: cs) m' := by
  obtain ⟨m', hrun, hn', hc', hb', hv'⟩ := h.canonical.internalMap hs hlt he
  refine ⟨m', hrun, hc', hb' h.nullBelow, hn'.trans h.nullValue, fun x h0 hxl => ?_, fun x hx hxn => ?_⟩
  · rw [hv', valueOf, h.nullValue, h.values x h0 hxl]
    by_cases hin : start ≤ x ∧ x < stop
    · rw [if_pos hin, if_pos ((hcover x h0 hxl).mp hin)]
    · rw [if_neg hin, if_neg fun hc => hin ((hcover x h0 hxl).mpr hc)]
  · rw [valueOf, h.negative x hx hxn]
    split_ifs with hc
    · exact hneg x hx hxn hc.1 hc.2
    · rfl

theorem Inv.call (h : Inv K null cs m) (hc : c.Valid K) (hd : InDomain K null cs c) :
    ∃ m', c.run K m = some m' ∧ Inv K null (c :: cs) m' := by
  have hlim := K.limit_pos
  have hlt := hc.lt
  rw [c.run_eq]
  rcases lt_or_ge (K.toKey c.address) 0 with hneg | h0
  · obtain ⟨hv, -⟩ : c.value null = null ∧ _ := by
      rcases hd with hd | hd
      · omega
      · exact hd
    have hv' : c.value m.nullValue = m.nullValue := by rw [h.nullValue, hv]
    rw [if_pos hneg]
    rcases lt_or_ge 0 (K.toKey c.addressEnd) with hpos | hle
    · obtain ⟨he, he'⟩ := toKey_eq hc.addressEnd hpos.le
      rw [if_neg (by omega), he]
      refine h.write le_rfl (he ▸ hpos) he' (fun x h0 hx => ?_) fun _ _ _ _ _ => hv
      rcases neg_key hneg with hs | hs <;> omega
    · have hclip : (if K.toKey c.addressEnd < 0 then 0 else K.toKey c.addressEnd) = 0 := by
        split_ifs <;> omega
      rw [hclip, hv', h.canonical.internalMap_zero h.nullBelow]
      refine ⟨m, rfl, h.skip hv fun x hx hx0 h1 h2 => ?_⟩
      obtain ⟨hxk, hxl⟩ := toKey_eq hx hx0
      rcases neg_key hneg with hs | hs
      · rcases lt_or_ge c.addressEnd K.limit with hel | hel
        · rw [toKey_of_lt hel] at hle
          omega
        · have h1 := hc.address
          have h2 := hc.addressEnd
          unfold KeyTBase.Valid at h1 h2
          split_ifs at h1 h2 <;> omega
      · omega
  · obtain ⟨hs, hs'⟩ := toKey_eq hc.address h0
    rw [if_neg (by omega)]
    by_cases hlt' : K.toKey c.address < K.toKey c.addressEnd
    · obtain ⟨he, he'⟩ := toKey_eq hc.addressEnd (by omega)
      rw [if_neg (by omega), hs, he]
      refine h.write (hs ▸ h0) hlt he' (fun x _ _ => Iff.rfl) fun x hx hxn h1 h2 => ?_
      rcases neg_key hxn with hx' | hx' <;> omega
    · obtain ⟨hneg, hel⟩ := hc.end_of_start h0 hlt'
      obtain ⟨hv, hd | ⟨h1, h2⟩⟩ := hd.resolve_left fun hd => hlt' hd.2
      · omega
      have hv' : c.value m.nullValue = m.nullValue := by rw [h.nullValue, hv]
      have hskip : Inv K null (c :: cs) m := by
        refine h.skip hv fun x hx hx0 h3 h4 => ?_
        obtain ⟨hxk, hxl⟩ := toKey_eq hx hx0
        exact h2 x (by omega) hxl
      rw [if_pos hneg, hv']
      refine ⟨m, ?_, hskip⟩
      rcases eq_or_lt_of_le h0 with h00 | hpos
      · rw [← h00, h.canonical.internalMap_zero h.nullBelow]
      · refine h.canonical.internalMap_same h.nullBelow hpos (by omega) (fun x hx0 hx => ?_) fun x hx hxl => ?_
        · rw [h.values x hx0 (by omega), h.values 0 le_rfl hlim, h1 x hx0 hx]
        · rw [h.values x (by omega) hxl, h.nullValue, h2 x hx hxl]

theorem internalMap_nullValue {start stop : ℤ} {v : V} (h : m.internalMap start stop v = some m') :
    m'.nullValue = m.nullValue := by
  unfold RangeMap.internalMap at h
  simp only [Option.bind_eq_bind, Option.bind_eq_some_iff, Option.some.injEq] at h
  obtain ⟨_, -, _, -, _, -, rfl⟩ := h
  rfl

theorem Inv.inDomain (h : Inv K null cs m) (hc : c.Valid K) (hrun : c.run K m = some m')
    (hr : Represents K null (c :: cs) m') : InDomain K null cs c := by
  have hlim := K.limit_pos
  have hlt := hc.lt
  rw [c.run_eq] at hrun
  have hnull : m'.nullValue = null := (internalMap_nullValue hrun).trans h.nullValue
  rcases lt_or_ge (K.toKey c.address) 0 with hneg | h0
  · -- the start is covered, but no value is kept for it
    have hv := hr.values c.address hc.address
    rw [valueOf, if_pos ⟨le_rfl, hlt⟩, RangeMap.getValueAt, if_pos hneg, hnull] at hv
    exact .inr ⟨hv.symm, .inl hneg⟩
  · obtain ⟨hs, hs'⟩ := toKey_eq hc.address h0
    by_cases hlt' : K.toKey c.address < K.toKey c.addressEnd
    · exact .inl ⟨h0, hlt'⟩
    obtain ⟨hneg, hel⟩ := hc.end_of_start h0 hlt'
    have hcovered : ∀ x, K.toKey c.address ≤ x → x < K.limit → m'.value x = c.value null := by
      intro x hx hxl
      have hxk : K.toKey x = x := toKey_of_lt hxl
      have hval := hr.values x (valid_of_key (by omega) hxl)
      rw [hr.canonical.getValueAt (by omega), hxk, valueOf, if_pos (by omega)] at hval
      exact hval
    have hv : c.value null = null := by
      rw [← hcovered (K.limit - 1) (by omega) (by omega), hr.canonical.value_last, hnull]
    rw [if_neg (by omega), if_pos hneg, h.nullValue, hv, ← h.nullValue] at hrun
    refine .inr ⟨hv, .inr ?_⟩
    rcases eq_or_lt_of_le h0 with h00 | hpos
    · rw [← h00, h.canonical.internalMap_zero h.nullBelow] at hrun
      obtain rfl := Option.some.inj hrun
      refine ⟨fun x hx0 hx => absurd hx (by omega), fun x hx hxl => ?_⟩
      rw [← h.values x (by omega) hxl, hcovered x hx hxl, hv]
    · obtain ⟨h1, h2⟩ := h.canonical.of_internalMap_backward h.nullBelow hpos hrun hr.canonical
        fun x hx hxl => by rw [hcovered x hx hxl, hv, h.nullValue]
      refine ⟨fun x hx0 hx => ?_, fun x hx hxl => ?_⟩
      · rw [← h.values x hx0 (by omega), ← h.values 0 le_rfl hlim, h1 x hx0 hx]
      · rw [← h.values x (by omega) hxl, h2 x hx hxl, h.nullValue]

/-! ### Runs -/

theorem runCalls_inv : ∀ cs : List (Call V), (∀ c ∈ cs, c.Valid K) →
    (∀ c cs', c :: cs' <:+ cs → InDomain K null cs' c) → ∃ m, runCalls K null cs = some m ∧ Inv K null cs m := by
  intro cs
  induction cs with
  | nil => exact fun _ _ => ⟨_, rfl, initial_inv K null⟩
  | cons c cs ih =>
    intro hv hd
    obtain ⟨hvc, hv⟩ := forall_mem_cons.mp hv
    obtain ⟨m, hrun, hinv⟩ := ih hv fun c' cs' h => hd c' cs' (h.trans (suffix_cons c cs))
    obtain ⟨m', hrun', hinv'⟩ := hinv.call hvc (hd c cs suffix_rfl)
    exact ⟨m', by rw [runCalls, hrun]; exact hrun', hinv'⟩

/-- **The range map gives the last value mapped** after every call of a run, exactly if
every call of the run is in the domain of the map. -/
theorem runCalls_represents_iff (K : KeyTBase) (null : V) (cs : List (Call V)) (hv : ∀ c ∈ cs, c.Valid K) :
    (∀ cs', cs' <:+ cs → ∃ m, runCalls K null cs' = some m ∧ Represents K null cs' m) ↔
      ∀ c cs', c :: cs' <:+ cs → InDomain K null cs' c := by
  constructor
  · intro hr
    have key : ∀ cs', cs' <:+ cs → ∀ c cs'', c :: cs'' <:+ cs' → InDomain K null cs'' c := by
      intro cs'
      induction cs' with
      | nil =>
        intro _ c cs'' h
        exact absurd (suffix_nil.mp h) (cons_ne_nil _ _)
      | cons d ds ih =>
        intro hsuf c cs'' h
        have hds := ih ((suffix_cons d ds).trans hsuf)
        rcases suffix_cons_iff.mp h with heq | h
        · obtain ⟨rfl, rfl⟩ := List.cons.inj heq
          have hvs : ∀ e ∈ c :: cs'', e.Valid K := fun e he => hv e (hsuf.subset he)
          obtain ⟨hvc, hvs⟩ := forall_mem_cons.mp hvs
          obtain ⟨m, hrun, hinv⟩ := runCalls_inv cs'' hvs hds
          obtain ⟨m', hrun', hrep⟩ := hr _ hsuf
          rw [runCalls, hrun] at hrun'
          exact hinv.inDomain hvc hrun' hrep
        · exact hds c cs'' h
    exact key cs suffix_rfl
  · intro hd cs' hsuf
    obtain ⟨m, hrun, hinv⟩ := runCalls_inv cs' (fun c hc => hv c (hsuf.subset hc))
      fun c cs'' h => hd c cs'' (h.trans hsuf)
    exact ⟨m, hrun, hinv.represents⟩

/-- `u64`. -/
def u64 : KeyTBase := ⟨63, false⟩

/-- Two calls below the sign bit. -/
theorem runCalls_represents_two : ∃ m, runCalls u64 0 [.unmap 3200 3600, .map 3000 3500 1] = some m ∧
    Represents u64 (0 : ℕ) [.unmap 3200 3600, .map 3000 3500 1] m := by
  refine (runCalls_represents_iff u64 0 [.unmap 3200 3600, .map 3000 3500 1] ?_).mpr
    (fun c l h => .inl ?_) _ suffix_rfl
  · intro c hc
    simp only [mem_cons, not_mem_nil, or_false] at hc
    rcases hc with rfl | rfl <;> exact ⟨by decide, by decide, by decide⟩
  · rcases suffix_cons_iff.mp h with h | h
    · obtain ⟨rfl, -⟩ := List.cons.inj h
      decide
    · rcases suffix_cons_iff.mp h with h | h
      · obtain ⟨rfl, -⟩ := List.cons.inj h
        decide
      · exact absurd (suffix_nil.mp h) (cons_ne_nil _ _)

/-- A range past the sign bit is clipped to the empty range at 0, whose start is written
all the same: the address 0 gets a value that no call gave it. -/
theorem not_represents_past_sign :
    (∀ c ∈ [Call.map (2 ^ 63) (2 ^ 63 + 0x1000) 1], c.Valid u64) ∧
      ∃ m, runCalls u64 (0 : ℕ) [.map (2 ^ 63) (2 ^ 63 + 0x1000) 1] = some m ∧
        m.getValueAt u64 0 = 1 ∧ valueOf (0 : ℕ) [.map (2 ^ 63) (2 ^ 63 + 0x1000) 1] 0 = 0 ∧
        ¬ Represents u64 0 [.map (2 ^ 63) (2 ^ 63 + 0x1000) 1] m := by
  refine ⟨?_, ⟨0, [(-(2 ^ 63), 0), (0, 1)]⟩, ?_, by decide, by decide, fun h => ?_⟩
  · intro c hc
    rw [mem_singleton.mp hc]
    exact ⟨by decide, by decide, by decide⟩
  · have herase : eraseLoop [(-(2 ^ 63), (0 : ℕ))] 1 1 = some [(-(2 ^ 63), 0)] := by
      unfold eraseLoop
      rw [if_pos rfl]
    have hrun : RangeMap.internalMap (V := ℕ) ⟨0, [(-(2 ^ 63), 0)]⟩ 0 0 1 =
        some ⟨0, [(-(2 ^ 63), 0), (0, 1)]⟩ := by
      unfold RangeMap.internalMap
      rw [show lowerBound [(-(2 ^ 63 : ℤ), (0 : ℕ))] 0 = 1 from rfl,
        show upperBound [(-(2 ^ 63 : ℤ), (0 : ℕ))] 0 = 1 from rfl, herase]
      rfl
    exact hrun
  · exact absurd (h.values 0 (by decide)) (by decide)

end Lookup

end RangeMap
end Common
end Citron
