/-
# The bits of the page bitmap

A bitmap whose upper levels have a bit for each word below that is not zero
(`Summary`) is a set of bits: `SetBit` and `ClearBit` change one bit, `ClearRange`
clears a range if all of it is set, and `FindFreeBlock` finds a bit if there is
one, whatever the random numbers are.
-/
import Citron.Kernel.PageBitmap

namespace Citron
namespace Kernel

open Common List Option

/-! ### Words -/

section Words

variable {v : BitVec 64} {w j : ℕ}

theorem one_shiftLeft_bit (hw : w < 64) : (1#64 <<< w).getLsbD j = decide (j = w) := by
  rw [BitVec.getLsbD_shiftLeft, BitVec.getLsbD_one]
  by_cases h : j = w
  · subst h
    simp [hw]
  · rcases Nat.lt_or_ge j w with h1 | h1
    · simp [h, h1]
    · have : j - w ≠ 0 := by omega
      simp [h, this]

theorem or_mask_bit (hw : w < 64) : (v ||| 1#64 <<< w).getLsbD j = (v.getLsbD j || decide (j = w)) := by
  rw [BitVec.getLsbD_or, one_shiftLeft_bit hw]

theorem and_not_mask_bit (hw : w < 64) (hj : j < 64) :
    (v &&& ~~~(1#64 <<< w)).getLsbD j = (v.getLsbD j && !decide (j = w)) := by
  rw [BitVec.getLsbD_and, BitVec.getLsbD_not, one_shiftLeft_bit hw]
  simp [hj]

theorem ne_zero_of_bit (h : v.getLsbD j = true) : v ≠ 0 := by
  rintro rfl
  simp at h

theorem exists_bit_of_ne_zero (h : v ≠ 0) : ∃ j < 64, v.getLsbD j = true := by
  by_contra hne
  push Not at hne
  refine h (BitVec.eq_of_getLsbD_eq fun i hi => ?_)
  simpa using hne i hi

end Words

/-! ### Levels -/

namespace Level

def word (level : Level) (i : ℕ) : BitVec 64 := level.getD i 0

variable {level : Level} {i off ind : ℕ} {v : BitVec 64}

theorem bit_eq : level.bit off = (level.word (off / 64)).getLsbD (off % 64) := rfl

theorem getElem?_eq_some (h : i < level.length) : level[i]? = some (level.word i) := by
  rw [word, getD_eq_getElem?_getD, getElem?_eq_getElem h]
  rfl

theorem lt_of_word_ne_zero (h : level.word i ≠ 0) : i < level.length := by
  by_contra hge
  refine h ?_
  rw [word, getD_eq_getElem?_getD, getElem?_eq_none (not_lt.mp hge)]
  rfl

theorem lt_of_bit (h : level.bit off = true) : off / 64 < level.length :=
  lt_of_word_ne_zero (ne_zero_of_bit h)

theorem word_set (h : ind < level.length) :
    word (level.set ind v) i = if i = ind then v else level.word i := by
  unfold word
  rw [getD_eq_getElem?_getD, getD_eq_getElem?_getD, getElem?_set]
  by_cases hi : i = ind
  · subst hi
    simp [h]
  · simp [hi, Ne.symm hi]

theorem bit_set (h : ind < level.length) :
    bit (level.set ind v) off = if off / 64 = ind then v.getLsbD (off % 64) else level.bit off := by
  rw [bit_eq, word_set h]
  split_ifs <;> rfl

theorem word_eq_zero_iff : level.word i = 0 ↔ ∀ j < 64, level.bit (i * 64 + j) = false := by
  have hdiv : ∀ j < 64, (i * 64 + j) / 64 = i ∧ (i * 64 + j) % 64 = j := by
    intro j hj
    omega
  constructor
  · intro h j hj
    rw [bit_eq, (hdiv j hj).1, h]
    simp
  · intro h
    refine BitVec.eq_of_getLsbD_eq fun j hj => ?_
    have := h j hj
    rw [bit_eq, (hdiv j hj).1, (hdiv j hj).2] at this
    simpa using this

end Level

/-- Each level above has a bit for every word that is not zero, and the topmost
one is a single word. -/
def Summary : Level → List Level → Prop
  | level, [] => level.length = 1
  | level, up :: ups =>
    level.length ≤ 64 * up.length ∧ (∀ i, up.bit i = decide (level.word i ≠ 0)) ∧ Summary up ups

section Levels

variable {level up : Level} {ups : List Level} {off ind count : ℕ}

theorem setBit_cons {v : BitVec 64} (h : level[off / 64]? = some v) : setBit (level :: ups) off =
    if v ≠ 0 then some (level.set (off / 64) (v ||| 1#64 <<< (off % 64)) :: ups)
    else (setBit ups (off / 64)).map (level.set (off / 64) (v ||| 1#64 <<< (off % 64)) :: ·) := by
  simp only [setBit, h, bind_eq_bind, bind_some]
  split_ifs
  · rfl
  · cases setBit ups (off / 64) <;> rfl

theorem clearBit_cons {v : BitVec 64} (h : level[off / 64]? = some v) : clearBit (level :: ups) off =
    if v &&& ~~~(1#64 <<< (off % 64)) ≠ 0 then
      some (level.set (off / 64) (v &&& ~~~(1#64 <<< (off % 64))) :: ups)
    else (clearBit ups (off / 64)).map (level.set (off / 64) (v &&& ~~~(1#64 <<< (off % 64))) :: ·) := by
  simp only [clearBit, h, bind_eq_bind, bind_some]
  split_ifs
  · rfl
  · cases clearBit ups (off / 64) <;> rfl

/-- A word that stays zero, or stays not zero, needs no change above. -/
theorem Summary.set_word (h : Summary level ups) (hind : ind < level.length) {v : BitVec 64}
    (hv : v = 0 ↔ level.word ind = 0) : Summary (level.set ind v) ups := by
  cases ups with
  | nil => simpa [Summary] using h
  | cons up ups =>
    obtain ⟨h1, h2, h3⟩ := h
    refine ⟨by simpa using h1, fun i => ?_, h3⟩
    rw [h2 i, Level.word_set hind]
    by_cases hi : i = ind
    · subst hi
      simp only [if_true, ne_eq, hv]
    · simp only [if_neg hi]

/-- A word that changes between zero and not zero, and the bit above it with it. -/
theorem Summary.set_word_up {up' : Level} {ups' : List Level} (h : Summary level (up :: ups))
    (hup : Summary up' ups') (hlen : up'.length = up.length) (hind : ind < level.length) {v : BitVec 64}
    (hbit : ∀ i, up'.bit i = if i = ind then decide (v ≠ 0) else up.bit i) :
    Summary (level.set ind v) (up' :: ups') := by
  obtain ⟨h1, h2, -⟩ := h
  refine ⟨by simpa [hlen] using h1, fun i => ?_, hup⟩
  rw [hbit, h2, Level.word_set hind]
  by_cases hi : i = ind
  · rw [if_pos hi, if_pos hi]
  · rw [if_neg hi, if_neg hi]

theorem Summary.up_lt (h : Summary level (up :: ups)) (hind : ind < level.length) : ind / 64 < up.length := by
  have := h.1
  omega

/-- The bits after one bit of a word is written. -/
theorem bit_set_word {v : BitVec 64} {b : Bool} (hind : off / 64 < level.length)
    (hv : ∀ j < 64, v.getLsbD j = if j = off % 64 then b else (level.word (off / 64)).getLsbD j) (i : ℕ) :
    Level.bit (level.set (off / 64) v) i = if i = off then b else level.bit i := by
  rw [Level.bit_set hind]
  by_cases hi : i / 64 = off / 64
  · rw [if_pos hi, hv _ (Nat.mod_lt _ (by decide)), Level.bit_eq, hi]
    by_cases hm : i % 64 = off % 64
    · rw [if_pos hm, if_pos (by omega)]
    · rw [if_neg hm, if_neg (by rintro rfl; exact hm rfl)]
  · rw [if_neg hi, if_neg (by rintro rfl; exact hi rfl)]

/-- Set a bit that is not set. -/
theorem setBit_spec : ∀ (ups : List Level) {level : Level} {off : ℕ}, Summary level ups →
    off / 64 < level.length → level.bit off = false →
    ∃ level' ups', setBit (level :: ups) off = some (level' :: ups') ∧ Summary level' ups' ∧
      level'.length = level.length ∧ ∀ i, level'.bit i = if i = off then true else level.bit i := by
  intro ups
  induction ups with
  | nil =>
    intro level off h hlt hbit
    have hv := bit_set_word (v := level.word (off / 64) ||| 1#64 <<< (off % 64)) (b := true) hlt fun j _ => by
      rw [or_mask_bit (Nat.mod_lt _ (by decide))]
      split_ifs with hj <;> simp [hj]
    refine ⟨_, [], ?_, by simpa [Summary] using h, by simp, hv⟩
    rw [setBit_cons (Level.getElem?_eq_some hlt)]
    split_ifs <;> rfl
  | cons up ups ih =>
    intro level off h hlt hbit
    set v := level.word (off / 64) with hvdef
    have hbits : ∀ j < 64, (v ||| 1#64 <<< (off % 64)).getLsbD j = if j = off % 64 then true else v.getLsbD j := by
      intro j _
      rw [or_mask_bit (Nat.mod_lt _ (by decide))]
      split_ifs with hj <;> simp [hj]
    have hne : v ||| 1#64 <<< (off % 64) ≠ 0 := by
      refine ne_zero_of_bit (j := off % 64) ?_
      rw [hbits _ (Nat.mod_lt _ (by decide)), if_pos rfl]
    rw [setBit_cons (Level.getElem?_eq_some hlt)]
    by_cases hv : v = 0
    · -- the first bit of the word: its bit above is set as well
      have hup : up.bit (off / 64) = false := by
        rw [h.2.1, decide_eq_false_iff_not, not_not]
        exact hv
      obtain ⟨up', ups', hrun, hsum, hlen, hbit'⟩ := ih h.2.2 (h.up_lt hlt) hup
      rw [← hvdef, if_neg (not_not.mpr hv), hrun]
      refine ⟨_, _, rfl, h.set_word_up hsum hlen hlt fun i => ?_, by simp, bit_set_word hlt hbits⟩
      rw [hbit', decide_eq_true hne]
    · rw [← hvdef, if_pos hv]
      exact ⟨_, _, rfl, h.set_word hlt (iff_of_false hne hv), by simp, bit_set_word hlt hbits⟩

/-- Clear a bit that is set. -/
theorem clearBit_spec : ∀ (ups : List Level) {level : Level} {off : ℕ}, Summary level ups →
    level.bit off = true →
    ∃ level' ups', clearBit (level :: ups) off = some (level' :: ups') ∧ Summary level' ups' ∧
      level'.length = level.length ∧ ∀ i, level'.bit i = if i = off then false else level.bit i := by
  intro ups
  induction ups with
  | nil =>
    intro level off h hbit
    have hlt := Level.lt_of_bit hbit
    have hv := bit_set_word (v := level.word (off / 64) &&& ~~~(1#64 <<< (off % 64))) (b := false) hlt
      fun j hj => by
        rw [and_not_mask_bit (Nat.mod_lt _ (by decide)) hj]
        split_ifs with hj <;> simp [hj]
    refine ⟨_, [], ?_, by simpa [Summary] using h, by simp, hv⟩
    rw [clearBit_cons (Level.getElem?_eq_some hlt)]
    split_ifs <;> rfl
  | cons up ups ih =>
    intro level off h hbit
    have hlt := Level.lt_of_bit hbit
    set v := level.word (off / 64) with hvdef
    have hbits : ∀ j < 64, (v &&& ~~~(1#64 <<< (off % 64))).getLsbD j =
        if j = off % 64 then false else v.getLsbD j := by
      intro j hj
      rw [and_not_mask_bit (Nat.mod_lt _ (by decide)) hj]
      split_ifs with hj <;> simp [hj]
    have hv : v ≠ 0 := ne_zero_of_bit hbit
    rw [clearBit_cons (Level.getElem?_eq_some hlt)]
    by_cases hz : v &&& ~~~(1#64 <<< (off % 64)) = 0
    · -- the last bit of the word: its bit above is cleared as well
      have hup : up.bit (off / 64) = true := by
        rw [h.2.1, decide_eq_true_iff]
        exact hv
      obtain ⟨up', ups', hrun, hsum, hlen, hbit'⟩ := ih h.2.2 hup
      rw [← hvdef, if_neg (not_not.mpr hz), hrun]
      refine ⟨_, _, rfl, h.set_word_up hsum hlen hlt fun i => ?_, by simp, bit_set_word hlt hbits⟩
      rw [hbit', decide_eq_false (not_not.mpr hz)]
    · rw [← hvdef, if_pos hz]
      exact ⟨_, _, rfl, h.set_word hlt (iff_of_false hz hv), by simp, bit_set_word hlt hbits⟩

/-- The mask of a range of bits in a word. -/
theorem range_mask_bit {shift j : ℕ} (hc : count < 64) (hj : j < 64) :
    (((1#64 <<< count) - 1#64) <<< shift).getLsbD j = decide (shift ≤ j ∧ j < shift + count) := by
  have hmask : ((1#64 <<< count) - 1#64).toNat = 2 ^ count - 1 := by
    have hlt : 2 ^ count < 2 ^ 64 := Nat.pow_lt_pow_right (by decide) hc
    have hpos : 0 < 2 ^ count := Nat.two_pow_pos count
    have h1 : (1#64 <<< count).toNat = 2 ^ count := by
      rw [BitVec.toNat_shiftLeft, Nat.shiftLeft_eq, BitVec.toNat_ofNat]
      norm_num
      exact hlt
    rw [BitVec.toNat_sub_of_le, h1]
    · rfl
    · rw [BitVec.le_def, h1]
      exact hpos
  rw [BitVec.getLsbD_shiftLeft, BitVec.getLsbD, hmask, Nat.testBit_two_pow_sub_one]
  by_cases h1 : j < shift
  · simp [h1]
  · simp only [hj, h1, decide_true, decide_false, Bool.not_false, Bool.true_and, decide_eq_decide]
    omega

/-- The test of `ClearRange`. -/
theorem and_range_mask_eq (hc : count < 64) (hin : off % 64 + count ≤ 64) :
    level.word (off / 64) &&& (((1#64 <<< count) - 1#64) <<< (off % 64)) =
        ((1#64 <<< count) - 1#64) <<< (off % 64) ↔
      ∀ i, off ≤ i → i < off + count → level.bit i = true := by
  constructor
  · intro h i h1 h2
    have hdiv : i / 64 = off / 64 := by omega
    have hj : i % 64 < 64 := Nat.mod_lt _ (by decide)
    have hbit := congrArg (fun v => v.getLsbD (i % 64)) h
    simp only [BitVec.getLsbD_and, range_mask_bit hc hj] at hbit
    rw [decide_eq_true (by omega), Bool.and_true] at hbit
    rw [Level.bit_eq, hdiv]
    exact hbit
  · intro h
    refine BitVec.eq_of_getLsbD_eq fun j hj => ?_
    rw [BitVec.getLsbD_and, range_mask_bit hc hj]
    by_cases hin' : off % 64 ≤ j ∧ j < off % 64 + count
    · have hbit := h (off / 64 * 64 + j) (by omega) (by omega)
      have h1 : (off / 64 * 64 + j) / 64 = off / 64 := by omega
      have h2 : (off / 64 * 64 + j) % 64 = j := by omega
      rw [Level.bit_eq, h1, h2] at hbit
      rw [hbit, decide_eq_true hin', Bool.and_true]
    · rw [decide_eq_false hin', Bool.and_false]

/-- Clear a range in a word, if all of it is set. -/
theorem clearRangeWord_spec (h : Summary level ups) (hc : count < 64) (hpos : 0 < count)
    (hin : off % 64 + count ≤ 64) (hlt : off / 64 < level.length) :
    ∃ level' ups',
      clearRangeWord (level :: ups) off count =
        some (decide (∀ i, off ≤ i → i < off + count → level.bit i = true), level' :: ups') ∧
      Summary level' ups' ∧ level'.length = level.length ∧
      ∀ i, level'.bit i =
        if (∀ i, off ≤ i → i < off + count → level.bit i = true) ∧ off ≤ i ∧ i < off + count then false
        else level.bit i := by
  have htest : level.word (off / 64) &&& (((1#64 <<< count) - 1#64) <<< (off % 64)) =
      ((1#64 <<< count) - 1#64) <<< (off % 64) ↔ ∀ i, off ≤ i → i < off + count → level.bit i = true :=
    and_range_mask_eq hc hin
  simp only [clearRangeWord, bind_eq_bind, Level.getElem?_eq_some hlt, bind_some]
  set mask : BitVec 64 := ((1#64 <<< count) - 1#64) <<< (off % 64) with hmask
  set v := level.word (off / 64) with hvdef
  by_cases hall : ∀ i, off ≤ i → i < off + count → level.bit i = true
  · rw [if_neg (not_not.mpr (htest.mpr hall)), decide_eq_true hall]
    have hv : v ≠ 0 := ne_zero_of_bit (hall off le_rfl (by omega))
    have hbits : ∀ i, Level.bit (level.set (off / 64) (v &&& ~~~mask)) i =
        if (∀ i, off ≤ i → i < off + count → level.bit i = true) ∧ off ≤ i ∧ i < off + count then false
        else level.bit i := by
      intro i
      have hj : i % 64 < 64 := Nat.mod_lt _ (by decide)
      have hiff : ((∀ i, off ≤ i → i < off + count → level.bit i = true) ∧ off ≤ i ∧ i < off + count) ↔
        off ≤ i ∧ i < off + count := and_iff_right hall
      simp only [hiff]
      rw [Level.bit_set hlt]
      by_cases hi : i / 64 = off / 64
      · have hiff : (off % 64 ≤ i % 64 ∧ i % 64 < off % 64 + count) ↔ off ≤ i ∧ i < off + count := by omega
        rw [if_pos hi, BitVec.getLsbD_and, BitVec.getLsbD_not, hmask, range_mask_bit hc hj,
          decide_eq_true hj, Bool.true_and, decide_eq_decide.mpr hiff, Level.bit_eq, hi, ← hvdef]
        by_cases hr : off ≤ i ∧ i < off + count
        · rw [if_pos hr, decide_eq_true hr, Bool.not_true, Bool.and_false]
        · rw [if_neg hr, decide_eq_false hr, Bool.not_false, Bool.and_true]
      · rw [if_neg hi, if_neg (by omega)]
    by_cases hz : v &&& ~~~mask = 0
    · rw [if_pos hz]
      cases ups with
      | nil => exact ⟨_, [], rfl, by simpa [Summary] using h, by simp, hbits⟩
      | cons up ups =>
        have hup : up.bit (off / 64) = true := by
          rw [h.2.1, decide_eq_true_iff]
          exact hv
        obtain ⟨up', ups', hrun, hsum, hlen, hbit'⟩ := clearBit_spec ups h.2.2 hup
        rw [hrun]
        refine ⟨_, _, rfl, h.set_word_up hsum hlen hlt fun i => ?_, by simp, hbits⟩
        rw [hbit', decide_eq_false (not_not.mpr hz)]
    · rw [if_neg hz]
      exact ⟨_, _, rfl, h.set_word hlt (iff_of_false hz hv), by simp, hbits⟩
  · rw [if_pos fun h => hall (htest.mp h), decide_eq_false hall]
    refine ⟨level, ups, rfl, h, rfl, fun i => ?_⟩
    rw [if_neg fun h => hall h.1]

/-! ### Search -/

/-- Whatever it does to its state, the selection picks a bit that is set. -/
def Selects {σ : Type} (select : σ → BitVec 64 → ℕ × σ) : Prop :=
  ∀ g v, v ≠ 0 → (select g v).1 < 64 ∧ v.getLsbD (select g v).1 = true

section Search

variable {σ : Type} {select : σ → BitVec 64 → ℕ × σ} {g g' : σ} {o : ℕ}

theorem findFreeBlock_cons_none (h : findFreeBlock select ups g = some (none, g')) :
    findFreeBlock select (level :: ups) g = some (none, g') := by
  simp only [findFreeBlock, bind_eq_bind, h, bind_some]

theorem findFreeBlock_cons_some (h : findFreeBlock select ups g = some (some o, g')) (ho : o < level.length) :
    findFreeBlock select (level :: ups) g =
      if level.word o = 0 then some (none, g')
      else some (some (o * 64 + (select g' (level.word o)).1), (select g' (level.word o)).2) := by
  simp only [findFreeBlock, bind_eq_bind, h, bind_some, Level.getElem?_eq_some ho]

/-- The bit that is selected in a word. -/
theorem bit_select (hs : Selects select) (h : level.word o ≠ 0) :
    level.bit (o * 64 + (select g (level.word o)).1) = true := by
  obtain ⟨hlt, hbit⟩ := hs g _ h
  have h1 : (o * 64 + (select g (level.word o)).1) / 64 = o := by omega
  have h2 : (o * 64 + (select g (level.word o)).1) % 64 = (select g (level.word o)).1 := by omega
  rw [Level.bit_eq, h1, h2]
  exact hbit

/-- The search finds a bit that is set, if there is one. -/
theorem findFreeBlock_spec (hs : Selects select) :
    ∀ (ups : List Level) {level : Level}, Summary level ups → ∀ g, ∃ found g',
      findFreeBlock select (level :: ups) g = some (found, g') ∧
      match found with
      | none => ∀ i, level.bit i = false
      | some off => level.bit off = true := by
  intro ups
  induction ups with
  | nil =>
    intro level h g
    have hlen : level.length = 1 := h
    have hrun : findFreeBlock select [level] g = if level.word 0 = 0 then some (none, g)
        else some (some (0 * 64 + (select g (level.word 0)).1), (select g (level.word 0)).2) :=
      findFreeBlock_cons_some rfl (by omega)
    by_cases hw : level.word 0 = 0
    · rw [if_pos hw] at hrun
      refine ⟨none, g, hrun, fun i => ?_⟩
      by_contra hbit
      rw [Bool.not_eq_false] at hbit
      have hi : i / 64 = 0 := by
        have := Level.lt_of_bit hbit
        omega
      rw [Level.bit_eq, hi, hw] at hbit
      simp at hbit
    · rw [if_neg hw] at hrun
      exact ⟨_, _, hrun, bit_select hs hw⟩
  | cons up ups ih =>
    intro level h g
    obtain ⟨found, g', hrun, hfound⟩ := ih h.2.2 g
    cases found with
    | none =>
      refine ⟨none, g', findFreeBlock_cons_none hrun, fun i => ?_⟩
      have hw : level.word (i / 64) = 0 := by
        have hup := h.2.1 (i / 64)
        rw [hfound] at hup
        simpa using hup.symm
      rw [Level.bit_eq, hw]
      simp
    | some o =>
      have hw : level.word o ≠ 0 := by
        have hup := h.2.1 o
        rw [hfound] at hup
        simpa using hup.symm
      have hcons := findFreeBlock_cons_some hrun (Level.lt_of_word_ne_zero hw)
      rw [if_neg hw] at hcons
      exact ⟨_, _, hcons, bit_select hs hw⟩

end Search

end Levels

/-! ### Selection -/

theorem countrZero_selects {σ : Type} : @Selects σ fun g v => (countrZero v, g) := by
  intro g v hv
  obtain ⟨j, hj, hbit⟩ := exists_bit_of_ne_zero hv
  have hsome : ((List.range 64).find? v.getLsbD).isSome := by
    rw [find?_isSome]
    exact ⟨j, mem_range.mpr hj, hbit⟩
  obtain ⟨k, hk⟩ := isSome_iff_exists.mp hsome
  have hz : countrZero v = k := by rw [countrZero, hk, getD_some]
  simp only [hz]
  exact ⟨mem_range.mp (mem_of_find?_eq_some hk), find?_some hk⟩

namespace RandomBitGenerator

variable {σ : Type} [TinyMT σ]

theorem low_bit {v : BitVec 64} {n j : ℕ} (hj : j < 64) :
    (v &&& ~~~(BitVec.allOnes 64 <<< n)).getLsbD j = (v.getLsbD j && decide (j < n)) := by
  rw [BitVec.getLsbD_and, BitVec.getLsbD_not, BitVec.getLsbD_shiftLeft, BitVec.getLsbD_allOnes]
  by_cases h : j < n
  · simp [hj, h]
  · have : j - n < 64 := by omega
    simp [hj, h, this]

/-- The loop keeps the part of the word that is left, with a bit in it. -/
theorem selectRandomBitLoop_spec : ∀ (k : ℕ) (g : RandomBitGenerator σ) (v : BitVec 64) (selected : ℕ),
    v ≠ 0 → (∀ j, 1 <<< k ≤ j → v.getLsbD j = false) →
    ∃ j < 1 <<< k, (g.selectRandomBitLoop k v selected).1 = selected + j ∧ v.getLsbD j = true := by
  intro k
  induction k with
  | zero =>
    intro g v selected hv hk
    obtain ⟨j, -, hj⟩ := exists_bit_of_ne_zero hv
    have hj0 : j = 0 := by
      by_contra hne
      have := hk j (by rw [Nat.shiftLeft_zero]; omega)
      rw [hj] at this
      cases this
    subst hj0
    exact ⟨0, by simp, rfl, hj⟩
  | succ k ih =>
    intro g v selected hv hk
    have hhigh : ∀ j, (v >>> (1 <<< k)).getLsbD j = v.getLsbD (1 <<< k + j) := fun j =>
      BitVec.getLsbD_ushiftRight ..
    -- the two ways on, with the high half and with the low half
    have takeHigh : ∀ g' : RandomBitGenerator σ, v >>> (1 <<< k) ≠ 0 →
        ∃ j < 1 <<< (k + 1),
          (g'.selectRandomBitLoop k (v >>> (1 <<< k)) (selected + 1 <<< k)).1 = selected + j ∧
            v.getLsbD j = true := by
      intro g' hne
      obtain ⟨j, hj, hsel, hbit⟩ := ih g' _ (selected + 1 <<< k) hne fun j hj => by
        rw [hhigh]
        exact hk _ (by omega)
      rw [hhigh] at hbit
      exact ⟨1 <<< k + j, by omega, by rw [hsel]; omega, hbit⟩
    have takeLow : ∀ g' : RandomBitGenerator σ, v &&& ~~~(BitVec.allOnes 64 <<< (1 <<< k)) ≠ 0 →
        ∃ j < 1 <<< (k + 1),
          (g'.selectRandomBitLoop k (v &&& ~~~(BitVec.allOnes 64 <<< (1 <<< k))) selected).1 = selected + j ∧
            v.getLsbD j = true := by
      intro g' hne
      obtain ⟨j, hj, hsel, hbit⟩ := ih g' _ selected hne fun j hj => by
        rcases Nat.lt_or_ge j 64 with h64 | h64
        · rw [low_bit h64, decide_eq_false (not_lt.mpr hj), Bool.and_false]
        · exact BitVec.getLsbD_of_ge _ _ h64
      have h64 : j < 64 := BitVec.lt_of_getLsbD hbit
      rw [low_bit h64, Bool.and_eq_true] at hbit
      exact ⟨j, by omega, hsel, by simpa using hbit.1⟩
    have hlow : v >>> (1 <<< k) = 0 → v &&& ~~~(BitVec.allOnes 64 <<< (1 <<< k)) ≠ 0 := by
      intro hz
      obtain ⟨j, hj, hbit⟩ := exists_bit_of_ne_zero hv
      have hjk : j < 1 <<< k := by
        by_contra hge
        have := hhigh (j - 1 <<< k)
        rw [hz, Nat.add_sub_cancel' (not_lt.mp hge), hbit] at this
        simp at this
      refine ne_zero_of_bit (j := j) ?_
      rw [low_bit hj, hbit, decide_eq_true hjk, Bool.and_self]
    simp only [selectRandomBitLoop]
    by_cases h1 : v >>> (1 <<< k) = 0
    · rw [if_neg (not_not.mpr h1)]
      exact takeLow g (hlow h1)
    · rw [if_pos h1]
      by_cases h2 : v &&& ~~~(BitVec.allOnes 64 <<< (1 <<< k)) = 0
      · rw [if_pos h2]
        exact takeHigh g h1
      · rw [if_neg h2]
        cases g.generateRandomBit.1
        · exact takeLow _ h2
        · exact takeHigh _ h1

theorem selectRandomBit_selects : @Selects (RandomBitGenerator σ) selectRandomBit := by
  intro g v hv
  obtain ⟨j, hj, hsel, hbit⟩ := selectRandomBitLoop_spec 6 g v 0 hv fun j hj => BitVec.getLsbD_of_ge _ _ hj
  rw [Nat.zero_add] at hsel
  change (g.selectRandomBitLoop 6 v 0).1 < 64 ∧ v.getLsbD (g.selectRandomBitLoop 6 v 0).1 = true
  rw [hsel]
  exact ⟨hj, hbit⟩

theorem generateRandom_lt (g : RandomBitGenerator σ) {max : ℕ} (h : 0 < max) : (g.generateRandom max).1 < max := by
  simp only [generateRandom]
  have h1 := Nat.div_add_mod' (g.generateRandomBits 0 (1 + if max = 0 then 0 else max.log2 + 1)).1.toNat max
  have h2 := Nat.mod_lt (g.generateRandomBits 0 (1 + if max = 0 then 0 else max.log2 + 1)).1.toNat h
  omega

end RandomBitGenerator

end Kernel
end Citron
