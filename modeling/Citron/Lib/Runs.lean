/-
# Runs of consecutive numbers

A list of numbers as its maximal runs, each with its first number and its length (`runs`). The runs give the list back
(`expand_runs`), so two lists with the same runs are the same. A comparison that takes the runs of one list off the blocks
of another, and may take a part of a block, still accepts equal lists of runs only, because no run goes on where the one
before it ends (`takeRuns_iff`).
-/
import Mathlib

namespace Citron
namespace Lib

open List

/-- The runs of a list that goes on a run. -/
def runsFrom (start count : ℕ) : List ℕ → List (ℕ × ℕ)
  | [] => [(start, count)]
  | p :: ps => if p = start + count then runsFrom start (count + 1) ps else (start, count) :: runsFrom p 1 ps

/-- The maximal runs of a list. -/
def runs : List ℕ → List (ℕ × ℕ)
  | [] => []
  | p :: ps => runsFrom p 1 ps

/-- The numbers of some runs. -/
def expand (rs : List (ℕ × ℕ)) : List ℕ := rs.flatMap fun r => List.range' r.1 r.2

/-- No run goes on where the one before it ends. -/
def Separated (rs : List (ℕ × ℕ)) : Prop := rs.IsChain fun r r' => r'.1 ≠ r.1 + r.2

variable {start count : ℕ} {ps qs : List ℕ} {r b : ℕ × ℕ} {rs bs : List (ℕ × ℕ)}

@[simp] theorem expand_nil : expand [] = [] := rfl

@[simp] theorem expand_cons : expand (r :: rs) = List.range' r.1 r.2 ++ expand rs := rfl

theorem expand_runsFrom : ∀ (ps : List ℕ) (start count : ℕ),
    expand (runsFrom start count ps) = List.range' start count ++ ps
  | [], start, count => by simp [runsFrom]
  | p :: ps, start, count => by
    unfold runsFrom
    split_ifs with h
    · rw [expand_runsFrom ps, h, range'_concat, append_assoc, Nat.one_mul]
      rfl
    · rw [expand_cons, expand_runsFrom ps]
      rfl

/-- The runs of a list give the list back. -/
theorem expand_runs (ps : List ℕ) : expand (runs ps) = ps := by
  cases ps with
  | nil => rfl
  | cons p ps =>
    rw [runs, expand_runsFrom]
    rfl

theorem runs_inj (h : runs ps = runs qs) : ps = qs := by
  rw [← expand_runs ps, h, expand_runs]

theorem head_runsFrom : ∀ (ps : List ℕ) (start count : ℕ), ∃ n rs, runsFrom start count ps = (start, n) :: rs
  | [], _, count => ⟨count, [], rfl⟩
  | p :: ps, start, count => by
    unfold runsFrom
    split_ifs
    · exact head_runsFrom ps start (count + 1)
    · exact ⟨count, _, rfl⟩

theorem runsFrom_ne_nil (ps : List ℕ) (start count : ℕ) : runsFrom start count ps ≠ [] := by
  obtain ⟨n, rs, h⟩ := head_runsFrom ps start count
  rw [h]
  exact cons_ne_nil _ _

theorem separated_runsFrom : ∀ (ps : List ℕ) (start count : ℕ), Separated (runsFrom start count ps)
  | [], _, _ => isChain_singleton _
  | p :: ps, start, count => by
    unfold runsFrom
    split_ifs with h
    · exact separated_runsFrom ps start (count + 1)
    · have htail := separated_runsFrom ps p 1
      obtain ⟨n, rs, heq⟩ := head_runsFrom ps p 1
      rw [heq] at htail ⊢
      exact isChain_cons_cons.mpr ⟨h, htail⟩

theorem pos_of_mem_runsFrom : ∀ {ps : List ℕ} {start count : ℕ}, 0 < count → r ∈ runsFrom start count ps → 0 < r.2
  | [], _, _, hcount, h => by
    rw [mem_singleton.mp h]
    exact hcount
  | p :: ps, start, count, hcount, h => by
    unfold runsFrom at h
    split_ifs at h
    · exact pos_of_mem_runsFrom (Nat.succ_pos _) h
    · rcases mem_cons.mp h with rfl | h
      · exact hcount
      · exact pos_of_mem_runsFrom Nat.one_pos h

theorem separated_runs (ps : List ℕ) : Separated (runs ps) := by
  cases ps with
  | nil => exact isChain_nil
  | cons p ps => exact separated_runsFrom ps p 1

theorem pos_of_mem_runs (h : r ∈ runs ps) : 0 < r.2 := by
  cases ps with
  | nil => cases h
  | cons p ps => exact pos_of_mem_runsFrom Nat.one_pos h

theorem length_expand (rs : List (ℕ × ℕ)) : (expand rs).length = (rs.map (·.2)).sum := by
  induction rs with
  | nil => rfl
  | cons r rs ih => simp [ih]

/-! ### Taking runs off blocks -/

/-- The block that is taken from next, and those behind it: a block that is used up is left. -/
def nextBlock (cur : ℕ × ℕ) (rest : List (ℕ × ℕ)) : Option ((ℕ × ℕ) × List (ℕ × ℕ)) :=
  if cur.2 = 0 then
    match rest with
    | [] => none
    | b :: bs => some (b, bs)
  else some (cur, rest)

/-- Each run but the last is taken off the start of a block, and the last one is a block or the rest of one. -/
def takeRuns (cur : ℕ × ℕ) (rest : List (ℕ × ℕ)) : List (ℕ × ℕ) → Bool
  | [] => false
  | [r] =>
    match nextBlock cur rest with
    | none => false
    | some (b, _) => b = r
  | r :: rs =>
    match nextBlock cur rest with
    | none => false
    | some (b, bs) => (b.1 = r.1 ∧ r.2 ≤ b.2) && takeRuns (b.1 + r.2, b.2 - r.2) bs rs

theorem nextBlock_used {n : ℕ} : nextBlock (n, 0) (b :: bs) = some (b, bs) := rfl

theorem nextBlock_left (h : 0 < b.2) : nextBlock b bs = some (b, bs) := if_neg (Nat.ne_of_gt h)

theorem takeRuns_cons {cur : ℕ × ℕ} (h : rs ≠ []) : takeRuns cur bs (r :: rs) =
    match nextBlock cur bs with
    | none => false
    | some (b, bs) => (b.1 = r.1 ∧ r.2 ≤ b.2) && takeRuns (b.1 + r.2, b.2 - r.2) bs rs := by
  cases rs with
  | nil => exact absurd rfl h
  | cons r' rs => rfl

/-- A block that is not used up is followed by no run that starts elsewhere. -/
theorem takeRuns_left {n left : ℕ} (hleft : 0 < left) (hr : r.1 ≠ n) : takeRuns (n, left) bs (r :: rs) = false := by
  have hnext : nextBlock (n, left) bs = some ((n, left), bs) := nextBlock_left hleft
  cases rs with
  | nil =>
    rw [takeRuns, hnext]
    exact decide_eq_false fun h => hr (congrArg Prod.fst h).symm
  | cons r' rs =>
    have hne : ¬ (n = r.1 ∧ r.2 ≤ left) := fun h => hr h.1.symm
    rw [takeRuns_cons (cons_ne_nil _ _), hnext]
    simp [hne]

/-- **Taking runs off blocks** of the same length succeeds only if they are the blocks. -/
theorem takeRuns_iff : ∀ {bs rs : List (ℕ × ℕ)} {n : ℕ}, (∀ b ∈ bs, 0 < b.2) → (∀ r ∈ rs, 0 < r.2) → Separated rs → rs ≠ [] →
    (bs.map (·.2)).sum = (rs.map (·.2)).sum → (takeRuns (n, 0) bs rs = true ↔ bs = rs)
  | [], r :: rs, n, _, hpos, _, _, hsum => by
    have hr := hpos r mem_cons_self
    simp only [map_nil, sum_nil, map_cons, sum_cons] at hsum
    omega
  | b :: bs, [r], n, hblocks, _, _, _, hsum => by
    rw [takeRuns, nextBlock_used]
    simp only [map_cons, sum_cons, map_nil, sum_nil, Nat.add_zero] at hsum
    rw [decide_eq_true_iff]
    constructor
    · rintro rfl
      cases bs with
      | nil => rfl
      | cons c cs =>
        have hc := hblocks c (mem_cons_of_mem _ mem_cons_self)
        simp only [map_cons, sum_cons] at hsum
        omega
    · intro h
      exact (List.cons.inj h).1
  | b :: bs, r :: r' :: rs, n, hblocks, hpos, hsep, _, hsum => by
    obtain ⟨hstart, hsep'⟩ := isChain_cons_cons.mp hsep
    rw [takeRuns_cons (cons_ne_nil _ _), nextBlock_used, Bool.and_eq_true, decide_eq_true_iff]
    simp only [map_cons, sum_cons] at hsum
    rcases Nat.eq_zero_or_pos (b.2 - r.2) with hzero | hleft
    · rw [hzero]
      constructor
      · rintro ⟨⟨hfirst, hle⟩, hrest⟩
        have hb : b = r := Prod.ext hfirst (by omega)
        subst hb
        have hih : takeRuns (b.1 + b.2, 0) bs (r' :: rs) = true ↔ bs = r' :: rs := takeRuns_iff
          (fun c hc => hblocks c (mem_cons_of_mem _ hc)) (fun s hs => hpos s (mem_cons_of_mem _ hs)) hsep'
          (cons_ne_nil _ _) (by simp only [map_cons, sum_cons]; omega)
        rw [hih.mp hrest]
      · intro h
        obtain ⟨rfl, rfl⟩ := List.cons.inj h
        have hih : takeRuns (b.1 + b.2, 0) (r' :: rs) (r' :: rs) = true ↔ r' :: rs = r' :: rs := takeRuns_iff
          (fun c hc => hblocks c (mem_cons_of_mem _ hc)) (fun s hs => hpos s (mem_cons_of_mem _ hs)) hsep'
          (cons_ne_nil _ _) rfl
        exact ⟨⟨rfl, le_refl _⟩, hih.mpr rfl⟩
    · constructor
      · rintro ⟨⟨hfirst, -⟩, hrest⟩
        rw [takeRuns_left hleft (by rw [hfirst]; exact hstart)] at hrest
        cases hrest
      · intro h
        obtain ⟨rfl, -⟩ := List.cons.inj h
        omega

theorem sum_runs (ps : List ℕ) : ((runs ps).map (·.2)).sum = ps.length := by
  rw [← length_expand, expand_runs]

/-- A block that is not used up is the next one. -/
theorem takeRuns_start {n : ℕ} (h : 0 < b.2) (rs : List (ℕ × ℕ)) : takeRuns b bs rs = takeRuns (n, 0) (b :: bs) rs := by
  have hnext : nextBlock b bs = nextBlock (n, 0) (b :: bs) := nextBlock_left h
  cases rs with
  | nil => rfl
  | cons r rs =>
    cases rs with
    | nil => rw [takeRuns, takeRuns, hnext]
    | cons r' rs => rw [takeRuns_cons (cons_ne_nil _ _), takeRuns_cons (cons_ne_nil _ _), hnext]

/-- **The runs of a list** are taken off the runs of another one of the same length only if the lists are the same. -/
theorem takeRuns_runs (hps : runs ps = b :: bs) (hlength : ps.length = qs.length) :
    takeRuns b bs (runs qs) = true ↔ ps = qs := by
  have hpos : ∀ c ∈ b :: bs, 0 < c.2 := fun c hc => pos_of_mem_runs (hps ▸ hc)
  have hqs : runs qs ≠ [] := by
    cases qs with
    | nil =>
      rw [length_eq_zero_iff.mp hlength] at hps
      cases hps
    | cons q qs => exact runsFrom_ne_nil qs q 1
  have hsum : ((b :: bs).map (·.2)).sum = ((runs qs).map (·.2)).sum := by
    rw [← hps, sum_runs, sum_runs, hlength]
  rw [takeRuns_start (hpos b mem_cons_self),
    takeRuns_iff (n := 0) hpos (fun r hr => pos_of_mem_runs hr) (separated_runs qs) hqs hsum, ← hps]
  exact ⟨runs_inj, fun h => congrArg runs h⟩

/-! ### Places in blocks -/

/-- A block ends behind so many numbers. -/
def IsEnd : List (ℕ × ℕ) → ℕ → Prop
  | [], _ => False
  | b :: bs, n => n = b.2 ∨ ∃ m, IsEnd bs m ∧ n = b.2 + m

variable {cur : ℕ × ℕ} {rest : List (ℕ × ℕ)} {k n m : ℕ}

/-- The first block ends before the others. -/
theorem le_of_isEnd (h : IsEnd (b :: bs) n) : b.2 ≤ n := by
  rcases h with rfl | ⟨m, -, rfl⟩
  · exact le_refl _
  · exact Nat.le_add_right _ _

/-- Where a block is used up the next one has what is left. -/
theorem nextBlock_cases (h : nextBlock cur rest = some (b, bs)) :
    (cur.2 = 0 ∧ rest = b :: bs) ∨ (0 < cur.2 ∧ cur = b ∧ rest = bs) := by
  unfold nextBlock at h
  split_ifs at h with hzero
  · cases rest with
    | nil => cases h
    | cons c cs =>
      obtain ⟨rfl, rfl⟩ := Prod.mk.inj (Option.some.inj h)
      exact .inl ⟨hzero, rfl⟩
  · obtain ⟨rfl, rfl⟩ := Prod.mk.inj (Option.some.inj h)
    exact .inr ⟨Nat.pos_of_ne_zero hzero, rfl, rfl⟩

theorem expand_of_nextBlock (h : nextBlock cur rest = some (b, bs)) : expand (cur :: rest) = expand (b :: bs) := by
  rcases nextBlock_cases h with ⟨hzero, rfl⟩ | ⟨-, rfl, rfl⟩
  · rw [expand_cons, hzero]
    rfl
  · rfl

theorem isEnd_of_nextBlock (h : nextBlock cur rest = some (b, bs)) (hn : 0 < n) :
    IsEnd (cur :: rest) n ↔ IsEnd (b :: bs) n := by
  rcases nextBlock_cases h with ⟨hzero, rfl⟩ | ⟨-, rfl, rfl⟩
  · rw [IsEnd, hzero]
    simp only [Nat.zero_add, exists_eq_right']
    exact or_iff_right (Nat.ne_of_gt hn)
  · exact Iff.rfl

/-- While numbers are left there is a block that has some. -/
theorem exists_nextBlock (hlength : 0 < (expand (cur :: rest)).length) (hrest : ∀ c ∈ rest, 0 < c.2) :
    ∃ b bs, nextBlock cur rest = some (b, bs) ∧ 0 < b.2 ∧ ∀ c ∈ bs, c ∈ rest := by
  rcases Nat.eq_zero_or_pos cur.2 with hzero | hpos
  · cases rest with
    | nil =>
      rw [expand_cons, hzero] at hlength
      exact absurd hlength (Nat.lt_irrefl 0)
    | cons c cs =>
      refine ⟨c, cs, if_pos hzero, hrest c mem_cons_self, fun d hd => mem_cons_of_mem _ hd⟩
  · exact ⟨cur, rest, nextBlock_left hpos, hpos, fun c hc => hc⟩

/-- Numbers are taken off the start of a block. -/
theorem expand_take (hk : k ≤ b.2) : expand (b :: bs) = List.range' b.1 k ++ expand ((b.1 + k, b.2 - k) :: bs) := by
  have hsplit : List.range' b.1 b.2 = List.range' b.1 k ++ List.range' (b.1 + k) (b.2 - k) := by
    rw [range'_append_1, Nat.add_sub_cancel' hk]
  rw [expand_cons, expand_cons, hsplit, append_assoc]

theorem isEnd_take (hk : k ≤ b.2) : IsEnd ((m, b.2 - k) :: bs) n ↔ IsEnd (b :: bs) (n + k) := by
  have hshift : ∀ x, n = b.2 - k + x ↔ n + k = b.2 + x := fun x => by omega
  have hfirst : n = b.2 - k ↔ n + k = b.2 := by omega
  simp only [IsEnd, hshift, hfirst]

end Lib
end Citron
