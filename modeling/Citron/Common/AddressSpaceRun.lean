/-
# The mapping after a run of calls

A run of `Map` and `Unmap` calls keeps the blocks in order, and maps every address
as the last call that covers it says (`Represents`), up to a call of `Unmap` that
leaves a block of its range behind: with an unmapped block before the range and a
mapped block at its end, `UnmapLocked` erases the blocks of the range up to the
last one, and not that one (`LeavesBlock`).
-/
import Citron.Common.AddressSpaceMapping

namespace Citron
namespace Common

open Lib PhysicalAddress List Option

namespace FlatAddressSpaceMap

variable {Pa Extra : Type} [DecidableEq Pa] [PhysicalAddress Pa]

/-! ### One call -/

section Step

variable {blocks l m r : List (Block Pa Extra)} {p q y : Block Pa Extra} {virt size a : ℕ}

/-- `Map` changes its range, and nothing else. -/
theorem mapLocked_spec [Inhabited Extra] (h : Good blocks) (hv : 0 < virt) (hsize : 0 < size) (phys : Pa)
    (x : Extra) (hphys : ∀ n < size, offset phys n ≠ unmappedPa) :
    ∃ blocks', mapLocked blocks virt phys size x = some blocks' ∧ Good blocks' ∧
      ∀ a, lookup blocks' a = if virt ≤ a ∧ a < virt + size then some (offset phys (a - virt), x)
        else lookup blocks a := by
  have hlt : virt < virt + size := Nat.lt_add_of_pos_right hsize
  obtain ⟨l, p, m, r, q, rfl, hc⟩ := exists_cut h.ascending h.head hv (virt + size)
  obtain ⟨-, hasc, halt, hlast, htail⟩ := h.parts hc hlt
  set y : Block Pa Extra := ⟨virt, phys, x⟩ with hy
  have hyu : y.unmapped = false := by
    have hzero : offset phys 0 = phys := by
      unfold offset
      split_ifs
      · exact add_zero phys
      · rfl
    have := hphys 0 hsize
    rw [hzero] at this
    simpa [Block.unmapped] using this
  have htarget : ∀ a, target y a = some (offset phys (a - virt), x) := fun a => if_neg (by simp [hyu])
  have hf := mapRest_follows (m := m) hc.right hasc halt hlast (hc.last_virt hlt) htail hyu
  obtain ⟨hgood, hlook⟩ := h.splice hc hlt (.inr ⟨rfl, rfl, .of_mapped_right hyu⟩) hf fun a t h1 h2 ht => by
    rw [htarget, Option.some.injEq] at ht
    subst ht
    exact hphys _ (by omega)
  have hlist : l ++ [p] ++ [y] ++ mapRest m r q (virt + size) =
    l ++ [p] ++ y :: mapRest m r q (virt + size) := by simp
  refine ⟨_, mapLocked_cut phys x hc.predecessor hsize hc.left hc.middle hc.right hc.last, ?_, fun a => ?_⟩
  · rwa [← hlist]
  · rw [← htarget a, ← hlook a, hlist]

/-- With an unmapped block before the range and a mapped address at its end, a
block of the range besides the one that is reused for the tail. -/
def LeavesBlock (blocks : List (Block Pa Extra)) (virt size : ℕ) : Prop :=
  lookup blocks (virt - 1) = none ∧ (lookup blocks (virt + size - 1)).isSome ∧
    (lookup blocks (virt + size)).isSome ∧
    ∃ b ∈ blocks, ∃ c ∈ blocks, virt ≤ b.virt ∧ b.virt < virt + size ∧ b.virt < c.virt ∧ c.virt ≤ virt + size

omit [DecidableEq Pa] [PhysicalAddress Pa] in
theorem Cut.lt_of_mem {virtEnd : ℕ} (hc : Cut l p m r q virt virtEnd) {b : Block Pa Extra}
    (hb : b ∈ l ++ [p] ++ m) : b.virt < virt ∨ b.virt < virtEnd := by
  simp only [mem_append, mem_singleton] at hb
  rcases hb with (hb | rfl) | hb
  · exact .inl (hc.left b hb)
  · exact .inl hc.predecessor
  · exact .inr (hc.middle b hb).2

omit [DecidableEq Pa] [PhysicalAddress Pa] in
theorem Cut.mem_middle {virtEnd : ℕ} (hc : Cut l p m r q virt virtEnd) {b : Block Pa Extra}
    (hb : b ∈ l ++ [p] ++ m ++ r) (h1 : virt ≤ b.virt) (h2 : b.virt < virtEnd) : b ∈ m := by
  simp only [mem_append, mem_singleton] at hb
  rcases hb with ((hb | rfl) | hb) | hb
  · exact absurd (hc.left b hb) (not_lt.mpr h1)
  · exact absurd hc.predecessor (not_lt.mpr h1)
  · exact hb
  · exact absurd (hc.right b hb) (not_le.mpr h2)

/-- What a cut vector says at the two ends of the range. -/
theorem lookup_ends (h : WellFormed (l ++ [p] ++ m ++ r)) (hc : Cut l p m r q virt (virt + size))
    (hsize : 0 < size) :
    lookup (l ++ [p] ++ m ++ r) (virt - 1) = target p (virt - 1) ∧
      lookup (l ++ [p] ++ m ++ r) (virt + size - 1) = target q (virt + size - 1) ∧
      lookup (l ++ [p] ++ m ++ r) (virt + size) =
        match r with
        | [] => target q (virt + size)
        | b :: _ => if b.virt = virt + size then target b (virt + size) else target q (virt + size) := by
  have hqv := hc.last_virt (Nat.lt_add_of_pos_right hsize)
  have hpv := hc.predecessor
  have hasc := (ascending_append.mp h.ascending).2.1
  refine ⟨?_, ?_, ?_⟩
  · have hnone : lastAt Block.virt (m ++ r) (virt - 1) = none := by
      refine lastAt_eq_none fun b hb => ?_
      rcases mem_append.mp hb with hb | hb
      · have := (hc.middle b hb).1
        omega
      · have := hc.right b hb
        omega
    rw [append_assoc (l ++ [p]), lookup_append_of_le (y := p) (by simp) (by omega), hnone]
    rfl
  · rw [lookup_append_of_le hc.getLast? (by omega), lastAt_eq_none fun b hb => by
      have := hc.right b hb
      omega]
    rfl
  · rw [lookup_append_of_le hc.getLast? hqv.le]
    cases r with
    | nil => rfl
    | cons b r =>
      have hb := hc.right b mem_cons_self
      obtain ⟨hbr, -⟩ := ascending_cons.mp hasc
      by_cases hbv : b.virt = virt + size
      · rw [lastAt_cons_of_lt hbv.le fun c hc => hbv ▸ hbr c hc]
        simp only [hbv, if_true, some_or, bind_some]
      · have hnone : lastAt Block.virt (b :: r) (virt + size) = none := by
          refine lastAt_eq_none (forall_mem_cons.mpr ⟨by omega, fun c hc => ?_⟩)
          have := hbr c hc
          omega
        rw [hnone]
        simp only [hbv, if_false, none_or, bind_some]

theorem target_isSome {b : Block Pa Extra} : (target b a).isSome = b.mapped := by
  unfold target
  have : b.mapped = !b.unmapped := rfl
  rw [this]
  cases b.unmapped <;> rfl

/-- `Unmap` leaves a block behind exactly if it is in the way of the erasing. -/
theorem leavesBlock_iff (h : Good (l ++ [p] ++ m ++ r)) (hc : Cut l p m r q virt (virt + size))
    (hsize : 0 < size) :
    LeavesBlock (l ++ [p] ++ m ++ r) virt size ↔ (unmapStale p m r q (virt + size)).isSome := by
  obtain ⟨h1, h2, h3⟩ := lookup_ends h.toWellFormed hc hsize
  obtain ⟨hmasc, hrasc, -, hlast, -⟩ := h.parts hc (Nat.lt_add_of_pos_right hsize)
  have hqm : q.mapped = !q.unmapped := rfl
  unfold LeavesBlock unmapStale
  rw [h1, h2, h3, target_eq_none, target_isSome]
  cases r with
  | nil =>
    have hqu := hlast q rfl
    simp [hqm, hqu]
  | cons b r =>
    by_cases hpq : p.unmapped = true ∧ q.mapped = true
    · obtain ⟨hpu, hqm'⟩ := hpq
      have hqmem : q ∈ m := by
        rcases mem_cons.mp (mem_of_getLast? hc.last) with rfl | hmem
        · rw [hqm, hpu] at hqm'
          cases hqm'
        · exact hmem
      obtain ⟨m, q', rfl⟩ := (eq_nil_or_concat' m).resolve_left (ne_nil_of_mem hqmem)
      obtain rfl : q' = q := by
        have := hc.last
        rwa [← cons_append, getLast?_concat, Option.some.injEq] at this
      have hqv := hc.middle q' hqmem
      simp only [hpu, hqm', Bool.and_self, if_true, true_and]
      by_cases hbv : b.virt = virt + size
      · simp only [hbv, if_true, target_isSome]
        cases b.mapped with
        | false => simp
        | true =>
          simp only [true_and, if_true, getLast?_concat, isSome_some, iff_true]
          exact ⟨q', by simp, b, by simp, hqv.1, hqv.2, by omega, hbv.le⟩
      · simp only [hbv, if_false, target_isSome, hqm', true_and, dropLast_concat]
        have hmq := (ascending_append.mp hmasc).2.2
        constructor
        · rintro ⟨c, hc1, d, hd1, h4, h5, h6, h7⟩
          have hcm := hc.mem_middle hc1 h4 h5
          have hdm : d ∈ m ++ [q'] := by
            refine hc.mem_middle hd1 (h4.trans h6.le) (lt_of_le_of_ne h7 fun hd => ?_)
            -- no block begins at the end of the range
            rcases mem_append.mp hd1 with hd1 | hd1
            · have := hc.lt_of_mem hd1
              omega
            · have := hc.right b mem_cons_self
              rcases mem_cons.mp hd1 with rfl | hd1
              · exact hbv hd
              · have := (ascending_cons.mp hrasc).1 d hd1
                omega
          cases m with
          | nil =>
            obtain rfl : c = q' := by simpa using hcm
            obtain rfl : d = c := by simpa using hdm
            omega
          | cons => simp
        · intro hm
          obtain ⟨c, hcl⟩ := isSome_iff_exists.mp hm
          have hcm := mem_of_getLast? hcl
          have hcv := hc.middle c (by simp [hcm])
          exact ⟨c, by simp [hcm], q', by simp, hcv.1, hcv.2, hmq c hcm q' (by simp), hqv.2.le⟩
    · simp only [Bool.and_eq_true, hpq, if_false, isSome_none, Bool.false_eq_true, iff_false]
      rintro ⟨hpu, hqm', -⟩
      exact hpq ⟨hpu, hqm'⟩

/-- `Unmap` of a cut vector: what it leaves, and what it makes of the rest. -/
theorem Good.unmap [Inhabited Extra] (h : Good (l ++ [p] ++ m ++ r)) (hc : Cut l p m r q virt (virt + size))
    (hsize : 0 < size) :
    ∃ head, unmapLocked (l ++ [p] ++ m ++ r) virt size =
        some (l ++ [p] ++ head ++ (unmapStale p m r q (virt + size)).toList ++ unmapRest r q (virt + size)) ∧
      Good (l ++ [p] ++ head ++ unmapRest r q (virt + size)) ∧
      (∀ a, lookup (l ++ [p] ++ head ++ unmapRest r q (virt + size)) a =
        if virt ≤ a ∧ a < virt + size then none else lookup (l ++ [p] ++ m ++ r) a) ∧
      (p.unmapped = true → head = []) ∧ ∀ b ∈ unmapRest r q (virt + size), virt + size ≤ b.virt := by
  have hlt : virt < virt + size := Nat.lt_add_of_pos_right hsize
  obtain ⟨hmasc, hasc, halt, hlast, htail⟩ := h.parts hc hlt
  have hnil : r = [] → q.unmapped = true := by
    rintro rfl
    exact hlast q rfl
  have hpm : m = [q] → q.unmapped = true → p.unmapped = false := by
    rintro rfl hqu
    have hchain := h.alternate
    rw [append_assoc, append_assoc] at hchain
    have hpq := (isChain_cons_cons.mp hchain.right_of_append).1
    by_contra hpu
    exact hpq ⟨by simpa using hpu, hqu⟩
  obtain ⟨head, hhead, hrun⟩ := unmapLocked_cut hc.predecessor hsize hc.left hc.middle hc.right hc.last hmasc
    hnil hpm
  -- the last block before the end of the range is unmapped
  obtain ⟨y, hx, hy⟩ : ∃ y, ((head = [] ∧ y = p) ∨ (head = [y] ∧ y.virt = virt ∧ Alternate p y)) ∧
      y.unmapped = true := by
    unfold UnmapHead at hhead
    split_ifs at hhead with hpu
    · exact ⟨p, .inl ⟨hhead, rfl⟩, hpu⟩
    · obtain ⟨u, hu, huv, huu⟩ := hhead
      exact ⟨u, .inr ⟨hu, huv, .of_mapped_left (by simpa using hpu)⟩, huu⟩
  have hf := unmapRest_follows hc.right hasc halt hlast (hc.last_virt hlt) htail hy
  obtain ⟨hgood, hlook⟩ := h.splice hc hlt hx hf fun a t _ _ ht => by
    rw [target_of_unmapped hy] at ht
    cases ht
  refine ⟨head, hrun, hgood, fun a => ?_, fun hpu => ?_, hf.bounds⟩
  · rw [hlook a, target_of_unmapped hy]
  · unfold UnmapHead at hhead
    rwa [if_pos hpu] at hhead

/-- `Unmap` unmaps its range and changes nothing else, unless it leaves a block. -/
theorem unmapLocked_spec [Inhabited Extra] (h : Good blocks) (hv : 0 < virt) (hsize : 0 < size)
    (hok : ¬ LeavesBlock blocks virt size) :
    ∃ blocks', unmapLocked blocks virt size = some blocks' ∧ Good blocks' ∧
      ∀ a, lookup blocks' a = if virt ≤ a ∧ a < virt + size then none else lookup blocks a := by
  obtain ⟨l, p, m, r, q, rfl, hc⟩ := exists_cut h.ascending h.head hv (virt + size)
  obtain ⟨head, hrun, hgood, hlook, -⟩ := h.unmap hc hsize
  rw [leavesBlock_iff h hc hsize, not_isSome_iff_eq_none] at hok
  rw [hok, toList_none, append_nil] at hrun
  exact ⟨_, hrun, hgood, hlook⟩

theorem mem_of_unmapStale {c : Block Pa Extra} {virtEnd : ℕ} (h : unmapStale p m r q virtEnd = some c) :
    p.unmapped = true ∧ c ∈ m := by
  unfold unmapStale at h
  split at h
  · cases h
  · split_ifs at h with hpq
    all_goals simp only [Bool.and_eq_true] at hpq
    · exact ⟨hpq.1, mem_of_getLast? h⟩
    · exact ⟨hpq.1, dropLast_subset _ (mem_of_getLast? h)⟩

/-- A block that is left behind is a second unmapped block, or maps an address of
the range. -/
theorem unmapLocked_leaves [Inhabited Extra] (h : Good blocks) (hv : 0 < virt) (hsize : 0 < size)
    (hbad : LeavesBlock blocks virt size) {blocks' : List (Block Pa Extra)}
    (hrun : unmapLocked blocks virt size = some blocks') :
    ¬ (WellFormed blocks' ∧ ∀ a, virt ≤ a → a < virt + size → lookup blocks' a = none) := by
  obtain ⟨l, p, m, r, q, rfl, hc⟩ := exists_cut h.ascending h.head hv (virt + size)
  obtain ⟨head, hrun', -, -, hhead, hrest⟩ := h.unmap hc hsize
  rw [leavesBlock_iff h hc hsize, isSome_iff_exists] at hbad
  obtain ⟨c, hcs⟩ := hbad
  obtain ⟨hpu, hcm⟩ := mem_of_unmapStale hcs
  obtain ⟨hcv, hcv'⟩ := hc.middle c hcm
  rw [hrun, hcs, hhead hpu, Option.some.injEq, append_nil, toList_some] at hrun'
  subst hrun'
  rintro ⟨hwf, hnone⟩
  have hcu : c.unmapped = true := by
    have hlook := hnone c.virt hcv hcv'
    rw [lookup_append_of_le (y := c) (by simp) le_rfl, lastAt_eq_none fun b hb => hcv'.trans_le (hrest b hb)]
      at hlook
    exact target_eq_none.mp hlook
  have hchain := hwf.alternate
  rw [append_assoc, append_assoc] at hchain
  exact (isChain_cons_cons.mp hchain.right_of_append).1 ⟨hpu, hcu⟩

end Step

/-! ### Runs -/

inductive Call (Pa Extra : Type)
  | map (virt : ℕ) (phys : Pa) (size : ℕ) (extraInfo : Extra)
  | unmap (virt size : ℕ)
deriving DecidableEq, Repr

namespace Call

def virt : Call Pa Extra → ℕ
  | .map virt _ _ _ => virt
  | .unmap virt _ => virt

def size : Call Pa Extra → ℕ
  | .map _ _ size _ => size
  | .unmap _ size => size

def covers (c : Call Pa Extra) (a : ℕ) : Bool := c.virt ≤ a && a < c.virt + c.size

omit [DecidableEq Pa] [PhysicalAddress Pa] in
theorem covers_iff {c : Call Pa Extra} {a : ℕ} : c.covers a = true ↔ c.virt ≤ a ∧ a < c.virt + c.size := by
  simp [covers]

def run [Inhabited Extra] (c : Call Pa Extra) (m : FlatAddressSpaceMap Pa Extra) :
    Option (FlatAddressSpaceMap Pa Extra) :=
  match c with
  | .map virt phys size extraInfo => m.map virt phys size extraInfo
  | .unmap virt size => m.unmap virt size

/-- What the call says of an address that it covers. -/
def result (c : Call Pa Extra) (a : ℕ) : Option (Pa × Extra) :=
  match c with
  | .map virt phys _ extraInfo => some (offset phys (a - virt), extraInfo)
  | .unmap _ _ => none

/-- The range is not empty and lies above 0 and below the limit, and no address
of it is mapped to `UnmappedPa`. -/
structure Valid (c : Call Pa Extra) (vaLimit : ℕ) : Prop where
  virt_pos : 0 < c.virt
  size_pos : 0 < c.size
  le_limit : c.virt + c.size ≤ vaLimit
  physical : ∀ a, c.covers a = true → ∀ t, c.result a = some t → t.1 ≠ unmappedPa

/-- The call leaves a block of its range behind. -/
def Leaves (c : Call Pa Extra) (m : FlatAddressSpaceMap Pa Extra) : Prop :=
  match c with
  | .map _ _ _ _ => False
  | .unmap virt size => LeavesBlock m.blocks virt size

end Call

/-- What the last call that covers the address says of it. -/
def lastWriter (calls : List (Call Pa Extra)) (a : ℕ) : Option (Pa × Extra) :=
  (calls.reverse.find? fun c => c.covers a).bind (·.result a)

/-- The blocks are in order, and say of every address what the last call says
that covers it. -/
structure Represents (m : FlatAddressSpaceMap Pa Extra) (calls : List (Call Pa Extra)) : Prop where
  wellFormed : WellFormed m.blocks
  lookup : ∀ a, lookup m.blocks a = lastWriter calls a

/-- The states of a run, with the calls made so far: none of them leaves a block
behind. -/
inductive Reaches [Inhabited Extra] (vaLimit : ℕ) : List (Call Pa Extra) → FlatAddressSpaceMap Pa Extra → Prop
  | new : Reaches vaLimit [] (new vaLimit)
  | call {calls : List (Call Pa Extra)} {m m' : FlatAddressSpaceMap Pa Extra} {c : Call Pa Extra}
      (h : Reaches vaLimit calls m) (hc : c.Valid vaLimit) (hok : ¬ c.Leaves m) (hrun : c.run m = some m') :
      Reaches vaLimit (calls ++ [c]) m'

section Runs

variable [Inhabited Extra] {vaLimit : ℕ} {calls : List (Call Pa Extra)} {m : FlatAddressSpaceMap Pa Extra}
  {c : Call Pa Extra}

omit [DecidableEq Pa] [Inhabited Extra] in
theorem lastWriter_concat (a : ℕ) :
    lastWriter (calls ++ [c]) a = if c.covers a then c.result a else lastWriter calls a := by
  unfold lastWriter
  rw [reverse_append, reverse_singleton, singleton_append, find?_cons]
  cases c.covers a <;> rfl

/-- **Step.** -/
theorem Call.run_spec (h : Good m.blocks) (hv : c.Valid vaLimit) (hok : ¬ c.Leaves m) :
    ∃ m', c.run m = some m' ∧ Good m'.blocks ∧
      ∀ a, FlatAddressSpaceMap.lookup m'.blocks a =
        if c.covers a then c.result a else FlatAddressSpaceMap.lookup m.blocks a := by
  cases c with
  | map virt phys size x =>
    have hpos : 0 < virt := hv.virt_pos
    have hsize : 0 < size := hv.size_pos
    have hphys : ∀ n < size, offset phys n ≠ unmappedPa := by
      intro n hn
      have := hv.physical (virt + n) (by rw [covers_iff]; exact ⟨by simp [Call.virt], by simpa [Call.virt, Call.size] using hn⟩) _ rfl
      simpa using this
    obtain ⟨blocks', hrun, hgood, hlook⟩ := mapLocked_spec h hpos hsize phys x hphys
    refine ⟨{ m with blocks := blocks' }, ?_, hgood, fun a => ?_⟩
    · change (mapLocked m.blocks virt phys size x).bind _ = _
      rw [hrun]
      rfl
    · rw [hlook a]
      simp only [covers_iff]
      rfl
  | unmap virt size =>
    have hpos : 0 < virt := hv.virt_pos
    have hsize : 0 < size := hv.size_pos
    obtain ⟨blocks', hrun, hgood, hlook⟩ := unmapLocked_spec h hpos hsize hok
    refine ⟨{ m with blocks := blocks' }, ?_, hgood, fun a => ?_⟩
    · change (unmapLocked m.blocks virt size).bind _ = _
      rw [hrun]
      rfl
    · rw [hlook a]
      simp only [covers_iff]
      rfl

theorem good_new : Good (new vaLimit : FlatAddressSpaceMap Pa Extra).blocks ∧
    ∀ a, FlatAddressSpaceMap.lookup (new vaLimit : FlatAddressSpaceMap Pa Extra).blocks a = none := by
  have hu : (⟨0, unmappedPa, default⟩ : Block Pa Extra).unmapped = true := beq_self_eq_true _
  have hlook : ∀ a, FlatAddressSpaceMap.lookup (new vaLimit : FlatAddressSpaceMap Pa Extra).blocks a = none := by
    intro a
    have : lastAt Block.virt [(⟨0, unmappedPa, default⟩ : Block Pa Extra)] a = some ⟨0, unmappedPa, default⟩ :=
      lastAt_cons_of_lt (Nat.zero_le a) (by simp)
    change (lastAt Block.virt [⟨0, unmappedPa, default⟩] a).bind _ = none
    rw [this]
    exact target_of_unmapped hu
  refine ⟨⟨⟨pairwise_singleton _ _, ⟨_, [], rfl, rfl, hu⟩, isChain_singleton _⟩, ?_, ?_⟩, hlook⟩
  · intro b hb
    obtain rfl : _ = b := by simpa [new] using hb
    exact hu
  · intro a t ht
    rw [hlook a] at ht
    cases ht

/-- **Run.** -/
theorem Reaches.good (h : Reaches vaLimit calls m) :
    Good m.blocks ∧ ∀ a, FlatAddressSpaceMap.lookup m.blocks a = lastWriter calls a := by
  induction h with
  | new => exact ⟨good_new.1, good_new.2⟩
  | call _ hc hok hrun ih =>
    obtain ⟨m', hrun', hgood, hlook⟩ := Call.run_spec ih.1 hc hok
    rw [hrun', Option.some.injEq] at hrun
    subst hrun
    refine ⟨hgood, fun a => ?_⟩
    rw [hlook a, lastWriter_concat, ih.2 a]

/-- In every state of a run whose calls leave no block behind, the blocks are in
order and map every address as the last call that covers it says. The next call
keeps this exactly if it leaves no block behind. -/
theorem reaches_represents_iff (h : Reaches vaLimit calls m) :
    Represents m calls ∧ ∀ c : Call Pa Extra, c.Valid vaLimit →
      ((∃ m', c.run m = some m' ∧ Represents m' (calls ++ [c])) ↔ ¬ c.Leaves m) := by
  obtain ⟨hgood, hlook⟩ := h.good
  refine ⟨⟨hgood.toWellFormed, hlook⟩, fun c hv => ⟨?_, fun hok => ?_⟩⟩
  · rintro ⟨m', hrun, hwf, hlook'⟩ hbad
    cases c with
    | map => exact hbad
    | unmap virt size =>
      obtain ⟨blocks', hblocks, hm'⟩ := bind_eq_some_iff.mp hrun
      obtain rfl := Option.some.inj hm'
      refine unmapLocked_leaves hgood hv.virt_pos hv.size_pos hbad hblocks ⟨hwf, fun a h1 h2 => ?_⟩
      rw [hlook' a, lastWriter_concat, if_pos (Call.covers_iff.mpr ⟨h1, h2⟩)]
      rfl
  · obtain ⟨m', hrun, hgood', hlook'⟩ := Call.run_spec hgood hv hok
    refine ⟨m', hrun, hgood'.toWellFormed, fun a => ?_⟩
    rw [hlook' a, lastWriter_concat, hlook a]

end Runs

/-! ### A run of the flat allocator -/

/-- `FlatAllocator` has the physical type `bool`: an address is taken or free. -/
instance : PhysicalAddress Bool where
  unmappedPa := false
  paContigSplit := false
  add p _ := p
  add_zero _ := rfl
  add_add _ _ _ := rfl

section FlatAllocator

/-- Two blocks that lie next to each other. -/
def neighbours : List (Call Bool Unit) := [.map 0x1000 true 0x1000 (), .map 0x2000 true 0x1000 ()]

def neighboursMap : FlatAddressSpaceMap Bool Unit :=
  ⟨[⟨0, false, ()⟩, ⟨0x1000, true, ()⟩, ⟨0x2000, true, ()⟩, ⟨0x3000, false, ()⟩], 0x10000⟩

theorem valid_map {virt size vaLimit : ℕ} (h1 : 0 < virt) (h2 : 0 < size) (h3 : virt + size ≤ vaLimit) :
    (Call.map virt true size ()).Valid vaLimit :=
  ⟨h1, h2, h3, fun a _ t ht => by
    obtain rfl := Option.some.inj ht
    change true ≠ false
    decide⟩

theorem valid_unmap {virt size vaLimit : ℕ} (h1 : 0 < virt) (h2 : 0 < size) (h3 : virt + size ≤ vaLimit) :
    (Call.unmap virt size : Call Bool Unit).Valid vaLimit := ⟨h1, h2, h3, fun _ _ _ ht => nomatch ht⟩

theorem reaches_neighbours : Reaches 0x10000 neighbours neighboursMap :=
  (Reaches.new.call (valid_map (by decide) (by decide) (by decide)) id rfl).call
    (valid_map (by decide) (by decide) (by decide)) id rfl

/-- Freeing the second block is right. -/
theorem represents_freed_second : ∃ m, (Call.unmap 0x2000 0x1000).run neighboursMap = some m ∧
    Represents m (neighbours ++ [.unmap 0x2000 0x1000]) := by
  refine ((reaches_represents_iff reaches_neighbours).2 _
    (valid_unmap (by decide) (by decide) (by decide))).mpr ?_
  rintro ⟨hfirst, -⟩
  have : lookup neighboursMap.blocks 0x1fff = some (true, ()) := by decide
  rw [this] at hfirst
  cases hfirst

/-- Freeing the first one is not: it stays mapped. -/
theorem not_represents_freed_first : ¬ ∀ (calls : List (Call Bool Unit)) (m : FlatAddressSpaceMap Bool Unit),
    (∀ c ∈ calls, c.Valid 0x10000) → calls.foldlM (fun m c => c.run m) (new 0x10000) = some m →
      Represents m calls := by
  intro h
  have hvalid : ∀ c ∈ neighbours ++ [.unmap 0x1000 0x1000], c.Valid 0x10000 := by
    intro c hc
    simp only [neighbours, cons_append, nil_append, mem_cons, not_mem_nil, or_false] at hc
    rcases hc with rfl | rfl | rfl
    · exact valid_map (by decide) (by decide) (by decide)
    · exact valid_map (by decide) (by decide) (by decide)
    · exact valid_unmap (by decide) (by decide) (by decide)
  have hlook := (h _ neighboursMap hvalid rfl).lookup 0x1000
  have h1 : lookup neighboursMap.blocks 0x1000 = some (true, ()) := by decide
  have h2 : lastWriter (neighbours ++ [.unmap 0x1000 0x1000]) 0x1000 = none := by decide
  rw [h1, h2] at hlook
  cases hlook

end FlatAllocator

end FlatAddressSpaceMap

end Common
end Citron
