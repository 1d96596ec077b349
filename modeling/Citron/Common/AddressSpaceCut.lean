/-
# The operations on a cut vector

The vector is cut at the two ends of the range of a call: the blocks before the
range, those that begin in it, and those from its end on. On these parts the
iterators of `MapLocked` and `UnmapLocked` point to known blocks, and what the
functions make of the vector can be read off.
-/
import Citron.Common.AddressSpace
import Citron.Lib.Breakpoints

namespace Citron
namespace Common

open Lib PhysicalAddress List Option

namespace FlatAddressSpaceMap

variable {Pa Extra : Type}
variable {l m r e : List (Block Pa Extra)} {p q b : Block Pa Extra} {virt virtEnd size : ℕ}

/-! ### Iterators -/

theorem getElem?_cut : (l ++ b :: r)[l.length]? = some b := by simp

theorem set_cut (c : Block Pa Extra) : (l ++ b :: r).set l.length c = l ++ c :: r := by simp

theorem lowerBound_cut (hl : ∀ b ∈ l, b.virt < virtEnd) (hr : ∀ b ∈ r, virtEnd ≤ b.virt) :
    lowerBound (l ++ r) virtEnd = l.length := findIdx_cut hl hr

theorem insertBlocks_cut (new : List (Block Pa Extra)) :
    insertBlocks (l ++ r) l.length new = l ++ new ++ r := by simp [insertBlocks]

theorem eraseBlocks_cut : eraseBlocks (l ++ (m ++ r)) l.length (l.length + m.length) = l ++ r := by
  simp [eraseBlocks, drop_append]

/-- The blocks behind the first one are erased, if there are any. -/
theorem eraseRest_cut (c : Block Pa Extra) :
    (if l.length + 1 ≠ (l ++ c :: m).length then
      eraseBlocks (l ++ c :: m ++ r) (l.length + 1) (l ++ c :: m).length
    else l ++ c :: m ++ r) = l ++ c :: r := by
  have h := eraseBlocks_cut (l := l ++ [c]) (m := m) (r := r)
  have h1 : (l ++ [c]).length = l.length + 1 := by simp
  have h2 : (l ++ [c]).length + m.length = (l ++ c :: m).length := by simp; omega
  have h3 : l ++ [c] ++ (m ++ r) = l ++ c :: m ++ r := by simp
  have h4 : l ++ [c] ++ r = l ++ c :: r := by simp
  rw [h2, h1, h3, h4] at h
  split_ifs with hne
  · exact h
  · cases m with
    | nil => simp
    | cons => simp at hne

section

variable {blocks : List (Block Pa Extra)} {i : ℕ}

theorem walkBackToSuccessor_of_lt (h : blocks[i]? = some b)
    (hb : b.virt < virt) : walkBackToSuccessor blocks virt (i + 1) = some (i + 1) := by
  simp [walkBackToSuccessor, h, not_le.mpr hb]

theorem walkBackToSuccessor_of_le (h : blocks[i]? = some b) (hb : virt ≤ b.virt) :
    walkBackToSuccessor blocks virt (i + 1) = walkBackToSuccessor blocks virt i := by
  simp [walkBackToSuccessor, h, hb]

theorem walkBackToPredecessor_of_lt (h : blocks[i]? = some b)
    (hb : b.virt < virt) : walkBackToPredecessor blocks virt i = some i := by
  cases i <;> simp [walkBackToPredecessor, h, not_le.mpr hb]

theorem walkBackToPredecessor_of_le (h : blocks[i + 1]? = some b) (hb : virt ≤ b.virt) :
    walkBackToPredecessor blocks virt (i + 1) = walkBackToPredecessor blocks virt i := by
  simp [walkBackToPredecessor, h, hb]

end

/-- The walk of `MapLocked` ends behind the last block before the range. -/
theorem walkBackToSuccessor_cut (hp : p.virt < virt) (hm : ∀ b ∈ m, virt ≤ b.virt) (r : List (Block Pa Extra)) :
    walkBackToSuccessor (l ++ [p] ++ m ++ r) virt (l ++ [p] ++ m).length = some (l ++ [p]).length := by
  induction m using List.reverseRecOn generalizing r with
  | nil =>
    have hat : (l ++ [p] ++ r)[l.length]? = some p := by simp
    rw [append_nil, length_append]
    exact walkBackToSuccessor_of_lt hat hp
  | append_singleton m q ih =>
    have hlist : l ++ [p] ++ (m ++ [q]) ++ r = l ++ [p] ++ m ++ q :: r := by simp
    have hlen : (l ++ [p] ++ (m ++ [q])).length = (l ++ [p] ++ m).length + 1 := by simp; omega
    rw [hlen, hlist, walkBackToSuccessor_of_le getElem?_cut (hm q (by simp))]
    exact ih (fun b hb => hm b (by simp [hb])) _

/-- The walk of `UnmapLocked` ends at the last block before the range. -/
theorem walkBackToPredecessor_cut (hp : p.virt < virt) (hm : ∀ b ∈ m, virt ≤ b.virt) (r : List (Block Pa Extra)) :
    walkBackToPredecessor (l ++ p :: (m ++ r)) virt (l.length + m.length) = some l.length := by
  induction m using List.reverseRecOn generalizing r with
  | nil => exact walkBackToPredecessor_of_lt getElem?_cut hp
  | append_singleton m q ih =>
    have hlist : l ++ p :: (m ++ [q] ++ r) = (l ++ p :: m) ++ q :: r := by simp
    have hat : (l ++ p :: (m ++ [q] ++ r))[l.length + m.length + 1]? = some q := by
      have hlen : l.length + m.length + 1 = (l ++ p :: m).length := by simp; omega
      rw [hlist, hlen]
      exact getElem?_cut
    rw [length_append, length_singleton, ← Nat.add_assoc,
      walkBackToPredecessor_of_le hat (hm q (by simp)), append_assoc m]
    exact ih (fun b hb => hm b (by simp [hb])) _

/-- The block `q` is the last one before the end of the range. -/
theorem end_cut (hp : p.virt < virt) (hsize : 0 < size) (hl : ∀ b ∈ l, b.virt < virt)
    (hm : ∀ b ∈ m, virt ≤ b.virt ∧ b.virt < virt + size) (hr : ∀ b ∈ r, virt + size ≤ b.virt)
    (hq : (p :: m).getLast? = some q) :
    ∃ a, l ++ [p] ++ m = a ++ [q] ∧ (l ++ [p] ++ m).length = a.length + 1 ∧
      lowerBound (l ++ [p] ++ m ++ r) (virt + size) = a.length + 1 ∧
      (l ++ [p] ++ m ++ r)[a.length]? = some q := by
  have hlow : lowerBound (l ++ [p] ++ m ++ r) (virt + size) = (l ++ [p] ++ m).length := by
    refine lowerBound_cut (fun b hb => ?_) hr
    simp only [mem_append, mem_singleton] at hb
    rcases hb with (hb | rfl) | hb
    · exact (hl b hb).trans (Nat.lt_add_of_pos_right hsize)
    · exact hp.trans (Nat.lt_add_of_pos_right hsize)
    · exact (hm b hb).2
  obtain ⟨a, ha⟩ := getLast?_eq_some_iff.mp hq
  have hla : l ++ [p] ++ m = l ++ a ++ [q] := by
    rw [append_assoc, singleton_append, ha, append_assoc]
  have hlen : (l ++ [p] ++ m).length = (l ++ a).length + 1 := by
    rw [hla, length_append, length_singleton]
  exact ⟨l ++ a, hla, hlen, hlow.trans hlen, by rw [hla]; simp⟩

/-! ### Map -/

theorem mapStart_cut (phys : Pa) (x : Extra) (hp : p.virt < virt) (hm : ∀ b ∈ m, virt ≤ b.virt ∧ b.virt < virtEnd)
    (hb : b.virt = virtEnd) :
    mapStart (l ++ [p] ++ m ++ b :: r) virt virtEnd phys x (l ++ [p] ++ m).length =
      some (l ++ [p] ++ ⟨virt, phys, x⟩ :: b :: r) := by
  unfold mapStart
  rw [walkBackToSuccessor_cut hp fun b hb => (hm b hb).1]
  cases m with
  | nil =>
    have hat : (l ++ [p] ++ [] ++ b :: r)[(l ++ [p]).length]? = some b := by
      rw [append_nil]
      exact getElem?_cut
    simp only [bind_eq_bind, bind_some, hat, hb, gt_iff_lt, lt_irrefl, if_false, if_true]
    rw [append_nil, insertBlocks_cut]
    simp
  | cons c m =>
    obtain ⟨-, hc⟩ := hm c mem_cons_self
    have hat : (l ++ [p] ++ c :: m ++ b :: r)[(l ++ [p]).length]? = some c := by
      rw [append_assoc _ (c :: m)]
      exact getElem?_cut
    simp only [bind_eq_bind, bind_some, hat, gt_iff_lt, not_lt.mpr hc.le, hc.ne, if_false]
    rw [eraseRest_cut, set_cut]

variable [DecidableEq Pa] [PhysicalAddress Pa]

/-- What follows the new block in `MapLocked`: the blocks from the end of the
range on, with a tail of the block `q` if none begins there. -/
def mapRest [Inhabited Extra] (m r : List (Block Pa Extra)) (q : Block Pa Extra) (virtEnd : ℕ) :
    List (Block Pa Extra) :=
  match r with
  | [] => if m.isEmpty then [⟨virtEnd, unmappedPa, default⟩] else [{ q with virt := virtEnd }]
  | b :: r =>
    if b.virt = virtEnd then b :: r
    else ⟨virtEnd, mapTailPhys q virtEnd, q.extraInfo⟩ :: b :: r

theorem mapRest_cons [Inhabited Extra] {v : ℕ} : mapRest m (b :: r) q v =
    if b.virt = v then b :: r else ⟨v, mapTailPhys q v, q.extraInfo⟩ :: b :: r := rfl

theorem mapRest_nil [Inhabited Extra] {v : ℕ} (hm : m ≠ []) : mapRest m [] q v = [{ q with virt := v }] := by
  cases m with
  | nil => exact absurd rfl hm
  | cons => rfl

section MapLocked

variable [Inhabited Extra] {blocks : List (Block Pa Extra)} {phys : Pa} {x : Extra} {i : ℕ}
  (hlow : lowerBound blocks (virt + size) = i + 1) (hq : blocks[i]? = some q)
include hlow hq

theorem mapLocked_of_some (hb : blocks[i + 1]? = some b) :
    mapLocked blocks virt phys size x =
      if b.virt ≠ virt + size then
        if i ≠ 0 ∧ q.virt ≥ virt then
          mapStart (blocks.set i ⟨virt + size, mapTailPhys q (virt + size), q.extraInfo⟩) virt (virt + size)
            phys x i
        else
          some (insertBlocks blocks (i + 1)
            [⟨virt, phys, x⟩, ⟨virt + size, mapTailPhys q (virt + size), q.extraInfo⟩])
      else mapStart blocks virt (virt + size) phys x (i + 1) := by
  unfold mapLocked
  simp only [hlow, prev, bind_eq_bind, bind_some, hq, hb]

theorem mapLocked_of_none (hb : blocks[i + 1]? = none) :
    mapLocked blocks virt phys size x =
      if i ≠ 0 ∧ q.virt ≥ virt then
        mapStart (blocks.set i { q with virt := virt + size }) virt (virt + size) phys x i
      else
        some (insertBlocks blocks (i + 1)
          [⟨virt, phys, x⟩, ⟨virt + size, unmappedPa, default⟩]) := by
  unfold mapLocked
  simp only [hlow, prev, bind_eq_bind, bind_some, hq, hb]

end MapLocked

/-- `MapLocked` puts its block between those before the range and what follows. -/
theorem mapLocked_cut [Inhabited Extra] (phys : Pa) (x : Extra) (hp : p.virt < virt) (hsize : 0 < size)
    (hl : ∀ b ∈ l, b.virt < virt) (hm : ∀ b ∈ m, virt ≤ b.virt ∧ b.virt < virt + size)
    (hr : ∀ b ∈ r, virt + size ≤ b.virt) (hq : (p :: m).getLast? = some q) :
    mapLocked (l ++ [p] ++ m ++ r) virt phys size x =
      some (l ++ [p] ++ ⟨virt, phys, x⟩ :: mapRest m r q (virt + size)) := by
  obtain ⟨a, ha, hlen, hlow, hat⟩ := end_cut hp hsize hl hm hr hq
  have hins := insertBlocks_cut (l := l ++ [p] ++ m) (r := r)
  rw [hlen] at hins
  cases r with
  | cons b r =>
    have hb : (l ++ [p] ++ m ++ b :: r)[a.length + 1]? = some b := by rw [← hlen]; exact getElem?_cut
    rw [mapLocked_of_some hlow hat hb, mapRest_cons]
    by_cases hbv : b.virt = virt + size
    · rw [if_neg (not_not.mpr hbv), if_pos hbv, ← hlen]
      exact mapStart_cut phys x hp hm hbv
    rw [if_pos hbv, if_neg hbv]
    rcases eq_nil_or_concat' m with rfl | ⟨m, q', rfl⟩
    · obtain rfl : p = q := by simpa using hq
      rw [if_neg fun h => absurd h.2 (not_le.mpr hp), hins]
      simp
    · rw [← cons_append, getLast?_concat, Option.some.injEq] at hq
      subst hq
      obtain rfl : a = l ++ [p] ++ m := by simpa [← append_assoc] using ha.symm
      have hqv := (hm q' (by simp)).1
      rw [if_pos ⟨by simp, hqv⟩, ha, append_assoc _ [q'], singleton_append, set_cut]
      exact mapStart_cut phys x hp (fun b hb => hm b (by simp [hb])) rfl
  | nil =>
    rw [mapLocked_of_none hlow hat (by rw [← hlen]; simp)]
    rcases eq_nil_or_concat' m with rfl | ⟨m, q', rfl⟩
    · obtain rfl : p = q := by simpa using hq
      rw [if_neg fun h => absurd h.2 (not_le.mpr hp), hins]
      simp [mapRest]
    · rw [← cons_append, getLast?_concat, Option.some.injEq] at hq
      subst hq
      obtain rfl : a = l ++ [p] ++ m := by simpa [← append_assoc] using ha.symm
      have hqv := (hm q' (by simp)).1
      rw [if_pos ⟨by simp, hqv⟩, ha, append_assoc _ [q'], singleton_append, set_cut,
        mapRest_nil (by simp)]
      exact mapStart_cut phys x hp (fun b hb => hm b (by simp [hb])) rfl

/-! ### Unmap -/

/-- The unmapped block of the range, if the block before it is mapped. -/
def UnmapHead (p : Block Pa Extra) (virt : ℕ) (head : List (Block Pa Extra)) : Prop :=
  if p.unmapped then head = [] else ∃ u : Block Pa Extra, head = [u] ∧ u.virt = virt ∧ u.unmapped = true

theorem unmapHead_nil (h : p.unmapped = true) : UnmapHead p virt [] := by
  unfold UnmapHead
  rw [if_pos h]

theorem unmapHead_singleton (h : ¬ p.unmapped = true) (hv : b.virt = virt) (hu : b.unmapped = true) :
    UnmapHead p virt [b] := by
  unfold UnmapHead
  rw [if_neg h]
  exact ⟨b, rfl, hv, hu⟩

theorem eraseBlocksWithEndUnmapped_cut (hp : p.virt < virt) (hm : ∀ b ∈ m, virt ≤ b.virt) (hb : virt ≤ b.virt)
    (hu : b.unmapped = true) :
    ∃ head, UnmapHead p virt head ∧ eraseBlocksWithEndUnmapped (l ++ [p] ++ m ++ b :: r) virt
      (l ++ [p] ++ m).length = some (l ++ [p] ++ head ++ r) := by
  have hwalk : walkBackToPredecessor (l ++ [p] ++ m ++ b :: r) virt (l ++ [p] ++ m).length =
      some l.length := by
    have h := walkBackToPredecessor_cut (l := l) (m := m ++ [b]) hp
      (forall_mem_append.mpr ⟨hm, by simpa using hb⟩) r
    have h1 : l ++ p :: (m ++ [b] ++ r) = l ++ [p] ++ m ++ b :: r := by simp
    have h2 : l.length + (m ++ [b]).length = (l ++ [p] ++ m).length := by simp
    rwa [h1, h2] at h
  have hpat : (l ++ [p] ++ m ++ b :: r)[l.length]? = some p := by simp
  unfold eraseBlocksWithEndUnmapped
  simp only [hwalk, bind_eq_bind, bind_some, hpat, getElem?_cut, set_cut]
  by_cases hpu : p.unmapped
  · refine ⟨[], unmapHead_nil hpu, ?_⟩
    have h := eraseBlocks_cut (l := l ++ [p]) (m := m ++ [b]) (r := r)
    have h1 : (l ++ [p]).length = l.length + 1 := by simp
    have h2 : (l ++ [p]).length + (m ++ [b]).length = (l ++ [p] ++ m).length + 1 := by simp; omega
    have h3 : l ++ [p] ++ (m ++ [b] ++ r) = l ++ [p] ++ m ++ b :: r := by simp
    rw [h2, h1, h3] at h
    rw [if_pos hpu, h, append_nil]
  · refine ⟨[{ b with virt := virt }], unmapHead_singleton hpu rfl hu, ?_⟩
    have h := eraseBlocks_cut (l := l ++ [p]) (m := m) (r := { b with virt := virt } :: r)
    have h1 : (l ++ [p]).length = l.length + 1 := by simp
    rw [← length_append, h1, ← append_assoc] at h
    rw [if_neg hpu, h]
    simp

/-- The blocks that the end of `UnmapLocked` makes of those before the end of
the range. With an unmapped block before the range the last of them stays. -/
theorem unmapStart_cut [Inhabited Extra] (hp : p.virt < virt) (hv : virt ≤ virtEnd)
    (hm : ∀ b ∈ m, virt ≤ b.virt ∧ b.virt < virtEnd) (hb : b.virt = virtEnd) :
    ∃ head, UnmapHead p virt head ∧
      unmapStart (l ++ [p] ++ m ++ b :: r) virt virtEnd (l.length + m.length) (l ++ [p] ++ m).length =
        some (l ++ [p] ++ head ++ (if p.unmapped then m.getLast?.toList else []) ++ b :: r) := by
  have hwalk : walkBackToPredecessor (l ++ [p] ++ m ++ b :: r) virt (l ++ [p] ++ m).length =
      some l.length := by
    have h := walkBackToPredecessor_cut (l := l) (m := m ++ [b]) hp
      (forall_mem_append.mpr ⟨fun b hb => (hm b hb).1, by simpa [hb] using hv⟩) r
    have h1 : l ++ p :: (m ++ [b] ++ r) = l ++ [p] ++ m ++ b :: r := by simp
    have h2 : l.length + (m ++ [b]).length = (l ++ [p] ++ m).length := by simp
    rwa [h1, h2] at h
  have hpat : (l ++ [p] ++ m ++ b :: r)[l.length]? = some p := by simp
  have hlen : l.length + 1 = (l ++ [p]).length := by simp
  have hmapped : p.mapped = !p.unmapped := rfl
  unfold unmapStart
  simp only [hwalk, bind_eq_bind, bind_some, hpat, hmapped, hlen]
  cases m with
  | nil =>
    have hat : (l ++ [p] ++ [] ++ b :: r)[(l ++ [p]).length]? = some b := by simp
    simp only [hat, bind_some, hb, gt_iff_lt, lt_irrefl, if_false, if_true]
    by_cases hpu : p.unmapped
    · refine ⟨[], unmapHead_nil hpu, ?_⟩
      simp [hpu]
    · refine ⟨[⟨virt, unmappedPa, default⟩], unmapHead_singleton hpu rfl (beq_self_eq_true _), ?_⟩
      rw [append_nil, insertBlocks_cut]
      simp [hpu]
  | cons c m =>
    obtain ⟨-, hc⟩ := hm c mem_cons_self
    have hat : (l ++ [p] ++ c :: m ++ b :: r)[(l ++ [p]).length]? = some c := by
      rw [append_assoc _ (c :: m)]
      exact getElem?_cut
    simp only [hat, bind_some, gt_iff_lt, not_lt.mpr hc.le, hc.ne, if_false]
    by_cases hpu : p.unmapped
    · refine ⟨[], unmapHead_nil hpu, ?_⟩
      -- the end of the erased range is the last block, not the end of the blocks
      obtain ⟨m', q, hq⟩ := (eq_nil_or_concat' (c :: m)).resolve_left (by simp)
      rw [if_pos hpu, if_pos hpu, hq]
      have h := eraseBlocks_cut (l := l ++ [p]) (m := m') (r := q :: b :: r)
      have h1 : (l ++ [p]).length + m'.length = l.length + (m' ++ [q]).length := by simp; omega
      have h2 : l ++ [p] ++ (m' ++ q :: b :: r) = l ++ [p] ++ (m' ++ [q]) ++ b :: r := by simp
      rw [h1, h2] at h
      rw [h]
      simp
    · refine ⟨[{ c with virt := virt, phys := unmappedPa }],
        unmapHead_singleton hpu rfl (beq_self_eq_true _), ?_⟩
      rw [if_neg hpu, if_neg hpu, eraseRest_cut, set_cut]
      simp

/-- What follows the range in `UnmapLocked`: the blocks from its end on, with a
tail of the block `q` if that is mapped and none begins there. -/
def unmapRest (r : List (Block Pa Extra)) (q : Block Pa Extra) (virtEnd : ℕ) : List (Block Pa Extra) :=
  if q.unmapped then r
  else
    match r with
    | [] => []
    | b :: r =>
      if b.virt = virtEnd then if b.unmapped then r else b :: r
      else ⟨virtEnd, unmapTailPhys q virtEnd, q.extraInfo⟩ :: b :: r

/-- The block of the range that `UnmapLocked` leaves behind. -/
def unmapStale (p : Block Pa Extra) (m r : List (Block Pa Extra)) (q : Block Pa Extra) (virtEnd : ℕ) :
    Option (Block Pa Extra) :=
  match r with
  | [] => none
  | b :: _ =>
    if p.unmapped && q.mapped then
      if b.virt = virtEnd then if b.mapped then m.getLast? else none else m.dropLast.getLast?
    else none

section UnmapLocked

variable [Inhabited Extra] {blocks : List (Block Pa Extra)} {i : ℕ}
  (hlow : lowerBound blocks (virt + size) = i + 1) (hq : blocks[i]? = some q)
include hlow hq

theorem unmapLocked_of_unmapped (hu : q.unmapped = true) :
    unmapLocked blocks virt size =
      if q.virt > virt then eraseBlocksWithEndUnmapped blocks virt i else some blocks := by
  unfold unmapLocked
  simp only [hlow, prev, bind_eq_bind, bind_some, hq, hu, if_true]

theorem unmapLocked_of_mapped (hu : q.unmapped = false) (hb : blocks[i + 1]? = some b) :
    unmapLocked blocks virt size =
      if b.virt = virt + size ∧ b.unmapped then eraseBlocksWithEndUnmapped blocks virt (i + 1)
      else if b.virt ≠ virt + size then
        if q.virt ≥ virt then do
          let j ← prev i
          unmapStart (blocks.set i ⟨virt + size, unmapTailPhys q (virt + size), q.extraInfo⟩) virt
            (virt + size) j i
        else
          some (insertBlocks blocks (i + 1)
            [⟨virt, unmappedPa, default⟩, ⟨virt + size, unmapTailPhys q (virt + size), q.extraInfo⟩])
      else unmapStart blocks virt (virt + size) i (i + 1) := by
  unfold unmapLocked
  simp only [hlow, prev, bind_eq_bind, bind_some, hq, hu, hb, if_false, Bool.false_eq_true]

end UnmapLocked

/-- `UnmapLocked` puts an unmapped block between those before the range and what
follows, if the block before the range is mapped. -/
theorem unmapLocked_cut [Inhabited Extra] (hp : p.virt < virt) (hsize : 0 < size)
    (hl : ∀ b ∈ l, b.virt < virt) (hm : ∀ b ∈ m, virt ≤ b.virt ∧ b.virt < virt + size)
    (hr : ∀ b ∈ r, virt + size ≤ b.virt) (hq : (p :: m).getLast? = some q)
    (hasc : Ascending Block.virt m) (hlast : r = [] → q.unmapped = true)
    (halt : m = [q] → q.unmapped = true → p.unmapped = false) :
    ∃ head, UnmapHead p virt head ∧
      unmapLocked (l ++ [p] ++ m ++ r) virt size =
        some (l ++ [p] ++ head ++ (unmapStale p m r q (virt + size)).toList ++
          unmapRest r q (virt + size)) := by
  obtain ⟨a, ha, hlen, hlow, hat⟩ := end_cut hp hsize hl hm hr hq
  by_cases hqu : q.unmapped = true
  · have hstale : unmapStale p m r q (virt + size) = none := by
      have hqm : q.mapped = false := by simpa [Block.mapped, Block.unmapped] using hqu
      unfold unmapStale
      cases r <;> simp [hqm]
    have hrest : unmapRest r q (virt + size) = r := if_pos hqu
    rw [unmapLocked_of_unmapped hlow hat hqu, hstale, hrest]
    simp only [toList_none, append_nil]
    rcases eq_nil_or_concat' m with rfl | ⟨m, q', rfl⟩
    · obtain rfl : p = q := by simpa using hq
      refine ⟨[], unmapHead_nil hqu, ?_⟩
      rw [if_neg (not_lt.mpr hp.le)]
    rw [← cons_append, getLast?_concat, Option.some.injEq] at hq
    subst hq
    obtain rfl : a = l ++ [p] ++ m := by simpa [← append_assoc] using ha.symm
    have hqv := (hm q' (by simp)).1
    have hlist : l ++ [p] ++ (m ++ [q']) ++ r = l ++ [p] ++ m ++ q' :: r := by simp
    rw [hlist]
    by_cases hlt : q'.virt > virt
    · rw [if_pos hlt]
      exact eraseBlocksWithEndUnmapped_cut hp (fun b hb => (hm b (by simp [hb])).1) hqv hqu
    · -- the unmapped block begins where the range does, and no other block is in it
      have hm' : m = [] := by
        by_contra hne
        obtain ⟨c, hc⟩ := exists_mem_of_ne_nil m hne
        have hcv := (hm c (by simp [hc])).1
        have hcq := (ascending_append.mp hasc).2.2 c hc q' (by simp)
        omega
      subst hm'
      have hpu := halt rfl hqu
      exact ⟨[q'], unmapHead_singleton (by simp [hpu]) (by omega) hqu, by rw [if_neg hlt]; simp⟩
  · rw [Bool.not_eq_true] at hqu
    have hqm : q.mapped = true := by simpa [Block.mapped, Block.unmapped] using hqu
    cases r with
    | nil =>
      rw [hlast rfl] at hqu
      cases hqu
    | cons b r =>
      have hb : (l ++ [p] ++ m ++ b :: r)[a.length + 1]? = some b := by rw [← hlen]; exact getElem?_cut
      have hbm : b.mapped = !b.unmapped := rfl
      rw [unmapLocked_of_mapped hlow hat hqu hb]
      simp only [unmapRest, unmapStale, hqu, hqm, hbm, Bool.and_true, Bool.false_eq_true, if_false]
      by_cases hbv : b.virt = virt + size
      · by_cases hbu : b.unmapped = true
        · obtain ⟨head, hhead, hrun⟩ := eraseBlocksWithEndUnmapped_cut (l := l) (r := r) hp
            (fun b hb => (hm b hb).1) (by omega) hbu
          refine ⟨head, hhead, ?_⟩
          rw [if_pos ⟨hbv, hbu⟩, ← hlen, hrun]
          simp [hbv, hbu]
        · obtain ⟨head, hhead, hrun⟩ := unmapStart_cut (l := l) (r := r) hp (Nat.le_add_right ..) hm hbv
          refine ⟨head, hhead, ?_⟩
          have hi : l.length + m.length = a.length := by simp at hlen; omega
          rw [if_neg fun h => hbu h.2, if_neg (not_not.mpr hbv), ← hlen, ← hi, hrun]
          cases p.unmapped <;> simp [hbv, hbu]
      · rw [if_neg fun h => hbv h.1, if_pos hbv, if_neg hbv, if_neg hbv]
        rcases eq_nil_or_concat' m with rfl | ⟨m, q', rfl⟩
        · obtain rfl : p = q := by simpa using hq
          refine ⟨[⟨virt, unmappedPa, default⟩], unmapHead_singleton (by simp [hqu]) rfl
            (beq_self_eq_true _), ?_⟩
          rw [if_neg (not_le.mpr hp), ← hlen, insertBlocks_cut]
          simp
        rw [← cons_append, getLast?_concat, Option.some.injEq] at hq
        subst hq
        obtain rfl : a = l ++ [p] ++ m := by simpa [← append_assoc] using ha.symm
        have hqv := (hm q' (by simp)).1
        obtain ⟨head, hhead, hrun⟩ := unmapStart_cut (l := l) (m := m) (r := b :: r) hp
          (Nat.le_add_right virt size) (fun b hb => hm b (by simp [hb]))
          (b := ⟨virt + size, unmapTailPhys q' (virt + size), q'.extraInfo⟩) rfl
        refine ⟨head, hhead, ?_⟩
        have hprev : prev (l ++ [p] ++ m).length = some (l.length + m.length) := by
          have : (l ++ [p] ++ m).length = l.length + m.length + 1 := by simp; omega
          rw [this]
          rfl
        rw [if_pos hqv, hprev, bind_eq_bind, bind_some, ha, append_assoc _ [q'],
          singleton_append, set_cut, hrun]
        cases p.unmapped <;> simp

end FlatAddressSpaceMap

end Common
end Citron
