/-
# Where a registered action is

Each registration is in one place: with the thread that registers it, in the list, run, or
deregistered (`Accounted`). Each call moves one registration from one place to another, and
the section of an increment one after the other (`runDue_spec`).
-/
import Citron.VideoCore.SyncpointManager

namespace Citron
namespace Tegra

open List Function

/-! ### The list of a syncpoint -/

theorem insertAction_perm (entry : RegisteredAction) : ∀ list, (insertAction entry list).Perm (entry :: list)
  | [] => .refl _
  | a :: rest => by
    rw [insertAction]
    split_ifs
    · exact .refl _
    · exact ((insertAction_perm entry rest).cons a).trans (.swap entry a rest)

/-- The list in the order of its values. -/
abbrev InOrder (list : List RegisteredAction) : Prop := list.Pairwise fun a b => a.expectedValue ≤ b.expectedValue

theorem insertAction_inOrder (entry : RegisteredAction) : ∀ {list}, InOrder list → InOrder (insertAction entry list)
  | [], _ => pairwise_singleton _ _
  | a :: rest, h => by
    obtain ⟨ha, hrest⟩ := pairwise_cons.mp h
    rw [insertAction]
    split_ifs with hlt
    · refine pairwise_cons.mpr ⟨fun b hb => ?_, h⟩
      rcases mem_cons.mp hb with rfl | hb
      · exact Nat.le_of_lt hlt
      · exact Nat.le_trans (Nat.le_of_lt hlt) (ha b hb)
    · refine pairwise_cons.mpr ⟨fun b hb => ?_, insertAction_inOrder entry hrest⟩
      rcases mem_cons.mp ((insertAction_perm entry rest).mem_iff.mp hb) with rfl | hb
      · exact Nat.le_of_not_lt hlt
      · exact ha b hb

/-- The registration a thread has in its hands. -/
def Point.holds : Point → Option (Syncpoint × ℕ × ℕ)
  | .running syncpoint expectedValue action => some (syncpoint, expectedValue, action)
  | .locking syncpoint expectedValue action => some (syncpoint, expectedValue, action)
  | _ => none

namespace SyncpointManager

variable {T : Type} {s : SyncpointManager T}

/-! ### Where a registration is -/

inductive Place (T : Type)
  | held (t : T)
  | stored
  | ran
  | deregistered

def At (s : SyncpointManager T) (action : ℕ) : Place T → Prop
  | .held t => ∃ syncpoint expectedValue, (s.points t).holds = some (syncpoint, expectedValue, action)
  | .stored => ∃ syncpoint, ∃ a ∈ s.actionStorage syncpoint, a.action = action
  | .ran => ∃ value, (action, value) ∈ s.ran
  | .deregistered => ∃ handle, (action, handle) ∈ s.deregistered

/-- Each registration is in the place that `place` says, once, and nowhere else. -/
structure Accounted (s : SyncpointManager T) (place : ℕ → Place T) : Prop where
  held : ∀ {t sp e r}, (s.points t).holds = some (sp, e, r) → s.registrations[r]? = some (sp, e) ∧ place r = .held t
  stored : ∀ {sp a}, a ∈ s.actionStorage sp → s.registrations[a.action]? = some (sp, a.expectedValue) ∧
    place a.action = .stored ∧ (a.action, a.id) ∈ s.returned
  storedOnce : ∀ sp, ((s.actionStorage sp).map (·.action)).Nodup
  ran : ∀ {r v}, (r, v) ∈ s.ran → place r = .ran ∧ ∃ sp e, s.registrations[r]? = some (sp, e) ∧ e ≤ v
  ranOnce : (s.ran.map Prod.fst).Nodup
  deregistered : ∀ {r handle}, (r, handle) ∈ s.deregistered →
    r < s.registrations.length ∧ place r = .deregistered ∧ (r, handle) ∈ s.returned
  complete : ∀ {r}, r < s.registrations.length → s.At r (place r)

variable {s' : SyncpointManager T} {place : ℕ → Place T} {t : T}

theorem initial_accounted : Accounted (initial : SyncpointManager T) fun _ => .ran where
  held h := by cases h
  stored h := by cases h
  storedOnce _ := nodup_nil
  ran h := by cases h
  ranOnce := nodup_nil
  deregistered h := by cases h
  complete h := by cases h

/-- Steps that leave the registrations where they are. -/
theorem Accounted.of_same (h : Accounted s place) (hpoints : ∀ t, (s'.points t).holds = (s.points t).holds)
    (hreg : s'.registrations = s.registrations) (hsto : s'.actionStorage = s.actionStorage) (hran : s'.ran = s.ran)
    (hret : s'.returned = s.returned) (hdereg : s'.deregistered = s.deregistered) : Accounted s' place where
  held {t sp e r} ht := by
    rw [hpoints] at ht
    rw [hreg]
    exact h.held ht
  stored {sp a} ha := by
    rw [hsto] at ha
    rw [hreg, hret]
    exact h.stored ha
  storedOnce sp := by
    rw [hsto]
    exact h.storedOnce sp
  ran {r v} hr := by
    rw [hran] at hr
    rw [hreg]
    exact h.ran hr
  ranOnce := by
    rw [hran]
    exact h.ranOnce
  deregistered {r handle} hr := by
    rw [hdereg] at hr
    rw [hreg, hret]
    exact h.deregistered hr
  complete {r} hr := by
    rw [hreg] at hr
    have := h.complete hr
    cases hp : place r with
    | held t =>
      rw [hp] at this
      obtain ⟨sp, e, ht⟩ := this
      exact ⟨sp, e, by rw [hpoints, ht]⟩
    | stored =>
      rw [hp] at this
      obtain ⟨sp, a, ha⟩ := this
      exact ⟨sp, a, by rwa [hsto]⟩
    | ran =>
      rw [hp] at this
      obtain ⟨v, hv⟩ := this
      exact ⟨v, by rwa [hran]⟩
    | deregistered =>
      rw [hp] at this
      obtain ⟨handle, hv⟩ := this
      exact ⟨handle, by rwa [hdereg]⟩

theorem holds_notifyAll (kind : SyncpointKind) (t : T) : ((s.notifyAll kind).points t).holds = (s.points t).holds := by
  rw [notifyAll]
  dsimp only
  cases s.points t with
  | blocked sp e =>
    dsimp only
    split_ifs <;> rfl
  | idle | running | locking | incrementing | waiting => rfl

/-- What a notification leaves of a point. -/
theorem notifyAll_points (kind : SyncpointKind) (t : T) :
    (∃ sp e, s.points t = .blocked sp e ∧ sp.kind = kind ∧ (s.notifyAll kind).points t = .waiting sp e) ∨
      (s.notifyAll kind).points t = s.points t ∧ ∀ sp e, s.points t = .blocked sp e → sp.kind ≠ kind := by
  rw [notifyAll]
  dsimp only
  cases hp : s.points t with
  | blocked sp e =>
    dsimp only
    split_ifs with hk
    · exact .inl ⟨sp, e, rfl, hk, rfl⟩
    · right
      refine ⟨rfl, fun sp' e' h => ?_⟩
      cases h
      exact hk
  | idle | running | locking | incrementing | waiting =>
    right
    refine ⟨rfl, fun sp' e' h => ?_⟩
    cases h

theorem Accounted.notifyAll (h : Accounted s place) (kind : SyncpointKind) : Accounted (s.notifyAll kind) place :=
  h.of_same (holds_notifyAll kind) rfl rfl rfl rfl rfl

/-- The registration `r` goes to the place `p`, and the others stay where they are. -/
theorem Accounted.move (h : Accounted s place) (r : ℕ) (p : Place T)
    (hreg : ∀ {r' : ℕ} {x}, s.registrations[r']? = some x → s'.registrations[r']? = some x)
    (hlen : ∀ {r'}, r' ≠ r → r' < s'.registrations.length → r' < s.registrations.length)
    (hret : ∀ {x}, x ∈ s.returned → x ∈ s'.returned)
    (hpoints : ∀ {t sp e r'}, r' ≠ r → ((s'.points t).holds = some (sp, e, r') ↔ (s.points t).holds = some (sp, e, r')))
    (hsto : ∀ {sp a}, a.action ≠ r → (a ∈ s'.actionStorage sp ↔ a ∈ s.actionStorage sp))
    (hran : ∀ {r' v}, r' ≠ r → ((r', v) ∈ s'.ran ↔ (r', v) ∈ s.ran))
    (hdereg : ∀ {r' handle}, r' ≠ r → ((r', handle) ∈ s'.deregistered ↔ (r', handle) ∈ s.deregistered))
    (rheld : ∀ {t sp e}, (s'.points t).holds = some (sp, e, r) → s'.registrations[r]? = some (sp, e) ∧ p = .held t)
    (rstored : ∀ {sp a}, a ∈ s'.actionStorage sp → a.action = r →
      s'.registrations[r]? = some (sp, a.expectedValue) ∧ p = .stored ∧ (r, a.id) ∈ s'.returned)
    (rran : ∀ {v}, (r, v) ∈ s'.ran → p = .ran ∧ ∃ sp e, s'.registrations[r]? = some (sp, e) ∧ e ≤ v)
    (rdereg : ∀ {handle}, (r, handle) ∈ s'.deregistered →
      r < s'.registrations.length ∧ p = .deregistered ∧ (r, handle) ∈ s'.returned)
    (rat : s'.At r p) (storedOnce : ∀ sp, ((s'.actionStorage sp).map (·.action)).Nodup)
    (ranOnce : (s'.ran.map Prod.fst).Nodup) : Accounted s' (update place r p) where
  held {t sp e r'} ht := by
    by_cases hr : r' = r
    · subst hr
      rw [update_self]
      exact rheld ht
    · rw [update_of_ne hr]
      obtain ⟨h1, h2⟩ := h.held ((hpoints hr).mp ht)
      exact ⟨hreg h1, h2⟩
  stored {sp a} ha := by
    by_cases hr : a.action = r
    · rw [hr, update_self]
      exact rstored ha hr
    · rw [update_of_ne hr]
      obtain ⟨h1, h2, h3⟩ := h.stored ((hsto hr).mp ha)
      exact ⟨hreg h1, h2, hret h3⟩
  storedOnce := storedOnce
  ran {r' v} hv := by
    by_cases hr : r' = r
    · subst hr
      rw [update_self]
      exact rran hv
    · rw [update_of_ne hr]
      obtain ⟨h1, sp, e, h2, h3⟩ := h.ran ((hran hr).mp hv)
      exact ⟨h1, sp, e, hreg h2, h3⟩
  ranOnce := ranOnce
  deregistered {r' handle} hh := by
    by_cases hr : r' = r
    · subst hr
      rw [update_self]
      exact rdereg hh
    · rw [update_of_ne hr]
      obtain ⟨h1, h2, h3⟩ := h.deregistered ((hdereg hr).mp hh)
      have := hreg (getElem?_eq_getElem h1)
      exact ⟨(List.getElem?_eq_some_iff.mp this).1, h2, hret h3⟩
  complete {r'} hlt := by
    by_cases hr : r' = r
    · subst hr
      rw [update_self]
      exact rat
    · rw [update_of_ne hr]
      have hat := h.complete (hlen hr hlt)
      cases hp : place r' with
      | held t =>
        rw [hp] at hat
        obtain ⟨sp, e, ht⟩ := hat
        exact ⟨sp, e, (hpoints hr).mpr ht⟩
      | stored =>
        rw [hp] at hat
        obtain ⟨sp, a, ha, he⟩ := hat
        exact ⟨sp, a, (hsto (he ▸ hr)).mpr ha, he⟩
      | ran =>
        rw [hp] at hat
        obtain ⟨v, hv⟩ := hat
        exact ⟨v, (hran hr).mpr hv⟩
      | deregistered =>
        rw [hp] at hat
        obtain ⟨handle, hh⟩ := hat
        exact ⟨handle, (hdereg hr).mpr hh⟩

variable {r e r' e' : ℕ}

theorem nodup_ran {ran : List (ℕ × ℕ)} {value : ℕ} (h : (ran.map Prod.fst).Nodup) (hr : ∀ v, (r, v) ∉ ran) :
    ((ran ++ [(r, value)]).map Prod.fst).Nodup := by
  rw [map_append, nodup_append]
  refine ⟨h, nodup_singleton _, ?_⟩
  intro x hx y hy hxy
  obtain ⟨⟨_, v⟩, hv, rfl⟩ := mem_map.mp hx
  rw [mem_singleton.mp hy] at hxy
  dsimp only at hxy
  rw [hxy] at hv
  exact hr v hv

variable {rest : List RegisteredAction} {a : RegisteredAction} {sp sp' : Syncpoint}

/-- What is stored is nowhere else, and where it leaves the list of its syncpoint it is in none. -/
theorem Accounted.of_stored (h : Accounted s place) (hperm : (s.actionStorage sp).Perm (a :: rest)) :
    (∀ v, (a.action, v) ∉ s.ran) ∧ (∀ handle, (a.action, handle) ∉ s.deregistered) ∧
      (∀ {t sp' e}, (s.points t).holds ≠ some (sp', e, a.action)) ∧
      (∀ {sp' b}, b ∈ update s.actionStorage sp rest sp' → b.action ≠ a.action) ∧
      (∀ {sp' b}, b.action ≠ a.action →
        (b ∈ update s.actionStorage sp rest sp' ↔ b ∈ s.actionStorage sp')) ∧
      ∀ sp', ((update s.actionStorage sp rest sp').map (·.action)).Nodup := by
  have hmem : a ∈ s.actionStorage sp := hperm.mem_iff.mpr mem_cons_self
  obtain ⟨hreg, hp, -⟩ := h.stored hmem
  have hnodup := (hperm.map (·.action)).nodup_iff.mp (h.storedOnce sp)
  rw [map_cons, nodup_cons] at hnodup
  refine ⟨fun v hv => ?_, fun handle hh => ?_, fun {t sp' e} ht => ?_, fun {sp' b} hb hr => ?_, fun {sp' b} hr => ?_,
    fun sp' => ?_⟩
  · have := (h.ran hv).1
    rw [hp] at this
    cases this
  · have := (h.deregistered hh).2.1
    rw [hp] at this
    cases this
  · have := (h.held ht).2
    rw [hp] at this
    cases this
  · by_cases hsp : sp' = sp
    · rw [hsp, update_self] at hb
      exact hnodup.1 (mem_map.mpr ⟨b, hb, hr⟩)
    · rw [update_of_ne hsp] at hb
      have := (h.stored hb).1
      rw [hr, hreg] at this
      exact hsp (congrArg Prod.fst (Option.some.inj this)).symm
  · by_cases hsp : sp' = sp
    · rw [hsp, update_self, hperm.mem_iff, mem_cons]
      refine ⟨.inr, fun hb => hb.resolve_left ?_⟩
      rintro rfl
      exact hr rfl
    · rw [update_of_ne hsp]
  · by_cases hsp : sp' = sp
    · rw [hsp, update_self]
      exact hnodup.2
    · rw [update_of_ne hsp]
      exact h.storedOnce sp'

/-- An increment runs the first action of the list. -/
theorem Accounted.runStored (h : Accounted s place) (hl : s.actionStorage sp = a :: rest) (he : a.expectedValue ≤ s.syncpoints sp) :
    Accounted { s.runAction sp a.action with actionStorage := update s.actionStorage sp rest }
      (update place a.action .ran) := by
  have hperm : (s.actionStorage sp).Perm (a :: rest) := .of_eq hl
  obtain ⟨hran, hdereg, hheld, hleft, hsame, hnodup⟩ := h.of_stored hperm
  obtain ⟨hreg, -, -⟩ := h.stored (hperm.mem_iff.mpr mem_cons_self)
  apply h.move a.action .ran
  · exact id
  · exact fun _ => id
  · exact id
  · exact fun _ => Iff.rfl
  · exact hsame
  · intro r' v hr
    refine ⟨fun hv => ?_, fun hv => mem_append_left _ hv⟩
    rcases mem_append.mp hv with hv | hv
    · exact hv
    · cases mem_singleton.mp hv
      exact absurd rfl hr
  · exact fun _ => Iff.rfl
  · exact fun ht => absurd ht hheld
  · exact fun hb hr => absurd hr (hleft hb)
  · intro v hv
    rcases mem_append.mp hv with hv | hv
    · exact absurd hv (hran v)
    · cases mem_singleton.mp hv
      exact ⟨rfl, sp, _, hreg, he⟩
  · exact fun hh => absurd hh (hdereg _)
  · exact ⟨s.syncpoints sp, mem_append_right _ (mem_singleton.mpr rfl)⟩
  · exact hnodup
  · exact nodup_ran h.ranOnce hran

/-- A deregistration takes an action off its list. -/
theorem Accounted.deregister (h : Accounted s place) (ha : a ∈ s.actionStorage sp) :
    Accounted { s with
      actionStorage := update s.actionStorage sp ((s.actionStorage sp).erase a)
      deregistered := s.deregistered ++ [(a.action, a.id)] } (update place a.action .deregistered) := by
  obtain ⟨hran, hdereg, hheld, hleft, hsame, hnodup⟩ := h.of_stored (perm_cons_erase ha)
  obtain ⟨hreg, -, hret⟩ := h.stored ha
  apply h.move a.action .deregistered
  · exact id
  · exact fun _ => id
  · exact id
  · exact fun _ => Iff.rfl
  · exact hsame
  · exact fun _ => Iff.rfl
  · intro r' handle hr
    refine ⟨fun hh => ?_, fun hh => mem_append_left _ hh⟩
    rcases mem_append.mp hh with hh | hh
    · exact hh
    · cases mem_singleton.mp hh
      exact absurd rfl hr
  · exact fun ht => absurd ht hheld
  · exact fun hb hr => absurd hr (hleft hb)
  · exact fun hv => absurd hv (hran _)
  · intro handle hh
    rcases mem_append.mp hh with hh | hh
    · exact absurd hh (hdereg handle)
    · cases mem_singleton.mp hh
      exact ⟨(List.getElem?_eq_some_iff.mp hreg).1, rfl, hret⟩
  · exact ⟨a.id, mem_append_right _ (mem_singleton.mpr rfl)⟩
  · exact hnodup
  · exact h.ranOnce

theorem Accounted.deregisterAction (h : Accounted s place) (sp : Syncpoint) (handle : ℕ) :
    ∃ place', Accounted (s.deregisterAction sp handle) place' := by
  unfold SyncpointManager.deregisterAction
  split_ifs
  · exact ⟨place, h⟩
  · cases hf : (s.actionStorage sp).find? (·.id = handle) with
    | none => exact ⟨place, h⟩
    | some a =>
      have hid := find?_some hf
      have := h.deregister (mem_of_find?_eq_some hf)
      rw [of_decide_eq_true hid] at this
      exact ⟨_, this⟩

/-- What the loop over the actions of `sp` does: it runs a front of the list, up to the first
action that the new value does not reach, and nothing else changes. -/
structure RanDue (sp : Syncpoint) (newValue : ℕ) (s s' : SyncpointManager T) : Prop where
  points : s'.points = s.points
  syncpoints : s'.syncpoints = s.syncpoints
  increments : s'.increments = s.increments
  others : ∀ sp', sp' ≠ sp → s'.actionStorage sp' = s.actionStorage sp'
  rest : (s'.actionStorage sp).Sublist (s.actionStorage sp)
  late : InOrder (s.actionStorage sp) → ∀ a ∈ s'.actionStorage sp, newValue < a.expectedValue
  ran : InOrder (s.actionStorage sp) → ∀ a ∈ s.actionStorage sp, a.expectedValue ≤ newValue →
    ∃ v, (a.action, v) ∈ s'.ran
  keeps : ∀ x ∈ s.ran, x ∈ s'.ran

theorem runDue_increments (sp : Syncpoint) (newValue : ℕ) : ∀ (list : List RegisteredAction) (s : SyncpointManager T),
    (runDue sp newValue list s).increments = s.increments
  | [], _ => rfl
  | a :: rest, s => by
    rw [runDue]
    split_ifs
    · rfl
    · rw [runDue_increments sp newValue rest]
      rfl

theorem runDue_spec (sp : Syncpoint) (newValue : ℕ) : ∀ (list : List RegisteredAction) {s : SyncpointManager T}
    {place : ℕ → Place T}, s.actionStorage sp = list → newValue ≤ s.syncpoints sp → Accounted s place →
      RanDue sp newValue s (runDue sp newValue list s) ∧ ∃ place', Accounted (runDue sp newValue list s) place'
  | [], s, place, hl, _, h => by
    refine ⟨⟨rfl, rfl, rfl, fun _ _ => rfl, .refl _, fun _ a ha => ?_, fun _ a ha => ?_, fun _ => id⟩, place, h⟩
    · rw [runDue, hl] at ha
      cases ha
    · rw [hl] at ha
      cases ha
  | a :: rest, s, place, hl, hv, h => by
    rw [runDue]
    split_ifs with hlt
    · have hlate : InOrder (s.actionStorage sp) → ∀ b ∈ s.actionStorage sp, newValue < b.expectedValue := by
        intro hord b hb
        rw [hl] at hord hb
        rcases mem_cons.mp hb with rfl | hb
        · exact hlt
        · exact Nat.lt_of_lt_of_le hlt ((pairwise_cons.mp hord).1 b hb)
      refine ⟨⟨rfl, rfl, rfl, fun _ _ => rfl, .refl _, hlate, fun hord b hb he => ?_, fun _ => id⟩, place, h⟩
      exact absurd he (Nat.not_le_of_lt (hlate hord b hb))
    · have hnext := h.runStored hl (Nat.le_trans (Nat.le_of_not_lt hlt) hv)
      obtain ⟨hr, place', hacc⟩ := runDue_spec sp newValue rest
        (s := { s.runAction sp a.action with actionStorage := update s.actionStorage sp rest })
        (update_self _ _ _) hv hnext
      have hself : update s.actionStorage sp rest sp = rest := update_self _ _ _
      have hsub : rest.Sublist (s.actionStorage sp) := by
        rw [hl]
        exact sublist_cons_self _ _
      have hord' : InOrder (s.actionStorage sp) → InOrder (update s.actionStorage sp rest sp) := by
        intro hord
        rw [hself]
        exact hord.sublist hsub
      refine ⟨⟨hr.points, hr.syncpoints, hr.increments, fun sp' hsp => ?_, ?_, fun hord => hr.late (hord' hord),
        fun hord b hb he => ?_, fun x hx => hr.keeps x (mem_append_left _ hx)⟩, place', hacc⟩
      · exact (hr.others sp' hsp).trans (update_of_ne hsp _ _)
      · have hle : ((runDue sp newValue rest _).actionStorage sp).Sublist
            (update s.actionStorage sp rest sp) := hr.rest
        rw [hself] at hle
        exact hle.trans hsub
      · rw [hl] at hb
        rcases mem_cons.mp hb with rfl | hb
        · exact ⟨_, hr.keeps _ (mem_append_right _ (mem_singleton.mpr rfl))⟩
        · have hb' : b ∈ update s.actionStorage sp rest sp := by rwa [hself]
          exact hr.ran (hord' hord) b hb' he

/-! ### What a thread holds -/

/-- What a thread holds is nowhere else. -/
theorem Accounted.of_holds (h : Accounted s place) (ht : (s.points t).holds = some (sp, e, r)) :
    (∀ {sp' a}, a ∈ s.actionStorage sp' → a.action ≠ r) ∧ (∀ v, (r, v) ∉ s.ran) ∧
      (∀ handle, (r, handle) ∉ s.deregistered) ∧ ∀ {t' sp' e'}, (s.points t').holds = some (sp', e', r) → t' = t := by
  have hp := (h.held ht).2
  refine ⟨fun ha hr => ?_, fun v hv => ?_, fun handle hh => ?_, fun ht' => ?_⟩
  · have := (h.stored ha).2.1
    rw [hr, hp] at this
    cases this
  · have := (h.ran hv).1
    rw [hp] at this
    cases this
  · have := (h.deregistered hh).2.1
    rw [hp] at this
    cases this
  · have := (h.held ht').2
    rw [hp] at this
    exact (Place.held.inj this).symm

variable [DecidableEq T]

@[simp] theorem goto_self (p : Point) : (s.goto t p).points t = p := update_self _ _ _

variable {t' : T}

@[simp] theorem goto_of_ne (h : t' ≠ t) (p : Point) : (s.goto t p).points t' = s.points t' :=
  update_of_ne h _ _

theorem holds_goto {p : Point} (hp : p.holds = (s.points t).holds) (t' : T) :
    ((s.goto t p).points t').holds = (s.points t').holds := by
  by_cases ht : t' = t
  · rw [ht, goto_self, hp]
  · rw [goto_of_ne ht]

theorem Accounted.goto (h : Accounted s place) {p : Point} (hp : p.holds = (s.points t).holds) :
    Accounted (s.goto t p) place := h.of_same (holds_goto hp) rfl rfl rfl rfl rfl

/-- The thread puts down what it holds, or takes up `r`. -/
theorem holds_goto_iff {p : Point} (hold : ∀ {sp e r'}, (s.points t).holds = some (sp, e, r') → r' = r)
    (hnew : ∀ {sp e r'}, p.holds = some (sp, e, r') → r' = r) (hr : r' ≠ r) :
    ((s.goto t p).points t').holds = some (sp, e, r') ↔ (s.points t').holds = some (sp, e, r') := by
  by_cases ht : t' = t
  · rw [ht, goto_self]
    exact ⟨fun h => absurd (hnew h) hr, fun h => absurd (hold h) hr⟩
  · rw [goto_of_ne ht]

/-- A call registers a new action, which its thread holds. -/
theorem Accounted.registerAction (h : Accounted s place) (ht : s.points t = .idle) (sp : Syncpoint) (e : ℕ) :
    Accounted (s.registerAction t sp e) (update place s.registrations.length (.held t)) := by
  have hgoto : ∃ p : Point, p.holds = some (sp, e, s.registrations.length) ∧ s.registerAction t sp e =
      { s with registrations := s.registrations ++ [(sp, e)] : SyncpointManager T }.goto t p := by
    unfold SyncpointManager.registerAction
    dsimp only
    split_ifs
    · exact ⟨_, rfl, rfl⟩
    · exact ⟨_, rfl, rfl⟩
  obtain ⟨p, hp, he⟩ := hgoto
  have hnew : ∀ {x : Syncpoint × ℕ}, s.registrations[s.registrations.length]? ≠ some x := by simp
  rw [he]
  apply h.move
  · intro r' x hx
    exact (getElem?_append_left (List.getElem?_eq_some_iff.mp hx).1).trans hx
  · intro r' hr hlt
    have : r' < (s.registrations ++ [(sp, e)]).length := hlt
    rw [length_append, length_singleton] at this
    omega
  · exact id
  · intro t' sp' e' r' hr
    apply holds_goto_iff (s := { s with registrations := s.registrations ++ [(sp, e)] }) _ _ hr
    · intro sp e r' h
      rw [show s.points t = .idle from ht] at h
      cases h
    · intro sp e r' h
      rw [hp] at h
      cases h
      rfl
  · exact fun _ => Iff.rfl
  · exact fun _ => Iff.rfl
  · exact fun _ => Iff.rfl
  · intro t' sp' e' ht'
    by_cases htt : t' = t
    · rw [htt, goto_self, hp] at ht'
      cases ht'
      exact ⟨getElem?_concat_length, by rw [htt]⟩
    · rw [goto_of_ne htt] at ht'
      exact absurd (h.held ht').1 hnew
  · intro sp' a ha hr
    have := (h.stored ha).1
    rw [hr] at this
    exact absurd this hnew
  · intro v hv
    obtain ⟨-, sp', e', hx, -⟩ := h.ran hv
    exact absurd hx hnew
  · intro handle hh
    exact absurd (h.deregistered hh).1 (Nat.lt_irrefl _)
  · exact ⟨sp, e, by rw [goto_self, hp]⟩
  · exact h.storedOnce
  · exact h.ranOnce

/-- A thread has put down `r`, and nobody else holds it. -/
theorem Accounted.put_down (h : Accounted s place) (ht : (s.points t).holds = some (sp, e, r))
    (h' : ((s.goto t .idle).points t').holds = some (sp', e', r)) : False := by
  by_cases htt : t' = t
  · rw [htt, goto_self] at h'
    cases h'
  · rw [goto_of_ne htt] at h'
    exact htt ((h.of_holds ht).2.2.2 h')

theorem holds_idle_iff (ht : (s.points t).holds = some (sp, e, r)) (hr : r' ≠ r) :
    ((s.goto t .idle).points t').holds = some (sp', e', r') ↔ (s.points t').holds = some (sp', e', r') := by
  apply holds_goto_iff _ _ hr
  · intro sp'' e'' r'' h
    rw [ht] at h
    cases h
    rfl
  · intro sp'' e'' r'' h
    cases h

/-- The thread runs the action it holds. -/
theorem Accounted.runHeld (h : Accounted s place)
    (ht : (s.points t).holds = some (sp, e, r)) (he : e ≤ s.syncpoints sp) :
    Accounted ((s.runAction sp r).returnHandle t r 0) (update place r .ran) := by
  obtain ⟨hsto, hran, hdereg, -⟩ := h.of_holds ht
  have hreg := (h.held ht).1
  apply h.move r .ran
  · exact id
  · exact fun _ => id
  · exact fun hx => mem_append_left _ hx
  · exact fun hr => holds_idle_iff ht hr
  · exact fun _ => Iff.rfl
  · intro r' v hr
    refine ⟨fun hv => ?_, fun hv => mem_append_left _ hv⟩
    rcases mem_append.mp hv with hv | hv
    · exact hv
    · cases mem_singleton.mp hv
      exact absurd rfl hr
  · exact fun _ => Iff.rfl
  · intro t' sp' e' ht'
    exact (h.put_down ht ht').elim
  · intro sp' a ha hr
    exact absurd hr (hsto ha)
  · intro v hv
    rcases mem_append.mp hv with hv | hv
    · exact absurd hv (hran v)
    · cases mem_singleton.mp hv
      exact ⟨rfl, sp, e, hreg, he⟩
  · intro handle hh
    exact absurd hh (hdereg handle)
  · exact ⟨s.syncpoints sp, mem_append_right _ (mem_singleton.mpr rfl)⟩
  · exact h.storedOnce
  · exact nodup_ran h.ranOnce hran

/-- The thread stores the action it holds. -/
theorem Accounted.store (h : Accounted s place) {id : ℕ} (ht : (s.points t).holds = some (sp, e, r)) :
    Accounted ({ s with
      nextActionId := id
      actionStorage := update s.actionStorage sp (insertAction ⟨id, e, r⟩ (s.actionStorage sp)) :
        SyncpointManager T }.returnHandle t r id) (update place r .stored) := by
  obtain ⟨hsto, hran, hdereg, -⟩ := h.of_holds ht
  have hreg := (h.held ht).1
  have hmem : ∀ {sp' a}, a ∈ update s.actionStorage sp (insertAction ⟨id, e, r⟩ (s.actionStorage sp)) sp' ↔
      a ∈ s.actionStorage sp' ∨ sp' = sp ∧ a = ⟨id, e, r⟩ := by
    intro sp' a
    by_cases hsp : sp' = sp
    · rw [hsp, update_self, (insertAction_perm _ _).mem_iff, mem_cons]
      simp only [true_and]
      exact or_comm
    · rw [update_of_ne hsp]
      simp only [hsp, false_and, or_false]
  apply h.move r .stored
  · exact fun hx => hx
  · exact fun _ hlt => hlt
  · exact fun hx => mem_append_left _ hx
  · exact fun hr => holds_idle_iff ht hr
  · intro sp' a hr
    refine hmem.trans ⟨fun ha => ?_, .inl⟩
    rcases ha with ha | ⟨-, rfl⟩
    · exact ha
    · exact absurd rfl hr
  · exact fun _ => Iff.rfl
  · exact fun _ => Iff.rfl
  · intro t' sp' e' ht'
    exact (h.put_down ht ht').elim
  · intro sp' a ha hr
    rcases hmem.mp ha with ha | ⟨rfl, rfl⟩
    · exact absurd hr (hsto ha)
    · exact ⟨hreg, rfl, mem_append_right _ (mem_singleton.mpr rfl)⟩
  · intro v hv
    exact absurd hv (hran v)
  · intro handle hh
    exact absurd hh (hdereg handle)
  · exact ⟨sp, _, hmem.mpr (.inr ⟨rfl, rfl⟩), rfl⟩
  · intro sp'
    show ((update s.actionStorage sp _ sp').map _).Nodup
    by_cases hsp : sp' = sp
    · rw [hsp, update_self, ((insertAction_perm _ _).map _).nodup_iff, map_cons, nodup_cons]
      refine ⟨fun hr => ?_, h.storedOnce sp⟩
      obtain ⟨a, ha, har⟩ := mem_map.mp hr
      exact hsto ha har
    · rw [update_of_ne hsp]
      exact h.storedOnce sp'
  · exact h.ranOnce

end SyncpointManager

end Tegra
end Citron
