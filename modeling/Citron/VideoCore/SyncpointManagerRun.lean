/-
# The actions and the waiters of a run

A stored action or a sleeping thread whose value the counter has reached is seen to by an
increment that has not had its section yet (`Timely`): the value is looked at under the guard
before anything is stored or falls asleep, and the section comes after the counter has moved.
So nothing is lost between the two (`reaches_actions`).
-/
import Citron.VideoCore.SyncpointManagerActions

namespace Citron
namespace Tegra
namespace SyncpointManager

open Function

variable {T : Type} {s s' : SyncpointManager T} {t : T}

/-! ### What is due is seen to -/

/-- An increment of `sp` to at least `e` has not had its section yet. -/
def Serving (s : SyncpointManager T) (sp : Syncpoint) (e : ℕ) : Prop :=
  ∃ t n, s.points t = .incrementing sp n ∧ e ≤ n

structure Timely (s : SyncpointManager T) : Prop where
  value : ∀ sp, s.syncpoints sp = s.increments sp
  inOrder : ∀ sp, InOrder (s.actionStorage sp)
  due : ∀ {sp a}, a ∈ s.actionStorage sp → a.expectedValue ≤ s.syncpoints sp → s.Serving sp a.expectedValue
  inFlight : ∀ {t sp n}, s.points t = .incrementing sp n → n ≤ s.syncpoints sp
  reached : ∀ {t sp e r}, s.points t = .running sp e r → e ≤ s.syncpoints sp
  waiters : ∀ {t sp e}, s.points t = .blocked sp e → e ≤ s.syncpoints sp → s.Serving sp e

theorem initial_timely : (initial : SyncpointManager T).Timely where
  value _ := rfl
  inOrder _ := .nil
  due h := by cases h
  inFlight h := by cases h
  reached h := by cases h
  waiters h := by cases h

/-- A step that leaves the counters, stores nothing and leaves the increments as they are. -/
theorem Timely.of_points (h : s.Timely) (hsync : s'.syncpoints = s.syncpoints) (hincr : s'.increments = s.increments)
    (hsto : ∀ sp, (s'.actionStorage sp).Sublist (s.actionStorage sp))
    (hserving : ∀ {t sp n}, s'.points t = .incrementing sp n ↔ s.points t = .incrementing sp n)
    (hreached : ∀ {t sp e r}, s'.points t = .running sp e r → e ≤ s.syncpoints sp)
    (hblocked : ∀ {t sp e}, s'.points t = .blocked sp e → e ≤ s.syncpoints sp → s.Serving sp e) : s'.Timely := by
  have hkeep : ∀ {sp e}, s.Serving sp e → s'.Serving sp e := by
    rintro sp e ⟨t, n, ht, hn⟩
    exact ⟨t, n, hserving.mpr ht, hn⟩
  refine ⟨fun sp => ?_, fun sp => (h.inOrder sp).sublist (hsto sp), fun {sp a} ha he => ?_, fun {t sp n} ht => ?_,
    fun {t sp e r} ht => ?_, fun {t sp e} ht he => ?_⟩
  · rw [hsync, hincr]
    exact h.value sp
  · rw [hsync] at he
    exact hkeep (h.due ((hsto sp).subset ha) he)
  · rw [hsync]
    exact h.inFlight (hserving.mp ht)
  · rw [hsync]
    exact hreached ht
  · rw [hsync] at he
    exact hkeep (hblocked ht he)

/-- The records of what happened are not looked at. -/
theorem Timely.of_records (h : s.Timely) (hsync : s'.syncpoints = s.syncpoints) (hincr : s'.increments = s.increments)
    (hsto : s'.actionStorage = s.actionStorage) (hpoints : s'.points = s.points) : s'.Timely := by
  apply h.of_points hsync hincr
  · intro sp
    rw [hsto]
  · intro t sp n
    rw [hpoints]
  · intro t sp e r ht
    rw [hpoints] at ht
    exact h.reached ht
  · intro t sp e ht
    rw [hpoints] at ht
    exact h.waiters ht

/-- An action that is stored is not due. -/
theorem Timely.store (h : s.Timely) {sp : Syncpoint} {entry : RegisteredAction}
    (he : s.syncpoints sp < entry.expectedValue) {id : ℕ} : Timely { s with
      nextActionId := id
      actionStorage := update s.actionStorage sp (insertAction entry (s.actionStorage sp)) } := by
  refine ⟨h.value, fun sp' => ?_, fun {sp' a} ha hle => ?_, h.inFlight, h.reached, h.waiters⟩
  · dsimp only
    by_cases hsp : sp' = sp
    · rw [hsp, update_self]
      exact insertAction_inOrder entry (h.inOrder sp)
    · rw [update_of_ne hsp]
      exact h.inOrder sp'
  · dsimp only at ha hle
    by_cases hsp : sp' = sp
    · rw [hsp, update_self] at ha
      rcases List.mem_cons.mp ((insertAction_perm _ _).mem_iff.mp ha) with rfl | ha
      · rw [hsp] at hle
        exact absurd hle (Nat.not_le_of_lt he)
      · rw [hsp] at hle ⊢
        exact h.due ha hle
    · rw [update_of_ne hsp] at ha
      exact h.due ha hle

theorem Timely.deregisterAction (h : s.Timely) (sp : Syncpoint) (handle : ℕ) : (s.deregisterAction sp handle).Timely := by
  unfold SyncpointManager.deregisterAction
  split_ifs
  · exact h
  · cases (s.actionStorage sp).find? (·.id = handle) with
    | none => exact h
    | some a =>
      refine h.of_points rfl rfl (fun sp' => ?_) Iff.rfl h.reached h.waiters
      dsimp only
      by_cases hsp : sp' = sp
      · rw [hsp, update_self]
        exact List.erase_sublist
      · rw [update_of_ne hsp]

variable [DecidableEq T]

/-- A thread that is not in an increment goes on to `p`. -/
theorem Timely.goto (h : s.Timely) {p : Point} (hold : ∀ sp n, s.points t ≠ .incrementing sp n)
    (hnew : ∀ sp n, p ≠ .incrementing sp n) (hreached : ∀ {sp e r}, p = .running sp e r → e ≤ s.syncpoints sp)
    (hblocked : ∀ {sp e}, p = .blocked sp e → s.syncpoints sp < e) : (s.goto t p).Timely := by
  refine h.of_points rfl rfl (fun _ => .refl _) ?_ ?_ ?_
  · intro t' sp n
    by_cases ht : t' = t
    · rw [ht, goto_self]
      exact ⟨fun h' => absurd h' (hnew sp n), fun h' => absurd h' (hold sp n)⟩
    · rw [goto_of_ne ht]
  · intro t' sp e r ht'
    by_cases ht : t' = t
    · rw [ht, goto_self] at ht'
      exact hreached ht'
    · rw [goto_of_ne ht] at ht'
      exact h.reached ht'
  · intro t' sp e ht' he
    by_cases ht : t' = t
    · rw [ht, goto_self] at ht'
      exact absurd he (Nat.not_le_of_lt (hblocked ht'))
    · rw [goto_of_ne ht] at ht'
      exact h.waiters ht' he

theorem Timely.registerAction (h : s.Timely) (ht : s.points t = .idle) (sp : Syncpoint) (e : ℕ) :
    (s.registerAction t sp e).Timely := by
  have hrec : Timely { s with registrations := s.registrations ++ [(sp, e)] } := h.of_records rfl rfl rfl rfl
  have hidle : ∀ sp' n, s.points t ≠ .incrementing sp' n := by
    intro sp' n hp
    rw [ht] at hp
    cases hp
  unfold SyncpointManager.registerAction
  dsimp only
  split_ifs with he
  · apply hrec.goto hidle
    · intro sp' n hp
      cases hp
    · intro sp' e' r hp
      cases hp
      exact he
    · intro sp' e' hp
      cases hp
  · apply hrec.goto hidle
    · intro sp' n hp
      cases hp
    · intro sp' e' r hp
      cases hp
    · intro sp' e' hp
      cases hp

/-- A call that is over: its thread, which was not in an increment, is idle. -/
theorem Timely.finish (h : s.Timely) (hold : ∀ sp n, s.points t ≠ .incrementing sp n) : (s.goto t .idle).Timely := by
  apply h.goto hold
  · intro sp n hp
    cases hp
  · intro sp e r hp
    cases hp
  · intro sp e hp
    cases hp

theorem Timely.runHeld (h : s.Timely) (hold : ∀ sp n, s.points t ≠ .incrementing sp n) (sp : Syncpoint) (r : ℕ) :
    ((s.runAction sp r).returnHandle t r 0).Timely := (h.finish hold).of_records rfl rfl rfl rfl

theorem Timely.registerLocked (h : s.Timely) {sp : Syncpoint} {e r : ℕ} (ht : s.points t = .locking sp e r) :
    (s.registerLocked t sp e r).Timely := by
  have hold : ∀ sp' n, s.points t ≠ .incrementing sp' n := by
    intro sp' n hp
    rw [ht] at hp
    cases hp
  unfold SyncpointManager.registerLocked
  split_ifs with he
  · exact h.runHeld hold sp r
  · have hstored : Timely { s with
        nextActionId := (s.nextActionId + 1) % 2 ^ 64
        actionStorage := update s.actionStorage sp
          (insertAction ⟨(s.nextActionId + 1) % 2 ^ 64, e, r⟩ (s.actionStorage sp)) } :=
      h.store (Nat.lt_of_not_le he)
    exact (hstored.finish hold).of_records rfl rfl rfl rfl

theorem Timely.wait (h : s.Timely) (ht : s.points t = .idle) (sp : Syncpoint) (e : ℕ) : (s.wait t sp e).Timely := by
  unfold SyncpointManager.wait
  split_ifs with he
  · exact h
  · apply h.goto
    · intro sp' n hp
      rw [ht] at hp
      cases hp
    · intro sp' n hp
      cases hp
    · intro sp' e' r hp
      cases hp
    · intro sp' e' hp
      cases hp

theorem Timely.waitLocked (h : s.Timely) {sp : Syncpoint} {e : ℕ} (ht : s.points t = .waiting sp e) :
    (s.waitLocked t sp e).Timely := by
  have hold : ∀ sp' n, s.points t ≠ .incrementing sp' n := by
    intro sp' n hp
    rw [ht] at hp
    cases hp
  unfold SyncpointManager.waitLocked
  split_ifs with he
  · exact h.finish hold
  · apply h.goto hold
    · intro sp' n hp
      cases hp
    · intro sp' e' r hp
      cases hp
    · intro sp' e' hp
      cases hp
      exact Nat.lt_of_not_le he

theorem Timely.wakeUp (h : s.Timely) {sp : Syncpoint} {e : ℕ} (ht : s.points t = .blocked sp e) :
    (s.goto t (.waiting sp e)).Timely := by
  apply h.goto
  · intro sp' n hp
    rw [ht] at hp
    cases hp
  · intro sp' n hp
    cases hp
  · intro sp' e' r hp
    cases hp
  · intro sp' e' hp
    cases hp

/-- The counter moves before the section: what becomes due is seen to by this increment. -/
theorem Timely.fetchAdd (h : s.Timely) (ht : s.points t = .idle) (sp : Syncpoint)
    (hlt : s.increments sp + 1 < 2 ^ 32) : (s.fetchAdd t sp).Timely := by
  have hnew : (s.syncpoints sp + 1) % 2 ^ 32 = s.syncpoints sp + 1 := Nat.mod_eq_of_lt (by rw [h.value sp]; exact hlt)
  have hs : (s.fetchAdd t sp) = { s.goto t (.incrementing sp (s.syncpoints sp + 1)) with
      syncpoints := update s.syncpoints sp (s.syncpoints sp + 1)
      increments := update s.increments sp (s.increments sp + 1) } := by
    unfold SyncpointManager.fetchAdd
    rw [hnew]
  have hself : (s.fetchAdd t sp).points t = .incrementing sp (s.syncpoints sp + 1) := by
    rw [hs]
    exact goto_self _
  have hother : ∀ {t'}, t' ≠ t → (s.fetchAdd t sp).points t' = s.points t' := by
    intro t' hne
    rw [hs]
    exact goto_of_ne hne _
  have hsync : ∀ sp', s.syncpoints sp' ≤ (s.fetchAdd t sp).syncpoints sp' ∧
      ((s.fetchAdd t sp).syncpoints sp' = s.syncpoints sp' ∨
        sp' = sp ∧ (s.fetchAdd t sp).syncpoints sp' = s.syncpoints sp + 1) := by
    intro sp'
    rw [hs]
    dsimp only
    by_cases hsp : sp' = sp
    · rw [hsp, update_self]
      exact ⟨Nat.le_succ _, .inr ⟨rfl, rfl⟩⟩
    · rw [update_of_ne hsp]
      exact ⟨Nat.le_refl _, .inl rfl⟩
  have hkeep : ∀ {sp' e}, s.Serving sp' e → (s.fetchAdd t sp).Serving sp' e := by
    rintro sp' e ⟨t', n, ht', hn⟩
    have hne : t' ≠ t := by
      rintro rfl
      rw [ht] at ht'
      cases ht'
    exact ⟨t', n, by rw [hother hne, ht'], hn⟩
  -- what is due now was due before, or waits for the new value
  have hserve : ∀ {sp' e}, e ≤ (s.fetchAdd t sp).syncpoints sp' → (e ≤ s.syncpoints sp' → s.Serving sp' e) →
      (s.fetchAdd t sp).Serving sp' e := by
    intro sp' e he hold
    by_cases hle : e ≤ s.syncpoints sp'
    · exact hkeep (hold hle)
    · rcases (hsync sp').2 with heq | ⟨rfl, heq⟩
      · rw [heq] at he
        exact absurd he hle
      · rw [heq] at he
        exact ⟨t, _, hself, he⟩
  refine ⟨fun sp' => ?_, fun sp' => ?_, fun {sp' a} ha he => ?_, fun {t' sp' n} ht' => ?_, fun {t' sp' e r} ht' => ?_,
    fun {t' sp' e} ht' he => ?_⟩
  · rw [hs]
    dsimp only
    by_cases hsp : sp' = sp
    · rw [hsp, update_self, update_self, h.value sp]
    · rw [update_of_ne hsp, update_of_ne hsp, h.value sp']
  · rw [hs]
    exact h.inOrder sp'
  · have ha' : a ∈ s.actionStorage sp' := by
      rw [hs] at ha
      exact ha
    exact hserve he (h.due ha')
  · by_cases hne : t' = t
    · rw [hne, hself] at ht'
      cases ht'
      rw [hs]
      dsimp only
      apply Nat.le_of_eq
      rw [update_self]
    · rw [hother hne] at ht'
      exact Nat.le_trans (h.inFlight ht') (hsync sp').1
  · by_cases hne : t' = t
    · rw [hne, hself] at ht'
      cases ht'
    · rw [hother hne] at ht'
      exact Nat.le_trans (h.reached ht') (hsync sp').1
  · by_cases hne : t' = t
    · rw [hne, hself] at ht'
      cases ht'
    · rw [hother hne] at ht'
      exact hserve he (h.waiters ht')

/-! ### The section of an increment -/

/-- After the section: the list is cut, the sleepers of the kind are awake, and the rest is as it was. -/
structure Served (t : T) (sp : Syncpoint) (newValue : ℕ) (s s' : SyncpointManager T) : Prop where
  self : s'.points t = .idle
  points : ∀ {t'}, t' ≠ t → (∃ sp' e, s.points t' = .blocked sp' e ∧ sp'.kind = sp.kind ∧ s'.points t' = .waiting sp' e) ∨
    s'.points t' = s.points t' ∧ ∀ sp' e, s.points t' = .blocked sp' e → sp'.kind ≠ sp.kind
  ranDue : RanDue sp newValue s { s' with points := s.points }

theorem incrementLocked_served {place : ℕ → Place T} (h : Accounted s place) {sp : Syncpoint} {newValue : ℕ}
    (ht : s.points t = .incrementing sp newValue) (hv : newValue ≤ s.syncpoints sp) :
    Served t sp newValue s (s.incrementLocked t sp newValue) ∧
      ∃ place', Accounted (s.incrementLocked t sp newValue) place' := by
  obtain ⟨hr, place', hacc⟩ := runDue_spec sp newValue (s.actionStorage sp) rfl hv h
  refine ⟨⟨goto_self _, fun {t'} hne => ?_, ⟨rfl, hr.syncpoints, hr.increments, hr.others, hr.rest,
    hr.late, hr.ran, hr.keeps⟩⟩, place', ?_⟩
  · rw [incrementLocked, goto_of_ne hne]
    have := notifyAll_points (s := runDue sp newValue (s.actionStorage sp) s) sp.kind t'
    rw [hr.points] at this
    exact this
  · apply (hacc.notifyAll sp.kind).goto
    rw [holds_notifyAll, hr.points, ht]
    rfl

theorem Timely.incrementLocked {place : ℕ → Place T} (h : s.Timely) (hacc : Accounted s place) {sp : Syncpoint}
    {newValue : ℕ} (ht : s.points t = .incrementing sp newValue) : (s.incrementLocked t sp newValue).Timely := by
  obtain ⟨⟨hself, hpoints, hr⟩, -⟩ := incrementLocked_served hacc ht (h.inFlight ht)
  have hsync : (s.incrementLocked t sp newValue).syncpoints = s.syncpoints := hr.syncpoints
  have hincr : (s.incrementLocked t sp newValue).increments = s.increments := hr.increments
  have hsub : ∀ sp', ((s.incrementLocked t sp newValue).actionStorage sp').Sublist (s.actionStorage sp') := by
    intro sp'
    by_cases hsp : sp' = sp
    · rw [hsp]
      exact hr.rest
    · have heq : (s.incrementLocked t sp newValue).actionStorage sp' = s.actionStorage sp' := hr.others sp' hsp
      rw [heq]
  -- another thread's increment is where it was
  have hkeep : ∀ {t' sp' n}, t' ≠ t → s.points t' = .incrementing sp' n →
      (s.incrementLocked t sp newValue).points t' = .incrementing sp' n := by
    intro t' sp' n hne ht'
    rcases hpoints hne with ⟨sp'', e, hb, -, -⟩ | ⟨heq, -⟩
    · rw [ht'] at hb
      cases hb
    · rw [heq, ht']
  have hback : ∀ {t' p}, (s.incrementLocked t sp newValue).points t' = p → p ≠ .idle → (∀ sp' e, p ≠ .waiting sp' e) →
      t' ≠ t ∧ s.points t' = p ∧ ∀ sp' e, p = .blocked sp' e → sp'.kind ≠ sp.kind := by
    intro t' p ht' hidle hwait
    have hne : t' ≠ t := by
      rintro rfl
      exact hidle (ht'.symm.trans hself)
    rcases hpoints hne with ⟨sp', e, -, -, hw⟩ | ⟨heq, hk⟩
    · exact absurd (ht'.symm.trans hw) (hwait sp' e)
    · rw [ht'] at heq
      exact ⟨hne, heq.symm, by rwa [heq]⟩
  refine ⟨fun sp' => ?_, fun sp' => (h.inOrder sp').sublist (hsub sp'), fun {sp' a} ha he => ?_, fun {t' sp' n} ht' => ?_,
    fun {t' sp' e r} ht' => ?_, fun {t' sp' e} ht' he => ?_⟩
  · rw [hsync, hincr]
    exact h.value sp'
  · rw [hsync] at he
    obtain ⟨t', n, ht', hn⟩ := h.due ((hsub sp').subset ha) he
    refine ⟨t', n, hkeep ?_ ht', hn⟩
    rintro rfl
    rw [ht] at ht'
    cases ht'
    exact absurd hn (Nat.not_le_of_lt (hr.late (h.inOrder sp) a ha))
  · rw [hsync]
    have hp := hback ht' (by rintro ⟨⟩) (by rintro _ _ ⟨⟩)
    exact h.inFlight hp.2.1
  · rw [hsync]
    have hp := hback ht' (by rintro ⟨⟩) (by rintro _ _ ⟨⟩)
    exact h.reached hp.2.1
  · rw [hsync] at he
    obtain ⟨-, hp, hk⟩ := hback ht' (by rintro ⟨⟩) (by rintro _ _ ⟨⟩)
    obtain ⟨t'', n, ht'', hn⟩ := h.waiters hp he
    refine ⟨t'', n, hkeep ?_ ht'', hn⟩
    rintro rfl
    rw [ht] at ht''
    cases ht''
    exact hk sp e rfl rfl

/-! ### Every run -/

theorem Step.increments_le (hs : Step s s') (sp : Syncpoint) : s.increments sp ≤ s'.increments sp := by
  cases hs with
  | registerAction ht sp' e =>
    unfold SyncpointManager.registerAction
    dsimp only
    split_ifs <;> exact Nat.le_refl _
  | registerLocked ht =>
    unfold SyncpointManager.registerLocked
    split_ifs <;> exact Nat.le_refl _
  | fetchAdd ht sp' =>
    unfold SyncpointManager.fetchAdd
    dsimp only
    by_cases hsp : sp = sp'
    · rw [hsp, update_self]
      exact Nat.le_succ _
    · exact Nat.le_of_eq (update_of_ne hsp ..).symm
  | @incrementLocked t sp' newValue ht =>
    have : (s.incrementLocked t sp' newValue).increments = s.increments := runDue_increments sp' newValue _ s
    exact Nat.le_of_eq (congrFun this sp).symm
  | deregisterAction sp' handle =>
    unfold SyncpointManager.deregisterAction
    split_ifs
    · exact Nat.le_refl _
    · split <;> exact Nat.le_refl _
  | wait ht sp' e =>
    unfold SyncpointManager.wait
    split_ifs <;> exact Nat.le_refl _
  | waitLocked ht =>
    unfold SyncpointManager.waitLocked
    split_ifs <;> exact Nat.le_refl _
  | registerReached | wakeUp => exact Nat.le_refl _

theorem Step.inv {place : ℕ → Place T} (hs : Step s s') (hacc : Accounted s place) (h : s.Timely)
    (hlt : ∀ sp, s'.increments sp < 2 ^ 32) : (∃ place', Accounted s' place') ∧ s'.Timely := by
  cases hs with
  | registerAction ht sp e => exact ⟨⟨_, hacc.registerAction ht sp e⟩, h.registerAction ht sp e⟩
  | @registerReached t sp e r ht =>
    have hhold : (s.points t).holds = some (sp, e, r) := by rw [ht]; rfl
    refine ⟨⟨_, hacc.runHeld hhold (h.reached ht)⟩, h.runHeld (fun sp' n hp => ?_) sp r⟩
    rw [ht] at hp
    cases hp
  | @registerLocked t sp e r ht =>
    have hhold : (s.points t).holds = some (sp, e, r) := by rw [ht]; rfl
    refine ⟨?_, h.registerLocked ht⟩
    unfold SyncpointManager.registerLocked
    split_ifs with he
    · exact ⟨_, hacc.runHeld hhold he⟩
    · exact ⟨_, hacc.store hhold⟩
  | @fetchAdd t ht sp =>
    refine ⟨⟨place, ?_⟩, h.fetchAdd ht sp ?_⟩
    · exact hacc.of_same (holds_goto (p := .incrementing sp ((s.syncpoints sp + 1) % 2 ^ 32)) (by rw [ht]; rfl))
        rfl rfl rfl rfl rfl
    · have := hlt sp
      rw [SyncpointManager.fetchAdd] at this
      dsimp only at this
      rwa [update_self] at this
  | @incrementLocked t sp newValue ht =>
    exact ⟨(incrementLocked_served hacc ht (h.inFlight ht)).2, h.incrementLocked hacc ht⟩
  | deregisterAction sp handle => exact ⟨hacc.deregisterAction sp handle, h.deregisterAction sp handle⟩
  | @wait t ht sp e =>
    refine ⟨⟨place, ?_⟩, h.wait ht sp e⟩
    unfold SyncpointManager.wait
    split_ifs
    · exact hacc
    · exact hacc.goto (by rw [ht]; rfl)
  | @waitLocked t sp e ht =>
    refine ⟨⟨place, ?_⟩, h.waitLocked ht⟩
    unfold SyncpointManager.waitLocked
    split_ifs
    · exact hacc.goto (by rw [ht]; rfl)
    · exact hacc.goto (by rw [ht]; rfl)
  | @wakeUp t sp e ht => exact ⟨⟨place, hacc.goto (by rw [ht]; rfl)⟩, h.wakeUp ht⟩

theorem Reaches.inv (hr : Reaches s) (hlt : ∀ sp, s.increments sp < 2 ^ 32) :
    (∃ place, Accounted s place) ∧ s.Timely := by
  induction hr with
  | initial => exact ⟨⟨_, initial_accounted⟩, initial_timely⟩
  | step hr hs ih =>
    obtain ⟨⟨place, hacc⟩, h⟩ := ih fun sp => Nat.lt_of_le_of_lt (hs.increments_le sp) (hlt sp)
    exact hs.inv hacc h hlt

/-- A reached action that no thread holds and nobody deregistered has run, or an increment's
section is about to run it. -/
theorem Accounted.reached {place : ℕ → Place T} (hacc : Accounted s place) (h : s.Timely) {r : ℕ} {sp : Syncpoint} {e : ℕ}
    (hreg : s.registrations[r]? = some (sp, e)) (he : e ≤ s.syncpoints sp) (hd : ∀ handle, (r, handle) ∉ s.deregistered)
    (hh : ∀ t, (s.points t).holds ≠ some (sp, e, r)) : (∃ v, (r, v) ∈ s.ran) ∨
      ∃ t n, s.points t = .incrementing sp n ∧ ∃ v, (r, v) ∈ (s.incrementLocked t sp n).ran := by
  have hlt := (List.getElem?_eq_some_iff.mp hreg).1
  have hat := hacc.complete hlt
  cases hp : place r with
  | held t =>
    rw [hp] at hat
    obtain ⟨sp', e', ht⟩ := hat
    have heq := (hacc.held ht).1
    rw [hreg] at heq
    cases heq
    exact absurd ht (hh t)
  | deregistered =>
    rw [hp] at hat
    obtain ⟨handle, hmem⟩ := hat
    exact absurd hmem (hd handle)
  | ran =>
    rw [hp] at hat
    exact .inl hat
  | stored =>
    rw [hp] at hat
    obtain ⟨sp', a, ha, rfl⟩ := hat
    have heq := (hacc.stored ha).1
    rw [hreg] at heq
    cases heq
    obtain ⟨t, n, ht, hn⟩ := h.due ha he
    have hserved := (incrementLocked_served hacc ht (h.inFlight ht)).1
    exact .inr ⟨t, n, ht, hserved.ranDue.ran (h.inOrder sp) a ha hn⟩

/-- A sleeper whose value is reached is about to be woken by an increment's section. -/
theorem Accounted.woken {place : ℕ → Place T} (hacc : Accounted s place) (h : s.Timely) {sp : Syncpoint} {e : ℕ}
    (ht : s.points t = .blocked sp e) (he : e ≤ s.syncpoints sp) :
    ∃ t' n, s.points t' = .incrementing sp n ∧ (s.incrementLocked t' sp n).points t = .waiting sp e := by
  obtain ⟨t', n, ht', -⟩ := h.waiters ht he
  have hserved := (incrementLocked_served hacc ht' (h.inFlight ht')).1
  refine ⟨t', n, ht', ?_⟩
  have hne : t ≠ t' := by
    rintro rfl
    rw [ht] at ht'
    cases ht'
  rcases hserved.points hne with ⟨sp', e', hb, -, hw⟩ | ⟨-, hk⟩
  · rw [ht] at hb
    cases hb
    exact hw
  · exact absurd rfl (hk sp e ht)

/-- **In every run** with less than `2 ^ 32` increments of each syncpoint: an action runs at most
once, and not before its value is reached; once it is reached, and if it was not deregistered, it
has run, or its registration is still under way, or an increment is, which is about to run it; the
lists are in order; and a sleeper whose value is reached is about to be woken. -/
theorem reaches_actions (hr : Reaches s) (hlt : ∀ sp, s.increments sp < 2 ^ 32) :
    (∀ r, (s.ran.map Prod.fst).count r ≤ 1) ∧
    (∀ r v, (r, v) ∈ s.ran → ∃ sp e, s.registrations[r]? = some (sp, e) ∧ e ≤ v) ∧
    (∀ r sp e, s.registrations[r]? = some (sp, e) → e ≤ s.syncpoints sp → (∀ handle, (r, handle) ∉ s.deregistered) →
      (s.ran.map Prod.fst).count r = 1 ∨ (∃ t, (s.points t).holds = some (sp, e, r)) ∨
      ∃ t n, s.points t = .incrementing sp n ∧ ((s.incrementLocked t sp n).ran.map Prod.fst).count r = 1) ∧
    (∀ sp, InOrder (s.actionStorage sp)) ∧
    ∀ t sp e, s.points t = .blocked sp e → e ≤ s.syncpoints sp →
      ∃ t' n, s.points t' = .incrementing sp n ∧ (s.incrementLocked t' sp n).points t = .waiting sp e := by
  obtain ⟨⟨place, hacc⟩, h⟩ := hr.inv hlt
  have hcount : ∀ {ran : List (ℕ × ℕ)} {r v : ℕ}, (ran.map Prod.fst).Nodup → (r, v) ∈ ran →
      (ran.map Prod.fst).count r = 1 := by
    intro ran r v hn hm
    exact List.count_eq_one_of_mem hn (List.mem_map.mpr ⟨(r, v), hm, rfl⟩)
  refine ⟨fun r => List.nodup_iff_count_le_one.mp hacc.ranOnce r, fun r v hv => (hacc.ran hv).2, ?_, h.inOrder,
    fun t sp e ht he => hacc.woken h ht he⟩
  intro r sp e hreg he hd
  by_cases hh : ∃ t, (s.points t).holds = some (sp, e, r)
  · exact .inr (.inl hh)
  · rcases hacc.reached h hreg he hd (not_exists.mp hh) with ⟨v, hv⟩ | ⟨t, n, ht, v, hv⟩
    · exact .inl (hcount hacc.ranOnce hv)
    · obtain ⟨-, place', hacc'⟩ := incrementLocked_served hacc ht (h.inFlight ht)
      exact .inr (.inr ⟨t, n, ht, hcount hacc'.ranOnce hv⟩)

/-- One thread registers an action for the value 1, and another increments the counter. -/
theorem reaches_actions_oneAction : ∃ s : SyncpointManager (Fin 2), Reaches s ∧ s.ran = [(0, 1)] ∧
    (s.ran.map Prod.fst).count 0 ≤ 1 := by
  have h1 := Reaches.initial.step (.registerAction (t := (0 : Fin 2)) rfl ⟨.guest, ⟨3, by decide⟩⟩ 1)
  have h2 := h1.step (.registerLocked (t := 0) rfl)
  have h3 := h2.step (.fetchAdd (t := 1) rfl ⟨.guest, ⟨3, by decide⟩⟩)
  have h4 := h3.step (.incrementLocked (t := 1) rfl)
  refine ⟨_, h4, rfl, (reaches_actions h4 fun sp => ?_).1 0⟩
  refine Nat.lt_of_le_of_lt (m := 1) ?_ (by decide)
  by_cases hsp : sp = ⟨.guest, ⟨3, by decide⟩⟩
  · rw [hsp]
    decide
  · exact Nat.le_trans (Nat.le_of_eq (update_of_ne hsp _ _)) (Nat.zero_le 1)

end SyncpointManager

end Tegra
end Citron
