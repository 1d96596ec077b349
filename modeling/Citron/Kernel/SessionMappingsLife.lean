/-
# The life of the buffers of a request

A request's log is in order exactly when no push is left without a place, every clean-up of
a mapping succeeds, and the client is there when a received request with buffers ends.
-/
import Citron.Kernel.SessionMappings

namespace Citron
namespace Kernel
namespace MapAliasRequest

open List

variable {q : MapAliasRequest} {m : SessionMappings} {log : List IpcEvent} {i n : ℕ} {x : Mapping}

/-! ### The clean-ups -/

/-- The loops over the three kinds visit the slots of all the mappings. -/
theorem forMappings_eq (body : ℕ → List IpcEvent → Outcome × List IpcEvent) :
    forMappings m body log = forRange body m.count log := by
  unfold forMappings
  rw [SessionMappings.count, forRange_add, forRange_add]

/-- The events of the clean-ups of buffers, all successful. -/
def cleaned (side : IpcSide) (xs : List Mapping) : List IpcEvent :=
  xs.map fun x => .cleanupForIpc side (x.address side) x.size x.state true

/-- The clean-ups of the slots, up to one that fails or one that holds nothing. -/
theorem cleanups_cases (q : MapAliasRequest) (side : IpcSide) {xs : List Mapping} (hslots : ∀ k, m.slot k = xs[k]?)
    (log : List IpcEvent) (n : ℕ) :
    (n ≤ xs.length ∧ (∀ k < n, q.cleanup side k = true) ∧
      forRange (q.cleanupForIpc side m) n log = (.success, log ++ cleaned side (xs.take n))) ∨
    (∃ k < n, k < xs.length ∧ q.cleanup side k = false ∧ ∃ address size state,
      forRange (q.cleanupForIpc side m) n log =
        (.failure, log ++ cleaned side (xs.take k) ++ [.cleanupForIpc side address size state false])) ∨
    xs.length < n ∧ (∀ k < xs.length, q.cleanup side k = true) ∧
      forRange (q.cleanupForIpc side m) n log = (.fault, log ++ cleaned side xs ++ [.unwritten xs.length]) := by
  have hstep : ∀ k < n, ∀ l, (k ≤ xs.length ∧ (∀ j < k, q.cleanup side j = true) ∧ l = log ++ cleaned side (xs.take k)) →
      (∃ l', q.cleanupForIpc side m k l = (.success, l') ∧
        (k + 1 ≤ xs.length ∧ (∀ j < k + 1, q.cleanup side j = true) ∧ l' = log ++ cleaned side (xs.take (k + 1)))) ∨
      ∃ o l', q.cleanupForIpc side m k l = (o, l') ∧ o ≠ .success ∧
        (k < xs.length ∧ q.cleanup side k = false ∧ o = .failure ∧ (∃ address size state,
          l' = log ++ cleaned side (xs.take k) ++ [.cleanupForIpc side address size state false]) ∨
        k = xs.length ∧ (∀ j < k, q.cleanup side j = true) ∧ o = .fault ∧
          l' = log ++ cleaned side xs ++ [.unwritten xs.length]) := by
    rintro k - l ⟨hk, hok, rfl⟩
    unfold cleanupForIpc
    rw [hslots]
    by_cases hlt : k < xs.length
    · rw [getElem?_eq_getElem hlt]
      cases hc : q.cleanup side k with
      | true =>
        refine .inl ⟨_, rfl, hlt, fun j hj => ?_, ?_⟩
        · exact (Nat.lt_succ_iff_lt_or_eq.mp hj).elim (hok j) fun heq => heq ▸ hc
        · rw [take_succ_eq_append_getElem hlt, append_assoc]
          unfold cleaned
          rw [map_append]
          rfl
      | false => exact .inr ⟨_, _, rfl, nofun, .inl ⟨hlt, rfl, rfl, _, _, _, rfl⟩⟩
    · have heq : k = xs.length := by omega
      rw [getElem?_eq_none (by omega), heq, take_length]
      exact .inr ⟨_, _, rfl, nofun, .inr ⟨rfl, heq ▸ hok, rfl, rfl⟩⟩
  rcases forRange_rule hstep ⟨Nat.zero_le _, nofun, (append_nil log).symm⟩ with
    ⟨l, hl, hn, hok, rfl⟩ | ⟨k, hk, o, l, hl, -, ⟨hlt, hc, rfl, address, size, state, rfl⟩ | ⟨rfl, hok, rfl, rfl⟩⟩
  · exact .inl ⟨hn, hok, hl⟩
  · exact .inr (.inl ⟨k, hk, hlt, hc, address, size, state, hl⟩)
  · exact .inr (.inr ⟨hk, hok, hl⟩)

/-! ### Logs -/

@[simp] theorem setups_append (a b : List IpcEvent) : setups (a ++ b) = setups a ++ setups b := filterMap_append

@[simp] theorem calls_append (side : IpcSide) (a b : List IpcEvent) : calls side (a ++ b) = calls side a ++ calls side b :=
  filterMap_append

@[simp] theorem releases_append (side : IpcSide) (a b : List IpcEvent) :
    releases side (a ++ b) = releases side a ++ releases side b := filterMap_append

@[simp] theorem setups_setup (xs : List Mapping) : setups (xs.map .setupForIpc) = xs := by
  induction xs with
  | nil => rfl
  | cons x xs ih => exact congrArg (x :: ·) ih

@[simp] theorem calls_setup (side : IpcSide) (xs : List Mapping) : calls side (xs.map .setupForIpc) = [] := by
  simp [calls, filterMap_map]

@[simp] theorem releases_setup (side : IpcSide) (xs : List Mapping) : releases side (xs.map .setupForIpc) = [] := by
  simp [releases, filterMap_map]

@[simp] theorem setups_cleaned (side : IpcSide) (xs : List Mapping) : setups (cleaned side xs) = [] := by
  simp [setups, cleaned, filterMap_map]

theorem calls_cleaned (side side' : IpcSide) (xs : List Mapping) :
    calls side' (cleaned side xs) = if side = side' then xs.map (Mapping.call side) else [] := by
  unfold calls cleaned
  rw [filterMap_map]
  split_ifs with h
  · rw [← filterMap_eq_map]
    congr 1
    funext x
    simp [h, Mapping.call]
  · simp [h]

theorem releases_cleaned (side side' : IpcSide) (xs : List Mapping) :
    releases side' (cleaned side xs) = if side = side' then xs.map (Mapping.call side) else [] := by
  unfold releases cleaned
  rw [filterMap_map]
  split_ifs with h
  · rw [← filterMap_eq_map]
    congr 1
    funext x
    simp [h, Mapping.call]
  · simp [h]

@[simp] theorem setups_cleanup (side : IpcSide) (address size : ℕ) (state : IpcMemoryState) (ok : Bool) :
    setups [.cleanupForIpc side address size state ok] = [] := rfl

@[simp] theorem releases_failed (side side' : IpcSide) (address size : ℕ) (state : IpcMemoryState) :
    releases side [.cleanupForIpc side' address size state false] = [] := rfl

/-- The buffers that were set up are all released, and nothing else is. -/
theorem accounted_cleaned (xs : List Mapping) :
    Accounted (xs.map .setupForIpc ++ (cleaned .server xs ++ cleaned .client xs)) := by
  have hcalls : ∀ side, calls side (cleaned .server xs ++ cleaned .client xs) = xs.map (Mapping.call side) := by
    intro side
    cases side <;> simp [calls_cleaned]
  refine ⟨fun i hi => ?_, fun side p hp => ?_, fun side => ?_⟩
  · simp [cleaned] at hi
  · rcases prefix_or_prefix_of_prefix hp (prefix_append _ _) with hle | ⟨r, rfl⟩
    · have hnil : calls side p = [] := by
        refine sublist_nil.mp ?_
        rw [← calls_setup side xs]
        exact hle.sublist.filterMap _
      rw [hnil]
      exact nil_subperm
    · have hr : r <+: cleaned .server xs ++ cleaned .client xs := (prefix_append_right_inj _).mp hp
      have hsetups : setups r = [] := by
        refine sublist_nil.mp ?_
        have hsub : (setups r).Sublist (setups (cleaned .server xs ++ cleaned .client xs)) := hr.sublist.filterMap _
        simpa using hsub
      rw [calls_append, calls_setup, nil_append, setups_append, hsetups, append_nil, setups_setup, ← hcalls side]
      exact (hr.sublist.filterMap _).subperm
  · cases side <;> simp [releases_cleaned]

/-- A log with fewer releases than buffers is not in order. -/
theorem not_accounted_of_lt (side : IpcSide) (h : (releases side log).length < (setups log).length) : ¬ Accounted log := by
  intro ha
  have hlength := (ha.released side).length_eq
  rw [length_map] at hlength
  omega

/-! ### The end of a request -/

/-- The slots of a request hold its buffers, and the log has no other calls. -/
structure Mapped (xs : List Mapping) (m : SessionMappings) (log : List IpcEvent) : Prop where
  count : m.count = xs.length
  slots : ∀ k, m.slot k = xs[k]?
  log : log = xs.map .setupForIpc

theorem Holds.mapped (h : Holds q i m log) : Mapped (q.buffers i) m log := ⟨h.count, h.slots, h.log⟩

variable {xs : List Mapping}

/-- A clean-up that stops at a failure on one side has not released all. -/
theorem Mapped.not_accounted_of_failed (h : Mapped xs m log) (side : IpcSide) {done : List IpcEvent} {k : ℕ}
    (hk : k < xs.length) (hdone : releases side done = []) (hsetups : setups done = []) (address size : ℕ)
    (state : IpcMemoryState) :
    ¬ Accounted (log ++ done ++ cleaned side (xs.take k) ++ [.cleanupForIpc side address size state false]) := by
  refine not_accounted_of_lt side ?_
  rw [h.log]
  simp [hdone, hsetups, releases_cleaned, Nat.le_of_lt hk, hk]

theorem Mapped.server (h : Mapped xs m log) (q : MapAliasRequest) :
    (∀ k < xs.length, q.cleanup .server k = true) ∧
        q.cleanupServerMap m true log = (.success, log ++ cleaned .server xs) ∨
      (∃ k < xs.length, q.cleanup .server k = false) ∧
        ∃ l, q.cleanupServerMap m true log = (.failure, l) ∧ ¬ Accounted l := by
  unfold cleanupServerMap
  rw [if_pos rfl, forMappings_eq, h.count]
  rcases cleanups_cases q .server h.slots log xs.length with ⟨-, hok, hl⟩ | ⟨k, hk, -, hc, a, sz, st, hl⟩ | ⟨hlt, -⟩
  · rw [take_length] at hl
    exact .inl ⟨hok, hl⟩
  · have hnot : ¬ Accounted (log ++ [] ++ cleaned .server (xs.take k) ++ [.cleanupForIpc .server a sz st false]) :=
      h.not_accounted_of_failed .server hk rfl rfl a sz st
    rw [append_nil] at hnot
    exact .inr ⟨⟨k, hk, hc⟩, _, hl, hnot⟩
  · exact absurd hlt (Nat.lt_irrefl _)

theorem Mapped.client (h : Mapped xs m log) (q : MapAliasRequest) :
    (∀ k < xs.length, q.cleanup .client k = true) ∧
        q.cleanupClientMap m true (log ++ cleaned .server xs) =
          (.success, log ++ cleaned .server xs ++ cleaned .client xs) ∨
      (∃ k < xs.length, q.cleanup .client k = false) ∧
        ∃ l, q.cleanupClientMap m true (log ++ cleaned .server xs) = (.failure, l) ∧ ¬ Accounted l := by
  unfold cleanupClientMap
  rw [if_pos rfl, forMappings_eq, h.count]
  rcases cleanups_cases q .client h.slots (log ++ cleaned .server xs) xs.length with
    ⟨-, hok, hl⟩ | ⟨k, hk, -, hc, a, sz, st, hl⟩ | ⟨hlt, -⟩
  · rw [take_length] at hl
    exact .inl ⟨hok, hl⟩
  · refine .inr ⟨⟨k, hk, hc⟩, _, hl, h.not_accounted_of_failed .client hk ?_ (setups_cleaned _ _) a sz st⟩
    rw [releases_cleaned, if_neg nofun]
  · exact absurd hlt (Nat.lt_irrefl _)

/-- `CleanupMap` with both page tables leaves the log in order exactly if no clean-up fails, and it reads no slot that
was not written. -/
theorem Mapped.cleanupMap (h : Mapped xs m log) (q : MapAliasRequest) :
    (q.cleanupMap m true true log).1 ≠ .fault ∧
      (Accounted (q.cleanupMap m true true log).2 ↔ ∀ side, ∀ k < xs.length, q.cleanup side k = true) := by
  unfold MapAliasRequest.cleanupMap
  rcases h.server q with ⟨hs, heq⟩ | ⟨⟨k, hk, hc⟩, l, heq, hnot⟩
  · rw [heq, tryThen_success]
    rcases h.client q with ⟨hcl, heq⟩ | ⟨⟨k, hk, hc⟩, l, heq, hnot⟩
    · rw [heq, append_assoc, h.log]
      refine ⟨nofun, fun _ side => ?_, fun _ => accounted_cleaned xs⟩
      cases side with
      | server => exact hs
      | client => exact hcl
    · rw [heq]
      exact ⟨nofun, fun ha => absurd ha hnot, fun hok => absurd (hok .client k hk) (by rw [hc]; nofun)⟩
  · rw [heq]
    exact ⟨nofun, fun ha => absurd ha hnot, fun hok => absurd (hok .server k hk) (by rw [hc]; nofun)⟩

/-- `CleanupMap` without the client's page table releases nothing there. -/
theorem Mapped.cleanupMap_noClient (h : Mapped xs m log) (q : MapAliasRequest) :
    Accounted (q.cleanupMap m true false log).2 ↔ xs = [] := by
  unfold MapAliasRequest.cleanupMap
  constructor
  · intro ha
    by_contra hne
    have hpos : 0 < xs.length := length_pos_iff.mpr hne
    rcases h.server q with ⟨-, heq⟩ | ⟨-, l, heq, hnot⟩
    · rw [heq] at ha
      refine not_accounted_of_lt .client ?_ ha
      rw [h.log]
      simp [cleanupClientMap, releases_cleaned, hpos]
    · rw [heq] at ha
      exact hnot ha
  · rintro rfl
    rcases h.server q with ⟨-, heq⟩ | ⟨⟨k, hk, -⟩, -⟩
    · rw [heq, h.log]
      exact accounted_cleaned []
    · exact absurd hk (Nat.not_lt_zero k)

theorem failAfterCleanup_log (q : MapAliasRequest) (m : SessionMappings) (log : List IpcEvent) :
    (q.failAfterCleanup m log).1 ≠ .success ∧ (q.failAfterCleanup m log).2 = (q.cleanupMap m true true log).2 := by
  unfold failAfterCleanup
  obtain ⟨o, l⟩ := q.cleanupMap m true true log
  cases o <;> exact ⟨nofun, rfl⟩

/-- After a push without a place the clean-up reads the slot that the push did not write, or stops before it. -/
theorem Overflows.not_accounted (h : Overflows q i m log) : ¬ Accounted (q.cleanupMap m true true log).2 := by
  obtain ⟨x, hb, hlog⟩ := h.log
  have hlength : (q.buffers i).length = numStaticMappings := by
    have hnext := h.length
    rw [buffers_succ, hb, length_append] at hnext
    exact Nat.succ.inj hnext
  unfold MapAliasRequest.cleanupMap cleanupServerMap
  rw [if_pos rfl, forMappings_eq, h.count]
  rcases cleanups_cases q .server h.slots log (numStaticMappings + 1) with
    ⟨hle, -⟩ | ⟨k, -, hk, -, a, sz, st, heq⟩ | ⟨-, -, heq⟩
  · omega
  · rw [heq]
    refine not_accounted_of_lt .server ?_
    have hundo : (releases .server [.cleanupForIpc .server x.serverAddress x.size x.state (q.undo .server),
        .cleanupForIpc .client x.clientAddress x.size x.state (q.undo .client)]).length ≤ 1 := by
      cases q.undo .server <;> cases q.undo .client <;> simp [releases]
    have hsetups : (setups log).length = numStaticMappings + 1 := by
      rw [hlog, ← h.length]
      simp [setups]
    have hstop : ∀ l f, tryThen ((.failure, l) : Outcome × List IpcEvent) f = (.failure, l) := fun _ _ => rfl
    rw [hstop]
    simp only [hlog, releases_append, releases_setup, nil_append, releases_cleaned, if_true, releases_failed,
      append_nil, length_append, length_map, length_take, Nat.min_eq_left (Nat.le_of_lt hk)]
    simp only [setups_append, setups_cleaned, setups_cleanup, append_nil, ← hlog, hsetups]
    omega
  · rw [heq]
    intro ha
    exact ha.written (q.buffers i).length (by simp [tryThen])

/-! ### Which requests are in order -/

/-- The descriptors up to the first one that is refused. -/
def acceptedIndices (q : MapAliasRequest) : List ℕ := (List.range q.mapAliasCount).takeWhile q.accepted

/-- The buffers that a request sets up if each finds a place. -/
def mapped (q : MapAliasRequest) : List Mapping :=
  if q.checked && q.pointersProcessed then q.acceptedIndices.filterMap q.buffer else []

/-- No part of `ReceiveMessage` fails by itself. -/
def received (q : MapAliasRequest) : Bool :=
  q.checked && q.pointersProcessed && (List.range q.mapAliasCount).all q.accepted && q.rawDataCopied

/-- The inputs that keep the log in order. -/
structure Clean (q : MapAliasRequest) : Prop where
  places : q.mapped.length ≤ numStaticMappings ∨ q.pageBuffer = true
  cleanups : ∀ side, ∀ k < q.mapped.length, q.cleanup side k = true
  client : q.received = true → q.ending = .closed false → q.mapped = []

theorem takeWhile_range {p : ℕ → Bool} (hn : i ≤ n) (hp : ∀ j < i, p j = true) (hstop : i = n ∨ p i = false) :
    (List.range n).takeWhile p = List.range i := by
  obtain ⟨r, rfl⟩ := Nat.exists_eq_add_of_le hn
  rw [range_add, takeWhile_append_of_pos fun j hj => hp j (mem_range.mp hj)]
  cases r with
  | zero => simp
  | succ r =>
    have hi : p i = false := hstop.resolve_left (by omega)
    simp [range_succ_eq_map, hi]

/-- The buffers before the first refused descriptor are the mapped ones. -/
theorem Holds.mapped_eq (h : Holds q i m log) (hcall : (q.checked && q.pointersProcessed) = true)
    (hi : i ≤ q.mapAliasCount) (hstop : i = q.mapAliasCount ∨ q.accepted i = false) : q.mapped = q.buffers i := by
  unfold MapAliasRequest.mapped acceptedIndices
  rw [if_pos hcall, takeWhile_range hi h.accepted hstop]
  rfl

theorem Overflows.length_mapped (h : Overflows q i m log) (hcall : (q.checked && q.pointersProcessed) = true)
    (hi : i < q.mapAliasCount) : numStaticMappings < q.mapped.length := by
  unfold MapAliasRequest.mapped acceptedIndices
  rw [if_pos hcall]
  obtain ⟨r, hr⟩ := Nat.exists_eq_add_of_le hi
  rw [hr, range_add, takeWhile_append_of_pos fun j hj => h.accepted j (mem_range.mp hj),
    filterMap_append, length_append]
  have hlength : ((List.range (i + 1)).filterMap q.buffer).length = numStaticMappings + 1 := h.length
  omega

/-- A call that failed leaves the log in order exactly if its guard's clean-ups succeed. -/
theorem Mapped.failed (h : Mapped q.mapped m log) (hplaces : q.mapped.length ≤ numStaticMappings ∨ q.pageBuffer = true)
    (hnot : q.received = true → q.ending ≠ .closed false) :
    Accounted (q.failAfterCleanup m log).2 ↔ q.Clean := by
  rw [(failAfterCleanup_log q m log).2, (h.cleanupMap q).2]
  exact ⟨fun hok => ⟨hplaces, hok, fun hr he => absurd he (hnot hr)⟩, fun hclean => hclean.cleanups⟩

/-- The copies out of the slots read only written ones, and make no call. -/
theorem Mapped.copied (h : Mapped xs m log) (copied : ℕ → Bool) (base n : ℕ) (hn : base + n ≤ m.count) (l : List IpcEvent) :
    ∃ o, o ≠ .fault ∧ forRange (fun i => copySlot m copied (base + i)) n l = (o, l) := by
  have hstep : ∀ i < n, ∀ l', l' = l → (∃ s', copySlot m copied (base + i) l' = (.success, s') ∧ s' = l) ∨
      ∃ o s', copySlot m copied (base + i) l' = (o, s') ∧ o ≠ .success ∧ (o = .failure ∧ s' = l) := by
    intro i hi l' hl'
    have hcount := h.count
    unfold copySlot
    rw [h.slots, getElem?_eq_getElem (by omega)]
    cases copied (base + i) with
    | true => exact .inl ⟨_, rfl, hl'⟩
    | false => exact .inr ⟨.failure, _, rfl, nofun, rfl, hl'⟩
  rcases forRange_rule hstep rfl with ⟨l', hl', rfl⟩ | ⟨i, -, o, l', hl', -, rfl, rfl⟩
  · exact ⟨.success, nofun, hl'⟩
  · exact ⟨.failure, nofun, hl'⟩

/-- `SendMessage` leaves the clean-up's log whether it fails or not. -/
theorem Mapped.sendMessage (h : Mapped xs m log) (q : MapAliasRequest) (checked : Bool) (copied : ℕ → Bool) (sent : Bool) :
    (q.sendMessage m checked copied sent log).2 = (q.cleanupMap m true true log).2 := by
  unfold MapAliasRequest.sendMessage
  have hbody : ∃ o, o ≠ .fault ∧ (if !checked then (.failure, log)
      else tryThen (tryThen (forRange (fun i => copySlot m copied (m.numSend + i)) m.numRecv log)
          (forRange (fun i => copySlot m copied (m.numSend + m.numRecv + i)) m.numExch))
        fun log => (if sent then .success else .failure, log)) = (o, log) := by
    cases checked with
    | false => exact ⟨.failure, nofun, rfl⟩
    | true =>
      obtain ⟨o, ho, heq⟩ := h.copied copied m.numSend m.numRecv (by unfold SessionMappings.count; omega) log
      obtain ⟨o', ho', heq'⟩ := h.copied copied (m.numSend + m.numRecv) m.numExch (Nat.le_refl _) log
      rw [heq]
      cases o with
      | success =>
        rw [tryThen_success, heq']
        cases o' with
        | success => cases sent with
          | true => exact ⟨.success, nofun, rfl⟩
          | false => exact ⟨.failure, nofun, rfl⟩
        | failure => exact ⟨.failure, nofun, rfl⟩
        | fault => exact absurd rfl ho'
      | failure => exact ⟨.failure, nofun, rfl⟩
      | fault => exact absurd rfl ho
  obtain ⟨o, ho, heq⟩ := hbody
  rw [heq]
  cases o with
  | success => rfl
  | failure => exact (failAfterCleanup_log q m log).2
  | fault => exact absurd rfl ho

/-- A received request ends with the clean-up of its buffers, on the client's side too if it is there. -/
theorem Mapped.ended (h : Mapped q.mapped m log) (hplaces : q.mapped.length ≤ numStaticMappings ∨ q.pageBuffer = true)
    (hreceived : q.received = true) :
    Accounted (match q.ending with
      | .sendMessage checked copied sent => (q.sendMessage m checked copied sent log).2
      | .closed clientThread => (q.cleanupMap m true clientThread log).2) ↔ q.Clean := by
  have hfull : (q.ending ≠ .closed false) →
      (Accounted (q.cleanupMap m true true log).2 ↔ q.Clean) := fun hne => by
    rw [(h.cleanupMap q).2]
    exact ⟨fun hok => ⟨hplaces, hok, fun _ he => absurd he hne⟩, fun hclean => hclean.cleanups⟩
  cases hending : q.ending with
  | sendMessage checked copied sent =>
    dsimp only
    rw [h.sendMessage q]
    exact hfull (by rw [hending]; nofun)
  | closed clientThread =>
    cases clientThread with
    | true => exact hfull (by rw [hending]; nofun)
    | false =>
      rw [h.cleanupMap_noClient q]
      refine ⟨fun hnil => ⟨hplaces, fun side k hk => ?_, fun _ _ => hnil⟩, fun hclean => hclean.client hreceived hending⟩
      rw [hnil] at hk
      exact absurd hk (Nat.not_lt_zero k)

/-- What the guard of `ReceiveMessage` sees. -/
def copied (q : MapAliasRequest) : Outcome × SessionMappings × List IpcEvent :=
  tryThen (if q.pointersProcessed then forRange q.processReceiveMessageMapAliasDescriptors q.mapAliasCount (.initial, [])
    else (.failure, .initial, [])) fun s => (if q.rawDataCopied then .success else .failure, s)

theorem receiveMessage_of_checked (hchecked : q.checked = true) :
    q.receiveMessage = match q.copied with
      | (.failure, m, log) => ((q.failAfterCleanup m log).1, m, (q.failAfterCleanup m log).2)
      | r => r := by
  unfold receiveMessage
  rw [hchecked]
  rfl

theorem life_of_success (hchecked : q.checked = true) (h : q.copied = (.success, m, log)) :
    q.life = match q.ending with
      | .sendMessage checked copied sent => (q.sendMessage m checked copied sent log).2
      | .closed clientThread => (q.cleanupMap m true clientThread log).2 := by
  have hreceive : q.receiveMessage = (.success, m, log) := by
    rw [receiveMessage_of_checked hchecked, h]
  cases hending : q.ending with
  | sendMessage checked copied sent => simp only [life, hreceive, hending]
  | closed clientThread => simp only [life, hreceive, hending]

theorem life_of_failure (hchecked : q.checked = true) (h : q.copied = (.failure, m, log)) :
    q.life = (q.failAfterCleanup m log).2 := by
  have hreceive : q.receiveMessage = ((q.failAfterCleanup m log).1, m, (q.failAfterCleanup m log).2) := by
    rw [receiveMessage_of_checked hchecked, h]
  have hne := (failAfterCleanup_log q m log).1
  unfold life
  rw [hreceive]
  cases ho : (q.failAfterCleanup m log).1 with
  | success => exact absurd ho hne
  | failure => rfl
  | fault => rfl

/-- **The account of a request's buffers.** Over its life each buffer that is set up is released once on each side,
no clean-up is tried for another or a second time, and no unwritten slot is read, exactly if each push finds a place,
no clean-up fails, and the client of a received request with buffers is there at its end. -/
theorem life_accounted_iff (q : MapAliasRequest) : Accounted q.life ↔ q.Clean := by
  cases hchecked : q.checked with
  | false =>
    have hnil : q.mapped = [] := by rw [MapAliasRequest.mapped, hchecked]; rfl
    have hlife : q.life = [] := by rw [life, receiveMessage, hchecked]; rfl
    rw [hlife]
    refine ⟨fun _ => ⟨.inl ?_, fun side k hk => ?_, fun _ _ => hnil⟩, fun _ => accounted_cleaned []⟩
    · rw [hnil]
      exact Nat.zero_le _
    · rw [hnil] at hk
      exact absurd hk (Nat.not_lt_zero k)
  | true =>
    cases hpointers : q.pointersProcessed with
    | false =>
      have hnil : q.mapped = [] := by rw [MapAliasRequest.mapped, hchecked, hpointers]; rfl
      have hcopied : q.copied = (.failure, .initial, []) := by rw [copied, hpointers]; rfl
      have hmapped : Mapped q.mapped .initial [] := by
        rw [hnil]
        exact (Holds.initial q).mapped
      rw [life_of_failure hchecked hcopied]
      refine hmapped.failed (.inl ?_) fun hr => ?_
      · rw [hnil]
        exact Nat.zero_le _
      · simp [received, hpointers] at hr
    | true =>
      have hcall : (q.checked && q.pointersProcessed) = true := by rw [hchecked, hpointers]; rfl
      rcases processed_cases q with ⟨m, log, heq, hholds⟩ | ⟨i, hi, m, log, heq, ⟨hacc, hholds⟩ | hover⟩
      · have hmapped := hholds.mapped_eq hcall (Nat.le_refl _) (.inl rfl)
        have hm : Mapped q.mapped m log := hmapped ▸ hholds.mapped
        have hplaces := hmapped ▸ hholds.places
        cases hraw : q.rawDataCopied with
        | true =>
          have hcopied : q.copied = (.success, m, log) := by rw [copied, hpointers, if_pos rfl, heq, hraw]; rfl
          rw [life_of_success hchecked hcopied]
          exact hm.ended hplaces (by simpa [received, hchecked, hpointers, hraw] using hholds.accepted)
        | false =>
          have hcopied : q.copied = (.failure, m, log) := by rw [copied, hpointers, if_pos rfl, heq, hraw]; rfl
          rw [life_of_failure hchecked hcopied]
          exact hm.failed hplaces fun hr => by simp [received, hraw] at hr
      · have hmapped := hholds.mapped_eq hcall (Nat.le_of_lt hi) (.inr hacc)
        have hm : Mapped q.mapped m log := hmapped ▸ hholds.mapped
        have hcopied : q.copied = (.failure, m, log) := by rw [copied, hpointers, if_pos rfl, heq]; rfl
        rw [life_of_failure hchecked hcopied]
        refine hm.failed (hmapped ▸ hholds.places) fun hr => ?_
        have hall : q.accepted i = true := by
          simp only [received, Bool.and_eq_true, all_eq_true, mem_range] at hr
          exact hr.1.2 i hi
        rw [hacc] at hall
        cases hall
      · have hcopied : q.copied = (.failure, m, log) := by rw [copied, hpointers, if_pos rfl, heq]; rfl
        rw [life_of_failure hchecked hcopied, (failAfterCleanup_log q m log).2]
        refine ⟨fun ha => absurd ha hover.not_accounted, fun hclean => ?_⟩
        rcases hclean.places with hle | hpage
        · exact absurd (hover.length_mapped hcall hi) (Nat.not_lt.mpr hle)
        · rw [hover.page] at hpage
          cases hpage

/-- A request with nine send buffers, of a page each, where no page for the ninth mapping is left. -/
def nineBuffers : MapAliasRequest where
  sendCount := 9
  receiveCount := 0
  exchangeCount := 0
  descriptor i := ⟨0x10000 + 0x1000 * i, 0x1000, 0⟩
  checked := true
  pointersProcessed := true
  setupForIpc i := some (0x80000 + 0x1000 * i)
  pageBuffer := false
  undo _ := true
  rawDataCopied := true
  cleanup _ _ := true
  ending := .sendMessage true (fun _ => true) true

theorem nineBuffers_not_accounted : ¬ Accounted nineBuffers.life :=
  fun ha => ha.written 8 (by decide)

end MapAliasRequest
end Kernel
end Citron
