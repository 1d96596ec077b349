/-
# The buffers that a session request maps

A request keeps the buffers that `ReceiveMessage` maps into the server, and every path on
which the request ends cleans them up from there. What the page tables and the other parts
of a message return is given from outside, and the calls to the page tables are kept in a
log. A slot that nothing was written to holds no mapping, and a read of it is a fault.
-/
import Mathlib.Data.List.Perm.Subperm
import Citron.Lib.Attempt

namespace Citron
namespace Kernel

open Function

/-- The values of `KMemoryState` that a buffer of a message has in the server. -/
inductive IpcMemoryState
  | ipc
  | nonSecureIpc
  | nonDeviceIpc
deriving DecidableEq, Repr

/-- `KSessionRequest::SessionMappings::Mapping`. -/
structure Mapping where
  clientAddress : ℕ
  serverAddress : ℕ
  size : ℕ
  state : IpcMemoryState
deriving DecidableEq, Repr

/-- The process that a buffer is cleaned up in. -/
inductive IpcSide
  | server
  | client
deriving DecidableEq, Repr

def Mapping.address (x : Mapping) : IpcSide → ℕ
  | .server => x.serverAddress
  | .client => x.clientAddress

/-- At most 15 buffers of each kind, so the counters do not wrap. -/
structure SessionMappings where
  staticMappings : ℕ → Option Mapping
  mappings : Option (ℕ → Option Mapping)
  numSend : ℕ
  numRecv : ℕ
  numExch : ℕ

def numStaticMappings : ℕ := 8

namespace SessionMappings

def initial : SessionMappings := ⟨fun _ => none, none, 0, 0, 0⟩

/-- `PushMap`. The result says whether there was a page for the extra mappings. -/
def pushMap (m : SessionMappings) (allocate : Bool) (mapping : Mapping) (index : ℕ) : Bool × SessionMappings :=
  if index < numStaticMappings then
    (true, { m with staticMappings := update m.staticMappings index (some mapping) })
  else
    match m.mappings with
    | some page => (true, { m with mappings := some (update page (index - numStaticMappings) (some mapping)) })
    | none =>
      if allocate then
        (true, { m with mappings := some (update (fun _ => none) (index - numStaticMappings) (some mapping)) })
      else (false, m)

def pushSend (m : SessionMappings) (allocate : Bool) (mapping : Mapping) : Bool × SessionMappings :=
  { m with numSend := m.numSend + 1 }.pushMap allocate mapping m.numSend

def pushReceive (m : SessionMappings) (allocate : Bool) (mapping : Mapping) : Bool × SessionMappings :=
  { m with numRecv := m.numRecv + 1 }.pushMap allocate mapping (m.numSend + m.numRecv)

def pushExchange (m : SessionMappings) (allocate : Bool) (mapping : Mapping) : Bool × SessionMappings :=
  { m with numExch := m.numExch + 1 }.pushMap allocate mapping (m.numSend + m.numRecv + m.numExch)

/-- The slot of an index, in the static mappings or in the page. -/
def slot (m : SessionMappings) (index : ℕ) : Option Mapping :=
  if index < numStaticMappings then m.staticMappings index
  else m.mappings.bind fun page => page (index - numStaticMappings)

def getSendMapping (m : SessionMappings) (i : ℕ) : Option Mapping := m.slot i

def getReceiveMapping (m : SessionMappings) (i : ℕ) : Option Mapping := m.slot (m.numSend + i)

def getExchangeMapping (m : SessionMappings) (i : ℕ) : Option Mapping := m.slot (m.numSend + m.numRecv + i)

end SessionMappings

/-- A call to a page table (`SetupForIpc`, `CleanupForIpcServer` or `CleanupForIpcClient`), or a read of a slot that
was not written. -/
inductive IpcEvent
  | setupForIpc (mapping : Mapping)
  | cleanupForIpc (side : IpcSide) (address size : ℕ) (state : IpcMemoryState) (succeeded : Bool)
  | unwritten (index : ℕ)
deriving DecidableEq, Repr

structure MapAliasDescriptor where
  address : ℕ
  size : ℕ
  attr : ℕ
deriving DecidableEq, Repr

def getMapAliasMemoryState : ℕ → Option IpcMemoryState
  | 0 => some .ipc
  | 1 => some .nonSecureIpc
  | 3 => some .nonDeviceIpc
  | _ => none

/-- How a received request ends: `SendMessage`, whose first checks, whose copies out of the receive and the exchange
buffers and whose other parts may fail, or a clean-up of a closed session, where the client's thread may be gone. -/
inductive RequestEnding
  | sendMessage (checked : Bool) (copied : ℕ → Bool) (sent : Bool)
  | closed (clientThread : Bool)

/-- A request, and all that the calls on its way return. -/
structure MapAliasRequest where
  sendCount : ℕ
  receiveCount : ℕ
  exchangeCount : ℕ
  descriptor : ℕ → MapAliasDescriptor
  /-- The checks before the first change pass. -/
  checked : Bool
  /-- The special data and the pointer descriptors are processed. -/
  pointersProcessed : Bool
  /-- The server's address of each buffer, if it can be set up. -/
  setupForIpc : ℕ → Option ℕ
  /-- There is a page for the extra mappings. -/
  pageBuffer : Bool
  /-- The results of the clean-ups after a push that failed. -/
  undo : IpcSide → Bool
  rawDataCopied : Bool
  /-- The results of the clean-ups of the mappings in the slots. -/
  cleanup : IpcSide → ℕ → Bool
  ending : RequestEnding

namespace MapAliasRequest

variable (q : MapAliasRequest)

def mapAliasCount : ℕ := q.sendCount + q.receiveCount + q.exchangeCount

/-! ### Clean-up -/

/-- `CleanupForIpcServer` or `CleanupForIpcClient` of the mapping of a slot. -/
def cleanupForIpc (side : IpcSide) (m : SessionMappings) (index : ℕ) (log : List IpcEvent) : Outcome × List IpcEvent :=
  match m.slot index with
  | none => (.fault, log ++ [.unwritten index])
  | some x =>
    let ok := q.cleanup side index
    (if ok then .success else .failure, log ++ [.cleanupForIpc side (x.address side) x.size x.state ok])

/-- The loops over the three kinds of mappings, each at its slots. -/
def forMappings (m : SessionMappings) (body : ℕ → List IpcEvent → Outcome × List IpcEvent) (log : List IpcEvent) :
    Outcome × List IpcEvent :=
  tryThen (tryThen (forRange body m.numSend log) (forRange (fun i => body (m.numSend + i)) m.numRecv))
    (forRange (fun i => body (m.numSend + m.numRecv + i)) m.numExch)

def cleanupServerMap (m : SessionMappings) (serverProcess : Bool) (log : List IpcEvent) : Outcome × List IpcEvent :=
  if serverProcess then forMappings m (q.cleanupForIpc .server m) log else (.success, log)

def cleanupClientMap (m : SessionMappings) (clientPageTable : Bool) (log : List IpcEvent) : Outcome × List IpcEvent :=
  if clientPageTable then forMappings m (q.cleanupForIpc .client m) log else (.success, log)

def cleanupMap (m : SessionMappings) (serverProcess clientPageTable : Bool) (log : List IpcEvent) :
    Outcome × List IpcEvent :=
  tryThen (q.cleanupServerMap m serverProcess log) (q.cleanupClientMap m clientPageTable)

/-- A failure whose guard cleans up the mappings and does not look at the result. -/
def failAfterCleanup (m : SessionMappings) (log : List IpcEvent) : Outcome × List IpcEvent :=
  match q.cleanupMap m true true log with
  | (.fault, log) => (.fault, log)
  | (_, log) => (.failure, log)

/-! ### The messages -/

/-- `ProcessReceiveMessageMapAliasDescriptors` of the descriptor of an index. The buffers after the send buffers are
writable, and the send and the exchange buffers are sent. -/
def processReceiveMessageMapAliasDescriptors (i : ℕ) (s : SessionMappings × List IpcEvent) :
    Outcome × SessionMappings × List IpcEvent :=
  let (m, log) := s
  let readOnly := i < q.sendCount
  let send := i < q.sendCount ∨ i ≥ q.sendCount + q.receiveCount
  let srcDesc := q.descriptor i
  match getMapAliasMemoryState srcDesc.attr with
  | none => (.failure, m, log)
  | some dstState =>
    if srcDesc.size = 0 then (.success, m, log)
    else
      match q.setupForIpc i with
      | none => (.failure, m, log)
      | some dstAddress =>
        let mapping : Mapping := ⟨srcDesc.address, dstAddress, srcDesc.size, dstState⟩
        let log := log ++ [.setupForIpc mapping]
        let pushed :=
          if readOnly then m.pushSend q.pageBuffer mapping
          else if send then m.pushExchange q.pageBuffer mapping
          else m.pushReceive q.pageBuffer mapping
        if pushed.1 then (.success, pushed.2, log)
        else
          (.failure, pushed.2, log ++ [.cleanupForIpc .server dstAddress srcDesc.size dstState (q.undo .server),
            .cleanupForIpc .client srcDesc.address srcDesc.size dstState (q.undo .client)])

/-- `ReceiveMessage`, the guard at its failure included. -/
def receiveMessage : Outcome × SessionMappings × List IpcEvent :=
  if !q.checked then (.failure, .initial, [])
  else
    let processed :=
      if q.pointersProcessed then forRange q.processReceiveMessageMapAliasDescriptors q.mapAliasCount (.initial, [])
      else (.failure, .initial, [])
    let copied := tryThen processed fun s => (if q.rawDataCopied then .success else .failure, s)
    match copied with
    | (.failure, m, log) =>
      let (outcome, log) := q.failAfterCleanup m log
      (outcome, m, log)
    | r => r

/-- The copy out of the buffer of a slot by `ProcessSendMessageReceiveMapping`. -/
def copySlot (m : SessionMappings) (copied : ℕ → Bool) (index : ℕ) (log : List IpcEvent) : Outcome × List IpcEvent :=
  match m.slot index with
  | none => (.fault, log ++ [.unwritten index])
  | some _ => (if copied index then .success else .failure, log)

/-- `SendMessage`: the body with its guard, and the clean-up at the end. -/
def sendMessage (m : SessionMappings) (checked : Bool) (copied : ℕ → Bool) (sent : Bool) (log : List IpcEvent) :
    Outcome × List IpcEvent :=
  let body :=
    if !checked then (.failure, log)
    else
      tryThen (tryThen (forRange (fun i => copySlot m copied (m.numSend + i)) m.numRecv log)
          (forRange (fun i => copySlot m copied (m.numSend + m.numRecv + i)) m.numExch))
        fun log => (if sent then .success else .failure, log)
  match body with
  | (.success, log) => q.cleanupMap m true true log
  | (.failure, log) => q.failAfterCleanup m log
  | r => r

/-- The life of a request from `ReceiveMessage` on. -/
def life : List IpcEvent :=
  match q.receiveMessage with
  | (.success, m, log) =>
    match q.ending with
    | .sendMessage checked copied sent => (q.sendMessage m checked copied sent log).2
    | .closed clientThread => (q.cleanupMap m true clientThread log).2
  | (_, _, log) => log

end MapAliasRequest

/-! ## The account of the buffers of a request

A log is in order if each buffer that was set up is released once on each side, no clean-up
is tried for a buffer that is not set up or is released, and no slot is read that was not
written. The slots hold the buffers in the order of the descriptors as long as each push
finds a place; a push that finds none has counted its buffer already.
-/

def Mapping.call (side : IpcSide) (x : Mapping) : ℕ × ℕ × IpcMemoryState := (x.address side, x.size, x.state)

def setups (log : List IpcEvent) : List Mapping :=
  log.filterMap fun
    | .setupForIpc x => some x
    | _ => none

def calls (side : IpcSide) (log : List IpcEvent) : List (ℕ × ℕ × IpcMemoryState) :=
  log.filterMap fun
    | .cleanupForIpc side' address size state _ => if side' = side then some (address, size, state) else none
    | _ => none

def releases (side : IpcSide) (log : List IpcEvent) : List (ℕ × ℕ × IpcMemoryState) :=
  log.filterMap fun
    | .cleanupForIpc side' address size state true => if side' = side then some (address, size, state) else none
    | _ => none

structure Accounted (log : List IpcEvent) : Prop where
  written : ∀ i, .unwritten i ∉ log
  live : ∀ side p, p <+: log → (calls side p).Subperm ((setups p).map (Mapping.call side))
  released : ∀ side, (releases side log).Perm ((setups log).map (Mapping.call side))

namespace SessionMappings

variable {m : SessionMappings} {allocate : Bool} {x : Mapping} {index : ℕ}

def count (m : SessionMappings) : ℕ := m.numSend + m.numRecv + m.numExch

/-- A push that finds a place writes the slot of its index. -/
theorem pushMap_of_place (h : index < numStaticMappings ∨ m.mappings.isSome ∨ allocate = true) :
    (m.pushMap allocate x index).1 = true ∧ (m.pushMap allocate x index).2.slot = update m.slot index (some x) ∧
      (m.pushMap allocate x index).2.count = m.count ∧ (m.pushMap allocate x index).2.numRecv = m.numRecv ∧
      (m.pushMap allocate x index).2.numExch = m.numExch ∧
      (m.pushMap allocate x index).2.mappings.isSome = (m.mappings.isSome || !decide (index < numStaticMappings)) := by
  have hupdate : ∀ (page : ℕ → Option Mapping) k, ¬ index < numStaticMappings →
      (if k < numStaticMappings then m.staticMappings k
        else update page (index - numStaticMappings) (some x) (k - numStaticMappings)) =
      update (fun k => if k < numStaticMappings then m.staticMappings k else page (k - numStaticMappings)) index
        (some x) k := by
    intro page k hi
    by_cases hk : k = index
    · rw [hk, update_self, if_neg hi, update_self]
    · rw [update_of_ne hk]
      by_cases hks : k < numStaticMappings
      · rw [if_pos hks, if_pos hks]
      · rw [if_neg hks, if_neg hks, update_of_ne (by omega)]
  unfold pushMap
  by_cases hi : index < numStaticMappings
  · rw [if_pos hi]
    refine ⟨rfl, funext fun k => ?_, rfl, rfl, rfl, by simp [hi]⟩
    unfold slot
    by_cases hk : k = index
    · simp [hk, hi]
    · simp [update_of_ne hk]
  · rw [if_neg hi]
    cases hm : m.mappings with
    | some page =>
      refine ⟨rfl, funext fun k => ?_, rfl, rfl, rfl, rfl⟩
      have hslot : m.slot = fun k => if k < numStaticMappings then m.staticMappings k else page (k - numStaticMappings) := by
        funext k
        rw [slot, hm]
        rfl
      rw [hslot, ← hupdate page k hi]
      rfl
    | none =>
      have ha : allocate = true := by simpa [hi, hm] using h
      rw [if_pos ha]
      refine ⟨rfl, funext fun k => ?_, rfl, rfl, rfl, by simp [hi]⟩
      have hslot : m.slot = fun k => if k < numStaticMappings then m.staticMappings k else none := by
        funext k
        rw [slot, hm]
        rfl
      rw [hslot, ← hupdate (fun _ => none) k hi]
      rfl

/-- A push without a place changes nothing. -/
theorem pushMap_of_full (hi : ¬ index < numStaticMappings) (hm : m.mappings = none) :
    m.pushMap false x index = (false, m) := by
  unfold pushMap
  rw [if_neg hi, hm]
  rfl

end SessionMappings

namespace MapAliasRequest

variable {q : MapAliasRequest} {m : SessionMappings} {log : List IpcEvent} {i n : ℕ} {x : Mapping}

/-- A descriptor that its attribute and `SetupForIpc` let through. -/
def accepted (q : MapAliasRequest) (i : ℕ) : Bool :=
  (getMapAliasMemoryState (q.descriptor i).attr).isSome && ((q.descriptor i).size == 0 || (q.setupForIpc i).isSome)

/-- The buffer that a descriptor sets up. -/
def buffer (q : MapAliasRequest) (i : ℕ) : Option Mapping :=
  if (q.descriptor i).size = 0 then none
  else
    (getMapAliasMemoryState (q.descriptor i).attr).bind fun state =>
      (q.setupForIpc i).map fun server => ⟨(q.descriptor i).address, server, (q.descriptor i).size, state⟩

/-- The buffers of the first descriptors. -/
def buffers (q : MapAliasRequest) (n : ℕ) : List Mapping := (List.range n).filterMap q.buffer

theorem buffers_succ : q.buffers (i + 1) = q.buffers i ++ (q.buffer i).toList := by
  unfold buffers
  rw [List.range_succ, List.filterMap_append]
  cases hb : q.buffer i <;> simp [hb]

/-- The buffers of the first `i` descriptors are in the slots, counted by their kinds, and the page is there once they
need it. -/
structure Holds (q : MapAliasRequest) (i : ℕ) (m : SessionMappings) (log : List IpcEvent) : Prop where
  accepted : ∀ j < i, q.accepted j = true
  count : m.count = (q.buffers i).length
  slots : ∀ k, m.slot k = (q.buffers i)[k]?
  log : log = (q.buffers i).map .setupForIpc
  receive : i ≤ q.sendCount → m.numRecv = 0
  exchange : i ≤ q.sendCount + q.receiveCount → m.numExch = 0
  page : m.mappings.isSome = decide (numStaticMappings < (q.buffers i).length)
  places : (q.buffers i).length ≤ numStaticMappings ∨ q.pageBuffer = true

/-- What a push without a place leaves: the buffer is counted and released. -/
structure Overflows (q : MapAliasRequest) (i : ℕ) (m : SessionMappings) (log : List IpcEvent) : Prop where
  accepted : ∀ j < i + 1, q.accepted j = true
  length : (q.buffers (i + 1)).length = numStaticMappings + 1
  page : q.pageBuffer = false
  count : m.count = numStaticMappings + 1
  slots : ∀ k, m.slot k = (q.buffers i)[k]?
  log : ∃ x : Mapping, q.buffer i = some x ∧ log = (q.buffers (i + 1)).map .setupForIpc ++
    [.cleanupForIpc .server x.serverAddress x.size x.state (q.undo .server),
      .cleanupForIpc .client x.clientAddress x.size x.state (q.undo .client)]

theorem Holds.initial (q : MapAliasRequest) : Holds q 0 .initial [] := by
  refine ⟨nofun, rfl, fun k => ?_, rfl, fun _ => rfl, fun _ => rfl, rfl, .inl (Nat.zero_le _)⟩
  unfold SessionMappings.slot
  split_ifs <;> rfl

/-- The push of a descriptor's buffer, after the push's counter went up. -/
theorem Holds.push (h : Holds q i m log) (hb : q.buffer i = some x) (hacc : q.accepted i = true) {m' : SessionMappings}
    (hcount : m'.count = m.count + 1) (hslot : m'.slot = m.slot) (hmap : m'.mappings = m.mappings)
    (hrecv : i + 1 ≤ q.sendCount → m'.numRecv = 0) (hexch : i + 1 ≤ q.sendCount + q.receiveCount → m'.numExch = 0) :
    (m'.pushMap q.pageBuffer x m.count).1 = true ∧
        Holds q (i + 1) (m'.pushMap q.pageBuffer x m.count).2 (log ++ [.setupForIpc x]) ∨
      (m'.pushMap q.pageBuffer x m.count).1 = false ∧
        Overflows q i (m'.pushMap q.pageBuffer x m.count).2 (log ++ [.setupForIpc x] ++
          [.cleanupForIpc .server x.serverAddress x.size x.state (q.undo .server),
            .cleanupForIpc .client x.clientAddress x.size x.state (q.undo .client)]) := by
  have hbuffers : q.buffers (i + 1) = q.buffers i ++ [x] := by rw [buffers_succ, hb]; rfl
  have hlog : log ++ [IpcEvent.setupForIpc x] = (q.buffers (i + 1)).map .setupForIpc := by
    rw [hbuffers, List.map_append, h.log]
    rfl
  have hlength : (q.buffers (i + 1)).length = m.count + 1 := by
    rw [hbuffers, List.length_append, h.count]
    rfl
  have haccepted : ∀ j < i + 1, q.accepted j = true := fun j hj =>
    (Nat.lt_succ_iff_lt_or_eq.mp hj).elim (h.accepted j) fun heq => heq ▸ hacc
  by_cases hplace : m.count < numStaticMappings ∨ m.mappings.isSome ∨ q.pageBuffer = true
  · obtain ⟨hok, hslots, hcount', hrecv', hexch', hpage⟩ :=
      SessionMappings.pushMap_of_place (m := m') (x := x) (hmap ▸ hplace)
    refine .inl ⟨hok, haccepted, ?_, fun k => ?_, hlog, fun hi => hrecv'.trans (hrecv hi), fun hi => hexch'.trans (hexch hi),
      ?_, ?_⟩
    · rw [hcount', hcount, hlength]
    · rw [hslots, hslot, hbuffers, h.count]
      by_cases hk : k = (q.buffers i).length
      · rw [hk, update_self, List.getElem?_append_right (Nat.le_refl _), Nat.sub_self]
        rfl
      · rw [update_of_ne hk, h.slots]
        by_cases hlt : k < (q.buffers i).length
        · rw [List.getElem?_append_left hlt]
        · rw [List.getElem?_eq_none (by omega), List.getElem?_eq_none (by simp; omega)]
    · rw [hpage, hmap, h.page, hlength, h.count]
      by_cases hlt : (q.buffers i).length < numStaticMappings
      · simp [hlt, Nat.not_lt.mpr (Nat.le_of_lt hlt), Nat.succ_le_of_lt hlt]
      · simp only [hlt, decide_false, Bool.not_false, Bool.or_true]
        exact (decide_eq_true (by omega)).symm
    · rcases hplace with hlt | hsome | hp
      · exact .inl (by omega)
      · refine .inr (h.places.resolve_left fun hle => ?_)
        rw [h.page, decide_eq_false (by omega)] at hsome
        cases hsome
      · exact .inr hp
  · obtain ⟨hlt, hnone, hp⟩ : ¬ m.count < numStaticMappings ∧ m.mappings = none ∧ q.pageBuffer = false := by
      simpa using hplace
    have heq : m.count = numStaticMappings := by
      have hle := h.places.resolve_right (by simp [hp])
      rw [← h.count] at hle
      omega
    rw [hp, SessionMappings.pushMap_of_full hlt (hmap.trans hnone)]
    refine .inr ⟨rfl, haccepted, by rw [hlength, heq], hp, by rw [hcount, heq], fun k => by rw [hslot, h.slots],
      ⟨x, hb, by rw [hlog]⟩⟩

/-- Each kind of push counts its buffer and writes the slot after the buffers so far. -/
theorem Holds.index (h : Holds q i m log) (x : Mapping) :
    ∃ m' : SessionMappings, m'.count = m.count + 1 ∧ m'.slot = m.slot ∧ m'.mappings = m.mappings ∧
      (i + 1 ≤ q.sendCount → m'.numRecv = 0) ∧ (i + 1 ≤ q.sendCount + q.receiveCount → m'.numExch = 0) ∧
      (if i < q.sendCount then m.pushSend q.pageBuffer x
        else if i < q.sendCount ∨ i ≥ q.sendCount + q.receiveCount then m.pushExchange q.pageBuffer x
        else m.pushReceive q.pageBuffer x) = m'.pushMap q.pageBuffer x m.count := by
  by_cases hsend : i < q.sendCount
  · have hrecv := h.receive (by omega)
    have hexch := h.exchange (by omega)
    have hcount : m.numSend = m.count := by rw [SessionMappings.count, hrecv, hexch]; rfl
    refine ⟨{ m with numSend := m.numSend + 1 }, ?_, rfl, rfl, fun _ => hrecv, fun _ => hexch, ?_⟩
    · unfold SessionMappings.count
      dsimp only
      omega
    · rw [if_pos hsend, SessionMappings.pushSend, hcount]
  · rw [if_neg hsend]
    by_cases hexchange : i < q.sendCount ∨ i ≥ q.sendCount + q.receiveCount
    · refine ⟨{ m with numExch := m.numExch + 1 }, ?_, rfl, rfl, fun hi => absurd hi hsend, fun hi => ?_, ?_⟩
      · unfold SessionMappings.count
        dsimp only
        omega
      · exact absurd hi (by omega)
      · rw [if_pos hexchange]
        rfl
    · have hexch := h.exchange (by omega)
      have hcount : m.numSend + m.numRecv = m.count := by rw [SessionMappings.count, hexch]; rfl
      refine ⟨{ m with numRecv := m.numRecv + 1 }, ?_, rfl, rfl, fun hi => absurd hi hsend, fun _ => hexch, ?_⟩
      · unfold SessionMappings.count
        dsimp only
        omega
      · rw [if_neg hexchange, SessionMappings.pushReceive, hcount]

/-- One descriptor. -/
theorem Holds.step (h : Holds q i m log) :
    (∃ s', q.processReceiveMessageMapAliasDescriptors i (m, log) = (.success, s') ∧ Holds q (i + 1) s'.1 s'.2) ∨
      ∃ o s', q.processReceiveMessageMapAliasDescriptors i (m, log) = (o, s') ∧ o ≠ .success ∧
        (o = .failure ∧ (q.accepted i = false ∧ Holds q i s'.1 s'.2 ∨ Overflows q i s'.1 s'.2)) := by
  have hprocess : q.processReceiveMessageMapAliasDescriptors i (m, log) =
      q.processReceiveMessageMapAliasDescriptors i (m, log) := rfl
  conv at hprocess => rhs; unfold processReceiveMessageMapAliasDescriptors
  rw [hprocess]
  dsimp only
  cases hstate : getMapAliasMemoryState (q.descriptor i).attr with
  | none => exact .inr ⟨_, (m, log), rfl, nofun, rfl, .inl ⟨by simp [MapAliasRequest.accepted, hstate], h⟩⟩
  | some state =>
    dsimp only
    by_cases hsize : (q.descriptor i).size = 0
    · have hacc : q.accepted i = true := by simp [MapAliasRequest.accepted, hstate, hsize]
      have hbuffers : q.buffers (i + 1) = q.buffers i := by
        rw [buffers_succ, buffer, if_pos hsize]
        exact List.append_nil _
      rw [if_pos hsize]
      refine .inl ⟨(m, log), rfl, fun j hj => ?_, ?_, ?_, ?_, fun hle => h.receive (by omega),
        fun hle => h.exchange (by omega), ?_, ?_⟩
      · exact (Nat.lt_succ_iff_lt_or_eq.mp hj).elim (h.accepted j) fun heq => heq ▸ hacc
      all_goals rw [hbuffers]
      · exact h.count
      · exact h.slots
      · exact h.log
      · exact h.page
      · exact h.places
    · rw [if_neg hsize]
      cases hsetup : q.setupForIpc i with
      | none => exact .inr ⟨_, (m, log), rfl, nofun, rfl, .inl ⟨by simp [MapAliasRequest.accepted, hsetup, hsize], h⟩⟩
      | some server =>
        have hacc : q.accepted i = true := by simp [MapAliasRequest.accepted, hstate, hsetup]
        have hb : q.buffer i = some ⟨(q.descriptor i).address, server, (q.descriptor i).size, state⟩ := by
          rw [buffer, if_neg hsize, hstate, hsetup]
          rfl
        obtain ⟨m', hcount, hslot, hmap, hrecv, hexch, hpush⟩ :=
          h.index ⟨(q.descriptor i).address, server, (q.descriptor i).size, state⟩
        dsimp only
        rw [hpush]
        rcases h.push hb hacc hcount hslot hmap hrecv hexch with ⟨hok, hholds⟩ | ⟨hfull, hover⟩
        · rw [if_pos hok]
          exact .inl ⟨_, rfl, hholds⟩
        · rw [hfull, if_neg Bool.false_ne_true]
          exact .inr ⟨_, _, rfl, nofun, rfl, .inr hover⟩

/-- All the descriptors: each is let through, or the first that is not stops the loop, or a push without a place. -/
theorem processed_cases (q : MapAliasRequest) :
    (∃ m log, forRange q.processReceiveMessageMapAliasDescriptors q.mapAliasCount (.initial, []) = (.success, m, log) ∧
      Holds q q.mapAliasCount m log) ∨
    ∃ i < q.mapAliasCount, ∃ m log,
      forRange q.processReceiveMessageMapAliasDescriptors q.mapAliasCount (.initial, []) = (.failure, m, log) ∧
      (q.accepted i = false ∧ Holds q i m log ∨ Overflows q i m log) := by
  rcases forRange_rule (P := fun i (s : SessionMappings × List IpcEvent) => Holds q i s.1 s.2)
    (Q := fun i o s => o = .failure ∧ (q.accepted i = false ∧ Holds q i s.1 s.2 ∨ Overflows q i s.1 s.2))
    (fun i _ s hs => hs.step) (s := (.initial, [])) (Holds.initial q) with ⟨s, hs, hP⟩ | ⟨i, hi, o, s, hs, -, rfl, hQ⟩
  · exact .inl ⟨s.1, s.2, hs, hP⟩
  · exact .inr ⟨i, hi, s.1, s.2, hs, hQ⟩

end MapAliasRequest

end Kernel
end Citron
