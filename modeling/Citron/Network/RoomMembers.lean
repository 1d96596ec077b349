/-
# The members of a room

A member added by a request to join is new in its nickname and its address, for both are looked for
among the members; nobody looks for its peer.
-/
import Citron.Network.Room
import Mathlib.Data.Set.Basic
import Mathlib.Data.List.Nodup

namespace Citron

open List

namespace Network
namespace Room

variable {Peer : Type} {s s' : Room Peer} {env : Surroundings Peer} {client : Peer} {packet : Bytes}

/-- What the packet asks for. -/
def joinRequest (env : Surroundings Peer) (packet : Bytes) : JoinRequest :=
  ((readJoinRequest env.strayAddress).run (.append packet)).1

/-- The member that a request adds. -/
def newMember (s : Room Peer) (env : Surroundings Peer) (client : Peer) (packet : Bytes) (fakeIp : IPv4Address) : Member Peer :=
  ⟨(joinRequest env packet).nickname, fakeIp, env.loadUserData s.verifyUid (joinRequest env packet).token, client⟩

/-- The address for the new member: the preferred one when it is free, else one that was drawn. -/
def FreeAddress (s : Room Peer) (env : Surroundings Peer) (packet : Bytes) (fakeIp : IPv4Address) : Prop :=
  if (joinRequest env packet).preferredFakeIp ≠ noPreferredIP then
    fakeIp = (joinRequest env packet).preferredFakeIp ∧ s.isValidFakeIPAddress fakeIp = true
  else s.generateFakeIPAddress env = some fakeIp

/-- Neither the name of the user nor the host is banned. -/
def NotBanned (s : Room Peer) (env : Surroundings Peer) (client : Peer) (packet : Bytes) : Prop :=
  ¬ ((env.loadUserData s.verifyUid (joinRequest env packet).token).username ≠ [] ∧
      (env.loadUserData s.verifyUid (joinRequest env packet).token).username ∈ s.usernameBanList) ∧
    env.hostIp client ∉ s.ipBanList

/-- The request passes the checks of the room, with this address. -/
structure Admitted (s : Room Peer) (env : Surroundings Peer) (client : Peer) (packet : Bytes) (fakeIp : IPv4Address) : Prop where
  slots : s.members.length < s.roomInformation.memberSlots
  password : (joinRequest env packet).password = s.password
  nickname : s.isValidNickname (joinRequest env packet).nickname = true
  fakeIp : s.FreeAddress env packet fakeIp
  notBanned : s.NotBanned env client packet

def addMember (s : Room Peer) (member : Member Peer) : Room Peer := { s with members := s.members ++ [member] }

theorem isValidNickname_notMem {nickname : Bytes} (h : s.isValidNickname nickname = true) :
    nickname ∉ s.members.map Member.nickname := by
  intro hmem
  obtain ⟨member, hmember, rfl⟩ := mem_map.mp hmem
  rw [isValidNickname, Bool.and_eq_true, all_eq_true] at h
  exact of_decide_eq_true (h.2 member hmember) rfl

theorem isValidFakeIPAddress_notMem {address : IPv4Address} (h : s.isValidFakeIPAddress address = true) :
    address ∉ s.members.map Member.fakeIp := by
  intro hmem
  obtain ⟨member, hmember, rfl⟩ := mem_map.mp hmem
  rw [isValidFakeIPAddress, all_eq_true] at h
  exact of_decide_eq_true (h member hmember) rfl

/-- What a request comes to: its member is added when it passes the checks, and else nothing changes. -/
def Joined (s : Room Peer) (env : Surroundings Peer) (client : Peer) (packet : Bytes) (r : Option (Room Peer × Reply)) : Prop :=
  (∃ fakeIp, Admitted s env client packet fakeIp ∧
      r.map Prod.fst = some (s.addMember (s.newMember env client packet fakeIp))) ∨
    ((∀ fakeIp, ¬ Admitted s env client packet fakeIp) ∧ ∀ s', r.map Prod.fst = some s' → s' = s)

theorem Joined.refused {reply : Reply} (h : ∀ fakeIp, ¬ Admitted s env client packet fakeIp) :
    Joined s env client packet (some (s, reply)) :=
  .inr ⟨h, fun _ hs => (Option.some.inj hs).symm⟩

theorem FreeAddress.notMem {fakeIp : IPv4Address} (h : s.FreeAddress env packet fakeIp) :
    fakeIp ∉ s.members.map Member.fakeIp := by
  rw [FreeAddress] at h
  split at h
  · exact isValidFakeIPAddress_notMem h.2
  · have hvalid := find?_some h
    exact isValidFakeIPAddress_notMem hvalid

theorem sublist_eraseNickname (s : Room Peer) (nickname : Bytes) : (s.eraseNickname nickname).members.Sublist s.members :=
  eraseP_sublist

variable [DecidableEq Peer]

/-- The last checks of a request whose address is known. -/
theorem admit_cases (s : Room Peer) (env : Surroundings Peer) (client : Peer) (packet : Bytes) (fakeIp : IPv4Address) :
    (NotBanned s env client packet ∧
        (s.joinUnlessBanned env client (joinRequest env packet) fakeIp).1 = s.addMember (s.newMember env client packet fakeIp)) ∨
      (¬ NotBanned s env client packet ∧ (s.joinUnlessBanned env client (joinRequest env packet) fakeIp).1 = s) := by
  rw [joinUnlessBanned]
  by_cases husername : (env.loadUserData s.verifyUid (joinRequest env packet).token).username ≠ [] ∧
      (env.loadUserData s.verifyUid (joinRequest env packet).token).username ∈ s.usernameBanList
  · refine .inr ⟨fun h => h.1 husername, ?_⟩
    simp only [husername, if_true, ne_eq, not_false_eq_true, and_self]
  · by_cases hip : env.hostIp client ∈ s.ipBanList
    · refine .inr ⟨fun h => h.2 hip, ?_⟩
      simp only [husername, hip, if_true, if_false]
    · refine .inl ⟨⟨husername, hip⟩, ?_⟩
      simp only [husername, hip, if_false]
      rfl

theorem Joined.joinUnlessBanned {fakeIp : IPv4Address} (hslots : s.members.length < s.roomInformation.memberSlots)
    (hpassword : (joinRequest env packet).password = s.password)
    (hnickname : s.isValidNickname (joinRequest env packet).nickname = true) (haddress : s.FreeAddress env packet fakeIp) :
    Joined s env client packet (some (s.joinUnlessBanned env client (joinRequest env packet) fakeIp)) := by
  rcases admit_cases s env client packet fakeIp with ⟨hfree, hadd⟩ | ⟨hbanned, hsame⟩
  · exact .inl ⟨fakeIp, ⟨hslots, hpassword, hnickname, haddress, hfree⟩, congrArg some hadd⟩
  · exact .inr ⟨fun _ h => hbanned h.notBanned, fun _ hs => (Option.some.inj hs).symm.trans hsame⟩

theorem handleJoinRequest_joined (s : Room Peer) (env : Surroundings Peer) (client : Peer) (packet : Bytes) :
    Joined s env client packet (s.handleJoinRequest env client packet) := by
  rw [handleJoinRequest]
  by_cases hslots : s.members.length ≥ s.roomInformation.memberSlots
  · rw [if_pos hslots]
    exact .refused fun _ h => absurd h.slots (Nat.not_lt.mpr hslots)
  rw [if_neg hslots]
  change Joined s env client packet (if (joinRequest env packet).password ≠ s.password then _ else _)
  by_cases hpassword : (joinRequest env packet).password ≠ s.password
  · rw [if_pos hpassword]
    exact .refused fun _ h => hpassword h.password
  rw [if_neg hpassword]
  change Joined s env client packet (if !s.isValidNickname (joinRequest env packet).nickname then _ else _)
  cases hnickname : s.isValidNickname (joinRequest env packet).nickname with
  | false => exact .refused fun _ h => Bool.false_ne_true (hnickname.symm.trans h.nickname)
  | true =>
    change Joined s env client packet (if (joinRequest env packet).preferredFakeIp ≠ noPreferredIP then _ else _)
    have hslots' : s.members.length < s.roomInformation.memberSlots := Nat.lt_of_not_le hslots
    have hpassword' : (joinRequest env packet).password = s.password := not_not.mp hpassword
    by_cases hpreferred : (joinRequest env packet).preferredFakeIp ≠ noPreferredIP
    · rw [if_pos hpreferred]
      change Joined s env client packet (if !s.isValidFakeIPAddress (joinRequest env packet).preferredFakeIp then _ else _)
      cases hvalid : s.isValidFakeIPAddress (joinRequest env packet).preferredFakeIp with
      | false =>
        refine .refused fun fakeIp h => ?_
        have haddress := h.fakeIp
        rw [FreeAddress, if_pos hpreferred] at haddress
        rw [haddress.1, hvalid] at haddress
        cases haddress.2
      | true =>
        refine Joined.joinUnlessBanned hslots' hpassword' hnickname ?_
        rw [FreeAddress, if_pos hpreferred]
        exact ⟨rfl, hvalid⟩
    · rw [if_neg hpreferred]
      cases hdrawn : s.generateFakeIPAddress env with
      | none =>
        refine .inr ⟨fun fakeIp h => ?_, fun s' hs => ?_⟩
        · have haddress := h.fakeIp
          rw [FreeAddress, if_neg hpreferred, hdrawn] at haddress
          cases haddress
        · cases hs
      | some fakeIp =>
        refine Joined.joinUnlessBanned hslots' hpassword' hnickname ?_
        rw [FreeAddress, if_neg hpreferred]
        exact hdrawn

/-! ### What is kept -/

/-- What holds of the members in every state. -/
structure Consistent (s : Room Peer) : Prop where
  peers : (s.members.map Member.peer).Nodup
  nicknames : (s.members.map Member.nickname).Nodup
  fakeIps : (s.members.map Member.fakeIp).Nodup
  slots : s.members.length ≤ s.roomInformation.memberSlots
  moderators : ∀ client, s.hasModPermission client = true → ∃ member ∈ s.members, member.peer = client ∧
    ((s.roomInformation.enableCitronMods = true ∧ member.userData.moderator = true) ∨
      (s.roomInformation.hostUsername ≠ [] ∧ member.userData.username = s.roomInformation.hostUsername))

/-- A moderator has an entry among the members, and has the rights through it. -/
theorem hasModPermission_entry (h : s.hasModPermission client = true) : ∃ member ∈ s.members, member.peer = client ∧
    ((s.roomInformation.enableCitronMods = true ∧ member.userData.moderator = true) ∨
      (s.roomInformation.hostUsername ≠ [] ∧ member.userData.username = s.roomInformation.hostUsername)) := by
  rw [hasModPermission] at h
  cases hfind : s.members.find? (fun member => member.peer = client) with
  | none =>
    rw [hfind] at h
    cases h
  | some member =>
    rw [hfind] at h
    refine ⟨member, mem_of_find?_eq_some hfind, ?_, ?_⟩
    · have hpeer := find?_some hfind
      exact of_decide_eq_true hpeer
    · simpa only [Bool.or_eq_true, Bool.and_eq_true, decide_eq_true_eq] using h

theorem Consistent.of_sublist (h : Consistent s) (hsub : s'.members.Sublist s.members)
    (hinfo : s'.roomInformation = s.roomInformation) : Consistent s' where
  peers := h.peers.sublist (hsub.map _)
  nicknames := h.nicknames.sublist (hsub.map _)
  fakeIps := h.fakeIps.sublist (hsub.map _)
  slots := by
    rw [hinfo]
    exact Nat.le_trans hsub.length_le h.slots
  moderators _ := hasModPermission_entry

theorem nodup_concat {α : Type} {l : List α} {a : α} (h : l.Nodup) (ha : a ∉ l) : (l ++ [a]).Nodup := by
  rw [nodup_append]
  refine ⟨h, nodup_singleton a, fun x hx y hy hxy => ?_⟩
  rw [mem_singleton.mp hy] at hxy
  exact ha (hxy ▸ hx)

/-- A member with a new peer that passed the checks. -/
theorem Consistent.addMember {fakeIp : IPv4Address} (h : Consistent s) (hadmitted : Admitted s env client packet fakeIp)
    (hclient : client ∉ s.members.map Member.peer) : Consistent (s.addMember (s.newMember env client packet fakeIp)) where
  peers := by
    rw [Room.addMember, map_append]
    exact nodup_concat h.peers hclient
  nicknames := by
    rw [Room.addMember, map_append]
    exact nodup_concat h.nicknames (isValidNickname_notMem hadmitted.nickname)
  fakeIps := by
    rw [Room.addMember, map_append]
    exact nodup_concat h.fakeIps hadmitted.fakeIp.notMem
  slots := by
    rw [Room.addMember, length_append]
    exact hadmitted.slots
  moderators _ := hasModPermission_entry

/-- When a value occurs once, no element with it is left after the first one is erased. -/
theorem ne_of_mem_eraseP {α β : Type} [DecidableEq β] {f : α → β} {l : List α} {b : β} (hnodup : (l.map f).Nodup) {x : α}
    (hx : x ∈ l.eraseP fun a => f a = b) : f x ≠ b := by
  induction l with
  | nil => exact absurd hx not_mem_nil
  | cons a l ih =>
    obtain ⟨ha, hnodup⟩ := nodup_cons.mp hnodup
    rw [eraseP_cons] at hx
    by_cases hab : f a = b
    · simp only [hab, decide_true, cond_true] at hx
      intro hxb
      exact ha (hab.trans hxb.symm ▸ mem_map_of_mem hx)
    · simp only [hab, decide_false, cond_false] at hx
      rcases mem_cons.mp hx with rfl | hx
      · exact hab
      · exact ih hnodup hx

/-- The member with the nickname has the only entry with its peer. -/
theorem eraseNickname_gone (h : Consistent s) {nickname : Bytes} {target : Member Peer}
    (htarget : s.findNickname nickname = some target) : ∀ member ∈ (s.eraseNickname nickname).members, member.peer ≠ target.peer := by
  intro member hmember hpeer
  have hmem : member ∈ s.members := mem_of_mem_eraseP hmember
  have htargetMem : target ∈ s.members := mem_of_find?_eq_some htarget
  have hsame : member = target := inj_on_of_nodup_map h.peers hmem htargetMem hpeer
  have hfound := find?_some htarget
  have hnickname : target.nickname = nickname := of_decide_eq_true hfound
  exact ne_of_mem_eraseP h.nicknames hmember (hsame ▸ hnickname)

/-! ### The requests of moderators -/

/-- The peer that a request to kick or to ban takes out. -/
def target (s : Room Peer) (client : Peer) (packet : Bytes) : Option Peer :=
  if s.hasModPermission client then (s.findNickname (readModTarget.run (.append packet)).1).map Member.peer else none

/-- What a request to kick or to ban does to the members. -/
structure Expels (s : Room Peer) (client : Peer) (packet : Bytes) (s' : Room Peer) : Prop where
  sublist : s'.members.Sublist s.members
  roomInformation : s'.roomInformation = s.roomInformation
  gone : Consistent s → ∀ peer, s.target client packet = some peer → ∀ member ∈ s'.members, member.peer ≠ peer

theorem Expels.refused (h : s.target client packet = none) : Expels s client packet s :=
  ⟨List.Sublist.refl _, rfl, fun _ peer hpeer => by rw [h] at hpeer; cases hpeer⟩

theorem handleModKickPacket_expels (s : Room Peer) (client : Peer) (packet : Bytes) :
    Expels s client packet (s.handleModKickPacket client packet).1 := by
  rw [handleModKickPacket]
  cases hperm : s.hasModPermission client with
  | false => exact .refused (by simp only [target, hperm, Bool.false_eq_true, if_false])
  | true =>
    simp only [Bool.not_true, Bool.false_eq_true, if_false]
    cases hfind : s.findNickname (readModTarget.run (.append packet)).1 with
    | none => exact .refused (by simp only [target, hfind, Option.map_none, ite_self])
    | some targetMember =>
      refine ⟨sublist_eraseNickname s _, rfl, fun h peer hpeer => ?_⟩
      rw [target, if_pos hperm, hfind] at hpeer
      rw [← Option.some.inj hpeer]
      exact eraseNickname_gone h hfind

/-- A ban takes out whom a kick takes out. -/
theorem handleModBanPacket_expels (s : Room Peer) (env : Surroundings Peer) (client : Peer) (packet : Bytes) :
    Expels s client packet (s.handleModBanPacket env client packet).1 := by
  have h := handleModKickPacket_expels s client packet
  rw [handleModKickPacket] at h
  rw [handleModBanPacket]
  dsimp only at h ⊢
  split_ifs at h ⊢
  · exact h
  · generalize s.findNickname _ = found at h ⊢
    cases found with
    | none => exact h
    | some targetMember => exact ⟨h.sublist, h.roomInformation, h.gone⟩

/-- To lift a ban leaves the members alone. -/
theorem handleModUnbanPacket_members (s : Room Peer) (client : Peer) (packet : Bytes) :
    (s.handleModUnbanPacket client packet).1.members = s.members ∧
      (s.handleModUnbanPacket client packet).1.roomInformation = s.roomInformation := by
  rw [handleModUnbanPacket]
  split
  · exact ⟨rfl, rfl⟩
  · dsimp only
    split
    · exact ⟨rfl, rfl⟩
    · exact ⟨rfl, rfl⟩

end Room

/-! ## Runs of a room

What holds of the members in every state of a run. The one step that breaks it is a request to join by
a peer that is a member already: nothing looks for its peer, so its second entry is added beside the first,
and the entry left over outlives the disconnection.
-/

namespace Room

variable {Peer : Type} {s s' : Room Peer} {event : Event Peer}

/-- A request to join, by this peer, that passes the checks of the room. -/
def Joins (s : Room Peer) (event : Event Peer) (peer : Peer) : Prop :=
  match event with
  | .receive client packet env =>
    client = peer ∧ messageType packet env = idJoinRequest ∧ ∃ fakeIp, Admitted s env client packet fakeIp
  | .disconnect _ => False

/-- A request to join, by a peer that is a member already, that passes the checks of the room. -/
def Rejoins (s : Room Peer) (event : Event Peer) : Prop := ∃ peer ∈ s.members.map Member.peer, s.Joins event peer

theorem not_joins {client : Peer} {packet : Bytes} {env : Surroundings Peer} (h : messageType packet env ≠ idJoinRequest)
    (peer : Peer) : ¬ s.Joins (.receive client packet env) peer :=
  fun hjoins => h hjoins.2.1

variable [DecidableEq Peer]

/-- The peer that the event takes out of the room: the one that disconnects, is kicked or is banned. -/
def removed (s : Room Peer) : Event Peer → Option Peer
  | .receive client packet env =>
    if messageType packet env = idModKick ∨ messageType packet env = idModBan then s.target client packet else none
  | .disconnect client => some client

/-- The peers that were taken out of the room and have not joined it since. -/
def departed (s : Room Peer) (event : Event Peer) (gone : Set Peer) : Set Peer :=
  {peer | s.removed event = some peer ∨ peer ∈ gone ∧ ¬ s.Joins event peer}

/-- What holds in a state: the members are as they should be, and no entry refers to a peer that left. -/
structure Good (s : Room Peer) (gone : Set Peer) : Prop where
  consistent : Consistent s
  gone : ∀ peer ∈ gone, ∀ member ∈ s.members, member.peer ≠ peer

/-- Every state of a run is good. -/
def AlwaysGood (s : Room Peer) (gone : Set Peer) : List (Event Peer) → Prop
  | [] => Good s gone
  | event :: events => Good s gone ∧ ∀ s', s.handle event = some s' → s'.AlwaysGood (s.departed event gone) events

/-- No step of a run is a request to join by a peer that is a member. -/
def NeverRejoins (s : Room Peer) : List (Event Peer) → Prop
  | [] => True
  | event :: events => ¬ s.Rejoins event ∧ ∀ s', s.handle event = some s' → s'.NeverRejoins events

/-! ### One step -/

/-- An event either adds the member that a request to join brings, or adds nobody. -/
def Steps (s : Room Peer) (event : Event Peer) (s' : Room Peer) : Prop :=
  (∃ client packet env fakeIp, event = .receive client packet env ∧ messageType packet env = idJoinRequest ∧
      Admitted s env client packet fakeIp ∧ s' = s.addMember (s.newMember env client packet fakeIp)) ∨
    ((∀ peer, ¬ s.Joins event peer) ∧ s'.members.Sublist s.members ∧ s'.roomInformation = s.roomInformation ∧
      (Consistent s → ∀ peer, s.removed event = some peer → ∀ member ∈ s'.members, member.peer ≠ peer))

section

variable {client : Peer} {packet : Bytes} {env : Surroundings Peer}

theorem steps_join (htype : messageType packet env = idJoinRequest)
    (h : (s.handleJoinRequest env client packet).map Prod.fst = some s') : Steps s (.receive client packet env) s' := by
  rcases handleJoinRequest_joined s env client packet with ⟨fakeIp, hadmitted, hadd⟩ | ⟨hrefused, hsame⟩
  · exact .inl ⟨client, packet, env, fakeIp, rfl, htype, hadmitted, Option.some.inj (h.symm.trans hadd)⟩
  · rw [hsame s' h]
    refine .inr ⟨fun peer hjoins => ?_, List.Sublist.refl _, rfl, fun _ peer hpeer => ?_⟩
    · obtain ⟨-, -, fakeIp, hadmitted⟩ := hjoins
      exact hrefused fakeIp hadmitted
    · rw [removed, htype, if_neg (by decide)] at hpeer
      cases hpeer

theorem steps_expel (htype : messageType packet env = idModKick ∨ messageType packet env = idModBan)
    (h : Expels s client packet s') : Steps s (.receive client packet env) s' := by
  have hjoin : messageType packet env ≠ idJoinRequest := by
    rcases htype with htype | htype
    · rw [htype]
      decide
    · rw [htype]
      decide
  refine .inr ⟨not_joins hjoin, h.sublist, h.roomInformation, fun hs peer hpeer => ?_⟩
  rw [removed, if_pos htype] at hpeer
  exact h.gone hs peer hpeer

theorem steps_keep (hjoin : messageType packet env ≠ idJoinRequest)
    (hexpel : ¬ (messageType packet env = idModKick ∨ messageType packet env = idModBan)) (hmembers : s'.members = s.members)
    (hinfo : s'.roomInformation = s.roomInformation) : Steps s (.receive client packet env) s' := by
  refine .inr ⟨not_joins hjoin, hmembers ▸ List.Sublist.refl _, hinfo, fun _ peer hpeer => ?_⟩
  rw [removed, if_neg hexpel] at hpeer
  cases hpeer

end

theorem steps_disconnect (s : Room Peer) (client : Peer) :
    Steps s (.disconnect client) (s.handleClientDisconnection client) := by
  refine .inr ⟨fun _ hjoins => hjoins, eraseP_sublist, rfl, fun hs peer hpeer member hmember => ?_⟩
  rw [← Option.some.inj hpeer]
  exact ne_of_mem_eraseP hs.peers hmember

/-- What a turn of the server loop can do. -/
theorem handle_steps (h : s.handle event = some s') : Steps s event s' := by
  cases event with
  | disconnect client =>
    rw [← Option.some.inj h]
    exact steps_disconnect s client
  | receive client packet env =>
    rw [handle] at h
    by_cases hjoin : messageType packet env = idJoinRequest
    · rw [if_pos hjoin] at h
      exact steps_join hjoin h
    rw [if_neg hjoin] at h
    by_cases hkick : messageType packet env = idModKick
    · rw [if_pos hkick] at h
      rw [← Option.some.inj h]
      exact steps_expel (.inl hkick) (handleModKickPacket_expels s client packet)
    rw [if_neg hkick] at h
    by_cases hban : messageType packet env = idModBan
    · rw [if_pos hban] at h
      rw [← Option.some.inj h]
      exact steps_expel (.inr hban) (handleModBanPacket_expels s env client packet)
    rw [if_neg hban] at h
    have hexpel : ¬ (messageType packet env = idModKick ∨ messageType packet env = idModBan) := fun hor => hor.elim hkick hban
    by_cases hunban : messageType packet env = idModUnban
    · rw [if_pos hunban] at h
      rw [← Option.some.inj h]
      obtain ⟨hmembers, hinfo⟩ := handleModUnbanPacket_members s client packet
      exact steps_keep hjoin hexpel hmembers hinfo
    · rw [if_neg hunban] at h
      rw [← Option.some.inj h]
      exact steps_keep hjoin hexpel rfl rfl

/-- A good state stays good, when the event is no request to join by a member. -/
theorem Good.step {gone : Set Peer} (h : Good s gone) (hrejoins : ¬ s.Rejoins event) (hhandle : s.handle event = some s') :
    Good s' (s.departed event gone) := by
  rcases handle_steps hhandle with ⟨client, packet, env, fakeIp, rfl, htype, hadmitted, rfl⟩ | ⟨hjoins, hsub, hinfo, hgone⟩
  · have hjoins : s.Joins (.receive client packet env) client := ⟨rfl, htype, fakeIp, hadmitted⟩
    have hclient : client ∉ s.members.map Member.peer := fun hmem => hrejoins ⟨client, hmem, hjoins⟩
    refine ⟨h.consistent.addMember hadmitted hclient, fun peer hpeer member hmember => ?_⟩
    rcases hpeer with hremoved | ⟨hpeer, hother⟩
    · rw [removed, htype, if_neg (by decide)] at hremoved
      cases hremoved
    · rcases mem_append.mp hmember with hmember | hmember
      · exact h.gone peer hpeer member hmember
      · rw [mem_singleton.mp hmember]
        intro hsame
        exact hother (hsame ▸ hjoins)
  · refine ⟨h.consistent.of_sublist hsub hinfo, fun peer hpeer member hmember => ?_⟩
    rcases hpeer with hremoved | ⟨hpeer, -⟩
    · exact hgone h.consistent peer hremoved member hmember
    · exact h.gone peer hpeer member (hsub.subset hmember)

/-- A member that joins again has two entries. -/
theorem Rejoins.two_entries (h : s.Rejoins event) : ∃ s', s.handle event = some s' ∧ ¬ Consistent s' := by
  obtain ⟨peer, hmem, hjoins⟩ := h
  cases event with
  | disconnect client => exact hjoins.elim
  | receive client packet env =>
    obtain ⟨rfl, htype, fakeIp, hadmitted⟩ := hjoins
    rcases handleJoinRequest_joined s env client packet with ⟨fakeIp, -, hadd⟩ | ⟨hrefused, -⟩
    · refine ⟨s.addMember (s.newMember env client packet fakeIp), ?_, fun hcon => ?_⟩
      · rw [handle, if_pos htype]
        exact hadd
      · have hpeers := hcon.peers
        rw [addMember, map_append, nodup_append] at hpeers
        exact hpeers.2.2 client hmem client (mem_singleton_self client) rfl
    · exact absurd hadmitted (hrefused fakeIp)

/-! ### Whole runs -/

theorem AlwaysGood.good {gone : Set Peer} {events : List (Event Peer)} (h : s.AlwaysGood gone events) : Good s gone := by
  cases events with
  | nil => exact h
  | cons event events => exact h.1

theorem alwaysGood_iff {gone : Set Peer} (events : List (Event Peer)) (h : Good s gone) :
    s.AlwaysGood gone events ↔ s.NeverRejoins events := by
  induction events generalizing s gone with
  | nil => exact ⟨fun _ => trivial, fun _ => h⟩
  | cons event events ih =>
    constructor
    · intro halways
      have hrejoins : ¬ s.Rejoins event := by
        intro hrejoins
        obtain ⟨s', hhandle, hcon⟩ := hrejoins.two_entries
        exact hcon (halways.2 s' hhandle).good.consistent
      refine ⟨hrejoins, fun s' hhandle => ?_⟩
      exact (ih (h.step hrejoins hhandle)).mp (halways.2 s' hhandle)
    · intro hnever
      refine ⟨h, fun s' hhandle => ?_⟩
      exact (ih (h.step hnever.1 hhandle)).mpr (hnever.2 s' hhandle)

theorem create_good (information : RoomInformation) (verifyUid password : Bytes) (usernameBanList ipBanList : List Bytes) :
    Good (create information verifyUid password usernameBanList ipBanList : Room Peer) ∅ where
  consistent := by
    refine ⟨nodup_nil, nodup_nil, nodup_nil, Nat.zero_le _, fun _ => hasModPermission_entry⟩
  gone peer hpeer := absurd hpeer (Set.notMem_empty peer)

/-- **In every run of a room, the members of all its states are as they should be exactly when no member
joins again.** -/
theorem room_membership (information : RoomInformation) (verifyUid password : Bytes) (usernameBanList ipBanList : List Bytes)
    (events : List (Event Peer)) :
    (create information verifyUid password usernameBanList ipBanList : Room Peer).AlwaysGood ∅ events ↔
      (create information verifyUid password usernameBanList ipBanList : Room Peer).NeverRejoins events :=
  alwaysGood_iff events (create_good information verifyUid password usernameBanList ipBanList)

/-! ### A member that joins again -/

/-- A request to join, without a password and a token. -/
def joinPacket (nickname address : Bytes) : Bytes :=
  [1] ++ [0, 0, 0, 4] ++ nickname ++ address ++ [0, 0, 0, 1] ++ [0, 0, 0, 0] ++ [0, 0, 0, 0]

def quietSurroundings : Surroundings ℕ where
  loadUserData _ _ := ⟨[], false⟩
  hostIp _ := []
  randomBytes := []
  strayAddress := noPreferredIP
  strayType := 0

/-- The peer `7` joins as `aaaa`, joins as `bbbb` and disconnects. -/
def joinTwice : List (Event ℕ) :=
  [.receive 7 (joinPacket [0x61, 0x61, 0x61, 0x61] [192, 168, 1, 1]) quietSurroundings,
    .receive 7 (joinPacket [0x62, 0x62, 0x62, 0x62] [192, 168, 1, 2]) quietSurroundings, .disconnect 7]

def roomForEight : Room ℕ := create ⟨8, [], false⟩ [] [] [] []

-- The second entry of the peer is left when it has disconnected.
example : (joinTwice.foldlM Room.handle roomForEight).map (fun s => s.members.map fun member => (member.nickname, member.peer)) =
    some [([0x62, 0x62, 0x62, 0x62], 7)] := by
  decide

theorem joinTwice_not_alwaysGood : ¬ roomForEight.AlwaysGood ∅ joinTwice := by
  intro h
  have hjoined := (h.2 _ rfl).2 _ rfl
  have hpeers := hjoined.good.consistent.peers
  revert hpeers
  decide

end Room
end Network
end Citron
