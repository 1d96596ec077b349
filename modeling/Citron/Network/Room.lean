/-
# Packets and rooms

`Network::Packet` as it is read: a read past the end marks the packet invalid and leaves the
variable that is read into as it is.
-/
import Mathlib

namespace Citron
namespace Network

abbrev Bytes := List (BitVec 8)

abbrev IPv4Address := Vector (BitVec 8) 4

structure Packet where
  data : Bytes
  readPos : ℕ
  isValid : Bool

/-- Reading from a packet. -/
abbrev Reader := StateM Packet

namespace Packet

def append (data : Bytes) : Packet := ⟨data, 0, true⟩

def ignoreBytes (length : ℕ) : Reader Unit := modify fun p => { p with readPos := p.readPos + length }

def checkSize (size : ℕ) : Reader Bool := do
  let p ← get
  let valid := p.isValid && p.readPos + size ≤ p.data.length
  set { p with isValid := valid }
  return valid

/-- The next bytes, or what the variable holds already. -/
def read (size : ℕ) (kept : Bytes) : Reader Bytes := do
  if ← checkSize size then
    let p ← get
    set { p with readPos := p.readPos + size }
    return (p.data.drop p.readPos).take size
  else return kept

/-- `u32` values have the network's byte order. -/
def readU32 : Reader ℕ := do
  let bytes ← read 4 [0, 0, 0, 0]
  return bytes.foldl (fun value byte => value * 2 ^ 8 + byte.toNat) 0

def readString : Reader Bytes := do
  let length ← readU32
  if 0 < length then read length [] else return []

/-- The elements of an array are read into variables without a value. -/
def readIPv4Address (stray : IPv4Address) : Reader IPv4Address := do
  let b0 ← read 1 [stray[0]]
  let b1 ← read 1 [stray[1]]
  let b2 ← read 1 [stray[2]]
  let b3 ← read 1 [stray[3]]
  return #v[b0.headD 0, b1.headD 0, b2.headD 0, b3.headD 0]

end Packet

/-! ## Rooms

The part of `Room::RoomImpl` that decides who is a member: the requests to join, to kick, to ban and
to unban, and disconnections, as the server loop handles them one after the other.
-/

/-- What the verification backend knows about a user. -/
structure UserData where
  username : Bytes
  moderator : Bool

structure Member (Peer : Type) where
  nickname : Bytes
  fakeIp : IPv4Address
  userData : UserData
  peer : Peer

structure RoomInformation where
  memberSlots : ℕ
  hostUsername : Bytes
  enableCitronMods : Bool

structure Room (Peer : Type) where
  roomInformation : RoomInformation
  verifyUid : Bytes
  password : Bytes
  members : List (Member Peer)
  usernameBanList : List Bytes
  ipBanList : List Bytes

/-- What a handler gets from elsewhere: the answers of the verification backend, the hosts behind the
peers, the random bytes (from 1 to 0xFE) and the values that variables without a value happen to have. -/
structure Surroundings (Peer : Type) where
  loadUserData : Bytes → Bytes → UserData
  hostIp : Peer → Bytes
  randomBytes : List (Fin 254 × Fin 254)
  strayAddress : IPv4Address
  strayType : BitVec 8

/-- What the sender of a request is told. -/
inductive Reply
  | roomIsFull
  | wrongPassword
  | nameCollision
  | ipCollision
  | userBanned
  | joinSuccess (fakeIp : IPv4Address)
  | joinSuccessAsMod (fakeIp : IPv4Address)
  | modPermissionDenied
  | modNoSuchUser
  | done

def noPreferredIP : IPv4Address := #v[0xFF, 0xFF, 0xFF, 0xFF]

/-- What a request to join holds. -/
structure JoinRequest where
  nickname : Bytes
  preferredFakeIp : IPv4Address
  clientVersion : ℕ
  password : Bytes
  token : Bytes

def readJoinRequest (strayAddress : IPv4Address) : Reader JoinRequest := do
  Packet.ignoreBytes 1
  let nickname ← Packet.readString
  let preferredFakeIp ← Packet.readIPv4Address strayAddress
  let clientVersion ← Packet.readU32
  let password ← Packet.readString
  let token ← Packet.readString
  return ⟨nickname, preferredFakeIp, clientVersion, password, token⟩

/-- The string after the message type. -/
def readModTarget : Reader Bytes := do
  Packet.ignoreBytes 1
  Packet.readString

/-- `[ a-zA-Z0-9._-]` -/
def nicknameByte (b : BitVec 8) : Bool :=
  let c := b.toNat
  c = 0x20 || (0x61 ≤ c && c ≤ 0x7A) || (0x41 ≤ c && c ≤ 0x5A) || (0x30 ≤ c && c ≤ 0x39) || c = 0x2E || c = 0x5F || c = 0x2D

/-- `^[ a-zA-Z0-9._-]{4,20}$` -/
def nicknameRegex (nickname : Bytes) : Bool :=
  4 ≤ nickname.length && nickname.length ≤ 20 && nickname.all nicknameByte

namespace Room

variable {Peer : Type} [DecidableEq Peer] (s : Room Peer) (env : Surroundings Peer)

def isValidNickname (nickname : Bytes) : Bool :=
  nicknameRegex nickname && s.members.all fun member => member.nickname ≠ nickname

def isValidFakeIPAddress (address : IPv4Address) : Bool := s.members.all fun member => member.fakeIp ≠ address

/-- The first free one of the addresses that are drawn; none when all that were drawn are taken. -/
def generateFakeIPAddress : Option IPv4Address :=
  (env.randomBytes.map fun r => (#v[192, 168, BitVec.ofNat 8 (r.1 + 1), BitVec.ofNat 8 (r.2 + 1)] : IPv4Address)).find?
    s.isValidFakeIPAddress

def hasModPermission (client : Peer) : Bool :=
  match s.members.find? fun member => member.peer = client with
  | none => false
  | some sendingMember =>
    (s.roomInformation.enableCitronMods && sendingMember.userData.moderator) ||
      (s.roomInformation.hostUsername ≠ [] && sendingMember.userData.username = s.roomInformation.hostUsername)

/-- The last checks and the new member, once its address is known. -/
def joinUnlessBanned (client : Peer) (request : JoinRequest) (fakeIp : IPv4Address) : Room Peer × Reply :=
  let userData := env.loadUserData s.verifyUid request.token
  if userData.username ≠ [] ∧ userData.username ∈ s.usernameBanList then (s, .userBanned)
  else if env.hostIp client ∈ s.ipBanList then (s, .userBanned)
  else
    let s := { s with members := s.members ++ [⟨request.nickname, fakeIp, userData, client⟩] }
    (s, if s.hasModPermission client then .joinSuccessAsMod fakeIp else .joinSuccess fakeIp)

/-- `none` while no free address has been drawn. -/
def handleJoinRequest (client : Peer) (packet : Bytes) : Option (Room Peer × Reply) :=
  if s.members.length ≥ s.roomInformation.memberSlots then some (s, .roomIsFull)
  else
    let request := ((readJoinRequest env.strayAddress).run (.append packet)).1
    if request.password ≠ s.password then some (s, .wrongPassword)
    else if !s.isValidNickname request.nickname then some (s, .nameCollision)
    else if request.preferredFakeIp ≠ noPreferredIP then
      if !s.isValidFakeIPAddress request.preferredFakeIp then some (s, .ipCollision)
      else some (s.joinUnlessBanned env client request request.preferredFakeIp)
    else (s.generateFakeIPAddress env).map (s.joinUnlessBanned env client request)

/-- The first member with the nickname. -/
def findNickname (nickname : Bytes) : Option (Member Peer) := s.members.find? fun member => member.nickname = nickname

def eraseNickname (nickname : Bytes) : Room Peer :=
  { s with members := s.members.eraseP fun member => member.nickname = nickname }

def handleModKickPacket (client : Peer) (packet : Bytes) : Room Peer × Reply :=
  if !s.hasModPermission client then (s, .modPermissionDenied)
  else
    let nickname := (readModTarget.run (.append packet)).1
    match s.findNickname nickname with
    | none => (s, .modNoSuchUser)
    | some _ => (s.eraseNickname nickname, .done)

def banAddresses (username ip : Bytes) : Room Peer :=
  { s with
    usernameBanList :=
      if username ≠ [] ∧ username ∉ s.usernameBanList then s.usernameBanList ++ [username] else s.usernameBanList
    ipBanList := if ip ∉ s.ipBanList then s.ipBanList ++ [ip] else s.ipBanList }

def handleModBanPacket (client : Peer) (packet : Bytes) : Room Peer × Reply :=
  if !s.hasModPermission client then (s, .modPermissionDenied)
  else
    let nickname := (readModTarget.run (.append packet)).1
    match s.findNickname nickname with
    | none => (s, .modNoSuchUser)
    | some targetMember =>
      ((s.eraseNickname nickname).banAddresses targetMember.userData.username (env.hostIp targetMember.peer), .done)

def handleModUnbanPacket (client : Peer) (packet : Bytes) : Room Peer × Reply :=
  if !s.hasModPermission client then (s, .modPermissionDenied)
  else
    let address := (readModTarget.run (.append packet)).1
    if address ∈ s.usernameBanList ∨ address ∈ s.ipBanList then
      ({ s with usernameBanList := s.usernameBanList.erase address, ipBanList := s.ipBanList.erase address }, .done)
    else (s, .modNoSuchUser)

def handleClientDisconnection (client : Peer) : Room Peer :=
  { s with members := s.members.eraseP fun member => member.peer = client }

end Room

/-- An event of the host, with what its handler gets from elsewhere. -/
inductive Event (Peer : Type)
  | receive (client : Peer) (packet : Bytes) (env : Surroundings Peer)
  | disconnect (client : Peer)

def idJoinRequest : BitVec 8 := 1

def idModKick : BitVec 8 := 17

def idModBan : BitVec 8 := 18

def idModUnban : BitVec 8 := 19

/-- The message type; an empty packet has none. -/
def messageType {Peer : Type} (packet : Bytes) (env : Surroundings Peer) : BitVec 8 := packet.headD env.strayType

/-- A turn of the server loop. The other messages leave the members and the bans as they are. -/
def Room.handle {Peer : Type} [DecidableEq Peer] (s : Room Peer) : Event Peer → Option (Room Peer)
  | .receive client packet env =>
    let type := messageType packet env
    if type = idJoinRequest then (s.handleJoinRequest env client packet).map Prod.fst
    else if type = idModKick then some (s.handleModKickPacket client packet).1
    else if type = idModBan then some (s.handleModBanPacket env client packet).1
    else if type = idModUnban then some (s.handleModUnbanPacket client packet).1
    else some s
  | .disconnect client => some (s.handleClientDisconnection client)

/-- A room without members. -/
def Room.create {Peer : Type} (information : RoomInformation) (verifyUid password : Bytes) (usernameBanList ipBanList : List Bytes) :
    Room Peer := ⟨information, verifyUid, password, [], usernameBanList, ipBanList⟩

end Network
end Citron
