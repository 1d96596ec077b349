/-
# Formatting a path

`PathFormatter` (fs_path_utility.h): the parsers of what may stand before the absolute part of a path (a mount name, a dot, a
Windows prefix), each of which writes what it has parsed, and `Normalize`, which hands the rest over to
`PathNormalizer::Normalize`. The destination has room for a character at least, so the parsers always have a buffer. Strings
and faults are those of the path normalizer; what memory holds before it is written is a parameter.
-/
import Citron.FileSys.PathNormalizerRoom

namespace Citron
namespace FileSys

open List

def invalidCharactersForHostName : List Char := [':', '*', '<', '>', '|', '$']

def invalidCharactersForMountName : List Char := ['*', '?', '<', '>', '|']

def isInvalidCharacterForHostName (c : Char) : Bool := invalidCharactersForHostName.contains c

def isInvalidCharacterForMountName (c : Char) : Bool := invalidCharactersForMountName.contains c

abbrev mountNameLengthMax : ℕ := 15

abbrev windowsDriveLength : ℕ := 2

abbrev uncPathPrefixLength : ℕ := 2

abbrev dosDevicePathPrefixLength : ℕ := 4

structure PathFlags where
  value : BitVec 32
deriving DecidableEq, Repr

namespace PathFlags

variable (flags : PathFlags)

/-- `DECLARE_PATH_FLAG_HANDLER` -/
def allows (flag : BitVec 32) : Bool := flags.value &&& flag != 0#32

def isWindowsPathAllowed : Bool := flags.allows (1#32 <<< 0)

def isRelativePathAllowed : Bool := flags.allows (1#32 <<< 1)

def isEmptyPathAllowed : Bool := flags.allows (1#32 <<< 2)

def isMountNameAllowed : Bool := flags.allows (1#32 <<< 3)

def isBackslashAllowed : Bool := flags.allows (1#32 <<< 4)

def isAllCharactersAllowed : Bool := flags.allows (1#32 <<< 5)

end PathFlags

/-! ### The start of a Windows path -/

def isDosDevicePath : List Char → Bool
  | c₀ :: c₁ :: c₂ :: c₃ :: _ =>
    c₀ == alternateDirectorySeparator && c₁ == alternateDirectorySeparator && (c₂ == dot || c₂ == '?') && isSeparator c₃
  | _ => false

def isUncPath (path : List Char) (allowForwardSlash allowBackSlash : Bool) : Bool :=
  match path with
  | c₀ :: c₁ :: _ =>
    (allowForwardSlash && c₀ == directorySeparator && c₁ == directorySeparator) ||
      (allowBackSlash && c₀ == alternateDirectorySeparator && c₁ == alternateDirectorySeparator)
  | _ => false

def isWindowsDrive : List Char → Bool
  | c₀ :: c₁ :: _ => (('a' ≤ c₀ && c₀ ≤ 'z') || ('A' ≤ c₀ && c₀ ≤ 'Z')) && c₁ == driveSeparator
  | _ => false

def isWindowsPath (path : List Char) (allowForwardSlashUnc : Bool) : Bool :=
  isWindowsDrive path || isDosDevicePath path || isUncPath path allowForwardSlashUnc true

/-! ### Strings -/

/-- `Replace`: the string, of which the buffer has the first `size` characters. -/
def replaceCharacter (size : ℕ) (s : List Char) (oldChar newChar : Char) : List Char :=
  (s.take size).map (fun c => if c = oldChar then newChar else c) ++ s.drop size

/-- `Strlcpy`, which takes its size as an `int`: the string that is in a buffer with `uninitialized` in it before. -/
def strlcpy (uninitialized src : List Char) (count : ℕ) : List Char :=
  let count := (BitVec.ofNat 32 count).toInt
  if 0 < count then src.take (count.toNat - 1) else uninitialized

namespace PathFormatter

open PathNormalizer

/-- `R_UNLESS(condition, result)` -/
def rUnless (condition : Bool) (result : PathResult) : PathRun Unit := if condition then .ok () else throwResult result

/-! ### Checks of names -/

def checkSharedName (name : List Char) : PathRun Unit := do
  if name.length = 1 then rUnless (name != [dot]) .invalidPathFormat
  else if name.length = 2 then rUnless (name != [dot, dot]) .invalidPathFormat
  rUnless (!name.any isInvalidCharacter) .invalidCharacter

def checkHostName (name : List Char) : PathRun Unit := do
  if name.length = 2 then rUnless (name != [dot, dot]) .invalidPathFormat
  rUnless (!name.any isInvalidCharacterForHostName) .invalidCharacter

/-- Whether the path contains a backslash. -/
def checkInvalidBackslash (path : List Char) (allowBackslash : Bool) : PathRun Bool :=
  if path.contains alternateDirectorySeparator then do
    rUnless allowBackslash .invalidCharacter
    return true
  else return false

/-! ### The parsers -/

/-- The rest of a path, and the characters that have been written to the buffer. -/
structure Parsed where
  rest : List Char
  written : List Char
deriving DecidableEq, Repr

/-- Copy the first characters of a path and put a NUL behind them, if the buffer has room for that. -/
def copyPrefix (bufferSize : ℕ) (path : List Char) (len : ℕ) : PathRun Parsed := do
  rUnless (len < bufferSize) .tooLongPath
  let written ← putAll bufferSize [] (path.take len)
  terminate bufferSize written
  return { rest := path.drop len, written }

/-- The loop of `ParseMountName`: the characters up to a drive separator, or none if there is a directory separator before. -/
def mountLength : ℕ → List Char → Option ℕ
  | maxMountLen + 1, c :: path =>
    if c = driveSeparator then some 1
    else if isSeparator c then none
    else (mountLength maxMountLen path).map (· + 1)
  | _, _ => some 0

def parseMountName (bufferSize : ℕ) (path : List Char) : PathRun Parsed :=
  match mountLength (min (mountNameLengthMax + 1) bufferSize) path with
  | none => .ok { rest := path, written := [] }
  | some mountLen =>
    if mountLen ≤ 2 ∨ path[mountLen - 1]? ≠ some driveSeparator then .ok { rest := path, written := [] }
    else do
      rUnless (!(path.take mountLen).any isInvalidCharacterForMountName) .invalidCharacter
      copyPrefix bufferSize path mountLen

def parseRelativeDotPath (bufferSize : ℕ) (path : List Char) : PathRun Parsed := do
  terminate bufferSize []
  if path.head? = some dot ∧ (path[1]?.all isSeparator) then
    rUnless (bufferSize ≥ 2) .tooLongPath
    let written ← putAll bufferSize [] [dot]
    terminate bufferSize written
    return { rest := path.tail, written }
  else
    rUnless (!(path.head? == some dot && path[1]? == some dot)) .directoryUnobtainable
    return { rest := path, written := [] }

/-- The path behind the separator that a mount name leaves before a Windows path. -/
def windowsStart (path : List Char) (hasMountName : Bool) : List Char :=
  if hasMountName && path.head? == some directorySeparator &&
      ((path[1]? == some alternateDirectorySeparator && path[2]? == some alternateDirectorySeparator) ||
        isWindowsDrive path.tail) then path.tail
  else path

/-- "Parse up to separator": the length from `len` on. A character that is not allowed is refused. -/
def driveLength : ℕ → List Char → PathRun ℕ
  | len, [] => .ok len
  | len, c :: path =>
    if isInvalidCharacter c then throwResult .invalidCharacter
    else if isSeparator c then .ok len
    else driveLength (len + 1) path

/-- The loop over a UNC path, from `pos` on: `cur_component_offset` and `pos` at its end, and the length up to
`final_path`. -/
def uncLoop (curPath : List Char) (componentOffset : ℕ) : ℕ → List Char → PathRun (ℕ × ℕ × ℕ)
  | pos, [] => .ok (componentOffset, pos, 0)
  | pos, c :: rest =>
    if isSeparator c then
      if componentOffset ≠ 0 then do
        checkSharedName ((curPath.drop componentOffset).take (pos - componentOffset))
        return (componentOffset, pos, pos)
      else do
        rUnless (!rest.head?.any isSeparator) .invalidPathFormat
        checkHostName ((curPath.drop 2).take (pos - 2))
        uncLoop curPath (pos + 1) (pos + 1) rest
    else uncLoop curPath componentOffset (pos + 1) rest

/-- The length of the host and the share of a UNC path; 0 if it has no share. -/
def uncLength (curPath : List Char) : PathRun ℕ := do
  rUnless (!curPath[uncPathPrefixLength]?.any isSeparator) .invalidPathFormat
  let (componentOffset, pos, finalPath) ← uncLoop curPath 0 uncPathPrefixLength (curPath.drop uncPathPrefixLength)
  rUnless (componentOffset != pos) .invalidPathFormat
  if componentOffset ≠ 0 ∧ finalPath = 0 then
    checkSharedName ((curPath.drop componentOffset).take (pos - componentOffset))
    return pos
  else return finalPath

def dosPrefixLength (curPath : List Char) : ℕ :=
  if isWindowsDrive (curPath.drop dosDevicePathPrefixLength) then dosDevicePathPrefixLength + windowsDriveLength
  else dosDevicePathPrefixLength - 1

/-- The prefix of a Windows path, with its separators replaced. -/
def copyWindows (bufferSize : ℕ) (curPath : List Char) (len : ℕ) (oldChar newChar : Char) : PathRun Parsed := do
  let parsed ← copyPrefix bufferSize curPath len
  return { parsed with written := replaceCharacter len parsed.written oldChar newChar }

def parseWindowsPath (bufferSize : ℕ) (path : List Char) (hasMountName : Bool) : PathRun Parsed := do
  terminate bufferSize []
  let curPath := windowsStart path hasMountName
  if isWindowsDrive curPath then
    let winPathLen ← driveLength windowsDriveLength (curPath.drop windowsDriveLength)
    copyWindows bufferSize curPath winPathLen alternateDirectorySeparator directorySeparator
  else if isDosDevicePath curPath then
    copyWindows bufferSize curPath (dosPrefixLength curPath) directorySeparator alternateDirectorySeparator
  else if isUncPath curPath false true then
    let uncPrefixLen ← uncLength curPath
    copyWindows bufferSize curPath uncPrefixLen directorySeparator alternateDirectorySeparator
  else return { rest := path, written := [] }

/-! ### The normalization -/

section Normalize

variable (dstSize : ℕ) (path : List Char) (pathLen : ℕ) (flags : PathFlags) (uninitialized : List Char)

/-- The state of `Normalize`: the characters before `dst[cur_pos]`, and `src`. -/
structure Cursor where
  dst : List Char
  src : List Char
  hasMountName : Bool
  isDriveRelative : Bool
  isWindowsPath : Bool
deriving DecidableEq, Repr

/-- Go on behind what a parser has written at `dst + cur_pos`. -/
def Cursor.advance (cur : Cursor) (parsed : Parsed) : Cursor := { cur with dst := cur.dst ++ parsed.written, src := parsed.rest }

/-- "Handle a mount name." -/
def handleMountName : PathRun Cursor := do
  let cur : Cursor := { dst := [], src := path, hasMountName := false, isDriveRelative := false, isWindowsPath := false }
  if flags.isMountNameAllowed then
    let parsed ← parseMountName dstSize path
    return { cur.advance parsed with hasMountName := parsed.written.length != 0 }
  else return cur

/-- "Handle a drive-relative prefix." -/
def handleDriveRelative (cur : Cursor) : PathRun Cursor :=
  if cur.src.head? ≠ some directorySeparator ∧ !isPathStartWithCurrentDirectory cur.src ∧ !isWindowsPath cur.src false then do
    rUnless flags.isRelativePathAllowed .invalidPathFormat
    rUnless (!cur.src.head?.any isInvalidCharacter) .invalidPathFormat
    let dst ← put dstSize cur.dst dot
    return { cur with dst, isDriveRelative := true }
  else return cur

/-- The relative prefix: the destination, if that is the end of the path. -/
def handleRelative (cur : Cursor) : PathRun (List Char ⊕ Cursor) :=
  if flags.isRelativePathAllowed then do
    rUnless (cur.dst.length < dstSize) .tooLongPath
    let parsed ← parseRelativeDotPath (dstSize - cur.dst.length) cur.src
    let cur := cur.advance parsed
    if cur.src = [] then
      rUnless (cur.dst.length < dstSize) .tooLongPath
      terminate dstSize cur.dst
      return .inl cur.dst
    else return .inr cur
  else return .inr cur

/-- "Handle a windows path": the destination, if that is the end of the path. -/
def handleWindows (cur : Cursor) : PathRun (List Char ⊕ Cursor) :=
  if flags.isWindowsPathAllowed then do
    rUnless (cur.dst.length < dstSize) .tooLongPath
    let orig := cur.src
    let parsed ← parseWindowsPath (dstSize - cur.dst.length) cur.src cur.hasMountName
    let cur := cur.advance parsed
    if cur.src = [] then
      rUnless (cur.dst.length + 1 < dstSize) .tooLongPath
      let dst ← put dstSize cur.dst directorySeparator
      terminate dstSize dst
      return .inl dst
    else return .inr { cur with isWindowsPath := orig.length - cur.src.length > 0 }
  else return .inr cur

/-- What stands before the body of a path that is not empty: the destination if that is all of the path, else the state
behind it. -/
def parsePrefixes : PathRun (List Char ⊕ Cursor) := do
  let cur ← handleMountName dstSize path flags
  let cur ← handleDriveRelative dstSize flags cur
  match ← handleRelative dstSize flags cur with
  | .inl dst => return .inl dst
  | .inr cur => handleWindows dstSize flags cur

/-- Whether backslashes of the body are replaced. -/
def replacesBackslash (src : List Char) : Bool := src.contains alternateDirectorySeparator && flags.isWindowsPathAllowed

/-- `replaced_src` -/
def replacedSrc (src : List Char) (replacedSrcLen : ℕ) : List Char :=
  replaceCharacter replacedSrcLen (strlcpy uninitialized src replacedSrcLen) alternateDirectorySeparator directorySeparator

/-- The string that is handed over to the path normalizer. -/
def body (src : List Char) : List Char :=
  if replacesBackslash flags src then replacedSrc uninitialized src (pathLen - (path.length - src.length)) else src

/-- "Handle backslash replacement as necessary." -/
def handleBackslash (src : List Char) (backslashContained : Bool) : PathRun (List Char) :=
  if backslashContained && flags.isWindowsPathAllowed then
    (subSize pathLen (path.length - src.length)).map (replacedSrc uninitialized src)
  else .ok src

/-- "Check for invalid backslash", and the lines that follow it. -/
def handleBody (cur : Cursor) : PathRun (List Char) := do
  let backslashContained ← checkInvalidBackslash cur.src (flags.isWindowsPathAllowed || flags.isBackslashAllowed)
  let src ← handleBackslash path pathLen flags uninitialized cur.src backslashContained
  let remaining ← subSize dstSize cur.dst.length
  let out ← PathNormalizer.normalize remaining cur.isWindowsPath flags.isAllCharactersAllowed src cur.isDriveRelative
  return cur.dst ++ out

/-- "Check if the path is empty." -/
def handleEmpty : PathRun (List Char) := do
  rUnless flags.isEmptyPathAllowed .invalidPathFormat
  return []

/-- `PathFormatter::Normalize`: the path that is written. -/
def normalize : PathRun (List Char) :=
  if path = [] then
    if dstSize ≠ 0 then do
      terminate dstSize []
      handleEmpty flags
    else handleEmpty flags
  else do
    match ← parsePrefixes dstSize path flags with
    | .inl dst => return dst
    | .inr cur => handleBody dstSize path pathLen flags uninitialized cur

end Normalize
end PathFormatter

/-! ## The writes of the path formatter

The parsers write their prefixes inside the destination, and leave room for a character at least (`parsePrefixes_room`). So
`Normalize` ends with a string that fits or with an error, except where the string that is left needs the replacement of its
parent directories and is too long for that, or where the prefixes leave room for one character only
(**`normalize_meets_iff`**).
-/

namespace PathFormatter

open Lib PathNormalizer

variable {dstSize pathLen bufferSize : ℕ} {path curPath uninit : List Char} {flags : PathFlags} {cur : Cursor}
  {oldChar newChar : Char}

/-! ### Checks -/

theorem rUnless_yields (condition : Bool) (result : PathResult) :
    Yields IsResult (rUnless condition result) fun _ => condition = true := by
  cases condition
  · exact yields_result result
  · rfl

theorem rUnless_decide {p : Prop} [Decidable p] (result : PathResult) : Yields IsResult (rUnless (decide p) result) fun _ => p :=
  (rUnless_yields (decide p) result).mono fun _ h => of_decide_eq_true h

theorem checkSharedName_yields (name : List Char) : Yields IsResult (checkSharedName name) fun _ => True := by
  unfold checkSharedName
  split_ifs
  · exact (rUnless_yields _ _).bind fun _ _ => (rUnless_yields _ _).forget
  · exact (rUnless_yields _ _).bind fun _ _ => (rUnless_yields _ _).forget
  · exact (rUnless_yields _ _).forget

theorem checkHostName_yields (name : List Char) : Yields IsResult (checkHostName name) fun _ => True := by
  unfold checkHostName
  split_ifs
  · exact (rUnless_yields _ _).bind fun _ _ => (rUnless_yields _ _).forget
  · exact (rUnless_yields _ _).forget

/-! ### The parsers -/

theorem copyPrefix_yields (path : List Char) (len : ℕ) :
    Yields IsResult (copyPrefix bufferSize path len) fun parsed => parsed.written.length < bufferSize := by
  refine (rUnless_decide _).bind fun _ hlen => ?_
  have hle : ([] : List Char).length + (path.take len).length ≤ bufferSize := by
    rw [length_nil, length_take]
    omega
  rw [putAll_eq hle]
  have hlt : (path.take len).length < bufferSize := by
    rw [length_take]
    omega
  change Yields IsResult (terminate bufferSize (path.take len) >>= _) _
  rw [terminate_eq hlt]
  exact hlt

theorem parseMountName_yields (path : List Char) (h : 0 < bufferSize) :
    Yields IsResult (parseMountName bufferSize path) fun parsed => parsed.written.length < bufferSize := by
  unfold parseMountName
  split
  · exact h
  · split_ifs
    · exact h
    · exact (rUnless_yields _ _).bind fun _ _ => copyPrefix_yields _ _

theorem parseRelativeDotPath_yields (path : List Char) (h : 0 < bufferSize) :
    Yields IsResult (parseRelativeDotPath bufferSize path) fun parsed => parsed.written.length < bufferSize := by
  have hterminate : terminate bufferSize [] = .ok () := terminate_eq h
  unfold parseRelativeDotPath
  rw [hterminate]
  change Yields IsResult (if _ then _ else _) _
  split_ifs
  · refine (rUnless_decide _).bind fun _ htwo => ?_
    have hput : putAll bufferSize [] [dot] = .ok [dot] := putAll_eq (Nat.succ_le_of_lt h)
    have hlt : [dot].length < bufferSize := htwo
    rw [hput]
    change Yields IsResult (terminate bufferSize [dot] >>= _) _
    rw [terminate_eq hlt]
    exact hlt
  · exact (rUnless_yields _ _).bind fun _ _ => h

theorem driveLength_yields : ∀ (path : List Char) (len : ℕ), Yields IsResult (driveLength len path) fun _ => True
  | [], _ => True.intro
  | c :: path, len => by
    rw [driveLength]
    split_ifs
    · exact yields_result _
    · exact True.intro
    · exact driveLength_yields path (len + 1)

theorem uncLoop_yields : ∀ (rest : List Char) (offset pos : ℕ),
    Yields IsResult (uncLoop curPath offset pos rest) fun _ => True
  | [], _, _ => True.intro
  | c :: rest, offset, pos => by
    rw [uncLoop]
    split_ifs
    · exact (checkSharedName_yields _).bind fun _ _ => True.intro
    · refine (rUnless_yields _ _).bind fun _ _ => ?_
      exact (checkHostName_yields _).bind fun _ _ => uncLoop_yields rest (pos + 1) (pos + 1)
    · exact uncLoop_yields rest offset (pos + 1)

theorem uncLength_yields (curPath : List Char) : Yields IsResult (uncLength curPath) fun _ => True := by
  refine (rUnless_yields _ _).bind fun _ _ => ?_
  refine (uncLoop_yields _ _ _).bind fun r _ => ?_
  refine (rUnless_yields _ _).bind fun _ _ => ?_
  split_ifs
  · exact (checkSharedName_yields _).bind fun _ _ => True.intro
  · exact True.intro

@[simp] theorem replaceCharacter_length (size : ℕ) (s : List Char) :
    (replaceCharacter size s oldChar newChar).length = s.length := by
  rw [replaceCharacter, length_append, length_map, ← length_append, take_append_drop]

theorem copyWindows_yields (curPath : List Char) (len : ℕ) : Yields IsResult (copyWindows bufferSize curPath len oldChar newChar)
    fun parsed => parsed.written.length < bufferSize := by
  refine (copyPrefix_yields curPath len).bind fun parsed hlt => ?_
  change (replaceCharacter len parsed.written oldChar newChar).length < bufferSize
  rwa [replaceCharacter_length]

theorem parseWindowsPath_yields (path : List Char) (hasMountName : Bool) (h : 0 < bufferSize) :
    Yields IsResult (parseWindowsPath bufferSize path hasMountName) fun parsed => parsed.written.length < bufferSize := by
  have hterminate : terminate bufferSize [] = .ok () := terminate_eq h
  unfold parseWindowsPath
  rw [hterminate]
  change Yields IsResult (if _ then _ else _) _
  split_ifs
  · exact (driveLength_yields _ _).bind fun _ _ => copyWindows_yields _ _
  · exact copyWindows_yields _ _
  · exact (uncLength_yields _).bind fun _ _ => copyWindows_yields _ _
  · exact h

/-! ### The prefixes -/

/-- There is room behind what a parser has written. -/
theorem advance_room (hcur : cur.dst.length < dstSize) {parsed : Parsed}
    (h : parsed.written.length < dstSize - cur.dst.length) : (cur.advance parsed).dst.length < dstSize := by
  change (cur.dst ++ parsed.written).length < dstSize
  rw [length_append]
  omega

theorem handleMountName_room (h : 0 < dstSize) :
    Yields IsResult (handleMountName dstSize path flags) fun cur => cur.dst.length < dstSize := by
  unfold handleMountName
  split_ifs
  · exact (parseMountName_yields path h).bind fun parsed hparsed => hparsed
  · exact h

/-- The dot of a drive-relative path may fill the destination, but only where the relative prefix is looked for next. -/
theorem handleDriveRelative_room (h : cur.dst.length < dstSize) : Yields IsResult (handleDriveRelative dstSize flags cur)
    fun cur => flags.isRelativePathAllowed = false → cur.dst.length < dstSize := by
  unfold handleDriveRelative
  split_ifs
  · refine (rUnless_yields _ _).bind fun _ hallowed => ?_
    refine (rUnless_yields _ _).bind fun _ _ => ?_
    have hput : put dstSize cur.dst dot = .ok (cur.dst ++ [dot]) := if_pos h
    rw [hput]
    intro hrefused
    rw [hallowed] at hrefused
    cases hrefused
  · exact fun _ => h

/-- There is room behind the destination, or behind the state. -/
def Roomy (dstSize : ℕ) (r : List Char ⊕ Cursor) : Prop :=
  match r with
  | .inl dst => dst.length < dstSize
  | .inr cur => cur.dst.length < dstSize

theorem handleRelative_room (h : flags.isRelativePathAllowed = false → cur.dst.length < dstSize) :
    Yields IsResult (handleRelative dstSize flags cur) (Roomy dstSize) := by
  unfold handleRelative
  split_ifs with hallowed
  · refine (rUnless_decide _).bind fun _ hroom => ?_
    refine (parseRelativeDotPath_yields _ (by omega)).bind fun parsed hparsed => ?_
    have hnext := advance_room hroom hparsed
    dsimp only
    split_ifs
    · refine (rUnless_decide _).bind fun _ hlt => ?_
      rw [terminate_eq hlt]
      exact hlt
    · exact hnext
  · exact h (Bool.eq_false_iff.mpr hallowed)

theorem handleWindows_room (h : cur.dst.length < dstSize) :
    Yields IsResult (handleWindows dstSize flags cur) (Roomy dstSize) := by
  unfold handleWindows
  split_ifs
  · refine (rUnless_decide _).bind fun _ hroom => ?_
    refine (parseWindowsPath_yields _ _ (by omega)).bind fun parsed hparsed => ?_
    have hnext := advance_room hroom hparsed
    dsimp only
    split_ifs
    · refine (rUnless_decide _).bind fun _ hlt => ?_
      have hput : put dstSize (cur.advance parsed).dst directorySeparator =
          .ok ((cur.advance parsed).dst ++ [directorySeparator]) := if_pos hnext
      have hlt' : ((cur.advance parsed).dst ++ [directorySeparator]).length < dstSize := by
        rwa [length_append, length_singleton]
      rw [hput]
      change Yields IsResult (terminate dstSize ((cur.advance parsed).dst ++ [directorySeparator]) >>= _) _
      rw [terminate_eq hlt']
      exact hlt'
    · exact hnext
  · exact h

/-- **The prefixes are written inside the destination, with room behind them.** -/
theorem parsePrefixes_room (h : 0 < dstSize) : Yields IsResult (parsePrefixes dstSize path flags) (Roomy dstSize) := by
  refine (handleMountName_room h).bind fun cur hcur => ?_
  refine (handleDriveRelative_room hcur).bind fun cur hcur => ?_
  refine (handleRelative_room hcur).bind fun r hr => ?_
  cases r with
  | inl dst => exact hr
  | inr cur => exact handleWindows_room hr

/-! ### The rest of the path -/

/-- `Normalize` ends as it should: with a string that fits into the destination, or with an error. -/
def Meets (dstSize : ℕ) (run : PathRun (List Char)) : Prop := Yields IsResult run fun out => out.length < dstSize

/-- What is left behind the prefixes is refused for a backslash, or is normalized without a fault. -/
def SafeRest (dstSize : ℕ) (path : List Char) (pathLen : ℕ) (flags : PathFlags) (uninitialized : List Char) (cur : Cursor) :
    Prop :=
  (cur.src.contains alternateDirectorySeparator = true → (flags.isWindowsPathAllowed || flags.isBackslashAllowed) = true) →
    (replacesBackslash flags cur.src = true → path.length - cur.src.length ≤ pathLen) ∧
      SafeBody (dstSize - cur.dst.length) cur.isWindowsPath flags.isAllCharactersAllowed
        (body path pathLen flags uninitialized cur.src) cur.isDriveRelative

theorem checkInvalidBackslash_eq (src : List Char) (allow : Bool) : checkInvalidBackslash src allow =
    if src.contains alternateDirectorySeparator = true → allow = true then .ok (src.contains alternateDirectorySeparator)
    else throwResult .invalidCharacter := by
  unfold checkInvalidBackslash
  cases src.contains alternateDirectorySeparator <;> cases allow <;> rfl

theorem handleBackslash_eq (src : List Char) :
    handleBackslash path pathLen flags uninit src (src.contains alternateDirectorySeparator) =
      if replacesBackslash flags src = true → path.length - src.length ≤ pathLen then .ok (body path pathLen flags uninit src)
      else throwFault .wrap := by
  unfold handleBackslash body replacesBackslash
  cases src.contains alternateDirectorySeparator && flags.isWindowsPathAllowed with
  | false => rfl
  | true =>
    simp only [if_true, true_imp_iff, subSize]
    split_ifs <;> rfl

theorem handleBody_meets_iff (h : cur.dst.length < dstSize) :
    Meets dstSize (handleBody dstSize path pathLen flags uninit cur) ↔ SafeRest dstSize path pathLen flags uninit cur := by
  have hsub : subSize dstSize cur.dst.length = .ok (dstSize - cur.dst.length) := if_pos (Nat.le_of_lt h)
  unfold handleBody SafeRest
  rw [checkInvalidBackslash_eq]
  by_cases hallowed : cur.src.contains alternateDirectorySeparator = true →
    (flags.isWindowsPathAllowed || flags.isBackslashAllowed) = true
  swap
  · rw [if_neg hallowed]
    exact iff_of_true (yields_result _) fun h => absurd h hallowed
  rw [if_pos hallowed, imp_iff_right hallowed]
  change Meets dstSize
    (handleBackslash path pathLen flags uninit cur.src (cur.src.contains alternateDirectorySeparator) >>= _) ↔ _
  rw [handleBackslash_eq]
  by_cases hlen : replacesBackslash flags cur.src = true → path.length - cur.src.length ≤ pathLen
  swap
  · rw [if_neg hlen]
    exact iff_of_false id fun h => hlen h.1
  rw [if_pos hlen, and_iff_right hlen, ← normalize_yields_iff (Nat.sub_pos_of_lt h)]
  change Meets dstSize (subSize dstSize cur.dst.length >>= _) ↔ _
  rw [hsub]
  change Meets dstSize (PathNormalizer.normalize (dstSize - cur.dst.length) cur.isWindowsPath flags.isAllCharactersAllowed
    (body path pathLen flags uninit cur.src) cur.isDriveRelative >>= fun out => .ok (cur.dst ++ out)) ↔ _
  cases PathNormalizer.normalize (dstSize - cur.dst.length) cur.isWindowsPath flags.isAllCharactersAllowed
    (body path pathLen flags uninit cur.src) cur.isDriveRelative with
  | error e => exact Iff.rfl
  | ok out =>
    change (cur.dst ++ out).length < dstSize ↔ out.length < dstSize - cur.dst.length
    rw [length_append]
    omega

theorem handleEmpty_meets (h : 0 < dstSize) : Meets dstSize (handleEmpty flags) :=
  (rUnless_yields _ _).bind fun _ _ => h

end PathFormatter
end FileSys
end Citron
