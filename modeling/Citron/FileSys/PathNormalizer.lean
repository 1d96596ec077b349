/-
# Normalizing a path

`PathNormalizer` (fs_path_utility.h). A path is the list of the characters before its NUL, so the end of the list is where
the source reads a NUL; nothing depends on the width of a character. The destination is the list of the characters that are
counted by `total_len`. Every write is checked against `max_out_size`: a write outside it is a fault, as is a length that
wraps and a path that is too long for the replacement buffer. The functions are those of a build with `NDEBUG`.
-/
import Citron.Lib.Segments

namespace Citron
namespace FileSys

abbrev directorySeparator : Char := '/'

abbrev alternateDirectorySeparator : Char := '\\'

abbrev driveSeparator : Char := ':'

abbrev dot : Char := '.'

def invalidCharacters : List Char := [':', '*', '?', '<', '>', '|']

def isInvalidCharacter (c : Char) : Bool := invalidCharacters.contains c

def isSeparator (c : Char) : Bool := c == directorySeparator || c == alternateDirectorySeparator

/-- `EntryNameLengthMax` -/
abbrev entryNameLengthMax : ℕ := 0x300

/-- The results other than success. -/
inductive PathResult
  | invalidPathFormat
  | invalidCharacter
  | directoryUnobtainable
  | tooLongPath
  | notNormalized
deriving DecidableEq, Repr

inductive PathFault
  /-- A write outside the destination. -/
  | write
  /-- A difference of sizes that is not a size. -/
  | wrap
  /-- A write outside the buffer for the replaced path. -/
  | replacement
deriving DecidableEq, Repr

inductive PathStop
  | result (r : PathResult)
  | fault (f : PathFault)
deriving DecidableEq, Repr

abbrev PathRun := Except PathStop

def throwResult {α : Type} (r : PathResult) : PathRun α := .error (.result r)

def throwFault {α : Type} (f : PathFault) : PathRun α := .error (.fault f)

/-- `a - b` -/
def subSize (a b : ℕ) : PathRun ℕ := if b ≤ a then .ok (a - b) else throwFault .wrap

/-! ### The start of a path -/

/-- `path[0]` is a dot, and the path ends there or a separator follows. -/
def isCurrentDirectory (path : List Char) : Bool :=
  path.head? == some dot && (path.tail.isEmpty || path[1]? == some directorySeparator)

def isParentDirectory (path : List Char) : Bool :=
  path.head? == some dot && path[1]? == some dot && ((path.drop 2).isEmpty || path[2]? == some directorySeparator)

def isPathStartWithCurrentDirectory (path : List Char) : Bool := isCurrentDirectory path || isParentDirectory path

namespace PathNormalizer

/-! ### Parent directories between alternate separators -/

/-- The loop of `IsParentDirectoryPathReplacementNeeded`, and the test after it. -/
def findsParentDirectory : List Char → Bool
  | c₀ :: c₁ :: c₂ :: c₃ :: rest =>
    (c₁ == dot && c₂ == dot &&
      ((c₀ == alternateDirectorySeparator && isSeparator c₃) || (c₃ == alternateDirectorySeparator && isSeparator c₀))) ||
      findsParentDirectory (c₁ :: c₂ :: c₃ :: rest)
  | [c₀, c₁, c₂] => c₀ == alternateDirectorySeparator && c₁ == dot && c₂ == dot
  | _ => false

def isParentDirectoryPathReplacementNeeded (path : List Char) : Bool :=
  match path with
  | c :: _ => isSeparator c && findsParentDirectory path
  | [] => false

/-- The loop of `ReplaceParentDirectoryPath` and what it writes from `dst[i - 1]` on: `prev` is `src[i - 1]`, and `last` is
what `dst[i - 1]` has been set to. -/
def replaceLoop (prev last : Char) : List Char → List Char
  | c₁ :: c₂ :: c₃ :: rest =>
    if isSeparator prev && c₁ == dot && c₂ == dot && isSeparator c₃ then
      directorySeparator :: c₁ :: c₂ :: replaceLoop c₃ directorySeparator rest
    else last :: replaceLoop c₁ c₁ (c₂ :: c₃ :: rest)
  | [c₁, c₂] =>
    if prev == alternateDirectorySeparator && c₁ == dot && c₂ == dot then [directorySeparator, c₁, c₂] else [last, c₁, c₂]
  | [c₁] => [last, c₁]
  | [] => [last]

/-- `ReplaceParentDirectoryPath`, into a buffer of `EntryNameLengthMax + 1`. -/
def replaceParentDirectoryPath (src : List Char) : PathRun (List Char) :=
  if src.length + 1 ≤ entryNameLengthMax + 1 then
    match src with
    | c :: rest => .ok (replaceLoop c directorySeparator rest)
    | [] => .ok [directorySeparator]
  else throwFault .replacement

/-! ### The test -/

inductive PathState
  | start
  | normal
  | firstSeparator
  | separator
  | currentDir
  | parentDir
deriving DecidableEq, Repr

/-- What `IsNormalized` makes of a character: the next state, or the result that the path is not normalized. -/
def nextState (state : PathState) (c : Char) : Except PathResult (Option PathState) :=
  match state with
  | .start => if c = directorySeparator then .ok (some .firstSeparator) else .error .invalidPathFormat
  | .normal => .ok (some (if c = directorySeparator then .separator else .normal))
  | .firstSeparator | .separator =>
    .ok (if c = directorySeparator then none else some (if c = dot then .currentDir else .normal))
  | .currentDir => .ok (if c = directorySeparator then none else some (if c = dot then .parentDir else .normal))
  | .parentDir => .ok (if c = directorySeparator then none else some .normal)

/-- The loop of `IsNormalized` and the check of the final state. The length is left unset by an early return. -/
def isNormalizedLoop (allowAllCharacters : Bool) : PathState → ℕ → List Char → Except PathResult (Bool × Option ℕ)
  | state, len, [] =>
    match state with
    | .start => .error .invalidPathFormat
    | .normal | .firstSeparator => .ok (true, some len)
    | .separator | .currentDir | .parentDir => .ok (false, some len)
  | state, len, c :: cs =>
    if !allowAllCharacters && state != .start && isInvalidCharacter c then .error .invalidCharacter
    else
      match nextState state c with
      | .error r => .error r
      | .ok none => .ok (false, none)
      | .ok (some state) => isNormalizedLoop allowAllCharacters state (len + 1) cs

def isNormalized (path : List Char) (allowAllCharacters : Bool) : Except PathResult (Bool × Option ℕ) :=
  isNormalizedLoop allowAllCharacters .start 0 path

/-! ### The normalization -/

section Normalize

variable (maxOutSize : ℕ) (isWindowsPath allowAllCharacters : Bool)

/-- `dst[total_len++] = c` -/
def put (out : List Char) (c : Char) : PathRun (List Char) :=
  if out.length < maxOutSize then .ok (out ++ [c]) else throwFault .write

def putAll (out cs : List Char) : PathRun (List Char) := cs.foldlM (put maxOutSize) out

/-- `dst[total_len] = NullTerminator` -/
def terminate (out : List Char) : PathRun Unit :=
  if out.length < maxOutSize then .ok () else throwFault .write

/-- The separator before a component, if the last one is not to be used again. -/
def putSeparator (out : List Char) (skipNextSep : Bool) : PathRun (List Char) :=
  if skipNextSep then .ok out
  else if out.length + 1 = maxOutSize then do
    terminate maxOutSize out
    throwResult .tooLongPath
  else put maxOutSize out directorySeparator

/-- The loop that backs up to a separator, from `total_len`. -/
def backUp (out : List Char) : ℕ → PathRun ℕ
  | 0 => if out[0]? = some directorySeparator then .ok 0 else throwFault .wrap
  | k + 1 => if out[k + 1]? = some directorySeparator then .ok (k + 1) else if k = 0 then .ok 0 else backUp out k

/-- "Remove the previous component." -/
def removeComponent (out : List Char) : PathRun (List Char) :=
  if out.length = 1 then if isWindowsPath then .ok [] else throwResult .directoryUnobtainable
  else do
    let totalLen ← subSize out.length 2
    let totalLen ← backUp out totalLen
    return out.take totalLen

/-- "Copy, possibly truncating." -/
def copyComponent (out dir : List Char) : PathRun (List Char) :=
  if out.length + dir.length + 1 > maxOutSize then do
    let copyLen ← subSize maxOutSize (out.length + 1)
    let out ← putAll maxOutSize out (dir.take copyLen)
    terminate maxOutSize out
    throwResult .tooLongPath
  else putAll maxOutSize out dir

/-- A component at the start of the path: the destination and `skip_next_sep` after it. -/
def putComponent (cur out : List Char) (skipNextSep : Bool) : PathRun (List Char × Bool) := do
  let dir := cur.takeWhile (· != directorySeparator)
  if !allowAllCharacters && dir.any isInvalidCharacter then throwResult .invalidCharacter
  else if isCurrentDirectory cur then return (out, true)
  else if isParentDirectory cur then return (← removeComponent isWindowsPath out, skipNextSep)
  else return (← copyComponent maxOutSize out dir, skipNextSep)

/-- The path behind its first component and the separators before that. -/
def behindComponent (cur : List Char) : List Char :=
  (cur.dropWhile (· == directorySeparator)).dropWhile (· != directorySeparator)

theorem behindComponent_length_lt {cur : List Char} (h : cur ≠ []) : (behindComponent cur).length < cur.length := by
  have hle : ∀ (l : List Char) (p : Char → Bool), (l.dropWhile p).length ≤ l.length :=
    fun l p => (List.dropWhile_sublist p).length_le
  obtain ⟨c, cs, rfl⟩ := List.exists_cons_of_ne_nil h
  unfold behindComponent
  cases hc : c == directorySeparator with
  | true =>
    simp only [List.dropWhile_cons, hc, if_true]
    calc _ ≤ (cs.dropWhile (· == directorySeparator)).length := hle ..
      _ ≤ cs.length := hle ..
      _ < (c :: cs).length := Nat.lt_succ_self _
  | false =>
    have hc' : (c != directorySeparator) = true := by rw [bne, hc]; rfl
    simp only [List.dropWhile_cons, hc, hc', Bool.false_eq_true, if_false, if_true]
    calc _ ≤ cs.length := hle ..
      _ < (c :: cs).length := Nat.lt_succ_self _

/-- The loop of `Normalize`. -/
def normalizeLoop (cur out : List Char) (skipNextSep : Bool) : PathRun (List Char × Bool) :=
  if _h : cur = [] then .ok (out, skipNextSep)
  else
    let component := cur.dropWhile (· == directorySeparator)
    if cur.head? = some directorySeparator then
      if component = [] then .ok (out, skipNextSep)
      else do
        let out ← putSeparator maxOutSize out skipNextSep
        let (out, skipNextSep) ← putComponent maxOutSize isWindowsPath allowAllCharacters component out false
        normalizeLoop (behindComponent cur) out skipNextSep
    else do
      let (out, skipNextSep) ← putComponent maxOutSize isWindowsPath allowAllCharacters component out skipNextSep
      normalizeLoop (behindComponent cur) out skipNextSep
termination_by cur.length
decreasing_by all_goals exact behindComponent_length_lt _h

/-- `if (skip_next_sep) --total_len` -/
def dropSeparator (out : List Char) (skipNextSep : Bool) : PathRun (List Char) :=
  if skipNextSep then (subSize out.length 1).map fun totalLen => out.take totalLen else .ok out

/-- A destination that has become empty is the root. -/
def rootIfEmpty (out : List Char) : PathRun (List Char) :=
  if out.length = 0 ∧ maxOutSize ≠ 0 then put maxOutSize [] directorySeparator else .ok out

/-- The NUL, and the check that the result is normalized. Whether it is reported so is asserted only. -/
def closePath (out : List Char) : PathRun (List Char) :=
  (subSize out.length 1).bind fun last =>
    if maxOutSize ≥ last then
      (terminate maxOutSize out).bind fun _ =>
        match isNormalized out allowAllCharacters with
        | .error r => throwResult r
        | .ok _ => .ok out
    else throwResult .tooLongPath

/-- The lines after the loop. -/
def finishPath (out : List Char) (skipNextSep : Bool) : PathRun (List Char) := do
  let out ← dropSeparator out skipNextSep
  let out ← rootIfEmpty maxOutSize out
  closePath maxOutSize allowAllCharacters out

/-- The first lines of `Normalize`: a path that is not absolute gets a separator, if it is drive relative. -/
def startPath (path : List Char) (isDriveRelativePath : Bool) : PathRun (List Char) :=
  if path.head? ≠ some directorySeparator then
    if isDriveRelativePath then put maxOutSize [] directorySeparator else throwResult .invalidPathFormat
  else .ok []

/-- "Perform path replacement, if necessary." -/
def replacePath (path : List Char) : PathRun (List Char) :=
  if isParentDirectoryPathReplacementNeeded path then replaceParentDirectoryPath path else .ok path

/-- `PathNormalizer::Normalize`: the path that is written. -/
def normalize (path : List Char) (isDriveRelativePath : Bool) : PathRun (List Char) := do
  let out ← startPath maxOutSize path isDriveRelativePath
  let cur ← replacePath path
  let (out, skipNextSep) ← normalizeLoop maxOutSize isWindowsPath allowAllCharacters cur out false
  finishPath maxOutSize allowAllCharacters out skipNextSep

end Normalize

end PathNormalizer
end FileSys
end Citron
