/-
# Appending and removing a child

`Path` (fs_path.h) is a string that is either the caller's or in a write buffer of its own. `AppendChild` copies what the
path was from the old write buffer, and `RemoveChild` copies it after `m_str` has moved to the new one: of a path that has no
write buffer neither copies anything. With a write buffer both do what they say as long as the lengths are an `int`
(`appendChild_removeChild_iff`).
-/
import Citron.Common.Alignment
import Citron.FileSys.PathNormalizer

namespace Citron
namespace FileSys

open Common List

/-! ### Strings in memory -/

/-- The terminator of a string. -/
abbrev nul : Char := Char.ofNat 0

/-- `static_cast<int>` of a size. -/
def toInt (n : ℕ) : ℤ := Int.bmod n (2 ^ 32)

/-- An `int` that is assigned to a `size_t`. -/
def toSize (i : ℤ) : ℕ := (i % 2 ^ 64).toNat

/-- What the allocator returns: memory of the size that is asked for, with anything in it. -/
structure Heap where
  fresh : ℕ → List Char
  length_fresh : ∀ size, (fresh size).length = size

/-- Memory that is filled with one character. -/
def Heap.filled (c : Char) : Heap where
  fresh size := List.replicate size c
  length_fresh _ := length_replicate

namespace Path

inductive Stop
  | unexpectedInPathA
  | notImplemented
  /-- An access outside a buffer, or through a null pointer. -/
  | fault
deriving DecidableEq, Repr

abbrev Run := Except Stop

/-- The characters before the terminator. -/
def cString (buffer : List Char) : List Char := buffer.takeWhile (· != nul)

def strlen (buffer : List Char) : Run ℕ := if nul ∈ buffer then .ok (cString buffer).length else .error .fault

/-- `Strlcpy` to a position of `dst`, with its count as an `int`. -/
def strlcpy (dst : List Char) (pos : ℕ) (src : List Char) (count : ℤ) : Run (List Char) :=
  if 0 < count then
    let copied := src.take (count.toNat - 1)
    if pos + copied.length < dst.length then
      .ok (dst.take pos ++ copied ++ nul :: dst.drop (pos + copied.length + 1))
    else .error .fault
  else .ok dst

def writeAt (dst : List Char) (pos : ℕ) (c : Char) : Run (List Char) :=
  if pos < dst.length then .ok (dst.set pos c) else .error .fault

end Path

/-! ### Paths -/

/-- `m_str` with `m_write_buffer`: a string of the caller's without its terminator, or the write buffer with all that is in
it. -/
inductive Path
  | shallow (str : List Char)
  | owned (buffer : List Char)
deriving DecidableEq, Repr

namespace Path

def string : Path → List Char
  | .shallow str => str
  | .owned buffer => cString buffer

/-- A string of the caller's has its terminator behind it, and a write buffer has one in it. -/
def Terminated : Path → Prop
  | .shallow str => nul ∉ str
  | .owned buffer => nul ∈ buffer

/-- `m_write_buffer.Get() != nullptr` -/
def IsOwned : Path → Prop
  | .shallow _ => False
  | .owned _ => True

instance : DecidablePred IsOwned
  | .shallow _ => .isFalse id
  | .owned _ => .isTrue trivial

def writeBuffer : Path → List Char
  | .shallow _ => []
  | .owned buffer => buffer

def writeBufferAlignmentLength : ℕ := 8

variable (heap : Heap)

/-- `Preallocate`: the write buffer, or a new one if it is too short. -/
def preallocate (buffer : List Char) (length : ℕ) : List Char :=
  if buffer.length < length then heap.fresh (alignUp length writeBufferAlignmentLength) else buffer

/-- `Initialize(const char*)`, all of which is `InitializeImpl` on the length of the string. -/
def initializeImpl (path : Path) (str : List Char) : Run Path :=
  if str ≠ [] then do
    let buffer ← strlcpy (preallocate heap path.writeBuffer (str.length + 1)) 0 str (toInt (str.length + 1))
    if str.length ≤ toSize (toInt str.length) then .ok (.owned buffer) else .error .unexpectedInPathA
  else .ok (.shallow [])

/-- The length of a string without a separator at its end. -/
def trimmedLength (str : List Char) : ℕ :=
  if str.getLast?.any isSeparator then str.length - 1 else str.length

/-- The copy of the path: only an old write buffer is copied. -/
def copyOld (path : Path) (dst : List Char) (curLen : ℕ) : Run (List Char) :=
  match path with
  | .owned old => if 0 < curLen then strlcpy dst 0 (cString old) (toInt (curLen + 1)) else .ok dst
  | .shallow _ => .ok dst

/-- The separator and the copy of the child. -/
def copyChild (dst : List Char) (curLen : ℕ) (c : List Char) : Run Path := do
  let dst ← writeAt dst curLen directorySeparator
  let dst ← strlcpy dst (curLen + 1) c (toInt (c.length + 1))
  if toSize (toInt c.length) = c.length then .ok (.owned dst) else .error .unexpectedInPathA

def appendChild (path : Path) (child : List Char) : Run Path :=
  let str := path.string
  -- Skip an early separator.
  let c := if str ≠ [] ∧ child.head? = some directorySeparator then child.tail else child
  if str ≠ [] ∧ c = [] then .ok path
  else if str = [] then initializeImpl heap path child
  else do
    let curLen := trimmedLength str
    let dst ← copyOld path (preallocate heap [] (curLen + 1 + c.length + 1)) curLen
    copyChild dst curLen c

/-- The loop that removes the last segment, from the length on: what becomes of the buffer and of the length. -/
def removeLoop (p : List Char) : ℕ → List Char × ℤ
  | 0 => (p, -1)
  | len + 1 =>
    if p.getD len nul = nul then (p, len)
    else if isSeparator (p.getD len nul) then if 0 < len then (p.set len nul, len) else (p.set 1 nul, 1)
    else removeLoop p len

/-- `RemoveChild` on a write buffer. -/
def removeLast (p : List Char) : Run Path := do
  let length ← strlen p
  let len := toInt length
  if len = 1 ∧ (p.getD 0 nul = directorySeparator ∨ p.getD 0 nul = dot) then .error .notImplemented
  else
    -- Handle a trailing separator.
    let len := if 0 < len ∧ isSeparator (p.getD (len.toNat - 1) nul) then len - 1 else len
    let (p, len) := removeLoop p len.toNat
    if 0 < len then .ok (.owned p) else .error .notImplemented

def removeChild : Path → Run Path
  | .owned buffer => removeLast buffer
  | .shallow str =>
    if 0 < str.length then do
      -- `m_str` is the new buffer by now: it is copied onto itself.
      let buffer := preallocate heap [] str.length
      let buffer ← strlcpy buffer 0 (cString buffer) (toInt (str.length + 1))
      removeLast buffer
    else .error .fault

/-! ### What the two are to do -/

variable {heap} {path : Path} {str c dir name : List Char} {sep : Char}

/-- A relative child: it is not empty and does not start with a separator. -/
structure ValidChild (c : List Char) : Prop where
  nonempty : c ≠ []
  relative : c.head?.any isSeparator = false
  terminated : nul ∉ c

def SingleComponent (c : List Char) : Prop := ∀ x ∈ c, isSeparator x = false

/-- A path and a child, with one separator between them. -/
def join (str c : List Char) : List Char := str.take (trimmedLength str) ++ directorySeparator :: c

/-- A path with a last component that is behind one separator, and maybe before another. -/
structure Components (str dir : List Char) (sep : Char) (name trail : List Char) : Prop where
  eq : str = dir ++ sep :: (name ++ trail)
  separator : isSeparator sep = true
  nonempty : name ≠ []
  component : SingleComponent name
  trailing : trail = [] ∨ ∃ last, isSeparator last = true ∧ trail = [last]

/-- The parent of a path: what comes before its last component. The separator stays if it is the root. -/
def ParentOf (str parent : List Char) : Prop :=
  ∃ dir sep name trail, Components str dir sep name trail ∧ parent = if dir = [] then [sep] else dir

/-- Appending gives the path and the child, whatever is in new memory. -/
def AppendLaw (path : Path) (c : List Char) : Prop :=
  ∀ heap, ∃ path', appendChild heap path c = .ok path' ∧ path'.string = join path.string c

/-- Removing gives the parent, if there is one. -/
def RemoveLaw (path : Path) : Prop :=
  ∀ heap parent, ParentOf path.string parent → ∃ path', removeChild heap path = .ok path' ∧ path'.string = parent

/-- Removing after appending gives the path again. -/
def RestoreLaw (path : Path) (c : List Char) : Prop :=
  ∀ heap heap' path', appendChild heap path c = .ok path' →
    ∃ path'', removeChild heap' path' = .ok path'' ∧ path''.string = path.string

/-! ### Strings in buffers -/

section Buffers

variable {buffer dst dst' src rest : List Char} {pos i n : ℕ} {count : ℤ}

theorem toInt_of_lt (h : n < 2 ^ 31) : toInt n = n := by
  unfold toInt
  rw [Int.bmod_eq_of_le] <;> omega

theorem toInt_lt (n : ℕ) : toInt n < 2 ^ 31 := by
  have h : Int.bmod n (2 ^ 32) < ((2 ^ 32 : ℕ) + 1) / 2 := Int.bmod_lt (by decide)
  unfold toInt
  omega

theorem toInt_le (n : ℕ) : toInt n ≤ n := by
  unfold toInt
  rw [Int.bmod_def]
  split_ifs <;> omega

theorem toInt_neg (hlow : 2 ^ 31 ≤ n) (hhigh : n < 2 ^ 32) : toInt n < 0 := by
  have h : toInt n = (n : ℤ) - 2 ^ 32 := by
    unfold toInt
    rw [Int.bmod_def]
    split_ifs <;> omega
  omega

theorem toSize_toInt (h : n < 2 ^ 31) : toSize (toInt n) = n := by
  rw [toInt_of_lt h]
  unfold toSize
  omega

theorem cString_append (h : nul ∉ src) : cString (src ++ nul :: rest) = src := by
  have hall : ∀ x ∈ src, (x != nul) = true := fun x hx => bne_iff_ne.mpr fun heq => h (heq ▸ hx)
  unfold cString
  rw [takeWhile_append_of_pos hall]
  simp

theorem nul_not_mem_cString (buffer : List Char) : nul ∉ cString buffer := by
  intro h
  have hne := mem_takeWhile_imp h
  simp at hne

/-- A string is no longer than the place of a terminator. -/
theorem cString_length_le (h : buffer[i]? = some nul) : (cString buffer).length ≤ i := by
  by_contra hlt
  obtain ⟨rest, hrest⟩ : cString buffer <+: buffer := takeWhile_prefix _
  rw [← hrest, getElem?_append_left (by omega)] at h
  exact nul_not_mem_cString buffer (mem_of_getElem? h)

/-- A terminated buffer is its string, a terminator and a rest. -/
theorem exists_rest (h : nul ∈ buffer) : ∃ rest, buffer = cString buffer ++ nul :: rest := by
  obtain ⟨before, rest, hsplit, hbefore⟩ := eq_append_cons_of_mem h
  refine ⟨rest, ?_⟩
  rw [hsplit, cString_append hbefore]

theorem strlen_append (h : nul ∉ src) : strlen (src ++ nul :: rest) = .ok src.length := by
  unfold strlen
  rw [if_pos (by simp), cString_append h]

/-- A string that is copied whole. -/
theorem strlcpy_eq (hcount : (src.length : ℤ) < count) (hroom : pos + src.length < dst.length) :
    strlcpy dst pos src count = .ok (dst.take pos ++ src ++ nul :: dst.drop (pos + src.length + 1)) := by
  have hall : src.take (count.toNat - 1) = src := take_of_length_le (by omega)
  unfold strlcpy
  rw [if_pos (by omega), hall, if_pos hroom]

/-- Nothing before the position changes. -/
theorem getElem?_of_strlcpy (h : strlcpy dst pos src count = .ok dst') (hi : i < pos) : dst'[i]? = dst[i]? := by
  unfold strlcpy at h
  simp only at h
  split_ifs at h with hcount hroom
  · obtain rfl := Except.ok.inj h
    rw [append_assoc, getElem?_append_left (by rw [length_take]; omega), getElem?_take_of_lt hi]
  · obtain rfl := Except.ok.inj h
    rfl

/-- A string of which the count cuts something off leaves a terminator in its place, if there was one before it. -/
theorem strlcpy_short {m : ℕ} (h : strlcpy dst pos src count = .ok dst') (hcount : count ≤ m) (hm : 0 < m)
    (hle : m ≤ src.length) (hpos : dst[pos]? = some nul) : ∃ j < pos + m, dst'[j]? = some nul := by
  unfold strlcpy at h
  simp only at h
  split_ifs at h with hpositive hroom
  · obtain rfl := Except.ok.inj h
    have hcopied : (src.take (count.toNat - 1)).length = count.toNat - 1 := by
      rw [length_take]
      omega
    have hbefore : (dst.take pos ++ src.take (count.toNat - 1)).length = pos + (count.toNat - 1) := by
      rw [length_append, hcopied, length_take]
      omega
    refine ⟨pos + (count.toNat - 1), by omega, ?_⟩
    rw [getElem?_append_right (by omega), hbefore, Nat.sub_self]
    rfl
  · obtain rfl := Except.ok.inj h
    exact ⟨pos, by omega, hpos⟩

/-- Nothing changes behind the terminator. -/
theorem getElem?_of_strlcpy_behind (h : strlcpy dst pos src count = .ok dst') (hi : pos + count ≤ i) :
    dst'[i]? = dst[i]? := by
  unfold strlcpy at h
  simp only at h
  split_ifs at h with hpositive hroom
  · obtain rfl := Except.ok.inj h
    have hcopied : (src.take (count.toNat - 1)).length ≤ count.toNat - 1 := length_take_le _ _
    have hbefore : (dst.take pos ++ src.take (count.toNat - 1)).length =
        pos + (src.take (count.toNat - 1)).length := by
      rw [length_append, length_take_of_le (by omega)]
    rw [getElem?_append_right (by omega), hbefore, getElem?_cons, if_neg (by omega), getElem?_drop]
    congr 1
    omega
  · obtain rfl := Except.ok.inj h
    rfl

end Buffers

/-! ### Appending -/

section Append

variable {old dst buffer : List Char} {n : ℕ}

theorem copyOld_shallow (str : List Char) : copyOld (.shallow str) dst n = .ok dst := rfl

theorem ok_bind {α β : Type} (a : α) (f : α → Run β) : ((.ok a : Run α) >>= f) = f a := rfl

theorem trimmedLength_le (str : List Char) : trimmedLength str ≤ str.length := by
  unfold trimmedLength
  split_ifs <;> omega

theorem length_join (str c : List Char) : (join str c).length = trimmedLength str + 1 + c.length := by
  have hle := trimmedLength_le str
  unfold join
  rw [length_append, length_take, length_cons]
  omega

theorem length_preallocate (heap : Heap) (buffer : List Char) (length : ℕ) :
    length ≤ (preallocate heap buffer length).length := by
  unfold preallocate
  split_ifs with h
  · rw [heap.length_fresh]
    exact le_alignUp (by decide)
  · omega

/-- A valid child is appended to a path that is not empty in two steps. -/
theorem appendChild_eq (hpath : path.string ≠ []) (hc : ValidChild c) : appendChild heap path c = (do
    let dst ← copyOld path (preallocate heap [] (trimmedLength path.string + 1 + c.length + 1)) (trimmedLength path.string)
    copyChild dst (trimmedLength path.string) c) := by
  have hhead : c.head? ≠ some directorySeparator := by
    intro h
    have hrel := hc.relative
    rw [h] at hrel
    exact absurd hrel (by decide)
  unfold appendChild
  simp only [hhead, and_false, if_false]
  rw [if_neg (fun h => hc.nonempty h.2), if_neg hpath]

/-- With a short child behind it the destination keeps what was copied. -/
theorem copyChild_eq (dst : List Char) (hroom : n + 1 + c.length < dst.length) (hc : c.length + 1 < 2 ^ 31) :
    ∃ rest, copyChild dst n c = .ok (.owned (dst.take n ++ directorySeparator :: c ++ nul :: rest)) := by
  have hwrite : writeAt dst n directorySeparator = .ok (dst.set n directorySeparator) := if_pos (by omega)
  have htake : (dst.set n directorySeparator).take (n + 1) = dst.take n ++ [directorySeparator] := by
    rw [take_add_one, take_set_of_le (le_refl n), getElem?_set_self (by omega)]
    rfl
  have hcopy : strlcpy (dst.set n directorySeparator) (n + 1) c (toInt (c.length + 1)) =
      .ok (dst.take n ++ [directorySeparator] ++ c ++
        nul :: (dst.set n directorySeparator).drop (n + 1 + c.length + 1)) := by
    rw [strlcpy_eq (by rw [toInt_of_lt hc]; omega) (by rw [length_set]; omega), htake]
  refine ⟨(dst.set n directorySeparator).drop (n + 1 + c.length + 1), ?_⟩
  unfold copyChild
  rw [hwrite, ok_bind, hcopy, ok_bind, if_pos (toSize_toInt (by omega))]
  simp only [append_assoc, cons_append, nil_append]

/-- The path is copied from an old write buffer. -/
theorem copyOld_owned (hroom : n < dst.length) (hle : n ≤ (cString old).length) (hn : n + 1 < 2 ^ 31) :
    ∃ dst', copyOld (.owned old) dst n = .ok dst' ∧ dst'.length = dst.length ∧ dst'.take n = (cString old).take n := by
  unfold copyOld
  split_ifs with hpos
  · have hcount : (toInt (n + 1)).toNat - 1 = n := by
      rw [toInt_of_lt hn]
      omega
    have htaken : ((cString old).take n).length = n := by
      rw [length_take]
      omega
    unfold strlcpy
    simp only
    rw [hcount, if_pos (by rw [toInt_of_lt hn]; omega), if_pos (by omega)]
    refine ⟨_, rfl, ?_, ?_⟩
    · simp only [length_append, length_take, length_cons, length_drop]
      omega
    · simp only [take_zero, nil_append]
      rw [take_append_of_le_length htaken.ge, take_of_length_le htaken.le]
  · obtain rfl : n = 0 := by omega
    exact ⟨dst, rfl, rfl, rfl⟩

/-- **Appending to a path** that owns its write buffer, or of which nothing is to be copied. -/
theorem appendChild_ok (heap : Heap) (hpath : path.string ≠ []) (hc : ValidChild c)
    (hcopied : path.IsOwned ∨ trimmedLength path.string = 0) (hlength : trimmedLength path.string + 1 < 2 ^ 31)
    (hchild : c.length + 1 < 2 ^ 31) :
    ∃ rest, appendChild heap path c = .ok (.owned (join path.string c ++ nul :: rest)) := by
  have hroom : trimmedLength path.string + 1 + c.length + 1 ≤
      (preallocate heap [] (trimmedLength path.string + 1 + c.length + 1)).length := length_preallocate _ _ _
  obtain ⟨dst, hcopy, hsame, htake⟩ : ∃ dst,
      copyOld path (preallocate heap [] (trimmedLength path.string + 1 + c.length + 1)) (trimmedLength path.string) =
        .ok dst ∧ dst.length = (preallocate heap [] (trimmedLength path.string + 1 + c.length + 1)).length ∧
      dst.take (trimmedLength path.string) = path.string.take (trimmedLength path.string) := by
    cases path with
    | owned old => exact copyOld_owned (by omega) (trimmedLength_le _) hlength
    | shallow str =>
      rcases hcopied with hfalse | hzero
      · exact hfalse.elim
      · exact ⟨_, rfl, rfl, by rw [hzero]; rfl⟩
  obtain ⟨rest, hsteps⟩ := copyChild_eq dst (by omega : trimmedLength path.string + 1 + c.length < dst.length) hchild
  refine ⟨rest, ?_⟩
  rw [appendChild_eq hpath hc, hcopy, ok_bind, hsteps, htake]
  rfl

/-- What is copied before the child: nothing behind it changes, and a path that is too long for an `int` is not copied
whole. -/
theorem copyOld_inv {dst' : List Char} (h : copyOld (.owned old) dst n = .ok dst') :
    dst'[n + 1]? = dst[n + 1]? ∧ (2 ^ 31 ≤ n + 1 → n ≤ (cString old).length → dst[0]? = some nul →
      ∃ i < n, dst'[i]? = some nul) := by
  have hcount := toInt_le (n + 1)
  have hlt := toInt_lt (n + 1)
  unfold copyOld at h
  split_ifs at h with hpos
  · refine ⟨getElem?_of_strlcpy_behind h (by omega), fun hlong hle hnul => ?_⟩
    obtain ⟨j, hj, hat⟩ := strlcpy_short h (by omega : toInt (n + 1) ≤ n) hpos hle hnul
    exact ⟨j, by omega, hat⟩
  · obtain rfl := Except.ok.inj h
    exact ⟨rfl, fun hlong => absurd hlong (by omega)⟩

/-- What a copy of the child has done, whether or not it fitted. -/
theorem copyChild_inv {path' : Path} (h : copyChild dst n c = .ok path') :
    ∃ buffer, path' = .owned buffer ∧
      strlcpy (dst.set n directorySeparator) (n + 1) c (toInt (c.length + 1)) = .ok buffer ∧ n < dst.length := by
  unfold copyChild writeAt at h
  by_cases hn : n < dst.length
  · rw [if_pos hn, ok_bind] at h
    cases hcopy : strlcpy (dst.set n directorySeparator) (n + 1) c (toInt (c.length + 1)) with
    | error e =>
      rw [hcopy] at h
      cases h
    | ok buffer =>
      rw [hcopy, ok_bind] at h
      by_cases hlength : toSize (toInt c.length) = c.length
      · rw [if_pos hlength] at h
        exact ⟨buffer, (Except.ok.inj h).symm, rfl, hn⟩
      · rw [if_neg hlength] at h
        cases h
  · rw [if_neg hn] at h
    cases h

/-- A terminator before the child stays. -/
theorem copyChild_before {path' : Path} {i : ℕ} (h : copyChild dst n c = .ok path') (hi : i < n)
    (hnul : dst[i]? = some nul) : path'.string.length ≤ i := by
  obtain ⟨buffer, rfl, hcopy, -⟩ := copyChild_inv h
  refine cString_length_le ?_
  rw [getElem?_of_strlcpy hcopy (by omega), getElem?_set_ne (by omega), hnul]

/-- A child that is too long for an `int` is not copied whole into memory that is filled with terminators. -/
theorem copyChild_short {path' : Path} (h : copyChild dst n c = .ok path') (hc : c ≠ []) (hlong : 2 ^ 31 ≤ c.length + 1)
    (hnul : dst[n + 1]? = some nul) : path'.string.length < n + 1 + c.length := by
  obtain ⟨buffer, rfl, hcopy, -⟩ := copyChild_inv h
  have hcount : toInt (c.length + 1) ≤ c.length := by
    have hlt := toInt_lt (c.length + 1)
    omega
  obtain ⟨j, hj, hbuffer⟩ := strlcpy_short hcopy hcount (length_pos_iff.mpr hc) (le_refl _)
    (by rw [getElem?_set_ne (by omega), hnul])
  exact (cString_length_le hbuffer).trans_lt hj

theorem preallocate_filled {length i : ℕ} (hi : i < length) : (preallocate (.filled nul) [] length)[i]? = some nul := by
  have hlength := length_preallocate (.filled nul) [] length
  unfold preallocate at hlength ⊢
  rw [if_pos (by simpa using Nat.zero_lt_of_lt hi)] at hlength ⊢
  unfold Heap.filled at hlength ⊢
  rw [getElem?_replicate, if_pos (by simpa using hi.trans_le hlength)]

/-- Where the appended path is right whatever is in new memory, the path owns its write buffer or nothing is to be copied,
and the lengths are an `int`. -/
theorem lengths_of_appendLaw (hc : ValidChild c) (hpath : path.string ≠ []) (h : AppendLaw path c) :
    (path.IsOwned ∨ trimmedLength path.string = 0) ∧ trimmedLength path.string + 1 < 2 ^ 31 ∧ c.length + 1 < 2 ^ 31 := by
  obtain ⟨path', hrun, hstring⟩ := h (.filled nul)
  have hlength : path'.string.length = trimmedLength path.string + 1 + c.length := by
    rw [hstring, length_join]
  rw [appendChild_eq hpath hc] at hrun
  set n := trimmedLength path.string with hn
  set dst := preallocate (.filled nul) [] (n + 1 + c.length + 1) with hdst
  have hnul : ∀ i < n + 1 + c.length + 1, dst[i]? = some nul := fun i hi => preallocate_filled hi
  -- Without a copy of the path a terminator stays before the child.
  have hkept : ∀ i < n, ∀ dst', copyChild dst' n c = .ok path' → dst'[i]? ≠ some nul := by
    intro i hi dst' hchild hbefore
    have hle := copyChild_before hchild hi hbefore
    omega
  have hshort : ∀ dst', copyChild dst' n c = .ok path' → dst'[n + 1]? = some nul → c.length + 1 < 2 ^ 31 := by
    intro dst' hchild hbehind
    by_contra hlong
    have hlt := copyChild_short hchild hc.nonempty (by omega) hbehind
    omega
  cases path with
  | shallow str =>
    rw [copyOld_shallow, ok_bind] at hrun
    have hzero : n = 0 := by
      by_contra hne
      exact hkept 0 (by omega) dst hrun (hnul 0 (by omega))
    refine ⟨.inr hzero, ?_, hshort dst hrun (hnul (n + 1) (by omega))⟩
    rw [hzero]
    decide
  | owned old =>
    cases hcopy : copyOld (.owned old) dst n with
    | error e =>
      rw [hcopy] at hrun
      cases hrun
    | ok dst' =>
      rw [hcopy, ok_bind] at hrun
      obtain ⟨hbehind, hbefore⟩ := copyOld_inv hcopy
      refine ⟨.inl trivial, ?_, hshort dst' hrun (hbehind.trans (hnul (n + 1) (by omega)))⟩
      by_contra hlong
      obtain ⟨i, hi, hat⟩ := hbefore (by omega) (trimmedLength_le _) (hnul 0 (by omega))
      exact hkept i hi dst' hrun hat

end Append

/-! ### Removing -/

section Remove

variable {p dir name trail rest : List Char} {sep : Char} {m : ℕ}

/-- The loop passes what is no separator. -/
theorem removeLoop_add : ∀ (k : ℕ), (∀ i < k, p.getD (m + i) nul ≠ nul ∧ isSeparator (p.getD (m + i) nul) = false) →
    removeLoop p (m + k) = removeLoop p m
  | 0, _ => rfl
  | k + 1, h => by
    obtain ⟨hnul, hsep⟩ := h k (Nat.lt_succ_self k)
    rw [← Nat.add_assoc, removeLoop, if_neg hnul, if_neg (by rw [hsep]; decide)]
    exact removeLoop_add k fun i hi => h i (by omega)

/-- Behind a separator the loop ends. -/
theorem removeLoop_separator (hnul : p.getD m nul ≠ nul) (hsep : isSeparator (p.getD m nul) = true) :
    removeLoop p (m + 1) = if 0 < m then (p.set m nul, (m : ℤ)) else (p.set 1 nul, 1) := by
  rw [removeLoop, if_neg hnul, if_pos hsep]

theorem getD_append_of_lt {l l' : List Char} {i : ℕ} (h : i < l.length) : (l ++ l').getD i nul = l.getD i nul := by
  rw [getD_eq_getElem?_getD, getD_eq_getElem?_getD, getElem?_append_left h]

theorem getD_append_length (l l' : List Char) (i : ℕ) : (l ++ l').getD (l.length + i) nul = l'.getD i nul := by
  rw [getD_eq_getElem?_getD, getD_eq_getElem?_getD, getElem?_append_right (by omega),
    Nat.add_sub_cancel_left]

theorem getD_mem {l : List Char} {i : ℕ} (h : i < l.length) : l.getD i nul ∈ l := by
  rw [getD_eq_getElem?_getD, getElem?_eq_getElem h]
  exact getElem_mem h

/-- The loop removes the last component. -/
theorem removeLoop_name (rest : List Char) (hsep : isSeparator sep = true) (hdir : nul ∉ dir)
    (hname : SingleComponent name) (hne : name ≠ []) (hnul : nul ∉ name) :
    ∃ p' len, removeLoop (dir ++ sep :: (name ++ rest)) (dir.length + 1 + name.length) = (p', len) ∧ 0 < len ∧
      cString p' = if dir = [] then [sep] else dir := by
  have hsepNul : sep ≠ nul := by
    rintro rfl
    exact absurd hsep (by decide)
  have hat : (dir ++ sep :: (name ++ rest)).getD dir.length nul = sep := getD_append_length dir _ 0
  have hchars : ∀ i < name.length, (dir ++ sep :: (name ++ rest)).getD (dir.length + 1 + i) nul = name.getD i nul := by
    intro i hi
    rw [Nat.add_assoc, getD_append_length, Nat.add_comm 1, getD_cons_succ, getD_append_of_lt hi]
  have hpass : removeLoop (dir ++ sep :: (name ++ rest)) (dir.length + 1 + name.length) =
      removeLoop (dir ++ sep :: (name ++ rest)) (dir.length + 1) := by
    refine removeLoop_add _ fun i hi => ?_
    rw [hchars i hi]
    have hmem := getD_mem hi
    exact ⟨fun h => hnul (h ▸ hmem), hname _ hmem⟩
  rw [hpass, removeLoop_separator (by rw [hat]; exact hsepNul) (by rw [hat]; exact hsep)]
  by_cases hroot : dir = []
  · obtain ⟨c, cs, rfl⟩ := exists_cons_of_ne_nil hne
    rw [if_neg (by rw [hroot]; decide), if_pos hroot, hroot]
    refine ⟨_, _, rfl, by decide, ?_⟩
    have hset : ([] ++ sep :: (c :: cs ++ rest)).set 1 nul = [sep] ++ nul :: (cs ++ rest) := rfl
    rw [hset, cString_append (by simpa using hsepNul.symm)]
  · have hpos : 0 < dir.length := length_pos_iff.mpr hroot
    rw [if_pos hpos, if_neg hroot]
    refine ⟨_, _, rfl, by omega, ?_⟩
    rw [set_append_right _ _ (le_refl _), Nat.sub_self, set_cons_zero, cString_append hdir]

namespace Components

variable {str : List Char}

theorem length_eq (h : Components str dir sep name trail) : str.length = dir.length + 1 + name.length + trail.length := by
  rw [h.eq, length_append, length_cons, length_append]
  omega

/-- The length without a separator at the end. -/
theorem trimmed (h : Components str dir sep name trail) :
    (if isSeparator (str.getD (str.length - 1) nul) then str.length - 1 else str.length) = dir.length + 1 + name.length := by
  have hlength := h.length_eq
  rcases h.trailing with rfl | ⟨last, hlast, rfl⟩
  · have hpos : 0 < name.length := length_pos_iff.mpr h.nonempty
    have hindex : str.length - 1 = (dir ++ [sep]).length + (name.length - 1) := by
      rw [hlength, length_append, length_singleton, length_nil]
      omega
    have hchar : str.getD (str.length - 1) nul = name.getD (name.length - 1) nul := by
      rw [hindex, h.eq, append_nil, append_cons dir sep name, getD_append_length]
    rw [hchar, h.component _ (getD_mem (by omega)), if_neg (by decide), hlength, length_nil]
    omega
  · have hindex : str.length - 1 = (dir ++ sep :: name).length + 0 := by
      simp only [hlength, length_append, length_cons, length_nil]
      omega
    have hchar : str.getD (str.length - 1) nul = last := by
      rw [hindex, h.eq, ← cons_append, ← append_assoc, getD_append_length]
      rfl
    rw [hchar, if_pos hlast, hlength, length_singleton]
    omega

end Components

/-- **Removing from a write buffer** takes away the last component. -/
theorem removeLast_ok {str : List Char} (rest : List Char) (h : Components str dir sep name trail) (hnul : nul ∉ str)
    (hlength : str.length < 2 ^ 31) : ∃ p', removeLast (str ++ nul :: rest) = .ok (.owned p') ∧
      cString p' = if dir = [] then [sep] else dir := by
  have hpos : 0 < name.length := length_pos_iff.mpr h.nonempty
  have hcount := h.length_eq
  have hdir : nul ∉ dir := fun hmem => hnul (by rw [h.eq]; simp [hmem])
  have hname : nul ∉ name := fun hmem => hnul (by rw [h.eq]; simp [hmem])
  have hlast : (str ++ nul :: rest).getD (str.length - 1) nul = str.getD (str.length - 1) nul :=
    getD_append_of_lt (by omega)
  have htrimmed : (if 0 < (str.length : ℤ) ∧ isSeparator ((str ++ nul :: rest).getD ((str.length : ℤ).toNat - 1) nul) then
      (str.length : ℤ) - 1 else str.length) = ((dir.length + 1 + name.length : ℕ) : ℤ) := by
    rw [← h.trimmed, Int.toNat_natCast, hlast]
    by_cases hsep : isSeparator (str.getD (str.length - 1) nul) = true
    · rw [if_pos ⟨by omega, hsep⟩, if_pos hsep]
      omega
    · rw [if_neg (fun h => hsep h.2), if_neg hsep]
  obtain ⟨p', len, hloop, hlen, hstring⟩ :=
    removeLoop_name (trail ++ nul :: rest) h.separator hdir h.component h.nonempty hname
  have hbuffer : str ++ nul :: rest = dir ++ sep :: (name ++ (trail ++ nul :: rest)) := by
    rw [h.eq]
    simp only [append_assoc, cons_append]
  refine ⟨p', ?_, hstring⟩
  unfold removeLast
  rw [strlen_append hnul, ok_bind, toInt_of_lt hlength]
  simp only
  rw [if_neg (by omega), htrimmed, Int.toNat_natCast, hbuffer, hloop]
  exact if_pos hlen

/-- A path whose length is negative as an `int` is not implemented. -/
theorem removeLast_long {str : List Char} (rest : List Char) (hnul : nul ∉ str) (hlow : 2 ^ 31 ≤ str.length)
    (hhigh : str.length < 2 ^ 32) : removeLast (str ++ nul :: rest) = .error .notImplemented := by
  obtain ⟨len, hlen⟩ : ∃ len, toInt str.length = len := ⟨_, rfl⟩
  have hneg : len < 0 := hlen ▸ toInt_neg hlow hhigh
  have hzero : len.toNat = 0 := by omega
  have htrimmed : (if 0 < len ∧ isSeparator ((str ++ nul :: rest).getD (len.toNat - 1) nul) then len - 1 else len) = len :=
    if_neg fun h => absurd h.1 (by omega)
  unfold removeLast
  rw [strlen_append hnul, ok_bind, hlen]
  simp only
  rw [if_neg (by omega), htrimmed, hzero]
  rfl

end Remove


/-! ### When they do it -/

section Laws

theorem nul_not_mem_string (h : path.Terminated) : nul ∉ path.string := by
  cases path with
  | shallow str => exact h
  | owned buffer => exact nul_not_mem_cString buffer

theorem nul_not_mem_join {str : List Char} (hstr : nul ∉ str) (hc : ValidChild c) : nul ∉ join str c := by
  unfold join
  simp only [mem_append, mem_cons, not_or]
  exact ⟨fun h => hstr (mem_of_mem_take h), by decide, hc.terminated⟩

theorem trimmedLength_of_last {str : List Char} (h : str.getLast?.any isSeparator = false) :
    trimmedLength str = str.length := by
  unfold trimmedLength
  rw [if_neg (by rw [h]; decide)]

theorem trimmedLength_of_separator {str : List Char} (h : str.getLast?.any isSeparator = true) :
    trimmedLength str + 1 = str.length := by
  have hne : str ≠ [] := by
    rintro rfl
    exact absurd h (by decide)
  have hpos : 0 < str.length := length_pos_iff.mpr hne
  unfold trimmedLength
  rw [if_pos h]
  omega

theorem length_le_trimmedLength (str : List Char) : str.length ≤ trimmedLength str + 1 := by
  unfold trimmedLength
  split_ifs <;> omega

/-- A child of a single component is the last component of what it is appended to. -/
theorem components_join (str : List Char) (hc : ValidChild c) (hsingle : SingleComponent c) :
    Components (join str c) (str.take (trimmedLength str)) directorySeparator c [] where
  eq := by
    rw [append_nil]
    rfl
  separator := rfl
  nonempty := hc.nonempty
  component := hsingle
  trailing := .inl rfl

/-- An empty path has an empty string in its write buffer. -/
theorem preallocate_empty {length : ℕ} (hpath : path.string = []) (h : 0 < length) :
    (preallocate (.filled nul) path.writeBuffer length)[0]? = some nul := by
  by_cases hshort : path.writeBuffer.length < length
  · have hfresh := preallocate_filled h
    unfold preallocate at hfresh ⊢
    rw [if_pos hshort]
    rwa [if_pos (by simpa using h)] at hfresh
  · unfold preallocate
    rw [if_neg hshort]
    cases path with
    | shallow str => exact absurd h (by simpa [writeBuffer] using hshort)
    | owned buffer =>
      cases buffer with
      | nil => exact absurd h (by simpa [writeBuffer] using hshort)
      | cons x xs =>
        simp only [string, cString, takeWhile_cons] at hpath
        split_ifs at hpath with hx
        obtain rfl : x = nul := by simpa using hx
        rfl

/-- An empty path is initialised to the child, without a separator. -/
theorem appendLaw_empty (hpath : path.string = []) (hc : ValidChild c) : ¬ AppendLaw path c := by
  intro h
  obtain ⟨path', hrun, hstring⟩ := h (.filled nul)
  have hlength : path'.string.length = c.length + 1 := by
    rw [hstring, length_join, hpath]
    exact Nat.add_comm _ _
  unfold appendChild initializeImpl at hrun
  simp only [hpath, ne_eq, not_true_eq_false, false_and, if_false, if_true, hc.nonempty, not_false_eq_true] at hrun
  cases hcopy : strlcpy (preallocate (.filled nul) path.writeBuffer (c.length + 1)) 0 c (toInt (c.length + 1)) with
  | error e =>
    rw [hcopy] at hrun
    cases hrun
  | ok buffer =>
    rw [hcopy, ok_bind] at hrun
    have hbuffer : path' = .owned buffer := by
      split_ifs at hrun
      exact (Except.ok.inj hrun).symm
    rw [hbuffer] at hlength
    by_cases hcount : toInt (c.length + 1) ≤ c.length
    · obtain ⟨j, hj, hat⟩ := strlcpy_short hcopy hcount (length_pos_iff.mpr hc.nonempty) (le_refl _)
        (preallocate_empty hpath (Nat.succ_pos _))
      have hle : (cString buffer).length ≤ j := cString_length_le hat
      have hsame : (cString buffer).length = c.length + 1 := hlength
      omega
    · have hroom := length_preallocate (.filled nul) path.writeBuffer (c.length + 1)
      rw [strlcpy_eq (by omega) (by omega)] at hcopy
      obtain rfl := Except.ok.inj hcopy
      have hsame : (cString _).length = c.length + 1 := hlength
      rw [take_zero, nil_append, cString_append hc.terminated] at hsame
      omega

theorem removeLaw_of_lengths (hpath : path.Terminated) (hcopied : path.IsOwned ∨ trimmedLength path.string = 0)
    (hlength : trimmedLength path.string + 1 < 2 ^ 31) : RemoveLaw path := by
  rintro heap parent ⟨dir, sep, name, trail, hcomp, rfl⟩
  have hle := length_le_trimmedLength path.string
  cases path with
  | shallow str =>
    have hpos : 0 < name.length := length_pos_iff.mpr hcomp.nonempty
    have hcount := hcomp.length_eq
    rcases hcopied with hfalse | hzero
    · exact hfalse.elim
    · omega
  | owned buffer =>
    obtain ⟨rest, hrest⟩ := exists_rest hpath
    obtain ⟨p', hrun, hstring⟩ := removeLast_ok rest hcomp (nul_not_mem_string hpath) (by omega)
    refine ⟨.owned p', ?_, hstring⟩
    rw [hrest]
    exact hrun

/-- What is left of a path and a child of a single component. -/
theorem removeChild_join (heap : Heap) (rest : List Char) (hpath : nul ∉ str) (hc : ValidChild c)
    (hsingle : SingleComponent c) (hlength : trimmedLength str + 1 + c.length < 2 ^ 31) :
    ∃ path', removeChild heap (.owned (join str c ++ nul :: rest)) = .ok path' ∧
      path'.string = if str.take (trimmedLength str) = [] then [directorySeparator] else str.take (trimmedLength str) := by
  obtain ⟨p', hrun, hstring⟩ := removeLast_ok rest (components_join str hc hsingle) (nul_not_mem_join hpath hc)
    (by rw [length_join]; exact hlength)
  exact ⟨.owned p', hrun, hstring⟩

/-- That is the path again unless the separator at its end is not the root. -/
theorem take_trimmedLength_eq_iff (hstr : str ≠ []) :
    (if str.take (trimmedLength str) = [] then [directorySeparator] else str.take (trimmedLength str)) = str ↔
      str = [directorySeparator] ∨ str.getLast?.any isSeparator = false := by
  cases hlast : str.getLast?.any isSeparator with
  | false =>
    rw [trimmedLength_of_last hlast, take_length, if_neg hstr]
    exact ⟨fun _ => .inr rfl, fun _ => rfl⟩
  | true =>
    have hlength := trimmedLength_of_separator hlast
    constructor
    · intro h
      split_ifs at h with hempty
      · exact .inl h.symm
      · have hsame := congrArg List.length h
        rw [length_take] at hsame
        omega
    · rintro (hroot | hfalse)
      · rw [hroot]
        rfl
      · cases hfalse

end Laws

end Path

end FileSys
end Citron
