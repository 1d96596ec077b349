/-
# Files of the virtual file system

A file has contents and a `Read` that copies what they have from an offset on, as long as the offset is not past their end.
Past the end the files do as they please: some read nothing, and some, which subtract the offset from their size, leave
their data.
-/
import Mathlib.Data.List.Basic

namespace Citron
namespace FileSys

structure VfsFile where
  contents : List UInt8
  /-- The bytes that `Read` copies for a length and an offset, or `none` where it leaves the file's data. -/
  read : ℕ → ℕ → Option (List UInt8)
  read_eq : ∀ length offset, offset ≤ contents.length → read length offset = some ((contents.drop offset).take length)

namespace VfsFile

variable (file : VfsFile)

def getSize : ℕ := file.contents.length

/-- The subtraction of `VectorVfsFile::Read` wraps past the end. -/
def vectorVfsFile (data : List UInt8) : VfsFile where
  contents := data
  read length offset := if offset ≤ data.length then some ((data.drop offset).take length) else none
  read_eq _ _ h := if_pos h

/-- `StaticVfsFile` -/
def staticVfsFile (value : UInt8) (size : ℕ) : VfsFile := vectorVfsFile (List.replicate size value)

/-- A file that reads nothing past its end. -/
def boundedFile (data : List UInt8) : VfsFile where
  contents := data
  read length offset := some ((data.drop offset).take length)
  read_eq _ _ _ := rfl

@[simp] theorem contents_staticVfsFile (value : UInt8) (size : ℕ) :
    (staticVfsFile value size).contents = List.replicate size value := rfl

/-- What is there at an offset is read. -/
theorem read_of_drop {offset : ℕ} {bytes rest : List UInt8} (h : file.contents.drop offset = bytes ++ rest)
    (hoffset : offset ≤ file.contents.length) : file.read bytes.length offset = some bytes := by
  rw [file.read_eq _ _ hoffset, h, List.take_left]

end VfsFile
end FileSys
end Citron
