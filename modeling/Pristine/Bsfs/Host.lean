import Mathlib.Tactic

/-!
# The host's file system

What `bsfs-populate` and `bsfs-extract` see of the host: directories that list
names and types, files with contents, and paths as C strings.  The tools build
paths with `snprintf` into a buffer of `PATH_MAX` bytes, which cuts off longer
ones.
-/

namespace Pristine.Bsfs

/-- The bytes of a C string before its terminator. -/
structure CString where
  bytes : List UInt8
  noNul : 0 ∉ bytes
  deriving DecidableEq

namespace CString

/-- `"."`. -/
def dot : CString := ⟨[46], by decide⟩

/-- `".."`. -/
def dotDot : CString := ⟨[46, 46], by decide⟩

def length (s : CString) : Nat := s.bytes.length

/-- `"%s/%s"`. -/
def join (path name : CString) : CString where
  bytes := path.bytes ++ 47 :: name.bytes
  noNul := by
    have hpath := path.noNul
    have hname := name.noNul
    simp [hpath, hname]

/-- What `snprintf` leaves in a buffer of `size` bytes. -/
def snprintf (size : Nat) (s : CString) : CString where
  bytes := s.bytes.take (size - 1)
  noNul := fun hmem => s.noNul (List.mem_of_mem_take hmem)

/-- A string that fits its buffer is not cut off. -/
theorem snprintf_of_lt {size : Nat} {s : CString} (hlen : s.length < size) : s.snprintf size = s := by
  cases s with
  | mk bytes noNul =>
    simp only [snprintf, mk.injEq]
    exact List.take_of_length_le (by simp only [length] at hlen; omega)

end CString

/-- `PATH_MAX`. -/
def pathMax : Nat := 4096

/-- `subpath`. -/
def subpath (path name : CString) : CString := (path.join name).snprintf pathMax

/-- `d_type`. -/
inductive DirentType where
  | dir
  | reg
  | unknown
  | other (type : Nat)
  deriving DecidableEq, Repr

/-- What `readdir` returns. -/
structure HostDirent where
  name : CString
  type : DirentType
  deriving DecidableEq

/-- The host, as the tools see it. -/
structure HostFs where
  /-- the directory entries that `readdir` returns after `opendir`, `"."` and `".."` included -/
  opendir : CString → Option (List HostDirent)
  /-- the bytes that `fread` returns after `fopen(path, "rb")` -/
  fopen : CString → Option (List UInt8)
  /-- `time(NULL)` when a directory is opened -/
  time : CString → UInt64

end Pristine.Bsfs
