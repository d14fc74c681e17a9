import Pristine.Lib.ByteMemory

/-!
# Files of bytes

A file has a size and bytes below it.  Writing past the end makes the file
larger, with zeros in a gap; reading stops at the end.
-/

namespace Pristine.Lib

/-- A file on the host. -/
structure HostFile where
  size : Nat
  bytes : ByteMem

namespace HostFile

variable (f : HostFile)

/-- Write bytes at an offset. -/
def write (offset : Nat) (data : List UInt8) : HostFile :=
  if data = [] then f
  else
    { size := max f.size (offset + data.length)
      bytes := storeBytes (fill f.bytes f.size (offset - f.size) 0) offset data }

/-- Read up to `count` bytes at an offset. -/
def read (offset count : Nat) : List UInt8 :=
  bytesAt f.bytes offset (min count (f.size - offset))

variable {f} {offset a count : Nat} {data : List UInt8}

/-- A write inside the file keeps its size. -/
theorem write_size (hend : offset + data.length ≤ f.size) : (f.write offset data).size = f.size := by
  unfold write
  split
  · rfl
  · exact Nat.max_eq_left hend

theorem write_bytes (hend : offset + data.length ≤ f.size) (a : Nat) :
    (f.write offset data).bytes a = storeBytes f.bytes offset data a := by
  unfold write
  split
  · rename_i hnil
    rw [hnil, storeBytes_of_outside]
    simp only [List.length_nil]
    omega
  · show storeBytes (fill f.bytes f.size (offset - f.size) 0) offset data a = _
    unfold storeBytes
    rw [fill_of_outside]
    omega

/-- The bytes a write leaves alone. -/
theorem write_outside (hend : offset + data.length ≤ f.size)
    (hout : a < offset ∨ offset + data.length ≤ a) : (f.write offset data).bytes a = f.bytes a := by
  rw [write_bytes hend, storeBytes_of_outside f.bytes hout]

/-- A write that may make the file larger keeps the bytes it does not cover. -/
theorem write_keep (ha : a < f.size) (hout : a < offset ∨ offset + data.length ≤ a) :
    (f.write offset data).bytes a = f.bytes a := by
  unfold write
  split
  · rfl
  · show storeBytes (fill f.bytes f.size (offset - f.size) 0) offset data a = _
    rw [storeBytes_of_outside _ hout, fill_of_outside _ (Or.inl ha)]

theorem write_size_max (hdata : data ≠ []) :
    (f.write offset data).size = max f.size (offset + data.length) := by
  unfold write
  rw [if_neg hdata]

theorem le_size_write : f.size ≤ (f.write offset data).size := by
  unfold write
  split
  · exact le_rfl
  · exact Nat.le_max_left _ _

/-- The bytes a write covers. -/
theorem write_covered {k : Nat} (hk : k < data.length) :
    (f.write offset data).bytes (offset + k) = data.getD k 0 := by
  have hdata : data ≠ [] := by
    rintro rfl
    exact absurd hk (Nat.not_lt_zero k)
  unfold write
  rw [if_neg hdata]
  show storeBytes _ offset data (offset + k) = _
  unfold storeBytes
  rw [if_pos (by omega), Nat.add_sub_cancel_left]

/-- The file has a byte with a value. -/
def Holds (f : HostFile) (a : Nat) (value : UInt8) : Prop := a < f.size ∧ f.bytes a = value

/-- A write puts its bytes into the file. -/
theorem holds_write {k : Nat} (hk : k < data.length) :
    (f.write offset data).Holds (offset + k) (data.getD k 0) := by
  refine ⟨?_, write_covered hk⟩
  rw [write_size_max (List.ne_nil_of_length_pos (Nat.zero_lt_of_lt hk))]
  omega

/-- A write elsewhere leaves a byte in the file. -/
theorem Holds.write {value : UInt8} (hholds : f.Holds a value)
    (hout : a < offset ∨ offset + data.length ≤ a) : (f.write offset data).Holds a value := by
  refine ⟨?_, (write_keep hholds.1 hout).trans hholds.2⟩
  have hlt := hholds.1
  unfold HostFile.write
  split
  · exact hlt
  · exact Nat.lt_of_lt_of_le hlt (Nat.le_max_left _ _)

/-- A read inside the file is complete. -/
theorem read_inside (hend : offset + count ≤ f.size) :
    f.read offset count = bytesAt f.bytes offset count := by
  unfold read
  rw [Nat.min_eq_left (by omega)]

end HostFile

end Pristine.Lib
