import Pristine.Lib.ByteMemory

/-!
# Packed records

A packed record is a sequence of little-endian numbers without gaps.  `packed`
gives its bytes and `unpacked` reads such a sequence from memory; reading the
bytes of a record gives back what of each number fits its field
(`unpacked_packed`).
-/

namespace Pristine.Lib

/-- Byte `k` of a record, given its fields as pairs of width and value. -/
def packed : List (Nat × Nat) → ByteMem
  | [], _ => 0
  | (width, value) :: fields, k =>
    if k < width then byteOf value k else packed fields (k - width)

/-- The total width. -/
def packedWidth (fields : List (Nat × Nat)) : Nat := (fields.map Prod.fst).sum

/-- All bytes of a record. -/
def packedBytes (fields : List (Nat × Nat)) : List UInt8 :=
  (List.range (packedWidth fields)).map (packed fields)

theorem length_packedBytes (fields : List (Nat × Nat)) :
    (packedBytes fields).length = packedWidth fields := by
  simp [packedBytes]

theorem getD_packedBytes (fields : List (Nat × Nat)) {k : Nat} (hk : k < packedWidth fields) :
    (packedBytes fields).getD k 0 = packed fields k := by
  simp [packedBytes, List.getD_eq_getElem?_getD, hk]

/-- Read numbers of the given widths from `addr` on. -/
def unpacked (mem : ByteMem) (addr : Nat) : List Nat → List Nat
  | [] => []
  | width :: widths => loadLE mem addr width :: unpacked mem (addr + width) widths

theorem loadLE_byteOf {mem : ByteMem} {addr width value : Nat}
    (hbytes : ∀ k, k < width → mem (addr + k) = byteOf value k) :
    loadLE mem addr width = value % 256 ^ width := by
  rw [← loadLE_storeLE_mod mem addr width value]
  apply loadLE_congr
  intro a hlo hhi
  unfold storeLE
  rw [if_pos ⟨hlo, hhi⟩, ← hbytes (a - addr) (by omega), Nat.add_sub_of_le hlo]

theorem loadLE_of_bytes {mem : ByteMem} {addr width value : Nat} (hvalue : value < 256 ^ width)
    (hbytes : ∀ k, k < width → mem (addr + k) = byteOf value k) :
    loadLE mem addr width = value := by
  rw [loadLE_byteOf hbytes, Nat.mod_eq_of_lt hvalue]

/-- Memory that holds the bytes of a record reads back as what of the record fits its fields. -/
theorem unpacked_packed {mem : ByteMem} {addr : Nat} {fields : List (Nat × Nat)}
    (hbytes : ∀ k, k < packedWidth fields → mem (addr + k) = packed fields k) :
    unpacked mem addr (fields.map Prod.fst) = fields.map fun f => f.2 % 256 ^ f.1 := by
  induction fields generalizing addr with
  | nil => rfl
  | cons field fields ih =>
    obtain ⟨width, value⟩ := field
    have hwidth : packedWidth ((width, value) :: fields) = width + packedWidth fields := by
      simp [packedWidth]
    have hfirst : loadLE mem addr width = value % 256 ^ width := by
      refine loadLE_byteOf ?_
      intro k hk
      rw [hbytes k (by omega), packed, if_pos hk]
    have hrest : unpacked mem (addr + width) (fields.map Prod.fst) =
        fields.map fun f => f.2 % 256 ^ f.1 := by
      refine ih ?_
      intro k hk
      rw [Nat.add_assoc, hbytes (width + k) (by omega), packed, if_neg (by omega),
        Nat.add_sub_cancel_left]
    simp only [List.map_cons, unpacked, hfirst, hrest]

end Pristine.Lib
