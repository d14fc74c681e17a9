import Mathlib.Tactic

/-!
# Flat byte memories with little-endian words

A memory is a total map from addresses to bytes.  Words of any width are read
and written little-endian, as an x86 load or store does.  The library fixes
three facts about such accesses and nothing else:

* a load sees exactly the bytes of its range (`loadLE_congr`), bit by bit
  (`testBit_loadLE`);
* a load of a stored word returns the word (`loadLE_storeLE_same`);
* a store is invisible outside its range (`loadLE_storeLE_disjoint`).
-/

namespace Pristine.Lib

/-- A flat byte memory. -/
abbrev ByteMem := Nat → UInt8

/-- Load `width` bytes at `addr` as one little-endian number. -/
def loadLE (mem : ByteMem) (addr : Nat) : Nat → Nat
  | 0 => 0
  | width + 1 => (mem addr).toNat + 256 * loadLE mem (addr + 1) width

/-- Byte `i` of the little-endian representation of `value`. -/
def byteOf (value i : Nat) : UInt8 :=
  UInt8.ofNat (value / 256 ^ i)

/-- Store the low `width` bytes of `value` at `addr`. -/
def storeLE (mem : ByteMem) (addr width value : Nat) : ByteMem := fun a =>
  if addr ≤ a ∧ a < addr + width then byteOf value (a - addr) else mem a

/-- Overwrite the bytes from `addr` on with a finite byte string. -/
def storeBytes (mem : ByteMem) (addr : Nat) (bytes : List UInt8) : ByteMem := fun a =>
  if addr ≤ a ∧ a < addr + bytes.length then bytes.getD (a - addr) 0 else mem a

/-- Fill `count` bytes from `addr` on with one value, as `memset` does. -/
def fill (mem : ByteMem) (addr count : Nat) (value : UInt8) : ByteMem := fun a =>
  if addr ≤ a ∧ a < addr + count then value else mem a

/-- The `count` bytes from `addr` on, in address order. -/
def bytesAt (mem : ByteMem) (addr count : Nat) : List UInt8 :=
  (List.range count).map fun i => mem (addr + i)

theorem storeLE_of_outside (mem : ByteMem) {addr width value a : Nat}
    (hout : a < addr ∨ addr + width ≤ a) : storeLE mem addr width value a = mem a := by
  unfold storeLE
  rw [if_neg (by omega)]

theorem storeBytes_of_outside (mem : ByteMem) {addr a : Nat} {bytes : List UInt8}
    (hout : a < addr ∨ addr + bytes.length ≤ a) : storeBytes mem addr bytes a = mem a := by
  unfold storeBytes
  rw [if_neg (by omega)]

@[simp] theorem storeBytes_nil (mem : ByteMem) (addr : Nat) : storeBytes mem addr [] = mem := by
  funext a
  apply storeBytes_of_outside
  exact Nat.lt_or_ge a addr

theorem fill_of_outside (mem : ByteMem) {addr count a : Nat} {value : UInt8}
    (hout : a < addr ∨ addr + count ≤ a) : fill mem addr count value a = mem a := by
  unfold fill
  rw [if_neg (by omega)]

theorem length_bytesAt (mem : ByteMem) (addr count : Nat) :
    (bytesAt mem addr count).length = count := by
  simp [bytesAt]

theorem getD_bytesAt (mem : ByteMem) (addr : Nat) {count k : Nat} (hk : k < count) :
    (bytesAt mem addr count).getD k 0 = mem (addr + k) := by
  simp [bytesAt, List.getD_eq_getElem?_getD, hk]

/-- A copy of a range, seen at its destination. -/
theorem storeBytes_bytesAt (mem src : ByteMem) {addr start count k : Nat} (hk : k < count) :
    storeBytes mem addr (bytesAt src start count) (addr + k) = src (start + k) := by
  unfold storeBytes
  rw [length_bytesAt, if_pos (by omega), Nat.add_sub_cancel_left, getD_bytesAt src start hk]

/-- Bytes that are copied to the start of a buffer. -/
theorem storeBytes_start (mem src : ByteMem) (start count : Nat) :
    ∀ k, k < count → storeBytes mem 0 (bytesAt src start count) k = src (start + k) := by
  intro k hk
  rw [← storeBytes_bytesAt mem src hk, Nat.zero_add]

theorem loadLE_lt (mem : ByteMem) (addr width : Nat) : loadLE mem addr width < 256 ^ width := by
  induction width generalizing addr with
  | zero => simp [loadLE]
  | succ width ih =>
    have hbyte : (mem addr).toNat < 256 := UInt8.toNat_lt (mem addr)
    have hrest := ih (addr + 1)
    simp only [loadLE, pow_succ]
    omega

/-- A load depends only on the bytes of its own range. -/
theorem loadLE_congr {mem mem' : ByteMem} {addr width : Nat}
    (hagree : ∀ a, addr ≤ a → a < addr + width → mem a = mem' a) :
    loadLE mem addr width = loadLE mem' addr width := by
  induction width generalizing addr with
  | zero => rfl
  | succ width ih =>
    have hhead := hagree addr (by omega) (by omega)
    have htail : loadLE mem (addr + 1) width = loadLE mem' (addr + 1) width :=
      ih fun a hlo hhi => hagree a (by omega) (by omega)
    simp only [loadLE, hhead, htail]

/-- Bit `j` of a loaded word is bit `j % 8` of byte `j / 8`. -/
theorem testBit_loadLE (mem : ByteMem) (addr width j : Nat) :
    (loadLE mem addr width).testBit j =
      (decide (j < 8 * width) && (mem (addr + j / 8)).toNat.testBit (j % 8)) := by
  induction width generalizing addr j with
  | zero => simp [loadLE]
  | succ width ih =>
    have hbyte : (mem addr).toNat < 2 ^ 8 := UInt8.toNat_lt (mem addr)
    rw [loadLE, Nat.add_comm, show (256 : Nat) = 2 ^ 8 by decide,
      Nat.testBit_two_pow_mul_add _ hbyte]
    by_cases hlow : j < 8
    · have hdiv : j / 8 = 0 := by omega
      have hmod : j % 8 = j := by omega
      have hrange : j < 8 * (width + 1) := by omega
      simp [hlow, hdiv, hmod, hrange]
    · have hdiv : addr + 1 + (j - 8) / 8 = addr + j / 8 := by omega
      have hmod : (j - 8) % 8 = j % 8 := by omega
      have hrange : (j - 8 < 8 * width) = (j < 8 * (width + 1)) := by
        apply propext
        omega
      simp [hlow, ih, hdiv, hmod, hrange]

private theorem loadLE_storeLE_shift (mem : ByteMem) (base value : Nat) :
    ∀ width offset total : Nat, offset + width ≤ total →
      loadLE (storeLE mem base total value) (base + offset) width =
        value / 256 ^ offset % 256 ^ width := by
  intro width
  induction width with
  | zero => intro offset total _; simp [loadLE, Nat.mod_one]
  | succ width ih =>
    intro offset total htotal
    have hhead : storeLE mem base total value (base + offset) =
        byteOf value offset := by
      unfold storeLE
      rw [if_pos (by omega), Nat.add_sub_cancel_left]
    have htail := ih (offset + 1) total (by omega)
    rw [← Nat.add_assoc] at htail
    have hdiv : value / 256 ^ (offset + 1) = value / 256 ^ offset / 256 := by
      rw [pow_succ, Nat.div_div_eq_div_mul]
    have hbyte : (byteOf value offset).toNat = value / 256 ^ offset % 256 :=
      UInt8.toNat_ofNat'
    rw [loadLE, hhead, htail, hbyte, hdiv, pow_succ', Nat.mod_mul]

/-- Reading back a stored word returns what of it fits. -/
theorem loadLE_storeLE_mod (mem : ByteMem) (addr width value : Nat) :
    loadLE (storeLE mem addr width value) addr width = value % 256 ^ width := by
  have hload := loadLE_storeLE_shift mem addr value width 0 width (by omega)
  simpa using hload

/-- Reading back a stored word returns the word. -/
theorem loadLE_storeLE_same (mem : ByteMem) (addr width value : Nat)
    (hvalue : value < 256 ^ width) : loadLE (storeLE mem addr width value) addr width = value := by
  rw [loadLE_storeLE_mod, Nat.mod_eq_of_lt hvalue]

/-- Memory seen from `base` on. -/
theorem loadLE_offset (mem : ByteMem) (base addr width : Nat) :
    loadLE (fun a => mem (base + a)) addr width = loadLE mem (base + addr) width := by
  induction width generalizing addr with
  | zero => rfl
  | succ width ih => rw [loadLE, loadLE, ih, Nat.add_assoc]

/-- A load from a range disjoint from a store does not see the store. -/
theorem loadLE_storeLE_disjoint (mem : ByteMem) {addr width target count value : Nat}
    (hdisjoint : addr + width ≤ target ∨ target + count ≤ addr) :
    loadLE (storeLE mem target count value) addr width = loadLE mem addr width := by
  apply loadLE_congr
  intro a hlo hhi
  exact storeLE_of_outside mem (by omega)

theorem loadLE_fill_disjoint (mem : ByteMem) {addr width target count : Nat} {value : UInt8}
    (hdisjoint : addr + width ≤ target ∨ target + count ≤ addr) :
    loadLE (fill mem target count value) addr width = loadLE mem addr width := by
  apply loadLE_congr
  intro a hlo hhi
  exact fill_of_outside mem (by omega)

/-- Every word inside a zero-filled range reads as zero. -/
theorem loadLE_fill_zero (mem : ByteMem) {addr width target count : Nat}
    (hlow : target ≤ addr) (hhigh : addr + width ≤ target + count) :
    loadLE (fill mem target count 0) addr width = 0 := by
  induction width generalizing addr with
  | zero => rfl
  | succ width ih =>
    have hhead : fill mem target count 0 addr = 0 := by
      unfold fill
      rw [if_pos (by omega)]
    rw [loadLE, hhead, ih (by omega) (by omega)]
    rfl

-- a load is never meant to be evaluated by unification
attribute [irreducible] loadLE

end Pristine.Lib
