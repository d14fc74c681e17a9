import Pristine.Bsfs.Alloc

/-!
# The bitmap search is the bit-wise scan

`bitmap_find` of the kernel and `bsfs_bitmap_find` of the tools read words of 64
bits; the scan tests one bit after the other.  Both give the same answer
(`bitmapSearch_ok`).
-/

namespace Pristine.Bsfs

open Lib Kernel

/-! ## The bitmap functions of the programs -/

/-- `bsfs_bitmap_test`, with the body of `bitmap_test`. -/
def bsfsBitmapTest (bitmap : ByteMem) (index : Nat) : UInt8 := bitmapTest bitmap index

/-- `bsfs_bitmap_set`; `none` if `BSFS_PANIC` ends the program because the bit is set. -/
def bsfsBitmapSet (exits : Bool) (bitmap : ByteMem) (index : Nat) : Option ByteMem :=
  if exits = true ∧ bsfsBitmapTest bitmap index ≠ 0 then none else some (bitmapSet bitmap index)

/-- `bsfs_bitmap_find`, with the body of `bitmap_find`. -/
def bsfsBitmapFind (bitmap : ByteMem) (bitCount : Nat) : Nat := bitmapFind bitmap bitCount

/-- The bitmap functions of a program. -/
structure BitmapFunctions where
  set : ByteMem → Nat → Option ByteMem
  test : ByteMem → Nat → UInt8
  find : ByteMem → Nat → Nat

/-- `kernel/bitmap.c`. -/
def kernelBitmap : BitmapFunctions where
  set := fun bitmap index => some (bitmapSet bitmap index)
  test := bitmapTest
  find := bitmapFind

/-- `tools/bsfs/bsfs.c`. -/
def bsfsBitmap (exits : Bool) : BitmapFunctions where
  set := bsfsBitmapSet exits
  test := bsfsBitmapTest
  find := bsfsBitmapFind

def bitmapPrograms : List BitmapFunctions := [kernelBitmap, bsfsBitmap false, bsfsBitmap true]

/-! ## The scan -/

/-- The scan from bit `i` on: the first index whose test is zero, or `UINT32_MAX`. -/
def scanBits (test : Nat → UInt8) : Nat → Nat → Nat
  | _, 0 => uint32Max
  | i, left + 1 => if test i = 0 then i else scanBits test (i + 1) left

section Scan

variable {test : Nat → UInt8} {i left index : Nat}

theorem scanBits_of_full (hfull : ∀ j, i ≤ j → j < i + left → test j ≠ 0) :
    scanBits test i left = uint32Max := by
  induction left generalizing i with
  | zero => rfl
  | succ left ih =>
    have hrest := ih (i := i + 1) fun j hlo hhi => hfull j (by omega) (by omega)
    simp [scanBits, hfull i le_rfl (by omega), hrest]

theorem scanBits_of_first (hlo : i ≤ index) (hhi : index < i + left) (hzero : test index = 0)
    (hbelow : ∀ j, i ≤ j → j < index → test j ≠ 0) : scanBits test i left = index := by
  induction left generalizing i with
  | zero => omega
  | succ left ih =>
    by_cases hhere : i = index
    · simp [scanBits, hhere, hzero]
    · have hrest := ih (i := i + 1) (by omega) (by omega) fun j hj hj' => hbelow j (by omega) hj'
      simp [scanBits, hbelow i le_rfl (by omega), hrest]

theorem scanBits_congr {test' : Nat → UInt8} (hsame : ∀ j, i ≤ j → j < i + left → test' j = test j) :
    scanBits test' i left = scanBits test i left := by
  induction left generalizing i with
  | zero => rfl
  | succ left ih =>
    have hrest := ih (i := i + 1) fun j hlo hhi => hsame j (by omega) (by omega)
    simp [scanBits, hsame i le_rfl (by omega), hrest]

end Scan

/-! ## The search -/

/-- What the search should do on a bitmap. -/
structure SearchOk (f : BitmapFunctions) (bitmap : ByteMem) (bitCount : Nat) : Prop where
  scan : f.find bitmap bitCount = scanBits (f.test bitmap) 0 bitCount
  least : f.find bitmap bitCount ≠ uint32Max →
    f.find bitmap bitCount < bitCount ∧ f.test bitmap (f.find bitmap bitCount) = 0 ∧
      ∀ j, j < f.find bitmap bitCount → f.test bitmap j ≠ 0
  none_iff : f.find bitmap bitCount = uint32Max ↔ ∀ j, j < bitCount → f.test bitmap j ≠ 0
  /-- bits at or beyond the bound have no influence -/
  beyond : ∀ bitmap', (∀ j, j < bitCount → f.test bitmap' j = f.test bitmap j) →
    f.find bitmap' bitCount = f.find bitmap bitCount
  /-- `UINT32_MAX` is larger than every index -/
  next : f.find bitmap bitCount ≠ uint32Max →
    ∃ bitmap', f.set bitmap (f.find bitmap bitCount) = some bitmap' ∧
      f.find bitmap bitCount < f.find bitmap' bitCount

section Search

variable {bitmap : ByteMem} {bitCount index : Nat}

theorem bitmapTest_ne_zero_iff (i : Nat) : bitmapTest bitmap i ≠ 0 ↔ bitAt bitmap i = true := by
  rw [ne_eq, bitmapTest_eq_zero_iff, Bool.not_eq_false]

/-- The search and the scan stop at the same bit. -/
theorem bitmapFind_eq_scan (hwidth : bitCount < 2 ^ 32) :
    bitmapFind bitmap bitCount = scanBits (bitmapTest bitmap) 0 bitCount := by
  rcases bitmapFind_cases bitmap hwidth with ⟨hfind, hfull⟩ | ⟨-, hfirst⟩
  · rw [hfind]
    refine (scanBits_of_full fun j _ hj => ?_).symm
    exact (bitmapTest_ne_zero_iff j).mpr (hfull j (by omega))
  · have hlt := hfirst.lt
    refine (scanBits_of_first (Nat.zero_le _) (by omega) ?_ fun j _ hj => ?_).symm
    · exact (bitmapTest_eq_zero_iff bitmap _).mpr hfirst.clear
    · exact (bitmapTest_ne_zero_iff j).mpr (hfirst.below j hj)

/-- A bitmap in which the found bit is set has its first clear bit behind it. -/
theorem bitmapFind_set_lt (hwidth : bitCount < 2 ^ 32)
    (hfound : bitmapFind bitmap bitCount ≠ uint32Max) :
    bitmapFind bitmap bitCount <
      bitmapFind (bitmapSet bitmap (bitmapFind bitmap bitCount)) bitCount := by
  obtain ⟨hmax, -⟩ | ⟨-, hfirst⟩ := bitmapFind_cases bitmap hwidth
  · exact absurd hmax hfound
  have hlt := hfirst.lt
  obtain ⟨index, hindex⟩ : ∃ index, bitmapFind bitmap bitCount = index := ⟨_, rfl⟩
  rw [hindex] at hfirst hlt ⊢
  rcases bitmapFind_cases (bitmapSet bitmap index) hwidth with ⟨hmax, -⟩ | ⟨-, hnext⟩
  · rw [hmax]
    unfold uint32Max
    omega
  · -- every bit up to the one just set is set
    by_contra hle
    have hset : bitAt (bitmapSet bitmap index) (bitmapFind (bitmapSet bitmap index) bitCount) =
        true := by
      rw [bitAt_bitmapSet]
      by_cases hsame : index = bitmapFind (bitmapSet bitmap index) bitCount
      · rw [decide_eq_true hsame, Bool.true_or]
      · simp [hfirst.below _ (show bitmapFind (bitmapSet bitmap index) bitCount < index by omega)]
    rw [hnext.clear] at hset
    exact Bool.false_ne_true hset

/-- What the programs share: their search and their test. -/
theorem searchOk_of_set {f : BitmapFunctions} (htest : f.test = bitmapTest)
    (hfind : f.find = bitmapFind) (hwidth : bitCount < 2 ^ 32)
    (hset : ∀ index, bitmapTest bitmap index = 0 →
      f.set bitmap index = some (bitmapSet bitmap index)) :
    SearchOk f bitmap bitCount := by
  obtain ⟨set, test, find⟩ := f
  subst htest hfind
  have hcases := bitmapFind_cases bitmap hwidth
  have hfirst (hfound : bitmapFind bitmap bitCount ≠ uint32Max) :
      IsFirstClear bitmap bitCount (bitmapFind bitmap bitCount) := by
    obtain ⟨hmax, -⟩ | ⟨-, hfirst⟩ := hcases
    · exact absurd hmax hfound
    · exact hfirst
  refine ⟨bitmapFind_eq_scan hwidth, ?_, ?_, ?_, ?_⟩
  · intro hfound
    have hclear := (bitmapTest_eq_zero_iff bitmap _).mpr (hfirst hfound).clear
    exact ⟨(hfirst hfound).lt, hclear, fun j hj =>
      (bitmapTest_ne_zero_iff j).mpr ((hfirst hfound).below j hj)⟩
  · constructor
    · intro hmax j hj
      obtain ⟨-, hfull⟩ | ⟨hfound, -⟩ := hcases
      · exact (bitmapTest_ne_zero_iff j).mpr (hfull j hj)
      · exact absurd hmax hfound
    · intro hfull
      exact bitmapFind_of_full fun j hj => (bitmapTest_ne_zero_iff j).mp (hfull j hj)
  · intro bitmap' hsame
    show bitmapFind bitmap' bitCount = bitmapFind bitmap bitCount
    rw [bitmapFind_eq_scan hwidth, bitmapFind_eq_scan hwidth]
    exact scanBits_congr fun j _ hj => hsame j (by omega)
  · intro hfound
    have hclear := (bitmapTest_eq_zero_iff bitmap _).mpr (hfirst hfound).clear
    exact ⟨_, hset _ hclear, bitmapFind_set_lt hwidth hfound⟩

/-- The search of every program is the scan, for every bitmap and number of bits. -/
theorem bitmapSearch_ok {f : BitmapFunctions} (hf : f ∈ bitmapPrograms) (bitmap : ByteMem)
    {bitCount : Nat} (hbits : bitCount < 2 ^ 32 - 1) : SearchOk f bitmap bitCount := by
  have hwidth : bitCount < 2 ^ 32 := by omega
  simp only [bitmapPrograms, List.mem_cons, List.not_mem_nil, or_false] at hf
  rcases hf with rfl | rfl | rfl
  · exact searchOk_of_set rfl rfl hwidth fun _ _ => rfl
  · exact searchOk_of_set rfl rfl hwidth fun _ _ => rfl
  · -- the check of `bsfs_bitmap_set` passes, as the bit that was found is clear
    refine searchOk_of_set rfl rfl hwidth fun index hclear => ?_
    exact if_neg fun hset => hset.2 hclear

/-- A bitmap of 70 bits whose second word has a clear bit at 65 and set bits behind the bound. -/
def lateBitmap : ByteMem := fun a => if a < 8 then 0xFF else 0xFD

theorem bitmapSearch_ok_late :
    bsfsBitmapFind lateBitmap 70 = 65 ∧ SearchOk (bsfsBitmap true) lateBitmap 70 :=
  ⟨by decide +kernel, bitmapSearch_ok (by simp [bitmapPrograms]) lateBitmap (by decide)⟩

end Search

end Pristine.Bsfs
