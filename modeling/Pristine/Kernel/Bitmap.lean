import Pristine.Lib.BitScan

/-!
# Bitmap operations

`kernel/bitmap.c` and the bitmap half of `tools/bsfs/bsfs.c` hold the same four
operations.  Setting, clearing and testing address the map by bytes, while the
search reads little-endian 64-bit words and masks the last one.  The module
shows that the search is nevertheless the plain first-clear scan
(`bitmapFind_of_firstClear`, `bitmapFind_of_full`).
-/

namespace Pristine.Kernel

open Lib

/-- `UINT32_MAX`, the search's answer when no bit is clear. -/
def uint32Max : Nat := 2 ^ 32 - 1

/-- `UINT64_MAX`, a word without a clear bit. -/
def uint64Max : Nat := 2 ^ 64 - 1

/-- `bitmap_clear_all`. -/
def bitmapClearAll (bitmap : ByteMem) (size : Nat) : ByteMem :=
  fill bitmap 0 size 0

/-- `bitmap_set`. -/
def bitmapSet (bitmap : ByteMem) (index : Nat) : ByteMem :=
  orBit bitmap index

/-- `bitmap_clear`. -/
def bitmapClear (bitmap : ByteMem) (index : Nat) : ByteMem :=
  andNotBit bitmap index

/-- `bitmap_test`: nonzero when the bit is set. -/
def bitmapTest (bitmap : ByteMem) (index : Nat) : UInt8 :=
  bitmap (index / 8) &&& UInt8.ofNat (1 <<< (index % 8))

/-- The loop of `bitmap_find` over whole words: `i` is the next word and the
last argument the number of words left. -/
def bitmapFindWords (bitmap : ByteMem) (i : Nat) : Nat → Option Nat
  | 0 => none
  | left + 1 =>
    let word := loadLE bitmap (8 * i) 8
    if word ≠ uint64Max then
      some ((i * 64 + ctz (uint64Max - word) 64) % 2 ^ 32)
    else
      bitmapFindWords bitmap (i + 1) left

/-- `bitmap_find`: index of the first clear bit below `bitCount`, or
`UINT32_MAX`. -/
def bitmapFind (bitmap : ByteMem) (bitCount : Nat) : Nat :=
  let wordCount := bitCount / 64
  match bitmapFindWords bitmap 0 wordCount with
  | some index => index
  | none =>
    let remaining := bitCount % 64
    if remaining ≠ 0 then
      let mask := (1 <<< remaining) - 1
      -- bits at or beyond `bitCount` count as used
      let word := loadLE bitmap (8 * wordCount) 8 ||| (uint64Max - mask)
      if word ≠ uint64Max then
        (wordCount * 64 + ctz (uint64Max - word) 64) % 2 ^ 32
      else
        uint32Max
    else
      uint32Max

@[simp] theorem bitAt_bitmapSet (bitmap : ByteMem) (i j : Nat) :
    bitAt (bitmapSet bitmap i) j = (decide (i = j) || bitAt bitmap j) :=
  bitAt_orBit bitmap i j

@[simp] theorem bitAt_bitmapClear (bitmap : ByteMem) (i j : Nat) :
    bitAt (bitmapClear bitmap i) j = (!decide (i = j) && bitAt bitmap j) :=
  bitAt_andNotBit bitmap i j

theorem bitmapTest_eq_zero_iff (bitmap : ByteMem) (i : Nat) :
    bitmapTest bitmap i = 0 ↔ bitAt bitmap i = false :=
  and_maskByte_eq_zero_iff bitmap i

/-! ## The word loop -/

/-- Words without a clear bit are skipped. -/
theorem bitmapFindWords_full {bitmap : ByteMem} (i left : Nat)
    (hfull : ∀ j, 64 * i ≤ j → j < 64 * (i + left) → bitAt bitmap j = true) :
    bitmapFindWords bitmap i left = none := by
  induction left generalizing i with
  | zero => rfl
  | succ left ih =>
    have hword : loadLE bitmap (8 * i) 8 = uint64Max := by
      apply (word_eq_max_iff (word64_lt bitmap i)).mpr
      intro j hj
      rw [testBit_word64 bitmap i j hj]
      exact hfull _ (by omega) (by omega)
    have hrest := ih (i + 1) fun j hlo hhi => hfull j (by omega) (by omega)
    simp only [bitmapFindWords, hword, ne_eq, not_true_eq_false, if_false]
    exact hrest

/-- The first word with a clear bit yields that bit. -/
theorem bitmapFindWords_firstClear {bitmap : ByteMem} {index : Nat} (i left : Nat)
    (hlo : 64 * i ≤ index) (hhi : index < 64 * (i + left)) (hwidth : index < 2 ^ 32)
    (hclear : bitAt bitmap index = false)
    (hbelow : ∀ j, 64 * i ≤ j → j < index → bitAt bitmap j = true) :
    bitmapFindWords bitmap i left = some index := by
  induction left generalizing i with
  | zero => omega
  | succ left ih =>
    have hlt := word64_lt bitmap i
    by_cases hhere : index < 64 * i + 64
    · -- the clear bit lies in this word, at offset `index - 64 * i`
      have hoffset : index - 64 * i < 64 := by omega
      have hbit : (loadLE bitmap (8 * i) 8).testBit (index - 64 * i) = false := by
        rw [testBit_word64 bitmap i _ hoffset, Nat.add_sub_of_le hlo]
        exact hclear
      have hne : loadLE bitmap (8 * i) 8 ≠ uint64Max := by
        intro hmax
        have hset := (word_eq_max_iff hlt).mp hmax _ hoffset
        rw [hbit] at hset
        exact Bool.false_ne_true hset
      have hctz : ctz (uint64Max - loadLE bitmap (8 * i) 8) 64 = index - 64 * i := by
        apply ctz_compl hlt hoffset hbit
        intro j hj
        rw [testBit_word64 bitmap i j (by omega)]
        exact hbelow _ (by omega) (by omega)
      simp only [bitmapFindWords, ne_eq, hne, not_false_eq_true, if_true, hctz]
      rw [show i * 64 + (index - 64 * i) = index by omega, Nat.mod_eq_of_lt hwidth]
    · have hword : loadLE bitmap (8 * i) 8 = uint64Max := by
        apply (word_eq_max_iff hlt).mpr
        intro j hj
        rw [testBit_word64 bitmap i j hj]
        exact hbelow _ (by omega) (by omega)
      have hrest := ih (i + 1) (by omega) (by omega)
        fun j hj hj' => hbelow j (by omega) hj'
      simp only [bitmapFindWords, hword, ne_eq, not_true_eq_false, if_false]
      exact hrest

/-! ## The masked tail -/

/-- The tail word as `bitmap_find` builds it. -/
def tailWord (bitmap : ByteMem) (wordCount remaining : Nat) : Nat :=
  loadLE bitmap (8 * wordCount) 8 ||| (uint64Max - ((1 <<< remaining) - 1))

theorem testBit_tailWord (bitmap : ByteMem) {wordCount remaining j : Nat}
    (hremaining : remaining < 64) (hj : j < 64) :
    (tailWord bitmap wordCount remaining).testBit j =
      (bitAt bitmap (64 * wordCount + j) || decide (remaining ≤ j)) := by
  have hpow : 2 ^ remaining < 2 ^ 64 := Nat.pow_lt_pow_right (by omega) hremaining
  have hmask : uint64Max - ((1 <<< remaining) - 1) =
      2 ^ 64 - ((2 ^ remaining - 1) + 1) := by
    unfold uint64Max
    rw [Nat.one_shiftLeft]
    omega
  unfold tailWord
  rw [Nat.testBit_or, testBit_word64 bitmap wordCount j hj, hmask,
    Nat.testBit_two_pow_sub_succ (by omega), Nat.testBit_two_pow_sub_one]
  by_cases hle : remaining ≤ j
  · simp [hj, hle]
  · simp [hle, show j < remaining by omega]

theorem tailWord_lt (bitmap : ByteMem) (wordCount remaining : Nat) :
    tailWord bitmap wordCount remaining < 2 ^ 64 := by
  apply Nat.or_lt_two_pow (word64_lt bitmap wordCount)
  unfold uint64Max
  omega

/-! ## The search is a first-clear scan -/

/-- With every bit below the bound set, the search answers `UINT32_MAX`. -/
theorem bitmapFind_of_full {bitmap : ByteMem} {bitCount : Nat}
    (hfull : ∀ j, j < bitCount → bitAt bitmap j = true) :
    bitmapFind bitmap bitCount = uint32Max := by
  have hwords : bitmapFindWords bitmap 0 (bitCount / 64) = none :=
    bitmapFindWords_full 0 _ fun j _ hj => hfull j (by omega)
  have htail : tailWord bitmap (bitCount / 64) (bitCount % 64) = uint64Max := by
    apply (word_eq_max_iff (tailWord_lt _ _ _)).mpr
    intro j hj
    rw [testBit_tailWord bitmap (Nat.mod_lt _ (by omega)) hj]
    by_cases hle : bitCount % 64 ≤ j
    · simp [hle]
    · rw [hfull _ (by omega)]
      rfl
  unfold tailWord at htail
  simp [bitmapFind, hwords, htail]

/-- Otherwise the search answers the least clear bit. -/
theorem bitmapFind_of_firstClear {bitmap : ByteMem} {bitCount index : Nat}
    (hwidth : bitCount ≤ 2 ^ 32) (hfirst : IsFirstClear bitmap bitCount index) :
    bitmapFind bitmap bitCount = index := by
  obtain ⟨hlt, hclear, hbelow⟩ := hfirst
  by_cases hwords : index < 64 * (bitCount / 64)
  · have hfound : bitmapFindWords bitmap 0 (bitCount / 64) = some index :=
      bitmapFindWords_firstClear 0 _ (by omega) (by omega) (by omega) hclear
        fun j _ hj => hbelow j hj
    simp [bitmapFind, hfound]
  · -- the clear bit lies in the partial word behind the loop
    have hnone : bitmapFindWords bitmap 0 (bitCount / 64) = none :=
      bitmapFindWords_full 0 _ fun j _ hj => hbelow j (by omega)
    have hremaining : bitCount % 64 ≠ 0 := by omega
    have hoffset : index - 64 * (bitCount / 64) < 64 := by omega
    have hmod : bitCount % 64 < 64 := Nat.mod_lt _ (by omega)
    have hbit : (tailWord bitmap (bitCount / 64) (bitCount % 64)).testBit
        (index - 64 * (bitCount / 64)) = false := by
      rw [testBit_tailWord bitmap hmod hoffset, Nat.add_sub_of_le (by omega), hclear]
      simp only [Bool.false_or, decide_eq_false_iff_not]
      omega
    have hne : tailWord bitmap (bitCount / 64) (bitCount % 64) ≠ uint64Max := by
      intro hmax
      have hset := (word_eq_max_iff (tailWord_lt _ _ _)).mp hmax _ hoffset
      rw [hbit] at hset
      exact Bool.false_ne_true hset
    have hctz : ctz (uint64Max - tailWord bitmap (bitCount / 64) (bitCount % 64)) 64 =
        index - 64 * (bitCount / 64) := by
      apply ctz_compl (tailWord_lt _ _ _) hoffset hbit
      intro j hj
      rw [testBit_tailWord bitmap hmod (by omega), hbelow _ (by omega)]
      rfl
    unfold tailWord at hne hctz
    simp only [bitmapFind, hnone, ne_eq, hremaining, not_false_eq_true, if_true, hne, hctz]
    rw [show bitCount / 64 * 64 + (index - 64 * (bitCount / 64)) = index by omega,
      Nat.mod_eq_of_lt (by omega)]

/-- The two outcomes of the search, for every map and every 32-bit bound. -/
theorem bitmapFind_cases (bitmap : ByteMem) {bitCount : Nat} (hwidth : bitCount < 2 ^ 32) :
    (bitmapFind bitmap bitCount = uint32Max ∧
        ∀ j, j < bitCount → bitAt bitmap j = true) ∨
      (bitmapFind bitmap bitCount ≠ uint32Max ∧
        IsFirstClear bitmap bitCount (bitmapFind bitmap bitCount)) := by
  rcases full_or_firstClear bitmap bitCount with hfull | ⟨index, hfirst⟩
  · exact Or.inl ⟨bitmapFind_of_full hfull, hfull⟩
  · have hfound := bitmapFind_of_firstClear (by omega) hfirst
    right
    rw [hfound]
    refine ⟨?_, hfirst⟩
    have hlt := hfirst.lt
    unfold uint32Max
    omega

end Pristine.Kernel
