import Pristine.Lib.ByteMemory

/-!
# Bits of a byte memory

The bits of a byte memory are numbered least significant first inside each
byte, as a bitmap addressed by `index / 8` and `index % 8` numbers them.  The
module relates three views of them: single bits (`bitAt`), little-endian words
(`wordFull_iff`, `ctz_compl`), and the count of clear bits below a bound
(`clearCount`).
-/

namespace Pristine.Lib

/-- Bit `i` of a byte memory. -/
def bitAt (mem : ByteMem) (i : Nat) : Bool :=
  (mem (i / 8)).toNat.testBit (i % 8)

/-- `i` is the least clear bit below `n`. -/
structure IsFirstClear (mem : ByteMem) (n i : Nat) : Prop where
  lt : i < n
  clear : bitAt mem i = false
  below : ∀ j, j < i → bitAt mem j = true

/-- Number of clear bits below `n`. -/
def clearCount (mem : ByteMem) (n : Nat) : Nat :=
  (List.range n).countP fun i => !bitAt mem i

/-- Two memories with the same bits are the same memory. -/
theorem mem_eq_of_bitAt_eq {mem mem' : ByteMem}
    (hbits : ∀ i, bitAt mem i = bitAt mem' i) : mem = mem' := by
  funext a
  apply UInt8.toNat_inj.mp
  apply Nat.eq_of_testBit_eq
  intro k
  by_cases hk : k < 8
  · have hbit := hbits (8 * a + k)
    unfold bitAt at hbit
    rwa [show (8 * a + k) / 8 = a by omega, show (8 * a + k) % 8 = k by omega] at hbit
  · have hpow : 2 ^ 8 ≤ 2 ^ k := Nat.pow_le_pow_right (by omega) (by omega)
    have hzero (b : UInt8) : b.toNat.testBit k = false :=
      Nat.testBit_lt_two_pow (Nat.lt_of_lt_of_le (UInt8.toNat_lt b) hpow)
    rw [hzero, hzero]

/-! ## Setting and clearing one bit -/

/-- OR the mask of bit `i` into its byte. -/
def orBit (mem : ByteMem) (i : Nat) : ByteMem :=
  Function.update mem (i / 8) (mem (i / 8) ||| UInt8.ofNat (1 <<< (i % 8)))

/-- AND the complemented mask of bit `i` into its byte. -/
def andNotBit (mem : ByteMem) (i : Nat) : ByteMem :=
  Function.update mem (i / 8) (mem (i / 8) &&& ~~~UInt8.ofNat (1 <<< (i % 8)))

private theorem maskByte_toNat {k : Nat} (hk : k < 8) : (UInt8.ofNat (1 <<< k)).toNat = 2 ^ k := by
  have hpow : 2 ^ k < 2 ^ 8 := Nat.pow_lt_pow_right (by omega) hk
  rw [UInt8.toNat_ofNat', Nat.one_shiftLeft, Nat.mod_eq_of_lt hpow]

private theorem notMaskByte_testBit {k j : Nat} (hk : k < 8) (hj : j < 8) :
    (~~~UInt8.ofNat (1 <<< k)).toNat.testBit j = !decide (k = j) := by
  have hpow : 2 ^ k < 2 ^ 8 := Nat.pow_lt_pow_right (by omega) hk
  have hnot : (~~~UInt8.ofNat (1 <<< k)).toNat = 2 ^ 8 - (2 ^ k + 1) := by
    rw [UInt8.toNat_not, maskByte_toNat hk]
    simp [UInt8.size]
  rw [hnot, Nat.testBit_two_pow_sub_succ hpow, Nat.testBit_two_pow]
  simp [hj]

@[simp] theorem bitAt_orBit (mem : ByteMem) (i j : Nat) :
    bitAt (orBit mem i) j = (decide (i = j) || bitAt mem j) := by
  unfold bitAt orBit
  by_cases hbyte : j / 8 = i / 8
  · rw [hbyte, Function.update_self, UInt8.toNat_or, Nat.testBit_or,
      maskByte_toNat (by omega), Nat.testBit_two_pow, Bool.or_comm]
    congr 1
    apply decide_eq_decide.mpr
    omega
  · have hne : i ≠ j := fun h => hbyte (by rw [h])
    rw [Function.update_of_ne hbyte]
    simp [hne]

@[simp] theorem bitAt_andNotBit (mem : ByteMem) (i j : Nat) :
    bitAt (andNotBit mem i) j = (!decide (i = j) && bitAt mem j) := by
  unfold bitAt andNotBit
  by_cases hbyte : j / 8 = i / 8
  · rw [hbyte, Function.update_self, UInt8.toNat_and, Nat.testBit_and,
      notMaskByte_testBit (by omega) (by omega), Bool.and_comm]
    congr 2
    apply decide_eq_decide.mpr
    omega
  · have hne : i ≠ j := fun h => hbyte (by rw [h])
    rw [Function.update_of_ne hbyte]
    simp [hne]

/-- Masking one bit out of its byte is zero exactly when the bit is clear. -/
theorem and_maskByte_eq_zero_iff (mem : ByteMem) (i : Nat) :
    mem (i / 8) &&& UInt8.ofNat (1 <<< (i % 8)) = 0 ↔ bitAt mem i = false := by
  have hmask : (UInt8.ofNat (1 <<< (i % 8))).toNat = 2 ^ (i % 8) :=
    maskByte_toNat (by omega)
  constructor
  · intro hzero
    have hnat := congrArg (fun b : UInt8 => b.toNat.testBit (i % 8)) hzero
    simpa [hmask, bitAt, Nat.testBit_two_pow] using hnat
  · intro hclear
    apply UInt8.toNat_inj.mp
    apply Nat.eq_of_testBit_eq
    intro k
    rw [UInt8.toNat_and, Nat.testBit_and, hmask, Nat.testBit_two_pow]
    by_cases hk : i % 8 = k
    · subst hk
      unfold bitAt at hclear
      simp [hclear]
    · simp [hk]

/-! ## Whole words -/

/-- Count trailing zeros of `x`, looking at `width` bits at most. -/
def ctz (x : Nat) : Nat → Nat
  | 0 => 0
  | width + 1 => if x.testBit 0 then 0 else 1 + ctz (x / 2) width

theorem ctz_eq {x width i : Nat} (hi : i < width) (hset : x.testBit i = true)
    (hlow : ∀ j, j < i → x.testBit j = false) : ctz x width = i := by
  induction width generalizing x i with
  | zero => omega
  | succ width ih =>
    cases i with
    | zero => simp [ctz, hset]
    | succ i =>
      have hhead : x.testBit 0 = false := hlow 0 (by omega)
      have hrest : ctz (x / 2) width = i := by
        apply ih (by omega)
        · rw [← Nat.testBit_succ]
          exact hset
        · intro j hj
          rw [← Nat.testBit_succ]
          exact hlow (j + 1) (by omega)
      simp [ctz, hhead, hrest, Nat.add_comm]

/-- The trailing zeros of a complemented word end at its least clear bit. -/
theorem ctz_compl {x width i : Nat} (hx : x < 2 ^ width) (hi : i < width)
    (hclear : x.testBit i = false) (hlow : ∀ j, j < i → x.testBit j = true) :
    ctz (2 ^ width - 1 - x) width = i := by
  have hcompl (j : Nat) : (2 ^ width - 1 - x).testBit j =
      (decide (j < width) && !x.testBit j) := by
    rw [show 2 ^ width - 1 - x = 2 ^ width - (x + 1) by omega]
    exact Nat.testBit_two_pow_sub_succ hx j
  apply ctz_eq hi
  · simp [hcompl, hi, hclear]
  · intro j hj
    simp [hcompl, hlow j hj]

/-- A word is all ones exactly when every one of its bits is set. -/
theorem word_eq_max_iff {x width : Nat} (hx : x < 2 ^ width) :
    x = 2 ^ width - 1 ↔ ∀ j, j < width → x.testBit j = true := by
  constructor
  · rintro rfl j hj
    simp [hj]
  · intro hall
    apply Nat.eq_of_testBit_eq
    intro j
    by_cases hj : j < width
    · simp [hall j hj, hj]
    · have hpow : 2 ^ width ≤ 2 ^ j := Nat.pow_le_pow_right (by omega) (by omega)
      rw [Nat.testBit_lt_two_pow (Nat.lt_of_lt_of_le hx hpow)]
      simp [hj]

/-- Bit `j` of the `i`-th 64-bit word is bit `64 * i + j` of the memory. -/
theorem testBit_word64 (mem : ByteMem) (i j : Nat) (hj : j < 64) :
    (loadLE mem (8 * i) 8).testBit j = bitAt mem (64 * i + j) := by
  rw [testBit_loadLE]
  unfold bitAt
  rw [show 8 * i + j / 8 = (64 * i + j) / 8 by omega,
    show (64 * i + j) % 8 = j % 8 by omega]
  simp [show j < 8 * 8 by omega]

theorem word64_lt (mem : ByteMem) (i : Nat) : loadLE mem (8 * i) 8 < 2 ^ 64 :=
  loadLE_lt mem (8 * i) 8

/-! ## Counting clear bits -/

theorem clearCount_succ (mem : ByteMem) (n : Nat) :
    clearCount mem (n + 1) = clearCount mem n + if bitAt mem n then 0 else 1 := by
  unfold clearCount
  rw [List.range_succ, List.countP_append]
  cases hbit : bitAt mem n <;> simp [hbit]

theorem clearCount_congr {mem mem' : ByteMem} {n : Nat}
    (hagree : ∀ i, i < n → bitAt mem i = bitAt mem' i) : clearCount mem n = clearCount mem' n := by
  induction n with
  | zero => rfl
  | succ n ih =>
    rw [clearCount_succ, clearCount_succ, ih fun i hi => hagree i (by omega),
      hagree n (by omega)]

theorem clearCount_eq_zero_iff (mem : ByteMem) (n : Nat) :
    clearCount mem n = 0 ↔ ∀ i, i < n → bitAt mem i = true := by
  unfold clearCount
  simp [List.countP_eq_zero]

theorem clearCount_le (mem : ByteMem) (n : Nat) : clearCount mem n ≤ n := by
  exact (List.countP_le_length).trans (by simp)

/-- A bitmap whose set bits are the first `k`. -/
theorem clearCount_of_below {mem : ByteMem} {k n : Nat}
    (hbits : ∀ i, i < n → bitAt mem i = decide (i < k)) : clearCount mem n = n - k := by
  induction n with
  | zero => simp [clearCount]
  | succ n ih =>
    rw [clearCount_succ, ih fun i hi => hbits i (by omega), hbits n (by omega)]
    by_cases hn : n < k
    · simp [hn]
      omega
    · simp [hn]
      omega

/-- Setting a clear bit below the bound removes one clear bit. -/
theorem clearCount_orBit {mem : ByteMem} {n i : Nat} (hi : i < n) (hclear : bitAt mem i = false) :
    clearCount (orBit mem i) n + 1 = clearCount mem n := by
  induction n with
  | zero => omega
  | succ n ih =>
    rw [clearCount_succ, clearCount_succ]
    by_cases hlast : i = n
    · subst hlast
      have hsame : clearCount (orBit mem i) i = clearCount mem i := by
        apply clearCount_congr
        intro j hj
        simp [show i ≠ j by omega]
      simp [hsame, hclear]
    · have hstep := ih (by omega)
      simp only [bitAt_orBit, hlast, decide_false, Bool.false_or]
      omega

/-- Clearing a set bit below the bound adds one clear bit. -/
theorem clearCount_andNotBit {mem : ByteMem} {n i : Nat} (hi : i < n) (hset : bitAt mem i = true) :
    clearCount (andNotBit mem i) n = clearCount mem n + 1 := by
  have hback : orBit (andNotBit mem i) i = mem := by
    apply mem_eq_of_bitAt_eq
    intro j
    by_cases hij : i = j
    · subst hij
      simp [hset]
    · simp [hij]
  have hstep : clearCount (orBit (andNotBit mem i) i) n + 1 =
      clearCount (andNotBit mem i) n := clearCount_orBit hi (by simp)
  rw [hback] at hstep
  exact hstep.symm

/-- Either every bit below `n` is set or there is a least clear one. -/
theorem full_or_firstClear (mem : ByteMem) (n : Nat) :
    (∀ i, i < n → bitAt mem i = true) ∨ ∃ i, IsFirstClear mem n i := by
  induction n with
  | zero => exact Or.inl fun i hi => absurd hi (Nat.not_lt_zero i)
  | succ n ih =>
    rcases ih with hfull | ⟨i, hfirst⟩
    · cases hbit : bitAt mem n with
      | true =>
        left
        intro i hi
        rcases Nat.lt_succ_iff_lt_or_eq.mp hi with hlt | rfl
        · exact hfull i hlt
        · exact hbit
      | false => exact Or.inr ⟨n, Nat.lt_succ_self n, hbit, hfull⟩
    · exact Or.inr ⟨i, Nat.lt_succ_of_lt hfirst.lt, hfirst.clear, hfirst.below⟩

/-! ## Summaries

A second bitmap holds one bit for each slice of `width` bits and says whether the
slice is full. -/

/-- The first `slices` bits of `summary` say which slices of `mem` are full. -/
def Summarizes (summary mem : ByteMem) (width slices : Nat) : Prop :=
  ∀ m, m < slices → (bitAt summary m = true ↔ ∀ j, j < width → bitAt mem (width * m + j) = true)

section Summary

variable {summary mem : ByteMem} {width slices n i : Nat}

/-- The slice of the first clear bit is the first that is not full. -/
theorem Summarizes.firstClear (hsummary : Summarizes summary mem width slices) (hwidth : 0 < width)
    (hfirst : IsFirstClear mem n i) (hslice : i / width < slices) :
    IsFirstClear summary slices (i / width) := by
  have hindex : width * (i / width) + i % width = i := Nat.div_add_mod i width
  refine ⟨hslice, ?_, fun m hm => ?_⟩
  · rw [← Bool.not_eq_true, hsummary _ hslice]
    intro hfull
    have hbit := hfull (i % width) (Nat.mod_lt i hwidth)
    rw [hindex, hfirst.clear] at hbit
    exact Bool.false_ne_true hbit
  · refine (hsummary m (by omega)).mpr fun j hj => hfirst.below _ ?_
    have hnext : width * (m + 1) ≤ width * (i / width) := Nat.mul_le_mul_left width hm
    rw [Nat.mul_succ] at hnext
    omega

/-- Setting a bit keeps the summary if its slice is marked once it is full. -/
theorem Summarizes.orBit (hsummary : Summarizes summary mem width slices) (hwidth : 0 < width)
    {full : Bool}
    (hfull : full = true ↔ ∀ j, j < width → bitAt (orBit mem i) (width * (i / width) + j) = true) :
    Summarizes (if full then Lib.orBit summary (i / width) else summary) (Lib.orBit mem i) width
      slices := by
  intro m hm
  by_cases hslice : m = i / width
  · subst hslice
    by_cases hmark : full = true
    · rw [if_pos hmark]
      simpa using hfull.mp hmark
    · rw [if_neg hmark, ← hfull, hsummary _ hm]
      refine ⟨fun hold => absurd (hfull.mpr fun j hj => ?_) hmark, fun h => absurd h hmark⟩
      rw [bitAt_orBit, hold j hj, Bool.or_true]
  · -- the bits of the other slices are the old ones
    have hsame (j : Nat) (hj : j < width) :
        bitAt (Lib.orBit mem i) (width * m + j) = bitAt mem (width * m + j) := by
      have hne : i ≠ width * m + j := by
        rintro rfl
        refine hslice ?_
        rw [Nat.mul_add_div hwidth, Nat.div_eq_of_lt hj, Nat.add_zero]
      rw [bitAt_orBit, decide_eq_false hne, Bool.false_or]
    have hbit : bitAt (if full then Lib.orBit summary (i / width) else summary) m =
        bitAt summary m := by
      split
      · rw [bitAt_orBit, decide_eq_false (Ne.symm hslice), Bool.false_or]
      · rfl
    rw [hbit, hsummary m hm]
    exact forall₂_congr fun j hj => by rw [hsame j hj]

end Summary

end Pristine.Lib
