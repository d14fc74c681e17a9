import Mathlib.Algebra.CharP.Two
import Mathlib.Algebra.Polynomial.Div
import Mathlib.Data.ZMod.Basic
import Mathlib.Tactic

/-!
# Linear feedback shift registers

A register takes one bit a step: the bit is added to its lowest bit, the register
is shifted down, and the polynomial is added if the bit that falls out is set.
Everything is linear over the two-element field, so the difference of two runs is
the run on the difference of the inputs (`serial_xor`).  If the polynomial has
its highest bit set a step is injective, and a nonzero input that spans at most
as many bits as the register has leaves a nonzero register (`serial_burst`).
Read as a polynomial over that field, the register is the remainder of the input
by the polynomial of its feedback (`registerPoly_serial`).
-/

namespace Pristine.Lib

open Function Polynomial

variable {w : Nat}

/-- One step without input. -/
def shiftStep (poly d : BitVec w) : BitVec w :=
  if d.getLsbD 0 then (d >>> 1) ^^^ poly else d >>> 1

/-- The register after the first `n` bits of the input. -/
def serial (poly d : BitVec w) (input : Nat → Bool) : Nat → BitVec w
  | 0 => d
  | n + 1 => shiftStep poly (serial poly d input n ^^^ if input n then 1#w else 0#w)

/-- The first `n` bits of the input as a number, the first one lowest. -/
def inputWord (w : Nat) (input : Nat → Bool) : Nat → BitVec w
  | 0 => 0#w
  | n + 1 => inputWord w input n ^^^ if input n then BitVec.twoPow w n else 0#w

section Step

variable (poly : BitVec w)

@[simp] theorem shiftStep_zero : shiftStep poly 0#w = 0#w := by
  simp [shiftStep]

theorem shiftStep_xor (a b : BitVec w) :
    shiftStep poly (a ^^^ b) = shiftStep poly a ^^^ shiftStep poly b := by
  have hcancel : a >>> 1 ^^^ poly ^^^ (b >>> 1 ^^^ poly) = a >>> 1 ^^^ b >>> 1 := by
    rw [BitVec.xor_assoc, BitVec.xor_comm (b >>> 1) poly, ← BitVec.xor_assoc poly,
      BitVec.xor_self, BitVec.zero_xor]
  unfold shiftStep
  rw [BitVec.getLsbD_xor, BitVec.ushiftRight_xor_distrib]
  by_cases ha : a.getLsbD 0 = true <;> by_cases hb : b.getLsbD 0 = true <;> simp only [ha, hb]
  · simp [hcancel]
  · simp
    ac_rfl
  · simp [BitVec.xor_assoc]
  · simp

/-- The bit that falls out can be told from the rest if the polynomial has its highest bit. -/
theorem eq_zero_of_shiftStep {poly d : BitVec w} (htop : poly.getLsbD (w - 1) = true)
    (hzero : shiftStep poly d = 0#w) : d = 0#w := by
  unfold shiftStep at hzero
  split at hzero
  · -- the highest bit would be that of the polynomial
    have hbit := congrArg (fun x => x.getLsbD (w - 1)) hzero
    rw [BitVec.getLsbD_xor, BitVec.getLsbD_ushiftRight, BitVec.getLsbD_of_ge d _ (by omega), htop]
      at hbit
    simp at hbit
  · rename_i hlow
    ext i hi
    rcases Nat.eq_zero_or_pos i with rfl | hpos
    · simpa [BitVec.getLsbD_eq_getElem hi] using hlow
    · have hbit := congrArg (fun x => x.getLsbD (i - 1)) hzero
      simp only [BitVec.getLsbD_ushiftRight, BitVec.getLsbD_zero] at hbit
      rw [show 1 + (i - 1) = i by omega] at hbit
      simpa [BitVec.getLsbD_eq_getElem hi] using hbit

theorem iterate_shiftStep_zero (n : Nat) : (shiftStep poly)^[n] 0#w = 0#w := by
  induction n with
  | zero => rfl
  | succ n ih => rw [iterate_succ_apply, shiftStep_zero, ih]

theorem iterate_shiftStep_xor (n : Nat) (a b : BitVec w) :
    (shiftStep poly)^[n] (a ^^^ b) = (shiftStep poly)^[n] a ^^^ (shiftStep poly)^[n] b := by
  induction n generalizing a b with
  | zero => rfl
  | succ n ih => simp only [iterate_succ_apply, shiftStep_xor, ih]

theorem eq_zero_of_iterate {poly d : BitVec w} (htop : poly.getLsbD (w - 1) = true) {n : Nat}
    (hzero : (shiftStep poly)^[n] d = 0#w) : d = 0#w := by
  induction n with
  | zero => exact hzero
  | succ n ih =>
    rw [iterate_succ_apply'] at hzero
    exact ih (eq_zero_of_shiftStep htop hzero)

/-- A lone bit moves down. -/
theorem shiftStep_twoPow {n : Nat} (hn : n + 1 < w) :
    shiftStep poly (BitVec.twoPow w (n + 1)) = BitVec.twoPow w n := by
  have hlow : (BitVec.twoPow w (n + 1)).getLsbD 0 = false := by simp
  unfold shiftStep
  rw [hlow]
  ext i hi
  have hiff : n + 1 = 1 + i ↔ i = n := by omega
  simp [hiff, hn]

theorem iterate_shiftStep_twoPow {n : Nat} (hn : n < w) :
    (shiftStep poly)^[n] (BitVec.twoPow w n) = 1#w := by
  induction n with
  | zero => simp [BitVec.twoPow_zero]
  | succ n ih => rw [iterate_succ_apply, shiftStep_twoPow poly hn, ih (by omega)]

end Step

section Serial

variable (poly : BitVec w)

/-- Up to the width of the register the input can be added at once. -/
theorem serial_eq (d : BitVec w) (input : Nat → Bool) {n : Nat} (hn : n ≤ w) :
    serial poly d input n = (shiftStep poly)^[n] (d ^^^ inputWord w input n) := by
  induction n with
  | zero => simp [serial, inputWord]
  | succ n ih =>
    rw [serial, ih (by omega), inputWord, iterate_succ_apply', ← BitVec.xor_assoc,
      iterate_shiftStep_xor poly n (d ^^^ inputWord w input n)]
    split
    · rw [iterate_shiftStep_twoPow poly (by omega)]
    · rw [iterate_shiftStep_zero]

/-- The rest of the input starts from the register that its beginning leaves. -/
theorem serial_add (d : BitVec w) (input : Nat → Bool) (m n : Nat) :
    serial poly d input (m + n) = serial poly (serial poly d input m) (fun i => input (m + i)) n := by
  induction n with
  | zero => rfl
  | succ n ih => rw [← Nat.add_assoc, serial, serial, ih]

/-- The difference of two runs. -/
theorem serial_xor (a b : BitVec w) (input input' : Nat → Bool) (n : Nat) :
    serial poly a input n ^^^ serial poly b input' n =
      serial poly (a ^^^ b) (fun i => input i ^^ input' i) n := by
  induction n with
  | zero => rfl
  | succ n ih =>
    rw [serial, serial, serial, ← shiftStep_xor, ← ih]
    congr 1
    cases input n <;> cases input' n <;> simp <;> grind

/-- Without input the register only shifts. -/
theorem serial_silent (d : BitVec w) {input : Nat → Bool} {n : Nat}
    (hsilent : ∀ i < n, input i = false) : serial poly d input n = (shiftStep poly)^[n] d := by
  induction n with
  | zero => rfl
  | succ n ih =>
    rw [serial, ih fun i hi => hsilent i (by omega), hsilent n (by omega),
      iterate_succ_apply']
    simp

theorem getLsbD_inputWord (input : Nat → Bool) (n j : Nat) :
    (inputWord w input n).getLsbD j = (decide (j < n ∧ j < w) && input j) := by
  induction n with
  | zero => simp [inputWord]
  | succ n ih =>
    rw [inputWord, BitVec.getLsbD_xor, ih]
    by_cases hj : j = n
    · subst hj
      by_cases hw : j < w <;> cases input j <;> simp [hw]
    · have hiff : (j < n + 1 ∧ j < w) ↔ (j < n ∧ j < w) := by omega
      have hne : n ≠ j := fun h => hj h.symm
      have hsame : decide (j < n + 1 ∧ j < w) = decide (j < n ∧ j < w) := decide_eq_decide.mpr hiff
      rw [hsame]
      cases input n <;> simp [hne]

variable {poly}

/-- A burst no longer than the register does not cancel out. -/
theorem serial_burst (htop : poly.getLsbD (w - 1) = true) {input : Nat → Bool} {start n : Nat}
    (hwindow : ∀ i < n, input i = true → start ≤ i ∧ i < start + w)
    (hsome : ∃ i < n, input i = true) : serial poly 0#w input n ≠ 0#w := by
  obtain ⟨i, hi, hbit⟩ := hsome
  obtain ⟨hstart, hend⟩ := hwindow i hi hbit
  have hquiet : ∀ j < n, ¬ (start ≤ j ∧ j < start + w) → input j = false := by
    intro j hj hout
    rw [← Bool.not_eq_true]
    exact fun h => hout (hwindow j hj h)
  -- nothing before the window, the window, and nothing after it
  obtain ⟨len, rest, hlen, hsplit, hcover, hafter⟩ :
      ∃ len rest, len ≤ w ∧ n = start + (len + rest) ∧ i < start + len ∧ (rest = 0 ∨ len = w) := by
    by_cases hn : n ≤ start + w
    · exact ⟨n - start, 0, by omega, by omega, by omega, Or.inl rfl⟩
    · exact ⟨w, n - start - w, Nat.le_refl w, by omega, by omega, Or.inr rfl⟩
  have hbefore : serial poly 0#w input start = 0#w := by
    rw [serial_silent poly 0#w fun j hj => hquiet j (by omega) (by omega), iterate_shiftStep_zero]
  have hword : inputWord w (fun j => input (start + j)) len ≠ 0#w := by
    intro hzero
    have hget := getLsbD_inputWord (w := w) (fun j => input (start + j)) len (i - start)
    rw [hzero, show start + (i - start) = i by omega, hbit] at hget
    simp at hget
    omega
  intro hzero
  rw [hsplit, serial_add, hbefore, serial_add, serial_eq poly _ _ hlen, BitVec.zero_xor,
    serial_silent poly _ fun j hj => hquiet _ (by omega) (by omega)] at hzero
  exact hword (eq_zero_of_iterate htop (eq_zero_of_iterate htop hzero))

end Serial

/-! ## Remainders -/

/-- A register as a polynomial, its lowest bit the highest coefficient. -/
noncomputable def registerPoly (d : BitVec w) : (ZMod 2)[X] :=
  ∑ i ∈ Finset.range w, if d.getLsbD i then X ^ (w - 1 - i) else 0

/-- The polynomial of degree `w` that a register of `w` bits stands for as feedback. -/
noncomputable def generator (poly : BitVec w) : (ZMod 2)[X] := X ^ w + registerPoly poly

/-- The first `n` bits of an input behind a register, as the coefficients of one polynomial, with
room for a remainder. -/
noncomputable def streamPoly (d : BitVec w) (input : Nat → Bool) (n : Nat) : (ZMod 2)[X] :=
  X ^ n * registerPoly d + ∑ i ∈ Finset.range n, if input i then X ^ (w + n - 1 - i) else 0

theorem registerPoly_xor (a b : BitVec w) :
    registerPoly (a ^^^ b) = registerPoly a + registerPoly b := by
  unfold registerPoly
  rw [← Finset.sum_add_distrib]
  refine Finset.sum_congr rfl fun i _ => ?_
  rw [BitVec.getLsbD_xor]
  cases a.getLsbD i <;> cases b.getLsbD i <;> simp [CharTwo.add_self_eq_zero]

theorem degree_registerPoly_lt (d : BitVec w) : (registerPoly d).degree < w := by
  refine degree_lt_iff_coeff_zero _ _ |>.mpr fun m hm => ?_
  unfold registerPoly
  rw [finsetSum_coeff]
  refine Finset.sum_eq_zero fun i hi => ?_
  have hi := Finset.mem_range.mp hi
  split
  · rw [coeff_X_pow, if_neg (by omega)]
  · rfl

theorem coeff_registerPoly (d : BitVec w) {i : Nat} (hi : i < w) :
    (registerPoly d).coeff (w - 1 - i) = if d.getLsbD i then 1 else 0 := by
  unfold registerPoly
  rw [finsetSum_coeff, Finset.sum_eq_single i]
  · split <;> simp
  · intro j hj hne
    have hj := Finset.mem_range.mp hj
    split
    · rw [coeff_X_pow, if_neg (by omega)]
    · simp
  · intro hnot
    exact absurd (Finset.mem_range.mpr hi) hnot

theorem registerPoly_injective : Injective (registerPoly (w := w)) := by
  intro a b heq
  ext i hi
  have hcoeff := congrArg (fun p => p.coeff (w - 1 - i)) heq
  simp only [coeff_registerPoly _ hi] at hcoeff
  rw [← BitVec.getLsbD_eq_getElem, ← BitVec.getLsbD_eq_getElem]
  cases ha : a.getLsbD i <;> cases hb : b.getLsbD i <;> simp [ha, hb] at hcoeff ⊢

theorem X_mul_registerPoly (d : BitVec w) :
    X * registerPoly d = (if d.getLsbD 0 then X ^ w else 0) + registerPoly (d >>> 1) := by
  cases w with
  | zero => simp [registerPoly]
  | succ w =>
    unfold registerPoly
    rw [Finset.sum_range_succ', Finset.sum_range_succ, mul_add, Finset.mul_sum, add_comm]
    have htop : (d >>> 1).getLsbD w = false := by simp
    rw [htop]
    congr 1
    · split <;> simp [pow_succ']
    · simp only [Bool.false_eq_true, if_false, add_zero]
      refine Finset.sum_congr rfl fun i hi => ?_
      have hi := Finset.mem_range.mp hi
      rw [BitVec.getLsbD_ushiftRight, Nat.add_comm 1 i]
      split
      · rw [← pow_succ']
        congr 1
        omega
      · simp


theorem monic_generator (poly : BitVec w) : (generator poly).Monic :=
  monic_X_pow_add (degree_registerPoly_lt poly)

theorem registerPoly_lt_generator (poly d : BitVec w) :
    (registerPoly d).degree < (generator poly).degree := by
  have hlow : (registerPoly poly).degree < (X ^ w : (ZMod 2)[X]).degree := by
    rw [degree_X_pow]
    exact degree_registerPoly_lt poly
  unfold generator
  rw [degree_add_eq_left_of_degree_lt hlow, degree_X_pow]
  exact degree_registerPoly_lt d

/-- A shift multiplies by `X`, and the feedback takes the remainder. -/
theorem registerPoly_shiftStep (poly d : BitVec w) :
    registerPoly (shiftStep poly d) = (X * registerPoly d) %ₘ generator poly := by
  have hdegree := registerPoly_lt_generator poly (shiftStep poly d)
  refine ((div_modByMonic_unique (if d.getLsbD 0 then 1 else 0) _ (monic_generator poly)
    ⟨?_, hdegree⟩).2).symm
  rw [X_mul_registerPoly, shiftStep]
  split
  · rw [registerPoly_xor, generator]
    have htwice := CharTwo.add_self_eq_zero (registerPoly poly)
    linear_combination htwice
  · simp

theorem registerPoly_one (hw : 0 < w) : registerPoly 1#w = X ^ (w - 1) := by
  unfold registerPoly
  rw [Finset.sum_eq_single 0]
  · simp [hw]
  · intro i hi hne
    simp [hne]
  · intro hnot
    exact absurd (Finset.mem_range.mpr hw) hnot

theorem streamPoly_succ (d : BitVec w) (input : Nat → Bool) (n : Nat) :
    streamPoly d input (n + 1) = X * streamPoly d input n + if input n then X ^ w else 0 := by
  unfold streamPoly
  rw [Finset.sum_range_succ, mul_add, Finset.mul_sum, pow_succ', mul_assoc, add_assoc]
  congr 2
  · refine Finset.sum_congr rfl fun i hi => ?_
    have hi := Finset.mem_range.mp hi
    split
    · rw [← pow_succ']
      congr 1
      omega
    · simp
  · rw [show w + (n + 1) - 1 - n = w by omega]

/-- The register holds the remainder of what it has taken in. -/
theorem registerPoly_serial (hw : 0 < w) (poly d : BitVec w) (input : Nat → Bool) (n : Nat) :
    registerPoly (serial poly d input n) = streamPoly d input n %ₘ generator poly := by
  induction n with
  | zero =>
    have hsmall := (modByMonic_eq_self_iff (monic_generator poly)).mpr
      (registerPoly_lt_generator poly d)
    simp [serial, streamPoly, hsmall]
  | succ n ih =>
    have hbit : X * registerPoly (if input n then 1#w else 0#w) = if input n then X ^ w else 0 := by
      split
      · rw [registerPoly_one hw, ← pow_succ', Nat.sub_add_cancel hw]
      · simp [registerPoly]
    rw [serial, registerPoly_shiftStep, registerPoly_xor, mul_add, hbit, ih, streamPoly_succ]
    refine modByMonic_eq_of_dvd_sub (monic_generator poly)
      ⟨-(X * (streamPoly d input n /ₘ generator poly)), ?_⟩
    linear_combination X * modByMonic_add_div (streamPoly d input n) (generator poly)

end Pristine.Lib
