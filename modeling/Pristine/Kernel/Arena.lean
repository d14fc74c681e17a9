import Mathlib.Tactic
import Pristine.Lib.Run

/-!
# The arena

`arena_alloc` hands out consecutive pieces of one buffer.  Stage 2 and the kernel
have a copy each, which differ in the width of `size_t`.  The sum of the aligned
offset and the size is compared in `size_t`, so a size near the end of its range
makes the sum small again.
-/

namespace Pristine.Kernel

open Lib

/-- The two programs with an arena. -/
inductive ArenaCopy where
  | stage2
  | kernel
  deriving DecidableEq, Repr

/-- The bits of `size_t`. -/
def ArenaCopy.bits : ArenaCopy → Nat
  | .stage2 => 32
  | .kernel => 64

/-- `ARENA_SIZE`. -/
def arenaSize : Nat := 16 * 1024

section Functions

variable (w : Nat)

/-- `arena_align_up`. -/
def arenaAlignUp (val align : Nat) : Nat :=
  (val + align - 1) % 2 ^ w &&& (2 ^ w - align)

/-- `arena_alloc`: the offset of the result in the buffer, and `_arena_offset` afterwards. -/
def arenaAlloc (offset size align : Nat) : Option Nat × Nat :=
  let aligned := arenaAlignUp w offset align
  if arenaSize < (aligned + size) % 2 ^ w then (none, offset)
  else (some aligned, (aligned + size) % 2 ^ w % 2 ^ 32)

/-- `arena_reset`. -/
def arenaReset : Nat := 0

end Functions

/-! ## Rounding -/

/-- The least multiple of `align` that is not below `val`. -/
def roundUp (val align : Nat) : Nat := (val + align - 1) / align * align

/-- Clearing the low bits of a word. -/
theorem and_high_mask {x k w : Nat} (hx : x < 2 ^ w) (hk : k ≤ w) :
    x &&& (2 ^ w - 2 ^ k) = x / 2 ^ k * 2 ^ k := by
  have hmask : 2 ^ w - 2 ^ k = (2 ^ (w - k) - 1) <<< k := by
    rw [Nat.shiftLeft_eq, Nat.sub_mul, ← Nat.pow_add, Nat.sub_add_cancel hk, Nat.one_mul]
  rw [hmask, ← Nat.shiftRight_eq_div_pow, ← Nat.shiftLeft_eq]
  apply Nat.eq_of_testBit_eq
  intro i
  rw [Nat.testBit_and, Nat.testBit_shiftLeft, Nat.testBit_shiftLeft, Nat.testBit_two_pow_sub_one,
    Nat.testBit_shiftRight]
  by_cases hlow : k ≤ i
  · rw [Nat.add_sub_cancel' hlow]
    by_cases hhigh : i < w
    · simp [hlow, show i - k < w - k by omega]
    · -- above the word there is nothing
      rw [Nat.testBit_lt_two_pow (Nat.lt_of_lt_of_le hx (Nat.pow_le_pow_right (by omega) (by omega)))]
      simp
  · simp [hlow]

theorem arenaAlignUp_eq {w val k : Nat} (hval : val ≤ arenaSize) (hk : k < w) (hw : 16 ≤ w) :
    arenaAlignUp w val (2 ^ k) = roundUp val (2 ^ k) := by
  have hpow : 2 ^ k ≤ 2 ^ (w - 1) := Nat.pow_le_pow_right (by omega) (by omega)
  have hhalf : 2 ^ w = 2 * 2 ^ (w - 1) := by
    rw [← Nat.pow_succ', Nat.succ_eq_add_one, Nat.sub_add_cancel (by omega)]
  have hlarge : 2 ^ 15 ≤ 2 ^ (w - 1) := Nat.pow_le_pow_right (by omega) (by omega)
  have hsum : val + 2 ^ k - 1 < 2 ^ w := by
    unfold arenaSize at hval
    omega
  unfold arenaAlignUp roundUp
  rw [Nat.mod_eq_of_lt hsum, and_high_mask hsum (by omega)]

theorem le_roundUp (val : Nat) {align : Nat} (halign : 0 < align) : val ≤ roundUp val align := by
  unfold roundUp
  have hdiv := Nat.div_add_mod (val + align - 1) align
  have hmod := Nat.mod_lt (val + align - 1) halign
  rw [Nat.mul_comm] at hdiv
  omega

theorem dvd_roundUp (val align : Nat) : align ∣ roundUp val align := Nat.dvd_mul_left ..

/-! ## Runs -/

/-- The arena with the ranges handed out since the last reset, as offset and size. -/
structure ArenaRun where
  offset : Nat
  ranges : List (Nat × Nat)

/-- The arguments of `arena_alloc`: a `size_t` and a power of two. -/
structure ArenaArgs (w size align : Nat) : Prop where
  size_lt : size < 2 ^ w
  power : ∃ k < w, align = 2 ^ k

/-- The sum that is compared with the size of the arena does not become small by wrapping around. -/
def ArenaFits (w offset size align : Nat) : Prop :=
  roundUp offset align + size < 2 ^ w ∨ arenaSize < (roundUp offset align + size) % 2 ^ w

/-- What a call promises: a null result leaves the arena as it was; any other one is a range inside the
buffer, aligned, and apart from all ranges handed out since the last reset. -/
def ArenaSound (w : Nat) (r : ArenaRun) (size align : Nat) : Prop :=
  match arenaAlloc w r.offset size align with
  | (none, offset') => offset' = r.offset
  | (some start, _) => start + size ≤ arenaSize ∧ align ∣ start ∧
      ∀ range ∈ r.ranges, start + size ≤ range.1 ∨ range.1 + range.2 ≤ start

inductive ArenaStep (w : Nat) : ArenaRun → ArenaRun → Prop
  | alloc {r : ArenaRun} {size align start offset' : Nat} (hargs : ArenaArgs w size align)
      (hfits : ArenaFits w r.offset size align)
      (hcall : arenaAlloc w r.offset size align = (some start, offset')) :
      ArenaStep w r ⟨offset', (start, size) :: r.ranges⟩
  | refused {r : ArenaRun} {size align offset' : Nat} (hargs : ArenaArgs w size align)
      (hfits : ArenaFits w r.offset size align)
      (hcall : arenaAlloc w r.offset size align = (none, offset')) :
      ArenaStep w r ⟨offset', r.ranges⟩
  | reset {r : ArenaRun} : ArenaStep w r ⟨arenaReset, []⟩

/-- The ranges lie below the offset, which lies in the buffer. -/
structure ArenaInv (r : ArenaRun) : Prop where
  bounded : r.offset ≤ arenaSize
  below : ∀ range ∈ r.ranges, range.1 + range.2 ≤ r.offset

section Call

variable {w : Nat} {r r' : ArenaRun} {size align : Nat}

/-- The two outcomes of a call, in numbers that do not wrap. -/
theorem arenaAlloc_eq (hinv : ArenaInv r) (hargs : ArenaArgs w size align) (hw : 16 ≤ w) :
    arenaAlloc w r.offset size align =
      if arenaSize < (roundUp r.offset align + size) % 2 ^ w then (none, r.offset)
      else (some (roundUp r.offset align), (roundUp r.offset align + size) % 2 ^ w) := by
  obtain ⟨k, hk, rfl⟩ := hargs.power
  unfold arenaAlloc
  simp only [arenaAlignUp_eq hinv.bounded hk hw]
  split
  · rfl
  next hle =>
    rw [Nat.mod_eq_of_lt (show (roundUp r.offset (2 ^ k) + size) % 2 ^ w < 2 ^ 32 by
      unfold arenaSize at hle
      omega)]

theorem ArenaArgs.pos (hargs : ArenaArgs w size align) : 0 < align := by
  obtain ⟨k, -, rfl⟩ := hargs.power
  exact Nat.two_pow_pos k

theorem arenaStep_inv (hw : 16 ≤ w) (hinv : ArenaInv r) (hstep : ArenaStep w r r') : ArenaInv r' := by
  cases hstep with
  | alloc hargs hfits hcall =>
    rw [arenaAlloc_eq hinv hargs hw] at hcall
    split at hcall
    next => cases hcall
    next hle =>
      cases hcall
      have hsum := Nat.mod_eq_of_lt (hfits.resolve_right hle)
      rw [hsum] at hle ⊢
      refine ⟨Nat.le_of_not_lt hle, fun range hrange => ?_⟩
      rcases List.mem_cons.mp hrange with rfl | hold
      · exact Nat.le_refl _
      · have hbelow := hinv.below range hold
        have hround := le_roundUp r.offset hargs.pos
        show range.1 + range.2 ≤ roundUp r.offset _ + _
        omega
  | refused hargs hfits hcall =>
    rw [arenaAlloc_eq hinv hargs hw] at hcall
    split at hcall
    next =>
      cases hcall
      exact ⟨hinv.bounded, hinv.below⟩
    next => cases hcall
  | reset => exact ⟨Nat.zero_le _, by simp⟩

theorem arenaSound_iff_fits (hw : 16 ≤ w) (hinv : ArenaInv r) (hargs : ArenaArgs w size align) :
    ArenaSound w r size align ↔ ArenaFits w r.offset size align := by
  have hround := le_roundUp r.offset hargs.pos
  unfold ArenaSound
  rw [arenaAlloc_eq hinv hargs hw]
  by_cases hlarge : arenaSize < (roundUp r.offset align + size) % 2 ^ w
  · rw [if_pos hlarge]
    exact ⟨fun _ => Or.inr hlarge, fun _ => rfl⟩
  · rw [if_neg hlarge]
    constructor
    · rintro ⟨hbound, -⟩
      have hpow : 2 ^ 16 ≤ 2 ^ w := Nat.pow_le_pow_right (by omega) hw
      left
      unfold arenaSize at hbound
      omega
    · intro hfits
      rw [Nat.mod_eq_of_lt (hfits.resolve_right hlarge)] at hlarge
      refine ⟨Nat.le_of_not_lt hlarge, dvd_roundUp .., fun range hrange => Or.inr ?_⟩
      exact Nat.le_trans (hinv.below range hrange) hround

end Call

/-- In every run whose sums do not wrap around, a further call keeps its promise exactly if its sum does
not wrap around. -/
theorem arena_sound_iff (copy : ArenaCopy) {r : ArenaRun} {size align : Nat}
    (hrun : Relation.ReflTransGen (ArenaStep copy.bits) ⟨0, []⟩ r)
    (hargs : ArenaArgs copy.bits size align) :
    ArenaSound copy.bits r size align ↔ ArenaFits copy.bits r.offset size align := by
  have hw : 16 ≤ copy.bits := by cases copy <;> decide
  have hinv : ArenaInv r := run_invariant hrun ⟨Nat.zero_le _, by simp⟩
    fun _ _ hinv hstep => arenaStep_inv hw hinv hstep
  exact arenaSound_iff_fits hw hinv hargs

theorem arenaArgs_of_lt {w size k : Nat} (hsize : size < 2 ^ w) (hk : k < w) :
    ArenaArgs w size (2 ^ k) :=
  ⟨hsize, k, hk, rfl⟩

/-- The first allocation of a run, 16 bytes. -/
theorem arenaStep_first (copy : ArenaCopy) : ArenaStep copy.bits ⟨0, []⟩ ⟨16, [(0, 16)]⟩ := by
  have hargs : ArenaArgs copy.bits 16 (2 ^ 0) := by
    cases copy <;> exact arenaArgs_of_lt (by decide) (by decide)
  cases copy with
  | stage2 => exact .alloc hargs (Or.inl (by decide)) (by decide)
  | kernel => exact .alloc hargs (Or.inl (by decide)) (by decide)

theorem arena_sound_iff_second : ArenaSound 64 ⟨16, [(0, 16)]⟩ 100 (2 ^ 3) ↔
    ArenaFits 64 16 100 (2 ^ 3) :=
  arena_sound_iff .kernel (.single (arenaStep_first .kernel)) (arenaArgs_of_lt (by decide) (by decide))

/-- A size of `SIZE_MAX - 7` bytes is accepted, and what is handed out next overlaps the first range. -/
theorem arena_overlaps : ArenaStep 64 ⟨0, []⟩ ⟨16, [(0, 16)]⟩ ∧
    ¬ ArenaSound 64 ⟨16, [(0, 16)]⟩ (2 ^ 64 - 8) 1 ∧
    arenaAlloc 64 16 (2 ^ 64 - 8) 1 = (some 16, 8) ∧ arenaAlloc 64 8 8 1 = (some 8, 16) := by
  refine ⟨arenaStep_first .kernel, ?_, by decide, by decide⟩
  have hcall : arenaAlloc 64 16 (2 ^ 64 - 8) 1 = (some 16, 8) := by decide
  unfold ArenaSound
  rw [hcall]
  decide

end Pristine.Kernel
