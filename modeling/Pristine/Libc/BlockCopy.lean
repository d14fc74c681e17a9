import Pristine.Lib.CellCopy

/-!
# Block copies of the C library

`memcpy` and `memmove` of `userspace/libc/string.c`; the kernel's `memcpy` is the
same text.  Both run `rep movsb` on the variables `dst`, `src` and `count`
themselves, so that `memcpy`, and `memmove` when it copies upwards, return the
advanced pointer.

Addresses have 64 bits, and a range may reach around the end of the address
space.
-/

namespace Pristine.Libc

open Lib

/-- A 64-bit address. -/
abbrev Addr := BitVec 64

/-- The bytes of an address space. -/
abbrev Memory := Addr → UInt8

/-- Memory, `rdi` and `rsi`. -/
structure StringState where
  mem : Memory
  rdi : Addr
  rsi : Addr

/-- The step of the string instructions, by the direction flag. -/
def stringStep (df : Bool) : Addr := if df then -1#64 else 1#64

/-- `movsb`. -/
def movsb (df : Bool) (s : StringState) : StringState where
  mem := Function.update s.mem s.rdi (s.mem s.rsi)
  rdi := s.rdi + stringStep df
  rsi := s.rsi + stringStep df

/-- `rep movsb` with `rcx = count`. -/
def repMovsb (df : Bool) : Nat → StringState → StringState
  | 0, s => s
  | count + 1, s => repMovsb df count (movsb df s)

/-- `memcpy`, called with the direction flag clear: memory afterwards and the result. -/
def memcpy (mem : Memory) (dst src : Addr) (count : BitVec 64) : Memory × Addr :=
  let s := repMovsb false count.toNat ⟨mem, dst, src⟩
  (s.mem, s.rdi)

/-- `memmove`. -/
def memmove (mem : Memory) (dst src : Addr) (count : BitVec 64) : Memory × Addr :=
  if dst < src then
    -- the operand of the assembly is `dst` itself
    let s := repMovsb false count.toNat ⟨mem, dst, src⟩
    (s.mem, s.rdi)
  else
    let s := repMovsb true count.toNat ⟨mem, dst + count - 1, src + count - 1⟩
    (s.mem, dst)

/-- The bytes arrive, and nothing else changes. -/
structure CopiesBytes (mem : Memory) (dst src : Addr) (count : BitVec 64) (mem' : Memory) : Prop where
  copied : ∀ i < count.toNat, mem' (dst + BitVec.ofNat 64 i) = mem (src + BitVec.ofNat 64 i)
  frame : ∀ a, (∀ i < count.toNat, a ≠ dst + BitVec.ofNat 64 i) → mem' a = mem a

/-- A block copy: it copies the bytes and returns the destination. -/
structure CopiesBlock (mem : Memory) (dst src : Addr) (count : BitVec 64) (result : Memory × Addr) : Prop
    extends CopiesBytes mem dst src count result.1 where
  returned : result.2 = dst

/-! ## `rep movsb` -/

/-- Address number `k` of a run that starts at `start`. -/
def stringAddr (df : Bool) (start : Addr) (k : Nat) : Addr := start + BitVec.ofNat 64 k * stringStep df

theorem stringAddr_succ (df : Bool) (start : Addr) (k : Nat) :
    stringAddr df (start + stringStep df) k = stringAddr df start (k + 1) := by
  unfold stringAddr
  rw [BitVec.ofNat_add, BitVec.add_mul, BitVec.one_mul, BitVec.add_assoc,
    BitVec.add_comm (stringStep df)]

theorem copyCells_succ (df : Bool) (s : StringState) (count : Nat) :
    copyCells (stringAddr df (s.rdi + stringStep df)) (stringAddr df (s.rsi + stringStep df)) count
        (movsb df s).mem =
      copyCells (stringAddr df s.rdi) (stringAddr df s.rsi) (count + 1) s.mem := by
  induction count with
  | zero =>
    unfold copyCells copyCells movsb stringAddr
    simp
  | succ count ih =>
    rw [copyCells, ih, stringAddr_succ, stringAddr_succ]
    rfl

/-- `rep movsb` copies cell after cell and leaves the advanced pointers. -/
theorem repMovsb_eq (df : Bool) (count : Nat) (s : StringState) :
    repMovsb df count s =
      { mem := copyCells (stringAddr df s.rdi) (stringAddr df s.rsi) count s.mem
        rdi := stringAddr df s.rdi count
        rsi := stringAddr df s.rsi count } := by
  induction count generalizing s with
  | zero => simp [repMovsb, copyCells, stringAddr]
  | succ count ih =>
    rw [repMovsb, ih]
    simp only [StringState.mk.injEq]
    exact ⟨copyCells_succ df s count, stringAddr_succ df s.rdi count, stringAddr_succ df s.rsi count⟩

theorem stringAddr_up (start : Addr) (k : Nat) :
    stringAddr false start k = start + BitVec.ofNat 64 k := by
  unfold stringAddr stringStep
  simp

/-- Going down from the last byte, step `k` is at byte `count - 1 - k`. -/
theorem stringAddr_down {count : BitVec 64} {k : Nat} (start : Addr) (hk : k < count.toNat) :
    stringAddr true (start + count - 1) k = start + BitVec.ofNat 64 (count.toNat - 1 - k) := by
  unfold stringAddr stringStep
  rw [if_pos rfl, BitVec.mul_neg, BitVec.mul_one]
  bv_omega

/-- Bytes of one range have different addresses. -/
theorem add_ofNat_ne (start : Addr) {i j : Nat} (hij : i < j) (hj : j < 2 ^ 64) :
    start + BitVec.ofNat 64 i ≠ start + BitVec.ofNat 64 j := by
  bv_omega

/-! ## The functions -/

section Functions

variable {mem : Memory} {dst src : Addr} {count : BitVec 64}

/-- Where the pointers go up, byte `i` is copied in step `i`. -/
theorem copiesBytes_up (hfresh : ∀ i j, i < j → j < count.toNat →
      src + BitVec.ofNat 64 j ≠ dst + BitVec.ofNat 64 i) :
    CopiesBytes mem dst src count (repMovsb false count.toNat ⟨mem, dst, src⟩).mem := by
  rw [repMovsb_eq]
  refine ⟨fun i hi => ?_, fun a ha => ?_⟩
  · rw [← stringAddr_up, ← stringAddr_up]
    refine copyCells_at (fun i j hij hj => ?_) (fun i j hij hj => ?_) hi
    · rw [stringAddr_up, stringAddr_up]
      exact hfresh i j hij hj
    · rw [stringAddr_up, stringAddr_up]
      exact add_ofNat_ne dst hij (by omega)
  · refine copyCells_other fun k hk => ?_
    rw [stringAddr_up]
    exact ha k hk

/-- Where they go down, it is copied in step `count - 1 - i`. -/
theorem copiesBytes_down (hfresh : ∀ i j, i < j → j < count.toNat →
      src + BitVec.ofNat 64 i ≠ dst + BitVec.ofNat 64 j) :
    CopiesBytes mem dst src count
      (repMovsb true count.toNat ⟨mem, dst + count - 1, src + count - 1⟩).mem := by
  rw [repMovsb_eq]
  refine ⟨fun i hi => ?_, fun a ha => ?_⟩
  · have hk : count.toNat - 1 - i < count.toNat := by omega
    have hback : count.toNat - 1 - (count.toNat - 1 - i) = i := by omega
    have hdst := stringAddr_down dst hk
    have hsrc := stringAddr_down src hk
    rw [hback] at hdst hsrc
    rw [← hdst, ← hsrc]
    refine copyCells_at (fun i j hij hj => ?_) (fun i j hij hj => ?_) hk
    · rw [stringAddr_down src hj, stringAddr_down dst (by omega)]
      exact hfresh _ _ (by omega) (by omega)
    · rw [stringAddr_down dst hj, stringAddr_down dst (by omega)]
      exact (add_ofNat_ne dst (by omega) (by omega)).symm
  · refine copyCells_other fun k hk => ?_
    rw [stringAddr_down dst hk]
    exact ha _ (by omega)

/-- The bytes are right wherever neither range reaches around the end of memory. -/
theorem memmove_copiesBytes (hdst : dst.toNat + count.toNat ≤ 2 ^ 64)
    (hsrc : src.toNat + count.toNat ≤ 2 ^ 64) :
    CopiesBytes mem dst src count (memmove mem dst src count).1 := by
  unfold memmove
  split
  next hup =>
    refine copiesBytes_up fun i j hij hj => ?_
    bv_omega
  next hup =>
    refine copiesBytes_down fun i j hij hj => ?_
    bv_omega

/-- Overlapping ranges. -/
theorem memmove_overlapping : CopiesBytes (fun a => a.toNat.toUInt8) 4 2 8
    (memmove (fun a => a.toNat.toUInt8) 4 2 8).1 :=
  memmove_copiesBytes (by decide) (by decide)

/-- The advanced pointer is the old one only if nothing was copied. -/
theorem repMovsb_rdi_eq : (repMovsb false count.toNat ⟨mem, dst, src⟩).rdi = dst ↔ count = 0 := by
  rw [repMovsb_eq]
  rw [stringAddr_up]
  constructor
  · intro h
    bv_omega
  · rintro rfl
    simp

theorem memcpy_zero : CopiesBlock mem dst src 0 (memcpy mem dst src 0) :=
  ⟨⟨fun i hi => absurd hi (Nat.not_lt_zero i), fun _ _ => rfl⟩, rfl⟩

theorem memmove_zero : CopiesBlock mem dst src 0 (memmove mem dst src 0) := by
  have hmem : (memmove mem dst src 0) = (mem, dst) := by
    unfold memmove
    split <;> rfl
  rw [hmem]
  exact ⟨⟨fun i hi => absurd hi (Nat.not_lt_zero i), fun _ _ => rfl⟩, rfl⟩

/-- Copying down loses the first byte if the destination reaches around to the start of the source. -/
theorem copyDown_wraps (hlt : src < dst) (hwrap : 2 ^ 64 < dst.toNat - src.toNat + count.toNat) :
    ∃ mem, ¬ CopiesBytes mem dst src count
      (repMovsb true count.toNat ⟨mem, dst + count - 1, src + count - 1⟩).mem := by
  refine ⟨fun a => if a = src then 1 else 0, fun hcopies => ?_⟩
  obtain ⟨n, hn⟩ : ∃ n, count.toNat = n + 1 := ⟨count.toNat - 1, by omega⟩
  have hfirst := hcopies.copied 0 (by omega)
  rw [repMovsb_eq] at hfirst
  have hlast : dst + BitVec.ofNat 64 0 = stringAddr true (dst + count - 1) n := by
    rw [stringAddr_down dst (by omega), hn, show n + 1 - 1 - n = 0 by omega]
  -- the last step is the only one that reads the marked byte, and by then it was overwritten
  have hunread : ∀ k < n, stringAddr true (src + count - 1) k ≠ src := by
    intro k hk
    rw [stringAddr_down src (by omega)]
    bv_omega
  have hhit : stringAddr true (dst + count - 1) (count.toNat - 1 - (2 ^ 64 - (dst.toNat - src.toNat))) =
      src := by
    rw [stringAddr_down dst (by omega)]
    bv_omega
  have hzero : copyCells (stringAddr true (dst + count - 1)) (stringAddr true (src + count - 1)) n
      (fun a => if a = src then (1 : UInt8) else 0) src = 0 :=
    copyCells_forall (P := fun b => b = 0) (fun a ha => if_neg ha) hunread
      (Or.inr ⟨count.toNat - 1 - (2 ^ 64 - (dst.toNat - src.toNat)), by omega, hhit⟩)
  have hread : stringAddr true (src + count - 1) n = src := by
    rw [stringAddr_down src (by omega), hn, show n + 1 - 1 - n = 0 by omega]
    simp
  rw [hlast, hn] at hfirst
  simp only [copyCells, Function.update_self, hread, hzero] at hfirst
  simp at hfirst

/-- `memmove` is a block copy if it copies nothing or copies down, to a destination that does not reach
around the end of memory to the source; `memcpy` is one only if it copies nothing. -/
theorem blockCopies_iff (dst src : Addr) (count : BitVec 64) :
    ((∀ mem, CopiesBlock mem dst src count (memmove mem dst src count)) ↔
      count = 0 ∨ (src ≤ dst ∧ dst.toNat - src.toNat + count.toNat ≤ 2 ^ 64)) ∧
    ((∀ mem, CopiesBlock mem dst src count (memcpy mem dst src count)) ↔ count = 0) := by
  refine ⟨⟨fun hcopies => ?_, ?_⟩, ⟨fun hcopies => ?_, ?_⟩⟩
  · by_cases hup : dst < src
    · left
      have hreturned := (hcopies fun _ => 0).returned
      rw [memmove, if_pos hup] at hreturned
      exact repMovsb_rdi_eq.mp hreturned
    · right
      refine ⟨BitVec.not_lt.mp hup, ?_⟩
      by_contra hwrap
      have hlt : src < dst := by
        have hcount := count.isLt
        bv_omega
      obtain ⟨mem, hwrong⟩ := copyDown_wraps hlt (Nat.lt_of_not_le hwrap)
      have hright := (hcopies mem).toCopiesBytes
      rw [memmove, if_neg hup] at hright
      exact hwrong hright
  · rintro (rfl | ⟨hle, hbound⟩) mem
    · exact memmove_zero
    · rw [memmove, if_neg (BitVec.not_lt.mpr hle)]
      refine ⟨copiesBytes_down fun i j hij hj => ?_, rfl⟩
      have hcount := count.isLt
      bv_omega
  · exact repMovsb_rdi_eq.mp (hcopies fun _ => 0).returned
  · rintro rfl mem
    exact memcpy_zero

/-- One byte, copied from address 2 to address 1. -/
theorem blockCopies_return_advanced :
    ¬ CopiesBlock (fun _ => 0) 1 2 1 (memmove (fun _ => 0) 1 2 1) ∧
      ¬ CopiesBlock (fun _ => 0) 1 2 1 (memcpy (fun _ => 0) 1 2 1) :=
  ⟨fun h => absurd h.returned (by decide), fun h => absurd h.returned (by decide)⟩

end Functions

end Pristine.Libc
