import Pristine.Lib.ByteMemory

/-!
# Reading the memory map in stage 1

`stage1_memmap_get` calls INT 15h, AX=E820h in a loop.  The BIOS stores one
descriptor a call at ES:DI and ends the sequence in one of two ways: it returns
EBX = 0 with the last descriptor, or it sets the carry flag on the call after the
last one.  The loop tests both before it advances DI and the count, so the last
descriptor is stored and not counted (`stage1MemmapGet_count`), and the other way
of ending is a hang.
-/

namespace Pristine.Stage1

open Lib

/-- `STAGE1_MEMMAP_ADDR`. -/
def stage1MemmapAddr : Nat := 0x6000 + 2

/-- `STAGE1_MEMMAP_SIZE`. -/
def stage1MemmapSize : Nat := 20

/-- `STAGE1_MEMMAP_COUNT`, the address of the count word. -/
def stage1MemmapCount : Nat := stage1MemmapAddr - 2

/-! ## The BIOS -/

/-- An E820 descriptor, as the BIOS stores it. -/
structure Descriptor where
  bytes : List UInt8
  size : bytes.length = stage1MemmapSize

/-- The two legal ends of the sequence. -/
inductive Ending where
  | ebxZero
  | carry
  deriving DecidableEq, Repr

/-- What the BIOS is going to answer: its descriptors in order, the end of the sequence, and the
continuation value that call `k` returns in EBX when another call is to follow. -/
structure Bios where
  descriptors : List Descriptor
  ending : Ending
  continuation : Nat → BitVec 32
  continuation_ne : ∀ k, continuation k ≠ 0#32
  -- EBX = 0 comes with a descriptor
  delivers : ending = .ebxZero → descriptors ≠ []

/-- The registers and the memory that the routine uses, with the buffer of each call that stored a
descriptor. -/
structure State where
  es : BitVec 16
  di : BitVec 16
  ebx : BitVec 32
  carryFlag : Bool
  mem : ByteMem
  calls : List (Nat × Descriptor)

/-- Store at ES:DI; the offset wraps inside the segment. -/
def storeSegment (mem : ByteMem) (es di : BitVec 16) (bytes : List UInt8) : ByteMem := fun a =>
  let base := es.toNat * 16
  let k := (a - base + 2 ^ 16 - di.toNat) % 2 ^ 16
  if base ≤ a ∧ a < base + 2 ^ 16 ∧ k < bytes.length then bytes.getD k 0 else mem a

/-- `int 0x15` with AX=E820h. -/
def Bios.int15 (bios : Bios) (s : State) : State :=
  let k := s.calls.length
  match bios.descriptors[k]? with
  | none => { s with carryFlag := true }
  | some d =>
    { s with
      carryFlag := false
      ebx := if k + 1 = bios.descriptors.length ∧ bios.ending = .ebxZero then 0#32
        else bios.continuation k
      mem := storeSegment s.mem s.es s.di d.bytes
      calls := s.calls ++ [(s.es.toNat * 16 + s.di.toNat, d)] }

/-! ## The routine -/

/-- Where the routine is after a number of BIOS calls. -/
inductive Outcome where
  | returned (s : State)
  | hung (s : State)
  | calling (s : State)

/-- The count word. -/
def State.count (s : State) : Nat := loadLE s.mem stage1MemmapCount 2

/-- `add di, STAGE1_MEMMAP_SIZE; inc word [STAGE1_MEMMAP_COUNT]`. -/
def State.advance (s : State) : State :=
  { s with
    di := s.di + BitVec.ofNat 16 stage1MemmapSize
    mem := storeLE s.mem stage1MemmapCount 2 (s.count + 1) }

/-- `.loop`, for a number of BIOS calls. -/
def stage1MemmapLoop (bios : Bios) : Nat → State → Outcome
  | 0, s => .calling s
  | left + 1, s =>
    let s' := bios.int15 s
    -- `.error` is `jmp $`
    if s'.carryFlag then .hung s'
    else if s'.ebx = 0#32 then .returned s'
    else stage1MemmapLoop bios left s'.advance

/-- The state at `.loop`. -/
def stage1MemmapStart (mem : ByteMem) : State where
  es := 0
  di := BitVec.ofNat 16 stage1MemmapAddr
  ebx := 0
  carryFlag := false
  mem := storeLE mem stage1MemmapCount 2 0
  calls := []

/-- `stage1_memmap_get`, called with `es` and `di` and left to make `left` BIOS calls.  The two
registers are pushed and popped in the same order, so they come back exchanged. -/
def stage1MemmapGet (bios : Bios) (left : Nat) (es di : BitVec 16) (mem : ByteMem) : Outcome :=
  match stage1MemmapLoop bios left (stage1MemmapStart mem) with
  | .returned s => .returned { s with es := di, di := es }
  | outcome => outcome

/-! ## The loop invariant -/

/-- The buffer of descriptor `i`. -/
def slot (i : Nat) : Nat := stage1MemmapAddr + i * stage1MemmapSize

/-- Descriptor `i` is in memory. -/
def Stored (bios : Bios) (mem : ByteMem) (i : Nat) : Prop :=
  ∀ d, bios.descriptors[i]? = some d → bytesAt mem (slot i) stage1MemmapSize = d.bytes

/-- DI overflows in the buffer of this descriptor. -/
def lastSlot : Nat := 2047

/-- After the call that stored descriptor `k`. -/
structure AfterCall (bios : Bios) (k : Nat) (s : State) : Prop where
  es : s.es = 0#16
  di : s.di = BitVec.ofNat 16 (slot k)
  length : s.calls.length = k + 1
  calls : ∀ i ≤ k, ∃ d, bios.descriptors[i]? = some d ∧ s.calls[i]? = some (slot i % 2 ^ 16, d)
  count : k ≤ lastSlot → s.count = k
  stored : k < lastSlot → ∀ i ≤ k, Stored bios s.mem i

/-- At `.loop`, with `k` descriptors read. -/
structure AtLoop (bios : Bios) (k : Nat) (s : State) : Prop where
  es : s.es = 0#16
  di : s.di = BitVec.ofNat 16 (slot k)
  length : s.calls.length = k
  calls : ∀ i < k, ∃ d, bios.descriptors[i]? = some d ∧ s.calls[i]? = some (slot i % 2 ^ 16, d)
  count : k ≤ lastSlot → s.count = k
  stored : k ≤ lastSlot → ∀ i < k, Stored bios s.mem i

/-- With ES = 0 the buffer is at DI, if DI does not overflow in it. -/
theorem storeSegment_of_fits (mem : ByteMem) {di : Nat} {bytes : List UInt8}
    (hfits : di + bytes.length ≤ 2 ^ 16) (hpos : 0 < bytes.length) :
    storeSegment mem 0#16 (BitVec.ofNat 16 di) bytes = storeBytes mem di bytes := by
  funext a
  have hdi : (BitVec.ofNat 16 di).toNat = di := by
    rw [BitVec.toNat_ofNat]
    exact Nat.mod_eq_of_lt (by omega)
  unfold storeSegment storeBytes
  simp only [hdi, BitVec.toNat_zero, Nat.zero_mul, Nat.zero_add, Nat.sub_zero, Nat.zero_le, true_and]
  by_cases hin : di ≤ a ∧ a < di + bytes.length
  · have hk : (a + 2 ^ 16 - di) % 2 ^ 16 = a - di := by omega
    rw [hk, if_pos hin, if_pos (by omega)]
  · rw [if_neg hin, if_neg (by omega)]

/-- A byte below the buffer is left alone, also when DI overflows in it. -/
theorem storeSegment_of_low (mem : ByteMem) {di a : Nat} {bytes : List UInt8}
    (hdi : di < 2 ^ 16) (hlow : di + bytes.length ≤ a + 2 ^ 16) (ha : a < di) :
    storeSegment mem 0#16 (BitVec.ofNat 16 di) bytes a = mem a := by
  have hdi' : (BitVec.ofNat 16 di).toNat = di := by
    rw [BitVec.toNat_ofNat]
    exact Nat.mod_eq_of_lt hdi
  unfold storeSegment
  simp only [hdi', BitVec.toNat_zero, Nat.zero_mul, Nat.zero_add, Nat.sub_zero, Nat.zero_le, true_and]
  rw [if_neg (by omega)]

theorem slot_eq (k : Nat) : slot k = 24578 + k * 20 :=
  rfl

section Call

variable {bios : Bios} {k : Nat} {s : State} {d : Descriptor}

/-- The call that delivers descriptor `k`. -/
theorem int15_of_some (hlen : s.calls.length = k) (hd : bios.descriptors[k]? = some d) :
    bios.int15 s =
      { s with
        carryFlag := false
        ebx := if k + 1 = bios.descriptors.length ∧ bios.ending = .ebxZero then 0#32
          else bios.continuation k
        mem := storeSegment s.mem s.es s.di d.bytes
        calls := s.calls ++ [(s.es.toNat * 16 + s.di.toNat, d)] } := by
  simp only [Bios.int15, hlen, hd]

theorem AtLoop.afterCall (h : AtLoop bios k s) (hd : bios.descriptors[k]? = some d) :
    AfterCall bios k (bios.int15 s) := by
  have hsize : d.bytes.length = 20 := d.size
  rw [int15_of_some h.length hd]
  constructor
  case es => exact h.es
  case di => exact h.di
  case length => simp [h.length]
  case calls =>
    intro i hi
    rcases Nat.lt_or_eq_of_le hi with hlt | rfl
    · obtain ⟨d', hd', hcall⟩ := h.calls i hlt
      refine ⟨d', hd', ?_⟩
      rw [List.getElem?_append_left (by rw [h.length]; exact hlt)]
      exact hcall
    · refine ⟨d, hd, ?_⟩
      rw [List.getElem?_append_right (by rw [h.length]), h.length]
      simp [h.es, h.di]
  case count =>
    intro hk
    have hslot := slot_eq k
    unfold lastSlot at hk
    refine Eq.trans ?_ (h.count hk)
    -- the count word is below every buffer
    refine loadLE_congr fun a ha hlt => ?_
    simp only [stage1MemmapCount, stage1MemmapAddr] at ha hlt
    rw [h.es, h.di]
    exact storeSegment_of_low s.mem (by omega) (by omega) (by omega)
  case stored =>
    intro hk i hi
    have hslot := slot_eq k
    have hsloti := slot_eq i
    unfold lastSlot at hk
    rw [h.es, h.di, storeSegment_of_fits s.mem (by omega) (by omega)]
    rcases Nat.lt_or_eq_of_le hi with hlt | rfl
    · intro d' hd'
      rw [← h.stored (Nat.le_of_lt hk) i hlt d' hd']
      refine List.map_congr_left fun j hj => ?_
      have hj20 : j < 20 := List.mem_range.mp hj
      exact storeBytes_of_outside s.mem (by omega)
    · intro d' hd'
      rw [hd] at hd'
      cases hd'
      refine List.ext_getElem (by rw [length_bytesAt, d.size]) fun j hj hj' => ?_
      simp only [bytesAt, List.getElem_map, List.getElem_range, storeBytes]
      rw [if_pos (by omega), Nat.add_sub_cancel_left]
      simp [List.getD_eq_getElem?_getD, hj']

theorem AfterCall.advance (h : AfterCall bios k s) : AtLoop bios (k + 1) s.advance := by
  constructor
  case es => exact h.es
  case di =>
    have hslot : slot (k + 1) = slot k + stage1MemmapSize := by
      simp only [slot, Nat.succ_mul, Nat.add_assoc]
    rw [hslot, BitVec.ofNat_add, ← h.di]
    rfl
  case length => exact h.length
  case calls => exact fun i hi => h.calls i (Nat.lt_succ_iff.mp hi)
  case count =>
    intro hk
    have hcount := h.count (Nat.le_of_succ_le hk)
    unfold lastSlot at hk
    unfold State.count State.advance
    rw [loadLE_storeLE_same _ _ _ _ (by rw [hcount]; omega), hcount]
  case stored =>
    intro hk i hi d hd
    rw [← h.stored hk i (Nat.lt_succ_iff.mp hi) d hd]
    refine List.map_congr_left fun j _ => ?_
    have hsloti := slot_eq i
    exact storeLE_of_outside _ (by simp only [stage1MemmapCount, stage1MemmapAddr]; omega)

theorem atLoop_start (mem : ByteMem) : AtLoop bios 0 (stage1MemmapStart mem) where
  es := rfl
  di := rfl
  length := rfl
  calls := fun i hi => absurd hi (Nat.not_lt_zero i)
  count := fun _ => loadLE_storeLE_same mem stage1MemmapCount 2 0 (by decide)
  stored := fun _ i hi => absurd hi (Nat.not_lt_zero i)

section Loop

variable {left : Nat}

/-- The call after the last descriptor: the carry flag is set and the routine hangs. -/
theorem stage1MemmapLoop_none (hlen : s.calls.length = k) (hd : bios.descriptors[k]? = none) :
    stage1MemmapLoop bios (left + 1) s = .hung { s with carryFlag := true } := by
  have hint : bios.int15 s = { s with carryFlag := true } := by
    simp only [Bios.int15, hlen, hd]
  simp [stage1MemmapLoop, hint]

/-- The call that returns EBX = 0. -/
theorem stage1MemmapLoop_last (hlen : s.calls.length = k) (hd : bios.descriptors[k]? = some d)
    (hlast : k + 1 = bios.descriptors.length ∧ bios.ending = .ebxZero) :
    stage1MemmapLoop bios (left + 1) s = .returned (bios.int15 s) := by
  have hcarry : (bios.int15 s).carryFlag = false := by simp [int15_of_some hlen hd]
  have hebx : (bios.int15 s).ebx = 0#32 := by simp [int15_of_some hlen hd, hlast]
  simp [stage1MemmapLoop, hcarry, hebx]

/-- Every other call that delivers a descriptor. -/
theorem stage1MemmapLoop_more (hlen : s.calls.length = k) (hd : bios.descriptors[k]? = some d)
    (hmore : ¬ (k + 1 = bios.descriptors.length ∧ bios.ending = .ebxZero)) :
    stage1MemmapLoop bios (left + 1) s = stage1MemmapLoop bios left (bios.int15 s).advance := by
  have hcarry : (bios.int15 s).carryFlag = false := by simp [int15_of_some hlen hd]
  have hebx : (bios.int15 s).ebx ≠ 0#32 := by
    simp only [int15_of_some hlen hd, hmore, if_false]
    exact bios.continuation_ne k
  simp [stage1MemmapLoop, hcarry, hebx]

/-- If the loop returns, it does so after the last descriptor. -/
theorem stage1MemmapLoop_returned {s' : State} (h : AtLoop bios k s)
    (hret : stage1MemmapLoop bios left s = .returned s') :
    ∃ last, last + 1 = bios.descriptors.length ∧ AfterCall bios last s' := by
  induction left generalizing k s with
  | zero => cases hret
  | succ left ih =>
    cases hd : bios.descriptors[k]? with
    | none =>
      rw [stage1MemmapLoop_none h.length hd] at hret
      cases hret
    | some d =>
      have hafter := h.afterCall hd
      by_cases hlast : k + 1 = bios.descriptors.length ∧ bios.ending = .ebxZero
      · rw [stage1MemmapLoop_last h.length hd hlast] at hret
        cases hret
        exact ⟨k, hlast.1, hafter⟩
      · rw [stage1MemmapLoop_more h.length hd hlast] at hret
        exact ih hafter.advance hret

/-- If the sequence ends with EBX = 0, one call for each descriptor is enough. -/
theorem stage1MemmapLoop_returns (hending : bios.ending = .ebxZero) (h : AtLoop bios k s)
    (hleft : k + left = bios.descriptors.length) (hpos : 0 < left) :
    ∃ s', stage1MemmapLoop bios left s = .returned s' := by
  induction left generalizing k s with
  | zero => exact absurd hpos (Nat.lt_irrefl 0)
  | succ left ih =>
    have hd : bios.descriptors[k]? = some (bios.descriptors.get ⟨k, by omega⟩) :=
      List.getElem?_eq_getElem (by omega)
    by_cases hlast : k + 1 = bios.descriptors.length
    · exact ⟨_, stage1MemmapLoop_last h.length hd ⟨hlast, hending⟩⟩
    · rw [stage1MemmapLoop_more h.length hd fun hand => hlast hand.1]
      exact ih (h.afterCall hd).advance (by omega) (by omega)

/-- If it ends with the carry flag, the loop goes through the descriptors and then hangs. -/
theorem stage1MemmapLoop_carry (hending : bios.ending = .carry) (h : AtLoop bios k s)
    (hk : k ≤ bios.descriptors.length) (left : Nat) :
    ∃ s', AtLoop bios (min (k + left) bios.descriptors.length) s' ∧
      stage1MemmapLoop bios left s =
        if k + left ≤ bios.descriptors.length then .calling s'
        else .hung { s' with carryFlag := true } := by
  induction left generalizing k s with
  | zero =>
    rw [Nat.add_zero, Nat.min_eq_left hk]
    exact ⟨s, h, (if_pos hk).symm⟩
  | succ left ih =>
    by_cases hend : k = bios.descriptors.length
    · have hd : bios.descriptors[k]? = none := List.getElem?_eq_none (by omega)
      rw [Nat.min_eq_right (by omega), ← hend]
      exact ⟨s, h, (stage1MemmapLoop_none h.length hd).trans (if_neg (by omega)).symm⟩
    · have hd : bios.descriptors[k]? = some (bios.descriptors.get ⟨k, by omega⟩) :=
        List.getElem?_eq_getElem (by omega)
      have hrest := ih (h.afterCall hd).advance (by omega)
      rw [Nat.add_right_comm] at hrest
      rwa [stage1MemmapLoop_more h.length hd (by simp [hending])]

end Loop

end Call

/-! ## What the routine records -/

section Routine

variable {bios : Bios} {left : Nat} {es di : BitVec 16} {mem : ByteMem}

theorem stage1MemmapGet_returned {s : State}
    (hret : stage1MemmapGet bios left es di mem = .returned s) :
    ∃ last s', last + 1 = bios.descriptors.length ∧ AfterCall bios last s' ∧
      s = { s' with es := di, di := es } := by
  cases hloop : stage1MemmapLoop bios left (stage1MemmapStart mem) with
  | returned s' =>
    simp only [stage1MemmapGet, hloop, Outcome.returned.injEq] at hret
    obtain ⟨last, hlast, hafter⟩ := stage1MemmapLoop_returned (atLoop_start mem) hloop
    exact ⟨last, s', hlast, hafter, hret.symm⟩
  | hung s' => simp [stage1MemmapGet, hloop] at hret
  | calling s' => simp [stage1MemmapGet, hloop] at hret

/-- A sequence that ends with EBX = 0 and does not run DI over the end of the segment is stored
whole, and its last descriptor is not counted. -/
theorem stage1MemmapGet_count (hending : bios.ending = .ebxZero)
    (hfits : bios.descriptors.length ≤ lastSlot) (es di : BitVec 16) (mem : ByteMem) :
    ∃ s, stage1MemmapGet bios bios.descriptors.length es di mem = .returned s ∧
      s.count + 1 = bios.descriptors.length ∧
      (∀ i < bios.descriptors.length, Stored bios s.mem i) ∧ s.es = di ∧ s.di = es := by
  have hpos : 0 < bios.descriptors.length := List.length_pos_of_ne_nil (bios.delivers hending)
  obtain ⟨s', hloop⟩ := stage1MemmapLoop_returns hending (atLoop_start mem) (Nat.zero_add _) hpos
  obtain ⟨last, hlast, hafter⟩ := stage1MemmapLoop_returned (atLoop_start mem) hloop
  refine ⟨{ s' with es := di, di := es }, by simp [stage1MemmapGet, hloop], ?_, ?_, rfl, rfl⟩
  · have hcount : s'.count = last := hafter.count (by omega)
    rw [← hlast, ← hcount]
    rfl
  · exact fun i hi => hafter.stored (by omega) i (by omega)

/-- If it ends with the carry flag, the routine does not return, however many calls it is given: it
makes a call for each descriptor, which is stored and counted, and hangs on the one after. -/
theorem stage1MemmapGet_carry (hending : bios.ending = .carry) (left : Nat) (es di : BitVec 16)
    (mem : ByteMem) :
    ∃ s, AtLoop bios (min left bios.descriptors.length) s ∧
      stage1MemmapGet bios left es di mem =
        if left ≤ bios.descriptors.length then .calling s else .hung { s with carryFlag := true } := by
  obtain ⟨s, hs, hloop⟩ := stage1MemmapLoop_carry hending (atLoop_start mem) (Nat.zero_le _) left
  rw [Nat.zero_add] at hs hloop
  refine ⟨s, hs, ?_⟩
  rw [stage1MemmapGet, hloop]
  by_cases hleft : left ≤ bios.descriptors.length <;> simp only [hleft, if_true, if_false]

end Routine

/-- The routine returns, the count word is the number of descriptors, and each descriptor was stored
in its place and is there. -/
def RecordsMap (bios : Bios) (es di : BitVec 16) (mem : ByteMem) : Prop :=
  ∃ left s, stage1MemmapGet bios left es di mem = .returned s ∧
    s.count = bios.descriptors.length ∧
    (∀ i d, bios.descriptors[i]? = some d → s.calls[i]? = some (slot i, d)) ∧
    ∀ i < bios.descriptors.length, Stored bios s.mem i

/-- When the count word is not overwritten it is one less than the number of descriptors. -/
theorem count_or_slot {bios : Bios} {last : Nat} {s : State}
    (hlast : last + 1 = bios.descriptors.length) (hafter : AfterCall bios last s) :
    s.count ≠ bios.descriptors.length ∨
      ∃ i d, bios.descriptors[i]? = some d ∧ s.calls[i]? ≠ some (slot i, d) := by
  by_cases hfits : last ≤ lastSlot
  · left
    rw [hafter.count hfits]
    omega
  · -- DI has wrapped: the buffer of the next descriptor is not the next buffer
    right
    unfold lastSlot at hfits
    obtain ⟨d, hd, hcall⟩ := hafter.calls 2048 (by omega)
    refine ⟨2048, d, hd, ?_⟩
    rw [hcall]
    intro heq
    have hslot : slot 2048 % 2 ^ 16 = slot 2048 := by
      simp only [Option.some.injEq, Prod.mk.injEq, and_true] at heq
      exact heq
    exact absurd hslot (by decide)

/-- No memory map is recorded as it is. -/
theorem not_recordsMap (bios : Bios) (es di : BitVec 16) (mem : ByteMem) :
    ¬ RecordsMap bios es di mem := by
  rintro ⟨left, s, hret, hcount, hcalls, -⟩
  obtain ⟨last, s', hlast, hafter, rfl⟩ := stage1MemmapGet_returned hret
  rcases count_or_slot hlast hafter with hne | ⟨i, d, hd, hcall⟩
  · exact hne hcount
  · exact hcall (hcalls i d hd)

/-- One region of memory. -/
def oneRegion : Bios where
  descriptors := [⟨List.replicate 20 1, by decide⟩]
  ending := .ebxZero
  continuation := fun _ => 1#32
  continuation_ne := fun _ => by decide
  delivers := fun _ => by simp

def oneRegionCarry : Bios := { oneRegion with ending := .carry, delivers := nofun }

/-- With the other end the second of ten calls hangs. -/
theorem oneRegion_carry_hangs :
    ∃ s : State, s.calls.length = 1 ∧
      stage1MemmapGet oneRegionCarry 10 0 0 (fun _ => 0) = .hung { s with carryFlag := true } := by
  obtain ⟨s, hs, hget⟩ := stage1MemmapGet_carry (show oneRegionCarry.ending = .carry from rfl) 10 0 0
    (fun _ => 0)
  exact ⟨s, hs.length, hget⟩

/-- A machine with one region of memory: its descriptor is stored, and the count word is 0. -/
theorem oneRegion_count_zero :
    oneRegion.descriptors.length = 1 ∧
      ∃ s, stage1MemmapGet oneRegion 1 0 0 (fun _ => 0) = .returned s ∧ s.count = 0 ∧
        ∀ left s', stage1MemmapGet oneRegion left 0 0 (fun _ => 0) = .returned s' →
          s'.count ≠ oneRegion.descriptors.length := by
  have hlen : oneRegion.descriptors.length = 1 := rfl
  obtain ⟨s, hret, hcount, -⟩ :=
    stage1MemmapGet_count (show oneRegion.ending = .ebxZero from rfl) (by decide) 0 0 (fun _ => 0)
  refine ⟨hlen, s, hret, by omega, ?_⟩
  intro left s' hret'
  obtain ⟨last, t, hlast, hafter, rfl⟩ := stage1MemmapGet_returned hret'
  have hlast0 : last = 0 := by omega
  have hzero : t.count = 0 := by
    rw [hlast0] at hafter
    exact hafter.count (by decide)
  rw [hlen]
  intro hone
  have hsame : t.count = 1 := hone
  omega

end Pristine.Stage1
