import Pristine.Kernel.OwnedPages

/-!
# Processes

`process_create` and `process_destroy` of `kernel/kernel/process.c`, and
`syscall_sbrk` of `kernel/kernel/syscall.c`.  Both map runs of fresh pages and
give runs of pages back, so these loops are shared: `mapRange` and `freeRange`.
Addresses and break values are 64-bit and wrap as the C code's do.
-/

namespace Pristine.Kernel

open Lib

/-- `ALIGN_UP`, for a power of two `align`. -/
def alignUp (value align : Nat) : Nat :=
  (value + align - 1) % 2 ^ 64 &&& (2 ^ 64 - align)

/-- `ALIGN_DOWN`, for a power of two `align`. -/
def alignDown (value align : Nat) : Nat :=
  value &&& (2 ^ 64 - align)

/-- A 64-bit word read as an `int64_t`. -/
def toInt64 (word : Nat) : Int :=
  if 2 ^ 63 ≤ word then (word : Int) - 2 ^ 64 else word

/-- `PROCESS_DEFAULT_KERNEL_STACK_SIZE`. -/
def processDefaultKernelStackSize : Nat := 0x4000

/-- `PROCESS_VIRT_TOP`. -/
def processVirtTop : Nat := 0x00007FFFFFFFF000

/-- `PROCESS_KERNEL_VIRT_BASE`. -/
def processKernelVirtBase : Nat := 0xFFFFFF7FC0000000

/-- `PROCESS_VIRT_KERNEL_STACK_TOP`. -/
def processVirtKernelStackTop : Nat := processKernelVirtBase + 0x40000000

/-- `ProcessState`. -/
inductive ProcessState where
  | ready
  | running
  | dead
  deriving DecidableEq, Repr

/-- `Registers64`: what the interrupt stub saves. -/
structure Registers64 where
  (rax rbx rcx rdx rsi rdi rbp r8 r9 r10 r11 r12 r13 r14 r15 : Nat)
  deriving DecidableEq, Repr, Inhabited

/-- `IretFrame`: what the processor saves. -/
structure IretFrame where
  (rip cs rflags rsp ss : Nat)
  deriving DecidableEq, Repr, Inhabited

/-- `ProcessContext`. -/
structure ProcessContext extends Registers64, IretFrame
  deriving DecidableEq, Repr, Inhabited

/-- `Process`.  `pml4` is the table pointer, represented by the table's physical
address like every table pointer. -/
structure Process where
  pml4 : Nat
  pml4Phys : Nat
  pid : Nat
  entry : Nat
  stackTop : Nat
  kernelStackTop : Nat
  stackSize : Nat
  kernelStackSize : Nat
  brkStart : Nat
  brk : Nat
  exitCode : Int
  context : ProcessContext
  state : ProcessState
  deriving DecidableEq, Repr

/-- A process that has a root table and a break, and nothing else yet. -/
def bareProcess (pml4 brk : Nat) : Process where
  pml4 := pml4
  pml4Phys := pml4
  pid := 0
  entry := 0
  stackTop := 0
  kernelStackTop := 0
  stackSize := 0
  kernelStackSize := 0
  brkStart := brk
  brk := brk
  exitCode := 0
  context := default
  state := .ready

/-- Map `count` fresh pages from `virt` on. -/
def mapRange (debug : Bool) (pml4 flags virt : Nat) : Nat → KernelM Unit
  | 0 => pure ()
  | count + 1 => do
      let _ ← mapFreshPage debug pml4 virt flags
      mapRange debug pml4 flags ((virt + pageSize) % 2 ^ 64) count

/-- Give back `count` mapped pages from `virt` on. -/
def freeRange (debug : Bool) (pml4 virt : Nat) : Nat → KernelM Unit
  | 0 => pure ()
  | count + 1 => do
      vmmFree debug pml4 virt
      freeRange debug pml4 ((virt + pageSize) % 2 ^ 64) count

/-- Iterations of `for (s = start; s < stop; s += VMM_DEFAULT_PAGE_SIZE)`.  No
stack ends in the last page of the address space, so `s` does not wrap. -/
def pagesBetween (start stop : Nat) : Nat :=
  (stop - start + (pageSize - 1)) / pageSize

/-- The loop of `process_create` that shares the kernel's half. -/
def copyUpperHalf (pml4 kernelPml4 : Nat) : KernelM Unit :=
  (List.range' 256 256).forM fun i => do
    let entry ← readEntry kernelPml4 i
    writeEntry pml4 i entry

/-- The loop of `process_create` over the user stack, if there is one. -/
def mapUserStack (debug : Bool) (pml4 stackTop stackSize : Nat) : KernelM Unit :=
  if stackTop ≠ 0 ∧ stackSize ≠ 0 then
    let start := (stackTop + 2 ^ 64 - stackSize) % 2 ^ 64
    mapRange debug pml4 vmmFlagsUserData start (pagesBetween start stackTop)
  else
    pure ()

/-- `process_create`. -/
def processCreate (debug : Bool) (process : Process) (pid entry cs ss rflags stackTop stackSize
    kernelStackTop kernelStackSize pml4 pml4Phys kernelPml4 : Nat) : KernelM Process := do
  copyUpperHalf pml4 kernelPml4
  mapUserStack debug pml4 stackTop stackSize
  let start := (kernelStackTop + 2 ^ 64 - kernelStackSize) % 2 ^ 64
  mapRange debug pml4 vmmFlagsKernelData start (pagesBetween start kernelStackTop)
  let userStack := decide (stackTop ≠ 0 ∧ stackSize ≠ 0)
  return { process with
    pml4 := pml4
    pml4Phys := pml4Phys
    pid := pid
    context := { process.context with
      rip := entry, cs := cs, rflags := rflags, ss := ss
      rsp := if userStack then stackTop else kernelStackTop }
    stackTop := if userStack then stackTop else kernelStackTop
    stackSize := if userStack then stackSize else kernelStackSize
    entry := entry
    kernelStackTop := kernelStackTop
    kernelStackSize := kernelStackSize
    state := .ready }

/-- `process_destroy`. -/
def processDestroy (debug : Bool) (process : Process) : KernelM Unit := do
  let start := (process.kernelStackTop + 2 ^ 64 - process.kernelStackSize) % 2 ^ 64
  freeRange debug process.pml4 start (pagesBetween start process.kernelStackTop)
  vmmDestroy debug process.pml4
  freePage debug process.pml4Phys

/-- `syscall_sbrk`: the return value and the process with its new break.  The
argument is a 64-bit word read as a signed request. -/
def syscallSbrk (debug : Bool) (process : Process) (arg : Nat) : KernelM (Nat × Process) := do
  -- `brk + request` in unsigned arithmetic
  let brk := (process.brk + arg) % 2 ^ 64
  if 2 ^ 63 ≤ arg then
    if brk < process.brkStart then
      return (0, process)
    else
      let oldPage := alignUp process.brk pageSize / pageSize
      let newPage := alignUp brk pageSize / pageSize
      freeRange debug process.pml4 (newPage * pageSize) (oldPage - newPage)
      return (process.brk, { process with brk := brk })
  else
    let start := alignUp process.brk pageSize
    let stop := alignUp brk pageSize
    let requiredPages := (stop / pageSize + 2 ^ 64 - start / pageSize) % 2 ^ 64
    mapRange debug process.pml4 vmmFlagsUserData start requiredPages
    return (process.brk, { process with brk := brk })

/-! ## Arithmetic of the break -/

/-- Clearing the low bits of a 64-bit value rounds it down to its page. -/
theorem and_pageMask {value : Nat} (hvalue : value < 2 ^ 64) :
    value &&& (2 ^ 64 - pageSize) = value / pageSize * pageSize := by
  have hmask : 2 ^ 64 - pageSize = 2 ^ 12 * (2 ^ 52 - 1) := by decide
  have hround : value / pageSize * pageSize = 2 ^ 12 * (value >>> 12) := by
    rw [Nat.shiftRight_eq_div_pow, Nat.mul_comm]
    rfl
  rw [hmask, hround]
  apply Nat.eq_of_testBit_eq
  intro i
  rw [Nat.testBit_and, Nat.testBit_two_pow_mul, Nat.testBit_two_pow_mul, Nat.testBit_shiftRight,
    Nat.testBit_two_pow_sub_one]
  by_cases hlow : 12 ≤ i
  · rw [Nat.add_sub_cancel' hlow]
    by_cases hhigh : i < 64
    · simp [hlow, show i - 12 < 52 by omega]
    · have hpow : 2 ^ 64 ≤ 2 ^ i := Nat.pow_le_pow_right (by decide) (by omega)
      simp [Nat.testBit_lt_two_pow (Nat.lt_of_lt_of_le hvalue hpow)]
  · simp [hlow]

theorem alignUp_pageSize (value : Nat) :
    alignUp value pageSize = (value + (pageSize - 1)) % 2 ^ 64 / pageSize * pageSize := by
  unfold alignUp
  rw [and_pageMask (Nat.mod_lt _ (by decide))]
  rfl

/-! ## Invariants of page operations -/

/-- Root indices of the lower half of the address space. -/
def LowerHalf (i : Fin 512) : Prop := i.val < 256

theorem lowerHalf_of_lt {virt : Nat} (hvirt : virt < 2 ^ 47) : LowerHalf (pml4Idx virt) := by
  unfold LowerHalf pml4Idx
  rw [tableIdx_val]
  omega

/-- What is kept when a page of the lower half is mapped or given back. -/
structure PageInvariant (P : List (Fin 512) → Prop) (H : Fin 512 → Prop) (root : Nat)
    (I : Machine → Prop) : Prop where
  owned : ∀ s, I s → Owned P H s root
  fresh : ∀ virt frame s s', LowerHalf (pml4Idx virt) → I s →
    FreshPage P H root virt frame s s' → I s'
  freed : ∀ virt frame s s', LowerHalf (pml4Idx virt) → I s →
    tableAt s.mem root (pathOf virt) = some frame → FreedPage P H root virt frame s s' → I s'

theorem staysUnder_pageInvariant {P : List (Fin 512) → Prop} {H : Fin 512 → Prop} {root : Nat}
    (htracks : Tracks P H) (hlow : ∀ i, LowerHalf i → H i) (s0 : Machine) :
    PageInvariant P H root (StaysUnder P H root s0) := by
  refine ⟨fun s hstays => hstays.owned, ?_, ?_⟩
  · intro virt frame s s' hvirt hstays hfresh
    exact hstays.fresh htracks (hlow _ hvirt) hfresh
  · intro virt frame s s' hvirt hstays hmapped hfreed
    exact hstays.freed htracks (hlow _ hvirt) hmapped hfreed

/-! ## Rules for runs of pages

`J k` is what holds after `k` pages; the rules ask for one page's step. -/

section Ranges

variable {P : List (Fin 512) → Prop} {H : Fin 512 → Prop} {debug : Bool}
variable {root virt flags count : Nat} {s s' : Machine}

theorem range_next (hend : virt + (count + 2) * pageSize ≤ 2 ^ 64) :
    (virt + pageSize) % 2 ^ 64 = virt + pageSize := by
  apply Nat.mod_eq_of_lt
  unfold pageSize at *
  omega

theorem range_shift (virt k : Nat) :
    virt + pageSize + k * pageSize = virt + (k + 1) * pageSize := by
  rw [Nat.add_mul, Nat.one_mul]
  omega

theorem mapRange_rule (J : Nat → Machine → Prop) (htracks : Tracks P H)
    (hflags : LinkFlags flags) (hend : virt + count * pageSize ≤ 2 ^ 64)
    (hH : ∀ k, k < count → H (pml4Idx (virt + k * pageSize)))
    (howned : ∀ k t, J k t → Owned P H t root)
    (hstep : ∀ k frame t t', k < count → J k t →
      FreshPage P H root (virt + k * pageSize) frame t t' → J (k + 1) t')
    (hstart : J 0 s) (hcall : mapRange debug root flags virt count s = .ok ((), s')) :
    J count s' := by
  induction count generalizing virt s J with
  | zero =>
    obtain ⟨-, rfl⟩ := pure_ok_iff.mp hcall
    exact hstart
  | succ count ih =>
    obtain ⟨frame, t, hpage, hrest⟩ := bind_ok_iff.mp hcall
    have hfresh := mapFreshPage_effect htracks (howned 0 s hstart)
      (by simpa using hH 0 (by omega)) hflags hpage
    have hone : J 1 t := hstep 0 frame s t (by omega) hstart (by simpa using hfresh)
    cases count with
    | zero =>
      obtain ⟨-, rfl⟩ := pure_ok_iff.mp hrest
      exact hone
    | succ count =>
      rw [range_next hend] at hrest
      refine ih (fun k => J (k + 1)) ?_ ?_ (fun k => howned (k + 1)) ?_ hone hrest
      · rw [range_shift]
        exact hend
      · intro k hk
        rw [range_shift]
        exact hH (k + 1) (by omega)
      · intro k f u u' hk hu hfresh'
        rw [range_shift] at hfresh'
        exact hstep (k + 1) f u u' (by omega) hu hfresh'

theorem freeRange_rule (J : Nat → Machine → Prop) (htracks : Tracks P H)
    (hend : virt + count * pageSize ≤ 2 ^ 64)
    (hH : ∀ k, k < count → H (pml4Idx (virt + k * pageSize)))
    (howned : ∀ k t, J k t → Owned P H t root)
    (hmapped : ∀ k t, k < count → J k t →
      ∃ frame, tableAt t.mem root (pathOf (virt + k * pageSize)) = some frame)
    (hstep : ∀ k frame t t', k < count → J k t →
      tableAt t.mem root (pathOf (virt + k * pageSize)) = some frame →
      FreedPage P H root (virt + k * pageSize) frame t t' → J (k + 1) t')
    (hstart : J 0 s) :
    ∃ s', freeRange debug root virt count s = .ok ((), s') ∧ J count s' := by
  induction count generalizing virt s J with
  | zero => exact ⟨s, rfl, hstart⟩
  | succ count ih =>
    have hzero : virt + 0 * pageSize = virt := by simp
    obtain ⟨frame, hframe⟩ := hmapped 0 s (by omega) hstart
    have hH0 := hH 0 (by omega)
    rw [hzero] at hframe hH0
    obtain ⟨t, hcall, hfreed⟩ := vmmFree_effect debug htracks (howned 0 s hstart) hH0 hframe
    have hone : J 1 t :=
      hstep 0 frame s t (by omega) hstart (by rw [hzero]; exact hframe)
        (by rw [hzero]; exact hfreed)
    cases count with
    | zero => exact ⟨t, bind_eq_of_ok hcall, hone⟩
    | succ count =>
      have hend' : virt + pageSize + (count + 1) * pageSize ≤ 2 ^ 64 := by
        rw [range_shift]
        exact hend
      obtain ⟨s', hrest, hJ⟩ := ih (fun k => J (k + 1)) hend'
        (by intro k hk; rw [range_shift]; exact hH (k + 1) (by omega))
        (fun k => howned (k + 1))
        (by intro k u hk hu; rw [range_shift]; exact hmapped (k + 1) u (by omega) hu)
        (by
          intro k f u u' hk hu hf hfreed'
          rw [range_shift] at hf hfreed'
          exact hstep (k + 1) f u u' (by omega) hu hf hfreed')
        hone
      refine ⟨s', ?_, hJ⟩
      rw [← hrest, ← range_next hend]
      exact bind_eq_of_ok hcall

end Ranges

end Pristine.Kernel
