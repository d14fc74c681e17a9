import Pristine.Kernel.Scheduler

/-!
# Interrupt entry and return

Three pieces of code agree on where each register lies: the stub of
`interrupt.asm` pushes it, `InterruptFrame` reads it, and `process_jump` pops it
from `ProcessContext`.  A stack is the list of its words from `rsp` upwards.

`lapic_eoi` and the EOI writes behind the handler, which `scheduler_loop` never
returns to, are left out.
-/

namespace Pristine.Kernel

/-! ## The stub -/

/-- The stub's view: the registers, the stack, and whether `gs` is the kernel's. -/
structure StubState where
  registers : Registers64
  stack : List Nat
  kernelGs : Bool

namespace StubState

def push (word : Nat) (st : StubState) : StubState :=
  { st with stack := word :: st.stack }

/-- The word at `[rsp + 8 * k]`. -/
def word (st : StubState) (k : Nat) : Nat := st.stack.getD k 0

end StubState

/-- What the processor pushes when it takes an interrupt. -/
def interruptEntry (cpu : ProcessContext) (kernelGs : Bool) : StubState where
  registers := cpu.toRegisters64
  stack := [cpu.rip, cpu.cs, cpu.rflags, cpu.rsp, cpu.ss]
  kernelGs := kernelGs

/-- `ISR_NOERR`, up to its jump. -/
def isrNoErr (vector : Nat) (st : StubState) : StubState :=
  (st.push 0).push vector

/-- The beginning of `isr_common`: `swapgs` if the interrupted code was not the kernel. -/
def isrCommonSwap (st : StubState) : StubState :=
  let st := st.push st.registers.rax
  let rax := st.word 4 &&& 3
  { st with
    registers := { st.registers with rax := rax }
    kernelGs := if rax ≠ 0 then !st.kernelGs else st.kernelGs }

/-- The pushes from `.isr_common_no_gs_swap` on. -/
def isrCommonPush (st : StubState) : StubState :=
  let st := st.push st.registers.rbx
  let st := st.push st.registers.rcx
  let st := st.push st.registers.rdx
  let st := st.push st.registers.rsi
  let st := st.push st.registers.rdi
  let st := st.push st.registers.rbp
  let st := st.push st.registers.r8
  let st := st.push st.registers.r9
  let st := st.push st.registers.r10
  let st := st.push st.registers.r11
  let st := st.push st.registers.r12
  let st := st.push st.registers.r13
  let st := st.push st.registers.r14
  st.push st.registers.r15

/-- `isr_common`, up to the call of `idt64_isr_dispatch`. -/
def isrCommon (st : StubState) : StubState := isrCommonPush (isrCommonSwap st)

/-! ## The frame -/

/-- `Registers64` at the start of a stack. -/
def Registers64.ofStack (stack : List Nat) : Registers64 where
  r15 := stack.getD 0 0
  r14 := stack.getD 1 0
  r13 := stack.getD 2 0
  r12 := stack.getD 3 0
  r11 := stack.getD 4 0
  r10 := stack.getD 5 0
  r9 := stack.getD 6 0
  r8 := stack.getD 7 0
  rbp := stack.getD 8 0
  rdi := stack.getD 9 0
  rsi := stack.getD 10 0
  rdx := stack.getD 11 0
  rcx := stack.getD 12 0
  rbx := stack.getD 13 0
  rax := stack.getD 14 0

/-- `InterruptFrame` at the start of a stack: registers, `int_no`, `err_code`, `IretFrame`. -/
def InterruptFrame.ofStack (stack : List Nat) : InterruptFrame where
  registers := .ofStack stack
  iretFrame := {
    rip := stack.getD 17 0
    cs := stack.getD 18 0
    rflags := stack.getD 19 0
    rsp := stack.getD 20 0
    ss := stack.getD 21 0 }

/-- `int_no` of the frame. -/
def frameIntNo (stack : List Nat) : Nat := stack.getD 15 0

/-- The callbacks the kernel installs for interrupts of the running system. -/
inductive IsrCallback where
  | schedulerLoop
  deriving DecidableEq, Repr

/-- `isr_callbacks` once `kmain` has installed the scheduler for the LAPIC timer. -/
def isrCallbacks (vector : Nat) : Option IsrCallback :=
  if vector = 0xFF then some .schedulerLoop else none

/-- `idt64_isr_dispatch`, for the vectors the scheduler uses. -/
def idt64IsrDispatch (stack : List Nat) (s : Scheduler) : Scheduler :=
  match isrCallbacks (frameIntNo stack) with
  | some .schedulerLoop => schedulerLoop (.ofStack stack) s
  | none => s

/-! ## Return -/

/-- `ProcessContext` in memory. -/
def ProcessContext.words (c : ProcessContext) : List Nat :=
  [c.rax, c.rbx, c.rcx, c.rdx, c.rsi, c.rdi, c.rbp, c.r8, c.r9, c.r10, c.r11, c.r12, c.r13, c.r14,
    c.r15, c.rip, c.cs, c.rflags, c.rsp, c.ss]

/-- Registers and `gs` after the pops and the `iretq` of `process_jump`, with `rsp` at the
context. -/
def processJump (context : ProcessContext) (kernelGs : Bool) : ProcessContext × Bool :=
  let needsSwapgs := context.cs &&& 3 ≠ 0
  match context.words with
  | [rax, rbx, rcx, rdx, rsi, rdi, rbp, r8, r9, r10, r11, r12, r13, r14, r15, rip, cs, rflags, rsp,
      ss] =>
      ({ rax, rbx, rcx, rdx, rsi, rdi, rbp, r8, r9, r10, r11, r12, r13, r14, r15, rip, cs, rflags,
         rsp, ss },
        if needsSwapgs then !kernelGs else kernelGs)
  | _ => (context, kernelGs)

/-- An interrupt of the LAPIC timer, or `int $0xFF`: registers, `gs` and scheduler afterwards. -/
def timerInterrupt (cpu : ProcessContext) (kernelGs : Bool) (s : Scheduler) :
    (ProcessContext × Bool) × Scheduler :=
  let st := isrCommon (isrNoErr 0xFF (interruptEntry cpu kernelGs))
  let s := idt64IsrDispatch st.stack s
  match s.cpu.currentProcess with
  | some p => (processJump (s.process p).context st.kernelGs, s)
  | none => ((cpu, st.kernelGs), s)

/-! ## The layouts agree -/

section Layout

variable (cpu : ProcessContext) (kernelGs : Bool)

/-- The context `process_save_state` builds from a frame. -/
def InterruptFrame.context (frame : InterruptFrame) : ProcessContext :=
  { frame.registers, frame.iretFrame with }

theorem isrCommon_stack (vector : Nat) (st : StubState) :
    (isrCommon (isrNoErr vector st)).stack =
      [st.registers.r15, st.registers.r14, st.registers.r13, st.registers.r12, st.registers.r11,
        st.registers.r10, st.registers.r9, st.registers.r8, st.registers.rbp, st.registers.rdi,
        st.registers.rsi, st.registers.rdx, st.registers.rcx, st.registers.rbx, st.registers.rax,
        vector, 0] ++ st.stack := rfl

/-- The frame holds the registers of the interrupted code. -/
theorem frame_of_interrupt (vector : Nat) :
    (InterruptFrame.ofStack
      (isrCommon (isrNoErr vector (interruptEntry cpu kernelGs))).stack).context = cpu := by
  rw [isrCommon_stack]
  rfl

theorem intNo_of_interrupt (vector : Nat) :
    frameIntNo (isrCommon (isrNoErr vector (interruptEntry cpu kernelGs))).stack = vector := by
  rw [isrCommon_stack]
  rfl

/-- The stub finds the interrupted code's privilege level. -/
theorem isrCommon_kernelGs (vector : Nat) :
    (isrCommon (isrNoErr vector (interruptEntry cpu kernelGs))).kernelGs =
      if cpu.cs &&& 3 ≠ 0 then !kernelGs else kernelGs := rfl

/-- `process_jump` loads the context. -/
theorem processJump_eq (context : ProcessContext) :
    processJump context kernelGs =
      (context, if context.cs &&& 3 ≠ 0 then !kernelGs else kernelGs) := rfl

end Layout

end Pristine.Kernel
