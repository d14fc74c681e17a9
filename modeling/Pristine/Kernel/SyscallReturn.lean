import Pristine.Kernel.Preemption

/-!
# System calls and their return

`syscall_stub` parks the user's stack pointer in `cpu_state.user_stack_rsp` and
keeps the other registers of the return on the process's own kernel stack.  The
C handlers are known by the System V ABI only: they return with the callee-saved
registers and with the words of the stub as they found them.

Interrupts are off inside a handler, so a process is switched out there only by
the `int $0xFF` of `SYS_YIELD` and `SYS_EXIT`.  `syscall_returns_own` says when
the caller gets its own context back: no other process may have made a call in
the meantime, and the handler must have left the argument registers alone,
which the clobber list of `syscall1` takes for granted.
-/

namespace Pristine.Kernel

open Function Lib Relation

/-! ## The stub -/

/-- The handlers. -/
inductive Syscall where
  | exit
  | sbrk
  | yield
  | serialPuts
  deriving DecidableEq, Repr

/-- `syscall_table`, indexed by `rax`. -/
def syscallTable : List Syscall := [.exit, .sbrk, .yield, .serialPuts]

/-- `msr_sfmask`: the bits TF, IF and DF. -/
def msrSfmask : Nat := 1 <<< 8 ||| 1 <<< 9 ||| 1 <<< 10

/-- The bits of RFLAGS that `sysret` takes from `r11`; bit 1 is always set. -/
def sysretRflags (r11 : Nat) : Nat := r11 &&& 0x3C7FD7 ||| 2

/-- The instruction `syscall`, with the selectors of `msr_star`. -/
def syscallInstruction (lstar : Nat) (cpu : ProcessContext) : ProcessContext :=
  { cpu with
    rcx := cpu.rip
    r11 := cpu.rflags
    rip := lstar
    rflags := cpu.rflags &&& (2 ^ 64 - 1 - msrSfmask)
    cs := 0x08
    ss := 0x10 }

/-- The instruction `o64 sysret`. -/
def sysretInstruction (cpu : ProcessContext) : ProcessContext :=
  { cpu with rip := cpu.rcx, rflags := sysretRflags cpu.r11, cs := 0x23, ss := 0x1B }

@[simp] theorem sysretInstruction_cs (cpu : ProcessContext) : (sysretInstruction cpu).cs = 0x23 := rfl

/-- The stub's view.  The stack is the list of its words from `rsp` upwards. -/
structure SyscallStub where
  cpu : ProcessContext
  kernelGs : Bool
  stack : List Nat
  /-- `cpu_state.user_stack_rsp`, at `[gs:0x10]` -/
  userStackRsp : Nat

/-- `syscall` and the stub up to its comparison of `rax`. -/
def syscallStubEnter (lstar kernelStackTop : Nat) (st : SyscallStub) : SyscallStub :=
  let cpu := syscallInstruction lstar st.cpu
  let kernelGs := !st.kernelGs
  { cpu := { cpu with rsp := (kernelStackTop + 2 ^ 64 - 24) % 2 ^ 64 }
    kernelGs := kernelGs
    stack := cpu.rbp :: cpu.r11 :: cpu.rcx :: st.stack
    -- through the user's `gs` the store would miss `cpu_state`
    userStackRsp := if kernelGs then cpu.rsp else st.userStackRsp }

/-- The stub from `.done` on. -/
def syscallStubDone (st : SyscallStub) : SyscallStub :=
  match st.stack with
  | rbp :: r11 :: rcx :: rest =>
    let cpu := { st.cpu with rbp := rbp, r11 := r11, rcx := rcx }
    let cpu := if st.kernelGs then { cpu with rsp := st.userStackRsp } else cpu
    { st with cpu := sysretInstruction cpu, kernelGs := !st.kernelGs, stack := rest }
  | _ => st

/-! ## Runs -/

/-- Processes that make system calls. -/
structure SyscallRun extends PreemptRun where
  /-- `cpu_state.user_stack_rsp` -/
  userStackRsp : Nat
  /-- what the stub left on the kernel stack of a process -/
  kernelStack : ProcessPtr → List Nat
  /-- the handler a process is in, if any -/
  call : ProcessPtr → Option Syscall
  /-- registers at the last system call -/
  entry : ProcessPtr → ProcessContext

namespace SyscallRun

def enter (r : SyscallRun) (p : ProcessPtr) (lstar : Nat) : SyscallRun :=
  let st := syscallStubEnter lstar r.run.scheduler.cpu.kernelStackTop
    ⟨r.cpu, r.kernelGs, [], r.userStackRsp⟩
  { r with
    cpu := st.cpu
    kernelGs := st.kernelGs
    userStackRsp := st.userStackRsp
    kernelStack := update r.kernelStack p st.stack
    entry := update r.entry p r.cpu }

/-- The call of handler `n`, with the scaled index still in `rax`. -/
def callHandler (r : SyscallRun) (p : ProcessPtr) (n : Syscall) : SyscallRun :=
  { r with
    cpu := { r.cpu with rax := r.cpu.rax <<< 3 % 2 ^ 64 }
    call := update r.call p (some n) }

/-- `mov rax, -1` at `.invalid`. -/
def invalid (r : SyscallRun) : SyscallRun :=
  { r with cpu := { r.cpu with rax := 2 ^ 64 - 1 } }

@[simp] theorem callHandler_cs (r : SyscallRun) (p : ProcessPtr) (n : Syscall) (lstar : Nat) :
    ((r.enter p lstar).callHandler p n).cpu.cs = 0x08 := rfl

def leave (r : SyscallRun) (p : ProcessPtr) : SyscallRun :=
  let st := syscallStubDone ⟨r.cpu, r.kernelGs, r.kernelStack p, r.userStackRsp⟩
  { r with
    cpu := st.cpu
    kernelGs := st.kernelGs
    kernelStack := update r.kernelStack p st.stack
    call := update r.call p none }

/-- Before the first process is added. -/
structure Initial (r : SyscallRun) : Prop where
  base : r.toPreemptRun.Initial
  call : ∀ p, r.call p = none
  gs : r.kernelGs = decide (r.cpu.cs &&& 3 = 0)

/-- The running code can be interrupted: it is not in a handler, or the handler is at its
`int $0xFF`. -/
def Interruptible (r : SyscallRun) : Prop :=
  ∀ p n, r.current = some p → r.call p = some n →
    n = .yield ∨ (r.run.scheduler.process p).state = .dead

/-- User code is about to execute `syscall`; `rip` is already that of the next instruction. -/
structure AtSyscall (r : SyscallRun) (p : ProcessPtr) : Prop where
  current : r.current = some p
  own : r.call p = none
  user : r.cpu.cs &&& 3 ≠ 0
  /-- RF and VM are clear in user code, and bit 1 is set -/
  rflags : sysretRflags r.cpu.rflags = r.cpu.rflags

end SyscallRun

/-- What a C function leaves as it was. -/
structure CalleeSaved (before after : ProcessContext) : Prop where
  rbx : after.rbx = before.rbx
  rbp : after.rbp = before.rbp
  r12 : after.r12 = before.r12
  r13 : after.r13 = before.r13
  r14 : after.r14 = before.r14
  r15 : after.r15 = before.r15

/-- The other registers that `syscall1` expects back. -/
structure ArgumentsKept (before after : ProcessContext) : Prop where
  rdx : after.rdx = before.rdx
  rsi : after.rsi = before.rsi
  rdi : after.rdi = before.rdi
  r8 : after.r8 = before.r8
  r9 : after.r9 = before.r9
  r10 : after.r10 = before.r10

/-- What a caller expects behind its `syscall` instruction. -/
structure ReturnsOwn (before after : ProcessContext) : Prop where
  rip : after.rip = before.rip
  rsp : after.rsp = before.rsp
  rflags : after.rflags = before.rflags
  callee : CalleeSaved before after
  arguments : ArgumentsKept before after

inductive SyscallEvent where
  | internal
  | enter (p : ProcessPtr)
  | leave (p : ProcessPtr)
  /-- a call with an invalid number -/
  | refuse (p : ProcessPtr)

/-- The steps.  User code and handlers compute, but do not change the privilege level. -/
inductive SyscallStep : SyscallRun → SyscallEvent → SyscallRun → Prop
  | execute {r : SyscallRun} (cpu : ProcessContext) (hcs : cpu.cs = r.cpu.cs) :
      SyscallStep r .internal { r with cpu := cpu }
  | tick {r : SyscallRun} (hready : r.Interruptible) :
      SyscallStep r .internal { r with toPreemptRun := r.toPreemptRun.tick }
  /-- additions, exits and the reaper -/
  | kernel {r : SyscallRun} {base : PreemptRun} (hstep : PreemptStep r.toPreemptRun base)
      (hcpu : base.cpu = r.cpu) (hgs : base.kernelGs = r.kernelGs)
      (hcurrent : base.current = r.current) :
      SyscallStep r .internal { r with toPreemptRun := base }
  | enter {r : SyscallRun} {p : ProcessPtr} {n : Syscall} (lstar : Nat) (hat : r.AtSyscall p)
      (hn : syscallTable[r.cpu.rax]? = some n) :
      SyscallStep r (.enter p) ((r.enter p lstar).callHandler p n)
  | leave {r : SyscallRun} {p : ProcessPtr} {n : Syscall} (hcurrent : r.current = some p)
      (hcall : r.call p = some n) (hreturns : n ≠ .exit) (habi : CalleeSaved (r.entry p) r.cpu) :
      SyscallStep r (.leave p) (r.leave p)
  | refuse {r : SyscallRun} {p : ProcessPtr} (lstar : Nat) (hat : r.AtSyscall p)
      (hn : syscallTable[r.cpu.rax]? = none) :
      SyscallStep r (.refuse p) ((r.enter p lstar).invalid.leave p)

/-- No other process waits inside `SYS_YIELD`. -/
def SyscallRun.Alone (r : SyscallRun) (p : ProcessPtr) : Prop :=
  ∀ q, q ≠ p → r.call q = some .yield → (r.run.scheduler.process q).state = .dead

/-- A step in which system calls are made only while no other process waits inside
`SYS_YIELD`. -/
def LoneStep (r r' : SyscallRun) : Prop :=
  ∃ event, SyscallStep r event r' ∧
    ∀ p, event = .enter p ∨ event = .refuse p → r.Alone p

/-! ## The invariant -/

/-- A process inside handler `n`. -/
structure CallInv (r : SyscallRun) (p : ProcessPtr) (n : Syscall) : Prop where
  known : p = r.run.scheduler.cpu.idleProcess ∨ p ∈ r.run.added
  cs : (r.registers p).cs &&& 3 = 0
  stack : r.kernelStack p = [(r.entry p).rbp, (r.entry p).rflags, (r.entry p).rip]
  rflags : sysretRflags (r.entry p).rflags = (r.entry p).rflags
  yielded : r.current = some p ∨ n = .yield ∨ (r.run.scheduler.process p).state = .dead
  slot : r.current = some p ∨ (r.run.scheduler.process p).state ≠ .dead →
    r.userStackRsp = (r.entry p).rsp

structure SyscallInv (r : SyscallRun) : Prop where
  base : PreemptInv r.toPreemptRun
  gs : r.kernelGs = decide (r.cpu.cs &&& 3 = 0)
  call : ∀ p n, r.call p = some n → CallInv r p n

section Steps

variable {r r' : SyscallRun} {p q : ProcessPtr} {n : Syscall}

/-- A process that is switched out does not notice what the running one does, apart from the
parked stack pointer. -/
theorem CallInv.other (hcall : CallInv r q n) (hq : r.current ≠ some q)
    (hrun : r'.run = r.run) (hsaved : r'.saved = r.saved)
    (hstack : r'.kernelStack q = r.kernelStack q) (hentry : r'.entry q = r.entry q)
    (hslot : r'.userStackRsp = r.userStackRsp ∨ (r.run.scheduler.process q).state = .dead) :
    CallInv r' q n := by
  have hcurrent : r'.current = r.current := by simp [PreemptRun.current, hrun]
  refine ⟨?_, ?_, ?_, ?_, ?_, ?_⟩
  · simpa [hrun] using hcall.known
  · simpa [PreemptRun.registers, hcurrent, hq, hsaved] using hcall.cs
  · rw [hstack, hentry]
    exact hcall.stack
  · rw [hentry]
    exact hcall.rflags
  · simpa [hcurrent, hrun] using hcall.yielded
  · rw [hcurrent, hrun, hentry]
    intro hlive
    rcases hslot with hsame | hdead
    · rw [hsame]
      exact hcall.slot hlive
    · exact absurd hdead (hlive.resolve_left hq)

/-- A step of the scheduler, for a process inside a handler. -/
theorem CallInv.preempt (hcall : CallInv r p n) {base : PreemptRun}
    (hknown : p = base.run.scheduler.cpu.idleProcess ∨ p ∈ base.run.added)
    (hregisters : base.registers p = r.registers p)
    (hyielded : base.current = some p ∨ n = .yield ∨
      (base.run.scheduler.process p).state = .dead)
    (hlive : base.current = some p ∨ (base.run.scheduler.process p).state ≠ .dead →
      r.current = some p ∨ (r.run.scheduler.process p).state ≠ .dead) :
    CallInv { r with toPreemptRun := base } p n := by
  refine ⟨hknown, ?_, hcall.stack, hcall.rflags, hyielded, fun h => hcall.slot (hlive h)⟩
  rw [hregisters]
  exact hcall.cs

theorem syscallInv_tick (hinv : SyscallInv r) (hready : r.Interruptible) :
    SyscallInv { r with toPreemptRun := r.toPreemptRun.tick } := by
  obtain ⟨c, hc, hcdead, -⟩ := tick_selects hinv.base
  obtain ⟨hidle, hadded, -⟩ := tick_frame r.toPreemptRun
  refine ⟨preemptInv_tick hinv.base, tick_kernelGs hc hinv.gs, fun p n hn => ?_⟩
  have hcall := hinv.call p n hn
  refine hcall.preempt (by simpa [hidle, hadded] using hcall.known)
    (tick_registers hinv.base p) ?_ ?_
  · by_cases hp : r.toPreemptRun.tick.current = some p
    · exact Or.inl hp
    · have hout : n = .yield ∨ (r.run.scheduler.process p).state = .dead :=
        hcall.yielded.elim (hready p n · hn) id
      exact Or.inr (hout.imp_right fun hdead => tick_dead hdead hp)
  · intro hlive
    by_cases hp : r.toPreemptRun.tick.current = some p
    · cases hc.symm.trans hp
      exact Or.inr hcdead
    · exact Or.inr fun hdead => hlive.resolve_left hp (tick_dead hdead hp)

/-- Additions, exits and the reaper. -/
theorem syscallInv_kernel (hinv : SyscallInv r) {base : PreemptRun}
    (hstep : PreemptStep r.toPreemptRun base) (hcpu : base.cpu = r.cpu)
    (hgs : base.kernelGs = r.kernelGs) (hcurrent : base.current = r.current) :
    SyscallInv { r with toPreemptRun := base } := by
  refine ⟨preemptStep_inv hinv.base hstep, by simpa [hcpu, hgs] using hinv.gs, fun p n hn => ?_⟩
  have hcall := hinv.call p n hn
  have hknown := preemptStep_known hstep hcall.known
  by_cases hp : r.current = some p
  · have hp' : base.current = some p := hcurrent.trans hp
    exact hcall.preempt hknown (by simp [PreemptRun.registers, hp, hp', hcpu]) (Or.inl hp')
      fun _ => Or.inl hp
  · have hp' : base.current ≠ some p := by rwa [hcurrent]
    obtain ⟨hsaved, hdead⟩ := preemptStep_other hstep hcall.known hp hp'
    refine hcall.preempt hknown (by simp [PreemptRun.registers, hp, hp', hsaved]) ?_ ?_
    · exact hcall.yielded.imp (absurd · hp) fun h => h.imp_right hdead
    · exact fun hlive => Or.inr fun h => hlive.resolve_left hp' (hdead h)

/-- The other processes when `p` makes a system call. -/
theorem CallInv.enter (hcall : CallInv r q n) (hqp : q ≠ p) (hat : r.AtSyscall p)
    (halone : r.Alone p) (hn : r.call q = some n) (hrun : r'.run = r.run)
    (hsaved : r'.saved = r.saved) (hstack : r'.kernelStack q = r.kernelStack q)
    (hentry : r'.entry q = r.entry q) : CallInv r' q n := by
  have hq : r.current ≠ some q := by
    rw [hat.current]
    simpa using hqp.symm
  have hdead : (r.run.scheduler.process q).state = .dead := by
    rcases hcall.yielded with hcurrent | rfl | hdead
    · exact absurd hcurrent hq
    · exact halone q hqp hn
    · exact hdead
  exact hcall.other hq hrun hsaved hstack hentry (Or.inr hdead)

theorem enter_kernelGs (hinv : SyscallInv r) (hat : r.AtSyscall p) (lstar : Nat) :
    (r.enter p lstar).kernelGs = true ∧ (r.enter p lstar).userStackRsp = r.cpu.rsp := by
  simp [SyscallRun.enter, syscallStubEnter, syscallInstruction, hinv.gs, hat.user]

theorem syscallInv_enter (hinv : SyscallInv r) (hat : r.AtSyscall p) (halone : r.Alone p)
    (lstar : Nat) : SyscallInv ((r.enter p lstar).callHandler p n) := by
  obtain ⟨hgs, hslot⟩ := enter_kernelGs hinv hat lstar
  refine ⟨⟨hinv.base.run, hinv.base.saved⟩, by rw [SyscallRun.callHandler_cs]; exact hgs, fun q m hm => ?_⟩
  by_cases hqp : q = p
  · subst hqp
    have hentry : ((r.enter q lstar).callHandler q n).entry q = r.cpu := update_self ..
    refine ⟨hinv.base.current_known hat.current, ?_, ?_, ?_, Or.inl hat.current, fun _ => ?_⟩
    · have hcurrent : ((r.enter q lstar).callHandler q n).current = some q := hat.current
      simp [PreemptRun.registers, hcurrent]
    · rw [hentry]
      exact update_self ..
    · rw [hentry]
      exact hat.rflags
    · rw [hentry]
      exact hslot
  · have hold : r.call q = some m := by
      simpa [SyscallRun.callHandler, SyscallRun.enter, update_of_ne hqp] using hm
    exact (hinv.call q m hold).enter hqp hat halone hold rfl rfl
      (update_of_ne hqp ..) (update_of_ne hqp ..)

/-- What the stub does from `.done` on, with the kernel's `gs`. -/
theorem leave_cpu {rbp r11 rcx : Nat} (hgs : r.kernelGs = true)
    (hstack : r.kernelStack p = [rbp, r11, rcx]) :
    (r.leave p).cpu = sysretInstruction { r.cpu with
      rbp := rbp, r11 := r11, rcx := rcx, rsp := r.userStackRsp } ∧
      (r.leave p).kernelGs = false := by
  simp [SyscallRun.leave, syscallStubDone, hstack, hgs]

theorem syscallInv_leave (hinv : SyscallInv r) (hcurrent : r.current = some p)
    (hn : r.call p = some n) : SyscallInv (r.leave p) := by
  have hcall := hinv.call p n hn
  have hcs : r.cpu.cs &&& 3 = 0 := by
    simpa [PreemptRun.registers, hcurrent] using hcall.cs
  obtain ⟨hcpu, hgs⟩ := leave_cpu (by simpa [hcs] using hinv.gs) hcall.stack
  refine ⟨⟨hinv.base.run, hinv.base.saved⟩, by simp [hgs, hcpu], fun q m hm => ?_⟩
  · by_cases hqp : q = p
    · subst hqp
      simp [SyscallRun.leave] at hm
    · have hold : r.call q = some m := by
        simpa [SyscallRun.leave, update_of_ne hqp] using hm
      have hq : r.current ≠ some q := by
        rw [hcurrent]
        simpa using Ne.symm hqp
      exact (hinv.call q m hold).other hq rfl rfl (update_of_ne hqp ..) rfl (Or.inl rfl)

/-- The registers after a call with an invalid number. -/
theorem refuse_cpu (hinv : SyscallInv r) (hat : r.AtSyscall p) (lstar : Nat) :
    ((r.enter p lstar).invalid.leave p).cpu = sysretInstruction
        { syscallInstruction lstar r.cpu with rax := 2 ^ 64 - 1 } ∧
      ((r.enter p lstar).invalid.leave p).kernelGs = false := by
  obtain ⟨hgs, hslot⟩ := enter_kernelGs hinv hat lstar
  have hstack : (r.enter p lstar).invalid.kernelStack p =
      [r.cpu.rbp, r.cpu.rflags, r.cpu.rip] := update_self ..
  obtain ⟨hcpu, hgs'⟩ := leave_cpu (r := (r.enter p lstar).invalid) hgs hstack
  refine ⟨?_, hgs'⟩
  rw [hcpu, show (r.enter p lstar).invalid.userStackRsp = r.cpu.rsp from hslot]
  rfl

theorem syscallInv_refuse (hinv : SyscallInv r) (hat : r.AtSyscall p) (halone : r.Alone p)
    (lstar : Nat) : SyscallInv ((r.enter p lstar).invalid.leave p) := by
  obtain ⟨hcpu, hgs⟩ := refuse_cpu hinv hat lstar
  refine ⟨⟨hinv.base.run, hinv.base.saved⟩, by simp [hgs, hcpu], fun q m hm => ?_⟩
  · by_cases hqp : q = p
    · subst hqp
      simp [SyscallRun.leave] at hm
    · have hold : r.call q = some m := by
        simpa [SyscallRun.leave, SyscallRun.invalid, SyscallRun.enter,
          update_of_ne hqp] using hm
      refine (hinv.call q m hold).enter hqp hat halone hold rfl rfl ?_
        (update_of_ne hqp ..)
      simp [SyscallRun.leave, SyscallRun.invalid, SyscallRun.enter, update_of_ne hqp]

theorem syscallStep_inv (hinv : SyscallInv r) (hstep : LoneStep r r') : SyscallInv r' := by
  obtain ⟨event, hstep, halone⟩ := hstep
  cases hstep with
  | execute cpu hcs =>
    refine ⟨⟨hinv.base.run, hinv.base.saved⟩, by simpa [hcs] using hinv.gs, fun p n hn => ?_⟩
    have hcall := hinv.call p n hn
    refine ⟨hcall.known, ?_, hcall.stack, hcall.rflags, hcall.yielded, hcall.slot⟩
    by_cases hp : r.run.scheduler.cpu.currentProcess = some p
    · simpa [PreemptRun.registers, PreemptRun.current, hp, hcs] using hcall.cs
    · simpa [PreemptRun.registers, PreemptRun.current, hp] using hcall.cs
  | tick hready => exact syscallInv_tick hinv hready
  | kernel hstep hcpu hgs hcurrent => exact syscallInv_kernel hinv hstep hcpu hgs hcurrent
  | enter lstar hat hn => exact syscallInv_enter hinv hat (halone _ (Or.inl rfl)) lstar
  | leave hcurrent hcall => exact syscallInv_leave hinv hcurrent hcall
  | refuse lstar hat => exact syscallInv_refuse hinv hat (halone _ (Or.inr rfl)) lstar

theorem syscallInv_initial (hinit : r.Initial) : SyscallInv r := by
  refine ⟨preemptInv_initial hinit.base, hinit.gs, fun p n hn => ?_⟩
  rw [hinit.call p] at hn
  cases hn

/-- A return is right as far as the handler was. -/
theorem leave_returnsOwn_iff (hinv : SyscallInv r) (hcurrent : r.current = some p)
    (hn : r.call p = some n) (habi : CalleeSaved (r.entry p) r.cpu) :
    ReturnsOwn (r.entry p) (r.leave p).cpu ↔ ArgumentsKept (r.entry p) r.cpu := by
  have hcall := hinv.call p n hn
  have hcs : r.cpu.cs &&& 3 = 0 := by
    simpa [PreemptRun.registers, hcurrent] using hcall.cs
  obtain ⟨hcpu, -⟩ := leave_cpu (by simpa [hcs] using hinv.gs) hcall.stack
  rw [hcpu]
  constructor
  · intro h
    exact ⟨h.arguments.rdx, h.arguments.rsi, h.arguments.rdi, h.arguments.r8, h.arguments.r9,
      h.arguments.r10⟩
  · intro h
    exact ⟨rfl, hcall.slot (Or.inl hcurrent), hcall.rflags,
      ⟨habi.rbx, rfl, habi.r12, habi.r13, habi.r14, habi.r15⟩,
      ⟨h.rdx, h.rsi, h.rdi, h.r8, h.r9, h.r10⟩⟩

theorem refuse_returnsOwn (hinv : SyscallInv r) (hat : r.AtSyscall p) (lstar : Nat) :
    ReturnsOwn r.cpu ((r.enter p lstar).invalid.leave p).cpu := by
  rw [(refuse_cpu hinv hat lstar).1]
  exact ⟨rfl, rfl, hat.rflags, ⟨rfl, rfl, rfl, rfl, rfl, rfl⟩, ⟨rfl, rfl, rfl, rfl, rfl, rfl⟩⟩

end Steps

/-- As long as no process makes a system call while another one waits inside `SYS_YIELD`, a
call returns to its caller's own context exactly if the handler kept the argument registers. -/
theorem syscall_returns_own {r₀ r : SyscallRun} (hinit : r₀.Initial)
    (hrun : ReflTransGen LoneStep r₀ r) :
    (∀ p r', SyscallStep r (.leave p) r' →
      (ReturnsOwn (r.entry p) r'.cpu ↔ ArgumentsKept (r.entry p) r.cpu)) ∧
    ∀ p r', SyscallStep r (.refuse p) r' → ReturnsOwn r.cpu r'.cpu := by
  have hinv : SyscallInv r :=
    run_invariant hrun (syscallInv_initial hinit) fun _ _ => syscallStep_inv
  constructor
  · intro p r' hstep
    cases hstep with
    | leave hcurrent hcall hreturns habi => exact leave_returnsOwn_iff hinv hcurrent hcall habi
  · intro p r' hstep
    cases hstep with
    | refuse lstar hat hn => exact refuse_returnsOwn hinv hat lstar

/-! ## A yield and another call -/

/-- Before the first process, as `preemptBoot`. -/
def syscallBoot : SyscallRun where
  toPreemptRun := preemptBoot
  userStackRsp := 0
  kernelStack := fun _ => []
  call := fun _ => none
  entry := fun _ => default

/-- User code with system call number `num` in `rax`. -/
def userContext (num rsp : Nat) : ProcessContext :=
  { (default : ProcessContext) with rax := num, cs := 0x23, rflags := 0x202, rsp := rsp, ss := 0x1B }

def SyscallRun.add (r : SyscallRun) (p num rsp : Nat) : SyscallRun :=
  let process := { bareProcess 0 0 with context := userContext num rsp }
  let result := schedulerAddProcess p (r.run.scheduler.setProcess p process)
  { r with
    run := { r.run with
      scheduler := result.2, added := if result.1 then p :: r.run.added else r.run.added }
    saved := update r.saved p (userContext num rsp) }

def SyscallRun.interrupt (r : SyscallRun) : SyscallRun :=
  { r with toPreemptRun := r.toPreemptRun.tick }

/-- Process 1 is about to yield, process 2 to call `sbrk`. -/
def twoCallers : SyscallRun := ((syscallBoot.add 1 2 0x1000).add 2 1 0x2000).interrupt

/-- Process 1 waits inside `SYS_YIELD`. -/
def yieldedRun : SyscallRun := ((twoCallers.enter 1 0).callHandler 1 .yield).interrupt

/-- Process 2 has called `sbrk` in the meantime. -/
def secondCall : SyscallRun := (((yieldedRun.enter 2 0).callHandler 2 .sbrk).leave 2).interrupt

theorem syscallBoot_initial : syscallBoot.Initial := by
  refine ⟨⟨⟨fun _ => rfl, fun _ => rfl, rfl, rfl, rfl, rfl, rfl, rfl⟩, fun _ => rfl⟩,
    fun _ => rfl, by decide⟩

theorem syscallStep_add {r : SyscallRun} {p : ProcessPtr} (num rsp : Nat) (hnew : p ∉ r.run.added)
    (hidle : p ≠ r.run.scheduler.cpu.idleProcess) : SyscallStep r .internal (r.add p num rsp) := by
  refine .kernel (.add hnew hidle rfl rfl) rfl rfl ?_
  exact congrArg CpuState.currentProcess (schedulerAddProcess_process rfl).2

/-- Steps other than system calls meet every condition on calls. -/
theorem LoneStep.internal {r r' : SyscallRun} (hstep : SyscallStep r .internal r') :
    LoneStep r r' :=
  ⟨.internal, hstep, fun p hp => by simp at hp⟩

theorem twoCallers_reached : ReflTransGen LoneStep syscallBoot twoCallers := by
  have hadd1 : SyscallStep syscallBoot .internal (syscallBoot.add 1 2 0x1000) :=
    syscallStep_add 2 0x1000 List.not_mem_nil (by decide)
  have hadd2 : SyscallStep (syscallBoot.add 1 2 0x1000) .internal
      ((syscallBoot.add 1 2 0x1000).add 2 1 0x2000) :=
    syscallStep_add 1 0x2000 (by decide +kernel) (by decide +kernel)
  have htick : SyscallStep ((syscallBoot.add 1 2 0x1000).add 2 1 0x2000) .internal twoCallers :=
    .tick fun p n _ hn => by cases hn
  exact .tail (.tail (.tail .refl (.internal hadd1)) (.internal hadd2)) (.internal htick)

theorem yieldedRun_reached : ReflTransGen LoneStep syscallBoot yieldedRun := by
  have hat : twoCallers.AtSyscall 1 := ⟨by decide +kernel, rfl, by decide +kernel, by decide +kernel⟩
  have henter : SyscallStep twoCallers (.enter 1) ((twoCallers.enter 1 0).callHandler 1 .yield) :=
    .enter 0 hat (by decide +kernel)
  have halone : LoneStep twoCallers ((twoCallers.enter 1 0).callHandler 1 .yield) :=
    ⟨_, henter, fun p _ q _ hq => by cases hq⟩
  have htick : SyscallStep ((twoCallers.enter 1 0).callHandler 1 .yield) .internal yieldedRun := by
    refine .tick fun p n hp hn => Or.inl ?_
    cases hp.symm.trans hat.current
    cases hn
    rfl
  exact .tail (.tail twoCallers_reached halone) (.internal htick)

theorem syscall_returns_own_yield : syscallBoot.Initial ∧
    ∃ r, ReflTransGen LoneStep syscallBoot r ∧ SyscallStep r (.leave 1) (r.leave 1) ∧
      (ReturnsOwn (r.entry 1) (r.leave 1).cpu ↔ ArgumentsKept (r.entry 1) r.cpu) := by
  have htick : SyscallStep yieldedRun .internal yieldedRun.interrupt := by
    refine .tick fun p n hp hn => ?_
    have hcurrent : yieldedRun.current = some 2 := by decide +kernel
    cases hp.symm.trans hcurrent
    cases hn
  have hrun := yieldedRun_reached.tail (.internal htick)
  have hleave : SyscallStep yieldedRun.interrupt (.leave 1) (yieldedRun.interrupt.leave 1) :=
    .leave (n := .yield) (by decide +kernel) rfl (by decide) ⟨by decide +kernel,
      by decide +kernel, by decide +kernel, by decide +kernel, by decide +kernel, by decide +kernel⟩
  exact ⟨syscallBoot_initial, _, hrun, hleave,
    (syscall_returns_own syscallBoot_initial hrun).1 1 _ hleave⟩

/-- Process 1 returns from `SYS_YIELD` with the stack pointer of process 2. -/
theorem yield_returns_foreign_stack : syscallBoot.Initial ∧
    ReflTransGen (fun r r' => ∃ event, SyscallStep r event r') syscallBoot secondCall ∧
      SyscallStep secondCall (.leave 1) (secondCall.leave 1) ∧
      ArgumentsKept (secondCall.entry 1) secondCall.cpu ∧
      (secondCall.entry 1).rsp = 0x1000 ∧ (secondCall.leave 1).cpu.rsp = 0x2000 ∧
      ¬ ReturnsOwn (secondCall.entry 1) (secondCall.leave 1).cpu := by
  have hyielded : ReflTransGen (fun r r' => ∃ event, SyscallStep r event r') syscallBoot
      yieldedRun :=
    yieldedRun_reached.lift id fun _ _ ⟨event, hstep, _⟩ => ⟨event, hstep⟩
  have hat : yieldedRun.AtSyscall 2 := ⟨by decide +kernel, rfl, by decide +kernel, by decide +kernel⟩
  have henter : SyscallStep yieldedRun (.enter 2) ((yieldedRun.enter 2 0).callHandler 2 .sbrk) :=
    .enter 0 hat (by decide +kernel)
  have hreturn : SyscallStep ((yieldedRun.enter 2 0).callHandler 2 .sbrk) (.leave 2)
      (((yieldedRun.enter 2 0).callHandler 2 .sbrk).leave 2) :=
    .leave (n := .sbrk) (by decide +kernel) rfl (by decide) ⟨rfl, rfl, rfl, rfl, rfl, rfl⟩
  have htick : SyscallStep (((yieldedRun.enter 2 0).callHandler 2 .sbrk).leave 2) .internal
      secondCall := by
    refine .tick fun p n hp hn => ?_
    cases hp.symm.trans hat.current
    cases hn
  have hleave : SyscallStep secondCall (.leave 1) (secondCall.leave 1) :=
    .leave (n := .yield) (by decide +kernel) rfl (by decide) ⟨by decide +kernel,
      by decide +kernel, by decide +kernel, by decide +kernel, by decide +kernel, by decide +kernel⟩
  have hown : (secondCall.entry 1).rsp = 0x1000 := by decide +kernel
  have hrsp : (secondCall.leave 1).cpu.rsp = 0x2000 := by decide +kernel
  refine ⟨syscallBoot_initial, ((hyielded.tail ⟨_, henter⟩).tail ⟨_, hreturn⟩).tail ⟨_, htick⟩,
    hleave, ⟨by decide +kernel, by decide +kernel, by decide +kernel, by decide +kernel,
      by decide +kernel, by decide +kernel⟩, hown, hrsp, fun h => ?_⟩
  have hsame := h.rsp
  rw [hown, hrsp] at hsame
  cases hsame

end Pristine.Kernel
