import Pristine.Kernel.Process

/-!
# Scheduler and reaper

`scheduler_add_process`, `scheduler_loop`, `reaper_add_process`, `reaper_run`
and `syscall_exit` over one state.  A process object is named by a number, which
stands for its address; freed objects are not named again, so a reused address
counts as a new name.

`lapic_eoi` and the register loads of `process_jump` do not touch this state.
-/

namespace Pristine.Kernel

/-- `SCHEDULER_MAX_PROCESSES`. -/
def schedulerMaxProcesses : Nat := 32

/-- An index into `process_list` or `process_list_reap`. -/
abbrev Slot := Fin schedulerMaxProcesses

abbrev ProcessPtr := Nat

abbrev ProcessTable := Slot → Option ProcessPtr

/-- `InterruptFrame`, the part that `process_save_state` reads. -/
structure InterruptFrame where
  registers : Registers64
  iretFrame : IretFrame
  deriving DecidableEq, Repr, Inhabited

/-- The part of `CpuState` that the scheduler uses. -/
structure CpuState where
  kernelStackTop : Nat
  currentProcess : Option ProcessPtr
  schedulerNext : Nat
  idleProcess : ProcessPtr

structure Scheduler where
  /-- the process objects -/
  process : ProcessPtr → Process
  processList : ProcessTable
  processListReap : ProcessTable
  cpu : CpuState

/-- `process_save_state`. -/
def processSaveState (process : Process) (frame : InterruptFrame) : Process :=
  { process with context := { frame.registers, frame.iretFrame with } }

/-! ## The two tables -/

/-- The loop of `scheduler_add_process` and `reaper_add_process`: the first empty slot. -/
def firstEmpty (table : ProcessTable) : Option Slot :=
  (List.finRange schedulerMaxProcesses).find? fun i => table i = none

/-- `scheduler_add_process`. -/
def schedulerAddProcess (process : ProcessPtr) (s : Scheduler) : Bool × Scheduler :=
  match firstEmpty s.processList with
  | some i => (true, { s with processList := Function.update s.processList i (some process) })
  | none => (false, s)

/-- `reaper_add_process`. -/
def reaperAddProcess (process : ProcessPtr) (s : Scheduler) : Bool × Scheduler :=
  match firstEmpty s.processListReap with
  | some i =>
    (true, { s with processListReap := Function.update s.processListReap i (some process) })
  | none => (false, s)

/-- An index that starts over at the end of the table. -/
def wrapSlot (n : Nat) : Slot :=
  if h : n < schedulerMaxProcesses then ⟨n, h⟩ else ⟨0, by decide⟩

/-! ## `scheduler_loop` -/

def Scheduler.setNext (s : Scheduler) (next : Nat) : Scheduler :=
  { s with cpu := { s.cpu with schedulerNext := next } }

/-- A dead process in slot `i`: it goes to the reaper if there is room. -/
def handOver (i : Slot) (process : ProcessPtr) (s : Scheduler) : Scheduler :=
  match reaperAddProcess process s with
  | (true, s) => { s with processList := Function.update s.processList i none }
  | (false, s) => s

/-- The search of `scheduler_loop`, with the iterations left. -/
def schedulerScan : Nat → Scheduler → Option ProcessPtr × Scheduler
  | 0, s => (none, s)
  | loops + 1, s =>
    let i := wrapSlot s.cpu.schedulerNext
    match s.processList i with
    | none => schedulerScan loops (s.setNext (i + 1))
    | some process =>
      if (s.process process).state = .dead then
        schedulerScan loops ((handOver i process s).setNext (i + 1))
      else
        (some process, s.setNext i)

def Scheduler.setProcess (s : Scheduler) (p : ProcessPtr) (process : Process) : Scheduler :=
  { s with process := Function.update s.process p process }

/-- The process that was running is ready again, unless it has exited. -/
def suspendCurrent (frame : InterruptFrame) (s : Scheduler) : Scheduler :=
  match s.cpu.currentProcess with
  | some p =>
    if (s.process p).state ≠ .dead then
      s.setProcess p { processSaveState (s.process p) frame with state := .ready }
    else
      s
  | none => s

/-- Let a process run. -/
def continueProcess (p : ProcessPtr) (s : Scheduler) : Scheduler :=
  let s := s.setProcess p { s.process p with state := .running }
  { s with cpu := { s.cpu with
      currentProcess := some p
      kernelStackTop := (s.process p).kernelStackTop } }

/-- `scheduler_loop`, on the interrupt frame of the tick or yield. -/
def schedulerLoop (frame : InterruptFrame) (s : Scheduler) : Scheduler :=
  let (found, s) := schedulerScan schedulerMaxProcesses s
  let s := s.setNext (s.cpu.schedulerNext + 1)
  continueProcess (found.getD s.cpu.idleProcess) (suspendCurrent frame s)

/-- `syscall_exit` up to its `scheduler_yield`. -/
def syscallExit (arg : Nat) (s : Scheduler) : Scheduler :=
  match s.cpu.currentProcess with
  | some p =>
    -- the exit code is the low half of the argument, as an `int`
    s.setProcess p { s.process p with state := .dead, exitCode := (BitVec.ofNat 32 arg).toInt }
  | none => s

/-! ## `reaper_run` -/

/-- Where the reaper is: before it takes a slot, after that, or after `reaper_cursor++`. -/
inductive ReaperPc where
  | take
  | advance
  | destroy
  deriving DecidableEq, Repr

/-- `reaper_cursor` and the locals of `reaper_run`. -/
structure Reaper where
  pc : ReaperPc
  reaperCursor : Nat
  /-- `process_to_reap`, until it is destroyed -/
  processToReap : Option ProcessPtr

/-- Up to `idt64_enable_interrupts`: the slot is read and cleared with interrupts off. -/
def reaperTake (r : Reaper) (s : Scheduler) : Reaper × Scheduler :=
  let i := wrapSlot r.reaperCursor
  ({ pc := .advance, reaperCursor := i, processToReap := s.processListReap i },
    { s with processListReap := Function.update s.processListReap i none })

/-- `reaper_cursor++`. -/
def reaperAdvance (r : Reaper) : Reaper :=
  { r with pc := .destroy, reaperCursor := r.reaperCursor + 1 }

/-- The rest of the iteration: `process_destroy` and `kfree` of what was taken, if
anything was.  The yield or halt that follows is a step of the scheduler. -/
def reaperDestroy (r : Reaper) : Reaper :=
  { r with pc := .take, processToReap := none }

end Pristine.Kernel
