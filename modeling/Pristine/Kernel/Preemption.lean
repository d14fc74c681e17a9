import Pristine.Kernel.Interrupt
import Pristine.Kernel.SchedulerSafety

/-!
# Preemption

Processes run on one processor, and every timer interrupt goes through the stub,
`scheduler_loop` and `process_jump`.  The ghost `saved` of a run remembers for
each process the registers at its last preemption, or those `process_create`
gave it.  `preemption_restores` says that a process is always resumed with them.
-/

namespace Pristine.Kernel

open Function Lib Relation

/-- Scheduler, reaper and processor. -/
structure PreemptRun where
  run : SchedulerRun
  /-- the registers of the running code -/
  cpu : ProcessContext
  kernelGs : Bool
  /-- registers at the last preemption -/
  saved : ProcessPtr → ProcessContext

/-- The process that is running. -/
def PreemptRun.current (r : PreemptRun) : Option ProcessPtr := r.run.scheduler.cpu.currentProcess

/-- The registers process `p` goes on with. -/
def PreemptRun.registers (r : PreemptRun) (p : ProcessPtr) : ProcessContext :=
  if r.current = some p then r.cpu else r.saved p

/-- A timer interrupt, or `int $0xFF`. -/
def PreemptRun.tick (r : PreemptRun) : PreemptRun :=
  let result := timerInterrupt r.cpu r.kernelGs r.run.scheduler
  { run := { r.run with scheduler := result.2 }
    cpu := result.1.1
    kernelGs := result.1.2
    saved := match r.current with
      | some p => update r.saved p r.cpu
      | none => r.saved }

/-- Before the first process is added, with the registers of `kmain`. -/
structure PreemptRun.Initial (r : PreemptRun) : Prop where
  run : r.run.Initial
  saved : ∀ p, r.saved p = (r.run.scheduler.process p).context

/-- The steps: the running code changes its registers, an interrupt comes, a process is added or
exits, and the reaper goes on. -/
inductive PreemptStep : PreemptRun → PreemptRun → Prop
  | execute {r : PreemptRun} (cpu : ProcessContext) (kernelGs : Bool) :
      PreemptStep r { r with cpu := cpu, kernelGs := kernelGs }
  | tick {r : PreemptRun} : PreemptStep r r.tick
  | add {r : PreemptRun} {p : ProcessPtr} {process : Process} {added : Bool} {s' : Scheduler}
      (hnew : p ∉ r.run.added) (hidle : p ≠ r.run.scheduler.cpu.idleProcess)
      (hready : process.state = .ready)
      (hcall : schedulerAddProcess p (r.run.scheduler.setProcess p process) = (added, s')) :
      PreemptStep r { r with
        run := { r.run with
          scheduler := s', added := if added then p :: r.run.added else r.run.added }
        saved := update r.saved p process.context }
  | exit {r : PreemptRun} {p : ProcessPtr} (arg : Nat) (hcurrent : r.current = some p)
      (hidle : p ≠ r.run.scheduler.cpu.idleProcess) :
      PreemptStep r { r with
        run := { r.run with scheduler := syscallExit arg r.run.scheduler } }
  | reaperTake {r : PreemptRun} (hpc : r.run.reaper.pc = .take) :
      PreemptStep r { r with run := { r.run with
        reaper := (reaperTake r.run.reaper r.run.scheduler).1
        scheduler := (reaperTake r.run.reaper r.run.scheduler).2 } }
  | reaperAdvance {r : PreemptRun} (hpc : r.run.reaper.pc = .advance) :
      PreemptStep r { r with run := { r.run with reaper := reaperAdvance r.run.reaper } }
  | reaperDestroy {r : PreemptRun} (hpc : r.run.reaper.pc = .destroy) :
      PreemptStep r { r with run := { r.run with
        reaper := reaperDestroy r.run.reaper
        destroyed := r.run.reaper.processToReap.toList ++ r.run.destroyed } }

/-! ## One interrupt -/

/-- Only the process that was running gets a new context, unless it has exited. -/
theorem schedulerLoop_context (frame : InterruptFrame) (s : Scheduler) (q : ProcessPtr) :
    ((schedulerLoop frame s).process q).context =
      if s.cpu.currentProcess = some q ∧ (s.process q).state ≠ .dead then frame.context
      else (s.process q).context := by
  obtain ⟨hprocess, hcurrent, -⟩ := schedulerScan_frame schedulerMaxProcesses s
  unfold schedulerLoop
  generalize schedulerScan schedulerMaxProcesses s = result at *
  obtain ⟨found, s1⟩ := result
  dsimp only at hprocess hcurrent ⊢
  obtain ⟨s2, hs2⟩ : ∃ s2, s1.setNext (s1.cpu.schedulerNext + 1) = s2 := ⟨_, rfl⟩
  have hprocess2 : s2.process = s.process := by
    rw [← hs2]
    exact hprocess
  have hcurrent2 : s2.cpu.currentProcess = s.cpu.currentProcess := by
    rw [← hs2]
    exact hcurrent
  rw [hs2, ← hprocess2, ← hcurrent2]
  have hcontinue (p : ProcessPtr) (t : Scheduler) :
      ((continueProcess p t).process q).context = (t.process q).context := by
    unfold continueProcess Scheduler.setProcess
    by_cases hqp : q = p
    · subst hqp
      simp
    · simp [hqp]
  rw [hcontinue, suspendCurrent_process]
  split <;> rfl

/-- A dead process that is not selected stays dead. -/
theorem schedulerLoop_dead (frame : InterruptFrame) {s : Scheduler} {q : ProcessPtr}
    (hdead : (s.process q).state = .dead)
    (hother : (schedulerLoop frame s).cpu.currentProcess ≠ some q) :
    ((schedulerLoop frame s).process q).state = .dead := by
  have hprocess := (schedulerScan_frame schedulerMaxProcesses s).1
  unfold schedulerLoop at hother ⊢
  generalize schedulerScan schedulerMaxProcesses s = result at *
  rw [(continueProcess_frame frame _ _).2.2.1] at hother
  have hstate : ((result.2.setNext (result.2.cpu.schedulerNext + 1)).process q).state = .dead := by
    rw [← hdead, ← hprocess]
    rfl
  rw [continueProcess_state, if_neg fun h => hother (congrArg some h.symm),
    if_neg fun h => h.2 hstate, hstate]

/-- An interrupt is a `scheduler_loop` on the frame of the interrupted code. -/
theorem tick_scheduler (r : PreemptRun) :
    ∃ frame, InterruptFrame.context frame = r.cpu ∧
      r.tick.run = { r.run with scheduler := schedulerLoop frame r.run.scheduler } := by
  refine ⟨_, frame_of_interrupt r.cpu r.kernelGs 0xFF, ?_⟩
  have hdispatch : idt64IsrDispatch
      (isrCommon (isrNoErr 0xFF (interruptEntry r.cpu r.kernelGs))).stack r.run.scheduler =
        schedulerLoop (.ofStack
          (isrCommon (isrNoErr 0xFF (interruptEntry r.cpu r.kernelGs))).stack) r.run.scheduler := by
    unfold idt64IsrDispatch
    rw [intNo_of_interrupt]
    rfl
  unfold PreemptRun.tick timerInterrupt
  dsimp only
  rw [hdispatch]
  split <;> rfl

/-- What an interrupt leaves alone. -/
theorem tick_frame (r : PreemptRun) :
    r.tick.run.scheduler.cpu.idleProcess = r.run.scheduler.cpu.idleProcess ∧
      r.tick.run.added = r.run.added ∧ r.tick.run.destroyed = r.run.destroyed := by
  obtain ⟨frame, -, hrun⟩ := tick_scheduler r
  rw [hrun]
  exact ⟨schedulerLoop_idle frame r.run.scheduler, rfl, rfl⟩

theorem tick_dead {r : PreemptRun} {q : ProcessPtr}
    (hdead : (r.run.scheduler.process q).state = .dead) (hother : r.tick.current ≠ some q) :
    (r.tick.run.scheduler.process q).state = .dead := by
  obtain ⟨frame, -, hrun⟩ := tick_scheduler r
  unfold PreemptRun.current at hother
  rw [hrun] at hother ⊢
  exact schedulerLoop_dead frame hdead hother

/-- Registers and `gs` are those `process_jump` loads for the selected process. -/
theorem tick_jump {r : PreemptRun} {p : ProcessPtr} (hp : r.tick.current = some p) :
    (r.tick.cpu, r.tick.kernelGs) = processJump (r.tick.run.scheduler.process p).context
      (if r.cpu.cs &&& 3 ≠ 0 then !r.kernelGs else r.kernelGs) := by
  rw [← isrCommon_kernelGs r.cpu r.kernelGs 0xFF]
  unfold PreemptRun.tick timerInterrupt PreemptRun.current at *
  dsimp only at *
  generalize idt64IsrDispatch
    (isrCommon (isrNoErr 0xFF (interruptEntry r.cpu r.kernelGs))).stack r.run.scheduler = s at *
  cases hc : s.cpu.currentProcess with
  | none =>
    rw [hc] at hp
    rw [hc] at hp
    cases hp
  | some q =>
    rw [hc] at hp
    rw [hc] at hp
    cases hp
    rfl

/-- The selected process is resumed with its context. -/
theorem tick_cpu {r : PreemptRun} {p : ProcessPtr} (hp : r.tick.current = some p) :
    r.tick.cpu = (r.tick.run.scheduler.process p).context := by
  have hjump := tick_jump hp
  rw [processJump_eq] at hjump
  exact congrArg Prod.fst hjump

/-- If the interrupted code had its own `gs`, the resumed code has its own too. -/
theorem tick_kernelGs {r : PreemptRun} {p : ProcessPtr} (hp : r.tick.current = some p)
    (hgs : r.kernelGs = decide (r.cpu.cs &&& 3 = 0)) :
    r.tick.kernelGs = decide (r.tick.cpu.cs &&& 3 = 0) := by
  have hkernel : (if r.cpu.cs &&& 3 ≠ 0 then !r.kernelGs else r.kernelGs) = true := by
    rw [hgs]
    by_cases hcs : r.cpu.cs &&& 3 = 0 <;> simp [hcs]
  have hjump := tick_jump hp
  rw [processJump_eq, hkernel, ← tick_cpu hp] at hjump
  rw [(Prod.mk.inj hjump).2]
  by_cases hcs : r.tick.cpu.cs &&& 3 = 0 <;> simp [hcs]

/-! ## The invariant -/

/-- A process that is neither running nor dead has the registers it was preempted with. -/
structure PreemptInv (r : PreemptRun) : Prop where
  run : r.run.Inv
  saved : ∀ p, p = r.run.scheduler.cpu.idleProcess ∨ r.run.Alive p →
    (r.run.scheduler.process p).state ≠ .dead → r.current ≠ some p →
    (r.run.scheduler.process p).context = r.saved p

theorem schedulerAddProcess_process {s s' : Scheduler} {p : ProcessPtr} {process : Process}
    {added : Bool} (hcall : schedulerAddProcess p (s.setProcess p process) = (added, s')) :
    s'.process = update s.process p process ∧ s'.cpu = s.cpu := by
  unfold schedulerAddProcess at hcall
  split at hcall <;> cases hcall <;> exact ⟨rfl, rfl⟩

theorem syscallExit_current {s : Scheduler} {p : ProcessPtr} (arg : Nat)
    (hcurrent : s.cpu.currentProcess = some p) :
    syscallExit arg s = s.setProcess p { s.process p with
      state := .dead, exitCode := (BitVec.ofNat 32 arg).toInt } := by
  simp [syscallExit, hcurrent]

section Inv

variable {r r' : PreemptRun}

theorem preemptInv_initial (hinit : r.Initial) : PreemptInv r :=
  ⟨schedulerRun_inv_initial hinit.run, fun p _ _ _ => (hinit.saved p).symm⟩

/-- Steps that leave contexts and the running process alone. -/
theorem PreemptInv.keep (hinv : PreemptInv r) (hrun : r'.run.Inv) (hsaved : r'.saved = r.saved)
    (hcurrent : r'.current = r.current)
    (hidle : r'.run.scheduler.cpu.idleProcess = r.run.scheduler.cpu.idleProcess)
    (halive : ∀ p, r'.run.Alive p → r.run.Alive p)
    (hprocess : ∀ p, (r'.run.scheduler.process p).context = (r.run.scheduler.process p).context ∧
      ((r'.run.scheduler.process p).state ≠ .dead → (r.run.scheduler.process p).state ≠ .dead)) :
    PreemptInv r' := by
  refine ⟨hrun, fun p hp hstate hother => ?_⟩
  rw [(hprocess p).1, hsaved]
  rw [hidle] at hp
  rw [hcurrent] at hother
  exact hinv.saved p (hp.imp_right (halive p)) ((hprocess p).2 hstate) hother

theorem PreemptInv.current_known (hinv : PreemptInv r) {p : ProcessPtr} (hp : r.current = some p) :
    p = r.run.scheduler.cpu.idleProcess ∨ p ∈ r.run.added :=
  (hinv.run.scheduler.current p hp).imp_right fun ⟨_, hi⟩ =>
    (hinv.run.scheduler.tables.alive_of_listed hi).1

/-- The process selected by an interrupt was not dead, and it is idle or alive. -/
theorem tick_selects (hinv : PreemptInv r) :
    ∃ p, r.tick.current = some p ∧ (r.run.scheduler.process p).state ≠ .dead ∧
      (p = r.run.scheduler.cpu.idleProcess ∨ r.run.Alive p) := by
  obtain ⟨frame, -, hrun⟩ := tick_scheduler r
  obtain ⟨-, p, hp, halive, hdead, -⟩ := schedulerLoop_inv hinv.run.scheduler frame
  refine ⟨p, ?_, hdead, halive⟩
  unfold PreemptRun.current
  rw [hrun]
  exact hp

/-- The ghost after an interrupt. -/
theorem tick_saved (p : ProcessPtr) : r.tick.saved p = r.registers p := by
  unfold PreemptRun.tick PreemptRun.registers
  cases hcurrent : r.current with
  | none => simp
  | some c =>
    by_cases hpc : p = c
    · subst hpc
      simp
    · have hcp : c ≠ p := fun h => hpc h.symm
      simp [hpc, hcp]

/-- Contexts after an interrupt: what was saved is what the ghost remembers. -/
theorem tick_context (hinv : PreemptInv r) {p : ProcessPtr}
    (hp : p = r.run.scheduler.cpu.idleProcess ∨ r.run.Alive p)
    (hdead : (r.run.scheduler.process p).state ≠ .dead) :
    (r.tick.run.scheduler.process p).context = r.tick.saved p := by
  obtain ⟨frame, hframe, hrun⟩ := tick_scheduler r
  rw [hrun, tick_saved, schedulerLoop_context, hframe]
  unfold PreemptRun.registers
  by_cases hcurrent : r.current = some p
  · rw [if_pos hcurrent, if_pos ⟨hcurrent, hdead⟩]
  · rw [if_neg hcurrent, if_neg fun h => hcurrent h.1]
    exact hinv.saved p hp hdead hcurrent

/-- An interrupt changes the registers of no process. -/
theorem tick_registers (hinv : PreemptInv r) (p : ProcessPtr) :
    r.tick.registers p = r.registers p := by
  obtain ⟨c, hc, hdead, halive⟩ := tick_selects hinv
  rw [← tick_saved (r := r)]
  by_cases hp : r.tick.current = some p
  · cases hc.symm.trans hp
    rw [PreemptRun.registers, if_pos hc, tick_cpu hc, tick_context hinv halive hdead]
  · rw [PreemptRun.registers, if_neg hp]

theorem preemptInv_tick (hinv : PreemptInv r) : PreemptInv r.tick := by
  obtain ⟨frame, -, hrun⟩ := tick_scheduler r
  have hstep : SchedulerStep r.run r.tick.run := by
    rw [hrun]
    exact .loop frame
  obtain ⟨hidle, hadded, hdestroyed⟩ := tick_frame r
  refine ⟨schedulerStep_inv hinv.run hstep, fun q hq hstate hother => ?_⟩
  have hknown : q = r.run.scheduler.cpu.idleProcess ∨ r.run.Alive q := by
    simpa [hidle, SchedulerRun.Alive, hadded, hdestroyed] using hq
  exact tick_context hinv hknown fun hdead => hstate (tick_dead hdead hother)

theorem preemptInv_add (hinv : PreemptInv r) {p : ProcessPtr} {process : Process} {added : Bool}
    {s' : Scheduler} (hnew : p ∉ r.run.added) (hidle : p ≠ r.run.scheduler.cpu.idleProcess)
    (hready : process.state = .ready)
    (hcall : schedulerAddProcess p (r.run.scheduler.setProcess p process) = (added, s')) :
    PreemptInv { r with
      run := { r.run with
        scheduler := s', added := if added then p :: r.run.added else r.run.added }
      saved := update r.saved p process.context } := by
  have hframe := schedulerAddProcess_process hcall
  refine ⟨schedulerStep_inv hinv.run (.add hnew hidle hready hcall), fun q hq hstate hother => ?_⟩
  unfold PreemptRun.current at hother
  rw [hframe.1] at hstate ⊢
  rw [hframe.2] at hq hother
  by_cases hqp : q = p
  · subst hqp
    simp
  · simp only [update_of_ne hqp] at hstate ⊢
    refine hinv.saved q (hq.imp_right fun halive => ⟨?_, halive.2⟩) hstate hother
    have hin : q ∈ if added then p :: r.run.added else r.run.added := halive.1
    split at hin
    · exact (List.mem_cons.mp hin).resolve_left hqp
    · exact hin

theorem preemptStep_inv (hinv : PreemptInv r) (hstep : PreemptStep r r') : PreemptInv r' := by
  have hsame (s : Scheduler) (p : ProcessPtr) : (s.process p).context = (s.process p).context ∧
      ((s.process p).state ≠ .dead → (s.process p).state ≠ .dead) := ⟨rfl, id⟩
  cases hstep with
  | execute cpu kernelGs => exact hinv.keep hinv.run rfl rfl rfl (fun _ => id) (hsame _)
  | tick => exact preemptInv_tick hinv
  | add hnew hidle hready hcall => exact preemptInv_add hinv hnew hidle hready hcall
  | @exit p arg hcurrent hidle =>
    have hexit := syscallExit_current arg hcurrent
    refine hinv.keep (schedulerStep_inv hinv.run (.exit arg hcurrent hidle)) rfl ?_ ?_
      (fun _ => id) fun q => ?_
    · simp [PreemptRun.current, hexit, Scheduler.setProcess]
    · simp [hexit, Scheduler.setProcess]
    · by_cases hqp : q = p
      · subst hqp
        simp [hexit, Scheduler.setProcess]
      · simp [hexit, Scheduler.setProcess, update_of_ne hqp]
  | reaperTake hpc =>
    exact hinv.keep (schedulerStep_inv hinv.run (.reaperTake hpc)) rfl rfl rfl (fun _ => id)
      (hsame _)
  | reaperAdvance hpc =>
    exact hinv.keep (schedulerStep_inv hinv.run (.reaperAdvance hpc)) rfl rfl rfl (fun _ => id)
      (hsame _)
  | reaperDestroy hpc =>
    refine hinv.keep (schedulerStep_inv hinv.run (.reaperDestroy hpc)) rfl rfl rfl ?_ (hsame _)
    exact fun p hp => ⟨hp.1, fun hold => hp.2 (List.mem_append_right _ hold)⟩

/-- Processes stay known. -/
theorem preemptStep_known (hstep : PreemptStep r r') {q : ProcessPtr}
    (hq : q = r.run.scheduler.cpu.idleProcess ∨ q ∈ r.run.added) :
    q = r'.run.scheduler.cpu.idleProcess ∨ q ∈ r'.run.added := by
  cases hstep with
  | execute | reaperTake | reaperAdvance | reaperDestroy => exact hq
  | tick =>
    obtain ⟨hidle, hadded, -⟩ := tick_frame r
    rwa [hidle, hadded]
  | @add p process added s' hnew hidle hready hcall =>
    rw [(schedulerAddProcess_process hcall).2]
    refine hq.imp_right fun hin => ?_
    split
    · exact List.mem_cons_of_mem p hin
    · exact hin
  | exit arg hcurrent hidle =>
    simpa [syscallExit_current arg hcurrent, Scheduler.setProcess] using hq

/-- What a step leaves alone for a process `q` that is not running before and after it. -/
theorem preemptStep_other (hstep : PreemptStep r r') {q : ProcessPtr}
    (hq : q = r.run.scheduler.cpu.idleProcess ∨ q ∈ r.run.added) (hother : r.current ≠ some q)
    (hother' : r'.current ≠ some q) :
    r'.saved q = r.saved q ∧
      ((r.run.scheduler.process q).state = .dead → (r'.run.scheduler.process q).state = .dead) := by
  cases hstep with
  | execute | reaperTake | reaperAdvance | reaperDestroy => exact ⟨rfl, id⟩
  | tick =>
    refine ⟨?_, fun hdead => tick_dead hdead hother'⟩
    rw [tick_saved, PreemptRun.registers, if_neg hother]
  | @add p process added s' hnew hidle hready hcall =>
    have hqp : q ≠ p := by
      rintro rfl
      exact hq.elim hidle hnew
    refine ⟨update_of_ne hqp .., fun hdead => ?_⟩
    rw [(schedulerAddProcess_process hcall).1]
    simpa [update_of_ne hqp] using hdead
  | exit arg hcurrent hidle =>
    have hqp : q ≠ _ := fun heq => hother (heq ▸ hcurrent)
    exact ⟨rfl, by simp [syscallExit_current arg hcurrent, Scheduler.setProcess,
      update_of_ne hqp]⟩

end Inv

/-- Every process is resumed with the registers of its last preemption, or of its creation. -/
theorem preemption_restores {r₀ r : PreemptRun} (hinit : r₀.Initial)
    (hrun : ReflTransGen PreemptStep r₀ r) :
    ∃ p, r.tick.current = some p ∧
      r.tick.cpu = if r.current = some p then r.cpu else r.saved p := by
  have hinv : PreemptInv r :=
    run_invariant hrun (preemptInv_initial hinit) fun _ _ => preemptStep_inv
  obtain ⟨p, hp, hdead, halive⟩ := tick_selects hinv
  refine ⟨p, hp, ?_⟩
  rw [tick_cpu hp, tick_context hinv halive hdead, tick_saved, PreemptRun.registers]

/-- Before the first process, as `bootRun`. -/
def preemptBoot : PreemptRun where
  run := bootRun
  cpu := default
  kernelGs := true
  saved := fun _ => default

def PreemptRun.add (r : PreemptRun) (p : ProcessPtr) : PreemptRun :=
  { r with run := r.run.add p, saved := update r.saved p default }

/-- The running code loads 7 into `rax`. -/
def PreemptRun.loadSeven (r : PreemptRun) : PreemptRun :=
  { r with cpu := { r.cpu with rax := 7 } }

/-- Process 1 loads a register and is preempted, and then process 2 runs. -/
theorem preemption_restores_two : preemptBoot.Initial ∧
    ∃ r, ReflTransGen PreemptStep preemptBoot r ∧ r.current = some 2 ∧
      r.cpu.rax = 0 ∧ r.tick.cpu.rax = 7 ∧
      ∃ p, r.tick.current = some p ∧
        r.tick.cpu = if r.current = some p then r.cpu else r.saved p := by
  have hinit : preemptBoot.Initial :=
    ⟨⟨fun _ => rfl, fun _ => rfl, rfl, rfl, rfl, rfl, rfl, rfl⟩, fun _ => rfl⟩
  have hadd₁ : PreemptStep preemptBoot (preemptBoot.add 1) :=
    .add List.not_mem_nil (by decide) rfl rfl
  have hadd₂ : PreemptStep (preemptBoot.add 1) ((preemptBoot.add 1).add 2) :=
    .add (by decide +kernel) (by decide +kernel) rfl rfl
  have hrun : ReflTransGen PreemptStep preemptBoot
      ((preemptBoot.add 1).add 2).tick.loadSeven.tick :=
    .tail (.tail (.tail (.tail (.tail .refl hadd₁) hadd₂) .tick) (.execute _ _)) .tick
  exact ⟨hinit, _, hrun, by decide +kernel, by decide +kernel, by decide +kernel,
    preemption_restores hinit hrun⟩

end Pristine.Kernel
