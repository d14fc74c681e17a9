import Pristine.Kernel.Scheduler
import Pristine.Lib.Placement
import Pristine.Lib.Run

/-!
# Safety of scheduler and reaper

A process that was added is a token: it is in one slot of `process_list`, in one
slot of `process_list_reap`, or in the reaper's hand, until it is destroyed.
Runs interleave the steps of `Scheduler` in any order; in particular the reaper
may be interrupted anywhere between taking a process and destroying it.
-/

namespace Pristine.Kernel

open Function Lib Relation

/-! ## Runs -/

/-- Where a process can be. -/
inductive Location where
  | listed (i : Slot)
  | reaping (i : Slot)
  | hand
  deriving DecidableEq

/-- Which process is there. -/
def holder (s : Scheduler) (hand : Option ProcessPtr) : Location → Option ProcessPtr
  | .listed i => s.processList i
  | .reaping i => s.processListReap i
  | .hand => hand

/-- Scheduler and reaper, with all processes ever added and ever destroyed. -/
structure SchedulerRun where
  scheduler : Scheduler
  reaper : Reaper
  added : List ProcessPtr
  destroyed : List ProcessPtr

/-- Added and not yet destroyed. -/
def SchedulerRun.Alive (r : SchedulerRun) (p : ProcessPtr) : Prop :=
  p ∈ r.added ∧ p ∉ r.destroyed

/-- Before the first `scheduler_add_process`. -/
structure SchedulerRun.Initial (r : SchedulerRun) : Prop where
  list : ∀ i, r.scheduler.processList i = none
  reap : ∀ i, r.scheduler.processListReap i = none
  current : r.scheduler.cpu.currentProcess = none
  idle : (r.scheduler.process r.scheduler.cpu.idleProcess).state = .ready
  hand : r.reaper.processToReap = none
  pc : r.reaper.pc = .take
  added : r.added = []
  destroyed : r.destroyed = []

/-- The steps.  `process_create` leaves a new process ready; the idle process runs
`kernel_idle`, which does not exit. -/
inductive SchedulerStep : SchedulerRun → SchedulerRun → Prop
  | add {r : SchedulerRun} {p : ProcessPtr} {process : Process} {added : Bool} {s' : Scheduler}
      (hnew : p ∉ r.added) (hidle : p ≠ r.scheduler.cpu.idleProcess)
      (hready : process.state = .ready)
      (hcall : schedulerAddProcess p (r.scheduler.setProcess p process) = (added, s')) :
      SchedulerStep r
        { r with scheduler := s', added := if added then p :: r.added else r.added }
  | loop {r : SchedulerRun} (frame : InterruptFrame) :
      SchedulerStep r { r with scheduler := schedulerLoop frame r.scheduler }
  | exit {r : SchedulerRun} {p : ProcessPtr} (arg : Nat)
      (hcurrent : r.scheduler.cpu.currentProcess = some p)
      (hidle : p ≠ r.scheduler.cpu.idleProcess) :
      SchedulerStep r { r with scheduler := syscallExit arg r.scheduler }
  | reaperTake {r : SchedulerRun} (hpc : r.reaper.pc = .take) :
      SchedulerStep r { r with
        reaper := (reaperTake r.reaper r.scheduler).1
        scheduler := (reaperTake r.reaper r.scheduler).2 }
  | reaperAdvance {r : SchedulerRun} (hpc : r.reaper.pc = .advance) :
      SchedulerStep r { r with reaper := reaperAdvance r.reaper }
  | reaperDestroy {r : SchedulerRun} (hpc : r.reaper.pc = .destroy) :
      SchedulerStep r { r with
        reaper := reaperDestroy r.reaper
        destroyed := r.reaper.processToReap.toList ++ r.destroyed }

/-- What `scheduler_loop` does: it selects the idle process or one that was added and is not
destroyed.  It is not dead, and then it is the only running one. -/
def Selects (r : SchedulerRun) (s' : Scheduler) : Prop :=
  ∃ p, s'.cpu.currentProcess = some p ∧ (p = r.scheduler.cpu.idleProcess ∨ r.Alive p) ∧
    (r.scheduler.process p).state ≠ .dead ∧
    ∀ q, q = r.scheduler.cpu.idleProcess ∨ r.Alive q →
      ((s'.process q).state = .running ↔ q = p)

/-- The guarantees. -/
structure SchedulerSafe (r : SchedulerRun) : Prop where
  /-- an added process is in one place until it is destroyed -/
  owned : ∀ p, r.Alive p → ∃! place, holder r.scheduler r.reaper.processToReap place = some p
  /-- nothing else is in these places -/
  alive : ∀ place p, holder r.scheduler r.reaper.processToReap place = some p → r.Alive p
  /-- a process in the reaper's hand is dead and not current -/
  hand : ∀ p, r.reaper.processToReap = some p →
    (r.scheduler.process p).state = .dead ∧ r.scheduler.cpu.currentProcess ≠ some p
  /-- a step destroys dead processes only, and not the current one -/
  destroys : ∀ r' p, SchedulerStep r r' → p ∈ r'.destroyed → p ∉ r.destroyed →
    (r.scheduler.process p).state = .dead ∧ r.scheduler.cpu.currentProcess ≠ some p
  destroyed_once : r.destroyed.Nodup
  selects : ∀ frame, Selects r (schedulerLoop frame r.scheduler)

/-! ## The tables -/

/-- The invariant of the tables. -/
structure Tables (s : Scheduler) (hand : Option ProcessPtr) (alive : ProcessPtr → Prop) :
    Prop where
  placement : Placement (holder s hand)
  placed : ∀ p, Placed (holder s hand) p ↔ alive p
  reaping : ∀ i p, s.processListReap i = some p → (s.process p).state = .dead
  hand : ∀ p, hand = some p → (s.process p).state = .dead

section Tables

variable {s : Scheduler} {hand : Option ProcessPtr} {alive : ProcessPtr → Prop} {p : ProcessPtr}

theorem holder_listed (i : Slot) (x : Option ProcessPtr) :
    holder { s with processList := update s.processList i x } hand =
      update (holder s hand) (.listed i) x := by
  funext place
  cases place with
  | listed j =>
    by_cases hji : j = i
    · subst hji
      simp [holder]
    · simp [holder, hji]
  | reaping j => simp [holder]
  | hand => simp [holder]

theorem holder_reaping (i : Slot) (x : Option ProcessPtr) :
    holder { s with processListReap := update s.processListReap i x } hand =
      update (holder s hand) (.reaping i) x := by
  funext place
  cases place with
  | listed j => simp [holder]
  | reaping j =>
    by_cases hji : j = i
    · subst hji
      simp [holder]
    · simp [holder, hji]
  | hand => simp [holder]

theorem holder_hand (x : Option ProcessPtr) : holder s x = update (holder s hand) .hand x := by
  funext place
  cases place <;> simp [holder]

theorem firstEmpty_none {table : ProcessTable} {i : Slot} (hfirst : firstEmpty table = some i) :
    table i = none := by
  simpa using List.find?_some hfirst

/-- A dead process moves to the reaper or stays. -/
theorem Tables.handOver (htables : Tables s hand alive) {i : Slot}
    (hi : s.processList i = some p) (hdead : (s.process p).state = .dead) :
    Tables (Kernel.handOver i p s) hand alive := by
  unfold Kernel.handOver reaperAddProcess
  cases hfirst : firstEmpty s.processListReap with
  | none => exact htables
  | some j =>
    have hlisted : holder s hand (.listed i) = some p := hi
    have hempty : holder s hand (.reaping j) = none := firstEmpty_none hfirst
    have hmove := htables.placement.move hlisted hempty
    have hholder : holder { s with
        processListReap := update s.processListReap j (some p)
        processList := update s.processList i none } hand =
        update (update (holder s hand) (.listed i) none) (.reaping j)
          (some p) := by
      rw [← holder_listed, ← holder_reaping]
    refine ⟨?_, ?_, ?_, htables.hand⟩
    · show Placement (holder { s with
        processListReap := update s.processListReap j (some p)
        processList := update s.processList i none } hand)
      rw [hholder]
      exact hmove.1
    · intro q
      rw [← htables.placed q, ← hmove.2 q, ← hholder]
    · intro k q hk
      by_cases hkj : k = j
      · subst hkj
        simp only [update_self, Option.some.injEq] at hk
        subst hk
        exact hdead
      · simp only [update_of_ne hkj] at hk
        exact htables.reaping k q hk

@[simp] theorem handOver_process (i : Slot) (p : ProcessPtr) (s : Scheduler) :
    (handOver i p s).process = s.process ∧ (handOver i p s).cpu = s.cpu := by
  unfold Kernel.handOver reaperAddProcess
  cases firstEmpty s.processListReap <;> exact ⟨rfl, rfl⟩

/-! ## The search -/

/-- The search only moves dead processes and the index. -/
theorem schedulerScan_frame (loops : Nat) (s : Scheduler) :
    (schedulerScan loops s).2.process = s.process ∧
      (schedulerScan loops s).2.cpu.currentProcess = s.cpu.currentProcess ∧
      (schedulerScan loops s).2.cpu.idleProcess = s.cpu.idleProcess := by
  fun_induction schedulerScan loops s with
  | case1 s => exact ⟨rfl, rfl, rfl⟩
  | case2 s loops i hnone ih => simpa [Scheduler.setNext] using ih
  | case3 s loops i p hsome hdead ih => simpa [Scheduler.setNext] using ih
  | case4 s loops i p hsome hdead => exact ⟨rfl, rfl, rfl⟩

theorem Tables.schedulerScan (loops : Nat) (htables : Tables s hand alive) :
    Tables (Kernel.schedulerScan loops s).2 hand alive := by
  fun_induction Kernel.schedulerScan loops s with
  | case1 s => exact htables
  | case2 s loops i hnone ih => exact ih ⟨htables.1, htables.2, htables.3, htables.4⟩
  | case3 s loops i p hsome hdead ih =>
    have hmoved := htables.handOver hsome hdead
    exact ih ⟨hmoved.1, hmoved.2, hmoved.3, hmoved.4⟩
  | case4 s loops i p hsome hdead => exact ⟨htables.1, htables.2, htables.3, htables.4⟩

/-- What the search finds is listed and not dead. -/
theorem schedulerScan_found (loops : Nat) (hfound : (schedulerScan loops s).1 = some p) :
    (s.process p).state ≠ .dead ∧ ∃ i, (schedulerScan loops s).2.processList i = some p := by
  fun_induction schedulerScan loops s with
  | case1 s => cases hfound
  | case2 s loops i hnone ih => exact ih hfound
  | case3 s loops i q hsome hdead ih =>
    have hlast := ih hfound
    simpa [Scheduler.setNext] using hlast
  | case4 s loops i q hsome hdead =>
    cases hfound
    exact ⟨hdead, i, hsome⟩

end Tables

/-! ## The invariant -/

structure SchedulerInv (s : Scheduler) (hand : Option ProcessPtr) (alive : ProcessPtr → Prop) :
    Prop where
  tables : Tables s hand alive
  idle : ¬ alive s.cpu.idleProcess
  idle_state : (s.process s.cpu.idleProcess).state ≠ .dead
  current : ∀ p, s.cpu.currentProcess = some p →
    p = s.cpu.idleProcess ∨ ∃ i, s.processList i = some p
  running : ∀ p, p = s.cpu.idleProcess ∨ alive p → (s.process p).state = .running →
    s.cpu.currentProcess = some p

section Inv

variable {s : Scheduler} {hand : Option ProcessPtr} {alive : ProcessPtr → Prop} {p : ProcessPtr}

theorem Tables.alive_of_listed (htables : Tables s hand alive) {i : Slot}
    (hi : s.processList i = some p) : alive p :=
  (htables.placed p).mp ⟨.listed i, hi⟩

/-- A listed process is not with the reaper. -/
theorem Tables.listed_ne (htables : Tables s hand alive) {i : Slot}
    (hi : s.processList i = some p) : (∀ j, s.processListReap j ≠ some p) ∧ hand ≠ some p := by
  refine ⟨fun j hj => ?_, fun hhand => ?_⟩
  · cases htables.placement (.listed i) (.reaping j) p hi hj
  · cases htables.placement (.listed i) .hand p hi hhand

/-- The current process is not with the reaper. -/
theorem SchedulerInv.current_ne (hinv : SchedulerInv s hand alive)
    (hp : s.cpu.currentProcess = some p) : (∀ j, s.processListReap j ≠ some p) ∧ hand ≠ some p := by
  rcases hinv.current p hp with rfl | ⟨i, hi⟩
  · refine ⟨fun j hj => ?_, fun hhand => ?_⟩
    · exact hinv.idle ((hinv.tables.placed _).mp ⟨.reaping j, hj⟩)
    · exact hinv.idle ((hinv.tables.placed _).mp ⟨.hand, hhand⟩)
  · exact hinv.tables.listed_ne hi

/-- The states of processes with the reaper stay as they are when another process
changes. -/
theorem Tables.setProcess (htables : Tables s hand alive) {process : Process}
    (hp : (∀ j, s.processListReap j ≠ some p) ∧ hand ≠ some p) :
    Tables (s.setProcess p process) hand alive := by
  have hother (q : ProcessPtr) (hqp : q ≠ p) : (s.setProcess p process).process q = s.process q :=
    update_of_ne hqp ..
  refine ⟨htables.placement, htables.placed, ?_, ?_⟩
  · intro j q hj
    have hqp : q ≠ p := by
      rintro rfl
      exact hp.1 j hj
    rw [hother q hqp]
    exact htables.reaping j q hj
  · intro q hq
    have hqp : q ≠ p := by
      rintro rfl
      exact hp.2 hq
    rw [hother q hqp]
    exact htables.hand q hq

/-- `process_list` has one more process. -/
theorem schedulerAddProcess_inv (hinv : SchedulerInv s hand alive) {process : Process}
    {added : Bool} {s' : Scheduler} (hnew : ¬ alive p) (hidle : p ≠ s.cpu.idleProcess)
    (hready : process.state = .ready)
    (hcall : schedulerAddProcess p (s.setProcess p process) = (added, s')) :
    SchedulerInv s' hand fun q => added = true ∧ q = p ∨ alive q := by
  have hnowhere : ¬ Placed (holder s hand) p := by
    rw [hinv.tables.placed]
    exact hnew
  have hreaper : (∀ j, s.processListReap j ≠ some p) ∧ hand ≠ some p :=
    ⟨fun j hj => hnowhere ⟨.reaping j, hj⟩, fun hhand => hnowhere ⟨.hand, hhand⟩⟩
  have htables : Tables (s.setProcess p process) hand alive := hinv.tables.setProcess hreaper
  have hself : (s.setProcess p process).process p = process := update_self ..
  have hother (q : ProcessPtr) (hqp : q ≠ p) : (s.setProcess p process).process q = s.process q :=
    update_of_ne hqp ..
  have hrunning (q : ProcessPtr) (hq : q = s.cpu.idleProcess ∨ q = p ∨ alive q)
      (hstate : ((s.setProcess p process).process q).state = .running) :
      s.cpu.currentProcess = some q := by
    by_cases hqp : q = p
    · subst hqp
      rw [hself, hready] at hstate
      cases hstate
    · rw [hother q hqp] at hstate
      exact hinv.running q (hq.imp_right fun h => h.resolve_left hqp) hstate
  have hidleState : ((s.setProcess p process).process s.cpu.idleProcess).state ≠ .dead := by
    rw [hother _ hidle.symm]
    exact hinv.idle_state
  unfold schedulerAddProcess at hcall
  cases hfirst : firstEmpty s.processList with
  | none =>
    have hcase : firstEmpty (s.setProcess p process).processList = none := hfirst
    rw [hcase] at hcall
    cases hcall
    simp only [Bool.false_eq_true, false_and, false_or]
    exact ⟨htables, hinv.idle, hidleState, hinv.current,
      fun q hq => hrunning q (hq.imp_right Or.inr)⟩
  | some i =>
    have hcase : firstEmpty (s.setProcess p process).processList = some i := hfirst
    have hempty : holder (s.setProcess p process) hand (.listed i) = none := firstEmpty_none hfirst
    rw [hcase] at hcall
    cases hcall
    simp only [true_and]
    refine ⟨⟨?_, ?_, htables.reaping, htables.hand⟩, ?_, hidleState, ?_, hrunning⟩
    · rw [holder_listed]
      exact htables.placement.put hnowhere
    · intro q
      rw [holder_listed, placed_put hempty, htables.placed]
    · rintro (heq | hin)
      · exact hidle heq.symm
      · exact hinv.idle hin
    · intro q hq
      refine (hinv.current q hq).imp_right ?_
      rintro ⟨j, hj⟩
      have hji : j ≠ i := by
        rintro rfl
        rw [firstEmpty_none hfirst] at hj
        cases hj
      exact ⟨j, by rw [← hj]; exact update_of_ne hji ..⟩

/-- The current process may exit. -/
theorem syscallExit_inv (hinv : SchedulerInv s hand alive) (arg : Nat)
    (hcurrent : s.cpu.currentProcess = some p) (hidle : p ≠ s.cpu.idleProcess) :
    SchedulerInv (syscallExit arg s) hand alive := by
  unfold syscallExit
  rw [hcurrent]
  refine ⟨hinv.tables.setProcess (hinv.current_ne hcurrent), hinv.idle, ?_, hinv.current, ?_⟩
  · simpa [Scheduler.setProcess, update_of_ne hidle.symm] using hinv.idle_state
  · intro q hq hstate
    by_cases hqp : q = p
    · subst hqp
      exact hcurrent
    · simp only [Scheduler.setProcess, update_of_ne hqp] at hstate
      exact hinv.running q hq hstate

/-! ## `scheduler_loop` -/

/-- Only the process that was running is suspended, unless it has exited. -/
theorem suspendCurrent_process (frame : InterruptFrame) (s : Scheduler) (q : ProcessPtr) :
    (suspendCurrent frame s).process q =
      if s.cpu.currentProcess = some q ∧ (s.process q).state ≠ .dead then
        { processSaveState (s.process q) frame with state := .ready }
      else s.process q := by
  unfold suspendCurrent Scheduler.setProcess
  cases s.cpu.currentProcess with
  | none => simp
  | some c =>
    by_cases hqc : q = c
    · subst hqc
      by_cases hdead : (s.process q).state = .dead <;> simp [hdead]
    · by_cases hdead : (s.process c).state = .dead <;> simp [hdead, Ne.symm hqc, update_of_ne hqc]

/-- The states after `scheduler_loop` has selected `p`. -/
theorem continueProcess_state (frame : InterruptFrame) (p q : ProcessPtr) (s : Scheduler) :
    ((continueProcess p (suspendCurrent frame s)).process q).state =
      if q = p then .running
      else if s.cpu.currentProcess = some q ∧ (s.process q).state ≠ .dead then .ready
      else (s.process q).state := by
  unfold continueProcess Scheduler.setProcess
  by_cases hqp : q = p
  · subst hqp
    simp
  · simp only [update_of_ne hqp, if_neg hqp, suspendCurrent_process]
    split <;> rfl

theorem continueProcess_frame (frame : InterruptFrame) (p : ProcessPtr) (s : Scheduler) :
    (continueProcess p (suspendCurrent frame s)).processList = s.processList ∧
      (continueProcess p (suspendCurrent frame s)).processListReap = s.processListReap ∧
      (continueProcess p (suspendCurrent frame s)).cpu.currentProcess = some p ∧
      (continueProcess p (suspendCurrent frame s)).cpu.idleProcess = s.cpu.idleProcess := by
  unfold continueProcess suspendCurrent Scheduler.setProcess
  cases s.cpu.currentProcess with
  | none => exact ⟨rfl, rfl, rfl, rfl⟩
  | some c =>
    dsimp only
    split <;> exact ⟨rfl, rfl, rfl, rfl⟩

theorem schedulerLoop_idle (frame : InterruptFrame) (s : Scheduler) :
    (schedulerLoop frame s).cpu.idleProcess = s.cpu.idleProcess := by
  unfold schedulerLoop
  rw [(continueProcess_frame frame _ _).2.2.2]
  exact (schedulerScan_frame schedulerMaxProcesses s).2.2

/-- Letting a listed process or the idle process continue.  The process that was
current may have left the list. -/
theorem continueProcess_inv (htables : Tables s hand alive) (hidle : ¬ alive s.cpu.idleProcess)
    (hidleState : (s.process s.cpu.idleProcess).state ≠ .dead)
    (hrunning : ∀ q, q = s.cpu.idleProcess ∨ alive q → (s.process q).state = .running →
      s.cpu.currentProcess = some q)
    (frame : InterruptFrame) (hp : p = s.cpu.idleProcess ∨ ∃ i, s.processList i = some p) :
    SchedulerInv (continueProcess p (suspendCurrent frame s)) hand alive ∧
      ∀ q, q = s.cpu.idleProcess ∨ alive q →
        (((continueProcess p (suspendCurrent frame s)).process q).state = .running ↔ q = p) := by
  obtain ⟨hlist, hreap, hcurrent, hidleEq⟩ := continueProcess_frame frame p s
  have hstate := fun q => continueProcess_state frame p q s
  generalize continueProcess p (suspendCurrent frame s) = s' at *
  have hreaper : (∀ j, s.processListReap j ≠ some p) ∧ hand ≠ some p := by
    rcases hp with rfl | ⟨i, hi⟩
    · exact ⟨fun j hj => hidle ((htables.placed _).mp ⟨.reaping j, hj⟩),
        fun hhand => hidle ((htables.placed _).mp ⟨.hand, hhand⟩)⟩
    · exact htables.listed_ne hi
  have hdead (q : ProcessPtr) (hqp : q ≠ p) (hq : (s.process q).state = .dead) :
      (s'.process q).state = .dead := by
    rw [hstate, if_neg hqp, if_neg (fun h => h.2 hq), hq]
  have hrun (q : ProcessPtr) (hq : q = s.cpu.idleProcess ∨ alive q) :
      (s'.process q).state = .running ↔ q = p := by
    rw [hstate]
    by_cases hqp : q = p
    · simp [hqp]
    · -- a running process was current, so it is ready now
      rw [if_neg hqp]
      refine ⟨fun hrunq => ?_, fun heq => absurd heq hqp⟩
      split at hrunq
      · cases hrunq
      · rename_i hnot
        refine absurd ⟨hrunning q hq hrunq, ?_⟩ hnot
        rw [hrunq]
        exact ProcessState.noConfusion
  have hholder : holder s' hand = holder s hand := by
    funext place
    cases place <;> simp [holder, hlist, hreap]
  refine ⟨⟨⟨?_, ?_, ?_, ?_⟩, ?_, ?_, ?_, ?_⟩, hrun⟩
  · rw [hholder]
    exact htables.placement
  · rw [hholder]
    exact htables.placed
  · intro j q hj
    rw [hreap] at hj
    refine hdead q ?_ (htables.reaping j q hj)
    rintro rfl
    exact hreaper.1 j hj
  · intro q hq
    refine hdead q ?_ (htables.hand q hq)
    rintro rfl
    exact hreaper.2 hq
  · rw [hidleEq]
    exact hidle
  · rw [hidleEq, hstate]
    split
    · exact ProcessState.noConfusion
    · split
      · exact ProcessState.noConfusion
      · exact hidleState
  · intro q hq
    rw [hcurrent] at hq
    cases hq
    rw [hidleEq, hlist]
    exact hp
  · intro q hq hrunq
    rw [hidleEq] at hq
    rw [hcurrent, (hrun q hq).mp hrunq]

theorem schedulerLoop_inv (hinv : SchedulerInv s hand alive) (frame : InterruptFrame) :
    SchedulerInv (schedulerLoop frame s) hand alive ∧
      ∃ p, (schedulerLoop frame s).cpu.currentProcess = some p ∧
        (p = s.cpu.idleProcess ∨ alive p) ∧ (s.process p).state ≠ .dead ∧
        ∀ q, q = s.cpu.idleProcess ∨ alive q →
          (((schedulerLoop frame s).process q).state = .running ↔ q = p) := by
  have hscan := hinv.tables.schedulerScan schedulerMaxProcesses
  obtain ⟨hprocess, hcurrent, hidle⟩ := schedulerScan_frame schedulerMaxProcesses s
  have hfound := fun p => schedulerScan_found (s := s) (p := p) schedulerMaxProcesses
  unfold schedulerLoop
  generalize schedulerScan schedulerMaxProcesses s = result at *
  obtain ⟨found, s1⟩ := result
  dsimp only at hscan hprocess hcurrent hidle hfound ⊢
  -- the process that continues
  obtain ⟨p, hp⟩ : ∃ p, found.getD (s1.setNext (s1.cpu.schedulerNext + 1)).cpu.idleProcess = p :=
    ⟨_, rfl⟩
  have hselected : (s.process p).state ≠ .dead ∧
      (p = s1.cpu.idleProcess ∨ ∃ i, s1.processList i = some p) := by
    cases found with
    | none =>
      have hidleEq : p = s1.cpu.idleProcess := hp.symm
      refine ⟨?_, Or.inl hidleEq⟩
      rw [hidleEq, hidle]
      exact hinv.idle_state
    | some q =>
      cases hp
      have hlisted := hfound q rfl
      exact ⟨hlisted.1, Or.inr hlisted.2⟩
  rw [hp]
  have hnext : Tables (s1.setNext (s1.cpu.schedulerNext + 1)) hand alive :=
    ⟨hscan.1, hscan.2, hscan.3, hscan.4⟩
  obtain ⟨hlast, hrun⟩ := continueProcess_inv hnext
    (by simpa [Scheduler.setNext, hidle] using hinv.idle)
    (by simpa [Scheduler.setNext, hidle, hprocess] using hinv.idle_state)
    (by simpa [Scheduler.setNext, hidle, hprocess, hcurrent] using hinv.running)
    frame hselected.2
  have hidle' : (s1.setNext (s1.cpu.schedulerNext + 1)).cpu.idleProcess = s.cpu.idleProcess := hidle
  rw [hidle'] at hrun
  have hknown : p = s.cpu.idleProcess ∨ alive p :=
    hidle ▸ hselected.2.imp_right fun ⟨_, hi⟩ => hscan.alive_of_listed hi
  exact ⟨hlast, p, (continueProcess_frame frame p _).2.2.1, hknown, hselected.1, hrun⟩

/-! ## The reaper -/

/-- Taking a slot moves its process, if there is one, to the reaper's hand. -/
theorem Tables.take (htables : Tables s none alive) (i : Slot) :
    Tables { s with processListReap := update s.processListReap i none }
      (s.processListReap i) alive := by
  have hholder : holder { s with processListReap := update s.processListReap i none }
      (s.processListReap i) = update (update (holder s none) (.reaping i) none)
        .hand (s.processListReap i) := by
    rw [← holder_reaping, ← holder_hand]
  have hplaces : Placement (update (update (holder s none) (.reaping i) none)
      .hand (s.processListReap i)) ∧ ∀ q, Placed (update
        (update (holder s none) (.reaping i) none) .hand (s.processListReap i)) q ↔
          Placed (holder s none) q := by
    cases hslot : s.processListReap i with
    | none =>
      have hreaping : holder s none (.reaping i) = none := hslot
      have hsame : update (update (holder s none) (.reaping i) none) .hand
          none = holder s none := by
        have hclear : update (holder s none) (.reaping i) none = holder s none :=
          update_eq_self_iff.mpr hreaping.symm
        rw [hclear]
        exact update_eq_self_iff.mpr rfl
      rw [hsame]
      exact ⟨htables.placement, fun _ => Iff.rfl⟩
    | some p =>
      have hreaping : holder s none (.reaping i) = some p := hslot
      exact htables.placement.move hreaping rfl
  refine ⟨?_, ?_, ?_, fun q hq => htables.reaping i q hq⟩
  · rw [hholder]
    exact hplaces.1
  · intro q
    rw [hholder, hplaces.2, htables.placed]
  · intro j q hj
    by_cases hji : j = i
    · subst hji
      simp only [update_self] at hj
      cases hj
    · simp only [update_of_ne hji] at hj
      exact htables.reaping j q hj

/-- What was taken is gone once it is destroyed. -/
theorem Tables.destroy (htables : Tables s hand alive) :
    Tables s none fun q => alive q ∧ hand ≠ some q := by
  rcases hand with _ | p
  · simpa using htables
  · have hhand : holder s (some p) .hand = some p := rfl
    refine ⟨?_, ?_, htables.reaping, fun q hq => by cases hq⟩
    · rw [holder_hand]
      exact htables.placement.take
    · intro q
      rw [holder_hand, htables.placement.placed_take hhand, htables.placed]
      simp [eq_comm]

end Inv

/-! ## Whole runs -/

/-- The invariant of runs. -/
structure SchedulerRun.Inv (r : SchedulerRun) : Prop where
  scheduler : SchedulerInv r.scheduler r.reaper.processToReap r.Alive
  /-- nothing is in the reaper's hand when it takes a slot -/
  hand : r.reaper.pc = .take → r.reaper.processToReap = none
  /-- the idle process is not added -/
  idle : r.scheduler.cpu.idleProcess ∉ r.added
  destroyed : r.destroyed.Nodup ∧ ∀ p ∈ r.destroyed, p ∈ r.added

theorem schedulerRun_inv_initial {r : SchedulerRun} (hinit : r.Initial) : r.Inv := by
  have hnowhere : ∀ place, holder r.scheduler r.reaper.processToReap place = none := by
    intro place
    cases place with
    | listed i => exact hinit.list i
    | reaping i => exact hinit.reap i
    | hand => exact hinit.hand
  have hdead : ∀ p, ¬ r.Alive p := by
    intro p hp
    have hin := hp.1
    rw [hinit.added] at hin
    cases hin
  refine ⟨⟨⟨?_, ?_, ?_, ?_⟩, hdead _, ?_, ?_, ?_⟩, fun _ => hinit.hand, ?_, ?_, ?_⟩
  · intro i j p hi
    rw [hnowhere i] at hi
    cases hi
  · intro p
    refine ⟨?_, fun hp => absurd hp (hdead p)⟩
    rintro ⟨i, hi⟩
    rw [hnowhere i] at hi
    cases hi
  · intro i p hi
    rw [hinit.reap i] at hi
    cases hi
  · intro p hp
    rw [hinit.hand] at hp
    cases hp
  · rw [hinit.idle]
    exact ProcessState.noConfusion
  · intro p hp
    rw [hinit.current] at hp
    cases hp
  · intro p hp hrun
    rcases hp with rfl | hp
    · rw [hinit.idle] at hrun
      cases hrun
    · exact absurd hp (hdead p)
  · rw [hinit.added]
    exact List.not_mem_nil
  · rw [hinit.destroyed]
    exact List.nodup_nil
  · rw [hinit.destroyed]
    intro p hp
    cases hp

theorem SchedulerInv.congr {s : Scheduler} {hand : Option ProcessPtr}
    {alive alive' : ProcessPtr → Prop} (hinv : SchedulerInv s hand alive)
    (hsame : ∀ p, alive' p ↔ alive p) : SchedulerInv s hand alive' := by
  rwa [show alive' = alive from funext fun p => propext (hsame p)]

theorem schedulerStep_inv {r r' : SchedulerRun} (hinv : r.Inv) (hstep : SchedulerStep r r') :
    r'.Inv := by
  have hsched := hinv.scheduler
  cases hstep with
  | @add p process added s' hnew hidle hready hcall =>
    have halive : ¬ r.Alive p := fun hp => hnew hp.1
    have hdestroyed : p ∉ r.destroyed := fun hp => hnew (hinv.destroyed.2 p hp)
    have hadded := schedulerAddProcess_inv hsched halive hidle hready hcall
    have hidleEq : s'.cpu.idleProcess = r.scheduler.cpu.idleProcess := by
      unfold schedulerAddProcess at hcall
      split at hcall <;> cases hcall <;> rfl
    refine ⟨hadded.congr ?_, hinv.hand, ?_, hinv.destroyed.1, ?_⟩
    · intro q
      unfold SchedulerRun.Alive
      cases added with
      | false => simp
      | true =>
        by_cases hqp : q = p
        · simp [hqp, hdestroyed]
        · simp [hqp]
    · show s'.cpu.idleProcess ∉ if added then p :: r.added else r.added
      rw [hidleEq]
      split
      · exact fun hin => (List.mem_cons.mp hin).elim (fun h => hidle h.symm) hinv.idle
      · exact hinv.idle
    · intro q hq
      split
      · exact List.mem_cons_of_mem p (hinv.destroyed.2 q hq)
      · exact hinv.destroyed.2 q hq
  | loop frame =>
    have hloop := (schedulerLoop_inv hsched frame).1
    have hidleEq := schedulerLoop_idle frame r.scheduler
    exact ⟨hloop, hinv.hand, hidleEq ▸ hinv.idle, hinv.destroyed⟩
  | exit arg hcurrent hidle =>
    have hidleEq : (syscallExit arg r.scheduler).cpu.idleProcess =
        r.scheduler.cpu.idleProcess := by
      unfold syscallExit
      split <;> rfl
    exact ⟨syscallExit_inv hsched arg hcurrent hidle, hinv.hand, hidleEq ▸ hinv.idle,
      hinv.destroyed⟩
  | reaperTake hpc =>
    have htables := hsched.tables
    rw [hinv.hand hpc] at htables
    exact ⟨⟨htables.take _, hsched.idle, hsched.idle_state, hsched.current, hsched.running⟩,
      fun h => (by cases h), hinv.idle, hinv.destroyed⟩
  | reaperAdvance hpc => exact ⟨hsched, fun h => (by cases h), hinv.idle, hinv.destroyed⟩
  | reaperDestroy hpc =>
    have hsame (q : ProcessPtr) : SchedulerRun.Alive { r with
        reaper := reaperDestroy r.reaper
        destroyed := r.reaper.processToReap.toList ++ r.destroyed } q ↔
        r.Alive q ∧ r.reaper.processToReap ≠ some q := by
      unfold SchedulerRun.Alive
      simp only [List.mem_append, Option.mem_toList, not_or]
      tauto
    have hinv' : SchedulerInv r.scheduler none
        fun q => r.Alive q ∧ r.reaper.processToReap ≠ some q :=
      ⟨hsched.tables.destroy, fun h => hsched.idle h.1, hsched.idle_state, hsched.current,
        fun q hq => hsched.running q (hq.imp_right And.left)⟩
    refine ⟨hinv'.congr hsame, fun _ => rfl, hinv.idle, ?_⟩
    show (r.reaper.processToReap.toList ++ r.destroyed).Nodup ∧
      ∀ p ∈ r.reaper.processToReap.toList ++ r.destroyed, p ∈ r.added
    cases hhand : r.reaper.processToReap with
    | none => exact hinv.destroyed
    | some p =>
      have halive : r.Alive p := (hsched.tables.placed p).mp ⟨.hand, hhand⟩
      refine ⟨List.nodup_cons.mpr ⟨halive.2, hinv.destroyed.1⟩, fun q hq => ?_⟩
      rcases List.mem_cons.mp hq with rfl | hold
      · exact halive.1
      · exact hinv.destroyed.2 q hold

/-- A step destroys nothing but the process in the reaper's hand. -/
theorem schedulerStep_destroyed {r r' : SchedulerRun} (hstep : SchedulerStep r r')
    {p : ProcessPtr} (hp : p ∈ r'.destroyed) :
    p ∈ r.destroyed ∨ r.reaper.processToReap = some p := by
  cases hstep with
  | add | loop | exit | reaperTake | reaperAdvance => exact Or.inl hp
  | reaperDestroy hpc =>
    rcases List.mem_append.mp hp with hhand | hold
    · exact Or.inr (Option.mem_toList.mp hhand)
    · exact Or.inl hold

theorem SchedulerRun.Inv.safe {r : SchedulerRun} (hinv : r.Inv) : SchedulerSafe r := by
  have hsched := hinv.scheduler
  have hhand (p : ProcessPtr) (hp : r.reaper.processToReap = some p) :
      (r.scheduler.process p).state = .dead ∧ r.scheduler.cpu.currentProcess ≠ some p :=
    ⟨hsched.tables.hand p hp, fun hcurrent => (hsched.current_ne hcurrent).2 hp⟩
  refine ⟨?_, ?_, hhand, ?_, hinv.destroyed.1, ?_⟩
  · intro p hp
    exact hsched.tables.placement.existsUnique ((hsched.tables.placed p).mpr hp)
  · intro place p hp
    exact (hsched.tables.placed p).mp ⟨place, hp⟩
  · intro r' p hstep hp hnot
    exact hhand p ((schedulerStep_destroyed hstep hp).resolve_left hnot)
  · intro frame
    exact (schedulerLoop_inv hsched frame).2

/-- Safety of every interleaving. -/
theorem scheduler_safe {r₀ r : SchedulerRun} (hinit : r₀.Initial)
    (hrun : ReflTransGen SchedulerStep r₀ r) : SchedulerSafe r := by
  have hinv : r.Inv :=
    run_invariant hrun (schedulerRun_inv_initial hinit) fun _ _ => schedulerStep_inv
  exact hinv.safe

/-- The state at boot: the idle process exists and nothing is listed. -/
def bootRun : SchedulerRun where
  scheduler := {
    process := fun _ => bareProcess 0 0
    processList := fun _ => none
    processListReap := fun _ => none
    cpu := ⟨0, none, 0, 0⟩ }
  reaper := ⟨.take, 0, none⟩
  added := []
  destroyed := []

/-- Process `p` is added, as far as there is room. -/
def SchedulerRun.add (r : SchedulerRun) (p : ProcessPtr) : SchedulerRun :=
  let result := schedulerAddProcess p (r.scheduler.setProcess p (bareProcess 0 0))
  { r with scheduler := result.2, added := if result.1 then p :: r.added else r.added }

def SchedulerRun.tick (r : SchedulerRun) : SchedulerRun :=
  { r with scheduler := schedulerLoop default r.scheduler }

/-- Process 2 of two runs and exits. -/
def exitRun : SchedulerRun :=
  let r := ((bootRun.add 1).add 2).tick.tick
  { r with scheduler := syscallExit 0 r.scheduler }

/-- Two ticks later the reaper has it. -/
def takenRun : SchedulerRun :=
  let r := exitRun.tick.tick
  { r with
    reaper := (reaperTake r.reaper r.scheduler).1
    scheduler := (reaperTake r.reaper r.scheduler).2 }

theorem exitRun_reached : ReflTransGen SchedulerStep bootRun exitRun := by
  have hadd1 : SchedulerStep bootRun (bootRun.add 1) :=
    .add List.not_mem_nil (by decide) rfl rfl
  have hadd2 : SchedulerStep (bootRun.add 1) ((bootRun.add 1).add 2) :=
    .add (by decide +kernel) (by decide +kernel) rfl rfl
  refine .tail (.tail (.tail (.tail (.tail .refl hadd1) hadd2) (.loop default)) (.loop default)) ?_
  exact .exit (p := 2) 0 (by decide +kernel) (by decide +kernel)

theorem scheduler_safe_exit : bootRun.Initial ∧
    ∃ r, ReflTransGen SchedulerStep bootRun r ∧ r.destroyed = [2] ∧
      SchedulerSafe r := by
  have hinit : bootRun.Initial :=
    ⟨fun _ => rfl, fun _ => rfl, rfl, rfl, rfl, rfl, rfl, rfl⟩
  have hrun : ReflTransGen SchedulerStep bootRun
      { takenRun with
        reaper := reaperDestroy (reaperAdvance takenRun.reaper)
        destroyed := (reaperAdvance takenRun.reaper).processToReap.toList ++
          takenRun.destroyed } := by
    refine .tail (.tail (.tail (.tail (.tail exitRun_reached (.loop default)) (.loop default))
      (.reaperTake rfl)) (.reaperAdvance rfl)) ?_
    exact .reaperDestroy rfl
  exact ⟨hinit, _, hrun, by decide +kernel, scheduler_safe hinit hrun⟩

end Pristine.Kernel
