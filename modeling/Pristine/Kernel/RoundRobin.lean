import Pristine.Kernel.SchedulerSafety
import Pristine.Lib.CircularScan

/-!
# Round-robin

`scheduler_loop` searches `process_list` from `scheduler_next` on.  The index is
advanced in the loop, by the test for its end, and once more after the loop; the
module shows that it always ends up behind the slot of the selected process, so
that the search is a circular scan of the processes that are not dead.
-/

namespace Pristine.Kernel

open Function Lib

/-! ## The table without the dead -/

/-- The process in slot `i` if it is not dead. -/
def liveAt (s : Scheduler) (i : Slot) : Option ProcessPtr :=
  (s.processList i).filter fun p => decide ((s.process p).state ≠ .dead)

/-- The slot at which the next search begins. -/
def cursor (s : Scheduler) : Slot := wrapSlot s.cpu.schedulerNext

theorem liveAt_eq_some_iff {s : Scheduler} {i : Slot} {p : ProcessPtr} :
    liveAt s i = some p ↔ s.processList i = some p ∧ (s.process p).state ≠ .dead := by
  unfold liveAt
  rw [Option.filter_eq_some_iff, decide_eq_true_eq]

theorem wrapSlot_succ (i : Slot) : wrapSlot (i + 1) = cyc i 1 := by
  apply Fin.ext
  rw [cyc_val (by decide)]
  unfold wrapSlot
  split
  · rfl
  · show 0 = i.val + 1 - schedulerMaxProcesses
    omega

/-- What the search returns, as a circular scan. -/
def ScanSpec (loops : Nat) (s : Scheduler) (result : Option ProcessPtr × Scheduler) : Prop :=
  liveAt result.2 = liveAt s ∧
    match result.1 with
    | some p => ∃ k, k < loops ∧ liveAt s (cyc (cursor s) k) = some p ∧
        (∀ j, j < k → liveAt s (cyc (cursor s) j) = none) ∧
        result.2.cpu.schedulerNext = cyc (cursor s) k
    | none => ∀ k, k < loops → liveAt s (cyc (cursor s) k) = none

section Scan

variable {loops : Nat} {s s' : Scheduler} {result : Option ProcessPtr × Scheduler}

theorem cyc_zero (i : Slot) : cyc i 0 = i := by
  apply Fin.ext
  rw [cyc_val (Nat.zero_le _)]
  exact if_pos i.isLt

/-- A slot that is skipped. -/
theorem scanSpec_skip (hrest : ScanSpec loops s' result) (hnone : liveAt s (cursor s) = none)
    (hlive : liveAt s' = liveAt s) (hcursor : cursor s' = cyc (cursor s) 1) :
    ScanSpec (loops + 1) s result := by
  obtain ⟨hsame, hcases⟩ := hrest
  have hshift (k : Nat) : cyc (cursor s') k = cyc (cursor s) (k + 1) := by
    rw [hcursor, cyc_cyc, Nat.add_comm]
  have hbefore (k : Nat) (hall : ∀ j, j < k → liveAt s' (cyc (cursor s') j) = none) :
      ∀ j, j < k + 1 → liveAt s (cyc (cursor s) j) = none := by
    intro j hj
    cases j with
    | zero => rwa [cyc_zero]
    | succ j =>
      rw [← hshift, ← hlive]
      exact hall j (by omega)
  refine ⟨hsame.trans hlive, ?_⟩
  cases hfound : result.1 with
  | none =>
    rw [hfound] at hcases
    exact hbefore loops hcases
  | some p =>
    rw [hfound] at hcases
    obtain ⟨k, hk, hhere, hall, hnext⟩ := hcases
    refine ⟨k + 1, by omega, ?_, hbefore k hall, ?_⟩
    · rw [← hshift, ← hlive]
      exact hhere
    · rw [hnext, hshift]

/-- A dead process is skipped, whether or not the reaper takes it. -/
theorem liveAt_handOver {i : Slot} {p : ProcessPtr} (hi : s.processList i = some p)
    (hdead : (s.process p).state = .dead) : liveAt (handOver i p s) = liveAt s := by
  funext j
  unfold liveAt
  rw [(handOver_process i p s).1]
  unfold handOver reaperAddProcess
  cases firstEmpty s.processListReap with
  | none => rfl
  | some _ =>
    by_cases hji : j = i
    · subst hji
      simp [Option.filter, hi, hdead]
    · simp [update_of_ne hji]

theorem schedulerScan_spec (loops : Nat) (s : Scheduler) :
    ScanSpec loops s (schedulerScan loops s) := by
  fun_induction schedulerScan loops s with
  | case1 s => exact ⟨rfl, fun k hk => absurd hk (Nat.not_lt_zero k)⟩
  | case2 loops s i hnone ih =>
    have hlive : liveAt s (cursor s) = none := by
      show (s.processList i).filter _ = none
      rw [hnone]
      rfl
    exact scanSpec_skip ih hlive rfl (wrapSlot_succ i)
  | case3 loops s i p hsome hdead ih =>
    have hlive : liveAt s (cursor s) = none := by
      show (s.processList i).filter _ = none
      simp [Option.filter, hsome, hdead]
    exact scanSpec_skip ih hlive (liveAt_handOver hsome hdead) (wrapSlot_succ i)
  | case4 loops s i p hsome hdead =>
    refine ⟨rfl, 0, Nat.succ_pos loops, ?_, fun j hj => absurd hj (Nat.not_lt_zero j), ?_⟩
    · rw [cyc_zero]
      exact liveAt_eq_some_iff.mpr ⟨hsome, hdead⟩
    · rw [cyc_zero]
      rfl

/-- The search adds nothing to the list. -/
theorem schedulerScan_list (loops : Nat) (s : Scheduler) (i : Slot) (p : ProcessPtr)
    (hi : (schedulerScan loops s).2.processList i = some p) : s.processList i = some p := by
  fun_induction schedulerScan loops s with
  | case1 s => exact hi
  | case2 loops s j hnone ih => exact ih hi
  | case3 loops s j q hsome hdead ih =>
    have hmoved : (handOver j q s).processList i = some p := ih hi
    unfold handOver reaperAddProcess at hmoved
    cases hfirst : firstEmpty s.processListReap with
    | none =>
      rw [hfirst] at hmoved
      exact hmoved
    | some k =>
      rw [hfirst] at hmoved
      by_cases hij : i = j
      · subst hij
        simp at hmoved
      · simpa [update_of_ne hij] using hmoved
  | case4 loops s j q hsome hdead => exact hi

theorem continueProcess_next (frame : InterruptFrame) (p : ProcessPtr) (s : Scheduler) :
    (continueProcess p (suspendCurrent frame s)).cpu.schedulerNext = s.cpu.schedulerNext := by
  unfold continueProcess suspendCurrent Scheduler.setProcess
  cases s.cpu.currentProcess with
  | none => rfl
  | some c =>
    dsimp only
    split <;> rfl

end Scan

/-! ## One invocation -/

/-- Every process is listed once, and the idle process is not listed. -/
structure ListedOnce (s : Scheduler) : Prop where
  once : ∀ i j p, s.processList i = some p → s.processList j = some p → i = j
  idle : ∀ i, s.processList i ≠ some s.cpu.idleProcess

section Loop

variable {s : Scheduler}

/-- Letting a listed process that is not dead, or the idle process, continue does not change
which processes are dead. -/
theorem liveAt_continueProcess (hidle : ∀ i, s.processList i ≠ some s.cpu.idleProcess)
    (frame : InterruptFrame) {p : ProcessPtr}
    (hp : p = s.cpu.idleProcess ∨ (s.process p).state ≠ .dead) :
    liveAt (continueProcess p (suspendCurrent frame s)) = liveAt s := by
  have hlist := (continueProcess_frame frame p s).1
  funext i
  unfold liveAt
  rw [hlist]
  cases hi : s.processList i with
  | none => rfl
  | some q =>
    have hdead : ((continueProcess p (suspendCurrent frame s)).process q).state = .dead ↔
        (s.process q).state = .dead := by
      rw [continueProcess_state]
      by_cases hqp : q = p
      · subst hqp
        have hlive : (s.process q).state ≠ .dead :=
          hp.resolve_left fun h => hidle i (h ▸ hi)
        simp [hlive]
      · rw [if_neg hqp]
        split
        · rename_i hcurrent
          simp [hcurrent.2]
        · rfl
    simp [Option.filter, hdead]

/-- `scheduler_loop` selects the first live process from the cursor on, or the idle process. -/
theorem schedulerLoop_spec (hlisted : ListedOnce s) (frame : InterruptFrame) :
    liveAt (schedulerLoop frame s) = liveAt s ∧
      ((∃ k p, FirstFrom (liveAt s) (cursor s) k p ∧
          (schedulerLoop frame s).cpu.currentProcess = some p ∧
          cursor (schedulerLoop frame s) = cyc (cursor s) (k + 1)) ∨
        ((∀ i, liveAt s i = none) ∧
          (schedulerLoop frame s).cpu.currentProcess = some s.cpu.idleProcess)) := by
  obtain ⟨hlive, hcases⟩ := schedulerScan_spec schedulerMaxProcesses s
  obtain ⟨hprocess, -, hidle⟩ := schedulerScan_frame schedulerMaxProcesses s
  have hsub := schedulerScan_list schedulerMaxProcesses s
  unfold schedulerLoop
  generalize schedulerScan schedulerMaxProcesses s = result at *
  obtain ⟨found, s1⟩ := result
  dsimp only at hlive hcases hprocess hidle hsub ⊢
  obtain ⟨s2, hs2⟩ : ∃ s2, s1.setNext (s1.cpu.schedulerNext + 1) = s2 := ⟨_, rfl⟩
  have hlive2 : liveAt s2 = liveAt s := by
    rw [← hs2]
    exact hlive
  have hidle2 : s2.cpu.idleProcess = s.cpu.idleProcess := by
    rw [← hs2]
    exact hidle
  have hunlisted : ∀ i, s2.processList i ≠ some s2.cpu.idleProcess := by
    intro i hi
    rw [hidle2, ← hs2] at hi
    exact hlisted.idle i (hsub i _ hi)
  rw [hs2]
  cases found with
  | none =>
    have hall : ∀ i, liveAt s i = none := by
      intro i
      rw [← cyc_ahead (cursor s) i]
      exact hcases _ (ahead_lt _ _)
    have hcontinue := liveAt_continueProcess hunlisted frame (p := s2.cpu.idleProcess) (Or.inl rfl)
    refine ⟨hcontinue.trans hlive2, Or.inr ⟨hall, ?_⟩⟩
    rw [← hidle2]
    exact (continueProcess_frame frame _ s2).2.2.1
  | some p =>
    obtain ⟨k, hk, hhere, hbefore, hnext⟩ := hcases
    have hstate : (s2.process p).state ≠ .dead := by
      rw [← hs2]
      show (s1.process p).state ≠ .dead
      rw [hprocess]
      exact (liveAt_eq_some_iff.mp hhere).2
    have hcontinue := liveAt_continueProcess hunlisted frame (Or.inr hstate)
    refine ⟨hcontinue.trans hlive2, Or.inl ⟨k, p, ⟨hk, hhere, hbefore⟩, ?_, ?_⟩⟩
    · exact (continueProcess_frame frame p s2).2.2.1
    · show wrapSlot (continueProcess p (suspendCurrent frame s2)).cpu.schedulerNext = _
      rw [continueProcess_next, ← hs2]
      show wrapSlot (s1.cpu.schedulerNext + 1) = _
      rw [hnext, wrapSlot_succ, cyc_cyc]

/-- `scheduler_loop` adds nothing to the list. -/
theorem schedulerLoop_list (frame : InterruptFrame) (s : Scheduler) {i : Slot} {p : ProcessPtr}
    (hi : (schedulerLoop frame s).processList i = some p) : s.processList i = some p := by
  unfold schedulerLoop at hi
  rw [(continueProcess_frame frame _ _).1] at hi
  exact schedulerScan_list schedulerMaxProcesses s i p hi

theorem ListedOnce.schedulerLoop (hlisted : ListedOnce s) (frame : InterruptFrame) :
    ListedOnce (schedulerLoop frame s) := by
  refine ⟨fun i j p hi hj => ?_, fun i hi => ?_⟩
  · exact hlisted.once i j p (schedulerLoop_list frame s hi) (schedulerLoop_list frame s hj)
  · rw [schedulerLoop_idle] at hi
    exact hlisted.idle i (schedulerLoop_list frame s hi)

end Loop

/-! ## Schedules -/

/-- What happens between two invocations: a new process is listed, the current one exits, the
reaper takes a process, or processes run, which does not change their state. -/
inductive Between (s : Scheduler) : Scheduler → Prop
  | add {p : ProcessPtr} {process : Process} {added : Bool} {s' : Scheduler}
      (hnew : ∀ i, s.processList i ≠ some p) (hidle : p ≠ s.cpu.idleProcess)
      (hcall : schedulerAddProcess p (s.setProcess p process) = (added, s')) : Between s s'
  | exit (arg : Nat) : Between s (syscallExit arg s)
  | reap (r : Reaper) : Between s (reaperTake r s).2
  | run {process : ProcessPtr → Process}
      (hstate : ∀ p, (process p).state = (s.process p).state) :
      Between s { s with process := process }

/-- The process is in the list. -/
def Listed (s : Scheduler) (p : ProcessPtr) : Prop := ∃ i, s.processList i = some p

/-- A sequence of invocations of `scheduler_loop`, given by their interrupt frames, and of other
steps.  A process is listed at most once in its life. -/
structure Schedule where
  state : Nat → Scheduler
  invoked : Nat → Option InterruptFrame
  step : ∀ t, match invoked t with
    | some frame => state (t + 1) = schedulerLoop frame (state t)
    | none => Between (state t) (state (t + 1))
  fresh : ∀ t v p, v ≤ t → ¬ Listed (state t) p → Listed (state (t + 1)) p →
    ¬ Listed (state v) p

namespace Schedule

/-- The invocation at time `t` selects `p`. -/
def Selects (σ : Schedule) (t : Nat) (p : ProcessPtr) : Prop :=
  (σ.invoked t).isSome ∧ (σ.state (t + 1)).cpu.currentProcess = some p

/-- The processes selected in the `n` steps from time `t` on. -/
def selections (σ : Schedule) (t : Nat) : Nat → List ProcessPtr
  | 0 => []
  | n + 1 =>
    if (σ.invoked t).isSome then
      (σ.state (t + 1)).cpu.currentProcess.toList ++ σ.selections (t + 1) n
    else
      σ.selections (t + 1) n

end Schedule

/-- Number of processes in the slots of a table. -/
def liveCount (table : ProcessTable) : Nat :=
  ((List.finRange schedulerMaxProcesses).filterMap table).length

/-- No process is favoured. -/
structure RoundRobin (σ : Schedule) : Prop where
  /-- between two selections of a process every other one that stays alive is selected -/
  fair : ∀ t u p q, t < u → σ.Selects t p → σ.Selects u p → q ≠ p →
    (∀ v, t < v → v ≤ u → ∃ i, liveAt (σ.state v) i = some q) →
    ∃ v, t < v ∧ v < u ∧ σ.Selects v q
  /-- as many invocations as there are live processes select each of them once, in the order of
  their slots from the cursor on -/
  cycle : ∀ t n table, (∀ v, t ≤ v → v ≤ t + n → liveAt (σ.state v) = table) →
    (σ.selections t n).length = liveCount table →
    σ.selections t n = cyclicOrder table (cursor (σ.state t)) ∧ (σ.selections t n).Nodup ∧
      ∀ p, p ∈ σ.selections t n ↔ ∃ i, table i = some p
  /-- the idle process is selected when no other is alive -/
  idle : ∀ t, (σ.invoked t).isSome →
    (σ.Selects t (σ.state t).cpu.idleProcess ↔ ∀ i, liveAt (σ.state t) i = none)

section Between

variable {s s' : Scheduler}

/-- `q` is put in the first empty slot, which is slot `i`. -/
def PutAt (s : Scheduler) (i : Slot) (q : ProcessPtr) : Prop :=
  ¬ Listed s q ∧ q ≠ s.cpu.idleProcess ∧ firstEmpty s.processList = some i

/-- Between invocations the index stays, and at most one process is put in an empty slot. -/
theorem between_frame (hstep : Between s s') :
    s'.cpu.schedulerNext = s.cpu.schedulerNext ∧ s'.cpu.idleProcess = s.cpu.idleProcess ∧
      ∀ i q, s'.processList i = some q → s.processList i = some q ∨ PutAt s i q := by
  cases hstep with
  | @add p process added s' hnew hidle hcall =>
    unfold schedulerAddProcess Scheduler.setProcess at hcall
    cases hfirst : firstEmpty s.processList with
    | none =>
      rw [hfirst] at hcall
      cases hcall
      exact ⟨rfl, rfl, fun i q hi => Or.inl hi⟩
    | some j =>
      rw [hfirst] at hcall
      cases hcall
      refine ⟨rfl, rfl, fun i q hi => ?_⟩
      by_cases hij : i = j
      · subst hij
        simp only [update_self, Option.some.injEq] at hi
        subst hi
        exact Or.inr ⟨fun ⟨k, hk⟩ => hnew k hk, hidle, hfirst⟩
      · exact Or.inl (by simpa [update_of_ne hij] using hi)
  | exit arg =>
    unfold syscallExit Scheduler.setProcess
    cases s.cpu.currentProcess with
    | none => exact ⟨rfl, rfl, fun i q hi => Or.inl hi⟩
    | some p => exact ⟨rfl, rfl, fun i q hi => Or.inl hi⟩
  | reap r => exact ⟨rfl, rfl, fun i q hi => Or.inl hi⟩
  | run hstate => exact ⟨rfl, rfl, fun i q hi => Or.inl hi⟩

theorem ListedOnce.between (hlisted : ListedOnce s) (hstep : Between s s') : ListedOnce s' := by
  obtain ⟨-, hidle, hlist⟩ := between_frame hstep
  refine ⟨fun i j p hi hj => ?_, fun i hi => ?_⟩
  · rcases hlist i p hi with hi | ⟨hnew, -, hfirst⟩
    · rcases hlist j p hj with hj | ⟨hnew, -, -⟩
      · exact hlisted.once i j p hi hj
      · exact absurd ⟨i, hi⟩ hnew
    · rcases hlist j p hj with hj | ⟨-, -, hfirst'⟩
      · exact absurd ⟨j, hj⟩ hnew
      · rw [hfirst] at hfirst'
        exact Option.some.inj hfirst'
  · rw [hidle] at hi
    rcases hlist i _ hi with hi | ⟨-, hne, -⟩
    · exact hlisted.idle i hi
    · exact hne rfl

end Between

namespace Schedule

variable {σ : Schedule} {t : Nat}

theorem listedOnce (hstart : ListedOnce (σ.state 0)) (t : Nat) : ListedOnce (σ.state t) := by
  induction t with
  | zero => exact hstart
  | succ t ih =>
    have hstep := σ.step t
    cases hinvoked : σ.invoked t with
    | none =>
      rw [hinvoked] at hstep
      exact ih.between hstep
    | some frame =>
      rw [hinvoked] at hstep
      rw [hstep]
      exact ih.schedulerLoop frame

/-- A process keeps its slot as long as it is listed. -/
theorem slot_succ (hlisted : ListedOnce (σ.state t)) {i j : Slot} {p : ProcessPtr}
    (hj : (σ.state t).processList j = some p) (hi : (σ.state (t + 1)).processList i = some p) :
    i = j := by
  have hstep := σ.step t
  cases hinvoked : σ.invoked t with
  | none =>
    rw [hinvoked] at hstep
    rcases (between_frame hstep).2.2 i p hi with hold | ⟨hnew, -, -⟩
    · exact hlisted.once i j p hold hj
    · exact absurd ⟨j, hj⟩ hnew
  | some frame =>
    rw [hinvoked] at hstep
    rw [hstep] at hi
    exact hlisted.once i j p (schedulerLoop_list frame _ hi) hj

/-- A process that is listed at two times is listed in between, in the same slot. -/
theorem slot_eq (hstart : ListedOnce (σ.state 0)) {t d : Nat} {j : Slot} {p : ProcessPtr}
    (hj : (σ.state t).processList j = some p) {i : Slot}
    (hi : (σ.state (t + d)).processList i = some p) : i = j := by
  induction d generalizing i with
  | zero => exact (σ.listedOnce hstart t).once i j p hi hj
  | succ d ih =>
    by_cases hlast : Listed (σ.state (t + d)) p
    · obtain ⟨k, hk⟩ := hlast
      rw [← ih hk]
      exact slot_succ (σ.listedOnce hstart (t + d)) hk hi
    · exact absurd ⟨j, hj⟩ (σ.fresh (t + d) t p (Nat.le_add_right t d) hlast ⟨i, hi⟩)

/-- What an invocation does. -/
theorem invoked_spec (hlisted : ListedOnce (σ.state t)) (hinvoked : (σ.invoked t).isSome) :
    liveAt (σ.state (t + 1)) = liveAt (σ.state t) ∧
      ((∃ k p, FirstFrom (liveAt (σ.state t)) (cursor (σ.state t)) k p ∧
          (σ.state (t + 1)).cpu.currentProcess = some p ∧
          cursor (σ.state (t + 1)) = cyc (cursor (σ.state t)) (k + 1)) ∨
        ((∀ i, liveAt (σ.state t) i = none) ∧
          (σ.state (t + 1)).cpu.currentProcess = some (σ.state t).cpu.idleProcess)) := by
  obtain ⟨frame, hframe⟩ := Option.isSome_iff_exists.mp hinvoked
  have hstep := σ.step t
  rw [hframe] at hstep
  rw [hstep]
  exact schedulerLoop_spec hlisted frame

theorem cursor_succ (hnot : ¬ (σ.invoked t).isSome) :
    cursor (σ.state (t + 1)) = cursor (σ.state t) := by
  have hstep := σ.step t
  rw [Option.not_isSome_iff_eq_none.mp hnot] at hstep
  unfold cursor
  rw [(between_frame hstep).1]

variable (hstart : ListedOnce (σ.state 0))

include hstart

/-- After `p` has been selected from slot `i`, a process `q` in slot `j` comes first until it is
selected itself. -/
theorem waits_or_selected {i j : Slot} {q : ProcessPtr} (hfirst : Precedes (cursor (σ.state t)) j i)
    (hj : liveAt (σ.state t) j = some q) (d : Nat)
    (hstays : ∀ v, t ≤ v → v ≤ t + d → ∃ i, liveAt (σ.state v) i = some q) :
    (∃ v, t ≤ v ∧ v < t + d ∧ σ.Selects v q) ∨
      Precedes (cursor (σ.state (t + d))) j i ∧ liveAt (σ.state (t + d)) j = some q := by
  induction d with
  | zero => exact Or.inr ⟨hfirst, hj⟩
  | succ d ih =>
    rcases ih fun v hlo hhi => hstays v hlo (by omega) with ⟨v, hlo, hhi, hsel⟩ | ⟨hbefore, hlive⟩
    · exact Or.inl ⟨v, hlo, by omega, hsel⟩
    · have hlisted := σ.listedOnce hstart (t + d)
      have hnext : liveAt (σ.state (t + d + 1)) j = some q := by
        obtain ⟨k, hk⟩ := hstays (t + d + 1) (by omega) (by omega)
        have hslot := slot_succ hlisted (liveAt_eq_some_iff.mp hlive).1
          (liveAt_eq_some_iff.mp hk).1
        rwa [hslot] at hk
      by_cases hinvoked : (σ.invoked (t + d)).isSome
      · rcases (invoked_spec hlisted hinvoked).2 with ⟨k, p, hscan, hcurrent, hcursor⟩ | ⟨hnone, -⟩
        · rcases precedes_advance hscan hlive hbefore with hhit | ⟨-, hbefore'⟩
          · -- the search stops at `q`
            have hpq : some p = some q := by
              rw [← hscan.here, hhit, hlive]
            cases hpq
            exact Or.inl ⟨t + d, by omega, by omega, hinvoked, hcurrent⟩
          · refine Or.inr ⟨?_, hnext⟩
            show Precedes (cursor (σ.state (t + d + 1))) j i
            rw [hcursor]
            exact hbefore'
        · rw [hnone j] at hlive
          cases hlive
      · refine Or.inr ⟨?_, hnext⟩
        show Precedes (cursor (σ.state (t + d + 1))) j i
        rw [cursor_succ hinvoked]
        exact hbefore

/-- Between two selections of `p` every other process that stays alive is selected. -/
theorem fair {u : Nat} {p q : ProcessPtr} (htu : t < u) (ht : σ.Selects t p) (hu : σ.Selects u p)
    (hqp : q ≠ p) (hstays : ∀ v, t < v → v ≤ u → ∃ i, liveAt (σ.state v) i = some q) :
    ∃ v, t < v ∧ v < u ∧ σ.Selects v q := by
  obtain ⟨d, rfl⟩ : ∃ d, u = t + 1 + d := ⟨u - (t + 1), by omega⟩
  obtain ⟨j, hj⟩ := hstays (t + 1) (by omega) (by omega)
  obtain ⟨hsame, hcases⟩ := invoked_spec (σ.listedOnce hstart t) ht.1
  rcases hcases with ⟨k, p', hscan, hcurrent, hcursor⟩ | ⟨hnone, -⟩
  · obtain rfl : p' = p := Option.some.inj (hcurrent.symm.trans ht.2)
    obtain ⟨i, hi⟩ : ∃ i, cyc (cursor (σ.state t)) k = i := ⟨_, rfl⟩
    have hslot : liveAt (σ.state t) i = some p' := hi ▸ hscan.here
    have hji : j ≠ i := by
      rintro rfl
      rw [hsame, hslot] at hj
      exact hqp (Option.some.inj hj.symm)
    have hfirst : Precedes (cursor (σ.state (t + 1))) j i := by
      rw [hcursor, ← cyc_cyc, hi]
      exact precedes_of_hit hji
    rcases waits_or_selected hstart hfirst hj d fun v hlo hhi => hstays v (by omega) hhi with
      ⟨v, hlo, hhi, hsel⟩ | ⟨hbefore, hlive⟩
    · exact ⟨v, by omega, hhi, hsel⟩
    · -- at the second selection `q` still comes before the slot of `p`
      exfalso
      rcases (invoked_spec (σ.listedOnce hstart (t + 1 + d)) hu.1).2 with
        ⟨m, p, hscan', hcurrent', -⟩ | ⟨hnone, -⟩
      · obtain rfl : p = p' := Option.some.inj (hcurrent'.symm.trans hu.2)
        have hagain := slot_eq (d := 1 + d) hstart (liveAt_eq_some_iff.mp hslot).1
          (by rw [← Nat.add_assoc]; exact (liveAt_eq_some_iff.mp hscan'.here).1)
        rcases precedes_advance hscan' hlive hbefore with hhit | ⟨hne, -⟩
        · exact hji (hhit.symm.trans hagain)
        · exact hne hagain
      · rw [hnone j] at hlive
        cases hlive
  · rw [hsame, hnone j] at hj
    cases hj

/-- While the live processes stay the same, the selections follow their cyclic order. -/
theorem selections_eq_take {table : ProcessTable} (n t : Nat)
    (htable : ∀ v, t ≤ v → v ≤ t + n → liveAt (σ.state v) = table)
    (hlength : (σ.selections t n).length ≤ (cyclicOrder table (cursor (σ.state t))).length) :
    σ.selections t n = (cyclicOrder table (cursor (σ.state t))).take (σ.selections t n).length := by
  induction n generalizing t with
  | zero => rfl
  | succ n ih =>
    have hrest := ih (t + 1) fun v hlo hhi => htable v (by omega) (by omega)
    rw [selections] at hlength ⊢
    by_cases hinvoked : (σ.invoked t).isSome
    · rw [if_pos hinvoked] at hlength ⊢
      obtain ⟨-, hcases⟩ := invoked_spec (σ.listedOnce hstart t) hinvoked
      rw [htable t (by omega) (by omega)] at hcases
      rcases hcases with ⟨k, p, hscan, hcurrent, hcursor⟩ | ⟨hnone, hcurrent⟩
      · obtain ⟨rest, horder, hrotated⟩ := cyclicOrder_rotate hscan
        rw [hcurrent, horder] at hlength ⊢
        rw [hcursor, hrotated] at hrest
        simp only [Option.toList_some, List.singleton_append, List.length_cons] at hlength ⊢
        rw [List.take_succ_cons]
        congr 1
        have hshort := hrest (by simp; omega)
        rwa [List.take_append_of_le_length (by omega)] at hshort
      · -- no process is alive, so nothing but the idle process is selected
        have hempty : cyclicOrder table (cursor (σ.state t)) = [] := by
          unfold cyclicOrder
          rw [List.filterMap_eq_nil_iff]
          intro k _
          exact hnone _
        rw [hcurrent, hempty] at hlength
        simp at hlength
    · rw [if_neg hinvoked] at hlength ⊢
      rw [cursor_succ hinvoked] at hrest
      exact hrest hlength

theorem cycle {n : Nat} {table : ProcessTable}
    (htable : ∀ v, t ≤ v → v ≤ t + n → liveAt (σ.state v) = table)
    (hlength : (σ.selections t n).length = liveCount table) :
    σ.selections t n = cyclicOrder table (cursor (σ.state t)) ∧ (σ.selections t n).Nodup ∧
      ∀ p, p ∈ σ.selections t n ↔ ∃ i, table i = some p := by
  have hperm := cyclicOrder_perm table (cursor (σ.state t))
  have hcount : (σ.selections t n).length = (cyclicOrder table (cursor (σ.state t))).length := by
    rw [hlength, hperm.length_eq]
    rfl
  have horder : σ.selections t n = cyclicOrder table (cursor (σ.state t)) := by
    rw [selections_eq_take hstart n t htable (Nat.le_of_eq hcount), hcount, List.take_length]
  have honce : ∀ i j p, p ∈ table i → p ∈ table j → i = j := by
    intro i j p hi hj
    rw [← htable t (Nat.le_refl t) (Nat.le_add_right t n)] at hi hj
    exact (σ.listedOnce hstart t).once i j p (liveAt_eq_some_iff.mp hi).1
      (liveAt_eq_some_iff.mp hj).1
  refine ⟨horder, ?_, ?_⟩
  · rw [horder, hperm.nodup_iff]
    exact (List.nodup_finRange _).filterMap honce
  · intro p
    rw [horder, hperm.mem_iff, List.mem_filterMap]
    simp

theorem selects_idle_iff (hinvoked : (σ.invoked t).isSome) :
    σ.Selects t (σ.state t).cpu.idleProcess ↔ ∀ i, liveAt (σ.state t) i = none := by
  have hlisted := σ.listedOnce hstart t
  rcases (invoked_spec hlisted hinvoked).2 with ⟨k, p, hscan, hcurrent, -⟩ | ⟨hnone, hcurrent⟩
  · have hlive := liveAt_eq_some_iff.mp hscan.here
    constructor
    · rintro ⟨-, hidle⟩
      rw [hcurrent] at hidle
      cases hidle
      exact absurd hlive.1 (hlisted.idle _)
    · intro hnone
      have hhere := hscan.here
      rw [hnone] at hhere
      cases hhere
  · exact ⟨fun _ => hnone, fun _ => ⟨hinvoked, hcurrent⟩⟩

end Schedule

/-- `scheduler_loop` never favours a process. -/
theorem round_robin (σ : Schedule) (hstart : ListedOnce (σ.state 0)) : RoundRobin σ where
  fair _ _ _ _ htu ht hu hqp hstays := Schedule.fair hstart htu ht hu hqp hstays
  cycle _ _ _ htable hlength := Schedule.cycle hstart htable hlength
  idle _ hinvoked := Schedule.selects_idle_iff hstart hinvoked

/-- `scheduler_loop` is invoked again and again. -/
def Schedule.ticking (s : Scheduler) : Schedule where
  state := fun t => (schedulerLoop default)^[t] s
  invoked := fun _ => some default
  step := fun t => iterate_succ_apply' (schedulerLoop default) t s
  fresh := by
    intro t v p _ hnot hlisted
    rw [iterate_succ_apply'] at hlisted
    obtain ⟨i, hi⟩ := hlisted
    exact absurd ⟨i, schedulerLoop_list default _ hi⟩ hnot

/-- Processes 1 and 2 are listed, and the index is out of range. -/
def twoListed : Scheduler :=
  ((bootRun.add 1).add 2).scheduler.setNext 40

theorem round_robin_two : ListedOnce twoListed ∧ RoundRobin (Schedule.ticking twoListed) ∧
    (Schedule.ticking twoListed).selections 0 4 = [1, 2, 1, 2] := by
  have hlisted : ListedOnce ((Schedule.ticking twoListed).state 0) := by
    refine ⟨?_, by decide +kernel⟩
    have hslots : ∀ i j, twoListed.processList i = twoListed.processList j →
        twoListed.processList i ≠ none → i = j := by decide +kernel
    intro i j p hi hj
    have hi : twoListed.processList i = some p := hi
    exact hslots i j (hi.trans hj.symm) (by rw [hi]; exact Option.some_ne_none p)
  exact ⟨hlisted, round_robin _ hlisted, by decide +kernel⟩

end Pristine.Kernel
