import Pristine.Kernel.Vmm
import Pristine.Lib.StateError

/-!
# The machine at a panic

In `KernelM` a panic loses the machine.  For what an operation has done when it
panics, the page-table operations are taken here in a monad that keeps the
machine.  The primitive accesses are those of `KernelM`, lifted: one that panics
has done nothing before.
-/

namespace Pristine.Kernel

open Lib

/-- Kernel code whose panics keep the machine they happened in. -/
abbrev PanicM := EStateM KPanic Machine

instance : MonadLift KernelM PanicM := ⟨keepState⟩

namespace AtPanic

def vmmNextTable (debug : Bool) (iflags table : Nat) (idx : Fin 512) : PanicM Nat :=
  Ops.vmmNextTable debug iflags table idx

def vmmMap (debug : Bool) (pml4 phys virt flags : Nat) : PanicM Unit :=
  Ops.vmmMap debug pml4 phys virt flags

def vmmMapLarge (debug : Bool) (pml4 phys virt flags : Nat) : PanicM Unit :=
  Ops.vmmMapLarge debug pml4 phys virt flags

def vmmUnmap (debug : Bool) (pml4 virt : Nat) : PanicM Unit := Ops.vmmUnmap debug pml4 virt

def vmmUnmapLarge (debug : Bool) (pml4 virt : Nat) : PanicM Unit :=
  Ops.vmmUnmapLarge debug pml4 virt

def vmmMapHuge (debug : Bool) (pml4 phys virt flags : Nat) : PanicM Unit :=
  Ops.vmmMapHuge debug pml4 phys virt flags

def vmmUnmapHuge (debug : Bool) (pml4 virt : Nat) : PanicM Unit :=
  Ops.vmmUnmapHuge debug pml4 virt

def freeFrames (debug : Bool) (physStart left : Nat) : PanicM Unit := Ops.freeFrames debug physStart left

def vmmFree (debug : Bool) (pml4 virt : Nat) : PanicM Unit := Ops.vmmFree debug pml4 virt

theorem freeFrames_succ (debug : Bool) (physStart left : Nat) : freeFrames debug physStart (left + 1) =
    (liftM (freePage debug physStart) : PanicM Unit) >>= fun _ =>
      freeFrames debug (physStart + pageSize) left := rfl

@[simp] theorem dropState_lift {α : Type} (x : KernelM α) :
    dropState (liftM x : PanicM α) = x := dropState_keepState x

/-- Forgetting the machine gives the operation in `KernelM`. -/
theorem dropState_vmmNextTable (debug : Bool) (iflags table : Nat) (idx : Fin 512) :
    dropState (vmmNextTable debug iflags table idx) = Kernel.vmmNextTable debug iflags table idx := by
  have hite {α : Type} {c : Prop} [Decidable c] (x y : PanicM α) :
      dropState (if c then x else y) = if c then dropState x else dropState y := by
    split <;> rfl
  simp [vmmNextTable, Kernel.vmmNextTable, Ops.vmmNextTable, hite]

/-! ## Both outcomes of a sequence

What follows a primitive access runs in the machine after it, or not at all. -/

section Outcomes

variable {β : Type} {R : β → Machine → Prop} {E : Machine → Prop} {s : Machine}

theorem read_bind {table idx : Nat} {f : Nat → PanicM β} :
    ((liftM (readEntry table idx) : PanicM Nat) >>= f) s =
      f (tableEntry s.mem table idx) { s with log := .read (table + 8 * idx) :: s.log } := rfl

theorem read_yields {table idx : Nat} {f : Nat → PanicM β}
    (h : Yields R E (f (tableEntry s.mem table idx)
      { s with log := .read (table + 8 * idx) :: s.log })) :
    Yields R E (((liftM (readEntry table idx) : PanicM Nat) >>= f) s) :=
  Yields.bind (Q := fun entry t => Yields R E (f entry t)) h fun _ _ => id

theorem guard_yields {c : Prop} [Decidable c] {panic : KPanic} {f : Unit → PanicM β}
    (hpanic : c → E s) (h : ¬ c → Yields R E (f () s)) :
    Yields R E (((liftM (panicIf c panic) : PanicM Unit) >>= f) s) := by
  refine Yields.bind (Q := fun u t => Yields R E (f u t)) ?_ fun _ _ => id
  refine yields_keepState ?_ ?_
  · intro u s' hcall
    obtain ⟨hc, rfl⟩ := panicIf_ok_iff.mp hcall
    exact h hc
  · intro e hcall
    exact hpanic (panicIf_error_iff.mp hcall).1

theorem lift_of_ok {α : Type} {x : KernelM α} {f : α → PanicM β} {a : α} {s' : Machine}
    (hx : x s = .ok (a, s')) : ((liftM x : PanicM α) >>= f) s = f a s' :=
  bind_of_ok (keepState_eq_ok.mpr hx)

theorem lift_of_error {α : Type} {x : KernelM α} {f : α → PanicM β} {panic : KPanic}
    (hx : x s = .error panic) : ((liftM x : PanicM α) >>= f) s = .error panic s := by
  refine bind_of_error ?_
  show keepState x s = _
  unfold keepState
  rw [hx]

theorem guard_error {c : Prop} [Decidable c] {panic : KPanic} {f : Unit → PanicM β} (hc : c) :
    ((liftM (panicIf c panic) : PanicM Unit) >>= f) s = .error panic s :=
  lift_of_error (panicIf_error_iff.mpr ⟨hc, rfl⟩)

theorem guard_skip {c : Prop} [Decidable c] {panic : KPanic} {f : Unit → PanicM β} (hc : ¬ c) :
    ((liftM (panicIf c panic) : PanicM Unit) >>= f) s = f () s :=
  lift_of_ok (panicIf_ok_iff.mpr ⟨hc, rfl⟩)

theorem write_yields {table idx value : Nat} {R : Unit → Machine → Prop}
    (h : R () { s with
      mem := storeLE s.mem (table + 8 * idx) 8 value
      log := .write (table + 8 * idx) :: s.log }) :
    Yields R E ((liftM (writeEntry table idx value) : PanicM Unit) s) := h

/-- The end of the three maps, in a debug build. -/
theorem setEntry_yields {table : Nat} {idx : Fin 512} {value : Nat} {panic : KPanic}
    {R : Unit → Machine → Prop}
    (hpanic : tableEntry s.mem table idx ≠ 0 →
      E { s with log := .read (table + 8 * idx) :: s.log })
    (h : tableEntry s.mem table idx = 0 → R () { s with
      mem := storeLE s.mem (table + 8 * idx) 8 value
      log := .write (table + 8 * idx) :: .read (table + 8 * idx) :: s.log }) :
    Yields R E ((Ops.setEntry true table idx value panic : PanicM Unit) s) := by
  refine read_yields (guard_yields hpanic fun hzero => write_yields (h ?_))
  exact not_not.mp hzero

/-- A level whose entry is in use. -/
theorem vmmNextTable_yields {debug : Bool} {iflags table : Nat} {idx : Fin 512}
    {f : Nat → PanicM β} (hne : tableEntry s.mem table idx ≠ 0)
    (h : Yields R E (f (tableEntry s.mem table idx &&& pteAddrMask)
      { s with log := .read (table + 8 * idx) :: s.log })) :
    Yields R E ((vmmNextTable debug iflags table idx >>= f) s) := by
  refine Yields.bind (Q := fun t s' => Yields R E (f t s')) ?_ fun _ _ => id
  refine read_yields ?_
  rw [if_neg hne]
  exact h

/-- A level fails for lack of memory, after reading its entry. -/
theorem vmmNextTable_eq_error {debug : Bool} {iflags table : Nat} {idx : Fin 512} {e : KPanic}
    {s' : Machine} (hcall : vmmNextTable debug iflags table idx s = .error e s') :
    s' = { s with log := .read (table + 8 * idx) :: s.log } := by
  unfold vmmNextTable Ops.vmmNextTable at hcall
  rw [read_bind] at hcall
  split at hcall
  · rcases bind_eq_error.mp hcall with halloc | ⟨frame, t, -, hcall⟩
    · change keepState (allocPage debug) _ = _ at halloc
      unfold keepState at halloc
      split at halloc
      · cases halloc
      · cases halloc
        rfl
    · -- the accesses after the allocation cannot fail
      rcases bind_eq_error.mp hcall with hwrite | ⟨_, t', -, hcall⟩
      · cases hwrite
      · rcases bind_eq_error.mp hcall with hzero | ⟨_, t'', -, hcall⟩
        · cases hzero
        · cases hcall
  · cases hcall

end Outcomes

end AtPanic

end Pristine.Kernel
