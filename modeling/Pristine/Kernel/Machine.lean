import Pristine.Kernel.Pmm

/-!
# Kernel machine state

The page-table code works on two pieces of state: the page allocator, and
physical memory seen through the higher-half direct map.  `phys_to_virt` is a
fixed offset into that map, so a table pointer is represented by the physical
address of its table.

`log` is ghost state.  It records the table entries the code reads and writes,
the pages it zeroes and the frames it frees, latest first; no modelled function
looks at it.
-/

namespace Pristine.Kernel

open Lib

/-- `PMM_HHDM_START`. -/
def pmmHhdmStart : Nat := 0xFFFF800000000000

/-- `phys_to_virt`. -/
def physToVirt (phys : Nat) : Nat := (phys + pmmHhdmStart) % 2 ^ 64

/-- One logged access to physical memory or to the page allocator. -/
inductive Access where
  /-- the table entry at this physical address was read -/
  | read (addr : Nat)
  /-- the table entry at this physical address was written -/
  | write (addr : Nat)
  /-- the page at this physical address was zeroed -/
  | zero (frame : Nat)
  /-- the frame at this physical address was given back -/
  | free (frame : Nat)
  deriving DecidableEq, Repr

/-- Page allocator, physical memory, and the ghost log. -/
structure Machine where
  pmm : Pmm
  mem : ByteMem
  log : List Access

/-- A machine whose page map has `size` bytes, with every page free and no page
zeroed. -/
def Machine.allFree (size : UInt32) : Machine where
  pmm := pmmInit (fun _ => 0) size
  mem := fun _ => 0xAA
  log := []

/-- Kernel code: state passing, with panics as errors. -/
abbrev KernelM := StateT Machine (Except KPanic)

/-- Entry `idx` of the table at physical address `table`. -/
def tableEntry (mem : ByteMem) (table idx : Nat) : Nat :=
  loadLE mem (table + 8 * idx) 8

/-- Read a table entry. -/
def readEntry (table idx : Nat) : KernelM Nat := fun s =>
  .ok (tableEntry s.mem table idx, { s with log := .read (table + 8 * idx) :: s.log })

/-- Write a table entry. -/
def writeEntry (table idx value : Nat) : KernelM Unit := fun s =>
  .ok ((), { s with
    mem := storeLE s.mem (table + 8 * idx) 8 value
    log := .write (table + 8 * idx) :: s.log })

/-- `memset(phys_to_virt(frame), 0, VMM_DEFAULT_PAGE_SIZE)`. -/
def zeroPage (frame : Nat) : KernelM Unit := fun s =>
  .ok ((), { s with mem := fill s.mem frame pageSize 0, log := .zero frame :: s.log })

/-- `pmm_alloc` on the machine. -/
def allocPage (debug : Bool) : KernelM Nat := fun s =>
  match pmmAlloc debug s.pmm with
  | .error panic => .error panic
  | .ok (page, pmm) => .ok (page, { s with pmm := pmm })

/-- `pmm_free` on the machine. -/
def freePage (debug : Bool) (page : Nat) : KernelM Unit := fun s =>
  match pmmFree debug s.pmm page with
  | .error panic => .error panic
  | .ok pmm => .ok ((), { s with pmm := pmm, log := .free page :: s.log })

/-- `KPANIC`. -/
def kpanic {α : Type} (panic : KPanic) : KernelM α := fun _ => .error panic

/-- A panic guarded by a condition. -/
def panicIf (condition : Prop) [Decidable condition] (panic : KPanic) : KernelM Unit :=
  if condition then kpanic panic else pure ()

/-! ## Taking computations apart -/

theorem bind_ok_iff {α β : Type} {x : KernelM α} {f : α → KernelM β} {s s' : Machine} {b : β} :
    (x >>= f) s = .ok (b, s') ↔ ∃ a t, x s = .ok (a, t) ∧ f a t = .ok (b, s') := by
  show (Except.bind (x s) fun p => f p.1 p.2) = .ok (b, s') ↔ _
  cases hx : x s with
  | error panic => simp [Except.bind]
  | ok p =>
    obtain ⟨a, t⟩ := p
    simp [Except.bind]

theorem bind_eq_of_ok {α β : Type} {x : KernelM α} {f : α → KernelM β} {s t : Machine}
    {a : α} (hx : x s = .ok (a, t)) : (x >>= f) s = f a t := by
  show (Except.bind (x s) fun p => f p.1 p.2) = f a t
  rw [hx]
  rfl

@[simp] theorem pure_ok_iff {α : Type} {a b : α} {s s' : Machine} :
    (pure a : KernelM α) s = .ok (b, s') ↔ a = b ∧ s = s' := by
  show (Except.ok (a, s) : Except KPanic (α × Machine)) = .ok (b, s') ↔ _
  simp

@[simp] theorem kpanic_ok_iff {α : Type} {panic : KPanic} {b : α} {s s' : Machine} :
    (kpanic panic : KernelM α) s = .ok (b, s') ↔ False := by
  simp [kpanic]

@[simp] theorem panicIf_ok_iff {condition : Prop} [Decidable condition] {panic : KPanic}
    {s s' : Machine} {u : Unit} :
    panicIf condition panic s = .ok (u, s') ↔ ¬ condition ∧ s = s' := by
  unfold panicIf
  split <;> simp [*]

@[simp] theorem readEntry_ok_iff {table idx entry : Nat} {s s' : Machine} :
    readEntry table idx s = .ok (entry, s') ↔
      entry = tableEntry s.mem table idx ∧
        s' = { s with log := .read (table + 8 * idx) :: s.log } := by
  simp only [readEntry, Except.ok.injEq, Prod.mk.injEq]
  exact ⟨fun h => ⟨h.1.symm, h.2.symm⟩, fun h => ⟨h.1.symm, h.2.symm⟩⟩

theorem panicIf_bind_ok_iff {β : Type} {condition : Prop} [Decidable condition] {panic : KPanic}
    {f : Unit → KernelM β} {s : Machine} {r : β × Machine} :
    (panicIf condition panic >>= f) s = .ok r ↔ ¬ condition ∧ f () s = .ok r := by
  unfold panicIf
  split
  · exact iff_of_false (fun h => nomatch h) fun h => h.1 ‹_›
  · exact (and_iff_right ‹_›).symm

theorem readEntry_bind {β : Type} {table idx : Nat} {f : Nat → KernelM β} {s : Machine} :
    (readEntry table idx >>= f) s =
      f (tableEntry s.mem table idx) { s with log := .read (table + 8 * idx) :: s.log } := rfl

@[simp] theorem writeEntry_ok_iff {table idx value : Nat} {s s' : Machine} {u : Unit} :
    writeEntry table idx value s = .ok (u, s') ↔
      s' = { s with
        mem := storeLE s.mem (table + 8 * idx) 8 value
        log := .write (table + 8 * idx) :: s.log } := by
  simp only [writeEntry, Except.ok.injEq, Prod.mk.injEq, true_and]
  exact eq_comm

@[simp] theorem zeroPage_ok_iff {frame : Nat} {s s' : Machine} {u : Unit} :
    zeroPage frame s = .ok (u, s') ↔
      s' = { s with mem := fill s.mem frame pageSize 0, log := .zero frame :: s.log } := by
  simp only [zeroPage, Except.ok.injEq, Prod.mk.injEq, true_and]
  exact eq_comm

/-- A successful allocation took the first clear bit of the map. -/
theorem allocPage_ok_iff {debug : Bool} {page : Nat} {s s' : Machine} :
    allocPage debug s = .ok (page, s') ↔
      ∃ idx, IsFirstClear s.pmm.bitmap s.pmm.bitCount idx ∧ page = idx * pageSize ∧
        s' = { s with pmm := { s.pmm with bitmap := bitmapSet s.pmm.bitmap idx } } := by
  have hiff := pmmAlloc_ok_iff debug s.pmm
  unfold allocPage
  cases hcall : pmmAlloc debug s.pmm with
  | error panic =>
    simp only [reduceCtorEq, false_iff, not_exists, not_and]
    intro idx hfirst hpage hs'
    have := (hiff page _).mpr ⟨idx, hfirst, hpage, rfl⟩
    rw [hcall] at this
    cases this
  | ok p =>
    obtain ⟨page', pmm'⟩ := p
    obtain ⟨idx, hfirst, hpage, hpmm⟩ := (hiff page' pmm').mp hcall
    simp only [Except.ok.injEq, Prod.mk.injEq]
    constructor
    · rintro ⟨rfl, rfl⟩
      exact ⟨idx, hfirst, hpage, by rw [hpmm]⟩
    · rintro ⟨idx', hfirst', rfl, rfl⟩
      have hsame := (hiff (idx' * pageSize) _).mpr ⟨idx', hfirst', rfl, rfl⟩
      rw [hcall] at hsame
      cases hsame
      exact ⟨rfl, rfl⟩

theorem freePage_ok_iff {debug : Bool} {page : Nat} {s s' : Machine} {u : Unit} :
    freePage debug page s = .ok (u, s') ↔
      ∃ pmm, pmmFree debug s.pmm page = .ok pmm ∧
        s' = { s with pmm := pmm, log := .free page :: s.log } := by
  unfold freePage
  cases pmmFree debug s.pmm page with
  | error panic => simp
  | ok pmm =>
    simp only [Except.ok.injEq, Prod.mk.injEq, true_and, exists_eq_left']
    exact eq_comm

/-! ## Where a panic comes from -/

theorem bind_error_iff {α β : Type} {x : KernelM α} {f : α → KernelM β} {s : Machine}
    {panic : KPanic} :
    (x >>= f) s = .error panic ↔
      x s = .error panic ∨ ∃ a t, x s = .ok (a, t) ∧ f a t = .error panic := by
  show (Except.bind (x s) fun p => f p.1 p.2) = .error panic ↔ _
  cases hx : x s with
  | error panic' => simp [Except.bind]
  | ok p =>
    obtain ⟨a, t⟩ := p
    simp [Except.bind]

@[simp] theorem pure_ne_error {α : Type} {a : α} {s : Machine} {panic : KPanic} :
    (pure a : KernelM α) s ≠ .error panic := by
  show (Except.ok (a, s) : Except KPanic (α × Machine)) ≠ .error panic
  simp

@[simp] theorem panicIf_error_iff {condition : Prop} [Decidable condition]
    {panic panic' : KPanic} {s : Machine} :
    panicIf condition panic s = .error panic' ↔ condition ∧ panic' = panic := by
  unfold panicIf
  split
  · simp [kpanic, *, eq_comm]
  · simp [*]

/-- Allocation fails only for lack of memory. -/
theorem allocPage_error_iff {debug : Bool} {s : Machine} {panic : KPanic} :
    allocPage debug s = .error panic ↔
      panic = .pmmAllocNoMemory ∧
        ∀ i, i < s.pmm.bitCount → bitAt s.pmm.bitmap i = true := by
  rw [← pmmAlloc_error_iff debug]
  unfold allocPage
  cases pmmAlloc debug s.pmm with
  | error panic' => simp
  | ok p => simp

/-! ## Entries of aligned tables -/

theorem tableEntry_lt (mem : ByteMem) (table idx : Nat) : tableEntry mem table idx < 2 ^ 64 :=
  loadLE_lt mem (table + 8 * idx) 8

/-- Distinct entries of page-aligned tables do not overlap. -/
theorem tableEntry_store (mem : ByteMem) {table table0 value : Nat} {idx idx0 : Nat}
    (hidx : idx < 512) (hidx0 : idx0 < 512)
    (htable : table % pageSize = 0) (htable0 : table0 % pageSize = 0) (hvalue : value < 2 ^ 64) :
    tableEntry (storeLE mem (table0 + 8 * idx0) 8 value) table idx =
      if table = table0 ∧ idx = idx0 then value else tableEntry mem table idx := by
  by_cases hsame : table = table0 ∧ idx = idx0
  · obtain ⟨rfl, rfl⟩ := hsame
    rw [if_pos ⟨rfl, rfl⟩]
    exact loadLE_storeLE_same mem _ 8 value hvalue
  · rw [if_neg hsame]
    apply loadLE_storeLE_disjoint
    unfold pageSize at htable htable0
    omega

/-- Zeroing a page clears its entries and no other table's. -/
theorem tableEntry_fill (mem : ByteMem) {table frame idx : Nat} (hidx : idx < 512)
    (htable : table % pageSize = 0) (hframe : frame % pageSize = 0) :
    tableEntry (fill mem frame pageSize 0) table idx =
      if table = frame then 0 else tableEntry mem table idx := by
  unfold tableEntry pageSize at *
  by_cases hsame : table = frame
  · subst hsame
    rw [if_pos rfl]
    exact loadLE_fill_zero mem (by omega) (by omega)
  · rw [if_neg hsame]
    apply loadLE_fill_disjoint
    omega

end Pristine.Kernel
