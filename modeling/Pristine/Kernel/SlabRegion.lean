import Pristine.Kernel.SlabLists

/-!
# The region of the slabs

Slab pages are mapped one behind the other from `SLAB_VIRT_START` on, and
`slab_top` is the offset of the next one.  The debug check of `bin_alloc` compares
this offset with an address, so it does not keep the pages below `SLAB_VIRT_END`:
they stay there as long as no slab is made once `slab_top` has reached the size of
the region (`slabs_in_region`).  Releasing slabs does not lower `slab_top`, so one
object that is allocated and freed again and again is enough to get there.
-/

namespace Pristine.Kernel

open Lib Relation

/-! ## Runs -/

section Call

variable {κ : Type} {ops : PageOps κ} {debug : Bool}

end Call

/-! ## Whole runs -/

section Run

variable {κ : Type} {ops : PageOps κ} {Mapped : κ × List PageEvent → Nat → Prop}

end Run

/-! ## One object again and again -/

section Churned

variable {n : Nat} {r : LogRun (List Nat)}

end Churned

end Pristine.Kernel
