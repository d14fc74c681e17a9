/-!
# Kernel panics

`KPANIC` prints a message and halts the machine, so a function that panics has
no result.  Every panic site of the modelled functions has its own constructor,
with the values its message prints.
-/

namespace Pristine.Kernel

/-- The panic sites of the modelled kernel functions. -/
inductive KPanic where
  /-- `pmm_alloc: allocation failed, no memory left on device` -/
  | pmmAllocNoMemory
  /-- `pmm_alloc: bitmap_find returned already set index` -/
  | pmmAllocSetIndex
  /-- `pmm_free: unaligned address %lx` -/
  | pmmFreeUnaligned (page : Nat)
  /-- `pmm_free: double free at %lx` -/
  | pmmFreeDouble (page : Nat)
  /-- `vmm_map: unaligned physical address 0x%lx` -/
  | vmmMapUnalignedPhys (phys : Nat)
  /-- `vmm_map: unaligned virtual address 0x%lx` -/
  | vmmMapUnalignedVirt (virt : Nat)
  /-- `vmm_map: mapping already exists at virt 0x%lx` -/
  | vmmMapExists (virt : Nat)
  /-- `vmm_unmap: unaligned virtual address 0x%lx` -/
  | vmmUnmapUnaligned (virt : Nat)
  /-- `vmm_unmap: PDPT table doesn't exist for virt 0x%lx` -/
  | vmmUnmapNoPdpt (virt : Nat)
  /-- `vmm_unmap: PD table doesn't exist for virt 0x%lx` -/
  | vmmUnmapNoPd (virt : Nat)
  /-- `vmm_unmap: mapping for 0x%lx is mapped as huge` -/
  | vmmUnmapHugeEntry (virt : Nat)
  /-- `vmm_unmap: PT table doesn't exist for virt 0x%lx` -/
  | vmmUnmapNoPt (virt : Nat)
  /-- `vmm_unmap: mapping for 0x%lx is mapped as large` -/
  | vmmUnmapLargeEntry (virt : Nat)
  /-- `vmm_unmap: mapping for 0x%lx doesn't exist` -/
  | vmmUnmapMissing (virt : Nat)
  /-- `vmm_map_large: unaligned physical address 0x%lx` -/
  | vmmMapLargeUnalignedPhys (phys : Nat)
  /-- `vmm_map_large: unaligned virtual address 0x%lx` -/
  | vmmMapLargeUnalignedVirt (virt : Nat)
  /-- `vmm_map_large: tried to map through existing huge page at virt 0x%lx` -/
  | vmmMapLargeThroughHuge (virt : Nat)
  /-- `vmm_map_large: mapping already exists at virt 0x%lx` -/
  | vmmMapLargeExists (virt : Nat)
  /-- `vmm_unmap_large: unaligned virtual address 0x%lx` -/
  | vmmUnmapLargeUnaligned (virt : Nat)
  /-- `vmm_unmap_large: PDPT table doesn't exist for virt 0x%lx` -/
  | vmmUnmapLargeNoPdpt (virt : Nat)
  /-- `vmm_unmap_large: PD table doesn't exist for virt 0x%lx` -/
  | vmmUnmapLargeNoPd (virt : Nat)
  /-- `vmm_unmap_large: mapping for 0x%lx is not mapped as large` -/
  | vmmUnmapLargeNotLarge (virt : Nat)
  /-- `vmm_unmap_large: mapping for 0x%lx doesn't exist` -/
  | vmmUnmapLargeMissing (virt : Nat)
  /-- `vmm_map_huge: unaligned physical address 0x%lx` -/
  | vmmMapHugeUnalignedPhys (phys : Nat)
  /-- `vmm_map_huge: unaligned virtual address 0x%lx` -/
  | vmmMapHugeUnalignedVirt (virt : Nat)
  /-- `vmm_map_huge: mapping already exists at virt 0x%lx` -/
  | vmmMapHugeExists (virt : Nat)
  /-- `vmm_unmap_huge: unaligned virtual address 0x%lx` -/
  | vmmUnmapHugeUnaligned (virt : Nat)
  /-- `vmm_unmap_huge: PDPT table doesn't exist for virt 0x%lx` -/
  | vmmUnmapHugeNoPdpt (virt : Nat)
  /-- `vmm_unmap_huge: mapping for 0x%lx is not mapped as huge` -/
  | vmmUnmapHugeNotHuge (virt : Nat)
  /-- `vmm_unmap_huge: mapping for 0x%lx doesn't exist` -/
  | vmmUnmapHugeMissing (virt : Nat)
  /-- `vmm_free: PDPT at %u is not present` -/
  | vmmFreeNoPdpt (pml4idx : Nat)
  /-- `vmm_free: PD at %u is not present` -/
  | vmmFreeNoPd (pdptidx : Nat)
  /-- `vmm_free: PT at %u is not present` -/
  | vmmFreeNoPt (ptidx : Nat)
  /-- `bin_alloc: virtal address space exhausted for slab allocation` -/
  | binAllocExhausted
  /-- `bin_free: non-slab allocated address passed: %p` -/
  | binFreeNotSlab (addr : Nat)
  /-- `bin_free: invalid bin index: %u` -/
  | binFreeInvalidBin (bin : Nat)
  /-- `kmalloc: cannot allocated 0 bytes` -/
  | kmallocZero
  /-- `kmalloc: unsupported num_bytes: %lu` -/
  | kmallocUnsupported (numBytes : Nat)
  /-- `kernel: memory map exceeds maximum items of %i, possibly malformed memory` -/
  | kernelMemmapItems (items : Nat)
  deriving DecidableEq, Repr

end Pristine.Kernel
