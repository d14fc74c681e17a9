import Pristine.Kernel.Machine

/-!
# Page-table operations

The operations of `kernel/kernel/vmm.c` on pages of 4 KiB, 2 MiB and 1 GiB, and
the two walkers that give frames back, `vmm_free` and `vmm_destroy`.  Every level of
`vmm_map` does the same thing to the next table, so the level is one definition,
`vmmNextTable`.
-/

namespace Pristine.Kernel

open Lib

/-- `VMM_LARGE_PAGE_SIZE`. -/
def largePageSize : Nat := 0x200000

/-- `VMM_HUGE_PAGE_SIZE`. -/
def hugePageSize : Nat := 0x40000000

/-- `VMM_PTE_ADDR_MASK`. -/
def pteAddrMask : Nat := 0x000FFFFFFFFFF000

/-- Nine address bits from `shift` on, an index into one table. -/
def tableIdx (addr shift : Nat) : Fin 512 :=
  ⟨(addr >>> shift) &&& 0x1FF, Nat.lt_of_le_of_lt Nat.and_le_right (by decide)⟩

/-- `VMM_PML4_IDX`. -/
def pml4Idx (addr : Nat) : Fin 512 := tableIdx addr 39

/-- `VMM_PDPT_IDX`. -/
def pdptIdx (addr : Nat) : Fin 512 := tableIdx addr 30

/-- `VMM_PD_IDX`. -/
def pdIdx (addr : Nat) : Fin 512 := tableIdx addr 21

/-- `VMM_PT_IDX`. -/
def ptIdx (addr : Nat) : Fin 512 := tableIdx addr 12

/-- `VMM_FLAGS_PRESENT`. -/
def vmmFlagsPresent : Nat := 0x01

/-- `VMM_FLAGS_KERNEL_DATA`. -/
def vmmFlagsKernelData : Nat := 0x03 ||| (1 <<< 63)

/-- `VMM_FLAGS_USER_CODE`. -/
def vmmFlagsUserCode : Nat := 0x07

/-- `VMM_FLAGS_USER_DATA`. -/
def vmmFlagsUserData : Nat := 0x07 ||| (1 <<< 63)

/-- `VMM_FLAGS_TABLE_KERNEL`. -/
def vmmFlagsTableKernel : Nat := 0x03

/-- `VMM_FLAGS_TABLE_USER`. -/
def vmmFlagsTableUser : Nat := 0x07

/-- `VMM_FLAG_USER`. -/
def vmmFlagUser : Nat := 0x04

/-- `VMM_PDPT_HUGE_FLAGS` and `VMM_PD_LARGE_FLAGS`: the entry maps a page. -/
def vmmPageSizeFlag : Nat := 0x80

/-- `is_aligned`. -/
def isAligned (addr alignment : Nat) : Bool :=
  addr &&& (alignment - 1) = 0

/-- `vmm_init`: a zeroed top-level table. -/
def vmmInit (debug : Bool) : KernelM Nat := do
  let pml4 ← allocPage debug
  zeroPage pml4
  return pml4

/-! ## The operations

They are written once for every monad that has the accesses of `KernelM`: in `KernelM` itself a panic
loses the machine, and `AtPanic` has them in a monad that keeps it. -/

/-- The flags `vmm_map` gives to the tables it creates. -/
def tableFlags (flags : Nat) : Nat :=
  if flags &&& vmmFlagUser ≠ 0 then vmmFlagsTableUser else vmmFlagsTableKernel

namespace Ops

variable {M : Type → Type} [Monad M] [MonadLiftT KernelM M]

/-- One level of `vmm_map`: the table behind entry `idx`, created if the entry is
empty. -/
def vmmNextTable (debug : Bool) (iflags table : Nat) (idx : Fin 512) : M Nat := do
  let entry ← readEntry table idx
  if entry = 0 then
    let tablePhysAddr ← allocPage debug
    writeEntry table idx (tablePhysAddr ||| iflags)
    zeroPage tablePhysAddr
    return tablePhysAddr
  else
    return entry &&& pteAddrMask

/-- The three levels of `vmm_map`: the page table for an address. -/
def vmmPageTable (debug : Bool) (iflags pml4 virt : Nat) : M Nat := do
  let pdpt ← vmmNextTable debug iflags pml4 (pml4Idx virt)
  let pd ← vmmNextTable debug iflags pdpt (pdptIdx virt)
  vmmNextTable debug iflags pd (pdIdx virt)

/-- The end of the three maps: the old entry is tested in a debug build, and the new one is written. -/
def setEntry (debug : Bool) (table : Nat) (idx : Fin 512) (value : Nat) (panic : KPanic) : M Unit := do
  if debug then
    let old ← readEntry table idx
    panicIf (old ≠ 0) panic
  writeEntry table idx value

/-- `vmm_map`. -/
def vmmMap (debug : Bool) (pml4 phys virt flags : Nat) : M Unit := do
  panicIf (debug ∧ ¬ isAligned phys pageSize) (.vmmMapUnalignedPhys phys)
  panicIf (debug ∧ ¬ isAligned virt pageSize) (.vmmMapUnalignedVirt virt)
  let pt ← vmmPageTable debug (tableFlags flags) pml4 virt
  setEntry debug pt (ptIdx virt) (phys ||| flags) (.vmmMapExists virt)

/-- `vmm_map_large`. -/
def vmmMapLarge (debug : Bool) (pml4 phys virt flags : Nat) : M Unit := do
  panicIf (debug ∧ ¬ isAligned phys largePageSize) (.vmmMapLargeUnalignedPhys phys)
  panicIf (debug ∧ ¬ isAligned virt largePageSize) (.vmmMapLargeUnalignedVirt virt)
  let pdpt ← vmmNextTable debug (tableFlags flags) pml4 (pml4Idx virt)
  let pdpte ← readEntry pdpt (pdptIdx virt)
  panicIf (debug ∧ pdpte &&& vmmPageSizeFlag ≠ 0) (.vmmMapLargeThroughHuge virt)
  let pd ← vmmNextTable debug (tableFlags flags) pdpt (pdptIdx virt)
  setEntry debug pd (pdIdx virt) (phys ||| (flags ||| vmmPageSizeFlag)) (.vmmMapLargeExists virt)

/-- `vmm_unmap`. -/
def vmmUnmap (debug : Bool) (pml4 virt : Nat) : M Unit := do
  panicIf (debug ∧ ¬ isAligned virt pageSize) (.vmmUnmapUnaligned virt)
  let pml4e ← readEntry pml4 (pml4Idx virt)
  panicIf (pml4e = 0) (.vmmUnmapNoPdpt virt)
  let pdpte ← readEntry (pml4e &&& pteAddrMask) (pdptIdx virt)
  panicIf (pdpte = 0) (.vmmUnmapNoPd virt)
  panicIf (debug ∧ pdpte &&& vmmPageSizeFlag ≠ 0) (.vmmUnmapHugeEntry virt)
  let pde ← readEntry (pdpte &&& pteAddrMask) (pdIdx virt)
  panicIf (pde = 0) (.vmmUnmapNoPt virt)
  panicIf (debug ∧ pde &&& vmmPageSizeFlag ≠ 0) (.vmmUnmapLargeEntry virt)
  if debug then
    let pte ← readEntry (pde &&& pteAddrMask) (ptIdx virt)
    panicIf (pte = 0) (.vmmUnmapMissing virt)
  writeEntry (pde &&& pteAddrMask) (ptIdx virt) 0

/-- `vmm_unmap_large`. -/
def vmmUnmapLarge (debug : Bool) (pml4 virt : Nat) : M Unit := do
  panicIf (debug ∧ ¬ isAligned virt largePageSize) (.vmmUnmapLargeUnaligned virt)
  let pml4e ← readEntry pml4 (pml4Idx virt)
  panicIf (pml4e = 0) (.vmmUnmapLargeNoPdpt virt)
  let pdpte ← readEntry (pml4e &&& pteAddrMask) (pdptIdx virt)
  panicIf (pdpte = 0) (.vmmUnmapLargeNoPd virt)
  -- unlike `vmm_unmap`, no test whether the PDPT entry maps a huge page
  if debug then
    let pde ← readEntry (pdpte &&& pteAddrMask) (pdIdx virt)
    panicIf (pde &&& vmmPageSizeFlag = 0) (.vmmUnmapLargeNotLarge virt)
    panicIf (pde = 0) (.vmmUnmapLargeMissing virt)
  writeEntry (pdpte &&& pteAddrMask) (pdIdx virt) 0

/-- `vmm_map_huge`. -/
def vmmMapHuge (debug : Bool) (pml4 phys virt flags : Nat) : M Unit := do
  panicIf (debug ∧ ¬ isAligned phys hugePageSize) (.vmmMapHugeUnalignedPhys phys)
  panicIf (debug ∧ ¬ isAligned virt hugePageSize) (.vmmMapHugeUnalignedVirt virt)
  let pdpt ← vmmNextTable debug (tableFlags flags) pml4 (pml4Idx virt)
  setEntry debug pdpt (pdptIdx virt) (phys ||| (flags ||| vmmPageSizeFlag)) (.vmmMapHugeExists virt)

/-- `vmm_unmap_huge`. -/
def vmmUnmapHuge (debug : Bool) (pml4 virt : Nat) : M Unit := do
  panicIf (debug ∧ ¬ isAligned virt hugePageSize) (.vmmUnmapHugeUnaligned virt)
  let pml4e ← readEntry pml4 (pml4Idx virt)
  panicIf (pml4e = 0) (.vmmUnmapHugeNoPdpt virt)
  if debug then
    let pdpte ← readEntry (pml4e &&& pteAddrMask) (pdptIdx virt)
    panicIf (pdpte &&& vmmPageSizeFlag = 0) (.vmmUnmapHugeNotHuge virt)
    panicIf (pdpte = 0) (.vmmUnmapHugeMissing virt)
  writeEntry (pml4e &&& pteAddrMask) (pdptIdx virt) 0

/-- The loops of `vmm_free` over the frames of a large or huge page. -/
def freeFrames (debug : Bool) (physStart : Nat) : Nat → M Unit
  | 0 => pure ()
  | left + 1 => do
      freePage debug physStart
      freeFrames debug (physStart + pageSize) left

/-- `vmm_free`. -/
def vmmFree (debug : Bool) (pml4 virt : Nat) : M Unit := do
  let pml4e ← readEntry pml4 (pml4Idx virt)
  let pdpt := pml4e &&& pteAddrMask
  panicIf (physToVirt pdpt = 0 ∨ pml4e &&& vmmFlagsPresent = 0) (.vmmFreeNoPdpt (pml4Idx virt))
  let pdpte ← readEntry pdpt (pdptIdx virt)
  if pdpte &&& vmmPageSizeFlag ≠ 0 then
    freeFrames debug (pdpte &&& pteAddrMask) (hugePageSize / pageSize)
    writeEntry pdpt (pdptIdx virt) 0
  else
    let pd := pdpte &&& pteAddrMask
    panicIf (physToVirt pd = 0 ∨ pdpte &&& vmmFlagsPresent = 0) (.vmmFreeNoPd (pdptIdx virt))
    let pde ← readEntry pd (pdIdx virt)
    if pde &&& vmmPageSizeFlag ≠ 0 then
      freeFrames debug (pde &&& pteAddrMask) (largePageSize / pageSize)
      writeEntry pd (pdIdx virt) 0
    else
      -- the PD entry's present bit is not looked at here
      let pt := pde &&& pteAddrMask
      let pte ← readEntry pt (ptIdx virt)
      panicIf (physToVirt pt = 0 ∨ pte &&& vmmFlagsPresent = 0) (.vmmFreeNoPt (ptIdx virt))
      freePage debug (pte &&& pteAddrMask)
      writeEntry pt (ptIdx virt) 0

end Ops

@[simp] theorem liftM_kernel {α : Type} (x : KernelM α) : (liftM x : KernelM α) = x := rfl

def vmmNextTable (debug : Bool) (iflags table : Nat) (idx : Fin 512) : KernelM Nat :=
  Ops.vmmNextTable debug iflags table idx

def vmmPageTable (debug : Bool) (iflags pml4 virt : Nat) : KernelM Nat :=
  Ops.vmmPageTable debug iflags pml4 virt

def vmmMap (debug : Bool) (pml4 phys virt flags : Nat) : KernelM Unit :=
  Ops.vmmMap debug pml4 phys virt flags

def vmmMapLarge (debug : Bool) (pml4 phys virt flags : Nat) : KernelM Unit :=
  Ops.vmmMapLarge debug pml4 phys virt flags

def vmmUnmap (debug : Bool) (pml4 virt : Nat) : KernelM Unit := Ops.vmmUnmap debug pml4 virt

def vmmFree (debug : Bool) (pml4 virt : Nat) : KernelM Unit := Ops.vmmFree debug pml4 virt

/-- The end of each loop body of `vmm_destroy`: the entry is read once more, and the frame in it is
given back. -/
def vmmDestroyEntry (debug : Bool) (table idx : Nat) : KernelM Unit := do
  let entry ← readEntry table idx
  freePage debug (entry &&& pteAddrMask)

/-- The innermost loop of `vmm_destroy`: the pages of one page table. -/
def vmmDestroyPt (debug : Bool) (pt : Nat) : KernelM Unit :=
  (List.range 512).forM fun ptidx => do
    let pte ← readEntry pt ptidx
    if pte = 0 then pure () else vmmDestroyEntry debug pt ptidx

/-- The loop of `vmm_destroy` over one page directory. -/
def vmmDestroyPd (debug : Bool) (pd : Nat) : KernelM Unit :=
  (List.range 512).forM fun pdidx => do
    let pde ← readEntry pd pdidx
    if pde = 0 then pure ()
    else if pde &&& vmmPageSizeFlag ≠ 0 then pure ()
    else do
      vmmDestroyPt debug (pde &&& pteAddrMask)
      vmmDestroyEntry debug pd pdidx

/-- The loop of `vmm_destroy` over one page-directory-pointer table. -/
def vmmDestroyPdpt (debug : Bool) (pdpt : Nat) : KernelM Unit :=
  (List.range 512).forM fun pdptidx => do
    let pdpte ← readEntry pdpt pdptidx
    if pdpte = 0 then pure ()
    else if pdpte &&& vmmPageSizeFlag ≠ 0 then pure ()
    else do
      vmmDestroyPd debug (pdpte &&& pteAddrMask)
      vmmDestroyEntry debug pdpt pdptidx

/-- `vmm_destroy`: the lower half only, the upper half is the kernel's. -/
def vmmDestroy (debug : Bool) (pml4 : Nat) : KernelM Unit :=
  (List.range 256).forM fun pml4idx => do
    let pml4e ← readEntry pml4 pml4idx
    if pml4e = 0 then pure ()
    else do
      vmmDestroyPdpt debug (pml4e &&& pteAddrMask)
      vmmDestroyEntry debug pml4 pml4idx

/-! ## The hardware's view -/

/-- What a page walk ends in: the entry that maps the page, by page size. -/
inductive Translation where
  | page4k (entry : Nat)
  | page2m (entry : Nat)
  | page1g (entry : Nat)
  deriving DecidableEq, Repr

/-- The x86-64 4-level walk: every entry on the way must be present, and the
page-size bit ends the walk in a PDPT or PD. -/
def walk (mem : ByteMem) (pml4 virt : Nat) : Option Translation :=
  let pml4e := tableEntry mem pml4 (pml4Idx virt)
  if pml4e &&& vmmFlagsPresent = 0 then none else
  let pdpte := tableEntry mem (pml4e &&& pteAddrMask) (pdptIdx virt)
  if pdpte &&& vmmFlagsPresent = 0 then none else
  if pdpte &&& vmmPageSizeFlag ≠ 0 then some (.page1g pdpte) else
  let pde := tableEntry mem (pdpte &&& pteAddrMask) (pdIdx virt)
  if pde &&& vmmFlagsPresent = 0 then none else
  if pde &&& vmmPageSizeFlag ≠ 0 then some (.page2m pde) else
  let pte := tableEntry mem (pde &&& pteAddrMask) (ptIdx virt)
  if pte &&& vmmFlagsPresent = 0 then none else some (.page4k pte)

end Pristine.Kernel
