import Pristine.Kernel.Vmm

/-!
# The slab allocator

`kmalloc`, `kfree`, `bin_alloc` and `bin_free` of `kernel/kernel/kmalloc.c` and
`kernel/kernel/slab.c`.  A slab is one page: a `SlabHeader`, then objects of one
size.  Free objects are linked through their first eight bytes, slabs through
their headers.

Slab pages come from `pmm_alloc` and `vmm_map`; the code is written for any
`PageOps` that says what those calls do.  Memory is what the kernel sees at
virtual addresses.
-/

namespace Pristine.Kernel

open Function Lib

/-! ## Headers, bins and pages -/

/-- The fields of `SlabHeader`. -/
inductive SlabField where
  | countObjects
  | nextFree
  | nextSlab
  | prevSlab
  | phys
  | bin
  deriving DecidableEq, Repr

def SlabField.offset : SlabField → Nat
  | .countObjects => 0
  | .nextFree => 8
  | .nextSlab => 16
  | .prevSlab => 24
  | .phys => 32
  | .bin => 40

def SlabField.width : SlabField → Nat
  | .countObjects => 4
  | .nextFree => 8
  | .nextSlab => 8
  | .prevSlab => 8
  | .phys => 8
  | .bin => 2

/-- `sizeof(SlabHeader)`. -/
def sizeofSlabHeader : Nat := 48

/-- A field of the header at `slab`. -/
def slabField (field : SlabField) (mem : ByteMem) (slab : Nat) : Nat :=
  loadLE mem (slab + field.offset) field.width

def setSlabField (field : SlabField) (mem : ByteMem) (slab value : Nat) : ByteMem :=
  storeLE mem (slab + field.offset) field.width value

/-- The pointer-sized word at an address. -/
def word (mem : ByteMem) (addr : Nat) : Nat := loadLE mem addr 8

def setWord (mem : ByteMem) (addr value : Nat) : ByteMem := storeLE mem addr 8 value

/-- `SLAB_VIRT_START`. -/
def slabVirtStart : Nat := 0xFFFF900000000000

/-- `SLAB_VIRT_SIZE`. -/
def slabVirtSize : Nat := 0x10000000000

/-- `SLAB_VIRT_END`. -/
def slabVirtEnd : Nat := slabVirtStart + slabVirtSize

/-- An index into `bins`; there are `SLAB_TOTAL_BINS` of them. -/
abbrev BinIdx := Fin 24

/-- `object_size` of the bins, in order. -/
def binSizes : List Nat :=
  [8, 16, 24, 32, 40, 48, 56, 64, 80, 96, 112, 128, 160, 192, 224, 256, 320, 384, 448, 512, 640,
    768, 896, 1024]

/-- `object_size`. -/
def objectSize (b : BinIdx) : Nat := binSizes.get b

/-- `max_objects`. -/
def maxObjects (b : BinIdx) : Nat := (pageSize - sizeofSlabHeader) / objectSize b

/-- What the allocator needs from the page allocator and the page tables. -/
structure PageOps (κ : Type) where
  pmmAlloc : κ → Except KPanic (Nat × κ)
  pmmFree : Nat → κ → Except KPanic κ
  /-- `vmm_map` into the kernel's address space: frame, then virtual address -/
  vmmMap : Nat → Nat → κ → Except KPanic κ
  /-- `vmm_unmap` from the kernel's address space -/
  vmmUnmap : Nat → κ → Except KPanic κ
  /-- the bytes of a frame when it is mapped -/
  contents : κ → Nat → Nat → UInt8

/-- The allocator's static data, memory, and the page level. -/
structure SlabState (κ : Type) where
  mem : ByteMem
  freeSlabs : BinIdx → Nat
  fullSlabs : BinIdx → Nat
  slabTop : Nat
  pages : κ

/-- Memory after a frame with the given bytes was mapped at `virt`. -/
def showPage (contents : Nat → UInt8) (virt : Nat) (mem : ByteMem) : ByteMem := fun a =>
  if virt ≤ a ∧ a < virt + pageSize then contents (a - virt) else mem a

/-! ## `bin_alloc` -/

/-- The loop that links all objects of a new slab.  Objects have at least eight bytes,
so a page's worth of fuel covers every iteration. -/
def linkObjects (size stop : Nat) : Nat → Nat → ByteMem → ByteMem
  | 0, _, mem => mem
  | fuel + 1, i, mem =>
    if i < stop then
      linkObjects size stop fuel ((i + size) % 2 ^ 64) (setWord mem i ((i + size) % 2 ^ 64))
    else
      mem

/-- `if (slab != NULL) slab->prev_slab = value`. -/
def setPrevSlab (mem : ByteMem) (slab value : Nat) : ByteMem :=
  if slab ≠ 0 then setSlabField .prevSlab mem slab value else mem

/-- `if (slab != NULL) slab->next_slab = value`. -/
def setNextSlab (mem : ByteMem) (slab value : Nat) : ByteMem :=
  if slab ≠ 0 then setSlabField .nextSlab mem slab value else mem

/-- Put a slab in front of the list that starts at `head`. -/
def insertSlab (slab head : Nat) (mem : ByteMem) : ByteMem :=
  let mem := setPrevSlab mem head slab
  let mem := setSlabField .nextSlab mem slab head
  setSlabField .prevSlab mem slab 0

/-- Header and free list of a new slab at `slab`. -/
def formatSlab (b : BinIdx) (slab phys : Nat) (mem : ByteMem) : ByteMem :=
  let slabEnd := (slab + pageSize) % 2 ^ 64
  let mem := setSlabField .countObjects mem slab 0
  let mem := setSlabField .phys mem slab phys
  let mem := setSlabField .bin mem slab b
  let mem := linkObjects (objectSize b) slabEnd pageSize (slab + sizeofSlabHeader) mem
  -- meant as the end of the list; it lies inside the last object unless the size divides the page
  let mem := setWord mem ((slabEnd + 2 ^ 64 - objectSize b) % 2 ^ 64) 0
  setSlabField .nextFree mem slab (slab + sizeofSlabHeader)

section Alloc

variable {κ : Type} (ops : PageOps κ) (debug : Bool)

/-- The part of `bin_alloc` for a bin without free slabs. -/
def newSlab (b : BinIdx) (s : SlabState κ) : Except KPanic (SlabState κ) := do
  let (slabPhys, pages) ← ops.pmmAlloc s.pages
  let slab := (slabVirtStart + s.slabTop) % 2 ^ 64
  let pages ← ops.vmmMap slabPhys slab pages
  let mem := formatSlab b slab slabPhys (showPage (ops.contents pages slabPhys) slab s.mem)
  let mem := setSlabField .nextSlab mem slab (s.freeSlabs b)
  let mem := setSlabField .prevSlab mem slab 0
  return { s with
    mem := setPrevSlab mem (s.freeSlabs b) slab
    freeSlabs := update s.freeSlabs b slab
    slabTop := (s.slabTop + pageSize) % 2 ^ 64
    pages := pages }

variable {ops debug}

/-- Take the first object off the free list of `slab`. -/
def popObject (slab : Nat) (s : SlabState κ) : Nat × SlabState κ :=
  let addr := slabField .nextFree s.mem slab
  let mem := setSlabField .nextFree s.mem slab (word s.mem addr)
  let owner := addr &&& (2 ^ 64 - pageSize)
  (addr, { s with
    mem := setSlabField .countObjects mem owner
      ((slabField .countObjects mem owner + 1) % 2 ^ 32) })

/-- Move the first free slab of a bin to its full slabs. -/
def retireSlab (b : BinIdx) (slab : Nat) (s : SlabState κ) : SlabState κ :=
  let next := slabField .nextSlab s.mem slab
  { s with
    mem := insertSlab slab (s.fullSlabs b) (setPrevSlab s.mem next 0)
    freeSlabs := update s.freeSlabs b next
    fullSlabs := update s.fullSlabs b slab }

/-- `bin_alloc` once the bin has a free slab. -/
def takeObject (b : BinIdx) (s : SlabState κ) : Nat × SlabState κ :=
  let slab := s.freeSlabs b
  let (addr, s) := popObject slab s
  (addr, if slabField .countObjects s.mem slab = maxObjects b then retireSlab b slab s else s)

variable (ops debug)

/-- `bin_alloc`.  The debug check compares the offset `slab_top` with an address. -/
def binAlloc (b : BinIdx) (s : SlabState κ) : Except KPanic (Nat × SlabState κ) := do
  if debug ∧ slabVirtEnd - pageSize ≤ s.slabTop then
    throw .binAllocExhausted
  let s ← if s.freeSlabs b = 0 then newSlab ops b s else pure s
  return takeObject b s

end Alloc

/-! ## `bin_free` -/

section Free

variable {κ : Type}

/-- Put an object in front of the free list of `slab`. -/
def pushObject (slab addr : Nat) (s : SlabState κ) : SlabState κ :=
  let mem := setWord s.mem addr (slabField .nextFree s.mem slab)
  let mem := setSlabField .nextFree mem slab addr
  { s with
    mem := setSlabField .countObjects mem slab
      ((slabField .countObjects mem slab + 2 ^ 32 - 1) % 2 ^ 32) }

/-- Link the neighbours of `slab` to each other. -/
def bypassSlab (slab : Nat) (mem : ByteMem) : ByteMem :=
  let mem := setPrevSlab mem (slabField .nextSlab mem slab) (slabField .prevSlab mem slab)
  setNextSlab mem (slabField .prevSlab mem slab) (slabField .nextSlab mem slab)

/-- Move a full slab of a bin to the front of its free slabs. -/
def reviveSlab (b : BinIdx) (slab : Nat) (s : SlabState κ) : SlabState κ :=
  let full := if s.fullSlabs b = slab then slabField .nextSlab s.mem slab else s.fullSlabs b
  { s with
    mem := insertSlab slab (s.freeSlabs b) (bypassSlab slab s.mem)
    freeSlabs := update s.freeSlabs b slab
    fullSlabs := update s.fullSlabs b full }

/-- `bin_free` up to the test for an empty slab. -/
def returnObject (b : BinIdx) (slab addr : Nat) (s : SlabState κ) : SlabState κ :=
  let wasFull := slabField .countObjects s.mem slab = maxObjects b
  let s := pushObject slab addr s
  if wasFull then reviveSlab b slab s else s

/-- Take an empty slab off the free slabs of its bin. -/
def dropSlab (b : BinIdx) (slab : Nat) (s : SlabState κ) : SlabState κ :=
  let free := if s.freeSlabs b = slab then slabField .nextSlab s.mem slab else s.freeSlabs b
  { s with
    mem := bypassSlab slab s.mem
    freeSlabs := update s.freeSlabs b free }

variable (ops : PageOps κ) (debug : Bool)

/-- The end of `bin_free`: an empty slab is taken out and its page given back. -/
def releaseSlab (b : BinIdx) (slab : Nat) (s : SlabState κ) : Except KPanic (SlabState κ) := do
  let s := dropSlab b slab s
  let pages ← ops.pmmFree (slabField .phys s.mem slab) s.pages
  let pages ← ops.vmmUnmap slab pages
  return { s with pages := pages }

/-- `bin_free`.  Without the debug checks a wrong `bin` field indexes past `bins`, which is
no defined behaviour either. -/
def binFree (addr : Nat) (s : SlabState κ) : Except KPanic (SlabState κ) := do
  if debug ∧ (addr < slabVirtStart ∨ slabVirtEnd < addr) then
    throw (.binFreeNotSlab addr)
  let slab := addr &&& (2 ^ 64 - pageSize)
  let bin := slabField .bin s.mem slab
  if hbin : bin < 24 then
    let b : BinIdx := ⟨bin, hbin⟩
    let s := returnObject b slab addr s
    if slabField .countObjects s.mem slab = 0 then
      releaseSlab ops b slab s
    else
      return s
  else
    throw (.binFreeInvalidBin bin)

end Free

/-! ## `kmalloc` and `kfree` -/

/-- The cases of `kmalloc`: the largest request and the bin that serves it. -/
def kmallocCases : List (Nat × BinIdx) :=
  [(8, 0), (16, 1), (24, 2), (32, 3), (40, 4), (48, 5), (56, 6), (64, 7), (80, 8), (96, 9),
    (112, 10), (128, 11), (160, 12), (192, 13), (224, 14), (256, 15), (320, 16), (384, 17),
    (448, 18), (512, 19), (640, 20), (768, 21), (896, 22), (1024, 23)]

/-- The bin that serves a request of at least one byte. -/
def kmallocBin (numBytes : Nat) : Option BinIdx :=
  (kmallocCases.find? fun c => numBytes ≤ c.1).map Prod.snd

section Kmalloc

variable {κ : Type} (ops : PageOps κ) (debug : Bool)

/-- `kmalloc`. -/
def kmalloc (numBytes : Nat) (s : SlabState κ) : Except KPanic (Nat × SlabState κ) :=
  if numBytes = 0 then
    .error .kmallocZero
  else
    match kmallocBin numBytes with
    | some b => binAlloc ops debug b s
    | none => .error (.kmallocUnsupported numBytes)

/-- `kfree`. -/
def kfree (ptr : Nat) (s : SlabState κ) : Except KPanic (SlabState κ) := binFree ops debug ptr s

end Kmalloc

end Pristine.Kernel
