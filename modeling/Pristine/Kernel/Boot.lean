import Pristine.Kernel.Memmap
import Pristine.Kernel.Pmm

/-!
# Reservations at boot

`kmain` marks the low megabyte, the page bitmap and the kernel as used, then
allocates the frames of the GDT and the TSS, and only then marks the page tables
stage 2 built, which the processor still uses.  Bytes of memory at or beyond the
end of the bitmap are not the allocator's: other code may change them at any
time, even when `__pmm_bitmap_size` takes them for a part of the bitmap.
-/

namespace Pristine.Kernel

open Lib

/-- `STAGE2_MEMORY_BITMAP_START`. -/
def stage2MemoryBitmapStart : Nat := 0x100000

/-- `STAGE2_MEMORY_BITMAP_SIZE`. -/
def stage2MemoryBitmapSize : Nat := 0x0C0000

/-- `STAGE2_PML4_ADDRESS`. -/
def stage2Pml4Address : Nat := stage2MemoryBitmapStart + stage2MemoryBitmapSize

/-- `bootinfo.page_table_count`: the PDPTs are counted a second time in place of the PDs. -/
def stage2PageTableCount : Nat := 1 + 3 + 3 + 2

/-- `KERNEL_BASE_PHYS`. -/
def kernelBasePhys : Nat := 0x400000

/-- `KERNEL_END_PHYS`. -/
def kernelEndPhys : Nat := kernelBasePhys + 0x200000

/-- `MEMMAP_MAX_ITEMS`. -/
def memmapMaxItems : Nat := 48

/-- A loop over `bitmap_set`. -/
def markUsed (start stop : Nat) (bitmap : ByteMem) : ByteMem :=
  paintPages bitmapSet (pagesBetween start stop) start bitmap

/-- `kmain` from the painting of the memory map to the reservation of the low megabyte. -/
def kmainReserve (mem : ByteMem) (entries : List MemmapEntry) : Pmm :=
  let memmapResult := memmapSetup mem stage2MemoryBitmapSize entries
  let start := alignUp stage2MemoryBitmapStart pageSize
  let stop := alignDown (stage2MemoryBitmapStart + stage2MemoryBitmapSize) pageSize
  let bitmap := markUsed start stop memmapResult.2
  let bitmap := markUsed kernelBasePhys kernelEndPhys bitmap
  let bitmap := markUsed 0 0x100000 bitmap
  pmmSetBitmapSize (pmmInit bitmap (UInt32.ofNat stage2MemoryBitmapSize))
    (UInt32.ofNat (memmapResult.1.memoryUsableTop / 8 / pageSize))

/-- The reservation of the bootstrap page tables. -/
def reservePageTables (pmm : Pmm) : Pmm :=
  { pmm with
    bitmap := markUsed stage2Pml4Address
      (stage2Pml4Address + stage2PageTableCount * pageSize) pmm.bitmap }

/-! ## Runs -/

/-- What `kmain` does next with the allocator. -/
inductive BootPhase where
  | gdt
  | tss
  | paging
  | later
  deriving DecidableEq, Repr

/-- The allocator with the frames it has returned. -/
structure BootRun where
  phase : BootPhase
  pmm : Pmm
  frames : List Nat

/-- `kmain` up to its first allocation. -/
def kmainStart (mem : ByteMem) (entries : List MemmapEntry) : Except KPanic BootRun :=
  if memmapMaxItems < entries.length then .error (.kernelMemmapItems memmapMaxItems)
  else .ok ⟨.gdt, kmainReserve mem entries, []⟩

/-- The steps of `kmain` that concern the allocator.  It frees nothing. -/
inductive BootStep (debug : Bool) : BootRun → BootRun → Prop
  | gdt {r : BootRun} {frame : Nat} {pmm' : Pmm} (hphase : r.phase = .gdt)
      (hcall : pmmAlloc debug r.pmm = .ok (frame, pmm')) :
      BootStep debug r ⟨.tss, pmm', frame :: r.frames⟩
  | tss {r : BootRun} {frame : Nat} {pmm' : Pmm} (hphase : r.phase = .tss)
      (hcall : pmmAlloc debug r.pmm = .ok (frame, pmm')) :
      BootStep debug r ⟨.paging, pmm', frame :: r.frames⟩
  | paging {r : BootRun} (hphase : r.phase = .paging) :
      BootStep debug r ⟨.later, reservePageTables r.pmm, r.frames⟩
  | alloc {r : BootRun} {frame : Nat} {pmm' : Pmm} (hphase : r.phase = .later)
      (hcall : pmmAlloc debug r.pmm = .ok (frame, pmm')) :
      BootStep debug r ⟨.later, pmm', frame :: r.frames⟩
  | write {r : BootRun} {bitmap : ByteMem}
      (hsame : ∀ a, a < stage2MemoryBitmapSize → bitmap a = r.pmm.bitmap a) :
      BootStep debug r { r with pmm := { r.pmm with bitmap := bitmap } }

/-- The frame has no byte in `[start, stop)`. -/
def FrameOutside (frame start stop : Nat) : Prop :=
  frame + pageSize ≤ start ∨ stop ≤ frame

/-- The frame is none that is in use at boot. -/
structure FrameSafe (frame : Nat) : Prop where
  low : FrameOutside frame 0 0x100000
  bitmap : FrameOutside frame stage2MemoryBitmapStart
    (stage2MemoryBitmapStart + stage2MemoryBitmapSize)
  kernel : FrameOutside frame kernelBasePhys kernelEndPhys
  tables : FrameOutside frame stage2Pml4Address
    (stage2Pml4Address + stage2PageTableCount * pageSize)

/-- Page `n` is one of the bootstrap page tables. -/
def IsTablePage (n : Nat) : Prop :=
  stage2Pml4Address / pageSize ≤ n ∧ n < stage2Pml4Address / pageSize + stage2PageTableCount

/-- The memory map describes the bootstrap page tables as unusable, as far as the allocator
searches at all. -/
def TablesUnusable (mem : ByteMem) (entries : List MemmapEntry) : Prop :=
  ∀ n, IsTablePage n → n < (kmainReserve mem entries).bitCount →
    ∃ e, LastPainter entries n e ∧ e.type ≠ 1

/-! ## The bitmap after the reservations -/

/-- Page `n` is reserved before the first allocation. -/
def ReservedFirst (n : Nat) : Prop :=
  n < stage2Pml4Address / pageSize ∨
    kernelBasePhys / pageSize ≤ n ∧ n < kernelEndPhys / pageSize

theorem bitAt_markUsed {start stop n : Nat} (bitmap : ByteMem)
    (hlow : start / pageSize ≤ n) (hhigh : n < start / pageSize + pagesBetween start stop)
    (hn : n < 2 ^ 32) : bitAt (markUsed start stop bitmap) n = true := by
  refine bitAt_paintPages bitAt_bitmapSet_other (fun _ _ => by simp) ?_ bitmap
  exact ⟨n - start / pageSize, by omega, by
    rw [Nat.add_sub_cancel' hlow, Nat.mod_eq_of_lt hn]⟩

theorem bitAt_markUsed_other {start stop n : Nat} (bitmap : ByteMem)
    (hsmall : start / pageSize + pagesBetween start stop ≤ 2 ^ 32)
    (hout : n < start / pageSize ∨ start / pageSize + pagesBetween start stop ≤ n) :
    bitAt (markUsed start stop bitmap) n = bitAt bitmap n := by
  refine bitAt_paintPages_other bitAt_bitmapSet_other ?_ bitmap
  rintro ⟨k, hk, hi⟩
  rw [Nat.mod_eq_of_lt (by omega)] at hi
  omega

/-- A reservation never frees a page. -/
theorem bitAt_markUsed_of_set {start stop n : Nat} {bitmap : ByteMem}
    (hset : bitAt bitmap n = true) : bitAt (markUsed start stop bitmap) n = true := by
  by_cases hpaints : PaintsFrom (pagesBetween start stop) start n
  · exact bitAt_paintPages bitAt_bitmapSet_other (fun _ _ => by simp) hpaints bitmap
  · rw [markUsed, bitAt_paintPages_other bitAt_bitmapSet_other hpaints, hset]

theorem kmainReserve_bitmap (mem : ByteMem) (entries : List MemmapEntry) :
    (kmainReserve mem entries).bitmap =
      markUsed 0 0x100000 (markUsed kernelBasePhys kernelEndPhys
        (markUsed 0x100000 0x1C0000 (memmapSetup mem stage2MemoryBitmapSize entries).2)) := by
  have hstart : alignUp stage2MemoryBitmapStart pageSize = 0x100000 := by decide +kernel
  have hstop : alignDown (stage2MemoryBitmapStart + stage2MemoryBitmapSize) pageSize =
      0x1C0000 := by decide +kernel
  unfold kmainReserve pmmSetBitmapSize pmmInit
  rw [hstart, hstop]

/-- Where the three reserved ranges end. -/
theorem reservedPages : 0 / pageSize + pagesBetween 0 0x100000 = 256 ∧
    0x100000 / pageSize + pagesBetween 0x100000 0x1C0000 = 448 ∧
    kernelBasePhys / pageSize + pagesBetween kernelBasePhys kernelEndPhys = 1536 := by
  decide +kernel

theorem kmainReserve_reserved (mem : ByteMem) (entries : List MemmapEntry) {n : Nat}
    (hn : ReservedFirst n) : bitAt (kmainReserve mem entries).bitmap n = true := by
  obtain ⟨hlowPages, hbitmapPages, hkernelPages⟩ := reservedPages
  rw [kmainReserve_bitmap]
  rcases hn with hlow | ⟨hkernel, hend⟩
  · have hlow : n < 448 := hlow
    by_cases hfirst : n < 256
    · refine bitAt_markUsed _ ?_ (by rwa [hlowPages]) (by omega)
      rw [Nat.zero_div]
      exact Nat.zero_le n
    · have hbase : 0x100000 / pageSize = 256 := by decide +kernel
      refine bitAt_markUsed_of_set (bitAt_markUsed_of_set (bitAt_markUsed _ ?_ ?_ (by omega)))
      · rw [hbase]
        omega
      · rwa [hbitmapPages]
  · have hkernel : 1024 ≤ n := hkernel
    have hend : n < 1536 := hend
    have hbase : kernelBasePhys / pageSize = 1024 := by decide +kernel
    refine bitAt_markUsed_of_set (bitAt_markUsed _ ?_ ?_ (by omega))
    · rwa [hbase]
    · rwa [hkernelPages]

/-- The bits of the bootstrap page tables are what the memory map makes of them. -/
theorem kmainReserve_table (mem : ByteMem) (entries : List MemmapEntry) {n : Nat}
    (hn : IsTablePage n) :
    bitAt (kmainReserve mem entries).bitmap n = true ↔
      ∃ e, LastPainter entries n e ∧ e.type ≠ 1 := by
  obtain ⟨hlow, hhigh⟩ : 448 ≤ n ∧ n < 457 := hn
  obtain ⟨hlowPages, hbitmapPages, hkernelPages⟩ := reservedPages
  have hkernelBase : kernelBasePhys / pageSize = 1024 := by decide +kernel
  rw [kmainReserve_bitmap, bitAt_markUsed_other _ (by rw [hlowPages]; decide)
      (by rw [hlowPages]; exact Or.inr (by omega)),
    bitAt_markUsed_other _ (by rw [hkernelPages]; decide)
      (by rw [hkernelBase]; exact Or.inl (by omega)),
    bitAt_markUsed_other _ (by rw [hbitmapPages]; decide)
      (by rw [hbitmapPages]; exact Or.inr hlow), memmapSetup]
  by_cases hsome : ∃ e ∈ entries, e.Paints n
  · obtain ⟨e, he, hpaints⟩ := hsome
    obtain ⟨e', -, hlast⟩ := exists_lastPainter he hpaints
    rw [bitAt_memmap_last hlast, decide_eq_true_eq]
    refine ⟨fun htype => ⟨e', hlast, htype⟩, ?_⟩
    rintro ⟨e'', hlast'', htype⟩
    have hsame : bitAt (memmapBitmapInit entries mem).2 n = decide (e'.type ≠ 1) :=
      bitAt_memmap_last hlast
    rw [bitAt_memmap_last hlast''] at hsame
    simpa [htype] using hsame
  · have hclear : bitAt (bitmapClearAll mem stage2MemoryBitmapSize) n = false :=
      bitAt_bitmapClearAll mem (by unfold stage2MemoryBitmapSize; omega)
    rw [bitAt_memmap_unpainted fun e he hpaints => hsome ⟨e, he, hpaints⟩, hclear]
    refine ⟨fun h => absurd h Bool.false_ne_true, ?_⟩
    rintro ⟨e, ⟨before, after, rfl, hpaints, -⟩, -⟩
    exact absurd ⟨e, by simp, hpaints⟩ hsome

/-! ## All frames are safe -/

/-- The invariant: the reserved pages are marked, and the page tables are as far as they are
searched. -/
structure BootInv (bitCount : Nat) (r : BootRun) : Prop where
  bitCount_eq : r.pmm.bitCount = bitCount
  reserved : ∀ n, ReservedFirst n → bitAt r.pmm.bitmap n = true
  tables : ∀ n, IsTablePage n → n < bitCount → bitAt r.pmm.bitmap n = true
  frames : ∀ frame ∈ r.frames, FrameSafe frame

/-- A frame is safe if its page is neither reserved nor a bootstrap page table. -/
theorem frameSafe_of_page {idx : Nat} (hreserved : ¬ ReservedFirst idx)
    (htable : ¬ IsTablePage idx) : FrameSafe (idx * pageSize) := by
  have hreserved : ¬ (idx < 448 ∨ 1024 ≤ idx ∧ idx < 1536) := hreserved
  have htable : ¬ (448 ≤ idx ∧ idx < 457) := htable
  have hsafe (start stop : Nat) (hout : idx + 1 ≤ start ∨ stop ≤ idx) :
      FrameOutside (idx * pageSize) (start * pageSize) (stop * pageSize) := by
    unfold FrameOutside pageSize
    omega
  exact ⟨hsafe 0 256 (by omega), hsafe 256 448 (by omega), hsafe 1024 1536 (by omega),
    hsafe 448 457 (by omega)⟩

section BootInv

variable {bitCount : Nat} {debug : Bool} {r : BootRun}

/-- An allocation keeps the invariant, whatever comes next. -/
theorem BootInv.alloc (hinv : BootInv bitCount r) {frame : Nat} {pmm' : Pmm}
    (hcall : pmmAlloc debug r.pmm = .ok (frame, pmm')) (phase : BootPhase) :
    BootInv bitCount ⟨phase, pmm', frame :: r.frames⟩ := by
  obtain ⟨idx, hfirst, rfl, rfl⟩ := (pmmAlloc_ok_iff debug r.pmm frame pmm').mp hcall
  have hclear (hset : bitAt r.pmm.bitmap idx = true) : False := by
    rw [hfirst.clear] at hset
    exact Bool.false_ne_true hset
  have hkeep (n : Nat) (hset : bitAt r.pmm.bitmap n = true) :
      bitAt (bitmapSet r.pmm.bitmap idx) n = true := by
    simp [hset]
  refine ⟨hinv.bitCount_eq, fun n hn => hkeep n (hinv.reserved n hn),
    fun n hn hlt => hkeep n (hinv.tables n hn hlt), ?_⟩
  intro frame hframe
  rcases List.mem_cons.mp hframe with rfl | hold
  · have hlt : idx < bitCount := hinv.bitCount_eq ▸ hfirst.lt
    exact frameSafe_of_page (fun h => hclear (hinv.reserved idx h))
      (fun h => hclear (hinv.tables idx h hlt))
  · exact hinv.frames frame hold

theorem bootStep_inv {r' : BootRun} (hinv : BootInv bitCount r) (hstep : BootStep debug r r') :
    BootInv bitCount r' := by
  cases hstep with
  | gdt _ hcall => exact hinv.alloc hcall .tss
  | tss _ hcall => exact hinv.alloc hcall .paging
  | alloc _ hcall => exact hinv.alloc hcall .later
  | paging _ =>
    exact ⟨hinv.bitCount_eq, fun n hn => bitAt_markUsed_of_set (hinv.reserved n hn),
      fun n hn hlt => bitAt_markUsed_of_set (hinv.tables n hn hlt), hinv.frames⟩
  | @write bitmap hsame =>
    -- all these pages have their bits in the bitmap proper
    have hbit (n : Nat) (hn : n < 1536) : bitAt bitmap n = bitAt r.pmm.bitmap n := by
      unfold bitAt
      rw [hsame _ (by unfold stage2MemoryBitmapSize; omega)]
    refine ⟨hinv.bitCount_eq, ?_, ?_, hinv.frames⟩
    · intro n hn
      have hbound : n < 448 ∨ 1024 ≤ n ∧ n < 1536 := hn
      exact (hbit n (by omega)).trans (hinv.reserved n hn)
    · intro n hn hlt
      have hbound : 448 ≤ n ∧ n < 457 := hn
      exact (hbit n (by omega)).trans (hinv.tables n hn hlt)

end BootInv

/-- If a bootstrap page table is marked free, the GDT goes to one. -/
theorem exists_gdt_in_tables (debug : Bool) {pmm : Pmm} {n : Nat}
    (hreserved : ∀ n, ReservedFirst n → bitAt pmm.bitmap n = true) (hn : IsTablePage n)
    (hlt : n < pmm.bitCount) (hfree : bitAt pmm.bitmap n = false) :
    ∃ frame pmm', pmmAlloc debug pmm = .ok (frame, pmm') ∧ ¬ FrameSafe frame := by
  rcases full_or_firstClear pmm.bitmap pmm.bitCount with hfull | ⟨idx, hfirst⟩
  · rw [hfull n hlt] at hfree
    exact absurd hfree (by decide)
  · refine ⟨_, _, (pmmAlloc_ok_iff debug pmm _ _).mpr ⟨idx, hfirst, rfl, rfl⟩, ?_⟩
    have hle : idx ≤ n := by
      by_contra hbelow
      rw [hfirst.below n (by omega)] at hfree
      exact absurd hfree (by decide)
    have hlow : ¬ idx < 448 := by
      intro hlow
      have hset := hreserved idx (Or.inl hlow)
      rw [hfirst.clear] at hset
      exact Bool.false_ne_true hset
    have hhigh : n < 457 := hn.2
    intro hsafe
    have htables : idx * 4096 + 4096 ≤ 0x1C0000 ∨ 0x1C0000 + 9 * 4096 ≤ idx * 4096 := hsafe.tables
    omega

/-- Every frame `kmain` allocates is safe exactly if the memory map has too many entries, or it
describes the bootstrap page tables as unusable. -/
theorem boot_frames_safe_iff (debug : Bool) (mem : ByteMem) (entries : List MemmapEntry) :
    (∀ r₀ r, kmainStart mem entries = .ok r₀ → Relation.ReflTransGen (BootStep debug) r₀ r →
      ∀ frame ∈ r.frames, FrameSafe frame) ↔
        (entries.length ≤ memmapMaxItems → TablesUnusable mem entries) := by
  have hreserved (n : Nat) (hn : ReservedFirst n) := kmainReserve_reserved mem entries hn
  unfold kmainStart
  constructor
  · intro hall hfew n hn hlt
    rw [← kmainReserve_table mem entries hn]
    by_contra hfree
    obtain ⟨frame, pmm', hcall, hunsafe⟩ :=
      exists_gdt_in_tables debug hreserved hn hlt (Bool.eq_false_of_not_eq_true hfree)
    have hstep : BootStep debug ⟨.gdt, kmainReserve mem entries, []⟩ ⟨.tss, pmm', [frame]⟩ :=
      .gdt rfl hcall
    exact hunsafe (hall _ _ (if_neg (Nat.not_lt.mpr hfew)) (.single hstep) frame
      (List.mem_singleton_self _))
  · intro htables r₀ r hcall hrun
    split at hcall
    · cases hcall
    rename_i hfew
    cases hcall
    have htables := htables (Nat.not_lt.mp hfew)
    have hstart : BootInv (kmainReserve mem entries).bitCount ⟨.gdt, kmainReserve mem entries, []⟩ :=
      ⟨rfl, hreserved, fun n hn hlt => (kmainReserve_table mem entries hn).mpr (htables n hn hlt),
        fun _ h => absurd h List.not_mem_nil⟩
    exact (run_invariant hrun hstart fun _ _ => bootStep_inv).frames

/-- 32 MiB of usable memory from one megabyte on. -/
def usualMemory : MemmapEntry := ⟨0x100000, 0, 0x2000000, 0, 1⟩

/-- With such a memory map the GDT replaces the PML4 in use. -/
theorem gdt_overwrites_pml4 :
    ∃ r₀ r, kmainStart (fun _ => 0) [usualMemory] = .ok r₀ ∧
      Relation.ReflTransGen (BootStep true) r₀ r ∧
      r.frames = [stage2Pml4Address] ∧ ¬ FrameSafe stage2Pml4Address := by
  have hfree : bitAt (kmainReserve (fun _ => 0) [usualMemory]).bitmap 448 = false := by
    apply Bool.eq_false_of_not_eq_true
    rw [kmainReserve_table _ _ (by unfold IsTablePage; decide)]
    rintro ⟨e, ⟨before, after, hsplit, -⟩, htype⟩
    have he : e ∈ [usualMemory] := by simp [hsplit]
    obtain rfl := List.mem_singleton.mp he
    exact htype rfl
  have hfirst : IsFirstClear (kmainReserve (fun _ => 0) [usualMemory]).bitmap
      (kmainReserve (fun _ => 0) [usualMemory]).bitCount 448 :=
    ⟨by decide +kernel, hfree, fun n hn => kmainReserve_reserved _ _ (Or.inl hn)⟩
  have hcall := (pmmAlloc_ok_iff true _ _ _).mpr ⟨448, hfirst, rfl, rfl⟩
  have hstep : BootStep true ⟨.gdt, kmainReserve (fun _ => 0) [usualMemory], []⟩ _ := .gdt rfl hcall
  refine ⟨_, _, rfl, .single hstep, rfl, fun hsafe => ?_⟩
  exact absurd hsafe.tables (by unfold FrameOutside; decide)

end Pristine.Kernel
