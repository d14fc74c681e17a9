import Pristine.Kernel.Sbrk

/-!
# The ELF loader

`elf64_load_executable` of `kernel/kernel/elf.c`.  The file is read through
`bsfs_fread` and `bsfs_fseeko`; the loader is written for any `Reader`, which
says what these two calls return and which bytes they copy.

The structures the loader reads into are locals or belong to the caller.  Bytes
a short read leaves untouched keep what was there before, so the previous
contents are arguments.
-/

namespace Pristine.Kernel

open Lib

/-- The two file operations the loader calls. -/
structure Reader (σ : Type) where
  /-- `bsfs_fread(size, count)`: return value, copied bytes, next state -/
  fread : σ → Nat → Nat → Int × List UInt8 × σ
  /-- `bsfs_fseeko` from the start of the file -/
  fseeko : σ → Nat → Int × σ

/-- The fields of `Elf64Ehdr` the loader and its caller use. -/
structure Elf64Ehdr where
  eIdent : List UInt8
  eType : Nat
  eEntry : Nat
  ePhoff : Nat
  ePhentsize : Nat
  ePhnum : Nat
  deriving DecidableEq, Repr

/-- The fields of `Elf64Phdr` the loader uses. -/
structure Elf64Phdr where
  pType : Nat
  pOffset : Nat
  pVaddr : Nat
  pFilesz : Nat
  pMemsz : Nat
  deriving DecidableEq, Repr

/-- `sizeof(Elf64Ehdr)`. -/
def sizeofElf64Ehdr : Nat := 64

/-- `sizeof(Elf64Phdr)`. -/
def sizeofElf64Phdr : Nat := 56

/-- `PT_LOAD`. -/
def ptLoad : Nat := 1

/-- A little-endian field of a byte buffer. -/
def fieldAt (bytes : List UInt8) (offset width : Nat) : Nat :=
  loadLE (fun i => bytes.getD i 0) offset width

def decodeElf64Ehdr (bytes : List UInt8) : Elf64Ehdr where
  eIdent := bytes.take 16
  eType := fieldAt bytes 16 2
  eEntry := fieldAt bytes 24 8
  ePhoff := fieldAt bytes 32 8
  ePhentsize := fieldAt bytes 54 2
  ePhnum := fieldAt bytes 56 2

def decodeElf64Phdr (bytes : List UInt8) : Elf64Phdr where
  pType := fieldAt bytes 0 4
  pOffset := fieldAt bytes 8 8
  pVaddr := fieldAt bytes 16 8
  pFilesz := fieldAt bytes 32 8
  pMemsz := fieldAt bytes 40 8

/-- A buffer after the first bytes were overwritten. -/
def overlay (old copied : List UInt8) : List UInt8 :=
  copied ++ old.drop copied.length

/-- `ELF_ERRORS`. -/
inductive ElfLoadError where
  | readError
  | seekError
  | invalidElfMagic
  | notElf64
  | notLittleEndian
  | notExecutable
  | malformed
  | fileszExceedsMemsz
  | phentsizeMismatch
  deriving DecidableEq, Repr

/-- `elf64_check_magic`. -/
def elf64CheckMagic (header : Elf64Ehdr) : Bool :=
  header.eIdent.take 4 = [0x7F, 0x45, 0x4C, 0x46]

/-- Copy bytes to physical memory through the direct map. -/
def writeBytes (addr : Nat) (bytes : List UInt8) : KernelM Unit := fun s =>
  .ok ((), { s with mem := storeBytes s.mem addr bytes })

/-- How many bytes of the file the loader asks for.  Below one page the count is a
signed difference that is narrowed to the `uint32_t` parameter of `bsfs_fread`. -/
def loadCount (remaining : Int) (offset : Nat) : Nat :=
  if remaining < pageSize then ((remaining - offset) % 2 ^ 32).toNat else pageSize - offset

section Loader

variable {σ : Type} (debug : Bool) (reader : Reader σ) (pml4 : Nat)

/-- The page loop for one segment: `left` pages from `addr` on.  Only the first
page has an offset. -/
def loadPages (offset addr : Nat) (remaining : Int) (file : σ) :
    Nat → KernelM (Except ElfLoadError σ)
  | 0 => pure (.ok file)
  | left + 1 => do
      let physPage ← mapFreshPage debug pml4 addr vmmFlagsUserCode
      zeroPage physPage
      if 0 < remaining then
        let (read, copied, file') := reader.fread file 1 (loadCount remaining offset)
        if read < 0 then
          return .error .readError
        else
          writeBytes (physPage + offset) copied
          loadPages 0 ((addr + pageSize) % 2 ^ 64) (remaining - read) file' left
      else
        loadPages 0 ((addr + pageSize) % 2 ^ 64) remaining file left

/-- First page of a segment, `virt_start`. -/
def Elf64Phdr.virtStart (phdr : Elf64Phdr) : Nat := alignDown phdr.pVaddr pageSize

/-- End of the last page of a segment, `virt_end`. -/
def Elf64Phdr.virtEnd (phdr : Elf64Phdr) : Nat :=
  alignUp ((phdr.pVaddr + phdr.pMemsz) % 2 ^ 64) pageSize

/-- The body of the loader's loop for a `PT_LOAD` segment. -/
def loadSegment (phdr : Elf64Phdr) (file : σ) : KernelM (Except ElfLoadError σ) :=
  let (seek, file) := reader.fseeko file phdr.pOffset
  if seek < 0 then
    pure (.error .seekError)
  else
    loadPages debug reader pml4 (phdr.pVaddr % pageSize) phdr.virtStart (toInt64 phdr.pFilesz)
      file (pagesBetween phdr.virtStart phdr.virtEnd)

/-- What the loader's loop carries: the highest segment end, the headers it has
seen (for statements about them only), and the file. -/
structure LoadState (σ : Type) where
  top : Nat
  segments : List Elf64Phdr
  file : σ

/-- The loop over the program headers from index `ph` on.  `stack` is what the
uninitialised local `phdr` holds in each iteration. -/
def loadSegments (header : Elf64Ehdr) (stack : Nat → List UInt8) (ph : Nat)
    (state : LoadState σ) : Nat → KernelM (Except ElfLoadError (LoadState σ))
  | 0 => pure (.ok state)
  | left + 1 => do
      let phOffset := (header.ePhoff + ph * header.ePhentsize) % 2 ^ 64
      let (seek, file) := reader.fseeko state.file phOffset
      if seek ≠ 0 then
        return .error .seekError
      else
        let (read, copied, file) := reader.fread file sizeofElf64Phdr 1
        let phdr := decodeElf64Phdr (overlay (stack ph) copied)
        if read < 0 then
          return .error .readError
        else if phdr.pMemsz < phdr.pFilesz then
          return .error .fileszExceedsMemsz
        else if phdr.pType = ptLoad then
          let loaded ← loadSegment debug reader pml4 phdr file
          match loaded with
          | .error err => return .error err
          | .ok file =>
            loadSegments header stack (ph + 1)
              { top := max state.top phdr.virtEnd
                segments := state.segments ++ [phdr]
                file := file } left
        else
          loadSegments header stack (ph + 1) { state with file := file } left

/-- The checks on the file header, in the loader's order. -/
def checkElf64Ehdr (header : Elf64Ehdr) : Except ElfLoadError Unit :=
  if ¬ elf64CheckMagic header then .error .invalidElfMagic
  else if header.eIdent.getD 4 0 ≠ 0x02 then .error .notElf64
  else if header.eIdent.getD 5 0 ≠ 0x01 then .error .notLittleEndian
  else if header.eType ≠ 0x02 then .error .notExecutable
  else if header.ePhentsize ≠ sizeofElf64Phdr then .error .phentsizeMismatch
  else .ok ()

/-- `Elf64LoadResult` of a successful load, with the header it stored. -/
structure LoadedElf where
  header : Elf64Ehdr
  top : Nat
  segments : List Elf64Phdr

/-- `elf64_load_executable`.  `outHeader` is the caller's header buffer before the
call. -/
def elf64LoadExecutable (outHeader : List UInt8) (stack : Nat → List UInt8) (file : σ) :
    KernelM (Except ElfLoadError LoadedElf) :=
  let (read, copied, file) := reader.fread file sizeofElf64Ehdr 1
  let header := decodeElf64Ehdr (overlay outHeader copied)
  if read < 0 then
    pure (.error .readError)
  else
    match checkElf64Ehdr header with
    | .error err => pure (.error err)
    | .ok () =>
      let (seek, file) := reader.fseeko file header.ePhoff
      if seek < 0 then
        pure (.error .malformed)
      else do
        let done ← loadSegments debug reader pml4 header stack 0 ⟨0, [], file⟩ header.ePhnum
        match done with
        | .error err => return .error err
        | .ok state => return .ok ⟨header, state.top, state.segments⟩

end Loader

/-! ## What the loader keeps -/

/-- `I` is kept when bytes inside a mapped page of the lower half change. -/
def KeptByWrites (root : Nat) (I : Machine → Prop) : Prop :=
  ∀ virt frame s s', LowerHalf (pml4Idx virt) → I s → tableAt s.mem root (pathOf virt) = some frame →
    s'.pmm = s.pmm → (∀ a, a / pageSize ≠ frame / pageSize → s'.mem a = s.mem a) → I s'

/-- `bsfs_fread` copies no more than it was asked for. -/
def Reader.Bounded {σ : Type} (reader : Reader σ) : Prop :=
  ∀ file size count, (reader.fread file size count).2.1.length ≤ size * count

/-- A reader of a fixed file: it returns what was asked for, what is left of the file,
or one block, whichever is less. -/
def idealReader (content : List UInt8) : Reader Nat where
  fread position size count :=
    let copied := (content.drop position).take (min (size * count) 4096)
    (copied.length, copied, position + copied.length)
  fseeko _ offset := (0, min offset content.length)

theorem idealReader_bounded (content : List UInt8) : (idealReader content).Bounded := by
  intro position size count
  show ((content.drop position).take (min (size * count) 4096)).length ≤ size * count
  rw [List.length_take]
  omega

/-- Seeking behind the end leaves nothing to read. -/
theorem drop_min_length (content : List UInt8) (n : Nat) :
    content.drop (min n content.length) = content.drop n := by
  rcases Nat.le_total n content.length with hle | hge
  · rw [Nat.min_eq_left hle]
  · rw [Nat.min_eq_right hge, List.drop_length, List.drop_eq_nil_of_le hge]

/-- The segment lies in the lower half, and the part of the file in its first page
does not end before the segment's offset in that page. -/
structure SegmentOk (phdr : Elf64Phdr) : Prop where
  lower : phdr.pVaddr + phdr.pMemsz ≤ 2 ^ 47
  read_in_page : phdr.pFilesz = 0 ∨ phdr.pVaddr % pageSize ≤ phdr.pFilesz

theorem loadCount_le {remaining : Int} {offset : Nat} (hoffset : offset < pageSize)
    (hremaining : (offset : Int) ≤ remaining) : offset + loadCount remaining offset ≤ pageSize := by
  unfold loadCount
  unfold pageSize at *
  split
  · rw [Int.emod_eq_of_lt (by omega) (by omega)]
    omega
  · omega

section Keeps

variable {σ : Type} {P : List (Fin 512) → Prop} {H : Fin 512 → Prop} {I : Machine → Prop}
variable {debug : Bool} {reader : Reader σ} {root : Nat} {s s' : Machine}

theorem userCode_linkFlags : LinkFlags vmmFlagsUserCode :=
  ⟨by decide, by decide, by decide, by decide⟩

/-- A fresh page that is zeroed and partly filled from the file. -/
theorem loadPage_keeps {virt frame offset : Nat} {bytes : List UInt8}
    (hpages : PageInvariant P H root I) (hwrites : KeptByWrites root I)
    (hvirt : LowerHalf (pml4Idx virt)) (hI : I s) (hfresh : FreshPage P H root virt frame s s')
    (haligned : frame % pageSize = 0) (hfit : offset + bytes.length ≤ pageSize)
    (log : List Access) :
    I { pmm := s'.pmm
        mem := storeBytes (fill s'.mem frame pageSize 0) (frame + offset) bytes
        log := log } := by
  refine hwrites virt frame s' _ hvirt (hpages.fresh virt frame s s' hvirt hI hfresh) hfresh.page
    rfl ?_
  intro a hne
  show storeBytes (fill s'.mem frame pageSize 0) (frame + offset) bytes a = s'.mem a
  have hout : a < frame ∨ frame + pageSize ≤ a := by
    unfold pageSize at *
    omega
  rw [storeBytes_of_outside _ (by omega), fill_of_outside _ hout]

theorem loadPages_keeps (htracks : Tracks P H) (hlow : ∀ i, LowerHalf i → H i)
    (hpages : PageInvariant P H root I) (hwrites : KeptByWrites root I)
    (hreader : reader.Bounded) {left offset addr : Nat} {remaining : Int} {file : σ}
    {result : Except ElfLoadError σ} (hoffset : offset < pageSize)
    (hremaining : (offset : Int) ≤ remaining ∨ remaining ≤ 0)
    (haddr : addr + left * pageSize ≤ 2 ^ 47) (hI : I s)
    (hcall : loadPages debug reader root offset addr remaining file left s = .ok (result, s')) :
    I s' := by
  induction left generalizing offset addr remaining file s with
  | zero =>
    obtain ⟨-, rfl⟩ := pure_ok_iff.mp hcall
    exact hI
  | succ left ih =>
    have hpos : 0 < pageSize := by decide
    have hlt : addr < 2 ^ 47 := by
      rw [Nat.add_mul] at haddr
      omega
    have hvirt : LowerHalf (pml4Idx addr) := lowerHalf_of_lt hlt
    have hH := hlow _ hvirt
    have hnext : (addr + pageSize) % 2 ^ 64 + left * pageSize ≤ 2 ^ 47 := by
      rw [Nat.add_mul] at haddr
      omega
    obtain ⟨frame, t, hpage, hcall⟩ := bind_ok_iff.mp hcall
    have hfresh := mapFreshPage_effect htracks (hpages.owned s hI) hH userCode_linkFlags hpage
    have haligned := hfresh.owned.tree.aligned _ _ (htracks.pathOf hH) hfresh.page
    obtain ⟨_, u, hzero, hcall⟩ := bind_ok_iff.mp hcall
    obtain rfl := zeroPage_ok_iff.mp hzero
    -- a page that gets no bytes of the file
    have hempty (log : List Access) :
        I { pmm := t.pmm, mem := fill t.mem frame pageSize 0, log := log } := by
      rw [← storeBytes_nil (fill t.mem frame pageSize 0) (frame + 0)]
      exact loadPage_keeps hpages hwrites hvirt hI hfresh haligned (Nat.zero_le pageSize) log
    split at hcall
    · rename_i hmore
      have hfits := hreader file 1 (loadCount remaining offset)
      generalize reader.fread file 1 (loadCount remaining offset) = answer at hcall hfits
      obtain ⟨read, copied, file'⟩ := answer
      have hcount := loadCount_le hoffset (by omega : (offset : Int) ≤ remaining)
      rw [Nat.one_mul] at hfits
      dsimp only at hcall hfits
      split at hcall
      · obtain ⟨-, rfl⟩ := pure_ok_iff.mp hcall
        exact hempty _
      · obtain ⟨_, v, hwrite, hcall⟩ := bind_ok_iff.mp hcall
        cases hwrite
        refine ih hpos ?_ hnext (loadPage_keeps hpages hwrites hvirt hI hfresh haligned ?_ _) hcall
        · omega
        · exact Nat.le_trans (Nat.add_le_add_left hfits offset) hcount
    · exact ih hpos (Or.inr (by omega)) hnext (hempty _) hcall

theorem Elf64Phdr.pages_le {phdr : Elf64Phdr} (hlower : phdr.pVaddr + phdr.pMemsz ≤ 2 ^ 47) :
    phdr.virtStart + pagesBetween phdr.virtStart phdr.virtEnd * pageSize ≤ 2 ^ 47 := by
  unfold Elf64Phdr.virtStart Elf64Phdr.virtEnd alignDown pagesBetween
  rw [alignUp_pageSize, and_pageMask (by omega)]
  unfold pageSize
  omega

theorem loadSegment_keeps (htracks : Tracks P H) (hlow : ∀ i, LowerHalf i → H i)
    (hpages : PageInvariant P H root I) (hwrites : KeptByWrites root I)
    (hreader : reader.Bounded) {phdr : Elf64Phdr} {file : σ} {result : Except ElfLoadError σ}
    (hok : SegmentOk phdr) (hfilesz : phdr.pFilesz ≤ phdr.pMemsz) (hI : I s)
    (hcall : loadSegment debug reader root phdr file s = .ok (result, s')) : I s' := by
  unfold loadSegment at hcall
  generalize reader.fseeko file phdr.pOffset = answer at hcall
  obtain ⟨seek, file'⟩ := answer
  dsimp only at hcall
  split at hcall
  · obtain ⟨-, rfl⟩ := pure_ok_iff.mp hcall
    exact hI
  · have hlower := hok.lower
    have hsigned : toInt64 phdr.pFilesz = phdr.pFilesz := by
      unfold toInt64
      rw [if_neg (by omega)]
    refine loadPages_keeps htracks hlow hpages hwrites hreader (Nat.mod_lt _ (by decide)) ?_
      (Elf64Phdr.pages_le hlower) hI hcall
    rw [hsigned]
    rcases hok.read_in_page with hzero | hle
    · omega
    · omega

/-- One iteration of a loop that succeeds: the header is skipped, or its segment is
loaded. -/
theorem loadSegments_succ_ok {header : Elf64Ehdr} {stack : Nat → List UInt8} {ph left : Nat}
    {state state' : LoadState σ}
    (hcall : loadSegments debug reader root header stack ph state (left + 1) s =
      .ok (.ok state', s')) :
    ∃ phdr, decodeElf64Phdr (overlay (stack ph) (reader.fread (reader.fseeko state.file
        ((header.ePhoff + ph * header.ePhentsize) % 2 ^ 64)).2 sizeofElf64Phdr 1).2.1) = phdr ∧
      phdr.pFilesz ≤ phdr.pMemsz ∧
      ((phdr.pType ≠ ptLoad ∧ ∃ file, loadSegments debug reader root header stack (ph + 1)
          { state with file := file } left s = .ok (.ok state', s')) ∨
        (phdr.pType = ptLoad ∧ ∃ file file' t,
          loadSegment debug reader root phdr file s = .ok (.ok file', t) ∧
          loadSegments debug reader root header stack (ph + 1)
            ⟨max state.top phdr.virtEnd, state.segments ++ [phdr], file'⟩ left t =
              .ok (.ok state', s'))) := by
  unfold loadSegments at hcall
  dsimp only at hcall
  split_ifs at hcall with hseek hread hfilesz htype
  · cases hcall
  · cases hcall
  · cases hcall
  · obtain ⟨loaded, t, hload, hcall⟩ := bind_ok_iff.mp hcall
    cases loaded with
    | error err => cases hcall
    | ok file' => exact ⟨_, rfl, Nat.le_of_not_lt hfilesz, Or.inr ⟨htype, _, file', t, hload, hcall⟩⟩
  · exact ⟨_, rfl, Nat.le_of_not_lt hfilesz, Or.inl ⟨htype, _, hcall⟩⟩

theorem loadSegments_subset {header : Elf64Ehdr} {stack : Nat → List UInt8} {ph left : Nat}
    {state state' : LoadState σ}
    (hcall : loadSegments debug reader root header stack ph state left s =
      .ok (.ok state', s')) : state.segments ⊆ state'.segments := by
  induction left generalizing ph state s with
  | zero =>
    obtain ⟨hstate, rfl⟩ := pure_ok_iff.mp hcall
    cases hstate
    exact List.Subset.refl _
  | succ left ih =>
    obtain ⟨phdr, -, -, ⟨-, file, hrest⟩ | ⟨-, file, file', t, -, hrest⟩⟩ := loadSegments_succ_ok hcall
    · have hsub := ih hrest
      exact hsub
    · exact List.Subset.trans (List.subset_append_left _ _) (ih hrest)

theorem loadSegments_keeps (htracks : Tracks P H) (hlow : ∀ i, LowerHalf i → H i)
    (hpages : PageInvariant P H root I) (hwrites : KeptByWrites root I)
    (hreader : reader.Bounded) {header : Elf64Ehdr} {stack : Nat → List UInt8} {ph left : Nat}
    {state state' : LoadState σ} (hok : ∀ phdr ∈ state'.segments, SegmentOk phdr) (hI : I s)
    (hcall : loadSegments debug reader root header stack ph state left s =
      .ok (.ok state', s')) : I s' := by
  induction left generalizing ph state s with
  | zero =>
    obtain ⟨-, rfl⟩ := pure_ok_iff.mp hcall
    exact hI
  | succ left ih =>
    obtain ⟨phdr, -, hfilesz, ⟨-, file, hrest⟩ | ⟨-, file, file', t, hload, hrest⟩⟩ :=
      loadSegments_succ_ok hcall
    · exact ih hI hrest
    · have hphdr : SegmentOk phdr := hok phdr (loadSegments_subset hrest (by simp))
      exact ih (loadSegment_keeps htracks hlow hpages hwrites hreader hphdr hfilesz hI hload) hrest

/-- A load that succeeds is a successful run of the loop. -/
theorem elf64LoadExecutable_ok {outHeader : List UInt8} {stack : Nat → List UInt8} {file : σ}
    {loaded : LoadedElf} {header : Elf64Ehdr}
    (hheader : decodeElf64Ehdr (overlay outHeader (reader.fread file sizeofElf64Ehdr 1).2.1) = header)
    (hcall : elf64LoadExecutable debug reader root outHeader stack file s =
      .ok (.ok loaded, s')) :
    ∃ file' state, loadSegments debug reader root header stack 0 ⟨0, [], file'⟩ header.ePhnum s =
      .ok (.ok state, s') ∧ loaded.top = state.top ∧ loaded.segments = state.segments := by
  unfold elf64LoadExecutable at hcall
  dsimp only at hcall
  rw [hheader] at hcall
  split at hcall
  · cases hcall
  · cases hcheck : checkElf64Ehdr header with
    | error err =>
      rw [hcheck] at hcall
      cases hcall
    | ok u =>
      rw [hcheck] at hcall
      dsimp only at hcall
      split at hcall
      · cases hcall
      · obtain ⟨done, t, hload, hcall⟩ := bind_ok_iff.mp hcall
        cases done with
        | error err => cases hcall
        | ok state =>
          cases hcall
          exact ⟨_, state, hload, rfl, rfl⟩

/-- A load that succeeds keeps what page operations and writes to mapped pages
keep. -/
theorem elf64LoadExecutable_keeps (htracks : Tracks P H) (hlow : ∀ i, LowerHalf i → H i)
    (hpages : PageInvariant P H root I) (hwrites : KeptByWrites root I)
    (hreader : reader.Bounded) {outHeader : List UInt8} {stack : Nat → List UInt8} {file : σ}
    {loaded : LoadedElf} (hok : ∀ phdr ∈ loaded.segments, SegmentOk phdr) (hI : I s)
    (hcall : elf64LoadExecutable debug reader root outHeader stack file s =
      .ok (.ok loaded, s')) : I s' := by
  obtain ⟨file', state, hload, -, hsegments⟩ := elf64LoadExecutable_ok rfl hcall
  rw [hsegments] at hok
  exact loadSegments_keeps htracks hlow hpages hwrites hreader hok hI hload

end Keeps

end Pristine.Kernel
