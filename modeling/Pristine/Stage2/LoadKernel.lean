import Pristine.Kernel.Elf

/-!
# Loading the kernel in stage 2

The last part of `stage2_boot` reads the headers of `kernel.elf` and copies its
segments to their physical addresses.  Stage 2 is 32-bit code: addresses and the
count of `memset` are reduced modulo `2 ^ 32`, the number of bytes still to copy is
a signed 64-bit number, and the copy loop goes on until that number is zero however
little `bsfs_fread` returns.

Behind the loop the page tables and the GDT are written, over whatever a segment has
put there.  A segment may also lie over the loader's own code, stack and buffers; the
model does not follow such a run any further (`Stop.overwritten`).

* `loadsKernel_iff`: for which files the load ends, with all segments in place at the
  jump.
* `longSegment_hangs`: a segment that reaches past the end of the file is copied for ever.
-/

namespace Pristine.Stage2

open Lib Kernel

/-- `header.block_size`. -/
def blockSize : Nat := 4096

/-- The program header with the field that only stage 2 uses. -/
structure Elf64LoadPhdr extends Elf64Phdr where
  pPaddr : Nat
  deriving DecidableEq, Repr

def decodeElf64LoadPhdr (bytes : List UInt8) : Elf64LoadPhdr where
  toElf64Phdr := decodeElf64Phdr bytes
  pPaddr := fieldAt bytes 24 8

/-- The panics of the loader, in the order of the source. -/
inductive LoadPanic where
  | readHeader
  | malformedHeader
  | notElf64
  | notLittleEndian
  | notExecutable
  | malformedBinary
  | phentsize
  | seekPhdr (ph : Nat)
  | readPhdr (ph : Nat)
  | fileszExceedsMemsz (filesz memsz : Nat)
  | seekSegment
  | readSegment
  deriving DecidableEq, Repr

/-- The ways to end before the jump. -/
inductive Stop where
  | panic (reason : LoadPanic)
  | overwritten
  deriving DecidableEq, Repr

/-- The memory that stage 2 itself uses while it loads: code, data and arena, which are linked to start
at 0x7E00, and the stack below 0x1FFFF8. -/
structure LoaderMemory where
  own : Nat → Bool
  linked : own 0x7E00 = true
  stack : own 0x1FFFF4 = true

/-- Some of the `count` bytes from `addr` on belong to the loader. -/
def LoaderMemory.meets (loader : LoaderMemory) (addr count : Nat) : Prop :=
  ∃ i < count, loader.own ((addr + i) % 2 ^ 32) = true

instance (loader : LoaderMemory) (addr count : Nat) : Decidable (loader.meets addr count) :=
  inferInstanceAs (Decidable (∃ i < count, loader.own ((addr + i) % 2 ^ 32) = true))

/-- Where an address lies in a range that starts at `addr`, around the end of memory. -/
def distance32 (addr a : Nat) : Nat := (a + 2 ^ 32 - addr) % 2 ^ 32

/-- `memcpy` to `addr` in 32-bit memory. -/
def store32 (mem : ByteMem) (addr : Nat) (bytes : List UInt8) : ByteMem := fun a =>
  if a < 2 ^ 32 ∧ distance32 addr a < bytes.length then bytes.getD (distance32 addr a) 0 else mem a

/-- `memset(addr, 0, count)` in 32-bit memory. -/
def clear32 (mem : ByteMem) (addr count : Nat) : ByteMem := fun a =>
  if a < 2 ^ 32 ∧ distance32 addr a < count then 0 else mem a

section Loader

variable {σ : Type} (reader : Reader σ) (loader : LoaderMemory)

/-- The copy loop.  `fuel` bounds the number of passes. -/
def copySegment : Nat → Int → Nat → σ → ByteMem → Option (Except Stop (Nat × σ × ByteMem))
  | 0, _, _, _, _ => none
  | fuel + 1, remaining, phaddr, file, mem =>
    if 0 < remaining then
      let count := if remaining < blockSize then remaining.toNat else blockSize
      let (read, copied, file) := reader.fread file 1 count
      if read < 0 then
        some (.error (.panic .readSegment))
      else if loader.meets phaddr copied.length then
        some (.error .overwritten)
      else
        copySegment fuel (remaining - read) ((phaddr + read.toNat) % 2 ^ 32) file
          (store32 mem phaddr copied)
    else
      some (.ok (phaddr, file, mem))

/-- A `PT_LOAD` segment: the copy, and the zeros behind it. -/
def loadSegment (fuel : Nat) (phdr : Elf64LoadPhdr) (file : σ) (mem : ByteMem) :
    Option (Except Stop (σ × ByteMem)) :=
  let (seek, file) := reader.fseeko file phdr.pOffset
  if seek < 0 then
    some (.error (.panic .seekSegment))
  else
    match copySegment reader loader fuel (toInt64 phdr.pFilesz) (phdr.pPaddr % 2 ^ 32) file mem with
    | none => none
    | some (.error stop) => some (.error stop)
    | some (.ok (phaddr, file, mem)) =>
      let count := (phdr.pMemsz - phdr.pFilesz) % 2 ^ 32
      if loader.meets phaddr count then
        some (.error .overwritten)
      else
        some (.ok (file, clear32 mem phaddr count))

/-- The loop over the program headers.  `stack` is what the local `phdr` holds before each read. -/
def loadSegments (fuel : Nat) (header : Elf64Ehdr) (stack : Nat → List UInt8) :
    Nat → Nat → σ → ByteMem → Option (Except Stop ByteMem)
  | _, 0, _, mem => some (.ok mem)
  | ph, left + 1, file, mem =>
    let (seek, file) := reader.fseeko file ((header.ePhoff + ph * header.ePhentsize) % 2 ^ 64)
    if seek < 0 then
      some (.error (.panic (.seekPhdr ph)))
    else
      let (read, copied, file) := reader.fread file header.ePhentsize 1
      if read < 0 then
        some (.error (.panic (.readPhdr ph)))
      else
        let phdr := decodeElf64LoadPhdr (overlay (stack ph) copied)
        if phdr.pMemsz < phdr.pFilesz then
          some (.error (.panic (.fileszExceedsMemsz phdr.pFilesz phdr.pMemsz)))
        else if phdr.pType = ptLoad then
          match loadSegment reader loader fuel phdr file mem with
          | none => none
          | some (.error stop) => some (.error stop)
          | some (.ok (file, mem)) => loadSegments fuel header stack (ph + 1) left file mem
        else
          loadSegments fuel header stack (ph + 1) left file mem

/-- The checks on the file header. -/
def checkHeader (header : Elf64Ehdr) (seek : Int) : Option LoadPanic :=
  if ¬ elf64CheckMagic header then some .malformedHeader
  else if header.eIdent.getD 4 0 ≠ 0x02 then some .notElf64
  else if header.eIdent.getD 5 0 ≠ 0x01 then some .notLittleEndian
  else if header.eType ≠ 0x02 then some .notExecutable
  else if seek < 0 then some .malformedBinary
  else if header.ePhentsize ≠ sizeofElf64Phdr then some .phentsize
  else none

/-- `__pg_pml4` -/
def pgPml4 : Nat := 0x1C0000

/-- `__pg_pdpt_kernel` -/
def pgPdptKernel : Nat := 0x1C1000

/-- `__pg_pdpt_higher_half` -/
def pgPdptHigherHalf : Nat := 0x1C2000

/-- `__pg_pdpt_ident` -/
def pgPdptIdent : Nat := 0x1C3000

/-- `__pg_pd_kernel` -/
def pgPdKernel : Nat := 0x1C4000

/-- `__pg_pd_ident` -/
def pgPdIdent : Nat := 0x1C5000

/-- `__pg_pt_ident0` -/
def pgPtIdent0 : Nat := 0x1C6000

/-- `__pg_pt_ident1` -/
def pgPtIdent1 : Nat := 0x1C7000

/-- `STAGE2_GDT_ADDRESS`, to which `__gdt` points. -/
def stage2GdtAddress : Nat := 0x7300

/-- `table[index] = value` for a table of 64-bit entries: the address and the bytes. -/
def setEntry (table index value : Nat) : Nat × List UInt8 :=
  (table + 8 * index, (List.range 8).map (byteOf value))

/-- What `gdt_set_entry` stores. -/
def gdtEntry (base limit access flags : Nat) : Nat :=
  (limit &&& 0xFFFF) ||| (base &&& 0xFFFF) <<< 16 ||| (base >>> 16 &&& 0xFF) <<< 32 |||
    access <<< 40 ||| (limit >>> 16 &&& 0xF) <<< 48 ||| flags <<< 52 ||| (base >>> 24 &&& 0xFF) <<< 56

/-- What `stage2_boot` stores between the last segment and the jump, outside its own memory.  A `size_t`
has 32 bits here, so that the fifth entry of the higher half is the first one again. -/
def handoffStores : List (Nat × List UInt8) :=
  [pgPml4, pgPdptKernel, pgPdptHigherHalf, pgPdKernel].map (·, List.replicate 4096 0) ++
  [setEntry pgPml4 0 (pgPdptIdent ||| 0x03), setEntry pgPml4 256 (pgPdptHigherHalf ||| 0x03),
    setEntry pgPml4 511 (pgPdptKernel ||| 0x03), setEntry pgPdptKernel 510 (pgPdKernel ||| 0x03),
    setEntry pgPdptIdent 0 (pgPdIdent ||| 0x03), setEntry pgPdIdent 0 (pgPtIdent0 ||| 0x03),
    setEntry pgPdIdent 1 (pgPtIdent1 ||| 0x03)] ++
  (List.range 4).map (fun i => setEntry pgPdKernel i (i * 0x200000 ||| 0x83)) ++
  (List.range 512).map (fun i => setEntry pgPdptHigherHalf i (i * 0x40000000 % 2 ^ 32 ||| 0x83)) ++
  (List.range 512).flatMap (fun i => [setEntry pgPtIdent0 i (i * 0x1000 ||| 0x03),
    setEntry pgPtIdent1 i (i * 0x1000 + 0x200000 ||| 0x03)]) ++
  [setEntry stage2GdtAddress 0 (gdtEntry 0 0 0 0), setEntry stage2GdtAddress 1 (gdtEntry 0 0xFFFFF 0x9A 0xA),
    setEntry stage2GdtAddress 2 (gdtEntry 0 0xFFFFF 0x92 0xC)]

/-- The page tables and the GDT are set up. -/
def handoff (mem : ByteMem) : ByteMem := handoffStores.foldl (fun mem w => storeBytes mem w.1 w.2) mem

/-- `stage2_boot` from the checksum of `kernel.elf` to the jump; the result is the memory at the jump.
The first read is compared as an unsigned number, so an error code would pass. -/
def loadKernel (fuel : Nat) (ehdr : List UInt8) (stack : Nat → List UInt8) (file : σ)
    (mem : ByteMem) : Option (Except Stop ByteMem) :=
  let (_, file) := reader.fseeko file 0
  let (read, copied, file) := reader.fread file sizeofElf64Ehdr 1
  if read % 2 ^ 32 < sizeofElf64Ehdr then
    some (.error (.panic .readHeader))
  else
    let header := decodeElf64Ehdr (overlay ehdr copied)
    let (seek, file) := reader.fseeko file header.ePhoff
    match checkHeader header seek with
    | some reason => some (.error (.panic reason))
    | none =>
      (loadSegments reader loader fuel header stack 0 header.ePhnum file mem).map (Except.map handoff)

end Loader

/-! ## The property -/

section Property

variable (content : List UInt8) (loader : LoaderMemory)

/-- The byte that belongs at offset `i` of a segment, if the file has it. -/
def segmentByte (phdr : Elf64LoadPhdr) (i : Nat) : Option UInt8 :=
  if i < phdr.pFilesz then content[phdr.pOffset + i]? else some 0

/-- The segment is at its physical address, in memory that is not the loader's. -/
def Loaded (mem : ByteMem) (phdr : Elf64LoadPhdr) : Prop :=
  ∀ i < phdr.pMemsz, phdr.pPaddr + i < 2 ^ 32 ∧ loader.own (phdr.pPaddr + i) = false ∧
    segmentByte content phdr i = some (mem (phdr.pPaddr + i))

/-- The file header. -/
def elfHeader : Elf64Ehdr := decodeElf64Ehdr (content.take sizeofElf64Ehdr)

/-- Program header `ph` as the loop sees it: an entry that is not all in the file is completed by what
the stack held. -/
def phdrAt (stack : Nat → List UInt8) (ph : Nat) : Elf64LoadPhdr :=
  decodeElf64LoadPhdr (overlay (stack ph)
    ((content.drop (((elfHeader content).ePhoff + ph * sizeofElf64Phdr) % 2 ^ 64)).take sizeofElf64Phdr))

/-- The load ends, and if it ends with the jump all segments are in place. -/
def LoadsKernel (ehdr : List UInt8) (stack : Nat → List UInt8) (file : Nat) (mem : ByteMem) : Prop :=
  ∃ fuel outcome, loadKernel (idealReader content) loader fuel ehdr stack file mem = some outcome ∧
    match outcome with
    | .ok mem' => ∀ ph < (elfHeader content).ePhnum, (phdrAt content stack ph).pType = ptLoad →
        Loaded content loader mem' (phdrAt content stack ph)
    | .error (.panic _) => True
    | .error .overwritten => False

/-! ### When it holds -/

/-- The file header passes the checks. -/
def HeaderOk : Prop :=
  sizeofElf64Ehdr ≤ content.length ∧ checkHeader (elfHeader content) 0 = none

/-- The bytes that the copy loop is to copy: none if the size has the sign bit. -/
def Elf64LoadPhdr.copyCount (phdr : Elf64LoadPhdr) : Nat := (toInt64 phdr.pFilesz).toNat

/-- The file has the bytes to copy, and neither they nor the zeros go over the loader. -/
structure Finishes (phdr : Elf64LoadPhdr) : Prop where
  in_file : phdr.copyCount = 0 ∨ phdr.pOffset + phdr.copyCount ≤ content.length
  copy : ¬ loader.meets phdr.pPaddr phdr.copyCount
  zeros : ¬ loader.meets (phdr.pPaddr + phdr.copyCount) ((phdr.pMemsz - phdr.pFilesz) % 2 ^ 32)

/-- The segment has an address below 4 GiB, its bytes are in the file and its place is not the
loader's. -/
structure Placed (phdr : Elf64LoadPhdr) : Prop where
  below : phdr.pPaddr + phdr.pMemsz ≤ 2 ^ 32
  in_file : phdr.pFilesz = 0 ∨ phdr.pOffset + phdr.pFilesz ≤ content.length
  apart : ∀ i < phdr.pMemsz, loader.own (phdr.pPaddr + i) = false

/-- Where two segments overlap they want the same byte. -/
def Agree (phdr phdr' : Elf64LoadPhdr) : Prop :=
  ∀ i < phdr.pMemsz, ∀ j < phdr'.pMemsz, phdr.pPaddr + i = phdr'.pPaddr + j →
    segmentByte content phdr i = segmentByte content phdr' j

/-- The last of some stores to an address. -/
def lastStore (stores : List (Nat × List UInt8)) (a : Nat) : Option UInt8 :=
  stores.foldl (fun b w => if w.1 ≤ a ∧ a < w.1 + w.2.length then some (w.2.getD (a - w.1) 0) else b) none

/-- Every segment before the first panic can be copied; and if there is no panic every segment has its
place, and none is in conflict with another one or with the page tables and the GDT. -/
structure SegmentsOk (count : Nat) (phdrs : Nat → Elf64LoadPhdr) : Prop where
  finishes : ∀ ph < count, (∀ k ≤ ph, (phdrs k).pFilesz ≤ (phdrs k).pMemsz) →
    (phdrs ph).pType = ptLoad → Finishes content loader (phdrs ph)
  placed : (∀ k < count, (phdrs k).pFilesz ≤ (phdrs k).pMemsz) → ∀ ph < count,
    (phdrs ph).pType = ptLoad → (phdrs ph).pMemsz ≠ 0 → Placed content loader (phdrs ph)
  agree : (∀ k < count, (phdrs k).pFilesz ≤ (phdrs k).pMemsz) → ∀ j < count, ∀ k < count,
    (phdrs j).pType = ptLoad → (phdrs k).pType = ptLoad → Agree content (phdrs j) (phdrs k)
  tables : (∀ k < count, (phdrs k).pFilesz ≤ (phdrs k).pMemsz) → ∀ ph < count,
    (phdrs ph).pType = ptLoad → ∀ i < (phdrs ph).pMemsz, ∀ b,
      lastStore handoffStores ((phdrs ph).pPaddr + i) = some b →
        segmentByte content (phdrs ph) i = some b

end Property

/-! ## Memory -/

section Memory

variable {mem : ByteMem} {addr a n : Nat} {bytes : List UInt8}

theorem distance32_lt_iff (haddr : addr < 2 ^ 32) :
    a < 2 ^ 32 ∧ distance32 addr a < n ↔ ∃ i < n, a = (addr + i) % 2 ^ 32 := by
  unfold distance32
  constructor
  · rintro ⟨ha, hlt⟩
    exact ⟨_, hlt, by omega⟩
  · rintro ⟨i, hi, rfl⟩
    omega

theorem store32_of_outside (haddr : addr < 2 ^ 32)
    (hout : ∀ i < bytes.length, a ≠ (addr + i) % 2 ^ 32) : store32 mem addr bytes a = mem a := by
  unfold store32
  rw [if_neg]
  rw [distance32_lt_iff haddr]
  rintro ⟨i, hi, ha⟩
  exact hout i hi ha

theorem store32_inside (hend : addr + bytes.length ≤ 2 ^ 32) {i : Nat} (hi : i < bytes.length) :
    store32 mem addr bytes (addr + i) = bytes.getD i 0 := by
  have hdist : distance32 addr (addr + i) = i := by
    unfold distance32
    omega
  unfold store32
  rw [hdist, if_pos ⟨by omega, hi⟩]

theorem clear32_of_outside (haddr : addr < 2 ^ 32) (hout : ∀ i < n, a ≠ (addr + i) % 2 ^ 32) :
    clear32 mem addr n a = mem a := by
  unfold clear32
  rw [if_neg]
  rw [distance32_lt_iff haddr]
  rintro ⟨i, hi, ha⟩
  exact hout i hi ha

variable (mem) in
theorem clear32_inside (haddr : addr < 2 ^ 32) {i : Nat} (hi : i < n) :
    clear32 mem addr n ((addr + i) % 2 ^ 32) = 0 := by
  unfold clear32
  rw [if_pos ((distance32_lt_iff haddr).mpr ⟨i, hi, rfl⟩)]

theorem foldl_storeBytes (stores : List (Nat × List UInt8)) (mem : ByteMem) (a : Nat) :
    stores.foldl (fun mem w => storeBytes mem w.1 w.2) mem a = (lastStore stores a).getD (mem a) := by
  have hstep (b : Option UInt8) (stores : List (Nat × List UInt8)) (mem mem' : ByteMem)
      (hb : mem' a = b.getD (mem a)) : stores.foldl (fun mem w => storeBytes mem w.1 w.2) mem' a =
      (stores.foldl (fun b w => if w.1 ≤ a ∧ a < w.1 + w.2.length then some (w.2.getD (a - w.1) 0)
        else b) b).getD (mem a) := by
    induction stores generalizing b mem' with
    | nil => exact hb
    | cons w stores ih =>
      refine ih _ _ ?_
      unfold storeBytes
      dsimp only
      split
      · rfl
      · exact hb
  exact hstep none stores mem mem rfl

end Memory

/-! ## One segment -/

section Segment

variable {content : List UInt8} {loader : LoaderMemory}

/-- The effect of the copy loop: `n` bytes of the file from `pos` on are at `addr`. -/
structure Copied (content : List UInt8) (pos n addr : Nat) (mem mem' : ByteMem) : Prop where
  outside : ∀ a, (∀ i < n, a ≠ (addr + i) % 2 ^ 32) → mem' a = mem a
  bytes : addr + n ≤ 2 ^ 32 → ∀ i < n, content[pos + i]? = some (mem' (addr + i))

theorem getElem?_chunk {pos k i : Nat} (hi : i < ((content.drop pos).take k).length) :
    content[pos + i]? = some (((content.drop pos).take k).getD i 0) := by
  rw [List.getD_eq_getElem?_getD, List.getElem?_eq_getElem hi, Option.getD_some,
    ← List.getElem?_eq_getElem hi]
  simp only [List.length_take, List.length_drop] at hi
  rw [List.getElem?_take_of_lt (by omega), List.getElem?_drop]

/-- A first piece and the rest. -/
theorem Copied.cons {pos n addr : Nat} {mem mem' : ByteMem} {copied : List UInt8}
    (hrest : Copied content (pos + copied.length) (n - copied.length)
      ((addr + copied.length) % 2 ^ 32) (store32 mem addr copied) mem')
    (haddr : addr < 2 ^ 32) (hlen : copied.length ≤ n)
    (hcopied : ∀ i < copied.length, content[pos + i]? = some (copied.getD i 0)) :
    Copied content pos n addr mem mem' := by
  constructor
  · intro a hout
    rw [hrest.outside a, store32_of_outside haddr fun i hi => hout i (by omega)]
    intro i hi ha
    refine hout (copied.length + i) (by omega) ?_
    omega
  · intro hend i hi
    rcases Nat.lt_or_ge i copied.length with hlt | hge
    · rw [hcopied i hlt, hrest.outside, store32_inside (by omega) hlt]
      intro j hj
      omega
    · have hbyte := hrest.bytes (by omega) (i - copied.length) (by omega)
      rw [show pos + copied.length + (i - copied.length) = pos + i by omega,
        show (addr + copied.length) % 2 ^ 32 + (i - copied.length) = addr + i by omega] at hbyte
      exact hbyte

/-- One pass of the copy loop. -/
theorem copySegment_succ {fuel pos addr : Nat} {remaining : Int} {mem : ByteMem}
    (hpos : 0 < remaining) {copied : List UInt8}
    (hcopied : copied = (content.drop pos).take (min remaining.toNat 4096)) :
    copySegment (idealReader content) loader (fuel + 1) remaining addr pos mem =
      if loader.meets addr copied.length then some (.error .overwritten)
      else copySegment (idealReader content) loader fuel (remaining - copied.length)
        ((addr + copied.length) % 2 ^ 32) (pos + copied.length) (store32 mem addr copied) := by
  have hread : (idealReader content).fread pos 1
      (if remaining < blockSize then remaining.toNat else blockSize) =
        ((copied.length : Int), copied, pos + copied.length) := by
    have hcount : min (1 * if remaining < blockSize then remaining.toNat else blockSize) 4096 =
        min remaining.toNat 4096 := by
      unfold blockSize
      split <;> omega
    show (_, (content.drop pos).take (min (1 * _) 4096), _) = _
    rw [hcount, ← hcopied]
  rw [copySegment, if_pos hpos]
  simp only [hread]
  rw [if_neg (by omega), Int.toNat_natCast]

/-- A copy that the file has the bytes for, into memory that is not the loader's. -/
theorem copySegment_ok {fuel pos addr n : Nat} {remaining : Int} (mem : ByteMem)
    (hn : remaining.toNat = n) (hfuel : n < fuel) (haddr : addr < 2 ^ 32)
    (hfile : n = 0 ∨ pos + n ≤ content.length) (hown : ¬ loader.meets addr n) :
    ∃ mem', copySegment (idealReader content) loader fuel remaining addr pos mem =
      some (.ok ((addr + n) % 2 ^ 32, pos + n, mem')) ∧ Copied content pos n addr mem mem' := by
  induction n using Nat.strong_induction_on generalizing fuel pos addr remaining mem with
  | _ n ih =>
    obtain ⟨fuel, rfl⟩ : ∃ k, fuel = k + 1 := Nat.exists_eq_add_one.mpr (by omega)
    rcases Nat.eq_zero_or_pos n with rfl | hpos
    · refine ⟨mem, ?_, fun a _ => rfl, fun _ i hi => absurd hi (Nat.not_lt_zero i)⟩
      rw [copySegment, if_neg (by omega), Nat.add_zero, Nat.add_zero, Nat.mod_eq_of_lt haddr]
    · have hfile := hfile.resolve_left (by omega)
      have hlen : ((content.drop pos).take (min remaining.toNat 4096)).length = min n 4096 := by
        rw [List.length_take, List.length_drop]
        omega
      generalize hcopied : (content.drop pos).take (min remaining.toNat 4096) = copied at hlen
      have hfirst : ¬ loader.meets addr copied.length := fun ⟨i, hi, hmeets⟩ =>
        hown ⟨i, by omega, hmeets⟩
      have hrest : ¬ loader.meets ((addr + copied.length) % 2 ^ 32) (n - copied.length) := by
        rintro ⟨i, hi, hmeets⟩
        refine hown ⟨copied.length + i, by omega, ?_⟩
        rwa [show (addr + (copied.length + i)) % 2 ^ 32 =
          ((addr + copied.length) % 2 ^ 32 + i) % 2 ^ 32 by omega]
      obtain ⟨mem', hcall, hdone⟩ := ih (n - copied.length) (by omega) (store32 mem addr copied)
        (show (remaining - copied.length).toNat = n - copied.length by omega)
        (show n - copied.length < fuel by omega) (Nat.mod_lt _ (by decide))
        (show _ ∨ pos + copied.length + (n - copied.length) ≤ content.length by omega) hrest
      refine ⟨mem', ?_, hdone.cons haddr (by omega) (hcopied ▸ fun i => getElem?_chunk)⟩
      rw [copySegment_succ (by omega) hcopied.symm, if_neg hfirst, hcall,
        show ((addr + copied.length) % 2 ^ 32 + (n - copied.length)) % 2 ^ 32 =
          (addr + n) % 2 ^ 32 by omega,
        show pos + copied.length + (n - copied.length) = pos + n by omega]

/-- A copy that ends without going over the loader is one that the file has the bytes for. -/
theorem copySegment_inv {fuel pos addr : Nat} {remaining : Int} {mem : ByteMem}
    {r : Except Stop (Nat × Nat × ByteMem)} (haddr : addr < 2 ^ 32)
    (hcall : copySegment (idealReader content) loader fuel remaining addr pos mem = some r)
    (hr : r ≠ .error .overwritten) :
    (remaining.toNat = 0 ∨ pos + remaining.toNat ≤ content.length) ∧
      ¬ loader.meets addr remaining.toNat ∧
      ∃ pos' mem', r = .ok ((addr + remaining.toNat) % 2 ^ 32, pos', mem') := by
  induction fuel generalizing remaining addr pos mem with
  | zero => cases hcall
  | succ fuel ih =>
    by_cases hpos : 0 < remaining
    · rw [copySegment_succ hpos rfl] at hcall
      have hlen : ((content.drop pos).take (min remaining.toNat 4096)).length =
          min (min remaining.toNat 4096) (content.length - pos) := by
        rw [List.length_take, List.length_drop]
      generalize (content.drop pos).take (min remaining.toNat 4096) = copied at hcall hlen
      split at hcall
      · exact absurd (Option.some.inj hcall).symm hr
      · rename_i hfirst
        obtain ⟨hfile, hrest, pos', mem', rfl⟩ := ih (Nat.mod_lt _ (by decide)) hcall
        rw [show (remaining - copied.length).toNat = remaining.toNat - copied.length by omega]
          at hfile hrest ⊢
        refine ⟨by omega, ?_, pos', mem', by
          rw [show ((addr + copied.length) % 2 ^ 32 + (remaining.toNat - copied.length)) % 2 ^ 32 =
            (addr + remaining.toNat) % 2 ^ 32 by omega]⟩
        rintro ⟨i, hi, hmeets⟩
        rcases Nat.lt_or_ge i copied.length with hlt | hge
        · exact hfirst ⟨i, hlt, hmeets⟩
        · refine hrest ⟨i - copied.length, by omega, ?_⟩
          rwa [show ((addr + copied.length) % 2 ^ 32 + (i - copied.length)) % 2 ^ 32 =
            (addr + i) % 2 ^ 32 by omega]
    · rw [copySegment, if_neg hpos] at hcall
      rw [show remaining.toNat = 0 by omega]
      obtain rfl := Option.some.inj hcall
      refine ⟨Or.inl rfl, ?_, pos, mem, by rw [Nat.add_zero, Nat.mod_eq_of_lt haddr]⟩
      rintro ⟨i, hi, -⟩
      omega

variable {phdr : Elf64LoadPhdr} {fuel pos : Nat} {mem : ByteMem}

theorem meets_mod {addr n : Nat} : loader.meets (addr % 2 ^ 32) n ↔ loader.meets addr n := by
  unfold LoaderMemory.meets
  simp only [Nat.mod_add_mod]

/-- The segment with an ideal reader: the seek succeeds. -/
theorem loadSegment_eq : loadSegment (idealReader content) loader fuel phdr pos mem =
    match copySegment (idealReader content) loader fuel (toInt64 phdr.pFilesz) (phdr.pPaddr % 2 ^ 32)
      (min phdr.pOffset content.length) mem with
    | none => none
    | some (.error stop) => some (.error stop)
    | some (.ok (phaddr, pos, mem)) =>
      if loader.meets phaddr ((phdr.pMemsz - phdr.pFilesz) % 2 ^ 32) then some (.error .overwritten)
      else some (.ok (pos, clear32 mem phaddr ((phdr.pMemsz - phdr.pFilesz) % 2 ^ 32))) := by
  have hseek : (idealReader content).fseeko pos phdr.pOffset =
      (0, min phdr.pOffset content.length) := rfl
  unfold loadSegment
  simp only [hseek, Int.lt_irrefl, if_false]
  rcases copySegment (idealReader content) loader fuel (toInt64 phdr.pFilesz) (phdr.pPaddr % 2 ^ 32)
    (min phdr.pOffset content.length) mem with _ | _ | ⟨_, _, _⟩ <;> rfl

theorem copyCount_in_file : (phdr.copyCount = 0 ∨
    min phdr.pOffset content.length + phdr.copyCount ≤ content.length) ↔
      (phdr.copyCount = 0 ∨ phdr.pOffset + phdr.copyCount ≤ content.length) := by
  omega

/-- A segment that is loaded is one that can be. -/
theorem loadSegment_inv {r : Except Stop (Nat × ByteMem)}
    (hcall : loadSegment (idealReader content) loader fuel phdr pos mem = some r)
    (hr : r ≠ .error .overwritten) : Finishes content loader phdr ∧ ∃ out, r = .ok out := by
  rw [loadSegment_eq] at hcall
  split at hcall
  · cases hcall
  · rename_i stop hcopy
    obtain rfl := Option.some.inj hcall
    have hstop : (.error stop : Except Stop (Nat × Nat × ByteMem)) ≠ .error .overwritten := by
      rintro ⟨⟩
      exact hr rfl
    obtain ⟨-, -, _, _, hok⟩ := copySegment_inv (Nat.mod_lt _ (by decide)) hcopy hstop
    cases hok
  · rename_i phaddr pos' mem' hcopy
    obtain ⟨hfile, hown, _, _, hok⟩ :=
      copySegment_inv (Nat.mod_lt _ (by decide)) hcopy (by rintro ⟨⟩)
    cases hok
    split at hcall
    · exact absurd (Option.some.inj hcall).symm hr
    · rename_i hzeros
      refine ⟨⟨copyCount_in_file.mp hfile, fun h => hown (meets_mod.mpr h), ?_⟩, _,
        (Option.some.inj hcall).symm⟩
      rw [Nat.mod_add_mod, meets_mod] at hzeros
      exact hzeros

/-- A segment in its place is not cut off by the 32-bit count of `memset`: the loader would be in it. -/
theorem Placed.zeros_count (hplaced : Placed content loader phdr) :
    (phdr.pMemsz - phdr.pFilesz) % 2 ^ 32 = phdr.pMemsz - phdr.pFilesz := by
  refine Nat.mod_eq_of_lt ?_
  have hbelow := hplaced.below
  by_contra hge
  have hown := hplaced.apart 0x7E00 (by omega)
  rw [show phdr.pPaddr = 0 by omega, Nat.zero_add, loader.linked] at hown
  cases hown

theorem Placed.copyCount_eq (hplaced : Placed content loader phdr)
    (hle : phdr.pFilesz ≤ phdr.pMemsz) : phdr.copyCount = phdr.pFilesz := by
  have hbelow := hplaced.below
  unfold Elf64LoadPhdr.copyCount toInt64
  rw [if_neg (by omega), Int.toNat_natCast]

/-- The copy and the zeros together are the segment. -/
theorem Placed.loaded {mem1 : ByteMem} (hplaced : Placed content loader phdr)
    (hle : phdr.pFilesz ≤ phdr.pMemsz) (hsize : phdr.pMemsz ≠ 0)
    (hcopied : Copied content (min phdr.pOffset content.length) phdr.copyCount
      (phdr.pPaddr % 2 ^ 32) mem mem1) :
    let mem' := clear32 mem1 ((phdr.pPaddr % 2 ^ 32 + phdr.copyCount) % 2 ^ 32)
      ((phdr.pMemsz - phdr.pFilesz) % 2 ^ 32)
    Loaded content loader mem' phdr ∧
      ∀ a, (∀ i < phdr.pMemsz, a ≠ phdr.pPaddr + i) → mem' a = mem a := by
  have hbelow := hplaced.below
  rw [hplaced.copyCount_eq hle, hplaced.zeros_count]
  rw [hplaced.copyCount_eq hle] at hcopied
  have haddr : phdr.pPaddr % 2 ^ 32 = phdr.pPaddr := Nat.mod_eq_of_lt (by omega)
  rw [haddr] at hcopied ⊢
  have hphaddr : (phdr.pPaddr + phdr.pFilesz) % 2 ^ 32 < 2 ^ 32 := Nat.mod_lt _ (by decide)
  constructor
  · intro i hi
    refine ⟨by omega, hplaced.apart i hi, ?_⟩
    unfold segmentByte
    split
    · rename_i hfile
      have hin := hplaced.in_file.resolve_left (by omega)
      have hbyte := hcopied.bytes (by omega) i hfile
      rw [Nat.min_eq_left (by omega)] at hbyte
      rw [hbyte, clear32_of_outside hphaddr]
      intro j hj
      omega
    · have hzero := clear32_inside mem1 hphaddr
        (show i - phdr.pFilesz < phdr.pMemsz - phdr.pFilesz by omega)
      rw [show ((phdr.pPaddr + phdr.pFilesz) % 2 ^ 32 + (i - phdr.pFilesz)) % 2 ^ 32 =
        phdr.pPaddr + i by omega] at hzero
      rw [hzero]
  · intro a hout
    rw [clear32_of_outside hphaddr, hcopied.outside]
    · intro i hi
      have hne := hout i (by omega)
      omega
    · intro i hi
      have hne := hout (phdr.pFilesz + i) (by omega)
      omega

variable (pos mem) in
/-- A segment that can be loaded is loaded; one that has its place is in it afterwards, and the rest of
memory is as before. -/
theorem loadSegment_ok (hfuel : content.length < fuel) (hfin : Finishes content loader phdr) :
    ∃ pos' mem', loadSegment (idealReader content) loader fuel phdr pos mem = some (.ok (pos', mem')) ∧
      (phdr.pFilesz ≤ phdr.pMemsz → (phdr.pMemsz ≠ 0 → Placed content loader phdr) →
        Loaded content loader mem' phdr ∧
          ∀ a, (∀ i < phdr.pMemsz, a ≠ phdr.pPaddr + i) → mem' a = mem a) := by
  have hfile := copyCount_in_file.mpr hfin.in_file
  obtain ⟨mem1, hcopy, hcopied⟩ := copySegment_ok mem (show (toInt64 phdr.pFilesz).toNat = _ from rfl)
    (show phdr.copyCount < fuel by omega) (Nat.mod_lt phdr.pPaddr (by decide)) hfile
    (fun h => hfin.copy (meets_mod.mp h))
  have hzeros : ¬ loader.meets ((phdr.pPaddr % 2 ^ 32 + phdr.copyCount) % 2 ^ 32)
      ((phdr.pMemsz - phdr.pFilesz) % 2 ^ 32) := by
    rw [Nat.mod_add_mod, meets_mod]
    exact hfin.zeros
  refine ⟨min phdr.pOffset content.length + phdr.copyCount,
    clear32 mem1 ((phdr.pPaddr % 2 ^ 32 + phdr.copyCount) % 2 ^ 32)
      ((phdr.pMemsz - phdr.pFilesz) % 2 ^ 32), ?_, fun hle hplaced => ?_⟩
  · rw [loadSegment_eq, hcopy]
    exact if_neg hzeros
  · by_cases hsize : phdr.pMemsz = 0
    · have hfilesz : phdr.pFilesz = 0 := by omega
      have hcount : (toInt64 phdr.pFilesz).toNat = 0 := by rw [hfilesz]; rfl
      refine ⟨fun i hi => absurd hi (by omega), fun a _ => ?_⟩
      rw [clear32_of_outside (Nat.mod_lt _ (by decide)) (fun i hi => absurd hi (by omega)),
        hcopied.outside a fun i hi => absurd hi (by omega)]
    · exact (hplaced hsize).loaded hle hsize hcopied

end Segment

/-! ## The loop over the program headers -/

section Headers

variable {content : List UInt8} {loader : LoaderMemory} {stack : Nat → List UInt8}
variable {fuel ph left pos : Nat} {mem : ByteMem}

/-- A segment stays loaded when one that agrees with it is loaded. -/
theorem Loaded.of_agree {phdr phdr' : Elf64LoadPhdr} {mem mem' : ByteMem}
    (hloaded : Loaded content loader mem phdr) (hloaded' : Loaded content loader mem' phdr')
    (hrest : ∀ a, (∀ i < phdr'.pMemsz, a ≠ phdr'.pPaddr + i) → mem' a = mem a)
    (hagree : Agree content phdr phdr') : Loaded content loader mem' phdr := by
  intro i hi
  obtain ⟨hbelow, hown, hbyte⟩ := hloaded i hi
  refine ⟨hbelow, hown, ?_⟩
  by_cases hover : ∃ j < phdr'.pMemsz, phdr.pPaddr + i = phdr'.pPaddr + j
  · obtain ⟨j, hj, haddr⟩ := hover
    rw [hagree i hi j hj haddr, haddr]
    exact (hloaded' j hj).2.2
  · rw [hrest _ fun j hj haddr => hover ⟨j, hj, haddr⟩]
    exact hbyte

/-- A segment that is loaded has its place. -/
theorem Loaded.placed {phdr : Elf64LoadPhdr} (hloaded : Loaded content loader mem phdr)
    (hle : phdr.pFilesz ≤ phdr.pMemsz) (hne : phdr.pMemsz ≠ 0) : Placed content loader phdr := by
  refine ⟨?_, ?_, fun i hi => (hloaded i hi).2.1⟩
  · have hlast := (hloaded (phdr.pMemsz - 1) (by omega)).1
    omega
  · rcases Nat.eq_zero_or_pos phdr.pFilesz with hzero | hpos
    · exact Or.inl hzero
    · right
      have hbyte := (hloaded (phdr.pFilesz - 1) (by omega)).2.2
      unfold segmentByte at hbyte
      rw [if_pos (by omega)] at hbyte
      obtain ⟨hlt, -⟩ := List.getElem?_eq_some_iff.mp hbyte
      omega

/-- Two segments that are both loaded agree. -/
theorem Loaded.agree {phdr phdr' : Elf64LoadPhdr} (hloaded : Loaded content loader mem phdr)
    (hloaded' : Loaded content loader mem phdr') : Agree content phdr phdr' := by
  intro i hi j hj haddr
  rw [(hloaded i hi).2.2, (hloaded' j hj).2.2, haddr]

variable (hsize : (elfHeader content).ePhentsize = sizeofElf64Phdr)

include hsize

variable (loader stack fuel ph left pos mem) in
/-- One pass of the loop with an ideal reader. -/
theorem loadSegments_succ :
    ∃ pos', loadSegments (idealReader content) loader fuel (elfHeader content) stack ph (left + 1) pos mem =
      if (phdrAt content stack ph).pMemsz < (phdrAt content stack ph).pFilesz then
        some (.error (.panic (.fileszExceedsMemsz (phdrAt content stack ph).pFilesz
          (phdrAt content stack ph).pMemsz)))
      else if (phdrAt content stack ph).pType = ptLoad then
        match loadSegment (idealReader content) loader fuel (phdrAt content stack ph) pos' mem with
        | none => none
        | some (.error stop) => some (.error stop)
        | some (.ok (pos, mem)) =>
          loadSegments (idealReader content) loader fuel (elfHeader content) stack (ph + 1) left pos mem
      else
        loadSegments (idealReader content) loader fuel (elfHeader content) stack (ph + 1) left pos' mem := by
  have hfread (offset : Nat) : ∃ pos',
      (idealReader content).fread (min offset content.length) sizeofElf64Phdr 1 =
        (((((content.drop offset).take sizeofElf64Phdr).length : Nat) : Int),
          (content.drop offset).take sizeofElf64Phdr, pos') := by
    rw [← drop_min_length]
    exact ⟨_, rfl⟩
  obtain ⟨pos', hread⟩ := hfread (((elfHeader content).ePhoff + ph * sizeofElf64Phdr) % 2 ^ 64)
  refine ⟨pos', ?_⟩
  have hseek (offset : Nat) : (idealReader content).fseeko pos offset =
      (0, min offset content.length) := rfl
  have hphdr : decodeElf64LoadPhdr (overlay (stack ph)
      ((content.drop (((elfHeader content).ePhoff + ph * sizeofElf64Phdr) % 2 ^ 64)).take
        sizeofElf64Phdr)) = phdrAt content stack ph := rfl
  rw [loadSegments]
  simp only [hseek, hsize, hread, hphdr, Int.lt_irrefl, if_false,
    if_neg (Int.natCast_nonneg _).not_gt]
  rcases loadSegment (idealReader content) loader fuel (phdrAt content stack ph) pos' mem
    with _ | _ | ⟨_, _⟩ <;> rfl

/-- A pass of a loop that ends without going over the loader: a panic, or the segment can be loaded and
the loop goes on. -/
theorem loadSegments_pass {r : Except Stop ByteMem}
    (hcall : loadSegments (idealReader content) loader fuel (elfHeader content) stack ph (left + 1) pos
      mem = some r) (hr : r ≠ .error .overwritten) :
    (phdrAt content stack ph).pMemsz < (phdrAt content stack ph).pFilesz ∨
      ((phdrAt content stack ph).pType = ptLoad → Finishes content loader (phdrAt content stack ph)) ∧
      ∃ pos' mem', loadSegments (idealReader content) loader fuel (elfHeader content) stack (ph + 1) left
        pos' mem' = some r := by
  obtain ⟨pos', heq⟩ := loadSegments_succ loader stack fuel ph left pos mem hsize
  rw [heq] at hcall
  split_ifs at hcall with hsizes htype
  · exact Or.inl hsizes
  · right
    cases hload : loadSegment (idealReader content) loader fuel (phdrAt content stack ph) pos' mem with
    | none =>
      rw [hload] at hcall
      cases hcall
    | some result =>
      rw [hload] at hcall
      have hresult : result ≠ .error .overwritten := by
        rintro rfl
        exact hr (Option.some.inj hcall).symm
      obtain ⟨hfin, ⟨pos'', mem'⟩, rfl⟩ := loadSegment_inv hload hresult
      exact ⟨fun _ => hfin, pos'', mem', hcall⟩
  · exact Or.inr ⟨fun h => absurd h htype, pos', mem, hcall⟩

/-- A loop that ends without going over the loader has loaded the segments before the first panic, and
without a panic it comes to the jump. -/
theorem loadSegments_inv {r : Except Stop ByteMem}
    (hcall : loadSegments (idealReader content) loader fuel (elfHeader content) stack ph left pos mem =
      some r) (hr : r ≠ .error .overwritten) :
    (∀ k, ph ≤ k → k < ph + left →
      (∀ j ≤ k, (phdrAt content stack j).pFilesz ≤ (phdrAt content stack j).pMemsz) →
      (phdrAt content stack k).pType = ptLoad → Finishes content loader (phdrAt content stack k)) ∧
    ((∀ k < ph + left, (phdrAt content stack k).pFilesz ≤ (phdrAt content stack k).pMemsz) →
      ∃ mem', r = .ok mem') := by
  induction left generalizing ph pos mem with
  | zero => exact ⟨fun k hlo hhi => absurd hhi (by omega), fun _ => ⟨mem, (Option.some.inj hcall).symm⟩⟩
  | succ left ih =>
    rcases loadSegments_pass hsize hcall hr with hpanic | ⟨hfin, pos', mem', hrest⟩
    · have hwrong := Nat.not_le.mpr hpanic
      exact ⟨fun k hlo _ hsizes => absurd (hsizes ph hlo) hwrong,
        fun hsizes => absurd (hsizes ph (by omega)) hwrong⟩
    · obtain ⟨hafter, hjump⟩ := ih hrest
      refine ⟨fun k hlo hhi hsizes htype => ?_, fun hsizes => hjump fun k hk => hsizes k (by omega)⟩
      rcases Nat.eq_or_lt_of_le hlo with rfl | hlt
      · exact hfin htype
      · exact hafter k hlt (by omega) hsizes htype

variable (pos mem) in
/-- If the segments fit, the loop ends: with a panic at a header with wrong sizes, or with all segments
loaded. -/
theorem loadSegments_ok (hfuel : content.length < fuel) {count : Nat} (hcount : ph + left = count)
    (hok : SegmentsOk content loader count (phdrAt content stack))
    (hbefore : ∀ k < ph, (phdrAt content stack k).pFilesz ≤ (phdrAt content stack k).pMemsz)
    (hdone : (∀ k < count, (phdrAt content stack k).pFilesz ≤ (phdrAt content stack k).pMemsz) →
      ∀ k < ph, (phdrAt content stack k).pType = ptLoad →
        Loaded content loader mem (phdrAt content stack k)) :
    ∃ r, loadSegments (idealReader content) loader fuel (elfHeader content) stack ph left pos mem =
      some r ∧ ((∃ reason, r = .error (.panic reason)) ∨ ∃ mem', r = .ok mem' ∧
        (∀ k < count, (phdrAt content stack k).pFilesz ≤ (phdrAt content stack k).pMemsz) ∧
        ∀ k < count, (phdrAt content stack k).pType = ptLoad →
          Loaded content loader mem' (phdrAt content stack k)) := by
  induction left generalizing ph pos mem with
  | zero =>
    obtain rfl : ph = count := hcount
    exact ⟨_, rfl, Or.inr ⟨mem, rfl, hbefore, hdone hbefore⟩⟩
  | succ left ih =>
    obtain ⟨pos', heq⟩ := loadSegments_succ loader stack fuel ph left pos mem hsize
    rw [heq]
    split
    · exact ⟨_, rfl, Or.inl ⟨_, rfl⟩⟩
    · rename_i hle
      have hbefore' : ∀ k < ph + 1, (phdrAt content stack k).pFilesz ≤
          (phdrAt content stack k).pMemsz := by
        intro k hk
        rcases Nat.lt_succ_iff_lt_or_eq.mp hk with hlt | rfl
        · exact hbefore k hlt
        · exact Nat.not_lt.mp hle
      split
      · rename_i htype
        have hfin := hok.finishes ph (by omega) (fun k hk => hbefore' k (by omega)) htype
        obtain ⟨pos'', mem', hload, heffect⟩ := loadSegment_ok pos' mem hfuel hfin
        rw [hload]
        refine ih pos'' mem' (by omega) hbefore' fun hsizes k hk htypek => ?_
        obtain ⟨hloaded, hrest⟩ := heffect (Nat.not_lt.mp hle) (hok.placed hsizes ph (by omega) htype)
        rcases Nat.lt_succ_iff_lt_or_eq.mp hk with hlt | rfl
        · exact (hdone hsizes k hlt htypek).of_agree hloaded hrest
            (hok.agree hsizes k (by omega) ph (by omega) htypek htype)
        · exact hloaded
      · rename_i htype
        refine ih pos' mem (by omega) hbefore' fun hsizes k hk htypek => ?_
        rcases Nat.lt_succ_iff_lt_or_eq.mp hk with hlt | rfl
        · exact hdone hsizes k hlt htypek
        · exact absurd htypek htype

end Headers

/-! ## The whole load -/

section Whole

variable {content : List UInt8} {loader : LoaderMemory}

theorem fieldAt_overlay {old copied : List UInt8} {offset width : Nat}
    (hfield : offset + width ≤ copied.length) :
    fieldAt (overlay old copied) offset width = fieldAt copied offset width := by
  unfold fieldAt overlay
  refine loadLE_congr fun a _ hlt => ?_
  rw [List.getD_eq_getElem?_getD, List.getElem?_append_left (by omega), List.getD_eq_getElem?_getD]

/-- A header that was read whole does not depend on what was there before. -/
theorem decodeElf64Ehdr_overlay {old copied : List UInt8} (hlen : copied.length = sizeofElf64Ehdr) :
    decodeElf64Ehdr (overlay old copied) = decodeElf64Ehdr copied := by
  unfold sizeofElf64Ehdr at hlen
  unfold decodeElf64Ehdr
  rw [fieldAt_overlay (by omega), fieldAt_overlay (by omega), fieldAt_overlay (by omega),
    fieldAt_overlay (by omega), fieldAt_overlay (by omega)]
  unfold overlay
  rw [List.take_append_of_le_length (by omega)]

/-- The first read. -/
theorem fread_header : (idealReader content).fread 0 sizeofElf64Ehdr 1 =
    (((min sizeofElf64Ehdr content.length : Nat) : Int), content.take sizeofElf64Ehdr,
      min sizeofElf64Ehdr content.length) := by
  show (((content.take sizeofElf64Ehdr).length : Int), content.take sizeofElf64Ehdr,
    0 + (content.take sizeofElf64Ehdr).length) = _
  rw [List.length_take, Nat.zero_add]

variable (loader) in
theorem loadKernel_short (hshort : content.length < sizeofElf64Ehdr) (fuel : Nat) (ehdr : List UInt8)
    (stack : Nat → List UInt8) (file : Nat) (mem : ByteMem) :
    loadKernel (idealReader content) loader fuel ehdr stack file mem =
      some (.error (.panic .readHeader)) := by
  have hseek : (idealReader content).fseeko file 0 = (0, 0) := by
    show ((0 : Int), min 0 content.length) = _
    rw [Nat.zero_min]
  unfold loadKernel
  simp only [hseek, fread_header]
  rw [if_pos (by omega)]

variable (loader) in
/-- What follows the first read. -/
theorem loadKernel_whole (hlen : sizeofElf64Ehdr ≤ content.length) (fuel : Nat) (ehdr : List UInt8)
    (stack : Nat → List UInt8) (file : Nat) (mem : ByteMem) :
    ∃ pos, loadKernel (idealReader content) loader fuel ehdr stack file mem =
      match checkHeader (elfHeader content) 0 with
      | some reason => some (.error (.panic reason))
      | none => (loadSegments (idealReader content) loader fuel (elfHeader content) stack 0
          (elfHeader content).ePhnum pos mem).map (Except.map handoff) := by
  have hseek : (idealReader content).fseeko file 0 = (0, 0) := by
    show ((0 : Int), min 0 content.length) = _
    rw [Nat.zero_min]
  have hheader : decodeElf64Ehdr (overlay ehdr (content.take sizeofElf64Ehdr)) = elfHeader content :=
    decodeElf64Ehdr_overlay (by rw [List.length_take, Nat.min_eq_left hlen])
  have hseek' (position offset : Nat) : (idealReader content).fseeko position offset =
      (0, min offset content.length) := rfl
  refine ⟨min (elfHeader content).ePhoff content.length, ?_⟩
  have hread : ¬ (((min sizeofElf64Ehdr content.length : Nat) : Int) % 2 ^ 32 < sizeofElf64Ehdr) := by
    rw [Nat.min_eq_left hlen]
    decide
  unfold loadKernel
  simp only [hseek, fread_header, hheader, hseek', if_neg hread]

end Whole

theorem checkHeader_phentsize {header : Elf64Ehdr} {seek : Int} (hcheck : checkHeader header seek = none) :
    header.ePhentsize = sizeofElf64Phdr := by
  unfold checkHeader at hcheck
  split_ifs at hcheck with _ _ _ _ _ hsize
  exact not_not.mp hsize

section Kernel

variable {content : List UInt8} {loader : LoaderMemory} {ehdr : List UInt8}
variable {stack : Nat → List UInt8} {file : Nat} {mem : ByteMem}

theorem LoadsKernel.segmentsOk (hloads : LoadsKernel content loader ehdr stack file mem)
    (hheader : HeaderOk content) :
    SegmentsOk content loader (elfHeader content).ePhnum (phdrAt content stack) := by
  obtain ⟨fuel, outcome, hcall, hgood⟩ := hloads
  obtain ⟨hlen, hcheck⟩ := hheader
  have hsize := checkHeader_phentsize hcheck
  obtain ⟨pos, heq⟩ := loadKernel_whole loader hlen fuel ehdr stack file mem
  rw [heq, hcheck] at hcall
  obtain ⟨outcome, hrun, rfl⟩ := Option.map_eq_some_iff.mp hcall
  have hr : outcome ≠ .error .overwritten := by
    rintro rfl
    exact hgood
  have hinv := loadSegments_inv hsize hrun hr
  have hjump (hsizes : ∀ k < (elfHeader content).ePhnum, (phdrAt content stack k).pFilesz ≤
      (phdrAt content stack k).pMemsz) : ∃ mem', ∀ ph < (elfHeader content).ePhnum,
        (phdrAt content stack ph).pType = ptLoad →
          Loaded content loader (handoff mem') (phdrAt content stack ph) := by
    obtain ⟨mem', rfl⟩ := hinv.2 (by rwa [Nat.zero_add])
    exact ⟨mem', hgood⟩
  refine ⟨?_, ?_, ?_, ?_⟩
  · intro ph hph hsizes htype
    exact hinv.1 ph (Nat.zero_le ph) (by omega) hsizes htype
  · intro hsizes ph hph htype hne
    obtain ⟨mem', hloaded⟩ := hjump hsizes
    exact (hloaded ph hph htype).placed (hsizes ph hph) hne
  · intro hsizes j hj k hk htypej htypek
    obtain ⟨mem', hloaded⟩ := hjump hsizes
    exact (hloaded j hj htypej).agree (hloaded k hk htypek)
  · intro hsizes ph hph htype i hi b hb
    obtain ⟨mem', hloaded⟩ := hjump hsizes
    obtain ⟨-, -, hbyte⟩ := hloaded ph hph htype i hi
    rw [hbyte, handoff, foldl_storeBytes, hb, Option.getD_some]

theorem SegmentsOk.loadsKernel (hlen : sizeofElf64Ehdr ≤ content.length)
    (hcheck : checkHeader (elfHeader content) 0 = none)
    (hok : SegmentsOk content loader (elfHeader content).ePhnum (phdrAt content stack)) :
    LoadsKernel content loader ehdr stack file mem := by
  have hsize := checkHeader_phentsize hcheck
  have hnone (P : Nat → Prop) : ∀ k < 0, P k := fun k hk => absurd hk (Nat.not_lt_zero k)
  obtain ⟨pos, heq⟩ := loadKernel_whole loader hlen (content.length + 1) ehdr stack file mem
  rw [hcheck] at heq
  obtain ⟨r, hend, ⟨reason, rfl⟩ | ⟨mem', rfl, hsizes, hloaded⟩⟩ := loadSegments_ok pos mem hsize
    (Nat.lt_succ_self _) (Nat.zero_add _) hok (hnone _) (fun _ => hnone _)
  · have hrun := heq.trans (congrArg (Option.map (Except.map handoff)) hend)
    exact ⟨_, .error (.panic reason), hrun, trivial⟩
  · have hrun := heq.trans (congrArg (Option.map (Except.map handoff)) hend)
    refine ⟨_, .ok (handoff mem'), hrun, fun ph hph htype i hi => ?_⟩
    obtain ⟨hbelow, hown, hbyte⟩ := hloaded ph hph htype i hi
    refine ⟨hbelow, hown, ?_⟩
    rw [handoff, foldl_storeBytes]
    cases hb : lastStore handoffStores ((phdrAt content stack ph).pPaddr + i) with
    | none => exact hbyte
    | some b => exact hok.tables hsizes ph hph htype i hi b hb

end Kernel

/-- The load is as it should be just when the header is refused or the segments fit. -/
theorem loadsKernel_iff (content : List UInt8) (loader : LoaderMemory) (ehdr : List UInt8)
    (stack : Nat → List UInt8) (file : Nat) (mem : ByteMem) :
    LoadsKernel content loader ehdr stack file mem ↔
      (HeaderOk content →
        SegmentsOk content loader (elfHeader content).ePhnum (phdrAt content stack)) := by
  constructor
  · intro hloads hheader
    exact hloads.segmentsOk hheader
  · intro hcond
    by_cases hlen : sizeofElf64Ehdr ≤ content.length
    · cases hcheck : checkHeader (elfHeader content) 0 with
      | some reason =>
        obtain ⟨pos, heq⟩ := loadKernel_whole loader hlen 0 ehdr stack file mem
        rw [hcheck] at heq
        exact ⟨_, _, heq, trivial⟩
      | none => exact (hcond ⟨hlen, hcheck⟩).loadsKernel hlen hcheck
    · exact ⟨0, _, loadKernel_short loader (Nat.not_le.mp hlen) 0 ehdr stack file mem, trivial⟩

/-- A file of 120 bytes: a header and one program header, for a segment of 121 bytes of the file. -/
def longSegment : List UInt8 :=
  [0x7F, 0x45, 0x4C, 0x46, 2, 1, 1, 0, 0, 0, 0, 0, 0, 0, 0, 0,
    2, 0, 0x3E, 0, 1, 0, 0, 0,  0, 0, 0x10, 0, 0, 0, 0, 0,
    64, 0, 0, 0, 0, 0, 0, 0,  0, 0, 0, 0, 0, 0, 0, 0,
    0, 0, 0, 0, 64, 0, 56, 0,  1, 0, 0, 0, 0, 0, 0, 0,
    -- the program header
    1, 0, 0, 0, 5, 0, 0, 0,  0, 0, 0, 0, 0, 0, 0, 0,
    0, 0, 0x10, 0, 0, 0, 0, 0,  0, 0, 0x10, 0, 0, 0, 0, 0,
    121, 0, 0, 0, 0, 0, 0, 0,  121, 0, 0, 0, 0, 0, 0, 0,
    0, 0x10, 0, 0, 0, 0, 0, 0]

/-- A loader of two bytes. -/
def smallLoader : LoaderMemory := ⟨fun a => a = 0x7E00 ∨ a = 0x1FFFF4, rfl, rfl⟩

/-- Stage 2 does not come to an end with that file. -/
theorem longSegment_hangs : longSegment.length = 120 ∧
    ¬ LoadsKernel longSegment smallLoader [] (fun _ => []) 0 (fun _ => 0) := by
  refine ⟨by decide, fun hloads => ?_⟩
  have hheader : HeaderOk longSegment := by
    unfold HeaderOk
    decide +kernel
  have hphdr : phdrAt longSegment (fun _ => []) 0 =
      { pType := 1, pOffset := 0, pVaddr := 0x100000, pPaddr := 0x100000, pFilesz := 121,
        pMemsz := 121 } := by
    decide +kernel
  have hfin := (hloads.segmentsOk hheader).finishes 0 (by decide +kernel)
    (fun k hk => by rw [Nat.le_zero.mp hk, hphdr]) (by rw [hphdr]; rfl)
  rw [hphdr] at hfin
  have hcount := hfin.in_file
  revert hcount
  decide +kernel

end Pristine.Stage2
