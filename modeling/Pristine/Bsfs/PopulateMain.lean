import Pristine.Bsfs.Image
import Pristine.Bsfs.PopulateSpec

/-!
# `main` of `bsfs-populate`

The header is read and checked, the metadata are set up in memory, the host's
tree is stored, and the metadata are written back.  Arguments are taken as
numbers.

The megablock bitmap and the inode table are written back in whole blocks, more
bytes than were allocated for them; `heap` stands for what is read beyond.
-/

namespace Pristine.Bsfs

open Lib Kernel

/-- What lies in memory behind the megablock bitmap and behind the inode table. -/
structure PopulateHeap where
  megablockBitmap : ByteMem
  inodeTable : ByteMem

/-- The arguments. -/
structure PopulateArgs where
  blockSize : Nat
  offset : Nat
  force : Bool
  root : CString

/-- `bsfs_header_idx`. -/
def PopulateArgs.headerIdx (args : PopulateArgs) : Nat := u32 (args.offset * args.blockSize)

/-- `metadata_blocks`. -/
def metadataBlocks (h : BsfsHeader) (offset : Nat) : Nat :=
  u32 (u32 (offset + 1) + h.blockBitmapBlocks + h.megablockBitmapBlocks + h.inodeBitmapBlocks +
    h.inodeTableBlocks)

/-- `total_megablocks`. -/
def totalMegablocks (h : BsfsHeader) (blockSize : Nat) : Nat :=
  u32 (divCeil h.totalBlocks (blockSize * 8))

/-- The checks of the header; `none` ends the program with an error. -/
def checkHeader (args : PopulateArgs) (image : HostFile) : Option BsfsHeader :=
  let h := readHeader image.bytes args.headerIdx
  if image.size < args.headerIdx + sizeofBsfsHeader then none
  else if h.magic ≠ bsfsMagic then none
  else if h.version ≠ bsfsVersion ∧ args.force = false then none
  else if h.blockSize ≠ args.blockSize then none
  else some h

/-- The state after the allocations of `main`. -/
def startState (args : PopulateArgs) (heap : PopulateHeap) (image : HostFile) (h : BsfsHeader) :
    PopulateState where
  image := image
  position := 0
  header :=
    { h with
      freeBlocks := u32 (image.size / args.blockSize + 2 ^ 32 - metadataBlocks h args.offset)
      freeInodes := u32 (image.size / args.blockSize / 4) }
  blockBitmap := fun _ => 0
  megablockBitmap := fun a => if a < h.megablockBitmapSize then 0 else heap.megablockBitmap a
  inodeBitmap := fun _ => 0
  inodeTable := fun _ => .zero
  panics := []

section Main

variable (exits : Bool)

/-- The loop that reserves the metadata blocks, from block `i` on. -/
def reserveBlocks : Nat → Nat → PopulateM Unit
  | _, 0 => pure ()
  | i, left + 1 => do
      setBlockBit exits i
      reserveBlocks (i + 1) left

/-- The loop that marks megablocks without free blocks, from megablock `mb` on. -/
def reserveMegablocks (blockSize : Nat) : Nat → Nat → PopulateM Unit
  | _, 0 => pure ()
  | mb, left + 1 => do
      let s ← get
      undefinedIf (s.blockBitmapSize < mb * blockSize + blockSize)
      markFullMegablock exits mb (mb * blockSize)
      reserveMegablocks blockSize (mb + 1) left

/-- `header.root_inode = root_inode_idx`. -/
def PopulateState.setRoot (s : PopulateState) (root : Nat) : PopulateState :=
  { s with header := { s.header with rootInode := root } }

/-- The bitmaps, the sentinel inode and the root inode. -/
def setUp (args : PopulateArgs) : PopulateM Nat := do
  let s ← get
  reserveBlocks exits 0 (metadataBlocks s.header args.offset)
  reserveMegablocks exits args.blockSize 0 (totalMegablocks s.header args.blockSize)
  let _sentinel ← bsfsAllocInode exits
  let root ← bsfsAllocInode exits
  modify fun s => s.setRoot root
  pure root

/-- The bytes of the inode table in memory. -/
def tableBytes (table : Nat → BsfsInode) (count : Nat) (heap : PopulateHeap) : ByteMem := fun a =>
  if a < sizeofBsfsInode * count then
    packed (table (a / sizeofBsfsInode)).fields (a % sizeofBsfsInode)
  else heap.inodeTable a

/-- Write a region of the metadata. -/
def writeRegion (start blocks : Nat) (bytes : ByteMem) : PopulateM Unit := do
  let s ← get
  seekImage (populateOffset s.header start)
  writeImage (bytesAt bytes 0 (u32 (blocks * s.header.blockSize)))

/-- The bytes of the header that `main` reads and writes back unchanged: the boot jump, and the
label and the boot code. -/
def headerOther (args : PopulateArgs) (image : HostFile) : List UInt8 × List UInt8 :=
  (bytesAt image.bytes args.headerIdx 3, bytesAt image.bytes (args.headerIdx + 83) 429)

/-- The metadata are written back. -/
def writeBack (args : PopulateArgs) (heap : PopulateHeap) (other : List UInt8 × List UInt8) :
    PopulateM Unit := do
  let s ← get
  let h := s.header
  writeRegion h.blockBitmapStart h.blockBitmapBlocks s.blockBitmap
  writeRegion h.megablockBitmapStart h.megablockBitmapBlocks s.megablockBitmap
  writeRegion h.inodeBitmapStart h.inodeBitmapBlocks s.inodeBitmap
  writeRegion h.inodeTableStart h.inodeTableBlocks (tableBytes s.inodeTable h.inodeCount heap)
  seekImage args.headerIdx
  writeImage (headerBytes h other.1 other.2)

variable (fs : HostFs)

/-- `main` from the loops on. -/
def populateRun (fuel : Nat) (args : PopulateArgs) (heap : PopulateHeap)
    (other : List UInt8 × List UInt8) : PopulateM Unit := do
  let root ← setUp exits args
  bsfsPopulateDir exits fs fuel args.root root root
  writeBack args heap other

/-- `main` of `bsfs-populate`; `none` is an error before anything was changed. -/
def populateMain (fuel : Nat) (args : PopulateArgs) (heap : PopulateHeap) (image : HostFile) :
    Option (EStateM.Result Halt PopulateState Unit) :=
  (checkHeader args image).map fun h => populateRun exits fs fuel args heap
    (headerOther args image) (startState args heap image h)

end Main

/-! ## The set-up -/

section SetUp

variable {s : PopulateState} {i left mb : Nat}

theorem reserveBlocks_spec (exits : Bool) (hsize : i + left ≤ 8 * s.blockBitmapSize)
    (hclear : ∀ j, i ≤ j → bitAt s.blockBitmap j = false) :
    ∃ bitmap, reserveBlocks exits i left s = .ok () { s with blockBitmap := bitmap } ∧
      ∀ j, bitAt bitmap j = (decide (i ≤ j ∧ j < i + left) || bitAt s.blockBitmap j) := by
  induction left generalizing i s with
  | zero =>
    refine ⟨s.blockBitmap, rfl, fun j => ?_⟩
    rw [decide_eq_false (by omega), Bool.false_or]
  | succ left ih =>
    have hset : setBlockBit exits i s = .ok () _ :=
      setBlockBit_of_clear (by omega : i / 8 < s.blockBitmapSize) (hclear i le_rfl)
    obtain ⟨bitmap, hrest, hbits⟩ := ih (i := i + 1)
      (s := { s with blockBitmap := bitmapSet s.blockBitmap i })
      (show i + 1 + left ≤ 8 * s.blockBitmapSize by omega) (by
        intro j hj
        rw [bitAt_bitmapSet, hclear j (by omega), decide_eq_false (by omega), Bool.false_or])
    refine ⟨bitmap, (bind_of_ok hset).trans hrest, fun j => ?_⟩
    rw [hbits j, bitAt_bitmapSet, ← Bool.or_assoc, ← Bool.decide_or]
    congr 1
    exact decide_eq_decide.mpr (by omega)

/-- Only the block bitmap differs. -/
structure SameButBlocks (s t : PopulateState) : Prop where
  image : t.image = s.image
  header : t.header = s.header
  megablockBitmap : t.megablockBitmap = s.megablockBitmap
  inodeBitmap : t.inodeBitmap = s.inodeBitmap
  inodeTable : t.inodeTable = s.inodeTable
  panics : t.panics = s.panics

theorem reserveBlocks_start (exits : Bool) (hsize : left ≤ 8 * s.blockBitmapSize)
    (hclear : ∀ j, bitAt s.blockBitmap j = false) :
    ∃ t, reserveBlocks exits 0 left s = .ok () t ∧ SameButBlocks s t ∧
      ∀ j, bitAt t.blockBitmap j = decide (j < left) := by
  obtain ⟨bitmap, hreserve, hbits⟩ := reserveBlocks_spec (i := 0) exits
    (show 0 + left ≤ 8 * s.blockBitmapSize by omega) fun j _ => hclear j
  refine ⟨_, hreserve, ⟨rfl, rfl, rfl, rfl, rfl, rfl⟩, fun j => ?_⟩
  rw [hbits j, hclear, Bool.or_false]
  exact decide_eq_decide.mpr (by omega)

/-- No megablock is marked while each has a free block. -/
theorem reserveMegablocks_spec (exits : Bool) (hbs : s.header.blockSize = 4096)
    (hsize : 4096 * (mb + left) ≤ s.blockBitmapSize)
    (hfree : ∀ i, i < mb + left → sliceFull s.blockBitmap (i * 4096) 4096 = false) :
    reserveMegablocks exits 4096 mb left s = .ok () s := by
  induction left generalizing mb with
  | zero => rfl
  | succ left ih =>
    have hslice : sliceFull s.blockBitmap (mb * 4096) s.header.blockSize = false := by
      rw [hbs]
      exact hfree mb (by omega)
    have hmark : markFullMegablock exits mb (mb * 4096) s = .ok () s := by
      unfold markFullMegablock
      rw [get_bind, hslice, if_neg Bool.false_ne_true]
      rfl
    unfold reserveMegablocks
    rw [get_bind, bind_of_ok (undefinedIf_of_not (by omega)),
      bind_of_ok hmark]
    exact ih (by omega) fun i hi => hfree i (by omega)

end SetUp

section Volume

variable {h : BsfsHeader} {offset total : Nat} {image : HostFile} {args : PopulateArgs}

/-- The metadata of a small volume end far below the first megablock's end. -/
theorem SmallVolume.dataStart_lt (hv : SmallVolume h offset total) (hoffset : offset ≤ 1024)
    (hsmall : total < 2 ^ 20) : offset < h.dataStart ∧ h.dataStart < 32768 := by
  obtain ⟨-, -, -, hblock, hblocks, hmega, hmegas, hmegaSize, hinode, hinodes, htable, htables,
    hdata⟩ := hv
  omega

theorem metadataBlocks_eq (hv : SmallVolume h offset total) (hoffset : offset ≤ 1024)
    (hsmall : total < 2 ^ 20) : metadataBlocks h offset = h.dataStart := by
  obtain ⟨-, hlt⟩ := hv.dataStart_lt hoffset hsmall
  obtain ⟨-, -, -, hblock, -, hmega, -, -, hinode, -, htable, -, hdata⟩ := hv
  unfold metadataBlocks
  rw [u32_of_lt (n := offset + 1) (by omega), u32_of_lt (by omega)]
  omega

theorem totalMegablocks_eq (hv : SmallVolume h offset total) (hsmall : total < 2 ^ 20) :
    totalMegablocks h 4096 = h.blockBitmapBlocks := by
  unfold totalMegablocks divCeil
  rw [hv.totalBlocks, hv.blockBitmapBlocks, u32_of_lt (by omega)]
  omega

theorem startState_header (args : PopulateArgs) (heap : PopulateHeap) (image : HostFile)
    (h : BsfsHeader) : (startState args heap image h).header =
      h.recount (u32 (image.size / args.blockSize + 2 ^ 32 - metadataBlocks h args.offset))
        (u32 (image.size / args.blockSize / 4)) :=
  rfl

/-- The counts of the start: metadata blocks are not free, and no inode is used. -/
theorem startState_counts (hv : SmallVolume h offset total) (hoffset : offset ≤ 1024)
    (hsmall : total < 2 ^ 20) (hsize : image.size = 4096 * total) (hdata : h.dataStart ≤ total)
    (hbs : args.blockSize = 4096) (hargs : args.offset = offset) (heap : PopulateHeap) :
    (startState args heap image h).header = h.recount (total - h.dataStart) (total / 4) := by
  have htotal : image.size / args.blockSize = total := by
    rw [hsize, hbs]
    omega
  have hfree : u32 (total + 2 ^ 32 - h.dataStart) = total - h.dataStart := by
    unfold u32
    omega
  rw [startState_header, htotal, hargs, metadataBlocks_eq hv hoffset hsmall, hfree,
    u32_of_lt (by omega)]

/-- Once the metadata blocks are reserved, the counters begin at the first data block. -/
theorem counters_reserved {t : PopulateState} (hv : SmallVolume h offset total)
    (hlt : h.dataStart < 32768) (hsmall : total < 2 ^ 20) (hsize : t.image.size = 4096 * total)
    (hdata : h.dataStart ≤ total) (hheader : t.header = h.recount (total - h.dataStart) (total / 4))
    (hbits : ∀ j, bitAt t.blockBitmap j = decide (j < h.dataStart))
    (hmega : ∀ mb, mb < 8 * h.megablockBitmapSize → bitAt t.megablockBitmap mb = false)
    (hinode : ∀ i, bitAt t.inodeBitmap i = false) : Counters t offset total h.dataStart 0 where
  volume := by
    rw [hheader]
    exact hv.recount _ _
  small := hsmall
  imageSize := hsize
  blockBits j _ := hbits j
  megablockBits mb hmb := by
    rw [hheader] at hmb
    rw [hmega mb hmb, decide_eq_false (by omega)]
  inodeBits i _ := by
    rw [hinode i, decide_eq_false (Nat.not_lt_zero i)]
  dataStart_le := by
    rw [hheader]
    exact le_of_eq (recount_dataStart ..)
  next_le := hdata
  inodes_le := Nat.zero_le _
  freeBlocks := by
    rw [hheader]
    rfl
  freeInodes := by
    rw [hheader]
    rfl

/-- What the set-up leaves: no tree yet, two inodes, and the header's counts. -/
structure SetUpDone (s : PopulateState) (image : HostFile) (h : BsfsHeader) (offset total : Nat) :
    Prop where
  growing : Growing s image.bytes offset total h.dataStart 2
  image : s.image = image
  table : ∀ i, s.inodeTable i = .zero
  panics : s.panics = []
  header : s.header = { h.recount s.header.freeBlocks s.header.freeInodes with rootInode := 1 }

/-- No megablock is full when only metadata blocks are used. -/
theorem sliceFull_reserved {bitmap : ByteMem} {start : Nat} (hstart : start < 32768)
    (hbits : ∀ j, bitAt bitmap j = decide (j < start)) (i : Nat) :
    sliceFull bitmap (i * 4096) 4096 = false := by
  rw [← Bool.not_eq_true, sliceFull_iff]
  intro hall
  have hlast := hall (8 * (i * 4096) + 32767) (by omega) (by omega)
  rw [hbits, decide_eq_true_eq] at hlast
  omega

theorem setRoot_image (s : PopulateState) (root : Nat) : (s.setRoot root).image = s.image := rfl

theorem setRoot_inodeTable (s : PopulateState) (root : Nat) :
    (s.setRoot root).inodeTable = s.inodeTable :=
  rfl

theorem setRoot_panics (s : PopulateState) (root : Nat) : (s.setRoot root).panics = s.panics := rfl

theorem Counters.setRoot {s : PopulateState} {next inodes : Nat}
    (hc : Counters s offset total next inodes) (root : Nat) :
    Counters (s.setRoot root) offset total next inodes := by
  obtain ⟨⟨h1, h2, h3, h4, h5, h6, h7, h8, h9, h10, h11, h12, h13⟩, hsmall, hsize, hblock, hmega, hinode,
    hdata, hnext, hinodes, hfree, hfreeInodes⟩ := hc
  exact ⟨⟨h1, h2, h3, h4, h5, h6, h7, h8, h9, h10, h11, h12, h13⟩, hsmall, hsize, hblock, hmega, hinode,
    hdata, hnext, hinodes, hfree, hfreeInodes⟩

/-- The set-up once its loops are done. -/
theorem setUp_of_reserved {exits : Bool} {s t : PopulateState} {next : Nat}
    (hreserve : reserveBlocks exits 0 (metadataBlocks s.header args.offset) s = .ok () t)
    (hmega : reserveMegablocks exits args.blockSize 0 (totalMegablocks s.header args.blockSize) t =
      .ok () t)
    (hc : Counters t offset total next 0) (hinodes : 2 ≤ total / 4) :
    setUp exits args s = .ok 1 (((t.takeInode 0).takeInode 1).setRoot 1) := by
  have hroot := hc.takeInode (show 0 < total / 4 by omega)
  unfold setUp
  rw [get_bind, bind_of_ok hreserve, bind_of_ok hmega,
    bind_of_ok (bsfsAllocInode_next hc (by omega)), bind_of_ok (bsfsAllocInode_next hroot (by omega))]
  rfl

theorem setRoot_header {t : PopulateState} {freeBlocks freeInodes : Nat}
    (hheader : t.header = h.recount freeBlocks freeInodes) (root : Nat) :
    (t.setRoot root).header =
      { h.recount (t.setRoot root).header.freeBlocks (t.setRoot root).header.freeInodes with
        rootInode := root } := by
  have hroot : (t.setRoot root).header =
      { h.recount freeBlocks freeInodes with rootInode := root } := by
    unfold PopulateState.setRoot
    rw [hheader]
  rw [hroot]
  rfl

theorem setUpDone_of_reserved {t : PopulateState} (hc : Counters t offset total h.dataStart 0)
    (hinodes : 2 ≤ total / 4) (himage : t.image = image) (htable : ∀ i, t.inodeTable i = .zero)
    (hpanics : t.panics = []) {freeBlocks freeInodes : Nat}
    (hheader : t.header = h.recount freeBlocks freeInodes) :
    SetUpDone (((t.takeInode 0).takeInode 1).setRoot 1) image h offset total := by
  have hroot := hc.takeInode (show 0 < total / 4 by omega)
  have hkept : Kept t ((t.takeInode 0).takeInode 1) := (kept_takeInode ..).trans (kept_takeInode ..)
  have himages : (((t.takeInode 0).takeInode 1).setRoot 1).image = image := by
    rw [setRoot_image, takeInode_image, takeInode_image, himage]
  have htables (i : Nat) : (((t.takeInode 0).takeInode 1).setRoot 1).inodeTable i = .zero := by
    rw [setRoot_inodeTable, takeInode_inodeTable, takeInode_inodeTable, htable]
  have hheaders := hkept.header
  rw [hheader] at hheaders
  refine ⟨⟨(hroot.takeInode (by omega)).setRoot 1, fun a _ => ?_, fun i _ => htables i⟩, himages,
    htables, ?_, setRoot_header hheaders 1⟩
  · rw [himages]
  · rw [setRoot_panics, hkept.panics, hpanics]

/-- The loops of the set-up reserve the metadata blocks. -/
structure Reserved (exits : Bool) (args : PopulateArgs) (image : HostFile) (h : BsfsHeader)
    (offset total : Nat) (s t : PopulateState) : Prop where
  blocks : reserveBlocks exits 0 (metadataBlocks s.header args.offset) s = .ok () t
  megablocks : reserveMegablocks exits args.blockSize 0 (totalMegablocks s.header args.blockSize) t =
    .ok () t
  counters : Counters t offset total h.dataStart 0
  image : t.image = image
  table : ∀ i, t.inodeTable i = .zero
  panics : t.panics = []
  header : t.header = h.recount (total - h.dataStart) (total / 4)

variable (exits : Bool) (hv : SmallVolume h offset total) (hoffset : offset ≤ 1024)
variable (hsmall : total < 2 ^ 20) (hsize : image.size = 4096 * total) (hdata : h.dataStart ≤ total)
variable (hbs : args.blockSize = 4096) (hargs : args.offset = offset)

include hv hoffset hsmall hsize hdata hbs hargs

theorem exists_reserved (heap : PopulateHeap) :
    ∃ t, Reserved exits args image h offset total (startState args heap image h) t := by
  obtain ⟨-, hlt⟩ := hv.dataStart_lt hoffset hsmall
  have hblocks := hv.blockBitmapBlocks
  have hstart := hv.recount (u32 (image.size / args.blockSize + 2 ^ 32 - metadataBlocks h args.offset))
    (u32 (image.size / args.blockSize / 4))
  rw [← startState_header args heap image h] at hstart
  have hbitmapSize : (startState args heap image h).blockBitmapSize = h.blockBitmapBlocks * 4096 := by
    unfold PopulateState.blockBitmapSize
    rw [hstart.blockSize, hstart.blockBitmapBlocks, hblocks]
  have hmetadata : metadataBlocks (startState args heap image h).header args.offset = h.dataStart := by
    rw [hargs, metadataBlocks_eq hstart hoffset hsmall, startState_header, recount_dataStart]
  have hmegablocks : totalMegablocks (startState args heap image h).header args.blockSize =
      h.blockBitmapBlocks := by
    rw [hbs, totalMegablocks_eq hstart hsmall, hstart.blockBitmapBlocks, hblocks]
  obtain ⟨t, hreserve, hsame, hbits⟩ := reserveBlocks_start (s := startState args heap image h) exits
    (show h.dataStart ≤ 8 * (startState args heap image h).blockBitmapSize by
      rw [hbitmapSize]
      omega)
    fun j => Nat.zero_testBit _
  have hmega (mb : Nat) (hmb : mb < 8 * h.megablockBitmapSize) :
      bitAt (startState args heap image h).megablockBitmap mb = false := by
    have hbyte : (startState args heap image h).megablockBitmap (mb / 8) = 0 := if_pos (by omega)
    unfold bitAt
    rw [hbyte]
    exact Nat.zero_testBit _
  have himage : t.image = image := hsame.image
  have hheader : t.header = h.recount (total - h.dataStart) (total / 4) :=
    hsame.header.trans (startState_counts hv hoffset hsmall hsize hdata hbs hargs heap)
  have hc : Counters t offset total h.dataStart 0 := by
    refine counters_reserved hv hlt hsmall ?_ hdata hheader hbits ?_ ?_
    · rw [himage, hsize]
    · rw [hsame.megablockBitmap]
      exact hmega
    · rw [hsame.inodeBitmap]
      exact fun i => Nat.zero_testBit _
  refine ⟨t, ?_, ?_, hc, himage, fun i => ?_, ?_, hheader⟩
  · rw [hmetadata]
    exact hreserve
  · rw [hmegablocks, hbs]
    refine reserveMegablocks_spec exits hc.volume.blockSize ?_ fun i _ =>
      sliceFull_reserved hlt hbits i
    unfold PopulateState.blockBitmapSize
    rw [hc.volume.blockSize, hheader]
    show 4096 * (0 + h.blockBitmapBlocks) ≤ h.blockBitmapBlocks * 4096
    omega
  · rw [hsame.inodeTable]
    rfl
  · rw [hsame.panics]
    rfl

theorem setUp_spec (hinodes : 2 ≤ total / 4) (heap : PopulateHeap) :
    ∃ s, setUp exits args (startState args heap image h) = .ok 1 s ∧
      SetUpDone s image h offset total := by
  obtain ⟨t, ht⟩ := exists_reserved exits hv hoffset hsmall hsize hdata hbs hargs heap
  exact ⟨_, setUp_of_reserved ht.blocks ht.megablocks ht.counters hinodes,
    setUpDone_of_reserved ht.counters hinodes ht.image ht.table ht.panics ht.header⟩

/-- The set-up goes on only if there are inodes for the sentinel and the root. -/
theorem setUp_fits {heap : PopulateHeap} {root : Nat} {s : PopulateState}
    (hcall : setUp true args (startState args heap image h) = .ok root s) :
    2 ≤ total / 4 := by
  obtain ⟨t, ht⟩ := exists_reserved true hv hoffset hsmall hsize hdata hbs hargs heap
  unfold setUp at hcall
  rw [get_bind, bind_of_ok ht.blocks, bind_of_ok ht.megablocks] at hcall
  obtain ⟨sentinel, t1, hsentinel, hcall⟩ := bind_eq_ok.mp hcall
  obtain ⟨hfirst, -, rfl⟩ := bsfsAllocInode_ok ht.counters hsentinel
  obtain ⟨_, _, hroot, -⟩ := bind_eq_ok.mp hcall
  have hsecond := (bsfsAllocInode_ok (ht.counters.takeInode hfirst) hroot).1
  omega

end Volume

end Pristine.Bsfs
