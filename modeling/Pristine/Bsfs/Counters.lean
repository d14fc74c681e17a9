import Pristine.Bsfs.FirstFit
import Pristine.Bsfs.Populate

/-!
# Allocation is counting

`bsfs-populate` never gives anything back, so the used blocks are those below a
bound, and so are the used inodes.  `Counters` says so of all three bitmaps and
of the header's numbers; every allocation returns the bound and raises it by one.
-/

namespace Pristine.Bsfs

open Lib Kernel

/-- A volume of less than 4 GiB in which the blocks below `next` and the inodes below `inodes` are
used. -/
structure Counters (s : PopulateState) (offset total next inodes : Nat) : Prop where
  volume : SmallVolume s.header offset total
  small : total < 2 ^ 20
  imageSize : s.image.size = 4096 * total
  blockBits : ∀ i, i < 32768 * s.header.blockBitmapBlocks →
    bitAt s.blockBitmap i = decide (i < next)
  megablockBits : ∀ mb, mb < 8 * s.header.megablockBitmapSize →
    bitAt s.megablockBitmap mb = decide (32768 * (mb + 1) ≤ next)
  inodeBits : ∀ i, i < total / 4 → bitAt s.inodeBitmap i = decide (i < inodes)
  dataStart_le : s.header.dataStart ≤ next
  next_le : next ≤ total
  inodes_le : inodes ≤ total / 4
  freeBlocks : s.header.freeBlocks = total - next
  freeInodes : s.header.freeInodes = total / 4 - inodes

/-- What no step changes: the header apart from its counts.  No step panics. -/
structure Kept (s s' : PopulateState) : Prop where
  header : s'.header = s.header.recount s'.header.freeBlocks s'.header.freeInodes
  panics : s'.panics = s.panics

theorem Kept.refl (s : PopulateState) : Kept s s := ⟨rfl, rfl⟩

theorem Kept.trans {s t u : PopulateState} (hst : Kept s t) (htu : Kept t u) : Kept s u where
  header := by
    rw [htu.header, hst.header]
    rfl
  panics := htu.panics.trans hst.panics

/-! ## New counts -/

theorem SmallVolume.recount {h : BsfsHeader} {offset total : Nat} (hv : SmallVolume h offset total)
    (freeBlocks freeInodes : Nat) : SmallVolume (h.recount freeBlocks freeInodes) offset total := by
  obtain ⟨h1, h2, h3, h4, h5, h6, h7, h8, h9, h10, h11, h12, h13⟩ := hv
  exact ⟨h1, h2, h3, h4, h5, h6, h7, h8, h9, h10, h11, h12, h13⟩

theorem kept_recount (s : PopulateState) (freeBlocks freeInodes : Nat)
    (blockBitmap megablockBitmap inodeBitmap : ByteMem) :
    Kept s (s.recount freeBlocks freeInodes blockBitmap megablockBitmap inodeBitmap) :=
  ⟨rfl, rfl⟩

section Recount

variable {s : PopulateState} {offset total next inodes next' inodes' : Nat}
variable {blockBitmap megablockBitmap inodeBitmap : ByteMem}

theorem Counters.recount (hc : Counters s offset total next inodes)
    (hblock : ∀ i, i < 32768 * s.header.blockBitmapBlocks →
      bitAt blockBitmap i = decide (i < next'))
    (hmegablock : ∀ mb, mb < 8 * s.header.megablockBitmapSize →
      bitAt megablockBitmap mb = decide (32768 * (mb + 1) ≤ next'))
    (hinode : ∀ i, i < total / 4 → bitAt inodeBitmap i = decide (i < inodes'))
    (hdata : s.header.dataStart ≤ next') (hnext : next' ≤ total) (hinodes : inodes' ≤ total / 4) :
    Counters (s.recount (total - next') (total / 4 - inodes') blockBitmap megablockBitmap inodeBitmap)
      offset total next' inodes' :=
  ⟨hc.volume.recount _ _, hc.small, hc.imageSize, hblock, hmegablock, hinode, hdata, hnext, hinodes,
    rfl, rfl⟩

end Recount

/-! ## Blocks that are taken without a panic -/

/-- A block is taken, and only the bitmaps and the count of free blocks change. -/
structure BlockTaken (s : PopulateState) (block : Nat) (s' : PopulateState) : Prop where
  clear : bitAt s.blockBitmap block = false
  inside : block < 8 * s.blockBitmapSize
  dataStart_le : s.header.dataStart ≤ block
  counted : s.header.freeBlocks ≠ 0
  blockBitmap : s'.blockBitmap = bitmapSet s.blockBitmap block
  header : s'.header =
    s.header.recount (u32 (s.header.freeBlocks + 2 ^ 32 - 1)) s.header.freeInodes
  inodeTable : s'.inodeTable = s.inodeTable
  panics : s'.panics = s.panics

section Taken

variable {s s' : PopulateState} {block index : Nat} {u : Unit}

theorem setBlockBit_eq_ok : setBlockBit true index s = .ok u s' ↔
    index / 8 < s.blockBitmapSize ∧ bitAt s.blockBitmap index = false ∧
      s' = { s with blockBitmap := bitmapSet s.blockBitmap index } := by
  constructor
  · intro hcall
    unfold setBlockBit at hcall
    rw [get_bind] at hcall
    obtain ⟨hinside, hcall⟩ := undefinedIf_bind.mp hcall
    obtain ⟨hclear, hcall⟩ := bsfsPanicIf_bind.mp hcall
    exact ⟨Nat.not_le.mp hinside, (bitmapTest_eq_zero_iff _ _).mp (not_not.mp hclear),
      (modify_eq_ok.mp hcall).symm⟩
  · rintro ⟨hinside, hclear, rfl⟩
    exact setBlockBit_of_clear hinside hclear

/-- Marking a megablock changes its bitmap only. -/
theorem markFullMegablock_frame {megablock slice : Nat}
    (hcall : markFullMegablock true megablock slice s = .ok u s') :
    s'.header = s.header ∧ s'.blockBitmap = s.blockBitmap ∧ s'.inodeTable = s.inodeTable ∧
      s'.panics = s.panics := by
  unfold markFullMegablock at hcall
  rw [get_bind] at hcall
  split at hcall
  · unfold setMegablockBit at hcall
    rw [get_bind] at hcall
    obtain ⟨-, hcall⟩ := undefinedIf_bind.mp hcall
    obtain ⟨-, hcall⟩ := bsfsPanicIf_bind.mp hcall
    rw [← modify_eq_ok.mp hcall]
    exact ⟨rfl, rfl, rfl, rfl⟩
  · obtain ⟨-, rfl⟩ := pure_eq_ok.mp hcall
    exact ⟨rfl, rfl, rfl, rfl⟩

/-- What `bsfs_alloc_block` does if it does not panic. -/
theorem blockTaken_of_ok (hcall : bsfsAllocBlock true s = .ok block s') : BlockTaken s block s' := by
  unfold bsfsAllocBlock at hcall
  rw [get_bind] at hcall
  obtain ⟨-, hcall⟩ := bsfsPanicIf_bind.mp hcall
  obtain ⟨-, hcall⟩ := undefinedIf_bind.mp hcall
  split at hcall
  · exact absurd hcall bsfsPanic_bind_ne_ok
  · obtain ⟨hdata, hcall⟩ := bsfsPanicIf_bind.mp hcall
    obtain ⟨_, _, hset, hcall⟩ := bind_eq_ok.mp hcall
    obtain ⟨hinside, hclear, rfl⟩ := setBlockBit_eq_ok.mp hset
    obtain ⟨_, t, hmark, hcall⟩ := bind_eq_ok.mp hcall
    obtain ⟨hheader, hbits, htable, hpanics⟩ := markFullMegablock_frame hmark
    obtain ⟨_, t', hcount, hcall⟩ := bind_eq_ok.mp hcall
    obtain ⟨rfl, rfl⟩ := pure_eq_ok.mp hcall
    unfold countBlock at hcount
    rw [get_bind] at hcount
    obtain ⟨hcounted, hcount⟩ := bsfsPanicIf_bind.mp hcount
    rw [hheader] at hcounted
    rw [← modify_eq_ok.mp hcount]
    refine ⟨hclear, by omega, Nat.not_lt.mp hdata, hcounted, hbits, ?_, htable, hpanics⟩
    rw [hheader]
    rfl

end Taken

/-! ## `bsfs_alloc_block` -/

section AllocBlock

variable {exits : Bool} {s s' : PopulateState} {offset total next inodes : Nat}

theorem kept_takeBlock (s : PopulateState) (next : Nat) : Kept s (s.takeBlock next) :=
  ⟨recount_self (takeBlock_header s next), takeBlock_panics s next⟩

variable (hc : Counters s offset total next inodes)

include hc

theorem Counters.covered : s.header.Covered := by
  have hsmall := hc.small
  have hbs := hc.volume.blockSize
  have hblocks := hc.volume.blockBitmapBlocks
  have hmegas := hc.volume.megablockBitmapSize
  have htotal := hc.volume.totalBlocks
  have hceil : divCeil s.header.totalBlocks (8 * s.header.blockSize) = (total + 32767) / 32768 := by
    rw [htotal, hbs]
    rfl
  exact ⟨by omega, by omega, by omega, by rw [hbs]; omega, by rw [hceil]; omega, by omega⟩

/-- The slice of a megablock is full once all its blocks are used. -/
theorem Counters.sliceFull_next (hnext : next < total) :
    sliceFull (bitmapSet s.blockBitmap next) (next / (8 * 4096) * 4096) 4096 = true ↔
      32768 * (next / (8 * 4096) + 1) ≤ next + 1 := by
  have hblocks := hc.volume.blockBitmapBlocks
  have hbit (j : Nat) (hj : j < 32768 * s.header.blockBitmapBlocks) :
      bitAt (bitmapSet s.blockBitmap next) j = decide (j < next + 1) := by
    rw [bitAt_bitmapSet, hc.blockBits j hj, ← Bool.decide_or]
    exact decide_eq_decide.mpr (by omega)
  rw [sliceFull_iff]
  constructor
  · intro hall
    have hlast := hall (8 * (next / (8 * 4096) * 4096 + 4096) - 1) (by omega) (by omega)
    rw [hbit _ (by omega), decide_eq_true_eq] at hlast
    omega
  · intro hfull j hlo hhi
    rw [hbit j (by omega), decide_eq_true_eq]
    omega

theorem Counters.takeBlock (hnext : next < total) :
    Counters (s.takeBlock next) offset total (next + 1) inodes := by
  have hfull := hc.sliceFull_next hnext
  have hfree : u32 (s.header.freeBlocks + 2 ^ 32 - 1) = total - (next + 1) := by
    have hsmall := hc.small
    rw [hc.freeBlocks]
    unfold u32
    omega
  unfold PopulateState.takeBlock
  rw [hfree, hc.freeInodes, hc.volume.blockSize]
  refine hc.recount ?_ ?_ hc.inodeBits (Nat.le_succ_of_le hc.dataStart_le) hnext hc.inodes_le
  · intro i hi
    rw [bitAt_bitmapSet, hc.blockBits i hi, ← Bool.decide_or]
    exact decide_eq_decide.mpr (by omega)
  · intro mb hmb
    have hold := hc.megablockBits mb hmb
    by_cases hslice : sliceFull (bitmapSet s.blockBitmap next) (next / (8 * 4096) * 4096) 4096 = true
    · have hend := hfull.mp hslice
      rw [if_pos hslice, bitAt_bitmapSet, hold, ← Bool.decide_or]
      exact decide_eq_decide.mpr (by omega)
    · have hend := mt hfull.mpr hslice
      rw [if_neg hslice, hold]
      exact decide_eq_decide.mpr (by omega)

theorem Counters.megablocksExact : MegablocksExact s := by
  have hblocks := hc.volume.blockBitmapBlocks
  have hmegas := hc.volume.megablockBitmapSize
  rw [megablocksExact_iff, hc.volume.totalBlocks, hc.volume.blockSize]
  intro m hm
  have hlt : m < (total + 32767) / 32768 := hm
  rw [hc.megablockBits m (by omega), decide_eq_true_eq]
  constructor
  · intro hfull j hj
    rw [hc.blockBits _ (by omega), decide_eq_true_eq]
    omega
  · intro hall
    have hlast := hall 32767 (by omega)
    rw [hc.blockBits _ (by omega), decide_eq_true_eq] at hlast
    omega

/-- `bsfs_alloc_block` returns the next block. -/
theorem bsfsAllocBlock_next (hnext : next < total) :
    bsfsAllocBlock exits s = .ok next (s.takeBlock next) := by
  have hblocks := hc.volume.blockBitmapBlocks
  have hfirst : IsFirstClear s.blockBitmap s.header.totalBlocks next := by
    rw [hc.volume.totalBlocks]
    refine ⟨hnext, ?_, fun j hj => ?_⟩
    · rw [hc.blockBits _ (by omega), decide_eq_false (by omega)]
    · rw [hc.blockBits _ (by omega), decide_eq_true hj]
  refine bsfsAllocBlock_firstClear hc.covered hc.megablocksExact hfirst hc.dataStart_le ?_
  rw [hc.freeBlocks]
  omega

theorem bsfsAllocBlock_ok {block : Nat} (hcall : bsfsAllocBlock true s = .ok block s') :
    next < total ∧ block = next ∧ s' = s.takeBlock next := by
  have hfree := (blockTaken_of_ok hcall).counted
  rw [hc.freeBlocks] at hfree
  have hnext : next < total := by omega
  rw [bsfsAllocBlock_next hc hnext] at hcall
  cases hcall
  exact ⟨hnext, rfl, rfl⟩

end AllocBlock

/-! ## `bsfs_alloc_inode` -/

section AllocInode

variable {exits : Bool} {s s' : PopulateState} {offset total next inodes : Nat}

/-- The next inode is taken. -/
def PopulateState.takeInode (s : PopulateState) (inodes : Nat) : PopulateState :=
  s.recount s.header.freeBlocks (u32 (s.header.freeInodes + 2 ^ 32 - 1)) s.blockBitmap
    s.megablockBitmap (bitmapSet s.inodeBitmap inodes)

theorem kept_takeInode (s : PopulateState) (inodes : Nat) : Kept s (s.takeInode inodes) :=
  kept_recount ..

@[simp] theorem takeInode_image (s : PopulateState) (inodes : Nat) :
    (s.takeInode inodes).image = s.image :=
  recount_image ..

@[simp] theorem takeInode_inodeTable (s : PopulateState) (inodes : Nat) :
    (s.takeInode inodes).inodeTable = s.inodeTable :=
  recount_inodeTable ..

variable (hc : Counters s offset total next inodes)

include hc

theorem Counters.takeInode (hinodes : inodes < total / 4) :
    Counters (s.takeInode inodes) offset total next (inodes + 1) := by
  have hfree : u32 (s.header.freeInodes + 2 ^ 32 - 1) = total / 4 - (inodes + 1) := by
    have hsmall := hc.small
    rw [hc.freeInodes]
    unfold u32
    omega
  unfold PopulateState.takeInode
  rw [hfree, hc.freeBlocks]
  refine hc.recount hc.blockBits hc.megablockBits ?_ hc.dataStart_le hc.next_le hinodes
  intro i hi
  rw [bitAt_bitmapSet, hc.inodeBits i hi, ← Bool.decide_or]
  exact decide_eq_decide.mpr (by omega)

/-- `bsfs_alloc_inode` returns the next inode. -/
theorem bsfsAllocInode_next (hinodes : inodes < total / 4) :
    bsfsAllocInode exits s = .ok inodes (s.takeInode inodes) := by
  have hsmall := hc.small
  have hbitmap := hc.volume.inodeBitmapBlocks
  have hclear : bitAt s.inodeBitmap inodes = false := by
    rw [hc.inodeBits _ hinodes, decide_eq_false_iff_not]
    omega
  have hfind : bitmapFind s.inodeBitmap s.header.inodeCount = inodes := by
    rw [hc.volume.inodeCount]
    refine bitmapFind_of_firstClear (by omega) ⟨hinodes, hclear, ?_⟩
    intro j hj
    rw [hc.inodeBits _ (by omega), decide_eq_true_eq]
    exact hj
  unfold bsfsAllocInode
  rw [get_bind, hfind, if_neg (by unfold uint32Max; omega),
    bind_of_ok (setInodeBit_of_clear (by rw [hc.volume.blockSize]; omega) hclear)]
  rfl

theorem bsfsAllocInode_ok {inode : Nat} (hcall : bsfsAllocInode true s = .ok inode s') :
    inodes < total / 4 ∧ inode = inodes ∧ s' = s.takeInode inodes := by
  by_cases hinodes : inodes < total / 4
  · rw [bsfsAllocInode_next hc hinodes] at hcall
    cases hcall
    exact ⟨hinodes, rfl, rfl⟩
  · have hfull : bitmapFind s.inodeBitmap s.header.inodeCount = uint32Max := by
      rw [hc.volume.inodeCount]
      refine bitmapFind_of_full fun j hj => ?_
      rw [hc.inodeBits j hj, decide_eq_true_eq]
      omega
    unfold bsfsAllocInode at hcall
    rw [get_bind, hfull, if_pos rfl] at hcall
    exact absurd hcall bsfsPanic_bind_ne_ok

end AllocInode

-- from here on a state after an allocation is known by what is proved about it
attribute [irreducible] PopulateState.takeInode

/-! ## Writes -/

/-- One inode of the table is replaced. -/
def PopulateState.setInode (s : PopulateState) (idx : Nat) (inode : BsfsInode) : PopulateState :=
  { s with inodeTable := Function.update s.inodeTable idx inode }

/-- Bytes are written to the image. -/
def PopulateState.writeAt (s : PopulateState) (offset : Nat) (data : List UInt8) : PopulateState :=
  { s with image := s.image.write offset data, position := offset + data.length }

section Writes

variable {s : PopulateState} {offset total next inodes idx block start : Nat} {data : List UInt8}

theorem kept_setInode (s : PopulateState) (idx : Nat) (inode : BsfsInode) :
    Kept s (s.setInode idx inode) := ⟨rfl, rfl⟩

@[simp] theorem setInode_image (s : PopulateState) (idx : Nat) (inode : BsfsInode) :
    (s.setInode idx inode).image = s.image := rfl

@[simp] theorem setInode_inodeTable (s : PopulateState) (idx : Nat) (inode : BsfsInode) :
    (s.setInode idx inode).inodeTable = Function.update s.inodeTable idx inode := rfl

theorem kept_writeAt (s : PopulateState) (start : Nat) (data : List UInt8) :
    Kept s (s.writeAt start data) := ⟨rfl, rfl⟩

@[simp] theorem writeAt_image (s : PopulateState) (start : Nat) (data : List UInt8) :
    (s.writeAt start data).image = s.image.write start data := rfl

@[simp] theorem writeAt_inodeTable (s : PopulateState) (start : Nat) (data : List UInt8) :
    (s.writeAt start data).inodeTable = s.inodeTable := rfl

theorem Counters.setInode (hc : Counters s offset total next inodes) (idx : Nat)
    (inode : BsfsInode) : Counters (s.setInode idx inode) offset total next inodes := by
  obtain ⟨h1, h2, h3, h4, h5, h6, h7, h8, h9, h10, h11⟩ := hc
  exact ⟨h1, h2, h3, h4, h5, h6, h7, h8, h9, h10, h11⟩

theorem Counters.writeAt (hc : Counters s offset total next inodes)
    (hend : start + data.length ≤ 4096 * total) :
    Counters (s.writeAt start data) offset total next inodes := by
  have hsize : (s.image.write start data).size = 4096 * total := by
    rw [HostFile.write_size (by rw [hc.imageSize]; exact hend), hc.imageSize]
  obtain ⟨h1, h2, h3, h4, h5, h6, h7, h8, h9, h10, h11⟩ := hc
  exact ⟨h1, h2, hsize, h4, h5, h6, h7, h8, h9, h10, h11⟩

theorem modifyInode_of_lt {f : BsfsInode → BsfsInode} (hidx : idx < s.header.inodeCount) :
    modifyInode idx f s = .ok () (s.setInode idx (f (s.inodeTable idx))) := by
  unfold modifyInode
  rw [get_bind, bind_of_ok (undefinedIf_of_not (Nat.not_le.mpr hidx))]
  rfl

theorem seek_write (hstart : start < 2 ^ 63) :
    (seekImage start >>= fun _ => writeImage data) s = .ok () (s.writeAt start data) := by
  unfold seekImage writeImage
  rw [bind_of_ok (a := PUnit.unit) (modify_eq_ok.mpr rfl), if_pos hstart]
  rfl

/-- A block of the image is written where it lies. -/
theorem writeBlock_of_lt (hc : Counters s offset total next inodes) (hblock : block < total) :
    writeBlock block data s = .ok () (s.writeAt (4096 * block) data) := by
  have hsmall := hc.small
  have hoffset : populateOffset s.header block = 4096 * block := by
    unfold populateOffset BsfsHeader.blockOffset
    rw [hc.volume.blockSize]
    exact u32_of_lt (by omega)
  unfold writeBlock
  rw [get_bind, hoffset, seek_write (by omega)]

theorem writeDirent_of_lt {inode : Nat} {name : CString} (hstart : start < 2 ^ 63) :
    writeDirent start inode name s = .ok () (s.writeAt start (direntBytes inode name)) :=
  seek_write hstart

end Writes

end Pristine.Bsfs
