import Pristine.Bsfs.Mkfs

/-!
# The layout `mkfs.bsfs` computes

A header is sound when its regions follow one another inside the volume, its
bitmaps have a bit for everything they cover, and the inode table has room for
its inodes (`LayoutSound`).  `mkfs.bsfs` checks nothing of this.  What it writes
is sound exactly if the size of the inode table does not wrap around and the
volume is large enough for its own metadata (`layoutSound_iff`).
-/

namespace Pristine.Bsfs

open Lib

/-! ## Sound layouts -/

/-- The regions of a volume follow one another and hold what they are for. -/
structure LayoutSound (h : BsfsHeader) (offset : Nat) : Prop where
  /-- the header's block is the last reserved one -/
  blockBitmapStart : h.blockBitmapStart = offset + 1
  megablockBitmapStart : h.megablockBitmapStart = h.blockBitmapStart + h.blockBitmapBlocks
  inodeBitmapStart : h.inodeBitmapStart = h.megablockBitmapStart + h.megablockBitmapBlocks
  inodeTableStart : h.inodeTableStart = h.inodeBitmapStart + h.inodeBitmapBlocks
  dataStart : h.dataStart = h.inodeTableStart + h.inodeTableBlocks
  inside : h.dataStart ≤ h.totalBlocks
  blockBits : h.totalBlocks ≤ 8 * (h.blockBitmapBlocks * h.blockSize)
  /-- a megablock has as many blocks as a block of the bitmap has bits -/
  megablockBits : ∀ block, block < h.totalBlocks →
    block / (8 * h.blockSize) < 8 * h.megablockBitmapSize ∧
      h.megablockBitmapSize ≤ h.megablockBitmapBlocks * h.blockSize
  inodeBits : h.inodeCount ≤ 8 * (h.inodeBitmapBlocks * h.blockSize)
  inodeRoom : h.inodeCount * sizeofBsfsInode ≤ h.inodeTableBlocks * h.blockSize
  freeBlocks : h.freeBlocks + h.dataStart = h.totalBlocks

/-- The blocks that the metadata of a volume with `total` blocks take, without any bound on the
numbers. -/
def metadataNeeded (blockSize offset total : Nat) : Nat :=
  offset + 1 + divCeil total (8 * blockSize) +
    divCeil (divCeil (divCeil total (8 * blockSize)) 8) blockSize +
    divCeil (total / 4) (8 * blockSize) + divCeil (total / 4 * sizeofBsfsInode) blockSize

/-- The size of the inode table fits 32 bits, and the metadata fit the volume. -/
def LayoutFits (blockSize offset imageSize : Nat) : Prop :=
  imageSize / blockSize % 2 ^ 32 < 2 ^ 27 ∧
    metadataNeeded blockSize offset (imageSize / blockSize % 2 ^ 32) ≤
      imageSize / blockSize % 2 ^ 32

instance (blockSize offset imageSize : Nat) : Decidable (LayoutFits blockSize offset imageSize) :=
  inferInstanceAs (Decidable (_ ∧ _))

section Header

variable {blockSize offset imageSize total : Nat}

/-- All numbers but the size of the inode table fit their type, up to eight blocks below the
largest volume. -/
theorem mkfsLayout_eq (hleast : 1024 ≤ blockSize) (hoffset : offset ≤ 1024)
    (htotal : imageSize / blockSize % 2 ^ 32 = total) (hlarge : total + 7 < 2 ^ 32) :
    mkfsLayout blockSize offset imageSize =
      { totalBlocks := total
        totalMegablocks := divCeil total (8 * blockSize)
        inodeCount := total / 4
        blockBitmapBlocks := divCeil total (8 * blockSize)
        megablockBitmapBytes := divCeil (divCeil total (8 * blockSize)) 8
        megablockBitmapBlocks := divCeil (divCeil (divCeil total (8 * blockSize)) 8) blockSize
        inodeBitmapBlocks := divCeil (total / 4) (8 * blockSize)
        inodeTableBlocks := divCeil (total / 4 * sizeofBsfsInode % 2 ^ 32) blockSize
        reservedBlocks := offset + 1 } := by
  have hpos : 0 < blockSize := by omega
  have hcomm : blockSize * 8 = 8 * blockSize := Nat.mul_comm blockSize 8
  have htotal32 : u32 (imageSize / blockSize) = total := by
    unfold u32
    exact htotal
  have hmega : divCeil total (8 * blockSize) ≤ 2 ^ 19 :=
    (divCeil_le_iff (by omega)).mpr (by omega)
  have hbytes (n : Nat) (hn : n + 7 < 2 ^ 32) : divCeil32 n 8 = divCeil n 8 := by
    unfold divCeil32 divCeil
    rw [u32_of_lt (by omega)]
  have hround (n : Nat) (hn : n ≤ 2 ^ 32) : u32 (divCeil n blockSize) = divCeil n blockSize := by
    have hle : divCeil n blockSize ≤ 2 ^ 22 := divCeil_le_of_blockSize hleast (by omega)
    exact u32_of_lt (by omega)
  have heighth (n : Nat) (hn : n < 2 ^ 32) : divCeil n 8 ≤ 2 ^ 29 :=
    (divCeil_le_iff (by decide)).mpr (by omega)
  have htable : u32 (total / 4 * sizeofBsfsInode) = total / 4 * sizeofBsfsInode % 2 ^ 32 := by
    unfold u32
    rfl
  have hblock : u32 (divCeil (divCeil total 8) blockSize) = divCeil total (8 * blockSize) := by
    rw [hround _ (by have := heighth total (by omega); omega), divCeil_divCeil (by decide) hpos]
  have hinode : u32 (divCeil (divCeil (total / 4) 8) blockSize) =
      divCeil (total / 4) (8 * blockSize) := by
    rw [hround _ (by have := heighth (total / 4) (by omega); omega), divCeil_divCeil (by decide) hpos]
  have hmegaBlocks : u32 (divCeil (divCeil (divCeil total (8 * blockSize)) 8) blockSize) =
      divCeil (divCeil (divCeil total (8 * blockSize)) 8) blockSize :=
    hround _ (by have := heighth (divCeil total (8 * blockSize)) (by omega); omega)
  have htableBlocks : u32 (divCeil (total / 4 * sizeofBsfsInode % 2 ^ 32) blockSize) =
      divCeil (total / 4 * sizeofBsfsInode % 2 ^ 32) blockSize :=
    hround _ (by omega)
  unfold mkfsLayout
  simp only [htotal32, hcomm, u32_of_lt (show divCeil total (8 * blockSize) < 2 ^ 32 by omega),
    hbytes total hlarge, hbytes (total / 4) (by omega),
    hbytes (divCeil total (8 * blockSize)) (by omega), htable, hblock, hinode, hmegaBlocks,
    htableBlocks, u32_of_lt (show offset + 1 < 2 ^ 32 by omega)]

/-- The regions in the header of a volume with `total` blocks. -/
structure HeaderRegions (h : BsfsHeader) (bs offset total : Nat) : Prop where
  blockSize : h.blockSize = bs
  totalBlocks : h.totalBlocks = total
  inodeCount : h.inodeCount = total / 4
  blockBitmapBlocks : h.blockBitmapBlocks = divCeil total (8 * bs)
  megablockBitmapSize : h.megablockBitmapSize = divCeil (divCeil total (8 * bs)) 8
  megablockBitmapBlocks :
    h.megablockBitmapBlocks = divCeil (divCeil (divCeil total (8 * bs)) 8) bs
  inodeBitmapBlocks : h.inodeBitmapBlocks = divCeil (total / 4) (8 * bs)
  inodeTableBlocks :
    h.inodeTableBlocks = divCeil (total / 4 * sizeofBsfsInode % 2 ^ 32) bs
  blockBitmapStart : h.blockBitmapStart = offset + 1
  megablockBitmapStart : h.megablockBitmapStart = h.blockBitmapStart + h.blockBitmapBlocks
  inodeBitmapStart : h.inodeBitmapStart = h.megablockBitmapStart + h.megablockBitmapBlocks
  inodeTableStart : h.inodeTableStart = h.inodeBitmapStart + h.inodeBitmapBlocks
  dataStart : h.dataStart = h.inodeTableStart + h.inodeTableBlocks
  freeBlocks : h.freeBlocks = u32 (total + 2 ^ 32 - h.dataStart)

/-- The regions of a volume are short. -/
theorem regions_short (hleast : 1024 ≤ blockSize) {total : Nat} (htotal : total < 2 ^ 32) :
    divCeil total (8 * blockSize) ≤ 2 ^ 19 ∧
      divCeil (divCeil (divCeil total (8 * blockSize)) 8) blockSize ≤ 2 ^ 6 ∧
      divCeil (total / 4) (8 * blockSize) ≤ 2 ^ 17 ∧
      divCeil (total / 4 * sizeofBsfsInode % 2 ^ 32) blockSize ≤ 2 ^ 22 := by
  have hmega : divCeil total (8 * blockSize) ≤ 2 ^ 19 :=
    (divCeil_le_iff (by omega)).mpr (by omega)
  have hmegaBytes : divCeil (divCeil total (8 * blockSize)) 8 ≤ 2 ^ 16 :=
    (divCeil_le_iff (by decide)).mpr (by omega)
  exact ⟨hmega, divCeil_le_of_blockSize hleast (by omega), (divCeil_le_iff (by omega)).mpr (by omega),
    divCeil_le_of_blockSize hleast (by omega)⟩

theorem mkfsHeader_regions (hleast : 1024 ≤ blockSize) (hoffset : offset ≤ 1024)
    (htotal : imageSize / blockSize % 2 ^ 32 = total) (hlarge : total + 7 < 2 ^ 32) :
    HeaderRegions (mkfsHeader blockSize offset imageSize) blockSize offset total := by
  obtain ⟨hblock, hmega, hinode, htable⟩ := regions_short hleast (show total < 2 ^ 32 by omega)
  have hlayout := mkfsLayout_eq hleast hoffset htotal hlarge
  unfold mkfsHeader
  simp only [hlayout, MkfsLayout.dataStart, MkfsLayout.inodeTableStart, MkfsLayout.inodeBitmapStart,
    MkfsLayout.megablockBitmapStart, MkfsLayout.blockBitmapStart, MkfsLayout.metadataBlocks]
  generalize hmegaOf : divCeil (divCeil (divCeil total (8 * blockSize)) 8) blockSize = mega at *
  generalize hblockOf : divCeil total (8 * blockSize) = block at *
  generalize hinodeOf : divCeil (total / 4) (8 * blockSize) = inode at *
  generalize htableOf : divCeil (total / 4 * sizeofBsfsInode % 2 ^ 32) blockSize = table at *
  rw [u32_of_lt (show offset + 1 + block < 2 ^ 32 by omega),
    u32_of_lt (show offset + 1 + block + mega < 2 ^ 32 by omega),
    u32_of_lt (show offset + 1 + block + mega + inode < 2 ^ 32 by omega),
    u32_of_lt (show offset + 1 + block + mega + inode + table < 2 ^ 32 by omega)]
  exact ⟨rfl, rfl, rfl, hblockOf.symm, by rw [hblockOf], by rw [hblockOf, hmegaOf], hinodeOf.symm,
    htableOf.symm, rfl, rfl, rfl, rfl, rfl, rfl⟩

/-- From `2 ^ 27` blocks on the table is too small for its inodes. -/
theorem inodeTable_wraps (offset : Nat) (hleast : 1024 ≤ blockSize) (hmost : blockSize ≤ 16384)
    (hbig : 2 ^ 27 ≤ imageSize / blockSize % 2 ^ 32) :
    (mkfsHeader blockSize offset imageSize).inodeTableBlocks * blockSize <
      (mkfsHeader blockSize offset imageSize).inodeCount * sizeofBsfsInode := by
  have hcount : (mkfsHeader blockSize offset imageSize).inodeCount =
      imageSize / blockSize % 2 ^ 32 / 4 := by
    unfold mkfsHeader mkfsLayout u32
    rfl
  have htable : (mkfsHeader blockSize offset imageSize).inodeTableBlocks ≤
      divCeil (imageSize / blockSize % 2 ^ 32 / 4 * sizeofBsfsInode % 2 ^ 32) blockSize := by
    unfold mkfsHeader mkfsLayout u32
    exact Nat.mod_le _ _
  rw [hcount]
  generalize imageSize / blockSize % 2 ^ 32 = total at *
  have hround := divCeil_mul_lt (total / 4 * sizeofBsfsInode % 2 ^ 32)
    (show 0 < blockSize by omega)
  have hblocks := Nat.mul_le_mul_right blockSize htable
  unfold sizeofBsfsInode at *
  omega

/-- Below `2 ^ 27` blocks the table has its full size, and the metadata end where they should. -/
theorem HeaderRegions.exact {h : BsfsHeader} (hr : HeaderRegions h blockSize offset total)
    (hsmall : total < 2 ^ 27) :
    h.inodeTableBlocks = divCeil (total / 4 * sizeofBsfsInode) blockSize ∧
      h.dataStart = metadataNeeded blockSize offset total := by
  have htable : h.inodeTableBlocks = divCeil (total / 4 * sizeofBsfsInode) blockSize := by
    rw [hr.inodeTableBlocks, Nat.mod_eq_of_lt]
    unfold sizeofBsfsInode
    omega
  refine ⟨htable, ?_⟩
  rw [hr.dataStart, hr.inodeTableStart, hr.inodeBitmapStart, hr.megablockBitmapStart,
    hr.blockBitmapStart, htable, hr.blockBitmapBlocks, hr.megablockBitmapBlocks,
    hr.inodeBitmapBlocks]
  rfl

/-- A bitmap in whole blocks has a bit for everything it covers. -/
theorem le_bitmapBits (hpos : 0 < blockSize) (n : Nat) :
    n ≤ 8 * (divCeil n (8 * blockSize) * blockSize) := by
  have hle := le_divCeil_mul n (show 0 < 8 * blockSize by omega)
  rw [Nat.mul_left_comm] at hle
  exact hle

/-- The header of an accepted image is sound exactly if the layout fits. -/
theorem layoutSound_iff {blockSize offset imageSize : Nat}
    (haccepts : MkfsAccepts blockSize offset imageSize) :
    LayoutSound (mkfsHeader blockSize offset imageSize) offset ↔
      LayoutFits blockSize offset imageSize := by
  obtain ⟨hleast, hmost, hoffset, -⟩ := haccepts
  have hpos : 0 < blockSize := by omega
  have hregions (hsmall : imageSize / blockSize % 2 ^ 32 < 2 ^ 27) :
      HeaderRegions (mkfsHeader blockSize offset imageSize) blockSize offset
        (imageSize / blockSize % 2 ^ 32) :=
    mkfsHeader_regions hleast hoffset rfl (by omega)
  constructor
  · intro hsound
    have hsmall : imageSize / blockSize % 2 ^ 32 < 2 ^ 27 := by
      by_contra hbig
      have hwraps := inodeTable_wraps offset hleast hmost (Nat.le_of_not_lt hbig)
      have hroom := hsound.inodeRoom
      rw [show (mkfsHeader blockSize offset imageSize).blockSize = blockSize from rfl] at hroom
      omega
    have hinside := hsound.inside
    rw [((hregions hsmall).exact hsmall).2, (hregions hsmall).totalBlocks] at hinside
    exact ⟨hsmall, hinside⟩
  · rintro ⟨hsmall, hfits⟩
    have hr := hregions hsmall
    obtain ⟨htable, hneeded⟩ := hr.exact hsmall
    generalize mkfsHeader blockSize offset imageSize = h at *
    generalize imageSize / blockSize % 2 ^ 32 = total at *
    refine ⟨hr.blockBitmapStart, hr.megablockBitmapStart, hr.inodeBitmapStart, hr.inodeTableStart,
      hr.dataStart, ?_, ?_, ?_, ?_, ?_, ?_⟩
    · rw [hneeded, hr.totalBlocks]
      exact hfits
    · rw [hr.totalBlocks, hr.blockBitmapBlocks, hr.blockSize]
      exact le_bitmapBits hpos total
    · intro block hblock
      rw [hr.totalBlocks] at hblock
      rw [hr.megablockBitmapSize, hr.megablockBitmapBlocks, hr.blockSize]
      refine ⟨?_, le_divCeil_mul _ hpos⟩
      have hcount := div_lt_divCeil (show 0 < 8 * blockSize by omega) hblock
      have hbits := le_divCeil_mul (divCeil total (8 * blockSize)) (show 0 < 8 by decide)
      omega
    · rw [hr.inodeCount, hr.inodeBitmapBlocks, hr.blockSize]
      exact le_bitmapBits hpos (total / 4)
    · rw [hr.inodeCount, htable, hr.blockSize]
      exact le_divCeil_mul _ hpos
    · rw [hr.freeBlocks, hneeded, hr.totalBlocks]
      generalize metadataNeeded blockSize offset total = needed at *
      rw [show total + 2 ^ 32 - needed = 2 ^ 32 + (total - needed) by omega]
      unfold u32
      omega

/-- 16 GiB in blocks of 1024 bytes are laid out soundly. -/
theorem layoutSound_16GiB : LayoutFits 1024 0 (2 ^ 34) ∧ LayoutSound (mkfsHeader 1024 0 (2 ^ 34)) 0 := by
  have hfits : LayoutFits 1024 0 (2 ^ 34) := by decide
  exact ⟨hfits, (layoutSound_iff ⟨by decide, by decide, by decide, by decide⟩).mpr hfits⟩

/-- A volume of two blocks has its data behind its end, and `2 ^ 32 - 1` free blocks.  One of
512 GiB has `2 ^ 25` inodes and no block for their table. -/
theorem layout_unsound :
    (MkfsAccepts 4096 0 8192 ∧ (mkfsHeader 4096 0 8192).totalBlocks = 2 ∧
      (mkfsHeader 4096 0 8192).dataStart = 3 ∧
      (mkfsHeader 4096 0 8192).freeBlocks = 2 ^ 32 - 1 ∧
      ¬ LayoutSound (mkfsHeader 4096 0 8192) 0) ∧
    (MkfsAccepts 4096 0 (2 ^ 39) ∧ (mkfsHeader 4096 0 (2 ^ 39)).inodeCount = 2 ^ 25 ∧
      (mkfsHeader 4096 0 (2 ^ 39)).inodeTableBlocks = 0 ∧
      ¬ LayoutSound (mkfsHeader 4096 0 (2 ^ 39)) 0) := by
  have htotal : (mkfsHeader 4096 0 8192).totalBlocks = 2 := by decide +kernel
  have hdata : (mkfsHeader 4096 0 8192).dataStart = 3 := by decide +kernel
  have hcount : (mkfsHeader 4096 0 (2 ^ 39)).inodeCount = 2 ^ 25 := by decide +kernel
  have htable : (mkfsHeader 4096 0 (2 ^ 39)).inodeTableBlocks = 0 := by decide +kernel
  refine ⟨⟨⟨by decide, by decide, by decide, by decide⟩, htotal, hdata, by decide +kernel, ?_⟩,
    ⟨by decide, by decide, by decide, by decide⟩, hcount, htable, ?_⟩
  · intro hsound
    have hinside := hsound.inside
    rw [htotal, hdata] at hinside
    omega
  · intro hsound
    have hroom := hsound.inodeRoom
    rw [htable, hcount] at hroom
    exact absurd hroom (by decide)

end Header

end Pristine.Bsfs
