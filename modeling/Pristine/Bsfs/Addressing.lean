import Pristine.Bsfs.Fread
import Pristine.Bsfs.Mkfs

/-!
# Where a block lies in the image

Every program forms the product of a block index and the block size for itself.
`mkfs.bsfs` does it in 64 bits; `bsfs-populate`, `bsfs-extract`, the shared
`bsfs_alloc_dirent` and the kernel do it in 32 bits.  `addressing_exact_iff`
says for which volumes all of them are right: the furthest place of an entry in
the last block must lie below 4 GiB.  With blocks that hold whole entries these
are the volumes of at most 4 GiB; other block sizes leave a little more room.
-/

namespace Pristine.Bsfs

open Lib Kernel

/-- `header->block_size * block`, a product of two `uint32_t`. -/
def BsfsHeader.blockOffset (h : BsfsHeader) (block : Nat) : Nat := u32 (h.blockSize * block)

/-- Where `bsfs-populate` seeks to write a block, and to write a bitmap or the inode table. -/
def populateOffset (h : BsfsHeader) (block : Nat) : Nat := h.blockOffset block

/-- Where `bsfs-extract` seeks to read a block. -/
def extractOffset (h : BsfsHeader) (block : Nat) : Nat := h.blockOffset block

/-- What `bsfs_alloc_dirent` returns for a directory of `size` bytes whose next entry belongs in
`block`. -/
def direntOffset (h : BsfsHeader) (block size : Nat) : Nat :=
  u32 (h.blockOffset block + size % h.blockSize)

/-- `ATA_PIO_SECTOR_SIZE`. -/
def ataPioSectorSize : Nat := 512

/-- The part of the kernel's context that the header gives. -/
def BsfsHeader.context (h : BsfsHeader) : BsfsContext := ⟨h.blockSize, ataPioSectorSize⟩

/-- `inode_offset` of `bsfs_read_inode`. -/
def inodeOffset (h : BsfsHeader) (inodeIdx : Nat) : Nat :=
  u32 (u32 (h.inodeTableStart * h.blockSize) + sizeofBsfsInode * inodeIdx)

/-- The sector `bsfs_read_inode` reads. -/
def inodeSectorLba (h : BsfsHeader) (inodeIdx : Nat) : Nat :=
  inodeOffset h inodeIdx / ataPioSectorSize

/-- Which inode of its sector it takes. -/
def inodeSlot (h : BsfsHeader) (inodeIdx : Nat) : Nat :=
  inodeOffset h inodeIdx % ataPioSectorSize / sizeofBsfsInode

/-- A size that a directory has when its next entry is placed: whole entries, in its direct
blocks. -/
structure DirectorySize (blockSize size : Nat) : Prop where
  entries : size % sizeofBsfsDirent = 0
  below : size < bsfsMaxDirectblocks * blockSize

/-- Every address is the product over the integers, so blocks do not overlap and data blocks lie
behind the metadata. -/
structure ExactAddressing (h : BsfsHeader) : Prop where
  populate : ∀ block, block < h.totalBlocks → populateOffset h block = block * h.blockSize
  dirent : ∀ block size, block < h.totalBlocks → DirectorySize h.blockSize size →
    direntOffset h block size = block * h.blockSize + size % h.blockSize
  extract : ∀ block, block < h.totalBlocks → extractOffset h block = block * h.blockSize
  /-- `bsfs_fread` and `bsfs_resolve_path` -/
  kernel : h.blockSize = 4096 → ∀ block, block < h.totalBlocks →
    h.context.lba block * ataPioSectorSize = block * h.blockSize
  inode : h.blockSize = 4096 → ∀ inodeIdx, inodeIdx < h.inodeCount →
    inodeSectorLba h inodeIdx * ataPioSectorSize + inodeSlot h inodeIdx * sizeofBsfsInode =
      h.inodeTableStart * h.blockSize + inodeIdx * sizeofBsfsInode
  apart : ∀ b b', b < h.totalBlocks → b' < h.totalBlocks → b ≠ b' →
    ∀ k k', k < h.blockSize → k' < h.blockSize → populateOffset h b + k ≠ populateOffset h b' + k'
  data : ∀ block, h.dataStart ≤ block → block < h.totalBlocks →
    h.dataStart * h.blockSize ≤ populateOffset h block

/-! ## The last entry of a block -/

/-- Where in block `j` of a directory the last entry begins that begins there. -/
def lastEntry (blockSize j : Nat) : Nat :=
  (j * blockSize + blockSize - 1) / sizeofBsfsDirent * sizeofBsfsDirent - j * blockSize

/-- The furthest such place in any block. -/
def lastEntryOffset (blockSize : Nat) : Nat :=
  (Finset.range bsfsMaxDirectblocks).sup (lastEntry blockSize)

section LastEntry

variable {blockSize size j : Nat}

theorem DirectorySize.le_lastEntryOffset (hsize : DirectorySize blockSize size) :
    size % blockSize ≤ lastEntryOffset blockSize := by
  obtain ⟨hentries, hbelow⟩ := hsize
  have hj : size / blockSize < bsfsMaxDirectblocks := by
    rw [Nat.mul_comm] at hbelow
    exact Nat.div_lt_of_lt_mul hbelow
  have hpos : 0 < blockSize := by
    by_contra hzero
    rw [Nat.eq_zero_of_not_pos hzero] at hbelow
    omega
  have hsup : lastEntry blockSize (size / blockSize) ≤ lastEntryOffset blockSize :=
    Finset.le_sup (Finset.mem_range.mpr hj)
  have hsplit := Nat.div_add_mod' size blockSize
  have hmod := Nat.mod_lt size hpos
  unfold lastEntry sizeofBsfsDirent at hsup
  unfold sizeofBsfsDirent at hentries
  omega

/-- The entry at the furthest place belongs to a directory. -/
theorem exists_lastEntryOffset (hleast : sizeofBsfsDirent ≤ blockSize) :
    ∃ size, DirectorySize blockSize size ∧ size % blockSize = lastEntryOffset blockSize := by
  obtain ⟨j, hj, hsup⟩ := Finset.exists_mem_eq_sup (Finset.range bsfsMaxDirectblocks)
    ⟨0, by decide⟩ (lastEntry blockSize)
  have hblocks : (j + 1) * blockSize ≤ bsfsMaxDirectblocks * blockSize :=
    Nat.mul_le_mul_right _ (Finset.mem_range.mp hj)
  rw [Nat.add_mul, Nat.one_mul] at hblocks
  have hplace : (j * blockSize + blockSize - 1) / sizeofBsfsDirent * sizeofBsfsDirent =
      lastEntry blockSize j + j * blockSize ∧ lastEntry blockSize j < blockSize := by
    unfold lastEntry sizeofBsfsDirent at *
    omega
  refine ⟨(j * blockSize + blockSize - 1) / sizeofBsfsDirent * sizeofBsfsDirent,
    ⟨Nat.mul_mod_left .., ?_⟩, ?_⟩
  · rw [hplace.1]
    omega
  · rw [hplace.1, Nat.add_mul_mod_self_right, Nat.mod_eq_of_lt hplace.2]
    exact hsup.symm

end LastEntry

section Exact

variable {h : BsfsHeader} {block size : Nat}

theorem blockOffset_eq (hlt : block * h.blockSize < 2 ^ 32) :
    h.blockOffset block = block * h.blockSize := by
  unfold BsfsHeader.blockOffset
  rw [Nat.mul_comm, u32_of_lt hlt]

theorem direntOffset_eq (hlt : block * h.blockSize + size % h.blockSize < 2 ^ 32) :
    direntOffset h block size = block * h.blockSize + size % h.blockSize := by
  unfold direntOffset
  rw [blockOffset_eq (by omega), u32_of_lt hlt]

/-- No block begins behind the last one. -/
theorem block_le_last (hblock : block < h.totalBlocks) :
    block * h.blockSize ≤ (h.totalBlocks - 1) * h.blockSize :=
  Nat.mul_le_mul_right _ (by omega)

/-- Different blocks are at least a block apart. -/
theorem blocks_apart {b b' bs k k' : Nat} (hne : b ≠ b') (hk : k < bs) (hk' : k' < bs) :
    b * bs + k ≠ b' * bs + k' := by
  intro heq
  have hdiv : (b * bs + k) / bs = (b' * bs + k') / bs := by rw [heq]
  rw [Nat.mul_comm b, Nat.mul_comm b', Nat.mul_add_div (by omega), Nat.mul_add_div (by omega),
    Nat.div_eq_of_lt hk, Nat.div_eq_of_lt hk'] at hdiv
  exact hne (by omega)

theorem inode_address (hsmall : h.inodeTableStart * h.blockSize + sizeofBsfsInode * h.inodeCount < 2 ^ 32)
    (hbs : h.blockSize = 4096) {inodeIdx : Nat} (hidx : inodeIdx < h.inodeCount) :
    inodeSectorLba h inodeIdx * ataPioSectorSize + inodeSlot h inodeIdx * sizeofBsfsInode =
      h.inodeTableStart * h.blockSize + inodeIdx * sizeofBsfsInode := by
  rw [hbs] at hsmall
  unfold inodeSectorLba inodeSlot inodeOffset ataPioSectorSize u32
  unfold sizeofBsfsInode at *
  rw [hbs]
  omega

end Exact

/-- With blocks of 4096 bytes the inode table of a volume of at most 4 GiB lies below 4 GiB. -/
theorem inodeTable_below {offset imageSize : Nat} (hoffset : offset ≤ 1024)
    (hsize : imageSize ≤ 2 ^ 32) :
    (mkfsHeader 4096 offset imageSize).inodeTableStart * 4096 +
      sizeofBsfsInode * (mkfsHeader 4096 offset imageSize).inodeCount < 2 ^ 32 := by
  obtain ⟨-, -, hcount, hblock, hblocks, hmega, hmegas, hmegaSize, hinode, hinodes, htable, -, -⟩ :=
    mkfsHeader_smallVolume hoffset hsize
  unfold sizeofBsfsInode
  omega

/-- All addresses are right exactly if the last place for an entry in the last block is below
4 GiB. -/
theorem addressing_exact_iff {blockSize offset imageSize : Nat}
    (haccepts : MkfsAccepts blockSize offset imageSize) (hmax : imageSize ≤ 2 ^ 44) :
    ExactAddressing (mkfsHeader blockSize offset imageSize) ↔
      ((mkfsHeader blockSize offset imageSize).totalBlocks - 1) * blockSize +
        lastEntryOffset blockSize < 2 ^ 32 := by
  have hleast : sizeofBsfsDirent ≤ blockSize := le_trans (by decide) haccepts.least
  obtain ⟨size, hdirectory, hlast⟩ := exists_lastEntryOffset hleast
  have hbs : (mkfsHeader blockSize offset imageSize).blockSize = blockSize := rfl
  constructor
  · intro hexact
    by_cases htotal : (mkfsHeader blockSize offset imageSize).totalBlocks = 0
    · have hmod := Nat.mod_lt size (show 0 < blockSize by unfold sizeofBsfsDirent at hleast; omega)
      have hmost := haccepts.most
      rw [htotal]
      omega
    · have haddr := hexact.dirent ((mkfsHeader blockSize offset imageSize).totalBlocks - 1) size
        (by omega) hdirectory
      rw [hbs, hlast] at haddr
      rw [← haddr]
      exact u32_lt _
  · intro hsize
    have hblock {block : Nat} (hlt : block < (mkfsHeader blockSize offset imageSize).totalBlocks) :
        (mkfsHeader blockSize offset imageSize).blockOffset block = block * blockSize := by
      have hle := block_le_last hlt
      rw [hbs] at hle
      exact blockOffset_eq (by rw [hbs]; omega)
    refine ⟨fun block hlt => hblock hlt, ?_, fun block hlt => hblock hlt, ?_, ?_, ?_, ?_⟩
    · intro block size hlt hdirectory
      have hle := block_le_last hlt
      have hrest := hdirectory.le_lastEntryOffset
      exact direntOffset_eq (by rw [hbs] at *; omega)
    · intro hfour block hlt
      have heq := hblock hlt
      unfold BsfsHeader.blockOffset at heq
      show u32 (block * (mkfsHeader blockSize offset imageSize).blockSize) / 512 * 512 = _
      rw [Nat.mul_comm block, heq, hbs]
      rw [hbs] at hfour
      rw [hfour]
      omega
    · intro hfour inodeIdx hidx
      rw [hbs] at hfour
      subst hfour
      -- a volume of 16 TiB wraps to no blocks and no inodes at all
      have himage : imageSize ≤ 2 ^ 32 := by
        have hentry : lastEntryOffset 4096 = 3968 := by decide
        change inodeIdx < u32 (imageSize / 4096) / 4 at hidx
        change (u32 (imageSize / 4096) - 1) * 4096 + _ < 2 ^ 32 at hsize
        have hmultiple := haccepts.multiple
        unfold u32 at *
        omega
      exact inode_address (inodeTable_below haccepts.offset himage) hbs hidx
    · intro b b' hb hb' hne k k' hk hk'
      rw [populateOffset, populateOffset, hblock hb, hblock hb']
      exact blocks_apart hne hk hk'
    · intro block hstart hlt
      rw [populateOffset, hblock hlt]
      exact Nat.mul_le_mul_right _ hstart

/-- A volume of 64 MiB. -/
theorem addressing_exact_iff_small :
    ExactAddressing (mkfsHeader 4096 0 0x4000000) :=
  (addressing_exact_iff ⟨by decide, by decide, by decide, by decide⟩ (by decide)).mpr
    (by decide +kernel)

/-- On a volume of 4 GiB and one block, `bsfs-populate` writes the last block over the boot
sector. -/
theorem last_block_over_boot_sector :
    0x100000 < (mkfsHeader 4096 0 0x100001000).totalBlocks ∧
      populateOffset (mkfsHeader 4096 0 0x100001000) 0x100000 = 0 ∧
      ¬ ExactAddressing (mkfsHeader 4096 0 0x100001000) := by
  have hblock : 0x100000 < (mkfsHeader 4096 0 0x100001000).totalBlocks := by decide +kernel
  have hzero : populateOffset (mkfsHeader 4096 0 0x100001000) 0x100000 = 0 := by decide +kernel
  refine ⟨hblock, hzero, fun hexact => ?_⟩
  have hexact := hexact.populate _ hblock
  rw [hzero] at hexact
  exact absurd hexact (by decide)

end Pristine.Bsfs
