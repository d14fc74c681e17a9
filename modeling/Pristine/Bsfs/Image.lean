import Pristine.Bsfs.HostTree

/-!
# Records in an image

Header and inodes as `mkfs.bsfs` and `bsfs-populate` write them and as every
program reads them back.
-/

namespace Pristine.Bsfs

open Lib Kernel

/-- The header of the volume that begins at byte `base`. -/
def readHeader (img : ByteMem) (base : Nat) : BsfsHeader :=
  let word := fun i => loadLE img (base + headerFieldsOffset + 4 * i) 4
  { magic := word 0
    version := word 1
    blockSize := word 2
    totalBlocks := word 3
    inodeCount := word 4
    freeBlocks := word 5
    freeInodes := word 6
    blockBitmapStart := word 7
    blockBitmapBlocks := word 8
    megablockBitmapStart := word 9
    megablockBitmapBlocks := word 10
    megablockBitmapSize := word 11
    inodeBitmapStart := word 12
    inodeBitmapBlocks := word 13
    inodeTableStart := word 14
    inodeTableBlocks := word 15
    dataStart := word 16
    rootInode := word 17
    partitionLba := loadLE img (base + headerFieldsOffset + 72) 8 }

/-- The inode at byte `addr`. -/
def readInode (img : ByteMem) (addr : Nat) : BsfsInode where
  type := loadLE img addr 1
  permissions := loadLE img (addr + 1) 2
  uid := loadLE img (addr + 3) 4
  gid := loadLE img (addr + 7) 4
  size := loadLE img (addr + 11) 8
  blocks := loadLE img (addr + 19) 4
  created := loadLE img (addr + 23) 8
  modified := loadLE img (addr + 31) 8
  accessed := loadLE img (addr + 39) 8
  linkCount := loadLE img (addr + 47) 4
  blocksDirect := fun k => loadLE img (addr + 51 + 4 * k.val) 4
  blocksL1indirect := loadLE img (addr + 91) 4
  blocksL2indirect := loadLE img (addr + 95) 4
  blocksL3indirect := loadLE img (addr + 99) 4
  checksum := loadLE img (addr + 103) 4

/-- Every number of the header fits its field. -/
def BsfsHeader.Fits (h : BsfsHeader) : Prop := ∀ f ∈ h.fields, f.2 < 256 ^ f.1

/-- A header reads back as it was written. -/
theorem readHeader_of_bytes {img : ByteMem} {base : Nat} {h : BsfsHeader} (hfits : h.Fits)
    (hbytes : ∀ k, k < 80 → img (base + 3 + k) = packed h.fields k) : readHeader img base = h := by
  have hwidth : packedWidth h.fields = 80 := by simp [packedWidth, BsfsHeader.fields]
  have hread : unpacked img (base + 3) (h.fields.map Prod.fst) = _ :=
    unpacked_packed fun k hk => hbytes k (hwidth ▸ hk)
  have hsame : (h.fields.map fun f => f.2 % 256 ^ f.1) = h.fields.map Prod.snd :=
    List.map_congr_left fun f hf => Nat.mod_eq_of_lt (hfits f hf)
  rw [hsame] at hread
  simp only [BsfsHeader.fields, List.map_cons, List.map_nil, unpacked, List.cons.injEq,
    Nat.add_assoc, Nat.reduceAdd, and_true] at hread
  obtain ⟨h1, h2, h3, h4, h5, h6, h7, h8, h9, h10, h11, h12, h13, h14, h15, h16, h17, h18, h19⟩ := hread
  unfold readHeader headerFieldsOffset
  simp only [Nat.add_assoc, Nat.reduceMul, Nat.reduceAdd, h1, h2, h3, h4, h5, h6, h7, h8, h9, h10, h11,
    h12, h13, h14, h15, h16, h17, h18, h19]

/-- The numbers of an inode that readers use fit their fields. -/
structure BsfsInode.Fits (i : BsfsInode) : Prop where
  type : i.type < 2 ^ 8
  size : i.size < 2 ^ 64
  direct : ∀ j, i.direct j < 2 ^ 32
  l1 : i.blocksL1indirect < 2 ^ 32
  checksum : i.type = bsfsInodeTypeFile → i.checksum < 2 ^ 32

/-- So does an inode, in the numbers that readers use. -/
theorem readInode_of_bytes {img : ByteMem} {addr : Nat} {i : BsfsInode} (hfits : i.Fits)
    (hbytes : ∀ k, k < 107 → img (addr + k) = packed i.fields k) :
    SameInode i (readInode img addr) := by
  have hwidth : packedWidth i.fields = 107 := by
    simp [packedWidth, BsfsInode.fields, bsfsMaxDirectblocks, List.ofFn_succ]
  have hread : unpacked img addr (i.fields.map Prod.fst) = _ :=
    unpacked_packed fun k hk => hbytes k (hwidth ▸ hk)
  have hfields : i.fields = [(1, i.type), (2, i.permissions), (4, i.uid), (4, i.gid), (8, i.size),
      (4, i.blocks), (8, i.created), (8, i.modified), (8, i.accessed), (4, i.linkCount),
      (4, i.direct 0), (4, i.direct 1), (4, i.direct 2), (4, i.direct 3),
      (4, i.direct 4), (4, i.direct 5), (4, i.direct 6), (4, i.direct 7),
      (4, i.direct 8), (4, i.direct 9), (4, i.blocksL1indirect),
      (4, i.blocksL2indirect), (4, i.blocksL3indirect), (4, i.checksum)] := rfl
  rw [hfields] at hread
  simp only [List.map_cons, List.map_nil, unpacked, List.cons.injEq,
    Nat.add_assoc, Nat.reduceAdd, and_true] at hread
  obtain ⟨htype, -, -, -, hsize, -, -, -, -, -, h0, h1, h2, h3, h4, h5, h6, h7, h8, h9, hl1, -, -,
    hchecksum⟩ := hread
  have hdirect (j : Nat) (hj : j < 10) : loadLE img (addr + 51 + 4 * j) 4 = i.direct j := by
    rw [← Nat.mod_eq_of_lt (hfits.direct j), Nat.add_assoc]
    interval_cases j <;> assumption
  refine ⟨?_, ?_, ?_, ?_, ?_⟩
  · exact htype.trans (Nat.mod_eq_of_lt hfits.type)
  · exact hsize.trans (Nat.mod_eq_of_lt hfits.size)
  · intro j
    by_cases hj : j < bsfsMaxDirectblocks
    · exact (dif_pos hj).trans (hdirect j hj)
    · unfold BsfsInode.direct
      rw [dif_neg hj, dif_neg hj]
  · exact hl1.trans (Nat.mod_eq_of_lt hfits.l1)
  · exact fun htype => hchecksum.trans (Nat.mod_eq_of_lt (hfits.checksum htype))

end Pristine.Bsfs
