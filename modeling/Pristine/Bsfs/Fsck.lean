import Pristine.Bsfs.BlockRefs
import Pristine.Bsfs.DirentRefs

/-!
# What a consistency check of an image finds

`FsckOk` reads header, bitmaps, inodes, L1 tables and directories from an image
alone.  An image that holds a tree passes (`Populated.fsckOk`), hence so does what
`bsfs-populate` leaves on a formatted image when no panic arises
(`populateMain_fsckOk`).  A megablock stands for 32768 bits of the block bitmap,
not for its blocks: on a volume that ends inside a megablock its bit stays clear
when all blocks are taken (`fullVolume_megablock_clear`).
-/

namespace Pristine.Bsfs

open Lib Kernel

section Check

variable (img : ByteMem) (h : BsfsHeader)

/-- Inode `i` is taken in the inode bitmap. -/
def Allocated (i : Nat) : Prop :=
  i < h.inodeCount ∧ bitAt (region img h.inodeBitmapStart) i = true

/-- A pointer of an allocated inode or of its L1 table that names a block. -/
def Referenced (r : BlockRef) : Prop :=
  r.Present img (imageInode img h) ∧ Allocated img h r.inode

/-- Slot `p.2` of the allocated directory `p.1` holds an entry for inode `i`, other than `"."` and
`".."`. -/
structure Names (p : Nat × Nat) (i : Nat) : Prop where
  allocated : Allocated img h p.1
  type : (imageInode img h p.1).type = bsfsInodeTypeDirectory
  slot : p.2 < (imageInode img h p.1).entries
  ordinary : Ordinary (slotName img (imageInode img h p.1) p.2)
  inode : slotInode img (imageInode img h p.1) p.2 = i

/-- A consistent file system. -/
structure FsckOk : Prop where
  /-- the set bits of the block bitmap are the metadata and the referenced blocks -/
  blocks : ∀ b, b < 32768 * h.blockBitmapBlocks →
    (bitAt (region img h.blockBitmapStart) b = true ↔
      b < h.dataStart ∨ ∃ r, Referenced img h r ∧ r.block img (imageInode img h) = b)
  /-- references lead to data blocks of the volume -/
  inside : ∀ r, Referenced img h r →
    h.dataStart ≤ r.block img (imageInode img h) ∧ r.block img (imageInode img h) < h.totalBlocks
  /-- no block is referenced twice -/
  once : ∀ r r', Referenced img h r → Referenced img h r' →
    r.block img (imageInode img h) = r'.block img (imageInode img h) → r = r'
  /-- the bit of a megablock stands for one block of the block bitmap -/
  megablocks : ∀ mb, mb < h.blockBitmapBlocks →
    (bitAt (region img h.megablockBitmapStart) mb = true ↔
      ∀ i, i < 32768 → bitAt (region img h.blockBitmapStart) (32768 * mb + i) = true)
  named : ∀ i, Allocated img h i → i ≠ 0 → i ≠ h.rootInode → ∃! p, Names img h p i
  freeBlocks : h.freeBlocks = clearCount (region img h.blockBitmapStart) h.totalBlocks
  freeInodes : h.freeInodes = clearCount (region img h.inodeBitmapStart) h.inodeCount

end Check

/-! ## An image that holds a tree -/

theorem SameInode.zero_eq {i : BsfsInode} (hsame : SameInode .zero i) :
    i.type = bsfsInodeTypeFree ∧ i.blocksL1indirect = 0 ∧ ∀ j, i.direct j = 0 := by
  refine ⟨hsame.type, hsame.l1, fun j => ?_⟩
  rw [hsame.direct]
  unfold BsfsInode.direct
  split <;> rfl

section Populated

variable {img base : ByteMem} {h h' : BsfsHeader} {offset total : Nat} {tree : HostTree}
variable (hp : Populated img base h offset total tree)

include hp

/-- The root and what lies below it number the blocks of the tree. -/
theorem Populated.refs (hstorable : tree.Storable) (hlength : tree.length ≤ 318)
    (hpos : 0 < h.dataStart) :
    Set.BijOn (BlockRef.block img (imageInode img h))
      (rangeRefs img (imageInode img h) 1 (1 + 1 + tree.count))
      (Set.Ico h.dataStart (treeEnd h tree)) := by
  have hfirst : Set.BijOn (BlockRef.block img (imageInode img h)) {.direct 1 0}
      (Set.Ico h.dataStart (h.dataStart + 1)) := bijOn_Ico_single hp.root.first
  have hentries := hp.entries.refs hstorable (by omega) (by omega)
  rw [rangeRefs_dir hp.root hpos]
  exact bijOn_Ico_union hfirst hentries (by omega) (Nat.le_add_right _ _)

/-- The pointers of allocated inodes. -/
theorem Populated.referenced_iff (hv : SmallVolume h offset total) (r : BlockRef) :
    Referenced img h r ↔ r ∈ rangeRefs img (imageInode img h) 1 (1 + 1 + tree.count) := by
  have hinodes := hp.inodes_le
  have hcount := hv.inodeCount
  obtain ⟨-, hl1, hdirect⟩ := hp.sentinel.zero_eq
  unfold treeInodes at hinodes
  constructor
  · rintro ⟨hpresent, hlt, hbit⟩
    rw [hp.inodeBits _ (by omega), decide_eq_true_eq] at hbit
    unfold treeInodes at hbit
    refine ⟨hpresent, ?_, by omega⟩
    -- inode 0 has no pointers
    by_contra hzero
    obtain ⟨hnonzero, hplace⟩ := hpresent
    cases r with
    | direct inode j =>
      obtain rfl : inode = 0 := by
        change ¬ 1 ≤ inode at hzero
        omega
      exact hnonzero (hdirect j)
    | l1 inode =>
      obtain rfl : inode = 0 := by
        change ¬ 1 ≤ inode at hzero
        omega
      exact hnonzero hl1
    | entry inode j =>
      obtain rfl : inode = 0 := by
        change ¬ 1 ≤ inode at hzero
        omega
      exact hplace.1 hl1
  · rintro ⟨hpresent, -, hhi⟩
    refine ⟨hpresent, by omega, ?_⟩
    rw [hp.inodeBits _ (by omega), decide_eq_true_eq]
    unfold treeInodes
    omega

/-- The places of entries with ordinary names. -/
theorem Populated.ordinary_iff (hnames : tree.NoDots) {d j : Nat} (hd : d < treeInodes tree)
    (htype : (imageInode img h d).type = bsfsInodeTypeDirectory)
    (hj : j < (imageInode img h d).entries) :
    Ordinary (slotName img (imageInode img h d) j) ↔
      (d, j) ∈ treeDirents (imageInode img h) tree 1 2 2 := by
  have hpos : 1 ≤ d := by
    by_contra hzero
    rw [show d = 0 by omega, hp.sentinel.zero_eq.1] at htype
    exact absurd htype (by decide)
  unfold treeInodes at hd
  constructor
  · intro hordinary
    rw [← rangeDirents_dir hp.root]
    refine ⟨hpos, by omega, htype, ?_, hj⟩
    by_contra hdots
    by_cases hroot : d = 1
    · rw [hroot] at hordinary
      exact hp.root.not_ordinary (by omega) hordinary
    · obtain ⟨_, _, _, _, hdir⟩ := hp.entries.dirOn (by omega) hd htype
      exact hdir.not_ordinary (by omega) hordinary
  · exact fun hmem => hp.entries.ordinary hnames hmem

/-- The entries of the tree are the only ones that name inodes. -/
theorem Populated.names_iff (hv : SmallVolume h offset total) (hnames : tree.NoDots)
    (p : Nat × Nat) (i : Nat) :
    Names img h p i ↔ p ∈ treeDirents (imageInode img h) tree 1 2 2 ∧
      slotInode img (imageInode img h p.1) p.2 = i := by
  have hinodes := hp.inodes_le
  have hcount := hv.inodeCount
  constructor
  · rintro ⟨⟨hlt, hbit⟩, htype, hslot, hordinary, hinode⟩
    rw [hp.inodeBits _ (by omega), decide_eq_true_eq] at hbit
    exact ⟨(hp.ordinary_iff hnames hbit htype hslot).mp hordinary, hinode⟩
  · rintro ⟨hmem, hinode⟩
    have hplace := hmem
    rw [← rangeDirents_dir hp.root] at hplace
    obtain ⟨hlo, hhi, htype, -, hslot⟩ := hplace
    have hd : p.1 < treeInodes tree := by
      unfold treeInodes
      omega
    refine ⟨⟨by omega, ?_⟩, htype, hslot, ?_, hinode⟩
    · rw [hp.inodeBits _ (by omega), decide_eq_true_eq]
      exact hd
    · exact (hp.ordinary_iff hnames hd htype hslot).mpr hmem

/-- An image that holds a tree is consistent, up to the counts in its header. -/
theorem Populated.fsckOk (hv : SmallVolume h offset total) (hsmall : total < 2 ^ 20)
    (hstorable : tree.Storable) (hlength : tree.length ≤ 318) (hnames : tree.NoDots)
    (hroot : h.rootInode = 1) (hfreeBlocks : h.freeBlocks = total - treeEnd h tree)
    (hfreeInodes : h.freeInodes = total / 4 - treeInodes tree) : FsckOk img h := by
  have hblocks := hv.blockBitmapBlocks
  have hstart := hv.blockBitmapStart
  have hend := hp.blocks_le
  have hinodes := hp.inodes_le
  have hpos : 0 < h.dataStart := by
    have hdata := hv.dataStart
    have hmega := hv.megablockBitmapStart
    have hbitmap := hv.inodeBitmapStart
    have htable := hv.inodeTableStart
    omega
  have hrefs := hp.refs hstorable hlength hpos
  have hreferenced := hp.referenced_iff hv
  have hdirents := hp.entries.dirents (by unfold treeInodes at hinodes; omega)
  refine ⟨?_, ?_, ?_, ?_, ?_, ?_, ?_⟩
  · intro b hb
    rw [hp.blockBits b hb, decide_eq_true_eq]
    constructor
    · intro hlt
      by_cases hdata : b < h.dataStart
      · exact Or.inl hdata
      · obtain ⟨r, hr, hblock⟩ := hrefs.surjOn ⟨Nat.le_of_not_lt hdata, hlt⟩
        exact Or.inr ⟨r, (hreferenced r).mpr hr, hblock⟩
    · rintro (hdata | ⟨r, hr, rfl⟩)
      · unfold treeEnd
        omega
      · exact (hrefs.mapsTo ((hreferenced r).mp hr)).2
  · intro r hr
    have hin := hrefs.mapsTo ((hreferenced r).mp hr)
    rw [hv.totalBlocks]
    exact ⟨hin.1, hin.2.trans_le hend⟩
  · exact fun r r' hr hr' => hrefs.injOn ((hreferenced r).mp hr) ((hreferenced r').mp hr')
  · intro mb hmb
    rw [hp.megablockBits mb (by have hsize := hv.megablockBitmapSize; omega), decide_eq_true_eq]
    constructor
    · intro hfull i hi
      rw [hp.blockBits _ (by omega), decide_eq_true_eq]
      omega
    · intro hall
      have hlast := hall 32767 (by omega)
      rw [hp.blockBits _ (by omega), decide_eq_true_eq] at hlast
      omega
  · intro i halloc hnonzero hnotRoot
    obtain ⟨hlt, hbit⟩ := halloc
    rw [hv.inodeCount] at hlt
    rw [hp.inodeBits i hlt, decide_eq_true_eq] at hbit
    rw [hroot] at hnotRoot
    obtain ⟨p, hmem, hinode⟩ := hdirents.surjOn (show i ∈ Set.Ico 2 (2 + tree.count) from
      ⟨by omega, hbit⟩)
    refine ⟨p, (hp.names_iff hv hnames p i).mpr ⟨hmem, hinode⟩, fun q hq => ?_⟩
    obtain ⟨hqmem, hqinode⟩ := (hp.names_iff hv hnames q i).mp hq
    exact hdirents.injOn hqmem hmem (hqinode.trans hinode.symm)
  · rw [hfreeBlocks, hv.totalBlocks]
    exact (clearCount_of_below fun i hi => hp.blockBits i (by omega)).symm
  · rw [hfreeInodes, hv.inodeCount]
    exact (clearCount_of_below fun i hi => hp.inodeBits i hi).symm

/-- An image that holds a tree is consistent. -/
theorem Populated.fsckOk_header (hv : SmallVolume h offset total) (hsmall : total < 2 ^ 20)
    (hstorable : tree.Storable) (hlength : tree.length ≤ 318) (hnames : tree.NoDots) :
    FsckOk img (readHeader img (4096 * offset)) := by
  rw [hp.header]
  exact hp.counted.fsckOk (hv.counted _ _ _) hsmall hstorable hlength hnames rfl rfl rfl

end Populated

section Main

variable {exits : Bool} {fs : HostFs} {fuel : Nat} {args : PopulateArgs} {heap : PopulateHeap}
variable {raw image : HostFile} {offset : Nat} {label : List UInt8} {s : PopulateState}

/-- `bsfs-populate` leaves a consistent file system on an image of less than 4 GiB that `mkfs.bsfs`
formatted and did not make larger, whatever the host shows, if no panic arises. -/
theorem populateMain_fsckOk (hmkfs : mkfsMain 4096 offset label raw = some image)
    (hsmall : raw.size < 2 ^ 32) (hsame : image.size = raw.size) (hbs : args.blockSize = 4096)
    (hoffset : args.offset = offset)
    (hrun : populateMain exits fs fuel args heap image = some (.ok () s)) (hpanics : s.panics = []) :
    FsckOk s.image.bytes (readHeader s.image.bytes (4096 * offset)) := by
  obtain ⟨dirents, tree, -, hosts, hstorable, hlength, hp⟩ :=
    populateMain_populated hmkfs hsmall hsame hbs hoffset hrun hpanics
  have hf := onFormatted_of_mkfs hmkfs hsmall hsame hbs hoffset
  exact hp.fsckOk_header hf.formatted.volume hf.small hstorable hlength hosts.noDots

theorem populateMain_fsckOk_nested : ∃ image s, mkfsMain 4096 0 [] nestedRaw = some image ∧
    populateMain false nestedHost 2 smallArgs zeroHeap image = some (.ok () s) ∧
    FsckOk s.image.bytes (readHeader s.image.bytes (4096 * 0)) := by
  obtain ⟨image, hmkfs⟩ := exists_nestedImage
  have hsame := mkfsMain_size hmkfs (by decide) (by have hblocks := fits_nested.blocks; omega)
  obtain ⟨-, s, hrun, hpanics, -⟩ : _ ∧ ∃ s,
      populateMain false nestedHost 2 smallArgs zeroHeap image = some (.ok () s) ∧ _ :=
    populateMain_stores hmkfs (by decide) rfl rfl false zeroHeap rfl hosts_nested (by decide)
      fits_nested
  exact ⟨image, s, hmkfs, hrun, populateMain_fsckOk hmkfs (by decide) hsame rfl rfl hrun hpanics⟩

/-- A file of ten blocks fills the volume of 16 blocks.  Every block of its only megablock is taken,
and the bit of the megablock is clear: the bits behind the last block are. -/
theorem fullVolume_megablock_clear : ∃ image s, mkfsMain 4096 0 [] smallRaw = some image ∧
    populateMain false (oneFileHost (List.replicate 40960 7)) 1 smallArgs zeroHeap image =
      some (.ok () s) ∧ s.panics = [] ∧
    ∃ h, readHeader s.image.bytes (4096 * 0) = h ∧ h.totalBlocks = 16 ∧
      (∀ b < h.totalBlocks, bitAt (region s.image.bytes h.blockBitmapStart) b = true) ∧
      bitAt (region s.image.bytes h.megablockBitmapStart) 0 = false := by
  obtain ⟨image, hmkfs⟩ := exists_smallImage
  have hlength : (List.replicate 40960 (7 : UInt8)).length = 40960 := List.length_replicate ..
  have hfits := fits_oneFile hlength.le
  obtain ⟨-, s, hrun, hpanics, -, hp⟩ : _ ∧ ∃ s,
      populateMain false (oneFileHost _) 1 smallArgs zeroHeap image = some (.ok () s) ∧ _ :=
    populateMain_stores hmkfs (by decide) rfl rfl false zeroHeap rfl (hosts_oneFile _ _)
      (by decide) hfits
  have hheader : (mkfsHeader 4096 0 smallRaw.size).dataStart = 5 ∧
      (mkfsHeader 4096 0 smallRaw.size).totalBlocks = 16 ∧
      (mkfsHeader 4096 0 smallRaw.size).blockBitmapBlocks = 1 ∧
      (mkfsHeader 4096 0 smallRaw.size).megablockBitmapSize = 1 := by decide +kernel
  obtain ⟨hdata, htotal, hbitmap, hmega⟩ := hheader
  have hend : treeEnd (mkfsHeader 4096 0 smallRaw.size)
      (oneFileTree (List.replicate 40960 7)) = 16 := by
    unfold treeEnd oneFileTree
    rw [hdata, HostTree.blocks, hlength]
    decide
  refine ⟨image, s, hmkfs, hrun, hpanics, _, hp.header, htotal, fun b hb => ?_, ?_⟩
  · change b < (mkfsHeader 4096 0 smallRaw.size).totalBlocks at hb
    refine (hp.blockBits b (by omega)).trans (decide_eq_true ?_)
    omega
  · refine (hp.megablockBits 0 (by omega)).trans (decide_eq_false ?_)
    omega

end Main

end Pristine.Bsfs
