import Pristine.Bsfs.PopulateRules
import Pristine.Bsfs.WriteBack

/-!
# The image that `bsfs-populate` leaves

A run of `main` on a formatted image during which no panic arises has stored a
tree of the host (`populateMain_populated`): bitmaps, header and inode table of
the image are those of the tree, and its files and directories lie where
`EntriesOn` counts them.
-/

namespace Pristine.Bsfs

open Lib Kernel

/-! ## What the image holds -/

/-- The inode table of an image. -/
def imageInode (img : ByteMem) (h : BsfsHeader) (i : Nat) : BsfsInode :=
  readInode img (4096 * h.inodeTableStart + 128 * i)

/-- A region of an image. -/
def region (img : ByteMem) (start : Nat) : ByteMem := fun a => img (4096 * start + a)

/-- The first block behind a tree that fills a volume from its first data block on. -/
def treeEnd (h : BsfsHeader) (tree : HostTree) : Nat := h.dataStart + 1 + tree.blocks 2

/-- The number of inodes of a tree, with the sentinel and the root. -/
def treeInodes (tree : HostTree) : Nat := 2 + tree.count

/-- An image that holds a tree. -/
structure Populated (img base : ByteMem) (h : BsfsHeader) (offset total : Nat) (tree : HostTree) :
    Prop where
  header : readHeader img (4096 * offset) =
    { h.recount (total - treeEnd h tree) (total / 4 - treeInodes tree) with rootInode := 1 }
  blockBits : ∀ i, i < 32768 * h.blockBitmapBlocks →
    bitAt (region img h.blockBitmapStart) i = decide (i < treeEnd h tree)
  megablockBits : ∀ mb, mb < 8 * h.megablockBitmapSize →
    bitAt (region img h.megablockBitmapStart) mb = decide (32768 * (mb + 1) ≤ treeEnd h tree)
  inodeBits : ∀ i, i < total / 4 →
    bitAt (region img h.inodeBitmapStart) i = decide (i < treeInodes tree)
  blocks_le : treeEnd h tree ≤ total
  inodes_le : treeInodes tree ≤ total / 4
  sentinel : SameInode .zero (imageInode img h 0)
  root : DirOn img base (imageInode img h 1) 1 1 (2 + tree.length) h.dataStart (treeEnd h tree)
  entries : EntriesOn img base (imageInode img h) tree (imageInode img h 1) 1 2 (h.dataStart + 1) 2

section Counted

variable {img base : ByteMem} {h : BsfsHeader} {offset total : Nat} {tree : HostTree}

/-- Its own header says where everything is. -/
theorem Populated.counted (hp : Populated img base h offset total tree) : Populated img base
    { h.recount (total - treeEnd h tree) (total / 4 - treeInodes tree) with rootInode := 1 } offset
    total tree :=
  ⟨hp.header, hp.blockBits, hp.megablockBits, hp.inodeBits, hp.blocks_le, hp.inodes_le, hp.sentinel,
    hp.root, hp.entries⟩

theorem SmallVolume.counted (hv : SmallVolume h offset total) (freeBlocks freeInodes root : Nat) :
    SmallVolume { h.recount freeBlocks freeInodes with rootInode := root } offset total := by
  obtain ⟨h1, h2, h3, h4, h5, h6, h7, h8, h9, h10, h11, h12, h13⟩ := hv
  exact ⟨h1, h2, h3, h4, h5, h6, h7, h8, h9, h10, h11, h12, h13⟩

end Counted

/-! ## The inodes fit their fields -/

section Fits

variable {img base : ByteMem} {table : Nat → BsfsInode} {dir : BsfsInode}
variable {own parent entries low high k next n c total : Nat} {data : List UInt8}

theorem DirOn.fits (hdir : DirOn img base dir own parent entries low high) (hhigh : high < 2 ^ 32)
    (hentries : entries < 2 ^ 32) : dir.Fits where
  type := by
    rw [hdir.type]
    decide
  size := by
    rw [hdir.size]
    omega
  direct := fun j => by
    by_cases hj : 32 * j < entries
    · have hpointer := hdir.pointer j hj
      omega
    · rw [hdir.none j (by omega)]
      omega
  l1 := by
    rw [hdir.l1]
    omega
  checksum := fun htype => by
    rw [hdir.type] at htype
    exact absurd htype (by decide)

theorem FileInode.fits (hinode : FileInode dir c data) (hmax : fileBlocks data.length ≤ 1034)
    (hend : fileBlock c (fileBlocks data.length) < 2 ^ 32) : dir.Fits where
  type := by
    rw [hinode.type]
    decide
  size := by
    rw [hinode.size]
    unfold fileBlocks at hmax
    omega
  direct := fun j => by
    by_cases hj : j < bsfsMaxDirectblocks
    · rw [hinode.direct j hj]
      split
      · rename_i hlt
        have hblock := fileBlock_lt (c := c) hlt
        omega
      · omega
    · unfold BsfsInode.direct
      rw [dif_neg hj]
      omega
  l1 := by
    rw [hinode.l1]
    split
    · omega
    · unfold fileBlock fileL1 at *
      split at hend <;> omega
  checksum := fun _ => by
    rw [hinode.checksum]
    exact UInt32.toNat_lt _

/-- Every inode of a tree that fits. -/
theorem EntriesOn.fits {tree : HostTree} (h : EntriesOn img base table tree dir own k next n)
    (hstorable : tree.Storable) (hblocks : next + tree.blocks k < 2 ^ 32) {i : Nat} (hlo : n ≤ i)
    (hhi : i < n + tree.count) : (table i).Fits := by
  induction tree generalizing dir own k next n with
  | nil =>
    simp only [HostTree.count] at hhi
    omega
  | file name data rest ih =>
    obtain ⟨-, hinode, -, hrest⟩ := h
    obtain ⟨hmax, hstorable⟩ := hstorable
    simp only [HostTree.blocks, HostTree.count] at hblocks hhi
    have hblock := fileBlock_add (next + slotBlocks k) (fileBlocks data.length)
    by_cases hfirst : i = n
    · rw [hfirst]
      exact hinode.fits hmax (by omega)
    · exact ih hrest hstorable (by omega) (by omega) (by omega)
  | dir name children rest ihchildren ihrest =>
    obtain ⟨-, hdir, hchildren, hrest⟩ := h
    obtain ⟨hlength, hstorableChildren, hstorable⟩ := hstorable
    simp only [HostTree.blocks, HostTree.count] at hblocks hhi
    by_cases hfirst : i = n
    · rw [hfirst]
      exact hdir.fits (by omega) (by omega)
    · by_cases hinside : i < n + 1 + children.count
      · exact ihchildren hchildren hstorableChildren (by omega) (by omega) (by omega)
      · exact ihrest hrest hstorable (by omega) (by omega) (by omega)

end Fits

/-- The numbers of a small volume's header fit their fields. -/
theorem SmallVolume.fits {h : BsfsHeader} {offset total : Nat} (hv : SmallVolume h offset total)
    (hoffset : offset ≤ 1024) (hsmall : total < 2 ^ 20) (hmagic : h.magic = bsfsMagic)
    (hversion : h.version = bsfsVersion) (hblocks : h.freeBlocks < 2 ^ 32)
    (hinodes : h.freeInodes < 2 ^ 32) (hroot : h.rootInode ≤ 1) (hlba : h.partitionLba = offset) :
    h.Fits := by
  obtain ⟨hdata, hlt⟩ := hv.dataStart_lt hoffset hsmall
  obtain ⟨h1, h2, h3, h4, h5, h6, h7, h8, h9, h10, h11, h12, h13⟩ := hv
  have hword {value : Nat} (hvalue : value < 2 ^ 32) : value < 256 ^ 4 := hvalue
  have hlong {value : Nat} (hvalue : value < 2 ^ 32) : value < 256 ^ 8 :=
    Nat.lt_trans hvalue (by decide)
  simp only [BsfsHeader.Fits, BsfsHeader.fields, List.forall_mem_cons, List.not_mem_nil,
    false_imp_iff, implies_true, and_true]
  refine ⟨hword ?_, hword ?_, hword ?_, hword ?_, hword ?_, hword ?_, hword ?_, hword ?_, hword ?_,
    hword ?_, hword ?_, hword ?_, hword ?_, hword ?_, hword ?_, hword ?_, hword ?_, hword ?_,
    hlong ?_⟩
  · rw [hmagic]
    decide
  · rw [hversion]
    decide
  all_goals omega

/-! ## The write-back of a small volume -/

section WrittenBack

variable {args : PopulateArgs} {heap : PopulateHeap} {s : PopulateState}
variable {offset total next inodes : Nat}

theorem headerIdx_eq (hbs : args.blockSize = 4096) (heq : args.offset = offset)
    (hoffset : offset ≤ 1024) : args.headerIdx = 4096 * offset := by
  unfold PopulateArgs.headerIdx
  rw [hbs, heq, u32_of_lt (by omega), Nat.mul_comm]

/-- A volume whose regions the write-back puts in their places. -/
structure BackOk (args : PopulateArgs) (s : PopulateState) (offset total next inodes : Nat) :
    Prop where
  counters : Counters s offset total next inodes
  apart : RegionsApart s.header args.offset
  blockSize : args.blockSize = 4096
  offset_eq : args.offset = offset
  offset_le : offset ≤ 1024
  fits : s.header.Fits

variable (heap) (original : HostFile) (hb : BackOk args s offset total next inodes)

include hb

theorem BackOk.sameSize : args.blockSize = s.header.blockSize := by
  rw [hb.blockSize, hb.counters.volume.blockSize]

/-- The data are left alone. -/
theorem BackOk.data {a : Nat} (hlo : 4096 * s.header.dataStart ≤ a) (hhi : a < 4096 * total) :
    (writtenBack args heap (headerOther args original) s).bytes a = s.image.bytes a := by
  have hv := hb.counters.volume
  have hsize := hb.counters.imageSize
  have hdata := hv.dataStart
  have hwritten := u32_le (s.header.inodeTableBlocks * s.header.blockSize)
  have hplace := hb.apart.inodeTable
  rw [hv.blockSize] at hwritten hplace
  refine (writtenBack_keeps hb.apart hb.sameSize ⟨by omega, rfl⟩ ?_).2
  rw [hv.blockSize]
  omega

/-- Every region holds its bytes. -/
theorem BackOk.region {r : Nat × Nat × ByteMem} (hr : r ∈ writeBackRegions heap s) {k : Nat}
    (hk : k < 4096 * r.2.1) :
    region (writtenBack args heap (headerOther args original) s).bytes r.1 k = r.2.2 k := by
  have hv := hb.counters.volume
  have hsmall := hb.counters.small
  have hplaces := hb.apart
  obtain ⟨hbs, -, -, -, hblocks, -, hmegas, hmegaSize, -, hinodes, -, htables, -⟩ := hv
  have hwhole : u32 (r.2.1 * s.header.blockSize) = 4096 * r.2.1 ∧
      populateOffset s.header r.1 = 4096 * r.1 := by
    rw [hbs, Nat.mul_comm]
    simp only [writeBackRegions, List.mem_cons, List.not_mem_nil, or_false] at hr
    rcases hr with rfl | rfl | rfl | rfl
    · exact ⟨u32_of_lt (by dsimp only; omega), by rw [hplaces.blockBitmap, hbs, Nat.mul_comm]⟩
    · exact ⟨u32_of_lt (by dsimp only; omega), by rw [hplaces.megablockBitmap, hbs, Nat.mul_comm]⟩
    · exact ⟨u32_of_lt (by dsimp only; omega), by rw [hplaces.inodeBitmap, hbs, Nat.mul_comm]⟩
    · exact ⟨u32_of_lt (by dsimp only; omega), by rw [hplaces.inodeTable, hbs, Nat.mul_comm]⟩
  have hholds := (writtenBack_holds original hb.apart hb.sameSize hr
    (k := k) (by rw [hwhole.1]; exact hk)).2
  rw [hwhole.2] at hholds
  exact hholds

/-- The bits of a region. -/
theorem BackOk.bits {r : Nat × Nat × ByteMem} (hr : r ∈ writeBackRegions heap s) {i : Nat}
    (hi : i < 32768 * r.2.1) :
    bitAt (Bsfs.region (writtenBack args heap (headerOther args original) s).bytes r.1) i =
      bitAt r.2.2 i := by
  unfold bitAt
  rw [hb.region heap original hr (by omega)]

/-- The header reads back. -/
theorem BackOk.header :
    readHeader (writtenBack args heap (headerOther args original) s).bytes (4096 * offset) =
      s.header := by
  have hplace := headerIdx_eq hb.blockSize hb.offset_eq hb.offset_le
  refine readHeader_of_bytes hb.fits fun k hk => ?_
  have hbefore : (headerOther args original).1.length = 3 := length_bytesAt ..
  have hlen := length_headerOther args s.header original
  rw [writtenBack_eq, backImage, hplace, Nat.add_assoc]
  rw [HostFile.write_covered (by rw [hlen]; unfold sizeofBsfsHeader; omega), ← hbefore]
  exact getD_headerBytes _ _ _ hk

/-- An inode reads back. -/
theorem BackOk.inode {i : Nat} (hi : i < total / 4) (hfits : (s.inodeTable i).Fits) :
    SameInode (s.inodeTable i)
      (imageInode (writtenBack args heap (headerOther args original) s).bytes s.header i) := by
  have hv := hb.counters.volume
  have hcount := hv.inodeCount
  have htables := hv.inodeTableBlocks
  refine readInode_of_bytes hfits fun k hk => ?_
  have hbytes := hb.region heap original (k := 128 * i + k)
    (r := (s.header.inodeTableStart, s.header.inodeTableBlocks,
      tableBytes s.inodeTable s.header.inodeCount heap)) (by simp [writeBackRegions])
    (by dsimp only; omega)
  unfold Bsfs.region at hbytes
  rw [← Nat.add_assoc] at hbytes
  rw [hbytes]
  unfold tableBytes sizeofBsfsInode
  dsimp only
  rw [if_pos (by omega), show (128 * i + k) / 128 = i by omega, show (128 * i + k) % 128 = k by omega]

end WrittenBack

/-! ## A run of `main` -/

section Main

variable {exits : Bool} {fs : HostFs} {fuel : Nat} {args : PopulateArgs} {heap : PopulateHeap}
variable {raw image : HostFile} {offset total : Nat} {label : List UInt8} {s : PopulateState}

/-- What `bsfs-populate` finds on a formatted image. -/
structure OnFormatted (args : PopulateArgs) (raw image : HostFile) (offset total : Nat) : Prop where
  formatted : Formatted raw image offset total
  size : image.size = 4096 * total
  small : total < 2 ^ 20
  offset_le : offset ≤ 1024
  blockSize : args.blockSize = 4096
  offset_eq : args.offset = offset

theorem mkfsMain_accepts (hmkfs : mkfsMain 4096 offset label raw = some image) :
    offset ≤ 1024 ∧ raw.size % 4096 = 0 := by
  unfold mkfsMain at hmkfs
  split at hmkfs
  · rename_i haccepts
    exact ⟨haccepts.2.2.1, haccepts.2.2.2.2⟩
  · cases hmkfs

/-- A volume with room for data was not made larger by `mkfs.bsfs`. -/
theorem mkfsMain_size (hmkfs : mkfsMain 4096 offset label raw = some image)
    (hsmall : raw.size < 2 ^ 32)
    (hroom : (mkfsHeader 4096 offset raw.size).dataStart ≤ raw.size / 4096) :
    image.size = raw.size := by
  have haligned := (mkfsMain_accepts hmkfs).2
  have hformatted : Formatted raw image offset (raw.size / 4096) :=
    mkfsMain_formatted (by omega) (by omega) hmkfs
  have hsize := hformatted.size
  rw [Nat.max_eq_left hroom] at hsize
  omega

/-- An image that `mkfs.bsfs` has formatted without making it larger. -/
theorem onFormatted_of_mkfs (hmkfs : mkfsMain 4096 offset label raw = some image)
    (hsmall : raw.size < 2 ^ 32) (hsame : image.size = raw.size) (hbs : args.blockSize = 4096)
    (hoffset : args.offset = offset) : OnFormatted args raw image offset (raw.size / 4096) := by
  have haccepts := mkfsMain_accepts hmkfs
  have hsize : raw.size = 4096 * (raw.size / 4096) := by omega
  exact ⟨mkfsMain_formatted hsize (by omega) hmkfs, by omega, by omega, haccepts.1, hbs, hoffset⟩

theorem OnFormatted.dataStart_le (hf : OnFormatted args raw image offset total) :
    (mkfsHeader 4096 offset raw.size).dataStart ≤ total := by
  have hsize := hf.formatted.size
  rw [hf.size] at hsize
  omega

/-- The header is read as it was written. -/
theorem OnFormatted.readHeader_eq (hf : OnFormatted args raw image offset total) :
    readHeader image.bytes args.headerIdx = mkfsHeader 4096 offset raw.size := by
  have hfits : (mkfsHeader 4096 offset raw.size).Fits := by
    have hcount := hf.formatted.volume.inodeCount
    have hsmall := hf.small
    refine hf.formatted.volume.fits hf.offset_le hsmall rfl rfl (u32_lt _) ?_ (Nat.zero_le _) rfl
    show (mkfsHeader 4096 offset raw.size).inodeCount < 2 ^ 32
    omega
  rw [headerIdx_eq hf.blockSize hf.offset_eq hf.offset_le]
  exact readHeader_of_bytes hfits hf.formatted.header

/-- It passes the checks. -/
theorem OnFormatted.checkHeader (hf : OnFormatted args raw image offset total) :
    checkHeader args image = some (mkfsHeader 4096 offset raw.size) := by
  have hsize := hf.size
  have hdata := hf.dataStart_le
  have hplace := headerIdx_eq hf.blockSize hf.offset_eq hf.offset_le
  have hbehind : offset < (mkfsHeader 4096 offset raw.size).dataStart := by
    obtain ⟨-, -, -, hblock, -, hmega, -, -, hinode, -, htable, -, hstart⟩ := hf.formatted.volume
    omega
  have hmagic : (mkfsHeader 4096 offset raw.size).magic = bsfsMagic := rfl
  have hversion : (mkfsHeader 4096 offset raw.size).version = bsfsVersion := rfl
  have hblockSize := hf.formatted.volume.blockSize
  unfold Bsfs.checkHeader sizeofBsfsHeader
  rw [hf.readHeader_eq, if_neg (by omega), if_neg (not_not_intro hmagic),
    if_neg (fun hne => hne.1 hversion), if_neg (not_not_intro (hblockSize.trans hf.blockSize.symm))]

/-- The state in which the metadata are written back. -/
structure TreeStored (fs : HostFs) (args : PopulateArgs) (raw image : HostFile) (offset total : Nat)
    (tree : HostTree) (s : PopulateState) : Prop where
  storable : tree.Storable
  length_le : tree.length ≤ 318
  counters : Counters s offset total (treeEnd (mkfsHeader 4096 offset raw.size) tree) (treeInodes tree)
  header : s.header = { (mkfsHeader 4096 offset raw.size).recount s.header.freeBlocks
    s.header.freeInodes with rootInode := 1 }
  sentinel : s.inodeTable 0 = .zero
  fresh : ∀ i, treeInodes tree ≤ i → s.inodeTable i = .zero
  root : DirOn s.image.bytes image.bytes (s.inodeTable 1) 1 1 (2 + tree.length)
    (mkfsHeader 4096 offset raw.size).dataStart (treeEnd (mkfsHeader 4096 offset raw.size) tree)
  entries : EntriesOn s.image.bytes image.bytes s.inodeTable tree (s.inodeTable 1) 1 2
    ((mkfsHeader 4096 offset raw.size).dataStart + 1) 2

/-- Counting keeps the rest of the header. -/
theorem Kept.header_of_root {t u : PopulateState} {h : BsfsHeader} {freeBlocks freeInodes root : Nat}
    (hkept : Kept t u)
    (hheader : t.header = { h.recount freeBlocks freeInodes with rootInode := root }) :
    u.header = { h.recount u.header.freeBlocks u.header.freeInodes with rootInode := root } := by
  have hcounted := hkept.header
  rw [hheader] at hcounted
  exact hcounted

/-- A tree that the host shows is stored if it fits. -/
theorem SetUpDone.stores (exits : Bool)
    {dirents : List HostDirent} {tree : HostTree} {t0 : PopulateState}
    (hdone : SetUpDone t0 image (mkfsHeader 4096 offset raw.size) offset total)
    (hopen : fs.opendir args.root = some dirents) (hosts : Hosts fs args.root dirents tree)
    (hdepth : tree.depth < fuel)
    (hfits : Fits tree total 2 ((mkfsHeader 4096 offset raw.size).dataStart + 1) 2) :
    ∃ t, bsfsPopulateDir exits fs fuel args.root 1 1 t0 = .ok () t ∧
      TreeStored fs args raw image offset total tree t ∧ t.panics = [] := by
  have hlength := hfits.length
  obtain ⟨fuel, rfl⟩ : ∃ fuel', fuel = fuel' + 1 := ⟨fuel - 1, by omega⟩
  obtain ⟨t, hstored, hroot⟩ : ∃ t, bsfsPopulateDir exits fs (fuel + 1) args.root 1 1 t0 = .ok () t ∧
      DirDone t0 t image.bytes offset total 1 1 _ 2 tree :=
    populateDir_spec exits hopen (populateEntries_spec exits hosts) hdone.growing (by omega)
      (hdone.table 1) (Nat.le_of_lt_succ hdepth) hfits
  refine ⟨t, hstored, ⟨hfits.storable, by omega, hroot.growing.counters, ?_, ?_, hroot.growing.fresh,
    hroot.dir, hroot.entries⟩, hroot.kept.panics.trans hdone.panics⟩
  · exact hroot.kept.header_of_root hdone.header
  · rw [hroot.table 0 (by omega) (by omega), hdone.table]

/-- A run without panics stores a tree that the host shows, and then writes the metadata back. -/
theorem OnFormatted.treeStored (hf : OnFormatted args raw image offset total)
    (hrun : populateMain exits fs fuel args heap image = some (.ok () s)) (hpanics : s.panics = []) :
    ∃ dirents tree t, fs.opendir args.root = some dirents ∧ Hosts fs args.root dirents tree ∧
      TreeStored fs args raw image offset total tree t ∧
      s.image = writtenBack args heap (headerOther args image) t := by
  obtain ⟨h, hcheck, hcall⟩ := Option.map_eq_some_iff.mp hrun
  obtain rfl := Option.some.inj (hf.checkHeader.symm.trans hcheck)
  have hv := hf.formatted.volume
  -- without a panic the program runs as if panics ended it
  have hquiet := RecordsPanics.quiet
    (RecordsPanics.rules.populateRun fuel args heap (headerOther args image)) hcall hpanics
  obtain ⟨root, t0, hsetUp, hrest⟩ := bind_eq_ok.mp hquiet
  obtain ⟨_, t, hdir, hback⟩ := bind_eq_ok.mp hrest
  have hinodes := setUp_fits hv hf.offset_le hf.small hf.size hf.dataStart_le hf.blockSize
    hf.offset_eq hsetUp
  obtain ⟨t1, hspec, hdone⟩ := setUp_spec true hv hf.offset_le hf.small hf.size hf.dataStart_le
    hf.blockSize hf.offset_eq hinodes heap
  rw [hspec] at hsetUp
  cases hsetUp
  have hone : 1 < 2 := by omega
  obtain ⟨dirents, tree, hopen, hosts, hdepth, hfits⟩ :=
    populateDir_hosts fs fuel hdone.growing hone (hdone.table 1) hdir
  obtain ⟨t2, hstored, htree, -⟩ := hdone.stores true hopen hosts hdepth hfits
  rw [hstored] at hdir
  cases hdir
  refine ⟨dirents, tree, t, hopen, hosts, htree, ?_⟩
  unfold writtenBack
  rw [hback]

/-- The state can be written back. -/
theorem TreeStored.backOk {tree : HostTree} (hf : OnFormatted args raw image offset total)
    (ht : TreeStored fs args raw image offset total tree s) :
    BackOk args s offset total (treeEnd (mkfsHeader 4096 offset raw.size) tree)
      (treeInodes tree) := by
  have hregions : HeaderRegions (mkfsHeader 4096 offset raw.size) 4096 offset total := by
    have htotal := hf.formatted.volume.totalBlocks
    have hsmall := hf.small
    refine mkfsHeader_regions (by omega) hf.offset_le ?_ (by omega)
    change u32 (raw.size / 4096) = total at htotal
    unfold u32 at htotal
    exact htotal
  have hsmall := hf.small
  have hfree := ht.counters.freeBlocks
  have hfreeInodes := ht.counters.freeInodes
  refine ⟨ht.counters, ?_, hf.blockSize, hf.offset_eq, hf.offset_le, ?_⟩
  · rw [hf.offset_eq, ht.header]
    exact (hregions.apart (by omega) (by omega) hf.offset_le (by omega)).recount _ _ _
  · have hmagic : s.header.magic = bsfsMagic := by rw [ht.header]; rfl
    have hversion : s.header.version = bsfsVersion := by rw [ht.header]; rfl
    have hroot : s.header.rootInode = 1 := by rw [ht.header]
    have hlba : s.header.partitionLba = offset := by rw [ht.header]; rfl
    exact ht.counters.volume.fits hf.offset_le hsmall hmagic hversion (by omega) (by omega)
      (by omega) hlba

theorem fits_zero : BsfsInode.zero.Fits := by
  have hdirect (j : Nat) : BsfsInode.zero.direct j = 0 := by
    unfold BsfsInode.direct
    split <;> rfl
  refine ⟨Nat.two_pow_pos 8, Nat.two_pow_pos 64, fun j => ?_, Nat.two_pow_pos 32, fun _ =>
    Nat.two_pow_pos 32⟩
  rw [hdirect j]
  exact Nat.two_pow_pos 32

/-- Every inode in memory fits its fields. -/
theorem TreeStored.inode_fits {tree : HostTree}
    (ht : TreeStored fs args raw image offset total tree s) (i : Nat) : (s.inodeTable i).Fits := by
  have hnext := ht.counters.next_le
  have hsmall := ht.counters.small
  have hlength := ht.length_le
  by_cases hzero : i = 0
  · rw [hzero, ht.sentinel]
    exact fits_zero
  · by_cases hroot : i = 1
    · rw [hroot]
      exact ht.root.fits (by omega) (by omega)
    · by_cases hin : i < treeInodes tree
      · unfold treeEnd at hnext
        exact ht.entries.fits ht.storable (by omega) (by omega) hin
      · rw [ht.fresh i (by omega)]
        exact fits_zero

/-- Counts and the root do not move the regions. -/
theorem regions_of_root {h h' : BsfsHeader} {freeBlocks freeInodes root : Nat}
    (hheader : h' = { h.recount freeBlocks freeInodes with rootInode := root }) :
    h'.regions = h.regions ∧ h'.megablockBitmapSize = h.megablockBitmapSize ∧
      h'.dataStart = h.dataStart := by
  rw [hheader]
  exact ⟨rfl, rfl, rfl⟩

/-- What was stored lies on the image, with the metadata in front of it. -/
theorem TreeStored.populated {tree : HostTree} (hf : OnFormatted args raw image offset total)
    (ht : TreeStored fs args raw image offset total tree s) (heap : PopulateHeap)
    (original : HostFile) :
    Populated (writtenBack args heap (headerOther args original) s).bytes image.bytes
      (mkfsHeader 4096 offset raw.size) offset total tree := by
  have hb := ht.backOk hf
  have hc := ht.counters
  have hnext := hc.next_le
  have hinodes := hc.inodes_le
  have hdata (a : Nat) := hb.data heap original (a := a)
  have hbits (r : Nat × Nat × ByteMem) := hb.bits heap original (r := r)
  have hheader := hb.header heap original
  obtain ⟨hregions, hmegaSize, hdataStart⟩ := regions_of_root ht.header
  simp only [BsfsHeader.regions, List.cons.injEq, Prod.mk.injEq, and_true] at hregions
  obtain ⟨⟨hblockStart, hblocks⟩, ⟨hmegaStart, hmegas⟩, ⟨hinodeStart, hinodeBlocks⟩, htableStart, -⟩ :=
    hregions
  have hsame := ht.header
  rw [hc.freeBlocks, hc.freeInodes] at hsame
  rw [hdataStart] at hdata
  have hv := hc.volume
  have hinode (i : Nat) (hi : i < total / 4) : SameInode (s.inodeTable i) (imageInode
      (writtenBack args heap (headerOther args original) s).bytes (mkfsHeader 4096 offset raw.size) i) := by
    have hread := hb.inode heap original hi (ht.inode_fits i)
    unfold imageInode at hread ⊢
    rwa [htableStart] at hread
  have hroot := hinode 1 (by unfold treeInodes at hinodes; omega)
  refine ⟨hheader.trans hsame, ?_, ?_, ?_, hnext, hinodes, ?_, ?_, ?_⟩
  · intro i hi
    rw [← hblockStart]
    rw [← hblocks] at hi
    rw [← hc.blockBits i hi]
    exact hbits (_, _, s.blockBitmap) (by simp [writeBackRegions]) hi
  · intro mb hmb
    rw [← hmegaStart]
    rw [← hmegaSize] at hmb
    rw [← hc.megablockBits mb hmb]
    refine hbits (_, s.header.megablockBitmapBlocks, s.megablockBitmap) (by simp [writeBackRegions]) ?_
    have hround := hv.megablockBitmapBlocks
    dsimp only
    omega
  · intro i hi
    rw [← hinodeStart, ← hc.inodeBits i hi]
    refine hbits (_, s.header.inodeBitmapBlocks, s.inodeBitmap) (by simp [writeBackRegions]) ?_
    have hround := hv.inodeBitmapBlocks
    dsimp only
    omega
  · have hsentinel := hinode 0 (by unfold treeInodes at hinodes; omega)
    rw [ht.sentinel] at hsentinel
    exact hsentinel
  · exact ht.root.congr (by omega) hroot fun a hlo hhi => hdata a hlo (by omega)
  · refine ht.entries.congr (fun j _ _ => hroot.direct j) ?_ ?_ ?_
    · intro i _ hi j hj
      have hbounds := slot_bounds (k := i) ht.root.pointer hi
      rw [hroot.slotAddr]
      exact hdata _ (by omega) (by omega)
    · unfold treeEnd at hnext
      exact fun a hlo hhi => hdata a (by omega) (by omega)
    · intro i _ hi
      unfold treeInodes at hinodes
      exact hinode i (by omega)

/-- A run of `main` without panics on an image that `mkfs.bsfs` formatted, of less than 4 GiB and
not made larger, leaves an image that holds a tree the host shows. -/
theorem populateMain_populated (hmkfs : mkfsMain 4096 offset label raw = some image)
    (hsmall : raw.size < 2 ^ 32) (hsame : image.size = raw.size) (hbs : args.blockSize = 4096)
    (hoffset : args.offset = offset)
    (hrun : populateMain exits fs fuel args heap image = some (.ok () s)) (hpanics : s.panics = []) :
    ∃ dirents tree, fs.opendir args.root = some dirents ∧ Hosts fs args.root dirents tree ∧
      tree.Storable ∧ tree.length ≤ 318 ∧
      Populated s.image.bytes image.bytes (mkfsHeader 4096 offset raw.size) offset
        (raw.size / 4096) tree := by
  have hf := onFormatted_of_mkfs hmkfs hsmall hsame hbs hoffset
  obtain ⟨dirents, tree, t, hopen, hosts, ht, himage⟩ := hf.treeStored hrun hpanics
  refine ⟨dirents, tree, hopen, hosts, ht.storable, ht.length_le, ?_⟩
  rw [himage]
  exact ht.populated hf heap image

/-- A run of `main` on such an image stores every tree that fits. -/
theorem populateMain_stores (hmkfs : mkfsMain 4096 offset label raw = some image)
    (hsmall : raw.size < 2 ^ 32) (hbs : args.blockSize = 4096) (hoffset : args.offset = offset)
    (exits : Bool) (heap : PopulateHeap) {dirents : List HostDirent} {tree : HostTree}
    (hopen : fs.opendir args.root = some dirents)
    (hosts : Hosts fs args.root dirents tree) (hdepth : tree.depth < fuel)
    (hfits : Fits tree (raw.size / 4096) 2 ((mkfsHeader 4096 offset raw.size).dataStart + 1) 2) :
    OnFormatted args raw image offset (raw.size / 4096) ∧
      ∃ s, populateMain exits fs fuel args heap image = some (.ok () s) ∧ s.panics = [] ∧
      raw.size ≤ s.image.size ∧
      Populated s.image.bytes image.bytes (mkfsHeader 4096 offset raw.size) offset
        (raw.size / 4096) tree := by
  have hblocks := hfits.blocks
  have hsame := mkfsMain_size hmkfs hsmall (by omega)
  have hf := onFormatted_of_mkfs hmkfs hsmall hsame hbs hoffset
  have hcount := hfits.count
  obtain ⟨t0, hsetUp, hdone⟩ := setUp_spec exits hf.formatted.volume hf.offset_le hf.small hf.size
    hf.dataStart_le hf.blockSize hf.offset_eq (by omega) heap
  obtain ⟨t, hstored, htree, hquiet⟩ := hdone.stores exits hopen hosts hdepth hfits
  obtain ⟨position, hback⟩ := writeBack_eq args heap (headerOther args image) t
  rw [← writtenBack_eq] at hback
  refine ⟨hf, { t with
    image := writtenBack args heap (headerOther args image) t
    position := position }, ?_, hquiet, ?_, htree.populated hf heap image⟩
  · unfold populateMain
    rw [hf.checkHeader, Option.map_some]
    unfold populateRun
    rw [bind_of_ok hsetUp, bind_of_ok hstored, hback]
  · have hsize := htree.counters.imageSize
    have hkept := le_size_writtenBack args heap (headerOther args image) t
    have hwhole := hf.size
    dsimp only
    omega

end Main

/-! ## Small volumes -/

/-- An image of 16 blocks. -/
def smallRaw : HostFile := ⟨65536, fun _ => 0⟩

/-- An image of 32 blocks. -/
def nestedRaw : HostFile := ⟨131072, fun _ => 0⟩

theorem exists_smallImage : ∃ image, mkfsMain 4096 0 [] smallRaw = some image := by
  unfold mkfsMain
  rw [if_pos (by decide)]
  exact ⟨_, rfl⟩

theorem exists_nestedImage : ∃ image, mkfsMain 4096 0 [] nestedRaw = some image := by
  unfold mkfsMain
  rw [if_pos (by decide)]
  exact ⟨_, rfl⟩

def smallArgs : PopulateArgs := ⟨4096, 0, false, .dot⟩

def zeroHeap : PopulateHeap := ⟨fun _ => 0, fun _ => 0⟩

/-- `"f"`. -/
def nameF : CString := ⟨[0x66], by decide⟩

/-- `"d"`. -/
def nameD : CString := ⟨[0x64], by decide⟩

section OneFile

variable (data : List UInt8)

/-- A host with one file, `"f"`. -/
def oneFileHost : HostFs where
  opendir := fun _ => some [⟨nameF, .reg⟩]
  fopen := fun _ => some data
  time := fun _ => 0

def oneFileTree : HostTree := .file nameF data .nil

theorem hosts_oneFile (path : CString) :
    Hosts (oneFileHost data) path [⟨nameF, .reg⟩] (oneFileTree data) :=
  .file (by decide) rfl rfl .nil

variable {data}

/-- Ten blocks fill the small volume. -/
theorem fits_oneFile (hlength : data.length ≤ 40960) : Fits (oneFileTree data) (smallRaw.size / 4096) 2
    ((mkfsHeader 4096 0 smallRaw.size).dataStart + 1) 2 where
  storable := ⟨by unfold fileBlocks; omega, trivial⟩
  length := (by decide : 2 + 1 ≤ 320)
  blocks := by
    have hdata : (mkfsHeader 4096 0 smallRaw.size).dataStart = 5 := by decide +kernel
    have hblocks : fileBlocks data.length ≤ 10 := by unfold fileBlocks; omega
    rw [hdata]
    change 5 + 1 + (0 + fileBlock 0 (fileBlocks data.length) + 0) ≤ 16
    rw [fileBlock, if_pos hblocks]
    omega
  count := (by decide : 2 + (1 + 0) ≤ 65536 / 4096 / 4)

end OneFile

/-- A file with a block in its L1 table. -/
def longData : List UInt8 := List.replicate 45056 7

theorem length_longData : longData.length = 45056 := List.length_replicate ..

/-- A host with the file `"d/f"`. -/
def nestedHost : HostFs where
  opendir := fun path => if path = .dot then some [⟨nameD, .dir⟩] else some [⟨nameF, .reg⟩]
  fopen := fun _ => some longData
  time := fun _ => 0

def nestedTree : HostTree := .dir nameD (oneFileTree longData) .nil

theorem hosts_nested : Hosts nestedHost .dot [⟨nameD, .dir⟩] nestedTree := by
  have hopen : nestedHost.opendir (subpath .dot nameD) = some [⟨nameF, .reg⟩] := by decide
  exact .dir (by decide) rfl hopen (.file (by decide) rfl rfl .nil) .nil

theorem fits_nested : Fits nestedTree (nestedRaw.size / 4096) 2
    ((mkfsHeader 4096 0 nestedRaw.size).dataStart + 1) 2 where
  storable := by
    refine ⟨by decide, ⟨?_, trivial⟩, trivial⟩
    rw [length_longData]
    decide
  length := by decide
  blocks := by
    have hdata : (mkfsHeader 4096 0 nestedRaw.size).dataStart = 5 := by decide +kernel
    simp only [nestedTree, oneFileTree, HostTree.blocks, length_longData, hdata]
    decide
  count := by decide

end Pristine.Bsfs
