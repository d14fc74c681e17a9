import Pristine.Bsfs.Extract
import Pristine.Bsfs.Layout
import Pristine.Bsfs.Panics
import Pristine.Lib.Run

/-!
# Places of directory entries

`bsfs_alloc_dirent` places an entry by the size of the directory alone: in block
`size / block_size`, at byte `size % block_size`.  `bsfs-extract` looks for entries
at the multiples of 128 in each block.  `direntSlots_iff` says when the two agree,
in any run of `bsfs-populate` without a panic and whatever else is allocated
between the entries.
-/

namespace Pristine.Bsfs

open Function Kernel Lib Relation

/-! ## Allocations without a panic -/

section AllocDirent

variable {s s' : PopulateState} {idx offset index : Nat} {u : Unit}

theorem modifyInode_eq_ok {f : BsfsInode → BsfsInode} (hcall : modifyInode idx f s = .ok u s') :
    s' = s.setInode idx (f (s.inodeTable idx)) := by
  unfold modifyInode at hcall
  rw [get_bind] at hcall
  obtain ⟨-, hset⟩ := undefinedIf_bind.mp hcall
  cases hset
  rfl

/-- An inode is taken, and only its bitmap and the count of free inodes change. -/
theorem bsfsAllocInode_eq_ok (hcall : bsfsAllocInode true s = .ok index s') :
    ∃ freeInodes inodeBitmap, s' =
      s.recount s.header.freeBlocks freeInodes s.blockBitmap s.megablockBitmap inodeBitmap := by
  unfold bsfsAllocInode at hcall
  rw [get_bind] at hcall
  split at hcall
  · exact absurd hcall bsfsPanic_bind_ne_ok
  · obtain ⟨_, t, hset, hcall⟩ := bind_eq_ok.mp hcall
    unfold setInodeBit at hset
    rw [get_bind] at hset
    obtain ⟨-, hset⟩ := undefinedIf_bind.mp hset
    obtain ⟨-, hset⟩ := bsfsPanicIf_bind.mp hset
    obtain ⟨_, _, hmodify, hcall⟩ := bind_eq_ok.mp hcall
    obtain ⟨-, rfl⟩ := pure_eq_ok.mp hcall
    rw [← modify_eq_ok.mp hmodify, ← modify_eq_ok.mp hset]
    exact ⟨_, _, rfl⟩

/-- `inode->blocks_direct[localBlock] = block; inode->blocks++`. -/
def BsfsInode.addDirect (i : BsfsInode) (localBlock block : Nat) : BsfsInode :=
  { i.setDirect localBlock block with blocks := u32 (i.blocks + 1) }

/-- How a directory has a block for its next entry. -/
inductive DirentBlock (s : PopulateState) (idx localBlock : Nat) : PopulateState → Prop
  | listed : (s.inodeTable idx).direct localBlock ≠ 0 → DirentBlock s idx localBlock s
  | taken {block : Nat} {t : PopulateState} : (s.inodeTable idx).direct localBlock = 0 →
      bsfsAllocBlock true s = .ok block t →
      DirentBlock s idx localBlock (t.setInode idx ((t.inodeTable idx).addDirect localBlock block))

/-- What `bsfs_alloc_dirent` does if it does not panic. -/
theorem bsfsAllocDirent_eq_ok (hcall : bsfsAllocDirent true idx s = .ok offset s') :
    (s.inodeTable idx).type = bsfsInodeTypeDirectory ∧
      u32 ((s.inodeTable idx).size / s.header.blockSize) < bsfsMaxDirectblocks ∧
      DirentBlock s idx (u32 ((s.inodeTable idx).size / s.header.blockSize)) s' ∧
      offset = direntOffset s'.header ((s'.inodeTable idx).direct
        (u32 ((s.inodeTable idx).size / s.header.blockSize))) (s.inodeTable idx).size := by
  unfold bsfsAllocDirent at hcall
  rw [get_bind] at hcall
  obtain ⟨-, hcall⟩ := undefinedIf_bind.mp hcall
  split at hcall
  · exact absurd hcall bsfsPanic_bind_ne_ok
  rename_i htype
  dsimp only at hcall
  split at hcall
  · exact absurd hcall bsfsPanic_bind_ne_ok
  rename_i hlocal
  obtain ⟨_, t, hensure, hcall⟩ := bind_eq_ok.mp hcall
  rw [get_bind] at hcall
  obtain ⟨rfl, rfl⟩ := pure_eq_ok.mp hcall
  refine ⟨not_not.mp htype, Nat.not_le.mp hlocal, ?_, rfl⟩
  unfold ensureDirentBlock at hensure
  rw [get_bind] at hensure
  split at hensure
  · rename_i hzero
    obtain ⟨block, t', halloc, hmodify⟩ := bind_eq_ok.mp hensure
    rw [modifyInode_eq_ok hmodify]
    exact .taken hzero halloc
  · rename_i hlisted
    obtain ⟨-, rfl⟩ := pure_eq_ok.mp hensure
    exact .listed hlisted

end AllocDirent

/-! ## Free blocks -/

/-- The header apart from what a populated volume changes. -/
def BsfsHeader.geometry (h : BsfsHeader) : BsfsHeader :=
  { h with freeBlocks := 0, freeInodes := 0, rootInode := 0 }

theorem geometry_recount (h : BsfsHeader) (freeBlocks freeInodes : Nat) :
    (h.recount freeBlocks freeInodes).geometry = h.geometry :=
  rfl

section Geometry

variable {h g : BsfsHeader}

variable (hsame : h.geometry = g.geometry)

include hsame

theorem blockSize_of_geometry : h.blockSize = g.blockSize := by
  have hfield := congrArg BsfsHeader.blockSize hsame
  exact hfield

theorem totalBlocks_of_geometry : h.totalBlocks = g.totalBlocks := by
  have hfield := congrArg BsfsHeader.totalBlocks hsame
  exact hfield

theorem dataStart_of_geometry : h.dataStart = g.dataStart := by
  have hfield := congrArg BsfsHeader.dataStart hsame
  exact hfield

theorem blockBitmapBlocks_of_geometry : h.blockBitmapBlocks = g.blockBitmapBlocks := by
  have hfield := congrArg BsfsHeader.blockBitmapBlocks hsame
  exact hfield

theorem megablockBitmapSize_of_geometry : h.megablockBitmapSize = g.megablockBitmapSize := by
  have hfield := congrArg BsfsHeader.megablockBitmapSize hsame
  exact hfield

end Geometry

/-- The metadata blocks are in use, and if the metadata fit the volume then every free block that is
counted is one of its blocks. -/
structure Ledger (h : BsfsHeader) (s : PopulateState) : Prop where
  header : s.header.geometry = h.geometry
  reserved : ∀ i, i < h.dataStart → bitAt s.blockBitmap i = true
  counted : h.dataStart ≤ h.totalBlocks →
    MegablocksExact s ∧ s.header.freeBlocks ≤ clearCount s.blockBitmap h.totalBlocks

namespace Ledger

variable {h : BsfsHeader} {s s' : PopulateState} {block : Nat}

theorem blockBitmapSize (hl : Ledger h s) :
    s.blockBitmapSize = h.blockBitmapBlocks * h.blockSize := by
  unfold PopulateState.blockBitmapSize
  rw [blockSize_of_geometry hl.header, blockBitmapBlocks_of_geometry hl.header]

theorem covered (hl : Ledger h s) (hcovered : h.Covered) : s.header.Covered := by
  have hbs := blockSize_of_geometry hl.header
  have htotal := totalBlocks_of_geometry hl.header
  have hsize := megablockBitmapSize_of_geometry hl.header
  have hblocks := hl.blockBitmapSize
  unfold PopulateState.blockBitmapSize at hblocks
  obtain ⟨h1, h2, h3, h4, h5, h6⟩ := hcovered
  refine ⟨?_, ?_, ?_, ?_, ?_, ?_⟩
  · rwa [hbs]
  · rwa [hbs]
  · rwa [htotal]
  · rwa [htotal, hblocks]
  · rwa [htotal, hbs, hsize]
  · rwa [hsize]

/-- Inodes, inode bits and free inodes do not matter. -/
theorem congr (hl : Ledger h s) (hheader : s'.header.geometry = s.header.geometry)
    (hfree : s'.header.freeBlocks = s.header.freeBlocks) (hblock : s'.blockBitmap = s.blockBitmap)
    (hmega : s'.megablockBitmap = s.megablockBitmap) : Ledger h s' := by
  have hbs := blockSize_of_geometry hheader
  have htotal := totalBlocks_of_geometry hheader
  refine ⟨hheader.trans hl.header, ?_, fun hfits => ?_⟩
  · rw [hblock]
    exact hl.reserved
  · obtain ⟨hexact, hcount⟩ := hl.counted hfits
    refine ⟨?_, ?_⟩
    · unfold MegablocksExact at hexact ⊢
      rwa [hbs, htotal, hblock, hmega]
    · rwa [hfree, hblock]

/-- While free blocks are counted, the first free block is one of the volume. -/
theorem firstClear (hl : Ledger h s) (hfits : h.dataStart ≤ h.totalBlocks)
    (hcounted : s.header.freeBlocks ≠ 0) :
    ∃ first, IsFirstClear s.blockBitmap h.totalBlocks first ∧ h.dataStart ≤ first := by
  obtain ⟨-, hfree⟩ := hl.counted hfits
  rcases full_or_firstClear s.blockBitmap h.totalBlocks with hfull | ⟨first, hfirst⟩
  · have hnone := (clearCount_eq_zero_iff s.blockBitmap h.totalBlocks).mpr hfull
    exact absurd (by omega) hcounted
  · refine ⟨first, hfirst, Nat.not_lt.mp fun hlt => ?_⟩
    have hset := hl.reserved first hlt
    rw [hfirst.clear] at hset
    exact Bool.false_ne_true hset

/-- So it is the block that is taken. -/
theorem allocBlock_eq (hl : Ledger h s) (hcovered : h.Covered) (hfits : h.dataStart ≤ h.totalBlocks)
    (hcall : bsfsAllocBlock true s = .ok block s') :
    block < h.totalBlocks ∧ s' = s.takeBlock block := by
  obtain ⟨first, hfirst, hdata⟩ := hl.firstClear hfits (blockTaken_of_ok hcall).counted
  have hlt := hfirst.lt
  rw [← totalBlocks_of_geometry hl.header] at hfirst
  rw [← dataStart_of_geometry hl.header] at hdata
  have hcall' : bsfsAllocBlock true s = .ok first (s.takeBlock first) :=
    bsfsAllocBlock_firstClear (hl.covered hcovered) (hl.counted hfits).1 hfirst hdata
    (blockTaken_of_ok hcall).counted
  obtain ⟨rfl, rfl⟩ := EStateM.Result.ok.inj (hcall.symm.trans hcall')
  exact ⟨hlt, rfl⟩

/-- Taking a block keeps the ledger. -/
theorem allocBlock (hl : Ledger h s) (hcovered : h.Covered)
    (hcall : bsfsAllocBlock true s = .ok block s') : Ledger h s' := by
  have htaken := blockTaken_of_ok hcall
  refine ⟨?_, fun i hi => ?_, fun hfits => ?_⟩
  · rw [htaken.header, geometry_recount]
    exact hl.header
  · rw [htaken.blockBitmap, bitAt_bitmapSet, hl.reserved i hi, Bool.or_true]
  · obtain ⟨hexact, hfree⟩ := hl.counted hfits
    obtain ⟨hlt, rfl⟩ := hl.allocBlock_eq hcovered hfits hcall
    have hpos : 0 < s.header.blockSize := by
      rw [blockSize_of_geometry hl.header]
      exact hcovered.blockSize
    refine ⟨hexact.takeBlock hpos block, ?_⟩
    have hcount : clearCount (orBit s.blockBitmap block) h.totalBlocks + 1 =
        clearCount s.blockBitmap h.totalBlocks := clearCount_orBit hlt htaken.clear
    have hsome := htaken.counted
    rw [takeBlock_header, takeBlock_blockBitmap]
    show u32 (s.header.freeBlocks + 2 ^ 32 - 1) ≤ clearCount (orBit s.blockBitmap block) h.totalBlocks
    unfold u32
    omega

end Ledger

/-! ## Addresses of blocks -/

section Address

variable {h : BsfsHeader} {s s' : PopulateState} {blockSize offset total block : Nat}

/-- Only a volume of at most one megablock can be too small for its metadata. -/
theorem HeaderRegions.blockBitmapBlocks_le (hr : HeaderRegions h blockSize offset total)
    (hleast : 1024 ≤ blockSize) (hoffset : offset ≤ 1024) (hsmall : total < 2 ^ 27)
    (htight : total < h.dataStart) : h.blockBitmapBlocks ≤ 1 := by
  have hblock : divCeil total (8 * blockSize) ≤ total / 8192 + 1 :=
    (divCeil_le_iff (by omega)).mpr (Nat.le_trans (by omega : total ≤ (total / 8192 + 1) * 8192)
      (Nat.mul_le_mul_left _ (by omega)))
  have hmega : divCeil (divCeil (divCeil total (8 * blockSize)) 8) blockSize ≤ 2 ^ 6 :=
    (regions_short hleast (by omega)).2.1
  have hinode : divCeil (total / 4) (8 * blockSize) ≤ total / 32768 + 1 :=
    (divCeil_le_iff (by omega)).mpr
      (Nat.le_trans (by omega : total / 4 ≤ (total / 32768 + 1) * 8192)
        (Nat.mul_le_mul_left _ (by omega)))
  have htable : divCeil (total / 4 * sizeofBsfsInode) blockSize ≤ total / 32 + 1 :=
    divCeil_le_of_blockSize hleast (by unfold sizeofBsfsInode; omega)
  have hneeded := (hr.exact hsmall).2
  unfold metadataNeeded at hneeded
  rw [hr.blockBitmapBlocks]
  -- with more than 8192 blocks the metadata take less than half of them
  exact (divCeil_le_iff (by omega)).mpr (by omega)

/-- On a volume of at most 4 GiB every block that is taken ends within 4 GiB. -/
theorem Ledger.address (hl : Ledger h s) (hr : HeaderRegions h blockSize offset total)
    (hleast : 1024 ≤ blockSize) (hmost : blockSize ≤ 16384) (hoffset : offset ≤ 1024)
    (hcovered : h.Covered) (hsmall : total * blockSize ≤ 2 ^ 32)
    (hcall : bsfsAllocBlock true s = .ok block s') : (block + 1) * blockSize ≤ 2 ^ 32 := by
  have htotal : total ≤ 2 ^ 22 := by
    have hle := Nat.mul_le_mul_left total hleast
    omega
  by_cases hfits : h.dataStart ≤ h.totalBlocks
  · obtain ⟨hlt, -⟩ := hl.allocBlock_eq hcovered hfits hcall
    rw [hr.totalBlocks] at hlt
    exact Nat.le_trans (Nat.mul_le_mul_right _ hlt) hsmall
  · rw [hr.totalBlocks] at hfits
    have hone := hr.blockBitmapBlocks_le hleast hoffset (by omega) (Nat.not_le.mp hfits)
    have hinside := (blockTaken_of_ok hcall).inside
    rw [hl.blockBitmapSize, hr.blockSize] at hinside
    have hslice := Nat.mul_le_mul_right blockSize hone
    calc (block + 1) * blockSize ≤ (8 * 16384) * 16384 := Nat.mul_le_mul (by omega) hmost
      _ ≤ 2 ^ 32 := by decide

end Address

/-! ## Appending entries -/

/-- Append an entry as `bsfs_populate_dir` does; the result is the place it is written to. -/
def appendDirent (exits : Bool) (dir inode : Nat) (name : CString) : PopulateM Nat := do
  let offset ← bsfsAllocDirent exits dir
  writeDirent offset inode name
  growDirectory dir
  pure offset

/-- Steps of `bsfs-populate` without a panic: the directory `dir` is set up, an entry is appended to
it, with the place it is written to, or something else is allocated, changed or written. -/
inductive DirentStep (exits : Bool) (dir : Nat) :
    PopulateState × List Nat → PopulateState × List Nat → Prop
  | create {s s' : PopulateState} (time : Nat) :
      modifyInode dir (fun i => { freshInode bsfsInodeTypeDirectory time i with blocks := 0 }) s =
        .ok () s' →
      DirentStep exits dir (s, []) (s', [])
  | append {s s' : PopulateState} {written : List Nat} {offset : Nat} (inode : Nat) (name : CString) :
      appendDirent exits dir inode name s = .ok offset s' → s'.panics = [] →
      DirentStep exits dir (s, written) (s', written ++ [offset])
  | block {s s' : PopulateState} {written : List Nat} {block : Nat} :
      bsfsAllocBlock exits s = .ok block s' → s'.panics = [] →
      DirentStep exits dir (s, written) (s', written)
  | inode {s s' : PopulateState} {written : List Nat} {index : Nat} :
      bsfsAllocInode exits s = .ok index s' → s'.panics = [] →
      DirentStep exits dir (s, written) (s', written)
  | dirent {s s' : PopulateState} {written : List Nat} {idx offset : Nat} : idx ≠ dir →
      bsfsAllocDirent exits idx s = .ok offset s' → s'.panics = [] →
      DirentStep exits dir (s, written) (s', written)
  | change {s s' : PopulateState} {written : List Nat} {idx : Nat} (f : BsfsInode → BsfsInode) :
      idx ≠ dir → modifyInode idx f s = .ok () s' → DirentStep exits dir (s, written) (s', written)
  | write {s : PopulateState} {written : List Nat} (image : HostFile) (position : Nat) :
      DirentStep exits dir (s, written) ({ s with image := image, position := position }, written)

/-- The inode of the directory lists no block, and only the metadata blocks are in use. -/
structure DirentStart (h : BsfsHeader) (dir : Nat) (s : PopulateState) : Prop where
  header : s.header.geometry = h.geometry
  freeBlocks : s.header.freeBlocks = h.freeBlocks
  blockBits : ∀ i, bitAt s.blockBitmap i = decide (i < h.dataStart)
  exact : MegablocksExact s
  size : (s.inodeTable dir).size = 0
  direct : ∀ k, (s.inodeTable dir).direct k = 0
  panics : s.panics = []

/-- Every entry lies in one block of the directory, no two overlap, and a scan of the slots of the
directory's blocks finds each of them. -/
structure DirentSlots (h : BsfsHeader) (inode : BsfsInode) (written : List Nat) : Prop where
  inside : ∀ offset ∈ written, ∃ k < bsfsMaxDirectblocks, inode.direct k ≠ 0 ∧
    inode.direct k * h.blockSize ≤ offset ∧
      offset + sizeofBsfsDirent ≤ (inode.direct k + 1) * h.blockSize
  disjoint : written.Pairwise fun a b => a + sizeofBsfsDirent ≤ b ∨ b + sizeofBsfsDirent ≤ a
  found : ∀ offset ∈ written, ∃ k < bsfsMaxDirectblocks, inode.direct k ≠ 0 ∧
    ∃ d < slotsPerBlock h, offset = extractOffset h (inode.direct k) + sizeofBsfsDirent * d

/-- Where entry `k` is, by the size of the directory before it. -/
def direntPlace (bs : Nat) (inode : BsfsInode) (k : Nat) : Nat :=
  inode.direct (sizeofBsfsDirent * k / bs) * bs + sizeofBsfsDirent * k % bs

/-- The entries are where `bsfs_alloc_dirent` places them, in blocks of the directory alone. -/
structure DirentInv (h : BsfsHeader) (bs dir : Nat) (s : PopulateState) (written : List Nat) : Prop where
  ledger : Ledger h s
  panics : s.panics = []
  size : (s.inodeTable dir).size = sizeofBsfsDirent * written.length
  used : ∀ k, (s.inodeTable dir).direct k ≠ 0 →
    bitAt s.blockBitmap ((s.inodeTable dir).direct k) = true ∧
      ((s.inodeTable dir).direct k + 1) * bs ≤ 2 ^ 32
  distinct : ∀ j k, (s.inodeTable dir).direct j ≠ 0 →
    (s.inodeTable dir).direct j = (s.inodeTable dir).direct k → j = k
  listed : ∀ k, k < written.length → (s.inodeTable dir).direct (sizeofBsfsDirent * k / bs) ≠ 0
  written : written = (List.range written.length).map (direntPlace bs (s.inodeTable dir))

/-- A formatted volume of at most 4 GiB. -/
structure DirentVolume (h : BsfsHeader) (bs offset total : Nat) : Prop where
  regions : HeaderRegions h bs offset total
  least : 1024 ≤ bs
  most : bs ≤ 16384
  offset_le : offset ≤ 1024
  covered : h.Covered
  small : total * bs ≤ 2 ^ 32

theorem mkfsHeader_direntVolume {bs offset imageSize : Nat} (haccepts : MkfsAccepts bs offset imageSize)
    (hsmall : (mkfsHeader bs offset imageSize).totalBlocks * bs ≤ 2 ^ 32) :
    DirentVolume (mkfsHeader bs offset imageSize) bs offset
      (mkfsHeader bs offset imageSize).totalBlocks := by
  have htotal : (mkfsHeader bs offset imageSize).totalBlocks ≤ 2 ^ 22 := by
    have hle := Nat.mul_le_mul_left (mkfsHeader bs offset imageSize).totalBlocks haccepts.least
    omega
  have hcount : imageSize / bs % 2 ^ 32 = (mkfsHeader bs offset imageSize).totalBlocks := by
    simp only [mkfsHeader, mkfsLayout, u32]
  exact ⟨mkfsHeader_regions haccepts.least haccepts.offset hcount (by omega), haccepts.least,
    haccepts.most, haccepts.offset, mkfsHeader_covered haccepts (by omega), hsmall⟩

section Steps

variable {h : BsfsHeader} {bs offset total dir : Nat} {s s' t : PopulateState} {written : List Nat}

/-- Block 0 is never taken. -/
theorem DirentVolume.dataStart_pos (hv : DirentVolume h bs offset total) : 0 < h.dataStart := by
  have hfirst := hv.regions.blockBitmapStart
  have hsecond := hv.regions.megablockBitmapStart
  have hthird := hv.regions.inodeBitmapStart
  have hfourth := hv.regions.inodeTableStart
  have hdata := hv.regions.dataStart
  omega

theorem direct_eq_zero_of_le {inode : BsfsInode} {k : Nat} (hk : bsfsMaxDirectblocks ≤ k) :
    inode.direct k = 0 :=
  dif_neg (Nat.not_lt.mpr hk)

variable (hinv : DirentInv h bs dir s written)

include hinv

/-- The directory has ten blocks at most. -/
theorem DirentInv.size_lt (hv : DirentVolume h bs offset total) :
    (s.inodeTable dir).size ≤ 2 ^ 18 := by
  have hmost := hv.most
  have hleast := hv.least
  have hlisted := hinv.listed (written.length - 1)
  rw [hinv.size]
  unfold sizeofBsfsDirent at *
  by_contra hlarge
  refine hlisted (by omega) (direct_eq_zero_of_le ?_)
  rw [Nat.le_div_iff_mul_le (by omega)]
  unfold bsfsMaxDirectblocks
  omega

/-- What happens elsewhere does not matter. -/
theorem DirentInv.elsewhere (hledger : Ledger h s')
    (hpanics : s'.panics = []) (hinode : s'.inodeTable dir = s.inodeTable dir)
    (hbits : ∀ i, bitAt s.blockBitmap i = true → bitAt s'.blockBitmap i = true) :
    DirentInv h bs dir s' written := by
  obtain ⟨-, -, hsize, hused, hdistinct, hlisted, hwritten⟩ := hinv
  refine ⟨hledger, hpanics, ?_, ?_, ?_, ?_, ?_⟩ <;> rw [hinode]
  · exact hsize
  · exact fun k hk => ⟨hbits _ (hused k hk).1, (hused k hk).2⟩
  · exact hdistinct
  · exact hlisted
  · exact hwritten

/-- An inode other than the directory changes. -/
theorem DirentInv.setInode {idx : Nat} (hne : idx ≠ dir)
    (inode : BsfsInode) : DirentInv h bs dir (s.setInode idx inode) written :=
  hinv.elsewhere (hinv.ledger.congr rfl rfl rfl rfl) hinv.panics
    (by rw [setInode_inodeTable, update_of_ne hne.symm]) fun _ hset => hset

omit hinv in
/-- The directory is set up before its first entry. -/
theorem DirentInv.create (hinv : DirentInv h bs dir s []) {type time blocks : Nat} :
    DirentInv h bs dir
      (s.setInode dir { freshInode type time (s.inodeTable dir) with blocks := blocks }) [] := by
  obtain ⟨hledger, hpanics, -, hused, hdistinct, hlisted, hwritten⟩ := hinv
  have hinode : (s.setInode dir
      { freshInode type time (s.inodeTable dir) with blocks := blocks }).inodeTable dir =
        { freshInode type time (s.inodeTable dir) with blocks := blocks } := by
    rw [setInode_inodeTable, update_self]
  refine ⟨hledger.congr rfl rfl rfl rfl, hpanics, ?_, ?_, ?_, ?_, ?_⟩ <;> rw [hinode]
  · rfl
  · exact hused
  · exact hdistinct
  · exact hlisted
  · rfl

theorem DirentInv.allocBlock (hv : DirentVolume h bs offset total)
    {block : Nat} (hcall : bsfsAllocBlock true s = .ok block s') :
    DirentInv h bs dir s' written := by
  have htaken := blockTaken_of_ok hcall
  refine hinv.elsewhere (hinv.ledger.allocBlock hv.covered hcall) (htaken.panics.trans hinv.panics)
    (by rw [htaken.inodeTable]) fun i hset => ?_
  rw [htaken.blockBitmap, bitAt_bitmapSet, hset, Bool.or_true]

theorem DirentInv.allocInode {index : Nat}
    (hcall : bsfsAllocInode true s = .ok index s') : DirentInv h bs dir s' written := by
  obtain ⟨freeInodes, inodeBitmap, rfl⟩ := bsfsAllocInode_eq_ok hcall
  exact hinv.elsewhere (hinv.ledger.congr rfl rfl rfl rfl) hinv.panics rfl fun _ hset => hset

theorem DirentInv.allocOtherDirent (hv : DirentVolume h bs offset total) {idx place : Nat}
    (hne : idx ≠ dir) (hcall : bsfsAllocDirent true idx s = .ok place s') : DirentInv h bs dir s' written := by
  obtain ⟨-, -, hblock, -⟩ := bsfsAllocDirent_eq_ok hcall
  cases hblock with
  | listed _ => exact hinv
  | taken _ halloc => exact (hinv.allocBlock hv halloc).setInode hne _

omit hinv in
theorem addDirect_size (inode : BsfsInode) (k block : Nat) :
    (inode.addDirect k block).size = inode.size := by
  unfold BsfsInode.addDirect BsfsInode.setDirect
  split <;> rfl

variable (hv : DirentVolume h bs offset total)

include hv

/-- The directory gets a new block. -/
theorem DirentInv.addDirect {k block : Nat} (hk : k < bsfsMaxDirectblocks)
    (hzero : (s.inodeTable dir).direct k = 0) (hcall : bsfsAllocBlock true s = .ok block t) :
    DirentInv h bs dir (t.setInode dir ((t.inodeTable dir).addDirect k block)) written ∧
      ((t.inodeTable dir).addDirect k block).direct k = block ∧ block ≠ 0 := by
  have htaken := blockTaken_of_ok hcall
  have hinv' := hinv.allocBlock hv hcall
  have haddress := hinv.ledger.address hv.regions hv.least hv.most hv.offset_le hv.covered hv.small
    hcall
  have hpos : block ≠ 0 := by
    have hdata := htaken.dataStart_le
    rw [dataStart_of_geometry hinv.ledger.header] at hdata
    have hstart := hv.dataStart_pos
    omega
  have hsame : ((t.inodeTable dir).addDirect k block).direct k = block :=
    BsfsInode.direct_setDirect_same _ _ hk
  have hother (j : Nat) (hj : j ≠ k) :
      ((t.inodeTable dir).addDirect k block).direct j = (t.inodeTable dir).direct j :=
    BsfsInode.direct_setDirect_other _ _ hj
  rw [htaken.inodeTable] at hsame hother ⊢
  have hnew (j : Nat) (hj : j ≠ k) : (s.inodeTable dir).direct j ≠ block := by
    intro heq
    have hset := (hinv.used j (by omega)).1
    rw [heq, htaken.clear] at hset
    exact Bool.false_ne_true hset
  refine ⟨⟨hinv'.ledger.congr rfl rfl rfl rfl, hinv'.panics, ?_, ?_, ?_, ?_, ?_⟩, hsame, hpos⟩
  all_goals rw [setInode_inodeTable, update_self]
  · rw [addDirect_size]
    exact hinv.size
  · intro j hj
    by_cases hjk : j = k
    · rw [hjk, hsame]
      refine ⟨?_, haddress⟩
      show bitAt t.blockBitmap block = true
      rw [htaken.blockBitmap, bitAt_bitmapSet, decide_eq_true rfl, Bool.true_or]
    · rw [hother j hjk] at hj ⊢
      rw [← htaken.inodeTable] at hj ⊢
      exact hinv'.used j hj
  · intro i j hi hij
    by_cases hik : i = k
    · by_cases hjk : j = k
      · rw [hik, hjk]
      · rw [hik, hsame, hother j hjk] at hij
        exact absurd hij.symm (hnew j hjk)
    · by_cases hjk : j = k
      · rw [hjk, hsame, hother i hik] at hij
        exact absurd hij (hnew i hik)
      · rw [hother i hik] at hi hij
        rw [hother j hjk] at hij
        exact hinv.distinct i j hi hij
  · intro i hi
    have hlisted := hinv.listed i hi
    rwa [hother _ fun heq => hlisted (by rw [heq, hzero])]
  · rw [List.map_congr_left (g := direntPlace bs (s.inodeTable dir))]
    · exact hinv.written
    · intro i hi
      have hlisted := hinv.listed i (List.mem_range.mp hi)
      unfold direntPlace
      rw [hother _ fun heq => hlisted (by rw [heq, hzero])]

/-- `bsfs_alloc_dirent` returns the place of the next entry, in a block of the directory. -/
theorem DirentInv.allocDirent {place : Nat} (hcall : bsfsAllocDirent true dir s = .ok place s') :
    DirentInv h bs dir s' written ∧
      (s'.inodeTable dir).direct (sizeofBsfsDirent * written.length / bs) ≠ 0 ∧
      place = direntPlace bs (s'.inodeTable dir) written.length := by
  have hsmall := hinv.size_lt hv
  have hleast := hv.least
  have hlocal : u32 ((s.inodeTable dir).size / s.header.blockSize) =
      sizeofBsfsDirent * written.length / bs := by
    rw [blockSize_of_geometry hinv.ledger.header, hv.regions.blockSize, hinv.size]
    rw [hinv.size] at hsmall
    exact u32_of_lt (Nat.lt_of_le_of_lt (Nat.div_le_self _ _) (by omega))
  obtain ⟨-, hk, hblock, hplace⟩ := bsfsAllocDirent_eq_ok hcall
  rw [hlocal] at hk hblock hplace
  have hinv' : DirentInv h bs dir s' written ∧
      (s'.inodeTable dir).direct (sizeofBsfsDirent * written.length / bs) ≠ 0 := by
    cases hblock with
    | listed hlisted => exact ⟨hinv, hlisted⟩
    | taken hzero halloc =>
      obtain ⟨hadd, hsame, hne⟩ := hinv.addDirect hv hk hzero halloc
      refine ⟨hadd, ?_⟩
      rw [setInode_inodeTable, update_self, hsame]
      exact hne
  refine ⟨hinv'.1, hinv'.2, ?_⟩
  have haddress := (hinv'.1.used _ hinv'.2).2
  have hmod := Nat.mod_lt (sizeofBsfsDirent * written.length) (show 0 < bs by omega)
  rw [hplace, hinv.size]
  unfold direntOffset BsfsHeader.blockOffset direntPlace
  rw [blockSize_of_geometry hinv'.1.ledger.header, hv.regions.blockSize]
  generalize (s'.inodeTable dir).direct (sizeofBsfsDirent * written.length / bs) = block at *
  rw [Nat.add_mul] at haddress
  rw [Nat.mul_comm bs, u32_of_lt (n := block * bs) (by omega), u32_of_lt (by omega)]

/-- An entry is appended where the next one belongs. -/
theorem DirentInv.append {inode place : Nat} {name : CString}
    (hcall : appendDirent true dir inode name s = .ok place s') :
    DirentInv h bs dir s' (written ++ [place]) := by
  obtain ⟨next, t, halloc, hcall⟩ := bind_eq_ok.mp hcall
  obtain ⟨_, t', hwrite, hcall⟩ := bind_eq_ok.mp hcall
  obtain ⟨_, _, hgrow, hcall⟩ := bind_eq_ok.mp hcall
  obtain ⟨rfl, rfl⟩ := pure_eq_ok.mp hcall
  obtain ⟨hinv', hlisted, hplace⟩ := hinv.allocDirent hv halloc
  have hsmall := hinv'.size_lt hv
  have hkept : t'.header = t.header ∧ t'.blockBitmap = t.blockBitmap ∧
      t'.megablockBitmap = t.megablockBitmap ∧ t'.inodeTable = t.inodeTable ∧
      t'.panics = t.panics := by
    obtain ⟨_, u, hseek, hwrite⟩ := bind_eq_ok.mp hwrite
    rw [← modify_eq_ok.mp hwrite, ← modify_eq_ok.mp hseek]
    split <;> exact ⟨rfl, rfl, rfl, rfl, rfl⟩
  obtain ⟨hheader, hblock, hmega, htable, hpanics⟩ := hkept
  rw [modifyInode_eq_ok hgrow]
  have hgrown : ((t'.inodeTable dir).size + sizeofBsfsDirent) % 2 ^ 64 =
      sizeofBsfsDirent * (written ++ [next]).length := by
    rw [htable, List.length_append, List.length_singleton, Nat.mul_add, Nat.mul_one, ← hinv'.size]
    unfold sizeofBsfsDirent
    omega
  obtain ⟨hledger, hpanics', -, hused, hdistinct, hlisted', hwritten⟩ := hinv'
  refine ⟨hledger.congr (congrArg _ hheader) (congrArg _ hheader) hblock hmega,
    hpanics.trans hpanics', ?_, ?_, ?_, ?_, ?_⟩
  all_goals rw [setInode_inodeTable, update_self]
  · exact hgrown
  · rw [htable]
    show ∀ k, (t.inodeTable dir).direct k ≠ 0 → bitAt t'.blockBitmap _ = true ∧ _
    rw [hblock]
    exact hused
  · rw [htable]
    exact hdistinct
  · rw [htable]
    intro k hk
    rw [List.length_append, List.length_singleton] at hk
    rcases Nat.lt_or_eq_of_le (Nat.le_of_lt_succ hk) with hlt | rfl
    · exact hlisted' k hlt
    · exact hlisted
  · rw [htable, List.length_append, List.length_singleton, List.range_succ, List.map_append]
    exact congrArg₂ (· ++ ·) hwritten (congrArg (fun a => [a]) hplace)

end Steps

/-! ## Where the entries are found -/

section Slots

variable {h : BsfsHeader} {bs offset total dir : Nat} {s s' : PopulateState} {written : List Nat}

/-- A fresh directory on a fresh volume. -/
theorem direntInv_start (hv : DirentVolume h bs offset total) (hstart : DirentStart h dir s) :
    DirentInv h bs dir s [] := by
  have hdirect (k : Nat) (hk : (s.inodeTable dir).direct k ≠ 0) : False := hk (hstart.direct k)
  refine ⟨⟨hstart.header, fun i hi => ?_, fun hfits => ⟨hstart.exact, ?_⟩⟩, hstart.panics, hstart.size,
    fun k hk => (hdirect k hk).elim, fun j _ hj => (hdirect j hj).elim, ?_, rfl⟩
  · rw [hstart.blockBits, decide_eq_true hi]
  · rw [clearCount_of_below fun i _ => hstart.blockBits i, hstart.freeBlocks, hv.regions.freeBlocks,
      hv.regions.totalBlocks]
    rw [hv.regions.totalBlocks] at hfits
    unfold u32
    omega
  · intro k hk
    exact absurd hk (Nat.not_lt_zero k)

theorem recordsPanics_appendDirent (inode : Nat) (name : CString) :
    RecordsPanics fun exits => appendDirent exits dir inode name := by
  refine RecordsPanics.bind (RecordsPanics.rules.allocDirent dir) fun place =>
    RecordsPanics.bind ?_ fun _ => (RecordsPanics.of_modifyInode _ _).bind fun _ =>
      RecordsPanics.of_pure _
  refine RecordsPanics.bind (RecordsPanics.of_modify fun s => ?_) fun _ =>
    RecordsPanics.of_modify fun s => rfl
  split <;> rfl

theorem DirentInv.step {exits : Bool} {q : PopulateState × List Nat}
    (hinv : DirentInv h bs dir s written) (hv : DirentVolume h bs offset total)
    (hstep : DirentStep exits dir (s, written) q) : DirentInv h bs dir q.1 q.2 := by
  have hnone := hinv.panics
  cases hstep with
  | create time hcall =>
    rw [modifyInode_eq_ok hcall]
    exact hinv.create
  | append inode name hcall hquiet =>
    exact hinv.append hv ((recordsPanics_appendDirent inode name).quiet hcall
      (hquiet.trans hnone.symm))
  | block hcall hquiet =>
    exact hinv.allocBlock hv
      (RecordsPanics.quiet RecordsPanics.rules.allocBlock hcall (hquiet.trans hnone.symm))
  | inode hcall hquiet =>
    exact hinv.allocInode
      (RecordsPanics.quiet RecordsPanics.rules.allocInode hcall (hquiet.trans hnone.symm))
  | dirent hne hcall hquiet =>
    exact hinv.allocOtherDirent hv hne
      (RecordsPanics.quiet (RecordsPanics.rules.allocDirent _) hcall (hquiet.trans hnone.symm))
  | change f hne hcall =>
    rw [modifyInode_eq_ok hcall]
    exact hinv.setInode hne _
  | write image position =>
    exact hinv.elsewhere (hinv.ledger.congr rfl rfl rfl rfl) hnone rfl fun _ hset => hset

/-- Every run from a fresh volume keeps the entries where `bsfs_alloc_dirent` placed them. -/
theorem direntInv_of_run {exits : Bool} (hv : DirentVolume h bs offset total)
    (hstart : DirentStart h dir s)
    (hrun : ReflTransGen (DirentStep exits dir) (s, []) (s', written)) :
    DirentInv h bs dir s' written := by
  let inv (q : PopulateState × List Nat) : Prop := DirentInv h bs dir q.1 q.2
  have hkept (q q' : PopulateState × List Nat) (hinv : inv q)
      (hstep : DirentStep exits dir q q') : inv q' := DirentInv.step hinv hv hstep
  have hreached : inv (s', written) := run_invariant hrun (direntInv_start hv hstart) hkept
  exact hreached

/-- The place of an entry inside its block. -/
theorem direntPlace_slot {n k : Nat} (hpos : 0 < bs)
    (hroom : sizeofBsfsDirent ∣ bs ∨ sizeofBsfsDirent * n ≤ bs) (hk : k < n) :
    ∃ d < bs / sizeofBsfsDirent, sizeofBsfsDirent * k % bs = sizeofBsfsDirent * d := by
  unfold sizeofBsfsDirent at *
  rcases hroom with ⟨slots, rfl⟩ | hfew
  · rw [Nat.mul_mod_mul_left, Nat.mul_div_cancel_left _ (by decide)]
    exact ⟨k % slots, Nat.mod_lt _ (by omega), rfl⟩
  · refine ⟨k, by omega, Nat.mod_eq_of_lt (by omega)⟩

/-- Two entries do not overlap. -/
theorem DirentInv.disjoint (hinv : DirentInv h bs dir s written) (hpos : 0 < bs)
    (hroom : sizeofBsfsDirent ∣ bs ∨ sizeofBsfsDirent * written.length ≤ bs) {j k : Nat}
    (hjk : j < k) (hk : k < written.length) :
    direntPlace bs (s.inodeTable dir) j + sizeofBsfsDirent ≤ direntPlace bs (s.inodeTable dir) k ∨
      direntPlace bs (s.inodeTable dir) k + sizeofBsfsDirent ≤
        direntPlace bs (s.inodeTable dir) j := by
  obtain ⟨d, hd, hplace⟩ := direntPlace_slot hpos hroom (Nat.lt_trans hjk hk)
  obtain ⟨e, he, hplace'⟩ := direntPlace_slot hpos hroom hk
  have hdistinct := hinv.distinct (sizeofBsfsDirent * j / bs) (sizeofBsfsDirent * k / bs)
    (hinv.listed j (by omega))
  have hj := Nat.div_add_mod (sizeofBsfsDirent * j) bs
  have hk := Nat.div_add_mod (sizeofBsfsDirent * k) bs
  unfold direntPlace
  rw [hplace, hplace'] at *
  unfold sizeofBsfsDirent at *
  generalize (s.inodeTable dir).direct (128 * j / bs) = block at *
  generalize (s.inodeTable dir).direct (128 * k / bs) = block' at *
  rcases Nat.lt_trichotomy block block' with hlt | heq | hlt
  · have hnext := Nat.mul_le_mul_right bs (Nat.succ_le_of_lt hlt)
    rw [Nat.succ_mul] at hnext
    omega
  · -- in one block the later entry comes behind the earlier one
    rw [hdistinct heq] at hj
    rw [heq]
    omega
  · have hnext := Nat.mul_le_mul_right bs (Nat.succ_le_of_lt hlt)
    rw [Nat.succ_mul] at hnext
    omega

/-- Entries that would straddle two blocks are those behind the last slot of the first block. -/
theorem DirentInv.slots_iff (hinv : DirentInv h bs dir s written)
    (hv : DirentVolume h bs offset total) :
    DirentSlots h (s.inodeTable dir) written ↔
      sizeofBsfsDirent ∣ bs ∨ sizeofBsfsDirent * written.length ≤ bs := by
  have hleast := hv.least
  have hbs := hv.regions.blockSize
  have hpos : 0 < bs := by omega
  constructor
  · intro hslots
    by_contra hboth
    obtain ⟨hdivides, hmany⟩ := not_or.mp hboth
    -- the first entry that does not fit the rest of the first block
    have hk : bs / sizeofBsfsDirent < written.length := by
      unfold sizeofBsfsDirent at *
      omega
    have hmem : direntPlace bs (s.inodeTable dir) (bs / sizeofBsfsDirent) ∈ written := by
      rw [hinv.written]
      exact List.mem_map_of_mem (List.mem_range.mpr hk)
    obtain ⟨k, -, -, hlo, hhi⟩ := hslots.inside _ hmem
    have hshort : sizeofBsfsDirent * (bs / sizeofBsfsDirent) < bs := by
      refine Nat.lt_of_le_of_ne (Nat.mul_div_le _ _) fun heq => hdivides ⟨_, heq.symm⟩
    unfold direntPlace at hlo hhi
    rw [Nat.div_eq_of_lt hshort, Nat.mod_eq_of_lt hshort, hbs] at hlo hhi
    generalize (s.inodeTable dir).direct 0 = block at *
    generalize (s.inodeTable dir).direct k = block' at *
    have hle : block' ≤ block := by
      by_contra hlt
      have hnext := Nat.mul_le_mul_right bs (Nat.succ_le_of_lt (Nat.not_le.mp hlt))
      rw [Nat.succ_mul] at hnext
      omega
    have hend := Nat.mul_le_mul_right bs (Nat.succ_le_succ hle)
    simp only [Nat.succ_eq_add_one, Nat.add_mul] at hend hhi
    unfold sizeofBsfsDirent at *
    omega
  · intro hroom
    have hplaces (place : Nat) (hmem : place ∈ written) : ∃ k < bsfsMaxDirectblocks,
        (s.inodeTable dir).direct k ≠ 0 ∧ ∃ d < bs / sizeofBsfsDirent,
          place = (s.inodeTable dir).direct k * bs + sizeofBsfsDirent * d := by
      rw [hinv.written] at hmem
      obtain ⟨n, hn, rfl⟩ := List.mem_map.mp hmem
      have hlisted := hinv.listed n (List.mem_range.mp hn)
      obtain ⟨d, hd, hslot⟩ := direntPlace_slot hpos hroom (List.mem_range.mp hn)
      refine ⟨_, Nat.not_le.mp fun hle => hlisted (direct_eq_zero_of_le hle), hlisted, d, hd, ?_⟩
      unfold direntPlace
      rw [hslot]
    refine ⟨fun place hmem => ?_, ?_, fun place hmem => ?_⟩
    · obtain ⟨k, hk, hlisted, d, hd, rfl⟩ := hplaces place hmem
      refine ⟨k, hk, hlisted, ?_, ?_⟩
      · rw [hbs]
        exact Nat.le_add_right _ _
      · rw [hbs, Nat.add_mul]
        unfold sizeofBsfsDirent at *
        omega
    · rw [hinv.written, List.pairwise_map]
      refine List.Pairwise.imp_of_mem (fun _ hk hjk => ?_) List.pairwise_lt_range
      exact hinv.disjoint hpos hroom hjk (List.mem_range.mp hk)
    · obtain ⟨k, hk, hlisted, d, hd, rfl⟩ := hplaces place hmem
      refine ⟨k, hk, hlisted, d, ?_, ?_⟩
      · unfold slotsPerBlock
        rwa [hbs]
      · have haddress := (hinv.used k hlisted).2
        rw [Nat.add_mul] at haddress
        unfold extractOffset BsfsHeader.blockOffset
        rw [hbs, Nat.mul_comm bs, u32_of_lt (by omega)]

/-- In a volume of at most 4 GiB, the entries of a directory are where they should be exactly when
entries tile the blocks, or they all fit the first block. -/
theorem direntSlots_iff (exits : Bool) {bs offset imageSize dir : Nat} {s s' : PopulateState}
    {written : List Nat} (haccepts : MkfsAccepts bs offset imageSize)
    (hsmall : (mkfsHeader bs offset imageSize).totalBlocks * bs ≤ 2 ^ 32)
    (hstart : DirentStart (mkfsHeader bs offset imageSize) dir s)
    (hrun : ReflTransGen (DirentStep exits dir) (s, []) (s', written)) :
    DirentSlots (mkfsHeader bs offset imageSize) (s'.inodeTable dir) written ↔
      sizeofBsfsDirent ∣ bs ∨ sizeofBsfsDirent * written.length ≤ bs := by
  have hv := mkfsHeader_direntVolume haccepts hsmall
  exact (direntInv_of_run hv hstart hrun).slots_iff hv

end Slots

/-! ### Blocks of 1100 bytes -/

/-- A fresh volume of 200 blocks of 1100 bytes. -/
def oddVolume : PopulateState where
  image := ⟨220000, fun _ => 0⟩
  position := 0
  header := mkfsHeader 1100 0 220000
  blockBitmap := fun a => if a = 0 then 0xFF else if a = 1 then 0x03 else 0
  megablockBitmap := fun _ => 0
  inodeBitmap := fun _ => 0
  inodeTable := fun _ => .zero
  panics := []

theorem oddVolume_accepts : MkfsAccepts 1100 0 220000 := ⟨by decide, by decide, by decide, by decide⟩

theorem oddVolume_small : (mkfsHeader 1100 0 220000).totalBlocks * 1100 ≤ 2 ^ 32 := by decide +kernel

theorem oddVolume_start : DirentStart (mkfsHeader 1100 0 220000) 0 oddVolume := by
  have hdata : (mkfsHeader 1100 0 220000).dataStart = 10 := by decide +kernel
  have hmega : divCeil (mkfsHeader 1100 0 220000).totalBlocks
      (8 * (mkfsHeader 1100 0 220000).blockSize) = 1 := by decide +kernel
  refine ⟨rfl, rfl, fun i => ?_, fun m hm => ?_, rfl, fun k => ?_, rfl⟩
  · rw [hdata]
    rcases Nat.lt_or_ge i 16 with hlt | hge
    · have hlow : ∀ j < 16, bitAt oddVolume.blockBitmap j = decide (j < 10) := by decide +kernel
      exact hlow i hlt
    · have hbyte : oddVolume.blockBitmap (i / 8) = 0 := by
        unfold oddVolume
        simp only
        rw [if_neg (by omega), if_neg (by omega)]
      unfold bitAt
      rw [hbyte, decide_eq_false (by omega)]
      exact Nat.zero_testBit _
  · -- the only megablock has free blocks
    replace hm : m < 1 := hmega ▸ hm
    obtain rfl : m = 0 := by omega
    refine iff_of_false (by decide) fun hfull => ?_
    exact absurd (hfull 2 (by decide)) (by decide)
  · show BsfsInode.zero.direct k = 0
    simp [BsfsInode.direct, BsfsInode.zero]

/-- Appends of one entry after another. -/
def appendTimes (dir : Nat) : Nat → PopulateState × List Nat → Option (PopulateState × List Nat)
  | 0, q => some q
  | n + 1, q =>
    match appendDirent false dir dir .dot q.1 with
    | .ok offset s' =>
      if s'.panics = [] then appendTimes dir n (s', q.2 ++ [offset]) else none
    | .error _ _ => none

theorem run_of_appendTimes {dir n : Nat} {q q' : PopulateState × List Nat}
    (happends : appendTimes dir n q = some q') : ReflTransGen (DirentStep false dir) q q' := by
  induction n generalizing q with
  | zero =>
    obtain rfl := Option.some.inj happends
    exact .refl
  | succ n ih =>
    unfold appendTimes at happends
    split at happends
    case h_1 offset s' hcall =>
      split at happends
      case isTrue hquiet => exact .head (.append dir .dot hcall hquiet) (ih happends)
      case isFalse => exact nomatch happends
    case h_2 => exact nomatch happends

/-- The volume with its root directory set up. -/
def oddRoot : PopulateState :=
  oddVolume.setInode 0 { freshInode bsfsInodeTypeDirectory 0 .zero with blocks := 0 }

theorem oddVolume_run (n : Nat) (places : List Nat)
    (happends : (appendTimes 0 n (oddRoot, [])).map Prod.snd = some places) :
    ∃ s', ReflTransGen (DirentStep false 0) (oddVolume, []) (s', places) := by
  obtain ⟨⟨s', written⟩, hrun, rfl⟩ := Option.map_eq_some_iff.mp happends
  have hcount : 0 < oddVolume.header.inodeCount := by decide +kernel
  exact ⟨s', .head (.create 0 (modifyInode_of_lt hcount)) (run_of_appendTimes hrun)⟩

/-- The first eight entries share block 10, and are found there. -/
theorem direntSlots_eight : ∃ s', ReflTransGen (DirentStep false 0) (oddVolume, [])
      (s', [11000, 11128, 11256, 11384, 11512, 11640, 11768, 11896]) ∧
    DirentSlots (mkfsHeader 1100 0 220000) (s'.inodeTable 0)
      [11000, 11128, 11256, 11384, 11512, 11640, 11768, 11896] := by
  obtain ⟨s', hrun⟩ := oddVolume_run 8
    [11000, 11128, 11256, 11384, 11512, 11640, 11768, 11896] (by decide +kernel)
  exact ⟨s', hrun, (direntSlots_iff false oddVolume_accepts oddVolume_small oddVolume_start hrun).mpr
    (.inr (by decide))⟩

/-- The ninth is written over the end of block 10, which is at 12100, into block 11. -/
theorem dirent_straddles : MkfsAccepts 1100 0 220000 ∧
    DirentStart (mkfsHeader 1100 0 220000) 0 oddVolume ∧
    ∃ s', ReflTransGen (DirentStep false 0) (oddVolume, [])
      (s', [11000, 11128, 11256, 11384, 11512, 11640, 11768, 11896, 12024]) ∧
    ¬ DirentSlots (mkfsHeader 1100 0 220000) (s'.inodeTable 0)
      [11000, 11128, 11256, 11384, 11512, 11640, 11768, 11896, 12024] := by
  have hv := mkfsHeader_direntVolume oddVolume_accepts oddVolume_small
  obtain ⟨s', hrun⟩ := oddVolume_run 9
    [11000, 11128, 11256, 11384, 11512, 11640, 11768, 11896, 12024] (by decide +kernel)
  refine ⟨oddVolume_accepts, oddVolume_start, s', hrun, ?_⟩
  rw [(direntInv_of_run hv oddVolume_start hrun).slots_iff hv]
  decide

end Pristine.Bsfs
