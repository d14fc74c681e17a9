import Pristine.Bsfs.Fread

/-!
# What a read does

Reads of the kernel and of stage 2, whatever the disk does.

* `fetchBlock_spec`: what one pass of the block loop leaves in the file, and what the
  disk has to do with it.
* `freadBlocks_invariant`: what every pass keeps, the loop keeps.
* `bsfsFread_of_big`, `bsfsFread_of_error`, `bsfsFread_of_ok`: the three ways in which
  `bsfs_fread` ends.
* `freadEnd_eq`: the end of a read that does not wrap around in 32 bits.

A disk is a function of the sector.  In one call a sector is asked for twice only if
a file has a block twice, or a block that is its own L1 table.
-/

namespace Pristine.Bsfs

open Lib Kernel

/-- The kernel and stage 2 accept volumes with blocks of 4096 bytes, and read sectors of 512. -/
def kernelContext : BsfsContext := ⟨4096, 512⟩

/-- Block `k` of a file. -/
def blockPtr (img : ByteMem) (inode : BsfsInode) (k : Nat) : Nat :=
  if k < bsfsMaxDirectblocks then inode.direct k
  else loadLE img (4096 * inode.blocksL1indirect + 4 * (k - bsfsMaxDirectblocks)) 4

/-- The byte offsets of the blocks that can be read fit in 32 bits. -/
structure Addressable (img : ByteMem) (inode : BsfsInode) : Prop where
  block : ∀ k, k < 1034 → 4096 * k < inode.size → 4096 * blockPtr img inode k < 2 ^ 32
  l1 : 40960 < inode.size → 4096 * inode.blocksL1indirect < 2 ^ 32

/-- The L1 table in memory is that of the image, if it is marked as present. -/
def L1Ok (img : ByteMem) (inode : BsfsInode) (l1Table : ByteMem) (cachedL1 : Nat) : Prop :=
  cachedL1 ≠ uint32Max →
    ∀ a, a < 4096 → l1Table a = img (4096 * inode.blocksL1indirect + a)

/-! ## Disks -/

/-- A disk that returns the sectors of an image. -/
def imageDisk (img : ByteMem) : DiskRead := fun lba count =>
  (true, bytesAt img (lba * 512) (count * 512))

/-- A disk that fails at times; what it reads otherwise is the image. -/
def FaultyDisk (img : ByteMem) (disk : DiskRead) : Prop :=
  ∀ lba sectors, (disk lba sectors).1 = true →
    (disk lba sectors).2 = bytesAt img (lba * 512) (sectors * 512)

/-- A disk stores no more than it was asked for. -/
def BoundedDisk (disk : DiskRead) : Prop := ∀ lba sectors, (disk lba sectors).2.length ≤ 512 * sectors

/-- A disk without errors. -/
def NeverFails (disk : DiskRead) : Prop := ∀ lba sectors, (disk lba sectors).1 = true

theorem faultyDisk_image (img : ByteMem) : FaultyDisk img (imageDisk img) := fun _ _ _ => rfl

/-! ## One pass of the block loop -/

/-- The place in `file->buf` that `fetchBlock` passes to the disk, if it gets that far. -/
def fetchDest (ctx : BsfsContext) (disk : DiskRead) (i bufptr : Nat) (file : BsfsFile) : List Nat :=
  if i < bsfsMaxDirectblocks then [bufptr]
  else if i < ctx.l2IndirectStart then
    match loadL1 ctx disk file with
    | (.ok (), _) => [bufptr]
    | (.error _, _) => []
  else []

/-- What `fetchBlock` does: `bytes` is what the disk has stored at `bufptr`. -/
structure FetchSpec (disk : DiskRead) (i bufptr : Nat) (file : BsfsFile) (bytes : List UInt8)
    (l1Table : ByteMem) (cachedL1 : Nat) (result : Except Int Unit × BsfsFile) : Prop where
  outcome : (i < 1034 ∧ result = (.ok (), { file with
      buf := storeBytes file.buf bufptr bytes, cachedBlock := i
      l1Table := l1Table, cachedL1 := cachedL1 })) ∨
    ∃ code < 0, (NeverFails disk → 1034 ≤ i) ∧ result = (.error code, { file with
      buf := storeBytes file.buf bufptr bytes, l1Table := l1Table, cachedL1 := cachedL1 })
  bounded : BoundedDisk disk → bytes.length ≤ 4096
  dest : fetchDest kernelContext disk i bufptr file = [bufptr] ∧ i < 1034 ∨
    fetchDest kernelContext disk i bufptr file = [] ∧ bytes = [] ∧ result.1 ≠ .ok ()
  image : ∀ img, FaultyDisk img disk → Addressable img file.inode → 4096 * i < file.inode.size →
    L1Ok img file.inode file.l1Table file.cachedL1 → L1Ok img file.inode l1Table cachedL1 ∧
      (result.1 = .ok () → bytes = bytesAt img (4096 * blockPtr img file.inode i) 4096)

section Fetch

variable {img : ByteMem} {disk : DiskRead} {file : BsfsFile} {i : Nat}

theorem l2IndirectStart_eq : kernelContext.l2IndirectStart = 1034 :=
  u32_of_lt (n := bsfsMaxDirectblocks + kernelContext.l1Capacity) (by decide)

theorem kernelContext_lba {block : Nat} (hblock : 4096 * block < 2 ^ 32) :
    kernelContext.lba block * 512 = 4096 * block := by
  show u32 (block * 4096) / 512 * 512 = 4096 * block
  unfold u32
  omega

theorem faultyDisk_block (hdisk : FaultyDisk img disk) {block : Nat} (hblock : 4096 * block < 2 ^ 32)
    {bytes : List UInt8}
    (hread : disk (kernelContext.lba block) kernelContext.sectorsPerBlock = (true, bytes)) :
    bytes = bytesAt img (4096 * block) 4096 := by
  have hbytes := hdisk (kernelContext.lba block) kernelContext.sectorsPerBlock
  have hsectors : kernelContext.sectorsPerBlock * 512 = 4096 := rfl
  rw [hread, kernelContext_lba hblock, hsectors] at hbytes
  exact hbytes rfl

/-- An entry of an L1 table that is in memory. -/
theorem blockPtr_l1Entry {inode : BsfsInode} {l1Table : ByteMem} (hdirect : ¬ i < bsfsMaxDirectblocks)
    (hi : i < 1034) (htable : ∀ a, a < 4096 → l1Table a = img (4096 * inode.blocksL1indirect + a)) :
    blockPtr img inode i = loadLE l1Table (4 * (i - bsfsMaxDirectblocks)) 4 := by
  unfold blockPtr
  rw [if_neg hdirect, ← loadLE_offset img (4096 * inode.blocksL1indirect)]
  refine loadLE_congr fun a _ hhi => (htable a ?_).symm
  unfold bsfsMaxDirectblocks at hhi
  omega

/-- The L1 table is read, or was there already, or the disk has failed. -/
theorem loadL1_cases (disk : DiskRead) (file : BsfsFile) :
    (∃ l1Table cachedL1, loadL1 kernelContext disk file =
        (.ok (), { file with l1Table := l1Table, cachedL1 := cachedL1 }) ∧
      ∀ img, FaultyDisk img disk → 4096 * file.inode.blocksL1indirect < 2 ^ 32 →
        L1Ok img file.inode file.l1Table file.cachedL1 →
        ∀ a, a < 4096 → l1Table a = img (4096 * file.inode.blocksL1indirect + a)) ∨
    ∃ l1Table, loadL1 kernelContext disk file =
        (.error bsfsFreadDiskReadError, { file with l1Table := l1Table }) ∧
      file.cachedL1 = uint32Max ∧ ¬ NeverFails disk := by
  unfold loadL1
  by_cases hcached : file.cachedL1 = uint32Max
  · rw [if_pos hcached]
    rcases hread : disk (kernelContext.lba file.inode.blocksL1indirect) kernelContext.sectorsPerBlock
      with ⟨_ | _, table⟩
    · refine .inr ⟨_, rfl, hcached, fun hdisk => ?_⟩
      have hok := hdisk (kernelContext.lba file.inode.blocksL1indirect) kernelContext.sectorsPerBlock
      rw [hread] at hok
      cases hok
    · refine .inl ⟨_, _, rfl, fun img hdisk hl1 _ => ?_⟩
      rw [faultyDisk_block hdisk hl1 hread]
      exact storeBytes_start _ _ _ _
  · rw [if_neg hcached]
    exact .inl ⟨_, _, rfl, fun _ _ _ hok => hok hcached⟩

/-- The read of a block whose number is known. -/
theorem readBlock_spec (disk : DiskRead) (bufptr : Nat) (file : BsfsFile) {block cachedL1 : Nat}
    {l1Table : ByteMem} (hi : i < 1034)
    (hdest : fetchDest kernelContext disk i bufptr file = [bufptr])
    (himage : ∀ img, FaultyDisk img disk → Addressable img file.inode → 4096 * i < file.inode.size →
      L1Ok img file.inode file.l1Table file.cachedL1 →
      L1Ok img file.inode l1Table cachedL1 ∧ blockPtr img file.inode i = block) :
    ∃ bytes, FetchSpec disk i bufptr file bytes l1Table cachedL1
      (readBlock kernelContext disk block i bufptr
        { file with l1Table := l1Table, cachedL1 := cachedL1 }) := by
  unfold readBlock
  rcases hread : disk (kernelContext.lba block) kernelContext.sectorsPerBlock with ⟨ok, bytes⟩
  refine ⟨bytes, ?_, fun hdisk => ?_, .inl ⟨hdest, hi⟩, fun img hdisk haddr hsize hok => ?_⟩
  · cases ok with
    | true => exact .inl ⟨hi, rfl⟩
    | false =>
      refine .inr ⟨bsfsFreadDiskReadError, by decide, fun hdisk => ?_, rfl⟩
      have hok := hdisk (kernelContext.lba block) kernelContext.sectorsPerBlock
      rw [hread] at hok
      cases hok
  · have hlength := hdisk (kernelContext.lba block) kernelContext.sectorsPerBlock
    rw [hread] at hlength
    exact hlength
  · obtain ⟨hok', hptr⟩ := himage img hdisk haddr hsize hok
    refine ⟨hok', fun hresult => ?_⟩
    cases ok with
    | true =>
      have hblock := haddr.block i hi hsize
      rw [hptr] at hblock ⊢
      exact faultyDisk_block hdisk hblock hread
    | false => cases hresult

theorem fetchBlock_spec (disk : DiskRead) (i bufptr : Nat) (file : BsfsFile) :
    ∃ bytes l1Table cachedL1, FetchSpec disk i bufptr file bytes l1Table cachedL1
      (fetchBlock kernelContext disk i bufptr file) := by
  unfold fetchBlock
  by_cases hdirect : i < bsfsMaxDirectblocks
  · obtain ⟨bytes, hspec⟩ := readBlock_spec disk bufptr file
      (show i < 1034 by unfold bsfsMaxDirectblocks at hdirect; omega) (if_pos hdirect)
      fun img _ _ _ hok => ⟨hok, if_pos hdirect⟩
    rw [if_pos hdirect]
    exact ⟨bytes, _, _, hspec⟩
  rw [if_neg hdirect, l2IndirectStart_eq]
  have hdest : fetchDest kernelContext disk i bufptr file = if i < 1034 then
      match loadL1 kernelContext disk file with
      | (.ok (), _) => [bufptr]
      | (.error _, _) => []
      else [] := by
    unfold fetchDest
    rw [if_neg hdirect, l2IndirectStart_eq]
  by_cases hrange : i < 1034
  · rw [if_pos hrange] at hdest ⊢
    rcases loadL1_cases disk file with ⟨l1Table, cachedL1, hload, htable⟩ |
      ⟨l1Table, hload, hcached, hfails⟩
    · rw [hload] at hdest ⊢
      obtain ⟨bytes, hspec⟩ := readBlock_spec disk bufptr file hrange hdest
        fun img hdisk haddr hsize hok => by
          have htable := htable img hdisk (haddr.l1 (by unfold bsfsMaxDirectblocks at hdirect; omega)) hok
          exact ⟨fun _ => htable, blockPtr_l1Entry hdirect hrange htable⟩
      exact ⟨bytes, _, _, hspec⟩
    · rw [hload] at hdest ⊢
      refine ⟨[], l1Table, file.cachedL1,
        .inr ⟨bsfsFreadDiskReadError, by decide, fun h => absurd h hfails, ?_⟩, ?_,
        .inr ⟨hdest, rfl, nofun⟩, fun img _ _ _ _ => ⟨fun h => absurd hcached h, nofun⟩⟩
      · rw [storeBytes_nil]
      · exact fun _ => Nat.zero_le _
  · rw [if_neg hrange] at hdest ⊢
    refine ⟨[], file.l1Table, file.cachedL1, .inr ⟨bsfsFreadFileTooBig, by decide, fun _ => by omega, ?_⟩,
      fun _ => Nat.zero_le _, .inr ⟨hdest, rfl, nofun⟩, fun img _ _ _ hok => ⟨hok, nofun⟩⟩
    rw [storeBytes_nil]

end Fetch

/-! ## The loop -/

/-- The loop over the blocks changes only what is cached. -/
structure SameCursor (file file' : BsfsFile) : Prop where
  inode : file'.inode = file.inode
  bufsize : file'.bufsize = file.bufsize
  position : file'.position = file.position
  eof : file'.eof = file.eof

/-- The cached block is none or one that can be read. -/
def CachedInRange (file : BsfsFile) : Prop := file.cachedBlock = uint32Max ∨ file.cachedBlock < 1034

section Loop

variable {disk : DiskRead} {file : BsfsFile}

/-- What a pass keeps, whether it succeeds or not, the loop keeps. -/
theorem freadBlocks_invariant {P : BsfsFile → Prop}
    (hpass : ∀ i bufptr file, P file → P (fetchBlock kernelContext disk i bufptr file).2)
    (left i bufptr : Nat) (hfile : P file) :
    P (freadBlocks kernelContext disk left i bufptr file).2 := by
  induction left generalizing i bufptr file with
  | zero => exact hfile
  | succ left ih =>
    have hfetch := hpass i bufptr file hfile
    unfold freadBlocks
    split
    · exact ih _ _ hfile
    · split
      · rename_i hcall
        rw [hcall] at hfetch
        exact ih _ _ hfetch
      · rename_i hcall
        rw [hcall] at hfetch
        exact hfetch

theorem freadBlocks_cursor (disk : DiskRead) (left i bufptr : Nat) (file : BsfsFile) :
    SameCursor file (freadBlocks kernelContext disk left i bufptr file).2 := by
  refine freadBlocks_invariant (fun i bufptr file' hsame => ?_) left i bufptr ⟨rfl, rfl, rfl, rfl⟩
  obtain ⟨bytes, l1Table, cachedL1, hspec⟩ := fetchBlock_spec disk i bufptr file'
  rcases hspec.outcome with ⟨-, hcall⟩ | ⟨code, -, -, hcall⟩
  · rw [hcall]
    exact ⟨hsame.inode, hsame.bufsize, hsame.position, hsame.eof⟩
  · rw [hcall]
    exact ⟨hsame.inode, hsame.bufsize, hsame.position, hsame.eof⟩

theorem freadBlocks_cached (disk : DiskRead) (left i bufptr : Nat) (hcached : CachedInRange file) :
    CachedInRange (freadBlocks kernelContext disk left i bufptr file).2 := by
  refine freadBlocks_invariant (fun i bufptr file hcached => ?_) left i bufptr hcached
  obtain ⟨bytes, l1Table, cachedL1, hspec⟩ := fetchBlock_spec disk i bufptr file
  rcases hspec.outcome with ⟨hi, hcall⟩ | ⟨code, -, -, hcall⟩
  · rw [hcall]
    exact Or.inr hi
  · rw [hcall]
    exact hcached

/-- Errors are negative. -/
theorem freadBlocks_error {left i bufptr : Nat} {file' : BsfsFile} {code : Int}
    (hcall : freadBlocks kernelContext disk left i bufptr file = (.error code, file')) : code < 0 := by
  induction left generalizing i bufptr file with
  | zero => cases hcall
  | succ left ih =>
    obtain ⟨bytes, l1Table, cachedL1, hspec⟩ := fetchBlock_spec disk i bufptr file
    unfold freadBlocks at hcall
    split at hcall
    · exact ih hcall
    · rcases hspec.outcome with ⟨-, hfetch⟩ | ⟨code', hcode, -, hfetch⟩
      · rw [hfetch] at hcall
        exact ih hcall
      · rw [hfetch] at hcall
        cases hcall
        exact hcode

end Loop

/-! ## One read -/

/-- `total_bytes_to_read`. -/
def freadTotal (file : BsfsFile) (size count : Nat) : Nat :=
  u32 (freadEnd file size count + 2 ^ 32 - u32 file.position)

/-- The block loop of a read. -/
def freadLoop (disk : DiskRead) (size count : Nat) (file : BsfsFile) : Except Int Unit × BsfsFile :=
  freadBlocks kernelContext disk (freadSpan kernelContext file (freadEnd file size count))
    (u32 file.position / 4096) 0 file

theorem freadLoop_eq (disk : DiskRead) (size count : Nat) (file : BsfsFile) :
    freadLoop disk size count file =
      freadBlocks kernelContext disk (freadSpan kernelContext file (freadEnd file size count))
        (u32 file.position / 4096) 0 file :=
  rfl

/-- The end of a successful read. -/
def BsfsFile.moveTo (file : BsfsFile) (stop : Nat) : BsfsFile :=
  { file with position := stop, eof := file.inode.size ≤ stop }

section MoveTo

variable (file : BsfsFile) (stop : Nat)

@[simp] theorem BsfsFile.moveTo_inode : (file.moveTo stop).inode = file.inode :=
  rfl

@[simp] theorem BsfsFile.moveTo_position : (file.moveTo stop).position = stop :=
  rfl

@[simp] theorem BsfsFile.moveTo_eof : (file.moveTo stop).eof = decide (file.inode.size ≤ stop) :=
  rfl

@[simp] theorem BsfsFile.moveTo_cachedBlock : (file.moveTo stop).cachedBlock = file.cachedBlock :=
  rfl

@[simp] theorem BsfsFile.moveTo_buf : (file.moveTo stop).buf = file.buf :=
  rfl

@[simp] theorem BsfsFile.moveTo_l1Table : (file.moveTo stop).l1Table = file.l1Table :=
  rfl

@[simp] theorem BsfsFile.moveTo_cachedL1 : (file.moveTo stop).cachedL1 = file.cachedL1 :=
  rfl

end MoveTo

section Call

variable {file file' : BsfsFile} {size count : Nat} {disk : DiskRead}

theorem diskReadMax_bytes : u32 (diskReadMaxBlocks * kernelContext.physSectorSize) = 4096 :=
  u32_of_lt (n := diskReadMaxBlocks * kernelContext.physSectorSize) (by decide)

theorem bsfsFread_of_big (hbig : 4096 < freadTotal file size count) :
    bsfsFread kernelContext disk size count file = (bsfsFreadSizeTooBig, [], file) := by
  unfold freadTotal at hbig
  unfold bsfsFread
  rw [diskReadMax_bytes, if_pos hbig]

theorem bsfsFread_of_error (hsmall : freadTotal file size count ≤ 4096) {code : Int}
    (hloop : freadLoop disk size count file = (.error code, file')) :
    bsfsFread kernelContext disk size count file = (code, [], file') := by
  have hblockSize : kernelContext.blockSize = 4096 := rfl
  unfold freadTotal at hsmall
  rw [freadLoop_eq] at hloop
  unfold bsfsFread
  rw [diskReadMax_bytes, if_neg (by omega), hblockSize, hloop]

theorem bsfsFread_of_ok (hsmall : freadTotal file size count ≤ 4096)
    (hloop : freadLoop disk size count file = (.ok (), file')) :
    bsfsFread kernelContext disk size count file =
      (((freadTotal file size count : Nat) : Int),
        bytesAt file'.buf (u32 file.position % 4096) (freadTotal file size count),
        file'.moveTo (freadEnd file size count)) := by
  have hblockSize : kernelContext.blockSize = 4096 := rfl
  unfold freadTotal at hsmall ⊢
  rw [freadLoop_eq] at hloop
  unfold bsfsFread
  rw [diskReadMax_bytes, if_neg (by omega), hblockSize, hloop]
  rfl

/-- The loop fails or succeeds, and keeps the cursor in both cases. -/
theorem freadLoop_cases (disk : DiskRead) (size count : Nat) (file : BsfsFile) :
    (∃ code file', freadLoop disk size count file = (.error code, file') ∧ SameCursor file file') ∨
      ∃ file', freadLoop disk size count file = (.ok (), file') ∧ SameCursor file file' := by
  have hsame := freadBlocks_cursor disk
    (freadSpan kernelContext file (freadEnd file size count)) (u32 file.position / 4096) 0 file
  rw [freadLoop_eq]
  rcases hloop : freadBlocks kernelContext disk
    (freadSpan kernelContext file (freadEnd file size count)) (u32 file.position / 4096) 0 file with
    ⟨code | _, file'⟩
  · rw [hloop] at hsame
    exact Or.inl ⟨code, file', rfl, hsame⟩
  · rw [hloop] at hsame
    exact Or.inr ⟨file', rfl, hsame⟩

/-- What the loop and the end of a read keep, a read keeps. -/
theorem bsfsFread_invariant {P : BsfsFile → Prop} (hmove : ∀ file stop, P file → P (file.moveTo stop))
    (hfile : P file)
    (hloop : freadTotal file size count ≤ 4096 → P (freadLoop disk size count file).2) :
    P (bsfsFread kernelContext disk size count file).2.2 := by
  by_cases hbig : 4096 < freadTotal file size count
  · rw [bsfsFread_of_big hbig]
    exact hfile
  have hsmall : freadTotal file size count ≤ 4096 := Nat.le_of_not_lt hbig
  have hloop := hloop hsmall
  rcases freadLoop_cases disk size count file with ⟨code, file', hcall, -⟩ | ⟨file', hcall, -⟩
  · rw [hcall] at hloop
    rw [bsfsFread_of_error hsmall hcall]
    exact hloop
  · rw [hcall] at hloop
    rw [bsfsFread_of_ok hsmall hcall]
    exact hmove _ _ hloop

end Call

/-- The number of bytes a read should return. -/
def readLength (file : BsfsFile) (size count : Nat) : Nat :=
  min (size * count) (min (file.inode.size - file.position) file.bufsize)

section End

variable {file : BsfsFile} {size count : Nat}

/-- Without wrapping around, the two clamps are a minimum. -/
theorem freadEnd_eq (hposition : file.position ≤ file.inode.size)
    (hwrap : file.position + size * count < 2 ^ 32) :
    freadEnd file size count = file.position + readLength file size count := by
  obtain ⟨n, hn⟩ : ∃ n, size * count = n := ⟨_, rfl⟩
  unfold readLength freadEnd
  rw [hn] at hwrap ⊢
  have hstart : u32 file.position = file.position := u32_of_lt (by omega)
  have hproduct : u32 n = n := u32_of_lt (by omega)
  have hsum : u32 (file.position + n) = file.position + n := u32_of_lt hwrap
  dsimp only
  rw [hstart, hproduct, hsum]
  by_cases hend : file.inode.size < file.position + n
  · have hdiff : u32 (file.inode.size + 2 ^ 32 - file.position) =
        file.inode.size - file.position := by
      unfold u32
      omega
    rw [if_pos hend, u32_of_lt (show file.inode.size < 2 ^ 32 by omega), hdiff]
    split
    · rw [u32_of_lt (by omega)]
      omega
    · omega
  · have hdiff : u32 (file.position + n + 2 ^ 32 - file.position) = n := by
      unfold u32
      omega
    rw [if_neg hend, hdiff]
    split
    · rw [u32_of_lt (by omega)]
      omega
    · omega

theorem freadTotal_eq (hposition : file.position ≤ file.inode.size)
    (hwrap : file.position + size * count < 2 ^ 32) :
    freadTotal file size count = readLength file size count := by
  have hle : readLength file size count ≤ size * count := Nat.min_le_left ..
  unfold freadTotal
  rw [freadEnd_eq hposition hwrap, u32_of_lt (show file.position < 2 ^ 32 by omega)]
  unfold u32
  omega

end End

end Pristine.Bsfs
