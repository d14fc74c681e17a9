import Pristine.Bsfs.BlockCache
import Pristine.Bsfs.Crc32Burst
import Pristine.Bsfs.Cursor
import Pristine.Bsfs.PopulateMain

/-!
# The kernel reads what `bsfs-populate` has stored

A file that the file branch of `bsfs_populate_dir` has stored, read by the kernel
in calls of one block: every call returns the next block of the contents, the
last one sets `eof`, and the checksum is right (`populateFile_readsBack`).
-/

namespace Pristine.Bsfs

open Lib Kernel

/-! ## The property -/

/-- A call of `bsfs_fread` for one block. -/
def readOne (img : ByteMem) (file : BsfsFile) : Int × List UInt8 × BsfsFile :=
  bsfsFread kernelContext (imageDisk img) 1 4096 file

/-- The file after a number of calls. -/
def afterReads (img : ByteMem) (file : BsfsFile) (n : Nat) : BsfsFile :=
  (fun file => (readOne img file).2.2)^[n] file

/-- The number of calls until `eof`: an empty file takes one. -/
def readCalls (data : List UInt8) : Nat := max 1 (fileBlocks data.length)

/-- The file before a call, as its checksum is taken: at position 0 again. -/
def rewound (img : ByteMem) (file : BsfsFile) (n : Nat) : BsfsFile :=
  bsfsFseeko (afterReads img file n) 0 bsfsFseekoSet

/-- The calls return the contents block by block and set `eof` with the last byte; together they
return the contents; and the checksum is right, of the file as it was opened and after any number
of calls. -/
structure ReadsBack (img : ByteMem) (data : List UInt8) (file : BsfsFile) : Prop where
  calls : ∀ n < readCalls data,
    (readOne img (afterReads img file n)).1 = (fileChunk data n).length ∧
    (readOne img (afterReads img file n)).2.1 = fileChunk data n ∧
    ((readOne img (afterReads img file n)).2.2.eof = true ↔ data.length ≤ 4096 * (n + 1))
  toEnd : readToEnd kernelContext (imageDisk img) 4096 (readCalls data + 1) file = some data
  checksum : bsfsVerifyChecksum kernelContext (imageDisk img) 4096 (readCalls data + 1) file = some 1
  checksumAgain : ∀ n ≤ readCalls data,
    bsfsVerifyChecksum kernelContext (imageDisk img) 4096 (readCalls data + 1)
      (rewound img file n) = some 1

/-! ## A stored file is readable -/

/-- The image holds `data` as the file with the given inode. -/
structure Holds (img : ByteMem) (inode : BsfsInode) (data : List UInt8) : Prop where
  readable : Readable img inode
  size : inode.size = data.length
  bytes : ∀ n, fileBytes img inode (4096 * n) (fileChunk data n).length = fileChunk data n
  checksum : inode.checksum = (crc32Finalize (crc32Update crc32Start data)).toNat

section Stored

variable {img : ByteMem} {inode : BsfsInode} {data : List UInt8} {c total : Nat}

variable (hinode : FileInode inode c data) (hfile : FileOn img c data)
variable (hmax : fileBlocks data.length ≤ 1034)

include hinode hfile hmax

/-- The block pointers of a stored file. -/
theorem blockPtr_stored {k : Nat} (hk : k < fileBlocks data.length) :
    blockPtr img inode k = fileBlock c k := by
  unfold blockPtr bsfsMaxDirectblocks
  split
  · rename_i hdirect
    rw [hinode.direct k hdirect, if_pos hk]
  · rename_i hindirect
    rw [hinode.l1, if_neg (by omega), hfile.l1 (by omega) (k - 10) (by omega)]
    unfold storedEntries
    rw [if_pos (by omega), show 10 + (k - 10) = k by omega]

theorem fileByte_stored {p : Nat} (hp : p < data.length) : fileByte img inode p = data.getD p 0 := by
  unfold fileByte
  rw [blockPtr_stored hinode hfile hmax (by unfold fileBlocks; omega)]
  exact hfile.bytes p hp

theorem readable_stored (hsmall : total < 2 ^ 20)
    (hroom : fileBlock c (fileBlocks data.length) ≤ total) : Readable img inode where
  size := by
    rw [hinode.size]
    unfold fileBlocks at hmax
    omega
  block := fun k hk => by
    rw [hinode.size] at hk
    have hlt : k < fileBlocks data.length := by
      unfold fileBlocks
      omega
    have hblock := fileBlock_lt (c := c) hlt
    rw [blockPtr_stored hinode hfile hmax hlt]
    omega
  l1 := fun hlong => by
    rw [hinode.size] at hlong
    have hten : ¬ fileBlocks data.length ≤ 10 := by
      unfold fileBlocks
      omega
    rw [hinode.l1, if_neg hten]
    unfold fileBlock fileL1 at *
    rw [if_neg hten] at hroom
    omega

theorem fileBytes_stored (n : Nat) :
    fileBytes img inode (4096 * n) (fileChunk data n).length = fileChunk data n := by
  have hlen := length_fileChunk data n
  refine List.ext_getElem (by simp [fileBytes]) fun i hi hi' => ?_
  simp only [fileBytes, List.getElem_map, List.getElem_range]
  rw [fileByte_stored hinode hfile hmax (by omega)]
  simp only [fileChunk, List.getElem_take, List.getElem_drop, List.getD_eq_getElem?_getD]
  rw [List.getElem?_eq_getElem (by omega), Option.getD_some]
  congr 1
  omega

theorem holds_stored (hsmall : total < 2 ^ 20)
    (hroom : fileBlock c (fileBlocks data.length) ≤ total) : Holds img inode data where
  readable := readable_stored hinode hfile hmax hsmall hroom
  size := hinode.size
  bytes := fileBytes_stored hinode hfile hmax
  checksum := hinode.checksum

end Stored

/-! ## Reading it -/

/-- Before call `n`: the position is at block `n`, and the buffer holds the block it is marked
with. -/
structure Aligned (img : ByteMem) (inode : BsfsInode) (data : List UInt8) (n : Nat)
    (file : BsfsFile) : Prop where
  inode_eq : file.inode = inode
  bufsize : file.bufsize = 4096
  position : file.position = min (4096 * n) data.length
  l1 : L1Ok img inode file.l1Table file.cachedL1
  slot : file.cachedBlock ≠ uint32Max → InSlot img inode file.buf file.cachedBlock 0

section Calls

variable {img : ByteMem} {inode : BsfsInode} {data : List UInt8} {c n : Nat} {file : BsfsFile}

theorem aligned_fopen (buf l1Table : ByteMem) :
    Aligned img inode data 0 (bsfsFopen inode buf l1Table 4096) where
  inode_eq := rfl
  bufsize := rfl
  position := by simp [bsfsFopen]
  l1 := fun h => absurd rfl h
  slot := fun h => absurd rfl h

/-- Seeking to the start keeps the buffer. -/
theorem Aligned.rewind (h : Aligned img inode data n file) (hsize : inode.size = data.length) :
    Aligned img inode data 0 (bsfsFseeko file 0 bsfsFseekoSet) ∧
      ((bsfsFseeko file 0 bsfsFseekoSet).eof = true ↔ data = []) := by
  have hinode := h.inode_eq
  have hseek : bsfsFseeko file 0 bsfsFseekoSet =
      { file with position := 0, eof := decide (data = []) } := by
    have hset : bsfsFseekoSet ≠ bsfsFseekoCur := by decide
    by_cases hempty : data = []
    · simp [bsfsFseeko, hset, hinode, hsize, hempty]
    · have hpos : 0 < data.length := List.length_pos_iff.mpr hempty
      simp [bsfsFseeko, hset, hinode, hsize, hempty]
  rw [hseek]
  refine ⟨⟨hinode, h.bufsize, ?_, h.l1, h.slot⟩, decide_eq_true_iff⟩
  simp

variable (hholds : Holds img inode data)

include hholds

/-- A call returns the next block. -/
theorem Aligned.read (h : Aligned img inode data n file) (hn : n < readCalls data) :
    ∃ file', readOne img file = (((fileChunk data n).length : Int), fileChunk data n, file') ∧
      Aligned img inode data (n + 1) file' ∧ (file'.eof = true ↔ data.length ≤ 4096 * (n + 1)) := by
  obtain ⟨hreadable, hsize, hbytes, -⟩ := hholds
  obtain ⟨hinode, hbufsize, hposition, hl1, hslot⟩ := h
  subst hinode
  have hmax := hreadable.size
  have hlen := length_fileChunk data n
  rw [hsize] at hmax
  unfold readCalls fileBlocks at hn
  have hat : file.position = 4096 * n := by omega
  have hlength : readLength file 1 4096 = (fileChunk data n).length := by
    unfold readLength
    rw [hbufsize, hsize, hat, hlen]
    omega
  have hinside : file.position ≤ file.inode.size := by omega
  have hwrap : file.position + 1 * 4096 < 2 ^ 32 := by omega
  have hstop : freadEnd file 1 4096 = 4096 * n + (fileChunk data n).length := by
    rw [freadEnd_eq hinside hwrap, hlength, hat]
  have hend : 4096 * n + (fileChunk data n).length ≤ file.inode.size := by omega
  have hspan := freadSpan_eq hreadable.size hinside hend
  obtain ⟨buf, cachedBlock, l1Table, cachedL1, hcall, hl1', hlast⟩ :=
    bsfsFread_image hreadable hl1 hinside hwrap hstop (by omega) fun _ hcached =>
      hslot (by unfold uint32Max; omega)
  have hcount : 4096 * n + (fileChunk data n).length - 4096 * n = (fileChunk data n).length := by
    omega
  rw [hat, hcount, hbytes n, hsize] at hcall
  refine ⟨_, hcall, ⟨rfl, hbufsize, ?_, hl1', ?_⟩, ?_⟩
  · show 4096 * n + (fileChunk data n).length = _
    omega
  · -- a read of one block fills the first slot, and an empty one leaves the buffer as it was
    intro hmarked
    split at hlast
    · obtain ⟨hbuf, hblock⟩ := hlast
      rw [hbuf, hblock]
      rw [hblock] at hmarked
      exact hslot hmarked
    · rename_i hsome
      have hone : freadSpan kernelContext file (4096 * n + (fileChunk data n).length) - 1 = 0 := by
        omega
      rw [hone] at hlast
      exact hlast.1
  · show decide _ = true ↔ _
    rw [decide_eq_true_iff]
    omega

theorem aligned_afterReads (h : Aligned img inode data 0 file) (hn : n ≤ readCalls data) :
    Aligned img inode data n (afterReads img file n) := by
  induction n with
  | zero => exact h
  | succ n ih =>
    obtain ⟨file', hcall, hnext, -⟩ := (ih (by omega)).read hholds hn
    unfold afterReads at hcall ⊢
    rw [Function.iterate_succ_apply', hcall]
    exact hnext

/-- Reading until `eof` returns what is left. -/
theorem Aligned.toEnd {fuel : Nat} (h : Aligned img inode data n file)
    (heof : file.eof = true ↔ readCalls data ≤ n) (hfuel : readCalls data < n + fuel)
    (hn : n ≤ readCalls data) :
    readToEnd kernelContext (imageDisk img) 4096 fuel file = some (data.drop (4096 * n)) := by
  have hlast : data.length ≤ 4096 * readCalls data := by
    unfold readCalls fileBlocks
    omega
  induction fuel generalizing n file with
  | zero => omega
  | succ fuel ih =>
    by_cases hend : readCalls data ≤ n
    · rw [readToEnd, if_pos (heof.mpr hend), List.drop_eq_nil_of_le (by omega)]
    · obtain ⟨file', hcall, hnext, heof'⟩ := h.read hholds (by omega)
      unfold readOne at hcall
      have hmore : ¬ file.eof = true := fun h => hend (heof.mp h)
      have hrest := ih hnext (heof'.trans (by unfold readCalls fileBlocks at *; omega)) (by omega)
        (by omega)
      have hcode : ¬ ((fileChunk data n).length : Int) < 0 := by omega
      rw [readToEnd, if_neg hmore, hcall]
      rw [if_neg hcode, hrest, Option.map_some, fileChunk]
      rw [show 4096 * (n + 1) = n * 4096 + 4096 by omega, ← List.drop_drop, Nat.mul_comm 4096 n,
        List.take_append_drop]

/-- From the start of the file, or of an empty file that was rewound, everything is read and the
checksum is right. -/
theorem Aligned.wholeFile (h : Aligned img inode data 0 file) (heof : file.eof = true → data = []) :
    readToEnd kernelContext (imageDisk img) 4096 (readCalls data + 1) file = some data ∧
      bsfsVerifyChecksum kernelContext (imageDisk img) 4096 (readCalls data + 1) file = some 1 := by
  have hread : readToEnd kernelContext (imageDisk img) 4096 (readCalls data + 1) file =
      some data := by
    by_cases hend : file.eof = true
    · rw [readToEnd, if_pos hend, heof hend]
    · have hmore : file.eof = true ↔ readCalls data ≤ 0 := by
        unfold readCalls
        simp [hend]
      rw [h.toEnd hholds hmore (by omega) (Nat.zero_le _)]
      rfl
  refine ⟨hread, ?_⟩
  rw [bsfsVerifyChecksum_eq hread, h.inode_eq, hholds.checksum, if_neg (fun h => h rfl)]

/-- A file that the image holds is read back. -/
theorem Holds.readsBack (buf l1Table : ByteMem) :
    ReadsBack img data (bsfsFopen inode buf l1Table 4096) := by
  have hopen : Aligned img inode data 0 (bsfsFopen inode buf l1Table 4096) := aligned_fopen buf l1Table
  obtain ⟨hread, hchecksum⟩ := hopen.wholeFile hholds fun heof => absurd heof Bool.false_ne_true
  refine ⟨fun n hn => ?_, hread, hchecksum, fun n hn => ?_⟩
  · obtain ⟨file', hcall, -, heof⟩ := (aligned_afterReads hholds hopen (by omega)).read hholds hn
    rw [hcall]
    exact ⟨rfl, rfl, heof⟩
  · obtain ⟨hrewound, heof⟩ := (aligned_afterReads hholds hopen hn).rewind hholds.size
    exact (hrewound.wholeFile hholds heof.mp).2

end Calls

/-! ## The file branch -/

/-- `bsfs_populate_dir` is about to store an entry of the directory with inode `idx`, which has
`k` entries, on a volume of less than 4 GiB. -/
def AtEntry (s : PopulateState) (idx k : Nat) : Prop :=
  ∃ base offset total next inodes, Growing s base offset total next inodes ∧
    DirState s base idx k k next ∧ idx < inodes

section FileBranch

variable {fs : HostFs} {path name : CString} {s : PopulateState} {idx k : Nat} {data : List UInt8}

/-- With room for the file, its branch stores it under `name`, and what it stored is read back. -/
theorem populateFile_readsBack (exits : Bool) (time : Nat) (hat : AtEntry s idx k) (hk : k < 320)
    (hopen : fs.fopen (subpath path name) = some data) (hmax : data.length ≤ (10 + 1024) * 4096)
    (hinode : 0 < s.header.freeInodes)
    (hroom : slotBlocks k + fileBlock 0 (fileBlocks data.length) ≤ s.header.freeBlocks) :
    ∃ s' i, populateFile exits fs path name time idx s = .ok () s' ∧ AtEntry s' idx (k + 1) ∧
      DirentAt s'.image.bytes (s'.inodeTable idx) k i name ∧
      ∀ buf l1Table, ReadsBack s'.image.bytes data (bsfsFopen (s'.inodeTable i) buf l1Table 4096) := by
  obtain ⟨base, offset, total, next, inodes, hg, hd, hidx⟩ := hat
  have hblocks : fileBlocks data.length ≤ 1034 := by
    unfold fileBlocks
    omega
  have hfree := hg.counters.freeBlocks
  have hfreeInodes := hg.counters.freeInodes
  have hnext := hg.counters.next_le
  have hend : fileBlock (next + slotBlocks k) (fileBlocks data.length) ≤ total := by
    rw [fileBlock_add]
    omega
  obtain ⟨s', hcall, hdone, htable, hfile⟩ :=
    populateFile_spec exits time hg hd hidx hk (by omega) hopen hblocks hend
  have hstored : FileInode (s'.inodeTable inodes) (next + slotBlocks k) data := by
    rw [htable]
    exact finishedInode_fileInode ..
  have hholds := holds_stored hstored hfile hblocks hg.counters.small hend
  exact ⟨s', inodes, hcall, ⟨_, _, _, _, _, hdone.growing, hdone.dir, by omega⟩, hdone.slot.dirent,
    hholds.readsBack⟩

/-- A new directory is in such a state. -/
theorem atEntry_new {base : ByteMem} {offset total next inodes : Nat} (time : Nat)
    (hg : Growing s base offset total next inodes) (hidx : idx < inodes)
    (hzero : s.inodeTable idx = .zero) :
    AtEntry (s.setInode idx (dirInode time (s.inodeTable idx))) idx 0 :=
  ⟨base, offset, total, next, inodes, hg.setInode hidx _, dirState_start time hzero, hidx⟩

end FileBranch

/-- A host on which every path names a file of 11 blocks. -/
def longFileHost : HostFs where
  opendir := fun _ => none
  fopen := fun _ => some (List.replicate 45056 7)
  time := fun _ => 0

/-- The first file on a volume of 64 blocks; its last block is in the L1 table. -/
theorem populateFile_readsBack_first :
    ∃ s : PopulateState, AtEntry s 1 0 ∧ s.header.freeBlocks = 59 ∧
      ∃ s' i, populateFile true longFileHost .dot ⟨[0x66], by decide⟩ 0 1 s = .ok () s' ∧
        AtEntry s' 1 1 ∧ DirentAt s'.image.bytes (s'.inodeTable 1) 0 i ⟨[0x66], by decide⟩ ∧
        ∀ buf l1Table, ReadsBack s'.image.bytes (List.replicate 45056 7)
          (bsfsFopen (s'.inodeTable i) buf l1Table 4096) := by
  have hvolume : SmallVolume (mkfsHeader 4096 0 (4096 * 64)) 0 64 :=
    mkfsHeader_smallVolume (by omega) (by omega)
  have hdata : (mkfsHeader 4096 0 (4096 * 64)).dataStart = 5 := by decide +kernel
  let args : PopulateArgs := ⟨4096, 0, false, .dot⟩
  let image : HostFile := ⟨4096 * 64, fun _ => 0⟩
  obtain ⟨s, -, hdone⟩ : ∃ s,
      setUp true args (startState args ⟨fun _ => 0, fun _ => 0⟩ image (mkfsHeader 4096 0 (4096 * 64))) =
        .ok 1 s ∧ SetUpDone s image (mkfsHeader 4096 0 (4096 * 64)) 0 64 :=
    setUp_spec true hvolume (by omega) (by omega) rfl (by omega) rfl rfl (by omega) _
  have hone : 1 < 2 := by omega
  have hat := atEntry_new 0 hdone.growing hone (hdone.table 1)
  have hfree : s.header.freeBlocks = 59 := by
    rw [hdone.growing.counters.freeBlocks, hdata]
  have hfreeInodes := hdone.growing.counters.freeInodes
  have hlength : (List.replicate 45056 (7 : UInt8)).length = 45056 := List.length_replicate ..
  refine ⟨_, hat, hfree, ?_⟩
  refine populateFile_readsBack true 0 hat (by omega) rfl (by rw [hlength]; decide) ?_ ?_
  · show 0 < s.header.freeInodes
    omega
  · rw [hlength]
    change 1 + fileBlock 0 (fileBlocks 45056) ≤ s.header.freeBlocks
    rw [hfree]
    decide

end Pristine.Bsfs
