import Pristine.Bsfs.BlockCache

/-!
# The cursor of an open file

What `bsfs_fseeko` and `bsfs_fread` do to `position` and `eof`, and how many
bytes a read returns, for inodes of any 64-bit size and any disk that does not
fail.  `bsfs_fread` computes the end of a read in 32 bits and clamps it to the
file and to the buffer in two steps, which assume that the end is not before the
start.  While `position + size * count` stays below 2³² the cursor is right
(`cursor_law`); beyond that a read can leave the file (`cursor_leaves_file`).
-/

namespace Pristine.Bsfs

open Kernel Lib Relation

/-! ## The cursor law -/

/-- The position is inside the file, and `eof` says whether it is at the end. -/
structure CursorOk (file : BsfsFile) : Prop where
  position_le : file.position ≤ file.inode.size
  eof : file.eof = true ↔ file.position = file.inode.size

/-- What a successful read should do. -/
structure ReadsExactly (file : BsfsFile) (size count : Nat) (result : Int × List UInt8 × BsfsFile) :
    Prop where
  code : result.1 = readLength file size count
  length : result.2.1.length = readLength file size count
  position : result.2.2.position = file.position + readLength file size count

/-- The cursor of an open file: as `bsfs_fopen` leaves it, or right. -/
structure CursorInv (inode : BsfsInode) (bufsize : Nat) (file : BsfsFile) : Prop where
  inode_eq : file.inode = inode
  bufsize_eq : file.bufsize = bufsize
  fresh_or_ok : CursorOk file ∨ file.position = 0 ∧ file.eof = false

section Law

variable {inode : BsfsInode} {bufsize : Nat} {file : BsfsFile} {size count : Nat} {disk : DiskRead}

/-- At the start of an empty file the loop has nothing to do. -/
theorem freadLoop_empty (hposition : file.position = 0) (hsize : file.inode.size = 0)
    (hwrap : size * count < 2 ^ 32) : freadLoop disk size count file = (.ok (), file) := by
  have hend : freadEnd file size count = 0 := by
    have hlength : readLength file size count = 0 := by
      unfold readLength
      omega
    rw [freadEnd_eq (by omega) (by omega), hposition, hlength]
  have hceil : divCeil32 0 4096 = 0 := by
    unfold divCeil32 u32
    rfl
  have hspan : freadSpan kernelContext file 0 = 0 := by
    show divCeil32 0 4096 - u32 file.position / 4096 = 0
    rw [hceil, Nat.zero_sub]
  rw [freadLoop_eq, hend, hspan]
  rfl

theorem CursorOk.same {file' : BsfsFile} (hok : CursorOk file) (hsame : SameCursor file file') :
    CursorOk file' := by
  constructor
  · rw [hsame.position, hsame.inode]
    exact hok.position_le
  · rw [hsame.eof, hsame.position, hsame.inode]
    exact hok.eof

theorem cursorOk_seek (file : BsfsFile) (offset : Nat) (whence : Int) :
    CursorOk (bsfsFseeko file offset whence) := by
  unfold bsfsFseeko
  generalize (if whence = bsfsFseekoCur then _ else _ : Nat) = position
  by_cases hend : file.inode.size ≤ position
  · rw [if_pos hend]
    exact ⟨le_refl _, by simp⟩
  · rw [if_neg hend]
    refine ⟨Nat.le_of_not_le hend, ?_⟩
    simp only [Bool.false_eq_true, false_iff]
    omega

theorem CursorInv.position_le (hinv : CursorInv inode bufsize file) :
    file.position ≤ file.inode.size := by
  rcases hinv.fresh_or_ok with hok | ⟨hzero, -⟩
  · exact hok.position_le
  · omega

/-- The law for one read. -/
theorem cursor_read (hbufsize : bufsize ≤ 4096) (hinv : CursorInv inode bufsize file)
    (hwrap : file.position + size * count < 2 ^ 32) :
    CursorOk (bsfsFread kernelContext disk size count file).2.2 ∧
      (0 ≤ (bsfsFread kernelContext disk size count file).1 →
        ReadsExactly file size count (bsfsFread kernelContext disk size count file)) := by
  have hposition := hinv.position_le
  have htotal := freadTotal_eq hposition hwrap
  have hsmall : freadTotal file size count ≤ 4096 := by
    rw [htotal]
    unfold readLength
    rw [hinv.bufsize_eq]
    omega
  rcases freadLoop_cases disk size count file with ⟨code, file', hloop, hsame⟩ | ⟨file', hloop, hsame⟩
  · have hnegative : code < 0 := freadBlocks_error hloop
    rw [bsfsFread_of_error hsmall hloop]
    refine ⟨?_, fun hcode => absurd hcode (by omega)⟩
    rcases hinv.fresh_or_ok with hok | ⟨hzero, heof⟩
    · exact hok.same hsame
    · have hsize : file.inode.size ≠ 0 := by
        intro hsize
        rw [freadLoop_empty hzero hsize (by omega)] at hloop
        cases hloop
      refine CursorOk.same ⟨by omega, ?_⟩ hsame
      rw [heof, hzero]
      simp only [Bool.false_eq_true, false_iff]
      exact hsize.symm
  · rw [bsfsFread_of_ok hsmall hloop, htotal, freadEnd_eq hposition hwrap]
    have hlength : readLength file size count ≤ file.inode.size - file.position := by
      unfold readLength
      omega
    refine ⟨⟨?_, ?_⟩, fun _ => ⟨rfl, length_bytesAt .., BsfsFile.moveTo_position ..⟩⟩
    · rw [BsfsFile.moveTo_position, BsfsFile.moveTo_inode, hsame.inode]
      omega
    · rw [BsfsFile.moveTo_eof, BsfsFile.moveTo_position, BsfsFile.moveTo_inode, decide_eq_true_eq,
        hsame.inode]
      omega

/-! ### Whole runs -/

/-- A call on an open file; a read does not wrap around. -/
inductive CursorStep : BsfsFile → BsfsFile → Prop
  | seek {file : BsfsFile} (offset : Nat) (whence : Int) :
      CursorStep file (bsfsFseeko file offset whence)
  | read {file : BsfsFile} {size count : Nat} (disk : DiskRead)
      (hwrap : file.position + size * count < 2 ^ 32) :
      CursorStep file (bsfsFread kernelContext disk size count file).2.2

theorem bsfsFread_keeps (disk : DiskRead) (size count : Nat) (file : BsfsFile) :
    (bsfsFread kernelContext disk size count file).2.2.inode = file.inode ∧
      (bsfsFread kernelContext disk size count file).2.2.bufsize = file.bufsize := by
  have hsame := freadBlocks_cursor disk (freadSpan kernelContext file (freadEnd file size count))
    (u32 file.position / 4096) 0 file
  refine bsfsFread_invariant (P := fun f => f.inode = file.inode ∧ f.bufsize = file.bufsize)
    (fun _ _ h => h) ⟨rfl, rfl⟩ fun _ => ?_
  exact ⟨hsame.inode, hsame.bufsize⟩

theorem cursorInv_step (hbufsize : bufsize ≤ 4096) {file' : BsfsFile}
    (hinv : CursorInv inode bufsize file) (hstep : CursorStep file file') :
    CursorInv inode bufsize file' := by
  cases hstep with
  | seek offset whence =>
    obtain ⟨position, eof, hseek, -⟩ := bsfsFseeko_frame file offset whence
    have hok := cursorOk_seek file offset whence
    rw [hseek] at hok ⊢
    exact ⟨hinv.inode_eq, hinv.bufsize_eq, Or.inl hok⟩
  | read disk hwrap =>
    obtain ⟨hinode, hbuf⟩ := bsfsFread_keeps disk _ _ file
    exact ⟨hinode.trans hinv.inode_eq, hbuf.trans hinv.bufsize_eq,
      Or.inl (cursor_read hbufsize hinv hwrap).1⟩

/-- In a run without a read that wraps around, the cursor is right after every call, and every
successful read returns what it should. -/
theorem cursor_law (hbufsize : bufsize ≤ 4096) {buf l1Table : ByteMem}
    (hrun : ReflTransGen CursorStep (bsfsFopen inode buf l1Table bufsize) file) :
    (∀ offset whence, CursorOk (bsfsFseeko file offset whence)) ∧
      ∀ disk size count, file.position + size * count < 2 ^ 32 →
        CursorOk (bsfsFread kernelContext disk size count file).2.2 ∧
          (0 ≤ (bsfsFread kernelContext disk size count file).1 →
            ReadsExactly file size count (bsfsFread kernelContext disk size count file)) := by
  have hfopen : CursorInv inode bufsize (bsfsFopen inode buf l1Table bufsize) :=
    ⟨rfl, rfl, Or.inr ⟨rfl, rfl⟩⟩
  have hinv : CursorInv inode bufsize file :=
    run_invariant hrun hfopen fun _ _ => cursorInv_step hbufsize
  exact ⟨cursorOk_seek file, fun disk size count hwrap => cursor_read hbufsize hinv hwrap⟩

/-- A file of 200 bytes in block 5. -/
def shortInode : BsfsInode :=
  { BsfsInode.zero with type := bsfsInodeTypeFile, size := 200 }.setDirect 0 5

/-- It is opened and moved to byte 100. -/
def shortFile : BsfsFile :=
  bsfsFseeko (bsfsFopen shortInode (fun _ => 0) (fun _ => 0) 4096) 100 bsfsFseekoSet

theorem shortFile_reached :
    ReflTransGen CursorStep (bsfsFopen shortInode (fun _ => 0) (fun _ => 0) 4096)
      shortFile :=
  .single (.seek 100 bsfsFseekoSet)

/-- Ten bytes are read. -/
theorem cursor_law_ten :
    shortFile.position + 1 * 10 < 2 ^ 32 ∧
      ReadsExactly shortFile 1 10
        (bsfsFread kernelContext (imageDisk stripedImage) 1 10 shortFile) := by
  have hwrap : shortFile.position + 1 * 10 < 2 ^ 32 := by decide +kernel
  exact ⟨hwrap, ((cursor_law (by decide) shortFile_reached).2 (imageDisk stripedImage) 1 10 hwrap).2
    (by decide +kernel)⟩

/-- A request for 2³² - 50 bytes leaves the file: 4096 bytes are returned where 100 are left. -/
theorem cursor_leaves_file :
    ReflTransGen CursorStep (bsfsFopen shortInode (fun _ => 0) (fun _ => 0) 4096)
        shortFile ∧
      shortFile.position = 100 ∧ readLength shortFile 1 (2 ^ 32 - 50) = 100 ∧
      (bsfsFread kernelContext (imageDisk stripedImage) 1 (2 ^ 32 - 50) shortFile).1 = 4096 ∧
      (bsfsFread kernelContext (imageDisk stripedImage) 1 (2 ^ 32 - 50) shortFile).2.2.position =
        4196 ∧
      ¬ CursorOk (bsfsFread kernelContext (imageDisk stripedImage) 1 (2 ^ 32 - 50) shortFile).2.2 := by
  have hposition : (bsfsFread kernelContext (imageDisk stripedImage) 1 (2 ^ 32 - 50)
      shortFile).2.2.position = 4196 := by decide +kernel
  refine ⟨shortFile_reached, by decide +kernel, by decide +kernel, by decide +kernel, hposition, ?_⟩
  intro hok
  have hle := hok.position_le
  rw [hposition] at hle
  exact absurd hle (by decide +kernel)

end Law

end Pristine.Bsfs
