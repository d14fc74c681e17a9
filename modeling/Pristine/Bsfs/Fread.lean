import Pristine.Bsfs.Format

/-!
# Reading files

`bsfs_fread` and `bsfs_fseeko` of the kernel and of stage 2, which are the same
text.  A disk read stores some bytes at the destination and reports success or
failure; a failed read may have stored a part of what was asked for.
-/

namespace Pristine.Bsfs

open Lib Kernel

/-- `DISK_READ_MAX_BLOCKS`. -/
def diskReadMaxBlocks : Nat := 8

/-- `disk_ops->read`: sector and number of sectors, to the bytes it stores and whether it
succeeds. -/
abbrev DiskRead := Nat → Nat → Bool × List UInt8

/-- The part of `BsfsContext` that reads use. -/
structure BsfsContext where
  blockSize : Nat
  physSectorSize : Nat

/-- `BsfsFile`.  `buf` and `l1Table` are the memory behind the two pointers. -/
structure BsfsFile where
  inode : BsfsInode
  buf : ByteMem
  bufsize : Nat
  position : Nat
  cachedBlock : Nat
  l1Table : ByteMem
  cachedL1 : Nat
  eof : Bool

def bsfsFreadFileTooBig : Int := -4

def bsfsFreadDiskReadError : Int := -7

def bsfsFreadSizeTooBig : Int := -8

namespace BsfsContext

variable (ctx : BsfsContext)

def sectorsPerBlock : Nat := ctx.blockSize / ctx.physSectorSize

def l1Capacity : Nat := ctx.blockSize / 4

def l2IndirectStart : Nat := u32 (bsfsMaxDirectblocks + ctx.l1Capacity)

/-- The sector a block begins at. -/
def lba (block : Nat) : Nat := u32 (block * ctx.blockSize) / ctx.physSectorSize

end BsfsContext

section Fread

variable (ctx : BsfsContext) (disk : DiskRead)

/-- Read one block to `bufptr` and remember it as block `i` of the file. -/
def readBlock (block i bufptr : Nat) (file : BsfsFile) : Except Int Unit × BsfsFile :=
  match disk (ctx.lba block) ctx.sectorsPerBlock with
  | (true, bytes) =>
    (.ok (), { file with buf := storeBytes file.buf bufptr bytes, cachedBlock := i })
  | (false, bytes) =>
    (.error bsfsFreadDiskReadError, { file with buf := storeBytes file.buf bufptr bytes })

/-- Read the L1 table unless it is there. -/
def loadL1 (file : BsfsFile) : Except Int Unit × BsfsFile :=
  if file.cachedL1 = uint32Max then
    match disk (ctx.lba file.inode.blocksL1indirect) ctx.sectorsPerBlock with
    | (true, bytes) =>
      (.ok (), { file with
        l1Table := storeBytes file.l1Table 0 bytes
        cachedL1 := file.inode.blocksL1indirect })
    | (false, bytes) =>
      (.error bsfsFreadDiskReadError, { file with l1Table := storeBytes file.l1Table 0 bytes })
  else
    (.ok (), file)

/-- Entry `k` of the L1 table in memory. -/
def BsfsFile.l1Entry (file : BsfsFile) (k : Nat) : Nat := loadLE file.l1Table (4 * k) 4

/-- The body of the block loop for a block that is not cached. -/
def fetchBlock (i bufptr : Nat) (file : BsfsFile) : Except Int Unit × BsfsFile :=
  if i < bsfsMaxDirectblocks then
    readBlock ctx disk (file.inode.direct i) i bufptr file
  else if i < ctx.l2IndirectStart then
    match loadL1 ctx disk file with
    | (.ok (), file) =>
      readBlock ctx disk (file.l1Entry (i - bsfsMaxDirectblocks)) i bufptr file
    | (.error code, file) => (.error code, file)
  else
    (.error bsfsFreadFileTooBig, file)

/-- The block loop, with the number of blocks left. -/
def freadBlocks : Nat → Nat → Nat → BsfsFile → Except Int Unit × BsfsFile
  | 0, _, _, file => (.ok (), file)
  | left + 1, i, bufptr, file =>
    if i = file.cachedBlock then
      freadBlocks left (i + 1) (bufptr + ctx.blockSize) file
    else
      match fetchBlock ctx disk i bufptr file with
      | (.ok (), file) => freadBlocks left (i + 1) (bufptr + ctx.blockSize) file
      | (.error code, file) => (.error code, file)

/-- `end_offset` of `bsfs_fread`. -/
def freadEnd (file : BsfsFile) (size count : Nat) : Nat :=
  let start := u32 file.position
  let stop := u32 (start + u32 (size * count))
  let stop := if file.inode.size < stop then u32 file.inode.size else stop
  if file.bufsize < u32 (stop + 2 ^ 32 - start) then u32 (start + file.bufsize) else stop

/-- The number of iterations of the block loop. -/
def freadSpan (file : BsfsFile) (stop : Nat) : Nat :=
  divCeil32 stop ctx.blockSize - u32 file.position / ctx.blockSize

/-- `bsfs_fread`: the result, the bytes copied to `ptr`, and the file. -/
def bsfsFread (size count : Nat) (file : BsfsFile) : Int × List UInt8 × BsfsFile :=
  let start := u32 file.position
  let stop := freadEnd file size count
  let total := u32 (stop + 2 ^ 32 - start)
  if u32 (diskReadMaxBlocks * ctx.physSectorSize) < total then
    (bsfsFreadSizeTooBig, [], file)
  else
    match freadBlocks ctx disk (freadSpan ctx file stop) (start / ctx.blockSize) 0 file with
    | (.error code, file) => (code, [], file)
    | (.ok (), file) =>
      (total, bytesAt file.buf (start % ctx.blockSize) total,
        { file with position := stop, eof := file.inode.size ≤ stop })

end Fread

def bsfsFseekoSet : Int := -1

def bsfsFseekoCur : Int := 0

def bsfsFseekoEnd : Int := 1

/-- `bsfs_fseeko`. -/
def bsfsFseeko (file : BsfsFile) (offset : Nat) (whence : Int) : BsfsFile :=
  let position :=
    if whence = bsfsFseekoCur then (file.position + offset) % 2 ^ 64
    else if whence = bsfsFseekoSet then offset % 2 ^ 64
    else if whence = bsfsFseekoEnd then (file.inode.size + 2 ^ 64 - offset % 2 ^ 64) % 2 ^ 64
    else file.position
  if file.inode.size ≤ position then
    { file with position := file.inode.size, eof := true }
  else
    { file with position := position, eof := false }

/-- The end of `bsfs_fopen`: the cursor of a file with the given inode and buffers. -/
def bsfsFopen (inode : BsfsInode) (buf l1Table : ByteMem) (bufsize : Nat) : BsfsFile where
  inode := inode
  buf := buf
  bufsize := bufsize
  position := 0
  cachedBlock := uint32Max
  l1Table := l1Table
  cachedL1 := uint32Max
  eof := false

end Pristine.Bsfs
