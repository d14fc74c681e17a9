import Pristine.Bsfs.Addressing
import Pristine.Lib.HostFile
import Pristine.Lib.StateError

/-!
# Allocation in `bsfs-populate`

The state of `bsfs-populate` and the functions of `tools/bsfs/bsfs.c` that hand
out blocks, inodes and directory entries.  `BSFS_PANIC` ends the program or does
nothing, depending on how it is compiled; `exits` says which.

Memory outside an allocation is not modelled: a program that touches it stops
with `undefined`.  The search reads up to seven bytes past a bitmap and ignores
them, which is modelled as reading bytes of unknown value.
-/

namespace Pristine.Bsfs

open Lib Kernel

/-! ## State -/

/-- The calls of `BSFS_PANIC`. -/
inductive BsfsPanic where
  /-- "bsfs_bitmap_set: index %u is already set" -/
  | bitmapSetTwice (index : Nat)
  /-- "bsfs_alloc_block: No free megablocks remain on image!" -/
  | noFreeMegablock
  /-- "bsfs_alloc_block: No free block remain on image!" -/
  | noFreeBlock
  /-- "bsfs_alloc_block: allocated metadata block %u!" -/
  | metadataBlock (block : Nat)
  /-- "No more free blocks left while allocating a new one" -/
  | noFreeBlockCounted
  /-- "bsfs_alloc_inode: No free inode remain on image!" -/
  | noFreeInode
  /-- "bsfs_alloc_dirent: called with non-directory inode." -/
  | direntNotDirectory
  /-- "bsfs_alloc_dirent: new dirent exceeds maximum direct blocks of inode." -/
  | direntPastDirect
  /-- "bsfs_populate_dir: unable to open path '%s'" -/
  | cannotOpenPath (path : List UInt8)
  /-- "bsfs_populate_dir: unable to open host file '%s'" -/
  | cannotOpenFile (path : List UInt8)
  /-- "populate_dir: file '%s' with size %.2f MiB exceeds blocks_l1indirect, blocks_l2indirect is
  unimplemented" -/
  | exceedsL1 (path : List UInt8) (size : Nat)
  /-- "populate_dir: file '%s' with size %.2f MiB exceeds blocks_l2indirect, blocks_l3indirect is
  unimplemented" -/
  | exceedsL2 (path : List UInt8) (size : Nat)
  /-- "bsfs_populate_dir: host returned DT_UNKNOWN for dirent.d_type, stat() based navigation is
  unimplemented" -/
  | direntUnknown
  /-- "bsfs_populate_dir: unhandled dirent type (%i)" -/
  | direntType (type : Nat)
  deriving DecidableEq, Repr

/-- Why a program stops before its end. -/
inductive Halt where
  | exit (panic : BsfsPanic)
  /-- the C program has no defined behaviour from here on -/
  | undefined
  /-- directories are nested deeper than the bound of the model -/
  | outOfFuel
  deriving DecidableEq, Repr

/-- The image file, its position, and what `main` keeps in memory.  `panics` is ghost state: the
calls of `BSFS_PANIC`, latest first. -/
structure PopulateState where
  image : HostFile
  position : Nat
  header : BsfsHeader
  blockBitmap : ByteMem
  megablockBitmap : ByteMem
  inodeBitmap : ByteMem
  inodeTable : Nat → BsfsInode
  panics : List BsfsPanic

abbrev PopulateM := EStateM Halt PopulateState

/-- `BSFS_PANIC`. -/
def bsfsPanic (exits : Bool) (panic : BsfsPanic) : PopulateM Unit := fun s =>
  if exits then .error (.exit panic) { s with panics := panic :: s.panics }
  else .ok () { s with panics := panic :: s.panics }

/-- `BSFS_PANIC` behind a condition. -/
def bsfsPanicIf (exits : Bool) (condition : Prop) [Decidable condition] (panic : BsfsPanic) :
    PopulateM Unit :=
  if condition then bsfsPanic exits panic else pure ()

/-- Undefined behaviour under a condition. -/
def undefinedIf (condition : Prop) [Decidable condition] : PopulateM Unit :=
  if condition then throw .undefined else pure ()

/-- `fseeko(image, offset, SEEK_SET)`; an offset that is negative as an `off_t` is refused. -/
def seekImage (offset : Nat) : PopulateM Unit :=
  modify fun s => if offset < 2 ^ 63 then { s with position := offset } else s

/-- `fwrite` to the image. -/
def writeImage (data : List UInt8) : PopulateM Unit :=
  modify fun s => { s with
    image := s.image.write s.position data
    position := s.position + data.length }

/-- Change an inode of the table. -/
def modifyInode (idx : Nat) (f : BsfsInode → BsfsInode) : PopulateM Unit := do
  let s ← get
  undefinedIf (s.header.inodeCount ≤ idx)
  set { s with inodeTable := Function.update s.inodeTable idx (f (s.inodeTable idx)) }

/-! ## Bitmaps -/

/-- Bytes `calloc`ed for the block bitmap. -/
def PopulateState.blockBitmapSize (s : PopulateState) : Nat :=
  s.header.blockBitmapBlocks * s.header.blockSize

/-- `bsfs_bitmap_set` on the block bitmap. -/
def setBlockBit (exits : Bool) (index : Nat) : PopulateM Unit := do
  let s ← get
  undefinedIf (s.blockBitmapSize ≤ index / 8)
  bsfsPanicIf exits (bitmapTest s.blockBitmap index ≠ 0) (.bitmapSetTwice index)
  modify fun s => { s with blockBitmap := bitmapSet s.blockBitmap index }

/-- `bsfs_bitmap_set` on the megablock bitmap. -/
def setMegablockBit (exits : Bool) (index : Nat) : PopulateM Unit := do
  let s ← get
  undefinedIf (s.header.megablockBitmapSize ≤ index / 8)
  bsfsPanicIf exits (bitmapTest s.megablockBitmap index ≠ 0) (.bitmapSetTwice index)
  modify fun s => { s with megablockBitmap := bitmapSet s.megablockBitmap index }

/-- `bsfs_bitmap_set` on the inode bitmap. -/
def setInodeBit (exits : Bool) (index : Nat) : PopulateM Unit := do
  let s ← get
  undefinedIf (s.header.inodeBitmapBlocks * s.header.blockSize ≤ index / 8)
  bsfsPanicIf exits (bitmapTest s.inodeBitmap index ≠ 0) (.bitmapSetTwice index)
  modify fun s => { s with inodeBitmap := bitmapSet s.inodeBitmap index }

/-- The loop that looks for a byte other than `UINT8_MAX` in a slice. -/
def sliceFull (bitmap : ByteMem) (i : Nat) : Nat → Bool
  | 0 => true
  | left + 1 => if bitmap i ≠ 0xFF then false else sliceFull bitmap (i + 1) left

theorem bitAt_slice (bitmap : ByteMem) (slice i : Nat) :
    bitAt (fun a => bitmap (slice + a)) i = bitAt bitmap (8 * slice + i) := by
  unfold bitAt
  rw [show (8 * slice + i) / 8 = slice + i / 8 by omega, show (8 * slice + i) % 8 = i % 8 by omega]

/-- A byte is full when its eight bits are set. -/
theorem byte_full_iff (bitmap : ByteMem) (a : Nat) :
    bitmap a = 0xFF ↔ ∀ j, j < 8 → bitAt bitmap (8 * a + j) = true := by
  have hbyte : (bitmap a).toNat < 2 ^ 8 := UInt8.toNat_lt (bitmap a)
  have hbits (j : Nat) (hj : j < 8) : bitAt bitmap (8 * a + j) = (bitmap a).toNat.testBit j := by
    unfold bitAt
    rw [show (8 * a + j) / 8 = a by omega, show (8 * a + j) % 8 = j by omega]
  rw [← UInt8.toNat_inj, show (0xFF : UInt8).toNat = 2 ^ 8 - 1 by decide, word_eq_max_iff hbyte]
  exact forall₂_congr fun j hj => by rw [hbits j hj]

theorem sliceFull_iff (bitmap : ByteMem) (i left : Nat) :
    sliceFull bitmap i left = true ↔
      ∀ j, 8 * i ≤ j → j < 8 * (i + left) → bitAt bitmap j = true := by
  induction left generalizing i with
  | zero =>
    simp only [sliceFull, true_iff]
    intro j hlo hhi
    omega
  | succ left ih =>
    unfold sliceFull
    by_cases hbyte : bitmap i = 0xFF
    · rw [if_neg (not_not_intro hbyte), ih]
      have hfirst := (byte_full_iff bitmap i).mp hbyte
      constructor
      · intro hrest j hlo hhi
        by_cases hj : j < 8 * (i + 1)
        · have hbit := hfirst (j - 8 * i) (by omega)
          rwa [Nat.add_sub_of_le hlo] at hbit
        · exact hrest j (by omega) (by omega)
      · intro hall j hlo hhi
        exact hall j (by omega) (by omega)
    · rw [if_pos hbyte]
      simp only [Bool.false_eq_true, false_iff]
      intro hall
      refine hbyte ((byte_full_iff bitmap i).mpr fun j hj => hall _ (by omega) (by omega))

-- unification would otherwise run the loop
attribute [irreducible] sliceFull

/-! ## `bsfs_alloc_block`, `bsfs_alloc_inode`, `bsfs_alloc_dirent` -/

/-- The part of `bsfs_alloc_block` that marks a megablock without free blocks. -/
def markFullMegablock (exits : Bool) (megablock slice : Nat) : PopulateM Unit := do
  let s ← get
  if sliceFull s.blockBitmap slice s.header.blockSize then setMegablockBit exits megablock
  else pure ()

/-- The part of `bsfs_alloc_block` that counts the block. -/
def countBlock (exits : Bool) : PopulateM Unit := do
  let s ← get
  bsfsPanicIf exits (s.header.freeBlocks = 0) .noFreeBlockCounted
  modify fun s => { s with
    header := { s.header with freeBlocks := u32 (s.header.freeBlocks + 2 ^ 32 - 1) } }

/-- `bsfs_alloc_block`. -/
def bsfsAllocBlock (exits : Bool) : PopulateM Nat := do
  let s ← get
  let freeMegablock := bitmapFind s.megablockBitmap (u32 (s.header.megablockBitmapSize * 8))
  bsfsPanicIf exits (freeMegablock = uint32Max) .noFreeMegablock
  let slice := u32 (freeMegablock * s.header.blockSize)
  let baseBlock := u32 (slice * 8)
  -- the search reads the whole slice of this megablock
  undefinedIf (s.blockBitmapSize < slice + s.header.blockSize)
  let freeBlock := bitmapFind (fun a => s.blockBitmap (slice + a)) (u32 (s.header.blockSize * 8))
  if freeBlock = uint32Max then
    bsfsPanic exits .noFreeBlock
    return uint32Max
  else
    let freeBlock := u32 (freeBlock + baseBlock)
    bsfsPanicIf exits (freeBlock < s.header.dataStart) (.metadataBlock freeBlock)
    setBlockBit exits freeBlock
    markFullMegablock exits freeMegablock slice
    countBlock exits
    return freeBlock

/-- `bsfs_alloc_inode`. -/
def bsfsAllocInode (exits : Bool) : PopulateM Nat := do
  let s ← get
  let freeInode := bitmapFind s.inodeBitmap s.header.inodeCount
  if freeInode = uint32Max then
    bsfsPanic exits .noFreeInode
    return uint32Max
  else
    setInodeBit exits freeInode
    modify fun s => { s with
      header := { s.header with freeInodes := u32 (s.header.freeInodes + 2 ^ 32 - 1) } }
    return freeInode

/-- The part of `bsfs_alloc_dirent` that gives the directory a block for its next entry. -/
def ensureDirentBlock (exits : Bool) (idx localBlock : Nat) : PopulateM Unit := do
  let s ← get
  if (s.inodeTable idx).direct localBlock = 0 then do
    let block ← bsfsAllocBlock exits
    modifyInode idx fun i => { i.setDirect localBlock block with blocks := u32 (i.blocks + 1) }
  else
    pure ()

/-- `bsfs_alloc_dirent` for the directory with inode `idx`. -/
def bsfsAllocDirent (exits : Bool) (idx : Nat) : PopulateM Nat := do
  let s ← get
  undefinedIf (s.header.inodeCount ≤ idx)
  let inode := s.inodeTable idx
  if inode.type ≠ bsfsInodeTypeDirectory then
    bsfsPanic exits .direntNotDirectory
    return uint64Max
  else
    let localBlock := u32 (inode.size / s.header.blockSize)
    if bsfsMaxDirectblocks ≤ localBlock then
      bsfsPanic exits .direntPastDirect
      return uint64Max
    else
      ensureDirentBlock exits idx localBlock
      let s ← get
      return direntOffset s.header ((s.inodeTable idx).direct localBlock) inode.size

end Pristine.Bsfs
