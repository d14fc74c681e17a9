import Pristine.Kernel.Bitmap
import Pristine.Lib.PackedRecord

/-!
# On-disk format of BSFS

Header, inodes and directory entries, and how they lie in an image.  Of the
header's 512 bytes the boot jump, the label and the boot code are left out: no
modelled function reads them.
-/

namespace Pristine.Bsfs

open Lib Kernel

/-- The low 32 bits, as an assignment to a `uint32_t` keeps them. -/
def u32 (n : Nat) : Nat := n % 2 ^ 32

theorem u32_of_lt {n : Nat} (hn : n < 2 ^ 32) : u32 n = n := Nat.mod_eq_of_lt hn

theorem u32_lt (n : Nat) : u32 n < 2 ^ 32 := Nat.mod_lt n (by decide)

-- unification would otherwise compute with 32-bit numbers
attribute [irreducible] u32

/-- `DIV_CEIL` on `uint32_t` operands. -/
def divCeil32 (a b : Nat) : Nat := u32 (a + b - 1) / b

def bsfsMagic : Nat := 0x42534653

def bsfsVersion : Nat := 0x01030100

/-- `BSFS_MAX_DIRECTBLOCKS`. -/
def bsfsMaxDirectblocks : Nat := 10

/-- `BSFS_MAX_DIRENTNAME`. -/
def bsfsMaxDirentname : Nat := 124

def bsfsInodeTypeFree : Nat := 0

def bsfsInodeTypeFile : Nat := 1

def bsfsInodeTypeDirectory : Nat := 2

def bsfsInodePermWrite : Nat := 0x02

def bsfsInodePermRead : Nat := 0x04

/-! ## Header -/

/-- `BsfsHeader`. -/
structure BsfsHeader where
  magic : Nat
  version : Nat
  blockSize : Nat
  totalBlocks : Nat
  inodeCount : Nat
  freeBlocks : Nat
  freeInodes : Nat
  blockBitmapStart : Nat
  blockBitmapBlocks : Nat
  megablockBitmapStart : Nat
  megablockBitmapBlocks : Nat
  megablockBitmapSize : Nat
  inodeBitmapStart : Nat
  inodeBitmapBlocks : Nat
  inodeTableStart : Nat
  inodeTableBlocks : Nat
  dataStart : Nat
  rootInode : Nat
  partitionLba : Nat
  deriving DecidableEq, Repr

/-- The fields with their widths, from byte 3 on. -/
def BsfsHeader.fields (h : BsfsHeader) : List (Nat × Nat) :=
  [(4, h.magic), (4, h.version), (4, h.blockSize), (4, h.totalBlocks), (4, h.inodeCount),
    (4, h.freeBlocks), (4, h.freeInodes), (4, h.blockBitmapStart), (4, h.blockBitmapBlocks),
    (4, h.megablockBitmapStart), (4, h.megablockBitmapBlocks), (4, h.megablockBitmapSize),
    (4, h.inodeBitmapStart), (4, h.inodeBitmapBlocks), (4, h.inodeTableStart),
    (4, h.inodeTableBlocks), (4, h.dataStart), (4, h.rootInode), (8, h.partitionLba)]

/-- Where the numbers begin: `bootjmp` comes first. -/
def headerFieldsOffset : Nat := 3

/-- `sizeof(BsfsHeader)`. -/
def sizeofBsfsHeader : Nat := 512

/-! ## Inodes -/

/-- `BsfsInode` without its reserved bytes, which are always zero. -/
structure BsfsInode where
  type : Nat
  permissions : Nat
  uid : Nat
  gid : Nat
  size : Nat
  blocks : Nat
  created : Nat
  modified : Nat
  accessed : Nat
  linkCount : Nat
  blocksDirect : Fin bsfsMaxDirectblocks → Nat
  blocksL1indirect : Nat
  blocksL2indirect : Nat
  blocksL3indirect : Nat
  checksum : Nat
  deriving DecidableEq, Repr

/-- What `calloc` leaves. -/
def BsfsInode.zero : BsfsInode :=
  ⟨0, 0, 0, 0, 0, 0, 0, 0, 0, 0, fun _ => 0, 0, 0, 0, 0⟩

/-- `sizeof(BsfsInode)`. -/
def sizeofBsfsInode : Nat := 128

def BsfsInode.fields (i : BsfsInode) : List (Nat × Nat) :=
  [(1, i.type), (2, i.permissions), (4, i.uid), (4, i.gid), (8, i.size), (4, i.blocks),
    (8, i.created), (8, i.modified), (8, i.accessed), (4, i.linkCount)] ++
  (List.ofFn fun k => (4, i.blocksDirect k)) ++
  [(4, i.blocksL1indirect), (4, i.blocksL2indirect), (4, i.blocksL3indirect), (4, i.checksum)]

/-- Direct pointer `k`. -/
def BsfsInode.direct (i : BsfsInode) (k : Nat) : Nat :=
  if h : k < bsfsMaxDirectblocks then i.blocksDirect ⟨k, h⟩ else 0

def BsfsInode.setDirect (i : BsfsInode) (k value : Nat) : BsfsInode :=
  if h : k < bsfsMaxDirectblocks then
    { i with blocksDirect := Function.update i.blocksDirect ⟨k, h⟩ value }
  else
    i

theorem BsfsInode.direct_setDirect_same (i : BsfsInode) {k : Nat} (value : Nat)
    (hk : k < bsfsMaxDirectblocks) : (i.setDirect k value).direct k = value := by
  simp [direct, setDirect, hk]

theorem BsfsInode.direct_setDirect_other (i : BsfsInode) {j k : Nat} (value : Nat) (hjk : j ≠ k) :
    (i.setDirect k value).direct j = i.direct j := by
  unfold direct setDirect
  split
  · split
    · have hne : (⟨j, by assumption⟩ : Fin bsfsMaxDirectblocks) ≠ ⟨k, by assumption⟩ := by
        simpa using hjk
      simp [Function.update_of_ne hne]
    · rfl
  · rfl

/-- `sizeof(BsfsDirent)`. -/
def sizeofBsfsDirent : Nat := 128

end Pristine.Bsfs
