import Mathlib.Data.List.GetD
import Pristine.Bsfs.Format
import Pristine.Lib.HostFile

/-!
# `mkfs.bsfs`

The header `mkfs.bsfs` computes from a block size, an offset in blocks and the
size of the image file, and what it writes to the image.  The block size and the offset are 64-bit in
`tools/bsfs/mkfs.bsfs.c`, the other numbers 32-bit, so a division is done in 64
bits where one of the operands is the block size and in 32 bits elsewhere.
-/

namespace Pristine.Bsfs

open Lib

/-- `DIV_CEIL` on `uint64_t` operands that are far from the end of their range. -/
def divCeil (a b : Nat) : Nat := (a + b - 1) / b

section DivCeil

variable {a b c k : Nat}

theorem divCeil_le_iff (hb : 0 < b) : divCeil a b ≤ k ↔ a ≤ k * b := by
  unfold divCeil
  rw [Nat.div_le_iff_le_mul_add_pred hb, Nat.mul_comm b k]
  omega

/-- A rounded-up quotient covers the dividend. -/
theorem le_divCeil_mul (a : Nat) (hb : 0 < b) : a ≤ divCeil a b * b :=
  (divCeil_le_iff hb).mp (Nat.le_refl _)

theorem divCeil_mul_lt (a : Nat) (hb : 0 < b) : divCeil a b * b < a + b := by
  have hdiv := Nat.div_mul_le_self (a + b - 1) b
  unfold divCeil
  omega

theorem divCeil_le (a : Nat) (hb : 0 < b) : divCeil a b ≤ a :=
  (divCeil_le_iff hb).mpr (Nat.le_mul_of_pos_right a hb)

theorem divCeil_divCeil (hb : 0 < b) (hc : 0 < c) : divCeil (divCeil a b) c = divCeil a (b * c) := by
  refine eq_of_forall_ge_iff fun k => ?_
  rw [divCeil_le_iff hc, divCeil_le_iff hb, divCeil_le_iff (Nat.mul_pos hb hc), Nat.mul_assoc,
    Nat.mul_comm c b]

theorem div_lt_divCeil (hb : 0 < b) (hk : k < a) : k / b < divCeil a b := by
  rw [Nat.div_lt_iff_lt_mul hb]
  exact Nat.lt_of_lt_of_le hk (le_divCeil_mul a hb)

/-- A quotient by a block size that `mkfs.bsfs` accepts. -/
theorem divCeil_le_of_blockSize (hleast : 1024 ≤ b) (ha : a ≤ k * 1024) : divCeil a b ≤ k :=
  (divCeil_le_iff (by omega)).mpr (Nat.le_trans ha (Nat.mul_le_mul_left k hleast))

end DivCeil

/-- What `mkfs.bsfs` checks of its arguments and of the image. -/
structure MkfsAccepts (blockSize offset imageSize : Nat) : Prop where
  least : 1024 ≤ blockSize
  most : blockSize ≤ 16384
  offset : offset ≤ 1024
  multiple : imageSize % blockSize = 0

/-- The numbers `mkfs.bsfs` computes, in its order. -/
structure MkfsLayout where
  totalBlocks : Nat
  totalMegablocks : Nat
  inodeCount : Nat
  blockBitmapBlocks : Nat
  megablockBitmapBytes : Nat
  megablockBitmapBlocks : Nat
  inodeBitmapBlocks : Nat
  inodeTableBlocks : Nat
  reservedBlocks : Nat
  deriving DecidableEq, Repr

def mkfsLayout (blockSize offset imageSize : Nat) : MkfsLayout :=
  let totalBlocks := u32 (imageSize / blockSize)
  let totalMegablocks := u32 (divCeil totalBlocks (blockSize * 8))
  let inodeCount := totalBlocks / 4
  let blockBitmapBytes := divCeil32 totalBlocks 8
  let megablockBitmapBytes := divCeil32 totalMegablocks 8
  let inodeBitmapBytes := divCeil32 inodeCount 8
  let inodeTableBytes := u32 (inodeCount * sizeofBsfsInode)
  { totalBlocks := totalBlocks
    totalMegablocks := totalMegablocks
    inodeCount := inodeCount
    blockBitmapBlocks := u32 (divCeil blockBitmapBytes blockSize)
    megablockBitmapBytes := megablockBitmapBytes
    megablockBitmapBlocks := u32 (divCeil megablockBitmapBytes blockSize)
    inodeBitmapBlocks := u32 (divCeil inodeBitmapBytes blockSize)
    inodeTableBlocks := u32 (divCeil inodeTableBytes blockSize)
    reservedBlocks := u32 (offset + 1) }

namespace MkfsLayout

variable (l : MkfsLayout)

def blockBitmapStart : Nat := l.reservedBlocks

def megablockBitmapStart : Nat := u32 (l.blockBitmapStart + l.blockBitmapBlocks)

def inodeBitmapStart : Nat := u32 (l.megablockBitmapStart + l.megablockBitmapBlocks)

def inodeTableStart : Nat := u32 (l.inodeBitmapStart + l.inodeBitmapBlocks)

def dataStart : Nat := u32 (l.inodeTableStart + l.inodeTableBlocks)

def metadataBlocks : Nat :=
  u32 (l.reservedBlocks + l.blockBitmapBlocks + l.megablockBitmapBlocks + l.inodeBitmapBlocks +
    l.inodeTableBlocks)

end MkfsLayout

/-- The header `mkfs.bsfs` writes. -/
def mkfsHeader (blockSize offset imageSize : Nat) : BsfsHeader :=
  let l := mkfsLayout blockSize offset imageSize
  { magic := bsfsMagic
    version := bsfsVersion
    blockSize := blockSize
    totalBlocks := l.totalBlocks
    inodeCount := l.inodeCount
    freeBlocks := u32 (l.totalBlocks + 2 ^ 32 - l.metadataBlocks)
    freeInodes := l.inodeCount
    blockBitmapStart := l.blockBitmapStart
    blockBitmapBlocks := l.blockBitmapBlocks
    megablockBitmapStart := l.megablockBitmapStart
    megablockBitmapBlocks := l.megablockBitmapBlocks
    megablockBitmapSize := l.megablockBitmapBytes
    inodeBitmapStart := l.inodeBitmapStart
    inodeBitmapBlocks := l.inodeBitmapBlocks
    inodeTableStart := l.inodeTableStart
    inodeTableBlocks := l.inodeTableBlocks
    dataStart := l.dataStart
    rootInode := 0
    partitionLba := offset }

/-! ## The image -/

/-- A `BsfsHeader` with its numbers, and the bytes before and after them. -/
def headerBytes (h : BsfsHeader) (before after : List UInt8) : List UInt8 :=
  before ++ packedBytes h.fields ++ after

/-- `bootjmp`: a jump to `bootcode`, which is byte 115. -/
def mkfsBootjmp : List UInt8 := [0xEB, 113, 0x90]

/-- `label`, `bootcode` and `bootcode_magic`. -/
def mkfsTail (label : List UInt8) : List UInt8 :=
  label ++ List.replicate (32 - label.length) 0 ++ List.replicate 395 0 ++ [0x55, 0xAA]

/-- Write blocks of zeros one after the other. -/
def writeZeros (f : HostFile) (start blockSize : Nat) : Nat → HostFile
  | 0 => f
  | count + 1 =>
    (writeZeros f start blockSize count).write (start + count * blockSize)
      (List.replicate blockSize 0)

/-- The header and the rest of its block. -/
def mkfsWriteHeader (blockSize offset : Nat) (label : List UInt8) (image : HostFile) : HostFile :=
  let h := mkfsHeader blockSize offset image.size
  let image := image.write (blockSize * offset) (headerBytes h mkfsBootjmp (mkfsTail label))
  image.write (blockSize * offset + sizeofBsfsHeader)
    (List.replicate (blockSize - sizeofBsfsHeader) 0)

/-- The four regions behind it. -/
def mkfsClear (h : BsfsHeader) (blockSize : Nat) (image : HostFile) : HostFile :=
  let image := writeZeros image (blockSize * h.blockBitmapStart) blockSize h.blockBitmapBlocks
  let image :=
    writeZeros image (blockSize * h.megablockBitmapStart) blockSize h.megablockBitmapBlocks
  let image := writeZeros image (blockSize * h.inodeBitmapStart) blockSize h.inodeBitmapBlocks
  writeZeros image (blockSize * h.inodeTableStart) blockSize h.inodeTableBlocks

/-- `main` of `mkfs.bsfs`, with its arguments as numbers; `none` is a refusal. -/
def mkfsMain (blockSize offset : Nat) (label : List UInt8) (image : HostFile) : Option HostFile :=
  if 1024 ≤ blockSize ∧ blockSize ≤ 16384 ∧ offset ≤ 1024 ∧ label.length < 32 ∧
      image.size % blockSize = 0 then
    some (mkfsClear (mkfsHeader blockSize offset image.size) blockSize
      (mkfsWriteHeader blockSize offset label image))
  else
    none

/-! ## Volumes of at most 4 GiB -/

/-- With blocks of 4096 bytes and at most 4 GiB nothing wraps. -/
theorem mkfsLayout_small {offset imageSize : Nat} (hoffset : offset ≤ 1024)
    (hsize : imageSize ≤ 2 ^ 32) :
    mkfsLayout 4096 offset imageSize =
      { totalBlocks := imageSize / 4096
        totalMegablocks := (imageSize / 4096 + 32767) / 32768
        inodeCount := imageSize / 4096 / 4
        blockBitmapBlocks := (imageSize / 4096 + 32767) / 32768
        megablockBitmapBytes := ((imageSize / 4096 + 32767) / 32768 + 7) / 8
        megablockBitmapBlocks := (((imageSize / 4096 + 32767) / 32768 + 7) / 8 + 4095) / 4096
        inodeBitmapBlocks := (imageSize / 4096 / 4 + 32767) / 32768
        inodeTableBlocks := (imageSize / 4096 / 4 + 31) / 32
        reservedBlocks := offset + 1 } := by
  have htotal : imageSize / 4096 ≤ 2 ^ 20 := by omega
  unfold mkfsLayout
  rw [u32_of_lt (show imageSize / 4096 < 2 ^ 32 by omega)]
  generalize imageSize / 4096 = total at *
  have hmega : u32 (divCeil total (4096 * 8)) = (total + 32767) / 32768 := by
    unfold divCeil u32
    omega
  have hmegaBytes : divCeil32 ((total + 32767) / 32768) 8 = ((total + 32767) / 32768 + 7) / 8 := by
    unfold divCeil32 u32
    omega
  have hblock : u32 (divCeil (divCeil32 total 8) 4096) = (total + 32767) / 32768 := by
    unfold divCeil divCeil32 u32
    omega
  have hmegaBlocks : u32 (divCeil (((total + 32767) / 32768 + 7) / 8) 4096) =
      (((total + 32767) / 32768 + 7) / 8 + 4095) / 4096 := by
    unfold divCeil u32
    omega
  have hinode : u32 (divCeil (divCeil32 (total / 4) 8) 4096) = (total / 4 + 32767) / 32768 := by
    unfold divCeil divCeil32 u32
    omega
  have htable : u32 (divCeil (u32 (total / 4 * sizeofBsfsInode)) 4096) = (total / 4 + 31) / 32 := by
    unfold divCeil sizeofBsfsInode u32
    omega
  simp only [hmega, hmegaBytes, hblock, hmegaBlocks, hinode, htable,
    u32_of_lt (show offset + 1 < 2 ^ 32 by omega)]

/-- Where the regions of such a volume begin. -/
structure SmallVolume (h : BsfsHeader) (offset total : Nat) : Prop where
  blockSize : h.blockSize = 4096
  totalBlocks : h.totalBlocks = total
  inodeCount : h.inodeCount = total / 4
  blockBitmapStart : h.blockBitmapStart = offset + 1
  blockBitmapBlocks : h.blockBitmapBlocks = (total + 32767) / 32768
  megablockBitmapStart : h.megablockBitmapStart = h.blockBitmapStart + h.blockBitmapBlocks
  megablockBitmapBlocks : h.megablockBitmapBlocks = (h.megablockBitmapSize + 4095) / 4096
  megablockBitmapSize : h.megablockBitmapSize = ((total + 32767) / 32768 + 7) / 8
  inodeBitmapStart : h.inodeBitmapStart = h.megablockBitmapStart + h.megablockBitmapBlocks
  inodeBitmapBlocks : h.inodeBitmapBlocks = (total / 4 + 32767) / 32768
  inodeTableStart : h.inodeTableStart = h.inodeBitmapStart + h.inodeBitmapBlocks
  inodeTableBlocks : h.inodeTableBlocks = (total / 4 + 31) / 32
  dataStart : h.dataStart = h.inodeTableStart + h.inodeTableBlocks

theorem mkfsHeader_smallVolume {offset imageSize : Nat} (hoffset : offset ≤ 1024)
    (hsize : imageSize ≤ 2 ^ 32) :
    SmallVolume (mkfsHeader 4096 offset imageSize) offset (imageSize / 4096) := by
  unfold mkfsHeader
  rw [mkfsLayout_small hoffset hsize]
  have htotal : imageSize / 4096 ≤ 2 ^ 20 := by omega
  generalize imageSize / 4096 = total at *
  have hblock : (total + 32767) / 32768 ≤ 2 ^ 6 := by omega
  have hmega : (((total + 32767) / 32768 + 7) / 8 + 4095) / 4096 ≤ 1 := by omega
  have hinode : (total / 4 + 32767) / 32768 ≤ 2 ^ 4 := by omega
  have htable : (total / 4 + 31) / 32 ≤ 2 ^ 14 := by omega
  refine ⟨rfl, rfl, rfl, rfl, rfl, ?_, rfl, rfl, ?_, rfl, ?_, rfl, ?_⟩
  -- each region begins where the one before it ends, far below the end of the range
  all_goals
    simp only [MkfsLayout.dataStart, MkfsLayout.inodeTableStart, MkfsLayout.inodeBitmapStart,
      MkfsLayout.megablockBitmapStart, MkfsLayout.blockBitmapStart]
    generalize (((total + 32767) / 32768 + 7) / 8 + 4095) / 4096 = mega at *
    generalize (total + 32767) / 32768 = block at *
    generalize (total / 4 + 32767) / 32768 = inode at *
    generalize (total / 4 + 31) / 32 = table at *
    unfold u32
    omega

/-! ## What is in the image -/

section Written

variable {f : HostFile} {start blockSize a : Nat}

/-- Zeros that begin in the file make it longer if they reach beyond its end. -/
theorem writeZeros_size (hpos : 0 < blockSize) (hstart : start ≤ f.size) (count : Nat) :
    (writeZeros f start blockSize count).size = max f.size (start + count * blockSize) := by
  induction count with
  | zero =>
    rw [writeZeros]
    omega
  | succ count ih =>
    have hdata : List.replicate blockSize (0 : UInt8) ≠ [] :=
      List.ne_nil_of_length_pos (by simpa using hpos)
    rw [writeZeros, HostFile.write_size_max hdata, List.length_replicate, ih, Nat.add_one_mul]
    omega

/-- Zeros are written to the region only. -/
theorem writeZeros_keep (hpos : 0 < blockSize) (hstart : start ≤ f.size) (ha : a < f.size)
    (count : Nat) (hout : a < start ∨ start + count * blockSize ≤ a) :
    (writeZeros f start blockSize count).bytes a = f.bytes a := by
  induction count with
  | zero => rfl
  | succ count ih =>
    have hsize := writeZeros_size hpos hstart count
    rw [Nat.add_one_mul] at hout
    rw [writeZeros, HostFile.write_keep, ih (by omega)]
    · rw [hsize]
      omega
    · rw [List.length_replicate]
      omega

end Written

section Image

variable {offset total : Nat} {label : List UInt8} {image image' : HostFile}

theorem length_headerBytes (h : BsfsHeader) (before after : List UInt8) :
    (headerBytes h before after).length = before.length + 80 + after.length := by
  have hwidth : packedWidth h.fields = 80 := by simp [packedWidth, BsfsHeader.fields]
  unfold headerBytes
  rw [List.length_append, List.length_append, length_packedBytes, hwidth]

/-- The numbers of a header lie behind the boot jump. -/
theorem getD_headerBytes (h : BsfsHeader) (before after : List UInt8) {k : Nat}
    (hk : k < 80) : (headerBytes h before after).getD (before.length + k) 0 = packed h.fields k := by
  have hwidth : packedWidth h.fields = 80 := by simp [packedWidth, BsfsHeader.fields]
  have hlen := length_packedBytes h.fields
  unfold headerBytes
  rw [List.append_assoc, List.getD_append_right _ _ _ _ (by omega), Nat.add_sub_cancel_left,
    List.getD_append _ _ _ _ (by omega), getD_packedBytes _ (by omega)]

theorem length_mkfsTail (hlabel : label.length < 32) : (mkfsTail label).length = 429 := by
  unfold mkfsTail
  simp only [List.length_append, List.length_replicate, List.length_cons, List.length_nil]
  omega

/-- A formatted image: as long as before, unless the metadata are longer, with the header at the
offset and behind the metadata as it was. -/
structure Formatted (image image' : HostFile) (offset total : Nat) : Prop where
  volume : SmallVolume (mkfsHeader 4096 offset image.size) offset total
  size : image'.size = 4096 * max total (mkfsHeader 4096 offset image.size).dataStart
  header : ∀ k, k < 80 → image'.bytes (4096 * offset + 3 + k) =
    packed (mkfsHeader 4096 offset image.size).fields k
  behind : ∀ a, 4096 * (mkfsHeader 4096 offset image.size).dataStart ≤ a → a < image.size →
    image'.bytes a = image.bytes a

theorem mkfsWriteHeader_spec (offset : Nat) (image : HostFile) (hlabel : label.length < 32) :
    (mkfsWriteHeader 4096 offset label image).size = max image.size (4096 * (offset + 1)) ∧
      (∀ k, k < 80 → (mkfsWriteHeader 4096 offset label image).bytes (4096 * offset + 3 + k) =
        packed (mkfsHeader 4096 offset image.size).fields k) ∧
      ∀ a, 4096 * (offset + 1) ≤ a → a < image.size →
        (mkfsWriteHeader 4096 offset label image).bytes a = image.bytes a := by
  unfold mkfsWriteHeader sizeofBsfsHeader
  dsimp only
  generalize mkfsHeader 4096 offset image.size = h
  have hlen : (headerBytes h mkfsBootjmp (mkfsTail label)).length = 512 := by
    rw [length_headerBytes, length_mkfsTail hlabel]
    rfl
  have hzeros : (List.replicate (4096 - 512) (0 : UInt8)).length = 3584 := List.length_replicate
  generalize List.replicate (4096 - 512) (0 : UInt8) = zeros at *
  obtain ⟨f, hf⟩ : ∃ f, image.write (4096 * offset) (headerBytes h mkfsBootjmp (mkfsTail label)) = f :=
    ⟨_, rfl⟩
  have hsize : f.size = max image.size (4096 * offset + 512) := by
    rw [← hf, HostFile.write_size_max (List.ne_nil_of_length_pos (by omega)), hlen]
  rw [hf]
  refine ⟨?_, ?_, ?_⟩
  · rw [HostFile.write_size_max (List.ne_nil_of_length_pos (by omega)), hsize, hzeros]
    omega
  · intro k hk
    have hplace := getD_headerBytes h mkfsBootjmp (mkfsTail label) hk
    rw [HostFile.write_keep (by omega) (by omega), ← hf, Nat.add_assoc,
      HostFile.write_covered (by omega)]
    exact hplace
  · intro a ha hend
    rw [HostFile.write_keep (by omega) (by omega), ← hf, HostFile.write_keep hend (by omega)]

theorem mkfsClear_spec (image : HostFile) {h : BsfsHeader} (hvolume : SmallVolume h offset total)
    (hstart : 4096 * (offset + 1) ≤ image.size) :
    (mkfsClear h 4096 image).size = max image.size (4096 * h.dataStart) ∧
      ∀ a, a < image.size → a < 4096 * (offset + 1) ∨ 4096 * h.dataStart ≤ a →
        (mkfsClear h 4096 image).bytes a = image.bytes a := by
  obtain ⟨-, -, -, hblock, -, hmega, -, -, hinode, -, htable, -, hdata⟩ := hvolume
  have hpos : 0 < 4096 := by omega
  unfold mkfsClear
  -- each region begins where the one before it ends
  obtain ⟨f1, hf1⟩ : ∃ f, writeZeros image (4096 * h.blockBitmapStart) 4096 h.blockBitmapBlocks = f :=
    ⟨_, rfl⟩
  have hsize1 := hf1 ▸ writeZeros_size hpos
    (show 4096 * h.blockBitmapStart ≤ image.size by omega) h.blockBitmapBlocks
  obtain ⟨f2, hf2⟩ : ∃ f,
    writeZeros f1 (4096 * h.megablockBitmapStart) 4096 h.megablockBitmapBlocks = f := ⟨_, rfl⟩
  have hsize2 := hf2 ▸ writeZeros_size hpos
    (show 4096 * h.megablockBitmapStart ≤ f1.size by omega) h.megablockBitmapBlocks
  obtain ⟨f3, hf3⟩ : ∃ f, writeZeros f2 (4096 * h.inodeBitmapStart) 4096 h.inodeBitmapBlocks = f :=
    ⟨_, rfl⟩
  have hsize3 := hf3 ▸ writeZeros_size hpos
    (show 4096 * h.inodeBitmapStart ≤ f2.size by omega) h.inodeBitmapBlocks
  have hsize4 := writeZeros_size hpos
    (show 4096 * h.inodeTableStart ≤ f3.size by omega) h.inodeTableBlocks
  dsimp only
  rw [hf1, hf2, hf3]
  refine ⟨by omega, fun a ha hout => ?_⟩
  rw [writeZeros_keep hpos (by omega) (by omega) _ (by omega), ← hf3,
    writeZeros_keep hpos (by omega) (by omega) _ (by omega), ← hf2,
    writeZeros_keep hpos (by omega) (by omega) _ (by omega), ← hf1,
    writeZeros_keep hpos (by omega) (by omega) _ (by omega)]

theorem mkfsMain_formatted (hsize : image.size = 4096 * total) (hsmall : total < 2 ^ 20)
    (hmain : mkfsMain 4096 offset label image = some image') :
    Formatted image image' offset total := by
  unfold mkfsMain at hmain
  split at hmain
  · rename_i haccepts
    obtain ⟨-, -, hoffset, hlabel, -⟩ := haccepts
    have hvolume := mkfsHeader_smallVolume hoffset (show image.size ≤ 2 ^ 32 by omega)
    rw [show image.size / 4096 = total by omega] at hvolume
    obtain ⟨hsize1, hheader, hbehind1⟩ := mkfsWriteHeader_spec offset image hlabel
    obtain ⟨hsize2, hkeep⟩ := mkfsClear_spec (mkfsWriteHeader 4096 offset label image) hvolume
      (by omega)
    have hdata : offset + 1 ≤ (mkfsHeader 4096 offset image.size).dataStart := by
      obtain ⟨-, -, -, hblock, -, hmega, -, -, hinode, -, htable, -, hdata⟩ := hvolume
      omega
    cases hmain
    refine ⟨hvolume, by omega, ?_, ?_⟩
    · intro k hk
      rw [hkeep _ (by omega) (by omega)]
      exact hheader k hk
    · intro a ha hend
      rw [hkeep a (by omega) (Or.inr ha)]
      exact hbehind1 a (by omega) hend
  · cases hmain

end Image

end Pristine.Bsfs
