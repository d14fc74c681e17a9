import Pristine.Bsfs.Alloc
import Pristine.Bsfs.Mkfs

/-!
# Block allocation is a first fit

`bsfs_alloc_block` looks for a megablock with a free block, then for a free block
in the slice of the block bitmap that belongs to it.  While the megablock bitmap
is exact this finds the first free block of the whole bitmap, and the megablock
bitmap stays exact.

`mkfs.bsfs` computes the size of the block bitmap with a 32-bit `DIV_CEIL`, which
wraps around for the last numbers of blocks; such a volume has no block bitmap.
-/

namespace Pristine.Bsfs

open Lib Kernel

/-! ## Steps that succeed -/

section Steps

variable {exits : Bool} {s s' : PopulateState} {condition : Prop} [Decidable condition]
variable {panic : BsfsPanic} {index : Nat} {α : Type} {f : Unit → PopulateM α} {a : α}

theorem bsfsPanicIf_of_not (hnot : ¬ condition) :
    bsfsPanicIf exits condition panic s = .ok () s := by
  unfold bsfsPanicIf
  rw [if_neg hnot]
  rfl

/-- With `BSFS_PANIC` as an exit, a program goes on only if there is nothing to panic about. -/
theorem bsfsPanicIf_bind :
    (bsfsPanicIf true condition panic >>= f) s = .ok a s' ↔ ¬ condition ∧ f () s = .ok a s' := by
  unfold bsfsPanicIf
  split
  · simp [bind_eq_ok, bsfsPanic, *]
  · simp [*]

theorem bsfsPanic_bind_ne_ok : (bsfsPanic true panic >>= f) s ≠ .ok a s' := by
  simp [bind_eq_ok, bsfsPanic]

theorem undefinedIf_of_not (hnot : ¬ condition) : undefinedIf condition s = .ok () s := by
  unfold undefinedIf
  rw [if_neg hnot]
  rfl

theorem undefinedIf_bind :
    (undefinedIf condition >>= f) s = .ok a s' ↔ ¬ condition ∧ f () s = .ok a s' := by
  unfold undefinedIf
  split
  · simp [bind_eq_ok, *]
  · simp [*]

theorem setBlockBit_of_clear (hsize : index / 8 < s.blockBitmapSize)
    (hclear : bitAt s.blockBitmap index = false) :
    setBlockBit exits index s = .ok () { s with blockBitmap := bitmapSet s.blockBitmap index } := by
  unfold setBlockBit
  rw [get_bind, bind_of_ok (undefinedIf_of_not (Nat.not_le.mpr hsize)),
    bind_of_ok (bsfsPanicIf_of_not (not_not_intro ((bitmapTest_eq_zero_iff _ _).mpr hclear)))]
  rfl

theorem setMegablockBit_of_clear (hsize : index / 8 < s.header.megablockBitmapSize)
    (hclear : bitAt s.megablockBitmap index = false) :
    setMegablockBit exits index s =
      .ok () { s with megablockBitmap := bitmapSet s.megablockBitmap index } := by
  unfold setMegablockBit
  rw [get_bind, bind_of_ok (undefinedIf_of_not (Nat.not_le.mpr hsize)),
    bind_of_ok (bsfsPanicIf_of_not (not_not_intro ((bitmapTest_eq_zero_iff _ _).mpr hclear)))]
  rfl

theorem setInodeBit_of_clear (hsize : index / 8 < s.header.inodeBitmapBlocks * s.header.blockSize)
    (hclear : bitAt s.inodeBitmap index = false) :
    setInodeBit exits index s = .ok () { s with inodeBitmap := bitmapSet s.inodeBitmap index } := by
  unfold setInodeBit
  rw [get_bind, bind_of_ok (undefinedIf_of_not (Nat.not_le.mpr hsize)),
    bind_of_ok (bsfsPanicIf_of_not (not_not_intro ((bitmapTest_eq_zero_iff _ _).mpr hclear)))]
  rfl

end Steps

/-! ## New counts -/

/-- The header with other counts. -/
def BsfsHeader.recount (h : BsfsHeader) (freeBlocks freeInodes : Nat) : BsfsHeader :=
  { h with freeBlocks := freeBlocks, freeInodes := freeInodes }

theorem recount_blockSize (h : BsfsHeader) (freeBlocks freeInodes : Nat) :
    (h.recount freeBlocks freeInodes).blockSize = h.blockSize :=
  rfl

theorem recount_totalBlocks (h : BsfsHeader) (freeBlocks freeInodes : Nat) :
    (h.recount freeBlocks freeInodes).totalBlocks = h.totalBlocks :=
  rfl

theorem recount_dataStart (h : BsfsHeader) (freeBlocks freeInodes : Nat) :
    (h.recount freeBlocks freeInodes).dataStart = h.dataStart :=
  rfl

theorem recount_self {h h' : BsfsHeader} {freeBlocks freeInodes : Nat}
    (hheader : h' = h.recount freeBlocks freeInodes) :
    h' = h.recount h'.freeBlocks h'.freeInodes := by
  rw [hheader]
  rfl

/-- The state with other counts and bitmaps. -/
def PopulateState.recount (s : PopulateState) (freeBlocks freeInodes : Nat)
    (blockBitmap megablockBitmap inodeBitmap : ByteMem) : PopulateState :=
  { s with
    header := s.header.recount freeBlocks freeInodes
    blockBitmap := blockBitmap
    megablockBitmap := megablockBitmap
    inodeBitmap := inodeBitmap }

section Recount

variable (s : PopulateState) (freeBlocks freeInodes : Nat)
variable (blockBitmap megablockBitmap inodeBitmap : ByteMem)

theorem recount_header :
    (s.recount freeBlocks freeInodes blockBitmap megablockBitmap inodeBitmap).header =
      s.header.recount freeBlocks freeInodes :=
  rfl

theorem recount_blockBitmap :
    (s.recount freeBlocks freeInodes blockBitmap megablockBitmap inodeBitmap).blockBitmap =
      blockBitmap :=
  rfl

theorem recount_megablockBitmap :
    (s.recount freeBlocks freeInodes blockBitmap megablockBitmap inodeBitmap).megablockBitmap =
      megablockBitmap :=
  rfl

theorem recount_inodeBitmap :
    (s.recount freeBlocks freeInodes blockBitmap megablockBitmap inodeBitmap).inodeBitmap =
      inodeBitmap :=
  rfl

theorem recount_panics :
    (s.recount freeBlocks freeInodes blockBitmap megablockBitmap inodeBitmap).panics = s.panics :=
  rfl

theorem recount_image :
    (s.recount freeBlocks freeInodes blockBitmap megablockBitmap inodeBitmap).image = s.image :=
  rfl

theorem recount_inodeTable :
    (s.recount freeBlocks freeInodes blockBitmap megablockBitmap inodeBitmap).inodeTable =
      s.inodeTable :=
  rfl

end Recount

/-! ## The allocation -/

/-- The bitmaps have a bit for every block and for every megablock. -/
structure BsfsHeader.Covered (h : BsfsHeader) : Prop where
  blockSize : 0 < h.blockSize
  slice : h.blockSize * 8 < 2 ^ 32
  totalBlocks : h.totalBlocks < 2 ^ 32
  blockBitmap : h.totalBlocks ≤ 8 * (h.blockBitmapBlocks * h.blockSize)
  megablockBitmap : divCeil h.totalBlocks (8 * h.blockSize) ≤ h.megablockBitmapSize * 8
  megablocks : h.megablockBitmapSize * 8 < 2 ^ 32

/-- A megablock is marked if all bytes of its slice are `UINT8_MAX`. -/
def MegablocksExact (s : PopulateState) : Prop :=
  ∀ m, m < divCeil s.header.totalBlocks (8 * s.header.blockSize) →
    (bitAt s.megablockBitmap m = true ↔
      ∀ a, a < s.header.blockSize → s.blockBitmap (m * s.header.blockSize + a) = 0xFF)

/-- A block is taken. -/
def PopulateState.takeBlock (s : PopulateState) (block : Nat) : PopulateState :=
  s.recount (u32 (s.header.freeBlocks + 2 ^ 32 - 1)) s.header.freeInodes
    (bitmapSet s.blockBitmap block)
    (if sliceFull (bitmapSet s.blockBitmap block)
        (block / (8 * s.header.blockSize) * s.header.blockSize) s.header.blockSize then
      bitmapSet s.megablockBitmap (block / (8 * s.header.blockSize))
    else
      s.megablockBitmap)
    s.inodeBitmap

section TakeBlock

variable (s : PopulateState) (block : Nat)

@[simp] theorem takeBlock_image : (s.takeBlock block).image = s.image :=
  recount_image ..

@[simp] theorem takeBlock_inodeTable : (s.takeBlock block).inodeTable = s.inodeTable :=
  recount_inodeTable ..

theorem takeBlock_header :
    (s.takeBlock block).header =
      s.header.recount (u32 (s.header.freeBlocks + 2 ^ 32 - 1)) s.header.freeInodes :=
  recount_header ..

theorem takeBlock_blockBitmap : (s.takeBlock block).blockBitmap = bitmapSet s.blockBitmap block :=
  recount_blockBitmap ..

theorem takeBlock_inodeBitmap : (s.takeBlock block).inodeBitmap = s.inodeBitmap :=
  recount_inodeBitmap ..

theorem takeBlock_panics : (s.takeBlock block).panics = s.panics :=
  recount_panics ..

end TakeBlock

theorem bytes_full_iff (bitmap : ByteMem) (start n : Nat) :
    (∀ a, a < n → bitmap (start + a) = 0xFF) ↔
      ∀ j, j < 8 * n → bitAt bitmap (8 * start + j) = true := by
  constructor
  · intro hbytes j hj
    have hbit := (byte_full_iff bitmap (start + j / 8)).mp (hbytes _ (by omega)) (j % 8) (by omega)
    rwa [show 8 * (start + j / 8) + j % 8 = 8 * start + j by omega] at hbit
  · intro hbits a ha
    refine (byte_full_iff bitmap (start + a)).mpr fun j hj => ?_
    rw [show 8 * (start + a) + j = 8 * start + (8 * a + j) by omega]
    exact hbits _ (by omega)

theorem megablocksExact_iff (s : PopulateState) :
    MegablocksExact s ↔ Summarizes s.megablockBitmap s.blockBitmap (8 * s.header.blockSize)
      (divCeil s.header.totalBlocks (8 * s.header.blockSize)) := by
  refine forall₂_congr fun m hm => ?_
  rw [bytes_full_iff, Nat.mul_assoc 8 s.header.blockSize m, Nat.mul_comm m]

section AllocBlock

variable {exits : Bool} {s : PopulateState} {block : Nat}

theorem countBlock_of_free (hfree : s.header.freeBlocks ≠ 0) :
    countBlock exits s = .ok () (s.recount (u32 (s.header.freeBlocks + 2 ^ 32 - 1))
      s.header.freeInodes s.blockBitmap s.megablockBitmap s.inodeBitmap) := by
  unfold countBlock
  rw [get_bind, bind_of_ok (bsfsPanicIf_of_not hfree)]
  rfl

theorem markFullMegablock_of_clear {megablock slice : Nat}
    (hinside : megablock / 8 < s.header.megablockBitmapSize)
    (hclear : bitAt s.megablockBitmap megablock = false) :
    markFullMegablock exits megablock slice s = .ok () { s with
      megablockBitmap :=
        if sliceFull s.blockBitmap slice s.header.blockSize then
          bitmapSet s.megablockBitmap megablock
        else
          s.megablockBitmap } := by
  unfold markFullMegablock
  rw [get_bind]
  by_cases hslice : sliceFull s.blockBitmap slice s.header.blockSize = true
  · rw [if_pos hslice, if_pos hslice]
    exact setMegablockBit_of_clear hinside hclear
  · rw [if_neg hslice, if_neg hslice]
    rfl

/-- Where the first free block lies in the two bitmaps: megablock `m`, whose slice begins at byte
`slice`. -/
structure FoundAt (s : PopulateState) (block m slice : Nat) : Prop where
  megablock : bitmapFind s.megablockBitmap (u32 (s.header.megablockBitmapSize * 8)) = m
  megablock_lt : m < s.header.megablockBitmapSize * 8
  clear : bitAt s.megablockBitmap m = false
  start : u32 (m * s.header.blockSize) = slice
  slice_le : slice + s.header.blockSize ≤ s.blockBitmapSize
  found : bitmapFind (fun a => s.blockBitmap (slice + a)) (u32 (s.header.blockSize * 8)) =
    block - 8 * slice
  slice_le_block : 8 * slice ≤ block

theorem foundAt_of_firstClear (hcovered : s.header.Covered) (hexact : MegablocksExact s)
    (hfirst : IsFirstClear s.blockBitmap s.header.totalBlocks block) :
    FoundAt s block (block / (8 * s.header.blockSize))
      (block / (8 * s.header.blockSize) * s.header.blockSize) := by
  obtain ⟨hpos, hslice, htotal, hblocks, hmegas, hmegaWidth⟩ := hcovered
  have hlt := hfirst.lt
  have hwidth : 0 < 8 * s.header.blockSize := by omega
  have hmega := div_lt_divCeil hwidth hlt
  have hdiv := Nat.div_add_mod block (8 * s.header.blockSize)
  have hmod := Nat.mod_lt block hwidth
  have hsummary := ((megablocksExact_iff s).mp hexact).firstClear hwidth hfirst hmega
  generalize block / (8 * s.header.blockSize) = m at *
  have hbits : 8 * s.header.blockSize * m = 8 * (m * s.header.blockSize) := by
    rw [Nat.mul_assoc, Nat.mul_comm m]
  have hinside : m < s.header.blockBitmapBlocks := by
    by_contra hout
    have hmul := Nat.mul_le_mul_right s.header.blockSize (Nat.le_of_not_lt hout)
    omega
  have hend : m * s.header.blockSize + s.header.blockSize ≤
      s.header.blockBitmapBlocks * s.header.blockSize := by
    have hmul := Nat.mul_le_mul_right s.header.blockSize (Nat.succ_le_of_lt hinside)
    rwa [Nat.succ_mul] at hmul
  obtain ⟨slice, hstart⟩ : ∃ slice, m * s.header.blockSize = slice := ⟨_, rfl⟩
  rw [hstart] at hbits hend ⊢
  refine ⟨?_, by omega, hsummary.clear, ?_, hend, ?_, by omega⟩
  · rw [u32_of_lt hmegaWidth]
    exact bitmapFind_of_firstClear (by omega) ⟨by omega, hsummary.clear, hsummary.below⟩
  · rw [hstart, u32_of_lt (by omega)]
  · rw [u32_of_lt hslice]
    refine bitmapFind_of_firstClear (by omega) ⟨by omega, ?_, fun j hj => ?_⟩
    · rw [bitAt_slice, show 8 * slice + (block - 8 * slice) = block by omega]
      exact hfirst.clear
    · rw [bitAt_slice]
      exact hfirst.below _ (by omega)

/-- `bsfs_alloc_block` takes the first free block. -/
theorem bsfsAllocBlock_firstClear (hcovered : s.header.Covered) (hexact : MegablocksExact s)
    (hfirst : IsFirstClear s.blockBitmap s.header.totalBlocks block)
    (hdata : s.header.dataStart ≤ block) (hfree : s.header.freeBlocks ≠ 0) :
    bsfsAllocBlock exits s = .ok block (s.takeBlock block) := by
  have hfound := foundAt_of_firstClear hcovered hexact hfirst
  have htotal := hcovered.totalBlocks
  have hmegas := hcovered.megablocks
  have hlt := hfirst.lt
  have hinside : block / 8 < s.blockBitmapSize := by
    have hblocks : s.header.totalBlocks ≤ 8 * s.blockBitmapSize := hcovered.blockBitmap
    omega
  unfold PopulateState.takeBlock
  generalize block / (8 * s.header.blockSize) = m at *
  generalize m * s.header.blockSize = slice at *
  obtain ⟨hmegablock, hmega, hclear, hslice, hslice_le, hblock, hle⟩ := hfound
  have hsum : u32 (block - 8 * slice + u32 (slice * 8)) = block := by
    rw [u32_of_lt (n := slice * 8) (by omega), u32_of_lt (by omega)]
    omega
  unfold bsfsAllocBlock
  rw [get_bind, hmegablock,
    bind_of_ok (bsfsPanicIf_of_not (by unfold uint32Max; omega)), hslice,
    bind_of_ok (undefinedIf_of_not (by omega)), hblock, if_neg (by unfold uint32Max; omega), hsum,
    bind_of_ok (bsfsPanicIf_of_not (by omega)),
    bind_of_ok (setBlockBit_of_clear hinside hfirst.clear)]
  refine (bind_of_ok (markFullMegablock_of_clear ?_ ?_)).trans ?_
  · show m / 8 < s.header.megablockBitmapSize
    omega
  · exact hclear
  · refine (bind_of_ok (countBlock_of_free ?_)).trans ?_
    · exact hfree
    · rfl

theorem sliceFull_iff_bits (bitmap : ByteMem) (start n : Nat) :
    sliceFull bitmap start n = true ↔ ∀ j, j < 8 * n → bitAt bitmap (8 * start + j) = true := by
  rw [sliceFull_iff]
  constructor
  · intro hall j hj
    exact hall _ (by omega) (by omega)
  · intro hall j hlo hhi
    have hbit := hall (j - 8 * start) (by omega)
    rwa [Nat.add_sub_of_le hlo] at hbit

theorem MegablocksExact.takeBlock (hexact : MegablocksExact s) (hpos : 0 < s.header.blockSize)
    (block : Nat) : MegablocksExact (s.takeBlock block) := by
  rw [megablocksExact_iff] at hexact ⊢
  unfold PopulateState.takeBlock
  rw [recount_header, recount_blockSize, recount_totalBlocks, recount_blockBitmap,
    recount_megablockBitmap]
  refine hexact.orBit (by omega) ?_
  rw [sliceFull_iff_bits, Nat.mul_assoc 8, Nat.mul_comm s.header.blockSize]
  rfl

end AllocBlock

-- from here on the state after an allocation is known by what is proved about it
attribute [irreducible] PopulateState.takeBlock

/-! ## Volumes of `mkfs.bsfs` -/

section Mkfs

variable {blockSize offset imageSize : Nat}

/-- What `bsfs_alloc_block` is for: it takes the first free block of the bitmap, and nothing else
changes. -/
structure TakesFirstFree (exits : Bool) (s : PopulateState) (block : Nat) (s' : PopulateState) :
    Prop where
  call : bsfsAllocBlock exits s = .ok block s'
  first : IsLeast { i | bitAt s.blockBitmap i = false } block
  dataStart_le : s.header.dataStart ≤ block
  lt_totalBlocks : block < s.header.totalBlocks
  blockBits : ∀ i, bitAt s'.blockBitmap i = (decide (block = i) || bitAt s.blockBitmap i)
  header : s'.header = { s.header with freeBlocks := s.header.freeBlocks - 1 }
  exact : MegablocksExact s'
  image : s'.image = s.image
  inodeBitmap : s'.inodeBitmap = s.inodeBitmap
  inodeTable : s'.inodeTable = s.inodeTable
  panics : s'.panics = s.panics

/-- `bsfs_alloc_block` does so on every volume with header `h`, as long as a block is free: by the
count of the header and, if the block bitmap that was allocated has a bit for every block, by the
bitmap.  Later headers differ from `h` in their counts. -/
def FirstFit (exits : Bool) (h : BsfsHeader) : Prop :=
  ∀ s : PopulateState, s.header = h.recount s.header.freeBlocks s.header.freeInodes →
    s.header.freeBlocks ≠ 0 → s.header.freeBlocks < 2 ^ 32 →
    (h.totalBlocks ≤ 8 * s.blockBitmapSize →
      MegablocksExact s ∧ (∀ i, i < h.dataStart → bitAt s.blockBitmap i = true) ∧
        ∃ i, i < h.totalBlocks ∧ bitAt s.blockBitmap i = false) →
    ∃ block s', TakesFirstFree exits s block s'

theorem MkfsLayout.metadataBlocks_eq (l : MkfsLayout) : l.metadataBlocks = l.dataStart := by
  unfold MkfsLayout.metadataBlocks MkfsLayout.dataStart MkfsLayout.inodeTableStart
    MkfsLayout.inodeBitmapStart MkfsLayout.megablockBitmapStart MkfsLayout.blockBitmapStart u32
  omega

/-- `DIV_CEIL` by eight does not wrap around below the last seven numbers. -/
theorem divCeil32_eight {n : Nat} (hn : n ≤ 2 ^ 32 - 8) : divCeil32 n 8 = (n + 7) / 8 := by
  unfold divCeil32
  rw [u32_of_lt (by omega)]
  rfl

theorem blockBitmap_covers {total : Nat} (hpos : 0 < blockSize) (htotal : total ≤ 2 ^ 32 - 8) :
    total ≤ 8 * (u32 (divCeil (divCeil32 total 8) blockSize) * blockSize) := by
  have hcover := le_divCeil_mul (divCeil32 total 8) hpos
  have hle := divCeil_le (divCeil32 total 8) hpos
  rw [divCeil32_eight htotal] at hcover hle ⊢
  rw [u32_of_lt (by omega)]
  omega

theorem megablockBitmap_covers {total : Nat} (hpos : 0 < blockSize) (htotal : total ≤ 2 ^ 32 - 8) :
    divCeil total (8 * blockSize) ≤ divCeil32 (u32 (divCeil total (blockSize * 8))) 8 * 8 ∧
      divCeil32 (u32 (divCeil total (blockSize * 8))) 8 * 8 < 2 ^ 32 := by
  have hle := divCeil_le total (show 0 < blockSize * 8 by omega)
  rw [Nat.mul_comm 8, u32_of_lt (by omega), divCeil32_eight (by omega)]
  omega

/-- The last seven numbers of blocks apart, the bitmaps cover the volume. -/
theorem mkfsHeader_covered (haccepts : MkfsAccepts blockSize offset imageSize)
    (htotal : (mkfsHeader blockSize offset imageSize).totalBlocks ≤ 2 ^ 32 - 8) :
    (mkfsHeader blockSize offset imageSize).Covered := by
  obtain ⟨hleast, hmost, -, -⟩ := haccepts
  have hpos : 0 < blockSize := by omega
  exact ⟨hpos, show blockSize * 8 < 2 ^ 32 by omega, u32_lt _, blockBitmap_covers hpos htotal,
    (megablockBitmap_covers hpos htotal).1, (megablockBitmap_covers hpos htotal).2⟩

/-- A volume with a block behind its metadata counts free blocks. -/
theorem mkfsHeader_freeBlocks (hdata : (mkfsHeader blockSize offset imageSize).dataStart <
      (mkfsHeader blockSize offset imageSize).totalBlocks) :
    (mkfsHeader blockSize offset imageSize).freeBlocks ≠ 0 := by
  have htotal : (mkfsHeader blockSize offset imageSize).totalBlocks < 2 ^ 32 := u32_lt _
  have hfree : (mkfsHeader blockSize offset imageSize).freeBlocks =
      u32 ((mkfsHeader blockSize offset imageSize).totalBlocks + 2 ^ 32 -
        (mkfsHeader blockSize offset imageSize).dataStart) :=
    congrArg (fun n => u32 ((mkfsHeader blockSize offset imageSize).totalBlocks + 2 ^ 32 - n))
      (MkfsLayout.metadataBlocks_eq _)
  rw [hfree]
  unfold u32
  omega

theorem takesFirstFree_takeBlock {exits : Bool} {s : PopulateState} {block : Nat}
    (hcovered : s.header.Covered) (hexact : MegablocksExact s)
    (hfirst : IsFirstClear s.blockBitmap s.header.totalBlocks block)
    (hdata : s.header.dataStart ≤ block) (hfree : s.header.freeBlocks ≠ 0)
    (hwidth : s.header.freeBlocks < 2 ^ 32) : TakesFirstFree exits s block (s.takeBlock block) where
  call := bsfsAllocBlock_firstClear hcovered hexact hfirst hdata hfree
  first := by
    refine ⟨hfirst.clear, fun i hclear => ?_⟩
    by_contra hlt
    have hset := hfirst.below i (Nat.lt_of_not_le hlt)
    exact Bool.false_ne_true (hclear.symm.trans hset)
  dataStart_le := hdata
  lt_totalBlocks := hfirst.lt
  blockBits i := by rw [takeBlock_blockBitmap, bitAt_bitmapSet]
  header := by
    have hcount : u32 (s.header.freeBlocks + 2 ^ 32 - 1) = s.header.freeBlocks - 1 := by
      unfold u32
      omega
    rw [takeBlock_header, hcount]
    rfl
  exact := hexact.takeBlock hcovered.blockSize block
  image := takeBlock_image s block
  inodeBitmap := takeBlock_inodeBitmap s block
  inodeTable := takeBlock_inodeTable s block
  panics := takeBlock_panics s block

theorem firstFit_of_covered (exits : Bool) {h : BsfsHeader} (hcovered : h.Covered) :
    FirstFit exits h := by
  intro s hheader hcount hwidth hbits
  have hdata : s.header.dataStart = h.dataStart := by rw [hheader, recount_dataStart]
  have htotal : s.header.totalBlocks = h.totalBlocks := by rw [hheader, recount_totalBlocks]
  have hcovered' : s.header.Covered := by
    rw [hheader]
    obtain ⟨h1, h2, h3, h4, h5, h6⟩ := hcovered
    exact ⟨h1, h2, h3, h4, h5, h6⟩
  obtain ⟨hexact, hmetadata, hfree⟩ := hbits (htotal ▸ hcovered'.blockBitmap)
  rcases full_or_firstClear s.blockBitmap s.header.totalBlocks with hfull | ⟨block, hfirst⟩
  · obtain ⟨i, hi, hclear⟩ := hfree
    rw [hfull i (htotal ▸ hi)] at hclear
    exact absurd hclear Bool.noConfusion
  · have hstart : h.dataStart ≤ block := by
      by_contra hlt
      have hset := hmetadata block (Nat.lt_of_not_le hlt)
      exact Bool.false_ne_true (hfirst.clear.symm.trans hset)
    exact ⟨block, _, takesFirstFree_takeBlock hcovered' hexact hfirst (hdata ▸ hstart) hcount hwidth⟩

/-! ### The last numbers of blocks -/

/-- A volume with header `h` and nothing in its bitmaps. -/
def clearVolume (h : BsfsHeader) : PopulateState where
  image := ⟨0, fun _ => 0⟩
  position := 0
  header := h
  blockBitmap := fun _ => 0
  megablockBitmap := fun _ => 0
  inodeBitmap := fun _ => 0
  inodeTable := fun _ => .zero
  panics := []

theorem bitAt_full (i : Nat) : bitAt (fun _ => 0xFF) i = true := by
  have hbit : i % 8 < 8 := Nat.mod_lt i (by omega)
  have hbyte : (0xFF : UInt8).toNat = 2 ^ 8 - 1 := rfl
  unfold bitAt
  rw [hbyte, Nat.testBit_two_pow_sub_one, decide_eq_true_eq]
  exact hbit

theorem mkfsHeader_dataStart_lt (haccepts : MkfsAccepts blockSize offset imageSize) :
    (mkfsHeader blockSize offset imageSize).dataStart < 2 ^ 25 := by
  obtain ⟨hleast, -, hoffset, -⟩ := haccepts
  have hregion (n : Nat) (hn : n < 2 ^ 32) : u32 (divCeil n blockSize) ≤ 2 ^ 22 := by
    have hle : divCeil n blockSize ≤ 2 ^ 22 := divCeil_le_of_blockSize hleast (by omega)
    rwa [u32_of_lt (by omega)]
  have hceil (n : Nat) : divCeil32 n 8 < 2 ^ 32 := by
    have hlt := u32_lt (n + 8 - 1)
    unfold divCeil32
    omega
  have hblock : (mkfsLayout blockSize offset imageSize).blockBitmapBlocks ≤ 2 ^ 22 :=
    hregion _ (hceil _)
  have hmega : (mkfsLayout blockSize offset imageSize).megablockBitmapBlocks ≤ 2 ^ 22 :=
    hregion _ (hceil _)
  have hinode : (mkfsLayout blockSize offset imageSize).inodeBitmapBlocks ≤ 2 ^ 22 :=
    hregion _ (hceil _)
  have htable : (mkfsLayout blockSize offset imageSize).inodeTableBlocks ≤ 2 ^ 22 :=
    hregion _ (u32_lt _)
  have hreserved : (mkfsLayout blockSize offset imageSize).reservedBlocks ≤ 1025 := by
    show u32 (offset + 1) ≤ 1025
    rw [u32_of_lt (by omega)]
    omega
  show (mkfsLayout blockSize offset imageSize).dataStart < 2 ^ 25
  generalize mkfsLayout blockSize offset imageSize = l at *
  rw [← MkfsLayout.metadataBlocks_eq]
  unfold MkfsLayout.metadataBlocks
  rw [u32_of_lt (by omega)]
  omega

/-- A volume with one of the last numbers of blocks has no block bitmap. -/
theorem mkfsHeader_noBitmap (hpos : 0 < blockSize)
    (htotal : 2 ^ 32 - 8 < (mkfsHeader blockSize offset imageSize).totalBlocks) :
    (mkfsHeader blockSize offset imageSize).blockBitmapBlocks = 0 := by
  have hlt := u32_lt (imageSize / blockSize)
  change 2 ^ 32 - 8 < u32 (imageSize / blockSize) at htotal
  show u32 (divCeil (divCeil32 (u32 (imageSize / blockSize)) 8) blockSize) = 0
  have hbytes : divCeil32 (u32 (imageSize / blockSize)) 8 = 0 := by
    generalize u32 (imageSize / blockSize) = total at *
    unfold divCeil32 u32
    omega
  have hblocks : divCeil 0 blockSize = 0 := Nat.div_eq_of_lt (by omega)
  rw [hbytes, hblocks, u32_of_lt (by omega)]

/-- The search reads a whole slice of the block bitmap. -/
theorem bsfsAllocBlock_defined {exits : Bool} {s s' : PopulateState} {block : Nat}
    (hcall : bsfsAllocBlock exits s = .ok block s') : s.header.blockSize ≤ s.blockBitmapSize := by
  unfold bsfsAllocBlock at hcall
  rw [get_bind] at hcall
  obtain ⟨_, _, -, hcall⟩ := bind_eq_ok.mp hcall
  have hinside := (undefinedIf_bind.mp hcall).1
  omega

theorem not_firstFit_of_noBitmap (exits : Bool) {h : BsfsHeader} (hpos : 0 < h.blockSize)
    (hblocks : h.blockBitmapBlocks = 0) (hfree : h.freeBlocks ≠ 0) (hwidth : h.freeBlocks < 2 ^ 32)
    (htotal : 0 < h.totalBlocks) : ¬ FirstFit exits h := by
  intro hfit
  have hsize : (clearVolume h).blockBitmapSize = 0 :=
    (congrArg (· * h.blockSize) hblocks).trans (Nat.zero_mul _)
  obtain ⟨block, s', htakes⟩ := hfit (clearVolume h) rfl hfree hwidth fun hcovers => by omega
  have hdefined : h.blockSize ≤ (clearVolume h).blockBitmapSize := bsfsAllocBlock_defined htakes.call
  omega

/-- `bsfs_alloc_block` is a first fit on every volume but those with one of the last seven numbers of
blocks. -/
theorem firstFit_iff (exits : Bool) (haccepts : MkfsAccepts blockSize offset imageSize) :
    FirstFit exits (mkfsHeader blockSize offset imageSize) ↔
      (mkfsHeader blockSize offset imageSize).totalBlocks ≤ 2 ^ 32 - 8 := by
  constructor
  · intro hfit
    by_contra htotal
    have hpos : 0 < blockSize := Nat.lt_of_lt_of_le (by decide) haccepts.least
    have hdata := mkfsHeader_dataStart_lt haccepts
    exact not_firstFit_of_noBitmap exits hpos (mkfsHeader_noBitmap hpos (by omega))
      (mkfsHeader_freeBlocks (by omega)) (u32_lt _) (by omega) hfit
  · intro htotal
    exact firstFit_of_covered exits (mkfsHeader_covered haccepts htotal)

/-- A volume of 40 MiB. -/
theorem firstFit_iff_small : MkfsAccepts 4096 0 41943040 ∧
    (FirstFit true (mkfsHeader 4096 0 41943040) ↔
      (mkfsHeader 4096 0 41943040).totalBlocks ≤ 2 ^ 32 - 8) :=
  have haccepts : MkfsAccepts 4096 0 41943040 := ⟨by decide, by decide, by decide, by decide⟩
  ⟨haccepts, firstFit_iff true haccepts⟩

/-- An image of 2³² - 7 blocks of 1024 bytes. -/
theorem not_firstFit_lastBlocks : MkfsAccepts 1024 0 4398046503936 ∧
    (mkfsHeader 1024 0 4398046503936).totalBlocks = 2 ^ 32 - 7 ∧
    (mkfsHeader 1024 0 4398046503936).blockBitmapBlocks = 0 ∧
    (mkfsHeader 1024 0 4398046503936).freeBlocks ≠ 0 ∧
    ¬ FirstFit false (mkfsHeader 1024 0 4398046503936) := by
  have haccepts : MkfsAccepts 1024 0 4398046503936 := ⟨by decide, by decide, by decide, by decide⟩
  have htotal : (mkfsHeader 1024 0 4398046503936).totalBlocks = 2 ^ 32 - 7 := by
    show u32 (4398046503936 / 1024) = 2 ^ 32 - 7
    exact u32_of_lt (by decide)
  have hblocks : (mkfsHeader 1024 0 4398046503936).blockBitmapBlocks = 0 :=
    mkfsHeader_noBitmap (by decide) (by rw [htotal]; decide)
  have hdata := mkfsHeader_dataStart_lt haccepts
  have hfree : (mkfsHeader 1024 0 4398046503936).freeBlocks ≠ 0 := mkfsHeader_freeBlocks (by omega)
  refine ⟨haccepts, htotal, hblocks, hfree,
    not_firstFit_of_noBitmap false (by decide) hblocks hfree (u32_lt _) ?_⟩
  omega

end Mkfs

end Pristine.Bsfs
