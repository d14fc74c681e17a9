import Pristine.Bsfs.Layout
import Pristine.Bsfs.PopulateMain

/-!
# Buffers of the metadata

`main` of `bsfs-populate` allocates its bitmaps and its inode table by some fields of the header and
writes them back in whole blocks by others, and `bsfs_bitmap_find` loads whole words.
`metadataSound_iff` says for which volumes all of this stays inside the buffers, so that every byte
of the metadata on the image comes from a bitmap or an inode.
-/

namespace Pristine.Bsfs

open Lib Kernel

/-! ## What a search loads -/

/-- The words that the loop of `bsfs_bitmap_find` loads, by their offset in bytes. -/
def bitmapFindWordLoads (bitmap : ByteMem) (i : Nat) : Nat → List Nat
  | 0 => []
  | left + 1 =>
    8 * i :: if loadLE bitmap (8 * i) 8 ≠ uint64Max then [] else
      bitmapFindWordLoads bitmap (i + 1) left

/-- The words that `bsfs_bitmap_find` loads. -/
def bitmapFindLoads (bitmap : ByteMem) (bitCount : Nat) : List Nat :=
  bitmapFindWordLoads bitmap 0 (bitCount / 64) ++
    -- the partial word behind the loop
    if bitmapFindWords bitmap 0 (bitCount / 64) = none ∧ bitCount % 64 ≠ 0 then
      [8 * (bitCount / 64)]
    else []

section Loads

variable {bitmap : ByteMem} {i left a n k : Nat}

theorem bitmapFindWordLoads_inside (ha : a ∈ bitmapFindWordLoads bitmap i left) :
    ∃ k, a = 8 * k ∧ k < i + left := by
  induction left generalizing i with
  | zero => simp [bitmapFindWordLoads] at ha
  | succ left ih =>
    simp only [bitmapFindWordLoads, List.mem_cons] at ha
    rcases ha with rfl | ha
    · exact ⟨i, rfl, by omega⟩
    · split at ha
      · simp at ha
      · obtain ⟨k, rfl, hk⟩ := ih ha
        exact ⟨k, rfl, by omega⟩

theorem mem_bitmapFindWordLoads (hlo : i ≤ k) (hhi : k < i + left)
    (hfull : ∀ j, j < 64 * k → bitAt bitmap j = true) :
    8 * k ∈ bitmapFindWordLoads bitmap i left := by
  induction left generalizing i with
  | zero => omega
  | succ left ih =>
    simp only [bitmapFindWordLoads, List.mem_cons]
    rcases Nat.eq_or_lt_of_le hlo with rfl | hlt
    · exact Or.inl rfl
    · have hword : loadLE bitmap (8 * i) 8 = uint64Max := by
        apply (word_eq_max_iff (word64_lt bitmap i)).mpr
        intro j hj
        rw [testBit_word64 bitmap i j hj]
        exact hfull _ (by omega)
      rw [if_neg (not_not_intro hword)]
      exact Or.inr (ih hlt (by omega))

/-- A load begins before the end of the bitmap. -/
theorem bitmapFindLoads_inside (ha : a ∈ bitmapFindLoads bitmap n) : a % 8 = 0 ∧ 8 * a < n := by
  simp only [bitmapFindLoads, List.mem_append] at ha
  rcases ha with ha | ha
  · obtain ⟨k, rfl, hk⟩ := bitmapFindWordLoads_inside ha
    omega
  · split at ha
    · rename_i htail
      rw [List.mem_singleton] at ha
      omega
    · simp at ha

/-- A search loads every word up to the first with a clear bit. -/
theorem mem_bitmapFindLoads (hk : 64 * k < n) (hfull : ∀ j, j < 64 * k → bitAt bitmap j = true) :
    8 * k ∈ bitmapFindLoads bitmap n := by
  simp only [bitmapFindLoads, List.mem_append]
  by_cases hword : k < n / 64
  · exact Or.inl (mem_bitmapFindWordLoads (Nat.zero_le k) (by omega) hfull)
  · right
    have hlast : k = n / 64 := by omega
    have hnone : bitmapFindWords bitmap 0 (n / 64) = none :=
      bitmapFindWords_full 0 _ fun j _ hj => hfull j (by omega)
    rw [if_pos ⟨hnone, by omega⟩, hlast]
    exact List.mem_singleton_self _

/-- Every number of leading bits can be set. -/
theorem exists_bits_below (k : Nat) : ∃ bitmap, ∀ j, bitAt bitmap j = decide (j < k) := by
  induction k with
  | zero => exact ⟨fun _ => 0, fun j => by simp [bitAt]⟩
  | succ k ih =>
    obtain ⟨bitmap, hbits⟩ := ih
    refine ⟨orBit bitmap k, fun j => ?_⟩
    rw [bitAt_orBit, hbits, ← Bool.decide_or]
    exact decide_eq_decide.mpr (by omega)

end Loads

/-! ## Inside the buffers -/

/-- Where the search of `bsfs_alloc_block` for a free block begins in the block bitmap. -/
def searchSlice (h : BsfsHeader) (megablocks : ByteMem) : Nat :=
  u32 (bitmapFind megablocks (u32 (h.megablockBitmapSize * 8)) * h.blockSize)

/-- What `main` writes back, and what the searches load whatever the bitmaps hold, lies inside the
buffers that `main` allocates. -/
structure MetadataInside (h : BsfsHeader) : Prop where
  blockBitmap : u32 (h.blockBitmapBlocks * h.blockSize) ≤ h.blockBitmapBlocks * h.blockSize
  megablockBitmap : u32 (h.megablockBitmapBlocks * h.blockSize) ≤ h.megablockBitmapSize
  inodeBitmap : u32 (h.inodeBitmapBlocks * h.blockSize) ≤ h.inodeBitmapBlocks * h.blockSize
  inodeTable : u32 (h.inodeTableBlocks * h.blockSize) ≤ h.inodeCount * sizeofBsfsInode
  megablockLoads : ∀ megablocks a,
    a ∈ bitmapFindLoads megablocks (u32 (h.megablockBitmapSize * 8)) → a + 8 ≤ h.megablockBitmapSize
  /-- without a free megablock `bsfs_alloc_block` panics before this search -/
  blockLoads : ∀ megablocks blocks : ByteMem,
    bitmapFind megablocks (u32 (h.megablockBitmapSize * 8)) ≠ uint32Max → ∀ a,
      a ∈ bitmapFindLoads (fun i => blocks (searchSlice h megablocks + i)) (u32 (h.blockSize * 8)) →
      searchSlice h megablocks + a + 8 ≤ h.blockBitmapBlocks * h.blockSize
  inodeLoads : ∀ inodes a,
    a ∈ bitmapFindLoads inodes h.inodeCount → a + 8 ≤ h.inodeBitmapBlocks * h.blockSize

/-- An image without a block, or one whose megablock bitmap has a byte for every eight megablocks
and fills whole blocks, as the inode table does unless its size wraps around; the table with the rest
of its last block is smaller than 4 GiB, and words do not straddle blocks. -/
def BuffersFit (blockSize imageSize : Nat) : Prop :=
  imageSize / blockSize % 2 ^ 32 = 0 ∨
    (imageSize / blockSize % 2 ^ 32 + 7 < 2 ^ 32 ∧ 8 ∣ blockSize ∧
      8 * blockSize ∣ divCeil (imageSize / blockSize % 2 ^ 32) (8 * blockSize) ∧
      (blockSize ∣ imageSize / blockSize % 2 ^ 32 / 4 * sizeofBsfsInode ∨
        2 ^ 32 ≤ imageSize / blockSize % 2 ^ 32 / 4 * sizeofBsfsInode) ∧
      divCeil (imageSize / blockSize % 2 ^ 32 / 4 * sizeofBsfsInode % 2 ^ 32) blockSize * blockSize <
        2 ^ 32)

instance (blockSize imageSize : Nat) : Decidable (BuffersFit blockSize imageSize) :=
  inferInstanceAs (Decidable (_ ∨ _))

theorem u32_le (n : Nat) : u32 n ≤ n := by
  unfold u32
  exact Nat.mod_le _ _

section Inside

variable {h : BsfsHeader} {blockSize offset imageSize total : Nat}

section Loads

variable (hwidth : 8 * h.megablockBitmapSize * h.blockSize < 2 ^ 32) (hpos : 0 < h.blockSize)

include hwidth hpos

/-- The megablock search returns any megablock that has a bit. -/
theorem exists_search {k : Nat} (hk : k < 8 * h.megablockBitmapSize) :
    ∃ megablocks, bitmapFind megablocks (u32 (h.megablockBitmapSize * 8)) ≠ uint32Max ∧
      searchSlice h megablocks = k * h.blockSize := by
  obtain ⟨megablocks, hbits⟩ := exists_bits_below k
  have hbitCount : 8 * h.megablockBitmapSize < 2 ^ 32 :=
    Nat.lt_of_le_of_lt (Nat.le_mul_of_pos_right _ hpos) hwidth
  have hfind : bitmapFind megablocks (u32 (h.megablockBitmapSize * 8)) = k := by
    rw [u32_of_lt (by omega)]
    refine bitmapFind_of_firstClear (by omega) ⟨by omega, ?_, fun j hj => ?_⟩
    · rw [hbits, decide_eq_false (Nat.lt_irrefl k)]
    · rw [hbits, decide_eq_true hj]
  have hslice : k * h.blockSize < 2 ^ 32 :=
    Nat.lt_of_le_of_lt (Nat.mul_le_mul_right _ (Nat.le_of_lt hk)) hwidth
  refine ⟨megablocks, ?_, ?_⟩
  · rw [hfind]
    unfold uint32Max
    omega
  · unfold searchSlice
    rw [hfind, u32_of_lt hslice]

/-- What the megablock search can return. -/
theorem searchSlice_eq {megablocks : ByteMem}
    (hfound : bitmapFind megablocks (u32 (h.megablockBitmapSize * 8)) ≠ uint32Max) :
    ∃ k, k < 8 * h.megablockBitmapSize ∧ searchSlice h megablocks = k * h.blockSize := by
  have hbitCount : 8 * h.megablockBitmapSize < 2 ^ 32 :=
    Nat.lt_of_le_of_lt (Nat.le_mul_of_pos_right _ hpos) hwidth
  rcases bitmapFind_cases megablocks (u32_lt (h.megablockBitmapSize * 8)) with hfull | hfirst
  · exact absurd hfull.1 hfound
  · have hlt := hfirst.2.lt
    unfold searchSlice
    rw [u32_of_lt (show h.megablockBitmapSize * 8 < 2 ^ 32 by omega)] at *
    generalize bitmapFind megablocks (h.megablockBitmapSize * 8) = k at *
    have hk : k < 8 * h.megablockBitmapSize := by omega
    refine ⟨k, hk, u32_of_lt ?_⟩
    exact Nat.lt_of_le_of_lt (Nat.mul_le_mul_right _ (Nat.le_of_lt hk)) hwidth

/-- With a slice for every bit of the megablock bitmap and words that do not straddle slices, the
block search stays inside.  Without, it does not. -/
theorem blockLoads_inside_iff (hmost : h.blockSize ≤ 16384) (hmega : 0 < h.blockBitmapBlocks)
    (hcover : h.blockBitmapBlocks ≤ 8 * h.megablockBitmapSize) :
    (∀ megablocks blocks : ByteMem,
      bitmapFind megablocks (u32 (h.megablockBitmapSize * 8)) ≠ uint32Max → ∀ a,
        a ∈ bitmapFindLoads (fun i => blocks (searchSlice h megablocks + i)) (u32 (h.blockSize * 8)) →
        searchSlice h megablocks + a + 8 ≤ h.blockBitmapBlocks * h.blockSize) ↔
      8 ∣ h.blockSize ∧ 8 * h.megablockBitmapSize = h.blockBitmapBlocks := by
  have hbits : u32 (h.blockSize * 8) = h.blockSize * 8 := u32_of_lt (by omega)
  constructor
  · intro hinside
    -- all blocks in use: the search runs to the end of its slice
    have hlast (k : Nat) (hk : k < 8 * h.megablockBitmapSize) :
        k * h.blockSize + 8 * ((h.blockSize * 8 - 1) / 64) + 8 ≤
          h.blockBitmapBlocks * h.blockSize := by
      obtain ⟨megablocks, hfound, hslice⟩ := exists_search hwidth hpos hk
      have hload := hinside megablocks (fun _ => 0xFF) hfound (8 * ((h.blockSize * 8 - 1) / 64)) (by
        rw [hbits]
        exact mem_bitmapFindLoads (by omega) fun j _ => bitAt_full j)
      rwa [hslice] at hload
    have hspare : 8 * h.megablockBitmapSize ≤ h.blockBitmapBlocks := by
      by_contra hmore
      have hload := hlast h.blockBitmapBlocks (by omega)
      omega
    have hend := hlast (h.blockBitmapBlocks - 1) (by omega)
    obtain ⟨before, hbefore⟩ := Nat.exists_eq_add_of_lt hmega
    rw [show h.blockBitmapBlocks = before + 1 by omega, Nat.add_sub_cancel, Nat.add_mul] at hend
    exact ⟨by omega, by omega⟩
  · rintro ⟨⟨words, hwords⟩, hexact⟩ megablocks blocks hfound a ha
    obtain ⟨k, hk, hslice⟩ := searchSlice_eq hwidth hpos hfound
    rw [hbits] at ha
    obtain ⟨haligned, hlt⟩ := bitmapFindLoads_inside ha
    have hnext : (k + 1) * h.blockSize ≤ h.blockBitmapBlocks * h.blockSize :=
      Nat.mul_le_mul_right _ (by omega)
    rw [Nat.add_mul] at hnext
    rw [hslice]
    omega

end Loads

/-- The sizes of the megablock bitmap and of the block bitmap. -/
theorem HeaderRegions.megablocks (hr : HeaderRegions h blockSize offset total)
    (hleast : 1024 ≤ blockSize) (hmost : blockSize ≤ 16384) (htotal : total < 2 ^ 32) :
    8 * h.megablockBitmapSize * h.blockSize < 2 ^ 30 ∧
      h.blockBitmapBlocks ≤ 8 * h.megablockBitmapSize ∧
      8 * h.megablockBitmapSize < h.blockBitmapBlocks + 8 := by
  have hslices := divCeil_mul_lt total (show 0 < 8 * blockSize by omega)
  have hcover := le_divCeil_mul (divCeil total (8 * blockSize)) (show 0 < 8 by decide)
  have hbytes := divCeil_mul_lt (divCeil total (8 * blockSize)) (show 0 < 8 by decide)
  rw [hr.megablockBitmapSize, hr.blockBitmapBlocks, hr.blockSize]
  generalize divCeil total (8 * blockSize) = slices at *
  generalize divCeil slices 8 = size at *
  refine ⟨?_, by omega, by omega⟩
  have hbound : 8 * size * blockSize ≤ (slices + 7) * blockSize :=
    Nat.mul_le_mul_right _ (by omega)
  rw [Nat.add_mul] at hbound
  rw [Nat.mul_left_comm] at hslices
  omega

/-- The write-back and the searches stay inside exactly if the sizes are right. -/
theorem metadataInside_iff (hr : HeaderRegions h blockSize offset total)
    (hleast : 1024 ≤ blockSize) (hmost : blockSize ≤ 16384) (htotal : total < 2 ^ 32)
    (hblocks : 0 < total) :
    MetadataInside h ↔ 8 ∣ blockSize ∧ 8 * blockSize ∣ divCeil total (8 * blockSize) ∧
      u32 (h.inodeTableBlocks * blockSize) ≤ total / 4 * sizeofBsfsInode := by
  obtain ⟨hwidth, hcover, hspare⟩ := hr.megablocks hleast hmost htotal
  have hbs := hr.blockSize
  have hpos : 0 < blockSize := by omega
  have hmega : 0 < h.blockBitmapBlocks := by
    rw [hr.blockBitmapBlocks]
    exact Nat.zero_lt_of_lt (div_lt_divCeil (by omega) hblocks)
  have hloads := blockLoads_inside_iff (h := h) (by omega) (by omega) (by omega) hmega hcover
  have hround := divCeil_mul_lt h.megablockBitmapSize hpos
  have hupper := le_divCeil_mul h.megablockBitmapSize hpos
  have hsize : 8 * h.megablockBitmapSize < 2 ^ 30 :=
    Nat.lt_of_le_of_lt (Nat.le_mul_of_pos_right _ (by omega)) hwidth
  have hmegaBlocks : u32 (h.megablockBitmapBlocks * h.blockSize) =
      divCeil h.megablockBitmapSize blockSize * blockSize := by
    rw [hr.megablockBitmapBlocks, ← hr.megablockBitmapSize, hbs]
    exact u32_of_lt (by omega)
  rw [← hr.blockBitmapBlocks]
  constructor
  · intro hinside
    obtain ⟨height, hexact⟩ := hloads.mp hinside.blockLoads
    have hwhole := hinside.megablockBitmap
    have htable := hinside.inodeTable
    rw [hmegaBlocks] at hwhole
    rw [hr.inodeCount, hbs] at htable
    refine ⟨hbs ▸ height, ?_, htable⟩
    rw [← hexact]
    exact Nat.mul_dvd_mul_left 8 ⟨divCeil h.megablockBitmapSize blockSize, by
      rw [Nat.mul_comm blockSize]
      omega⟩
  · rintro ⟨height, hwhole, htable⟩
    obtain ⟨words, hwords⟩ := height
    obtain ⟨count, hcount⟩ := hwhole
    have hmegaSize : h.megablockBitmapSize = count * blockSize := by
      rw [Nat.mul_assoc, Nat.mul_comm blockSize] at hcount
      omega
    have hrounded : divCeil h.megablockBitmapSize blockSize * blockSize = h.megablockBitmapSize := by
      have hle : divCeil h.megablockBitmapSize blockSize ≤ count :=
        (divCeil_le_iff hpos).mpr (by omega)
      have hmul := Nat.mul_le_mul_right blockSize hle
      omega
    refine ⟨u32_le _, by omega, u32_le _, ?_, ?_, ?_, ?_⟩
    · rw [hr.inodeCount, hbs]
      exact htable
    · intro megablocks a ha
      rw [u32_of_lt (by omega)] at ha
      obtain ⟨haligned, hlt⟩ := bitmapFindLoads_inside ha
      have hwhole : h.megablockBitmapSize = 8 * (count * words) := by
        rw [hmegaSize, hwords, Nat.mul_left_comm]
      omega
    · refine hloads.mpr ⟨hbs ▸ ⟨words, hwords⟩, ?_⟩
      rw [Nat.mul_assoc, Nat.mul_comm blockSize] at hcount
      omega
    · intro inodes a ha
      obtain ⟨haligned, hlt⟩ := bitmapFindLoads_inside ha
      have hbits := le_bitmapBits hpos (total / 4)
      have hwhole : divCeil (total / 4) (8 * blockSize) * blockSize =
          8 * (divCeil (total / 4) (8 * blockSize) * words) := by
        rw [hwords, Nat.mul_left_comm]
      rw [hr.inodeCount] at hlt
      rw [hr.inodeBitmapBlocks, hbs]
      omega

end Inside

/-! ## The metadata on the image -/

/-- The first block and the number of blocks of each region. -/
def BsfsHeader.regions (h : BsfsHeader) : List (Nat × Nat) :=
  [(h.blockBitmapStart, h.blockBitmapBlocks), (h.megablockBitmapStart, h.megablockBitmapBlocks),
    (h.inodeBitmapStart, h.inodeBitmapBlocks), (h.inodeTableStart, h.inodeTableBlocks)]

/-- A byte of the metadata on the image. -/
def InMetadata (h : BsfsHeader) (a : Nat) : Prop :=
  ∃ r ∈ h.regions, r.1 * h.blockSize ≤ a ∧ a < (r.1 + r.2) * h.blockSize

/-- The buffers hold the same bitmaps and inodes. -/
structure SameMetadata (s t : PopulateState) : Prop where
  header : t.header = s.header
  blockBitmap : ∀ a, a < s.blockBitmapSize → t.blockBitmap a = s.blockBitmap a
  megablockBitmap : ∀ a, a < s.header.megablockBitmapSize → t.megablockBitmap a = s.megablockBitmap a
  inodeBitmap : ∀ a, a < s.header.inodeBitmapBlocks * s.header.blockSize →
    t.inodeBitmap a = s.inodeBitmap a
  inodeTable : ∀ i, i < s.header.inodeCount → t.inodeTable i = s.inodeTable i

/-- The image after the write-back. -/
def writtenBack (args : PopulateArgs) (heap : PopulateHeap) (other : List UInt8 × List UInt8)
    (s : PopulateState) : HostFile :=
  match writeBack args heap other s with
  | .ok _ t => t.image
  | .error _ t => t.image

/-- Every byte of the metadata on the image depends on the bitmaps and the inodes only. -/
def MetadataDetermined (h : BsfsHeader) (offset : Nat) : Prop :=
  ∀ (args : PopulateArgs) (heap heap' : PopulateHeap) (original original' : HostFile)
    (s t : PopulateState), args.blockSize = h.blockSize → args.offset = offset →
    s.header = { h.recount s.header.freeBlocks s.header.freeInodes with
      rootInode := s.header.rootInode } →
    SameMetadata s t → ∀ a, InMetadata h a →
      (writtenBack args heap (headerOther args original) s).bytes a =
        (writtenBack args heap' (headerOther args original') t).bytes a

section Written

variable {args : PopulateArgs} {heap : PopulateHeap} {other : List UInt8 × List UInt8}
variable {s : PopulateState}

theorem seekImage_of_lt {offset : Nat} (hlt : offset < 2 ^ 63) :
    seekImage offset s = .ok () { s with position := offset } := by
  unfold seekImage
  rw [modify_eq_ok, if_pos hlt]

theorem writeImage_eq (data : List UInt8) : writeImage data s = .ok () { s with
    image := s.image.write s.position data
    position := s.position + data.length } :=
  rfl

theorem populateOffset_lt (h : BsfsHeader) (block : Nat) : populateOffset h block < 2 ^ 63 :=
  Nat.lt_trans (u32_lt _) (by decide)

/-- The image of `s` with a region written. -/
def regionWritten (h : BsfsHeader) (image : HostFile) (start blocks : Nat) (bytes : ByteMem) :
    HostFile :=
  image.write (populateOffset h start) (bytesAt bytes 0 (u32 (blocks * h.blockSize)))

theorem writeRegion_eq (start blocks : Nat) (bytes : ByteMem) :
    ∃ position, writeRegion start blocks bytes s = .ok () { s with
      image := regionWritten s.header s.image start blocks bytes
      position := position } := by
  unfold writeRegion
  rw [get_bind, bind_of_ok (seekImage_of_lt (populateOffset_lt _ _))]
  exact ⟨_, rfl⟩

variable (args heap other s)

/-- The image with the four regions and then the header written. -/
def backImage : HostFile :=
  (regionWritten s.header (regionWritten s.header (regionWritten s.header
    (regionWritten s.header s.image s.header.blockBitmapStart s.header.blockBitmapBlocks
      s.blockBitmap)
    s.header.megablockBitmapStart s.header.megablockBitmapBlocks s.megablockBitmap)
    s.header.inodeBitmapStart s.header.inodeBitmapBlocks s.inodeBitmap)
    s.header.inodeTableStart s.header.inodeTableBlocks
      (tableBytes s.inodeTable s.header.inodeCount heap)).write args.headerIdx
    (headerBytes s.header other.1 other.2)

/-- The write-back writes the four regions and then the header. -/
theorem writeBack_eq : ∃ position, writeBack args heap other s = .ok () { s with
    image := backImage args heap other s
    position := position } := by
  have hplace : args.headerIdx < 2 ^ 63 := Nat.lt_trans (u32_lt _) (by decide)
  obtain ⟨_, hblock⟩ := writeRegion_eq (s := s) s.header.blockBitmapStart
    s.header.blockBitmapBlocks s.blockBitmap
  unfold writeBack
  rw [get_bind, bind_of_ok hblock]
  obtain ⟨_, hmega⟩ := writeRegion_eq s.header.megablockBitmapStart
    s.header.megablockBitmapBlocks s.megablockBitmap
  rw [bind_of_ok hmega]
  obtain ⟨_, hinode⟩ := writeRegion_eq s.header.inodeBitmapStart
    s.header.inodeBitmapBlocks s.inodeBitmap
  rw [bind_of_ok hinode]
  obtain ⟨_, htable⟩ := writeRegion_eq s.header.inodeTableStart
    s.header.inodeTableBlocks (tableBytes s.inodeTable s.header.inodeCount heap)
  rw [bind_of_ok htable, bind_of_ok (seekImage_of_lt hplace), writeImage_eq]
  exact ⟨_, rfl⟩

theorem writtenBack_eq : writtenBack args heap other s = backImage args heap other s := by
  obtain ⟨_, hback⟩ := writeBack_eq args heap other s
  unfold writtenBack
  rw [hback]

/-- The image does not become smaller. -/
theorem le_size_writtenBack : s.image.size ≤ (writtenBack args heap other s).size := by
  rw [writtenBack_eq]
  exact (HostFile.le_size_write.trans (HostFile.le_size_write.trans (HostFile.le_size_write.trans
    HostFile.le_size_write))).trans HostFile.le_size_write

end Written

section Determined

variable {h : BsfsHeader} {image : HostFile} {start blocks a k blockSize offset imageSize total : Nat}
variable {bytes : ByteMem} {value : UInt8}

theorem holds_regionWritten (hk : k < u32 (blocks * h.blockSize)) :
    (regionWritten h image start blocks bytes).Holds (populateOffset h start + k) (bytes k) := by
  have hholds : (regionWritten h image start blocks bytes).Holds _ _ :=
    HostFile.holds_write (f := image) (by rwa [length_bytesAt])
  rwa [getD_bytesAt _ _ hk, Nat.zero_add] at hholds

theorem holds_regionWritten_of_outside (hholds : image.Holds a value)
    (hout : a < populateOffset h start ∨
      populateOffset h start + u32 (blocks * h.blockSize) ≤ a) :
    (regionWritten h image start blocks bytes).Holds a value := by
  refine hholds.write ?_
  rwa [length_bytesAt]

/-- The regions follow one another on the image, the header before them. -/
structure RegionsApart (h : BsfsHeader) (offset : Nat) : Prop where
  header : u32 (offset * h.blockSize) + sizeofBsfsHeader ≤ populateOffset h h.blockBitmapStart
  blockBitmap : populateOffset h h.blockBitmapStart = h.blockBitmapStart * h.blockSize
  megablockBitmap : populateOffset h h.megablockBitmapStart = h.megablockBitmapStart * h.blockSize
  inodeBitmap : populateOffset h h.inodeBitmapStart = h.inodeBitmapStart * h.blockSize
  inodeTable : populateOffset h h.inodeTableStart = h.inodeTableStart * h.blockSize
  megablockBitmapStart : h.megablockBitmapStart = h.blockBitmapStart + h.blockBitmapBlocks
  inodeBitmapStart : h.inodeBitmapStart = h.megablockBitmapStart + h.megablockBitmapBlocks
  inodeTableStart : h.inodeTableStart = h.inodeBitmapStart + h.inodeBitmapBlocks
  small : h.inodeTableStart * h.blockSize < 2 ^ 32

/-- The regions of a formatted volume are apart. -/
theorem HeaderRegions.apart (hr : HeaderRegions h blockSize offset total) (hleast : 1024 ≤ blockSize)
    (hmost : blockSize ≤ 16384) (hoffset : offset ≤ 1024) (htotal : total < 2 ^ 32) :
    RegionsApart h offset := by
  have hpos : 0 < blockSize := by omega
  have hblock := divCeil_mul_lt total (show 0 < 8 * blockSize by omega)
  have hmega := divCeil_mul_lt (divCeil (divCeil total (8 * blockSize)) 8) hpos
  have hinode := divCeil_mul_lt (total / 4) (show 0 < 8 * blockSize by omega)
  have hsize : divCeil (divCeil total (8 * blockSize)) 8 ≤ 2 ^ 29 :=
    (divCeil_le_iff (by decide)).mpr (by have := divCeil_le total (show 0 < 8 * blockSize by omega); omega)
  have hreserved : (offset + 1) * blockSize ≤ 1025 * 16384 :=
    Nat.mul_le_mul (by omega) hmost
  rw [Nat.mul_left_comm] at hblock hinode
  rw [← hr.blockBitmapBlocks] at hblock
  rw [← hr.megablockBitmapBlocks] at hmega
  rw [← hr.inodeBitmapBlocks] at hinode
  have hbs := hr.blockSize
  have hfirst := hr.blockBitmapStart
  have hsecond := hr.megablockBitmapStart
  have hthird := hr.inodeBitmapStart
  have hfourth := hr.inodeTableStart
  have hsecond' : h.megablockBitmapStart * blockSize =
      (offset + 1) * blockSize + h.blockBitmapBlocks * blockSize := by
    rw [hsecond, hfirst, Nat.add_mul]
  have hthird' : h.inodeBitmapStart * blockSize =
      h.megablockBitmapStart * blockSize + h.megablockBitmapBlocks * blockSize := by
    rw [hthird, Nat.add_mul]
  have hfourth' : h.inodeTableStart * blockSize =
      h.inodeBitmapStart * blockSize + h.inodeBitmapBlocks * blockSize := by
    rw [hfourth, Nat.add_mul]
  have hproduct (block : Nat) (hlt : block * blockSize < 2 ^ 32) :
      populateOffset h block = block * blockSize := by
    unfold populateOffset BsfsHeader.blockOffset
    rw [hbs, Nat.mul_comm, u32_of_lt hlt]
  have hheader : (offset + 1) * blockSize = offset * blockSize + blockSize := Nat.succ_mul ..
  rw [← hfirst] at hreserved hsecond' hheader
  refine ⟨?_, ?_, ?_, ?_, ?_, hsecond, hthird, hfourth, ?_⟩
  · rw [hproduct _ (by omega), hbs, u32_of_lt (by omega)]
    unfold sizeofBsfsHeader
    omega
  all_goals rw [hbs]
  · exact hproduct _ (by omega)
  · exact hproduct _ (by omega)
  · exact hproduct _ (by omega)
  · exact hproduct _ (by omega)
  · omega

end Determined

/-- The regions with the bytes that are written to them. -/
def writeBackRegions (heap : PopulateHeap) (s : PopulateState) : List (Nat × Nat × ByteMem) :=
  [(s.header.blockBitmapStart, s.header.blockBitmapBlocks, s.blockBitmap),
    (s.header.megablockBitmapStart, s.header.megablockBitmapBlocks, s.megablockBitmap),
    (s.header.inodeBitmapStart, s.header.inodeBitmapBlocks, s.inodeBitmap),
    (s.header.inodeTableStart, s.header.inodeTableBlocks,
      tableBytes s.inodeTable s.header.inodeCount heap)]

section WrittenBack

variable {args : PopulateArgs} {heap heap' : PopulateHeap} {original original' : HostFile}
variable {s t : PopulateState} {a k : Nat} {value : UInt8}

/-- What separates the five writes, as offsets on the image. -/
theorem RegionsApart.offsets {h : BsfsHeader} (hp : RegionsApart h args.offset)
    (hbs : args.blockSize = h.blockSize) :
    args.headerIdx + sizeofBsfsHeader ≤ populateOffset h h.blockBitmapStart ∧
      populateOffset h h.blockBitmapStart + u32 (h.blockBitmapBlocks * h.blockSize) ≤
        populateOffset h h.megablockBitmapStart ∧
      populateOffset h h.megablockBitmapStart + u32 (h.megablockBitmapBlocks * h.blockSize) ≤
        populateOffset h h.inodeBitmapStart ∧
      populateOffset h h.inodeBitmapStart + u32 (h.inodeBitmapBlocks * h.blockSize) ≤
        populateOffset h h.inodeTableStart := by
  refine ⟨?_, ?_, ?_, ?_⟩
  · unfold PopulateArgs.headerIdx
    rw [hbs]
    exact hp.header
  · rw [hp.megablockBitmap, hp.blockBitmap, hp.megablockBitmapStart, Nat.add_mul]
    exact Nat.add_le_add_left (u32_le _) _
  · rw [hp.inodeBitmap, hp.megablockBitmap, hp.inodeBitmapStart, Nat.add_mul]
    exact Nat.add_le_add_left (u32_le _) _
  · rw [hp.inodeTable, hp.inodeBitmap, hp.inodeTableStart, Nat.add_mul]
    exact Nat.add_le_add_left (u32_le _) _

theorem length_headerOther (args : PopulateArgs) (h : BsfsHeader) (original : HostFile) :
    (headerBytes h (headerOther args original).1 (headerOther args original).2).length =
      sizeofBsfsHeader := by
  rw [length_headerBytes]
  simp [headerOther, sizeofBsfsHeader, length_bytesAt]

/-- A byte that no write covers. -/
theorem writtenBack_keeps (hp : RegionsApart s.header args.offset)
    (hbs : args.blockSize = s.header.blockSize) (hholds : s.image.Holds a value)
    (ha : populateOffset s.header s.header.inodeTableStart +
      u32 (s.header.inodeTableBlocks * s.header.blockSize) ≤ a) :
    (writtenBack args heap (headerOther args original) s).Holds a value := by
  obtain ⟨hheader, hsecond, hthird, hfourth⟩ := hp.offsets hbs
  rw [writtenBack_eq]
  refine HostFile.Holds.write (holds_regionWritten_of_outside (holds_regionWritten_of_outside
    (holds_regionWritten_of_outside (holds_regionWritten_of_outside hholds (Or.inr ?_)) (Or.inr ?_))
    (Or.inr ?_)) (Or.inr ha)) (Or.inr ?_)
  case refine_4 =>
    rw [length_headerOther]
    omega
  all_goals omega

/-- Every region holds its bytes after the write-back. -/
theorem writtenBack_holds (original : HostFile) (hp : RegionsApart s.header args.offset)
    (hbs : args.blockSize = s.header.blockSize) {r : Nat × Nat × ByteMem}
    (hr : r ∈ writeBackRegions heap s) (hk : k < u32 (r.2.1 * s.header.blockSize)) :
    (writtenBack args heap (headerOther args original) s).Holds (populateOffset s.header r.1 + k)
      (r.2.2 k) := by
  obtain ⟨hheader, hsecond, hthird, hfourth⟩ := hp.offsets hbs
  rw [writtenBack_eq]
  simp only [writeBackRegions, List.mem_cons, List.not_mem_nil, or_false] at hr
  -- the header comes last and lies before all regions
  suffices hregions : (regionWritten _ _ _ _ _).Holds (populateOffset s.header r.1 + k) (r.2.2 k) by
    refine hregions.write (Or.inr ?_)
    rw [length_headerOther]
    rcases hr with rfl | rfl | rfl | rfl <;> (dsimp only; omega)
  rcases hr with rfl | rfl | rfl | rfl <;> dsimp only at hk ⊢
  · refine holds_regionWritten_of_outside (holds_regionWritten_of_outside
      (holds_regionWritten_of_outside (holds_regionWritten hk) (Or.inl ?_)) (Or.inl ?_)) (Or.inl ?_)
    all_goals omega
  · refine holds_regionWritten_of_outside (holds_regionWritten_of_outside
      (holds_regionWritten hk) (Or.inl ?_)) (Or.inl ?_)
    all_goals omega
  · refine holds_regionWritten_of_outside (holds_regionWritten hk) (Or.inl ?_)
    omega
  · exact holds_regionWritten hk

theorem SameMetadata.tableBytes (hsame : SameMetadata s t) (heap heap' : PopulateHeap)
    (hk : k < s.header.inodeCount * sizeofBsfsInode) :
    tableBytes t.inodeTable t.header.inodeCount heap' k =
      tableBytes s.inodeTable s.header.inodeCount heap k := by
  unfold Bsfs.tableBytes
  rw [hsame.header, Nat.mul_comm, if_pos hk, if_pos hk,
    hsame.inodeTable _ (Nat.div_lt_of_lt_mul (by rwa [Nat.mul_comm]))]

/-- Inside the buffers, equal bitmaps and inodes give equal regions. -/
theorem SameMetadata.regions (hsame : SameMetadata s t) (heap heap' : PopulateHeap)
    (original original' : HostFile) (hinside : MetadataInside s.header)
    (hp : RegionsApart s.header args.offset) (hbs : args.blockSize = s.header.blockSize)
    {region : Nat × Nat} (hregion : region ∈ s.header.regions)
    (hk : k < u32 (region.2 * s.header.blockSize)) :
    (writtenBack args heap (headerOther args original) s).bytes
        (populateOffset s.header region.1 + k) =
      (writtenBack args heap' (headerOther args original') t).bytes
        (populateOffset s.header region.1 + k) := by
  have hblock := hinside.blockBitmap
  have hmega := hinside.megablockBitmap
  have hinode := hinside.inodeBitmap
  have htable := hinside.inodeTable
  have hbytes (bytes bytes' : ByteMem) (heq : bytes' k = bytes k)
      (hs : (region.1, region.2, bytes) ∈ writeBackRegions heap s)
      (ht : (region.1, region.2, bytes') ∈ writeBackRegions heap' t) :
      (writtenBack args heap (headerOther args original) s).bytes
          (populateOffset s.header region.1 + k) =
        (writtenBack args heap' (headerOther args original') t).bytes
          (populateOffset s.header region.1 + k) := by
    have hholds := (writtenBack_holds original hp hbs hs hk).2
    rw [← hsame.header] at hp hbs hk ⊢
    have hholds' := (writtenBack_holds original' hp hbs ht hk).2
    rw [hsame.header] at hholds' ⊢
    rw [hholds, hholds']
    exact heq.symm
  simp only [BsfsHeader.regions, List.mem_cons, List.not_mem_nil, or_false] at hregion
  rcases hregion with rfl | rfl | rfl | rfl <;> dsimp only at hk
  · refine hbytes s.blockBitmap t.blockBitmap (hsame.blockBitmap k (Nat.lt_of_lt_of_le hk hblock)) ?_ ?_
      <;> simp [writeBackRegions, hsame.header]
  · refine hbytes s.megablockBitmap t.megablockBitmap (hsame.megablockBitmap k (by omega)) ?_ ?_
      <;> simp [writeBackRegions, hsame.header]
  · refine hbytes s.inodeBitmap t.inodeBitmap (hsame.inodeBitmap k (by omega)) ?_ ?_
      <;> simp [writeBackRegions, hsame.header]
  · refine hbytes _ _ (hsame.tableBytes heap heap' (by omega)) ?_ ?_
      <;> simp [writeBackRegions, hsame.header]

end WrittenBack

section Sound

variable {h : BsfsHeader} {blockSize offset imageSize total : Nat}

/-- Counts and the root inode do not move a region. -/
theorem RegionsApart.recount (hp : RegionsApart h offset) (freeBlocks freeInodes root : Nat) :
    RegionsApart { h.recount freeBlocks freeInodes with rootInode := root } offset := by
  obtain ⟨h1, h2, h3, h4, h5, h6, h7, h8, h9⟩ := hp
  exact ⟨h1, h2, h3, h4, h5, h6, h7, h8, h9⟩

theorem MetadataInside.recount (hi : MetadataInside h) (freeBlocks freeInodes root : Nat) :
    MetadataInside { h.recount freeBlocks freeInodes with rootInode := root } := by
  obtain ⟨h1, h2, h3, h4, h5, h6, h7⟩ := hi
  exact ⟨h1, h2, h3, h4, h5, h6, h7⟩

/-- A table of less than 4 GiB is written whole. -/
theorem metadataDetermined (hr : HeaderRegions h blockSize offset total) (hp : RegionsApart h offset)
    (hi : MetadataInside h) (htable : h.inodeTableBlocks * blockSize < 2 ^ 32) :
    MetadataDetermined h offset := by
  intro args heap heap' original original' s t hbs hoffset hheader hsame a ha
  obtain ⟨region, hregion, hlo, hhi⟩ := ha
  have hsmall := hp.small
  have hbs' := hr.blockSize
  have hsecond := congrArg (· * blockSize) hp.megablockBitmapStart
  have hthird := congrArg (· * blockSize) hp.inodeBitmapStart
  have hfourth := congrArg (· * blockSize) hp.inodeTableStart
  simp only [Nat.add_mul] at hsecond hthird hfourth
  rw [hbs'] at hsmall hlo hhi
  -- every region is written as it is, at the place where it belongs
  have hwhole : populateOffset h region.1 = region.1 * blockSize ∧
      u32 (region.2 * blockSize) = region.2 * blockSize := by
    rw [← hbs']
    simp only [BsfsHeader.regions, List.mem_cons, List.not_mem_nil, or_false] at hregion
    rcases hregion with rfl | rfl | rfl | rfl <;> dsimp only
    · exact ⟨hp.blockBitmap, u32_of_lt (by rw [hbs']; omega)⟩
    · exact ⟨hp.megablockBitmap, u32_of_lt (by rw [hbs']; omega)⟩
    · exact ⟨hp.inodeBitmap, u32_of_lt (by rw [hbs']; omega)⟩
    · exact ⟨hp.inodeTable, u32_of_lt (by rw [hbs']; omega)⟩
  have hp' := hp.recount s.header.freeBlocks s.header.freeInodes s.header.rootInode
  have hi' := hi.recount s.header.freeBlocks s.header.freeInodes s.header.rootInode
  have hblockSize : s.header.blockSize = h.blockSize := by
    rw [hheader]
    rfl
  have hregions : s.header.regions = h.regions := by
    rw [hheader]
    rfl
  have hposition : populateOffset s.header region.1 = populateOffset h region.1 := by
    unfold populateOffset BsfsHeader.blockOffset
    rw [hblockSize]
  rw [← hheader, ← hoffset] at hp'
  rw [← hheader] at hi'
  rw [Nat.add_mul] at hhi
  have hregionSame := hsame.regions heap heap' original original' hi' hp'
    (hbs.trans hblockSize.symm) (hregions ▸ hregion)
    (k := a - region.1 * blockSize) (by
      rw [hblockSize, hbs', hwhole.2]
      omega)
  rwa [hposition, hwhole.1, Nat.add_sub_of_le hlo] at hregionSame

/-- Of a larger table the last byte keeps its old value. -/
theorem not_metadataDetermined (hp : RegionsApart h offset)
    (hlast : 0 < h.inodeTableBlocks * h.blockSize)
    (htable : u32 (h.inodeTableBlocks * h.blockSize) < h.inodeTableBlocks * h.blockSize) :
    ¬ MetadataDetermined h offset := by
  intro hdetermined
  have hend := Nat.add_mul h.inodeTableStart h.inodeTableBlocks h.blockSize
  let last := h.inodeTableStart * h.blockSize + (h.inodeTableBlocks * h.blockSize - 1)
  let state (value : UInt8) : PopulateState :=
    { image := ⟨last + 1, fun _ => value⟩, position := 0, header := h
      blockBitmap := fun _ => 0, megablockBitmap := fun _ => 0, inodeBitmap := fun _ => 0
      inodeTable := fun _ => .zero, panics := [] }
  let args : PopulateArgs := ⟨h.blockSize, offset, false, ⟨[], by simp⟩⟩
  let heap : PopulateHeap := ⟨fun _ => 0, fun _ => 0⟩
  have hkept (value : UInt8) :
      (writtenBack args heap (headerOther args ⟨0, fun _ => 0⟩) (state value)).Holds last value := by
    refine writtenBack_keeps (s := state value) hp rfl ⟨Nat.lt_succ_self _, rfl⟩ ?_
    rw [hp.inodeTable]
    exact Nat.add_le_add_left (Nat.le_sub_one_of_lt htable) _
  have hsame := hdetermined args heap heap ⟨0, fun _ => 0⟩ ⟨0, fun _ => 0⟩ (state 0) (state 1) rfl rfl
    rfl ⟨rfl, fun _ _ => rfl, fun _ _ => rfl, fun _ _ => rfl, fun _ _ => rfl⟩ last
    ⟨(h.inodeTableStart, h.inodeTableBlocks), by simp [BsfsHeader.regions], Nat.le_add_right _ _, by
      rw [hend]
      exact Nat.add_lt_add_left (Nat.sub_one_lt_of_lt hlast) _⟩
  rw [(hkept 0).2, (hkept 1).2] at hsame
  exact absurd hsame (by decide)

/-- The table does not outgrow its buffer exactly if it fills its blocks, or its size wraps around. -/
theorem inodeTable_inside_iff (hpos : 0 < blockSize) (size : Nat)
    (hsmall : divCeil (size % 2 ^ 32) blockSize * blockSize < 2 ^ 32) :
    u32 (divCeil (size % 2 ^ 32) blockSize * blockSize) ≤ size ↔ blockSize ∣ size ∨ 2 ^ 32 ≤ size := by
  have hlower := le_divCeil_mul (size % 2 ^ 32) hpos
  rw [u32_of_lt hsmall]
  constructor
  · intro hle
    rcases Nat.lt_or_ge size (2 ^ 32) with hlt | hge
    · rw [Nat.mod_eq_of_lt hlt] at hle hlower
      refine Or.inl ⟨divCeil size blockSize, ?_⟩
      rw [Nat.mul_comm]
      omega
    · exact Or.inr hge
  · rintro (⟨count, hcount⟩ | hge)
    · by_cases hlt : size < 2 ^ 32
      · have hle : divCeil (size % 2 ^ 32) blockSize ≤ count :=
          (divCeil_le_iff hpos).mpr (by rw [Nat.mod_eq_of_lt hlt, hcount, Nat.mul_comm])
        calc divCeil (size % 2 ^ 32) blockSize * blockSize
            ≤ count * blockSize := Nat.mul_le_mul_right _ hle
          _ = size := by rw [hcount, Nat.mul_comm]
      · omega
    · omega

/-- An image without blocks has no metadata. -/
theorem metadataSound_of_empty (hr : HeaderRegions h blockSize offset 0) (hpos : 0 < blockSize) :
    MetadataInside h ∧ MetadataDetermined h offset := by
  have hceil {b : Nat} (hb : 0 < b) : divCeil 0 b = 0 := Nat.le_zero.mp (divCeil_le 0 hb)
  obtain ⟨hbs, -, hcount, hblock, hmegaSize, hmega, hinode, htable, -⟩ := hr
  rw [hceil (by omega)] at hblock hmegaSize hmega
  rw [Nat.zero_div] at hcount hinode htable
  rw [hceil (by decide)] at hmegaSize hmega
  rw [hceil hpos] at hmega
  rw [hceil (by omega)] at hinode
  rw [Nat.zero_mul, Nat.zero_mod, hceil hpos] at htable
  have hzero : u32 0 = 0 := u32_of_lt (by decide)
  constructor
  · refine ⟨?_, ?_, ?_, ?_, ?_, ?_, ?_⟩
    · simp [hblock, hzero]
    · simp [hmega, hzero]
    · simp [hinode, hzero]
    · simp [htable, hzero]
    · intro megablocks a ha
      rw [hmegaSize, Nat.zero_mul, hzero] at ha
      exact absurd (bitmapFindLoads_inside ha).2 (Nat.not_lt_zero _)
    · intro megablocks blocks hfound
      rw [hmegaSize, Nat.zero_mul, hzero] at hfound
      exact absurd (bitmapFind_of_full fun j hj => absurd hj (Nat.not_lt_zero j)) hfound
    · intro inodes a ha
      rw [hcount] at ha
      exact absurd (bitmapFindLoads_inside ha).2 (Nat.not_lt_zero _)
  · intro args heap heap' original original' s t _ _ _ _ a ha
    obtain ⟨region, hregion, hlo, hhi⟩ := ha
    have hnone : region.2 = 0 := by
      simp only [BsfsHeader.regions, List.mem_cons, List.not_mem_nil, or_false] at hregion
      rcases hregion with rfl | rfl | rfl | rfl
      exacts [hblock, hmega, hinode, htable]
    rw [hnone, Nat.add_zero] at hhi
    omega

/-- With one of the last seven numbers of blocks there is no block bitmap to search. -/
theorem not_metadataInside_of_wrap (hleast : 1024 ≤ blockSize) (hmost : blockSize ≤ 16384)
    (hlarge : 2 ^ 32 ≤ imageSize / blockSize % 2 ^ 32 + 7) :
    ¬ MetadataInside (mkfsHeader blockSize offset imageSize) := by
  intro hinside
  have htotal : u32 (imageSize / blockSize) = imageSize / blockSize % 2 ^ 32 := by
    unfold u32
    rfl
  have hnone : (mkfsHeader blockSize offset imageSize).blockBitmapBlocks = 0 := by
    refine mkfsHeader_noBitmap (by omega) ?_
    show _ < u32 (imageSize / blockSize)
    omega
  have hbits : 0 < u32 ((mkfsHeader blockSize offset imageSize).megablockBitmapSize * 8) := by
    show 0 < u32 (divCeil32 (u32 (divCeil (u32 (imageSize / blockSize)) (blockSize * 8))) 8 * 8)
    rw [htotal]
    have hsome := div_lt_divCeil (show 0 < blockSize * 8 by omega)
      (show 0 < imageSize / blockSize % 2 ^ 32 by omega)
    have hmega : divCeil (imageSize / blockSize % 2 ^ 32) (blockSize * 8) ≤ 2 ^ 19 :=
      (divCeil_le_iff (by omega)).mpr (by omega)
    rw [Nat.zero_div] at hsome
    rw [u32_of_lt (show divCeil (imageSize / blockSize % 2 ^ 32) (blockSize * 8) < 2 ^ 32 by omega),
      divCeil32_eight (by omega), u32_of_lt (by omega)]
    omega
  have hfirst : bitmapFind (fun _ => 0)
      (u32 ((mkfsHeader blockSize offset imageSize).megablockBitmapSize * 8)) = 0 := by
    refine bitmapFind_of_firstClear (Nat.le_of_lt (u32_lt _)) ⟨hbits, by decide, fun j hj => ?_⟩
    exact absurd hj (Nat.not_lt_zero j)
  have hload := hinside.blockLoads (fun _ => 0) (fun _ => 0) (by
      rw [hfirst]
      decide) (8 * 0) (by
    refine mem_bitmapFindLoads ?_ fun j hj => absurd hj (Nat.not_lt_zero j)
    rw [show (mkfsHeader blockSize offset imageSize).blockSize = blockSize from rfl,
      u32_of_lt (by omega)]
    omega)
  rw [hnone, Nat.zero_mul] at hload
  omega

/-- The write-back of a formatted image stays inside its buffers, and the metadata on the image are
determined by the bitmaps and the inodes, exactly if the buffers fit. -/
theorem metadataSound_iff {blockSize offset imageSize : Nat}
    (haccepts : MkfsAccepts blockSize offset imageSize) :
    MetadataInside (mkfsHeader blockSize offset imageSize) ∧
        MetadataDetermined (mkfsHeader blockSize offset imageSize) offset ↔
      BuffersFit blockSize imageSize := by
  obtain ⟨hleast, hmost, hoffset, -⟩ := haccepts
  have hpos : 0 < blockSize := by omega
  have htotal : imageSize / blockSize % 2 ^ 32 < 2 ^ 32 := Nat.mod_lt _ (by decide)
  unfold BuffersFit
  by_cases hlarge : imageSize / blockSize % 2 ^ 32 + 7 < 2 ^ 32
  · have hr := mkfsHeader_regions hleast hoffset rfl hlarge
    have hp := hr.apart hleast hmost hoffset htotal
    generalize mkfsHeader blockSize offset imageSize = h at *
    generalize imageSize / blockSize % 2 ^ 32 = total at *
    have htable := hr.inodeTableBlocks
    rcases Nat.eq_zero_or_pos total with rfl | hblocks
    · exact ⟨fun _ => Or.inl rfl, fun _ => metadataSound_of_empty hr hpos⟩
    · have hinside := metadataInside_iff hr hleast hmost htotal hblocks
      have hroom := inodeTable_inside_iff hpos (total / 4 * sizeofBsfsInode)
      rw [← htable] at hroom ⊢
      constructor
      · rintro ⟨hi, hdetermined⟩
        obtain ⟨height, hwhole, hle⟩ := hinside.mp hi
        have hsmall : h.inodeTableBlocks * blockSize < 2 ^ 32 := by
          by_contra hbig
          refine not_metadataDetermined hp ?_ ?_ hdetermined
          · rw [hr.blockSize]
            omega
          · rw [hr.blockSize]
            exact Nat.lt_of_lt_of_le (u32_lt _) (Nat.le_of_not_lt hbig)
        exact Or.inr ⟨hlarge, height, hwhole, (hroom hsmall).mp hle, hsmall⟩
      · rintro (hzero | ⟨-, height, hwhole, hfits, hsmall⟩)
        · omega
        · have hi := hinside.mpr ⟨height, hwhole, (hroom hsmall).mpr hfits⟩
          exact ⟨hi, metadataDetermined hr hp hi hsmall⟩
  · refine ⟨fun hsound => absurd hsound.1 (not_metadataInside_of_wrap hleast hmost (by omega)), ?_⟩
    rintro (hzero | hfits)
    · omega
    · exact absurd hfits.1 hlarge

/-- 64 GiB in blocks of 1024 bytes: the megablock bitmap is one block. -/
theorem metadataSound_64GiB : MetadataInside (mkfsHeader 1024 0 (2 ^ 36)) ∧
    MetadataDetermined (mkfsHeader 1024 0 (2 ^ 36)) 0 :=
  (metadataSound_iff ⟨by decide, by decide, by decide, by decide⟩).mpr (by decide +kernel)

/-- 16 MiB in blocks of 4096 bytes: `main` allocates one byte for the megablock bitmap, writes 4096
bytes from it, and the first search loads eight. -/
theorem metadata_overread : MkfsAccepts 4096 0 (2 ^ 24) ∧
    (mkfsHeader 4096 0 (2 ^ 24)).megablockBitmapSize = 1 ∧
    u32 ((mkfsHeader 4096 0 (2 ^ 24)).megablockBitmapBlocks * 4096) = 4096 ∧
    bitmapFindLoads (fun _ => 0) (u32 ((mkfsHeader 4096 0 (2 ^ 24)).megablockBitmapSize * 8)) = [0] ∧
    ¬ MetadataInside (mkfsHeader 4096 0 (2 ^ 24)) := by
  have hsize : (mkfsHeader 4096 0 (2 ^ 24)).megablockBitmapSize = 1 := by decide +kernel
  have hwritten : u32 ((mkfsHeader 4096 0 (2 ^ 24)).megablockBitmapBlocks * 4096) = 4096 := by
    decide +kernel
  refine ⟨⟨by decide, by decide, by decide, by decide⟩, hsize, hwritten, by decide +kernel, ?_⟩
  intro hinside
  have hle := hinside.megablockBitmap
  rw [hsize, show (mkfsHeader 4096 0 (2 ^ 24)).blockSize = 4096 from rfl, hwritten] at hle
  omega

end Sound

end Pristine.Bsfs
