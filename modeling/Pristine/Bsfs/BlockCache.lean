import Pristine.Bsfs.FreadSpec
import Pristine.Lib.Run

/-!
# The block cache of an open file

`cached_block` says which block was read last, but not where in the buffer it
lies.  After a read of two blocks the second one lies in the second half of the
buffer, while a read that begins in a cached block takes it from the first half.
`fread_of_realigned` shows that reads are right in every run in which no read
begins in the last block of a read that covered several; `fread_wrong_bytes` is
a run that is not of this kind.
-/

namespace Pristine.Bsfs

open Kernel Lib Relation

/-! ## What a file holds -/

/-- Byte `offset` of a file. -/
def fileByte (img : ByteMem) (inode : BsfsInode) (offset : Nat) : UInt8 :=
  img (4096 * blockPtr img inode (offset / 4096) + offset % 4096)

/-- The file bytes `[position, position + count)`. -/
def fileBytes (img : ByteMem) (inode : BsfsInode) (position count : Nat) : List UInt8 :=
  (List.range count).map fun k => fileByte img inode (position + k)

/-- All blocks are direct or in the L1 table, and their byte offsets fit in 32 bits. -/
structure Readable (img : ByteMem) (inode : BsfsInode) : Prop where
  size : inode.size ≤ 4096 * 1034
  block : ∀ k, 4096 * k < inode.size → 4096 * blockPtr img inode k < 2 ^ 32
  /-- a file of more than ten blocks has an L1 table -/
  l1 : 40960 < inode.size → 4096 * inode.blocksL1indirect < 2 ^ 32

theorem Readable.addressable {img : ByteMem} {inode : BsfsInode} (h : Readable img inode) :
    Addressable img inode := ⟨fun k _ => h.block k, h.l1⟩

/-! ## Runs -/

/-- An open file.  `span` counts the blocks of the most recent read that covered any. -/
structure FileRun where
  file : BsfsFile
  span : Nat

/-- The blocks a read would cover. -/
def FileRun.covers (r : FileRun) (size count : Nat) : Nat :=
  freadSpan kernelContext r.file (freadEnd r.file size count)

/-- No read begins in the block at which the most recent one ended, if that one covered
several blocks. -/
def Realigned (r : FileRun) (size count : Nat) : Prop :=
  1 < r.span → 0 < r.covers size count → u32 r.file.position / 4096 ≠ r.file.cachedBlock

/-- The read does not wrap around in 32 bits. -/
def NoWrap (r : FileRun) (size count : Nat) : Prop :=
  r.file.position + size * count < 2 ^ 32

/-- A read of the run. -/
def FileRun.fread (img : ByteMem) (r : FileRun) (size count : Nat) :
    Int × List UInt8 × FileRun :=
  let result := bsfsFread kernelContext (imageDisk img) size count r.file
  (result.1, result.2.1,
    { file := result.2.2
      span := if 0 ≤ result.1 ∧ 0 < r.covers size count then r.covers size count else r.span })

inductive FileStep (img : ByteMem) : FileRun → FileRun → Prop
  | seek {r : FileRun} (offset : Nat) (whence : Int) :
      FileStep img r ⟨bsfsFseeko r.file offset whence, r.span⟩
  | read {r : FileRun} {size count : Nat} (hwrap : NoWrap r size count)
      (hrealigned : Realigned r size count) : FileStep img r (r.fread img size count).2.2

/-! ## The block loop -/

/-- Block `k` of the file is in slot `slot` of the buffer. -/
def InSlot (img : ByteMem) (inode : BsfsInode) (buf : ByteMem) (k slot : Nat) : Prop :=
  ∀ a, a < 4096 → buf (4096 * slot + a) = img (4096 * blockPtr img inode k + a)

section Blocks

variable {img : ByteMem}

/-- A pass of the loop: block `i` is cached in its slot, or is read to it. -/
theorem freadBlocks_pass (left : Nat) {i slot : Nat} {file : BsfsFile}
    (hreadable : Readable img file.inode) (hok : L1Ok img file.inode file.l1Table file.cachedL1)
    (hslot : i = file.cachedBlock → InSlot img file.inode file.buf i slot)
    (hi : 4096 * i < file.inode.size) :
    ∃ buf l1Table cachedL1,
      freadBlocks kernelContext (imageDisk img) (left + 1) i (4096 * slot) file =
        freadBlocks kernelContext (imageDisk img) left (i + 1) (4096 * (slot + 1))
          { file with buf := buf, cachedBlock := i, l1Table := l1Table, cachedL1 := cachedL1 } ∧
      L1Ok img file.inode l1Table cachedL1 ∧ (∀ a, a < 4096 * slot → buf a = file.buf a) ∧
      InSlot img file.inode buf i slot := by
  have hsize := hreadable.size
  rw [freadBlocks]
  by_cases hcached : i = file.cachedBlock
  · rw [if_pos hcached]
    refine ⟨file.buf, file.l1Table, file.cachedL1, ?_, hok, fun _ _ => rfl, hslot hcached⟩
    subst hcached
    rfl
  · obtain ⟨bytes, l1Table, cachedL1, hspec⟩ := fetchBlock_spec (imageDisk img) i (4096 * slot) file
    obtain ⟨hok', hbytes⟩ := hspec.image img (faultyDisk_image img) hreadable.addressable hi hok
    rcases hspec.outcome with ⟨-, hcall⟩ | ⟨code, -, hfar, -⟩
    · rw [if_neg hcached, hcall]
      refine ⟨_, l1Table, cachedL1, rfl, hok', fun a ha => storeBytes_of_outside _ (Or.inl ha), ?_⟩
      rw [hbytes (by rw [hcall])]
      exact fun a ha => storeBytes_bytesAt _ _ ha
    · have hbeyond := hfar fun _ _ => rfl
      omega

/-- The loop puts the blocks from `i` on into consecutive slots. -/
theorem freadBlocks_image (left : Nat) {i slot : Nat} {file : BsfsFile}
    (hreadable : Readable img file.inode) (hok : L1Ok img file.inode file.l1Table file.cachedL1)
    (hslot : 0 < left → i = file.cachedBlock → InSlot img file.inode file.buf i slot)
    (hrange : ∀ k, k < left → 4096 * (i + k) < file.inode.size) :
    ∃ buf cachedBlock l1Table cachedL1,
      freadBlocks kernelContext (imageDisk img) left i (4096 * slot) file =
        (.ok (), { file with
          buf := buf, cachedBlock := cachedBlock, l1Table := l1Table, cachedL1 := cachedL1 }) ∧
      L1Ok img file.inode l1Table cachedL1 ∧ (∀ a, a < 4096 * slot → buf a = file.buf a) ∧
      (∀ k, k < left → InSlot img file.inode buf (i + k) (slot + k)) ∧
      (if left = 0 then buf = file.buf ∧ cachedBlock = file.cachedBlock
        else cachedBlock = i + left - 1) := by
  induction left generalizing i slot file with
  | zero =>
    exact ⟨_, _, _, _, rfl, hok, fun _ _ => rfl, fun k hk => absurd hk (Nat.not_lt_zero k), rfl, rfl⟩
  | succ left ih =>
    obtain ⟨buf₁, l1Table₁, cachedL1₁, hpass, hok₁, hbelow₁, hfirst⟩ :=
      freadBlocks_pass left hreadable hok (hslot (Nat.succ_pos left)) (hrange 0 (Nat.succ_pos left))
    -- the rest of the loop begins behind the block just cached
    obtain ⟨buf, cachedBlock, l1Table, cachedL1, hcall, hok', hbelow, hslots, hlast⟩ :=
      @ih (i + 1) (slot + 1) { file with
          buf := buf₁, cachedBlock := i, l1Table := l1Table₁, cachedL1 := cachedL1₁ }
        hreadable hok₁ (fun _ hcached => absurd hcached (Nat.succ_ne_self i))
        (fun k hk => by rw [Nat.add_assoc]; exact hrange (1 + k) (by omega))
    refine ⟨buf, cachedBlock, l1Table, cachedL1, hpass.trans hcall, hok', ?_, ?_, ?_⟩
    · exact fun a ha => (hbelow a (by omega)).trans (hbelow₁ a ha)
    · intro k hk
      cases k with
      | zero => exact fun a ha => (hbelow _ (by omega)).trans (hfirst a ha)
      | succ k =>
        have hslot := hslots k (by omega)
        rwa [Nat.add_assoc, Nat.add_comm 1 k, Nat.add_assoc, Nat.add_comm 1 k] at hslot
    · rw [if_neg (Nat.succ_ne_zero left)]
      split at hlast
      · rw [hlast.2]
        dsimp only
        omega
      · omega

end Blocks

/-! ## One read -/

section Read

variable {img : ByteMem} {file : BsfsFile} {size count : Nat}

section Inside

variable (hsize : file.inode.size ≤ 4096 * 1034) (hposition : file.position ≤ file.inode.size)

include hsize hposition

/-- The end of a read that does not wrap around. -/
theorem freadEnd_bounds (hwrap : file.position + size * count < 2 ^ 32) :
    u32 file.position = file.position ∧ file.position ≤ freadEnd file size count ∧
      freadEnd file size count ≤ file.inode.size ∧
      freadTotal file size count = freadEnd file size count - file.position := by
  rw [freadTotal_eq hposition hwrap, freadEnd_eq hposition hwrap]
  unfold readLength
  exact ⟨u32_of_lt (by omega), by omega, by omega, by omega⟩

/-- The number of blocks between position and end. -/
theorem freadSpan_eq {stop : Nat} (hhigh : stop ≤ file.inode.size) :
    freadSpan kernelContext file stop = (stop + 4095) / 4096 - file.position / 4096 := by
  have hstart : u32 file.position = file.position := u32_of_lt (by omega)
  have hceil : divCeil32 stop 4096 = (stop + 4095) / 4096 := by
    unfold divCeil32 u32
    omega
  show divCeil32 stop 4096 - u32 file.position / 4096 = _
  rw [hceil, hstart]

/-- The loop covers the bytes of the read. -/
theorem freadSpan_bounds {stop : Nat} (hhigh : stop ≤ file.inode.size) :
    stop ≤ 4096 * (file.position / 4096 + freadSpan kernelContext file stop) ∧
      ∀ k, k < freadSpan kernelContext file stop →
        4096 * (file.position / 4096 + k) < file.inode.size := by
  rw [freadSpan_eq hsize hposition hhigh]
  refine ⟨by omega, fun k hk => by omega⟩

end Inside

/-- Bytes of the buffer are bytes of the file. -/
theorem bytesAt_slots {buf : ByteMem} {inode : BsfsInode} {span position n : Nat}
    (hslots : ∀ k, k < span → InSlot img inode buf (position / 4096 + k) k)
    (hcover : position + n ≤ 4096 * (position / 4096 + span)) :
    bytesAt buf (position % 4096) n = fileBytes img inode position n := by
  refine List.map_congr_left fun k hk => ?_
  have hkn : k < n := List.mem_range.mp hk
  have hbyte := hslots ((position % 4096 + k) / 4096) (by omega) ((position % 4096 + k) % 4096)
    (Nat.mod_lt _ (by omega))
  rw [Nat.div_add_mod] at hbyte
  have hblock : position / 4096 + (position % 4096 + k) / 4096 = (position + k) / 4096 := by omega
  have hoffset : (position % 4096 + k) % 4096 = (position + k) % 4096 := by omega
  unfold fileByte
  rw [hbyte, hblock, hoffset]

/-- A read whose first block is in the first slot, if it is cached. -/
theorem bsfsFread_image (hreadable : Readable img file.inode)
    (hok : L1Ok img file.inode file.l1Table file.cachedL1)
    (hposition : file.position ≤ file.inode.size) (hwrap : file.position + size * count < 2 ^ 32)
    {stop : Nat} (hstop : freadEnd file size count = stop) (hsmall : stop - file.position ≤ 4096)
    (hslot : 0 < freadSpan kernelContext file stop → file.position / 4096 = file.cachedBlock →
      InSlot img file.inode file.buf file.cachedBlock 0) :
    ∃ buf cachedBlock l1Table cachedL1,
      bsfsFread kernelContext (imageDisk img) size count file =
        (((stop - file.position : Nat) : Int),
          fileBytes img file.inode file.position (stop - file.position),
          { file with
            buf := buf, cachedBlock := cachedBlock, l1Table := l1Table, cachedL1 := cachedL1
            position := stop, eof := decide (file.inode.size ≤ stop) }) ∧
      L1Ok img file.inode l1Table cachedL1 ∧
      (if freadSpan kernelContext file stop = 0 then buf = file.buf ∧ cachedBlock = file.cachedBlock
        else InSlot img file.inode buf cachedBlock (freadSpan kernelContext file stop - 1) ∧
          4096 * cachedBlock < file.inode.size) := by
  obtain ⟨hstart, hlow, hhigh, htotal⟩ := freadEnd_bounds hreadable.size hposition hwrap
  rw [hstop] at hlow hhigh htotal
  obtain ⟨hcover, hrange⟩ := freadSpan_bounds hreadable.size hposition hhigh
  have hfirst : 0 < freadSpan kernelContext file stop → file.position / 4096 = file.cachedBlock →
      InSlot img file.inode file.buf (file.position / 4096) 0 := by
    intro hpos hcached
    rw [hcached]
    exact hslot hpos hcached
  obtain ⟨buf, cachedBlock, l1Table, cachedL1, hcall, hok', -, hslots, hlast⟩ :=
    freadBlocks_image (freadSpan kernelContext file stop) hreadable hok hfirst hrange
  simp only [Nat.zero_add] at hslots
  refine ⟨buf, cachedBlock, l1Table, cachedL1, ?_, hok', ?_⟩
  · rw [Nat.mul_zero, ← hstart, ← hstop, ← freadLoop_eq] at hcall
    rw [bsfsFread_of_ok (by omega) hcall, htotal, hstart, hstop,
      bytesAt_slots (n := stop - file.position) hslots (by omega)]
    rfl
  · split
    · rename_i hzero
      rw [if_pos hzero] at hlast
      exact hlast
    · rename_i hpos
      rw [if_neg hpos] at hlast
      have hindex : cachedBlock = file.position / 4096 + (freadSpan kernelContext file stop - 1) := by
        omega
      rw [hindex]
      exact ⟨hslots _ (by omega), hrange _ (by omega)⟩

end Read

/-! ## Whole runs -/

/-- The invariant of an open file: the cached block lies in the last slot the most recent read
filled. -/
structure FileInv (img : ByteMem) (inode : BsfsInode) (r : FileRun) : Prop where
  inode_eq : r.file.inode = inode
  position : r.file.position ≤ inode.size
  l1 : L1Ok img inode r.file.l1Table r.file.cachedL1
  slot : r.file.cachedBlock ≠ uint32Max →
    0 < r.span ∧ InSlot img inode r.file.buf r.file.cachedBlock (r.span - 1)

section Runs

variable {img : ByteMem} {inode : BsfsInode} {r : FileRun}

theorem fileInv_fopen (buf l1Table : ByteMem) (bufsize : Nat) :
    FileInv img inode ⟨bsfsFopen inode buf l1Table bufsize, 0⟩ :=
  ⟨rfl, Nat.zero_le _, fun h => absurd rfl h, fun h => absurd rfl h⟩

/-- Seeking moves the position and stops it at the end of the file. -/
theorem bsfsFseeko_frame (file : BsfsFile) (offset : Nat) (whence : Int) :
    ∃ position eof, bsfsFseeko file offset whence = { file with position := position, eof := eof } ∧
      position ≤ file.inode.size := by
  unfold bsfsFseeko
  generalize (if whence = bsfsFseekoCur then _ else _ : Nat) = position
  by_cases hend : file.inode.size ≤ position
  · rw [if_pos hend]
    exact ⟨_, _, rfl, le_refl _⟩
  · rw [if_neg hend]
    exact ⟨_, _, rfl, by omega⟩

theorem fileInv_seek (hinv : FileInv img inode r) (offset : Nat) (whence : Int) :
    FileInv img inode ⟨bsfsFseeko r.file offset whence, r.span⟩ := by
  obtain ⟨position, eof, hseek, hposition⟩ := bsfsFseeko_frame r.file offset whence
  rw [hseek]
  exact ⟨hinv.inode_eq, hinv.inode_eq ▸ hposition, hinv.l1, hinv.slot⟩

/-- What a read of the run is, from what `bsfs_fread` returns. -/
theorem FileRun.fread_eq {size count : Nat} {code : Int} {bytes : List UInt8} {file : BsfsFile}
    (hcall : bsfsFread kernelContext (imageDisk img) size count r.file = (code, bytes, file)) :
    r.fread img size count =
      (code, bytes, ⟨file,
        if 0 ≤ code ∧ 0 < r.covers size count then r.covers size count else r.span⟩) := by
  unfold FileRun.fread
  rw [hcall]

/-- A read that does not begin in a block out of place finds its first block in the first slot,
if it is cached. -/
theorem fileInv_firstSlot (hreadable : Readable img inode) (hinv : FileInv img inode r)
    {size count : Nat} (hrealigned : Realigned r size count) (hpos : 0 < r.covers size count)
    (hcached : r.file.position / 4096 = r.file.cachedBlock) :
    InSlot img inode r.file.buf r.file.cachedBlock 0 := by
  have hsize := hreadable.size
  have hposition := hinv.position
  have hvalid : r.file.cachedBlock ≠ uint32Max := by
    unfold uint32Max
    omega
  obtain ⟨hspan, hin⟩ := hinv.slot hvalid
  -- the read begins in the cached block, so the last one covered that block only
  have hsingle : r.span ≤ 1 := by
    by_contra hmany
    refine hrealigned (by omega) hpos ?_
    rw [← hcached, u32, Nat.mod_eq_of_lt (by omega)]
  have hzero : r.span - 1 = 0 := by omega
  rwa [hzero] at hin

/-- A read that does not begin in a block out of place keeps the invariant, and returns the bytes
of the file if it succeeds. -/
theorem fileInv_read (hreadable : Readable img inode) (hinv : FileInv img inode r)
    {size count : Nat} (hwrap : NoWrap r size count) (hrealigned : Realigned r size count) :
    FileInv img inode (r.fread img size count).2.2 ∧
      (0 ≤ (r.fread img size count).1 → (r.fread img size count).2.1 =
        fileBytes img inode r.file.position (r.fread img size count).1.toNat) := by
  obtain rfl := hinv.inode_eq
  obtain ⟨stop, hstop⟩ : ∃ stop, freadEnd r.file size count = stop := ⟨_, rfl⟩
  have hcovers : r.covers size count = freadSpan kernelContext r.file stop := by
    rw [← hstop]
    rfl
  by_cases hsmall : stop - r.file.position ≤ 4096
  · have hslot := fun hpos => fileInv_firstSlot hreadable hinv hrealigned (hcovers ▸ hpos)
    obtain ⟨buf, cachedBlock, l1Table, cachedL1, hcall, hok, hcache⟩ :=
      bsfsFread_image hreadable hinv.l1 hinv.position hwrap hstop hsmall hslot
    have hstopSize : stop ≤ r.file.inode.size := by
      obtain ⟨-, -, hhigh, -⟩ := freadEnd_bounds hreadable.size hinv.position hwrap
      rwa [hstop] at hhigh
    rw [FileRun.fread_eq hcall, hcovers]
    refine ⟨⟨rfl, hstopSize, hok, ?_⟩, fun _ => by rw [Int.toNat_natCast]⟩
    dsimp only
    intro hcached
    by_cases hspan : freadSpan kernelContext r.file stop = 0
    · rw [if_pos hspan] at hcache
      rw [hcache.2] at hcached
      rw [if_neg (by omega), hcache.1, hcache.2]
      exact hinv.slot hcached
    · rw [if_neg hspan] at hcache
      rw [if_pos (by omega)]
      exact ⟨by omega, hcache.1⟩
  · obtain ⟨-, -, -, htotal⟩ := freadEnd_bounds hreadable.size hinv.position hwrap
    have hcall : bsfsFread kernelContext (imageDisk img) size count r.file = _ :=
      bsfsFread_of_big (by omega)
    have hnegative : ¬ 0 ≤ bsfsFreadSizeTooBig := by decide
    rw [FileRun.fread_eq hcall, if_neg fun h => hnegative h.1]
    exact ⟨⟨rfl, hinv.position, hinv.l1, hinv.slot⟩, fun h => absurd h hnegative⟩

theorem fileStep_inv (hreadable : Readable img inode) {r r' : FileRun}
    (hinv : FileInv img inode r) (hstep : FileStep img r r') : FileInv img inode r' := by
  cases hstep with
  | seek offset whence => exact fileInv_seek hinv offset whence
  | read hwrap hrealigned => exact (fileInv_read hreadable hinv hwrap hrealigned).1

/-- In a run in which no read begins in a block out of place, every read that succeeds returns
the bytes of the file. -/
theorem fread_of_realigned (hreadable : Readable img inode) {buf l1Table : ByteMem} {bufsize : Nat}
    (hrun : ReflTransGen (FileStep img) ⟨bsfsFopen inode buf l1Table bufsize, 0⟩ r)
    {size count : Nat} (hwrap : NoWrap r size count) (hrealigned : Realigned r size count)
    (hsuccess : 0 ≤ (r.fread img size count).1) :
    (r.fread img size count).2.1 =
      fileBytes img inode r.file.position (r.fread img size count).1.toNat := by
  have hinv : FileInv img inode r :=
    run_invariant hrun (fileInv_fopen buf l1Table bufsize) fun _ _ => fileStep_inv hreadable
  exact (fileInv_read hreadable hinv hwrap hrealigned).2 hsuccess

end Runs

/-! ## A read that begins in a block out of place -/

/-- Blocks 5 and 7 of the image hold fives and sevens. -/
def stripedImage : ByteMem := fun a => if a < 28672 then 5 else 7

/-- A file of these two blocks. -/
def stripedInode : BsfsInode :=
  { BsfsInode.zero with type := bsfsInodeTypeFile, size := 8192 }.setDirect 0 5 |>.setDirect 1 7

/-- The file is opened and moved to byte 100. -/
def soughtRun : FileRun :=
  ⟨bsfsFseeko (bsfsFopen stripedInode (fun _ => 0) (fun _ => 0) 4096) 100 bsfsFseekoSet, 0⟩

/-- Then a block's worth of bytes is read, which covers both blocks. -/
def crossedRun : FileRun := (soughtRun.fread stripedImage 1 4096).2.2

theorem stripedInode_readable : Readable stripedImage stripedInode where
  size := by decide
  block := by
    intro k hk
    have hk : 4096 * k < 8192 := hk
    have htwo : k = 0 ∨ k = 1 := by omega
    rcases htwo with rfl | rfl <;> decide +kernel
  l1 := fun h => absurd h (by decide)

theorem crossedRun_reached : ReflTransGen (FileStep stripedImage)
    ⟨bsfsFopen stripedInode (fun _ => 0) (fun _ => 0) 4096, 0⟩ crossedRun := by
  refine .tail (.tail .refl (.seek 100 bsfsFseekoSet)) ?_
  exact .read (r := soughtRun) (by unfold NoWrap; decide +kernel) fun h => absurd h (by decide)

/-- Ten bytes of the first block are read instead. -/
def cachedRun : FileRun := (soughtRun.fread stripedImage 1 10).2.2

/-- A read that begins in the cached block and crosses into the second is right. -/
theorem fread_of_realigned_crossing :
    Readable stripedImage stripedInode ∧ NoWrap cachedRun 1 4090 ∧ Realigned cachedRun 1 4090 ∧
      u32 cachedRun.file.position / 4096 = cachedRun.file.cachedBlock ∧ cachedRun.covers 1 4090 = 2 ∧
      (cachedRun.fread stripedImage 1 4090).2.1 =
        fileBytes stripedImage stripedInode cachedRun.file.position
          (cachedRun.fread stripedImage 1 4090).1.toNat := by
  have hrun : ReflTransGen (FileStep stripedImage)
      ⟨bsfsFopen stripedInode (fun _ => 0) (fun _ => 0) 4096, 0⟩ cachedRun :=
    .tail (.tail .refl (.seek 100 bsfsFseekoSet))
      (.read (r := soughtRun) (by unfold NoWrap; decide +kernel) fun h => absurd h (by decide))
  have hwrap : NoWrap cachedRun 1 4090 := by unfold NoWrap; decide +kernel
  have hrealigned : Realigned cachedRun 1 4090 := fun h => absurd h (by decide +kernel)
  refine ⟨stripedInode_readable, hwrap, hrealigned, by decide +kernel, by decide +kernel, ?_⟩
  exact fread_of_realigned stripedInode_readable hrun hwrap hrealigned (by decide +kernel)

/-- After the read of both blocks the next byte is taken from the first one. -/
theorem fread_wrong_bytes :
    Readable stripedImage stripedInode ∧
      ReflTransGen (FileStep stripedImage)
        ⟨bsfsFopen stripedInode (fun _ => 0) (fun _ => 0) 4096, 0⟩ crossedRun ∧
      NoWrap crossedRun 1 1 ∧ ¬ Realigned crossedRun 1 1 ∧
      (crossedRun.fread stripedImage 1 1).1 = 1 ∧
      (crossedRun.fread stripedImage 1 1).2.1 = [5] ∧
      fileBytes stripedImage stripedInode crossedRun.file.position 1 = [7] := by
  have hwrap : NoWrap crossedRun 1 1 := by unfold NoWrap; decide +kernel
  have hnot : ¬ Realigned crossedRun 1 1 := fun h =>
    h (by decide +kernel) (by decide +kernel) (by decide +kernel)
  exact ⟨stripedInode_readable, crossedRun_reached, hwrap, hnot, by decide +kernel,
    by decide +kernel, by decide +kernel⟩

end Pristine.Bsfs
