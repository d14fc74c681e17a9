import Pristine.Bsfs.BufferBounds

/-!
# Reads after a failed disk read

A disk read that fails may have stored some sectors already.  `bsfs_fread` reads
into `file->buf` without marking the cached block as gone, so after a failure
`cached_block` can name a block that is no longer in the buffer.  A later read of
that block takes what the failed read left there (`fread_torn_bytes`), any other
read is right (`fread_after_failure`).  The L1 table has no such problem: it is read
only while none is cached.

Reads here stay inside one block.  A disk is a function of the sector, and another one
for each call: in one call a sector is asked for twice only if a block is its own L1
table.
-/

namespace Pristine.Bsfs

open Kernel Lib Relation

/-! ## Runs -/

/-- An open file.  `torn` says that the last disk read into the buffer failed. -/
structure FaultRun where
  file : BsfsFile
  torn : Bool

/-- The blocks a read covers. -/
def FaultRun.covers (r : FaultRun) (size count : Nat) : Nat :=
  freadSpan kernelContext r.file (freadEnd r.file size count)

/-- A read of the run. -/
def FaultRun.fread (disk : DiskRead) (r : FaultRun) (size count : Nat) :
    Int × List UInt8 × FaultRun :=
  let result := bsfsFread kernelContext disk size count r.file
  (result.1, result.2.1,
    { file := result.2.2
      torn := if freadDests disk size count r.file = [] then r.torn else result.1 < 0 })

/-- A read inside one block, without wrapping around in 32 bits, that does not begin in the cached
block while the last disk read into the buffer failed. -/
structure CleanRead (r : FaultRun) (size count : Nat) : Prop where
  noWrap : r.file.position + size * count ≤ 2 ^ 32 - 4096
  oneBlock : r.covers size count ≤ 1
  notTorn : r.torn = true → 0 < r.covers size count → r.file.position / 4096 ≠ r.file.cachedBlock

inductive FaultStep (img : ByteMem) : FaultRun → FaultRun → Prop
  | seek {r : FaultRun} (offset : Nat) (whence : Int) :
      FaultStep img r ⟨bsfsFseeko r.file offset whence, r.torn⟩
  | read {r : FaultRun} {disk : DiskRead} {size count : Nat} (hdisk : FaultyDisk img disk)
      (hclean : CleanRead r size count) : FaultStep img r (r.fread disk size count).2.2

/-- The invariant of an open file: the cached block lies in the buffer unless it is torn. -/
structure FaultInv (img : ByteMem) (inode : BsfsInode) (r : FaultRun) : Prop where
  inode_eq : r.file.inode = inode
  position : r.file.position ≤ inode.size
  l1 : L1Ok img inode r.file.l1Table r.file.cachedL1
  slot : r.file.cachedBlock ≠ uint32Max → r.torn = false →
    InSlot img inode r.file.buf r.file.cachedBlock 0

section Loop

variable {img : ByteMem} {disk : DiskRead} {file : BsfsFile} {i : Nat}

theorem freadBlocks_one (disk : DiskRead) (i : Nat) (file : BsfsFile) :
    freadBlocks kernelContext disk 1 i 0 file =
      if i = file.cachedBlock then (.ok (), file) else fetchBlock kernelContext disk i 0 file := by
  unfold freadBlocks
  split
  · rfl
  · rcases fetchBlock kernelContext disk i 0 file with ⟨code | _, file'⟩ <;> rfl

theorem loopDests_one (disk : DiskRead) (i : Nat) (file : BsfsFile) :
    loopDests kernelContext disk 1 i 0 file =
      if i = file.cachedBlock then [] else fetchDest kernelContext disk i 0 file := by
  unfold loopDests
  split
  · rfl
  · rcases fetchBlock kernelContext disk i 0 file with ⟨code | _, file'⟩ <;> simp [loopDests]

/-- What the block loop of such a read does. -/
structure LoopOutcome (img : ByteMem) (r : FaultRun) (span : Nat) (dests : List Nat)
    (result : Except Int Unit × BsfsFile) : Prop where
  same : SameCursor r.file result.2
  l1 : L1Ok img r.file.inode result.2.l1Table result.2.cachedL1
  loaded : result.1 = .ok () → ∀ k, k < span →
    InSlot img r.file.inode result.2.buf (r.file.position / 4096 + k) k
  kept : dests = [] → result.2.buf = r.file.buf ∧ result.2.cachedBlock = r.file.cachedBlock
  stored : dests ≠ [] → result.1 = .ok () →
    InSlot img r.file.inode result.2.buf result.2.cachedBlock 0

theorem loop_outcome (haddr : Addressable img file.inode) {r : FaultRun} (hfile : r.file = file)
    (hinv : FaultInv img file.inode r) (hdisk : FaultyDisk img disk) {span : Nat} (hspan : span ≤ 1)
    (hblock : 0 < span → 4096 * (file.position / 4096) < file.inode.size)
    (hwidth : file.position < 2 ^ 32)
    (hclean : r.torn = true → 0 < span → file.position / 4096 ≠ file.cachedBlock) :
    LoopOutcome img r span (loopDests kernelContext disk span (file.position / 4096) 0 file)
      (freadBlocks kernelContext disk span (file.position / 4096) 0 file) := by
  subst hfile
  have hsame := freadBlocks_cursor disk span (r.file.position / 4096) 0 r.file
  rcases Nat.le_one_iff_eq_zero_or_eq_one.mp hspan with rfl | rfl
  · exact ⟨hsame, hinv.l1, fun _ k hk => absurd hk (Nat.not_lt_zero k), fun _ => ⟨rfl, rfl⟩,
      fun h => absurd rfl h⟩
  rw [freadBlocks_one] at hsame ⊢
  rw [loopDests_one]
  by_cases hhit : r.file.position / 4096 = r.file.cachedBlock
  · rw [if_pos hhit, if_pos hhit]
    have htorn : r.torn = false := by
      rw [← Bool.not_eq_true]
      exact fun htorn => hclean htorn (by omega) hhit
    have hslot := hinv.slot (by unfold uint32Max; omega) htorn
    refine ⟨⟨rfl, rfl, rfl, rfl⟩, hinv.l1, fun _ k hk => ?_, fun _ => ⟨rfl, rfl⟩,
      fun h => absurd rfl h⟩
    obtain rfl : k = 0 := by omega
    rw [Nat.add_zero, hhit]
    exact hslot
  · rw [if_neg hhit] at hsame ⊢
    rw [if_neg hhit]
    obtain ⟨bytes, l1Table, cachedL1, hspec⟩ :=
      fetchBlock_spec disk (r.file.position / 4096) 0 r.file
    obtain ⟨hl1, hbytes⟩ := hspec.image img hdisk haddr (hblock (by omega)) hinv.l1
    rcases hspec.outcome with ⟨-, hcall⟩ | ⟨code, -, -, hcall⟩
    · have hslot : InSlot img r.file.inode (storeBytes r.file.buf 0 bytes)
          (r.file.position / 4096) 0 := by
        rw [hbytes (by rw [hcall])]
        exact fun a ha => storeBytes_bytesAt _ _ ha
      have hdest := hspec.dest.resolve_right fun h => h.2.2 (by rw [hcall])
      rw [hcall] at hsame ⊢
      refine ⟨hsame, hl1, fun _ k hk => ?_, fun hnone => ?_, fun _ _ => hslot⟩
      · obtain rfl : k = 0 := by omega
        exact hslot
      · rw [hdest.1] at hnone
        cases hnone
    · have hkept : fetchDest kernelContext disk (r.file.position / 4096) 0 r.file = [] →
          bytes = [] := by
        intro hnone
        rcases hspec.dest with ⟨hsome, -⟩ | ⟨-, hempty, -⟩
        · rw [hsome] at hnone
          cases hnone
        · exact hempty
      rw [hcall] at hsame ⊢
      refine ⟨hsame, hl1, nofun, fun hnone => ⟨?_, rfl⟩, fun _ => nofun⟩
      rw [hkept hnone, storeBytes_nil]

end Loop

section Runs

variable {img : ByteMem} {inode : BsfsInode} {r : FaultRun} {disk : DiskRead} {size count : Nat}

/-- The bytes of a clean read lie in the blocks it covers. -/
theorem cleanRead_bounds (hposition : r.file.position ≤ r.file.inode.size)
    (hclean : CleanRead r size count) :
    r.file.position + readLength r.file size count ≤
        4096 * (r.file.position / 4096 + r.covers size count) ∧
      (0 < r.covers size count → 4096 * (r.file.position / 4096) < r.file.inode.size) := by
  have hnoWrap := hclean.noWrap
  have hlength : readLength r.file size count ≤ size * count := Nat.min_le_left ..
  have hleft : readLength r.file size count ≤ r.file.inode.size - r.file.position := by
    unfold readLength
    omega
  have hstart : u32 r.file.position = r.file.position := u32_of_lt (by omega)
  have hcovers : r.covers size count =
      (r.file.position + readLength r.file size count + 4095) / 4096 - r.file.position / 4096 := by
    show divCeil32 (freadEnd r.file size count) 4096 - u32 r.file.position / 4096 = _
    rw [freadEnd_eq hposition (by omega), hstart]
    generalize readLength r.file size count = n at *
    unfold divCeil32 u32
    omega
  rw [hcovers]
  generalize readLength r.file size count = n at *
  exact ⟨by omega, by omega⟩

/-- The block loop of a clean read. -/
theorem cleanRead_loop (haddr : Addressable img inode) (hinv : FaultInv img inode r)
    (hdisk : FaultyDisk img disk) (hclean : CleanRead r size count) :
    LoopOutcome img r (r.covers size count) (freadDests disk size count r.file)
      (freadLoop disk size count r.file) := by
  obtain rfl := hinv.inode_eq
  have hnoWrap := hclean.noWrap
  have hwidth : r.file.position < 2 ^ 32 := by omega
  have houtcome := loop_outcome haddr rfl hinv hdisk hclean.oneBlock
    (cleanRead_bounds hinv.position hclean).2 hwidth hclean.notTorn
  rw [freadLoop_eq, freadDests, u32_of_lt hwidth]
  exact houtcome

/-- What a read of the run is, from what `bsfs_fread` returns. -/
theorem FaultRun.fread_eq {code : Int} {bytes : List UInt8} {file : BsfsFile}
    (hcall : bsfsFread kernelContext disk size count r.file = (code, bytes, file)) :
    r.fread disk size count =
      (code, bytes, ⟨file,
        if freadDests disk size count r.file = [] then r.torn else decide (code < 0)⟩) := by
  unfold FaultRun.fread
  rw [hcall]

/-- What a read should do: a success returns bytes of the file, a failure moves nothing. -/
structure ReadsRight (img : ByteMem) (r : FaultRun) (result : Int × List UInt8 × FaultRun) :
    Prop where
  success : 0 ≤ result.1 →
    result.2.1 = fileBytes img r.file.inode r.file.position result.1.toNat
  failure : result.1 < 0 →
    result.2.2.file.position = r.file.position ∧ result.2.2.file.eof = r.file.eof

/-- A clean read is right and keeps the invariant. -/
theorem faultInv_read (haddr : Addressable img inode) (hinv : FaultInv img inode r)
    (hdisk : FaultyDisk img disk) (hclean : CleanRead r size count) :
    FaultInv img inode (r.fread disk size count).2.2 ∧ ReadsRight img r (r.fread disk size count) := by
  obtain ⟨hsame, hl1, hloaded, hkept, hstored⟩ := cleanRead_loop haddr hinv hdisk hclean
  obtain rfl := hinv.inode_eq
  have hposition := hinv.position
  have hnoWrap := hclean.noWrap
  have hwidth : r.file.position < 2 ^ 32 := by omega
  obtain ⟨hcover, -⟩ := cleanRead_bounds hposition hclean
  have htotal : freadTotal r.file size count = readLength r.file size count :=
    freadTotal_eq hposition (by omega)
  have hsmall : freadTotal r.file size count ≤ 4096 := by
    have honeBlock := hclean.oneBlock
    omega
  -- the slot of the cached block, for a loop that keeps the buffer and for one that stores to it
  have hslot : ∀ {torn : Bool}, (freadDests disk size count r.file ≠ [] → torn = false →
        (freadLoop disk size count r.file).1 = .ok ()) →
      (freadLoop disk size count r.file).2.cachedBlock ≠ uint32Max →
      (if freadDests disk size count r.file = [] then r.torn else torn) = false →
      InSlot img r.file.inode (freadLoop disk size count r.file).2.buf
        (freadLoop disk size count r.file).2.cachedBlock 0 := by
    intro torn hok hcached htorn
    by_cases hdests : freadDests disk size count r.file = []
    · obtain ⟨hbuf, hblock⟩ := hkept hdests
      rw [if_pos hdests] at htorn
      rw [hblock] at hcached
      rw [hbuf, hblock]
      exact hinv.slot hcached htorn
    · rw [if_neg hdests] at htorn
      exact hstored hdests (hok hdests htorn)
  rcases freadLoop_cases disk size count r.file with ⟨code, file', hloop, -⟩ | ⟨file', hloop, -⟩
  · have hnegative : code < 0 := freadBlocks_error hloop
    rw [FaultRun.fread_eq (bsfsFread_of_error hsmall hloop)]
    rw [hloop] at hsame hl1 hslot
    refine ⟨⟨hsame.inode, ?_, hl1, ?_⟩, fun hcode => absurd hcode (by omega), fun _ => ?_⟩
    · rw [hsame.position]
      exact hposition
    · refine hslot fun _ htorn => ?_
      rw [decide_eq_false_iff_not] at htorn
      exact absurd hnegative htorn
    · exact ⟨hsame.position, hsame.eof⟩
  · rw [FaultRun.fread_eq (bsfsFread_of_ok hsmall hloop)]
    rw [hloop] at hsame hl1 hslot hloaded
    have hlength : readLength r.file size count ≤ r.file.inode.size - r.file.position := by
      unfold readLength
      omega
    refine ⟨⟨?_, ?_, ?_, ?_⟩, fun _ => ?_, fun hcode => absurd hcode (by simp)⟩
    · rw [BsfsFile.moveTo_inode]
      exact hsame.inode
    · rw [BsfsFile.moveTo_position, freadEnd_eq hposition (by omega)]
      omega
    · rw [BsfsFile.moveTo_l1Table, BsfsFile.moveTo_cachedL1]
      exact hl1
    · rw [BsfsFile.moveTo_cachedBlock, BsfsFile.moveTo_buf]
      exact hslot fun _ _ => rfl
    · rw [Int.toNat_natCast, u32_of_lt hwidth, htotal]
      exact bytesAt_slots (hloaded rfl) hcover

theorem faultInv_step (haddr : Addressable img inode) {r' : FaultRun}
    (hinv : FaultInv img inode r) (hstep : FaultStep img r r') : FaultInv img inode r' := by
  cases hstep with
  | seek offset whence =>
    obtain ⟨position, eof, hseek, hposition⟩ := bsfsFseeko_frame r.file offset whence
    rw [hseek]
    exact ⟨hinv.inode_eq, hinv.inode_eq ▸ hposition, hinv.l1, hinv.slot⟩
  | read hdisk hclean => exact (faultInv_read haddr hinv hdisk hclean).1

/-- In a run in which no read begins in the cached block after a disk read into the buffer failed,
reads are right, whatever the disk does. -/
theorem fread_after_failure (haddr : Addressable img inode) {buf l1Table : ByteMem} {bufsize : Nat}
    (hrun : ReflTransGen (FaultStep img) ⟨bsfsFopen inode buf l1Table bufsize, false⟩ r)
    (hdisk : FaultyDisk img disk) (hclean : CleanRead r size count) :
    ReadsRight img r (r.fread disk size count) := by
  have hfopen : FaultInv img inode ⟨bsfsFopen inode buf l1Table bufsize, false⟩ :=
    ⟨rfl, Nat.zero_le _, fun h => absurd rfl h, fun h => absurd rfl h⟩
  have hinv : FaultInv img inode r :=
    run_invariant hrun hfopen fun _ _ => faultInv_step haddr
  exact (faultInv_read haddr hinv hdisk hclean).2

end Runs

/-! ## A read of a torn buffer -/

/-- A disk that reads the first sector of a block and then fails. -/
def tornDisk (img : ByteMem) : DiskRead := fun lba _ => (false, bytesAt img (lba * 512) 512)

/-- A file of two blocks is opened. -/
def openedRun : FaultRun := ⟨bsfsFopen stripedInode (fun _ => 0) (fun _ => 0) 4096, false⟩

/-- Its first byte is read. -/
def primedRun : FaultRun := (openedRun.fread (imageDisk stripedImage) 1 1).2.2

/-- It is moved to the second block. -/
def movedRun : FaultRun := ⟨bsfsFseeko primedRun.file 4096 bsfsFseekoSet, primedRun.torn⟩

/-- A read of that block fails. -/
def tornRun : FaultRun := (movedRun.fread (tornDisk stripedImage) 1 1).2.2

/-- It is moved back to its start. -/
def rewoundRun : FaultRun := ⟨bsfsFseeko tornRun.file 0 bsfsFseekoSet, tornRun.torn⟩

theorem faultyDisk_torn (img : ByteMem) : FaultyDisk img (tornDisk img) :=
  fun _ _ h => absurd h (by simp [tornDisk])

theorem stripedInode_addressable : Addressable stripedImage stripedInode :=
  stripedInode_readable.addressable

theorem tornRun_reached : ReflTransGen (FaultStep stripedImage) openedRun tornRun := by
  have hprimed : FaultStep stripedImage openedRun primedRun :=
    .read (faultyDisk_image _)
      ⟨by decide +kernel, by decide +kernel, fun h => absurd h (by decide +kernel)⟩
  have hmoved : FaultStep stripedImage primedRun movedRun := .seek 4096 bsfsFseekoSet
  have htorn : FaultStep stripedImage movedRun tornRun :=
    .read (faultyDisk_torn _)
      ⟨by decide +kernel, by decide +kernel, fun h => absurd h (by decide +kernel)⟩
  exact .tail (.tail (.single hprimed) hmoved) htorn

/-- The second block can be read after the failure. -/
theorem fread_after_failure_retried :
    Addressable stripedImage stripedInode ∧ tornRun.torn = true ∧ CleanRead tornRun 1 1 ∧
      ReadsRight stripedImage tornRun (tornRun.fread (imageDisk stripedImage) 1 1) := by
  have hclean : CleanRead tornRun 1 1 :=
    ⟨by decide +kernel, by decide +kernel, fun _ _ => by decide +kernel⟩
  exact ⟨stripedInode_addressable, by decide +kernel, hclean,
    fread_after_failure stripedInode_addressable tornRun_reached (faultyDisk_image _) hclean⟩

/-- The first byte, read again, is one that the failed read left in the buffer. -/
theorem fread_torn_bytes :
    ReflTransGen (FaultStep stripedImage) openedRun rewoundRun ∧
      ¬ CleanRead rewoundRun 1 1 ∧
      (rewoundRun.fread (imageDisk stripedImage) 1 1).1 = 1 ∧
      (rewoundRun.fread (imageDisk stripedImage) 1 1).2.1 = [7] ∧
      fileBytes stripedImage stripedInode rewoundRun.file.position 1 = [5] := by
  have hreached : ReflTransGen (FaultStep stripedImage) openedRun rewoundRun :=
    .tail tornRun_reached (.seek 0 bsfsFseekoSet)
  have hnot : ¬ CleanRead rewoundRun 1 1 := fun h =>
    h.notTorn (by decide +kernel) (by decide +kernel) (by decide +kernel)
  exact ⟨hreached, hnot, by decide +kernel, by decide +kernel, by decide +kernel⟩

end Pristine.Bsfs
