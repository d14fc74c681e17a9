import Mathlib.Data.List.GetD
import Pristine.Bsfs.Counters

/-!
# Storing a file

What the write loop of `bsfs_populate_dir` leaves in the image and in the inode.
Allocation counts, so the blocks of a file stored from block `c` on are
consecutive with one gap: the L1 table is allocated right after the eleventh data
block (`fileBlock`).  `FileOn` says that a file's bytes and pointers are in place;
`storeFile_spec` that storing a file that fits gives this, and `storeFile_fits`
that no other file is stored.
-/

namespace Pristine.Bsfs

open Function Kernel Lib

/-- Block `k` of a file stored from block `c` on, and the first free block once `k` of its blocks
are stored. -/
def fileBlock (c k : Nat) : Nat := if k ≤ 10 then c + k else c + k + 1

/-- The block of the L1 table. -/
def fileL1 (c : Nat) : Nat := c + 11

/-- The number of data blocks of a file. -/
def fileBlocks (size : Nat) : Nat := (size + 4095) / 4096

section FileBlock

variable {c k : Nat}

/-- One block is allocated for every block of data, and one more for the L1 table. -/
theorem fileBlock_succ (c k : Nat) :
    fileBlock c (k + 1) = fileBlock c k + if k = 10 then 2 else 1 := by
  unfold fileBlock
  split <;> split <;> split <;> omega

theorem fileBlock_bounds (c k : Nat) : c + k ≤ fileBlock c k ∧ fileBlock c k ≤ c + k + 1 := by
  unfold fileBlock
  split <;> omega

theorem fileBlock_lt {j : Nat} (hjk : j < k) : fileBlock c j < fileBlock c k := by
  unfold fileBlock
  split <;> split <;> omega

/-- The L1 table is no data block. -/
theorem fileBlock_ne_l1 (c k : Nat) : fileBlock c k ≠ fileL1 c := by
  unfold fileBlock fileL1
  split <;> omega

end FileBlock

/-! ## The loop -/

/-- A file's inode with the given pointers and counts. -/
def fileInode (time : Nat) (pointers : Fin bsfsMaxDirectblocks → Nat) (l1 blocks size : Nat) :
    BsfsInode :=
  { freshInode bsfsInodeTypeFile time BsfsInode.zero with
    blocksDirect := pointers
    blocksL1indirect := l1
    blocks := blocks
    size := size }

/-- The direct pointers once `k` blocks are stored. -/
def storedPointers (c k : Nat) : Fin bsfsMaxDirectblocks → Nat := fun j =>
  if j.val < k then fileBlock c j.val else 0

/-- The inode once `k` blocks are stored. -/
def storedInode (time c k size : Nat) : BsfsInode :=
  fileInode time (storedPointers c k) (if k ≤ 10 then 0 else fileL1 c) k (min (4096 * k) size)

/-- The entries of the L1 table once `k` blocks are stored. -/
def storedEntries (c k : Nat) : Nat → Nat := fun j => if j < k - 10 then fileBlock c (10 + j) else 0

/-- The L1 table once `k` blocks are stored. -/
def storedL1 (c k : Nat) : Option (Nat × (Nat → Nat)) :=
  if k ≤ 10 then none else some (fileL1 c, storedEntries c k)

/-- The loop invariant: from `s₀` on, `k` blocks of `data` were stored from block `c` on. -/
structure Storing (s₀ s : PopulateState) (offset total inodes idx time c k : Nat)
    (data : List UInt8) (st : StoreState) : Prop where
  counters : Counters s offset total (fileBlock c k) inodes
  kept : Kept s₀ s
  table : s.inodeTable = update s₀.inodeTable idx (storedInode time c k data.length)
  outside : ∀ a, a < 4096 * c ∨ 4096 * fileBlock c k ≤ a → s.image.bytes a = s₀.image.bytes a
  bytes : ∀ p, p < 4096 * k → p < data.length →
    s.image.bytes (4096 * fileBlock c (p / 4096) + p % 4096) = data.getD p 0
  l1 : st.l1 = storedL1 c k
  crc : st.crc = crc32Update crc32Start (data.take (4096 * k))

/-- The pointer to block `k`. -/
def pointTo (inode : BsfsInode) (c k : Nat) : BsfsInode :=
  if k < 10 then inode.setDirect k (fileBlock c k)
  else if k = 10 then { inode with blocksL1indirect := fileL1 c }
  else inode

/-- The end of the loop body: one more block, and the bytes in it. -/
def countChunk (inode : BsfsInode) (length : Nat) : BsfsInode :=
  { inode with blocks := u32 (inode.blocks + 1), size := (inode.size + length) % 2 ^ 64 }

theorem storedPointers_succ (c : Nat) {k : Nat} (hk : k < bsfsMaxDirectblocks) :
    storedPointers c (k + 1) = update (storedPointers c k) ⟨k, hk⟩ (fileBlock c k) := by
  funext j
  unfold storedPointers
  by_cases hj : j = ⟨k, hk⟩
  · subst hj
    rw [update_self, if_pos (Nat.lt_succ_self k)]
  · have hne : j.val ≠ k := fun h => hj (Fin.ext h)
    rw [update_of_ne hj]
    exact if_congr (by omega) rfl rfl

theorem storedPointers_full (c : Nat) {k : Nat} (hk : 10 ≤ k) :
    storedPointers c (k + 1) = storedPointers c k := by
  funext j
  have hj : j.val < 10 := j.isLt
  exact if_congr (by omega) rfl rfl

theorem pointTo_storedInode (time c k size : Nat) :
    pointTo (storedInode time c k size) c k =
      fileInode time (storedPointers c (k + 1)) (if k + 1 ≤ 10 then 0 else fileL1 c) k
        (min (4096 * k) size) := by
  unfold pointTo storedInode
  by_cases hdirect : k < 10
  · rw [if_pos hdirect, if_pos (by omega : k ≤ 10), if_pos (by omega : k + 1 ≤ 10),
      storedPointers_succ c hdirect]
    exact dif_pos hdirect
  · rw [if_neg hdirect, storedPointers_full c (by omega), if_neg (by omega : ¬ k + 1 ≤ 10)]
    by_cases hten : k = 10
    · rw [if_pos hten]
      rfl
    · rw [if_neg hten, if_neg (by omega : ¬ k ≤ 10)]

theorem storedInode_succ (time c : Nat) {k size : Nat} (hk : 4096 * k < size) (hmax : k < 1034) :
    storedInode time c (k + 1) size =
      countChunk (pointTo (storedInode time c k size) c k) (min 4096 (size - 4096 * k)) := by
  have hblocks : u32 (k + 1) = k + 1 := u32_of_lt (by omega)
  have hsize : (min (4096 * k) size + min 4096 (size - 4096 * k)) % 2 ^ 64 =
      min (4096 * (k + 1)) size := by omega
  rw [pointTo_storedInode]
  show _ = fileInode _ _ _ (u32 (k + 1)) ((min (4096 * k) size + min 4096 (size - 4096 * k)) % 2 ^ 64)
  rw [hblocks, hsize]
  rfl

theorem storedEntries_succ (c : Nat) {k : Nat} (hk : 10 ≤ k) :
    update (storedEntries c k) (k - 10) (fileBlock c k) = storedEntries c (k + 1) := by
  funext j
  unfold storedEntries
  by_cases hj : j = k - 10
  · subst hj
    rw [update_self, if_pos (by omega), show 10 + (k - 10) = k by omega]
  · rw [update_of_ne hj]
    exact if_congr (by omega) rfl rfl

/-- What one pass of the loop does before it counts. -/
structure Placed (s s' : PopulateState) (offset total inodes idx c k : Nat) (chunk : List UInt8)
    (st st' : StoreState) : Prop where
  counters : Counters s' offset total (fileBlock c (k + 1)) inodes
  kept : Kept s s'
  image : s'.image = s.image.write (4096 * fileBlock c k) chunk
  table : s'.inodeTable = update s.inodeTable idx (pointTo (s.inodeTable idx) c k)
  l1 : st'.l1 = storedL1 c (k + 1)
  crc : st'.crc = crc32Update st.crc chunk

section Loop

variable {s : PopulateState} {st : StoreState} {offset total inodes idx c k : Nat} {chunk : List UInt8}

/-- `s` is the state after the allocation of the block. -/
theorem storeDirect_spec (hc : Counters s offset total (fileBlock c k + 1) inodes)
    (hidx : idx < total / 4) (hlen : chunk.length ≤ 4096) (hk : k < 10)
    (hl1 : st.l1 = storedL1 c k) :
    ∃ st' s', storeDirect idx k (fileBlock c k) chunk st s = .ok st' s' ∧
      Placed s s' offset total inodes idx c k chunk st st' := by
  have hnext := hc.next_le
  have hcount : idx < s.header.inodeCount := by rwa [hc.volume.inodeCount]
  have hpoint : (s.inodeTable idx).setDirect k (fileBlock c k) = pointTo (s.inodeTable idx) c k :=
    (if_pos hk).symm
  have hblock : fileBlock c (k + 1) = fileBlock c k + 1 := by
    rw [fileBlock_succ, if_neg (by omega)]
  unfold storeDirect
  rw [bind_of_ok (modifyInode_of_lt hcount), hpoint]
  refine ⟨_, _, (bind_of_ok (writeBlock_of_lt (hc.setInode _ _) (by omega))).trans rfl, ?_⟩
  refine ⟨?_, (kept_setInode ..).trans (kept_writeAt ..), rfl, rfl, ?_, rfl⟩
  · rw [hblock]
    exact (hc.setInode _ _).writeAt (by omega)
  · show st.l1 = storedL1 c (k + 1)
    rw [hl1]
    unfold storedL1
    rw [if_pos (by omega), if_pos (by omega)]

/-- The first entry brings the table with it. -/
theorem l1TableFor_first (exits : Bool) (hc : Counters s offset total (fileL1 c) inodes)
    (hidx : idx < total / 4) (hroom : fileL1 c < total) :
    l1TableFor exits idx 0 st s = .ok (some (fileL1 c, fun _ => 0))
      ((s.takeBlock (fileL1 c)).setInode idx
        { s.inodeTable idx with blocksL1indirect := fileL1 c }) := by
  have hcount : idx < (s.takeBlock (fileL1 c)).header.inodeCount := by
    rwa [(hc.takeBlock hroom).volume.inodeCount]
  unfold l1TableFor
  rw [if_pos rfl, bind_of_ok (bsfsAllocBlock_next hc hroom), bind_of_ok (modifyInode_of_lt hcount),
    takeBlock_inodeTable]
  rfl

theorem l1TableFor_spec (exits : Bool) (hc : Counters s offset total (fileBlock c k + 1) inodes)
    (hidx : idx < total / 4) (hk : 10 ≤ k) (hroom : fileBlock c (k + 1) ≤ total)
    (hl1 : st.l1 = storedL1 c k) :
    ∃ s', l1TableFor exits idx (k - 10) st s = .ok (some (fileL1 c, storedEntries c k)) s' ∧
      Counters s' offset total (fileBlock c (k + 1)) inodes ∧ Kept s s' ∧ s'.image = s.image ∧
      s'.inodeTable = update s.inodeTable idx (pointTo (s.inodeTable idx) c k) := by
  by_cases hten : k = 10
  · subst hten
    have hc1 : Counters s offset total (fileL1 c) inodes := hc
    have hroom1 : fileL1 c < total := hroom
    have hentries : storedEntries c 10 = fun _ => 0 := by
      funext j
      exact if_neg (by omega)
    refine ⟨_, hentries ▸ l1TableFor_first exits hc1 hidx hroom1, ?_, ?_, ?_, ?_⟩
    · exact (hc1.takeBlock hroom1).setInode _ _
    · exact (kept_takeBlock ..).trans (kept_setInode ..)
    · rw [setInode_image, takeBlock_image]
    · rw [setInode_inodeTable, takeBlock_inodeTable]
      rfl
  · have hpoint : pointTo (s.inodeTable idx) c k = s.inodeTable idx := by
      unfold pointTo
      rw [if_neg (by omega), if_neg hten]
    have hnext : fileBlock c (k + 1) = fileBlock c k + 1 := by rw [fileBlock_succ, if_neg hten]
    refine ⟨s, ?_, hnext ▸ hc, .refl s, rfl, ?_⟩
    · unfold l1TableFor
      rw [if_neg (by omega), hl1]
      unfold storedL1
      rw [if_neg (by omega)]
      rfl
    · rw [hpoint, update_eq_self]

theorem storeIndirect_spec (exits : Bool) (hc : Counters s offset total (fileBlock c k + 1) inodes)
    (hidx : idx < total / 4) (hlen : chunk.length ≤ 4096) (hk : 10 ≤ k)
    (hroom : fileBlock c (k + 1) ≤ total) (hl1 : st.l1 = storedL1 c k) :
    ∃ st' s', storeIndirect exits idx (k - 10) (fileBlock c k) chunk st s = .ok st' s' ∧
      Placed s s' offset total inodes idx c k chunk st st' := by
  have hnext := hc.next_le
  obtain ⟨s1, htable, hc1, hkept, himage, hinode⟩ :=
    l1TableFor_spec exits hc hidx hk hroom hl1
  unfold storeIndirect
  rw [bind_of_ok htable]
  dsimp only
  rw [bind_of_ok (writeBlock_of_lt hc1 (by omega)), storedEntries_succ c hk]
  refine ⟨_, _, rfl, hc1.writeAt (by omega), hkept.trans (kept_writeAt ..), ?_, hinode, ?_, rfl⟩
  · rw [writeAt_image, himage]
  · exact (if_neg (by omega)).symm

theorem placeChunk_spec (exits : Bool) (path : CString) (fileSize : Nat)
    (hc : Counters s offset total (fileBlock c k + 1) inodes)
    (hidx : idx < total / 4) (hlen : chunk.length ≤ 4096) (hk : k < 1034)
    (hroom : fileBlock c (k + 1) ≤ total) (hl1 : st.l1 = storedL1 c k) :
    ∃ st' s', placeChunk exits path fileSize idx k (fileBlock c k) chunk st s = .ok st' s' ∧
      Placed s s' offset total inodes idx c k chunk st st' := by
  have hstart : u32 (bsfsMaxDirectblocks + s.header.blockSize / 4) = 1034 := by
    rw [hc.volume.blockSize]
    exact u32_of_lt (by decide)
  unfold placeChunk
  rw [get_bind, hstart]
  by_cases hdirect : k < bsfsMaxDirectblocks
  · rw [if_pos hdirect]
    exact storeDirect_spec hc hidx hlen hdirect hl1
  · rw [if_neg hdirect, if_pos hk]
    exact storeIndirect_spec exits hc hidx hlen (Nat.le_of_not_lt hdirect) hroom hl1

end Loop

/-- The bytes that the read for block `k` returns. -/
def fileChunk (data : List UInt8) (k : Nat) : List UInt8 := (data.drop (k * 4096)).take 4096

theorem length_fileChunk (data : List UInt8) (k : Nat) :
    (fileChunk data k).length = min 4096 (data.length - 4096 * k) := by
  unfold fileChunk
  rw [List.length_take, List.length_drop, Nat.mul_comm]

theorem getD_fileChunk (data : List UInt8) {k j : Nat} (hj : j < 4096) :
    (fileChunk data k).getD j 0 = data.getD (4096 * k + j) 0 := by
  unfold fileChunk
  rw [List.getD_eq_getElem?_getD, List.getElem?_take_of_lt hj, List.getElem?_drop, Nat.mul_comm,
    ← List.getD_eq_getElem?_getD]

theorem take_fileChunk (data : List UInt8) (k : Nat) :
    data.take (4096 * k) ++ fileChunk data k = data.take (4096 * (k + 1)) := by
  unfold fileChunk
  rw [Nat.mul_comm k 4096, Nat.mul_add, Nat.mul_one, List.take_add]

section Chunks

variable {s₀ s : PopulateState} {st : StoreState} {offset total inodes idx time c k : Nat}
variable {data : List UInt8}

/-- One pass of the loop. -/
theorem storeChunk_spec (exits : Bool) (path : CString) (fileSize : Nat)
    (hinv : Storing s₀ s offset total inodes idx time c k data st) (hidx : idx < total / 4)
    (hk : k < 1034) (hdata : 4096 * k < data.length) (hroom : fileBlock c (k + 1) ≤ total) :
    ∃ st' s', storeChunk exits path fileSize idx k (fileChunk data k) st s = .ok st' s' ∧
      Storing s₀ s' offset total inodes idx time c (k + 1) data st' := by
  have hbefore : fileBlock c k < fileBlock c (k + 1) := fileBlock_lt (Nat.lt_succ_self k)
  have hlen := length_fileChunk data k
  obtain ⟨st', s1, hplace, hplaced⟩ := placeChunk_spec exits path fileSize
    (hinv.counters.takeBlock (by omega)) hidx (by omega : (fileChunk data k).length ≤ 4096) hk hroom
    hinv.l1
  have hcount : idx < s1.header.inodeCount := by rwa [hplaced.counters.volume.inodeCount]
  have himage : s1.image = s.image.write (4096 * fileBlock c k) (fileChunk data k) := by
    rw [hplaced.image, takeBlock_image]
  have hfits : 4096 * fileBlock c k + (fileChunk data k).length ≤ s.image.size := by
    rw [hinv.counters.imageSize]
    omega
  have hinode : countChunk (s1.inodeTable idx) (fileChunk data k).length =
      storedInode time c (k + 1) data.length := by
    rw [hplaced.table, takeBlock_inodeTable, hinv.table, update_self, update_self,
      storedInode_succ time c hdata hk, hlen]
  refine ⟨st', s1.setInode idx (storedInode time c (k + 1) data.length), ?_, ?_⟩
  · unfold storeChunk
    rw [bind_of_ok (bsfsAllocBlock_next hinv.counters (by omega)), bind_of_ok hplace, ← hinode]
    exact (bind_of_ok (modifyInode_of_lt hcount)).trans rfl
  · refine ⟨hplaced.counters.setInode _ _, ?_, ?_, ?_, ?_, hplaced.l1, ?_⟩
    · exact hinv.kept.trans ((kept_takeBlock ..).trans (hplaced.kept.trans (kept_setInode ..)))
    · rw [setInode_inodeTable, hplaced.table, takeBlock_inodeTable, hinv.table,
        update_idem, update_idem]
    · intro a ha
      have hclow := (fileBlock_bounds c k).1
      rw [setInode_image, himage, HostFile.write_outside hfits (by omega)]
      exact hinv.outside a (by omega)
    · intro p hp hpdata
      rw [setInode_image, himage]
      by_cases hold : p < 4096 * k
      · have hblock : fileBlock c (p / 4096) < fileBlock c k := fileBlock_lt (by omega)
        rw [HostFile.write_outside hfits (by omega)]
        exact hinv.bytes p hold hpdata
      · have hblock : p / 4096 = k := by omega
        rw [hblock, HostFile.write_covered (by omega), getD_fileChunk data (by omega)]
        congr 1
        omega
    · rw [hplaced.crc, hinv.crc, ← crc32Update_append, take_fileChunk]

/-- The whole loop. -/
theorem storeChunks_spec (exits : Bool) (path : CString) (fileSize : Nat) {n : Nat}
    (hinv : Storing s₀ s offset total inodes idx time c k data st) (hidx : idx < total / 4)
    (hmax : k + n ≤ 1034) (hdata : k + n ≤ fileBlocks data.length)
    (hroom : fileBlock c (k + n) ≤ total) :
    ∃ st' s', storeChunks exits path fileSize idx k ((List.range' k n).map (fileChunk data)) st s =
        .ok st' s' ∧
      Storing s₀ s' offset total inodes idx time c (k + n) data st' := by
  induction n generalizing k s st with
  | zero => exact ⟨st, s, rfl, hinv⟩
  | succ n ih =>
    unfold fileBlocks at hdata
    have hstep : fileBlock c (k + 1) ≤ fileBlock c (k + (n + 1)) := by
      cases n with
      | zero => exact le_rfl
      | succ n => exact (fileBlock_lt (by omega)).le
    obtain ⟨st1, s1, hchunk, hinv1⟩ :=
      storeChunk_spec exits path fileSize hinv hidx (by omega) (by omega) (hstep.trans hroom)
    obtain ⟨st', s', hrest, hinv'⟩ := ih hinv1 (by omega) (by unfold fileBlocks; omega)
      (by rwa [Nat.add_assoc, Nat.add_comm 1 n])
    refine ⟨st', s', ?_, by rwa [Nat.add_assoc, Nat.add_comm 1 n] at hinv'⟩
    rw [List.range'_succ, List.map_cons]
    exact (bind_of_ok hchunk).trans hrest

end Chunks

/-! ## The whole file -/

/-- The inode of a file that was stored from block `c` on. -/
def finishedInode (time c : Nat) (data : List UInt8) : BsfsInode :=
  { storedInode time c (fileBlocks data.length) data.length with
    checksum := (crc32Finalize (crc32Update crc32Start data)).toNat }

/-- The bytes of a file and its L1 table are in place. -/
structure FileOn (img : ByteMem) (c : Nat) (data : List UInt8) : Prop where
  bytes : ∀ p, p < data.length → img (4096 * fileBlock c (p / 4096) + p % 4096) = data.getD p 0
  l1 : 10 < fileBlocks data.length → ∀ j, j < 1024 →
    loadLE img (4096 * fileL1 c + 4 * j) 4 = storedEntries c (fileBlocks data.length) j

/-- What the inode of such a file says. -/
structure FileInode (inode : BsfsInode) (c : Nat) (data : List UInt8) : Prop where
  type : inode.type = bsfsInodeTypeFile
  size : inode.size = data.length
  direct : ∀ j, j < 10 → inode.direct j = if j < fileBlocks data.length then fileBlock c j else 0
  l1 : inode.blocksL1indirect = if fileBlocks data.length ≤ 10 then 0 else fileL1 c
  checksum : inode.checksum = (crc32Finalize (crc32Update crc32Start data)).toNat

theorem finishedInode_fileInode (time c : Nat) (data : List UInt8) :
    FileInode (finishedInode time c data) c data where
  type := rfl
  size := by
    show min (4096 * fileBlocks data.length) data.length = data.length
    unfold fileBlocks
    omega
  direct := fun _ hj => dif_pos hj
  l1 := rfl
  checksum := rfl

theorem length_leBytes (width value : Nat) : (leBytes width value).length = width := by
  simp [leBytes]

theorem getD_leBytes (value : Nat) {width j : Nat} (hj : j < width) :
    (leBytes width value).getD j 0 = byteOf value j := by
  simp [leBytes, List.getD_eq_getElem?_getD, hj]

theorem l1Bytes_succ (capacity : Nat) (entries : Nat → Nat) :
    l1Bytes (capacity + 1) entries = l1Bytes capacity entries ++ leBytes 4 (entries capacity) := by
  simp [l1Bytes, List.range_succ]

theorem length_l1Bytes (capacity : Nat) (entries : Nat → Nat) :
    (l1Bytes capacity entries).length = 4 * capacity := by
  induction capacity with
  | zero => rfl
  | succ capacity ih =>
    rw [l1Bytes_succ, List.length_append, ih, length_leBytes]
    omega

theorem getD_l1Bytes (entries : Nat → Nat) {capacity k j : Nat} (hk : k < capacity) (hj : j < 4) :
    (l1Bytes capacity entries).getD (4 * k + j) 0 = byteOf (entries k) j := by
  induction capacity with
  | zero => omega
  | succ capacity ih =>
    have hlen := length_l1Bytes capacity entries
    rw [l1Bytes_succ]
    by_cases hlast : k < capacity
    · rw [List.getD_append _ _ _ _ (by omega)]
      exact ih hlast
    · obtain rfl : k = capacity := by omega
      rw [List.getD_append_right _ _ _ _ (by omega), hlen, Nat.add_sub_cancel_left,
        getD_leBytes _ hj]

section File

variable {s : PopulateState} {offset total inodes idx time c : Nat} {data : List UInt8}

theorem chunks_eq (data : List UInt8) :
    chunks 4096 data = (List.range' 0 (fileBlocks data.length)).map (fileChunk data) := by
  unfold chunks divCeil fileBlocks
  rw [List.range_eq_range']
  rfl

/-- The loop begins with an empty file. -/
theorem storing_start (time : Nat) (data : List UInt8) (hc : Counters s offset total c inodes)
    (hzero : s.inodeTable idx = .zero) :
    Storing s (s.setInode idx (freshInode bsfsInodeTypeFile time (s.inodeTable idx))) offset total
      inodes idx time c 0 data ⟨crc32Start, none⟩ where
  counters := hc.setInode _ _
  kept := kept_setInode ..
  table := by
    have hpointers : storedPointers c 0 = fun _ => 0 := funext fun j => if_neg (Nat.not_lt_zero _)
    rw [setInode_inodeTable, hzero]
    unfold storedInode
    rw [hpointers, Nat.mul_zero, Nat.zero_min]
    rfl
  outside := fun a _ => rfl
  bytes := fun p hp => absurd hp (by omega)
  l1 := rfl
  crc := rfl

/-- The L1 table is written behind the data, to the block left out for it. -/
theorem writeL1_spec {s₀ : PopulateState} {st : StoreState}
    (hinv : Storing s₀ s offset total inodes idx time c (fileBlocks data.length) data st) :
    ∃ s', writeL1 1024 st.l1 s = .ok () s' ∧
      Counters s' offset total (fileBlock c (fileBlocks data.length)) inodes ∧ Kept s₀ s' ∧
      s'.inodeTable = s.inodeTable ∧ FileOn s'.image.bytes c data ∧
      ∀ a, a < 4096 * c ∨ 4096 * fileBlock c (fileBlocks data.length) ≤ a →
        s'.image.bytes a = s₀.image.bytes a := by
  have hnext := hinv.counters.next_le
  rw [hinv.l1]
  by_cases hshort : fileBlocks data.length ≤ 10
  · refine ⟨s, ?_, hinv.counters, hinv.kept, rfl, ⟨?_, fun hlong => absurd hlong (by omega)⟩,
      hinv.outside⟩
    · unfold storedL1
      rw [if_pos hshort]
      rfl
    · intro p hp
      exact hinv.bytes p (by unfold fileBlocks; omega) hp
  · have hlast : fileL1 c < fileBlock c (fileBlocks data.length) := by
      unfold fileBlock fileL1
      rw [if_neg hshort]
      omega
    have hlen := length_l1Bytes 1024 (storedEntries c (fileBlocks data.length))
    have hfits : 4096 * fileL1 c +
        (l1Bytes 1024 (storedEntries c (fileBlocks data.length))).length ≤ s.image.size := by
      rw [hinv.counters.imageSize, hlen]
      omega
    refine ⟨s.writeAt (4096 * fileL1 c) (l1Bytes 1024 (storedEntries c (fileBlocks data.length))),
      ?_, hinv.counters.writeAt (by rw [hlen]; omega), hinv.kept.trans (kept_writeAt ..),
      writeAt_inodeTable .., ⟨?_, ?_⟩, ?_⟩
    · unfold storedL1
      rw [if_neg hshort]
      exact writeBlock_of_lt hinv.counters (by omega)
    · intro p hp
      have hne := fileBlock_ne_l1 c (p / 4096)
      rw [writeAt_image, HostFile.write_outside hfits (by omega)]
      exact hinv.bytes p (by unfold fileBlocks; omega) hp
    · intro _ j hj
      have hsmall := hinv.counters.small
      have hentry : storedEntries c (fileBlocks data.length) j < 256 ^ 4 := by
        unfold storedEntries
        split
        · have hbound : fileBlock c (10 + j) < fileBlock c (fileBlocks data.length) :=
            fileBlock_lt (by omega)
          omega
        · decide
      refine loadLE_of_bytes hentry fun i hi => ?_
      rw [writeAt_image, Nat.add_assoc, HostFile.write_covered (by omega),
        getD_l1Bytes _ hj hi]
    · intro a ha
      have hlow : c ≤ fileL1 c := Nat.le_add_right c 11
      rw [writeAt_image, HostFile.write_outside hfits (by omega)]
      exact hinv.outside a ha

/-- A file of at most 1034 blocks is stored if there are enough free blocks. -/
theorem storeFile_spec (exits : Bool) (path : CString) (time : Nat)
    (hc : Counters s offset total c inodes) (hidx : idx < total / 4)
    (hzero : s.inodeTable idx = .zero) (hmax : fileBlocks data.length ≤ 1034)
    (hroom : fileBlock c (fileBlocks data.length) ≤ total) :
    ∃ s', storeFile exits path time idx data s = .ok () s' ∧
      Counters s' offset total (fileBlock c (fileBlocks data.length)) inodes ∧ Kept s s' ∧
      s'.inodeTable = update s.inodeTable idx (finishedInode time c data) ∧
      FileOn s'.image.bytes c data ∧
      ∀ a, a < 4096 * c ∨ 4096 * fileBlock c (fileBlocks data.length) ≤ a →
        s'.image.bytes a = s.image.bytes a := by
  have hcount : idx < s.header.inodeCount := by rwa [hc.volume.inodeCount]
  obtain ⟨st, s1, hloop, hinv⟩ := storeChunks_spec (n := fileBlocks data.length) exits path
    data.length (storing_start time data hc hzero) hidx (by omega) (by omega)
    (by rwa [Nat.zero_add])
  rw [Nat.zero_add] at hinv
  obtain ⟨s2, hl1, hc2, hkept, htable, hfile, houtside⟩ := writeL1_spec hinv
  have hcount2 : idx < s2.header.inodeCount := by rwa [hc2.volume.inodeCount]
  refine ⟨s2.setInode idx (finishedInode time c data), ?_, hc2.setInode _ _,
    hkept.trans (kept_setInode ..), ?_, hfile, houtside⟩
  · have hbs : (s.setInode idx (freshInode bsfsInodeTypeFile time (s.inodeTable idx))).header.blockSize =
        4096 := hc.volume.blockSize
    have hcrc : st.crc = crc32Update crc32Start data := by
      rw [hinv.crc, List.take_of_length_le (by unfold fileBlocks; omega)]
    unfold storeFile
    rw [bind_of_ok (modifyInode_of_lt hcount), get_bind, hbs, chunks_eq,
      bind_of_ok hloop, bind_of_ok hl1, modifyInode_of_lt hcount2, htable, hinv.table,
      update_self, hcrc]
    rfl
  · rw [setInode_inodeTable, htable, hinv.table, update_idem]

end File

/-! ## Files that are not stored -/

section Fits

variable {path : CString} {s₀ s s' : PopulateState} {st st' : StoreState}
variable {offset total inodes idx time c k n fileSize : Nat} {data : List UInt8}

theorem placeChunk_fits (hc : Counters s offset total (fileBlock c k + 1) inodes)
    (hcall : placeChunk true path fileSize idx k (fileBlock c k) (fileChunk data k) st s =
      .ok st' s') :
    k < 1034 ∧ fileBlock c (k + 1) ≤ total := by
  have hnext := hc.next_le
  have hstart : u32 (bsfsMaxDirectblocks + s.header.blockSize / 4) = 1034 := by
    rw [hc.volume.blockSize]
    exact u32_of_lt (by decide)
  unfold placeChunk at hcall
  rw [get_bind, hstart] at hcall
  rw [fileBlock_succ]
  by_cases hdirect : k < bsfsMaxDirectblocks
  · unfold bsfsMaxDirectblocks at hdirect
    rw [if_neg (by omega)]
    omega
  · rw [if_neg hdirect] at hcall
    by_cases hindirect : k < 1034
    · rw [if_pos hindirect] at hcall
      refine ⟨hindirect, ?_⟩
      by_cases hten : k = 10
      · subst hten
        have hc1 : Counters s offset total (fileL1 c) inodes := hc
        obtain ⟨_, _, htable, -⟩ := bind_eq_ok.mp hcall
        unfold l1TableFor at htable
        rw [if_pos (show 10 - bsfsMaxDirectblocks = 0 from rfl)] at htable
        obtain ⟨_, _, halloc, -⟩ := bind_eq_ok.mp htable
        exact (bsfsAllocBlock_ok hc1 halloc).1
      · rw [if_neg hten]
        exact hnext
    · rw [if_neg hindirect] at hcall
      exact absurd hcall bsfsPanic_bind_ne_ok

theorem storeChunks_fits (hinv : Storing s₀ s offset total inodes idx time c k data st)
    (hidx : idx < total / 4) (hdata : k + n ≤ fileBlocks data.length) (hk : k ≤ 1034)
    (hcall : storeChunks true path fileSize idx k ((List.range' k n).map (fileChunk data)) st s =
      .ok st' s') :
    k + n ≤ 1034 ∧ fileBlock c (k + n) ≤ total := by
  induction n generalizing k s st with
  | zero => exact ⟨hk, hinv.counters.next_le⟩
  | succ n ih =>
    rw [List.range'_succ, List.map_cons] at hcall
    obtain ⟨st1, s1, hchunk, hrest⟩ := bind_eq_ok.mp hcall
    -- the pass went through, so it is the one `storeChunk_spec` describes
    have hone : k < 1034 ∧ fileBlock c (k + 1) ≤ total := by
      obtain ⟨block, _, halloc, hplace⟩ := bind_eq_ok.mp hchunk
      obtain ⟨hnext, rfl, rfl⟩ := bsfsAllocBlock_ok hinv.counters halloc
      obtain ⟨_, _, hplace, -⟩ := bind_eq_ok.mp hplace
      exact placeChunk_fits (hinv.counters.takeBlock hnext) hplace
    obtain ⟨st2, s2, hspec, hinv1⟩ := storeChunk_spec true path fileSize hinv hidx hone.1
      (by unfold fileBlocks at hdata; omega) hone.2
    rw [hspec] at hchunk
    cases hchunk
    have hfits := ih hinv1 (by omega) hone.1 hrest
    rwa [Nat.add_assoc, Nat.add_comm 1 n] at hfits

/-- If the program goes on after a file, the file fits. -/
theorem storeFile_fits (hc : Counters s offset total c inodes) (hidx : idx < total / 4)
    (hzero : s.inodeTable idx = .zero) (hcall : storeFile true path time idx data s = .ok () s') :
    fileBlocks data.length ≤ 1034 ∧ fileBlock c (fileBlocks data.length) ≤ total := by
  have hcount : idx < s.header.inodeCount := by rwa [hc.volume.inodeCount]
  have hbs : (s.setInode idx (freshInode bsfsInodeTypeFile time (s.inodeTable idx))).header.blockSize =
      4096 := hc.volume.blockSize
  unfold storeFile at hcall
  rw [bind_of_ok (modifyInode_of_lt hcount), get_bind, hbs,
    chunks_eq] at hcall
  obtain ⟨st, s1, hloop, -⟩ := bind_eq_ok.mp hcall
  have hfits := storeChunks_fits (storing_start time data hc hzero) hidx (Nat.zero_add _).le
    (by omega) hloop
  rwa [Nat.zero_add] at hfits

end Fits

end Pristine.Bsfs
