import Pristine.Bsfs.Addressing
import Pristine.Bsfs.Image

/-!
# `bsfs_write_inode_to_file`

The extractor copies a file block by block: the direct blocks, then the entries of
the L1 table.  A block pointer of zero is passed over, `remaining` counts the bytes
that are left.

* `bsfsWriteInodeToFile_ok_iff`: for which inodes the copy is defined.
* `OnImage.bsfsWriteInodeToFile`: a file that lies on an image is copied as it is.

`BSFS_PANIC` is compiled to nothing, and the host file takes all that is written.
Writing bytes that lie behind the block buffer, or using entries of the L1 table
that no read has filled, stops the model with `undefined`.
-/

namespace Pristine.Bsfs

open Lib Kernel

/-! ## The program -/

/-- `remaining`, what the host file holds, and `file_end`. -/
structure CopyState where
  remaining : Int
  written : List UInt8
  fileEnd : Bool

/-- `writecnt`; a negative `remaining` becomes a large unsigned number. -/
def writecnt (blockSize : Nat) (remaining : Int) : Nat :=
  if remaining < blockSize then (remaining % 2 ^ 32).toNat else blockSize

section Program

variable (h : BsfsHeader) (image : HostFile)

/-- The body of both loops, for a block that is not zero. -/
def copyBlock (block : Nat) (st : CopyState) : Except Halt CopyState :=
  let data := image.read (extractOffset h block) h.blockSize
  let count := writecnt h.blockSize st.remaining
  if data.length < h.blockSize then .ok { st with written := st.written ++ data, fileEnd := true }
  else if h.blockSize < count ∨ st.remaining - h.blockSize < -2 ^ 63 then .error .undefined
  else .ok ⟨st.remaining - h.blockSize, st.written ++ data.take count, false⟩

/-- The loop over the direct blocks. -/
def copyDirect (inode : BsfsInode) : List Nat → CopyState → Except Halt CopyState
  | [], st => .ok st
  | i :: is, st =>
    if inode.direct i = 0 then copyDirect inode is st
    else do
      let st ← copyBlock h image (inode.direct i) st
      if st.fileEnd then pure st else copyDirect inode is st

/-- The loop over the entries of the L1 table. -/
def copyIndirect (table : List UInt8) : List Nat → CopyState → Except Halt CopyState
  | [], st => .ok st
  | i :: is, st =>
    if st.remaining ≤ 0 then .ok st
    else if table.length < 4 * i + 4 then .error .undefined
    else
      let block := loadLE (fun a => table.getD a 0) (4 * i) 4
      if block = 0 then copyIndirect table is st
      else do
        let st ← copyBlock h image block st
        if st.fileEnd then pure st else copyIndirect table is st

/-- `bsfs_write_inode_to_file`: the bytes of the host file. -/
def bsfsWriteInodeToFile (inode : BsfsInode) : Except Halt (List UInt8) := do
  let st ← copyDirect h image inode (List.range bsfsMaxDirectblocks)
    ⟨(inode.size : Int).bmod (2 ^ 64), [], false⟩
  if st.fileEnd then pure st.written
  else if inode.blocksL1indirect = 0 then pure st.written
  else do
    let table := image.read (extractOffset h inode.blocksL1indirect) (4 * (h.blockSize / 4))
    let st ← copyIndirect h image table (List.range (h.blockSize / 4)) st
    pure st.written

end Program

/-! ## Where the copy is defined -/

section Defined

variable (h : BsfsHeader) (image : HostFile)

/-- The image holds a whole block. -/
def HoldsBlock (block : Nat) : Prop := h.blockSize ≤ image.size - extractOffset h block

/-- `writecnt` stays inside the block buffer, and `remaining` does not overflow. -/
def CountFits (blockSize : Nat) (remaining : Int) : Prop :=
  0 ≤ remaining ∨ remaining % 2 ^ 32 ≤ blockSize ∧ -2 ^ 63 ≤ remaining - blockSize

/-- No block that is read whole begins behind the end of the file. -/
def DirectFits (blocks : List Nat) (remaining : Int) : Prop :=
  ∀ j < blocks.length, (∀ block ∈ blocks.take (j + 1), HoldsBlock h image block) →
    CountFits h.blockSize (remaining - j * h.blockSize)

/-- The direct blocks in use. -/
def directBlocks (inode : BsfsInode) (is : List Nat) : List Nat :=
  (is.map inode.direct).filter (· ≠ 0)

/-- The blocks that entries `i` to `n` of a table lead to. -/
def entryBlocks (entry : Nat → Nat) (i n : Nat) : List Nat :=
  ((List.range' i (n - i)).map entry).filter (· ≠ 0)

/-- How many entries of the L1 table the image holds. -/
def tableEntries (inode : BsfsInode) : Nat :=
  min (h.blockSize / 4) ((image.size - extractOffset h inode.blocksL1indirect) / 4)

/-- The blocks that these entries lead to. -/
def tableBlocks (inode : BsfsInode) : List Nat :=
  entryBlocks (fun i => loadLE image.bytes (extractOffset h inode.blocksL1indirect + 4 * i) 4) 0
    (tableEntries h image inode)

/-- What `bsfs_write_inode_to_file` takes for granted of an inode. -/
structure CopyDefined (inode : BsfsInode) : Prop where
  direct : DirectFits h image (directBlocks inode (List.range bsfsMaxDirectblocks))
    ((inode.size : Int).bmod (2 ^ 64))
  /-- the image holds the L1 table, or its last block, or enough of it for the size -/
  table : inode.blocksL1indirect ≠ 0 →
    (∀ block ∈ directBlocks inode (List.range bsfsMaxDirectblocks), HoldsBlock h image block) →
    h.blockSize / 4 ≤ tableEntries h image inode ∨
      (∃ block ∈ tableBlocks h image inode, ¬ HoldsBlock h image block) ∨
      (inode.size : Int).bmod (2 ^ 64) -
          h.blockSize * (directBlocks inode (List.range bsfsMaxDirectblocks)).length ≤
        h.blockSize * (tableBlocks h image inode).length

variable {h image} {block : Nat} {blocks : List Nat} {st : CopyState} {inode : BsfsInode}

theorem directFits_cons {remaining : Int} :
    DirectFits h image (block :: blocks) remaining ↔ (HoldsBlock h image block →
      CountFits h.blockSize remaining ∧ DirectFits h image blocks (remaining - h.blockSize)) := by
  constructor
  · intro hfits hholds
    refine ⟨?_, fun j hj hall => ?_⟩
    · simpa using hfits 0 (Nat.succ_pos _) (by simpa using hholds)
    · have hnext := hfits (j + 1) (Nat.succ_lt_succ hj)
        (by rw [List.take_succ_cons]; exact List.forall_mem_cons.mpr ⟨hholds, hall⟩)
      convert hnext using 1
      push_cast
      ring
  · intro hfits j hj hall
    rw [List.take_succ_cons, List.forall_mem_cons] at hall
    obtain ⟨hcount, hrest⟩ := hfits hall.1
    cases j with
    | zero => simpa using hcount
    | succ j =>
      have hnext := hrest j (Nat.lt_of_succ_lt_succ hj) hall.2
      convert hnext using 1
      push_cast
      ring

theorem length_read_lt : (image.read (extractOffset h block) h.blockSize).length < h.blockSize ↔
    ¬ HoldsBlock h image block := by
  unfold HostFile.read HoldsBlock
  rw [length_bytesAt]
  omega

theorem copyBlock_short (st : CopyState) (hshort : ¬ HoldsBlock h image block) :
    ∃ st', copyBlock h image block st = .ok st' ∧ st'.fileEnd = true :=
  ⟨_, if_pos (length_read_lt.mpr hshort), rfl⟩

theorem copyBlock_undefined (hholds : HoldsBlock h image block)
    (hcount : ¬ CountFits h.blockSize st.remaining) :
    copyBlock h image block st = .error .undefined := by
  refine (if_neg fun hlt => length_read_lt.mp hlt hholds).trans (if_pos ?_)
  unfold CountFits at hcount
  unfold writecnt
  split <;> omega

theorem copyBlock_whole (hbs : h.blockSize < 2 ^ 32) (hholds : HoldsBlock h image block)
    (hcount : CountFits h.blockSize st.remaining) : ∃ st', copyBlock h image block st = .ok st' ∧
      st'.fileEnd = false ∧ st'.remaining = st.remaining - h.blockSize := by
  refine ⟨_, (if_neg fun hlt => length_read_lt.mp hlt hholds).trans (if_neg ?_), rfl, rfl⟩
  unfold CountFits at hcount
  unfold writecnt
  split <;> omega

/-- The loop over the direct blocks stops early only at the end of the image. -/
theorem copyDirect_cases (hbs : h.blockSize < 2 ^ 32) (image : HostFile) (inode : BsfsInode)
    (is : List Nat) (st : CopyState) (hopen : st.fileEnd = false) :
    ¬ DirectFits h image (directBlocks inode is) st.remaining ∧
        copyDirect h image inode is st = .error .undefined ∨
      DirectFits h image (directBlocks inode is) st.remaining ∧
        ∃ st', copyDirect h image inode is st = .ok st' ∧
          ((∃ block ∈ directBlocks inode is, ¬ HoldsBlock h image block) ∧ st'.fileEnd = true ∨
            (∀ block ∈ directBlocks inode is, HoldsBlock h image block) ∧ st'.fileEnd = false ∧
              st'.remaining = st.remaining - h.blockSize * (directBlocks inode is).length) := by
  induction is generalizing st with
  | nil =>
    exact .inr ⟨fun j hj => absurd hj (Nat.not_lt_zero j), st, rfl,
      .inr (by simp [directBlocks, hopen])⟩
  | cons i is ih =>
    unfold copyDirect
    by_cases hzero : inode.direct i = 0
    · have hsame : directBlocks inode (i :: is) = directBlocks inode is := by simp [directBlocks, hzero]
      rw [hsame, if_pos hzero]
      exact ih st hopen
    have hcons : directBlocks inode (i :: is) = inode.direct i :: directBlocks inode is := by
      simp [directBlocks, hzero]
    rw [hcons, if_neg hzero, directFits_cons]
    by_cases hholds : HoldsBlock h image (inode.direct i)
    · by_cases hcount : CountFits h.blockSize st.remaining
      · obtain ⟨next, hnext, hopen', hremaining⟩ := copyBlock_whole hbs hholds hcount
        have hrest := ih next hopen'
        rw [hremaining] at hrest
        rw [hnext]
        change _ ∧ (if next.fileEnd then pure next else copyDirect h image inode is next) = _ ∨
          _ ∧ ∃ st', (if next.fileEnd then pure next else copyDirect h image inode is next) = _ ∧ _
        rw [hopen', if_neg Bool.false_ne_true]
        simpa [hholds, hcount, mul_add, ← sub_sub, sub_right_comm] using hrest
      · rw [copyBlock_undefined hholds hcount]
        exact .inl ⟨fun hall => hcount (hall hholds).1, rfl⟩
    · obtain ⟨st', hst', hend⟩ := copyBlock_short st hholds
      refine .inr ⟨fun h' => absurd h' hholds, st', ?_, .inl ⟨⟨_, List.mem_cons_self, hholds⟩, hend⟩⟩
      rw [hst']
      exact if_pos hend

/-- The loop over the L1 table uses no entry that was not read. -/
theorem copyIndirect_ok_iff (hbs : h.blockSize < 2 ^ 32) (image : HostFile) (table : List UInt8)
    (entry : Nat → Nat)
    (hentry : ∀ i < table.length / 4, loadLE (fun a => table.getD a 0) (4 * i) 4 = entry i)
    (left i : Nat) (hi : i ≤ table.length / 4) (st : CopyState) :
    (∃ st', copyIndirect h image table (List.range' i left) st = .ok st') ↔
      i + left ≤ table.length / 4 ∨
        (∃ block ∈ entryBlocks entry i (table.length / 4), ¬ HoldsBlock h image block) ∨
        st.remaining ≤ h.blockSize * (entryBlocks entry i (table.length / 4)).length := by
  induction left generalizing i st with
  | zero => exact ⟨fun _ => .inl hi, fun _ => ⟨st, rfl⟩⟩
  | succ left ih =>
    rw [List.range'_succ]
    unfold copyIndirect
    by_cases hdone : st.remaining ≤ 0
    · have hpos : (0 : Int) ≤ h.blockSize * (entryBlocks entry i (table.length / 4)).length := by
        positivity
      rw [if_pos hdone]
      exact ⟨fun _ => .inr (.inr (hdone.trans hpos)), fun _ => ⟨st, rfl⟩⟩
    rw [if_neg hdone]
    by_cases hread : table.length < 4 * i + 4
    · have hnone : entryBlocks entry i (table.length / 4) = [] := by
        unfold entryBlocks
        rw [show table.length / 4 - i = 0 by omega]
        rfl
      rw [if_pos hread, hnone]
      have hbehind : ¬ i + (left + 1) ≤ table.length / 4 := by omega
      simp [hdone, hbehind]
    have hcons : entryBlocks entry i (table.length / 4) =
        ([entry i].filter (· ≠ 0)) ++ entryBlocks entry (i + 1) (table.length / 4) := by
      unfold entryBlocks
      rw [show table.length / 4 - i = (table.length / 4 - (i + 1)) + 1 by omega, List.range'_succ,
        List.map_cons, ← List.singleton_append, List.filter_append]
    have hshift : i + (left + 1) = i + 1 + left := by omega
    rw [if_neg hread, hentry i (by omega), hshift]
    by_cases hzero : entry i = 0
    · rw [if_pos hzero, ih (i + 1) (by omega), hcons]
      simp [hzero]
    rw [if_neg hzero, hcons]
    by_cases hholds : HoldsBlock h image (entry i)
    · obtain ⟨next, hnext, hopen, hremaining⟩ :=
        copyBlock_whole hbs hholds (.inl (Int.le_of_not_le hdone))
      rw [hnext]
      change (∃ st', (if next.fileEnd then pure next else
        copyIndirect h image table (List.range' (i + 1) left) next) = .ok st') ↔ _
      rw [hopen, if_neg Bool.false_ne_true, ih (i + 1) (by omega), hremaining]
      simp [hzero, hholds, mul_add]
    · obtain ⟨st', hst', hend⟩ := copyBlock_short st hholds
      refine ⟨fun _ => .inr (.inl ⟨entry i, by simp [hzero], hholds⟩), fun _ => ⟨st', ?_⟩⟩
      rw [hst']
      exact if_pos hend

/-- For every inode and every image: the copy runs to its end exactly if the inode is as the function
takes it to be. -/
theorem bsfsWriteInodeToFile_ok_iff (hbs : h.blockSize < 2 ^ 32) :
    (∃ data, bsfsWriteInodeToFile h image inode = .ok data) ↔ CopyDefined h image inode := by
  have hcases := copyDirect_cases hbs image inode (List.range bsfsMaxDirectblocks)
    ⟨(inode.size : Int).bmod (2 ^ 64), [], false⟩ rfl
  dsimp only at hcases
  unfold bsfsWriteInodeToFile
  rcases hcases with ⟨hfits, hrun⟩ |
    ⟨hfits, st, hrun, ⟨⟨block, hblock, hshort⟩, hend⟩ | ⟨hholds, hopen, hremaining⟩⟩
  · rw [hrun]
    exact ⟨fun ⟨_, hdata⟩ => (nomatch hdata), fun hdefined => absurd hdefined.direct hfits⟩
  · rw [hrun]
    exact ⟨fun _ => ⟨hfits, fun _ hall => absurd (hall block hblock) hshort⟩, fun _ =>
      ⟨st.written, if_pos hend⟩⟩
  rw [hrun]
  change (∃ data, (if st.fileEnd then _ else _) = _) ↔ _
  rw [hopen, if_neg Bool.false_ne_true]
  by_cases hl1 : inode.blocksL1indirect = 0
  · rw [if_pos hl1]
    exact ⟨fun _ => ⟨hfits, fun h' => absurd hl1 h'⟩, fun _ => ⟨_, rfl⟩⟩
  rw [if_neg hl1]
  have hlength : (image.read (extractOffset h inode.blocksL1indirect) (4 * (h.blockSize / 4))).length / 4 =
      tableEntries h image inode := by
    unfold HostFile.read tableEntries
    rw [length_bytesAt]
    omega
  have htable := copyIndirect_ok_iff hbs image
    (image.read (extractOffset h inode.blocksL1indirect) (4 * (h.blockSize / 4)))
    (fun i => loadLE image.bytes (extractOffset h inode.blocksL1indirect + 4 * i) 4)
    (fun i hi => by
      rw [← loadLE_offset]
      refine loadLE_congr fun a hlo hhi => ?_
      unfold HostFile.read at hi ⊢
      rw [length_bytesAt] at hi
      exact getD_bytesAt _ _ (by omega)) (h.blockSize / 4) 0 (Nat.zero_le _) st
  rw [hlength, hremaining, Nat.zero_add, ← List.range_eq_range'] at htable
  constructor
  · rintro ⟨data, hdata⟩
    refine ⟨hfits, fun _ _ => htable.mp ?_⟩
    cases hcopy : copyIndirect h image _ _ st with
    | error halt =>
      dsimp only at hdata
      rw [hcopy] at hdata
      exact nomatch hdata
    | ok st' => exact ⟨st', rfl⟩
  · intro hdefined
    obtain ⟨st', hst'⟩ := htable.mpr (hdefined.table hl1 hholds)
    refine ⟨st'.written, ?_⟩
    dsimp only
    rw [hst']
    rfl

end Defined

/-! ## A file on an image -/

section Stored

variable {h : BsfsHeader} {image : HostFile} {inode : BsfsInode} {data : List UInt8} {c n : Nat}

/-- The state after the first `n` blocks. -/
def copied (data : List UInt8) (n : Nat) : CopyState :=
  ⟨(data.length : Int) - 4096 * n, data.take (4096 * n), false⟩

@[simp]
theorem copied_remaining (data : List UInt8) (n : Nat) :
    (copied data n).remaining = (data.length : Int) - 4096 * n :=
  rfl

/-- A file that an image holds from block `c` on. -/
structure OnImage (h : BsfsHeader) (image : HostFile) (inode : BsfsInode) (c : Nat)
    (data : List UInt8) : Prop where
  blockSize : h.blockSize = 4096
  inode : FileInode inode c data
  file : FileOn image.bytes c data
  max : fileBlocks data.length ≤ 1034
  pos : 0 < c
  inside : 4096 * fileBlock c (fileBlocks data.length) ≤ image.size
  small : fileBlock c (fileBlocks data.length) ≤ 2 ^ 20

/-- A block of the volume is read whole. -/
theorem read_block (hbs : h.blockSize = 4096) {block count : Nat} (hcount : count ≤ 4096)
    (hend : 4096 * (block + 1) ≤ image.size) (hsmall : block < 2 ^ 20) :
    image.read (extractOffset h block) count = bytesAt image.bytes (4096 * block) count := by
  have hoffset : extractOffset h block = 4096 * block := by
    unfold extractOffset BsfsHeader.blockOffset
    rw [hbs]
    exact u32_of_lt (by omega)
  rw [hoffset]
  exact HostFile.read_inside (by omega)

variable (ho : OnImage h image inode c data)

include ho

/-- The bytes of block `n` that belong to the file. -/
theorem OnImage.take_block (n : Nat) :
    (bytesAt image.bytes (4096 * fileBlock c n) 4096).take (fileChunk data n).length =
      fileChunk data n := by
  have hlen := length_fileChunk data n
  refine List.ext_getElem (by simp [length_bytesAt]; omega) fun i hi hi' => ?_
  have hbyte := ho.file.bytes (4096 * n + i) (by omega)
  rw [show (4096 * n + i) / 4096 = n by omega, show (4096 * n + i) % 4096 = i by omega] at hbyte
  simp only [bytesAt, List.getElem_take, List.getElem_map, List.getElem_range]
  rw [hbyte]
  simp only [fileChunk, List.getElem_take, List.getElem_drop, Nat.mul_comm n 4096]
  exact List.getD_eq_getElem _ _ _

/-- One block is copied. -/
theorem OnImage.copyBlock (hn : n < fileBlocks data.length) :
    copyBlock h image (fileBlock c n) (copied data n) = .ok (copied data (n + 1)) := by
  have hlt := fileBlock_lt (c := c) hn
  have hlen := length_fileChunk data n
  have hinside := ho.inside
  have hsmall := ho.small
  have hrest : 4096 * n < data.length := by
    unfold fileBlocks at hn
    omega
  have hread : image.read (extractOffset h (fileBlock c n)) 4096 = _ :=
    read_block ho.blockSize le_rfl (by omega) (by omega)
  have htake := ho.take_block n
  have hcount : writecnt 4096 (copied data n).remaining = (fileChunk data n).length := by
    rw [copied_remaining]
    unfold writecnt
    split <;> omega
  have happend : data.take (4096 * n) ++ fileChunk data n = data.take (4096 * (n + 1)) := by
    rw [fileChunk, Nat.mul_comm n, Nat.mul_succ, List.take_add]
  have hshort : ¬ (4096 < (fileChunk data n).length ∨
      (copied data n).remaining - (4096 : Nat) < -2 ^ 63) := by
    rw [copied_remaining]
    omega
  unfold Bsfs.copyBlock
  rw [ho.blockSize, hread, hcount, if_neg (by rw [length_bytesAt]; omega), if_neg hshort, htake]
  unfold copied
  rw [happend]
  congr 2
  push_cast
  omega

/-- The loop over the direct blocks copies the first ten. -/
theorem OnImage.copyDirect (left : Nat) (hleft : n + left = 10) :
    copyDirect h image inode (List.range' n left) (copied data (min n (fileBlocks data.length))) =
      .ok (copied data (min 10 (fileBlocks data.length))) := by
  induction left generalizing n with
  | zero =>
    obtain rfl : n = 10 := by omega
    rfl
  | succ left ih =>
    have hnext := ih (n := n + 1) (by omega)
    have hdirect := ho.inode.direct n (by omega)
    rw [List.range'_succ]
    unfold Bsfs.copyDirect
    by_cases hn : n < fileBlocks data.length
    · have hlow := (fileBlock_bounds c n).1
      have hpos := ho.pos
      rw [if_pos hn] at hdirect
      rw [Nat.min_eq_left (by omega)] at hnext ⊢
      rw [hdirect, if_neg (by omega), ho.copyBlock hn]
      exact hnext
    · rw [if_neg hn] at hdirect
      rw [Nat.min_eq_right (by omega)] at hnext ⊢
      rw [if_pos hdirect]
      exact hnext

/-- The entries of the L1 table as they are read. -/
theorem OnImage.loadLE_table (hlong : 10 < fileBlocks data.length) {j : Nat} (hj : j < 1024) :
    loadLE (fun a => (bytesAt image.bytes (4096 * fileL1 c) 4096).getD a 0) (4 * j) 4 =
      storedEntries c (fileBlocks data.length) j := by
  rw [← ho.file.l1 hlong j hj, ← loadLE_offset]
  refine loadLE_congr fun a hlo hhi => ?_
  exact getD_bytesAt _ _ (by omega)

/-- The loop over the L1 table copies the others. -/
theorem OnImage.copyIndirect (hlong : 10 < fileBlocks data.length) (left : Nat)
    (hleft : n + left = 1024) :
    copyIndirect h image (bytesAt image.bytes (4096 * fileL1 c) 4096) (List.range' n left)
      (copied data (min (10 + n) (fileBlocks data.length))) =
      .ok (copied data (fileBlocks data.length)) := by
  have hmax := ho.max
  induction left generalizing n with
  | zero =>
    rw [Nat.min_eq_right (by omega)]
    rfl
  | succ left ih =>
    have hnext := ih (n := n + 1) (by omega)
    rw [List.range'_succ]
    unfold Bsfs.copyIndirect
    by_cases hn : 10 + n < fileBlocks data.length
    · have hlow := (fileBlock_bounds c (10 + n)).1
      have hentry : storedEntries c (fileBlocks data.length) n = fileBlock c (10 + n) :=
        if_pos (by omega)
      have hrest : ¬ (copied data (10 + n)).remaining ≤ 0 := by
        rw [copied_remaining]
        unfold fileBlocks at hn
        push_cast
        omega
      rw [Nat.min_eq_left (by omega)] at hnext ⊢
      rw [if_neg hrest, if_neg (by rw [length_bytesAt]; omega), ho.loadLE_table hlong (by omega),
        hentry]
      rw [if_neg (by omega), ho.copyBlock hn]
      exact hnext
    · -- nothing remains
      have hdone : (copied data (fileBlocks data.length)).remaining ≤ 0 := by
        rw [copied_remaining]
        unfold fileBlocks
        omega
      rw [Nat.min_eq_right (by omega), if_pos hdone]

/-- The extractor writes the bytes of the file. -/
theorem OnImage.bsfsWriteInodeToFile : bsfsWriteInodeToFile h image inode = .ok data := by
  have hmax := ho.max
  have hstart : (⟨(inode.size : Int).bmod (2 ^ 64), [], false⟩ : CopyState) =
      copied data (min 0 (fileBlocks data.length)) := by
    rw [Nat.min_eq_left (Nat.zero_le _), ho.inode.size]
    unfold copied
    rw [Int.bmod_eq_of_le (by omega) (by unfold fileBlocks at hmax; omega)]
    simp
  have hall : (copied data (fileBlocks data.length)).written = data :=
    List.take_of_length_le (by unfold fileBlocks; omega)
  have hdirect := ho.copyDirect 10 (n := 0) rfl
  rw [← List.range_eq_range'] at hdirect
  unfold Bsfs.bsfsWriteInodeToFile bsfsMaxDirectblocks
  rw [hstart, hdirect]
  by_cases hshort : fileBlocks data.length ≤ 10
  · have hl1 := ho.inode.l1
    rw [if_pos hshort] at hl1
    rw [Nat.min_eq_right hshort]
    show (if _ then _ else _) = _
    rw [if_pos hl1, hall]
    rfl
  · have hl1 := ho.inode.l1
    have hinside := ho.inside
    have hsmall := ho.small
    have hlast : fileL1 c < fileBlock c (fileBlocks data.length) := by
      unfold fileBlock fileL1
      rw [if_neg hshort]
      omega
    have htable : image.read (extractOffset h (fileL1 c)) 4096 = _ :=
      read_block ho.blockSize le_rfl (by omega) (by omega)
    have hothers := ho.copyIndirect (by omega) 1024 (n := 0) rfl
    rw [← List.range_eq_range'] at hothers
    rw [if_neg hshort] at hl1
    rw [Nat.min_eq_left (by omega)] at hothers ⊢
    show (if _ then _ else _) = _
    rw [hl1, if_neg (by unfold fileL1; omega), ho.blockSize, htable, hothers]
    exact congrArg Except.ok hall

end Stored

end Pristine.Bsfs
