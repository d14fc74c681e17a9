import Pristine.Bsfs.StoreFile

/-!
# Adding directory entries

A directory's entries fill its blocks one after the other; a block is allocated
for the first entry in it.  `Growing` is the invariant of the whole program and
`DirState` that of the directory it is working on: `slots` entries have a place
and `entries` are counted.  `base` is the image as it was before: nothing is
written beyond the entries handed out, so old bytes stay there (`Unused`).
-/

namespace Pristine.Bsfs

open Function Kernel Lib

/-- The invariant of `bsfs-populate`: beyond the next block the image is as it was, and beyond the
next inode the table is empty. -/
structure Growing (s : PopulateState) (base : ByteMem) (offset total next inodes : Nat) : Prop where
  counters : Counters s offset total next inodes
  free : ∀ a, 4096 * next ≤ a → s.image.bytes a = base a
  fresh : ∀ i, inodes ≤ i → s.inodeTable i = .zero

/-- Where entry `k` of a directory lies. -/
def slotAddr (inode : BsfsInode) (k : Nat) : Nat := 4096 * inode.direct (k / 32) + 128 * (k % 32)

/-- Entry `k` needs a new block. -/
def slotBlocks (k : Nat) : Nat := if k % 32 = 0 then 1 else 0

/-- The bytes of a directory's blocks behind its first `entries` entries. -/
def Unused (inode : BsfsInode) (entries a : Nat) : Prop :=
  ∃ k, entries ≤ k ∧ k < 320 ∧ inode.direct (k / 32) ≠ 0 ∧ slotAddr inode k ≤ a ∧
    a < slotAddr inode k + 128

/-- A directory whose first `slots` entries have a place, `entries` of which are counted. -/
structure DirState (s : PopulateState) (base : ByteMem) (idx slots entries next : Nat) : Prop where
  type : (s.inodeTable idx).type = bsfsInodeTypeDirectory
  size : (s.inodeTable idx).size = 128 * entries
  l1 : (s.inodeTable idx).blocksL1indirect = 0
  pointer : ∀ j, 32 * j < slots → 0 < (s.inodeTable idx).direct j ∧ (s.inodeTable idx).direct j < next
  none : ∀ j, slots ≤ 32 * j → (s.inodeTable idx).direct j = 0
  increasing : ∀ i j, i < j → 32 * j < slots →
    (s.inodeTable idx).direct i < (s.inodeTable idx).direct j
  unused : ∀ a, Unused (s.inodeTable idx) slots a → s.image.bytes a = base a

/-- Block 0 is never handed out. -/
theorem Counters.next_pos {s : PopulateState} {offset total next inodes : Nat}
    (hc : Counters s offset total next inodes) : 0 < next := by
  have hdata := hc.dataStart_le
  have hstart := hc.volume.dataStart
  have htable := hc.volume.inodeTableStart
  have hinode := hc.volume.inodeBitmapStart
  have hmegablock := hc.volume.megablockBitmapStart
  have hblock := hc.volume.blockBitmapStart
  omega

section Basic

variable {s s' : PopulateState} {base : ByteMem} {offset total next inodes next' inodes' : Nat}
variable {idx slots entries k : Nat}

theorem unused_mono {inode : BsfsInode} {a : Nat} (hle : k ≤ entries) (h : Unused inode entries a) :
    Unused inode k a := by
  obtain ⟨i, hi, hrest⟩ := h
  exact ⟨i, hle.trans hi, hrest⟩

/-- A state in which the directory is the same and the image is the same where it matters. -/
theorem DirState.congr (hd : DirState s base idx slots entries next)
    (hinode : s'.inodeTable idx = s.inodeTable idx) (hnext : next ≤ next')
    (himage : ∀ a, Unused (s.inodeTable idx) slots a → s'.image.bytes a = s.image.bytes a) :
    DirState s' base idx slots entries next' where
  type := hinode ▸ hd.type
  size := hinode ▸ hd.size
  l1 := hinode ▸ hd.l1
  pointer := fun j hj => by
    rw [hinode]
    exact ⟨(hd.pointer j hj).1, (hd.pointer j hj).2.trans_le hnext⟩
  none := hinode ▸ hd.none
  increasing := hinode ▸ hd.increasing
  unused := fun a ha => by
    rw [hinode] at ha
    rw [himage a ha]
    exact hd.unused a ha

variable (hg : Growing s base offset total next inodes)

include hg

theorem Growing.takeBlock (hnext : next < total) :
    Growing (s.takeBlock next) base offset total (next + 1) inodes where
  counters := hg.counters.takeBlock hnext
  free := fun a ha => by
    rw [takeBlock_image]
    exact hg.free a (by omega)
  fresh := by
    rw [takeBlock_inodeTable]
    exact hg.fresh

theorem Growing.takeInode (hinodes : inodes < total / 4) :
    Growing (s.takeInode inodes) base offset total next (inodes + 1) where
  counters := hg.counters.takeInode hinodes
  free := by
    rw [takeInode_image]
    exact hg.free
  fresh := fun i hi => by
    rw [takeInode_inodeTable]
    exact hg.fresh i (by omega)

theorem Growing.setInode (hidx : idx < inodes) (inode : BsfsInode) :
    Growing (s.setInode idx inode) base offset total next inodes where
  counters := hg.counters.setInode _ _
  free := hg.free
  fresh := fun i hi => by
    rw [setInode_inodeTable, update_of_ne (by omega)]
    exact hg.fresh i hi

/-- A write below the next block. -/
theorem Growing.writeAt {start : Nat} {data : List UInt8} (hend : start + data.length ≤ 4096 * next)
    :
    Growing (s.writeAt start data) base offset total next inodes where
  counters := by
    have hnext := hg.counters.next_le
    exact hg.counters.writeAt (by omega)
  free := fun a ha => by
    have hnext := hg.counters.next_le
    have hsize := hg.counters.imageSize
    rw [writeAt_image, HostFile.write_outside (by omega) (by omega)]
    exact hg.free a ha
  fresh := hg.fresh

end Basic

/-! ## What working in a directory leaves alone -/

/-- Below block `next` only unused bytes of the directory change, and of the inodes below `inodes`
only its own, which keeps the pointers it has. -/
structure InDir (s s' : PopulateState) (idx entries next inodes : Nat) : Prop where
  image : ∀ a, a < 4096 * next → ¬ Unused (s.inodeTable idx) entries a →
    s'.image.bytes a = s.image.bytes a
  table : ∀ i, i < inodes → i ≠ idx → s'.inodeTable i = s.inodeTable i
  pointer : ∀ j, (s.inodeTable idx).direct j ≠ 0 →
    (s'.inodeTable idx).direct j = (s.inodeTable idx).direct j
  newPointer : ∀ j, (s.inodeTable idx).direct j = 0 →
    (s'.inodeTable idx).direct j = 0 ∨ next ≤ (s'.inodeTable idx).direct j
  kept : Kept s s'

section InDir

variable {s t u : PopulateState} {idx entries next inodes entries' next' inodes' : Nat}

/-- A step that changes no inode below `inodes` and nothing of the image below `next`. -/
theorem InDir.of_outside (hidx : idx < inodes)
    (himage : ∀ a, a < 4096 * next → t.image.bytes a = s.image.bytes a)
    (htable : ∀ i, i < inodes → t.inodeTable i = s.inodeTable i) (hkept : Kept s t) :
    InDir s t idx entries next inodes where
  image := fun a ha _ => himage a ha
  table := fun i hi _ => htable i hi
  pointer := fun j _ => by rw [htable idx hidx]
  newPointer := fun j hj => Or.inl (by rw [htable idx hidx, hj])
  kept := hkept

/-- Old unused bytes: a new block lies beyond `next`. -/
theorem InDir.unused (h : InDir s t idx entries next inodes) (hle : entries ≤ entries') {a : Nat}
    (ha : a < 4096 * next) (hunused : Unused (t.inodeTable idx) entries' a) :
    Unused (s.inodeTable idx) entries a := by
  obtain ⟨k, hk, hmax, hpointer, hlo, hhi⟩ := hunused
  by_cases hold : (s.inodeTable idx).direct (k / 32) = 0
  · rcases h.newPointer _ hold with hzero | hnew
    · exact absurd hzero hpointer
    · unfold slotAddr at hlo
      omega
  · have hsame : slotAddr (t.inodeTable idx) k = slotAddr (s.inodeTable idx) k := by
      unfold slotAddr
      rw [h.pointer _ hold]
    rw [hsame] at hlo hhi
    exact ⟨k, hle.trans hk, hmax, hold, hlo, hhi⟩

theorem InDir.mono (h : InDir s t idx entries next inodes') (hle : inodes ≤ inodes') :
    InDir s t idx entries next inodes :=
  ⟨h.image, fun i hi hne => h.table i (by omega) hne, h.pointer, h.newPointer, h.kept⟩

theorem InDir.trans (hst : InDir s t idx entries next inodes)
    (htu : InDir t u idx entries' next' inodes') (hentries : entries ≤ entries')
    (hnext : next ≤ next') (hinodes : inodes ≤ inodes') : InDir s u idx entries next inodes where
  image := fun a ha hunused => by
    rw [htu.image a (by omega) fun h => hunused (hst.unused hentries ha h)]
    exact hst.image a ha hunused
  table := fun i hi hne => by
    rw [htu.table i (by omega) hne]
    exact hst.table i hi hne
  pointer := fun j hj => by
    rw [htu.pointer j (by rwa [hst.pointer j hj])]
    exact hst.pointer j hj
  newPointer := fun j hj => by
    by_cases hzero : (t.inodeTable idx).direct j = 0
    · rcases htu.newPointer j hzero with h | h
      · exact Or.inl h
      · exact Or.inr (hnext.trans h)
    · have hnew := (hst.newPointer j hj).resolve_left hzero
      rw [htu.pointer j hzero]
      exact Or.inr hnew
  kept := hst.kept.trans htu.kept

end InDir

/-! ## `bsfs_alloc_dirent` -/

section AllocDirent

variable {s s' : PopulateState} {base : ByteMem} {offset total next inodes idx k : Nat}

/-- The directory has no block for its next entry exactly when its blocks are full. -/
theorem DirState.direct_eq_zero_iff (hd : DirState s base idx k k next) :
    (s.inodeTable idx).direct (k / 32) = 0 ↔ k % 32 = 0 := by
  constructor
  · intro hzero
    by_contra hmod
    have hpointer := (hd.pointer (k / 32) (by omega)).1
    omega
  · intro hmod
    exact hd.none _ (by omega)

/-- A full directory gets the next block. -/
def PopulateState.takeDirBlock (s : PopulateState) (idx k next : Nat) : PopulateState :=
  (s.takeBlock next).setInode idx
    { (s.inodeTable idx).setDirect (k / 32) next with blocks := u32 ((s.inodeTable idx).blocks + 1) }

theorem takeDirBlock_image (s : PopulateState) (idx k next : Nat) :
    (s.takeDirBlock idx k next).image = s.image := by
  unfold PopulateState.takeDirBlock
  rw [setInode_image, takeBlock_image]

theorem takeDirBlock_inodeTable (s : PopulateState) {idx i : Nat} (k next : Nat) (hi : i ≠ idx) :
    (s.takeDirBlock idx k next).inodeTable i = s.inodeTable i := by
  unfold PopulateState.takeDirBlock
  rw [setInode_inodeTable, update_of_ne hi, takeBlock_inodeTable]

theorem takeDirBlock_inode (s : PopulateState) (idx k next : Nat) :
    (s.takeDirBlock idx k next).inodeTable idx =
      { (s.inodeTable idx).setDirect (k / 32) next with
        blocks := u32 ((s.inodeTable idx).blocks + 1) } := by
  unfold PopulateState.takeDirBlock
  rw [setInode_inodeTable, update_self]

theorem takeDirBlock_direct_same (s : PopulateState) (idx next : Nat) (hk : k < 320) :
    ((s.takeDirBlock idx k next).inodeTable idx).direct (k / 32) = next := by
  rw [takeDirBlock_inode]
  refine BsfsInode.direct_setDirect_same _ _ ?_
  unfold bsfsMaxDirectblocks
  omega

theorem takeDirBlock_direct_other (s : PopulateState) (idx next : Nat) {j : Nat} (hj : j ≠ k / 32) :
    ((s.takeDirBlock idx k next).inodeTable idx).direct j = (s.inodeTable idx).direct j := by
  rw [takeDirBlock_inode]
  exact BsfsInode.direct_setDirect_other _ _ hj

theorem takeDirBlock_fields (s : PopulateState) (idx k next : Nat) :
    ((s.takeDirBlock idx k next).inodeTable idx).type = (s.inodeTable idx).type ∧
      ((s.takeDirBlock idx k next).inodeTable idx).size = (s.inodeTable idx).size ∧
      ((s.takeDirBlock idx k next).inodeTable idx).blocksL1indirect =
        (s.inodeTable idx).blocksL1indirect := by
  rw [takeDirBlock_inode]
  unfold BsfsInode.setDirect
  split <;> exact ⟨rfl, rfl, rfl⟩

theorem DirState.takeDirBlock (hg : Growing s base offset total next inodes)
    (hd : DirState s base idx k k next) (hk : k < 320) (hmod : k % 32 = 0) :
    DirState (s.takeDirBlock idx k next) base idx (k + 1) k (next + 1) := by
  obtain ⟨htype, hsize, hl1⟩ := takeDirBlock_fields s idx k next
  have hnew := takeDirBlock_direct_same s idx next hk
  have hold {j : Nat} (hj : j ≠ k / 32) := takeDirBlock_direct_other s idx next hj
  refine ⟨htype.trans hd.type, hsize.trans hd.size, hl1.trans hd.l1, ?_, ?_, ?_, ?_⟩
  · intro j hj
    by_cases hlast : j = k / 32
    · rw [hlast, hnew]
      exact ⟨hg.counters.next_pos, Nat.lt_succ_self next⟩
    · have hpointer := hd.pointer j (by omega)
      rw [hold hlast]
      omega
  · intro j hj
    rw [hold (by omega)]
    exact hd.none j (by omega)
  · intro i j hij hj
    by_cases hlast : j = k / 32
    · rw [hlast, hnew, hold (by omega)]
      exact (hd.pointer i (by omega)).2
    · rw [hold (by omega), hold hlast]
      exact hd.increasing i j hij (by omega)
  · intro a ha
    obtain ⟨i, hi, -, hpointer, hlo, -⟩ := ha
    have hlast : i / 32 = k / 32 := by
      by_contra hne
      rw [hold hne] at hpointer
      exact hpointer (hd.none _ (by omega))
    unfold slotAddr at hlo
    rw [hlast, hnew] at hlo
    rw [takeDirBlock_image]
    exact hg.free a (by omega)

theorem InDir.takeDirBlock (hd : DirState s base idx k k next) (hk : k < 320) (hmod : k % 32 = 0) :
    InDir s (s.takeDirBlock idx k next) idx k next inodes where
  image := fun a _ _ => by rw [takeDirBlock_image]
  table := fun i _ hi => takeDirBlock_inodeTable s k next hi
  pointer := fun j hj => by
    refine takeDirBlock_direct_other s idx next ?_
    rintro rfl
    exact hj (hd.direct_eq_zero_iff.mpr hmod)
  newPointer := fun j hj => by
    by_cases hlast : j = k / 32
    · rw [hlast, takeDirBlock_direct_same s idx next hk]
      exact Or.inr le_rfl
    · rw [takeDirBlock_direct_other s idx next hlast, hj]
      exact Or.inl rfl
  kept := (kept_takeBlock ..).trans (kept_setInode ..)

theorem direntOffset_small (hc : Counters s offset total next inodes) {block : Nat}
    (hblock : block < total) (k : Nat) :
    direntOffset s.header block (128 * k) = 4096 * block + 128 * (k % 32) := by
  have hsmall := hc.small
  rw [direntOffset_eq (by rw [hc.volume.blockSize]; omega), hc.volume.blockSize]
  omega

theorem ensureDirentBlock_room (exits : Bool) (hd : DirState s base idx k k next)
    (hmod : k % 32 ≠ 0) : ensureDirentBlock exits idx (k / 32) s = .ok () s := by
  unfold ensureDirentBlock
  rw [get_bind, if_neg (mt hd.direct_eq_zero_iff.mp hmod)]
  rfl

variable (exits : Bool) (hg : Growing s base offset total next inodes)
variable (hd : DirState s base idx k k next) (hidx : idx < inodes)

include hg hd hidx

theorem ensureDirentBlock_full (hmod : k % 32 = 0) (hroom : next < total) :
    ensureDirentBlock exits idx (k / 32) s = .ok () (s.takeDirBlock idx k next) := by
  have hcount : idx < (s.takeBlock next).header.inodeCount := by
    have hc := hg.counters.takeBlock hroom
    have hinodes := hc.inodes_le
    rw [hc.volume.inodeCount]
    omega
  unfold ensureDirentBlock
  rw [get_bind, if_pos (hd.direct_eq_zero_iff.mpr hmod),
    bind_of_ok (bsfsAllocBlock_next hg.counters hroom), modifyInode_of_lt hcount,
    takeBlock_inodeTable]
  rfl

/-- What `bsfs_alloc_dirent` does in a directory. -/
theorem bsfsAllocDirent_eq (hk : k < 320) :
    bsfsAllocDirent exits idx s = (ensureDirentBlock exits idx (k / 32) >>= fun _ => do
      let s ← get
      return direntOffset s.header ((s.inodeTable idx).direct (k / 32)) (128 * k)) s := by
  have hinodes := hg.counters.inodes_le
  have hlocal : u32 ((s.inodeTable idx).size / s.header.blockSize) = k / 32 := by
    rw [hd.size, hg.counters.volume.blockSize, u32_of_lt (by omega)]
    omega
  unfold bsfsAllocDirent
  rw [get_bind, bind_of_ok (undefinedIf_of_not
    (by rw [hg.counters.volume.inodeCount]; omega)), if_neg (not_not_intro hd.type), hlocal,
    if_neg (by unfold bsfsMaxDirectblocks; omega), hd.size]

theorem bsfsAllocDirent_spec (hk : k < 320) (hroom : next + slotBlocks k ≤ total) :
    ∃ s', bsfsAllocDirent exits idx s = .ok (slotAddr (s'.inodeTable idx) k) s' ∧
      Growing s' base offset total (next + slotBlocks k) inodes ∧
      DirState s' base idx (k + 1) k (next + slotBlocks k) ∧
      InDir s s' idx k next (inodes + 1) ∧ s'.image = s.image ∧
      (k % 32 = 0 → (s'.inodeTable idx).direct (k / 32) = next) := by
  rw [bsfsAllocDirent_eq exits hg hd hidx hk]
  unfold slotBlocks at *
  by_cases hmod : k % 32 = 0
  · rw [if_pos hmod] at hroom ⊢
    have hnew := takeDirBlock_direct_same s idx next hk
    have hg' : Growing (s.takeDirBlock idx k next) base offset total (next + 1) inodes :=
      (hg.takeBlock hroom).setInode hidx _
    refine ⟨s.takeDirBlock idx k next, ?_, hg', hd.takeDirBlock hg hk hmod,
      .takeDirBlock hd hk hmod, takeDirBlock_image .., fun _ => hnew⟩
    rw [bind_of_ok (ensureDirentBlock_full exits hg hd hidx hmod hroom),
      get_bind, hnew, direntOffset_small hg'.counters hroom]
    unfold slotAddr
    rw [hnew]
    rfl
  · rw [if_neg hmod] at hroom ⊢
    have hpointer := hd.pointer (k / 32) (by omega)
    refine ⟨s, ?_, hg, ⟨hd.type, hd.size, hd.l1, ?_, ?_, ?_, ?_⟩, ?_, rfl, ?_⟩
    · rw [bind_of_ok (ensureDirentBlock_room exits hd hmod), get_bind,
        direntOffset_small hg.counters (by omega)]
      rfl
    · exact fun j hj => hd.pointer j (by omega)
    · exact fun j hj => hd.none j (by omega)
    · exact fun i j hij hj => hd.increasing i j hij (by omega)
    · exact fun a ha => hd.unused a (unused_mono (Nat.le_succ k) ha)
    · exact .of_outside (by omega) (fun _ _ => rfl) (fun _ _ => rfl) (.refl s)
    · exact fun h => absurd h hmod

end AllocDirent

/-! ## A new entry -/

/-- Entry `k` of a directory names an inode. -/
def DirentAt (img : ByteMem) (dir : BsfsInode) (k inode : Nat) (name : CString) : Prop :=
  ∀ j, j < 128 → img (slotAddr dir k + j) = (direntBytes inode name).getD j 0

theorem length_direntBytes (inode : Nat) (name : CString) :
    (direntBytes inode name).length = 128 := by
  have hname : (name.snprintf bsfsMaxDirentname).bytes.length ≤ 123 := List.length_take_le ..
  unfold direntBytes
  rw [List.length_append, List.length_append, length_leBytes, List.length_replicate]
  unfold bsfsMaxDirentname at *
  omega

section Entry

variable {s s' : PopulateState} {base : ByteMem} {offset total next inodes idx k : Nat}

/-- `size += sizeof(BsfsDirent)` counts an entry that has a place. -/
theorem growDirectory_spec (hg : Growing s base offset total next inodes)
    (hd : DirState s base idx (k + 1) k next) (hidx : idx < inodes) (hk : k < 320) :
    ∃ s', growDirectory idx s = .ok () s' ∧ Growing s' base offset total next inodes ∧
      DirState s' base idx (k + 1) (k + 1) next ∧ InDir s s' idx k next (inodes + 1) ∧
      s'.image = s.image ∧ ∀ j, (s'.inodeTable idx).direct j = (s.inodeTable idx).direct j := by
  have hcount : idx < s.header.inodeCount := by
    have hinodes := hg.counters.inodes_le
    rw [hg.counters.volume.inodeCount]
    omega
  have hsize : ((s.inodeTable idx).size + sizeofBsfsDirent) % 2 ^ 64 = 128 * (k + 1) := by
    rw [hd.size]
    unfold sizeofBsfsDirent
    omega
  obtain ⟨inode, hinode⟩ : ∃ inode, inode = { s.inodeTable idx with size := 128 * (k + 1) } :=
    ⟨_, rfl⟩
  have hdirect (j : Nat) : inode.direct j = (s.inodeTable idx).direct j := by
    rw [hinode]
    rfl
  have htable : (s.setInode idx inode).inodeTable idx = inode := by
    rw [setInode_inodeTable, update_self]
  refine ⟨s.setInode idx inode, ?_, hg.setInode hidx _, ?_, ?_, setInode_image .., ?_⟩
  · unfold growDirectory
    rw [modifyInode_of_lt hcount, hsize, hinode]
  · refine ⟨?_, ?_, ?_, ?_, ?_, ?_, ?_⟩
    · rw [htable, hinode]
      exact hd.type
    · rw [htable, hinode]
    · rw [htable, hinode]
      exact hd.l1
    · intro j hj
      rw [htable, hdirect]
      exact hd.pointer j hj
    · intro j hj
      rw [htable, hdirect]
      exact hd.none j hj
    · intro i j hij hj
      rw [htable, hdirect, hdirect]
      exact hd.increasing i j hij hj
    · rintro a ⟨i, hi, hmax, hpointer, hlo, hhi⟩
      unfold slotAddr at hlo hhi
      rw [htable, hdirect] at hpointer hlo hhi
      exact hd.unused a ⟨i, hi, hmax, hpointer, hlo, hhi⟩
  · refine ⟨fun a _ _ => rfl, ?_, ?_, ?_, kept_setInode ..⟩
    · intro i _ hi
      rw [setInode_inodeTable, update_of_ne hi]
    · intro j _
      rw [htable, hdirect]
    · intro j hj
      rw [htable, hdirect, hj]
      exact Or.inl rfl
  · intro j
    rw [htable, hdirect]

/-- A new entry gets its place and an inode. -/
theorem openEntry_spec (exits : Bool) (hg : Growing s base offset total next inodes)
    (hd : DirState s base idx k k next) (hidx : idx < inodes) (hk : k < 320)
    (hroom : next + slotBlocks k ≤ total) (hinodes : inodes < total / 4) :
    ∃ s', openEntry exits idx s = .ok (slotAddr (s'.inodeTable idx) k, inodes) s' ∧
      Growing s' base offset total (next + slotBlocks k) (inodes + 1) ∧
      DirState s' base idx (k + 1) (k + 1) (next + slotBlocks k) ∧
      InDir s s' idx k next (inodes + 1) ∧ s'.inodeTable inodes = .zero ∧
      (k % 32 = 0 → (s'.inodeTable idx).direct (k / 32) = next) := by
  obtain ⟨s1, hdirent, hg1, hd1, hframe1, -, hnew⟩ :=
    bsfsAllocDirent_spec exits hg hd hidx hk hroom
  have hd2 : DirState (s1.takeInode inodes) base idx (k + 1) k (next + slotBlocks k) :=
    hd1.congr (by rw [takeInode_inodeTable]) le_rfl fun _ _ => by rw [takeInode_image]
  have hframe2 : InDir s1 (s1.takeInode inodes) idx k (next + slotBlocks k) (inodes + 1) :=
    .of_outside (by omega) (fun _ _ => by rw [takeInode_image]) (fun _ _ => by rw [takeInode_inodeTable])
      (kept_takeInode ..)
  obtain ⟨s3, hgrow, hg3, hd3, hframe3, -, hdirect⟩ :=
    growDirectory_spec (hg1.takeInode hinodes) hd2 (by omega) hk
  have hframe : InDir s s3 idx k next (inodes + 1) :=
    (hframe1.trans hframe2 le_rfl (by omega) le_rfl).trans hframe3 le_rfl (by omega) (by omega)
  have hsame (j : Nat) : (s3.inodeTable idx).direct j = (s1.inodeTable idx).direct j := by
    rw [hdirect, takeInode_inodeTable]
  have haddr : slotAddr (s1.inodeTable idx) k = slotAddr (s3.inodeTable idx) k := by
    unfold slotAddr
    rw [hsame]
  refine ⟨s3, ?_, hg3, hd3, hframe, ?_, ?_⟩
  · unfold openEntry
    rw [bind_of_ok hdirent, bind_of_ok (bsfsAllocInode_next hg1.counters hinodes), bind_of_ok hgrow,
      haddr]
    rfl
  · rw [hframe.table inodes (Nat.lt_succ_self _) (by omega)]
    exact hg.fresh inodes le_rfl
  · intro hmod
    rw [hsame]
    exact hnew hmod

/-- The entry that got its place last is written. -/
theorem writeDirent_spec {size : Nat} (hg : Growing s base offset total next inodes)
    (hd : DirState s base idx (k + 1) size next) (hk : k < 320) (inode : Nat) (name : CString) :
    ∃ s', writeDirent (slotAddr (s.inodeTable idx) k) inode name s = .ok () s' ∧
      Growing s' base offset total next inodes ∧ DirState s' base idx (k + 1) size next ∧
      InDir s s' idx k next (inodes + 1) ∧ s'.inodeTable = s.inodeTable ∧
      DirentAt s'.image.bytes (s.inodeTable idx) k inode name := by
  have hlen := length_direntBytes inode name
  have hpointer := hd.pointer (k / 32) (by omega)
  have hnext := hg.counters.next_le
  have hsmall := hg.counters.small
  have hend : slotAddr (s.inodeTable idx) k + (direntBytes inode name).length ≤ 4096 * next := by
    unfold slotAddr
    omega
  have hfits : slotAddr (s.inodeTable idx) k + (direntBytes inode name).length ≤ s.image.size := by
    rw [hg.counters.imageSize]
    omega
  have houtside (a : Nat) (ha : a < slotAddr (s.inodeTable idx) k ∨
      slotAddr (s.inodeTable idx) k + 128 ≤ a) :
      (s.writeAt (slotAddr (s.inodeTable idx) k) (direntBytes inode name)).image.bytes a =
        s.image.bytes a := by
    rw [writeAt_image, HostFile.write_outside hfits (by omega)]
  refine ⟨s.writeAt (slotAddr (s.inodeTable idx) k) (direntBytes inode name),
    writeDirent_of_lt (by omega), hg.writeAt hend, ?_, ?_, writeAt_inodeTable .., ?_⟩
  · refine hd.congr (by rw [writeAt_inodeTable]) le_rfl ?_
    rintro a ⟨i, hi, -, hnonzero, hlo, hhi⟩
    -- an unused entry lies in the same block, behind the new one
    have hblock : i / 32 = k / 32 := by
      by_contra hne
      exact hnonzero (hd.none _ (by omega))
    refine houtside a ?_
    unfold slotAddr at *
    rw [hblock] at hlo hhi
    omega
  · refine ⟨?_, fun i _ _ => by rw [writeAt_inodeTable], fun j _ => by rw [writeAt_inodeTable],
      fun j hj => Or.inl (by rw [writeAt_inodeTable, hj]), kept_writeAt ..⟩
    intro a _ hunused
    refine houtside a ?_
    by_contra hinside
    exact hunused ⟨k, le_rfl, hk, by omega, by omega, by omega⟩
  · intro j hj
    rw [writeAt_image, HostFile.write_covered (by omega)]

/-- The entries `"."` and `".."`. -/
theorem addLink_spec (exits : Bool) (hg : Growing s base offset total next inodes)
    (hd : DirState s base idx k k next) (hidx : idx < inodes) (hk : k < 320)
    (hroom : next + slotBlocks k ≤ total) (inode : Nat) (name : CString) :
    ∃ s', addLink exits idx inode name s = .ok () s' ∧
      Growing s' base offset total (next + slotBlocks k) inodes ∧
      DirState s' base idx (k + 1) (k + 1) (next + slotBlocks k) ∧
      InDir s s' idx k next (inodes + 1) ∧
      DirentAt s'.image.bytes (s'.inodeTable idx) k inode name ∧
      (k % 32 = 0 → (s'.inodeTable idx).direct (k / 32) = next) := by
  obtain ⟨s1, hdirent, hg1, hd1, hframe1, himage1, hnew⟩ :=
    bsfsAllocDirent_spec exits hg hd hidx hk hroom
  obtain ⟨s2, hwrite, hg2, hd2, hframe2, htable2, hentry⟩ :=
    writeDirent_spec hg1 hd1 hk inode name
  obtain ⟨s3, hgrow, hg3, hd3, hframe3, himage3, hdirect⟩ := growDirectory_spec hg2 hd2 hidx hk
  have hsame (j : Nat) : (s3.inodeTable idx).direct j = (s1.inodeTable idx).direct j := by
    rw [hdirect, htable2]
  refine ⟨s3, ?_, hg3, hd3, ?_, ?_, ?_⟩
  · unfold addLink
    rw [bind_of_ok hdirent, bind_of_ok hwrite, hgrow]
  · exact (hframe1.trans hframe2 le_rfl (by omega) le_rfl).trans hframe3 le_rfl (by omega) le_rfl
  · intro j hj
    have haddr : slotAddr (s3.inodeTable idx) k = slotAddr (s1.inodeTable idx) k := by
      unfold slotAddr
      rw [hsame]
    rw [haddr, himage3]
    exact hentry j hj
  · intro hmod
    rw [hsame]
    exact hnew hmod

end Entry

/-! ## Entries stay in place -/

section Kept

variable {s s' : PopulateState} {base : ByteMem} {next inodes idx slots entries k : Nat}

theorem DirState.unused_lt (hd : DirState s base idx slots entries next) {a : Nat}
    (h : Unused (s.inodeTable idx) k a) : a < 4096 * next := by
  obtain ⟨i, -, -, hnonzero, -, hhi⟩ := h
  have hused : 32 * (i / 32) < slots := by
    by_contra hbeyond
    exact hnonzero (hd.none _ (by omega))
  have hpointer := hd.pointer _ hused
  unfold slotAddr at hhi
  omega

/-- The bytes of an entry are not among the unused ones. -/
theorem DirState.slot_used (hd : DirState s base idx slots entries next) {i j : Nat} (hi : i < slots)
    (hj : j < 128) : ¬ Unused (s.inodeTable idx) slots (slotAddr (s.inodeTable idx) i + j) := by
  rintro ⟨i', hi', -, hnonzero, hlo, hhi⟩
  have hlast : i' / 32 = (slots - 1) / 32 := by
    by_contra hne
    exact hnonzero (hd.none _ (by omega))
  unfold slotAddr at hlo hhi
  by_cases hsame : i / 32 = i' / 32
  · rw [hsame] at hlo hhi
    omega
  · have hbefore := hd.increasing (i / 32) (i' / 32) (by omega) (by omega)
    omega

/-- Working in a directory keeps the entries it has. -/
theorem InDir.slot (h : InDir s s' idx slots next inodes)
    (hd : DirState s base idx slots entries next) {i : Nat} (hi : i < slots) :
    (s'.inodeTable idx).direct (i / 32) = (s.inodeTable idx).direct (i / 32) ∧
      ∀ j, j < 128 → s'.image.bytes (slotAddr (s'.inodeTable idx) i + j) =
        s.image.bytes (slotAddr (s.inodeTable idx) i + j) := by
  have hpointer := hd.pointer (i / 32) (by omega)
  have hsame := h.pointer (i / 32) (by omega)
  have haddr : slotAddr (s'.inodeTable idx) i = slotAddr (s.inodeTable idx) i := by
    unfold slotAddr
    rw [hsame]
  refine ⟨hsame, fun j hj => ?_⟩
  rw [haddr]
  refine h.image _ ?_ (hd.slot_used hi hj)
  unfold slotAddr
  omega

end Kept

/-! ## Entries that do not fit -/

section Fits

variable {s s' : PopulateState} {base : ByteMem} {offset total next inodes idx k : Nat}

/-- There are ten direct pointers. -/
theorem DirState.slots_le {slots entries : Nat} (hd : DirState s base idx slots entries next) :
    slots ≤ 320 := by
  by_contra hmany
  have hpointer := (hd.pointer 10 (by omega)).1
  unfold BsfsInode.direct at hpointer
  rw [dif_neg (by decide)] at hpointer
  omega

variable (hg : Growing s base offset total next inodes) (hd : DirState s base idx k k next)
variable (hidx : idx < inodes)

include hg hd hidx

theorem bsfsAllocDirent_fits {place : Nat} (hcall : bsfsAllocDirent true idx s = .ok place s') :
    k < 320 ∧ next + slotBlocks k ≤ total := by
  have hslots := hd.slots_le
  have hinodes := hg.counters.inodes_le
  by_cases hk : k < 320
  · refine ⟨hk, ?_⟩
    rw [bsfsAllocDirent_eq true hg hd hidx hk] at hcall
    obtain ⟨_, _, hensure, -⟩ := bind_eq_ok.mp hcall
    unfold ensureDirentBlock at hensure
    rw [get_bind] at hensure
    unfold slotBlocks
    by_cases hmod : k % 32 = 0
    · rw [if_pos (hd.direct_eq_zero_iff.mpr hmod)] at hensure
      obtain ⟨_, _, halloc, -⟩ := bind_eq_ok.mp hensure
      rw [if_pos hmod]
      exact (bsfsAllocBlock_ok hg.counters halloc).1
    · rw [if_neg hmod]
      exact hg.counters.next_le
  · obtain rfl : k = 320 := by omega
    have hlocal : u32 ((s.inodeTable idx).size / s.header.blockSize) = 10 := by
      rw [hd.size, hg.counters.volume.blockSize, u32_of_lt (by omega)]
    unfold bsfsAllocDirent at hcall
    rw [get_bind, bind_of_ok (undefinedIf_of_not
      (by rw [hg.counters.volume.inodeCount]; omega)), if_neg (not_not_intro hd.type), hlocal,
      if_pos (by decide)] at hcall
    exact absurd hcall bsfsPanic_bind_ne_ok

/-- A program that goes on had room for the entry. -/
theorem openEntry_ok {entry : Nat × Nat} (hcall : openEntry true idx s = .ok entry s') :
    k < 320 ∧ next + slotBlocks k ≤ total ∧ inodes < total / 4 ∧ entry.2 = inodes ∧
      Growing s' base offset total (next + slotBlocks k) (inodes + 1) ∧
      DirState s' base idx (k + 1) (k + 1) (next + slotBlocks k) ∧ s'.inodeTable inodes = .zero ∧
      entry.1 = slotAddr (s'.inodeTable idx) k := by
  have hopen := hcall
  obtain ⟨place, t, hdirent, hrest⟩ := bind_eq_ok.mp hcall
  obtain ⟨hk, hroom⟩ := bsfsAllocDirent_fits hg hd hidx hdirent
  obtain ⟨s1, hspec, hg1, -⟩ := bsfsAllocDirent_spec true hg hd hidx hk hroom
  rw [hspec] at hdirent
  cases hdirent
  obtain ⟨_, _, hinode, -⟩ := bind_eq_ok.mp hrest
  have hinodes := (bsfsAllocInode_ok hg1.counters hinode).1
  obtain ⟨s2, hspec2, hg2, hd2, -, hzero, -⟩ := openEntry_spec true hg hd hidx hk hroom hinodes
  rw [hspec2] at hopen
  cases hopen
  exact ⟨hk, hroom, hinodes, rfl, hg2, hd2, hzero, rfl⟩

theorem addLink_ok {inode : Nat} {name : CString} (hk : k < 320)
    (hcall : addLink true idx inode name s = .ok () s') :
    Growing s' base offset total (next + slotBlocks k) inodes ∧
      DirState s' base idx (k + 1) (k + 1) (next + slotBlocks k) := by
  obtain ⟨_, _, hdirent, -⟩ := bind_eq_ok.mp hcall
  obtain ⟨s1, hspec, hg1, hd1, -⟩ := addLink_spec true hg hd hidx hk
    (bsfsAllocDirent_fits hg hd hidx hdirent).2 inode name
  rw [hspec] at hcall
  cases hcall
  exact ⟨hg1, hd1⟩

end Fits

end Pristine.Bsfs
