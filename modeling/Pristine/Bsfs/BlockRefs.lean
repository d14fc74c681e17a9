import Pristine.Bsfs.PopulatedImage
import Pristine.Lib.Enumeration

/-!
# The references to the blocks of a stored tree

Direct pointers, L1 tables and their entries, as readers find them on an image.
Those of a stored tree number its blocks one by one (`EntriesOn.refs`).
-/

namespace Pristine.Bsfs

open Lib Kernel

/-- Where a block can be named: a direct pointer, the pointer to the L1 table, or an entry of that
table. -/
inductive BlockRef where
  | direct (inode k : Nat)
  | l1 (inode : Nat)
  | entry (inode k : Nat)
  deriving DecidableEq

namespace BlockRef

def inode : BlockRef → Nat
  | .direct inode _ => inode
  | .l1 inode => inode
  | .entry inode _ => inode

variable (img : ByteMem) (table : Nat → BsfsInode)

/-- The block that is named. -/
def block : BlockRef → Nat
  | .direct inode k => (table inode).direct k
  | .l1 inode => (table inode).blocksL1indirect
  | .entry inode k => loadLE img (4096 * (table inode).blocksL1indirect + 4 * k) 4

/-- The place exists and does not hold zero, which stands for no block. -/
def Present (r : BlockRef) : Prop :=
  r.block img table ≠ 0 ∧
    match r with
    | .direct _ k => k < bsfsMaxDirectblocks
    | .l1 _ => True
    | .entry inode k => (table inode).blocksL1indirect ≠ 0 ∧ k < 1024

end BlockRef

section Refs

variable {img base : ByteMem} {table : Nat → BsfsInode} {dir : BsfsInode}
variable {own parent k next n c entries low high : Nat} {data : List UInt8}

/-- The references of one inode. -/
def inodeRefs (img : ByteMem) (table : Nat → BsfsInode) (n : Nat) : Set BlockRef :=
  { r | r.Present img table ∧ r.inode = n }

/-- The references of the inodes `[n, m)`. -/
def rangeRefs (img : ByteMem) (table : Nat → BsfsInode) (n m : Nat) : Set BlockRef :=
  { r | r.Present img table ∧ n ≤ r.inode ∧ r.inode < m }

theorem rangeRefs_one (n : Nat) : rangeRefs img table n (n + 1) = inodeRefs img table n := by
  ext r
  refine and_congr_right fun _ => ?_
  omega

/-- The references of the entries of a directory from slot `k` on: the pointers of the directory
`own` to the blocks that begin there, and all of the inodes of the tree. -/
def treeRefs (img : ByteMem) (table : Nat → BsfsInode) (tree : HostTree) (own k n : Nat) :
    Set BlockRef :=
  { r | r.Present img table ∧ ((n ≤ r.inode ∧ r.inode < n + tree.count) ∨
    ∃ j, r = .direct own j ∧ k ≤ 32 * j ∧ 32 * j < k + tree.length) }

section File

variable (hinode : FileInode (table n) c data) (hfile : FileOn img c data)
variable (hmax : fileBlocks data.length ≤ 1034) (hpos : 0 < c)

include hinode

variable (img) in
theorem FileInode.block_direct {j : Nat} (hten : j < 10) (hlt : j < fileBlocks data.length) :
    (BlockRef.direct n j).block img table = c + j := by
  show (table n).direct j = c + j
  rw [hinode.direct j hten, if_pos hlt]
  exact if_pos (Nat.le_of_lt hten)

variable (img) in
theorem FileInode.block_l1 (hlong : 10 < fileBlocks data.length) :
    (BlockRef.l1 n).block img table = c + 11 := by
  show (table n).blocksL1indirect = c + 11
  rw [hinode.l1, if_neg (by omega)]
  rfl

include hfile hmax

theorem FileInode.block_entry {j : Nat} (hlt : 10 + j < fileBlocks data.length) :
    (BlockRef.entry n j).block img table = fileBlock c (10 + j) := by
  show loadLE img (4096 * (table n).blocksL1indirect + 4 * j) 4 = _
  rw [hinode.l1, if_neg (by omega), hfile.l1 (by omega) j (by omega)]
  exact if_pos (by omega)

include hpos

/-- The references of a file: its first blocks, and the L1 table with the others. -/
theorem FileInode.mem_refs (r : BlockRef) : r ∈ inodeRefs img table n ↔
    (∃ j, r = .direct n j ∧ j < 10 ∧ j < fileBlocks data.length) ∨
      (r = .l1 n ∧ 10 < fileBlocks data.length) ∨
      ∃ j, r = .entry n j ∧ 10 + j < fileBlocks data.length := by
  have hl1 := hinode.l1
  constructor
  · rintro ⟨⟨hnonzero, hplace⟩, rfl⟩
    cases r with
    | direct inode j =>
      refine Or.inl ⟨j, rfl, hplace, ?_⟩
      by_contra hbeyond
      exact hnonzero ((hinode.direct j hplace).trans (if_neg hbeyond))
    | l1 inode =>
      refine Or.inr (Or.inl ⟨rfl, ?_⟩)
      by_contra hshort
      exact hnonzero (hl1.trans (if_pos (by omega)))
    | entry inode j =>
      obtain ⟨hpresent, hlt⟩ := hplace
      have hlong : 10 < fileBlocks data.length := by
        by_contra hshort
        exact hpresent (hl1.trans (if_pos (by omega)))
      refine Or.inr (Or.inr ⟨j, rfl, ?_⟩)
      by_contra hbeyond
      refine hnonzero ?_
      show loadLE img (4096 * (table inode).blocksL1indirect + 4 * j) 4 = 0
      rw [show (table inode).blocksL1indirect = fileL1 c from hl1.trans (if_neg (by omega)),
        hfile.l1 hlong j hlt]
      exact if_neg (by omega)
  · rintro (⟨j, rfl, hten, hlt⟩ | ⟨rfl, hlong⟩ | ⟨j, rfl, hlt⟩)
    · have hblock := hinode.block_direct img hten hlt
      exact ⟨⟨by omega, hten⟩, rfl⟩
    · have hblock := hinode.block_l1 img hlong
      exact ⟨⟨by omega, trivial⟩, rfl⟩
    · have hblock := hinode.block_entry hfile hmax hlt
      have htable := hinode.block_l1 img (by omega)
      have hlow := (fileBlock_bounds c (10 + j)).1
      change (table n).blocksL1indirect = c + 11 at htable
      exact ⟨⟨by omega, by omega, by omega⟩, rfl⟩

/-- The data blocks of a file, and its L1 table between them. -/
theorem FileInode.refs : Set.BijOn (BlockRef.block img table) (inodeRefs img table n)
    (Set.Ico c (fileBlock c (fileBlocks data.length))) := by
  have hmem := hinode.mem_refs hfile hmax hpos
  by_cases hshort : fileBlocks data.length ≤ 10
  · have hset : inodeRefs img table n =
        { r | ∃ j, r = .direct n j ∧ 0 ≤ j ∧ j < fileBlocks data.length } := by
      ext r
      rw [hmem]
      constructor
      · rintro (⟨j, rfl, -, hlt⟩ | ⟨-, hlong⟩ | ⟨j, -, hlt⟩)
        · exact ⟨j, rfl, Nat.zero_le j, hlt⟩
        · omega
        · omega
      · rintro ⟨j, rfl, -, hlt⟩
        exact Or.inl ⟨j, rfl, by omega, hlt⟩
    rw [hset, fileBlock, if_pos hshort]
    exact bijOn_Ico_image fun j _ hlt => hinode.block_direct img (by omega) hlt
  · -- ten direct blocks, the first indirect one, the L1 table, and the others
    have hset : inodeRefs img table n =
        { r | ∃ j, r = .direct n j ∧ 0 ≤ j ∧ j < 10 } ∪ {.entry n 0} ∪ {.l1 n} ∪
          { r | ∃ j, r = .entry n j ∧ 1 ≤ j ∧ j < fileBlocks data.length - 10 } := by
      ext r
      rw [hmem]
      constructor
      · rintro (⟨j, rfl, hten, -⟩ | ⟨rfl, -⟩ | ⟨j, rfl, hlt⟩)
        · exact Or.inl (Or.inl (Or.inl ⟨j, rfl, Nat.zero_le j, hten⟩))
        · exact Or.inl (Or.inr rfl)
        · by_cases hfirst : j = 0
          · rw [hfirst]
            exact Or.inl (Or.inl (Or.inr rfl))
          · exact Or.inr ⟨j, rfl, by omega, by omega⟩
      · rintro (((⟨j, rfl, -, hten⟩ | rfl) | rfl) | ⟨j, rfl, -, hlt⟩)
        · exact Or.inl ⟨j, rfl, hten, by omega⟩
        · exact Or.inr (Or.inr ⟨0, rfl, by omega⟩)
        · exact Or.inr (Or.inl ⟨rfl, by omega⟩)
        · exact Or.inr (Or.inr ⟨j, rfl, by omega⟩)
    have hdirect : Set.BijOn (BlockRef.block img table) { r | ∃ j, r = .direct n j ∧ 0 ≤ j ∧ j < 10 }
        (Set.Ico c (c + 10)) :=
      bijOn_Ico_image fun j _ hten => hinode.block_direct img hten (by omega)
    have hfirst : Set.BijOn (BlockRef.block img table) {.entry n 0} (Set.Ico (c + 10) (c + 11)) :=
      bijOn_Ico_single (hinode.block_entry hfile hmax (by omega))
    have htable : Set.BijOn (BlockRef.block img table) {.l1 n} (Set.Ico (c + 11) (c + 12)) :=
      bijOn_Ico_single (hinode.block_l1 img (by omega))
    have hothers : Set.BijOn (BlockRef.block img table)
        { r | ∃ j, r = .entry n j ∧ 1 ≤ j ∧ j < fileBlocks data.length - 10 }
        (Set.Ico (c + 12) (c + 12 + (fileBlocks data.length - 10 - 1))) := by
      refine bijOn_Ico_image fun j hlo hhi => ?_
      rw [hinode.block_entry hfile hmax (by omega), fileBlock, if_neg (by omega)]
      omega
    have hend : fileBlock c (fileBlocks data.length) = c + 12 + (fileBlocks data.length - 10 - 1) := by
      rw [fileBlock, if_neg hshort]
      omega
    rw [hset, hend]
    exact bijOn_Ico_union (bijOn_Ico_union (bijOn_Ico_union hdirect hfirst (by omega) (by omega)) htable
      (by omega) (by omega)) hothers (by omega) (by omega)

end File

/-- The pointer to a block that begins with slot `k`. -/
def slotRefs (own k : Nat) : Set BlockRef :=
  { r | r = .direct own (k / 32) ∧ k % 32 = 0 }

theorem slotRefs_bijOn (hblock : k % 32 = 0 → (table own).direct (k / 32) = next) :
    Set.BijOn (BlockRef.block img table) (slotRefs own k) (Set.Ico next (next + slotBlocks k)) := by
  unfold slotBlocks slotRefs
  by_cases hmod : k % 32 = 0
  · simp only [hmod, and_true, if_true]
    exact bijOn_Ico_single (hblock hmod)
  · simp only [hmod, and_false, if_false]
    exact bijOn_Ico_empty _ _

/-- The references of the entries of a directory: the block of the first entry, its inodes
`[n, m)`, and the rest. -/
theorem treeRefs_cons {name : CString} {tree rest : HostTree} {m : Nat}
    (hslot : SlotOn img (table own) k next n name) (hpos : 0 < next) (hk : k < 320)
    (hlength : tree.length = rest.length + 1) (hcount : n + tree.count = m + rest.count)
    (hm : n ≤ m) :
    treeRefs img table tree own k n =
      slotRefs own k ∪ rangeRefs img table n m ∪ treeRefs img table rest own (k + 1) m := by
  ext r
  constructor
  · rintro ⟨hpresent, ⟨hlo, hhi⟩ | ⟨j, rfl, hlo, hhi⟩⟩
    · by_cases hfirst : r.inode < m
      · exact Or.inl (Or.inr ⟨hpresent, hlo, hfirst⟩)
      · exact Or.inr ⟨hpresent, Or.inl ⟨by omega, by omega⟩⟩
    · by_cases hfirst : 32 * j = k
      · refine Or.inl (Or.inl ⟨?_, by omega⟩)
        rw [show k / 32 = j by omega]
      · exact Or.inr ⟨hpresent, Or.inr ⟨j, rfl, by omega, by omega⟩⟩
  · rintro ((⟨rfl, hmod⟩ | ⟨hpresent, hlo, hhi⟩) | ⟨hpresent, ⟨hlo, hhi⟩ | ⟨j, rfl, hlo, hhi⟩⟩)
    · refine ⟨⟨?_, ?_⟩, Or.inr ⟨k / 32, rfl, by omega, by omega⟩⟩
      · show (table own).direct (k / 32) ≠ 0
        rw [hslot.block hmod]
        omega
      · show k / 32 < 10
        omega
    · exact ⟨hpresent, Or.inl ⟨hlo, by omega⟩⟩
    · exact ⟨hpresent, Or.inl ⟨by omega, by omega⟩⟩
    · exact ⟨hpresent, Or.inr ⟨j, rfl, by omega, by omega⟩⟩

/-- The references of a directory and of all below it: its first block, and its entries. -/
theorem rangeRefs_dir {children : HostTree}
    (hdir : DirOn img base (table n) n parent (2 + children.length) low high) (hpos : 0 < low) :
    rangeRefs img table n (n + 1 + children.count) =
      {.direct n 0} ∪ treeRefs img table children n 2 (n + 1) := by
  ext r
  constructor
  · rintro ⟨⟨hnonzero, hplace⟩, hlo, hhi⟩
    by_cases hown : r.inode = n
    · cases r with
      | direct inode j =>
        obtain rfl : inode = n := hown
        by_cases hfirst : j = 0
        · rw [hfirst]
          exact Or.inl rfl
        · refine Or.inr ⟨⟨hnonzero, hplace⟩, Or.inr ⟨j, rfl, by omega, ?_⟩⟩
          by_contra hbeyond
          exact hnonzero (hdir.none j (by omega))
      | l1 inode =>
        obtain rfl : inode = n := hown
        exact absurd hdir.l1 hnonzero
      | entry inode j =>
        obtain rfl : inode = n := hown
        exact absurd hdir.l1 hplace.1
    · exact Or.inr ⟨⟨hnonzero, hplace⟩, Or.inl ⟨by omega, by omega⟩⟩
  · rintro (rfl | ⟨hpresent, ⟨hlo, hhi⟩ | ⟨j, rfl, -, -⟩⟩)
    · refine ⟨⟨?_, by show 0 < 10; omega⟩, le_rfl, ?_⟩
      · show (table n).direct 0 ≠ 0
        rw [hdir.first]
        omega
      · show n < n + 1 + children.count
        omega
    · exact ⟨hpresent, by omega, hhi⟩
    · refine ⟨hpresent, le_rfl, ?_⟩
      show n < n + 1 + children.count
      omega

/-- The references of a stored tree number its blocks. -/
theorem EntriesOn.refs {tree : HostTree} (h : EntriesOn img base table tree (table own) own k next n)
    (hstorable : tree.Storable) (hlength : k + tree.length ≤ 320) (hpos : 0 < next) :
    Set.BijOn (BlockRef.block img table) (treeRefs img table tree own k n)
      (Set.Ico next (next + tree.blocks k)) := by
  induction tree generalizing own k next n with
  | nil =>
    have hnone : treeRefs img table .nil own k n = ∅ := by
      ext r
      simp only [treeRefs, HostTree.count, HostTree.length, Set.mem_empty_iff_false, iff_false]
      rintro ⟨-, ⟨hlo, hhi⟩ | ⟨j, -, hlo, hhi⟩⟩ <;> omega
    rw [hnone]
    exact bijOn_Ico_empty _ _
  | file name data rest ih =>
    obtain ⟨hslot, hinode, hfile, hrest⟩ := h
    obtain ⟨hmax, hstorable⟩ := hstorable
    simp only [HostTree.length] at hlength
    have hblock := fileBlock_add (next + slotBlocks k) (fileBlocks data.length)
    have htail := ih hrest hstorable (by omega) (by omega)
    have hhead := hinode.refs hfile hmax (by omega)
    have hend : next + (HostTree.file name data rest).blocks k =
        fileBlock (next + slotBlocks k) (fileBlocks data.length) + rest.blocks (k + 1) := by
      rw [HostTree.blocks]
      omega
    rw [treeRefs_cons hslot hpos (by omega) (by rw [HostTree.length])
      (show n + (HostTree.file name data rest).count = n + 1 + rest.count by
        rw [HostTree.count]; omega) (by omega), rangeRefs_one, hend]
    exact bijOn_Ico_union (bijOn_Ico_union (slotRefs_bijOn hslot.block) hhead (by omega) (by omega))
      htail (by omega) (by omega)
  | dir name children rest ihchildren ihrest =>
    obtain ⟨hslot, hdir, hchildren, hrest⟩ := h
    obtain ⟨hchildrenLength, hstorableChildren, hstorable⟩ := hstorable
    simp only [HostTree.length] at hlength
    have hinner := ihchildren hchildren hstorableChildren (by omega) (by omega)
    have htail := ihrest hrest hstorable (by omega) (by omega)
    have hfirst : Set.BijOn (BlockRef.block img table) {.direct n 0}
        (Set.Ico (next + slotBlocks k) (next + slotBlocks k + 1)) :=
      bijOn_Ico_single hdir.first
    have hend : next + (HostTree.dir name children rest).blocks k =
        next + slotBlocks k + 1 + children.blocks 2 + rest.blocks (k + 1) := by
      rw [HostTree.blocks]
      omega
    rw [treeRefs_cons hslot hpos (by omega) (by rw [HostTree.length])
      (show n + (HostTree.dir name children rest).count = n + 1 + children.count + rest.count by
        rw [HostTree.count]; omega) (by omega), rangeRefs_dir hdir (by omega), hend]
    exact bijOn_Ico_union (bijOn_Ico_union (slotRefs_bijOn hslot.block)
      (bijOn_Ico_union hfirst hinner (by omega) (by omega)) (by omega) (by omega)) htail (by omega)
      (by omega)

end Refs

end Pristine.Bsfs
