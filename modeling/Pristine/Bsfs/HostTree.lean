import Pristine.Bsfs.Directory

/-!
# Trees of the host, and trees in an image

`HostTree` is what a directory holds: a first entry and the rest.  `Hosts` says
that the host shows such a tree under a path, and `EntriesOn` that an image holds
it, with the places that counting gives: entries from slot `k` of a directory on,
blocks from `next` on and inodes from `n` on.
-/

namespace Pristine.Bsfs

open Lib Kernel

/-- What a directory holds. -/
inductive HostTree where
  | nil
  | file (name : CString) (data : List UInt8) (rest : HostTree)
  | dir (name : CString) (children rest : HostTree)

namespace HostTree

/-- The number of entries of the directory itself. -/
def length : HostTree → Nat
  | .nil => 0
  | .file _ _ rest => rest.length + 1
  | .dir _ _ rest => rest.length + 1

/-- The number of files and directories at all depths. -/
def count : HostTree → Nat
  | .nil => 0
  | .file _ _ rest => 1 + rest.count
  | .dir _ children rest => 1 + children.count + rest.count

/-- The number of blocks that entries from slot `k` on take. -/
def blocks : HostTree → Nat → Nat
  | .nil, _ => 0
  | .file _ data rest, k =>
    slotBlocks k + fileBlock 0 (fileBlocks data.length) + rest.blocks (k + 1)
  | .dir _ children rest, k => slotBlocks k + (1 + children.blocks 2) + rest.blocks (k + 1)

/-- How deep directories are nested. -/
def depth : HostTree → Nat
  | .nil => 0
  | .file _ _ rest => rest.depth
  | .dir _ children rest => max (children.depth + 1) rest.depth

/-- No file has more than 1034 blocks and no subdirectory more than 318 entries. -/
def Storable : HostTree → Prop
  | .nil => True
  | .file _ data rest => fileBlocks data.length ≤ 1034 ∧ rest.Storable
  | .dir _ children rest => children.length ≤ 318 ∧ children.Storable ∧ rest.Storable

end HostTree

/-- The host shows a tree: `dirents` are the entries of the directory `path`. -/
inductive Hosts (fs : HostFs) : CString → List HostDirent → HostTree → Prop
  | nil {path : CString} : Hosts fs path [] .nil
  | skip {path : CString} {dirent : HostDirent} {rest : List HostDirent} {tree : HostTree}
      (hdot : dirent.name = .dot ∨ dirent.name = .dotDot) (hrest : Hosts fs path rest tree) :
      Hosts fs path (dirent :: rest) tree
  | file {path : CString} {dirent : HostDirent} {rest : List HostDirent} {tree : HostTree}
      {data : List UInt8} (hdot : ¬ (dirent.name = .dot ∨ dirent.name = .dotDot))
      (htype : dirent.type = .reg) (hopen : fs.fopen (subpath path dirent.name) = some data)
      (hrest : Hosts fs path rest tree) :
      Hosts fs path (dirent :: rest) (.file dirent.name data tree)
  | dir {path : CString} {dirent : HostDirent} {rest dirents : List HostDirent}
      {children tree : HostTree} (hdot : ¬ (dirent.name = .dot ∨ dirent.name = .dotDot))
      (htype : dirent.type = .dir) (hopen : fs.opendir (subpath path dirent.name) = some dirents)
      (hchildren : Hosts fs (subpath path dirent.name) dirents children)
      (hrest : Hosts fs path rest tree) :
      Hosts fs path (dirent :: rest) (.dir dirent.name children tree)

/-! ## Trees in an image -/

/-- Entry `k` of a directory is in place; if it is the first in its block, the block is `next`. -/
structure SlotOn (img : ByteMem) (dir : BsfsInode) (k next inode : Nat) (name : CString) : Prop where
  block : k % 32 = 0 → dir.direct (k / 32) = next
  dirent : DirentAt img dir k inode name

/-- A directory's inode, with its blocks from `low` on and below `high`. -/
structure DirOn (img base : ByteMem) (dir : BsfsInode) (own parent entries low high : Nat) :
    Prop where
  type : dir.type = bsfsInodeTypeDirectory
  size : dir.size = 128 * entries
  l1 : dir.blocksL1indirect = 0
  first : dir.direct 0 = low
  pointer : ∀ j, 32 * j < entries → low ≤ dir.direct j ∧ dir.direct j < high
  none : ∀ j, entries ≤ 32 * j → dir.direct j = 0
  dot : DirentAt img dir 0 own .dot
  dotDot : DirentAt img dir 1 parent .dotDot
  unused : ∀ a, Unused dir entries a → img a = base a

/-- The entries of the directory `dir` from slot `k` on, blocks from `next` on and inodes from `n`
on. -/
def EntriesOn (img base : ByteMem) (table : Nat → BsfsInode) :
    HostTree → BsfsInode → Nat → Nat → Nat → Nat → Prop
  | .nil, _, _, _, _, _ => True
  | .file name data rest, dir, own, k, next, n =>
    SlotOn img dir k next n name ∧
    FileInode (table n) (next + slotBlocks k) data ∧
    FileOn img (next + slotBlocks k) data ∧
    EntriesOn img base table rest dir own (k + 1)
      (fileBlock (next + slotBlocks k) (fileBlocks data.length)) (n + 1)
  | .dir name children rest, dir, own, k, next, n =>
    SlotOn img dir k next n name ∧
    DirOn img base (table n) n own (2 + children.length) (next + slotBlocks k)
      (next + slotBlocks k + 1 + children.blocks 2) ∧
    EntriesOn img base table children (table n) n 2 (next + slotBlocks k + 1) (n + 1) ∧
    EntriesOn img base table rest dir own (k + 1)
      (next + slotBlocks k + 1 + children.blocks 2) (n + 1 + children.count)

section Transfer

variable {img img' base : ByteMem} {table table' : Nat → BsfsInode} {dir dir' : BsfsInode}
variable {own parent k next n entries low high c : Nat}

theorem fileBlock_add (c k : Nat) : fileBlock c k = c + fileBlock 0 k := by
  unfold fileBlock
  split <;> omega

/-- Inodes with the same kind, size and blocks, and for files with the same checksum. -/
structure SameInode (i i' : BsfsInode) : Prop where
  type : i'.type = i.type
  size : i'.size = i.size
  direct : ∀ j, i'.direct j = i.direct j
  l1 : i'.blocksL1indirect = i.blocksL1indirect
  checksum : i.type = bsfsInodeTypeFile → i'.checksum = i.checksum

theorem SameInode.refl (i : BsfsInode) : SameInode i i :=
  ⟨rfl, rfl, fun _ => rfl, rfl, fun _ => rfl⟩

theorem SameInode.slotAddr (h : SameInode dir dir') (k : Nat) : slotAddr dir' k = slotAddr dir k := by
  unfold Bsfs.slotAddr
  rw [h.direct]

/-- An entry of a directory whose blocks are in a range lies in that range. -/
theorem slot_bounds (hpointer : ∀ j, 32 * j < entries → low ≤ dir.direct j ∧ dir.direct j < high)
    (hk : k < entries) : 4096 * low ≤ slotAddr dir k ∧ slotAddr dir k + 128 ≤ 4096 * high := by
  have hblock := hpointer (k / 32) (by omega)
  unfold slotAddr
  omega

theorem DirentAt.congr {inode : Nat} {name : CString} (h : DirentAt img dir k inode name)
    (himg : ∀ j, j < 128 → img' (slotAddr dir' k + j) = img (slotAddr dir k + j)) :
    DirentAt img' dir' k inode name := by
  intro j hj
  rw [himg j hj]
  exact h j hj

theorem FileInode.congr {data : List UInt8} (h : FileInode dir c data) (hsame : SameInode dir dir') :
    FileInode dir' c data where
  type := hsame.type.trans h.type
  size := hsame.size.trans h.size
  direct := fun j hj => (hsame.direct j).trans (h.direct j hj)
  l1 := hsame.l1.trans h.l1
  checksum := (hsame.checksum h.type).trans h.checksum

theorem FileOn.congr {data : List UInt8} (h : FileOn img c data)
    (himg : ∀ a, 4096 * c ≤ a → a < 4096 * fileBlock c (fileBlocks data.length) →
      img' a = img a) : FileOn img' c data where
  bytes := fun p hp => by
    have hlow := (fileBlock_bounds c (p / 4096)).1
    have hhigh : fileBlock c (p / 4096) < fileBlock c (fileBlocks data.length) :=
      fileBlock_lt (by unfold fileBlocks; omega)
    rw [himg _ (by omega) (by omega)]
    exact h.bytes p hp
  l1 := fun hlong j hj => by
    have hlast : fileL1 c < fileBlock c (fileBlocks data.length) := by
      unfold fileBlock fileL1
      rw [if_neg (by omega)]
      omega
    have hlow : c ≤ fileL1 c := Nat.le_add_right c 11
    rw [← h.l1 hlong j hj]
    exact loadLE_congr fun a hlo hhi => himg a (by omega) (by omega)

theorem DirOn.congr (h : DirOn img base dir own parent entries low high) (hentries : 2 ≤ entries)
    (hsame : SameInode dir dir') (himg : ∀ a, 4096 * low ≤ a → a < 4096 * high → img' a = img a) :
    DirOn img' base dir' own parent entries low high where
  type := hsame.type.trans h.type
  size := hsame.size.trans h.size
  l1 := hsame.l1.trans h.l1
  first := (hsame.direct 0).trans h.first
  pointer := fun j hj => by
    rw [hsame.direct]
    exact h.pointer j hj
  none := fun j hj => (hsame.direct j).trans (h.none j hj)
  dot := h.dot.congr fun j hj => by
    have hbounds := slot_bounds (k := 0) h.pointer (by omega)
    rw [hsame.slotAddr]
    exact himg _ (by omega) (by omega)
  dotDot := h.dotDot.congr fun j hj => by
    have hbounds := slot_bounds (k := 1) h.pointer (by omega)
    rw [hsame.slotAddr]
    exact himg _ (by omega) (by omega)
  unused := by
    rintro a ⟨i, hi, hmax, hnonzero, hlo, hhi⟩
    rw [hsame.slotAddr] at hlo hhi
    rw [hsame.direct] at hnonzero
    rw [← h.unused a ⟨i, hi, hmax, hnonzero, hlo, hhi⟩]
    have hused : 32 * (i / 32) < entries := by
      by_contra hbeyond
      exact hnonzero (h.none _ (by omega))
    have hblock := h.pointer _ hused
    unfold Bsfs.slotAddr at hlo hhi
    exact himg a (by omega) (by omega)

/-- A tree stays in place when its entries, blocks and inodes do. -/
theorem EntriesOn.congr {tree : HostTree} (h : EntriesOn img base table tree dir own k next n)
    (hdirect : ∀ j, k ≤ 32 * j → 32 * j < k + tree.length → dir'.direct j = dir.direct j)
    (hslots : ∀ i, k ≤ i → i < k + tree.length →
      ∀ j, j < 128 → img' (slotAddr dir' i + j) = img (slotAddr dir i + j))
    (himg : ∀ a, 4096 * next ≤ a → a < 4096 * (next + tree.blocks k) → img' a = img a)
    (htable : ∀ i, n ≤ i → i < n + tree.count → SameInode (table i) (table' i)) :
    EntriesOn img' base table' tree dir' own k next n := by
  induction tree generalizing dir dir' own k next n with
  | nil => trivial
  | file name data rest ih =>
    obtain ⟨hslot, hinode, hfile, hrest⟩ := h
    simp only [HostTree.length, HostTree.blocks, HostTree.count] at *
    have hblock := fileBlock_add (next + slotBlocks k) (fileBlocks data.length)
    refine ⟨⟨?_, ?_⟩, ?_, ?_, ?_⟩
    · intro hmod
      rw [hdirect _ (by omega) (by omega)]
      exact hslot.block hmod
    · exact hslot.dirent.congr (hslots k le_rfl (by omega))
    · exact hinode.congr (htable n le_rfl (by omega))
    · exact hfile.congr fun a hlo hhi => himg a (by omega) (by omega)
    · exact ih hrest (fun j hj hjlen => hdirect j (by omega) (by omega))
        (fun i hi hilen => hslots i (by omega) (by omega))
        (fun a hlo hhi => himg a (by omega) (by omega))
        (fun i hi hin => htable i (by omega) (by omega))
  | dir name children rest ihchildren ihrest =>
    obtain ⟨hslot, hdir, hchildren, hrest⟩ := h
    simp only [HostTree.length, HostTree.blocks, HostTree.count] at *
    have hsame : SameInode (table n) (table' n) := htable n le_rfl (by omega)
    refine ⟨⟨?_, ?_⟩, ?_, ?_, ?_⟩
    · intro hmod
      rw [hdirect _ (by omega) (by omega)]
      exact hslot.block hmod
    · exact hslot.dirent.congr (hslots k le_rfl (by omega))
    · exact hdir.congr (by omega) hsame fun a hlo hhi => himg a (by omega) (by omega)
    · refine ihchildren hchildren (fun j _ _ => hsame.direct j) ?_ ?_ ?_
      · intro i _ hi j hj
        have hbounds := slot_bounds (k := i) hdir.pointer hi
        rw [hsame.slotAddr]
        exact himg _ (by omega) (by omega)
      · exact fun a hlo hhi => himg a (by omega) (by omega)
      · exact fun i hi hin => htable i (by omega) (by omega)
    · exact ihrest hrest (fun j hj hjlen => hdirect j (by omega) (by omega))
        (fun i hi hilen => hslots i (by omega) (by omega))
        (fun a hlo hhi => himg a (by omega) (by omega))
        (fun i hi hin => htable i (by omega) (by omega))

end Transfer

end Pristine.Bsfs
