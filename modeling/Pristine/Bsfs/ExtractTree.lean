import Pristine.Bsfs.DirentRefs
import Pristine.Bsfs.Extract

/-!
# Extracting a stored tree

The walk of `bsfs_extract_dir` over an image that holds a tree visits the entries
of the tree in their order (`EntriesOn.extract`), and creates what the tree holds,
on a host that creates what it is asked for.
-/

namespace Pristine.Bsfs

open Lib Kernel

/-! ## Slots as the walk reads them -/

section Slots

variable (h : BsfsHeader) (image : HostFile) (dir : BsfsInode)

/-- `current_block_dirents` after the first `j` blocks. -/
def bufferAt : Nat → DirentBuffer
  | 0 => .fresh
  | j + 1 => (bufferAt j).read h image (dir.direct j)

/-- Slot `k` of a directory whose blocks have no gap. -/
def slotAt (k : Nat) : DirentBuffer × Nat := (bufferAt h image dir (k / 32 + 1), k % 32)

variable {h image dir}

theorem slotsPerBlock_eq (hbs : h.blockSize = 4096) : slotsPerBlock h = 32 := by
  unfold slotsPerBlock
  rw [hbs]
  rfl

/-- The slots of the walk are those of the blocks in use. -/
theorem dirSlots_eq (hbs : h.blockSize = 4096) {blocks : Nat}
    (hused : ∀ j, j < blocks → dir.direct j ≠ 0) (hfree : ∀ j, blocks ≤ j → dir.direct j = 0)
    (left j : Nat) (hle : j ≤ blocks) (hend : blocks ≤ j + left) :
    dirSlots h image dir (bufferAt h image dir j) (List.range' j left) =
      (List.range' (32 * j) (32 * (blocks - j))).map (slotAt h image dir) := by
  have hunused (left j : Nat) (hj : blocks ≤ j) (buffer : DirentBuffer) :
      dirSlots h image dir buffer (List.range' j left) = [] := by
    induction left generalizing j with
    | zero => rfl
    | succ left ih =>
      rw [List.range'_succ, dirSlots, if_pos (hfree j hj)]
      exact ih (j + 1) (by omega)
  induction left generalizing j with
  | zero =>
    rw [show blocks - j = 0 by omega]
    rfl
  | succ left ih =>
    by_cases hj : j < blocks
    · have hblock : (List.range 32).map (bufferAt h image dir (j + 1), ·) =
          (List.range' (32 * j) 32).map (slotAt h image dir) := by
        rw [List.range'_eq_map_range, List.map_map]
        refine List.map_congr_left fun d hd => ?_
        rw [List.mem_range] at hd
        unfold slotAt
        simp only [Function.comp_apply]
        rw [show (32 * j + d) / 32 = j by omega, show (32 * j + d) % 32 = d by omega]
      have hnext := ih (j + 1) (by omega) (by omega)
      rw [List.range'_succ, dirSlots, if_neg (hused j hj), slotsPerBlock_eq hbs]
      change (List.range 32).map (bufferAt h image dir (j + 1), ·) ++
        dirSlots h image dir (bufferAt h image dir (j + 1)) _ = _
      rw [hblock, hnext, ← List.map_append]
      congr 1
      rw [show 32 * (blocks - j) = 32 + 32 * (blocks - (j + 1)) by omega,
        show 32 * (j + 1) = 32 * j + 32 by omega, List.range'_append_1]
    · rw [hunused _ j (by omega), show blocks - j = 0 by omega]
      rfl

/-- A slot of a block that was read: the whole block is in the buffer. -/
structure SlotRead (img : ByteMem) (dir : BsfsInode) (k : Nat) (s : DirentBuffer × Nat) : Prop where
  slot : s.2 = k % 32
  valid : s.1.valid = 4096
  bytes : ∀ a, a < 4096 → s.1.bytes a = img (4096 * dir.direct (k / 32) + a)

theorem length_read_le (offset count : Nat) : (image.read offset count).length ≤ count := by
  unfold HostFile.read
  rw [length_bytesAt]
  exact Nat.min_le_left _ _

theorem slotRead_slotAt (hbs : h.blockSize = 4096) {k : Nat}
    (hend : 4096 * (dir.direct (k / 32) + 1) ≤ image.size) (hsmall : dir.direct (k / 32) < 2 ^ 20) :
    SlotRead image.bytes dir k (slotAt h image dir k) := by
  have hle (j : Nat) : (bufferAt h image dir j).valid ≤ 4096 := by
    induction j with
    | zero => exact Nat.zero_le _
    | succ j ih =>
      refine Nat.max_le.mpr ⟨ih, ?_⟩
      rw [slotsPerBlock_eq hbs]
      exact length_read_le _ _
  have hread := read_block hbs (le_refl 4096) hend hsmall
  have hbuffer : bufferAt h image dir (k / 32 + 1) =
      ⟨storeBytes (bufferAt h image dir (k / 32)).bytes 0
        (bytesAt image.bytes (4096 * dir.direct (k / 32)) 4096),
        max (bufferAt h image dir (k / 32)).valid 4096⟩ := by
    show DirentBuffer.read h image _ _ = _
    unfold DirentBuffer.read
    rw [slotsPerBlock_eq hbs]
    change (⟨storeBytes _ 0 (image.read _ 4096), max _ (image.read _ 4096).length⟩ : DirentBuffer) = _
    rw [hread, length_bytesAt]
  have hvalid : (bufferAt h image dir (k / 32 + 1)).valid = 4096 := by
    rw [hbuffer]
    exact Nat.max_eq_right (hle (k / 32))
  refine ⟨rfl, hvalid, fun a ha => ?_⟩
  show (bufferAt h image dir (k / 32 + 1)).bytes a = _
  rw [hbuffer]
  dsimp only
  have hbyte : storeBytes (bufferAt h image dir (k / 32)).bytes 0
      (bytesAt image.bytes (4096 * dir.direct (k / 32)) 4096) (0 + a) = _ :=
    storeBytes_bytesAt _ _ ha
  rw [show 0 + a = a from Nat.zero_add a] at hbyte
  exact hbyte

end Slots

section SlotRead

variable {img : ByteMem} {dir : BsfsInode} {k i : Nat} {s : DirentBuffer × Nat} {entry : CString}

theorem SlotRead.inode (hs : SlotRead img dir k s) :
    direntInode s.1.bytes s.2 = slotInode img dir k := by
  unfold direntInode slotInode sizeofBsfsDirent slotAddr
  rw [hs.slot, ← loadLE_offset]
  exact loadLE_congr fun a hlo hhi => hs.bytes a (by omega)

/-- A name that ends inside its slot. -/
theorem SlotRead.name (hs : SlotRead img dir k s)
    (hend : 0 ∈ bytesAt img (slotAddr dir k + 4) bsfsMaxDirentname) :
    ∃ name, s.1.name s.2 = some name ∧ name.bytes = slotName img dir k := by
  have hsplit : bytesAt s.1.bytes (sizeofBsfsDirent * s.2 + 4)
      (s.1.valid - (sizeofBsfsDirent * s.2 + 4)) =
      bytesAt img (slotAddr dir k + 4) bsfsMaxDirentname ++
        bytesAt img (slotAddr dir k + 128) (3968 - 128 * (k % 32)) := by
    rw [hs.slot, hs.valid]
    refine List.ext_getElem ?_ fun i hi _ => ?_
    · simp only [length_bytesAt, List.length_append, sizeofBsfsDirent, bsfsMaxDirentname]
      omega
    · rw [length_bytesAt] at hi
      unfold sizeofBsfsDirent at hi ⊢
      have hbyte := hs.bytes (128 * (k % 32) + 4 + i) (by omega)
      by_cases hin : i < 124
      · rw [List.getElem_append_left (by rw [length_bytesAt]; exact hin)]
        simp only [bytesAt, List.getElem_map, List.getElem_range]
        rw [hbyte]
        refine congrArg img ?_
        unfold slotAddr
        omega
      · rw [List.getElem_append_right (by rw [length_bytesAt]; exact Nat.le_of_not_lt hin)]
        simp only [bytesAt, List.getElem_map, List.getElem_range, List.length_map, List.length_range]
        rw [hbyte]
        refine congrArg img ?_
        unfold slotAddr bsfsMaxDirentname
        omega
  unfold DirentBuffer.name
  rw [if_pos (by rw [hsplit]; exact List.mem_append_left _ hend)]
  refine ⟨_, rfl, ?_⟩
  show List.takeWhile _ _ = _
  rw [hsplit, List.takeWhile_append, if_neg]
  · rfl
  · intro hall
    have hwhole := (List.takeWhile_prefix _).eq_of_length hall
    rw [← hwhole] at hend
    simpa using List.mem_takeWhile_imp hend

theorem DirentAt.ends (hd : DirentAt img dir k i entry) :
    0 ∈ bytesAt img (slotAddr dir k + 4) bsfsMaxDirentname := by
  refine List.mem_map.mpr ⟨123, List.mem_range.mpr (by decide), ?_⟩
  rw [Nat.add_assoc, hd 127 (by omega)]
  have hname : (entry.snprintf bsfsMaxDirentname).bytes.length ≤ 123 := List.length_take_le ..
  unfold direntBytes
  rw [List.getD_eq_getElem?_getD, List.getElem?_append_right]
  · simp only [List.length_append, length_leBytes, List.getElem?_replicate, bsfsMaxDirentname]
    unfold bsfsMaxDirentname at hname
    rw [if_pos (by omega)]
    rfl
  · rw [List.length_append, length_leBytes]
    omega

/-- What the walk reads of an entry. -/
theorem SlotRead.dirent (hs : SlotRead img dir k s) (hd : DirentAt img dir k i entry)
    (hi : i < 2 ^ 32) :
    direntInode s.1.bytes s.2 = i ∧ s.1.name s.2 = some (entry.snprintf bsfsMaxDirentname) := by
  refine ⟨hs.inode.trans (hd.slotInode hi), ?_⟩
  obtain ⟨name, hname, hbytes⟩ := hs.name hd.ends
  rw [hname, Option.some.injEq]
  rw [hd.slotName] at hbytes
  cases name
  simpa [CString.snprintf] using hbytes

end SlotRead

/-! ## What the loop body does -/

section Body

variable {h : BsfsHeader} {image : HostFile} {path name : CString} {s : DirentBuffer × Nat} {i : Nat}
variable {recurse : CString → BsfsInode → Except Halt (List ExtractEvent)} {inode : BsfsInode}
variable {opens : CString → Bool}

theorem extractSlot_unused (hname : s.1.name s.2 = some name)
    (hfree : direntInode s.1.bytes s.2 = bsfsInodeTypeFree) :
    extractSlot h image opens recurse path s.1 s.2 = .ok [] := by
  unfold extractSlot
  rw [hname]
  exact if_pos hfree

theorem extractSlot_dots (hname : s.1.name s.2 = some name) (hdots : name = .dot ∨ name = .dotDot) :
    extractSlot h image opens recurse path s.1 s.2 = .ok [] := by
  unfold extractSlot
  rw [hname]
  dsimp only
  rw [if_pos hdots, ite_self]

variable (hname : s.1.name s.2 = some name) (hindex : direntInode s.1.bytes s.2 = i) (hi : 0 < i)
variable (hordinary : ¬ (name = .dot ∨ name = .dotDot)) (hinode : inodeAt h image i = some inode)

include hname hindex hi hordinary hinode

theorem extractSlot_file (htype : inode.type = bsfsInodeTypeFile)
    (hopens : opens (subpath path name) = true) {data : List UInt8}
    (hcopy : bsfsWriteInodeToFile h image inode = .ok data) :
    extractSlot h image opens recurse path s.1 s.2 = .ok [.inode i, .file (subpath path name) data] := by
  unfold extractSlot
  rw [hname]
  dsimp only
  rw [hindex, if_neg (show ¬ i = bsfsInodeTypeFree from Nat.ne_of_gt hi), if_neg hordinary, hinode]
  dsimp only
  unfold extractFile
  rw [htype, hopens, hcopy]
  rfl

theorem extractSlot_dir (htype : inode.type = bsfsInodeTypeDirectory) {events : List ExtractEvent}
    (hrecurse : recurse (subpath path name) inode = .ok events) :
    extractSlot h image opens recurse path s.1 s.2 =
      .ok (.inode i :: .mkdir (subpath path name) :: events) := by
  unfold extractSlot
  rw [hname]
  dsimp only
  rw [hindex, if_neg (show ¬ i = bsfsInodeTypeFree from Nat.ne_of_gt hi), if_neg hordinary, hinode]
  dsimp only
  rw [htype, hrecurse]
  rfl

end Body

section All

variable {h : BsfsHeader} {image : HostFile} {path : CString} {l l' : List (DirentBuffer × Nat)}
variable {recurse : CString → BsfsInode → Except Halt (List ExtractEvent)}
variable {events others : List ExtractEvent} {opens : CString → Bool}

theorem extractAll_append_ok (hl : extractAll h image opens recurse path l = .ok events)
    (hl' : extractAll h image opens recurse path l' = .ok others) :
    extractAll h image opens recurse path (l ++ l') = .ok (events ++ others) := by
  rw [extractAll_append, hl, hl']
  rfl

theorem extractAll_cons_ok {s : DirentBuffer × Nat}
    (hs : extractSlot h image opens recurse path s.1 s.2 = .ok events)
    (hl : extractAll h image opens recurse path l = .ok others) :
    extractAll h image opens recurse path (s :: l) = .ok (events ++ others) := by
  unfold extractAll
  rw [hs, hl]
  rfl

theorem extractAll_nothing (hall : ∀ s ∈ l, extractSlot h image opens recurse path s.1 s.2 = .ok []) :
    extractAll h image opens recurse path l = .ok [] := by
  induction l with
  | nil => rfl
  | cons s l ih =>
    rw [List.forall_mem_cons] at hall
    exact extractAll_cons_ok hall.1 (ih hall.2)

end All

/-! ## The walk over a tree -/

/-- What the walk does with the entries of a tree, whose inodes are numbered from `n` on. -/
def treeEvents : HostTree → CString → Nat → List ExtractEvent
  | .nil, _, _ => []
  | .file name data rest, path, n =>
    .inode n :: .file (subpath path (name.snprintf bsfsMaxDirentname)) data ::
      treeEvents rest path (n + 1)
  | .dir name children rest, path, n =>
    .inode n :: .mkdir (subpath path (name.snprintf bsfsMaxDirentname)) ::
      (treeEvents children (subpath path (name.snprintf bsfsMaxDirentname)) (n + 1) ++
        treeEvents rest path (n + 1 + children.count))

/-- An image of `total` blocks, its table of inodes, and zeros before the tree was stored. -/
structure WalkOk (h : BsfsHeader) (image : HostFile) (base : ByteMem) (table : Nat → BsfsInode)
    (total inodes : Nat) : Prop where
  blockSize : h.blockSize = 4096
  size : 4096 * total ≤ image.size
  small : total ≤ 2 ^ 20
  inode : ∀ i, i < inodes → inodeAt h image i = some (table i)
  inodes_le : inodes ≤ 2 ^ 32

section Walk

variable {h : BsfsHeader} {image : HostFile} {base : ByteMem} {table : Nat → BsfsInode}
variable {total inodes own parent len low high k next n fuel : Nat} {dir : BsfsInode}
variable {tree : HostTree} {path : CString} {opens : CString → Bool}
variable (hw : WalkOk h image base table total inodes)

include hw

/-- The walk over a directory: what it does with the entries behind `"."` and `".."`. -/
theorem DirOn.extract (hdir : DirOn image.bytes base dir own parent (2 + len) low high)
    (hlow : 0 < low) (hhigh : high ≤ total) (hlen : len ≤ 318) (hown : own < 2 ^ 32)
    (hparent : parent < 2 ^ 32) (hzero : ∀ a, 4096 * low ≤ a → a < 4096 * high → base a = 0)
    {events : List ExtractEvent}
    (hentries : extractAll h image opens (bsfsExtractDir h image opens fuel) path
      ((List.range' 2 len).map (slotAt h image dir)) = .ok events) :
    bsfsExtractDir h image opens (fuel + 1) path dir = .ok events := by
  have hsize := hw.size
  have hsmall := hw.small
  have hread (k : Nat) (hk : 32 * (k / 32) < 2 + len) :
      SlotRead image.bytes dir k (slotAt h image dir k) := by
    have hpointer := hdir.pointer (k / 32) hk
    exact slotRead_slotAt hw.blockSize (by omega) (by omega)
  -- the blocks in use are the first ones
  obtain ⟨blocks, hblocks⟩ : ∃ blocks, blocks = (len + 33) / 32 := ⟨_, rfl⟩
  have hscan : dirSlots h image dir (bufferAt h image dir 0) (List.range' 0 10) = _ :=
    dirSlots_eq hw.blockSize (fun j hj => by have hpointer := hdir.pointer j (by omega); omega)
      (fun j hj => hdir.none j (by omega)) 10 0 (Nat.zero_le blocks) (by omega)
  have hsplit : List.range' (32 * 0) (32 * (blocks - 0)) =
      List.range' 0 2 ++ (List.range' 2 len ++ List.range' (2 + len) (32 * blocks - (2 + len))) := by
    have hfirst : List.range' 0 2 ++ List.range' (0 + 2) (len + (32 * blocks - (2 + len))) = _ :=
      List.range'_append_1
    rw [List.range'_append_1, hfirst, Nat.mul_zero]
    congr 1
    omega
  rw [hsplit, List.map_append, List.map_append, ← List.range_eq_range'] at hscan
  have hdots : extractAll h image opens (bsfsExtractDir h image opens fuel) path
      ((List.range' 0 2).map (slotAt h image dir)) = .ok [] := by
    refine extractAll_nothing fun s hs => ?_
    obtain ⟨k, hk, rfl⟩ := List.mem_map.mp hs
    rw [List.mem_range'_1] at hk
    have hcases : k = 0 ∨ k = 1 := by omega
    rcases hcases with rfl | rfl
    · exact extractSlot_dots ((hread 0 (by omega)).dirent hdir.dot hown).2 (Or.inl rfl)
    · exact extractSlot_dots ((hread 1 (by omega)).dirent hdir.dotDot hparent).2 (Or.inr rfl)
  have hunused : extractAll h image opens (bsfsExtractDir h image opens fuel) path
      ((List.range' (2 + len) (32 * blocks - (2 + len))).map (slotAt h image dir)) = .ok [] := by
    refine extractAll_nothing fun s hs => ?_
    obtain ⟨k, hk, rfl⟩ := List.mem_map.mp hs
    rw [List.mem_range'_1] at hk
    have hslot := hread k (by omega)
    have hpointer := hdir.pointer (k / 32) (by omega)
    have hclear (a : Nat) (hlo : slotAddr dir k ≤ a) (hhi : a < slotAddr dir k + 128) :
        image.bytes a = 0 := by
      rw [hdir.unused a ⟨k, by omega, by omega, by omega, hlo, hhi⟩]
      unfold slotAddr at hlo hhi
      exact hzero a (by omega) (by omega)
    obtain ⟨name, hname, -⟩ := hslot.name (List.mem_map.mpr
      ⟨0, List.mem_range.mpr (by decide), hclear _ (by omega) (by omega)⟩)
    refine extractSlot_unused hname (hslot.inode.trans ?_)
    refine loadLE_of_bytes (by decide) fun j hj => ?_
    rw [hclear _ (by omega) (by omega)]
    simp [byteOf, bsfsInodeTypeFree]
  unfold bsfsExtractDir bsfsMaxDirectblocks
  rw [extractBlocks_eq]
  have hall := extractAll_append_ok hdots (extractAll_append_ok hentries hunused)
  rw [List.nil_append, List.append_nil, ← hscan] at hall
  exact hall

/-- The walk over the entries of a stored tree. -/
theorem EntriesOn.extract (hentries : EntriesOn image.bytes base table tree dir own k next n)
    (hstorable : tree.Storable) (hnames : tree.NoDots) (hdepth : tree.depth ≤ fuel)
    (hblocks : next + tree.blocks k ≤ total) (hcount : n + tree.count ≤ inodes) (hnext : 0 < next)
    (hn : 0 < n) (hown : own < 2 ^ 32) (hopens : ∀ path, opens path = true)
    (hzero : ∀ a, 4096 * next ≤ a → a < 4096 * total → base a = 0)
    (hread : ∀ i, k ≤ i → i < k + tree.length →
      SlotRead image.bytes dir i (slotAt h image dir i)) :
    extractAll h image opens (bsfsExtractDir h image opens fuel) path
      ((List.range' k tree.length).map (slotAt h image dir)) = .ok (treeEvents tree path n) := by
  have hinodes := hw.inodes_le
  induction tree generalizing dir own k next n path fuel with
  | nil => rfl
  | file name data rest ih =>
    obtain ⟨hslot, hinode, hfile, hrest⟩ := hentries
    obtain ⟨hmax, hstorable⟩ := hstorable
    obtain ⟨hname, hnames⟩ := hnames
    simp only [HostTree.length, HostTree.blocks, HostTree.count, HostTree.depth] at *
    have hblock := fileBlock_add (next + slotBlocks k) (fileBlocks data.length)
    have htail : extractAll h image opens (bsfsExtractDir h image opens fuel) path _ = _ :=
      ih hrest hstorable hnames hdepth (by omega) (by omega) (by omega) (by omega) hown
        (fun a hlo hhi => hzero a (by omega) hhi) (fun i hi hlen => hread i (by omega) (by omega))
    obtain ⟨hindex, hstring⟩ := (hread k le_rfl (by omega)).dirent hslot.dirent (by omega)
    have hsize := hw.size
    have hsmall := hw.small
    have hcopy := OnImage.bsfsWriteInodeToFile
      ⟨hw.blockSize, hinode, hfile, hmax, by omega, by omega, by omega⟩
    rw [List.range'_succ, List.map_cons]
    exact extractAll_cons_ok (extractSlot_file hstring hindex hn (ordinary_snprintf_name hname)
      (hw.inode n (by omega)) hinode.type (hopens _) hcopy) htail
  | dir name children rest ihchildren ihrest =>
    obtain ⟨hslot, hdir, hchildren, hrest⟩ := hentries
    obtain ⟨hlength, hstorableChildren, hstorable⟩ := hstorable
    obtain ⟨hname, hnamesChildren, hnames⟩ := hnames
    simp only [HostTree.length, HostTree.blocks, HostTree.count, HostTree.depth] at *
    obtain ⟨fuel', rfl⟩ : ∃ fuel', fuel = fuel' + 1 := ⟨fuel - 1, by omega⟩
    have htail : extractAll h image opens (bsfsExtractDir h image opens (fuel' + 1)) path _ = _ :=
      ihrest hrest hstorable hnames (by omega) (by omega) (by omega) (by omega) (by omega) hown
        (fun a hlo hhi => hzero a (by omega) hhi) (fun i hi hlen => hread i (by omega) (by omega))
    have hslots (i : Nat) (hlen : i < 2 + children.length) :
        SlotRead image.bytes (table n) i (slotAt h image (table n) i) := by
      have hpointer := hdir.pointer (i / 32) (by omega)
      have hsize := hw.size
      have hsmall := hw.small
      exact slotRead_slotAt hw.blockSize (by omega) (by omega)
    have hinner : extractAll h image opens (bsfsExtractDir h image opens fuel')
        (subpath path (name.snprintf bsfsMaxDirentname)) _ = _ :=
      ihchildren hchildren hstorableChildren hnamesChildren (by omega) (by omega) (by omega)
        (by omega) (by omega) (by omega) (fun a hlo hhi => hzero a (by omega) hhi)
        (fun i _ hlen => hslots i hlen)
    have hwalk := hdir.extract hw (by omega) (by omega) hlength (by omega) hown
      (fun a hlo hhi => hzero a (by omega) (by omega)) hinner
    obtain ⟨hindex, hstring⟩ := (hread k le_rfl (by omega)).dirent hslot.dirent (by omega)
    rw [List.range'_succ, List.map_cons]
    exact extractAll_cons_ok (extractSlot_dir hstring hindex hn (ordinary_snprintf_name hname)
      (hw.inode n (by omega)) hdir.type hwalk) htail

end Walk

end Pristine.Bsfs
