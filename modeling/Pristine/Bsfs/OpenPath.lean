import Pristine.Bsfs.ReadBack
import Pristine.Bsfs.ResolvePath
import Pristine.Bsfs.RoundTrip

/-!
# The kernel finds what `bsfs-populate` has stored

`bsfs_fopen` with a path, on the image that `bsfs-populate` leaves: every path of
the tree leads to its inode, and a file opens and reads back as the host has it
(`populateMain_found`).  The names of a directory differ, as on every host, and fit
their slots; then the first slot with a name is the one stored under it.
-/

namespace Pristine.Bsfs

open Lib Kernel

/-! ## The program -/

def bsfsFopenNotAFile : Int := -2

def bsfsDiskReadError : Int := -3

def bsfsFopenBufTooSmall : Int := -5

def bsfsFopenBufUnaligned : Int := -6

/-- `bsfs_fopen`: the result and the file. -/
def bsfsFopenPath (disk : DiskRead) (h : BsfsHeader) (path : List UInt8) (file : BsfsFile) :
    Int × BsfsFile :=
  let inodeIdx := bsfsResolvePath disk h path
  if inodeIdx = uint32Max then (bsfsFopenNotAFile, file)
  else
    match bsfsReadInode disk h inodeIdx with
    | none => (bsfsDiskReadError, file)
    | some inode =>
      -- the inode is in the caller's record before it is looked at
      let opened := { file with inode := inode }
      if inode.type ≠ bsfsInodeTypeFile then (bsfsFopenNotAFile, opened)
      else if file.bufsize < h.blockSize then (bsfsFopenBufTooSmall, opened)
      else if file.bufsize % h.blockSize ≠ 0 then (bsfsFopenBufUnaligned, opened)
      else (0, bsfsFopen inode file.buf file.l1Table file.bufsize)

/-! ## The property -/

/-- One component of a path, that fits its slot. -/
structure PathName (name : CString) : Prop where
  nonempty : name.bytes ≠ []
  noSlash : 0x2F ∉ name.bytes
  fits : name.length ≤ 123

theorem CString.eq_of_bytes {s t : CString} (hbytes : s.bytes = t.bytes) : s = t := by
  cases s
  cases t
  simpa using hbytes

namespace HostTree

/-- The names in a directory. -/
def entryNames : HostTree → List CString
  | .nil => []
  | .file name _ rest => name :: rest.entryNames
  | .dir name _ rest => name :: rest.entryNames

/-- Every directory has different names. -/
def WellNamed : HostTree → Prop
  | .nil => True
  | .file name _ rest => PathName name ∧ name ∉ rest.entryNames ∧ rest.WellNamed
  | .dir name children rest =>
    PathName name ∧ name ∉ rest.entryNames ∧ children.WellNamed ∧ rest.WellNamed

theorem NoDots.of_mem {tree : HostTree} (h : tree.NoDots) {name : CString}
    (hname : name ∈ tree.entryNames) : ¬ (name = .dot ∨ name = .dotDot) := by
  induction tree with
  | nil => cases hname
  | file first data rest ih =>
    rcases List.mem_cons.mp hname with rfl | hrest
    · exact h.1
    · exact ih h.2 hrest
  | dir first children rest _ ih =>
    rcases List.mem_cons.mp hname with rfl | hrest
    · exact h.1
    · exact ih h.2.2 hrest

end HostTree

/-- A path leads to what the host has there: to a directory, or to a file that opens with any
buffers of one block and reads back. -/
def Found (img : ByteMem) (h : BsfsHeader) (node : CString × HostNode) : Prop :=
  match node.2 with
  | .dir =>
    bsfsResolvePath (imageDisk img) h node.1.bytes ≠ uint32Max ∧
      ∃ inode, bsfsReadInode (imageDisk img) h (bsfsResolvePath (imageDisk img) h node.1.bytes) =
        some inode ∧ inode.type = bsfsInodeTypeDirectory
  | .file data => ∀ file : BsfsFile, file.bufsize = 4096 →
      ∃ opened, bsfsFopenPath (imageDisk img) h node.1.bytes file = (0, opened) ∧
        ReadsBack img data opened

/-! ## Paths -/

section Paths

variable {h : BsfsHeader} {img : ByteMem} {parts : List (List UInt8)} {path name : CString}
variable {own i : Nat}

/-- The names between the slashes of a path are its components. -/
theorem components_flatMap (hparts : ∀ part ∈ parts, part ≠ [] ∧ 0x2F ∉ part) :
    components ((parts.flatMap (0x2F :: ·)).drop 1) = parts := by
  induction parts with
  | nil => rfl
  | cons part parts ih =>
    obtain ⟨⟨hne, hslash⟩, hrest⟩ := List.forall_mem_cons.mp hparts
    have hpart : ∀ ch ∈ part, notSlash ch = true := by
      intro ch hch
      refine decide_eq_true fun heq => hslash ?_
      rwa [heq] at hch
    -- behind the name the path ends or goes on with a slash
    have hstop : (parts.flatMap (0x2F :: ·)).takeWhile notSlash = [] ∧
        (parts.flatMap (0x2F :: ·)).dropWhile notSlash = parts.flatMap (0x2F :: ·) := by
      cases parts <;> simp [notSlash]
    have hcut : ((part :: parts).flatMap (0x2F :: ·)).drop 1 = part ++ parts.flatMap (0x2F :: ·) := by
      simp
    rw [hcut, components_eq (by simp [hne]), List.takeWhile_append_of_pos hpart,
      List.dropWhile_append_of_pos hpart, hstop.1, hstop.2, List.append_nil, ih hrest]

theorem slotWalk_append (current : Nat) (parts' : List (List UInt8)) :
    slotWalk h img current (parts ++ parts') =
      (slotWalk h img current parts).bind fun inodeIdx => slotWalk h img inodeIdx parts' := by
  induction parts generalizing current with
  | nil => rfl
  | cons part parts ih =>
    rw [List.cons_append, slotWalk, slotWalk]
    split
    · rfl
    · cases firstSlot h img current part with
      | none => rfl
      | some inodeIdx => exact ih inodeIdx

/-- The program's walk along a path ends at an inode. -/
def LeadsTo (h : BsfsHeader) (img : ByteMem) (path : CString) (own : Nat) : Prop :=
  ∃ parts : List (List UInt8), path.bytes = parts.flatMap (0x2F :: ·) ∧
    (∀ part ∈ parts, part ≠ [] ∧ 0x2F ∉ part) ∧ slotWalk h img h.rootInode parts = some own

/-- One more name. -/
theorem LeadsTo.join (hpath : LeadsTo h img path own) (hname : PathName name)
    (hslot : firstSlot h img own name.bytes = some i) : LeadsTo h img (path.join name) i := by
  obtain ⟨parts, hbytes, hparts, hwalk⟩ := hpath
  have hshort : ¬ bsfsMaxDirentname - 1 < name.bytes.length := Nat.not_lt.mpr hname.fits
  refine ⟨parts ++ [name.bytes], ?_, ?_, ?_⟩
  · simp [CString.join, hbytes]
  · exact List.forall_mem_append.mpr
      ⟨hparts, List.forall_mem_singleton.mpr ⟨hname.nonempty, hname.noSlash⟩⟩
  · rw [slotWalk_append, hwalk, Option.bind_some, slotWalk_of_some hshort hslot, slotWalk]

theorem LeadsTo.resolves (hpath : LeadsTo h img path own) (hbs : h.blockSize = 4096)
    (hne : path.bytes ≠ []) : bsfsResolvePath (imageDisk img) h path.bytes = own := by
  obtain ⟨parts, hbytes, hparts, hwalk⟩ := hpath
  have hcomponents := components_flatMap hparts
  have hnul := path.noNul
  rw [← hbytes] at hcomponents
  obtain ⟨ch, rest, hcons⟩ := List.exists_cons_of_ne_nil hne
  have hslash : ch = 0x2F := by
    cases parts with
    | nil => exact absurd hbytes hne
    | cons part parts =>
      rw [hcons, List.flatMap_cons] at hbytes
      exact (List.cons.inj hbytes).1
  rw [hcons, hslash] at hnul hcomponents ⊢
  rw [List.drop_one, List.tail_cons] at hcomponents
  rw [bsfsResolvePath_image hbs fun hmem => hnul (List.mem_cons_of_mem _ hmem), hcomponents, hwalk,
    Option.getD_some]

end Paths

/-! ## The slots of a directory -/

section Slots

variable {h : BsfsHeader} {img base : ByteMem} {dir : BsfsInode} {name : CString}
variable {own parent entries low high k i : Nat}

theorem flatMap_range (f : Nat → Nat → Slot) (blocks : Nat) :
    ((List.range blocks).flatMap fun b => (List.range 32).map (f b)) =
      (List.range (32 * blocks)).map fun k => f (k / 32) (k % 32) := by
  induction blocks with
  | zero => rfl
  | succ blocks ih =>
    rw [List.range_succ (n := blocks), List.flatMap_append, ih, Nat.mul_succ, List.range_add,
      List.map_append, List.map_map, List.flatMap_singleton]
    refine congrArg _ (List.map_congr_left fun d hd => ?_)
    have hd : d < 32 := List.mem_range.mp hd
    rw [Function.comp_apply, show (32 * blocks + d) / 32 = blocks by omega,
      show (32 * blocks + d) % 32 = d by omega]

/-- A slot as the scan of a block reads it. -/
theorem readSlot_blockOf (hbs : h.blockSize = 4096) (hsmall : dir.direct (k / 32) < 2 ^ 20) :
    readSlot (blockOf h img (dir.direct (k / 32))) (k % 32) =
      ⟨slotInode img dir k, slotName img dir k⟩ := by
  have hcontext : h.context = kernelContext := by
    unfold BsfsHeader.context
    rw [hbs]
    rfl
  have hblock (a : Nat) : blockOf h img (dir.direct (k / 32)) a =
      img (4096 * dir.direct (k / 32) + a) := by
    have hlba : kernelContext.lba (dir.direct (k / 32)) * 512 = _ := kernelContext_lba (by omega)
    unfold blockOf
    rw [hcontext, hlba]
  unfold readSlot direntInode direntName slotInode slotName slotAddr bytesAt sizeofBsfsDirent
  simp only [hblock, Nat.zero_add, Nat.add_assoc, Slot.mk.injEq, and_true]
  rw [← loadLE_offset]
  exact loadLE_congr fun a _ _ => hblock a

/-- The scan goes over the slots in the order in which entries were added. -/
theorem DirOn.slotsOf_eq (hdir : DirOn img base dir own parent entries low high)
    (hbs : h.blockSize = 4096) (hlow : 0 < low) (hhigh : high ≤ 2 ^ 20) (hentries : entries ≤ 320) :
    slotsOf h img dir = (List.range (32 * ((entries + 31) / 32))).map fun k =>
      ⟨slotInode img dir k, slotName img dir k⟩ := by
  have hused : ∀ j ∈ List.range ((entries + 31) / 32), decide (dir.direct j ≠ 0) = true := by
    intro j hj
    have hpointer := hdir.pointer j (by have := List.mem_range.mp hj; omega)
    exact decide_eq_true (by omega)
  have hblocks : ((List.range bsfsMaxDirectblocks).map dir.direct).filter (· ≠ 0) =
      (List.range ((entries + 31) / 32)).map dir.direct := by
    have hsplit : bsfsMaxDirectblocks = (entries + 31) / 32 + (10 - (entries + 31) / 32) := by
      unfold bsfsMaxDirectblocks
      omega
    rw [hsplit, List.range_add, List.map_append, List.filter_append, List.filter_eq_self.mpr,
      List.filter_eq_nil_iff.mpr, List.append_nil]
    · intro block hblock
      obtain ⟨_, hj, rfl⟩ := List.mem_map.mp hblock
      obtain ⟨j, -, rfl⟩ := List.mem_map.mp hj
      simp [hdir.none ((entries + 31) / 32 + j) (by omega)]
    · exact List.forall_mem_map.mpr hused
  unfold slotsOf
  rw [hblocks, List.flatMap_map, flatMap_range (fun b => readSlot (blockOf h img (dir.direct b)))]
  refine List.map_congr_left fun k hk => readSlot_blockOf hbs ?_
  have hpointer := hdir.pointer (k / 32) (by have := List.mem_range.mp hk; omega)
  omega

theorem DirentAt.slotName_eq (hat : DirentAt img dir k i name) (hname : name.length ≤ 123) :
    Bsfs.slotName img dir k = name.bytes := by
  have hwhole : name.snprintf bsfsMaxDirentname = name :=
    CString.snprintf_of_lt (Nat.lt_succ_of_le hname)
  rw [hat.slotName, hwhole]

/-- An entry whose name no slot before it has is found. -/
theorem DirOn.firstSlot (hdir : DirOn img base dir own parent entries low high)
    (hinode : inodeOf h img own = dir) (hbs : h.blockSize = 4096) (hlow : 0 < low)
    (hhigh : high ≤ 2 ^ 20) (hentries : entries ≤ 320) (hk : k < entries)
    (hat : DirentAt img dir k i name) (hi : i < 2 ^ 32) (hname : name.length ≤ 123)
    (hfirst : ∀ j < k, slotName img dir j ≠ name.bytes) :
    firstSlot h img own name.bytes = some i := by
  have hfind : (List.range (32 * ((entries + 31) / 32))).find?
      (fun k => decide (slotName img dir k = name.bytes)) = some k := by
    rw [List.find?_range_eq_some]
    refine ⟨decide_eq_true (hat.slotName_eq hname), List.mem_range.mpr (by omega), fun j hj => ?_⟩
    simpa using hfirst j hj
  unfold Bsfs.firstSlot
  rw [hinode, hdir.slotsOf_eq hbs hlow hhigh hentries, List.find?_map]
  change Option.map _ (Option.map _ (List.find? (fun k => decide (slotName img dir k = _)) _)) = _
  rw [hfind]
  exact congrArg some (hat.slotInode hi)

end Slots

/-! ## A stored tree -/

section Stored

variable {h : BsfsHeader} {img base : ByteMem} {table : Nat → BsfsInode} {tree : HostTree}
variable {path name : CString} {data : List UInt8} {own k next n entries inodes total offset : Nat}

/-- A volume whose inodes the kernel reads where they are. -/
structure KernelReads (h : BsfsHeader) (img : ByteMem) (table : Nat → BsfsInode)
    (inodes total : Nat) : Prop where
  blockSize : h.blockSize = 4096
  inode : ∀ i < inodes, inodeOf h img i = table i
  inodes_le : inodes < 2 ^ 20
  small : total < 2 ^ 20

theorem LeadsTo.found_dir (hpath : LeadsTo h img path n) (hr : KernelReads h img table inodes total)
    (hne : path.bytes ≠ []) (hn : n < inodes) (htype : (table n).type = bsfsInodeTypeDirectory) :
    Found img h (path, .dir) := by
  have hlt := hr.inodes_le
  unfold Found
  rw [hpath.resolves hr.blockSize hne]
  exact ⟨by unfold uint32Max; omega, _, bsfsReadInode_image n, by rw [hr.inode n hn, htype]⟩

theorem LeadsTo.found_file (hpath : LeadsTo h img path n) (hr : KernelReads h img table inodes total)
    (hne : path.bytes ≠ []) (hn : n < inodes) (htype : (table n).type = bsfsInodeTypeFile)
    (hholds : Holds img (table n) data) : Found img h (path, .file data) := by
  have hlt := hr.inodes_le
  intro file hbufsize
  refine ⟨_, ?_, hholds.readsBack file.buf file.l1Table⟩
  unfold bsfsFopenPath
  rw [hpath.resolves hr.blockSize hne, if_neg (by unfold uint32Max; omega), bsfsReadInode_image,
    hr.inode n hn]
  dsimp only
  rw [if_neg (not_not_intro htype), hr.blockSize, hbufsize, if_neg (Nat.lt_irrefl _),
    if_neg (by decide)]

/-- A directory of the volume that a path leads to. -/
structure DirReached (h : BsfsHeader) (img base : ByteMem) (table : Nat → BsfsInode)
    (inodes total : Nat) (path : CString) (own entries : Nat) : Prop where
  stored : ∃ parent low high, DirOn img base (table own) own parent entries low high ∧ 0 < low ∧
    high ≤ total
  entries_le : entries ≤ 320
  own_lt : own < inodes
  path : LeadsTo h img path own

/-- No slot before `k` has one of the names. -/
def NewNames (img : ByteMem) (dir : BsfsInode) (k : Nat) (names : List CString) : Prop :=
  ∀ name ∈ names, ∀ j < k, slotName img dir j ≠ name.bytes

/-- The entry in slot `k` is the next step of a path. -/
theorem DirReached.join (hd : DirReached h img base table inodes total path own entries)
    (hr : KernelReads h img table inodes total) (hk : k < entries) (hname : PathName name)
    (hat : DirentAt img (table own) k n name) (hn : n < inodes)
    (hnew : ∀ j < k, slotName img (table own) j ≠ name.bytes) :
    LeadsTo h img (path.join name) n := by
  have hinodes := hr.inodes_le
  have hsmall := hr.small
  obtain ⟨⟨parent, low, high, hon, hlow, hhigh⟩, hentries, hown, hpath⟩ := hd
  exact hpath.join hname (hon.firstSlot (hr.inode own hown) hr.blockSize hlow (by omega) hentries hk
    hat (by omega) hname.fits hnew)

theorem NewNames.succ {dir : BsfsInode} {names : List CString}
    (hnew : NewNames img dir k (name :: names)) (hat : DirentAt img dir k n name)
    (hname : PathName name) (hother : name ∉ names) : NewNames img dir (k + 1) names := by
  intro other hmem j hj
  by_cases hlast : j = k
  · rw [hlast, hat.slotName_eq hname.fits]
    intro hsame
    rw [CString.eq_of_bytes hsame] at hother
    exact hother hmem
  · exact hnew other (List.mem_cons_of_mem _ hmem) j (by omega)

/-- `"."` and `".."` are the names in front of the entries of a directory. -/
theorem DirOn.newNames {dir : BsfsInode} {parent low high : Nat}
    (hdir : DirOn img base dir own parent entries low high) (hdots : tree.NoDots) :
    NewNames img dir 2 tree.entryNames := by
  intro name hmem j hj hsame
  refine hdots.of_mem hmem ?_
  obtain rfl | rfl : j = 0 ∨ j = 1 := by omega
  · rw [hdir.dot.slotName] at hsame
    exact Or.inl (CString.eq_of_bytes hsame.symm)
  · rw [hdir.dotDot.slotName] at hsame
    exact Or.inr (CString.eq_of_bytes hsame.symm)

/-- Every entry from slot `k` of a directory on is found, and what lies below it. -/
theorem EntriesOn.found (hr : KernelReads h img table inodes total)
    (hentries : EntriesOn img base table tree (table own) own k next n)
    (hd : DirReached h img base table inodes total path own (k + tree.length))
    (hstorable : tree.Storable) (hdots : tree.NoDots) (hnames : tree.WellNamed)
    (hblocks : next + tree.blocks k ≤ total) (hnext : 0 < next) (hinodes : n + tree.count ≤ inodes)
    (hnew : NewNames img (table own) k tree.entryNames) :
    ∀ node ∈ tree.nodes path, Found img h node := by
  induction tree generalizing own k next n path with
  | nil => exact fun node hnode => absurd hnode List.not_mem_nil
  | file name data rest ih =>
    obtain ⟨hslot, hinode, hfile, hrest⟩ := hentries
    obtain ⟨hmax, hstorable⟩ := hstorable
    obtain ⟨hname, hother, hnames⟩ := hnames
    simp only [HostTree.length, HostTree.blocks, HostTree.count] at hd hblocks hinodes
    have hblock := fileBlock_add (next + slotBlocks k) (fileBlocks data.length)
    have hpath := hd.join hr (by omega) hname hslot.dirent (by omega)
      (hnew name List.mem_cons_self)
    have hholds := holds_stored hinode hfile hmax hr.small (by omega)
    refine List.forall_mem_cons.mpr
      ⟨hpath.found_file hr (by simp [CString.join]) (by omega) hinode.type hholds, ?_⟩
    rw [← Nat.succ_add_eq_add_succ] at hd
    exact ih hrest hd hstorable hdots.2 hnames (by omega) (by omega) (by omega)
      (hnew.succ hslot.dirent hname hother)
  | dir name children rest ihchildren ihrest =>
    obtain ⟨hslot, hdir, hchildren, hrest⟩ := hentries
    obtain ⟨hlength, hstorableChildren, hstorable⟩ := hstorable
    obtain ⟨hname, hother, hnamesChildren, hnames⟩ := hnames
    obtain ⟨-, hdotsChildren, hdots⟩ := hdots
    simp only [HostTree.length, HostTree.blocks, HostTree.count] at hd hblocks hinodes
    have hpath := hd.join hr (by omega) hname hslot.dirent (by omega)
      (hnew name List.mem_cons_self)
    have hinner : DirReached h img base table inodes total (path.join name) n (2 + children.length) :=
      ⟨⟨_, _, _, hdir, by omega, by omega⟩, by omega, by omega, hpath⟩
    refine List.forall_mem_cons.mpr
      ⟨hpath.found_dir hr (by simp [CString.join]) (by omega) hdir.type, ?_⟩
    rw [← Nat.succ_add_eq_add_succ] at hd
    exact List.forall_mem_append.mpr
      ⟨ihchildren hchildren hinner hstorableChildren hdotsChildren hnamesChildren (by omega) (by omega)
        (by omega) (hdir.newNames hdotsChildren),
      ihrest hrest hd hstorable hdots hnames (by omega) (by omega) (by omega)
        (hnew.succ hslot.dirent hname hother)⟩

end Stored

/-! ## After a run -/

section Main

variable {exits : Bool} {fs : HostFs} {fuel : Nat} {args : PopulateArgs} {heap : PopulateHeap}
variable {raw image : HostFile} {offset total : Nat} {label : List UInt8} {dirents : List HostDirent}
variable {tree : HostTree} {h : BsfsHeader} {img base : ByteMem}

/-- `""`: the paths of the kernel start with the slash behind it. -/
def CString.empty : CString := ⟨[], List.not_mem_nil⟩

theorem Populated.kernelReads (hp : Populated img base h offset total tree)
    (hv : SmallVolume h offset total) (hsmall : total < 2 ^ 20) :
    KernelReads h img (imageInode img h) (treeInodes tree) total := by
  have hinodes := hp.inodes_le
  have hcount := hv.inodeCount
  have hend := hp.blocks_le
  have hdata := hv.dataStart
  have htables := hv.inodeTableBlocks
  unfold treeEnd at hend
  refine ⟨hv.blockSize, fun i hi => ?_, by omega, hsmall⟩
  have hindex : i < h.inodeCount := by omega
  have haddr := inode_address (by rw [hv.blockSize]; unfold sizeofBsfsInode; omega) hv.blockSize
    hindex
  have hoffset (base addr : Nat) : readInode (fun a => img (base + a)) addr =
      readInode img (base + addr) := by
    simp only [readInode, loadLE_offset, Nat.add_assoc]
  unfold inodeOf imageInode
  rw [hoffset]
  change readInode img (inodeSectorLba h i * ataPioSectorSize + _) = _
  rw [haddr, hv.blockSize, Nat.mul_comm, Nat.mul_comm i]
  rfl

/-- Every path of an image that holds a tree is found. -/
theorem Populated.found (hp : Populated img base h offset total tree)
    (hv : SmallVolume h offset total) (hsmall : total < 2 ^ 20) (hroot : h.rootInode = 1)
    (hstorable : tree.Storable) (hlength : tree.length ≤ 318) (hdots : tree.NoDots)
    (hnames : tree.WellNamed) : ∀ node ∈ tree.nodes .empty, Found img h node := by
  have hend := hp.blocks_le
  have hstart := hv.blockBitmapStart
  have hpath : LeadsTo h img .empty 1 := ⟨[], rfl, by simp, by rw [hroot]; rfl⟩
  have hpos : 0 < h.dataStart := by
    obtain ⟨-, -, -, -, -, hmega, -, -, hinode, -, htable, -, hdata⟩ := hv
    omega
  exact hp.entries.found (hp.kernelReads hv hsmall)
    ⟨⟨_, _, _, hp.root, hpos, hend⟩, by omega, by unfold treeInodes; omega, hpath⟩ hstorable hdots
    hnames (by unfold treeEnd at hend; omega) (by omega) (by unfold treeInodes; omega)
    (hp.root.newNames hdots)

/-- On an image of less than 4 GiB that `mkfs.bsfs` formatted, `bsfs-populate` stores every tree
that fits, and the kernel finds every path of it and reads every file back. -/
theorem populateMain_found (hmkfs : mkfsMain 4096 offset label raw = some image)
    (hsmall : raw.size < 2 ^ 32) (hbs : args.blockSize = 4096) (hoffset : args.offset = offset)
    (exits : Bool) (heap : PopulateHeap) (hopen : fs.opendir args.root = some dirents)
    (hosts : Hosts fs args.root dirents tree) (hnames : tree.WellNamed) (hdepth : tree.depth < fuel)
    (hfits : Fits tree (raw.size / 4096) 2 ((mkfsHeader 4096 offset raw.size).dataStart + 1) 2) :
    ∃ s, populateMain exits fs fuel args heap image = some (.ok () s) ∧ s.panics = [] ∧
      ∀ node ∈ tree.nodes .empty,
        Found s.image.bytes (readHeader s.image.bytes args.headerIdx) node := by
  have hlength := hfits.length
  obtain ⟨hf, s, hrun, hquiet, -, hp⟩ :=
    populateMain_stores hmkfs hsmall hbs hoffset exits heap hopen hosts hdepth hfits
  refine ⟨s, hrun, hquiet, ?_⟩
  rw [headerIdx_eq hbs hoffset hf.offset_le, hp.header]
  exact hp.counted.found (hf.formatted.volume.counted _ _ _) hf.small rfl hfits.storable (by omega)
    hosts.noDots hnames

/-- `/d` and `/d/f`. -/
theorem populateMain_found_nested : ∃ image, mkfsMain 4096 0 [] nestedRaw = some image ∧
    ∃ s, populateMain true nestedHost 2 smallArgs zeroHeap image = some (.ok () s) ∧
      s.panics = [] ∧ ∀ node ∈ nestedTree.nodes .empty,
        Found s.image.bytes (readHeader s.image.bytes smallArgs.headerIdx) node := by
  obtain ⟨image, hmkfs⟩ := exists_nestedImage
  have hnames : nestedTree.WellNamed := by
    refine ⟨⟨by decide, by decide, by decide⟩, List.not_mem_nil, ?_, trivial⟩
    exact ⟨⟨by decide, by decide, by decide⟩, List.not_mem_nil, trivial⟩
  exact ⟨image, hmkfs, populateMain_found hmkfs (by decide) rfl rfl true zeroHeap rfl hosts_nested
    hnames (by decide) fits_nested⟩

end Main

end Pristine.Bsfs
