import Pristine.Bsfs.ExtractTree
import Pristine.Bsfs.PopulatedImage

/-!
# `bsfs-extract` after `bsfs-populate`

A tree of the host that fits is stored, and extracting it creates the same files
and directories, with the same contents, as long as no path of the output needs
more than `PATH_MAX` bytes: `snprintf` cuts longer ones off without a word
(`undoesPopulate_iff`).  The host that the output goes to is taken to create every
path it is asked for.
-/

namespace Pristine.Bsfs

open Lib Kernel

/-! ## What the host holds -/

/-- What a path leads to. -/
inductive HostNode where
  | dir
  | file (data : List UInt8)
  deriving DecidableEq

namespace HostTree

/-- The paths of a tree below `path` and what they lead to, where `join` adds a name to a path. -/
def nodesWith (join : CString → CString → CString) : HostTree → CString → List (CString × HostNode)
  | .nil, _ => []
  | .file name data rest, path => (join path name, .file data) :: rest.nodesWith join path
  | .dir name children rest, path =>
    (join path name, .dir) ::
      (children.nodesWith join (join path name) ++ rest.nodesWith join path)

/-- The paths of a tree below `path` and what they lead to. -/
def nodes (tree : HostTree) (path : CString) : List (CString × HostNode) :=
  tree.nodesWith CString.join path

/-- No name has more than 123 bytes. -/
def NamesFit : HostTree → Prop
  | .nil => True
  | .file name _ rest => name.length ≤ 123 ∧ rest.NamesFit
  | .dir name children rest => name.length ≤ 123 ∧ children.NamesFit ∧ rest.NamesFit

end HostTree

/-- What an event leaves on the host. -/
def createdNode : ExtractEvent → Option (CString × HostNode)
  | .inode _ => none
  | .mkdir path => some (path, .dir)
  | .file path data => some (path, .file data)

/-- Extracting the image recreates the tree below `out`. -/
def Recreates (h : BsfsHeader) (image : HostFile) (opens : CString → Bool) (fuel : Nat) (out : CString)
    (tree : HostTree) : Prop :=
  ∃ inode events, inodeAt h image h.rootInode = some inode ∧
    bsfsExtractDir h image opens fuel out inode = .ok events ∧
    ∀ node, node ∈ events.filterMap createdNode ↔ node ∈ tree.nodes out

/-- `bsfs-populate` stores what the host shows, and extracting it recreates the tree. -/
def UndoesPopulate (exits : Bool) (fs : HostFs) (fuel : Nat) (args : PopulateArgs)
    (heap : PopulateHeap) (image : HostFile) (opens : CString → Bool) (out : CString)
    (tree : HostTree) : Prop :=
  ∃ s, populateMain exits fs fuel args heap image = some (.ok () s) ∧
    Recreates (readHeader s.image.bytes args.headerIdx) s.image opens fuel out tree

/-! ## Paths -/

section Paths

variable {tree : HostTree} {path name : CString}

/-- How the extractor adds a name to a path. -/
def extractJoin (path name : CString) : CString := subpath path (name.snprintf bsfsMaxDirentname)

theorem length_extractJoin (path name : CString) : (extractJoin path name).length < pathMax :=
  Nat.lt_of_le_of_lt (List.length_take_le _ _) (by decide)

theorem extractJoin_eq (hname : name.length ≤ 123) (hshort : (path.join name).length < pathMax) :
    extractJoin path name = path.join name := by
  have hwhole : name.snprintf bsfsMaxDirentname = name :=
    CString.snprintf_of_lt (Nat.lt_succ_of_le hname)
  unfold extractJoin subpath
  rw [hwhole, CString.snprintf_of_lt hshort]

/-- The extractor asks for short paths only. -/
theorem HostTree.length_nodesWith (tree : HostTree) {node : CString × HostNode}
    (hnode : node ∈ tree.nodesWith extractJoin path) : node.1.length < pathMax := by
  induction tree generalizing path with
  | nil => cases hnode
  | file name data rest ih =>
    rcases List.mem_cons.mp hnode with rfl | hnode
    · exact length_extractJoin path name
    · exact ih hnode
  | dir name children rest ihchildren ihrest =>
    rcases List.mem_cons.mp hnode with rfl | hnode
    · exact length_extractJoin path name
    · rcases List.mem_append.mp hnode with hnode | hnode
      · exact ihchildren hnode
      · exact ihrest hnode

/-- Short paths are not cut off. -/
theorem HostTree.nodesWith_eq (hnames : tree.NamesFit)
    (hshort : ∀ node ∈ tree.nodes path, node.1.length < pathMax) :
    tree.nodesWith extractJoin path = tree.nodes path := by
  induction tree generalizing path with
  | nil => rfl
  | file name data rest ih =>
    obtain ⟨hname, hnames⟩ := hnames
    obtain ⟨hfirst, hrest⟩ := List.forall_mem_cons.mp hshort
    have hjoin := extractJoin_eq hname hfirst
    unfold nodes nodesWith
    rw [hjoin]
    exact congrArg _ (ih hnames hrest)
  | dir name children rest ihchildren ihrest =>
    obtain ⟨hname, hnamesChildren, hnames⟩ := hnames
    obtain ⟨hfirst, hothers⟩ := List.forall_mem_cons.mp hshort
    obtain ⟨hchildren, hrest⟩ := List.forall_mem_append.mp hothers
    have hjoin := extractJoin_eq hname hfirst
    unfold nodes nodesWith
    rw [hjoin]
    refine congrArg _ ?_
    exact congrArg₂ _ (ihchildren hnamesChildren hchildren) (ihrest hnames hrest)

/-- The walk over a stored tree creates its files and directories. -/
theorem filterMap_treeEvents (tree : HostTree) (path : CString) (n : Nat) :
    (treeEvents tree path n).filterMap createdNode = tree.nodesWith extractJoin path := by
  induction tree generalizing path n with
  | nil => rfl
  | file name data rest ih => exact congrArg _ (ih path (n + 1))
  | dir name children rest ihchildren ihrest =>
    change (extractJoin path name, HostNode.dir) :: List.filterMap createdNode (_ ++ _) = _
    rw [List.filterMap_append, ihchildren, ihrest]
    rfl

end Paths

/-! ## The round trip -/

section Recreated

variable {h : BsfsHeader} {image : HostFile} {base : ByteMem} {offset total fuel i : Nat}
variable {tree : HostTree} {out : CString} {opens : CString → Bool}

/-- The inode table of a volume as `main` of the extractor reads it. -/
theorem SmallVolume.inodeAt (hv : SmallVolume h offset total) (hsmall : total < 2 ^ 20)
    (hdata : h.dataStart ≤ total) (hsize : 4096 * total ≤ image.size) (hi : i < total / 4) :
    inodeAt h image i = some (imageInode image.bytes h i) := by
  have hstart := hv.dataStart
  have hblocks := hv.inodeTableBlocks
  have hcount := hv.inodeCount
  have hplace : populateOffset h h.inodeTableStart = 4096 * h.inodeTableStart := by
    unfold populateOffset BsfsHeader.blockOffset
    rw [hv.blockSize]
    exact u32_of_lt (by omega)
  have hread : inodesRead h image = h.inodeCount := by
    unfold inodesRead sizeofBsfsInode
    rw [hplace, u32_of_lt (by omega), if_neg (by omega)]
    omega
  unfold Bsfs.inodeAt imageInode sizeofBsfsInode
  rw [hread, if_pos (by omega), hplace]

variable (hp : Populated image.bytes base h offset total tree) (hv : SmallVolume h offset total)
variable (hsmall : total < 2 ^ 20) (hsize : 4096 * total ≤ image.size)

include hp hv hsmall hsize

/-- Extracting a stored tree recreates it unless a path is too long. -/
theorem Populated.recreates_iff (hroot : h.rootInode = 1) (hstorable : tree.Storable)
    (hlength : tree.length ≤ 318) (hdots : tree.NoDots) (hnames : tree.NamesFit)
    (hdepth : tree.depth < fuel) (hopens : ∀ path, opens path = true)
    (hzero : ∀ a, 4096 * h.dataStart ≤ a → a < 4096 * total → base a = 0) :
    Recreates h image opens fuel out tree ↔ ∀ node ∈ tree.nodes out, node.1.length < pathMax := by
  have hend := hp.blocks_le
  have hinodes := hp.inodes_le
  have hstart := hv.blockBitmapStart
  have hpos : 0 < h.dataStart := by
    obtain ⟨-, -, -, -, -, hmega, -, -, hinode, -, htable, -, hdata⟩ := hv
    omega
  unfold treeEnd at hend
  unfold treeInodes at hinodes
  have hw : WalkOk h image base (imageInode image.bytes h) total (2 + tree.count) :=
    ⟨hv.blockSize, hsize, by omega, fun i hi => hv.inodeAt hsmall (by omega) hsize (by omega), by omega⟩
  obtain ⟨fuel, rfl⟩ : ∃ fuel', fuel = fuel' + 1 := ⟨fuel - 1, by omega⟩
  have hslots (i : Nat) (hi : i < 2 + tree.length) : SlotRead image.bytes (imageInode image.bytes h 1) i
      (slotAt h image (imageInode image.bytes h 1) i) := by
    have hpointer := hp.root.pointer (i / 32) (by omega)
    unfold treeEnd at hpointer
    exact slotRead_slotAt hv.blockSize (by omega) (by omega)
  have hentries : extractAll h image opens (bsfsExtractDir h image opens fuel) out _ = _ :=
    hp.entries.extract hw hstorable hdots (by omega) hend le_rfl (by omega) (by omega) (by omega) hopens
      (fun a hlo hhi => hzero a (by omega) hhi) (fun i _ hi => hslots i hi)
  have hwalk := hp.root.extract hw hpos hp.blocks_le hlength (by omega) (by omega)
    (fun a hlo hhi => hzero a hlo (by unfold treeEnd at hhi; omega)) hentries
  have hinode : inodeAt h image h.rootInode = some (imageInode image.bytes h 1) := by
    rw [hroot]
    exact hw.inode 1 (by omega)
  constructor
  · rintro ⟨inode, events, hinode', hevents, hsame⟩ node hnode
    rw [hinode] at hinode'
    cases hinode'
    rw [hwalk] at hevents
    cases hevents
    rw [filterMap_treeEvents] at hsame
    exact tree.length_nodesWith ((hsame node).mpr hnode)
  · intro hshort
    refine ⟨_, _, hinode, hwalk, fun node => ?_⟩
    rw [filterMap_treeEvents, HostTree.nodesWith_eq hnames hshort]

theorem Populated.recreates_header_iff (hstorable : tree.Storable) (hlength : tree.length ≤ 318)
    (hdots : tree.NoDots) (hnames : tree.NamesFit) (hdepth : tree.depth < fuel)
    (hopens : ∀ path, opens path = true)
    (hzero : ∀ a, 4096 * h.dataStart ≤ a → a < 4096 * total → base a = 0) :
    Recreates (readHeader image.bytes (4096 * offset)) image opens fuel out tree ↔
      ∀ node ∈ tree.nodes out, node.1.length < pathMax := by
  rw [hp.header]
  exact hp.counted.recreates_iff (hv.counted _ _ _) hsmall hsize rfl hstorable hlength hdots hnames
    hdepth hopens hzero

end Recreated

section Main

variable {exits : Bool} {fs : HostFs} {fuel : Nat} {args : PopulateArgs} {heap : PopulateHeap}
variable {raw image : HostFile} {offset : Nat} {label : List UInt8} {dirents : List HostDirent}
variable {tree : HostTree} {out : CString} {opens : CString → Bool}

section Fits

variable (hzero : ∀ a, raw.bytes a = 0)
variable (hmkfs : mkfsMain 4096 offset label raw = some image) (hsmall : raw.size < 2 ^ 32)
variable (hbs : args.blockSize = 4096) (hoffset : args.offset = offset)
variable (hopen : fs.opendir args.root = some dirents) (hosts : Hosts fs args.root dirents tree)
variable (hnames : tree.NamesFit) (hdepth : tree.depth < fuel)
variable (hfits : Fits tree (raw.size / 4096) 2 ((mkfsHeader 4096 offset raw.size).dataStart + 1) 2)
variable (hopens : ∀ path, opens path = true)

include hzero hmkfs hsmall hbs hoffset hopen hosts hnames hdepth hfits hopens

/-- A tree that fits is stored, and extracted again up to the length of the paths. -/
theorem populateMain_recreates (exits : Bool) (heap : PopulateHeap) :
    ∃ s, populateMain exits fs fuel args heap image = some (.ok () s) ∧
      ∀ out, Recreates (readHeader s.image.bytes args.headerIdx) s.image opens fuel out tree ↔
        ∀ node ∈ tree.nodes out, node.1.length < pathMax := by
  have hlength := hfits.length
  obtain ⟨hf, s, hrun, -, hsize, hp⟩ :=
    populateMain_stores hmkfs hsmall hbs hoffset exits heap hopen hosts hdepth hfits
  refine ⟨s, hrun, fun out => ?_⟩
  rw [headerIdx_eq hbs hoffset hf.offset_le]
  refine hp.recreates_header_iff hf.formatted.volume hf.small (by omega) hfits.storable (by omega)
    hosts.noDots hnames hdepth hopens fun a hlo hhi => ?_
  rw [hf.formatted.behind a hlo (by omega), hzero]

/-- On a zero-filled image of less than 4 GiB, and a host that creates what it is asked for, extracting
undoes populating for every tree that fits, if and only if every path of the output is shorter than
`PATH_MAX`. -/
theorem undoesPopulate_iff :
    UndoesPopulate exits fs fuel args heap image opens out tree ↔
      ∀ node ∈ tree.nodes out, node.1.length < pathMax := by
  obtain ⟨s, hrun, hrecreates⟩ := populateMain_recreates hzero hmkfs hsmall hbs hoffset hopen
    hosts hnames hdepth hfits hopens exits heap
  rw [← hrecreates out]
  constructor
  · rintro ⟨s', hrun', hundone⟩
    rw [hrun] at hrun'
    cases hrun'
    exact hundone
  · exact fun hundone => ⟨s, hrun, hundone⟩

end Fits

/-- A directory with a file of eleven blocks. -/
theorem undoesPopulate_nested : ∃ image, mkfsMain 4096 0 [] nestedRaw = some image ∧
    UndoesPopulate false nestedHost 2 smallArgs zeroHeap image (fun _ => true) .dot nestedTree := by
  obtain ⟨image, hmkfs⟩ := exists_nestedImage
  have hnames : nestedTree.NamesFit := ⟨by decide, ⟨by decide, trivial⟩, trivial⟩
  have hshort : ∀ node ∈ nestedTree.nodes .dot, node.1.length < pathMax :=
    List.forall_mem_cons.mpr ⟨by decide, List.forall_mem_singleton.mpr (by decide)⟩
  exact ⟨image, hmkfs, (undoesPopulate_iff (fun _ => rfl) hmkfs (by decide) rfl rfl rfl hosts_nested
    hnames (by decide) fits_nested fun _ => rfl).mpr hshort⟩

/-- An output directory whose path is as long as a path can be. -/
def longPath : CString where
  bytes := List.replicate 4095 0x61
  noNul := fun hmem => absurd (List.eq_of_mem_replicate hmem) (by decide)

/-- The only file of the tree is not created below such a directory. -/
theorem oneFile_cut_off : ∃ image, mkfsMain 4096 0 [] smallRaw = some image ∧
    ¬ UndoesPopulate false (oneFileHost [1, 2, 3]) 1 smallArgs zeroHeap image (fun _ => true) longPath
      (oneFileTree [1, 2, 3]) := by
  obtain ⟨image, hmkfs⟩ := exists_smallImage
  obtain ⟨s, hrun, hrecreates⟩ : ∃ s,
      populateMain false (oneFileHost [1, 2, 3]) 1 smallArgs zeroHeap image = some (.ok () s) ∧ _ :=
    populateMain_recreates (fun _ => rfl) hmkfs (by decide) rfl rfl rfl (hosts_oneFile _ _)
      ⟨by decide, trivial⟩ (by decide) (fits_oneFile (by decide)) (fun _ => rfl) false zeroHeap
  refine ⟨image, hmkfs, ?_⟩
  rintro ⟨s', hrun', hundone⟩
  rw [hrun] at hrun'
  cases hrun'
  have hshort := (hrecreates longPath).mp hundone _ (List.mem_cons_self ..)
  have hlong : pathMax ≤ (List.replicate 4095 (0x61 : UInt8) ++ [47, 0x66]).length := by
    rw [List.length_append, List.length_replicate]
    decide
  exact absurd hshort (Nat.not_lt.mpr hlong)

end Main

end Pristine.Bsfs
