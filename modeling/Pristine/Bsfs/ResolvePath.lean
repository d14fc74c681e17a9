import Pristine.Bsfs.Addressing
import Pristine.Bsfs.BlockCache
import Pristine.Bsfs.Image

/-!
# Path resolution

`bsfs_resolve_path` of the kernel and of stage 2, which are the same text.  It
looks up every component of the path in the slots of the current inode's direct
blocks.  It looks at neither the type of that inode nor whether a slot is in use,
and it looks up the empty name between two slashes.

`followsTree_iff` says for which paths it still follows the directory tree.  A
wrong turn may end where the tree does by accident, so the statement is about a
path together with the paths that it passes through.
-/

namespace Pristine.Bsfs

open Lib Kernel

/-! ## The program -/

/-- `strcmp` on strings of which one ends within `count` bytes. -/
def strcmp : Nat → ByteMem → ByteMem → Int
  | 0, _, _ => 1
  | count + 1, lhs, rhs =>
    if lhs 0 ≠ 0 ∧ lhs 0 = rhs 0 then strcmp count (fun k => lhs (k + 1)) (fun k => rhs (k + 1))
    else (lhs 0).toNat - (rhs 0).toNat

/-- What a successful read puts into `scratch_buf`. -/
def readSectors (disk : DiskRead) (lba count : Nat) : Option ByteMem :=
  match disk lba count with
  | (true, bytes) => some fun a => bytes.getD a 0
  | (false, _) => none

/-- `bsfs_read_inode`. -/
def bsfsReadInode (disk : DiskRead) (h : BsfsHeader) (inodeIdx : Nat) : Option BsfsInode :=
  (readSectors disk (inodeSectorLba h inodeIdx) 1).map fun scratch =>
    readInode scratch (inodeSlot h inodeIdx * sizeofBsfsInode)

/-- `dirent.inode` of slot `d`. -/
def direntInode (scratch : ByteMem) (d : Nat) : Nat := loadLE scratch (sizeofBsfsDirent * d) 4

/-- `dirent.name` of slot `d`. -/
def direntName (scratch : ByteMem) (d : Nat) : ByteMem := fun k => scratch (sizeofBsfsDirent * d + 4 + k)

/-- `name_tmp`. -/
def nameTmp (name : List UInt8) : ByteMem := fun k => name.getD k 0

/-- The loop over the slots of a block. -/
def scanDirents (h : BsfsHeader) (scratch : ByteMem) (name : List UInt8) : Option Nat :=
  ((List.range (h.blockSize / sizeofBsfsDirent)).find? fun d =>
    strcmp bsfsMaxDirentname (direntName scratch d) (nameTmp name) = 0).map (direntInode scratch)

/-- The loop over the direct blocks; there is no result if the name is not found or a read
fails. -/
def findDirent (disk : DiskRead) (h : BsfsHeader) (inode : BsfsInode) (name : List UInt8) :
    List Nat → Option Nat
  | [] => none
  | b :: bs =>
    if inode.direct b = 0 then findDirent disk h inode name bs
    else
      match readSectors disk (h.context.lba (inode.direct b)) h.context.sectorsPerBlock with
      | none => none
      | some scratch =>
        match scanDirents h scratch name with
        | some inodeIdx => some inodeIdx
        | none => findDirent disk h inode name bs

/-- The loop that copies a component to `name_tmp`: the component and the rest of the path.  There
is no result if it is too long. -/
def takeName (name : List UInt8) : List UInt8 → Option (List UInt8 × List UInt8)
  | [] => some (name, [])
  | ch :: path =>
    if ch = 0x2F then some (name, ch :: path)
    else if bsfsMaxDirentname - 1 ≤ name.length then none
    else takeName (name ++ [ch]) path

/-- The loop over the path, from `path[i]` on. -/
def resolveLoop (disk : DiskRead) (h : BsfsHeader) : Nat → Nat → List UInt8 → Option Nat
  | _, current, [] => some current
  | 0, _, _ :: _ => none
  | fuel + 1, current, ch :: path =>
    match takeName [] (ch :: path) with
    | none => none
    | some (name, rest) =>
      match bsfsReadInode disk h current with
      | none => none
      | some inode =>
        match findDirent disk h inode name (List.range bsfsMaxDirectblocks) with
        | none => none
        | some inodeIdx => resolveLoop disk h fuel inodeIdx (rest.drop 1)

/-- `bsfs_resolve_path`, for the characters of `path` before its terminator. -/
def bsfsResolvePath (disk : DiskRead) (h : BsfsHeader) (path : List UInt8) : Nat :=
  if path.isEmpty then uint32Max
  else if path.head? ≠ some 0x2F then uint32Max
  else (resolveLoop disk h path.length h.rootInode (path.drop 1)).getD uint32Max

/-! ## The directory tree -/

/-- A slot: the inode it names and its name. -/
structure Slot where
  inode : Nat
  name : List UInt8
  deriving DecidableEq, Repr

/-- Slot `d` of a block. -/
def readSlot (scratch : ByteMem) (d : Nat) : Slot where
  inode := direntInode scratch d
  name := (bytesAt (direntName scratch d) 0 bsfsMaxDirentname).takeWhile (· ≠ 0)

/-- A block of the volume, at the 32-bit address that all readers compute. -/
def blockOf (h : BsfsHeader) (img : ByteMem) (block : Nat) : ByteMem := fun a =>
  img (h.context.lba block * 512 + a)

/-- Inode `inodeIdx` of the volume, at the address that `bsfs_read_inode` computes. -/
def inodeOf (h : BsfsHeader) (img : ByteMem) (inodeIdx : Nat) : BsfsInode :=
  readInode (fun a => img (inodeSectorLba h inodeIdx * 512 + a)) (inodeSlot h inodeIdx * sizeofBsfsInode)

/-- The slots in the direct blocks of an inode, in their order. -/
def slotsOf (h : BsfsHeader) (img : ByteMem) (inode : BsfsInode) : List Slot :=
  (((List.range bsfsMaxDirectblocks).map inode.direct).filter (· ≠ 0)).flatMap fun block =>
    (List.range 32).map (readSlot (blockOf h img block))

/-- The directory that the inode `current` is has an entry in use with this name. -/
def treeLookup (h : BsfsHeader) (img : ByteMem) (current : Nat) (name : List UInt8) : Option Nat :=
  if (inodeOf h img current).type = bsfsInodeTypeDirectory then
    ((slotsOf h img (inodeOf h img current)).find? fun s => s.inode ≠ 0 ∧ s.name = name).map Slot.inode
  else none

/-- The chain of lookups for the components of a path. -/
def treeWalk (h : BsfsHeader) (img : ByteMem) : Nat → List (List UInt8) → Option Nat
  | current, [] => some current
  | current, name :: names =>
    if bsfsMaxDirentname - 1 < name.length then none
    else
      match treeLookup h img current name with
      | none => none
      | some inodeIdx => treeWalk h img inodeIdx names

/-- The parts of a path between its slashes; nothing follows a slash at the end. -/
def components : List UInt8 → List (List UInt8)
  | [] => []
  | ch :: path =>
    if ch = 0x2F then [] :: components path
    else
      match components path with
      | [] => [[ch]]
      | name :: names => (ch :: name) :: names

/-- The components of a path, where repeated slashes are one slash. -/
def names (path : List UInt8) : List (List UInt8) := (components path).filter (· ≠ [])

/-- Resolving the path `/path` gives what the directory tree says. -/
structure FollowsTree (h : BsfsHeader) (img : ByteMem) (path : List UInt8) : Prop where
  found : bsfsResolvePath (imageDisk img) h (0x2F :: path) ≠ uint32Max ↔
    ∃ inodeIdx, treeWalk h img h.rootInode (names path) = some inodeIdx
  index : ∀ inodeIdx, treeWalk h img h.rootInode (names path) = some inodeIdx →
    bsfsResolvePath (imageDisk img) h (0x2F :: path) = inodeIdx

/-! ## What the loops compute -/

section Loops

variable {h : BsfsHeader} {img : ByteMem}

theorem bytesAt_zero_succ (mem : ByteMem) (count : Nat) :
    bytesAt mem 0 (count + 1) = mem 0 :: bytesAt (fun k => mem (k + 1)) 0 count := by
  simp [bytesAt, List.range_succ_eq_map, Function.comp_def]

/-- Names compare equal if the string in the slot is the component. -/
theorem strcmp_eq_zero_iff {name : List UInt8} (hnul : 0 ∉ name) {count : Nat}
    (hlength : name.length < count) (lhs : ByteMem) :
    strcmp count lhs (nameTmp name) = 0 ↔ (bytesAt lhs 0 count).takeWhile (· ≠ 0) = name := by
  induction count generalizing name lhs with
  | zero => exact absurd hlength (Nat.not_lt_zero _)
  | succ count ih =>
    rw [bytesAt_zero_succ, strcmp, List.takeWhile_cons]
    cases name with
    | nil =>
      have hend : nameTmp [] 0 = 0 := rfl
      rw [hend, if_neg fun h => h.1 h.2]
      by_cases hzero : lhs 0 = 0
      · simp [hzero]
      · have hpos : (lhs 0).toNat ≠ 0 := fun h => hzero (UInt8.toNat_inj.mp h)
        simp [hzero]
        omega
    | cons c name =>
      rw [List.mem_cons, not_or] at hnul
      have hfirst : nameTmp (c :: name) 0 = c := rfl
      have hrest : (fun k => nameTmp (c :: name) (k + 1)) = nameTmp name := rfl
      rw [hfirst, hrest]
      by_cases hmatch : lhs 0 = c
      · have hne : lhs 0 ≠ 0 := fun h => hnul.1 (h.symm.trans hmatch)
        rw [if_pos ⟨hne, hmatch⟩, ih hnul.2 (Nat.lt_of_succ_lt_succ hlength),
          if_pos (decide_eq_true hne), hmatch, List.cons.injEq]
        exact ⟨fun htail => ⟨rfl, htail⟩, fun htail => htail.2⟩
      · have hdiff : ((lhs 0).toNat : Int) - c.toNat ≠ 0 := by
          intro hzero
          refine hmatch (UInt8.toNat_inj.mp ?_)
          omega
        rw [if_neg fun h => hmatch h.2]
        refine ⟨fun hzero => absurd hzero hdiff, fun htake => ?_⟩
        split at htake
        · exact absurd (List.cons.inj htake).1 hmatch
        · cases htake

/-- The slots with this name, in their order. -/
theorem scanDirents_eq (hbs : h.blockSize = 4096) {name : List UInt8} (hnul : 0 ∉ name)
    (hlength : name.length < bsfsMaxDirentname) (scratch : ByteMem) :
    scanDirents h scratch name =
      (((List.range 32).map (readSlot scratch)).find? fun s => s.name = name).map Slot.inode := by
  have hcount : h.blockSize / sizeofBsfsDirent = 32 := by
    rw [hbs]
    rfl
  have hname : ∀ d, decide (strcmp bsfsMaxDirentname (direntName scratch d) (nameTmp name) = 0) =
      decide ((readSlot scratch d).name = name) := by
    intro d
    rw [decide_eq_decide]
    exact strcmp_eq_zero_iff hnul hlength (direntName scratch d)
  unfold scanDirents
  rw [hcount, List.find?_map, Option.map_map]
  simp only [hname]
  rfl

theorem readSlot_congr {scratch scratch' : ByteMem} (hsame : ∀ a, a < 4096 → scratch a = scratch' a)
    {d : Nat} (hd : d < 32) : readSlot scratch d = readSlot scratch' d := by
  have hinode : direntInode scratch d = direntInode scratch' d := by
    refine loadLE_congr fun a _ hhi => hsame a ?_
    unfold sizeofBsfsDirent at hhi
    omega
  have hbytes : bytesAt (direntName scratch d) 0 bsfsMaxDirentname =
      bytesAt (direntName scratch' d) 0 bsfsMaxDirentname := by
    refine List.map_congr_left fun k hk => hsame _ ?_
    have hk : k < 124 := List.mem_range.mp hk
    unfold sizeofBsfsDirent
    omega
  unfold readSlot
  rw [hinode, hbytes]

theorem readSectors_image (img : ByteMem) (lba count : Nat) :
    ∃ scratch, readSectors (imageDisk img) lba count = some scratch ∧
      ∀ a, a < count * 512 → scratch a = img (lba * 512 + a) := by
  refine ⟨_, rfl, fun a ha => ?_⟩
  simp [bytesAt, List.getD_eq_getElem?_getD, ha]

theorem readInode_congr {mem mem' : ByteMem} {addr : Nat}
    (hsame : ∀ a, addr ≤ a → a < addr + 107 → mem a = mem' a) :
    readInode mem addr = readInode mem' addr := by
  have hload : ∀ offset width, offset + width ≤ 107 →
      loadLE mem (addr + offset) width = loadLE mem' (addr + offset) width := by
    intro offset width hle
    exact loadLE_congr fun a hlo hhi => hsame a (by omega) (by omega)
  have hdirect : (fun k : Fin bsfsMaxDirectblocks => loadLE mem (addr + 51 + 4 * k.val) 4) =
      fun k => loadLE mem' (addr + 51 + 4 * k.val) 4 := by
    funext k
    have hk : k.val < 10 := k.isLt
    rw [Nat.add_assoc]
    exact hload (51 + 4 * k.val) 4 (by omega)
  have htype := hload 0 1 (by omega)
  rw [Nat.add_zero] at htype
  unfold readInode
  rw [htype, hdirect, hload 1 2 (by omega), hload 3 4 (by omega), hload 7 4 (by omega),
    hload 11 8 (by omega), hload 19 4 (by omega), hload 23 8 (by omega), hload 31 8 (by omega),
    hload 39 8 (by omega), hload 47 4 (by omega), hload 91 4 (by omega), hload 95 4 (by omega),
    hload 99 4 (by omega), hload 103 4 (by omega)]

theorem bsfsReadInode_image (inodeIdx : Nat) :
    bsfsReadInode (imageDisk img) h inodeIdx = some (inodeOf h img inodeIdx) := by
  obtain ⟨scratch, hread, hscratch⟩ := readSectors_image img (inodeSectorLba h inodeIdx) 1
  have hslot : inodeSlot h inodeIdx < 4 := by
    unfold inodeSlot ataPioSectorSize sizeofBsfsInode
    omega
  unfold bsfsReadInode inodeOf
  rw [hread, Option.map_some]
  refine congrArg some (readInode_congr fun a _ hhi => hscratch a ?_)
  unfold sizeofBsfsInode at hhi
  omega

/-- The first slot with this name, whatever it is. -/
def firstSlot (h : BsfsHeader) (img : ByteMem) (current : Nat) (name : List UInt8) : Option Nat :=
  ((slotsOf h img (inodeOf h img current)).find? fun s => s.name = name).map Slot.inode

theorem findDirent_image (hbs : h.blockSize = 4096) {name : List UInt8} (hnul : 0 ∉ name)
    (hlength : name.length < bsfsMaxDirentname) (inode : BsfsInode) (bs : List Nat) :
    findDirent (imageDisk img) h inode name bs =
      ((((bs.map inode.direct).filter (· ≠ 0)).flatMap fun block =>
        (List.range 32).map (readSlot (blockOf h img block))).find? fun s => s.name = name).map
          Slot.inode := by
  induction bs with
  | nil => rfl
  | cons b bs ih =>
    rw [findDirent, List.map_cons]
    by_cases hzero : inode.direct b = 0
    · rw [if_pos hzero, ih, List.filter_cons_of_neg (by simpa using hzero)]
    · have hsectors : h.context.sectorsPerBlock = 8 := by
        show h.blockSize / 512 = 8
        rw [hbs]
      obtain ⟨scratch, hread, hscratch⟩ :=
        readSectors_image img (h.context.lba (inode.direct b)) 8
      have hslots : (List.range 32).map (readSlot scratch) =
          (List.range 32).map (readSlot (blockOf h img (inode.direct b))) :=
        List.map_congr_left fun d hd => readSlot_congr hscratch (List.mem_range.mp hd)
      rw [if_neg hzero, hsectors, hread, List.filter_cons_of_pos (by simpa using hzero),
        List.flatMap_cons, List.find?_append]
      dsimp only
      rw [scanDirents_eq hbs hnul hlength, hslots, ih]
      cases ((List.range 32).map (readSlot (blockOf h img (inode.direct b)))).find?
        fun s => s.name = name <;> rfl

def notSlash (ch : UInt8) : Bool := ch ≠ 0x2F

/-- The loop that copies a component. -/
theorem takeName_eq (name path : List UInt8) (hname : name.length < bsfsMaxDirentname) :
    takeName name path =
      if name.length + (path.takeWhile notSlash).length < bsfsMaxDirentname then
        some (name ++ path.takeWhile notSlash, path.dropWhile notSlash)
      else none := by
  induction path generalizing name with
  | nil => simp [takeName, hname]
  | cons ch path ih =>
    rw [takeName]
    by_cases hslash : ch = 0x2F
    · simp [hslash, hname, notSlash]
    · have hch : notSlash ch = true := decide_eq_true hslash
      rw [if_neg hslash, List.takeWhile_cons_of_pos hch,
        List.dropWhile_cons_of_pos hch, List.length_cons]
      split
      · rw [if_neg (by unfold bsfsMaxDirentname at *; omega)]
      · rw [ih (name ++ [ch]) (by rw [List.length_append, List.length_singleton]; omega),
          List.length_append, List.length_singleton, List.append_assoc, List.singleton_append,
          Nat.add_assoc, Nat.add_comm 1]

/-- The components of a path, cut at its first slash. -/
theorem components_eq {path : List UInt8} (hne : path ≠ []) :
    components path = path.takeWhile notSlash ::
      components ((path.dropWhile notSlash).drop 1) := by
  induction path with
  | nil => exact absurd rfl hne
  | cons ch path ih =>
    rw [components]
    by_cases hslash : ch = 0x2F
    · simp [hslash, notSlash]
    · have hch : notSlash ch = true := decide_eq_true hslash
      rw [if_neg hslash, List.takeWhile_cons_of_pos hch,
        List.dropWhile_cons_of_pos hch]
      cases path with
      | nil => rfl
      | cons d path => rw [ih (by simp)]

/-- The walk of the program over the components. -/
def slotWalk (h : BsfsHeader) (img : ByteMem) : Nat → List (List UInt8) → Option Nat
  | current, [] => some current
  | current, name :: parts =>
    if bsfsMaxDirentname - 1 < name.length then none
    else
      match firstSlot h img current name with
      | none => none
      | some inodeIdx => slotWalk h img inodeIdx parts

theorem resolveLoop_image (hbs : h.blockSize = 4096) {path : List UInt8} (hnul : 0 ∉ path) {fuel : Nat}
    (hfuel : path.length ≤ fuel) (current : Nat) :
    resolveLoop (imageDisk img) h fuel current path = slotWalk h img current (components path) := by
  induction fuel generalizing path current with
  | zero =>
    have hnil : path = [] := List.length_eq_zero_iff.mp (Nat.le_zero.mp hfuel)
    rw [hnil]
    rfl
  | succ fuel ih =>
    cases path with
    | nil => rfl
    | cons ch path =>
      have hname : 0 ∉ (ch :: path).takeWhile notSlash := fun hmem =>
        hnul (List.takeWhile_subset _ hmem)
      have hrest : 0 ∉ ((ch :: path).dropWhile notSlash).drop 1 := fun hmem =>
        hnul ((List.dropWhile_sublist notSlash).subset (List.mem_of_mem_drop hmem))
      have hshorter : (((ch :: path).dropWhile notSlash).drop 1).length ≤ fuel := by
        have hle := (List.dropWhile_sublist notSlash (l := ch :: path)).length_le
        rw [List.length_drop]
        rw [List.length_cons] at hle hfuel
        omega
      rw [components_eq (by simp), resolveLoop, takeName_eq [] _ (by decide), slotWalk,
        List.length_nil, Nat.zero_add, List.nil_append]
      by_cases hlong : bsfsMaxDirentname - 1 < ((ch :: path).takeWhile notSlash).length
      · rw [if_pos hlong, if_neg (by unfold bsfsMaxDirentname at *; omega)]
      · have hshort : ((ch :: path).takeWhile notSlash).length < bsfsMaxDirentname := by
          unfold bsfsMaxDirentname at *
          omega
        rw [if_neg hlong, if_pos hshort]
        rw [bsfsReadInode_image]
        dsimp only
        rw [findDirent_image hbs hname hshort]
        unfold firstSlot slotsOf
        cases (((((List.range bsfsMaxDirectblocks).map (inodeOf h img current).direct).filter
          (· ≠ 0)).flatMap fun block => (List.range 32).map (readSlot (blockOf h img block))).find?
            fun s => s.name = (ch :: path).takeWhile notSlash).map Slot.inode with
        | none => rfl
        | some inodeIdx => exact ih hrest hshorter inodeIdx

theorem bsfsResolvePath_image (hbs : h.blockSize = 4096) {path : List UInt8} (hnul : 0 ∉ path) :
    bsfsResolvePath (imageDisk img) h (0x2F :: path) =
      (slotWalk h img h.rootInode (components path)).getD uint32Max := by
  unfold bsfsResolvePath
  rw [if_neg (by simp), if_neg (by simp), List.drop_one, List.tail_cons,
    resolveLoop_image hbs hnul (by rw [List.length_cons]; omega)]

end Loops

/-! ## Where the two walks part -/

section Walks

variable {h : BsfsHeader} {img : ByteMem} {current : Nat} {name : List UInt8}

theorem find?_and {α : Type} {p q : α → Bool} {l : List α} {a : α} (hfind : l.find? q = some a)
    (ha : p a = true) : l.find? (fun x => p x && q x) = some a := by
  obtain ⟨hq, before, after, rfl, hbefore⟩ := List.find?_eq_some_iff_append.mp hfind
  refine List.find?_eq_some_iff_append.mpr ⟨by simp [ha, hq], before, after, rfl, fun x hx => ?_⟩
  simp_all

theorem treeLookup_none (hnone : firstSlot h img current name = none) :
    treeLookup h img current name = none := by
  unfold firstSlot at hnone
  rw [Option.map_eq_none_iff, List.find?_eq_none] at hnone
  unfold treeLookup
  split
  · rw [Option.map_eq_none_iff, List.find?_eq_none]
    intro s hs
    simp_all
  · rfl

theorem treeLookup_inUse (hdir : (inodeOf h img current).type = bsfsInodeTypeDirectory) {k : Nat}
    (hslot : firstSlot h img current name = some k) (hk : k ≠ 0) :
    treeLookup h img current name = some k := by
  obtain ⟨s, hfind, rfl⟩ := Option.map_eq_some_iff.mp hslot
  have hand := find?_and (p := fun s : Slot => decide (s.inode ≠ 0)) hfind (decide_eq_true hk)
  unfold treeLookup
  rw [if_pos hdir]
  simp only [Bool.decide_and]
  rw [hand]
  rfl

theorem treeLookup_ne_zero {k : Nat} (hlookup : treeLookup h img current name = some k) : k ≠ 0 := by
  unfold treeLookup at hlookup
  split at hlookup
  · obtain ⟨s, hfind, rfl⟩ := Option.map_eq_some_iff.mp hlookup
    have hs := List.find?_some hfind
    simp at hs
    exact hs.1
  · cases hlookup

/-- The answers to the same components are the same. -/
structure Agree (h : BsfsHeader) (img : ByteMem) (current : Nat) (parts : List (List UInt8)) :
    Prop where
  found : (slotWalk h img current parts).getD uint32Max ≠ uint32Max ↔
    ∃ inodeIdx, treeWalk h img current (parts.filter (· ≠ [])) = some inodeIdx
  index : ∀ inodeIdx, treeWalk h img current (parts.filter (· ≠ [])) = some inodeIdx →
    (slotWalk h img current parts).getD uint32Max = inodeIdx

/-- What is left of the path leads from `UINT32_MAX` nowhere else: the tree has no answer any more,
and the program gives none. -/
def DeadEnd (h : BsfsHeader) (img : ByteMem) : List (List UInt8) → Prop
  | [] => True
  | name :: parts =>
    bsfsMaxDirentname - 1 < name.length ∨ firstSlot h img uint32Max name = none ∨
      firstSlot h img uint32Max name = some uint32Max ∧ DeadEnd h img parts

/-- The first slot with the name of a component, if there is one, is in use and the current inode
is a directory, as far as the path can be followed; an empty component finds the current inode. -/
def NoDetour (h : BsfsHeader) (img : ByteMem) : Nat → List (List UInt8) → Prop
  | _, [] => True
  | current, name :: parts =>
    if name = [] then firstSlot h img current [] = some current ∧ NoDetour h img current parts
    else
      bsfsMaxDirentname - 1 < name.length ∨
        match firstSlot h img current name with
        | none => True
        | some k =>
          if (inodeOf h img current).type = bsfsInodeTypeDirectory then
            k ≠ 0 ∧ k ≠ uint32Max ∧ NoDetour h img k parts
          else
            k = uint32Max ∧ DeadEnd h img parts

section Steps

variable {parts : List (List UInt8)}

theorem slotWalk_of_some (hshort : ¬ bsfsMaxDirentname - 1 < name.length) {k : Nat}
    (hslot : firstSlot h img current name = some k) :
    slotWalk h img current (name :: parts) = slotWalk h img k parts := by
  rw [slotWalk, if_neg hshort, hslot]

theorem slotWalk_of_none (hnone : firstSlot h img current name = none) :
    slotWalk h img current (name :: parts) = none := by
  rw [slotWalk, hnone]
  split <;> rfl

theorem treeWalk_of_some (hne : name ≠ []) (hshort : ¬ bsfsMaxDirentname - 1 < name.length) {k : Nat}
    (hlookup : treeLookup h img current name = some k) :
    treeWalk h img current ((name :: parts).filter (· ≠ [])) =
      treeWalk h img k (parts.filter (· ≠ [])) := by
  rw [List.filter_cons_of_pos (by simpa using hne), treeWalk, if_neg hshort, hlookup]

theorem treeWalk_of_none (hne : name ≠ []) (hnone : treeLookup h img current name = none) :
    treeWalk h img current ((name :: parts).filter (· ≠ [])) = none := by
  rw [List.filter_cons_of_pos (by simpa using hne), treeWalk, hnone]
  split <;> rfl

theorem treeWalk_nil_cons : treeWalk h img current (([] :: parts).filter (· ≠ [])) =
    treeWalk h img current (parts.filter (· ≠ [])) := by
  rw [List.filter_cons_of_neg (by simp)]

theorem agree_of_none (htree : treeWalk h img current (parts.filter (· ≠ [])) = none)
    (hslots : (slotWalk h img current parts).getD uint32Max = uint32Max) :
    Agree h img current parts := by
  refine ⟨⟨fun hne => absurd hslots hne, ?_⟩, ?_⟩
  · rintro ⟨inodeIdx, hsome⟩
    rw [htree] at hsome
    cases hsome
  · intro inodeIdx hsome
    rw [htree] at hsome
    cases hsome

/-- Two walks that go on in the same way agree if the rest does. -/
theorem agree_congr {current' : Nat} {parts' : List (List UInt8)}
    (htree : treeWalk h img current (parts.filter (· ≠ [])) =
      treeWalk h img current' (parts'.filter (· ≠ [])))
    (hslots : slotWalk h img current parts = slotWalk h img current' parts') :
    Agree h img current parts ↔ Agree h img current' parts' := by
  constructor
  · intro hagree
    exact ⟨htree ▸ hslots ▸ hagree.found, htree ▸ hslots ▸ hagree.index⟩
  · intro hagree
    exact ⟨htree.symm ▸ hslots.symm ▸ hagree.found, htree.symm ▸ hslots.symm ▸ hagree.index⟩

theorem agree_too_long (hlong : bsfsMaxDirentname - 1 < name.length) :
    Agree h img current (name :: parts) := by
  have hne : name ≠ [] := by
    rintro rfl
    exact absurd hlong (Nat.not_lt_zero _)
  refine agree_of_none ?_ ?_
  · rw [List.filter_cons_of_pos (by simpa using hne), treeWalk, if_pos hlong]
  · rw [slotWalk, if_pos hlong]
    rfl

/-- Nothing is found in the tree, and the program never comes back from `UINT32_MAX`. -/
theorem deadEnd_iff : (∀ n, (slotWalk h img uint32Max (parts.take n)).getD uint32Max = uint32Max) ↔
    DeadEnd h img parts := by
  induction parts with
  | nil => exact ⟨fun _ => trivial, fun _ n => by rw [List.take_nil]; rfl⟩
  | cons name parts ih =>
    rw [DeadEnd]
    by_cases hlong : bsfsMaxDirentname - 1 < name.length
    · refine ⟨fun _ => Or.inl hlong, fun _ n => ?_⟩
      cases n with
      | zero => rfl
      | succ n =>
        rw [List.take_succ_cons, slotWalk, if_pos hlong]
        rfl
    · cases hslot : firstSlot h img uint32Max name with
      | none =>
        refine ⟨fun _ => Or.inr (Or.inl rfl), fun _ n => ?_⟩
        cases n with
        | zero => rfl
        | succ n =>
          rw [List.take_succ_cons, slotWalk_of_none hslot]
          rfl
      | some k =>
        constructor
        · intro hall
          have hfirst := hall 1
          rw [List.take_succ_cons, List.take_zero, slotWalk_of_some hlong hslot] at hfirst
          have hk : k = uint32Max := hfirst
          subst hk
          refine Or.inr (Or.inr ⟨rfl, ih.mp fun n => ?_⟩)
          have hnext := hall (n + 1)
          rwa [List.take_succ_cons, slotWalk_of_some hlong hslot] at hnext
        · rintro (hlong' | hnone | ⟨hk, hdead⟩) n
          · exact absurd hlong' hlong
          · cases hnone
          · cases hk
            cases n with
            | zero => rfl
            | succ n =>
              rw [List.take_succ_cons, slotWalk_of_some hlong hslot]
              exact ih.mpr hdead n

theorem agree_here (hcurrent : current ≠ uint32Max) : Agree h img current [] := by
  have hslots : (slotWalk h img current []).getD uint32Max = current := rfl
  have htree : treeWalk h img current (([] : List (List UInt8)).filter (· ≠ [])) = some current := rfl
  refine ⟨⟨fun _ => ⟨current, htree⟩, fun _ => ?_⟩, fun inodeIdx hsome => ?_⟩
  · rw [hslots]
    exact hcurrent
  · rw [htree] at hsome
    rw [hslots]
    exact Option.some.inj hsome

/-- A component that the walk of the program looks up, in a directory. -/
theorem agree_directory_iff (hne : name ≠ []) (hshort : ¬ bsfsMaxDirentname - 1 < name.length)
    (hdir : (inodeOf h img current).type = bsfsInodeTypeDirectory) {k : Nat}
    (hslot : firstSlot h img current name = some k) :
    (∀ n, Agree h img current (name :: parts.take n)) ↔
      k ≠ 0 ∧ k ≠ uint32Max ∧ ∀ n, Agree h img k (parts.take n) := by
  have hstep : ∀ n, k ≠ 0 →
      (Agree h img current (name :: parts.take n) ↔ Agree h img k (parts.take n)) := fun n hk =>
    agree_congr (treeWalk_of_some hne hshort (treeLookup_inUse hdir hslot hk))
      (slotWalk_of_some hshort hslot)
  constructor
  · intro hall
    have hfirst := hall 0
    rw [List.take_zero] at hfirst
    have hwalk : (slotWalk h img current [name]).getD uint32Max = k := by
      rw [slotWalk_of_some hshort hslot]
      rfl
    have hk : k ≠ 0 := by
      rintro rfl
      -- a free slot is an answer of the program, and never one of the tree
      obtain ⟨inodeIdx, hsome⟩ := hfirst.found.mp (by rw [hwalk]; decide)
      have hindex := hfirst.index inodeIdx hsome
      rw [hwalk] at hindex
      cases hlookup : treeLookup h img current name with
      | none =>
        rw [treeWalk_of_none hne hlookup] at hsome
        cases hsome
      | some j =>
        rw [treeWalk_of_some hne hshort hlookup] at hsome
        have hj : j = inodeIdx := Option.some.inj hsome
        exact treeLookup_ne_zero hlookup (hj.trans hindex.symm)
    have hmax : k ≠ uint32Max := by
      have hfound := hfirst.found.mpr
        ⟨k, by rw [treeWalk_of_some hne hshort (treeLookup_inUse hdir hslot hk)]; rfl⟩
      rwa [hwalk] at hfound
    exact ⟨hk, hmax, fun n => (hstep n hk).mp (hall n)⟩
  · rintro ⟨hk, -, hrest⟩ n
    exact (hstep n hk).mpr (hrest n)

/-- The same in an inode that is no directory. -/
theorem agree_other_iff (hne : name ≠ []) (hshort : ¬ bsfsMaxDirentname - 1 < name.length)
    (hdir : (inodeOf h img current).type ≠ bsfsInodeTypeDirectory) {k : Nat}
    (hslot : firstSlot h img current name = some k) :
    (∀ n, Agree h img current (name :: parts.take n)) ↔ k = uint32Max ∧ DeadEnd h img parts := by
  have hnone : treeLookup h img current name = none := if_neg hdir
  have hstep : ∀ n, Agree h img current (name :: parts.take n) ↔
      (slotWalk h img k (parts.take n)).getD uint32Max = uint32Max := by
    intro n
    constructor
    · intro hagree
      by_contra hfound
      rw [← slotWalk_of_some hshort hslot] at hfound
      obtain ⟨inodeIdx, hsome⟩ := hagree.found.mp hfound
      rw [treeWalk_of_none hne hnone] at hsome
      cases hsome
    · intro hslots
      refine agree_of_none (treeWalk_of_none hne hnone) ?_
      rw [slotWalk_of_some hshort hslot]
      exact hslots
  constructor
  · intro hall
    have hk : k = uint32Max := (hstep 0).mp (hall 0)
    subst hk
    exact ⟨rfl, deadEnd_iff.mp fun n => (hstep n).mp (hall n)⟩
  · rintro ⟨rfl, hdead⟩ n
    exact (hstep n).mpr (deadEnd_iff.mpr hdead n)

/-- The empty component between two slashes. -/
theorem agree_empty_iff (hcurrent : current ≠ uint32Max) :
    (∀ n, Agree h img current ([] :: parts.take n)) ↔
      firstSlot h img current [] = some current ∧ ∀ n, Agree h img current (parts.take n) := by
  have hshort : ¬ bsfsMaxDirentname - 1 < ([] : List UInt8).length := Nat.not_lt_zero _
  have hstep : firstSlot h img current [] = some current → ∀ n,
      (Agree h img current ([] :: parts.take n) ↔ Agree h img current (parts.take n)) :=
    fun hslot n => agree_congr treeWalk_nil_cons (slotWalk_of_some hshort hslot)
  constructor
  · intro hall
    have hfirst := hall 0
    rw [List.take_zero] at hfirst
    have hindex := hfirst.index current (by rw [treeWalk_nil_cons]; rfl)
    have hslot : firstSlot h img current [] = some current := by
      cases hlookup : firstSlot h img current [] with
      | none =>
        rw [slotWalk_of_none hlookup] at hindex
        exact absurd hindex.symm hcurrent
      | some k =>
        rw [slotWalk_of_some hshort hlookup] at hindex
        exact congrArg some hindex
    exact ⟨hslot, fun n => (hstep hslot n).mp (hall n)⟩
  · rintro ⟨hslot, hrest⟩ n
    exact (hstep hslot n).mpr (hrest n)

/-- The walks agree on a path and on what it passes through if there is no detour, and only
then. -/
theorem noDetour_iff (hcurrent : current ≠ uint32Max) :
    (∀ n, Agree h img current (parts.take n)) ↔ NoDetour h img current parts := by
  induction parts generalizing current with
  | nil =>
    refine ⟨fun _ => trivial, fun _ n => ?_⟩
    rw [List.take_nil]
    exact agree_here hcurrent
  | cons name parts ih =>
    have htake : (∀ n, Agree h img current ((name :: parts).take n)) ↔
        ∀ n, Agree h img current (name :: parts.take n) := by
      constructor
      · intro hall n
        have hnext := hall (n + 1)
        rwa [List.take_succ_cons] at hnext
      · intro hall n
        cases n with
        | zero => exact agree_here hcurrent
        | succ n =>
          rw [List.take_succ_cons]
          exact hall n
    rw [htake, NoDetour]
    by_cases hempty : name = []
    · subst hempty
      rw [if_pos rfl, agree_empty_iff hcurrent, ih hcurrent]
    · rw [if_neg hempty]
      by_cases hlong : bsfsMaxDirentname - 1 < name.length
      · exact ⟨fun _ => Or.inl hlong, fun _ n => agree_too_long hlong⟩
      · cases hslot : firstSlot h img current name with
        | none =>
          refine ⟨fun _ => Or.inr trivial, fun _ n => agree_of_none ?_ ?_⟩
          · exact treeWalk_of_none hempty (treeLookup_none hslot)
          · rw [slotWalk_of_none hslot]
            rfl
        | some k =>
          dsimp only
          rw [or_iff_right hlong]
          by_cases hdir : (inodeOf h img current).type = bsfsInodeTypeDirectory
          · rw [if_pos hdir, agree_directory_iff hempty hlong hdir hslot]
            refine and_congr_right fun _ => and_congr_right fun hmax => ih hmax
          · rw [if_neg hdir, agree_other_iff hempty hlong hdir hslot]

end Steps

end Walks

/-! ## Paths and the paths they pass through -/

/-- A path cut after one of its slashes, or all of it. -/
def CutOf (path cut : List UInt8) : Prop :=
  cut <+: path ∧ (cut = path ∨ cut = [] ∨ cut.getLast? = some 0x2F)

theorem components_ne_nil {path : List UInt8} (hne : path ≠ []) : components path ≠ [] := by
  rw [components_eq hne]
  simp

/-- Behind the first character of a cut there is a cut of the rest. -/
theorem CutOf.tail {ch : UInt8} {path cut : List UInt8} (hcut : CutOf (ch :: path) (ch :: cut)) :
    CutOf path cut := by
  obtain ⟨hinit, hend⟩ := hcut
  refine ⟨(List.cons_prefix_cons.mp hinit).2, ?_⟩
  rcases hend with hall | hnil | hlast
  · exact Or.inl (List.cons.inj hall).2
  · cases hnil
  · cases cut with
    | nil => exact Or.inr (Or.inl rfl)
    | cons d cut =>
      rw [List.getLast?_cons_cons] at hlast
      exact Or.inr (Or.inr hlast)

theorem components_cut {path cut : List UInt8} (hcut : CutOf path cut) :
    ∃ n, components cut = (components path).take n := by
  induction path generalizing cut with
  | nil =>
    have hnil : cut = [] := List.prefix_nil.mp hcut.1
    exact ⟨0, by rw [hnil]; rfl⟩
  | cons ch path ih =>
    cases cut with
    | nil => exact ⟨0, rfl⟩
    | cons d cut =>
      obtain ⟨rfl, -⟩ := List.cons_prefix_cons.mp hcut.1
      obtain ⟨n, hn⟩ := ih hcut.tail
      rw [components, components]
      by_cases hslash : d = 0x2F
      · rw [if_pos hslash, if_pos hslash, hn]
        exact ⟨n + 1, rfl⟩
      · rw [if_neg hslash, if_neg hslash]
        by_cases hnil : cut = []
        · -- one character that is no slash is all of the path
          subst hnil
          rcases hcut.2 with hall | hempty | hlast
          · rw [← (List.cons.inj hall).2]
            exact ⟨1, rfl⟩
          · cases hempty
          · exact absurd (Option.some.inj hlast) hslash
        · obtain ⟨name, parts, hparts⟩ := List.exists_cons_of_ne_nil (components_ne_nil hnil)
          rw [hparts] at hn ⊢
          cases n with
          | zero => cases hn
          | succ n =>
            cases hpath : components path with
            | nil =>
              rw [hpath] at hn
              cases hn
            | cons name' parts' =>
              rw [hpath, List.take_succ_cons, List.cons.injEq] at hn
              obtain ⟨rfl, rfl⟩ := hn
              exact ⟨n + 1, rfl⟩

theorem exists_cut (path : List UInt8) (n : Nat) :
    ∃ cut, CutOf path cut ∧ components cut = (components path).take n := by
  induction path generalizing n with
  | nil =>
    refine ⟨[], ⟨List.prefix_refl _, Or.inl rfl⟩, ?_⟩
    rw [components, List.take_nil]
  | cons ch path ih =>
    cases n with
    | zero => exact ⟨[], ⟨List.nil_prefix, Or.inr (Or.inl rfl)⟩, rfl⟩
    | succ n =>
      by_cases hslash : ch = 0x2F
      · obtain ⟨cut, hcut, hparts⟩ := ih n
        refine ⟨ch :: cut, ⟨List.cons_prefix_cons.mpr ⟨rfl, hcut.1⟩, ?_⟩, ?_⟩
        · rcases hcut.2 with rfl | rfl | hlast
          · exact Or.inl rfl
          · exact Or.inr (Or.inr (congrArg some hslash))
          · refine Or.inr (Or.inr ?_)
            cases cut with
            | nil => cases hlast
            | cons d cut => rwa [List.getLast?_cons_cons]
        · rw [components, components, if_pos hslash, if_pos hslash, hparts]
          rfl
      · cases hpath : components path with
        | nil =>
          have hnil : path = [] := by
            by_contra hne
            exact components_ne_nil hne hpath
          subst hnil
          refine ⟨[ch], ⟨List.prefix_refl _, Or.inl rfl⟩, ?_⟩
          rw [components, if_neg hslash, hpath, List.take_succ_cons, List.take_nil]
        | cons name parts =>
          obtain ⟨cut, hcut, hparts⟩ := ih (n + 1)
          rw [hpath, List.take_succ_cons] at hparts
          have hne : cut ≠ [] := by
            rintro rfl
            cases hparts
          refine ⟨ch :: cut, ⟨List.cons_prefix_cons.mpr ⟨rfl, hcut.1⟩, ?_⟩, ?_⟩
          · rcases hcut.2 with rfl | hnil | hlast
            · exact Or.inl rfl
            · exact absurd hnil hne
            · refine Or.inr (Or.inr ?_)
              cases cut with
              | nil => cases hlast
              | cons d cut => rwa [List.getLast?_cons_cons]
          · rw [components, components, if_neg hslash, if_neg hslash, hparts, hpath]
            rfl

section Main

variable {h : BsfsHeader} {img : ByteMem} {path : List UInt8}

theorem followsTree_eq_agree (hbs : h.blockSize = 4096) (hnul : 0 ∉ path) :
    FollowsTree h img path ↔ Agree h img h.rootInode (components path) := by
  have hcode : bsfsResolvePath (imageDisk img) h (0x2F :: path) = _ := bsfsResolvePath_image hbs hnul
  constructor
  · intro hfollows
    exact ⟨hcode ▸ hfollows.found, hcode ▸ hfollows.index⟩
  · intro hagree
    exact ⟨hcode.symm ▸ hagree.found, hcode.symm ▸ hagree.index⟩

/-- A path is resolved as the tree says if there is no detour on the way.  For the path together
with the paths that it passes through this is the exact condition. -/
theorem followsTree_iff (hbs : h.blockSize = 4096) (hnul : 0 ∉ path) :
    (h.rootInode ≠ uint32Max ∧ NoDetour h img h.rootInode (components path) →
        FollowsTree h img path) ∧
      ((∀ cut, CutOf path cut → FollowsTree h img cut) ↔
        h.rootInode ≠ uint32Max ∧ NoDetour h img h.rootInode (components path)) := by
  have hcuts : (∀ cut, CutOf path cut → FollowsTree h img cut) ↔
      ∀ n, Agree h img h.rootInode ((components path).take n) := by
    constructor
    · intro hall n
      obtain ⟨cut, hcut, hparts⟩ := exists_cut path n
      rw [← hparts]
      exact (followsTree_eq_agree hbs fun hmem => hnul (hcut.1.subset hmem)).mp (hall cut hcut)
    · intro hall cut hcut
      obtain ⟨n, hparts⟩ := components_cut hcut
      rw [followsTree_eq_agree hbs fun hmem => hnul (hcut.1.subset hmem), hparts]
      exact hall n
  have hiff : (∀ cut, CutOf path cut → FollowsTree h img cut) ↔
      h.rootInode ≠ uint32Max ∧ NoDetour h img h.rootInode (components path) := by
    rw [hcuts]
    constructor
    · intro hall
      have hroot : h.rootInode ≠ uint32Max := (hall 0).found.mpr ⟨h.rootInode, rfl⟩
      exact ⟨hroot, (noDetour_iff hroot).mp hall⟩
    · rintro ⟨hroot, hdetour⟩
      exact (noDetour_iff hroot).mpr hdetour
  exact ⟨fun hcond => hiff.mpr hcond path ⟨List.prefix_refl path, Or.inl rfl⟩, hiff⟩

end Main

/-! ### A small volume -/

/-- A volume with its inode table in block 1. -/
def bootHeader : BsfsHeader where
  magic := bsfsMagic
  version := bsfsVersion
  blockSize := 4096
  totalBlocks := 4
  inodeCount := 4
  freeBlocks := 0
  freeInodes := 1
  blockBitmapStart := 0
  blockBitmapBlocks := 0
  megablockBitmapStart := 0
  megablockBitmapBlocks := 0
  megablockBitmapSize := 0
  inodeBitmapStart := 0
  inodeBitmapBlocks := 0
  inodeTableStart := 1
  inodeTableBlocks := 1
  dataStart := 2
  rootInode := 1
  partitionLba := 0

/-- `kernel.elf`. -/
def kernelName : List UInt8 := [0x6B, 0x65, 0x72, 0x6E, 0x65, 0x6C, 0x2E, 0x65, 0x6C, 0x66]

/-- Its root directory is in block 2, with the entries `.`, `..` and `kernel.elf`. -/
def bootImage : ByteMem := fun a =>
  if a = 4224 then 2 else if a = 4275 then 2 else if a = 4352 then 1
  else if a = 8192 then 1 else if a = 8196 then 0x2E
  else if a = 8320 then 1 else if a = 8324 ∨ a = 8325 then 0x2E
  else if a = 8448 then 2 else if 8452 ≤ a ∧ a < 8462 then kernelName.getD (a - 8452) 0
  else 0

theorem bootImage_noDetour : NoDetour bootHeader bootImage 1 (components kernelName) := by
  have hparts : components kernelName = [kernelName] := by decide
  have hslot : firstSlot bootHeader bootImage 1 kernelName = some 2 := by decide +kernel
  rw [hparts, NoDetour, if_neg (by decide), hslot]
  dsimp only
  rw [if_pos (by decide +kernel)]
  exact Or.inr ⟨by decide, by decide, trivial⟩

/-- `/kernel.elf` is found. -/
theorem followsTree_iff_kernel :
    bootHeader.blockSize = 4096 ∧ 0 ∉ kernelName ∧ FollowsTree bootHeader bootImage kernelName := by
  have hnul : 0 ∉ kernelName := by decide
  exact ⟨rfl, hnul, (followsTree_iff rfl hnul).1 ⟨by decide, bootImage_noDetour⟩⟩

/-- `//kernel.elf` is not: the empty name is that of a free slot. -/
theorem repeated_slash_lost :
    treeWalk bootHeader bootImage 1 (names (0x2F :: kernelName)) = some 2 ∧
      bsfsResolvePath (imageDisk bootImage) bootHeader (0x2F :: 0x2F :: kernelName) = uint32Max ∧
      ¬ FollowsTree bootHeader bootImage (0x2F :: kernelName) := by
  have htree : treeWalk bootHeader bootImage 1 (names (0x2F :: kernelName)) = some 2 := by
    decide +kernel
  have hcode : bsfsResolvePath (imageDisk bootImage) bootHeader (0x2F :: 0x2F :: kernelName) =
      uint32Max := by decide +kernel
  exact ⟨htree, hcode, fun hfollows => hfollows.found.mpr ⟨2, htree⟩ hcode⟩

end Pristine.Bsfs
