import Mathlib.Data.List.TakeWhile
import Mathlib.Order.Interval.Set.Infinite
import Pristine.Bsfs.PopulateMain
import Pristine.Bsfs.ResolvePath
import Pristine.Bsfs.WriteInode
import Pristine.Lib.Descent

/-!
# `bsfs-extract`

`bsfs_extract_dir` walks the directories of an image, asks the host to create what
it finds, and copies the files.  It trusts the image: an entry may name any inode,
its name may hold slashes, and a directory may contain itself.  It trusts the host
too: where `fopen` fails the copy goes on with a null stream.

* `extractSafe_iff`: for which images and hosts the walk ends, stays inside the
  inode table and creates paths below the output directory only.
* `extract_unsafe`: three images that pass all checks and are not safe.

The program reads the same arguments as `bsfs-populate` and makes the same checks
of the header.  `BSFS_PANIC` is compiled to nothing.  A host answers each path in
one way throughout a run; the result of `mkdir` is not looked at.  Bytes that no
read has filled are not modelled: a program that uses one stops with `undefined`.
-/

namespace Pristine.Bsfs

open Lib Kernel Relation

/-! ## The program -/

/-- What `bsfs_extract_dir` does, in its order. -/
inductive ExtractEvent where
  /-- `inode_table[index]` -/
  | inode (index : Nat)
  | mkdir (path : CString)
  /-- `fopen(path, "wb+")`, and `data` is written to it -/
  | file (path : CString) (data : List UInt8)
  deriving DecidableEq

section Program

variable (h : BsfsHeader) (image : HostFile)

/-- The inodes that `main` has read.  Reading more than was allocated overwrites the heap. -/
def inodesRead : Nat :=
  let offset := populateOffset h h.inodeTableStart
  if u32 (h.inodeCount * sizeofBsfsInode) < min (h.inodeCount * sizeofBsfsInode) (image.size - offset)
  then 0
  else min h.inodeCount ((image.size - offset) / sizeofBsfsInode)

/-- `inode_table[index]`. -/
def inodeAt (index : Nat) : Option BsfsInode :=
  if index < inodesRead h image then
    some (readInode image.bytes (populateOffset h h.inodeTableStart + sizeofBsfsInode * index))
  else none

/-- `current_block_dirents`, of which `valid` bytes have been filled. -/
structure DirentBuffer where
  bytes : ByteMem
  valid : Nat

/-- What `malloc` returns. -/
def DirentBuffer.fresh : DirentBuffer := ⟨fun _ => 0, 0⟩

/-- `block_size / sizeof(BsfsDirent)`. -/
def slotsPerBlock : Nat := h.blockSize / sizeofBsfsDirent

/-- `fread` of a block of entries; the image may end before the block does. -/
def DirentBuffer.read (buffer : DirentBuffer) (block : Nat) : DirentBuffer :=
  let data := image.read (extractOffset h block) (sizeofBsfsDirent * slotsPerBlock h)
  ⟨storeBytes buffer.bytes 0 data, max buffer.valid data.length⟩

/-- `name` of slot `d` as a string.  It may run on into the next slot, but not out of the buffer. -/
def DirentBuffer.name (buffer : DirentBuffer) (d : Nat) : Option CString :=
  let start := sizeofBsfsDirent * d + 4
  let rest := bytesAt buffer.bytes start (buffer.valid - start)
  if 0 ∈ rest then some ⟨rest.takeWhile (· ≠ 0), fun hmem => by simpa using List.mem_takeWhile_imp hmem⟩
  else none

variable (opens : CString → Bool)

/-- `fopen(path, "wb+")` and `bsfs_write_inode_to_file`; `opens` says whether the host gives a stream. -/
def extractFile (path : CString) (inode : BsfsInode) : Except Halt ExtractEvent :=
  if opens path then (bsfsWriteInodeToFile h image inode).map (.file path)
  else .error .undefined

/-- The body of the loop over the slots of a block. -/
def extractSlot (recurse : CString → BsfsInode → Except Halt (List ExtractEvent)) (path : CString)
    (buffer : DirentBuffer) (d : Nat) : Except Halt (List ExtractEvent) :=
  match buffer.name d with
  | none => .error .undefined
  | some name =>
    let index := direntInode buffer.bytes d
    if index = bsfsInodeTypeFree then .ok []
    else if name = .dot ∨ name = .dotDot then .ok []
    else
      match inodeAt h image index with
      | none => .error .undefined
      | some subinode =>
        if subinode.type = bsfsInodeTypeFree then .ok [.inode index]
        else if subinode.type = bsfsInodeTypeFile then
          (extractFile h image opens (subpath path name) subinode).map ([.inode index, ·])
        else if subinode.type = bsfsInodeTypeDirectory then
          (recurse (subpath path name) subinode).map fun events =>
            .inode index :: .mkdir (subpath path name) :: events
        else .ok [.inode index]

/-- The loop over the slots of a block. -/
def extractSlots (recurse : CString → BsfsInode → Except Halt (List ExtractEvent)) (path : CString)
    (buffer : DirentBuffer) : List Nat → Except Halt (List ExtractEvent)
  | [] => .ok []
  | d :: ds => do
      let events ← extractSlot h image opens recurse path buffer d
      let rest ← extractSlots recurse path buffer ds
      pure (events ++ rest)

/-- The loop over the direct blocks. -/
def extractBlocks (recurse : CString → BsfsInode → Except Halt (List ExtractEvent)) (path : CString)
    (inode : BsfsInode) : DirentBuffer → List Nat → Except Halt (List ExtractEvent)
  | _, [] => .ok []
  | buffer, i :: is =>
    if inode.direct i = 0 then extractBlocks recurse path inode buffer is
    else do
      let buffer := buffer.read h image (inode.direct i)
      let events ← extractSlots h image opens recurse path buffer (List.range (slotsPerBlock h))
      let rest ← extractBlocks recurse path inode buffer is
      pure (events ++ rest)

/-- `bsfs_extract_dir`; `fuel` bounds the depth of the recursion. -/
def bsfsExtractDir : Nat → CString → BsfsInode → Except Halt (List ExtractEvent)
  | 0, _, _ => .error .outOfFuel
  | fuel + 1, path, inode =>
    extractBlocks h image opens (bsfsExtractDir fuel) path inode .fresh (List.range bsfsMaxDirectblocks)

end Program

/-! ## Paths below a directory -/

/-- How deep a path leads, from a directory at depth `depth` on; there is no answer if it leads out of
the directory at depth 0 on its way. -/
def pathDepth : Nat → List (List UInt8) → Option Nat
  | depth, [] => some depth
  | depth, part :: parts =>
    if part = [] ∨ part = CString.dot.bytes then pathDepth depth parts
    else if part = CString.dotDot.bytes then
      match depth with
      | 0 => none
      | depth + 1 => pathDepth depth parts
    else pathDepth (depth + 1) parts

/-- The host finds `path` below the directory `root`. -/
def StrictlyUnder (root path : CString) : Prop :=
  root.bytes ++ [0x2F] <+: path.bytes ∧
    ∃ depth ∈ pathDepth 0 (components (path.bytes.drop (root.length + 1))), 0 < depth

/-- The walk may index the table below `inode_count`, and create paths below `root`. -/
def ExtractAllowed (h : BsfsHeader) (root : CString) : ExtractEvent → Prop
  | .inode index => index < h.inodeCount
  | .mkdir path => StrictlyUnder root path
  | .file path _ => StrictlyUnder root path

/-- The program ends, and all that it does satisfies `P`. -/
def Yields (P : ExtractEvent → Prop) (result : Except Halt (List ExtractEvent)) : Prop :=
  ∃ events, result = .ok events ∧ ∀ e ∈ events, P e

/-- From the root inode on, the walk ends and does only what it may. -/
def ExtractSafe (h : BsfsHeader) (image : HostFile) (opens : CString → Bool) (root : CString) : Prop :=
  ∃ inode, inodeAt h image h.rootInode = some inode ∧
    ∃ fuel, Yields (ExtractAllowed h root) (bsfsExtractDir h image opens fuel root inode)

/-! ## Directories as a graph -/

section Graph

variable (h : BsfsHeader) (image : HostFile)

/-- The slots that the loops visit, each with the buffer it is read from. -/
def dirSlots (inode : BsfsInode) : DirentBuffer → List Nat → List (DirentBuffer × Nat)
  | _, [] => []
  | buffer, i :: is =>
    if inode.direct i = 0 then dirSlots inode buffer is
    else
      (List.range (slotsPerBlock h)).map (buffer.read h image (inode.direct i), ·) ++
        dirSlots inode (buffer.read h image (inode.direct i)) is

/-- The slots of a directory. -/
def extractScan (inode : BsfsInode) : List (DirentBuffer × Nat) :=
  dirSlots h image inode .fresh (List.range bsfsMaxDirectblocks)

/-- A directory has an entry for inode `index`, other than `"."` and `".."`. -/
def HasEntry (inode : BsfsInode) (index : Nat) (name : CString) : Prop :=
  ∃ s ∈ extractScan h image inode, s.1.name s.2 = some name ∧ direntInode s.1.bytes s.2 = index ∧
    index ≠ bsfsInodeTypeFree ∧ name ≠ .dot ∧ name ≠ .dotDot

/-- Inode `index` of the table is a subdirectory of `inode`. -/
def Subdirectory (inode : BsfsInode) (index : Nat) (name : CString) (subinode : BsfsInode) : Prop :=
  HasEntry h image inode index name ∧ inodeAt h image index = some subinode ∧
    subinode.type = bsfsInodeTypeDirectory

/-- Directory `i` contains directory `j`. -/
def Contains (i j : Nat) : Prop :=
  ∃ inode name subinode, inodeAt h image i = some inode ∧ Subdirectory h image inode j name subinode

/-- The walk that begins with the root inode at the path `root` comes to inode `index` at `path`. -/
inductive Visited (root : CString) : CString → Nat → Prop
  | root : Visited root root h.rootInode
  | sub {path : CString} {i j : Nat} {inode subinode : BsfsInode} {name : CString} :
      Visited root path i → inodeAt h image i = some inode →
      Subdirectory h image inode j name subinode → Visited root (subpath path name) j

/-- What `bsfs_extract_dir` takes for granted of an image and of the host. -/
structure ExtractFits (opens : CString → Bool) (root : CString) : Prop where
  rootInode : h.rootInode < inodesRead h image
  /-- every string ends inside the entries that were read -/
  names : ∀ path i inode, Visited h image root path i → inodeAt h image i = some inode →
    ∀ s ∈ extractScan h image inode, ∃ name, s.1.name s.2 = some name
  indices : ∀ path i inode, Visited h image root path i → inodeAt h image i = some inode →
    ∀ index name, HasEntry h image inode index name → index < inodesRead h image
  paths : ∀ path i inode, Visited h image root path i → inodeAt h image i = some inode →
    ∀ index name subinode, HasEntry h image inode index name →
      inodeAt h image index = some subinode →
      subinode.type = bsfsInodeTypeFile ∨ subinode.type = bsfsInodeTypeDirectory →
      StrictlyUnder root (subpath path name)
  files : ∀ path i inode, Visited h image root path i → inodeAt h image i = some inode →
    ∀ index name subinode, HasEntry h image inode index name →
      inodeAt h image index = some subinode → subinode.type = bsfsInodeTypeFile →
      opens (subpath path name) = true ∧ CopyDefined h image subinode
  acyclic : NoCycleBelow (Contains h image) h.rootInode

end Graph

/-! ## What the loops do -/

section Loops

variable {h : BsfsHeader} {image : HostFile} {opens : CString → Bool} {P : ExtractEvent → Prop}
variable {path : CString}
variable {recurse : CString → BsfsInode → Except Halt (List ExtractEvent)}

/-- The loop over slots of several blocks. -/
def extractAll (h : BsfsHeader) (image : HostFile) (opens : CString → Bool)
    (recurse : CString → BsfsInode → Except Halt (List ExtractEvent)) (path : CString) :
    List (DirentBuffer × Nat) → Except Halt (List ExtractEvent)
  | [] => .ok []
  | s :: rest => do
      let events ← extractSlot h image opens recurse path s.1 s.2
      let others ← extractAll h image opens recurse path rest
      pure (events ++ others)

theorem extractAll_append (l l' : List (DirentBuffer × Nat)) :
    extractAll h image opens recurse path (l ++ l') = (do
      let events ← extractAll h image opens recurse path l
      let others ← extractAll h image opens recurse path l'
      pure (events ++ others)) := by
  induction l with
  | nil =>
    rw [List.nil_append]
    cases extractAll h image opens recurse path l' <;> rfl
  | cons s l ih =>
    simp only [List.cons_append, extractAll, ih]
    cases extractSlot h image opens recurse path s.1 s.2 with
    | error halt => rfl
    | ok events =>
      cases extractAll h image opens recurse path l with
      | error halt => rfl
      | ok others =>
        cases extractAll h image opens recurse path l' with
        | error halt => rfl
        | ok rest => exact congrArg Except.ok (List.append_assoc events others rest).symm

theorem extractSlots_eq (buffer : DirentBuffer) (ds : List Nat) :
    extractSlots h image opens recurse path buffer ds =
      extractAll h image opens recurse path (ds.map (buffer, ·)) := by
  induction ds with
  | nil => rfl
  | cons d ds ih => simp [extractSlots, extractAll, ih]

/-- The nested loops visit the slots one after the other. -/
theorem extractBlocks_eq (inode : BsfsInode) (buffer : DirentBuffer) (is : List Nat) :
    extractBlocks h image opens recurse path inode buffer is =
      extractAll h image opens recurse path (dirSlots h image inode buffer is) := by
  induction is generalizing buffer with
  | nil => rfl
  | cons i is ih =>
    unfold extractBlocks dirSlots
    split
    · exact ih buffer
    · dsimp only
      rw [extractAll_append, extractSlots_eq, ih]

theorem yields_ok (events : List ExtractEvent) : Yields P (.ok events) ↔ ∀ e ∈ events, P e := by
  simp [Yields]

theorem not_yields_error (halt : Halt) : ¬ Yields P (.error halt) := by
  simp [Yields]

theorem yields_bind_append (x y : Except Halt (List ExtractEvent)) :
    Yields P (do let events ← x; let others ← y; pure (events ++ others)) ↔ Yields P x ∧ Yields P y := by
  cases x with
  | error halt => simp [Yields, bind, Except.bind]
  | ok events =>
    cases y with
    | error halt => simp [Yields, bind, Except.bind]
    | ok others => simp [Yields, bind, Except.bind, pure, Except.pure, or_imp, forall_and]

theorem yields_map (x : Except Halt (List ExtractEvent)) (first second : ExtractEvent) :
    Yields P (x.map fun events => first :: second :: events) ↔ P first ∧ P second ∧ Yields P x := by
  cases x with
  | error halt => simp [Yields, Except.map]
  | ok events => simp [Yields, Except.map]

theorem yields_map_pair (x : Except Halt ExtractEvent) (first : ExtractEvent) :
    Yields P (x.map ([first, ·])) ↔ P first ∧ ∃ e, x = .ok e ∧ P e := by
  cases x with
  | error halt => simp [Yields, Except.map]
  | ok e => simp [Yields, Except.map]

theorem yields_extractAll (l : List (DirentBuffer × Nat)) :
    Yields P (extractAll h image opens recurse path l) ↔
      ∀ s ∈ l, Yields P (extractSlot h image opens recurse path s.1 s.2) := by
  induction l with
  | nil => simp [extractAll, yields_ok]
  | cons s l ih => rw [extractAll, yields_bind_append, ih, List.forall_mem_cons]

/-- What a slot asks for. -/
theorem yields_extractSlot (buffer : DirentBuffer) (d : Nat) :
    Yields P (extractSlot h image opens recurse path buffer d) ↔ ∃ name, buffer.name d = some name ∧
      (direntInode buffer.bytes d ≠ bsfsInodeTypeFree → name ≠ .dot → name ≠ .dotDot →
        ∃ subinode, inodeAt h image (direntInode buffer.bytes d) = some subinode ∧
          P (.inode (direntInode buffer.bytes d)) ∧
          (subinode.type = bsfsInodeTypeFile →
            ∃ e, extractFile h image opens (subpath path name) subinode = .ok e ∧ P e) ∧
          (subinode.type = bsfsInodeTypeDirectory → P (.mkdir (subpath path name)) ∧
            Yields P (recurse (subpath path name) subinode))) := by
  unfold extractSlot
  cases hname : buffer.name d with
  | none => simp [not_yields_error]
  | some name =>
    by_cases hfree : direntInode buffer.bytes d = bsfsInodeTypeFree
    · simp [hfree, yields_ok]
    by_cases hdots : name = .dot ∨ name = .dotDot
    · simp only [if_neg hfree, if_pos hdots, yields_ok, List.not_mem_nil, false_imp_iff,
        implies_true, true_iff]
      exact ⟨name, rfl, fun _ hdot hdotDot => absurd hdots (not_or_intro hdot hdotDot)⟩
    obtain ⟨hdot, hdotDot⟩ := not_or.mp hdots
    simp only [Option.some.injEq, exists_eq_left', ne_eq, hfree, hdot, hdotDot, not_false_eq_true,
      true_imp_iff, or_self, if_false]
    cases inodeAt h image (direntInode buffer.bytes d) with
    | none => simp [not_yields_error]
    | some subinode =>
      by_cases hunused : subinode.type = bsfsInodeTypeFree
      · simp [hunused, yields_ok, bsfsInodeTypeFree, bsfsInodeTypeFile, bsfsInodeTypeDirectory]
      by_cases hfile : subinode.type = bsfsInodeTypeFile
      · dsimp only
        rw [if_neg hunused, if_pos hfile, yields_map_pair]
        simp [hfile, bsfsInodeTypeFile, bsfsInodeTypeDirectory]
      by_cases hdir : subinode.type = bsfsInodeTypeDirectory
      · dsimp only
        rw [if_neg hunused, if_neg hfile, if_pos hdir, yields_map]
        simp [hdir, bsfsInodeTypeFile, bsfsInodeTypeDirectory]
      · simp [hunused, hfile, hdir, yields_ok]

/-- What a directory asks for. -/
theorem yields_extractDir (fuel : Nat) (inode : BsfsInode) :
    Yields P (bsfsExtractDir h image opens (fuel + 1) path inode) ↔
      (∀ s ∈ extractScan h image inode, ∃ name, s.1.name s.2 = some name) ∧
      ∀ index name, HasEntry h image inode index name →
        ∃ subinode, inodeAt h image index = some subinode ∧ P (.inode index) ∧
          (subinode.type = bsfsInodeTypeFile →
            ∃ e, extractFile h image opens (subpath path name) subinode = .ok e ∧ P e) ∧
          (subinode.type = bsfsInodeTypeDirectory → P (.mkdir (subpath path name)) ∧
            Yields P (bsfsExtractDir h image opens fuel (subpath path name) subinode)) := by
  rw [bsfsExtractDir, extractBlocks_eq, yields_extractAll]
  constructor
  · intro hall
    refine ⟨fun s hs => ?_, ?_⟩
    · obtain ⟨name, hname, -⟩ := (yields_extractSlot _ _).mp (hall s hs)
      exact ⟨name, hname⟩
    · rintro index name ⟨s, hs, hname, rfl, hfree, hdot, hdotDot⟩
      obtain ⟨name', hname', hrest⟩ := (yields_extractSlot _ _).mp (hall s hs)
      obtain rfl := Option.some.inj (hname.symm.trans hname')
      exact hrest hfree hdot hdotDot
  · rintro ⟨hnames, hentries⟩ s hs
    obtain ⟨name, hname⟩ := hnames s hs
    exact (yields_extractSlot _ _).mpr ⟨name, hname, fun hfree hdot hdotDot =>
      hentries _ name ⟨s, hs, hname, rfl, hfree, hdot, hdotDot⟩⟩

/-- More fuel does not change a walk that ends. -/
theorem yields_extractDir_mono {fuel : Nat} {inode : BsfsInode}
    (hyields : Yields P (bsfsExtractDir h image opens fuel path inode)) :
    Yields P (bsfsExtractDir h image opens (fuel + 1) path inode) := by
  induction fuel generalizing path inode with
  | zero => exact absurd hyields (not_yields_error _)
  | succ fuel ih =>
    obtain ⟨hnames, hentries⟩ := (yields_extractDir fuel inode).mp hyields
    refine (yields_extractDir (fuel + 1) inode).mpr ⟨hnames, fun index name hentry => ?_⟩
    obtain ⟨subinode, hsub, hindex, hfile, hdir⟩ := hentries index name hentry
    exact ⟨subinode, hsub, hindex, hfile, fun htype => ⟨(hdir htype).1, ih (hdir htype).2⟩⟩

theorem yields_extractDir_le {fuel fuel' : Nat} {inode : BsfsInode} (hle : fuel ≤ fuel')
    (hyields : Yields P (bsfsExtractDir h image opens fuel path inode)) :
    Yields P (bsfsExtractDir h image opens fuel' path inode) := by
  induction hle with
  | refl => exact hyields
  | step _ ih => exact yields_extractDir_mono ih

end Loops

/-! ## Safe images -/

section Safe

variable {h : BsfsHeader} {image : HostFile} {opens : CString → Bool} {root path : CString} {i : Nat}
variable {inode : BsfsInode}

theorem inodeAt_eq_some (hread : i < inodesRead h image) : ∃ inode, inodeAt h image i = some inode :=
  ⟨_, if_pos hread⟩

theorem lt_of_inodeAt (hinode : inodeAt h image i = some inode) : i < inodesRead h image := by
  unfold inodeAt at hinode
  split at hinode
  · assumption
  · simp at hinode

theorem inodesRead_le (h : BsfsHeader) (image : HostFile) : inodesRead h image ≤ h.inodeCount := by
  unfold inodesRead
  dsimp only
  split
  · exact Nat.zero_le _
  · exact Nat.min_le_left _ _

theorem blockSize_lt {args : PopulateArgs} (hheader : checkHeader args image = some h) :
    h.blockSize < 2 ^ 32 := by
  unfold checkHeader at hheader
  dsimp only at hheader
  split_ifs at hheader
  cases hheader
  exact loadLE_lt _ _ 4

/-- A file is created and written if the host gives a stream and the copy is defined. -/
theorem extractFile_ok_iff (hbs : h.blockSize < 2 ^ 32) :
    (∃ e, extractFile h image opens path inode = .ok e ∧ ExtractAllowed h root e) ↔
      (opens path = true ∧ CopyDefined h image inode) ∧ StrictlyUnder root path := by
  rw [← bsfsWriteInodeToFile_ok_iff hbs]
  unfold extractFile
  cases opens path with
  | false => simp
  | true => cases bsfsWriteInodeToFile h image inode <;> simp [Except.map, ExtractAllowed]

/-- A walk that ends at a directory descends finitely often below it. -/
theorem acc_of_yields {P : ExtractEvent → Prop} {fuel : Nat} (hinode : inodeAt h image i = some inode)
    (hyields : Yields P (bsfsExtractDir h image opens fuel path inode)) :
    Acc (fun j i => Contains h image i j) i := by
  induction fuel generalizing path i inode with
  | zero => exact absurd hyields (not_yields_error _)
  | succ fuel ih =>
    obtain ⟨-, hentries⟩ := (yields_extractDir fuel inode).mp hyields
    constructor
    rintro j ⟨inode', name, subinode, hinode', hentry, hsub, htype⟩
    obtain rfl := Option.some.inj (hinode.symm.trans hinode')
    obtain ⟨subinode', hsub', -, -, hdir⟩ := hentries j name hentry
    obtain rfl := Option.some.inj (hsub.symm.trans hsub')
    exact ih hsub (hdir htype).2

/-- A safe walk is safe in every directory it visits. -/
theorem yields_of_visited (hsafe : ExtractSafe h image opens root)
    (hvisited : Visited h image root path i) :
    ∃ inode, inodeAt h image i = some inode ∧
      ∃ fuel, Yields (ExtractAllowed h root) (bsfsExtractDir h image opens (fuel + 1) path inode) := by
  induction hvisited with
  | root =>
    obtain ⟨inode, hinode, fuel, hyields⟩ := hsafe
    exact ⟨inode, hinode, fuel, yields_extractDir_mono hyields⟩
  | sub _ hinode hsubdir ih =>
    obtain ⟨inode', hinode', fuel, hyields⟩ := ih
    obtain rfl := Option.some.inj (hinode.symm.trans hinode')
    obtain ⟨hentry, hsub, htype⟩ := hsubdir
    obtain ⟨subinode', hsub', -, -, hdir⟩ := ((yields_extractDir _ _).mp hyields).2 _ _ hentry
    obtain rfl := Option.some.inj (hsub.symm.trans hsub')
    exact ⟨_, hsub, fuel, yields_extractDir_mono (hdir htype).2⟩

theorem extractFits_of_safe (hbs : h.blockSize < 2 ^ 32) (hsafe : ExtractSafe h image opens root) :
    ExtractFits h image opens root := by
  have hvisit : ∀ path i inode, Visited h image root path i → inodeAt h image i = some inode →
      ∃ fuel, Yields (ExtractAllowed h root) (bsfsExtractDir h image opens (fuel + 1) path inode) := by
    intro path i inode hvisited hinode
    obtain ⟨inode', hinode', hyields⟩ := yields_of_visited hsafe hvisited
    obtain rfl := Option.some.inj (hinode.symm.trans hinode')
    exact hyields
  obtain ⟨rootInode, hroot, fuel, hyields⟩ := hsafe
  refine ⟨lt_of_inodeAt hroot, ?_, ?_, ?_, ?_, noCycleBelow_of_acc (acc_of_yields hroot hyields)⟩
  · intro path i inode hvisited hinode
    obtain ⟨fuel, hyields⟩ := hvisit path i inode hvisited hinode
    exact ((yields_extractDir fuel inode).mp hyields).1
  · intro path i inode hvisited hinode index name hentry
    obtain ⟨fuel, hyields⟩ := hvisit path i inode hvisited hinode
    obtain ⟨subinode, hsub, -⟩ := ((yields_extractDir fuel inode).mp hyields).2 index name hentry
    exact lt_of_inodeAt hsub
  · intro path i inode hvisited hinode index name subinode hentry hsub htype
    obtain ⟨fuel, hyields⟩ := hvisit path i inode hvisited hinode
    obtain ⟨subinode', hsub', -, hfile, hdir⟩ :=
      ((yields_extractDir fuel inode).mp hyields).2 index name hentry
    obtain rfl := Option.some.inj (hsub.symm.trans hsub')
    exact htype.elim (fun htype => ((extractFile_ok_iff hbs).mp (hfile htype)).2) fun htype =>
      (hdir htype).1
  · intro path i inode hvisited hinode index name subinode hentry hsub htype
    obtain ⟨fuel, hyields⟩ := hvisit path i inode hvisited hinode
    obtain ⟨subinode', hsub', -, hfile, -⟩ :=
      ((yields_extractDir fuel inode).mp hyields).2 index name hentry
    obtain rfl := Option.some.inj (hsub.symm.trans hsub')
    exact ((extractFile_ok_iff hbs).mp (hfile htype)).1

/-- One bound on the depth does for all entries of a directory. -/
theorem exists_fuel {Q : Nat → DirentBuffer × Nat → Prop} (hmono : ∀ s fuel fuel', fuel ≤ fuel' →
    Q fuel s → Q fuel' s) (l : List (DirentBuffer × Nat)) (hall : ∀ s ∈ l, ∃ fuel, Q fuel s) :
    ∃ fuel, ∀ s ∈ l, Q fuel s := by
  induction l with
  | nil => exact ⟨0, by simp⟩
  | cons s l ih =>
    obtain ⟨fuel, hs⟩ := hall s List.mem_cons_self
    obtain ⟨fuel', hl⟩ := ih fun s hs => hall s (List.mem_cons_of_mem _ hs)
    refine ⟨max fuel fuel', fun t ht => ?_⟩
    rcases List.mem_cons.mp ht with rfl | ht
    · exact hmono _ _ _ (Nat.le_max_left _ _) hs
    · exact hmono _ _ _ (Nat.le_max_right _ _) (hl t ht)

/-- Below an accessible directory the walk ends and does only what it may. -/
theorem yields_of_acc (hbs : h.blockSize < 2 ^ 32) (hfits : ExtractFits h image opens root)
    (hacc : Acc (fun j i => Contains h image i j) i)
    (hvisited : Visited h image root path i) (hinode : inodeAt h image i = some inode) :
    ∃ fuel, Yields (ExtractAllowed h root) (bsfsExtractDir h image opens fuel path inode) := by
  induction hacc generalizing path inode with
  | intro i _ ih =>
    have hslots : ∃ fuel, ∀ s ∈ extractScan h image inode, Yields (ExtractAllowed h root)
        (extractSlot h image opens (bsfsExtractDir h image opens fuel) path s.1 s.2) := by
      refine exists_fuel (fun s fuel fuel' hle hyields => ?_) _ fun s hs => ?_
      · obtain ⟨name, hname, hrest⟩ := (yields_extractSlot _ _).mp hyields
        refine (yields_extractSlot _ _).mpr ⟨name, hname, fun hfree hdot hdotDot => ?_⟩
        obtain ⟨subinode, hsub, hindex, hfile, hdir⟩ := hrest hfree hdot hdotDot
        exact ⟨subinode, hsub, hindex, hfile, fun htype =>
          ⟨(hdir htype).1, yields_extractDir_le hle (hdir htype).2⟩⟩
      · obtain ⟨name, hname⟩ := hfits.names path i inode hvisited hinode s hs
        by_cases hentry : HasEntry h image inode (direntInode s.1.bytes s.2) name
        · have hlt := hfits.indices path i inode hvisited hinode _ name hentry
          obtain ⟨subinode, hsub⟩ := inodeAt_eq_some hlt
          have hpath := hfits.paths path i inode hvisited hinode _ name subinode hentry hsub
          have hfile (htype : subinode.type = bsfsInodeTypeFile) := (extractFile_ok_iff hbs).mpr
            ⟨hfits.files path i inode hvisited hinode _ name subinode hentry hsub htype,
              hpath (.inl htype)⟩
          have hindex : direntInode s.1.bytes s.2 < h.inodeCount :=
            Nat.lt_of_lt_of_le hlt (inodesRead_le h image)
          by_cases htype : subinode.type = bsfsInodeTypeDirectory
          · -- the entry is a directory below `i`
            obtain ⟨fuel, hyields⟩ := ih _ ⟨inode, name, subinode, hinode, hentry, hsub, htype⟩
              (hvisited.sub hinode ⟨hentry, hsub, htype⟩) hsub
            exact ⟨fuel, (yields_extractSlot _ _).mpr ⟨name, hname, fun _ _ _ =>
              ⟨subinode, hsub, hindex, hfile, fun _ => ⟨hpath (.inr htype), hyields⟩⟩⟩⟩
          · exact ⟨0, (yields_extractSlot _ _).mpr ⟨name, hname, fun _ _ _ =>
              ⟨subinode, hsub, hindex, hfile, fun hdir => absurd hdir htype⟩⟩⟩
        · exact ⟨0, (yields_extractSlot _ _).mpr ⟨name, hname, fun hfree hdot hdotDot =>
            absurd ⟨s, hs, hname, rfl, hfree, hdot, hdotDot⟩ hentry⟩⟩
    obtain ⟨fuel, hslots⟩ := hslots
    refine ⟨fuel + 1, ?_⟩
    rw [bsfsExtractDir, extractBlocks_eq, yields_extractAll]
    exact hslots

theorem extractSafe_of_fits (hbs : h.blockSize < 2 ^ 32) (hfits : ExtractFits h image opens root) :
    ExtractSafe h image opens root := by
  obtain ⟨inode, hinode⟩ := inodeAt_eq_some hfits.rootInode
  have hfinite : {i | ReflTransGen (Contains h image) h.rootInode i}.Finite := by
    refine (Set.finite_Iio (inodesRead h image)).subset fun i hreach => ?_
    rcases ReflTransGen.cases_tail hreach with rfl | ⟨_, _, _, _, _, _, _, hsub, _⟩
    · exact hfits.rootInode
    · exact lt_of_inodeAt hsub
  exact ⟨inode, hinode, yields_of_acc hbs hfits (acc_of_noCycleBelow hfinite hfits.acyclic) .root hinode⟩

/-- For every image that passes the checks and every host: the walk from the root ends, indexes the
inode table below `inode_count` and creates paths below the output directory only, exactly if the image
and the host are as the walk takes them to be. -/
theorem extractSafe_iff {args : PopulateArgs} (hheader : checkHeader args image = some h)
    (opens : CString → Bool) :
    ExtractSafe h image opens args.root ↔ ExtractFits h image opens args.root :=
  ⟨extractFits_of_safe (blockSize_lt hheader), extractSafe_of_fits (blockSize_lt hheader)⟩

/-- The slots of the first direct block. -/
theorem mem_extractScan (image : HostFile) {d : Nat} (hdirect : inode.direct 0 ≠ 0)
    (hd : d < slotsPerBlock h) :
    (DirentBuffer.fresh.read h image (inode.direct 0), d) ∈ extractScan h image inode := by
  have hrange : List.range bsfsMaxDirectblocks = 0 :: (List.range 9).map (· + 1) := by decide
  unfold extractScan
  rw [hrange, dirSlots, if_neg hdirect]
  exact List.mem_append_left _ (List.mem_map_of_mem (List.mem_range.mpr hd))

end Safe

/-! ## Images that are not safe -/

section Crafted

/-- A volume of 16 blocks of 1024 bytes. -/
def craftedHeader : BsfsHeader := { mkfsHeader 1024 0 16384 with rootInode := 1 }

/-- A directory whose entries are in block 5. -/
def craftedRoot : BsfsInode :=
  { BsfsInode.zero with type := bsfsInodeTypeDirectory, size := 128 }.setDirect 0 5

/-- The root directory, which is inode 1, has one entry; inode 2 is an empty file. -/
def craftedImage (index : Nat) (name : CString) : HostFile where
  size := 16384
  bytes :=
    let header := storeBytes (fun _ => 0) 0 (headerBytes craftedHeader mkfsBootjmp (mkfsTail []))
    let root := storeBytes header (4096 + 128) (packedBytes craftedRoot.fields)
    let file := storeBytes root (4096 + 256)
      (packedBytes { BsfsInode.zero with type := bsfsInodeTypeFile }.fields)
    storeBytes file 5120 (direntBytes index name)

/-- `bsfs-extract image out --block-size 1024`. -/
def craftedArgs : PopulateArgs := ⟨1024, 0, false, ⟨[0x6F, 0x75, 0x74], by decide⟩⟩

/-- An entry of the root directory for itself, one for an inode that does not exist, and a file with a
name that leads out. -/
def craftedEntries : List (Nat × CString) :=
  [(1, ⟨[0x61], by decide⟩), (9, ⟨[0x62], by decide⟩), (2, ⟨[0x2E, 0x2E, 0x2F, 0x78], by decide⟩)]

/-- The inodes of the images. -/
def craftedInode (e : Nat × CString) (index : Nat) : BsfsInode :=
  readInode (craftedImage e.1 e.2).bytes (4096 + 128 * index)

theorem inodesRead_craftedImage (e : Nat × CString) :
    inodesRead craftedHeader (craftedImage e.1 e.2) = 4 := by
  have hoffset : populateOffset craftedHeader craftedHeader.inodeTableStart = 4096 := by decide +kernel
  have hcount : craftedHeader.inodeCount = 4 := by decide +kernel
  have hsize : u32 (4 * sizeofBsfsInode) = 512 := by decide +kernel
  unfold inodesRead
  rw [hoffset, hcount, hsize, show (craftedImage e.1 e.2).size = 16384 from rfl]
  decide

theorem inodeAt_craftedImage {e : Nat × CString} {index : Nat} (hindex : index < 4) :
    inodeAt craftedHeader (craftedImage e.1 e.2) index = some (craftedInode e index) := by
  have hoffset : populateOffset craftedHeader craftedHeader.inodeTableStart = 4096 := by decide +kernel
  unfold inodeAt
  rw [inodesRead_craftedImage, if_pos hindex, hoffset]
  rfl

/-- The images pass all checks, and the walk comes to their entry. -/
theorem craftedImage_read : ∀ e ∈ craftedEntries,
    checkHeader craftedArgs (craftedImage e.1 e.2) = some craftedHeader ∧
      (craftedInode e 1).type = bsfsInodeTypeDirectory ∧ (craftedInode e 1).direct 0 = 5 ∧
      (craftedInode e 2).type = bsfsInodeTypeFile ∧
      (DirentBuffer.fresh.read craftedHeader (craftedImage e.1 e.2) 5).name 0 = some e.2 ∧
      direntInode (DirentBuffer.fresh.read craftedHeader (craftedImage e.1 e.2) 5).bytes 0 = e.1 ∧
      e.1 ≠ bsfsInodeTypeFree ∧ e.2 ≠ .dot ∧ e.2 ≠ .dotDot := by
  decide +kernel

-- from here on the images are known by what is read from them
attribute [irreducible] craftedImage craftedInode

theorem craftedImage_hasEntry {e : Nat × CString} (he : e ∈ craftedEntries) :
    HasEntry craftedHeader (craftedImage e.1 e.2) (craftedInode e 1) e.1 e.2 := by
  obtain ⟨-, -, hdirect, -, hname, hindex, hrest⟩ := craftedImage_read e he
  have hslots : 0 < slotsPerBlock craftedHeader := by decide
  have hused : (craftedInode e 1).direct 0 ≠ 0 := by
    rw [hdirect]
    decide
  have hslot := mem_extractScan (craftedImage e.1 e.2) hused hslots
  rw [hdirect] at hslot
  exact ⟨_, hslot, hname, hindex, hrest⟩

theorem craftedImage_unsafe (e : Nat × CString) (he : e ∈ craftedEntries) :
    checkHeader craftedArgs (craftedImage e.1 e.2) = some craftedHeader ∧
      ∀ opens, ¬ ExtractSafe craftedHeader (craftedImage e.1 e.2) opens craftedArgs.root := by
  obtain ⟨hheader, hdir, -, hfile, -⟩ := craftedImage_read e he
  refine ⟨hheader, fun opens hsafe => ?_⟩
  have hfits := extractFits_of_safe (blockSize_lt hheader) hsafe
  have hentry := craftedImage_hasEntry he
  have hroot : inodeAt craftedHeader (craftedImage e.1 e.2) 1 = some (craftedInode e 1) :=
    inodeAt_craftedImage (by decide)
  have hvisited : Visited craftedHeader (craftedImage e.1 e.2) craftedArgs.root craftedArgs.root 1 :=
    .root
  have hcases : ∀ e ∈ craftedEntries, e.1 = 1 ∨ e.1 = 9 ∨
      e.1 = 2 ∧ pathDepth 0 (components ((subpath craftedArgs.root e.2).bytes.drop 4)) = none := by
    decide +kernel
  rcases hcases e he with hself | hmissing | ⟨hout, hdepth⟩
  · have hsub : inodeAt craftedHeader (craftedImage e.1 e.2) e.1 = some (craftedInode e 1) := by
      rw [hself] at hroot ⊢
      exact hroot
    have hcontains : Contains craftedHeader (craftedImage e.1 e.2) 1 e.1 :=
      ⟨_, _, _, hroot, hentry, hsub, hdir⟩
    have hcycle : TransGen (Contains craftedHeader (craftedImage e.1 e.2)) 1 e.1 := .single hcontains
    generalize craftedImage e.1 e.2 = image at *
    rw [hself] at hcycle
    exact hfits.acyclic 1 .refl hcycle
  · have hlt := hfits.indices _ _ _ hvisited hroot _ _ hentry
    rw [inodesRead_craftedImage] at hlt
    omega
  · have hsub : inodeAt craftedHeader (craftedImage e.1 e.2) e.1 = some (craftedInode e 2) := by
      have hsecond : inodeAt craftedHeader (craftedImage e.1 e.2) 2 = some (craftedInode e 2) :=
        inodeAt_craftedImage (by decide)
      generalize craftedImage e.1 e.2 = image at *
      rw [hout]
      exact hsecond
    obtain ⟨-, depth, hunder, -⟩ :=
      hfits.paths _ _ _ hvisited hroot _ _ _ hentry hsub (.inl hfile)
    rw [show craftedArgs.root.length + 1 = 4 by decide, hdepth] at hunder
    simp at hunder

/-- `"x"` -/
def craftedName : CString := ⟨[0x78], by decide⟩

/-- An image with a file of that name is safe. -/
theorem extractFits_craftedName :
    ExtractFits craftedHeader (craftedImage 2 craftedName) (fun _ => true) craftedArgs.root := by
  have hheader : checkHeader craftedArgs (craftedImage 2 craftedName) = some craftedHeader := by
    decide +kernel
  have hrun : bsfsExtractDir craftedHeader (craftedImage 2 craftedName) (fun _ => true) 1
      craftedArgs.root (craftedInode (2, craftedName) 1) =
      .ok [.inode 2, .file (subpath craftedArgs.root craftedName) []] := by
    decide +kernel
  have hindex : 2 < craftedHeader.inodeCount := by decide +kernel
  have hunder : StrictlyUnder craftedArgs.root (subpath craftedArgs.root craftedName) :=
    ⟨⟨[0x78], by decide +kernel⟩, 1, by decide +kernel⟩
  exact (extractSafe_iff hheader fun _ => true).mp
    ⟨_, inodeAt_craftedImage (e := (2, craftedName)) (by decide), 1, _, hrun,
      List.forall_mem_cons.mpr ⟨hindex, List.forall_mem_singleton.mpr hunder⟩⟩

/-- A directory that contains itself, an entry for inode 9 of 4, and a file named `"../x"`: none of the
images is safe to extract, whatever the host. -/
theorem extract_unsafe : craftedEntries.Forall fun e =>
    checkHeader craftedArgs (craftedImage e.1 e.2) = some craftedHeader ∧
      ∀ opens, ¬ ExtractSafe craftedHeader (craftedImage e.1 e.2) opens craftedArgs.root :=
  List.forall_iff_forall_mem.mpr craftedImage_unsafe

end Crafted

end Pristine.Bsfs
