import Pristine.Bsfs.HostTree

/-!
# What `bsfs_populate_dir` stores

A tree that fits is stored entry by entry (`populateEntries_spec`), and a program
that goes on after a directory has stored a tree that fits (`populateDir_hosts`).
The induction is on the tree the host shows: a directory's entries, for each
subdirectory its own entries first.
-/

namespace Pristine.Bsfs

open Function Kernel Lib

/-! ## One entry -/

/-- An entry of a directory is done: it has slot `k`, inode `inodes`, and the blocks up to
`next'`. -/
structure EntryDone (s s' : PopulateState) (base : ByteMem)
    (offset total idx k next inodes next' inodes' : Nat) (name : CString) : Prop where
  growing : Growing s' base offset total next' inodes'
  dir : DirState s' base idx (k + 1) (k + 1) next'
  frame : InDir s s' idx k next inodes
  slot : SlotOn s'.image.bytes (s'.inodeTable idx) k next inodes name
  next_le : next + slotBlocks k ≤ next'
  inodes_le : inodes + 1 ≤ inodes'

/-- A directory and all below it is done. -/
structure DirDone (s s' : PopulateState) (base : ByteMem)
    (offset total idx parent next inodes : Nat) (tree : HostTree) : Prop where
  growing : Growing s' base offset total (next + 1 + tree.blocks 2) (inodes + tree.count)
  dir : DirOn s'.image.bytes base (s'.inodeTable idx) idx parent (2 + tree.length) next
    (next + 1 + tree.blocks 2)
  entries : EntriesOn s'.image.bytes base s'.inodeTable tree (s'.inodeTable idx) idx 2 (next + 1)
    inodes
  image : ∀ a, a < 4096 * next → s'.image.bytes a = s.image.bytes a
  table : ∀ i, i < inodes → i ≠ idx → s'.inodeTable i = s.inodeTable i
  kept : Kept s s'

section Entry

variable {fs : HostFs} {path name : CString} {s : PopulateState} {base : ByteMem}
variable {offset total next inodes idx k time : Nat} {data : List UInt8}

theorem populateFile_spec (exits : Bool) (time : Nat) (hg : Growing s base offset total next inodes)
    (hd : DirState s base idx k k next) (hidx : idx < inodes) (hk : k < 320)
    (hinodes : inodes < total / 4) (hopen : fs.fopen (subpath path name) = some data)
    (hmax : fileBlocks data.length ≤ 1034)
    (hroom : fileBlock (next + slotBlocks k) (fileBlocks data.length) ≤ total) :
    ∃ s', populateFile exits fs path name time idx s = .ok () s' ∧
      EntryDone s s' base offset total idx k next inodes
        (fileBlock (next + slotBlocks k) (fileBlocks data.length)) (inodes + 1) name ∧
      s'.inodeTable inodes = finishedInode time (next + slotBlocks k) data ∧
      FileOn s'.image.bytes (next + slotBlocks k) data := by
  have hlow := (fileBlock_bounds (next + slotBlocks k) (fileBlocks data.length)).1
  obtain ⟨s1, hentry, hg1, hd1, hframe1, hzero, hnew⟩ :=
    openEntry_spec exits hg hd hidx hk (by omega) hinodes
  obtain ⟨s2, hstore, hc2, hkept2, htable2, hfile2, houtside2⟩ :=
    storeFile_spec exits (subpath path name) time hg1.counters hinodes hzero hmax hroom
  -- the file lies behind everything that was there before
  have hg2 : Growing s2 base offset total
      (fileBlock (next + slotBlocks k) (fileBlocks data.length)) (inodes + 1) := by
    refine ⟨hc2, fun a ha => ?_, fun i hi => ?_⟩
    · rw [houtside2 a (Or.inr ha)]
      exact hg1.free a (by omega)
    · rw [htable2, update_of_ne (by omega)]
      exact hg1.fresh i hi
  have hinode2 : s2.inodeTable idx = s1.inodeTable idx := by
    rw [htable2, update_of_ne (by omega)]
  have hd2 : DirState s2 base idx (k + 1) (k + 1)
      (fileBlock (next + slotBlocks k) (fileBlocks data.length)) :=
    hd1.congr hinode2 (by omega) fun a ha => houtside2 a (Or.inl (hd1.unused_lt ha))
  have hframe2 : InDir s1 s2 idx k (next + slotBlocks k) inodes :=
    .of_outside hidx (fun a ha => houtside2 a (Or.inl ha))
      (fun i hi => by rw [htable2, update_of_ne (by omega)]) hkept2
  obtain ⟨s3, hwrite, hg3, hd3, hframe3, htable3, hdirent⟩ := writeDirent_spec hg2 hd2 hk inodes name
  refine ⟨s3, ?_, ⟨hg3, hd3, ?_, ⟨?_, ?_⟩, by omega, le_rfl⟩, ?_, ?_⟩
  · unfold populateFile
    rw [bind_of_ok hentry]
    rw [hopen]
    dsimp only
    rw [bind_of_ok hstore, ← hinode2, hwrite]
  · exact ((hframe1.mono (Nat.le_succ _)).trans hframe2 le_rfl (by omega) le_rfl).trans hframe3 le_rfl
      (by omega) (by omega)
  · intro hmod
    rw [htable3, hinode2]
    exact hnew hmod
  · rw [htable3]
    exact hdirent
  · rw [htable3, htable2, update_self]
  · refine hfile2.congr fun a hlo hhi => hframe3.image a hhi fun hunused => ?_
    rw [hinode2] at hunused
    have hbelow := hd1.unused_lt hunused
    omega

theorem populateSubdir_spec (exits : Bool) (recurse : CString → Nat → Nat → PopulateM Unit)
    (path name : CString) {children : HostTree} (hg : Growing s base offset total next inodes)
    (hd : DirState s base idx k k next) (hidx : idx < inodes) (hk : k < 320)
    (hinodes : inodes < total / 4) (hroom : next + slotBlocks k ≤ total)
    (hrecurse : ∀ t : PopulateState,
      Growing t base offset total (next + slotBlocks k) (inodes + 1) →
      t.inodeTable inodes = .zero →
      ∃ t', recurse (subpath path name) inodes idx t = .ok () t' ∧
        DirDone t t' base offset total inodes idx (next + slotBlocks k) (inodes + 1) children) :
    ∃ s', populateSubdir exits recurse path name idx s = .ok () s' ∧
      EntryDone s s' base offset total idx k next inodes
        (next + slotBlocks k + 1 + children.blocks 2) (inodes + 1 + children.count) name ∧
      DirOn s'.image.bytes base (s'.inodeTable inodes) inodes idx (2 + children.length)
        (next + slotBlocks k) (next + slotBlocks k + 1 + children.blocks 2) ∧
      EntriesOn s'.image.bytes base s'.inodeTable children (s'.inodeTable inodes) inodes 2
        (next + slotBlocks k + 1) (inodes + 1) := by
  obtain ⟨s1, hentry, hg1, hd1, hframe1, hzero, hnew⟩ :=
    openEntry_spec exits hg hd hidx hk hroom hinodes
  obtain ⟨s2, hwrite, hg2, hd2, hframe2, htable2, hdirent⟩ := writeDirent_spec hg1 hd1 hk inodes name
  obtain ⟨s3, hcall, hdone⟩ := hrecurse s2 hg2 (htable2 ▸ hzero)
  have hinode3 : s3.inodeTable idx = s2.inodeTable idx := hdone.table idx (by omega) (by omega)
  have hd3 : DirState s3 base idx (k + 1) (k + 1) (next + slotBlocks k + 1 + children.blocks 2) :=
    hd2.congr hinode3 (by omega) fun a ha => hdone.image a (hd2.unused_lt ha)
  have hframe3 : InDir s2 s3 idx k (next + slotBlocks k) inodes :=
    .of_outside hidx hdone.image (fun i hi => hdone.table i (by omega) (by omega)) hdone.kept
  refine ⟨s3, ?_, ⟨hdone.growing, hd3, ?_, ⟨?_, ?_⟩, by omega, by omega⟩, hdone.dir, hdone.entries⟩
  · unfold populateSubdir
    rw [bind_of_ok hentry]
    dsimp only
    rw [bind_of_ok hwrite, hcall]
  · exact ((hframe1.mono (Nat.le_succ _)).trans hframe2 le_rfl (by omega) (by omega)).trans hframe3
      le_rfl (by omega) le_rfl
  · intro hmod
    rw [hinode3, htable2]
    exact hnew hmod
  · intro j hj
    have hpointer := hd1.pointer (k / 32) (by omega)
    rw [hinode3, htable2, hdone.image _ (by unfold slotAddr; omega)]
    exact hdirent j hj

end Entry

/-! ## All entries, and whole directories -/

/-- The entries of a directory are done. -/
structure EntriesDone (s s' : PopulateState) (base : ByteMem)
    (offset total idx k next inodes : Nat) (tree : HostTree) : Prop where
  growing : Growing s' base offset total (next + tree.blocks k) (inodes + tree.count)
  dir : DirState s' base idx (k + tree.length) (k + tree.length) (next + tree.blocks k)
  frame : InDir s s' idx k next inodes
  entries : EntriesOn s'.image.bytes base s'.inodeTable tree (s'.inodeTable idx) idx k next inodes

/-- A tree fits behind block `next` and inode `inodes`, in a directory with `k` entries. -/
structure Fits (tree : HostTree) (total k next inodes : Nat) : Prop where
  storable : tree.Storable
  length : k + tree.length ≤ 320
  blocks : next + tree.blocks k ≤ total
  count : inodes + tree.count ≤ total / 4

/-- Entries that fit are stored. -/
def EntriesSpec (exits : Bool) (fs : HostFs) (path : CString) (dirents : List HostDirent)
    (tree : HostTree) : Prop :=
  ∀ {s : PopulateState} {base : ByteMem} {offset total next inodes idx k fuel : Nat} (time : Nat),
    Growing s base offset total next inodes → DirState s base idx k k next → idx < inodes →
    tree.depth ≤ fuel → Fits tree total k next inodes →
    ∃ s', populateEntries exits fs (bsfsPopulateDir exits fs fuel) path time idx dirents s =
        .ok () s' ∧
      EntriesDone s s' base offset total idx k next inodes tree

section Directories

variable {fs : HostFs} {path : CString} {dirents : List HostDirent} {tree : HostTree}
variable {s : PopulateState} {base : ByteMem} {offset total next inodes idx parent fuel : Nat}

/-- How `bsfs_populate_dir` begins. -/
def dirInode (time : Nat) (inode : BsfsInode) : BsfsInode :=
  { freshInode bsfsInodeTypeDirectory time inode with blocks := 0 }

theorem direct_dirInode_zero (time j : Nat) : (dirInode time .zero).direct j = 0 := by
  unfold BsfsInode.direct
  split <;> rfl

theorem dirState_start (time : Nat) (hzero : s.inodeTable idx = .zero) :
    DirState (s.setInode idx (dirInode time (s.inodeTable idx))) base idx 0 0 next := by
  have hinode : (s.setInode idx (dirInode time (s.inodeTable idx))).inodeTable idx =
      dirInode time .zero := by
    rw [setInode_inodeTable, update_self, hzero]
  refine ⟨?_, ?_, ?_, fun j hj => absurd hj (by omega), ?_, fun _ j _ hj => absurd hj (by omega), ?_⟩
  · rw [hinode]
    rfl
  · rw [hinode]
    rfl
  · rw [hinode]
    rfl
  · intro j _
    rw [hinode, direct_dirInode_zero]
  · rintro a ⟨i, -, -, hnonzero, -, -⟩
    rw [hinode, direct_dirInode_zero] at hnonzero
    exact absurd rfl hnonzero

/-- A directory is stored if its entries are. -/
theorem populateDir_spec (exits : Bool) (hopen : fs.opendir path = some dirents)
    (hspec : EntriesSpec exits fs path dirents tree)
    (hg : Growing s base offset total next inodes) (hidx : idx < inodes)
    (hzero : s.inodeTable idx = .zero) (hfuel : tree.depth ≤ fuel)
    (hfits : Fits tree total 2 (next + 1) inodes) :
    ∃ s', bsfsPopulateDir exits fs (fuel + 1) path idx parent s = .ok () s' ∧
      DirDone s s' base offset total idx parent next inodes tree := by
  have hinodes := hg.counters.inodes_le
  have hblocks := hfits.blocks
  have hcount : idx < s.header.inodeCount := by
    rw [hg.counters.volume.inodeCount]
    omega
  obtain ⟨s1, hs1⟩ : ∃ s1, s1 = s.setInode idx (dirInode (fs.time path).toNat (s.inodeTable idx)) :=
    ⟨_, rfl⟩
  have hg1 : Growing s1 base offset total next inodes := hs1 ▸ hg.setInode hidx _
  have hd1 : DirState s1 base idx 0 0 next := hs1 ▸ dirState_start _ hzero
  obtain ⟨s2, hdot, hg2, hd2, hframe2, hdirent2, hfirst⟩ :=
    addLink_spec exits hg1 hd1 hidx (by omega) (show next + 1 ≤ total by omega) idx .dot
  obtain ⟨s3, hdotDot, hg3, hd3, hframe3, hdirent3, -⟩ :=
    addLink_spec exits hg2 hd2 hidx (by omega) (show next + 1 + 0 ≤ total by omega) parent .dotDot
  obtain ⟨s4, hcall, hdone⟩ := hspec (fs.time path).toNat hg3 hd3 hidx hfuel hfits
  have hdir := hdone.dir
  have hframe4 := hdone.frame
  -- the frame of the whole directory
  have hframe : InDir s1 s4 idx 0 next inodes :=
    ((hframe2.mono (Nat.le_succ _)).trans hframe3 (by omega) (by omega) (by omega)).trans hframe4
      (by omega) (by omega) le_rfl
  have hzero1 (j : Nat) : (s1.inodeTable idx).direct j = 0 := hd1.none j (by omega)
  have hslot0 := hframe3.slot hd2 (by omega : 0 < 1)
  have hslot0' := hframe4.slot hd3 (by omega : 0 < 2)
  have hslot1 := hframe4.slot hd3 (by omega : 1 < 2)
  refine ⟨s4, ?_, hdone.growing, ⟨hdir.type, hdir.size, hdir.l1, ?_, ?_, hdir.none, ?_, ?_,
    hdir.unused⟩, hdone.entries, ?_, ?_, ?_⟩
  · unfold bsfsPopulateDir
    rw [bind_of_ok (bsfsPanicIf_of_not (by rw [hopen]; exact Option.some_ne_none _)),
      bind_of_ok (modifyInode_of_lt hcount)]
    change (addLink exits idx idx .dot >>= _) (s.setInode idx (dirInode _ (s.inodeTable idx))) = _
    rw [← hs1, bind_of_ok hdot, bind_of_ok hdotDot, hopen]
    exact hcall
  · rw [show (0 : Nat) = 0 / 32 from rfl, hslot0'.1, hslot0.1]
    exact hfirst rfl
  · intro j hj
    have hpointer := hdir.pointer j hj
    have hlow := (hframe.newPointer j (hzero1 j)).resolve_left (by omega)
    exact ⟨hlow, hpointer.2⟩
  · exact (hdirent2.congr hslot0.2).congr hslot0'.2
  · exact hdirent3.congr hslot1.2
  · intro a ha
    rw [hframe.image a ha, hs1, setInode_image]
    rintro ⟨i, -, -, hnonzero, -, -⟩
    exact hnonzero (hzero1 _)
  · intro i hi hne
    rw [hframe.table i hi hne, hs1, setInode_inodeTable, update_of_ne hne]
  · exact (hs1 ▸ kept_setInode s idx _ : Kept s s1).trans hframe.kept

end Directories

section Trees

variable {exits : Bool} {fs : HostFs} {path : CString} {rest : List HostDirent} {tree : HostTree}
variable {s s1 s' : PopulateState} {base : ByteMem}
variable {offset total next inodes next1 inodes1 idx k : Nat} {name : CString}

/-- An entry stays in place while the rest of the directory is stored. -/
theorem EntryDone.slot_later
    (hhead : EntryDone s s1 base offset total idx k next inodes next1 inodes1 name)
    (hrest : EntriesDone s1 s' base offset total idx (k + 1) next1 inodes1 tree) :
    SlotOn s'.image.bytes (s'.inodeTable idx) k next inodes name := by
  have hslot := hrest.frame.slot hhead.dir (Nat.lt_succ_self k)
  refine ⟨fun hmod => ?_, hhead.slot.dirent.congr hslot.2⟩
  rw [hslot.1]
  exact hhead.slot.block hmod

/-- So do the blocks behind the directory's own. -/
theorem EntryDone.image_later (hd : DirState s base idx k k next)
    (hhead : EntryDone s s1 base offset total idx k next inodes next1 inodes1 name)
    (hrest : EntriesDone s1 s' base offset total idx (k + 1) next1 inodes1 tree) {a : Nat}
    (hlo : 4096 * (next + slotBlocks k) ≤ a) (hhi : a < 4096 * next1) :
    s'.image.bytes a = s1.image.bytes a := by
  refine hrest.frame.image a hhi ?_
  rintro ⟨i, hi, -, hnonzero, -, hend⟩
  have hslots : 32 * (i / 32) < k + 1 := by
    by_contra hbeyond
    exact hnonzero (hhead.dir.none _ (by omega))
  have hpointer : (s1.inodeTable idx).direct (i / 32) < next + slotBlocks k := by
    by_cases hold : 32 * (i / 32) < k
    · have hbefore := hd.pointer _ hold
      rw [hhead.frame.pointer _ (by omega)]
      omega
    · have hmod : k % 32 = 0 := by omega
      have hblock := hhead.slot.block hmod
      rw [show i / 32 = k / 32 by omega, hblock]
      unfold slotBlocks
      rw [if_pos hmod]
      omega
  unfold slotAddr at hend
  omega

/-- An entry and the rest make up a directory. -/
theorem EntryDone.cons {entries : HostTree}
    (hhead : EntryDone s s1 base offset total idx k next inodes next1 inodes1 name)
    (hrest : EntriesDone s1 s' base offset total idx (k + 1) next1 inodes1 tree)
    (hlength : k + 1 + tree.length = k + entries.length)
    (hblocks : next1 + tree.blocks (k + 1) = next + entries.blocks k)
    (hcount : inodes1 + tree.count = inodes + entries.count)
    (hon : EntriesOn s'.image.bytes base s'.inodeTable entries (s'.inodeTable idx) idx k next inodes) :
    EntriesDone s s' base offset total idx k next inodes entries := by
  have hnext := hhead.next_le
  have hinodes := hhead.inodes_le
  refine ⟨?_, ?_, hhead.frame.trans hrest.frame (by omega) (by omega) (by omega), hon⟩
  · rw [← hblocks, ← hcount]
    exact hrest.growing
  · rw [← hblocks, ← hlength]
    exact hrest.dir

/-- The first entry of a directory, then the rest. -/
theorem populateEntries_cons {entry : PopulateM Unit} {recurse : CString → Nat → Nat → PopulateM Unit}
    {time : Nat} {dirent : HostDirent} (hentry : populateEntry exits fs recurse path time idx dirent =
      entry) (hhead : entry s = .ok () s1)
    (htail : populateEntries exits fs recurse path time idx rest s1 = .ok () s') :
    populateEntries exits fs recurse path time idx (dirent :: rest) s = .ok () s' := by
  unfold populateEntries
  rw [hentry, bind_of_ok hhead, htail]

/-- Whatever tree the host shows, its entries are stored if they fit. -/
theorem populateEntries_spec (exits : Bool) {dirents : List HostDirent}
    (hosts : Hosts fs path dirents tree) : EntriesSpec exits fs path dirents tree := by
  induction hosts with
  | nil =>
    intro s base offset total next inodes idx k fuel time hg hd hidx _ _
    exact ⟨s, rfl, hg, hd, .of_outside hidx (fun _ _ => rfl) (fun _ _ => rfl) (.refl s), trivial⟩
  | @skip path dirent rest tree hdot _ ih =>
    intro s base offset total next inodes idx k fuel time hg hd hidx hfuel hfits
    obtain ⟨s', hcall, hdone⟩ := ih time hg hd hidx hfuel hfits
    have hskip : populateEntry exits fs (bsfsPopulateDir exits fs fuel) path time idx dirent s =
        .ok () s := by
      unfold populateEntry
      rw [if_pos hdot]
      rfl
    exact ⟨s', populateEntries_cons rfl hskip hcall, hdone⟩
  | @file path dirent rest tree data hdot htype hopen _ ih =>
    intro s base offset total next inodes idx k fuel time hg hd hidx hfuel hfits
    obtain ⟨⟨hmax, hstorable⟩, hlength, hblocks, hcount⟩ := hfits
    simp only [HostTree.length, HostTree.blocks, HostTree.count, HostTree.depth] at *
    have hblock := fileBlock_add (next + slotBlocks k) (fileBlocks data.length)
    obtain ⟨s1, hhead, hentry, hinode, hfile⟩ := populateFile_spec exits time hg hd hidx (by omega)
      (by omega) hopen hmax (by omega)
    obtain ⟨s', hcall, hdone⟩ := ih time hentry.growing hentry.dir (by omega) hfuel
      ⟨hstorable, by omega, by omega, by omega⟩
    refine ⟨s', populateEntries_cons ?_ hhead hcall, hentry.cons hdone (by rw [HostTree.length]; omega)
      (by rw [HostTree.blocks]; omega) (by rw [HostTree.count]; omega) ?_⟩
    · unfold populateEntry
      rw [if_neg hdot, htype]
    · refine ⟨hentry.slot_later hdone, ?_, ?_, hdone.entries⟩
      · rw [hdone.frame.table inodes (by omega) (by omega), hinode]
        exact finishedInode_fileInode time _ data
      · exact hfile.congr fun a hlo hhi => hentry.image_later hd hdone hlo hhi
  | @dir path dirent rest dirents children tree hdot htype hopen _ _ ihchildren ih =>
    intro s base offset total next inodes idx k fuel time hg hd hidx hfuel hfits
    obtain ⟨⟨hchildren, hstorableChildren, hstorable⟩, hlength, hblocks, hcount⟩ := hfits
    simp only [HostTree.length, HostTree.blocks, HostTree.count, HostTree.depth] at *
    obtain ⟨fuel, rfl⟩ : ∃ fuel', fuel = fuel' + 1 := ⟨fuel - 1, by omega⟩
    obtain ⟨s1, hhead, hentry, hdir, hentries⟩ := populateSubdir_spec exits
      (bsfsPopulateDir exits fs (fuel + 1)) path dirent.name hg hd hidx (by omega) (by omega)
      (by omega) fun t hgt hzero =>
        populateDir_spec exits hopen ihchildren hgt (Nat.lt_succ_self inodes) hzero
          (by omega) ⟨hstorableChildren, by omega, by omega, by omega⟩
    obtain ⟨s', hcall, hdone⟩ := ih time hentry.growing hentry.dir (by omega)
      (by omega : tree.depth ≤ fuel + 1) ⟨hstorable, by omega, by omega, by omega⟩
    have hsame : s'.inodeTable inodes = s1.inodeTable inodes :=
      hdone.frame.table inodes (by omega) (by omega)
    refine ⟨s', populateEntries_cons ?_ hhead hcall, hentry.cons hdone (by rw [HostTree.length]; omega)
      (by rw [HostTree.blocks]; omega) (by rw [HostTree.count]; omega) ?_⟩
    · unfold populateEntry
      rw [if_neg hdot, htype]
    · refine ⟨hentry.slot_later hdone, ?_, ?_, hdone.entries⟩
      · rw [hsame]
        exact hdir.congr (by omega) (.refl _) fun a hlo hhi =>
          hentry.image_later hd hdone hlo hhi
      · rw [hsame]
        refine hentries.congr (fun _ _ _ => rfl) ?_ ?_ ?_
        · intro i _ hi j hj
          have hbounds := slot_bounds (k := i) hdir.pointer hi
          exact hentry.image_later hd hdone (by omega) (by omega)
        · exact fun a hlo hhi => hentry.image_later hd hdone (by omega) (by omega)
        · intro i hi hin
          rw [hdone.frame.table i (by omega) (by omega)]
          exact .refl _

end Trees

/-! ## A program that goes on has stored a tree that fits -/

section Hosts

variable {fs : HostFs} {path name : CString} {s s' : PopulateState} {base : ByteMem}
variable {offset total next inodes idx parent k time fuel : Nat}

theorem populateFile_fits (hg : Growing s base offset total next inodes)
    (hd : DirState s base idx k k next) (hidx : idx < inodes)
    (hcall : populateFile true fs path name time idx s = .ok () s') :
    k < 320 ∧ inodes < total / 4 ∧ ∃ data, fs.fopen (subpath path name) = some data ∧
      fileBlocks data.length ≤ 1034 ∧
      fileBlock (next + slotBlocks k) (fileBlocks data.length) ≤ total := by
  obtain ⟨⟨place, i⟩, t, hentry, hrest⟩ := bind_eq_ok.mp hcall
  obtain ⟨hk, hroom, hinodes, rfl, hg1, -, hzero, -⟩ := openEntry_ok hg hd hidx hentry
  refine ⟨hk, hinodes, ?_⟩
  cases hopen : fs.fopen (subpath path name) with
  | none =>
    simp only [hopen] at hrest
    exact absurd hrest bsfsPanic_bind_ne_ok
  | some data =>
    simp only [hopen] at hrest
    obtain ⟨_, _, hstore, -⟩ := bind_eq_ok.mp hrest
    exact ⟨data, rfl, storeFile_fits hg1.counters hinodes hzero hstore⟩

/-- A subdirectory begins in a state like every other. -/
theorem populateSubdir_fits {recurse : CString → Nat → Nat → PopulateM Unit}
    (hg : Growing s base offset total next inodes) (hd : DirState s base idx k k next)
    (hidx : idx < inodes) (hcall : populateSubdir true recurse path name idx s = .ok () s') :
    k < 320 ∧ inodes < total / 4 ∧ next + slotBlocks k ≤ total ∧ ∃ t,
      Growing t base offset total (next + slotBlocks k) (inodes + 1) ∧
      t.inodeTable inodes = .zero ∧ recurse (subpath path name) inodes idx t = .ok () s' := by
  obtain ⟨⟨place, i⟩, s1, hentry, hrest⟩ := bind_eq_ok.mp hcall
  obtain ⟨hk, hroom, hinodes, hi, hg1, hd1, hzero, rfl⟩ := openEntry_ok hg hd hidx hentry
  obtain rfl : inodes = i := hi.symm
  obtain ⟨_, t, hwrite, hrecurse⟩ := bind_eq_ok.mp hrest
  obtain ⟨s2, hspec2, hg2, -, -, htable2, -⟩ := writeDirent_spec hg1 hd1 hk inodes name
  rw [hspec2] at hwrite
  cases hwrite
  exact ⟨hk, hinodes, hroom, _, hg2, htable2 ▸ hzero, hrecurse⟩

/-- The directories of a given depth that a program goes on after. -/
def DirHosts (fs : HostFs) (fuel : Nat) : Prop :=
  ∀ {path : CString} {s s' : PopulateState} {base : ByteMem}
    {offset total next inodes idx parent : Nat}, Growing s base offset total next inodes →
    idx < inodes → s.inodeTable idx = .zero →
    bsfsPopulateDir true fs fuel path idx parent s = .ok () s' →
    ∃ dirents tree, fs.opendir path = some dirents ∧ Hosts fs path dirents tree ∧
      tree.depth < fuel ∧ Fits tree total 2 (next + 1) inodes

theorem populateEntries_hosts (hdirs : DirHosts fs fuel) (dirents : List HostDirent)
    (hg : Growing s base offset total next inodes) (hd : DirState s base idx k k next)
    (hidx : idx < inodes)
    (hcall : populateEntries true fs (bsfsPopulateDir true fs fuel) path time idx dirents s =
      .ok () s') :
    ∃ tree, Hosts fs path dirents tree ∧ tree.depth ≤ fuel ∧ Fits tree total k next inodes := by
  induction dirents generalizing s next inodes k with
  | nil =>
    refine ⟨.nil, .nil, Nat.zero_le _, trivial, hd.slots_le, ?_, ?_⟩
    · exact hg.counters.next_le
    · exact hg.counters.inodes_le
  | cons dirent rest ih =>
    obtain ⟨_, s1, hhead, htail⟩ := bind_eq_ok.mp hcall
    unfold populateEntry at hhead
    by_cases hdot : dirent.name = .dot ∨ dirent.name = .dotDot
    · rw [if_pos hdot] at hhead
      obtain ⟨-, rfl⟩ := pure_eq_ok.mp hhead
      obtain ⟨tree, hosts, hdepth, hfits⟩ := ih hg hd hidx htail
      exact ⟨tree, .skip hdot hosts, hdepth, hfits⟩
    · rw [if_neg hdot] at hhead
      cases htype : dirent.type with
      | dir =>
        simp only [htype] at hhead
        obtain ⟨hk, hinodes, hroom, t, hgt, hzero, hrecurse⟩ := populateSubdir_fits hg hd hidx hhead
        obtain ⟨dirents, children, hopen, hchildren, hdepth, hfits⟩ :=
          hdirs hgt (Nat.lt_succ_self inodes) hzero hrecurse
        obtain ⟨fuel, rfl⟩ : ∃ fuel', fuel = fuel' + 1 := ⟨fuel - 1, by omega⟩
        obtain ⟨s2, hspec, hentry, -⟩ := populateSubdir_spec true
          (bsfsPopulateDir true fs (fuel + 1)) path dirent.name hg hd hidx hk hinodes hroom
          fun t hgt hzero => populateDir_spec true hopen (populateEntries_spec true hchildren) hgt
            (Nat.lt_succ_self inodes) hzero (Nat.le_of_lt_succ hdepth) hfits
        rw [hspec] at hhead
        cases hhead
        obtain ⟨tree, hosts, hdepthRest, hrest⟩ :=
          ih hentry.growing hentry.dir (by omega) htail
        refine ⟨.dir dirent.name children tree, .dir hdot htype hopen hchildren hosts, ?_, ?_⟩
        · simp only [HostTree.depth]
          omega
        · obtain ⟨hstorable, hlength, hblocks, hcount⟩ := hrest
          have hlengthChildren := hfits.length
          refine ⟨⟨by omega, hfits.storable, hstorable⟩, ?_, ?_, ?_⟩
          · simp only [HostTree.length]
            omega
          · simp only [HostTree.blocks]
            omega
          · simp only [HostTree.count]
            omega
      | reg =>
        simp only [htype] at hhead
        obtain ⟨hk, hinodes, data, hopen, hmax, hroom⟩ := populateFile_fits hg hd hidx hhead
        obtain ⟨s2, hspec, hentry, -⟩ :=
          populateFile_spec true time hg hd hidx hk hinodes hopen hmax hroom
        rw [hspec] at hhead
        cases hhead
        obtain ⟨tree, hosts, hdepth, hstorable, hlength, hblocks, hcount⟩ :=
          ih hentry.growing hentry.dir (by omega) htail
        have hblock := fileBlock_add (next + slotBlocks k) (fileBlocks data.length)
        refine ⟨.file dirent.name data tree, .file hdot htype hopen hosts, hdepth,
          ⟨hmax, hstorable⟩, ?_, ?_, ?_⟩
        · simp only [HostTree.length]
          omega
        · simp only [HostTree.blocks]
          omega
        · simp only [HostTree.count]
          omega
      | unknown =>
        simp only [htype] at hhead
        exact absurd hhead bsfsPanic_bind_ne_ok
      | other type =>
        simp only [htype] at hhead
        exact absurd hhead bsfsPanic_bind_ne_ok

/-- After a directory the program goes on only if the host showed a tree that fits. -/
theorem populateDir_hosts (fs : HostFs) (fuel : Nat) : DirHosts fs fuel := by
  induction fuel with
  | zero =>
    intro path s s' base offset total next inodes idx parent _ _ _ hcall
    cases hcall
  | succ fuel ih =>
    intro path s s' base offset total next inodes idx parent hg hidx hzero hcall
    have hinodes := hg.counters.inodes_le
    have hcount : idx < s.header.inodeCount := by
      rw [hg.counters.volume.inodeCount]
      omega
    obtain ⟨hopen, hcall⟩ := bsfsPanicIf_bind.mp hcall
    rw [bind_of_ok (modifyInode_of_lt hcount)] at hcall
    change (addLink true idx idx .dot >>= _) (s.setInode idx (dirInode _ (s.inodeTable idx))) = _
      at hcall
    have hg1 := hg.setInode hidx (dirInode (fs.time path).toNat (s.inodeTable idx))
    have hd1 : DirState _ base idx 0 0 next := dirState_start (fs.time path).toNat hzero
    obtain ⟨_, _, hdot, hcall⟩ := bind_eq_ok.mp hcall
    obtain ⟨hg2, hd2⟩ := addLink_ok hg1 hd1 hidx (by omega) hdot
    obtain ⟨_, _, hdotDot, hcall⟩ := bind_eq_ok.mp hcall
    obtain ⟨hg3, hd3⟩ := addLink_ok hg2 hd2 hidx (by omega) hdotDot
    cases hdirents : fs.opendir path with
    | none => exact absurd hdirents hopen
    | some dirents =>
      simp only [hdirents] at hcall
      obtain ⟨tree, hosts, hdepth, hfits⟩ := populateEntries_hosts ih dirents hg3 hd3 hidx hcall
      exact ⟨dirents, tree, rfl, hosts, Nat.lt_succ_of_le hdepth, hfits⟩

end Hosts

end Pristine.Bsfs
