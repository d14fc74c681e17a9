import Pristine.Bsfs.PopulatedImage
import Pristine.Lib.Enumeration

/-!
# The directory entries of a stored tree

A place for an entry is a directory's inode and a slot.  Apart from `"."` and
`".."`, the entries of a stored tree number its inodes one by one
(`EntriesOn.dirents`).
-/

namespace Pristine.Bsfs

open Lib Kernel

/-! ## Entries as bytes -/

/-- `inode` of a directory's entry. -/
def slotInode (img : ByteMem) (dir : BsfsInode) (k : Nat) : Nat := loadLE img (slotAddr dir k) 4

/-- `name` of a directory's entry, up to its terminator. -/
def slotName (img : ByteMem) (dir : BsfsInode) (k : Nat) : List UInt8 :=
  (bytesAt img (slotAddr dir k + 4) bsfsMaxDirentname).takeWhile (· ≠ 0)

/-- Neither `"."` nor `".."`. -/
def Ordinary (name : List UInt8) : Prop := name ≠ CString.dot.bytes ∧ name ≠ CString.dotDot.bytes

section Bytes

variable {img : ByteMem} {dir : BsfsInode} {k inode : Nat} {name : CString}

theorem DirentAt.slotInode (h : DirentAt img dir k inode name) (hinode : inode < 2 ^ 32) :
    slotInode img dir k = inode := by
  refine loadLE_of_bytes hinode fun j hj => ?_
  rw [h j (by omega)]
  unfold direntBytes
  rw [List.append_assoc, List.getD_append _ _ _ _ (by rw [length_leBytes]; exact hj)]
  exact getD_leBytes inode hj

theorem DirentAt.slotName (h : DirentAt img dir k inode name) :
    slotName img dir k = (name.snprintf bsfsMaxDirentname).bytes := by
  have hlength := length_direntBytes inode name
  have hbytes : bytesAt img (slotAddr dir k + 4) bsfsMaxDirentname =
      (direntBytes inode name).drop 4 := by
    refine List.ext_getElem (by simp [hlength, length_bytesAt, bsfsMaxDirentname]) fun j hj _ => ?_
    rw [length_bytesAt] at hj
    have hj : j < 124 := hj
    simp only [bytesAt, List.getElem_map, List.getElem_range, List.getElem_drop]
    rw [Nat.add_assoc, h (4 + j) (by omega), List.getD_eq_getElem]
  have hsplit : (direntBytes inode name).drop 4 = (name.snprintf bsfsMaxDirentname).bytes ++
      List.replicate (bsfsMaxDirentname - (name.snprintf bsfsMaxDirentname).bytes.length) 0 := by
    unfold direntBytes
    rw [List.append_assoc, List.drop_left' (length_leBytes 4 inode)]
  have hnonzero : ∀ c ∈ (name.snprintf bsfsMaxDirentname).bytes, decide (c ≠ 0) = true := by
    intro c hc
    refine decide_eq_true fun hzero => (name.snprintf bsfsMaxDirentname).noNul ?_
    rwa [hzero] at hc
  unfold Bsfs.slotName
  rw [hbytes, hsplit, List.takeWhile_append_of_pos hnonzero]
  simp

/-- Cutting a name off does not make it `"."` or `".."`. -/
theorem ordinary_snprintf_name (hname : ¬ (name = .dot ∨ name = .dotDot)) :
    ¬ (name.snprintf bsfsMaxDirentname = .dot ∨ name.snprintf bsfsMaxDirentname = .dotDot) := by
  have hshort {short : CString} (hlen : short.length < 123)
      (hsame : name.snprintf bsfsMaxDirentname = short) : name = short := by
    have hcut : name.length < bsfsMaxDirentname := by
      have hlength := congrArg CString.length hsame
      unfold CString.length CString.snprintf at *
      rw [List.length_take] at hlength
      unfold bsfsMaxDirentname at *
      omega
    rw [← hsame, CString.snprintf_of_lt hcut]
  exact fun hdots => hname (hdots.imp (hshort (by decide)) (hshort (by decide)))

theorem ordinary_snprintf (hname : ¬ (name = .dot ∨ name = .dotDot)) :
    Ordinary (name.snprintf bsfsMaxDirentname).bytes := by
  have hbytes {s t : CString} (hsame : s.bytes = t.bytes) : s = t := by
    cases s
    cases t
    simpa using hsame
  obtain ⟨hdot, hdotDot⟩ := not_or.mp (ordinary_snprintf_name hname)
  exact ⟨fun hsame => hdot (hbytes hsame), fun hsame => hdotDot (hbytes hsame)⟩

end Bytes

/-! ## The entries of a tree -/

/-- No entry of a tree is called `"."` or `".."`. -/
def HostTree.NoDots : HostTree → Prop
  | .nil => True
  | .file name _ rest => ¬ (name = .dot ∨ name = .dotDot) ∧ rest.NoDots
  | .dir name children rest => ¬ (name = .dot ∨ name = .dotDot) ∧ children.NoDots ∧ rest.NoDots

theorem Hosts.noDots {fs : HostFs} {path : CString} {dirents : List HostDirent} {tree : HostTree}
    (h : Hosts fs path dirents tree) : tree.NoDots := by
  induction h with
  | nil => trivial
  | skip _ _ ih => exact ih
  | file hdot _ _ _ ih => exact ⟨hdot, ih⟩
  | dir hdot _ _ _ _ ihchildren ih => exact ⟨hdot, ihchildren, ih⟩

/-- The number of entries of a directory. -/
def BsfsInode.entries (i : BsfsInode) : Nat := i.size / sizeofBsfsDirent

section Dirents

variable {img base : ByteMem} {table : Nat → BsfsInode} {dir : BsfsInode} {tree : HostTree}
variable {own parent k next n entries low high : Nat}

theorem DirOn.entries_eq (hdir : DirOn img base dir own parent entries low high) :
    dir.entries = entries := by
  unfold BsfsInode.entries
  rw [hdir.size]
  exact Nat.mul_div_cancel_left entries (by decide)

/-- The places behind `"."` and `".."` in the directories among the inodes `[n, m)`. -/
def rangeDirents (table : Nat → BsfsInode) (n m : Nat) : Set (Nat × Nat) :=
  { p | n ≤ p.1 ∧ p.1 < m ∧ (table p.1).type = bsfsInodeTypeDirectory ∧ 2 ≤ p.2 ∧
    p.2 < (table p.1).entries }

/-- The places of the entries of a tree: slots of the directory `own` from `k` on, and those in the
directories of the tree. -/
def treeDirents (table : Nat → BsfsInode) (tree : HostTree) (own k n : Nat) : Set (Nat × Nat) :=
  { p | p.1 = own ∧ k ≤ p.2 ∧ p.2 < k + tree.length } ∪ rangeDirents table n (n + tree.count)

/-- The places of the entries of a tree: the first one, those in its inodes `[n, m)`, and the rest. -/
theorem treeDirents_cons {rest : HostTree} {m : Nat} (hlength : tree.length = rest.length + 1)
    (hcount : n + tree.count = m + rest.count) (hm : n ≤ m) :
    treeDirents table tree own k n =
      {(own, k)} ∪ rangeDirents table n m ∪ treeDirents table rest own (k + 1) m := by
  ext ⟨d, j⟩
  simp only [treeDirents, rangeDirents, Set.mem_union, Set.mem_ofPred_eq, Set.mem_singleton_iff,
    Prod.mk.injEq]
  constructor
  · rintro (⟨hown, hlo, hhi⟩ | ⟨hlo, hhi, hslot⟩)
    · by_cases hfirst : j = k
      · exact Or.inl (Or.inl ⟨hown, hfirst⟩)
      · exact Or.inr (Or.inl ⟨hown, by omega, by omega⟩)
    · by_cases hfirst : d < m
      · exact Or.inl (Or.inr ⟨hlo, hfirst, hslot⟩)
      · exact Or.inr (Or.inr ⟨by omega, by omega, hslot⟩)
  · rintro ((⟨hown, hfirst⟩ | ⟨hlo, hhi, hslot⟩) | (⟨hown, hlo, hhi⟩ | ⟨hlo, hhi, hslot⟩))
    · exact Or.inl ⟨hown, by omega, by omega⟩
    · exact Or.inr ⟨hlo, by omega, hslot⟩
    · exact Or.inl ⟨hown, by omega, by omega⟩
    · exact Or.inr ⟨by omega, by omega, hslot⟩

theorem rangeDirents_file (htype : (table n).type = bsfsInodeTypeFile) :
    rangeDirents table n (n + 1) = ∅ := by
  ext ⟨d, j⟩
  simp only [rangeDirents, Set.mem_ofPred_eq, Set.mem_empty_iff_false, iff_false]
  rintro ⟨hlo, hhi, hdir, -⟩
  rw [show d = n by omega, htype] at hdir
  exact absurd hdir (by decide)

theorem rangeDirents_dir {children : HostTree}
    (hdir : DirOn img base (table n) n parent (2 + children.length) low high) :
    rangeDirents table n (n + 1 + children.count) = treeDirents table children n 2 (n + 1) := by
  ext ⟨d, j⟩
  have hentries := hdir.entries_eq
  simp only [treeDirents, rangeDirents, Set.mem_union, Set.mem_ofPred_eq]
  constructor
  · rintro ⟨hlo, hhi, htype, htwo, hslot⟩
    by_cases hown : d = n
    · rw [hown] at hslot
      exact Or.inl ⟨hown, htwo, by omega⟩
    · exact Or.inr ⟨by omega, hhi, htype, htwo, hslot⟩
  · rintro (⟨rfl, htwo, hhi⟩ | ⟨hlo, hhi, hslot⟩)
    · exact ⟨le_rfl, by omega, hdir.type, htwo, by omega⟩
    · exact ⟨by omega, hhi, hslot⟩

theorem treeDirents_file {name : CString} {data : List UInt8} {rest : HostTree}
    (htype : (table n).type = bsfsInodeTypeFile) :
    treeDirents table (.file name data rest) own k n =
      {(own, k)} ∪ treeDirents table rest own (k + 1) (n + 1) := by
  have hend : n + (HostTree.file name data rest).count = n + 1 + rest.count := by
    rw [HostTree.count]
    omega
  rw [treeDirents_cons (by rw [HostTree.length]) hend (by omega), rangeDirents_file htype,
    Set.union_empty]

theorem treeDirents_dir {name : CString} {children rest : HostTree}
    (hdir : DirOn img base (table n) n parent (2 + children.length) low high) :
    treeDirents table (.dir name children rest) own k n =
      {(own, k)} ∪ treeDirents table children n 2 (n + 1) ∪
        treeDirents table rest own (k + 1) (n + 1 + children.count) := by
  have hend : n + (HostTree.dir name children rest).count = n + 1 + children.count + rest.count := by
    rw [HostTree.count]
    omega
  rw [treeDirents_cons (by rw [HostTree.length]) hend (by omega), rangeDirents_dir hdir]

/-- The entries of a stored tree number its inodes. -/
theorem EntriesOn.dirents (h : EntriesOn img base table tree (table own) own k next n)
    (hcount : n + tree.count ≤ 2 ^ 32) :
    Set.BijOn (fun p => slotInode img (table p.1) p.2) (treeDirents table tree own k n)
      (Set.Ico n (n + tree.count)) := by
  induction tree generalizing own k next n with
  | nil =>
    have hnone : treeDirents table .nil own k n = ∅ := by
      ext ⟨d, j⟩
      simp only [treeDirents, rangeDirents, HostTree.length, HostTree.count, Set.mem_union,
        Set.mem_ofPred_eq, Set.mem_empty_iff_false, iff_false]
      omega
    rw [hnone]
    exact bijOn_Ico_empty _ _
  | file name data rest ih =>
    obtain ⟨hslot, hinode, -, hrest⟩ := h
    simp only [HostTree.count] at hcount
    have hfirst := bijOn_Ico_single (f := fun p : Nat × Nat => slotInode img (table p.1) p.2)
      (x := (own, k)) (hslot.dirent.slotInode (by omega))
    have hend : n + (HostTree.file name data rest).count = n + 1 + rest.count := by
      rw [HostTree.count]
      omega
    rw [treeDirents_file hinode.type, hend]
    exact bijOn_Ico_union hfirst (ih hrest (by omega)) (by omega) (by omega)
  | dir name children rest ihchildren ihrest =>
    obtain ⟨hslot, hdir, hchildren, hrest⟩ := h
    simp only [HostTree.count] at hcount
    have hfirst := bijOn_Ico_single (f := fun p : Nat × Nat => slotInode img (table p.1) p.2)
      (x := (own, k)) (hslot.dirent.slotInode (by omega))
    have hend : n + (HostTree.dir name children rest).count = n + 1 + children.count + rest.count := by
      rw [HostTree.count]
      omega
    rw [treeDirents_dir hdir, hend]
    exact bijOn_Ico_union (bijOn_Ico_union hfirst (ihchildren hchildren (by omega)) (by omega)
      (by omega)) (ihrest hrest (by omega)) (by omega) (by omega)

/-- They have ordinary names. -/
theorem EntriesOn.ordinary (h : EntriesOn img base table tree (table own) own k next n)
    (hnames : tree.NoDots) {p : Nat × Nat} (hp : p ∈ treeDirents table tree own k n) :
    Ordinary (slotName img (table p.1) p.2) := by
  induction tree generalizing own k next n with
  | nil =>
    simp only [treeDirents, rangeDirents, HostTree.length, HostTree.count, Set.mem_union,
      Set.mem_ofPred_eq] at hp
    omega
  | file name data rest ih =>
    obtain ⟨hslot, hinode, -, hrest⟩ := h
    obtain ⟨hname, hnames⟩ := hnames
    rw [treeDirents_file hinode.type] at hp
    rcases hp with rfl | hp
    · rw [hslot.dirent.slotName]
      exact ordinary_snprintf hname
    · exact ih hrest hnames hp
  | dir name children rest ihchildren ihrest =>
    obtain ⟨hslot, hdir, hchildren, hrest⟩ := h
    obtain ⟨hname, hnamesChildren, hnames⟩ := hnames
    rw [treeDirents_dir hdir] at hp
    rcases hp with (rfl | hp) | hp
    · rw [hslot.dirent.slotName]
      exact ordinary_snprintf hname
    · exact ihchildren hchildren hnamesChildren hp
    · exact ihrest hrest hnames hp

/-- Every directory of a stored tree is in place. -/
theorem EntriesOn.dirOn (h : EntriesOn img base table tree dir own k next n) {d : Nat} (hlo : n ≤ d)
    (hhi : d < n + tree.count) (htype : (table d).type = bsfsInodeTypeDirectory) :
    ∃ parent entries low high, DirOn img base (table d) d parent entries low high := by
  induction tree generalizing dir own k next n with
  | nil =>
    rw [HostTree.count] at hhi
    omega
  | file name data rest ih =>
    obtain ⟨-, hinode, -, hrest⟩ := h
    rw [HostTree.count] at hhi
    by_cases hfirst : d = n
    · rw [hfirst, hinode.type] at htype
      exact absurd htype (by decide)
    · exact ih hrest (by omega) (by omega)
  | dir name children rest ihchildren ihrest =>
    obtain ⟨-, hdir, hchildren, hrest⟩ := h
    rw [HostTree.count] at hhi
    by_cases hfirst : d = n
    · rw [hfirst]
      exact ⟨_, _, _, _, hdir⟩
    · by_cases hinside : d < n + 1 + children.count
      · exact ihchildren hchildren (by omega) (by omega)
      · exact ihrest hrest (by omega) (by omega)

/-- The first two entries of a directory are the only ones without ordinary names. -/
theorem DirOn.not_ordinary (hdir : DirOn img base dir own parent entries low high) {j : Nat}
    (hj : j < 2) : ¬ Ordinary (slotName img dir j) := by
  rintro ⟨hdot, hdotDot⟩
  have hcases : j = 0 ∨ j = 1 := by omega
  rcases hcases with rfl | rfl
  · exact hdot (hdir.dot.slotName.trans rfl)
  · exact hdotDot (hdir.dotDot.slotName.trans rfl)

end Dirents

end Pristine.Bsfs
