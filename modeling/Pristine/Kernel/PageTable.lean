import Pristine.Kernel.Vmm
import Pristine.Lib.RadixTree

/-!
# Page tables as trees

The tables below a root are the nodes of a pointer tree in physical memory.
`tableAt` finds the table behind a path of indices and `entryAt` an entry of it;
together they describe the tree without addresses.  `PageTree` says that the
tables of a domain of paths are distinct, page aligned, and marked as used in
the page allocator.

Three changes of physical memory are described once each: a new table is hung
below an empty entry (`createTable`), an entry that leads to no table is written
(`storeLeaf`), and an entry of the domain is made to point to a fresh frame
or to nothing (`storeInside`).
-/

namespace Pristine.Kernel

open Lib

/-! ## Entries -/

theorem frame_eq_of_aligned {f : Nat} (haligned : f % pageSize = 0) :
    f / pageSize * pageSize = f := by
  rw [Nat.mul_comm]
  exact Nat.mul_div_cancel' (Nat.dvd_of_mod_eq_zero haligned)

/-- A page-aligned address with 52 bits is untouched by the address mask. -/
theorem and_pteAddrMask_of_aligned {phys : Nat} (haligned : phys % pageSize = 0)
    (hwidth : phys < 2 ^ 52) : phys &&& pteAddrMask = phys := by
  obtain ⟨k, rfl⟩ : ∃ k, phys = k <<< 12 := by
    refine ⟨phys / 4096, ?_⟩
    unfold pageSize at haligned
    rw [Nat.shiftLeft_eq]
    omega
  have hk : k < 2 ^ 40 := by
    rw [Nat.shiftLeft_eq] at hwidth
    omega
  rw [show pteAddrMask = (2 ^ 40 - 1) <<< 12 by decide, ← Nat.shiftLeft_and_distrib,
    Nat.and_two_pow_sub_one_eq_mod, Nat.mod_eq_of_lt hk]

/-- A page-aligned address has no bits below the page size. -/
theorem aligned_and_low {phys low : Nat} (haligned : phys % pageSize = 0)
    (hlow : low < pageSize) : phys &&& low = 0 := by
  obtain ⟨k, rfl⟩ : ∃ k, phys = 2 ^ 12 * k := by
    refine ⟨phys / 4096, ?_⟩
    unfold pageSize at haligned
    omega
  apply Nat.eq_of_testBit_eq
  intro i
  rw [Nat.testBit_and, Nat.zero_testBit, Nat.testBit_two_pow_mul]
  by_cases hi : 12 ≤ i
  · have hpow : 2 ^ 12 ≤ 2 ^ i := Nat.pow_le_pow_right (by omega) hi
    rw [Nat.testBit_lt_two_pow (Nat.lt_of_lt_of_le hlow hpow), Bool.and_false]
  · simp [hi]

/-- The address in an entry built by OR-ing flags to an address. -/
theorem or_and_pteAddrMask {phys flags : Nat} (haligned : phys % pageSize = 0)
    (hwidth : phys < 2 ^ 52) (hflags : flags &&& pteAddrMask = 0) :
    (phys ||| flags) &&& pteAddrMask = phys := by
  rw [Nat.and_or_distrib_right, and_pteAddrMask_of_aligned haligned hwidth, hflags,
    Nat.or_zero]

/-- The low bits of such an entry are the flags'. -/
theorem or_and_low {phys flags low : Nat} (haligned : phys % pageSize = 0)
    (hlow : low < pageSize) : (phys ||| flags) &&& low = flags &&& low := by
  rw [Nat.and_or_distrib_right, aligned_and_low haligned hlow, Nat.zero_or]

/-- The address in an entry is page aligned. -/
theorem and_pteAddrMask_aligned (entry : Nat) : (entry &&& pteAddrMask) % pageSize = 0 := by
  rw [show pageSize = 2 ^ 12 by decide]
  apply Nat.eq_of_testBit_eq
  intro i
  rw [Nat.testBit_mod_two_pow, Nat.testBit_and, Nat.zero_testBit,
    show pteAddrMask = 2 ^ 12 * (2 ^ 40 - 1) by decide, Nat.testBit_two_pow_mul]
  by_cases hi : i < 12
  · simp [hi, show ¬ 12 ≤ i by omega]
  · simp [hi]

/-- The child an entry points to; empty entries and page mappings have none. -/
def childTable (entry : Nat) : Option Nat :=
  if entry = 0 ∨ entry &&& vmmPageSizeFlag ≠ 0 then none else some (entry &&& pteAddrMask)

@[simp] theorem childTable_zero : childTable 0 = none := rfl

theorem childTable_of_ne {entry : Nat} (hne : entry ≠ 0) (hsize : entry &&& vmmPageSizeFlag = 0) :
    childTable entry = some (entry &&& pteAddrMask) := by
  unfold childTable
  rw [if_neg (by simp [hne, hsize])]

/-- What an entry that points to a table or page says about it. -/
structure TableLink (entry frame : Nat) : Prop where
  child : childTable entry = some frame
  lt : entry < 2 ^ 64
  ne_zero : entry ≠ 0
  present : entry &&& vmmFlagsPresent ≠ 0
  not_page : entry &&& vmmPageSizeFlag = 0
  addr : entry &&& pteAddrMask = frame

/-- Flags that leave the address bits and the page-size bit alone and mark the
entry present. -/
structure LinkFlags (flags : Nat) : Prop where
  mask : flags &&& pteAddrMask = 0
  present : flags &&& vmmFlagsPresent ≠ 0
  not_page : flags &&& vmmPageSizeFlag = 0
  lt : flags < 2 ^ 64

theorem tableFlags_linkFlags (flags : Nat) : LinkFlags (tableFlags flags) := by
  unfold tableFlags
  split
  · exact ⟨by decide, by decide, by decide, by decide⟩
  · exact ⟨by decide, by decide, by decide, by decide⟩

theorem tableLink_or {frame flags : Nat} (haligned : frame % pageSize = 0)
    (hframe : frame < 2 ^ 52) (hflags : LinkFlags flags) : TableLink (frame ||| flags) frame := by
  have haddr := or_and_pteAddrMask haligned hframe hflags.mask
  have hpresent : (frame ||| flags) &&& vmmFlagsPresent ≠ 0 := by
    rw [or_and_low haligned (by decide)]
    exact hflags.present
  have hpage : (frame ||| flags) &&& vmmPageSizeFlag = 0 := by
    rw [or_and_low haligned (by decide)]
    exact hflags.not_page
  have hne : frame ||| flags ≠ 0 := by
    intro hzero
    rw [hzero] at hpresent
    exact hpresent rfl
  refine ⟨?_, ?_, hne, hpresent, hpage, haddr⟩
  · rw [childTable_of_ne hne hpage, haddr]
  · exact Nat.or_lt_two_pow (Nat.lt_of_lt_of_le hframe (by decide)) hflags.lt

/-! ## Tables and entries by path -/

/-- The table behind a path of indices. -/
def tableAt (mem : ByteMem) (root : Nat) (path : List (Fin 512)) : Option Nat :=
  follow childTable (fun table (i : Fin 512) => tableEntry mem table i) root path

/-- Entry `i` of the table behind a path, zero where there is no table. -/
def entryAt (mem : ByteMem) (root : Nat) (path : List (Fin 512)) (i : Fin 512) : Nat :=
  match tableAt mem root path with
  | some table => tableEntry mem table i
  | none => 0

@[simp] theorem tableAt_nil (mem : ByteMem) (root : Nat) : tableAt mem root [] = some root := rfl

theorem entryAt_of_tableAt {mem : ByteMem} {root table : Nat} {path : List (Fin 512)}
    (htable : tableAt mem root path = some table) (i : Fin 512) :
    entryAt mem root path i = tableEntry mem table i := by
  unfold entryAt
  rw [htable]

theorem entryAt_of_none {mem : ByteMem} {root : Nat} {path : List (Fin 512)}
    (htable : tableAt mem root path = none) (i : Fin 512) : entryAt mem root path i = 0 := by
  unfold entryAt
  rw [htable]

/-- The entries determine the tables. -/
theorem tableAt_snoc (mem : ByteMem) (root : Nat) (path : List (Fin 512)) (i : Fin 512) :
    tableAt mem root (path ++ [i]) = childTable (entryAt mem root path i) := by
  unfold tableAt entryAt
  rw [follow_snoc]
  unfold tableAt
  cases follow childTable (fun table (i : Fin 512) => tableEntry mem table i) root path with
  | none => rfl
  | some table => simp only [Option.bind_some]

theorem tableAt_append_of_none {mem : ByteMem} {root : Nat} {path : List (Fin 512)}
    (hnone : tableAt mem root path = none) (rest : List (Fin 512)) :
    tableAt mem root (path ++ rest) = none := by
  unfold tableAt at *
  rw [follow_append, hnone]
  rfl

/-- The path of indices of a virtual address. -/
def pathOf (virt : Nat) : List (Fin 512) :=
  [pml4Idx virt, pdptIdx virt, pdIdx virt, ptIdx virt]

/-! ## The tree invariant -/

/-- The frames found on a domain of paths form a tree of page-aligned frames
that the page allocator counts as used. -/
structure PageTree (P : List (Fin 512) → Prop) (m : Machine) (root : Nat) : Prop where
  unique : UniquePaths childTable (fun table (i : Fin 512) => tableEntry m.mem table i) P root
  aligned : ∀ q t, P q → tableAt m.mem root q = some t → t % pageSize = 0
  small : ∀ q t, P q → tableAt m.mem root q = some t → t / pageSize < 2 ^ 32
  used : ∀ q t, P q → tableAt m.mem root q = some t →
    bitAt m.pmm.bitmap (t / pageSize) = true

/-- Frames on different paths are different pages. -/
theorem PageTree.path_eq {P : List (Fin 512) → Prop} {m : Machine} {root t u : Nat}
    {p q : List (Fin 512)} (htree : PageTree P m root) (hp : P p) (hq : P q)
    (ht : tableAt m.mem root p = some t) (hu : tableAt m.mem root q = some u)
    (heq : t / pageSize = u / pageSize) : p = q := by
  rw [← frame_eq_of_aligned (htree.aligned p t hp ht), heq,
    frame_eq_of_aligned (htree.aligned q u hq hu)] at ht
  exact htree.unique p q u hp hq ht hu

/-- The used frames are the frames on the domain and a background set `B`. -/
def Balanced (P : List (Fin 512) → Prop) (B : Nat → Prop) (m : Machine) (root : Nat) : Prop :=
  ∀ i, bitAt m.pmm.bitmap i = true ↔
    B i ∨ ∃ q, P q ∧ tableAt m.mem root q = some (i * pageSize)

/-- A root table without entries, marked as used. -/
structure EmptyRoot (m : Machine) (root : Nat) : Prop where
  aligned : root % pageSize = 0
  small : root / pageSize < 2 ^ 32
  used : bitAt m.pmm.bitmap (root / pageSize) = true
  empty : ∀ j : Fin 512, tableEntry m.mem root j = 0

section Changes

variable {P : List (Fin 512) → Prop} {m : Machine} {root t0 : Nat}
variable {p₀ : List (Fin 512)} {i₀ : Fin 512}

/-- Below an empty entry there is no table. -/
theorem tableAt_below_empty {mem : ByteMem} (hempty : childTable (entryAt mem root p₀ i₀) = none)
    {q : List (Fin 512)} (hpre : (p₀ ++ [i₀]) <+: q) : tableAt mem root q = none := by
  obtain ⟨rest, rfl⟩ := hpre
  apply tableAt_append_of_none
  rw [tableAt_snoc, hempty]

namespace EmptyRoot

theorem tableAt_eq_none (hroot : EmptyRoot m root) {q : List (Fin 512)} (hq : q ≠ []) :
    tableAt m.mem root q = none := by
  cases q with
  | nil => exact absurd rfl hq
  | cons i rest =>
    have hpre : ([] ++ [i]) <+: i :: rest := ⟨rest, rfl⟩
    refine tableAt_below_empty ?_ hpre
    rw [entryAt_of_tableAt (tableAt_nil _ _), hroot.empty, childTable_zero]

/-- The root is the only table. -/
theorem tableAt_eq_some (hroot : EmptyRoot m root) {q : List (Fin 512)} {t : Nat}
    (ht : tableAt m.mem root q = some t) : q = [] ∧ t = root := by
  by_cases hq : q = []
  · subst hq
    exact ⟨rfl, (Option.some.inj ht).symm⟩
  · rw [hroot.tableAt_eq_none hq] at ht
    cases ht

theorem entryAt_eq_zero (hroot : EmptyRoot m root) (q : List (Fin 512)) (j : Fin 512) :
    entryAt m.mem root q j = 0 := by
  by_cases hq : q = []
  · subst hq
    rw [entryAt_of_tableAt (tableAt_nil _ _), hroot.empty]
  · exact entryAt_of_none (hroot.tableAt_eq_none hq) j

theorem tree (hroot : EmptyRoot m root) (P : List (Fin 512) → Prop) : PageTree P m root := by
  refine ⟨?_, ?_, ?_, ?_⟩
  · intro p q t _ _ hp hq
    rw [(hroot.tableAt_eq_some hp).1, (hroot.tableAt_eq_some hq).1]
  · intro q t _ ht
    rw [(hroot.tableAt_eq_some ht).2]
    exact hroot.aligned
  · intro q t _ ht
    rw [(hroot.tableAt_eq_some ht).2]
    exact hroot.small
  · intro q t _ ht
    rw [(hroot.tableAt_eq_some ht).2]
    exact hroot.used

end EmptyRoot

/-! ### A new table -/

/-- Memory after a new table was linked and zeroed. -/
def linkedMem (mem : ByteMem) (table : Nat) (idx : Fin 512) (frame iflags : Nat) : ByteMem :=
  fill (storeLE mem (table + 8 * idx) 8 (frame ||| iflags)) frame pageSize 0

/-- The machine after a new table was taken from the allocator and linked. -/
def linkedMachine (m : Machine) (table : Nat) (idx : Fin 512) (frame iflags : Nat)
    (log : List Access) : Machine where
  pmm := { m.pmm with bitmap := bitmapSet m.pmm.bitmap (frame / pageSize) }
  mem := linkedMem m.mem table idx frame iflags
  log := log

/-- What the new table changes and what it leaves. -/
structure Created (P : List (Fin 512) → Prop) (root : Nat) (p₀ : List (Fin 512)) (i₀ : Fin 512)
    (frame value : Nat) (m m' : Machine) : Prop where
  tree : PageTree P m' root
  balanced : ∀ B, Balanced P B m root → Balanced P B m' root
  table : tableAt m'.mem root (p₀ ++ [i₀]) = some frame
  keep : ∀ q t, P q → tableAt m.mem root q = some t → tableAt m'.mem root q = some t
  back : ∀ q t, P q → tableAt m'.mem root q = some t →
    t = frame ∨ tableAt m.mem root q = some t
  memory : ∀ a, bitAt m.pmm.bitmap (a / pageSize) = true →
    (∀ q t, P q → tableAt m.mem root q = some t → a / pageSize ≠ t / pageSize) →
    m'.mem a = m.mem a
  entries : ∀ q j, P q →
    entryAt m'.mem root q j = if q = p₀ ∧ j = i₀ then value else entryAt m.mem root q j

theorem tableEntry_linkedMem (mem : ByteMem) (i₀ j : Fin 512) {frame iflags t : Nat}
    (ht : t % pageSize = 0) (ht0 : t0 % pageSize = 0) (hframe : frame % pageSize = 0)
    (hvalue : frame ||| iflags < 2 ^ 64) :
    tableEntry (linkedMem mem t0 i₀ frame iflags) t j =
      if t = frame then 0
      else if t = t0 ∧ j = i₀ then frame ||| iflags
      else tableEntry mem t j := by
  unfold linkedMem
  rw [tableEntry_fill _ j.isLt ht hframe, tableEntry_store _ j.isLt i₀.isLt ht ht0 hvalue]
  simp only [Fin.ext_iff]

/-- Where a path still leads to the same table, only the written entry can
differ. -/
private theorem entryAt_changed {mem' : ByteMem} {value : Nat} (htree : PageTree P m root)
    (hp0 : P p₀) (hnode : tableAt m.mem root p₀ = some t0) {q : List (Fin 512)} (hq : P q)
    (hsame : tableAt mem' root q = tableAt m.mem root q) (j : Fin 512)
    (hentry : ∀ t, tableAt m.mem root q = some t →
      tableEntry mem' t j = if t = t0 ∧ j = i₀ then value else tableEntry m.mem t j) :
    entryAt mem' root q j = if q = p₀ ∧ j = i₀ then value else entryAt m.mem root q j := by
  cases ht : tableAt m.mem root q with
  | none =>
    rw [entryAt_of_none (hsame.trans ht), entryAt_of_none ht, if_neg]
    rintro ⟨rfl, -⟩
    rw [hnode] at ht
    cases ht
  | some t =>
    have hboth : t = t0 ↔ q = p₀ := by
      refine ⟨fun h => htree.unique q p₀ t hq hp0 ht (h ▸ hnode), fun h => ?_⟩
      rw [h, hnode] at ht
      exact (Option.some.inj ht).symm
    rw [entryAt_of_tableAt (hsame.trans ht), entryAt_of_tableAt ht, hentry t ht]
    simp only [hboth]

/-- A frame that may become a new leaf of the domain. -/
structure FreshFrame (P : List (Fin 512) → Prop) (m : Machine) (root frame : Nat) : Prop where
  aligned : frame % pageSize = 0
  small : frame / pageSize < 2 ^ 32
  used : bitAt m.pmm.bitmap (frame / pageSize) = true
  unreached : ∀ q, P q → tableAt m.mem root q ≠ some frame

/-- An entry is written that leads to a table without children, to a frame or nowhere, and nothing was
below it. -/
theorem PageTree.link (m' : Machine) (value : Nat) (hclosed : PrefixClosed P)
    (htree : PageTree P m root) (hp0 : P p₀) (hnode : tableAt m.mem root p₀ = some t0)
    (hentry : ∀ q t (j : Fin 512), P q → tableAt m.mem root q = some t →
      tableEntry m'.mem t j = if t = t0 ∧ j = i₀ then value else tableEntry m.mem t j)
    (hchildless : ∀ f (j : Fin 512), childTable value = some f → P (p₀ ++ [i₀] ++ [j]) →
      childTable (tableEntry m'.mem f j) = none)
    (hbelow : ∀ q, P q → (p₀ ++ [i₀]) <+: q → q ≠ p₀ ++ [i₀] → tableAt m.mem root q = none)
    (hfresh : ∀ f, childTable value = some f → FreshFrame P { m with pmm := m'.pmm } root f)
    (hused : ∀ q t, P q → tableAt m.mem root q = some t → bitAt m'.pmm.bitmap (t / pageSize) = true) :
    PageTree P m' root ∧
      (∀ q, P q → tableAt m'.mem root q =
        if q = p₀ ++ [i₀] then childTable value else tableAt m.mem root q) ∧
      ∀ q j, P q → q ≠ p₀ ++ [i₀] → entryAt m'.mem root q j =
        if q = p₀ ∧ j = i₀ then value else entryAt m.mem root q j := by
  classical
  have hat0 : tableEntry m'.mem t0 i₀ = value := by
    rw [hentry p₀ t0 i₀ hp0 hnode, if_pos ⟨rfl, rfl⟩]
  have hagree : ∀ p (j : Fin 512) t, P (p ++ [j]) → tableAt m.mem root p = some t →
      t ≠ t0 ∨ j ≠ i₀ → childTable (tableEntry m'.mem t j) = childTable (tableEntry m.mem t j) := by
    intro p j t hpj ht hother
    rw [hentry p t j (hclosed p j hpj) ht, if_neg (not_and_or.mpr hother)]
  rw [← hat0] at hchildless
  have hall : ∀ q, P q → tableAt m'.mem root q =
      if q = p₀ ++ [i₀] then childTable value else tableAt m.mem root q := by
    intro q hq
    have hlinked := follow_link hclosed htree.unique hp0 hnode hagree hchildless q hq
    unfold tableAt
    rw [hlinked, hat0]
    split_ifs with h1 h2
    · rfl
    · exact (hbelow q hq h2 h1).symm
    · rfl
  have hback : ∀ q t, P q → tableAt m'.mem root q = some t →
      FreshFrame P { m with pmm := m'.pmm } root t ∨ tableAt m.mem root q = some t := by
    intro q t hq ht
    rw [hall q hq] at ht
    split_ifs at ht with h1
    · exact Or.inl (hfresh t ht)
    · exact Or.inr ht
  refine ⟨⟨?_, ?_, ?_, ?_⟩, hall, ?_⟩
  · refine htree.unique.link hclosed hp0 hnode hagree hchildless ?_
    intro f q hf hq
    rw [hat0] at hf
    exact (hfresh f hf).unreached q hq
  · intro q t hq ht
    rcases hback q t hq ht with hnew | hold
    · exact hnew.aligned
    · exact htree.aligned q t hq hold
  · intro q t hq ht
    rcases hback q t hq ht with hnew | hold
    · exact hnew.small
    · exact htree.small q t hq hold
  · intro q t hq ht
    rcases hback q t hq ht with hnew | hold
    · exact hnew.used
    · exact hused q t hq hold
  · intro q j hq hne
    exact entryAt_changed htree hp0 hnode hq (by rw [hall q hq, if_neg hne]) j
      fun t ht => hentry q t j hq ht

/-- Hanging a zeroed table below an empty entry. -/
theorem createTable (hclosed : PrefixClosed P) (htree : PageTree P m root) (hp0 : P p₀)
    (hpi : P (p₀ ++ [i₀])) (hnode : tableAt m.mem root p₀ = some t0)
    (hempty : tableEntry m.mem t0 i₀ = 0) {idx iflags : Nat} (hidx : idx < 2 ^ 32)
    (hfree : bitAt m.pmm.bitmap idx = false) (hiflags : LinkFlags iflags) (log : List Access) :
    Created P root p₀ i₀ (idx * pageSize) (idx * pageSize ||| iflags) m
      (linkedMachine m t0 i₀ (idx * pageSize) iflags log) := by
  have halign : idx * pageSize % pageSize = 0 := Nat.mul_mod_left idx pageSize
  have hdiv : idx * pageSize / pageSize = idx := Nat.mul_div_cancel idx (by decide)
  have hwidth : idx * pageSize < 2 ^ 52 := by
    unfold pageSize
    omega
  have hlink := tableLink_or halign hwidth hiflags
  -- the new frame is none of the tables, because those are marked as used
  have hfresh : ∀ q t, P q → tableAt m.mem root q = some t → t ≠ idx * pageSize := by
    rintro q t hq ht rfl
    have hused := htree.used q _ hq ht
    rw [hdiv, hfree] at hused
    exact Bool.false_ne_true hused
  have ht0 : t0 % pageSize = 0 := htree.aligned p₀ t0 hp0 hnode
  obtain ⟨m', hm'⟩ : ∃ m', m' = linkedMachine m t0 i₀ (idx * pageSize) iflags log := ⟨_, rfl⟩
  have hmem : m'.mem = linkedMem m.mem t0 i₀ (idx * pageSize) iflags := by rw [hm', linkedMachine]
  have hpmm : m'.pmm.bitmap = bitmapSet m.pmm.bitmap idx := by rw [hm', linkedMachine, hdiv]
  have hentry {t : Nat} {j : Fin 512} (ht : t % pageSize = 0) := hmem ▸
    tableEntry_linkedMem m.mem i₀ j ht ht0 halign hlink.lt
  rw [← hm']
  have hbelow : childTable (entryAt m.mem root p₀ i₀) = none := by
    rw [entryAt_of_tableAt hnode, hempty, childTable_zero]
  obtain ⟨htree', hall, hentries⟩ := htree.link m' (idx * pageSize ||| iflags) hclosed hp0
    hnode
    (fun q t j hq ht => by rw [hentry (htree.aligned q t hq ht), if_neg (hfresh q t hq ht)])
    (fun f j hf _ => by
      cases hlink.child.symm.trans hf
      rw [hentry halign, if_pos rfl, childTable_zero])
    (fun q _ hpre _ => tableAt_below_empty hbelow hpre)
    (fun f hf => by
      cases hlink.child.symm.trans hf
      exact ⟨halign, by rwa [hdiv], by simp [hpmm, bitAt_bitmapSet, hdiv],
        fun q hq ht => hfresh q _ hq ht rfl⟩)
    fun q t hq ht => by rw [hpmm, bitAt_bitmapSet, htree.used q t hq ht, Bool.or_true]
  rw [hlink.child] at hall
  have htable : tableAt m'.mem root (p₀ ++ [i₀]) = some (idx * pageSize) := by
    rw [hall _ hpi, if_pos rfl]
  have hkeep : ∀ q t, P q → tableAt m.mem root q = some t →
      tableAt m'.mem root q = some t := by
    intro q t hq ht
    rw [hall q hq, if_neg, ht]
    rintro rfl
    rw [tableAt_below_empty hbelow (List.prefix_refl _)] at ht
    cases ht
  have hback : ∀ q t, P q →
      tableAt m'.mem root q = some t →
      t = idx * pageSize ∨ tableAt m.mem root q = some t := by
    intro q t hq ht
    rw [hall q hq] at ht
    split_ifs at ht with h1
    · exact Or.inl (Option.some.inj ht).symm
    · exact Or.inr ht
  refine ⟨htree', ?_, htable, hkeep, hback, ?_, ?_⟩
  · intro B hbal i
    rw [hpmm, bitAt_bitmapSet, Bool.or_eq_true, decide_eq_true_eq, hbal i]
    constructor
    · rintro (rfl | hB | ⟨q, hq, ht⟩)
      · exact Or.inr ⟨_, hpi, htable⟩
      · exact Or.inl hB
      · exact Or.inr ⟨q, hq, hkeep q _ hq ht⟩
    · rintro (hB | ⟨q, hq, ht⟩)
      · exact Or.inr (Or.inl hB)
      · rcases hback q _ hq ht with hnewframe | hold
        · exact Or.inl (Nat.eq_of_mul_eq_mul_right (by decide) hnewframe).symm
        · exact Or.inr (Or.inr ⟨q, hq, hold⟩)
  · intro a hused haway
    have haway0 := haway p₀ t0 hp0 hnode
    have hframe : a / pageSize ≠ idx := by
      rintro rfl
      rw [hfree] at hused
      cases hused
    rw [hmem, linkedMem, fill_of_outside, storeLE_of_outside]
    · unfold pageSize at *
      omega
    · unfold pageSize at *
      omega
  · intro q j hq
    by_cases hq0 : q = p₀ ++ [i₀]
    · -- the new table is empty, and before there was none
      subst hq0
      rw [entryAt_of_tableAt htable, hentry halign, if_pos rfl, if_neg (by simp),
        entryAt_of_none (tableAt_below_empty hbelow (List.prefix_refl _))]
    · exact hentries q j hq hq0

/-! ### Writing one entry -/

variable {m' : Machine} {value : Nat}

private theorem store_entry (htree : PageTree P m root) (ht0 : t0 % pageSize = 0)
    (hvalue : value < 2 ^ 64) (hmem : m'.mem = storeLE m.mem (t0 + 8 * i₀) 8 value)
    (q : List (Fin 512)) (t : Nat) (j : Fin 512) (hq : P q) (ht : tableAt m.mem root q = some t) :
    tableEntry m'.mem t j = if t = t0 ∧ j = i₀ then value else tableEntry m.mem t j := by
  rw [hmem, tableEntry_store _ j.isLt i₀.isLt (htree.aligned q t hq ht) ht0 hvalue]
  simp only [Fin.ext_iff]

/-- The tree property when all tables of the domain stay where they are. -/
theorem PageTree.moved (htree : PageTree P m root)
    (hsame : ∀ q, P q → tableAt m'.mem root q = tableAt m.mem root q)
    (hused : ∀ q t, P q → tableAt m.mem root q = some t → bitAt m'.pmm.bitmap (t / pageSize) = true) :
    PageTree P m' root := by
  refine ⟨?_, ?_, ?_, ?_⟩
  · intro p q t hp hq htp htq
    exact htree.unique p q t hp hq ((hsame p hp).symm.trans htp) ((hsame q hq).symm.trans htq)
  · intro q t hq ht
    exact htree.aligned q t hq ((hsame q hq).symm.trans ht)
  · intro q t hq ht
    exact htree.small q t hq ((hsame q hq).symm.trans ht)
  · intro q t hq ht
    exact hused q t hq ((hsame q hq).symm.trans ht)

/-- Writing an entry moves no table of the domain if its target lies outside, or it leads to no
table and led to none before. -/
theorem storeLeaf (hclosed : PrefixClosed P) (htree : PageTree P m root) (hp0 : P p₀)
    (hleaf : P (p₀ ++ [i₀]) →
      childTable (tableEntry m.mem t0 i₀) = none ∧ childTable value = none)
    (hnode : tableAt m.mem root p₀ = some t0) (hvalue : value < 2 ^ 64)
    (hmem : m'.mem = storeLE m.mem (t0 + 8 * i₀) 8 value) (hpmm : m'.pmm = m.pmm) :
    PageTree P m' root ∧ (∀ q, P q → tableAt m'.mem root q = tableAt m.mem root q) ∧
      ∀ q j, P q → entryAt m'.mem root q j =
        if q = p₀ ∧ j = i₀ then value else entryAt m.mem root q j := by
  have hentry := store_entry htree (htree.aligned p₀ t0 hp0 hnode) hvalue hmem
  have hsame : ∀ q, P q → tableAt m'.mem root q = tableAt m.mem root q := by
    apply follow_congr hclosed
    intro p j t hpj ht
    have hp := hclosed p j hpj
    rw [hentry p t j hp ht]
    split
    · rename_i hat
      obtain ⟨rfl, rfl⟩ := hat
      obtain rfl := htree.unique p p₀ t hp hp0 ht hnode
      rw [(hleaf hpj).1, (hleaf hpj).2]
    · rfl
  refine ⟨htree.moved hsame (by rw [hpmm]; exact htree.used), hsame, ?_⟩
  intro q j hq
  exact entryAt_changed htree hp0 hnode hq (hsame q hq) j fun t ht => hentry q t j hq ht

/-- A change of memory that leaves the tables of the domain allocated and as they are. -/
theorem PageTree.untouched (hclosed : PrefixClosed P) (htree : PageTree P m root)
    (hkeep : ∀ q t, P q → tableAt m.mem root q = some t →
      bitAt m'.pmm.bitmap (t / pageSize) = true ∧
        ∀ a, a / pageSize = t / pageSize → m'.mem a = m.mem a) :
    PageTree P m' root ∧ (∀ q, P q → tableAt m'.mem root q = tableAt m.mem root q) ∧
      ∀ q j, P q → entryAt m'.mem root q j = entryAt m.mem root q j := by
  have hentry : ∀ q t, P q → tableAt m.mem root q = some t →
      ∀ j : Fin 512, tableEntry m'.mem t j = tableEntry m.mem t j := by
    intro q t hq ht j
    have haligned := htree.aligned q t hq ht
    apply loadLE_congr
    intro k hlo hhi
    apply (hkeep q t hq ht).2
    unfold pageSize at *
    omega
  have hsame : ∀ q, P q → tableAt m'.mem root q = tableAt m.mem root q := by
    apply follow_congr hclosed
    intro p i t hpi ht
    rw [hentry p t (hclosed p i hpi) ht i]
  refine ⟨htree.moved hsame fun q t hq ht => (hkeep q t hq ht).1, hsame, ?_⟩
  intro q j hq
  cases ht : tableAt m.mem root q with
  | none => rw [entryAt_of_none ht, entryAt_of_none ((hsame q hq).trans ht)]
  | some t =>
    rw [entryAt_of_tableAt ht, entryAt_of_tableAt ((hsame q hq).trans ht), hentry q t hq ht j]

/-- Writing an entry at the rim of the domain links a fresh frame or unlinks
what was there. -/
theorem storeInside (hclosed : PrefixClosed P) (htree : PageTree P m root) (hp0 : P p₀)
    (hrim : ∀ j, ¬ P (p₀ ++ [i₀] ++ [j])) (hnode : tableAt m.mem root p₀ = some t0)
    (hvalue : value < 2 ^ 64) (hfresh : ∀ f, childTable value = some f → FreshFrame P m root f)
    (hmem : m'.mem = storeLE m.mem (t0 + 8 * i₀) 8 value) (hpmm : m'.pmm = m.pmm) :
    PageTree P m' root ∧
      (∀ q, P q → tableAt m'.mem root q =
        if q = p₀ ++ [i₀] then childTable value else tableAt m.mem root q) ∧
      ∀ q j, P q → q ≠ p₀ ++ [i₀] → entryAt m'.mem root q j =
        if q = p₀ ∧ j = i₀ then value else entryAt m.mem root q j := by
  refine htree.link _ _ hclosed hp0 hnode
    (store_entry htree (htree.aligned p₀ t0 hp0 hnode) hvalue hmem)
    (fun f j _ hP => absurd hP (hrim j)) ?_ (by rwa [hpmm]) (by rw [hpmm]; exact htree.used)
  rintro q hq ⟨rest, rfl⟩ hne
  -- nothing of the domain lies below the rim
  cases rest with
  | nil => simp at hne
  | cons j rest => exact absurd (hclosed.mono (by simp) hq) (hrim j)

end Changes

end Pristine.Kernel
