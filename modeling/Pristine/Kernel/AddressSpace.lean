import Pristine.Kernel.FrameCost
import Pristine.Lib.Run

/-!
# Address spaces built from 4 KiB pages

The abstract view of an address space is a partial map from page addresses to
page-table entries.  A run starts with `vmm_init` and consists of `vmm_map` of
pages that are not mapped, `vmm_unmap` of pages that are, and activity of the
rest of the kernel, which leaves table pages alone.

`AddressSpaceInv` relates tables and map.  It holds in every state of a run, and
from it the hardware walk of every canonical address is read off
(`walk_eq_of_inv`).
-/

namespace Pristine.Kernel

open Function Lib

/-! ## Virtual addresses and their paths -/

/-- The top 17 bits of a canonical address are equal. -/
def Canonical (virt : Nat) : Prop :=
  virt < 2 ^ 47 ∨ (2 ^ 64 - 2 ^ 47 ≤ virt ∧ virt < 2 ^ 64)

/-- The address of the page that holds an address. -/
def pageOf (virt : Nat) : Nat := virt / pageSize * pageSize

theorem tableIdx_val (addr shift : Nat) : (tableIdx addr shift : Nat) = addr / 2 ^ shift % 512 := by
  show (addr >>> shift) &&& (2 ^ 9 - 1) = _
  rw [Nat.and_two_pow_sub_one_eq_mod, Nat.shiftRight_eq_div_pow]

theorem isAligned_pageSize_iff (addr : Nat) :
    isAligned addr pageSize = true ↔ addr % pageSize = 0 := by
  unfold isAligned
  rw [decide_eq_true_eq, show pageSize - 1 = 2 ^ 12 - 1 by decide,
    Nat.and_two_pow_sub_one_eq_mod]
  rfl

/-- All addresses of a page have the same path. -/
theorem pathOf_pageOf (virt : Nat) : pathOf (pageOf virt) = pathOf virt := by
  have hidx (shift : Nat) (hshift : 12 ≤ shift) :
      tableIdx (pageOf virt) shift = tableIdx virt shift := by
    ext
    rw [tableIdx_val, tableIdx_val]
    obtain ⟨k, rfl⟩ := Nat.exists_eq_add_of_le hshift
    have hpow : 2 ^ (12 + k) = pageSize * 2 ^ k := by
      rw [Nat.pow_add]
      rfl
    rw [hpow, ← Nat.div_div_eq_div_mul, ← Nat.div_div_eq_div_mul]
    unfold pageOf
    rw [Nat.mul_div_cancel _ (by decide)]
  unfold pathOf pml4Idx pdptIdx pdIdx ptIdx
  rw [hidx 39 (by decide), hidx 30 (by decide), hidx 21 (by decide), hidx 12 (by decide)]

theorem pageOf_aligned (virt : Nat) : pageOf virt % pageSize = 0 :=
  Nat.mul_mod_left _ _

theorem canonical_pageOf {virt : Nat} (hvirt : Canonical virt) : Canonical (pageOf virt) := by
  unfold Canonical pageOf pageSize at *
  omega

/-- Canonical page addresses are told apart by their paths. -/
theorem pathOf_injective {u v : Nat} (hu : Canonical u) (hv : Canonical v)
    (hua : u % pageSize = 0) (hva : v % pageSize = 0) (hpath : pathOf u = pathOf v) : u = v := by
  unfold pathOf at hpath
  simp only [List.cons.injEq, and_true] at hpath
  obtain ⟨h1, h2, h3, h4⟩ := hpath
  unfold pml4Idx at h1
  unfold pdptIdx at h2
  unfold pdIdx at h3
  unfold ptIdx at h4
  rw [Fin.ext_iff, tableIdx_val, tableIdx_val] at h1 h2 h3 h4
  unfold Canonical at hu hv
  unfold pageSize at hua hva
  omega

/-- Every path of four indices is the path of a canonical page address. -/
theorem exists_pathOf (a b c d : Fin 512) :
    ∃ virt, Canonical virt ∧ virt % pageSize = 0 ∧ pathOf virt = [a, b, c, d] := by
  have hlow : ∃ high, (high = 0 ∧ a.val < 256 ∨ high = 0xFFFF000000000000 ∧ 256 ≤ a.val) := by
    by_cases ha : a.val < 256
    · exact ⟨0, Or.inl ⟨rfl, ha⟩⟩
    · exact ⟨_, Or.inr ⟨rfl, Nat.le_of_not_lt ha⟩⟩
  obtain ⟨high, hhigh⟩ := hlow
  refine ⟨high + a * 2 ^ 39 + b * 2 ^ 30 + c * 2 ^ 21 + d * 2 ^ 12, ?_, ?_, ?_⟩
  · unfold Canonical
    omega
  · unfold pageSize
    omega
  · unfold pathOf pml4Idx pdptIdx pdIdx ptIdx
    simp only [List.cons.injEq, Fin.ext_iff, tableIdx_val, and_true]
    refine ⟨?_, ?_, ?_, ?_⟩ <;> omega

/-! ## The operations on the tables of an address space -/

/-- Paths that lead to tables: three levels below the root. -/
def TablePath (q : List (Fin 512)) : Prop := q.length ≤ 3

theorem tablePath_closed : PrefixClosed TablePath := by
  intro p i hp
  unfold TablePath at *
  rw [List.length_append] at hp
  omega

theorem tablePath_pathToPt (virt : Nat) : TablePath (pathToPt virt) := by
  simp [TablePath, pathToPt]

theorem not_tablePath_pathOf (virt : Nat) : ¬ TablePath (pathToPt virt ++ [ptIdx virt]) := by
  simp [TablePath, pathToPt]

/-- Where every entry above the page table is empty or points to a table, the hardware's walk ends in
the entry of the page. -/
theorem walk_eq_leaf {mem : ByteMem} {root virt : Nat}
    (hupper : ∀ q j, q ++ [j] <+: pathToPt virt →
      entryAt mem root q j = 0 ∨ ∃ f, TableLink (entryAt mem root q j) f) :
    walk mem root virt =
      if entryAt mem root (pathToPt virt) (ptIdx virt) &&& vmmFlagsPresent = 0 then none
      else some (.page4k (entryAt mem root (pathToPt virt) (ptIdx virt))) := by
  -- below an empty entry there is no page table
  have hmissing (q : List (Fin 512)) (j : Fin 512) (hpre : q ++ [j] <+: pathToPt virt)
      (hzero : entryAt mem root q j = 0) : entryAt mem root (pathToPt virt) (ptIdx virt) = 0 :=
    entryAt_of_none (tableAt_below_empty (by rw [hzero, childTable_zero]) hpre) _
  have hpre1 : [] ++ [pml4Idx virt] <+: pathToPt virt := by simp [pathToPt]
  have hpre2 : [pml4Idx virt] ++ [pdptIdx virt] <+: pathToPt virt := by simp [pathToPt]
  have hpre3 : [pml4Idx virt, pdptIdx virt] ++ [pdIdx virt] <+: pathToPt virt := by simp [pathToPt]
  unfold walk
  rcases hupper _ _ hpre1 with hzero1 | ⟨pdpt, hlink1⟩
  · rw [hmissing _ _ hpre1 hzero1]
    rw [entryAt_of_tableAt (tableAt_nil _ _)] at hzero1
    simp [hzero1]
  have htable1 : tableAt mem root [pml4Idx virt] = some pdpt :=
    (tableAt_snoc _ _ [] _).trans hlink1.child
  rw [entryAt_of_tableAt (tableAt_nil _ _)] at hlink1
  rcases hupper _ _ hpre2 with hzero2 | ⟨pd, hlink2⟩
  · rw [hmissing _ _ hpre2 hzero2]
    rw [entryAt_of_tableAt htable1] at hzero2
    simp [hlink1.present, hlink1.addr, hzero2]
  have htable2 : tableAt mem root [pml4Idx virt, pdptIdx virt] = some pd :=
    (tableAt_snoc _ _ [pml4Idx virt] _).trans hlink2.child
  rw [entryAt_of_tableAt htable1] at hlink2
  rcases hupper _ _ hpre3 with hzero3 | ⟨pt, hlink3⟩
  · rw [hmissing _ _ hpre3 hzero3]
    rw [entryAt_of_tableAt htable2] at hzero3
    simp [hlink1.present, hlink1.addr, hlink2.present, hlink2.not_page, hlink2.addr, hzero3]
  have htable3 : tableAt mem root (pathToPt virt) = some pt :=
    (tableAt_snoc _ _ [pml4Idx virt, pdptIdx virt] _).trans hlink3.child
  rw [entryAt_of_tableAt htable2] at hlink3
  rw [entryAt_of_tableAt htable3]
  simp [hlink1.present, hlink1.addr, hlink2.present, hlink2.not_page, hlink2.addr, hlink3.present,
    hlink3.not_page, hlink3.addr]

theorem ne_leaf {virt : Nat} {q : List (Fin 512)} {j : Fin 512} (hqj : TablePath (q ++ [j])) :
    ¬ (q = pathToPt virt ∧ j = ptIdx virt) := by
  rintro ⟨rfl, rfl⟩
  exact not_tablePath_pathOf virt hqj

/-- What `vmm_map` does to the tables of an address space. -/
structure MapEffect (root virt entry : Nat) (s s' : Machine) : Prop where
  tree : PageTree TablePath s' root
  keep : ∀ q t, TablePath q → tableAt s.mem root q = some t → tableAt s'.mem root q = some t
  upper : ∀ q j, TablePath (q ++ [j]) → entryAt s'.mem root q j = entryAt s.mem root q j ∨
    (entryAt s.mem root q j = 0 ∧ q ++ [j] <+: pathToPt virt ∧
      ∃ f, TableLink (entryAt s'.mem root q j) f)
  leaf : ∀ q j, q.length = 3 → entryAt s'.mem root q j =
    if q = pathToPt virt ∧ j = ptIdx virt then entry else entryAt s.mem root q j
  bits : ∀ i, bitAt s.pmm.bitmap i = true → bitAt s'.pmm.bitmap i = true
  logged : ∃ l, s'.log = l ++ s.log ∧ ∀ acc ∈ l, OnPath root (pathOf virt) s'.mem acc

theorem vmmMap_effect {debug : Bool} {root phys virt flags : Nat} {s s' : Machine}
    (htree : PageTree TablePath s root) (hclear : NoLargeOnPath s.mem root virt)
    (hphys : phys < 2 ^ 64) (hflags : flags < 2 ^ 64)
    (hcall : vmmMap debug root phys virt flags s = .ok ((), s')) :
    MapEffect root virt (phys ||| flags) s s' := by
  obtain ⟨s1, pt, hdone⟩ := vmmMap_ok_inv tablePath_closed htree (tablePath_pathToPt virt)
    hclear hcall
  have hgrew := hdone.grew
  have hentry : phys ||| flags < 2 ^ 64 := Nat.or_lt_two_pow hphys hflags
  obtain ⟨htree', hsame, hentries⟩ := storeLeaf tablePath_closed hgrew.tree
    (tablePath_pathToPt virt) (absurd · (not_tablePath_pathOf virt)) hdone.table hentry hdone.mem hdone.pmm
  have hkeep : ∀ q t, TablePath q → tableAt s.mem root q = some t →
      tableAt s'.mem root q = some t := by
    intro q t hq ht
    rw [hsame q hq]
    exact hgrew.keep q t hq ht
  refine ⟨htree', hkeep, ?_, ?_, ?_, ?_⟩
  · intro q j hqj
    have hq := tablePath_closed q j hqj
    rw [hentries q j hq, if_neg (ne_leaf hqj)]
    exact hgrew.entries q j hq
  · intro q j hlen
    have hq : TablePath q := Nat.le_of_eq hlen
    rw [hentries q j hq]
    rcases hgrew.entries q j hq with heq | ⟨-, hpre, -⟩
    · rw [heq]
    · -- the entries of page tables are below the path that was grown
      have hle := hpre.length_le
      rw [List.length_append, hlen] at hle
      simp [pathToPt] at hle
  · intro i hi
    rw [hdone.pmm]
    exact hgrew.bits i hi
  · apply hdone.logged
    intro q t hpre ht
    rw [hsame q (tablePath_closed.mono hpre (tablePath_pathToPt virt)), ht]

/-- What `vmm_unmap` does to the tables of an address space. -/
structure UnmapEffect (root virt : Nat) (s s' : Machine) : Prop where
  tree : PageTree TablePath s' root
  same : ∀ q, TablePath q → tableAt s'.mem root q = tableAt s.mem root q
  entries : ∀ q j, TablePath q → entryAt s'.mem root q j =
    if q = pathToPt virt ∧ j = ptIdx virt then 0 else entryAt s.mem root q j
  pmm : s'.pmm = s.pmm
  logged : ∃ l, s'.log = l ++ s.log ∧ ∀ acc ∈ l, OnPath root (pathOf virt) s'.mem acc

theorem vmmUnmap_effect {root virt : Nat} {s : Machine} (debug : Bool)
    (htree : PageTree TablePath s root) (hvirt : isAligned virt pageSize = true)
    (hmapped : entryAt s.mem root (pathToPt virt) (ptIdx virt) ≠ 0) :
    ∃ s', vmmUnmap debug root virt s = .ok ((), s') ∧ UnmapEffect root virt s s' := by
  cases htable : tableAt s.mem root (pathToPt virt) with
  | none => exact absurd (entryAt_of_none htable _) hmapped
  | some pt =>
    rw [entryAt_of_tableAt htable] at hmapped
    obtain ⟨l, hcall, hon⟩ := vmmUnmap_of_mapped debug hvirt htable hmapped
    refine ⟨_, hcall, ?_⟩
    have hmem : ({ s with
        mem := storeLE s.mem (pt + 8 * ptIdx virt) 8 0
        log := l ++ s.log } : Machine).mem = storeLE s.mem (pt + 8 * ptIdx virt) 8 0 := rfl
    obtain ⟨htree', hsame, hentries⟩ := storeLeaf tablePath_closed htree
      (tablePath_pathToPt virt) (absurd · (not_tablePath_pathOf virt)) htable (by decide) hmem rfl
    refine ⟨htree', hsame, hentries, rfl, l, rfl, hon _ ?_⟩
    intro q t hpre ht
    rw [hsame q (tablePath_closed.mono hpre (tablePath_pathToPt virt)), ht]

/-! ## Runs -/

/-- Arguments of `vmm_map` for one page: both addresses page aligned, the virtual
one canonical, the flags with the present bit. -/
structure MapArgs (phys virt flags : Nat) : Prop where
  phys_aligned : phys % pageSize = 0
  phys_lt : phys < 2 ^ 64
  virt_aligned : virt % pageSize = 0
  canonical : Canonical virt
  flags_lt : flags < 2 ^ 64
  present : flags &&& vmmFlagsPresent ≠ 0

/-- An address space in use: the machine, the root table, and the abstract map
from page addresses to `phys | flags`. -/
structure AddressSpace where
  machine : Machine
  pml4 : Nat
  pages : Nat → Option Nat

/-- The result of `vmm_init`: nothing is mapped. -/
def AddressSpace.Initial (debug : Bool) (r : AddressSpace) : Prop :=
  (∃ m₀, vmmInit debug m₀ = .ok (r.pml4, r.machine)) ∧ r.pages = fun _ => none

/-- The rest of the kernel may take and free frames and write memory, but the
tables of this address space stay allocated and unchanged. -/
def AddressSpace.TablesUntouched (r : AddressSpace) (m' : Machine) : Prop :=
  ∀ q t, TablePath q → tableAt r.machine.mem r.pml4 q = some t →
    bitAt m'.pmm.bitmap (t / pageSize) = true ∧
      ∀ a, a / pageSize = t / pageSize → m'.mem a = r.machine.mem a

/-- One step of the life of an address space. -/
inductive AddressSpace.Step (debug : Bool) : AddressSpace → AddressSpace → Prop
  | map {r : AddressSpace} {phys virt flags : Nat} {m' : Machine}
      (hargs : MapArgs phys virt flags) (hunmapped : r.pages virt = none)
      (hcall : vmmMap debug r.pml4 phys virt flags r.machine = .ok ((), m')) :
      AddressSpace.Step debug r
        { machine := m', pml4 := r.pml4
          pages := update r.pages virt (some (phys ||| flags)) }
  | unmap {r : AddressSpace} {virt : Nat} {m' : Machine}
      (hmapped : (r.pages virt).isSome)
      (hcall : vmmUnmap debug r.pml4 virt r.machine = .ok ((), m')) :
      AddressSpace.Step debug r
        { machine := m', pml4 := r.pml4, pages := update r.pages virt none }
  | other {r : AddressSpace} {m' : Machine} (hkeep : r.TablesUntouched m') :
      AddressSpace.Step debug r { r with machine := m' }

/-- States reached from `vmm_init`. -/
def AddressSpace.Reachable (debug : Bool) (r : AddressSpace) : Prop :=
  ∃ r₀ : AddressSpace, r₀.Initial debug ∧ Relation.ReflTransGen (AddressSpace.Step debug) r₀ r

/-- Tables and abstract map agree. -/
structure AddressSpaceInv (r : AddressSpace) : Prop where
  tree : PageTree TablePath r.machine r.pml4
  upper : ∀ q j, TablePath (q ++ [j]) → entryAt r.machine.mem r.pml4 q j = 0 ∨
    ∃ f, TableLink (entryAt r.machine.mem r.pml4 q j) f
  leaf : ∀ virt, Canonical virt → virt % pageSize = 0 →
    entryAt r.machine.mem r.pml4 (pathToPt virt) (ptIdx virt) = (r.pages virt).getD 0
  pages : ∀ virt entry, r.pages virt = some entry →
    Canonical virt ∧ virt % pageSize = 0 ∧ entry &&& vmmFlagsPresent ≠ 0

section Invariant

variable {debug : Bool} {r : AddressSpace}

theorem inv_of_initial (hinit : r.Initial debug) : AddressSpaceInv r := by
  obtain ⟨⟨m0, hcall⟩, hpages⟩ := hinit
  have hroot := vmmInit_emptyRoot hcall
  refine ⟨hroot.tree TablePath, fun q j _ => Or.inl (hroot.entryAt_eq_zero q j), ?_, ?_⟩
  · intro virt _ _
    rw [hroot.entryAt_eq_zero, hpages]
    rfl
  · intro virt entry hentry
    rw [hpages] at hentry
    cases hentry

theorem AddressSpaceInv.noLargeOnPath (hinv : AddressSpaceInv r) (virt : Nat) :
    NoLargeOnPath r.machine.mem r.pml4 virt := by
  intro q j hpre
  rcases hinv.upper q j (tablePath_closed.mono hpre (tablePath_pathToPt virt)) with
    hzero | ⟨f, hlink⟩
  · rw [hzero]
    exact Nat.zero_and _
  · exact hlink.not_page

/-- Where the abstract map has no page, the page table has no entry. -/
theorem AddressSpaceInv.entry_of_unmapped (hinv : AddressSpaceInv r) {virt : Nat}
    (hcanon : Canonical virt) (haligned : virt % pageSize = 0) (hnone : r.pages virt = none) :
    entryAt r.machine.mem r.pml4 (pathToPt virt) (ptIdx virt) = 0 := by
  rw [hinv.leaf virt hcanon haligned, hnone]
  rfl

/-- Where it has one, the page table holds it. -/
theorem AddressSpaceInv.entry_of_mapped (hinv : AddressSpaceInv r) {virt entry : Nat}
    (hsome : r.pages virt = some entry) :
    entryAt r.machine.mem r.pml4 (pathToPt virt) (ptIdx virt) = entry ∧ entry ≠ 0 := by
  obtain ⟨hcanon, haligned, hpresent⟩ := hinv.pages virt entry hsome
  refine ⟨?_, ?_⟩
  · rw [hinv.leaf virt hcanon haligned, hsome]
    rfl
  · rintro rfl
    exact hpresent (Nat.zero_and _)

theorem samePage_iff {u v : Nat} (hu : Canonical u) (hv : Canonical v)
    (hua : u % pageSize = 0) (hva : v % pageSize = 0) :
    pathToPt u = pathToPt v ∧ ptIdx u = ptIdx v ↔ u = v := by
  constructor
  · rintro ⟨hpath, hidx⟩
    apply pathOf_injective hu hv hua hva
    rw [pathOf_eq, pathOf_eq, hpath, hidx]
  · rintro rfl
    exact ⟨rfl, rfl⟩

theorem inv_map {phys virt flags : Nat} {m' : Machine} (hinv : AddressSpaceInv r)
    (hargs : MapArgs phys virt flags)
    (hcall : vmmMap debug r.pml4 phys virt flags r.machine = .ok ((), m')) :
    AddressSpaceInv
      { machine := m', pml4 := r.pml4
        pages := update r.pages virt (some (phys ||| flags)) } := by
  have heffect := vmmMap_effect hinv.tree (hinv.noLargeOnPath virt) hargs.phys_lt
    hargs.flags_lt hcall
  refine ⟨heffect.tree, ?_, ?_, ?_⟩
  · intro q j hqj
    rcases heffect.upper q j hqj with hsame | ⟨-, -, hlink⟩
    · rw [hsame]
      exact hinv.upper q j hqj
    · exact Or.inr hlink
  · intro v hcanon haligned
    show entryAt m'.mem r.pml4 (pathToPt v) (ptIdx v) =
      (update r.pages virt (some (phys ||| flags)) v).getD 0
    rw [heffect.leaf _ _ rfl]
    by_cases hv : v = virt
    · subst hv
      rw [if_pos ⟨rfl, rfl⟩, update_self]
      rfl
    · rw [if_neg fun h => hv ((samePage_iff hcanon hargs.canonical haligned
        hargs.virt_aligned).mp h), update_of_ne hv]
      exact hinv.leaf v hcanon haligned
  · intro v entry hentry
    change update r.pages virt (some (phys ||| flags)) v = some entry at hentry
    by_cases hv : v = virt
    · subst hv
      rw [update_self] at hentry
      cases hentry
      refine ⟨hargs.canonical, hargs.virt_aligned, ?_⟩
      rw [or_and_low hargs.phys_aligned (by decide)]
      exact hargs.present
    · rw [update_of_ne hv] at hentry
      exact hinv.pages v entry hentry

theorem vmmUnmap_step {virt entry : Nat} (debug : Bool) (hinv : AddressSpaceInv r)
    (hmapped : r.pages virt = some entry) :
    ∃ m', vmmUnmap debug r.pml4 virt r.machine = .ok ((), m') ∧
      UnmapEffect r.pml4 virt r.machine m' := by
  obtain ⟨hentry, hne⟩ := hinv.entry_of_mapped hmapped
  refine vmmUnmap_effect debug hinv.tree ?_ ?_
  · exact (isAligned_pageSize_iff virt).mpr (hinv.pages virt entry hmapped).2.1
  · rw [hentry]
    exact hne

theorem inv_unmap {virt : Nat} {m' : Machine} (hinv : AddressSpaceInv r)
    (hmapped : (r.pages virt).isSome)
    (hcall : vmmUnmap debug r.pml4 virt r.machine = .ok ((), m')) :
    AddressSpaceInv { machine := m', pml4 := r.pml4, pages := update r.pages virt none } := by
  obtain ⟨entry, hentry⟩ := Option.isSome_iff_exists.mp hmapped
  obtain ⟨hcanon0, haligned0, -⟩ := hinv.pages virt entry hentry
  obtain ⟨m'', hcall', heffect⟩ := vmmUnmap_step debug hinv hentry
  rw [hcall] at hcall'
  cases hcall'
  refine ⟨heffect.tree, ?_, ?_, ?_⟩
  · intro q j hqj
    rw [heffect.entries q j (tablePath_closed q j hqj), if_neg (ne_leaf hqj)]
    exact hinv.upper q j hqj
  · intro v hcanon haligned
    show entryAt m'.mem r.pml4 (pathToPt v) (ptIdx v) =
      (update r.pages virt none v).getD 0
    rw [heffect.entries _ _ (tablePath_pathToPt v)]
    by_cases hv : v = virt
    · subst hv
      rw [if_pos ⟨rfl, rfl⟩, update_self]
      rfl
    · rw [if_neg fun h => hv ((samePage_iff hcanon hcanon0 haligned haligned0).mp h),
        update_of_ne hv]
      exact hinv.leaf v hcanon haligned
  · intro v e he
    change update r.pages virt none v = some e at he
    by_cases hv : v = virt
    · subst hv
      rw [update_self] at he
      cases he
    · rw [update_of_ne hv] at he
      exact hinv.pages v e he

theorem inv_other {m' : Machine} (hinv : AddressSpaceInv r) (hkeep : r.TablesUntouched m') :
    AddressSpaceInv { r with machine := m' } := by
  obtain ⟨htree, -, hentries⟩ := hinv.tree.untouched tablePath_closed hkeep
  refine ⟨htree, ?_, ?_, hinv.pages⟩
  · intro q j hqj
    rw [hentries q j (tablePath_closed q j hqj)]
    exact hinv.upper q j hqj
  · intro virt hcanon haligned
    rw [hentries _ _ (tablePath_pathToPt virt)]
    exact hinv.leaf virt hcanon haligned

theorem inv_step {r' : AddressSpace} (hinv : AddressSpaceInv r)
    (hstep : AddressSpace.Step debug r r') : AddressSpaceInv r' := by
  cases hstep with
  | map hargs hunmapped hcall => exact inv_map hinv hargs hcall
  | unmap hmapped hcall => exact inv_unmap hinv hmapped hcall
  | other hkeep => exact inv_other hinv hkeep

theorem inv_of_reachable (hreach : r.Reachable debug) : AddressSpaceInv r := by
  obtain ⟨r0, hinit, hrun⟩ := hreach
  exact run_invariant hrun (inv_of_initial hinit) fun _ _ hinv hstep => inv_step hinv hstep

/-! ## What the hardware sees -/

theorem AddressSpaceInv.leaf_pageOf (hinv : AddressSpaceInv r) {virt : Nat}
    (hcanon : Canonical virt) :
    entryAt r.machine.mem r.pml4 (pathToPt virt) (ptIdx virt) = (r.pages (pageOf virt)).getD 0 := by
  have hpath := pathOf_pageOf virt
  rw [pathOf_eq, pathOf_eq] at hpath
  obtain ⟨htop, hlast⟩ := List.append_inj' hpath rfl
  rw [← hinv.leaf _ (canonical_pageOf hcanon) (pageOf_aligned virt), htop,
    List.singleton_inj.mp hlast]

/-- The hardware walk of a canonical address reads the abstract map. -/
theorem walk_eq_of_inv (hinv : AddressSpaceInv r) {virt : Nat} (hcanon : Canonical virt) :
    walk r.machine.mem r.pml4 virt = (r.pages (pageOf virt)).map .page4k := by
  have hupper (q : List (Fin 512)) (j : Fin 512) (hpre : q ++ [j] <+: pathToPt virt) :
      entryAt r.machine.mem r.pml4 q j = 0 ∨ ∃ f, TableLink (entryAt r.machine.mem r.pml4 q j) f :=
    hinv.upper q j (tablePath_closed.mono hpre (tablePath_pathToPt virt))
  rw [walk_eq_leaf hupper, hinv.leaf_pageOf hcanon]
  cases hpage : r.pages (pageOf virt) with
  | none => simp
  | some entry =>
    obtain ⟨-, -, hpresent⟩ := hinv.pages _ entry hpage
    simp [hpresent]

end Invariant

/-! ## The contract -/

/-- What the page tables guarantee at one state of a run. -/
structure AddressSpaceContract (debug : Bool) (r : AddressSpace) : Prop where
  /-- the walk of every address yields its page's entry, and nothing if unmapped -/
  walk_eq : ∀ virt, Canonical virt →
    walk r.machine.mem r.pml4 virt = (r.pages (pageOf virt)).map .page4k
  /-- every table is reached by one path only -/
  table_unique : ∀ p q t, TablePath p → TablePath q → tableAt r.machine.mem r.pml4 p = some t →
    tableAt r.machine.mem r.pml4 q = some t → p = q
  /-- tables are whole pages that the page allocator will not hand out -/
  table_used : ∀ q t, TablePath q → tableAt r.machine.mem r.pml4 q = some t →
    t % pageSize = 0 ∧ bitAt r.machine.pmm.bitmap (t / pageSize) = true
  /-- every entry above the page tables is empty or links a table -/
  upper_fresh : ∀ q j, TablePath (q ++ [j]) → entryAt r.machine.mem r.pml4 q j ≠ 0 →
    ∃ t, TableLink (entryAt r.machine.mem r.pml4 q j) t ∧
      tableAt r.machine.mem r.pml4 (q ++ [j]) = some t
  /-- every entry of a page table is empty or maps a page of the abstract map -/
  leaf_fresh : ∀ a b c d, entryAt r.machine.mem r.pml4 [a, b, c] d ≠ 0 →
    ∃ virt, Canonical virt ∧ pathOf virt = [a, b, c, d] ∧
      r.pages virt = some (entryAt r.machine.mem r.pml4 [a, b, c] d)
  /-- mapping an unmapped page succeeds unless memory runs out, and concerns that page only -/
  map_local : ∀ phys virt flags, MapArgs phys virt flags → r.pages virt = none →
    vmmMap debug r.pml4 phys virt flags r.machine = .error .pmmAllocNoMemory ∨
    ∃ m', vmmMap debug r.pml4 phys virt flags r.machine = .ok ((), m') ∧
      ∀ v, Canonical v → walk m'.mem r.pml4 v =
        if pageOf v = virt then some (.page4k (phys ||| flags))
        else walk r.machine.mem r.pml4 v
  /-- unmapping a mapped page succeeds, and concerns that page only -/
  unmap_local : ∀ virt, (r.pages virt).isSome →
    ∃ m', vmmUnmap debug r.pml4 virt r.machine = .ok ((), m') ∧
      ∀ v, Canonical v → walk m'.mem r.pml4 v =
        if pageOf v = virt then none else walk r.machine.mem r.pml4 v

section Contract

variable {debug : Bool} {r : AddressSpace}

/-- A page's update in the abstract map is what the walks of two states differ in. -/
theorem walk_update {m' : Machine} {virt : Nat} {value : Option Nat} (hinv : AddressSpaceInv r)
    (hinv' : AddressSpaceInv
      { machine := m', pml4 := r.pml4, pages := update r.pages virt value })
    {v : Nat} (hcanon : Canonical v) :
    walk m'.mem r.pml4 v =
      if pageOf v = virt then value.map .page4k else walk r.machine.mem r.pml4 v := by
  have hafter : walk m'.mem r.pml4 v =
      (update r.pages virt value (pageOf v)).map .page4k := walk_eq_of_inv hinv' hcanon
  rw [hafter, walk_eq_of_inv hinv hcanon]
  by_cases hv : pageOf v = virt
  · rw [if_pos hv, hv, update_self]
  · rw [if_neg hv, update_of_ne hv]

theorem map_local_of_inv {phys virt flags : Nat} (hinv : AddressSpaceInv r)
    (hargs : MapArgs phys virt flags) (hunmapped : r.pages virt = none) :
    vmmMap debug r.pml4 phys virt flags r.machine = .error .pmmAllocNoMemory ∨
    ∃ m', vmmMap debug r.pml4 phys virt flags r.machine = .ok ((), m') ∧
      ∀ v, Canonical v → walk m'.mem r.pml4 v =
        if pageOf v = virt then some (.page4k (phys ||| flags))
        else walk r.machine.mem r.pml4 v := by
  cases hcall : vmmMap debug r.pml4 phys virt flags r.machine with
  | error panic =>
    left
    have htakes := takes_vmmMap debug flags tablePath_closed hinv.tree (tablePath_pathToPt virt)
      (hinv.noLargeOnPath virt) ((isAligned_pageSize_iff phys).mpr hargs.phys_aligned)
      ((isAligned_pageSize_iff virt).mpr hargs.virt_aligned)
      (hinv.entry_of_unmapped hargs.canonical hargs.virt_aligned hunmapped)
    rw [htakes.panic_eq hcall]
  | ok result =>
    right
    obtain ⟨_, m'⟩ := result
    refine ⟨m', rfl, ?_⟩
    intro v hcanon
    exact walk_update hinv (inv_map hinv hargs hcall) hcanon

theorem unmap_local_of_inv {virt : Nat} (hinv : AddressSpaceInv r)
    (hmapped : (r.pages virt).isSome) :
    ∃ m', vmmUnmap debug r.pml4 virt r.machine = .ok ((), m') ∧
      ∀ v, Canonical v → walk m'.mem r.pml4 v =
        if pageOf v = virt then none else walk r.machine.mem r.pml4 v := by
  obtain ⟨entry, hentry⟩ := Option.isSome_iff_exists.mp hmapped
  obtain ⟨m', hcall, -⟩ := vmmUnmap_step debug hinv hentry
  refine ⟨m', hcall, ?_⟩
  intro v hcanon
  exact walk_update hinv (inv_unmap hinv hmapped hcall) hcanon

/-- In every state reached from `vmm_init` the page tables refine the abstract
map. -/
theorem addressSpace_refines_map (hreach : r.Reachable debug) : AddressSpaceContract debug r := by
  have hinv := inv_of_reachable hreach
  refine ⟨?_, hinv.tree.unique, ?_, ?_, ?_, ?_, ?_⟩
  · intro virt hcanon
    exact walk_eq_of_inv hinv hcanon
  · intro q t hq ht
    exact ⟨hinv.tree.aligned q t hq ht, hinv.tree.used q t hq ht⟩
  · intro q j hqj hne
    rcases hinv.upper q j hqj with hzero | ⟨t, hlink⟩
    · exact absurd hzero hne
    · exact ⟨t, hlink, by rw [tableAt_snoc, hlink.child]⟩
  · intro a b c d hne
    obtain ⟨virt, hcanon, haligned, hpath⟩ := exists_pathOf a b c d
    refine ⟨virt, hcanon, hpath, ?_⟩
    have hleaf := hinv.leaf virt hcanon haligned
    obtain ⟨htop, hlast⟩ : pathToPt virt = [a, b, c] ∧ [ptIdx virt] = [d] :=
      List.append_inj' (hpath : pathToPt virt ++ [ptIdx virt] = [a, b, c] ++ [d]) rfl
    rw [htop, List.singleton_inj.mp hlast] at hleaf
    cases hpage : r.pages virt with
    | none =>
      rw [hpage] at hleaf
      exact absurd hleaf hne
    | some entry =>
      rw [hleaf, hpage]
      rfl
  · intro phys virt flags hargs hunmapped
    exact map_local_of_inv hinv hargs hunmapped
  · intro virt hmapped
    exact unmap_local_of_inv hinv hmapped

/-- A run with one mapped page: `0x5000` at `0x400000`, on memory that was not
zero. -/
theorem addressSpace_refines_map_one_page : ∃ r : AddressSpace,
    r.pages 0x400000 = some 0x5007 ∧ r.Reachable true ∧ AddressSpaceContract true r := by
  have hok : ((vmmInit true >>= fun pml4 => vmmMap true pml4 0x5000 0x400000 7)
      (Machine.allFree 1)).isOk = true := by decide +kernel
  cases hrun : (vmmInit true >>= fun pml4 => vmmMap true pml4 0x5000 0x400000 7)
      (Machine.allFree 1) with
  | error panic =>
    rw [hrun] at hok
    cases hok
  | ok result =>
    obtain ⟨_, m'⟩ := result
    obtain ⟨pml4, m, hinit, hmap⟩ := bind_ok_iff.mp hrun
    have hargs : MapArgs 0x5000 0x400000 7 :=
      ⟨by decide, by decide, by decide, Or.inl (by decide), by decide, by decide⟩
    have hstep := AddressSpace.Step.map (r := ⟨m, pml4, fun _ => none⟩) hargs rfl hmap
    have hreach : AddressSpace.Reachable true _ :=
      ⟨_, ⟨⟨_, hinit⟩, rfl⟩, Relation.ReflTransGen.single hstep⟩
    refine ⟨_, ?_, hreach, addressSpace_refines_map hreach⟩
    show update (fun _ => none) 0x400000 (some (0x5000 ||| 7)) 0x400000 = some 0x5007
    rw [update_self]
    decide

end Contract

end Pristine.Kernel
