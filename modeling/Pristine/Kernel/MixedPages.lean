import Pristine.Kernel.AtPanic
import Pristine.Kernel.AddressSpace

/-!
# Pages of three sizes in one address space

The six operations that map and unmap pages of 4 KiB, 2 MiB and 1 GiB share the
tables of one address space, so an operation can meet an entry that maps a page of
another size.  `vmm_map` and `vmm_unmap_large` do not look for such entries on all
levels and follow them as if they pointed to tables.  In runs where this does not
happen, `page_sizes_apart` says that every operation keeps to the tables on its walk
and panics at an entry that is in use in another way.
-/

namespace Pristine.Kernel

open Lib

/-! ## Operations -/

/-- The six operations and their arguments. -/
inductive VmmOp where
  | map (phys virt flags : Nat)
  | mapLarge (phys virt flags : Nat)
  | mapHuge (phys virt flags : Nat)
  | unmap (virt : Nat)
  | unmapLarge (virt : Nat)
  | unmapHuge (virt : Nat)
  deriving DecidableEq, Repr

namespace VmmOp

/-- The operation in the debug build. -/
def run (pml4 : Nat) : VmmOp → PanicM Unit
  | map phys virt flags => AtPanic.vmmMap true pml4 phys virt flags
  | mapLarge phys virt flags => AtPanic.vmmMapLarge true pml4 phys virt flags
  | mapHuge phys virt flags => AtPanic.vmmMapHuge true pml4 phys virt flags
  | unmap virt => AtPanic.vmmUnmap true pml4 virt
  | unmapLarge virt => AtPanic.vmmUnmapLarge true pml4 virt
  | unmapHuge virt => AtPanic.vmmUnmapHuge true pml4 virt

/-- Arguments are 64-bit numbers. -/
def Valid : VmmOp → Prop
  | map phys virt flags | mapLarge phys virt flags | mapHuge phys virt flags =>
    phys < 2 ^ 64 ∧ virt < 2 ^ 64 ∧ flags < 2 ^ 64
  | unmap virt | unmapLarge virt | unmapHuge virt => virt < 2 ^ 64

/-- The alignment that the operation checks. -/
def Aligned : VmmOp → Prop
  | map phys virt _ => isAligned phys pageSize = true ∧ isAligned virt pageSize = true
  | mapLarge phys virt _ =>
    isAligned phys largePageSize = true ∧ isAligned virt largePageSize = true
  | mapHuge phys virt _ => isAligned phys hugePageSize = true ∧ isAligned virt hugePageSize = true
  | unmap virt => isAligned virt pageSize = true
  | unmapLarge virt => isAligned virt largePageSize = true
  | unmapHuge virt => isAligned virt hugePageSize = true

end VmmOp

/-- The path of the page directory that maps an address. -/
def pathToPd (virt : Nat) : List (Fin 512) := [pml4Idx virt, pdptIdx virt]

/-- The path of the page-directory-pointer table that maps an address. -/
def pathToPdpt (virt : Nat) : List (Fin 512) := [pml4Idx virt]

namespace VmmOp

/-- The walk of the operation, down to the entry it is about. -/
def path : VmmOp → List (Fin 512)
  | map _ virt _ | unmap virt => pathToPt virt ++ [ptIdx virt]
  | mapLarge _ virt _ | unmapLarge virt => pathToPd virt ++ [pdIdx virt]
  | mapHuge _ virt _ | unmapHuge virt => pathToPdpt virt ++ [pdptIdx virt]

/-- The entry of the PDPT on the walk maps a page of 1 GiB. -/
def HugeOnWalk (mem : ByteMem) (pml4 virt : Nat) : Prop :=
  entryAt mem pml4 (pathToPdpt virt) (pdptIdx virt) &&& vmmPageSizeFlag ≠ 0

/-- The entry of the page directory on the walk maps a page of 2 MiB. -/
def LargeOnWalk (mem : ByteMem) (pml4 virt : Nat) : Prop :=
  entryAt mem pml4 (pathToPd virt) (pdIdx virt) &&& vmmPageSizeFlag ≠ 0

/-- An entry on the walk is in use in a way that the operation is not for: it maps a page of
another size, or, for a map, there is a mapping or a table already. -/
def Conflict (mem : ByteMem) (pml4 : Nat) : VmmOp → Prop
  | map _ virt _ => HugeOnWalk mem pml4 virt ∨ LargeOnWalk mem pml4 virt ∨
      entryAt mem pml4 (pathToPt virt) (ptIdx virt) ≠ 0
  | mapLarge _ virt _ => HugeOnWalk mem pml4 virt ∨
      entryAt mem pml4 (pathToPd virt) (pdIdx virt) ≠ 0
  | mapHuge _ virt _ => entryAt mem pml4 (pathToPdpt virt) (pdptIdx virt) ≠ 0
  | unmap virt => HugeOnWalk mem pml4 virt ∨ LargeOnWalk mem pml4 virt
  | unmapLarge virt => HugeOnWalk mem pml4 virt ∨
      (entryAt mem pml4 (pathToPd virt) (pdIdx virt) ≠ 0 ∧ ¬ LargeOnWalk mem pml4 virt)
  | unmapHuge virt => entryAt mem pml4 (pathToPdpt virt) (pdptIdx virt) ≠ 0 ∧
      ¬ HugeOnWalk mem pml4 virt

/-- The walk of a `vmm_map` meets no larger page, and that of a `vmm_unmap_large` no page of
1 GiB. -/
def Clear (mem : ByteMem) (pml4 : Nat) : VmmOp → Prop
  | map _ virt _ => ¬ HugeOnWalk mem pml4 virt ∧ ¬ LargeOnWalk mem pml4 virt
  | unmapLarge virt => ¬ HugeOnWalk mem pml4 virt
  | mapLarge .. | mapHuge .. | unmap _ | unmapHuge _ => True

end VmmOp

/-! ## What an operation may do -/

/-- Tables of an address space with pages of all sizes. -/
structure MixedSpace (m : Machine) (pml4 : Nat) : Prop where
  tree : PageTree TablePath m pml4
  root : ∀ j, entryAt m.mem pml4 [] j &&& vmmPageSizeFlag = 0

/-- Only tables on the path were read and written, and no page in use that is not a table has
changed. -/
structure OnlyTables (pml4 : Nat) (path : List (Fin 512)) (s s' : Machine) : Prop where
  logged : ∃ l, s'.log = l ++ s.log ∧ ∀ acc ∈ l, OnPath pml4 path s'.mem acc
  memory : ∀ a, bitAt s.pmm.bitmap (a / pageSize) = true →
    (∀ q t, TablePath q → tableAt s.mem pml4 q = some t → a / pageSize ≠ t / pageSize) →
    s'.mem a = s.mem a

/-- The address space is kept, and only tables on the path were used. -/
structure KeptSpace (pml4 : Nat) (path : List (Fin 512)) (s s' : Machine) : Prop where
  space : MixedSpace s' pml4
  tables : OnlyTables pml4 path s s'

/-- Both outcomes of an operation: it keeps the space, and a panic happens on the walk. -/
def Keeps (pml4 : Nat) (path : List (Fin 512)) (x : PanicM Unit) (s : Machine) : Prop :=
  Yields (fun _ => KeptSpace pml4 path s) (OnlyTables pml4 path s) (x s)

/-- Page sizes do not mix: whatever its outcome, the operation keeps to the tables on its walk, and
at a conflict it panics and has changed nothing. -/
structure VmmOp.Apart (pml4 : Nat) (op : VmmOp) (s : Machine) : Prop where
  tables : Yields (fun _ s' => OnlyTables pml4 op.path s s') (OnlyTables pml4 op.path s)
    (op.run pml4 s)
  conflict : op.Conflict s.mem pml4 →
    ∃ panic s', op.run pml4 s = .error panic s' ∧ s'.mem = s.mem ∧ s'.pmm = s.pmm

/-! ## Walks -/

section Walk

variable {pml4 t : Nat} {p q : List (Fin 512)} {i j : Fin 512} {s₀ s s1 s' : Machine}

theorem MixedSpace.grew (hspace : MixedSpace s pml4) (hgrew : Grew TablePath pml4 q s s1) :
    MixedSpace s1 pml4 :=
  ⟨hgrew.tree, fun j => hgrew.entry_page_clear (Nat.zero_le 3) (hspace.root j)⟩

/-- A read on the way to a table. -/
theorem Grew.read_on (hgrew : Grew TablePath pml4 q s₀ s) (hq : TablePath q)
    (hpre : p ++ [i] <+: q) (ht : tableAt s.mem pml4 p = some t) :
    Grew TablePath pml4 q s₀ { s with log := .read (t + 8 * i) :: s.log } :=
  hgrew.trans tablePath_closed hq (.read hgrew.tree hpre ht)

theorem onlyTables_of_grew (hgrew : Grew TablePath pml4 q s s1) (j : Fin 512) :
    OnlyTables pml4 (q ++ [j]) s s1 := by
  exact ⟨(hgrew.mono (List.prefix_append q [j])).logged, hgrew.memory⟩

section Steps

variable {β : Type} {R : β → Machine → Prop}

theorem Grew.guard_yields {c : Prop} [Decidable c] {panic : KPanic} {f : Unit → PanicM β}
    (hgrew : Grew TablePath pml4 q s₀ s)
    (h : ¬ c → Yields R (OnlyTables pml4 (q ++ [j]) s₀) (f () s)) :
    Yields R (OnlyTables pml4 (q ++ [j]) s₀) (((liftM (panicIf c panic) : PanicM Unit) >>= f) s) :=
  AtPanic.guard_yields (fun _ => onlyTables_of_grew hgrew j) h

/-- A level of an unmap, which panics at an entry that is not in use. -/
theorem Grew.read_yields {panic : KPanic} {f : Nat → Unit → PanicM β}
    (hgrew : Grew TablePath pml4 q s₀ s) (hq : TablePath q) (hpre : p ++ [i] <+: q)
    (ht : tableAt s.mem pml4 p = some t)
    (h : ∀ s', s' = { s with log := .read (t + 8 * i) :: s.log } →
      tableEntry s.mem t i ≠ 0 → Grew TablePath pml4 q s₀ s' →
      Yields R (OnlyTables pml4 (q ++ [j]) s₀) (f (tableEntry s.mem t i) () s')) :
    Yields R (OnlyTables pml4 (q ++ [j]) s₀) (((liftM (readEntry t i) : PanicM Nat) >>= fun entry =>
      (liftM (panicIf (entry = 0) panic) : PanicM Unit) >>= f entry) s) :=
  have hread := hgrew.read_on hq hpre ht
  AtPanic.read_yields (hread.guard_yields fun hne => h _ rfl hne hread)

/-- A level of a map, whose entry does not map a page. -/
theorem Grew.nextTable_yields {iflags : Nat} {f : Nat → PanicM β}
    (hgrew : Grew TablePath pml4 q s₀ s) (hiflags : LinkFlags iflags)
    (hq : TablePath q) (hpre : p ++ [i] <+: q) (ht : tableAt s.mem pml4 p = some t)
    (hclear : entryAt s₀.mem pml4 p i &&& vmmPageSizeFlag = 0)
    (h : ∀ t' s', Grew TablePath pml4 q s₀ s' → tableAt s'.mem pml4 (p ++ [i]) = some t' →
      Yields R (OnlyTables pml4 (q ++ [j]) s₀) (f t' s')) :
    Yields R (OnlyTables pml4 (q ++ [j]) s₀) ((AtPanic.vmmNextTable true iflags t i >>= f) s) := by
  have hpi : TablePath (p ++ [i]) := tablePath_closed.mono hpre hq
  have hp : TablePath p := tablePath_closed p i hpi
  have hclear' := hgrew.entry_page_clear hp hclear
  refine Yields.bind (Q := fun t' s' => Yields R _ (f t' s')) ?_ fun _ _ => id
  cases hcall : AtPanic.vmmNextTable true iflags t i s with
  | ok t' s' =>
    have hnext : vmmNextTable true iflags t i s = .ok (t', s') := by
      rw [← AtPanic.dropState_vmmNextTable]
      exact dropState_eq_ok.mpr hcall
    obtain ⟨hstep, htable⟩ :=
      vmmNextTable_grew tablePath_closed hgrew.tree hp hpi ht hclear' hiflags hnext
    exact h t' s' (hgrew.trans tablePath_closed hq (hstep.mono hpre)) htable
  | error panic s' =>
    rw [AtPanic.vmmNextTable_eq_error hcall]
    exact onlyTables_of_grew (hgrew.read_on hq hpre ht) j

end Steps

/-- The table that an entry points to. -/
theorem tableAt_of_entry (ht : tableAt s.mem pml4 p = some t) (hne : tableEntry s.mem t i ≠ 0)
    (hclear : tableEntry s.mem t i &&& vmmPageSizeFlag = 0) :
    tableAt s.mem pml4 (p ++ [i]) = some (tableEntry s.mem t i &&& pteAddrMask) := by
  rw [tableAt_snoc, entryAt_of_tableAt ht]
  exact childTable_of_ne hne hclear

/-- The table of an entry that is in use. -/
theorem exists_table_of_entryAt (hne : entryAt s.mem pml4 p i ≠ 0) :
    ∃ t, tableAt s.mem pml4 p = some t ∧ entryAt s.mem pml4 p i = tableEntry s.mem t i := by
  cases hp : tableAt s.mem pml4 p with
  | none => exact absurd (entryAt_of_none hp i) hne
  | some t => exact ⟨t, rfl, entryAt_of_tableAt hp i⟩

/-- The last accesses are to one entry of the table at the end of the walk. -/
theorem onlyTables_last (hgrew : Grew TablePath pml4 q s s1) (hq : TablePath q)
    (ht : tableAt s1.mem pml4 q = some t)
    (hsame : ∀ p, TablePath p → tableAt s'.mem pml4 p = tableAt s1.mem pml4 p)
    (hmem : ∀ a, a / pageSize ≠ t / pageSize → s'.mem a = s1.mem a)
    (hlog : ∃ l, s'.log = l ++ s1.log ∧
      ∀ acc ∈ l, acc = .read (t + 8 * j) ∨ acc = .write (t + 8 * j)) :
    OnlyTables pml4 (q ++ [j]) s s' := by
  obtain ⟨l1, hlog1, hon⟩ := hgrew.logged
  obtain ⟨l, hlog, hlast⟩ := hlog
  refine ⟨⟨l ++ l1, by rw [hlog, hlog1, List.append_assoc], ?_⟩, ?_⟩
  · intro acc hacc
    rcases List.mem_append.mp hacc with hin | hin
    · have htable : tableAt s'.mem pml4 q = some t := (hsame q hq).trans ht
      rcases hlast acc hin with rfl | rfl
      · exact ⟨q, j, t, List.prefix_refl _, htable, rfl⟩
      · exact ⟨q, j, t, List.prefix_refl _, htable, rfl⟩
    · refine (hon acc hin).mono (List.prefix_append q [j]) ?_
      intro p u hpre hu
      exact (hsame p (tablePath_closed.mono hpre hq)).trans hu
  · intro a hused haway
    have hta : a / pageSize ≠ t / pageSize := by
      rcases hgrew.fresh q t hq ht with hold | hnew
      · exact haway q t hq hold
      · intro heq
        rw [← heq, hused] at hnew
        cases hnew
    rw [hmem a hta, hgrew.memory a hused haway]

/-- The last entry was read. -/
theorem onlyTables_read (hgrew : Grew TablePath pml4 q s s1) (hq : TablePath q)
    (ht : tableAt s1.mem pml4 q = some t) (j : Fin 512) :
    OnlyTables pml4 (q ++ [j]) s { s1 with log := .read (t + 8 * j) :: s1.log } :=
  onlyTables_last hgrew hq ht (fun _ _ => rfl) (fun _ _ => rfl) ⟨[_], rfl, by simp⟩

/-- The last entry was read and written.  It leads to no table before and after, unless it is a
page table's. -/
theorem store_kept {value : Nat} (hspace : MixedSpace s pml4)
    (hgrew : Grew TablePath pml4 q s s1) (hq : TablePath q) (hne : q ≠ [])
    (ht : tableAt s1.mem pml4 q = some t)
    (hleaf : q.length = 3 ∨ childTable (tableEntry s1.mem t j) = none ∧ childTable value = none)
    (hvalue : value < 2 ^ 64) (hmem : s'.mem = storeLE s1.mem (t + 8 * j) 8 value)
    (hpmm : s'.pmm = s1.pmm) (hlog : s'.log = .write (t + 8 * j) :: .read (t + 8 * j) :: s1.log) :
    KeptSpace pml4 (q ++ [j]) s s' := by
  have haligned := hgrew.tree.aligned q t hq ht
  obtain ⟨htree, hsame, hentries⟩ := storeLeaf tablePath_closed hgrew.tree hq
    (fun hpath => hleaf.resolve_left (by simp [TablePath] at hpath; omega)) ht hvalue hmem hpmm
  refine ⟨⟨htree, fun k => ?_⟩, onlyTables_last hgrew hq ht hsame (fun a ha => ?_)
    ⟨[_, _], hlog, by simp⟩⟩
  · rw [hentries [] k (Nat.zero_le 3), if_neg (fun h => hne h.1.symm)]
    exact (hspace.grew hgrew).root k
  · rw [hmem]
    apply storeLE_of_outside
    unfold pageSize at *
    omega

end Walk

/-! ## The operations keep to the tables -/

theorem childTable_of_page {entry : Nat} (hpage : entry &&& vmmPageSizeFlag ≠ 0) :
    childTable entry = none := by
  unfold childTable
  rw [if_pos (Or.inr hpage)]

/-- The entry of a large or huge page has the page-size bit. -/
theorem pageEntry_and (phys flags : Nat) :
    (phys ||| (flags ||| vmmPageSizeFlag)) &&& vmmPageSizeFlag ≠ 0 := by
  intro hzero
  have hbit := congrArg (Nat.testBit · 7) hzero
  have hflag : vmmPageSizeFlag.testBit 7 = true := by decide
  simp [hflag] at hbit

theorem pageEntry_lt {phys flags : Nat} (hphys : phys < 2 ^ 64) (hflags : flags < 2 ^ 64) :
    phys ||| (flags ||| vmmPageSizeFlag) < 2 ^ 64 :=
  Nat.or_lt_two_pow hphys (Nat.or_lt_two_pow hflags (by decide))

/-- An entry without the page-size bit had none before tables were made. -/
theorem Grew.clear_back {pml4 : Nat} {p q : List (Fin 512)} {i : Fin 512} {s s1 : Machine}
    (hgrew : Grew TablePath pml4 q s s1) (hp : TablePath p)
    (hclear : entryAt s1.mem pml4 p i &&& vmmPageSizeFlag = 0) :
    entryAt s.mem pml4 p i &&& vmmPageSizeFlag = 0 := by
  rcases hgrew.entries p i hp with hsame | ⟨hzero, -⟩
  · rw [← hsame]
    exact hclear
  · rw [hzero]
    rfl

theorem tablePath_pathToPd (virt : Nat) : TablePath (pathToPd virt) := by
  simp [TablePath, pathToPd]

theorem tablePath_pathToPdpt (virt : Nat) : TablePath (pathToPdpt virt) := by
  simp [TablePath, pathToPdpt]

section Operations

variable {pml4 phys virt flags t : Nat} {q : List (Fin 512)} {j : Fin 512} {s s1 : Machine}

open VmmOp

variable (hspace : MixedSpace s pml4)

include hspace

/-- The end of the maps of larger pages. -/
theorem setPage_kept {panic : KPanic} (hphys : phys < 2 ^ 64) (hflags : flags < 2 ^ 64)
    (hgrew : Grew TablePath pml4 q s s1) (hq : TablePath q) (hne : q ≠ [])
    (ht : tableAt s1.mem pml4 q = some t) :
    Yields (fun _ => KeptSpace pml4 (q ++ [j]) s) (OnlyTables pml4 (q ++ [j]) s)
      ((Ops.setEntry true t j (phys ||| (flags ||| vmmPageSizeFlag)) panic : PanicM Unit) s1) := by
  refine AtPanic.setEntry_yields (fun _ => onlyTables_read hgrew hq ht _) fun hzero => ?_
  exact store_kept hspace hgrew hq hne ht
    (Or.inr ⟨by rw [hzero]; rfl, childTable_of_page (pageEntry_and phys flags)⟩)
    (pageEntry_lt hphys hflags) rfl rfl rfl

/-- The end of the unmaps of larger pages. -/
theorem clearPage_kept {panic panic' : KPanic} (hgrew : Grew TablePath pml4 q s s1)
    (hq : TablePath q) (hne : q ≠ []) (ht : tableAt s1.mem pml4 q = some t) :
    Yields (fun _ => KeptSpace pml4 (q ++ [j]) s) (OnlyTables pml4 (q ++ [j]) s)
      (((liftM (readEntry t j) : PanicM Nat) >>= fun entry =>
        (liftM (panicIf (entry &&& vmmPageSizeFlag = 0) panic) : PanicM Unit) >>= fun _ =>
        (liftM (panicIf (entry = 0) panic') : PanicM Unit) >>= fun _ =>
        (liftM (writeEntry t j 0) : PanicM Unit)) s1) := by
  have hread := onlyTables_read hgrew hq ht j
  refine AtPanic.read_yields (AtPanic.guard_yields (fun _ => hread) fun hpage => ?_)
  refine AtPanic.guard_yields (fun _ => hread) fun _ => AtPanic.write_yields ?_
  exact store_kept hspace hgrew hq hne ht
    (Or.inr ⟨childTable_of_page hpage, rfl⟩) (show 0 < 2 ^ 64 by decide) rfl rfl rfl

theorem vmmMap_kept (hphys : phys < 2 ^ 64) (hflags : flags < 2 ^ 64)
    (hhuge : ¬ HugeOnWalk s.mem pml4 virt) (hlarge : ¬ LargeOnWalk s.mem pml4 virt) :
    Keeps pml4 (pathToPt virt ++ [ptIdx virt]) (AtPanic.vmmMap true pml4 phys virt flags) s := by
  have hq := tablePath_pathToPt virt
  have hgrew := Grew.refl hspace.tree (pathToPt virt)
  have hiflags := tableFlags_linkFlags flags
  unfold Keeps AtPanic.vmmMap Ops.vmmMap Ops.vmmPageTable
  simp only [bind_assoc]
  refine hgrew.guard_yields fun _ => hgrew.guard_yields fun _ => ?_
  refine hgrew.nextTable_yields hiflags hq (p := []) (by simp [pathToPt]) (tableAt_nil ..)
    (hspace.root _) fun pdpt s1 h1 ht1 => ?_
  refine h1.nextTable_yields hiflags hq (by simp [pathToPt]) ht1 (not_not.mp hhuge)
    fun pd s2 h2 ht2 => ?_
  refine h2.nextTable_yields hiflags hq (by simp [pathToPt]) ht2 (not_not.mp hlarge)
    fun pt s3 h3 ht3 => ?_
  refine AtPanic.setEntry_yields (fun _ => onlyTables_read h3 hq ht3 _) fun _ => ?_
  exact store_kept hspace h3 hq (by simp [pathToPt]) ht3
    (Or.inl rfl) (Nat.or_lt_two_pow hphys hflags) rfl rfl rfl

theorem vmmMapLarge_kept (hphys : phys < 2 ^ 64) (hflags : flags < 2 ^ 64) :
    Keeps pml4 (pathToPd virt ++ [pdIdx virt]) (AtPanic.vmmMapLarge true pml4 phys virt flags) s := by
  have hq := tablePath_pathToPd virt
  have hgrew := Grew.refl hspace.tree (pathToPd virt)
  have hiflags := tableFlags_linkFlags flags
  refine hgrew.guard_yields fun _ => hgrew.guard_yields fun _ => ?_
  refine hgrew.nextTable_yields hiflags hq (p := []) (by simp [pathToPd]) (tableAt_nil ..)
    (hspace.root _) fun pdpt s1 h1 ht1 => ?_
  have h1' := h1.read_on hq (i := pdptIdx virt) (by simp [pathToPd]) ht1
  refine AtPanic.read_yields (h1'.guard_yields fun hclear => ?_)
  -- the tested entry is the one that the next level reads again
  have hhuge : entryAt s.mem pml4 [pml4Idx virt] (pdptIdx virt) &&& vmmPageSizeFlag = 0 := by
    refine h1.clear_back (tablePath_pathToPdpt virt) ?_
    have hentry : entryAt s1.mem pml4 [pml4Idx virt] (pdptIdx virt) =
        tableEntry s1.mem pdpt (pdptIdx virt) := entryAt_of_tableAt ht1 _
    rw [hentry]
    exact not_not.mp fun h => hclear ⟨rfl, h⟩
  refine h1'.nextTable_yields hiflags hq (by simp [pathToPd]) ht1 hhuge fun pd s2 h2 ht2 => ?_
  exact setPage_kept hspace hphys hflags h2 hq (by simp [pathToPd]) ht2

theorem vmmMapHuge_kept (hphys : phys < 2 ^ 64) (hflags : flags < 2 ^ 64) :
    Keeps pml4 (pathToPdpt virt ++ [pdptIdx virt])
      (AtPanic.vmmMapHuge true pml4 phys virt flags) s := by
  have hq := tablePath_pathToPdpt virt
  have hgrew := Grew.refl hspace.tree (pathToPdpt virt)
  refine hgrew.guard_yields fun _ => hgrew.guard_yields fun _ => ?_
  refine hgrew.nextTable_yields (tableFlags_linkFlags flags) hq (p := []) (by simp [pathToPdpt])
    (tableAt_nil ..) (hspace.root _) fun pdpt s1 h1 ht1 => ?_
  exact setPage_kept hspace hphys hflags h1 hq (by simp [pathToPdpt]) ht1

theorem vmmUnmap_kept :
    Keeps pml4 (pathToPt virt ++ [ptIdx virt]) (AtPanic.vmmUnmap true pml4 virt) s := by
  have hq := tablePath_pathToPt virt
  have hgrew := Grew.refl hspace.tree (pathToPt virt)
  refine hgrew.guard_yields fun _ => ?_
  refine hgrew.read_yields hq (p := []) (by simp [pathToPt]) (tableAt_nil ..) ?_
  rintro s1 rfl hne1 h1
  have ht1 := tableAt_of_entry (p := []) (tableAt_nil ..) hne1 (hspace.root (pml4Idx virt))
  refine h1.read_yields hq (by simp [pathToPt]) ht1 ?_
  rintro s2 rfl hne2 h2
  refine h2.guard_yields fun hclear2 => ?_
  have ht2 := tableAt_of_entry ht1 hne2 (not_not.mp fun h => hclear2 ⟨rfl, h⟩)
  refine h2.read_yields hq (by simp [pathToPt]) ht2 ?_
  rintro s3 rfl hne3 h3
  refine h3.guard_yields fun hclear3 => ?_
  have ht3 := tableAt_of_entry ht2 hne3 (not_not.mp fun h => hclear3 ⟨rfl, h⟩)
  refine AtPanic.read_yields (AtPanic.guard_yields
    (fun _ => onlyTables_read h3 hq ht3 _) fun _ => AtPanic.write_yields ?_)
  exact store_kept hspace h3 hq (by simp [pathToPt]) ht3
    (Or.inl rfl) (show 0 < 2 ^ 64 by decide) rfl rfl rfl

theorem vmmUnmapLarge_kept (hhuge : ¬ HugeOnWalk s.mem pml4 virt) :
    Keeps pml4 (pathToPd virt ++ [pdIdx virt]) (AtPanic.vmmUnmapLarge true pml4 virt) s := by
  have hq := tablePath_pathToPd virt
  have hgrew := Grew.refl hspace.tree (pathToPd virt)
  refine hgrew.guard_yields fun _ => ?_
  refine hgrew.read_yields hq (p := []) (by simp [pathToPd]) (tableAt_nil ..) ?_
  rintro s1 rfl hne1 h1
  have ht1 := tableAt_of_entry (p := []) (tableAt_nil ..) hne1 (hspace.root (pml4Idx virt))
  refine h1.read_yields hq (by simp [pathToPd]) ht1 ?_
  rintro s2 rfl hne2 h2
  have hclear := not_not.mp hhuge
  rw [pathToPdpt, ← List.nil_append [pml4Idx virt], entryAt_of_tableAt ht1] at hclear
  have ht2 := tableAt_of_entry ht1 hne2 hclear
  exact clearPage_kept hspace h2 hq (by simp [pathToPd]) ht2

theorem vmmUnmapHuge_kept :
    Keeps pml4 (pathToPdpt virt ++ [pdptIdx virt]) (AtPanic.vmmUnmapHuge true pml4 virt) s := by
  have hq := tablePath_pathToPdpt virt
  have hgrew := Grew.refl hspace.tree (pathToPdpt virt)
  refine hgrew.guard_yields fun _ => ?_
  refine hgrew.read_yields hq (p := []) (by simp [pathToPdpt]) (tableAt_nil ..) ?_
  rintro s1 rfl hne1 h1
  have ht1 := tableAt_of_entry (p := []) (tableAt_nil ..) hne1 (hspace.root (pml4Idx virt))
  exact clearPage_kept hspace h1 hq (by simp [pathToPdpt]) ht1

end Operations

/-! ## Conflicts -/

/-- Memory and page allocator are as before. -/
def Unchanged (s s' : Machine) : Prop := s'.mem = s.mem ∧ s'.pmm = s.pmm

/-- The operation panics and has changed nothing. -/
def Refuses (x : PanicM Unit) (s : Machine) : Prop :=
  Yields (fun _ _ => False) (Unchanged s) (x s)

theorem Refuses.exists_error {x : PanicM Unit} {s : Machine} (h : Refuses x s) :
    ∃ panic s', x s = .error panic s' ∧ s'.mem = s.mem ∧ s'.pmm = s.pmm := by
  unfold Refuses at h
  cases hcall : x s with
  | ok u s' =>
    rw [hcall] at h
    exact h.elim
  | error panic s' =>
    rw [hcall] at h
    exact ⟨panic, s', rfl, h⟩

section Conflicts

variable {pml4 phys virt flags : Nat} {s : Machine}

open VmmOp

/-- A guard that panics before anything was written changes nothing. -/
theorem guard_refuses {c : Prop} [Decidable c] {panic : KPanic} {f : Unit → PanicM Unit} {t : Machine}
    (h : ¬ c → Yields (fun _ _ => False) (Unchanged s) (f () t))
    (hsame : Unchanged s t := by exact ⟨rfl, rfl⟩) :
    Yields (fun _ _ => False) (Unchanged s) (((liftM (panicIf c panic) : PanicM Unit) >>= f) t) :=
  AtPanic.guard_yields (fun _ => hsame) h

/-- The root entry above a PDPT, and the PDPT as the operations compute it. -/
theorem pdpt_of_table {pdpt : Nat} (ht : tableAt s.mem pml4 (pathToPdpt virt) = some pdpt) :
    tableEntry s.mem pml4 (pml4Idx virt) ≠ 0 ∧
      pdpt = tableEntry s.mem pml4 (pml4Idx virt) &&& pteAddrMask := by
  obtain ⟨t, hroot, hne, -, hpdpt⟩ := tableAt_snoc_eq_some (p := []) ht
  cases hroot
  exact ⟨hne, hpdpt.symm⟩

/-- The PDPT above an entry that is in use. -/
theorem pdpt_of_entry (hne : entryAt s.mem pml4 (pathToPdpt virt) (pdptIdx virt) ≠ 0) :
    tableEntry s.mem pml4 (pml4Idx virt) ≠ 0 ∧
      entryAt s.mem pml4 (pathToPdpt virt) (pdptIdx virt) =
        tableEntry s.mem (tableEntry s.mem pml4 (pml4Idx virt) &&& pteAddrMask) (pdptIdx virt) := by
  obtain ⟨pdpt, ht, hentry⟩ := exists_table_of_entryAt hne
  obtain ⟨hroot, rfl⟩ := pdpt_of_table ht
  exact ⟨hroot, hentry⟩

/-- The same for the page directory: the entry above it is in use and maps no page. -/
theorem pd_of_entry (hne : entryAt s.mem pml4 (pathToPd virt) (pdIdx virt) ≠ 0) :
    entryAt s.mem pml4 (pathToPdpt virt) (pdptIdx virt) ≠ 0 ∧
      ¬ HugeOnWalk s.mem pml4 virt ∧
      entryAt s.mem pml4 (pathToPd virt) (pdIdx virt) =
        tableEntry s.mem (entryAt s.mem pml4 (pathToPdpt virt) (pdptIdx virt) &&& pteAddrMask)
          (pdIdx virt) := by
  obtain ⟨pd, ht, hentry⟩ := exists_table_of_entryAt hne
  obtain ⟨pdpt, ht', hne', hclear, rfl⟩ := tableAt_snoc_eq_some (p := pathToPdpt virt) ht
  unfold HugeOnWalk
  rw [entryAt_of_tableAt ht']
  exact ⟨hne', not_not.mpr hclear, hentry⟩

/-- And for the page table. -/
theorem pt_of_entry (hne : entryAt s.mem pml4 (pathToPt virt) (ptIdx virt) ≠ 0) :
    entryAt s.mem pml4 (pathToPd virt) (pdIdx virt) ≠ 0 ∧
      entryAt s.mem pml4 (pathToPt virt) (ptIdx virt) =
        tableEntry s.mem (entryAt s.mem pml4 (pathToPd virt) (pdIdx virt) &&& pteAddrMask)
          (ptIdx virt) := by
  obtain ⟨pt, ht, hentry⟩ := exists_table_of_entryAt hne
  obtain ⟨pd, ht', hne', -, rfl⟩ := tableAt_snoc_eq_some (p := pathToPd virt) ht
  rw [entryAt_of_tableAt ht']
  exact ⟨hne', hentry⟩

theorem ne_zero_of_page {entry : Nat} (hpage : entry &&& vmmPageSizeFlag ≠ 0) : entry ≠ 0 := by
  rintro rfl
  exact hpage rfl

theorem vmmMap_refuses (hne : entryAt s.mem pml4 (pathToPt virt) (ptIdx virt) ≠ 0) :
    Refuses (AtPanic.vmmMap true pml4 phys virt flags) s := by
  obtain ⟨hne3, h4⟩ := pt_of_entry hne
  obtain ⟨hne2, -, h3⟩ := pd_of_entry hne3
  obtain ⟨hne1, h2⟩ := pdpt_of_entry hne2
  rw [h4, h3, h2] at hne
  rw [h3, h2] at hne3
  rw [h2] at hne2
  unfold Refuses AtPanic.vmmMap Ops.vmmMap Ops.vmmPageTable
  simp only [bind_assoc]
  refine guard_refuses fun _ => ?_
  refine guard_refuses fun _ => ?_
  refine AtPanic.vmmNextTable_yields hne1 (AtPanic.vmmNextTable_yields hne2 ?_)
  refine AtPanic.vmmNextTable_yields hne3 (AtPanic.setEntry_yields (fun _ => ⟨rfl, rfl⟩) ?_)
  exact fun hzero => hne hzero

theorem vmmMapLarge_refuses (hconflict : HugeOnWalk s.mem pml4 virt ∨
      entryAt s.mem pml4 (pathToPd virt) (pdIdx virt) ≠ 0) :
    Refuses (AtPanic.vmmMapLarge true pml4 phys virt flags) s := by
  refine guard_refuses fun _ => ?_
  refine guard_refuses fun _ => ?_
  rcases hconflict with hhuge | hne
  · obtain ⟨hne1, h2⟩ := pdpt_of_entry (ne_zero_of_page hhuge)
    unfold HugeOnWalk at hhuge
    rw [h2] at hhuge
    refine AtPanic.vmmNextTable_yields hne1 (AtPanic.read_yields ?_)
    exact guard_refuses fun hclear => absurd ⟨rfl, hhuge⟩ hclear
  · obtain ⟨hne2, -, h3⟩ := pd_of_entry hne
    obtain ⟨hne1, h2⟩ := pdpt_of_entry hne2
    rw [h3, h2] at hne
    rw [h2] at hne2
    refine AtPanic.vmmNextTable_yields hne1 (AtPanic.read_yields ?_)
    refine guard_refuses fun _ => ?_
    refine AtPanic.vmmNextTable_yields hne2 (AtPanic.setEntry_yields (fun _ => ⟨rfl, rfl⟩) ?_)
    exact fun hzero => hne hzero

theorem vmmMapHuge_refuses (hne : entryAt s.mem pml4 (pathToPdpt virt) (pdptIdx virt) ≠ 0) :
    Refuses (AtPanic.vmmMapHuge true pml4 phys virt flags) s := by
  obtain ⟨hne1, h2⟩ := pdpt_of_entry hne
  rw [h2] at hne
  refine guard_refuses fun _ => ?_
  refine guard_refuses fun _ => ?_
  refine AtPanic.vmmNextTable_yields hne1 (AtPanic.setEntry_yields (fun _ => ⟨rfl, rfl⟩) ?_)
  exact fun hzero => hne hzero

theorem vmmUnmap_refuses (hconflict : HugeOnWalk s.mem pml4 virt ∨ LargeOnWalk s.mem pml4 virt) :
    Refuses (AtPanic.vmmUnmap true pml4 virt) s := by
  refine guard_refuses fun _ => ?_
  refine AtPanic.read_yields (guard_refuses fun _ => ?_)
  refine AtPanic.read_yields (guard_refuses fun _ => ?_)
  refine guard_refuses fun hclear => ?_
  rcases hconflict with hhuge | hlarge
  · obtain ⟨-, h2⟩ := pdpt_of_entry (ne_zero_of_page hhuge)
    unfold HugeOnWalk at hhuge
    rw [h2] at hhuge
    exact absurd ⟨rfl, hhuge⟩ hclear
  · obtain ⟨hne2, -, h3⟩ := pd_of_entry (ne_zero_of_page hlarge)
    obtain ⟨-, h2⟩ := pdpt_of_entry hne2
    unfold LargeOnWalk at hlarge
    rw [h3, h2] at hlarge
    refine AtPanic.read_yields (guard_refuses fun _ => ?_)
    exact guard_refuses fun hclear => absurd ⟨rfl, hlarge⟩ hclear

theorem vmmUnmapLarge_refuses (hne : entryAt s.mem pml4 (pathToPd virt) (pdIdx virt) ≠ 0)
    (hlarge : ¬ LargeOnWalk s.mem pml4 virt) : Refuses (AtPanic.vmmUnmapLarge true pml4 virt) s := by
  obtain ⟨hne2, -, h3⟩ := pd_of_entry hne
  obtain ⟨-, h2⟩ := pdpt_of_entry hne2
  unfold LargeOnWalk at hlarge
  rw [h3, h2] at hlarge
  refine guard_refuses fun _ => ?_
  refine AtPanic.read_yields (guard_refuses fun _ => ?_)
  refine AtPanic.read_yields (guard_refuses fun _ => ?_)
  refine AtPanic.read_yields (guard_refuses fun hpage => ?_)
  exact absurd hpage hlarge

theorem vmmUnmapHuge_refuses (hne : entryAt s.mem pml4 (pathToPdpt virt) (pdptIdx virt) ≠ 0)
    (hhuge : ¬ HugeOnWalk s.mem pml4 virt) : Refuses (AtPanic.vmmUnmapHuge true pml4 virt) s := by
  obtain ⟨-, h2⟩ := pdpt_of_entry hne
  unfold HugeOnWalk at hhuge
  rw [h2] at hhuge
  refine guard_refuses fun _ => ?_
  refine AtPanic.read_yields (guard_refuses fun _ => ?_)
  refine AtPanic.read_yields (guard_refuses fun hpage => ?_)
  exact absurd hpage hhuge

end Conflicts

/-! ## Runs -/

/-- With arguments that are not aligned an operation panics at once. -/
theorem VmmOp.run_of_unaligned {pml4 : Nat} {op : VmmOp} {s : Machine} (h : ¬ op.Aligned) :
    ∃ panic, op.run pml4 s = .error panic s := by
  have htwo {a b : Bool} {panic panic' : KPanic} {f : Unit → PanicM Unit}
      (h : ¬ (a = true ∧ b = true)) :
      ∃ e, ((liftM (panicIf (true = true ∧ ¬ a = true) panic) : PanicM Unit) >>= fun _ =>
        (liftM (panicIf (true = true ∧ ¬ b = true) panic') : PanicM Unit) >>= f) s = .error e s := by
    by_cases ha : a = true
    · rw [AtPanic.guard_skip (fun hc => hc.2 ha)]
      exact ⟨_, AtPanic.guard_error ⟨rfl, fun hb => h ⟨ha, hb⟩⟩⟩
    · exact ⟨_, AtPanic.guard_error ⟨rfl, ha⟩⟩
  cases op with
  | map phys virt flags => exact htwo h
  | mapLarge phys virt flags => exact htwo h
  | mapHuge phys virt flags => exact htwo h
  | unmap virt => exact ⟨_, AtPanic.guard_error ⟨rfl, h⟩⟩
  | unmapLarge virt => exact ⟨_, AtPanic.guard_error ⟨rfl, h⟩⟩
  | unmapHuge virt => exact ⟨_, AtPanic.guard_error ⟨rfl, h⟩⟩

section Run

variable {pml4 : Nat} {op : VmmOp} {s s' : Machine}

theorem VmmOp.kept (hspace : MixedSpace s pml4) (hvalid : op.Valid) (hclear : op.Clear s.mem pml4) :
    Keeps pml4 op.path (op.run pml4) s := by
  cases op with
  | map phys virt flags =>
    exact vmmMap_kept hspace hvalid.1 hvalid.2.2 hclear.1 hclear.2
  | mapLarge phys virt flags => exact vmmMapLarge_kept hspace hvalid.1 hvalid.2.2
  | mapHuge phys virt flags => exact vmmMapHuge_kept hspace hvalid.1 hvalid.2.2
  | unmap virt => exact vmmUnmap_kept hspace
  | unmapLarge virt => exact vmmUnmapLarge_kept hspace hclear
  | unmapHuge virt => exact vmmUnmapHuge_kept hspace

theorem VmmOp.refuses (hclear : op.Clear s.mem pml4) (hconflict : op.Conflict s.mem pml4) :
    Refuses (op.run pml4) s := by
  cases op with
  | map phys virt flags =>
    exact vmmMap_refuses ((hconflict.resolve_left hclear.1).resolve_left hclear.2)
  | mapLarge phys virt flags => exact vmmMapLarge_refuses hconflict
  | mapHuge phys virt flags => exact vmmMapHuge_refuses hconflict
  | unmap virt => exact vmmUnmap_refuses hconflict
  | unmapLarge virt =>
    obtain ⟨hne, hlarge⟩ := hconflict.resolve_left hclear
    exact vmmUnmapLarge_refuses hne hlarge
  | unmapHuge virt => exact vmmUnmapHuge_refuses hconflict.1 hconflict.2

theorem VmmOp.apart_of_clear (hspace : MixedSpace s pml4) (hvalid : op.Valid)
    (hclear : op.Aligned → op.Clear s.mem pml4) : op.Apart pml4 s := by
  by_cases haligned : op.Aligned
  · refine ⟨?_, fun hconflict => (VmmOp.refuses (hclear haligned) hconflict).exists_error⟩
    exact (VmmOp.kept hspace hvalid (hclear haligned)).mono (fun _ _ h => h.tables) fun _ h => h
  · obtain ⟨panic, hcall⟩ : ∃ panic, op.run pml4 s = .error panic s :=
      VmmOp.run_of_unaligned haligned
    refine ⟨?_, fun _ => ⟨panic, s, hcall, rfl, rfl⟩⟩
    rw [hcall]
    exact ⟨⟨[], rfl, by simp⟩, fun _ _ _ => rfl⟩

/-- One step: an operation whose walk is clear, or activity of the rest of the kernel, which leaves
the tables alone. -/
inductive MixedStep (pml4 : Nat) : Machine → Machine → Prop
  | op {s s' : Machine} {op : VmmOp} (hvalid : op.Valid) (hclear : op.Clear s.mem pml4)
      (hcall : op.run pml4 s = .ok () s') : MixedStep pml4 s s'
  | other {s s' : Machine} (hkeep : ∀ q t, TablePath q → tableAt s.mem pml4 q = some t →
      bitAt s'.pmm.bitmap (t / pageSize) = true ∧
        ∀ a, a / pageSize = t / pageSize → s'.mem a = s.mem a) : MixedStep pml4 s s'

theorem mixedSpace_init {m0 : Machine} (hinit : vmmInit true m0 = .ok (pml4, s)) :
    MixedSpace s pml4 := by
  have hroot := vmmInit_emptyRoot hinit
  refine ⟨hroot.tree TablePath, fun j => ?_⟩
  rw [hroot.entryAt_eq_zero]
  rfl

theorem mixedStep_space (hspace : MixedSpace s pml4) (hstep : MixedStep pml4 s s') :
    MixedSpace s' pml4 := by
  cases hstep with
  | op hvalid hclear hcall =>
    have hkept := VmmOp.kept hspace hvalid hclear
    unfold Keeps at hkept
    rw [hcall] at hkept
    exact hkept.space
  | other hkeep =>
    obtain ⟨htree, -, hentries⟩ := hspace.tree.untouched tablePath_closed hkeep
    refine ⟨htree, fun j => ?_⟩
    rw [hentries [] j (Nat.zero_le 3)]
    exact hspace.root j

/-- In every state that clear operations have led to, page sizes stay apart at every further
operation whose walk is clear. -/
theorem page_sizes_apart {m₀ s₀ : Machine} (hinit : vmmInit true m₀ = .ok (pml4, s₀))
    (hrun : Relation.ReflTransGen (MixedStep pml4) s₀ s) (hvalid : op.Valid)
    (hclear : op.Aligned → op.Clear s.mem pml4) : op.Apart pml4 s := by
  let inv (s : Machine) : Prop := MixedSpace s pml4
  have hreached : inv s := run_invariant hrun (mixedSpace_init hinit) fun _ _ => mixedStep_space
  exact VmmOp.apart_of_clear hreached hvalid hclear

end Run

/-- Pages that are free and hold zeros. -/
def Machine.zeroed (size : UInt32) : Machine := { Machine.allFree size with mem := fun _ => 0 }

/-- A page of 1 GiB, then a page of 4 KiB inside it; the result is the entry of the first one. -/
def mapThroughHuge : PanicM Nat := do
  let pml4 ← vmmInit true
  (VmmOp.mapHuge 0x40000000 0x40000000 3).run pml4
  let m ← get
  (VmmOp.map 0x5000 0x40000000 3).run pml4
  return entryAt m.mem pml4 (pathToPdpt 0x40000000) (pdptIdx 0x40000000)

theorem mapThroughHuge_result :
    (match mapThroughHuge (Machine.zeroed 1) with
      | .ok entry _ => some entry
      | .error .. => none) = some 0x40000083 := by
  decide +kernel

/-- The two operations succeed one after the other. -/
theorem exists_mapThroughHuge : ∃ pml4 s₀ s s', vmmInit true (Machine.zeroed 1) = .ok (pml4, s₀) ∧
    MixedStep pml4 s₀ s ∧ VmmOp.HugeOnWalk s.mem pml4 0x40000000 ∧
    (VmmOp.map 0x5000 0x40000000 3).run pml4 s = .ok () s' := by
  have hresult := mapThroughHuge_result
  cases hrun : mapThroughHuge (Machine.zeroed 1) with
  | error panic t =>
    rw [hrun] at hresult
    cases hresult
  | ok entry t =>
    rw [hrun] at hresult
    obtain ⟨pml4, s₀, hinit, hrest⟩ := bind_eq_ok.mp hrun
    obtain ⟨_, s, hhuge, hrest⟩ := bind_eq_ok.mp hrest
    obtain ⟨m, s1, hget, hrest⟩ := bind_eq_ok.mp hrest
    obtain ⟨rfl, rfl⟩ := get_eq_ok.mp hget
    obtain ⟨_, s', hmap, hreturn⟩ := bind_eq_ok.mp hrest
    obtain ⟨rfl, rfl⟩ := pure_eq_ok.mp hreturn
    have hvalid : (VmmOp.mapHuge 0x40000000 0x40000000 3).Valid :=
      ⟨by decide, by decide, by decide⟩
    refine ⟨pml4, s₀, s, s', keepState_eq_ok.mp hinit, .op hvalid trivial hhuge, ?_, hmap⟩
    unfold VmmOp.HugeOnWalk
    rw [Option.some.inj hresult]
    decide

/-- A page of 2 MiB is not mapped inside a page of 1 GiB. -/
theorem page_sizes_apart_huge : ∃ pml4 s₀ s, vmmInit true (Machine.zeroed 1) = .ok (pml4, s₀) ∧
    MixedStep pml4 s₀ s ∧
    (VmmOp.mapLarge 0x200000 0x40000000 3).Conflict s.mem pml4 ∧
    (VmmOp.mapLarge 0x200000 0x40000000 3).Apart pml4 s := by
  obtain ⟨pml4, s₀, s, s', hinit, hstep, hentry, -⟩ := exists_mapThroughHuge
  refine ⟨pml4, s₀, s, hinit, hstep, Or.inl hentry, ?_⟩
  exact page_sizes_apart hinit (.single hstep) ⟨by decide, by decide, by decide⟩ fun _ => trivial

/-- `vmm_map` inside a page of 1 GiB takes the page for a page directory and succeeds. -/
theorem vmmMap_through_huge : ∃ pml4 s₀ s, vmmInit true (Machine.zeroed 1) = .ok (pml4, s₀) ∧
    MixedStep pml4 s₀ s ∧ (VmmOp.map 0x5000 0x40000000 3).Valid ∧
    (VmmOp.map 0x5000 0x40000000 3).Aligned ∧ ¬ (VmmOp.map 0x5000 0x40000000 3).Apart pml4 s := by
  obtain ⟨pml4, s₀, s, s', hinit, hstep, hentry, hmap⟩ := exists_mapThroughHuge
  refine ⟨pml4, s₀, s, hinit, hstep, ⟨by decide, by decide, by decide⟩, ⟨by decide, by decide⟩, ?_⟩
  intro hapart
  obtain ⟨panic, t, hpanic, -⟩ := hapart.conflict (Or.inl hentry)
  rw [hmap] at hpanic
  cases hpanic

end Pristine.Kernel
