import Pristine.Kernel.Kmalloc
import Pristine.Kernel.ProcessLife

/-!
# The kernel's half of every address space

`process_create` copies the upper half of the kernel's root table once.  Below
the copied entries all address spaces use the same tables, so a later kernel
mapping is seen by every process as long as it needs no new root entry.
`kernel_half_shared` makes this precise for runs of `process_create`, `kmalloc`,
`kfree` and mappings of devices and of the frame buffer.

Slot 510 holds each process's own kernel stack and is not shared.
-/

namespace Pristine.Kernel

open Lib Relation

/-! ## Operations on the kernel's tables -/

/-- An operation on the tables below `pml4` that may fill root entry `idx`, if it was empty. -/
structure TableOp (pml4 : Nat) (idx : Fin 512) (s s' : Machine) : Prop where
  tree : PageTree TablePath s' pml4
  fresh : ∀ q t, TablePath q → tableAt s'.mem pml4 q = some t →
    tableAt s.mem pml4 q = some t ∨ bitAt s.pmm.bitmap (t / pageSize) = false
  bits : ∀ i, bitAt s.pmm.bitmap i = true → bitAt s'.pmm.bitmap i = true
  memory : ∀ a, bitAt s.pmm.bitmap (a / pageSize) = true →
    (∀ q t, TablePath q → tableAt s.mem pml4 q = some t → a / pageSize ≠ t / pageSize) →
    s'.mem a = s.mem a
  entries : ∀ j : Fin 512, tableEntry s'.mem pml4 j = tableEntry s.mem pml4 j ∨
    (tableEntry s.mem pml4 j = 0 ∧ j = idx)

section Ops

variable {debug : Bool} {pml4 phys virt flags : Nat} {s s1 s' : Machine}

/-- Growth along a path, and a write below the root that links no further table. -/
theorem TableOp.of_store {path : List (Fin 512)} {table value : Nat} {i : Fin 512}
    (hpath : path ≠ []) (hin : TablePath path) (hfirst : path.head? = some (pml4Idx virt))
    (hgrew : Grew TablePath pml4 path s s1) (htable : tableAt s1.mem pml4 path = some table)
    (htree : PageTree TablePath s' pml4)
    (hback : ∀ q t, TablePath q → tableAt s'.mem pml4 q = some t → tableAt s1.mem pml4 q = some t)
    (hmem : s'.mem = storeLE s1.mem (table + 8 * i) 8 value) (hpmm : s'.pmm = s1.pmm)
    (hvalue : value < 2 ^ 64) : TableOp pml4 (pml4Idx virt) s s' := by
  have hroot : TablePath [] := Nat.zero_le _
  have haligned := hgrew.tree.aligned path table hin htable
  refine ⟨htree, fun q t hq ht => hgrew.fresh q t hq (hback q t hq ht), ?_, ?_, ?_⟩
  · intro k hk
    rw [hpmm]
    exact hgrew.bits k hk
  · intro a hused haway
    have hne : a / pageSize ≠ table / pageSize := by
      rcases hgrew.fresh path table hin htable with hold | hnew
      · exact haway path table hin hold
      · intro heq
        rw [heq, hnew] at hused
        cases hused
    rw [hmem, storeLE_of_outside]
    · exact hgrew.memory a hused haway
    · unfold pageSize at *
      omega
  · intro j
    have hpml4 := hgrew.tree.aligned [] pml4 hroot (tableAt_nil _ _)
    -- the table written to is not the root
    have hne : pml4 ≠ table := by
      rintro rfl
      exact hpath (hgrew.tree.unique path [] pml4 hin hroot htable (tableAt_nil _ _))
    have hsame : tableEntry s'.mem pml4 j = tableEntry s1.mem pml4 j := by
      rw [hmem, tableEntry_store _ j.isLt i.isLt hpml4 haligned hvalue, if_neg fun h => hne h.1]
    rcases hgrew.entries [] j hroot with hkept | ⟨hzero, hpre, -⟩
    · left
      simpa [hsame, entryAt_of_tableAt (tableAt_nil _ _)] using hkept
    · right
      refine ⟨by simpa [entryAt_of_tableAt (tableAt_nil _ _)] using hzero, ?_⟩
      cases path with
      | nil => exact absurd rfl hpath
      | cons k rest =>
        have hjk : j = k := (List.cons_prefix_cons.mp hpre).1
        simpa [hjk] using hfirst

theorem vmmMap_tableOp (htree : PageTree TablePath s pml4)
    (hclear : NoLargeOnPath s.mem pml4 virt) (hphys : phys < 2 ^ 64) (hflags : flags < 2 ^ 64)
    (hcall : vmmMap debug pml4 phys virt flags s = .ok ((), s')) :
    TableOp pml4 (pml4Idx virt) s s' := by
  obtain ⟨s1, pt, hdone⟩ := vmmMap_ok_inv tablePath_closed htree (tablePath_pathToPt virt)
    hclear hcall
  have hvalue : phys ||| flags < 2 ^ 64 := Nat.or_lt_two_pow hphys hflags
  obtain ⟨htree', hsame, -⟩ := storeLeaf tablePath_closed hdone.grew.tree
    (tablePath_pathToPt virt) (absurd · (not_tablePath_pathOf virt)) hdone.table hvalue hdone.mem hdone.pmm
  refine .of_store (by simp [pathToPt]) (tablePath_pathToPt virt) rfl hdone.grew hdone.table
    htree' (fun q t hq ht => ?_) hdone.mem hdone.pmm hvalue
  rw [← hsame q hq, ht]

/-- The entries `vmm_map_large` follows map no page. -/
structure NoHugeOnPath (mem : ByteMem) (pml4 virt : Nat) : Prop where
  pml4e : entryAt mem pml4 [] (pml4Idx virt) &&& vmmPageSizeFlag = 0
  pdpte : entryAt mem pml4 [pml4Idx virt] (pdptIdx virt) &&& vmmPageSizeFlag = 0

theorem vmmMapLarge_tableOp (htree : PageTree TablePath s pml4)
    (hclear : NoHugeOnPath s.mem pml4 virt) (hphys : phys < 2 ^ 64) (hflags : flags < 2 ^ 64)
    (hcall : vmmMapLarge debug pml4 phys virt flags s = .ok ((), s')) :
    TableOp pml4 (pml4Idx virt) s s' := by
  have hP0 : TablePath [] := Nat.zero_le _
  have hP1 : TablePath ([] ++ [pml4Idx virt]) := by simp [TablePath]
  have hP2 : TablePath ([pml4Idx virt] ++ [pdptIdx virt]) := by simp [TablePath]
  have hiflags := tableFlags_linkFlags flags
  obtain ⟨-, hcall⟩ := panicIf_bind_ok_iff.mp hcall
  obtain ⟨-, hcall⟩ := panicIf_bind_ok_iff.mp hcall
  obtain ⟨pdpt, s1, hnext1, hcall⟩ := bind_ok_iff.mp hcall
  obtain ⟨hgrew1, htable1⟩ := vmmNextTable_grew tablePath_closed htree hP0 hP1
    (tableAt_nil s.mem pml4) hclear.pml4e hiflags hnext1
  obtain ⟨-, hcall⟩ := panicIf_bind_ok_iff.mp (readEntry_bind.symm.trans hcall)
  obtain ⟨pd, s3, hnext2, hcall⟩ := bind_ok_iff.mp hcall
  have hread : Grew TablePath pml4 [pml4Idx virt, pdptIdx virt] s1 _ :=
    .read hgrew1.tree (List.prefix_refl _) htable1
  obtain ⟨hgrew2, htable2⟩ := vmmNextTable_grew tablePath_closed hread.tree hP1 hP2 htable1
    (hgrew1.entry_page_clear hP1 hclear.pdpte) hiflags hnext2
  have hgrew : Grew TablePath pml4 [pml4Idx virt, pdptIdx virt] s s3 :=
    ((hgrew1.mono (by simp)).trans tablePath_closed hP2 hread).trans tablePath_closed hP2 hgrew2
  have hvalue : phys ||| (flags ||| vmmPageSizeFlag) < 2 ^ 64 :=
    Nat.or_lt_two_pow hphys (Nat.or_lt_two_pow hflags (by decide))
  -- the new entry maps a page, so no table hangs below it
  have hnone : childTable (phys ||| (flags ||| vmmPageSizeFlag)) = none := by
    unfold childTable vmmPageSizeFlag
    simp [Nat.and_or_distrib_right, Nat.or_eq_zero_iff]
  obtain ⟨hmem, hpmm⟩ : s'.mem = storeLE s3.mem (pd + 8 * pdIdx virt) 8
      (phys ||| (flags ||| vmmPageSizeFlag)) ∧ s'.pmm = s3.pmm := by
    cases debug with
    | false =>
      obtain rfl := writeEntry_ok_iff.mp hcall
      exact ⟨rfl, rfl⟩
    | true =>
      obtain ⟨-, hcall⟩ := panicIf_bind_ok_iff.mp (readEntry_bind.symm.trans hcall)
      obtain rfl := writeEntry_ok_iff.mp hcall
      exact ⟨rfl, rfl⟩
  obtain ⟨htree', hall, -⟩ := storeInside tablePath_closed hgrew.tree hP2
    (fun j => by simp [TablePath]) htable2 hvalue (by simp [hnone]) hmem hpmm
  refine .of_store (by simp) hP2 rfl hgrew htable2 htree' (fun q t hq ht => ?_) hmem hpmm hvalue
  rw [hall q hq, hnone] at ht
  split at ht
  · cases ht
  · exact ht

/-- `vmm_unmap` of a page that is not part of a large one clears one entry. -/
theorem vmmUnmap_ok_inv (hclear : NoLargeOnPath s.mem pml4 virt)
    (hcall : vmmUnmap debug pml4 virt s = .ok ((), s')) :
    ∃ pt, tableAt s.mem pml4 (pathToPt virt) = some pt ∧
      s'.mem = storeLE s.mem (pt + 8 * ptIdx virt) 8 0 ∧ s'.pmm = s.pmm := by
  obtain ⟨hclear1, hclear2, hclear3⟩ := hclear.levels
  have hnext {p : List (Fin 512)} {i : Fin 512} {t : Nat} (ht : tableAt s.mem pml4 p = some t)
      (hpage : entryAt s.mem pml4 p i &&& vmmPageSizeFlag = 0) (hne : tableEntry s.mem t i ≠ 0) :
      tableAt s.mem pml4 (p ++ [i]) = some (tableEntry s.mem t i &&& pteAddrMask) := by
    rw [tableAt_snoc, entryAt_of_tableAt ht] at *
    exact childTable_of_ne hne hpage
  simp only [vmmUnmap, Ops.vmmUnmap, liftM_kernel, readEntry_bind, panicIf_bind_ok_iff] at hcall
  obtain ⟨-, hne1, hne2, -, hne3, -, hcall⟩ := hcall
  have htable1 := hnext (tableAt_nil _ _) hclear1 hne1
  have htable2 := hnext htable1 hclear2 hne2
  have htable3 := hnext htable2 hclear3 hne3
  refine ⟨_, htable3, ?_⟩
  cases debug with
  | false =>
    obtain rfl := writeEntry_ok_iff.mp hcall
    exact ⟨rfl, rfl⟩
  | true =>
    obtain ⟨-, hcall⟩ := panicIf_bind_ok_iff.mp (readEntry_bind.symm.trans hcall)
    obtain rfl := writeEntry_ok_iff.mp hcall
    exact ⟨rfl, rfl⟩

theorem vmmUnmap_tableOp (htree : PageTree TablePath s pml4)
    (hclear : NoLargeOnPath s.mem pml4 virt) (hcall : vmmUnmap debug pml4 virt s = .ok ((), s')) :
    TableOp pml4 (pml4Idx virt) s s' := by
  obtain ⟨pt, htable, hmem, hpmm⟩ := vmmUnmap_ok_inv hclear hcall
  obtain ⟨htree', hsame, -⟩ := storeLeaf tablePath_closed htree (tablePath_pathToPt virt)
    (absurd · (not_tablePath_pathOf virt)) htable (by decide) hmem hpmm
  refine .of_store (by simp [pathToPt]) (tablePath_pathToPt virt) rfl (.refl htree _) htable
    htree' (fun q t hq ht => ?_) hmem hpmm (by decide)
  rw [← hsame q hq, ht]

end Ops

/-! ## What is shared -/

/-- A frame in use that is none of the tables below `pml4`. -/
structure HeldFrame (m : Machine) (pml4 f : Nat) : Prop where
  aligned : f % pageSize = 0
  small : f / pageSize < 2 ^ 32
  used : bitAt m.pmm.bitmap (f / pageSize) = true
  apart : ∀ q t, TablePath q → tableAt m.mem pml4 q = some t → t ≠ f

/-- The kernel's tables, the root tables of live processes, and the frames of slabs.  Outside a
process's own part its root entries are the kernel's. -/
structure SharedHalf (m : Machine) (pml4 : Nat) (roots frames : List Nat) : Prop where
  tree : PageTree TablePath m pml4
  slot : tableEntry m.mem pml4 kernelStackSlot = 0
  held : ∀ f ∈ roots ++ frames, HeldFrame m pml4 f
  nodup : (roots ++ frames).Nodup
  shared : ∀ root ∈ roots, ∀ i : Fin 512, ¬ ProcessHalf i →
    tableEntry m.mem root i = tableEntry m.mem pml4 i

/-- The walk from a root sees only one entry of it. -/
theorem walk_congr {mem : ByteMem} {root root' virt : Nat}
    (hentry : tableEntry mem root (pml4Idx virt) = tableEntry mem root' (pml4Idx virt)) :
    walk mem root virt = walk mem root' virt := by
  unfold walk
  rw [hentry]

/-- Frames at different page-aligned addresses are different pages. -/
theorem page_ne {t f : Nat} (ht : t % pageSize = 0) (hf : f % pageSize = 0) (hne : t ≠ f) :
    f / pageSize ≠ t / pageSize := by
  unfold pageSize at *
  omega

/-- The entries of a root table depend on the bytes of its page only. -/
theorem tableEntry_congr {mem mem' : ByteMem} {root : Nat} (hroot : root % pageSize = 0)
    (hsame : ∀ a, a / pageSize = root / pageSize → mem' a = mem a) (i : Fin 512) :
    tableEntry mem' root i = tableEntry mem root i := by
  refine loadLE_congr fun k hlo hhi => hsame k ?_
  unfold pageSize at *
  omega

section Shared

variable {m m' : Machine} {pml4 root : Nat} {roots frames : List Nat} {debug : Bool}

variable (hinv : SharedHalf m pml4 roots frames)

include hinv

theorem SharedHalf.tableOp {idx : Fin 512} (hop : TableOp pml4 idx m m')
    (hslot : idx ≠ kernelStackSlot) (hempty : roots = [] ∨ tableEntry m.mem pml4 idx ≠ 0) :
    SharedHalf m' pml4 roots frames := by
  have hbytes (f : Nat) (hf : HeldFrame m pml4 f) (a : Nat) (ha : a / pageSize = f / pageSize) :
      m'.mem a = m.mem a := by
    refine hop.memory a ?_ fun q t hq ht => ?_
    · rw [ha]
      exact hf.used
    · rw [ha]
      exact page_ne (hinv.tree.aligned q t hq ht) hf.aligned (hf.apart q t hq ht)
  refine ⟨hop.tree, ?_, ?_, hinv.nodup, ?_⟩
  · rcases hop.entries kernelStackSlot with hsame | ⟨-, heq⟩
    · rw [hsame]
      exact hinv.slot
    · exact absurd heq.symm hslot
  · intro f hf
    have hheld := hinv.held f hf
    refine ⟨hheld.aligned, hheld.small, hop.bits _ hheld.used, ?_⟩
    intro q t hq ht heq
    rcases hop.fresh q t hq ht with hold | hnew
    · exact hheld.apart q t hq hold heq
    · rw [heq, hheld.used] at hnew
      cases hnew
  · intro root hroot i hi
    have hheld := hinv.held root (List.mem_append_left _ hroot)
    have hkernel : tableEntry m'.mem pml4 i = tableEntry m.mem pml4 i := by
      rcases hop.entries i with hsame | ⟨hzero, rfl⟩
      · exact hsame
      · rcases hempty with rfl | hne
        · cases hroot
        · exact absurd hzero hne
    rw [tableEntry_congr hheld.aligned (hbytes root hheld), hkernel]
    exact hinv.shared root hroot i hi

/-- `vmm_unmap` finds a table below the root, so it adds no entry to it. -/
theorem SharedHalf.unmap {virt : Nat} (hclear : NoLargeOnPath m.mem pml4 virt)
    (hcall : vmmUnmap debug pml4 virt m = .ok ((), m')) : SharedHalf m' pml4 roots frames := by
  obtain ⟨pt, htable, -⟩ := vmmUnmap_ok_inv hclear hcall
  have hne : tableEntry m.mem pml4 (pml4Idx virt) ≠ 0 := by
    intro hzero
    have hnone : childTable (entryAt m.mem pml4 [] (pml4Idx virt)) = none := by
      rw [entryAt_of_tableAt (tableAt_nil _ _), hzero, childTable_zero]
    rw [tableAt_below_empty hnone (by simp [pathToPt])] at htable
    cases htable
  refine hinv.tableOp (vmmUnmap_tableOp hinv.tree hclear hcall) ?_ (Or.inr hne)
  intro hslot
  rw [hslot, hinv.slot] at hne
  exact hne rfl

/-- `pmm_alloc` for a slab. -/
theorem SharedHalf.alloc {frame : Nat} (hcall : allocPage debug m = .ok (frame, m')) :
    SharedHalf m' pml4 roots (frame :: frames) := by
  obtain ⟨idx, hfirst, rfl, rfl⟩ := allocPage_ok_iff.mp hcall
  have hdiv : idx * pageSize / pageSize = idx := Nat.mul_div_cancel idx (by decide)
  have hnew : idx * pageSize ∉ roots ++ frames := by
    intro hin
    have hused := (hinv.held _ hin).used
    rw [hdiv, hfirst.clear] at hused
    cases hused
  refine ⟨hinv.tree.alloc idx, hinv.slot, ?_,
    List.nodup_middle.mpr (List.nodup_cons.mpr ⟨hnew, hinv.nodup⟩), hinv.shared⟩
  intro f hf
  rcases List.mem_cons.mp (List.perm_middle.subset hf) with rfl | hold
  · refine ⟨Nat.mul_mod_left idx pageSize, ?_, ?_, ?_⟩
    · rw [hdiv]
      exact Nat.lt_trans hfirst.lt m.pmm.bitCount_lt
    · rw [hdiv]
      simp
    · intro q t hq ht heq
      have hused := hinv.tree.used q t hq ht
      rw [heq, hdiv, hfirst.clear] at hused
      cases hused
  · have hheld := hinv.held f hold
    refine ⟨hheld.aligned, hheld.small, ?_, hheld.apart⟩
    rw [bitAt_bitmapSet, hheld.used, Bool.or_true]

/-- `pmm_free` of a slab's frame. -/
theorem SharedHalf.free {frame : Nat} (hframe : frame ∈ frames)
    (hcall : freePage debug frame m = .ok ((), m')) :
    SharedHalf m' pml4 roots (frames.erase frame) := by
  have hheld := hinv.held frame (List.mem_append_right _ hframe)
  obtain ⟨hnodup, hnodup', hdisjoint⟩ := List.nodup_append.mp hinv.nodup
  have hother {f : Nat} (hf : f ∈ roots ++ frames.erase frame) : f ∈ roots ++ frames ∧ f ≠ frame := by
    rcases List.mem_append.mp hf with hroot | hslab
    · exact ⟨List.mem_append_left _ hroot, hdisjoint f hroot frame hframe⟩
    · obtain ⟨hne, hin⟩ := hnodup'.mem_erase_iff.mp hslab
      exact ⟨List.mem_append_right _ hin, hne⟩
  obtain ⟨pmm, hfree, rfl⟩ := freePage_ok_iff.mp hcall
  rw [← frame_eq_of_aligned hheld.aligned,
    pmmFree_of_set debug m.pmm hheld.small hheld.used] at hfree
  cases hfree
  refine ⟨hinv.tree.free (fun q hq ht => ?_) _, hinv.slot, ?_, ?_, hinv.shared⟩
  · rw [frame_eq_of_aligned hheld.aligned] at ht
    exact hheld.apart q frame hq ht rfl
  · intro f hf
    obtain ⟨hin, hne⟩ := hother hf
    have hold := hinv.held f hin
    refine ⟨hold.aligned, hold.small, ?_, hold.apart⟩
    have hpage := page_ne hold.aligned hheld.aligned hne
    rw [bitAt_bitmapClear, hold.used]
    simp [hpage]
  · exact List.nodup_append.mpr ⟨hnodup, hnodup'.erase frame, fun f hroot g hg =>
      hdisjoint f hroot g (List.mem_of_mem_erase hg)⟩

/-- Everything else that happens: what is held stays allocated, and neither the kernel's tables
nor the shared entries change. -/
structure HalfUntouched (m : Machine) (pml4 : Nat) (roots frames : List Nat) (m' : Machine) :
    Prop where
  tables : ∀ q t, TablePath q → tableAt m.mem pml4 q = some t →
    bitAt m'.pmm.bitmap (t / pageSize) = true ∧
      ∀ a, a / pageSize = t / pageSize → m'.mem a = m.mem a
  held : ∀ f ∈ roots ++ frames, bitAt m'.pmm.bitmap (f / pageSize) = true
  entries : ∀ root ∈ roots, ∀ i : Fin 512, ¬ ProcessHalf i →
    tableEntry m'.mem root i = tableEntry m.mem root i

theorem SharedHalf.other (hkeep : HalfUntouched m pml4 roots frames m') :
    SharedHalf m' pml4 roots frames := by
  obtain ⟨htree, hsame, hentries⟩ := hinv.tree.untouched tablePath_closed hkeep.tables
  have hroot (i : Fin 512) : tableEntry m'.mem pml4 i = tableEntry m.mem pml4 i := by
    simpa [entryAt_of_tableAt (tableAt_nil _ _)] using hentries [] i (Nat.zero_le _)
  refine ⟨htree, ?_, ?_, hinv.nodup, ?_⟩
  · rw [hroot]
    exact hinv.slot
  · intro f hf
    have hheld := hinv.held f hf
    exact ⟨hheld.aligned, hheld.small, hkeep.held f hf,
      fun q t hq ht => hheld.apart q t hq ((hsame q hq).symm.trans ht)⟩
  · intro root hin i hi
    rw [hkeep.entries root hin i hi, hroot]
    exact hinv.shared root hin i hi

/-- Processes may end. -/
theorem SharedHalf.sublist {roots' : List Nat} (hsub : roots'.Sublist roots) :
    SharedHalf m pml4 roots' frames :=
  ⟨hinv.tree, hinv.slot, fun f hf => hinv.held f ((hsub.append_right frames).subset hf),
    hinv.nodup.sublist (hsub.append_right frames), fun root hroot => hinv.shared root (hsub.subset hroot)⟩

end Shared

/-! ## A new process -/

section Create

variable {m₀ s s' : Machine} {root kernelPml4 : Nat} {debug : Bool}

/-- The process owns what is below its part of the root; the other entries are the kernel's. -/
structure SharingRoot (m₀ : Machine) (kernelPml4 root : Nat) (s : Machine) : Prop where
  life : LifeInv ProcessHalf m₀ root s
  shared : ∀ i : Fin 512, ¬ ProcessHalf i →
    tableEntry s.mem root i = tableEntry m₀.mem kernelPml4 i

/-- Mapping pages of the process leaves the shared entries alone. -/
theorem SharingRoot.mapRange {flags virt count : Nat} (hroot : SharingRoot m₀ kernelPml4 root s)
    (hflags : LinkFlags flags) (hend : virt + count * pageSize ≤ 2 ^ 64)
    (hH : ∀ k, k < count → ProcessHalf (pml4Idx (virt + k * pageSize)))
    (hcall : mapRange debug root flags virt count s = .ok ((), s')) :
    SharingRoot m₀ kernelPml4 root s' := by
  refine mapRange_rule (fun _ t => SharingRoot m₀ kernelPml4 root t) (pagesOf_tracks ProcessHalf)
    hflags hend hH (fun _ t ht => ht.life.owned) ?_ hroot hcall
  intro k f t t' hk ht hfresh
  refine ⟨ht.life.fresh hfresh, fun i hi => ?_⟩
  have hentry := hfresh.entries [] i (Or.inl rfl) (by simp [pathOf]) (by
    intro hpre
    obtain rfl : i = pml4Idx (virt + k * pageSize) := (List.cons_prefix_cons.mp hpre).1
    exact hi (hH k hk))
  rw [entryAt_of_tableAt (tableAt_nil _ _), entryAt_of_tableAt (tableAt_nil _ _)] at hentry
  rw [hentry]
  exact ht.shared i hi

theorem processCreate_shares {process process' : Process}
    {pid entry cs ss rflags stackTop stackSize : Nat} (hargs : CreateArgs stackTop stackSize)
    (hkernel : KernelRoot m₀ kernelPml4) (hinv : LifeInv LowerHalf m₀ root s)
    (hcall : processCreate debug process pid entry cs ss rflags stackTop stackSize
      processVirtKernelStackTop processDefaultKernelStackSize root root kernelPml4 s =
        .ok (process', s')) : SharingRoot m₀ kernelPml4 root s' := by
  obtain ⟨⟨t, u, hcopy, huser, hstack⟩, -⟩ := processCreate_ok_inv hcall
  obtain ⟨hlife, hcopied⟩ := copyUpperHalf_effect hkernel hinv hcopy
  have hshared : SharingRoot m₀ kernelPml4 root t := by
    refine ⟨hlife, fun i hi => hcopied i ?_ i.isLt⟩
    exact Nat.le_of_not_lt fun hlow => hi (Or.inl hlow)
  have huserDone : SharingRoot m₀ kernelPml4 root u := by
    obtain ⟨htop, hsize⟩ := hargs
    unfold mapUserStack at huser
    split at huser
    · have hstart : (stackTop + 2 ^ 64 - stackSize) % 2 ^ 64 = stackTop - stackSize := by omega
      rw [hstart] at huser
      refine hshared.mapRange userData_linkFlags ?_ ?_ huser
      · unfold pagesBetween pageSize
        omega
      · intro k hk
        refine Or.inl (lowerHalf_of_lt ?_)
        unfold pagesBetween pageSize at *
        omega
    · obtain ⟨-, rfl⟩ := pure_ok_iff.mp huser
      exact hshared
  exact huserDone.mapRange kernelData_linkFlags (by decide) (fun k hk => processHalf_stack hk) hstack

/-- The loader ran, or there was nothing to load (the kernel's own processes). -/
def Loaded {σ : Type} (debug : Bool) (reader : Reader σ) (root : Nat) (m m' : Machine) : Prop :=
  m' = m ∨ ∃ outHeader stack file loaded,
    elf64LoadExecutable debug reader root outHeader stack file m = .ok (.ok loaded, m') ∧
      ∀ phdr ∈ loaded.segments, SegmentOk phdr

/-- The new root joins the others. -/
theorem SharedHalf.create {σ : Type} {reader : Reader σ} {m1 m2 : Machine}
    {roots frames : List Nat} {process process' : Process}
    {pid entry cs ss rflags stackTop stackSize : Nat} (hreader : reader.Bounded)
    (hinv : SharedHalf m₀ kernelPml4 roots frames) (hinit : vmmInit debug m₀ = .ok (root, m1))
    (hload : Loaded debug reader root m1 m2) (hargs : CreateArgs stackTop stackSize)
    (hcall : processCreate debug process pid entry cs ss rflags stackTop stackSize
      processVirtKernelStackTop processDefaultKernelStackSize root root kernelPml4 m2 =
        .ok (process', s')) : SharedHalf s' kernelPml4 (root :: roots) frames := by
  have hnil : TablePath [] := Nat.zero_le _
  have hkernel : KernelRoot m₀ kernelPml4 :=
    ⟨hinv.tree.aligned [] _ hnil (tableAt_nil _ _), hinv.tree.used [] _ hnil (tableAt_nil _ _),
      hinv.slot⟩
  have hstart : LifeInv LowerHalf m₀ root m1 := lifeInv_start LowerHalf hinit
  have hloaded : LifeInv LowerHalf m₀ root m2 := by
    rcases hload with rfl | ⟨_, _, _, _, hcall, hsegments⟩
    · exact hstart
    · exact elf64LoadExecutable_keeps (pagesOf_tracks LowerHalf) (fun _ hi => hi)
        (lifeInv_pageInvariant fun _ hi => hi) (lifeInv_keptByWrites fun _ hi => hi) hreader
        hsegments hstart hcall
  obtain ⟨hlife, hshared⟩ := processCreate_shares hargs hkernel hloaded hcall
  have hroot : PagesOf ProcessHalf [] := Or.inl rfl
  have hfree := hlife.new [] root hroot (tableAt_nil _ _)
  have htables : ∀ q t, TablePath q → tableAt m₀.mem kernelPml4 q = some t →
      bitAt s'.pmm.bitmap (t / pageSize) = true ∧
        ∀ a, a / pageSize = t / pageSize → s'.mem a = m₀.mem a := by
    intro q t hq ht
    have hused := hinv.tree.used q t hq ht
    exact ⟨hlife.base _ hused, fun a ha => hlife.memory a (ha ▸ hused)⟩
  obtain ⟨-, hsame, -⟩ := hinv.tree.untouched tablePath_closed htables
  -- what was in use keeps its bytes, so everything shared before still is
  have hold : SharedHalf s' kernelPml4 roots frames := by
    refine hinv.other ⟨htables, fun f hf => hlife.base _ (hinv.held f hf).used, ?_⟩
    intro r hr i _
    have hheld := hinv.held r (List.mem_append_left _ hr)
    exact tableEntry_congr hheld.aligned (fun a ha => hlife.memory a (ha ▸ hheld.used)) i
  refine ⟨hold.tree, hold.slot, ?_, List.nodup_cons.mpr ⟨?_, hold.nodup⟩, ?_⟩
  · intro f hf
    rcases List.mem_cons.mp hf with rfl | hin
    · refine ⟨hlife.owned.tree.aligned [] _ hroot (tableAt_nil _ _),
        hlife.owned.tree.small [] _ hroot (tableAt_nil _ _),
        hlife.owned.tree.used [] _ hroot (tableAt_nil _ _), ?_⟩
      rintro q t hq ht rfl
      rw [hinv.tree.used q t hq ((hsame q hq).symm.trans ht)] at hfree
      cases hfree
    · exact hold.held f hin
  · intro hin
    rw [(hinv.held root hin).used] at hfree
    cases hfree
  · intro r hr i hi
    rcases List.mem_cons.mp hr with rfl | hin
    · rw [hshared i hi, hlife.kernelEntry hkernel i.isLt]
    · exact hold.shared r hin i hi

end Create

/-! ## Runs -/

/-- The pages of the slab allocator: the page allocator and the kernel's tables. -/
def kernelPages (debug : Bool) (pml4 : Nat) : PageOps Machine where
  pmmAlloc := allocPage debug
  pmmFree frame m := (freePage debug frame m).map Prod.snd
  vmmMap phys virt m := (vmmMap debug pml4 phys virt vmmFlagsKernelData m).map Prod.snd
  vmmUnmap virt m := (vmmUnmap debug pml4 virt m).map Prod.snd
  contents m frame offset := m.mem (frame + offset)

/-- Where `kmalloc` maps a new slab, if it needs one. -/
def kmallocMaps {κ : Type} (numBytes : Nat) (s : SlabState κ) : Option Nat :=
  match kmallocBin numBytes with
  | some b => if s.freeSlabs b = 0 then some ((slabVirtStart + s.slabTop) % 2 ^ 64) else none
  | none => none

/-- The frame `kfree` gives back, if the object was the last of its slab: the one in the slab's
header. -/
def kfreeFrame {κ : Type} (addr : Nat) (s : SlabState κ) : Option Nat :=
  if hbin : slabField .bin s.mem (slabOf addr) < 24 then
    let b : BinIdx := ⟨slabField .bin s.mem (slabOf addr), hbin⟩
    let s := returnObject b (slabOf addr) addr s
    if slabField .countObjects s.mem (slabOf addr) = 0 then
      some (slabField .phys (dropSlab b (slabOf addr) s).mem (slabOf addr))
    else
      none
  else
    none

/-- The slab allocator with the kernel's tables, and the root tables of the live processes.
`frames` is ghost state: the frames `kmalloc` took for slabs it still has. -/
structure KernelRun where
  slabs : SlabState Machine
  pml4 : Nat
  roots : List Nat
  frames : List Nat

/-- Physical memory. -/
def KernelRun.mem (k : KernelRun) : ByteMem := k.slabs.pages.mem

/-- The state with another machine below the allocator. -/
def KernelRun.setMachine (k : KernelRun) (m : Machine) : KernelRun :=
  { k with slabs := { k.slabs with pages := m } }

/-- When the first process is created: the kernel's tables are a tree and the slot for kernel
stacks is empty.  `slab_top` is as far as earlier slabs have advanced it. -/
structure KernelRun.Initial (k : KernelRun) : Prop where
  tree : PageTree TablePath k.slabs.pages k.pml4
  slot : tableEntry k.mem k.pml4 kernelStackSlot = 0
  roots : k.roots = []
  frames : k.frames = []

/-- What can happen.  `Ok k virt` is asked of every address at which the kernel maps a page. -/
inductive KernelStep {σ : Type} (Ok : KernelRun → Nat → Prop) (debug : Bool) (reader : Reader σ) :
    KernelRun → KernelRun → Prop
  /-- `kmalloc` from a slab that is there -/
  | kmalloc {k : KernelRun} {numBytes addr : Nat} {s' : SlabState Machine}
      (hcall : kmalloc (kernelPages debug k.pml4) debug numBytes k.slabs = .ok (addr, s'))
      (hmaps : kmallocMaps numBytes k.slabs = none) :
      KernelStep Ok debug reader k { k with slabs := s' }
  /-- `kmalloc` with a new slab -/
  | kmallocSlab {k : KernelRun} {numBytes addr virt frame : Nat} {m : Machine}
      {s' : SlabState Machine}
      (hcall : kmalloc (kernelPages debug k.pml4) debug numBytes k.slabs = .ok (addr, s'))
      (hmaps : kmallocMaps numBytes k.slabs = some virt)
      (hframe : allocPage debug k.slabs.pages = .ok (frame, m))
      (hclear : NoLargeOnPath k.mem k.pml4 virt) (hok : Ok k virt) :
      KernelStep Ok debug reader k { k with slabs := s', frames := frame :: k.frames }
  /-- `kfree` that leaves objects in the slab -/
  | kfree {k : KernelRun} {addr : Nat} {s' : SlabState Machine}
      (hcall : kfree (kernelPages debug k.pml4) debug addr k.slabs = .ok s')
      (hframe : kfreeFrame addr k.slabs = none) :
      KernelStep Ok debug reader k { k with slabs := s' }
  /-- `kfree` of the last object of a slab; its header holds the frame `kmalloc` took -/
  | kfreeSlab {k : KernelRun} {addr frame : Nat} {s' : SlabState Machine}
      (hcall : kfree (kernelPages debug k.pml4) debug addr k.slabs = .ok s')
      (hframe : kfreeFrame addr k.slabs = some frame) (hheader : frame ∈ k.frames)
      (hclear : NoLargeOnPath k.mem k.pml4 (slabOf addr)) :
      KernelStep Ok debug reader k { k with slabs := s', frames := k.frames.erase frame }
  /-- the mapping of a device -/
  | map {k : KernelRun} {phys virt flags : Nat} {m : Machine}
      (hcall : vmmMap debug k.pml4 phys virt flags k.slabs.pages = .ok ((), m))
      (hphys : phys < 2 ^ 64) (hflags : flags < 2 ^ 64)
      (hclear : NoLargeOnPath k.mem k.pml4 virt) (hok : Ok k virt) :
      KernelStep Ok debug reader k (k.setMachine m)
  /-- the mapping of a part of the frame buffer -/
  | mapLarge {k : KernelRun} {phys virt flags : Nat} {m : Machine}
      (hcall : vmmMapLarge debug k.pml4 phys virt flags k.slabs.pages = .ok ((), m))
      (hphys : phys < 2 ^ 64) (hflags : flags < 2 ^ 64)
      (hclear : NoHugeOnPath k.mem k.pml4 virt) (hok : Ok k virt) :
      KernelStep Ok debug reader k (k.setMachine m)
  /-- a root table, the loader, and `process_create` -/
  | create {k : KernelRun} {root : Nat} {m₁ m₂ m₃ : Machine} {process process' : Process}
      {pid entry cs ss rflags stackTop stackSize : Nat}
      (hinit : vmmInit debug k.slabs.pages = .ok (root, m₁))
      (hload : Loaded debug reader root m₁ m₂) (hargs : CreateArgs stackTop stackSize)
      (hcreate : processCreate debug process pid entry cs ss rflags stackTop stackSize
        processVirtKernelStackTop processDefaultKernelStackSize root root k.pml4 m₂ =
          .ok (process', m₃)) :
      KernelStep Ok debug reader k { k.setMachine m₃ with roots := root :: k.roots }
  /-- processes end, and the rest of the system works with its own frames -/
  | other {k : KernelRun} {roots : List Nat} {mem : ByteMem} {m : Machine}
      (hroots : roots.Sublist k.roots) (hkeep : HalfUntouched k.slabs.pages k.pml4 roots k.frames m) :
      KernelStep Ok debug reader k
        { k with slabs := { k.slabs with mem := mem, pages := m }, roots := roots }

/-- Every upper-half address outside the slot for kernel stacks is translated alike. -/
def KernelRun.Shared (k : KernelRun) : Prop :=
  ∀ root ∈ k.roots, ∀ virt, ¬ ProcessHalf (pml4Idx virt) → walk k.mem root virt = walk k.mem k.pml4 virt

/-- The kernel may map a page here: not in the slot for kernel stacks and, once there are
processes, below a root entry that they have. -/
def KernelRun.CanMap (k : KernelRun) (virt : Nat) : Prop :=
  pml4Idx virt ≠ kernelStackSlot ∧
    (k.roots = [] ∨ tableEntry k.mem k.pml4 (pml4Idx virt) ≠ 0)

/-- The invariant of a run. -/
def KernelRun.Inv (k : KernelRun) : Prop := SharedHalf k.slabs.pages k.pml4 k.roots k.frames

theorem KernelRun.Inv.shared {k : KernelRun} (hinv : k.Inv) : k.Shared := fun root hroot virt hvirt =>
  walk_congr (SharedHalf.shared hinv root hroot (pml4Idx virt) hvirt)

theorem KernelRun.Initial.inv {k : KernelRun} (hinit : k.Initial) : k.Inv := by
  refine ⟨hinit.tree, hinit.slot, ?_, ?_, ?_⟩ <;> simp [hinit.roots, hinit.frames]

section Steps

variable {debug : Bool} {pml4 numBytes addr virt frame : Nat} {s s' : SlabState Machine}
variable {m : Machine}

theorem map_snd_ok_iff {x : Except KPanic (Unit × Machine)} :
    x.map Prod.snd = .ok m ↔ x = .ok ((), m) := by
  cases x with
  | error panic => simp [Except.map]
  | ok result => simp [Except.map, Prod.ext_iff]

/-- What `kmalloc` does to the pages. -/
theorem kmalloc_pages (hcall : kmalloc (kernelPages debug pml4) debug numBytes s = .ok (addr, s')) :
    kmallocMaps numBytes s = none ∧ s'.pages = s.pages ∨
      ∃ virt frame m, kmallocMaps numBytes s = some virt ∧
        allocPage debug s.pages = .ok (frame, m) ∧
        vmmMap debug pml4 frame virt vmmFlagsKernelData m = .ok ((), s'.pages) := by
  unfold kmalloc at hcall
  split at hcall
  · cases hcall
  · unfold kmallocMaps
    cases hbin : kmallocBin numBytes with
    | none =>
      rw [hbin] at hcall
      cases hcall
    | some b =>
      rw [hbin] at hcall
      obtain ⟨s1, hslab, htake⟩ := binAlloc_ok_inv hcall
      have hpages : s'.pages = s1.pages := by
        rw [← takeObject_pages b s1, htake]
      rcases hslab with ⟨hempty, hnew⟩ | ⟨hsome, rfl⟩
      · right
        obtain ⟨phys, m, m', halloc, hmap, rfl⟩ := newSlab_ok_inv hnew
        refine ⟨_, phys, m, if_pos hempty, halloc, ?_⟩
        rw [hpages]
        exact map_snd_ok_iff.mp hmap
      · exact Or.inl ⟨if_neg hsome, hpages⟩

/-- What `kfree` does to the pages. -/
theorem kfree_pages (hcall : kfree (kernelPages debug pml4) debug addr s = .ok s') :
    kfreeFrame addr s = none ∧ s'.pages = s.pages ∨
      ∃ frame m, kfreeFrame addr s = some frame ∧ freePage debug frame s.pages = .ok ((), m) ∧
        vmmUnmap debug pml4 (slabOf addr) m = .ok ((), s'.pages) := by
  have hslab : addr &&& (2 ^ 64 - pageSize) = slabOf addr := rfl
  have hbin := binFree_bin_lt hcall
  rcases binFree_ok_inv (b := ⟨_, hbin⟩) hslab rfl hcall with ⟨hzero, hrelease⟩ | ⟨hne, rfl⟩
  · right
    obtain ⟨m, m', hfree, hunmap, rfl⟩ := releaseSlab_ok_inv hrelease
    rw [returnObject_pages] at hfree
    refine ⟨_, m, ?_, map_snd_ok_iff.mp hfree, map_snd_ok_iff.mp hunmap⟩
    unfold kfreeFrame
    rw [dif_pos hbin, if_pos hzero]
  · refine Or.inl ⟨?_, returnObject_pages _ _ _ s⟩
    unfold kfreeFrame
    rw [dif_pos hbin, if_neg hne]

/-- Every step keeps the invariant, if the kernel maps pages only where it may. -/
theorem kernelStep_inv {σ : Type} {reader : Reader σ} {k k' : KernelRun} (hreader : reader.Bounded)
    (hinv : k.Inv) (hstep : KernelStep KernelRun.CanMap debug reader k k') : k'.Inv := by
  have hdata : vmmFlagsKernelData < 2 ^ 64 := by decide
  cases hstep with
  | kmalloc hcall hmaps =>
    rcases kmalloc_pages hcall with ⟨-, hpages⟩ | ⟨_, _, _, hsome, -⟩
    · unfold KernelRun.Inv
      rw [hpages]
      exact hinv
    · rw [hmaps] at hsome
      cases hsome
  | @kmallocSlab numBytes addr virt frame m s' hcall hmaps hframe hclear hok =>
    rcases kmalloc_pages hcall with ⟨hnone, -⟩ | ⟨virt', frame', m', hsome, halloc, hmap⟩
    · rw [hmaps] at hnone
      cases hnone
    · rw [hmaps] at hsome
      cases hsome
      rw [hframe] at halloc
      cases halloc
      have htaken := SharedHalf.alloc hinv hframe
      have hsame : m.mem = k.mem := by
        obtain ⟨idx, -, -, rfl⟩ := allocPage_ok_iff.mp hframe
        rfl
      have hphys : frame < 2 ^ 64 := by
        have hsmall := (htaken.held frame (by simp)).small
        unfold pageSize at hsmall
        omega
      refine htaken.tableOp (vmmMap_tableOp htaken.tree (hsame ▸ hclear) hphys hdata hmap) hok.1 ?_
      rw [hsame]
      exact hok.2
  | kfree hcall hframe =>
    rcases kfree_pages hcall with ⟨-, hpages⟩ | ⟨_, _, hsome, -⟩
    · unfold KernelRun.Inv
      rw [hpages]
      exact hinv
    · rw [hframe] at hsome
      cases hsome
  | kfreeSlab hcall hframe hheader hclear =>
    rcases kfree_pages hcall with ⟨hnone, -⟩ | ⟨frame', m, hsome, hfree, hunmap⟩
    · rw [hframe] at hnone
      cases hnone
    · rw [hframe] at hsome
      cases hsome
      have hgiven := SharedHalf.free hinv hheader hfree
      obtain ⟨pmm, -, rfl⟩ := freePage_ok_iff.mp hfree
      exact hgiven.unmap hclear hunmap
  | map hcall hphys hflags hclear hok =>
    exact SharedHalf.tableOp hinv (vmmMap_tableOp hinv.tree hclear hphys hflags hcall) hok.1 hok.2
  | mapLarge hcall hphys hflags hclear hok =>
    exact SharedHalf.tableOp hinv (vmmMapLarge_tableOp hinv.tree hclear hphys hflags hcall) hok.1
      hok.2
  | create hinit hload hargs hcreate =>
    exact SharedHalf.create hreader hinv hinit hload hargs hcreate
  | other hroots hkeep => exact (SharedHalf.sublist hinv hroots).other hkeep

end Steps

/-- As long as the kernel maps pages only below root entries that every process has, all
processes share one kernel half. -/
theorem kernel_half_shared {σ : Type} {debug : Bool} {reader : Reader σ} {k₀ k : KernelRun}
    (hreader : reader.Bounded) (hinit : k₀.Initial)
    (hrun : ReflTransGen (KernelStep KernelRun.CanMap debug reader) k₀ k) : k.Shared :=
  KernelRun.Inv.shared (run_invariant hrun hinit.inv fun _ _ hinv hstep =>
    kernelStep_inv hreader hinv hstep)

/-! ## Concrete runs -/

instance : DecidablePred ProcessHalf := fun i =>
  inferInstanceAs (Decidable (i.val < 256 ∨ i = kernelStackSlot))

/-- The kernel with an empty root table, before its first process. -/
def emptyKernel (slabTop : Nat) : Except KPanic KernelRun := do
  let (pml4, m) ← vmmInit true (Machine.allFree 2)
  return {
    slabs := {
      mem := fun _ => 0
      freeSlabs := fun _ => 0
      fullSlabs := fun _ => 0
      slabTop := slabTop
      pages := m }
    pml4 := pml4
    roots := []
    frames := [] }

/-- The idle process. -/
def createIdle (k : KernelRun) : Except KPanic KernelRun := do
  let (root, m₁) ← vmmInit true k.slabs.pages
  let (_, m₃) ← processCreate true (bareProcess root 0) 0 0 0x08 0x10 0x200 0 0
    processVirtKernelStackTop processDefaultKernelStackSize root root k.pml4 m₁
  return { k.setMachine m₃ with roots := root :: k.roots }

/-- `kmalloc` with a new slab. -/
def kmallocNew (numBytes : Nat) (k : KernelRun) : Except KPanic KernelRun := do
  let (frame, _) ← allocPage true k.slabs.pages
  let (_, s) ← kmalloc (kernelPages true k.pml4) true numBytes k.slabs
  return { k with slabs := s, frames := frame :: k.frames }

theorem except_bind_ok_iff {α β : Type} {x : Except KPanic α} {f : α → Except KPanic β} {b : β} :
    x >>= f = .ok b ↔ ∃ a, x = .ok a ∧ f a = .ok b := by
  cases x with
  | error panic => simp [bind, Except.bind]
  | ok a => simp [bind, Except.bind]

theorem emptyKernel_initial {slabTop : Nat} {k : KernelRun} (hcall : emptyKernel slabTop = .ok k) :
    k.Initial ∧ k.slabs.slabTop = slabTop ∧ (∀ b, k.slabs.freeSlabs b = 0) ∧
      ∀ i : Fin 512, tableEntry k.mem k.pml4 i = 0 := by
  obtain ⟨⟨pml4, m⟩, hinit, hcall⟩ := except_bind_ok_iff.mp hcall
  cases hcall
  have hempty := vmmInit_emptyRoot hinit
  exact ⟨⟨hempty.tree _, hempty.empty _, rfl, rfl⟩, rfl, fun _ => rfl, hempty.empty⟩

/-- Nothing is mapped below an empty root entry. -/
theorem noLargeOnPath_of_empty {mem : ByteMem} {pml4 virt : Nat}
    (hzero : tableEntry mem pml4 (pml4Idx virt) = 0) : NoLargeOnPath mem pml4 virt := by
  intro q j hpre
  have hentry : entryAt mem pml4 [] (pml4Idx virt) = 0 := by
    rw [entryAt_of_tableAt (tableAt_nil _ _), hzero]
  have hnone : entryAt mem pml4 q j = 0 := by
    cases q with
    | nil =>
      obtain rfl : j = pml4Idx virt := (List.cons_prefix_cons.mp hpre).1
      exact hentry
    | cons i q =>
      obtain rfl : i = pml4Idx virt := (List.cons_prefix_cons.mp hpre).1
      exact entryAt_of_none (tableAt_below_empty (by rw [hentry, childTable_zero])
        (by simp)) j
  rw [hnone, Nat.zero_and]

section ConcreteSteps

variable {σ : Type} {Ok : KernelRun → Nat → Prop} {reader : Reader σ} {k k' : KernelRun}

theorem createIdle_step (hcall : createIdle k = .ok k') : KernelStep Ok true reader k k' := by
  obtain ⟨⟨root, m1⟩, hinit, hcall⟩ := except_bind_ok_iff.mp hcall
  obtain ⟨⟨process, m3⟩, hcreate, hcall⟩ := except_bind_ok_iff.mp hcall
  cases hcall
  exact .create hinit (Or.inl rfl) ⟨Nat.zero_le _, Nat.le_refl 0⟩ hcreate

theorem kmallocNew_step {numBytes virt : Nat} (hmaps : kmallocMaps numBytes k.slabs = some virt)
    (hzero : tableEntry k.mem k.pml4 (pml4Idx virt) = 0) (hok : Ok k virt)
    (hcall : kmallocNew numBytes k = .ok k') : KernelStep Ok true reader k k' := by
  obtain ⟨⟨frame, m⟩, hframe, hcall⟩ := except_bind_ok_iff.mp hcall
  obtain ⟨⟨addr, s⟩, hkmalloc, hcall⟩ := except_bind_ok_iff.mp hcall
  cases hcall
  exact .kmallocSlab hkmalloc hmaps hframe (noLargeOnPath_of_empty hzero) hok

end ConcreteSteps

/-- A slab at the start of the region, then a process. -/
def slabThenProcess : Except KPanic KernelRun := do
  let k ← emptyKernel 0
  let k ← kmallocNew 8 k
  createIdle k

/-- The process sees the slab. -/
theorem kernel_half_shared_slab : ∃ k₀ k root, k₀.Initial ∧
    ReflTransGen (KernelStep KernelRun.CanMap true (idealReader tinyElf)) k₀ k ∧
      k.roots = [root] ∧ walk k.mem root slabVirtStart = walk k.mem k.pml4 slabVirtStart ∧
      (walk k.mem k.pml4 slabVirtStart).isSome := by
  have hresult : slabThenProcess.toOption.map (fun k =>
      (k.roots.length, (walk k.mem k.pml4 slabVirtStart).isSome)) = some (1, true) := by
    decide +kernel
  cases hall : slabThenProcess with
  | error panic =>
    rw [hall] at hresult
    cases hresult
  | ok k =>
    rw [hall] at hresult
    obtain ⟨hlength, hmapped⟩ := Prod.mk.inj (Option.some.inj hresult)
    obtain ⟨root, hroots⟩ := List.length_eq_one_iff.mp hlength
    obtain ⟨k₀, hboot, hrest⟩ := except_bind_ok_iff.mp hall
    obtain ⟨k₁, hkmalloc, hcreate⟩ := except_bind_ok_iff.mp hrest
    obtain ⟨hinit, htop, hfree, hempty⟩ := emptyKernel_initial hboot
    have hmaps : kmallocMaps 8 k₀.slabs = some slabVirtStart := by
      unfold kmallocMaps
      simp [hfree, htop, kmallocBin, kmallocCases, slabVirtStart]
    have hrun : ReflTransGen (KernelStep KernelRun.CanMap true (idealReader tinyElf))
        k₀ k :=
      (ReflTransGen.single (kmallocNew_step hmaps (hempty _)
        ⟨by decide, Or.inl hinit.roots⟩ hkmalloc)).tail (createIdle_step hcreate)
    refine ⟨k₀, k, root, hinit, hrun, hroots, ?_, hmapped⟩
    exact kernel_half_shared (idealReader_bounded tinyElf) hinit hrun root (by simp [hroots])
      slabVirtStart (by decide)

/-- The first address of the second root entry of the slab region. -/
def secondSlabEntry : Nat := slabVirtStart + 0x8000000000

/-- A process, and then a slab for which the region needs its second root entry. -/
def processThenSlab : Except KPanic (KernelRun × KernelRun × KernelRun) := do
  let k₀ ← emptyKernel 0x8000000000
  let k₁ ← createIdle k₀
  let k₂ ← kmallocNew 8 k₁
  return (k₀, k₁, k₂)

/-- What the evaluation of the run shows: the address of the slab, the root entry before, and
whether process and kernel see the slab afterwards. -/
theorem processThenSlab_result : processThenSlab.toOption.map (fun (_, k1, k2) =>
    (kmallocMaps 8 k1.slabs, tableEntry k1.mem k1.pml4 (pml4Idx secondSlabEntry),
      k2.roots.map fun root => walk k2.mem root secondSlabEntry,
      (walk k2.mem k2.pml4 secondSlabEntry).isSome)) =
    some (some secondSlabEntry, 0, [none], true) := by
  decide +kernel

/-- Where the kernel maps a page may matter: the idle process does not see the new slab. -/
theorem kernel_half_diverges : ∃ k₀ k : KernelRun, k₀.Initial ∧
    ReflTransGen (KernelStep (fun _ _ => True) true (idealReader tinyElf)) k₀ k ∧
      ¬ k.Shared := by
  have hresult := processThenSlab_result
  cases hall : processThenSlab with
  | error panic =>
    rw [hall] at hresult
    cases hresult
  | ok states =>
    obtain ⟨k₀, k₁, k₂⟩ := states
    rw [hall] at hresult
    obtain ⟨hmaps, hresult⟩ := Prod.mk.inj (Option.some.inj hresult)
    obtain ⟨hzero, hresult⟩ := Prod.mk.inj hresult
    obtain ⟨hwalks, hmapped⟩ := Prod.mk.inj hresult
    obtain ⟨k₀, hboot, hrest⟩ := except_bind_ok_iff.mp hall
    obtain ⟨k₁, hcreate, hrest⟩ := except_bind_ok_iff.mp hrest
    obtain ⟨k₂, hkmalloc, hrest⟩ := except_bind_ok_iff.mp hrest
    cases hrest
    refine ⟨k₀, k₂, (emptyKernel_initial hboot).1,
      (ReflTransGen.single (createIdle_step hcreate)).tail
        (kmallocNew_step hmaps hzero trivial hkmalloc), ?_⟩
    intro hshared
    obtain ⟨root, hroots, hnone⟩ : ∃ root, k₂.roots = [root] ∧
        walk k₂.mem root secondSlabEntry = none := by
      obtain ⟨root, rest, hroots, hnone, hrest⟩ := List.map_eq_cons_iff.mp hwalks
      exact ⟨root, by rw [hroots, List.map_eq_nil_iff.mp hrest], hnone⟩
    rw [← hshared root (by simp [hroots]) secondSlabEntry (by decide), hnone] at hmapped
    cases hmapped

end Pristine.Kernel
