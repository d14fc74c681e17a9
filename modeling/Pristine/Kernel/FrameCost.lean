import Pristine.Kernel.VmmSpec

/-!
# How many frames an operation takes

`Takes n run s` says what `run` costs the page allocator from `s`: it takes `n`
frames, and it fails only for lack of memory, when fewer than `n` are free.  The
costs of a sequence add up (`Takes.bind`), so an operation with a known cost
succeeds exactly when its frames are there (`Takes.ok_iff`).

`vmm_map` of an unmapped page takes a frame for each table that is missing on the
way to the page (`takes_vmmMap`), and fails for no other reason.
-/

namespace Pristine.Kernel

open Lib

/-- The number of free frames. -/
def clearFrames (m : Machine) : Nat := clearCount m.pmm.bitmap m.pmm.bitCount

/-- `run` takes `n` frames, or fails because there are not so many. -/
def Takes {α : Type} (n : Nat) (run : KernelM α) (s : Machine) : Prop :=
  match run s with
  | .ok (_, s') => clearFrames s' + n = clearFrames s
  | .error panic => panic = .pmmAllocNoMemory ∧ clearFrames s < n

namespace Takes

variable {α β : Type} {n k : Nat} {s s' : Machine}

theorem of_ok {run : KernelM α} {a : α} (hcall : run s = .ok (a, s'))
    (hcost : clearFrames s' + n = clearFrames s) : Takes n run s := by
  unfold Takes
  rw [hcall]
  exact hcost

/-- What follows a first operation may cost what depends on its outcome, if the sum does not. -/
theorem bind_of_le {run : KernelM α} {next : α → KernelM β} {m : Nat} (hrun : Takes n run s)
    (hle : n ≤ m) (hnext : ∀ a t, run s = .ok (a, t) → ∃ k, n + k = m ∧ Takes k (next a) t) :
    Takes m (run >>= next) s := by
  unfold Takes at *
  cases hcall : run s with
  | error panic =>
    rw [hcall] at hrun
    rw [bind_error_iff.mpr (Or.inl hcall)]
    exact ⟨hrun.1, by omega⟩
  | ok p =>
    obtain ⟨a, t⟩ := p
    obtain ⟨k, rfl, hafter⟩ := hnext a t hcall
    rw [hcall] at hrun
    rw [bind_eq_of_ok hcall]
    cases hrest : next a t with
    | error panic =>
      rw [hrest] at hafter
      exact ⟨hafter.1, by omega⟩
    | ok r =>
      obtain ⟨b, u⟩ := r
      rw [hrest] at hafter
      simp only at hafter hrun ⊢
      omega

theorem bind {run : KernelM α} {next : α → KernelM β} (hrun : Takes n run s)
    (hnext : ∀ a t, run s = .ok (a, t) → Takes k (next a) t) : Takes (n + k) (run >>= next) s :=
  hrun.bind_of_le (Nat.le_add_right n k) fun a t hcall => ⟨k, rfl, hnext a t hcall⟩

/-- With its frames there, an operation succeeds; without them, it fails for lack of memory. -/
theorem ok_iff {run : KernelM α} (hrun : Takes n run s) :
    (∃ a t, run s = .ok (a, t)) ↔ n ≤ clearFrames s := by
  unfold Takes at hrun
  cases hcall : run s with
  | error panic =>
    rw [hcall] at hrun
    simp only [reduceCtorEq, exists_false, false_iff]
    omega
  | ok p =>
    rw [hcall] at hrun
    refine iff_of_true ⟨p.1, p.2, rfl⟩ ?_
    simp only at hrun
    omega

theorem panic_eq {run : KernelM α} {panic : KPanic} (hrun : Takes n run s)
    (hcall : run s = .error panic) : panic = .pmmAllocNoMemory := by
  unfold Takes at hrun
  rw [hcall] at hrun
  exact hrun.1

theorem error_of_lt {run : KernelM α} (hrun : Takes n run s) (hfew : clearFrames s < n) :
    run s = .error .pmmAllocNoMemory := by
  unfold Takes at hrun
  cases hcall : run s with
  | error panic =>
    rw [hcall] at hrun
    rw [hrun.1]
  | ok p =>
    rw [hcall] at hrun
    simp only at hrun
    omega

theorem pure (a : α) : Takes 0 (Pure.pure a : KernelM α) s :=
  of_ok (pure_ok_iff.mpr ⟨rfl, rfl⟩) rfl

theorem guard {condition : Prop} [Decidable condition] (hok : ¬ condition) (panic : KPanic) :
    Takes 0 (panicIf condition panic) s :=
  of_ok (a := ()) (panicIf_ok_iff.mpr ⟨hok, rfl⟩) rfl

theorem read (table idx : Nat) : Takes 0 (readEntry table idx) s :=
  of_ok rfl rfl

theorem write (table idx value : Nat) : Takes 0 (writeEntry table idx value) s :=
  of_ok rfl rfl

theorem zero (frame : Nat) : Takes 0 (zeroPage frame) s :=
  of_ok rfl rfl

theorem alloc (debug : Bool) : Takes 1 (allocPage debug) s := by
  unfold Takes
  cases hcall : allocPage debug s with
  | error panic =>
    obtain ⟨hpanic, hfull⟩ := allocPage_error_iff.mp hcall
    refine ⟨hpanic, ?_⟩
    unfold clearFrames
    rw [(clearCount_eq_zero_iff _ _).mpr hfull]
    exact Nat.one_pos
  | ok p =>
    obtain ⟨page, t⟩ := p
    obtain ⟨idx, hfirst, -, rfl⟩ := allocPage_ok_iff.mp hcall
    exact clearCount_orBit hfirst.lt hfirst.clear

end Takes

/-! ## The tables on the way to a page -/

/-- The paths of the three tables on the way to a page. -/
def tablePaths (virt : Nat) : Finset (List (Fin 512)) :=
  {[pml4Idx virt], [pml4Idx virt, pdptIdx virt], [pml4Idx virt, pdptIdx virt, pdIdx virt]}

/-- How many of the three have a property. -/
theorem card_filter_tablePaths (virt : Nat) (p : List (Fin 512) → Prop) [DecidablePred p] :
    ((tablePaths virt).filter p).card =
      (if p [pml4Idx virt] then 1 else 0) + ((if p [pml4Idx virt, pdptIdx virt] then 1 else 0) +
        if p [pml4Idx virt, pdptIdx virt, pdIdx virt] then 1 else 0) := by
  unfold tablePaths
  rw [Finset.card_filter, Finset.sum_insert (by simp), Finset.sum_insert (by simp),
    Finset.sum_singleton]

section Levels

variable {P : List (Fin 512) → Prop} {debug : Bool} {root virt : Nat} {s s' : Machine}

/-- A level takes a frame if its table is missing. -/
theorem takes_vmmNextTable {iflags t : Nat} {p : List (Fin 512)} {i : Fin 512}
    (hnode : tableAt s.mem root p = some t)
    (hclear : entryAt s.mem root p i &&& vmmPageSizeFlag = 0) :
    Takes (if tableAt s.mem root (p ++ [i]) = none then 1 else 0)
      (vmmNextTable debug iflags t i) s := by
  rw [tableAt_snoc]
  rw [entryAt_of_tableAt hnode] at hclear ⊢
  by_cases hzero : tableEntry s.mem t i = 0
  · rw [hzero, if_pos childTable_zero, ← Nat.zero_add 1]
    refine (Takes.read t i).bind fun entry s1 hread => ?_
    obtain ⟨rfl, rfl⟩ := readEntry_ok_iff.mp hread
    rw [if_pos hzero]
    exact (Takes.alloc debug).bind fun page _ _ => (Takes.write _ _ _).bind fun _ _ _ =>
      (Takes.zero _).bind fun _ _ _ => Takes.pure _
  · rw [if_neg (by rw [childTable_of_ne hzero hclear]; exact Option.some_ne_none _)]
    refine (Takes.read t i).bind (k := 0) fun entry s1 hread => ?_
    obtain ⟨rfl, rfl⟩ := readEntry_ok_iff.mp hread
    rw [if_neg hzero]
    exact Takes.pure _

/-- Growing along a path leaves the tables off it. -/
theorem Grew.tableAt_off {path q : List (Fin 512)} {j : Fin 512} (hgrew : Grew P root path s s')
    (hq : P q) (hoff : ¬ q ++ [j] <+: path) :
    tableAt s'.mem root (q ++ [j]) = tableAt s.mem root (q ++ [j]) := by
  rw [tableAt_snoc, tableAt_snoc]
  rcases hgrew.entries q j hq with hsame | ⟨-, hpre, -⟩
  · rw [hsame]
  · exact absurd hpre hoff

/-- The three levels take a frame for each missing table. -/
theorem takes_vmmPageTable (debug : Bool) {iflags : Nat} (hclosed : PrefixClosed P)
    (htree : PageTree P s root) (hpath : P (pathToPt virt)) (hclear : NoLargeOnPath s.mem root virt)
    (hiflags : LinkFlags iflags) :
    Takes ((tablePaths virt).filter fun q => tableAt s.mem root q = none).card
      (vmmPageTable debug iflags root virt) s := by
  have hP2 : P [pml4Idx virt, pdptIdx virt] := hclosed.mono (by simp [pathToPt]) hpath
  have hP1 : P [pml4Idx virt] := hclosed.mono (by simp [pathToPt]) hpath
  have hP0 : P [] := hclosed.mono (by simp) hpath
  obtain ⟨hclear1, hclear2, hclear3⟩ := hclear.levels
  rw [card_filter_tablePaths]
  refine (takes_vmmNextTable (p := []) (tableAt_nil s.mem root) hclear1).bind fun pdpt s1 hnext1 => ?_
  obtain ⟨hgrew1, htable1⟩ := vmmNextTable_grew hclosed htree hP0 hP1
    (tableAt_nil s.mem root) hclear1 hiflags hnext1
  have hsame2 : tableAt s1.mem root [pml4Idx virt, pdptIdx virt] =
      tableAt s.mem root [pml4Idx virt, pdptIdx virt] :=
    hgrew1.tableAt_off (q := [pml4Idx virt]) hP1 (by simp)
  have hclear2' := hgrew1.entry_page_clear hP1 hclear2
  rw [← hsame2]
  refine (takes_vmmNextTable (p := [pml4Idx virt]) htable1 hclear2').bind fun pd s2 hnext2 => ?_
  obtain ⟨hgrew2, htable2⟩ := vmmNextTable_grew hclosed hgrew1.tree hP1 hP2 htable1
    hclear2' hiflags hnext2
  have hsame3 : tableAt s2.mem root [pml4Idx virt, pdptIdx virt, pdIdx virt] =
      tableAt s.mem root [pml4Idx virt, pdptIdx virt, pdIdx virt] :=
    (hgrew2.tableAt_off (q := [pml4Idx virt, pdptIdx virt]) hP2 (by simp)).trans
      (hgrew1.tableAt_off (q := [pml4Idx virt, pdptIdx virt]) hP2 (by simp))
  rw [← hsame3]
  exact takes_vmmNextTable (p := [pml4Idx virt, pdptIdx virt]) htable2
    (hgrew2.entry_page_clear hP2 (hgrew1.entry_page_clear hP2 hclear3))

/-- Mapping an unmapped page takes the tables on its way. -/
theorem takes_vmmMap (debug : Bool) {phys : Nat} (flags : Nat) (hclosed : PrefixClosed P)
    (htree : PageTree P s root) (hpath : P (pathToPt virt)) (hclear : NoLargeOnPath s.mem root virt)
    (hphys : isAligned phys pageSize = true) (hvirt : isAligned virt pageSize = true)
    (hempty : entryAt s.mem root (pathToPt virt) (ptIdx virt) = 0) :
    Takes ((tablePaths virt).filter fun q => tableAt s.mem root q = none).card
      (vmmMap debug root phys virt flags) s := by
  have hlevels := takes_vmmPageTable debug hclosed htree hpath hclear
    (tableFlags_linkFlags flags)
  generalize ((tablePaths virt).filter fun q => tableAt s.mem root q = none).card = n at *
  rw [show n = 0 + (0 + (n + 0)) by omega]
  refine (Takes.guard (by simp [hphys]) _).bind fun _ _ hguard => ?_
  obtain ⟨-, rfl⟩ := panicIf_ok_iff.mp hguard
  refine (Takes.guard (by simp [hvirt]) _).bind fun _ _ hguard => ?_
  obtain ⟨-, rfl⟩ := panicIf_ok_iff.mp hguard
  refine hlevels.bind fun pt s1 htables => ?_
  obtain ⟨hgrew, htable⟩ := vmmPageTable_grew hclosed htree hpath hclear
    (tableFlags_linkFlags flags) htables
  -- the entry is still empty when the page table is reached
  have hstill : tableEntry s1.mem pt (ptIdx virt) = 0 := by
    rw [← entryAt_of_tableAt htable]
    rcases hgrew.entries _ (ptIdx virt) hpath with hsame | ⟨-, hpre, -⟩
    · rw [hsame, hempty]
    · have hlen := hpre.length_le
      simp at hlen
  cases debug with
  | false =>
    simp only [Ops.setEntry, liftM_kernel, Bool.false_eq_true, if_false]
    exact Takes.write _ _ _
  | true =>
    simp only [Ops.setEntry, liftM_kernel, if_true]
    refine (Takes.read pt _).bind (k := 0) fun old _ hread => ?_
    obtain ⟨rfl, rfl⟩ := readEntry_ok_iff.mp hread
    exact (Takes.guard (not_not.mpr hstill) _).bind (k := 0) fun _ _ _ => Takes.write _ _ _

end Levels

end Pristine.Kernel
