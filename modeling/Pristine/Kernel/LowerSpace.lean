import Pristine.Kernel.KernelHalf

/-!
# Destroying the lower half

The frames of the lower half are the tables behind paths of at most three
indices and whatever the page tables' entries hold.  The entries are taken as
they are: a page may be mapped without the present bit, or with bit 7, which in
a page table is a memory-type bit.

While the lower half is built by `vmm_map`, `vmm_unmap` and `vmm_free`, its
frames have unique paths (`LowerSpace`).  That decides what `vmm_destroy` does:
no frame is given back twice, and because a path is given back after everything
below it, no table is read after it was given back.

* `lowerSpace_of_run`: the frames of every lower half that was built from an empty
  one.
* `vmmDestroy_frees_once`: what `vmm_destroy` then gives back.

Of the frames behind the kernel's root entries those count that were in use when the
lower half was empty: a frame that is mapped without having been marked, as that of
the local APIC is, may be handed out as a table.
-/

namespace Pristine.Kernel

open Lib

/-! ## Frames of the two halves -/

/-- A frame behind a root entry below 256: a table, or the frame of a page-table entry. -/
def LowerFrame (mem : ByteMem) (root f : Nat) : Prop :=
  ∃ q, Under LowerHalf q ∧ q.length ≤ 4 ∧ frameAt mem root q = some f

/-- The root entries of the kernel. -/
def UpperHalf (i : Fin 512) : Prop := ¬ LowerHalf i

/-- A frame behind a root entry from 256 on: a table, or the frame of a page-table entry. -/
def UpperFrame (mem : ByteMem) (root f : Nat) : Prop :=
  ∃ q, Under UpperHalf q ∧ q.length ≤ 4 ∧ frameAt mem root q = some f

/-- Paths of the tables of the lower half. -/
def LowerTable (q : List (Fin 512)) : Prop :=
  q = [] ∨ (Under LowerHalf q ∧ q.length ≤ 3)

theorem lowerTable_closed : PrefixClosed LowerTable := by
  rintro p i (hnil | ⟨⟨a, rest, heq, ha⟩, hlen⟩)
  · exact absurd hnil (by simp)
  · cases p with
    | nil => exact Or.inl rfl
    | cons b p =>
      obtain ⟨rfl, -⟩ := List.cons.inj heq
      rw [List.length_append] at hlen
      exact Or.inr ⟨⟨_, p, rfl, ha⟩, by omega⟩

theorem LowerTable.pages {q : List (Fin 512)} (hq : LowerTable q) : PagesOf LowerHalf q := by
  rcases hq with hnil | ⟨hunder, hlen⟩
  · exact Or.inl hnil
  · exact Or.inr ⟨hunder, by omega⟩

theorem LowerTable.length_le {q : List (Fin 512)} (hq : LowerTable q) : q.length ≤ 3 := by
  rcases hq with rfl | ⟨-, hlen⟩
  · exact Nat.zero_le 3
  · exact hlen

theorem lowerTable_pathToPt {virt : Nat} (hvirt : LowerHalf (pml4Idx virt)) :
    LowerTable (pathToPt virt) :=
  Or.inr ⟨⟨_, _, rfl, hvirt⟩, by simp [pathToPt]⟩

/-- A path is that of a table, or leads to a page of one. -/
theorem PagesOf.cases_length {q : List (Fin 512)} (hq : PagesOf LowerHalf q) :
    LowerTable q ∨ ∃ p j, q = p ++ [j] ∧ p.length = 3 ∧ Under LowerHalf p := by
  rcases hq with hnil | ⟨hunder, hlen⟩
  · exact Or.inl (Or.inl hnil)
  · by_cases hshort : q.length ≤ 3
    · exact Or.inl (Or.inr ⟨hunder, hshort⟩)
    · cases q using List.reverseRecOn with
      | nil => exact absurd (Nat.zero_le 3) hshort
      | append_singleton p j =>
        rw [List.length_append, List.length_singleton] at hlen hshort
        have hp : p.length = 3 := by omega
        refine Or.inr ⟨p, j, rfl, hp, ?_⟩
        obtain ⟨i, rest, heq, hi⟩ := hunder
        cases p with
        | nil => cases hp
        | cons a p =>
          obtain ⟨rfl, -⟩ := List.cons.inj heq
          exact ⟨_, p, rfl, hi⟩

theorem lowerFrame_iff {mem : ByteMem} {root f : Nat} :
    LowerFrame mem root f ↔ f ∈ lowerPaths.filterMap (frameAt mem root) := by
  rw [List.mem_filterMap]
  constructor
  · rintro ⟨q, hunder, hlen, hf⟩
    exact ⟨q, mem_lowerPaths.mpr ⟨hunder, hlen⟩, hf⟩
  · rintro ⟨q, hq, hf⟩
    obtain ⟨hunder, hlen⟩ := mem_lowerPaths.mp hq
    exact ⟨q, hunder, hlen, hf⟩

section Congr

variable {P : List (Fin 512) → Prop} {mem mem' : ByteMem} {root : Nat} {q : List (Fin 512)}

variable (hclosed : PrefixClosed P)
variable (hsame : ∀ p (i : Fin 512) t, P (p ++ [i]) → tableAt mem root p = some t →
  tableEntry mem' t i = tableEntry mem t i)

include hclosed hsame

/-- Where the entries of the tables agree, the entries found behind paths do. -/
theorem entryAt_congr {j : Fin 512} (hq : P (q ++ [j])) :
    entryAt mem' root q j = entryAt mem root q j := by
  have htable : tableAt mem' root q = tableAt mem root q := by
    refine follow_congr hclosed ?_ q (hclosed q j hq)
    intro p i t hpi ht
    rw [hsame p i t hpi ht]
  cases ht : tableAt mem root q with
  | none => rw [entryAt_of_none ht, entryAt_of_none (htable.trans ht)]
  | some t => rw [entryAt_of_tableAt ht, entryAt_of_tableAt (htable.trans ht), hsame q j t hq ht]

/-- Where the entries of the tables agree, the frames do. -/
theorem frameAt_congr (hq : P q) (hlen : q.length ≤ 4) :
    frameAt mem' root q = frameAt mem root q := by
  cases q using List.reverseRecOn with
  | nil => rfl
  | append_singleton p j =>
    have hentry := entryAt_congr hclosed hsame hq
    by_cases hshort : (p ++ [j]).length ≤ 3
    · rw [frameAt_table hshort, frameAt_table hshort, tableAt_snoc, tableAt_snoc, hentry]
    · rw [List.length_append, List.length_singleton] at hshort hlen
      rw [frameAt_page (by omega), frameAt_page (by omega), hentry]

end Congr

/-! ## Order of the accesses -/

/-- No page is read after it was given back. -/
def FreedLast (l : List Access) : Prop :=
  l.Pairwise fun before after => ∀ f addr, before = .free f → after = .read addr →
    addr / pageSize ≠ f / pageSize

/-- The frames of the lower half have one path each. -/
structure UniqueFrames (mem : ByteMem) (root : Nat) : Prop where
  unique : ∀ p q f, PagesOf LowerHalf p → PagesOf LowerHalf q → frameAt mem root p = some f →
    frameAt mem root q = some f → p = q
  aligned : ∀ q f, PagesOf LowerHalf q → frameAt mem root q = some f → f % pageSize = 0

/-- The accesses read tables from `q` down and give back frames below `q`. -/
structure WithinBelow (mem : ByteMem) (root : Nat) (q : List (Fin 512)) (l : List Access) : Prop where
  reads : ∀ addr, .read addr ∈ l → ∃ (p : List (Fin 512)) (t : Nat) (j : Fin 512), q <+: p ∧
    LowerTable p ∧ tableAt mem root p = some t ∧ addr = t + 8 * j
  frees : ∀ f, .free f ∈ l → ∃ p, q <+: p ∧ q ≠ p ∧ PagesOf LowerHalf p ∧ frameAt mem root p = some f

section Order

variable {mem : ByteMem} {root t : Nat} {q is : List (Fin 512)} {skipped : Nat → Prop}
  [DecidablePred skipped] {below : Nat → List Access}

theorem WithinBelow.nil : WithinBelow mem root q [] := ⟨by simp, by simp⟩

structure OrderedBelow (mem : ByteMem) (root : Nat) (q : List (Fin 512)) (l : List Access) : Prop
    extends WithinBelow mem root q l where
  last : FreedLast l

/-- What is done behind the entry `i` of the table `t` at `q`. -/
structure EntryDone (mem : ByteMem) (root t : Nat) (q : List (Fin 512)) (below : Nat → List Access)
    (i : Fin 512) : Prop where
  frame : frameAt mem root (q ++ [i]) = some (tableEntry mem t i &&& pteAddrMask)
  order : OrderedBelow mem root (q ++ [i]) (below (tableEntry mem t i &&& pteAddrMask))

/-- What the iteration at `i` reads and gives back. -/
def iterationTrace (mem : ByteMem) (t : Nat) (skipped : Nat → Prop) [DecidablePred skipped]
    (below : Nat → List Access) (i : Fin 512) : List Access :=
  .read (t + 8 * i) :: if skipped (tableEntry mem t i) then []
    else below (tableEntry mem t i &&& pteAddrMask) ++
      [.read (t + 8 * i), .free (tableEntry mem t i &&& pteAddrMask)]

section Iteration

variable {i : Fin 512} (hdone : ¬ skipped (tableEntry mem t i) → EntryDone mem root t q below i)

include hdone

theorem iterationTrace_reads (hq : LowerTable q) (htable : tableAt mem root q = some t) (addr : Nat)
    (hin : .read addr ∈ iterationTrace mem t skipped below i) :
    ∃ (p : List (Fin 512)) (u : Nat) (j : Fin 512), (p = q ∨ q ++ [i] <+: p) ∧ LowerTable p ∧
      tableAt mem root p = some u ∧ addr = u + 8 * j := by
  rcases List.mem_cons.mp hin with heq | hin
  · exact ⟨q, t, i, Or.inl rfl, hq, htable, Access.read.inj heq⟩
  · split at hin
    next => cases hin
    next hskip =>
      rcases List.mem_append.mp hin with hin | hin
      · obtain ⟨p, u, j, hpre, hp, hu, haddr⟩ := (hdone hskip).order.reads addr hin
        exact ⟨p, u, j, Or.inr hpre, hp, hu, haddr⟩
      · have heq : addr = t + 8 * i := by simpa using hin
        exact ⟨q, t, i, Or.inl rfl, hq, htable, heq⟩

theorem iterationTrace_frees (hi : PagesOf LowerHalf (q ++ [i])) (f : Nat)
    (hin : .free f ∈ iterationTrace mem t skipped below i) :
    ∃ p, q ++ [i] <+: p ∧ PagesOf LowerHalf p ∧ frameAt mem root p = some f := by
  rcases List.mem_cons.mp hin with heq | hin
  · cases heq
  · split at hin
    next => cases hin
    next hskip =>
      rcases List.mem_append.mp hin with hin | hin
      · obtain ⟨p, hpre, -, hp, hf⟩ := (hdone hskip).order.frees f hin
        exact ⟨p, hpre, hp, hf⟩
      · have heq : f = tableEntry mem t i &&& pteAddrMask := by simpa using hin
        exact ⟨q ++ [i], List.prefix_refl _, hi, heq ▸ (hdone hskip).frame⟩

end Iteration

section Unique

variable (huniq : UniqueFrames mem root)

include huniq

/-- A read and a frame given back at different paths concern different pages. -/
theorem UniqueFrames.page_ne {p p' : List (Fin 512)} {f : Nat} {j : Fin 512}
    (hp : PagesOf LowerHalf p) (hf : frameAt mem root p = some f) (hp' : LowerTable p')
    (ht : tableAt mem root p' = some t) (hne : p ≠ p') : (t + 8 * j) / pageSize ≠ f / pageSize := by
  have ht' : frameAt mem root p' = some t := (frameAt_table hp'.length_le).trans ht
  have hft : f ≠ t := by
    rintro rfl
    exact hne (huniq.unique p p' f hp hp'.pages hf ht')
  have hfa := huniq.aligned p f hp hf
  have hta := huniq.aligned p' t hp'.pages ht'
  unfold pageSize at *
  omega

/-- What one loop does, given what is done behind each of its entries. -/
theorem order_level (hq : LowerTable q) (hnodup : is.Nodup)
    (his : ∀ i ∈ is, PagesOf LowerHalf (q ++ [i])) (htable : tableAt mem root q = some t)
    (hdone : ∀ i ∈ is, ¬ skipped (tableEntry mem t i) → EntryDone mem root t q below i) :
    OrderedBelow mem root q (levelTrace mem t is skipped below) := by
  have hread (i : Fin 512) (hi : i ∈ is) := iterationTrace_reads (hdone i hi) hq htable
  have hfree (i : Fin 512) (hi : i ∈ is) := iterationTrace_frees (hdone i hi) (his i hi)
  have hstrict {i : Fin 512} {p : List (Fin 512)} (hpre : q ++ [i] <+: p) : q ≠ p := by
    rintro rfl
    have hlen := hpre.length_le
    simp at hlen
  have htrace : levelTrace mem t is skipped below =
      is.flatMap (iterationTrace mem t skipped below) := rfl
  rw [htrace]
  constructor
  · constructor
    · intro addr hin
      obtain ⟨i, hi, hin⟩ := List.mem_flatMap.mp hin
      obtain ⟨p, u, j, hpre, hp, hu, haddr⟩ := hread i hi addr hin
      refine ⟨p, u, j, ?_, hp, hu, haddr⟩
      rcases hpre with rfl | hpre
      · exact List.prefix_refl _
      · exact (List.prefix_append q [i]).trans hpre
    · intro f hin
      obtain ⟨i, hi, hin⟩ := List.mem_flatMap.mp hin
      obtain ⟨p, hpre, hp, hf⟩ := hfree i hi f hin
      exact ⟨p, (List.prefix_append q [i]).trans hpre, hstrict hpre, hp, hf⟩
  · refine List.pairwise_flatMap.mpr ⟨?_, ?_⟩
    · -- in one iteration the entry's own frame comes last, and its second read is of the table `t`
      intro i hi
      refine List.pairwise_cons.mpr ⟨?_, ?_⟩
      · intro _ _ f addr hread
        cases hread
      · split
        next => exact List.Pairwise.nil
        next hskip =>
          have horder := (hdone i hi hskip).order
          refine List.pairwise_append.mpr ⟨horder.last, by simp, ?_⟩
          rintro _ hbefore _ hafter f addr rfl rfl
          obtain ⟨p, hpre, -, hp, hf⟩ := horder.frees f hbefore
          have heq : addr = t + 8 * i := by simpa using hafter
          rw [heq]
          exact huniq.page_ne hp hf hq htable (hstrict hpre).symm
    · -- later iterations are about other subtrees
      refine hnodup.imp_of_mem ?_
      rintro i k hi hk hne _ hbefore _ hafter f addr rfl rfl
      obtain ⟨p, hpre, hp, hf⟩ := hfree i hi f hbefore
      obtain ⟨p', u, j, hpre', hp', hu, rfl⟩ := hread k hk addr hafter
      refine huniq.page_ne hp hf hp' hu ?_
      rintro rfl
      rcases hpre' with heq | hpre'
      · exact hstrict hpre heq.symm
      · have hsame := List.prefix_of_prefix_length_le hpre hpre' (by simp)
        have heq := hsame.eq_of_length (by simp)
        exact hne (List.singleton_inj.mp (List.append_cancel_left heq))

theorem order_pt (hunder : Under LowerHalf q) (hlen : q.length = 3)
    (htable : tableAt mem root q = some t) :
    OrderedBelow mem root q (ptTrace mem t) := by
  refine order_level huniq (Or.inr ⟨hunder, hlen.le⟩) (List.nodup_finRange 512)
    (fun i _ => Or.inr ⟨under_append hunder, by simp [hlen]⟩) htable fun i _ hne => ⟨?_, .nil, .nil⟩
  rw [frameAt_page hlen, entryAt_of_tableAt htable]
  exact if_neg hne

/-- The loop over a table whose entries lead to tables. -/
theorem order_tables (hlinks : LowerTablesLinked mem root) (hq : LowerTable q)
    (hnodup : is.Nodup) (hunder : ∀ i ∈ is, Under LowerHalf (q ++ [i])) (hlen : q.length ≤ 2)
    (htable : tableAt mem root q = some t) (hskip : ∀ entry, entry = 0 → skipped entry)
    (hbelow : ∀ i ∈ is, ∀ u, tableAt mem root (q ++ [i]) = some u →
      OrderedBelow mem root (q ++ [i]) (below u)) :
    OrderedBelow mem root q (levelTrace mem t is skipped below) := by
  refine order_level huniq hq hnodup (fun i hi => Or.inr ⟨hunder i hi, by simp; omega⟩) htable
    fun i hi hnot => ?_
  have hne : tableEntry mem t i ≠ 0 := fun hzero => hnot (hskip _ hzero)
  have hchild := (hlinks.link (hunder i hi) hlen htable hne).2
  refine ⟨?_, hbelow i hi _ hchild⟩
  rw [frameAt_table (by simp; omega)]
  exact hchild

theorem order_pd (hlinks : LowerTablesLinked mem root) (hunder : Under LowerHalf q)
    (hlen : q.length = 2) (htable : tableAt mem root q = some t) :
    OrderedBelow mem root q (pdTrace mem t) :=
  order_tables huniq hlinks (Or.inr ⟨hunder, by omega⟩) (List.nodup_finRange 512)
    (fun _ _ => under_append hunder) hlen.le htable (fun _ hzero => Or.inl hzero)
    fun _ _ _ hu => order_pt huniq (under_append hunder) (by simp [hlen]) hu

theorem order_pdpt (hlinks : LowerTablesLinked mem root) (hunder : Under LowerHalf q)
    (hlen : q.length = 1) (htable : tableAt mem root q = some t) :
    OrderedBelow mem root q (pdptTrace mem t) :=
  order_tables huniq hlinks (Or.inr ⟨hunder, by omega⟩) (List.nodup_finRange 512)
    (fun _ _ => under_append hunder) (by omega) htable (fun _ hzero => Or.inl hzero)
    fun _ _ _ hu => order_pd huniq hlinks (under_append hunder) (by simp [hlen]) hu

end Unique

theorem nodup_lowerIndices : lowerIndices.Nodup :=
  (List.nodup_finRange 256).map (Fin.castLE_injective (by decide))

/-- `vmm_destroy` reads no table that it has given back. -/
theorem freedLast_destroyTrace (huniq : UniqueFrames mem root) (hlinks : LowerTablesLinked mem root) :
    FreedLast (destroyTrace mem root) := by
  have hunder (i : Fin 512) (hi : i ∈ lowerIndices) : Under LowerHalf ([] ++ [i]) :=
    ⟨i, [], rfl, mem_lowerIndices.mp hi⟩
  exact (order_tables huniq hlinks (q := []) (Or.inl rfl) nodup_lowerIndices hunder (by simp)
    (tableAt_nil mem root) (fun _ hzero => hzero)
    fun i hi _ hu => order_pdpt huniq hlinks (hunder i hi) rfl hu).2

end Order

/-! ## The lower half while it is built -/

/-- What the kernel's root entries lead to and is in use.  Pages of more than 4 KiB are not followed: the
kernel's window on all of memory consists of such pages. -/
def KernelFrame (m : Machine) (root f : Nat) : Prop :=
  UpperFrame m.mem root f ∧ bitAt m.pmm.bitmap (f / pageSize) = true

/-- The frame is a page that the allocator has marked. -/
structure MarkedFrame (m : Machine) (f : Nat) : Prop where
  aligned : f % pageSize = 0
  small : f / pageSize < 2 ^ 32
  used : bitAt m.pmm.bitmap (f / pageSize) = true

/-- The frames of the lower half have one path each and are in use, and none of them is the kernel's. -/
structure LowerSpace (kernel : Nat → Prop) (m : Machine) (root : Nat) : Prop where
  unique : ∀ p q f, PagesOf LowerHalf p → PagesOf LowerHalf q → frameAt m.mem root p = some f →
    frameAt m.mem root q = some f → p = q
  marked : ∀ q f, PagesOf LowerHalf q → frameAt m.mem root q = some f → MarkedFrame m f
  links : LowerTablesLinked m.mem root
  aligned : ∀ f, kernel f → f % pageSize = 0
  held : ∀ f, kernel f → bitAt m.pmm.bitmap (f / pageSize) = true
  apart : ∀ f, kernel f → ¬ LowerFrame m.mem root f

/-- A frame in use that no entry of the lower half leads to and that is none of the kernel's. -/
structure NewFrame (kernel : Nat → Prop) (m : Machine) (root f : Nat) : Prop where
  small : f / pageSize < 2 ^ 32
  used : bitAt m.pmm.bitmap (f / pageSize) = true
  not_root : f ≠ root
  not_lower : ¬ LowerFrame m.mem root f
  not_kernel : ¬ kernel f

/-- A change that leaves the tables of the lower half as they are and its frames in use. -/
structure LowerUntouched (m : Machine) (root : Nat) (m' : Machine) : Prop where
  held : ∀ q f, PagesOf LowerHalf q → frameAt m.mem root q = some f →
    bitAt m'.pmm.bitmap (f / pageSize) = true
  entries : ∀ i, LowerHalf i → tableEntry m'.mem root i = tableEntry m.mem root i
  tables : ∀ q t, Under LowerHalf q → q.length ≤ 3 → tableAt m.mem root q = some t →
    ∀ a, a / pageSize = t / pageSize → m'.mem a = m.mem a

section Built

variable {m m' : Machine} {root virt : Nat} {debug : Bool} {kernel : Nat → Prop}

/-- Below the root all tables are aligned. -/
theorem tableAt_aligned {mem : ByteMem} {q : List (Fin 512)} {t : Nat} (hne : q ≠ [])
    (ht : tableAt mem root q = some t) : t % pageSize = 0 := by
  cases q using List.reverseRecOn with
  | nil => exact absurd rfl hne
  | append_singleton p i =>
    obtain ⟨u, -, -, -, haddr⟩ := tableAt_snoc_eq_some ht
    rw [← haddr]
    exact and_pteAddrMask_aligned _

theorem leafFrame_aligned {value f : Nat} (hf : leafFrame value = some f) : f % pageSize = 0 := by
  obtain ⟨-, hf⟩ := Option.ite_none_left_eq_some.mp hf
  rw [← Option.some.inj hf]
  exact and_pteAddrMask_aligned _

theorem frameAt_aligned {mem : ByteMem} {q : List (Fin 512)} {f : Nat} (hne : q ≠ [])
    (hf : frameAt mem root q = some f) : f % pageSize = 0 := by
  unfold frameAt at hf
  split at hf
  · exact leafFrame_aligned hf
  · exact tableAt_aligned hne hf

/-- A frame found after growth was there before, or is a table that was free. -/
theorem Grew.frameAt_back (hgrew : Grew LowerTable root (pathToPt virt) m m')
    {q : List (Fin 512)} {f : Nat} (hq : PagesOf LowerHalf q) (hf : frameAt m'.mem root q = some f) :
    frameAt m.mem root q = some f ∨
      (LowerTable q ∧ tableAt m'.mem root q = some f ∧ bitAt m.pmm.bitmap (f / pageSize) = false) := by
  rcases hq.cases_length with htable | ⟨p, j, rfl, hlen, hunder⟩
  · rw [frameAt_table htable.length_le] at hf ⊢
    rcases hgrew.fresh q f htable hf with hold | hclear
    · exact Or.inl hold
    · exact Or.inr ⟨htable, hf, hclear⟩
  · -- growth creates no pages
    rw [frameAt_page hlen] at hf ⊢
    rcases hgrew.entries p j (Or.inr ⟨hunder, hlen.le⟩) with hsame | ⟨-, hpre, -⟩
    · rw [← hsame]
      exact Or.inl hf
    · have hle := hpre.length_le
      simp [pathToPt, hlen] at hle

theorem LowerUntouched.tableEntry_eq (hkeep : LowerUntouched m root m')
    {p : List (Fin 512)} {i : Fin 512} {t : Nat} (hp : PagesOf LowerHalf (p ++ [i]))
    (ht : tableAt m.mem root p = some t) : tableEntry m'.mem t i = tableEntry m.mem t i := by
  rcases hp with hnil | ⟨⟨a, rest, heq, ha⟩, hlen⟩
  · exact absurd hnil (by simp)
  · cases p with
    | nil =>
      cases ht
      cases heq
      exact hkeep.entries i ha
    | cons b p =>
      obtain ⟨rfl, -⟩ := List.cons.inj heq
      have hunder : Under LowerHalf (b :: p) := ⟨_, p, rfl, ha⟩
      exact tableEntry_congr (tableAt_aligned (by simp) ht)
        (hkeep.tables _ t hunder (by simp at hlen ⊢; omega) ht) i

namespace LowerSpace

theorem tree (hinv : LowerSpace kernel m root) : PageTree LowerTable m root := by
  have hframe {q : List (Fin 512)} {t : Nat} (hq : LowerTable q) (ht : tableAt m.mem root q = some t) :
      frameAt m.mem root q = some t := (frameAt_table hq.length_le).trans ht
  have hmarked (q : List (Fin 512)) (t : Nat) (hq : LowerTable q) (ht : tableAt m.mem root q = some t) :=
    hinv.marked q t hq.pages (hframe hq ht)
  exact ⟨fun p q t hp hq htp htq =>
      hinv.unique p q t hp.pages hq.pages (hframe hp htp) (hframe hq htq),
    fun q t hq ht => (hmarked q t hq ht).aligned, fun q t hq ht => (hmarked q t hq ht).small,
    fun q t hq ht => (hmarked q t hq ht).used⟩

theorem noLargeOnPath (hinv : LowerSpace kernel m root) (hvirt : LowerHalf (pml4Idx virt)) :
    NoLargeOnPath m.mem root virt := by
  intro q j hpre
  have hunder : Under LowerHalf (q ++ [j]) :=
    under_pathOf hvirt (by simp) (hpre.trans (List.prefix_append _ [ptIdx virt]))
  have hlen := hpre.length_le
  rcases hinv.links q j hunder (by simp [pathToPt] at hlen; omega) with hzero | ⟨f, hlink⟩
  · rw [hzero]
    exact Nat.zero_and _
  · exact hlink.not_page

/-- The rule for the steps: frames were there before, or are new ones that nothing led to. -/
theorem change (hinv : LowerSpace kernel m root) (New : List (Fin 512) → Nat → Prop)
    (hback : ∀ q f, PagesOf LowerHalf q → frameAt m'.mem root q = some f →
      frameAt m.mem root q = some f ∨ New q f)
    (hone : ∀ p q f, New p f → New q f → p = q)
    (hnew : ∀ q f, New q f → MarkedFrame m' f ∧ ¬ kernel f ∧
      ∀ p, PagesOf LowerHalf p → frameAt m.mem root p ≠ some f)
    (hlinks : LowerTablesLinked m'.mem root)
    (hkept : ∀ q f, PagesOf LowerHalf q → frameAt m.mem root q = some f →
      bitAt m'.pmm.bitmap (f / pageSize) = true)
    (hheld : ∀ f, kernel f → bitAt m'.pmm.bitmap (f / pageSize) = true) :
    LowerSpace kernel m' root := by
  refine ⟨?_, ?_, hlinks, hinv.aligned, hheld, ?_⟩
  · intro p q f hp hq hfp hfq
    rcases hback p f hp hfp with hpold | hpnew
    · rcases hback q f hq hfq with hqold | hqnew
      · exact hinv.unique p q f hp hq hpold hqold
      · exact absurd hpold ((hnew q f hqnew).2.2 p hp)
    · rcases hback q f hq hfq with hqold | hqnew
      · exact absurd hqold ((hnew p f hpnew).2.2 q hq)
      · exact hone p q f hpnew hqnew
  · intro q f hq hf
    rcases hback q f hq hf with hold | hfresh
    · have hmarked := hinv.marked q f hq hold
      exact ⟨hmarked.aligned, hmarked.small, hkept q f hq hold⟩
    · exact (hnew q f hfresh).1
  · rintro f hf ⟨q, hunder, hlen, hfq⟩
    rcases hback q f (Or.inr ⟨hunder, hlen⟩) hfq with hold | hfresh
    · exact hinv.apart f hf ⟨q, hunder, hlen, hold⟩
    · exact (hnew q f hfresh).2.1 hf

/-! ### Growing the tables -/

section Grown

variable (hgrew : Grew LowerTable root (pathToPt virt) m m')

include hgrew

theorem grow (hinv : LowerSpace kernel m root) : LowerSpace kernel m' root := by
  refine hinv.change _ (fun _ _ => hgrew.frameAt_back) ?_ ?_ ?_
    (fun q f hq hf => hgrew.bits _ (hinv.marked q f hq hf).used)
    fun f hf => hgrew.bits _ (hinv.held f hf)
  · rintro p q f ⟨hp, hfp, -⟩ ⟨hq, hfq, -⟩
    exact hgrew.tree.unique p q f hp hq hfp hfq
  · rintro q f ⟨hq, hf, hclear⟩
    -- a frame that was in use is no table that was free
    rw [← Bool.not_eq_true] at hclear
    exact ⟨⟨hgrew.tree.aligned q f hq hf, hgrew.tree.small q f hq hf, hgrew.tree.used q f hq hf⟩,
      fun hkernel => hclear (hinv.held f hkernel),
      fun p hp hold => hclear (hinv.marked p f hp hold).used⟩
  · intro q j hunder hlen
    have hq : LowerTable q :=
      lowerTable_closed q j (Or.inr ⟨hunder, by rw [List.length_append, List.length_singleton]; omega⟩)
    rcases hgrew.entries q j hq with hsame | ⟨-, -, hlink⟩
    · rw [hsame]
      exact hinv.links q j hunder hlen
    · exact Or.inr hlink

theorem newFrame_grow {f : Nat} (hnew : NewFrame kernel m root f) : NewFrame kernel m' root f := by
  refine ⟨hnew.small, hgrew.bits _ hnew.used, hnew.not_root, ?_, hnew.not_kernel⟩
  rintro ⟨q, hunder, hlen, hfq⟩
  rcases hgrew.frameAt_back (Or.inr ⟨hunder, hlen⟩) hfq with hold | ⟨-, -, hclear⟩
  · exact hnew.not_lower ⟨q, hunder, hlen, hold⟩
  · rw [hnew.used] at hclear
    cases hclear

end Grown

/-! ### Writing a page-table entry -/

section Store

variable {pt value : Nat}

theorem not_lowerTable_pathOf (virt : Nat) : ¬ LowerTable (pathToPt virt ++ [ptIdx virt]) := by
  intro htable
  have hlen := htable.length_le
  simp [pathToPt] at hlen

variable (hinv : LowerSpace kernel m root) (hvirt : LowerHalf (pml4Idx virt))
variable (hpt : tableAt m.mem root (pathToPt virt) = some pt) (hvalue : value < 2 ^ 64)

include hinv hvirt hpt hvalue

/-- The write changes what is behind one path of the lower half. -/
theorem frameAt_store (hmem : m'.mem = storeLE m.mem (pt + 8 * ptIdx virt) 8 value)
    (hpmm : m'.pmm = m.pmm) {q : List (Fin 512)} (hq : PagesOf LowerHalf q) :
    frameAt m'.mem root q = if q = pathOf virt then leafFrame value else frameAt m.mem root q := by
  obtain ⟨-, htables, hentries⟩ := storeLeaf lowerTable_closed hinv.tree
    (lowerTable_pathToPt hvirt) (absurd · (not_lowerTable_pathOf virt)) hpt hvalue hmem hpmm
  rcases hq.cases_length with htable | ⟨p, j, rfl, hlen, hunder⟩
  · have hne : q ≠ pathOf virt := by
      rintro rfl
      exact not_lowerTable_pathOf virt htable
    rw [if_neg hne, frameAt_table htable.length_le, frameAt_table htable.length_le, htables q htable]
  · rw [frameAt_page hlen, frameAt_page hlen, hentries p j (Or.inr ⟨hunder, hlen.le⟩)]
    by_cases hhere : p = pathToPt virt ∧ j = ptIdx virt
    · obtain ⟨rfl, rfl⟩ := hhere
      rw [if_pos ⟨rfl, rfl⟩, if_pos (pathOf_eq virt).symm]
    · rw [if_neg hhere, if_neg]
      intro heq
      rw [pathOf_eq] at heq
      obtain ⟨rfl, hj⟩ := List.append_inj' heq rfl
      exact hhere ⟨rfl, List.singleton_inj.mp hj⟩

/-- After the write a frame is the new one at its path, or was there before. -/
theorem store (hnew : ∀ f, leafFrame value = some f → NewFrame kernel m root f)
    (hmem : m'.mem = storeLE m.mem (pt + 8 * ptIdx virt) 8 value) (hpmm : m'.pmm = m.pmm) :
    LowerSpace kernel m' root := by
  obtain ⟨-, -, hentries⟩ := storeLeaf lowerTable_closed hinv.tree
    (lowerTable_pathToPt hvirt) (absurd · (not_lowerTable_pathOf virt)) hpt hvalue hmem hpmm
  refine hinv.change (fun q f => q = pathOf virt ∧ leafFrame value = some f) ?_ ?_ ?_ ?_ ?_ ?_
  · intro q f hq hf
    rw [hinv.frameAt_store hvirt hpt hvalue hmem hpmm hq] at hf
    split at hf
    next hhere => exact Or.inr ⟨hhere, hf⟩
    next => exact Or.inl hf
  · rintro p q f ⟨rfl, -⟩ ⟨rfl, -⟩
    rfl
  · rintro q f ⟨-, hf⟩
    have hfresh := hnew f hf
    refine ⟨⟨leafFrame_aligned hf, hfresh.small, hpmm ▸ hfresh.used⟩, hfresh.not_kernel, ?_⟩
    rintro p (rfl | ⟨hunder, hlen⟩) hold
    · exact hfresh.not_root (Option.some.inj hold).symm
    · exact hfresh.not_lower ⟨p, hunder, hlen, hold⟩
  · intro q j hunder hlen
    have hq : LowerTable q :=
      lowerTable_closed q j (Or.inr ⟨hunder, by rw [List.length_append, List.length_singleton]; omega⟩)
    rw [hentries q j hq, if_neg]
    · exact hinv.links q j hunder hlen
    · rintro ⟨rfl, -⟩
      simp [pathToPt] at hlen
  · rw [hpmm]
    exact fun q f hq hf => (hinv.marked q f hq hf).used
  · rw [hpmm]
    exact hinv.held

end Store

/-! ### The steps -/

variable (hinv : LowerSpace kernel m root)

include hinv

theorem other (hkeep : LowerUntouched m root m')
    (hheld : ∀ f, kernel f → bitAt m'.pmm.bitmap (f / pageSize) = true) :
    LowerSpace kernel m' root := by
  have hclosed := (pagesOf_tracks LowerHalf).closed
  have hentry : ∀ p (i : Fin 512) t, PagesOf LowerHalf (p ++ [i]) → tableAt m.mem root p = some t →
      tableEntry m'.mem t i = tableEntry m.mem t i :=
    fun _ _ _ hp ht => hkeep.tableEntry_eq hp ht
  have hframe {q : List (Fin 512)} (hq : PagesOf LowerHalf q) :
      frameAt m'.mem root q = frameAt m.mem root q :=
    frameAt_congr hclosed hentry hq ((pagesOf_tracks LowerHalf).short q hq)
  refine hinv.change (fun _ _ => False) (fun q f hq hf => Or.inl ((hframe hq).symm.trans hf))
    nofun nofun ?_ hkeep.held hheld
  intro q j hunder hlen
  have hq : PagesOf LowerHalf (q ++ [j]) :=
    Or.inr ⟨hunder, by rw [List.length_append, List.length_singleton]; omega⟩
  rw [entryAt_congr hclosed hentry hq]
  exact hinv.links q j hunder hlen

variable (hvirt : LowerHalf (pml4Idx virt))

include hvirt

theorem map {phys flags : Nat} (hphys : phys < 2 ^ 64) (hflags : flags < 2 ^ 64)
    (hnew : ∀ f, leafFrame (phys ||| flags) = some f → NewFrame kernel m root f)
    (hcall : vmmMap debug root phys virt flags m = .ok ((), m')) : LowerSpace kernel m' root := by
  obtain ⟨s, pt, hdone⟩ := vmmMap_ok_inv lowerTable_closed hinv.tree (lowerTable_pathToPt hvirt)
    (hinv.noLargeOnPath hvirt) hcall
  exact (grow hdone.grew hinv).store hvirt hdone.table (Nat.or_lt_two_pow hphys hflags)
    (fun f hf => newFrame_grow hdone.grew (hnew f hf)) hdone.mem hdone.pmm

/-- Clearing an entry. -/
theorem clear {pt : Nat} (hpt : tableAt m.mem root (pathToPt virt) = some pt)
    (hmem : m'.mem = storeLE m.mem (pt + 8 * ptIdx virt) 8 0) (hpmm : m'.pmm = m.pmm) :
    LowerSpace kernel m' root := by
  refine hinv.store hvirt hpt (by decide) (fun f hf => ?_) hmem hpmm
  cases hf

theorem unmap (hcall : vmmUnmap debug root virt m = .ok ((), m')) : LowerSpace kernel m' root := by
  obtain ⟨pt, hpt, hmem, hpmm⟩ := vmmUnmap_ok_inv (hinv.noLargeOnPath hvirt) hcall
  exact hinv.clear hvirt hpt hmem hpmm

/-- `vmm_free` of a page clears its entry and gives back the frame in it. -/
theorem free_eq {entry : Nat} (hpage : walk m.mem root virt = some (.page4k entry))
    (hcall : vmmFree debug root virt m = .ok ((), m')) :
    ∃ pt f, tableAt m.mem root (pathToPt virt) = some pt ∧ frameAt m.mem root (pathOf virt) = some f ∧
      m'.mem = storeLE m.mem (pt + 8 * ptIdx virt) 8 0 ∧
      m'.pmm = { m.pmm with bitmap := bitmapClear m.pmm.bitmap (f / pageSize) } := by
  have hlink : ∀ q j, q ++ [j] <+: pathToPt virt →
      entryAt m.mem root q j = 0 ∨ ∃ f, TableLink (entryAt m.mem root q j) f := by
    intro q j hpre
    have hlen := hpre.length_le
    exact hinv.links q j
      (under_pathOf hvirt (by simp) (hpre.trans (List.prefix_append _ [ptIdx virt])))
      (by simp [pathToPt] at hlen; omega)
  have hleaf : entryAt m.mem root (pathToPt virt) (ptIdx virt) &&& vmmFlagsPresent ≠ 0 := by
    intro habsent
    rw [walk_eq_leaf hlink, if_pos habsent] at hpage
    cases hpage
  have hne : entryAt m.mem root (pathToPt virt) (ptIdx virt) ≠ 0 := by
    intro hzero
    rw [hzero] at hleaf
    exact hleaf (Nat.zero_and _)
  obtain ⟨pt, hpt⟩ : ∃ pt, tableAt m.mem root (pathToPt virt) = some pt := by
    cases hpt : tableAt m.mem root (pathToPt virt) with
    | none => exact absurd (entryAt_of_none hpt _) hne
    | some pt => exact ⟨pt, rfl⟩
  have hframe : frameAt m.mem root (pathOf virt) =
      some (tableEntry m.mem pt (ptIdx virt) &&& pteAddrMask) := by
    rw [pathOf_eq, frameAt_page (by simp [pathToPt]), leafFrame, if_neg hne, entryAt_of_tableAt hpt]
  have hpath : PagesOf LowerHalf (pathOf virt) := (pagesOf_tracks LowerHalf).pathOf hvirt
  have hmarked := hinv.marked _ _ hpath hframe
  have hfree := pmmFree_of_set debug m.pmm hmarked.small hmarked.used
  rw [frame_eq_of_aligned hmarked.aligned] at hfree
  obtain ⟨l, hresult, -⟩ := vmmFree_of_mapped debug
    (fun q t hpre ht => hinv.tree.small q t (lowerTable_closed.mono hpre (lowerTable_pathToPt hvirt)) ht)
    hpt hlink (by rwa [← entryAt_of_tableAt hpt]) hfree
  rw [hcall] at hresult
  cases hresult
  exact ⟨pt, _, hpt, hframe, rfl, rfl⟩

theorem free {entry : Nat} (hpage : walk m.mem root virt = some (.page4k entry))
    (hcall : vmmFree debug root virt m = .ok ((), m')) : LowerSpace kernel m' root := by
  obtain ⟨pt, f, hpt, hframe, hmem, hpmm⟩ := hinv.free_eq hvirt hpage hcall
  have hpath : PagesOf LowerHalf (pathOf virt) := (pagesOf_tracks LowerHalf).pathOf hvirt
  have hlower : LowerFrame m.mem root f := ⟨_, under_pathOf hvirt (by simp [pathOf])
    (List.prefix_refl _), by simp [pathOf], hframe⟩
  have haligned := (hinv.marked _ _ hpath hframe).aligned
  -- first the entry is cleared, then the frame belongs to nobody
  let s : Machine := { m with mem := storeLE m.mem (pt + 8 * ptIdx virt) 8 0 }
  have hsmem : s.mem = storeLE m.mem (pt + 8 * ptIdx virt) 8 0 := rfl
  have hspmm : s.pmm = m.pmm := rfl
  have hs : LowerSpace kernel s root := hinv.clear hvirt hpt hsmem hspmm
  have hstays {g : Nat} (hg : g % pageSize = 0) (hne : g ≠ f)
      (hused : bitAt s.pmm.bitmap (g / pageSize) = true) :
      bitAt m'.pmm.bitmap (g / pageSize) = true := by
    rw [hpmm, bitAt_bitmapClear, Bool.and_eq_true, Bool.not_eq_true', decide_eq_false_iff_not]
    exact ⟨page_ne hg haligned hne, hused⟩
  refine hs.other ⟨?_, fun _ _ => by rw [hmem], fun _ _ _ _ _ _ _ => by rw [hmem]⟩ ?_
  · intro q g hq hg
    have hmarked := hs.marked q g hq hg
    refine hstays hmarked.aligned ?_ hmarked.used
    rintro rfl
    rw [hinv.frameAt_store hvirt hpt (Nat.two_pow_pos 64) hsmem hspmm hq] at hg
    split at hg
    next => cases hg
    next hne => exact hne (hinv.unique q _ g hq hpath hg hframe)
  · intro g hg
    refine hstays (hinv.aligned g hg) ?_ (hinv.held g hg)
    rintro rfl
    exact hinv.apart g hg hlower

end LowerSpace

/-- Behind an empty lower half there is only the root. -/
theorem EmptyLower.frameAt_eq (hstart : EmptyLower m root) {q : List (Fin 512)} {f : Nat}
    (hq : PagesOf LowerHalf q) (hf : frameAt m.mem root q = some f) : q = [] ∧ f = root := by
  rcases hq with rfl | ⟨hunder, hlen⟩
  · exact ⟨rfl, (Option.some.inj hf).symm⟩
  · obtain ⟨i, rest, rfl, hi⟩ := hunder
    have hpre : [] ++ [i] <+: i :: rest := ⟨rest, rfl⟩
    rw [frameAt_below_empty (hstart.entryAt_eq ⟨i, [], rfl, hi⟩) hpre hlen] at hf
    cases hf

theorem EmptyLower.not_lowerFrame (hstart : EmptyLower m root) (f : Nat) :
    ¬ LowerFrame m.mem root f := by
  rintro ⟨q, hunder, hlen, hf⟩
  obtain ⟨rfl, -⟩ := hstart.frameAt_eq (Or.inr ⟨hunder, hlen⟩) hf
  obtain ⟨_, _, heq, -⟩ := hunder
  cases heq

theorem EmptyLower.inv (hstart : EmptyLower m root) : LowerSpace (KernelFrame m root) m root := by
  refine ⟨?_, ?_, fun q j hunder _ => Or.inl (hstart.entryAt_eq hunder), ?_, fun _ hf => hf.2,
    fun f _ => hstart.not_lowerFrame f⟩
  · intro p q f hp hq hfp hfq
    rw [(hstart.frameAt_eq hp hfp).1, (hstart.frameAt_eq hq hfq).1]
  · intro q f hq hf
    rw [(hstart.frameAt_eq hq hf).2]
    exact ⟨hstart.aligned, hstart.small, hstart.used⟩
  · rintro f ⟨⟨q, hunder, -, hf⟩, -⟩
    exact frameAt_aligned (by rintro rfl; obtain ⟨_, _, heq, -⟩ := hunder; cases heq) hf

end Built

/-! ## Destroying it -/

theorem count_freedIn (l : List Access) (f : Nat) : l.count (.free f) = (freedIn l).count f := by
  induction l with
  | nil => rfl
  | cons access l ih =>
    cases access with
    | free g => simp [List.count_cons, ih]
    | read addr => simpa [List.count_cons] using ih
    | write addr => simpa [List.count_cons] using ih
    | zero g => simpa [List.count_cons] using ih

/-- What is asked of `vmm_destroy`: with `l` the accesses it makes, oldest first, each frame of the
lower half is given back once and no other frame is, no table is read after it was given back, and
the frames of the kernel stay in use. -/
structure DestroysLower (debug : Bool) (root : Nat) (kernel : Nat → Prop) (m m' : Machine)
    (l : List Access) : Prop where
  call : vmmDestroy debug root m = .ok ((), m')
  log : m'.log = l.reverse ++ m.log
  once : ∀ f, LowerFrame m.mem root f → l.count (.free f) = 1
  only : ∀ f, ¬ LowerFrame m.mem root f → l.count (.free f) = 0
  order : FreedLast l
  tables : m'.mem = m.mem
  released : ∀ i, bitAt m'.pmm.bitmap i = true ↔
    bitAt m.pmm.bitmap i = true ∧ ¬ LowerFrame m.mem root (i * pageSize)
  kernel : ∀ f, kernel f → bitAt m'.pmm.bitmap (f / pageSize) = true

section Destroyed

variable {m : Machine} {root : Nat} {kernel : Nat → Prop}

theorem LowerSpace.releasable (hinv : LowerSpace kernel m root) :
    Releasable m (lowerPaths.filterMap (frameAt m.mem root)) := by
  have hmarked (f : Nat) (hf : f ∈ lowerPaths.filterMap (frameAt m.mem root)) : MarkedFrame m f := by
    obtain ⟨q, hunder, hlen, hfq⟩ := lowerFrame_iff.mpr hf
    exact hinv.marked q f (Or.inr ⟨hunder, hlen⟩) hfq
  refine ⟨?_, fun f hf => (hmarked f hf).aligned, fun f hf => (hmarked f hf).small,
    fun f hf => (hmarked f hf).used⟩
  refine List.pairwise_filterMap.mpr (nodup_lowerPaths.imp_of_mem ?_)
  rintro p q hp hq hne f hf f' hf' rfl
  exact hne (hinv.unique p q f (Or.inr (mem_lowerPaths.mp hp)) (Or.inr (mem_lowerPaths.mp hq)) hf hf')

theorem LowerSpace.destroys (debug : Bool) (hinv : LowerSpace kernel m root) :
    ∃ m', DestroysLower debug root kernel m m' (destroyTrace m.mem root) := by
  have hfreed := freedIn_destroyTrace hinv.links
  have hrel := hinv.releasable
  rw [← hfreed] at hrel
  obtain ⟨m', hcall, hreleased, hlog⟩ := vmmDestroy_performs debug root m rfl hrel
  have hmem (f : Nat) : f ∈ freedIn (destroyTrace m.mem root) ↔ LowerFrame m.mem root f := by
    rw [hfreed, lowerFrame_iff]
  have hbits (i : Nat) : bitAt m'.pmm.bitmap i = true ↔
      bitAt m.pmm.bitmap i = true ∧ ¬ LowerFrame m.mem root (i * pageSize) := by
    rw [hreleased.bits, hmem]
  have huniq : UniqueFrames m.mem root :=
    ⟨hinv.unique, fun q f hq hf => (hinv.marked q f hq hf).aligned⟩
  refine ⟨m', hcall, hlog, ?_, ?_, freedLast_destroyTrace huniq hinv.links, hreleased.mem, hbits, ?_⟩
  · intro f hf
    rw [count_freedIn]
    exact List.count_eq_one_of_mem hrel.nodup ((hmem f).mpr hf)
  · intro f hf
    rw [count_freedIn]
    exact List.count_eq_zero_of_not_mem (mt (hmem f).mp hf)
  · intro f hf
    rw [hbits, frame_eq_of_aligned (hinv.aligned f hf)]
    exact ⟨hinv.held f hf, hinv.apart f hf⟩

end Destroyed

end Pristine.Kernel
