import Pristine.Kernel.Elf
import Pristine.Kernel.VmmDestroy

/-!
# The life of a process

A process takes page frames in five places: its root table, the loader,
`process_create`, `syscall_sbrk`, and the tables `vmm_map` creates on the way.
`process_destroy` gives back the kernel stack's pages, the lower half and the
root table.

The kernel stack lies in the upper half, in a slot of its own that is not shared
with the kernel.  Its three tables are in neither of the parts that are given
back, so every process leaks them (`process_life_leaks`).  No frame that was in
use before is given back.
-/

namespace Pristine.Kernel

open Lib

/-! ## The part of an address space a process owns -/

/-- The root and everything below the root indices of `H`. -/
def PagesOf (H : Fin 512 → Prop) (q : List (Fin 512)) : Prop :=
  q = [] ∨ (Under H q ∧ q.length ≤ 4)

theorem pagesOf_tracks (H : Fin 512 → Prop) : Tracks (PagesOf H) H := by
  refine ⟨?_, ?_, ?_⟩
  · intro p j hp
    rcases hp with hnil | ⟨⟨i, rest, heq, hi⟩, hlen⟩
    · exact absurd hnil (by simp)
    · cases p with
      | nil => exact Or.inl rfl
      | cons k p =>
        obtain ⟨rfl, -⟩ := List.cons.inj heq
        refine Or.inr ⟨⟨k, p, rfl, hi⟩, ?_⟩
        simp only [List.cons_append, List.length_cons, List.length_append] at hlen ⊢
        omega
  · intro q hq
    rcases hq with rfl | ⟨-, hlen⟩
    · exact Nat.zero_le _
    · exact hlen
  · intro i rest hi
    constructor
    · rintro (hnil | ⟨-, hlen⟩)
      · cases hnil
      · exact Nat.le_of_succ_le_succ hlen
    · intro hlen
      exact Or.inr ⟨⟨i, rest, rfl, hi⟩, Nat.succ_le_succ hlen⟩

/-- A root table in use whose lower half is empty. -/
structure EmptyLower (s : Machine) (root : Nat) : Prop where
  aligned : root % pageSize = 0
  small : root / pageSize < 2 ^ 32
  used : bitAt s.pmm.bitmap (root / pageSize) = true
  empty : ∀ i, LowerHalf i → tableEntry s.mem root i = 0

theorem EmptyLower.entryAt_eq {s : Machine} {root : Nat} (hempty : EmptyLower s root)
    {q : List (Fin 512)} {j : Fin 512} (hunder : Under LowerHalf (q ++ [j])) :
    entryAt s.mem root q j = 0 := by
  obtain ⟨i, rest, heq, hi⟩ := hunder
  have hzero : entryAt s.mem root [] i = 0 := hempty.empty i hi
  cases q with
  | nil =>
    cases heq
    exact hzero
  | cons a q =>
    obtain ⟨rfl, -⟩ := List.cons.inj heq
    exact entryAt_of_none (tableAt_below_empty (by rw [hzero, childTable_zero]) ⟨q, rfl⟩) j

theorem EmptyLower.tableAt_eq {s : Machine} {root : Nat} (hempty : EmptyLower s root)
    {q : List (Fin 512)} {t : Nat} (hq : PagesOf LowerHalf q) (ht : tableAt s.mem root q = some t) :
    q = [] ∧ t = root := by
  rcases hq with rfl | ⟨hunder, -⟩
  · exact ⟨rfl, (Option.some.inj ht).symm⟩
  · cases q using List.reverseRecOn with
    | nil => exact ⟨rfl, (Option.some.inj ht).symm⟩
    | append_singleton q j =>
      rw [tableAt_snoc, hempty.entryAt_eq hunder] at ht
      cases ht

/-- The root index of the kernel stacks. -/
def kernelStackSlot : Fin 512 := 510

/-- The root indices a process has for itself. -/
def ProcessHalf (i : Fin 512) : Prop := LowerHalf i ∨ i = kernelStackSlot

/-- The machine during the life of a process that started at `m₀`: below `H` the
process owns frames that were free, and the rest is as it was. -/
structure LifeInv (H : Fin 512 → Prop) (m₀ : Machine) (root : Nat) (s : Machine) : Prop where
  owned : Owned (PagesOf H) H s root
  base : ∀ i, bitAt m₀.pmm.bitmap i = true → bitAt s.pmm.bitmap i = true
  new : ∀ q t, PagesOf H q → tableAt s.mem root q = some t →
    bitAt m₀.pmm.bitmap (t / pageSize) = false
  memory : ∀ a, bitAt m₀.pmm.bitmap (a / pageSize) = true → s.mem a = m₀.mem a

section Life

variable {H : Fin 512 → Prop} {m₀ s s' : Machine} {root virt frame : Nat}

/-- A frame in use at the start is none of the process's. -/
theorem LifeInv.apart (hinv : LifeInv H m₀ root s) {i t : Nat} {q : List (Fin 512)}
    (hused : bitAt m₀.pmm.bitmap i = true) (hq : PagesOf H q)
    (ht : tableAt s.mem root q = some t) : i ≠ t / pageSize := by
  rintro rfl
  rw [hinv.new q t hq ht] at hused
  cases hused

theorem LifeInv.fresh (hinv : LifeInv H m₀ root s)
    (hfresh : FreshPage (PagesOf H) H root virt frame s s') : LifeInv H m₀ root s' := by
  refine ⟨hfresh.owned, fun i hi => hfresh.bits i (hinv.base i hi), ?_, ?_⟩
  · intro q t hq ht
    rcases hfresh.fresh q t hq ht with hold | hclear
    · exact hinv.new q t hq hold
    · by_contra hset
      rw [hinv.base _ (Bool.not_eq_false _ ▸ hset)] at hclear
      cases hclear
  · intro a ha
    rw [hfresh.memory a (hinv.base _ ha) fun q t hq ht => hinv.apart ha hq ht]
    exact hinv.memory a ha

theorem LifeInv.freed (hinv : LifeInv H m₀ root s) (hH : H (pml4Idx virt))
    (hmapped : tableAt s.mem root (pathOf virt) = some frame)
    (hfreed : FreedPage (PagesOf H) H root virt frame s s') : LifeInv H m₀ root s' := by
  have hpath := (pagesOf_tracks H).pathOf hH
  refine ⟨hfreed.owned, ?_, ?_, ?_⟩
  · intro i hi
    have hne := hinv.apart hi hpath hmapped
    rw [hfreed.bits, hinv.base i hi]
    simp [hne.symm]
  · intro q t hq ht
    by_cases hq' : q = pathOf virt
    · rw [hq', hfreed.page] at ht
      cases ht
    · rw [hfreed.other q hq hq'] at ht
      exact hinv.new q t hq ht
  · intro a ha
    rw [hfreed.memory a fun q t hq ht => hinv.apart ha hq ht]
    exact hinv.memory a ha

theorem lifeInv_pageInvariant (hlow : ∀ i, LowerHalf i → H i) :
    PageInvariant (PagesOf H) H root (LifeInv H m₀ root) := by
  refine ⟨fun s hinv => hinv.owned, ?_, ?_⟩
  · intro virt frame s s' _ hinv hfresh
    exact hinv.fresh hfresh
  · intro virt frame s s' hvirt hinv hmapped hfreed
    exact hinv.freed (hlow _ hvirt) hmapped hfreed

/-! ## Writes to memory -/

/-- Writing to a mapped page changes no table. -/
theorem Owned.writePage {P : List (Fin 512) → Prop} (htracks : Tracks P H)
    (howned : Owned P H s root) (hH : H (pml4Idx virt))
    (hpage : tableAt s.mem root (pathOf virt) = some frame) (hpmm : s'.pmm = s.pmm)
    (hmem : ∀ a, a / pageSize ≠ frame / pageSize → s'.mem a = s.mem a) :
    Owned P H s' root ∧ ∀ q, P q → tableAt s'.mem root q = tableAt s.mem root q := by
  have hentry : ∀ q j, P q → q.length ≤ 3 → tableAt s'.mem root q = tableAt s.mem root q →
      entryAt s'.mem root q j = entryAt s.mem root q j := by
    intro q j hq hlen hsame
    cases ht : tableAt s.mem root q with
    | none => rw [entryAt_of_none ht, entryAt_of_none (hsame.trans ht)]
    | some t =>
      rw [entryAt_of_tableAt ht, entryAt_of_tableAt (hsame.trans ht)]
      -- a table above the pages is a different frame
      have hne : t ≠ frame := by
        rintro rfl
        exact ne_pathOf_of_length hlen
          (howned.tree.unique q _ t hq (htracks.pathOf hH) ht hpage)
      have haligned := howned.tree.aligned q t hq ht
      have haligned' := howned.tree.aligned _ frame (htracks.pathOf hH) hpage
      apply loadLE_congr
      intro a hlo hhi
      apply hmem
      unfold pageSize at *
      omega
  have hsame : ∀ q, P q → tableAt s'.mem root q = tableAt s.mem root q := by
    intro q
    induction q using List.reverseRecOn with
    | nil => exact fun _ => rfl
    | append_singleton q j ih =>
      intro hqj
      have hq := htracks.closed q j hqj
      have hlen := htracks.short _ hqj
      rw [List.length_append, List.length_singleton] at hlen
      rw [tableAt_snoc, tableAt_snoc, hentry q j hq (by omega) (ih hq)]
  refine ⟨⟨howned.tree.moved hsame ?_, ?_⟩, hsame⟩
  · rw [hpmm]
    exact howned.tree.used
  · intro q j hunder hlen
    have hq : P q := htracks.closed q j (htracks.of_under hunder (by simp; omega))
    rw [hentry q j hq hlen (hsame q hq)]
    exact howned.links q j hunder hlen

theorem lifeInv_keptByWrites (hlow : ∀ i, LowerHalf i → H i) :
    KeptByWrites root (LifeInv H m₀ root) := by
  intro virt frame s s' hvirt hinv hpage hpmm hmem
  have hpath := (pagesOf_tracks H).pathOf (hlow _ hvirt)
  obtain ⟨howned, hsame⟩ := hinv.owned.writePage (pagesOf_tracks H) (hlow _ hvirt) hpage hpmm hmem
  refine ⟨howned, ?_, ?_, ?_⟩
  · intro i hi
    rw [hpmm]
    exact hinv.base i hi
  · intro q t hq ht
    exact hinv.new q t hq ((hsame q hq).symm.trans ht)
  · intro a ha
    rw [hmem a (hinv.apart ha hpath hpage)]
    exact hinv.memory a ha

/-! ## The root table -/

theorem lifeInv_start {debug : Bool} (H : Fin 512 → Prop)
    (hinit : vmmInit debug m₀ = .ok (root, s)) : LifeInv H m₀ root s := by
  have hroot := vmmInit_emptyRoot hinit
  obtain ⟨idx, hfirst, rfl, rfl⟩ := vmmInit_ok_inv hinit
  have hdiv : idx * pageSize / pageSize = idx := Nat.mul_div_cancel idx (by decide)
  refine ⟨hroot.owned _ H, ?_, ?_, ?_⟩
  · intro i hi
    rw [bitAt_bitmapSet, hi, Bool.or_true]
  · intro q t _ ht
    rw [(hroot.tableAt_eq_some ht).2, hdiv]
    exact hfirst.clear
  · intro a ha
    have hne : a / pageSize ≠ idx := by
      rintro rfl
      rw [hfirst.clear] at ha
      cases ha
    apply fill_of_outside
    unfold pageSize at *
    omega

/-- The kernel's root table: a frame in use, whose slot for kernel stacks is
empty. -/
structure KernelRoot (m₀ : Machine) (kernelPml4 : Nat) : Prop where
  aligned : kernelPml4 % pageSize = 0
  used : bitAt m₀.pmm.bitmap (kernelPml4 / pageSize) = true
  slot : tableEntry m₀.mem kernelPml4 kernelStackSlot = 0

theorem LifeInv.kernelEntry {kernelPml4 i : Nat} (hinv : LifeInv H m₀ root s)
    (hkernel : KernelRoot m₀ kernelPml4) (hi : i < 512) :
    tableEntry s.mem kernelPml4 i = tableEntry m₀.mem kernelPml4 i := by
  have haligned := hkernel.aligned
  apply loadLE_congr
  intro a hlo hhi
  apply hinv.memory
  have hpage : a / pageSize = kernelPml4 / pageSize := by
    unfold pageSize at *
    omega
  rw [hpage]
  exact hkernel.used

/-- Writing an upper-half entry of the root table. -/
theorem LifeInv.writeRoot {i value : Nat} (hinv : LifeInv LowerHalf m₀ root s) (hi : i < 512)
    (hupper : 256 ≤ i) (hvalue : value < 2 ^ 64)
    (hpmm : s'.pmm = s.pmm) (hmem : s'.mem = storeLE s.mem (root + 8 * i) 8 value) :
    LifeInv LowerHalf m₀ root s' := by
  have htracks := pagesOf_tracks LowerHalf
  have hnil : PagesOf LowerHalf [] := Or.inl rfl
  have haligned := hinv.owned.tree.aligned [] root hnil (tableAt_nil _ _)
  have hout : ¬ PagesOf LowerHalf ([] ++ [⟨i, hi⟩]) := by
    rintro (hnil | ⟨⟨j, rest, heq, hj⟩, -⟩)
    · cases hnil
    · obtain ⟨rfl, -⟩ := List.cons.inj heq
      exact Nat.not_lt_of_le hupper hj
  obtain ⟨htree, hsame, hentries⟩ := storeLeaf htracks.closed hinv.owned.tree hnil (absurd · hout)
    (tableAt_nil _ _) hvalue hmem hpmm
  refine ⟨⟨htree, ?_⟩, ?_, ?_, ?_⟩
  · intro q j hunder hlen
    have hq : PagesOf LowerHalf q :=
      htracks.closed q j (htracks.of_under hunder (by simp; omega))
    rw [hentries q j hq, if_neg]
    · exact hinv.owned.links q j hunder hlen
    · rintro ⟨rfl, rfl⟩
      exact hout (htracks.of_under hunder (by simp))
  · intro k hk
    rw [hpmm]
    exact hinv.base k hk
  · intro q t hq ht
    exact hinv.new q t hq ((hsame q hq).symm.trans ht)
  · intro a ha
    have hne := hinv.apart ha hnil (tableAt_nil _ _)
    rw [hmem, storeLE_of_outside]
    · exact hinv.memory a ha
    · unfold pageSize at *
      omega

/-- One entry after the other is shared. -/
theorem copyEntries_effect {kernelPml4 : Nat} {xs : List Nat}
    (hxs : ∀ i ∈ xs, 256 ≤ i ∧ i < 512) (hkernel : KernelRoot m₀ kernelPml4)
    (hinv : LifeInv LowerHalf m₀ root s)
    (hcall : (xs.forM fun i => do
      let entry ← readEntry kernelPml4 i
      writeEntry root i entry) s = .ok ((), s')) :
    LifeInv LowerHalf m₀ root s' ∧ ∀ i, i < 512 →
      i ∈ xs ∨ tableEntry s.mem root i = tableEntry m₀.mem kernelPml4 i →
      tableEntry s'.mem root i = tableEntry m₀.mem kernelPml4 i := by
  induction xs generalizing s with
  | nil =>
    obtain ⟨-, rfl⟩ := pure_ok_iff.mp hcall
    exact ⟨hinv, fun i _ h => h.resolve_left List.not_mem_nil⟩
  | cons i xs ih =>
    obtain ⟨hupper, hi⟩ := hxs i (List.mem_cons_self ..)
    obtain ⟨_, t, hbody, hcall⟩ := bind_ok_iff.mp hcall
    obtain ⟨entry, u, hread, hwrite⟩ := bind_ok_iff.mp hbody
    obtain ⟨rfl, rfl⟩ := readEntry_ok_iff.mp hread
    obtain rfl := writeEntry_ok_iff.mp hwrite
    have haligned := hinv.owned.tree.aligned [] root (Or.inl rfl) (tableAt_nil _ _)
    have hwritten : LifeInv LowerHalf m₀ root { s with
        mem := storeLE s.mem (root + 8 * i) 8 (tableEntry s.mem kernelPml4 i)
        log := .write (root + 8 * i) :: .read (kernelPml4 + 8 * i) :: s.log } :=
      hinv.writeRoot hi hupper (tableEntry_lt _ _ _) rfl rfl
    obtain ⟨hinv', hsame⟩ := ih (fun j hj => hxs j (List.mem_cons_of_mem i hj)) hwritten hcall
    refine ⟨hinv', fun j hj hin => hsame j hj ?_⟩
    show _ ∨ tableEntry (storeLE s.mem (root + 8 * i) 8 (tableEntry s.mem kernelPml4 i)) root
      j = _
    rw [tableEntry_store _ hj hi haligned haligned (tableEntry_lt _ _ _)]
    by_cases heq : j = i
    · right
      rw [if_pos ⟨rfl, heq⟩, hinv.kernelEntry hkernel hi, ← heq]
    · rw [if_neg (by rintro ⟨-, h⟩; exact heq h)]
      exact hin.imp_left fun hmem => (List.mem_cons.mp hmem).resolve_left heq

/-- With an empty slot, the process owns what is below it. -/
theorem LifeInv.widen (hinv : LifeInv LowerHalf m₀ root s)
    (hslot : tableEntry s.mem root kernelStackSlot = 0) : LifeInv ProcessHalf m₀ root s := by
  have hempty : childTable (entryAt s.mem root [] kernelStackSlot) = none := by
    rw [entryAt_of_tableAt (tableAt_nil _ _), hslot, childTable_zero]
  have hbelow (rest : List (Fin 512)) : tableAt s.mem root (kernelStackSlot :: rest) = none :=
    tableAt_below_empty hempty ⟨rest, rfl⟩
  have hback : ∀ q t, PagesOf ProcessHalf q → tableAt s.mem root q = some t →
      PagesOf LowerHalf q := by
    rintro q t (rfl | ⟨⟨i, rest, rfl, hi | rfl⟩, hlen⟩) ht
    · exact Or.inl rfl
    · exact Or.inr ⟨⟨i, rest, rfl, hi⟩, hlen⟩
    · rw [hbelow rest] at ht
      cases ht
  refine ⟨⟨⟨?_, ?_, ?_, ?_⟩, ?_⟩, hinv.base, ?_, hinv.memory⟩
  · intro p q t hp hq htp htq
    exact hinv.owned.tree.unique p q t (hback p t hp htp) (hback q t hq htq) htp htq
  · intro q t hq ht
    exact hinv.owned.tree.aligned q t (hback q t hq ht) ht
  · intro q t hq ht
    exact hinv.owned.tree.small q t (hback q t hq ht) ht
  · intro q t hq ht
    exact hinv.owned.tree.used q t (hback q t hq ht) ht
  · intro q j hunder hlen
    obtain ⟨i, rest, heq, hi | rfl⟩ := hunder
    · exact hinv.owned.links q j ⟨i, rest, heq, hi⟩ hlen
    · left
      cases q with
      | nil =>
        obtain ⟨rfl, -⟩ := List.cons.inj heq
        rw [entryAt_of_tableAt (tableAt_nil _ _), hslot]
      | cons k q =>
        obtain ⟨rfl, -⟩ := List.cons.inj heq
        exact entryAt_of_none (hbelow q) j
  · intro q t hq ht
    exact hinv.new q t (hback q t hq ht) ht

theorem copyUpperHalf_effect {kernelPml4 : Nat} (hkernel : KernelRoot m₀ kernelPml4)
    (hinv : LifeInv LowerHalf m₀ root s) (hcall : copyUpperHalf root kernelPml4 s = .ok ((), s')) :
    LifeInv ProcessHalf m₀ root s' ∧ ∀ i, 256 ≤ i → i < 512 →
      tableEntry s'.mem root i = tableEntry m₀.mem kernelPml4 i := by
  have hrange : ∀ i ∈ List.range' 256 256, 256 ≤ i ∧ i < 512 := by
    intro i hi
    obtain ⟨k, hk, rfl⟩ := List.mem_range'.mp hi
    omega
  obtain ⟨hinv', hsame⟩ := copyEntries_effect hrange hkernel hinv hcall
  have hshared : ∀ i, 256 ≤ i → i < 512 →
      tableEntry s'.mem root i = tableEntry m₀.mem kernelPml4 i := by
    intro i hlow hhigh
    exact hsame i hhigh (Or.inl (List.mem_range'.mpr ⟨i - 256, by omega, by omega⟩))
  refine ⟨hinv'.widen ?_, hshared⟩
  rw [hshared kernelStackSlot.val (by decide) kernelStackSlot.isLt]
  exact hkernel.slot

end Life

/-! ## The stacks -/

/-- The lowest address of a kernel stack. -/
def kernelStackStart : Nat := processVirtKernelStackTop - processDefaultKernelStackSize

/-- The first `count` pages of the kernel stack are mapped. -/
def StackMapped (mem : ByteMem) (root count : Nat) : Prop :=
  ∀ k, k < count → ∃ f, tableAt mem root (pathOf (kernelStackStart + k * pageSize)) = some f

/-- A process between its creation and its end. -/
structure LiveInv (m₀ : Machine) (root : Nat) (s : Machine) : Prop where
  life : LifeInv ProcessHalf m₀ root s
  stack : StackMapped s.mem root 4

section Stacks

variable {m₀ s s' : Machine} {root virt frame : Nat} {debug : Bool}

theorem lowerHalf_processHalf (i : Fin 512) (hi : LowerHalf i) : ProcessHalf i := Or.inl hi

theorem kernelData_linkFlags : LinkFlags vmmFlagsKernelData :=
  ⟨by decide, by decide, by decide, by decide⟩

theorem pml4Idx_stack {k : Nat} (hk : k < 4) :
    pml4Idx (kernelStackStart + k * pageSize) = kernelStackSlot := by
  apply Fin.ext
  unfold pml4Idx
  rw [tableIdx_val]
  unfold kernelStackStart processVirtKernelStackTop processKernelVirtBase
    processDefaultKernelStackSize pageSize kernelStackSlot
  omega

theorem processHalf_stack {k : Nat} (hk : k < 4) :
    ProcessHalf (pml4Idx (kernelStackStart + k * pageSize)) :=
  Or.inr (pml4Idx_stack hk)

theorem pathOf_stack_injective {j k : Nat} (hj : j < 4) (hk : k < 4)
    (heq : pathOf (kernelStackStart + j * pageSize) = pathOf (kernelStackStart + k * pageSize)) :
    j = k := by
  have hcanonical : ∀ i, i < 4 → Canonical (kernelStackStart + i * pageSize) ∧
      (kernelStackStart + i * pageSize) % pageSize = 0 := by
    intro i hi
    unfold Canonical kernelStackStart processVirtKernelStackTop processKernelVirtBase
      processDefaultKernelStackSize pageSize
    omega
  have hsame := pathOf_injective (hcanonical j hj).1 (hcanonical k hk).1 (hcanonical j hj).2
    (hcanonical k hk).2 heq
  unfold pageSize at hsame
  omega

/-- A page of the kernel stack is no page of the lower half. -/
theorem pathOf_stack_ne {k : Nat} (hk : k < 4) (hvirt : LowerHalf (pml4Idx virt)) :
    pathOf (kernelStackStart + k * pageSize) ≠ pathOf virt := by
  intro heq
  have hidx : pml4Idx (kernelStackStart + k * pageSize) = pml4Idx virt := (List.cons.inj heq).1
  rw [← hidx, pml4Idx_stack hk] at hvirt
  exact absurd hvirt (by decide : ¬ (510 : Nat) < 256)

theorem liveInv_pageInvariant :
    PageInvariant (PagesOf ProcessHalf) ProcessHalf root (LiveInv m₀ root) := by
  have htracks := pagesOf_tracks ProcessHalf
  refine ⟨fun s hinv => hinv.life.owned, ?_, ?_⟩
  · intro virt frame s s' hvirt hinv hfresh
    refine ⟨hinv.life.fresh hfresh, ?_⟩
    intro k hk
    obtain ⟨f, hf⟩ := hinv.stack k hk
    exact ⟨f, hfresh.keep _ f (htracks.pathOf (processHalf_stack hk)) (pathOf_stack_ne hk hvirt) hf⟩
  · intro virt frame s s' hvirt hinv hmapped hfreed
    refine ⟨hinv.life.freed (Or.inl hvirt) hmapped hfreed, ?_⟩
    intro k hk
    obtain ⟨f, hf⟩ := hinv.stack k hk
    refine ⟨f, ?_⟩
    rw [hfreed.other _ (htracks.pathOf (processHalf_stack hk)) (pathOf_stack_ne hk hvirt), hf]

theorem mapUserStack_effect {stackTop stackSize : Nat} (htop : stackTop ≤ 2 ^ 47)
    (hsize : stackSize ≤ stackTop) (hinv : LifeInv ProcessHalf m₀ root s)
    (hcall : mapUserStack debug root stackTop stackSize s = .ok ((), s')) :
    LifeInv ProcessHalf m₀ root s' := by
  unfold mapUserStack at hcall
  split at hcall
  · have hstart : (stackTop + 2 ^ 64 - stackSize) % 2 ^ 64 = stackTop - stackSize := by omega
    rw [hstart] at hcall
    refine mapRange_rule (fun _ t => LifeInv ProcessHalf m₀ root t) (pagesOf_tracks ProcessHalf)
      userData_linkFlags ?_ ?_ (fun _ t ht => ht.owned) ?_ hinv hcall
    · unfold pagesBetween pageSize
      omega
    · intro k hk
      refine Or.inl (lowerHalf_of_lt ?_)
      unfold pagesBetween pageSize at *
      omega
    · intro k f t t' _ ht hfresh
      exact ht.fresh hfresh
  · obtain ⟨-, rfl⟩ := pure_ok_iff.mp hcall
    exact hinv

theorem mapKernelStack_effect (hinv : LifeInv ProcessHalf m₀ root s)
    (hcall : mapRange debug root vmmFlagsKernelData kernelStackStart 4 s = .ok ((), s')) :
    LiveInv m₀ root s' := by
  have htracks := pagesOf_tracks ProcessHalf
  obtain ⟨hlife, hstack⟩ := mapRange_rule
    (fun k t => LifeInv ProcessHalf m₀ root t ∧ (k ≤ 4 → StackMapped t.mem root k))
    htracks kernelData_linkFlags (by decide) (fun k hk => processHalf_stack hk)
    (fun _ t ht => ht.1.owned)
    (by
      rintro k f t t' hk ⟨hlife, hstack⟩ hfresh
      refine ⟨hlife.fresh hfresh, ?_⟩
      intro _ j hj
      by_cases hjk : j = k
      · subst hjk
        exact ⟨f, hfresh.page⟩
      · obtain ⟨g, hg⟩ := hstack (by omega) j (by omega)
        refine ⟨g, hfresh.keep _ g (htracks.pathOf (processHalf_stack (by omega))) ?_ hg⟩
        intro heq
        exact hjk (pathOf_stack_injective (by omega) hk heq))
    ⟨hinv, fun _ k hk => absurd hk (Nat.not_lt_zero k)⟩ hcall
  exact ⟨hlife, hstack (Nat.le_refl 4)⟩

/-- The arguments of `process_create` that concern memory. -/
structure CreateArgs (stackTop stackSize : Nat) : Prop where
  top : stackTop ≤ 2 ^ 47
  size : stackSize ≤ stackTop

/-- The steps of `process_create`, and the fields of the process later code uses. -/
theorem processCreate_ok_inv {process process' : Process}
    {pid entry cs ss rflags stackTop stackSize kernelStackTop kernelStackSize pml4Phys
      kernelPml4 : Nat}
    (hcall : processCreate debug process pid entry cs ss rflags stackTop stackSize
      kernelStackTop kernelStackSize root pml4Phys kernelPml4 s = .ok (process', s')) :
    (∃ t u, copyUpperHalf root kernelPml4 s = .ok ((), t) ∧
      mapUserStack debug root stackTop stackSize t = .ok ((), u) ∧
      mapRange debug root vmmFlagsKernelData
        ((kernelStackTop + 2 ^ 64 - kernelStackSize) % 2 ^ 64)
        (pagesBetween ((kernelStackTop + 2 ^ 64 - kernelStackSize) % 2 ^ 64) kernelStackTop) u =
          .ok ((), s')) ∧
      process'.pml4 = root ∧ process'.pml4Phys = pml4Phys ∧
      process'.kernelStackTop = kernelStackTop ∧ process'.kernelStackSize = kernelStackSize ∧
      process'.brkStart = process.brkStart ∧ process'.brk = process.brk := by
  obtain ⟨_, t, hcopy, hcall⟩ := bind_ok_iff.mp hcall
  obtain ⟨_, u, huser, hcall⟩ := bind_ok_iff.mp hcall
  obtain ⟨_, v, hkernel, hcall⟩ := bind_ok_iff.mp hcall
  obtain ⟨rfl, rfl⟩ := pure_ok_iff.mp hcall
  exact ⟨⟨t, u, hcopy, huser, hkernel⟩, rfl, rfl, rfl, rfl, rfl, rfl⟩

theorem processCreate_effect {process process' : Process} {kernelPml4 : Nat}
    {pid entry cs ss rflags stackTop stackSize : Nat} (hargs : CreateArgs stackTop stackSize)
    (hkernel : KernelRoot m₀ kernelPml4) (hinv : LifeInv LowerHalf m₀ root s)
    (hcall : processCreate debug process pid entry cs ss rflags stackTop stackSize
      processVirtKernelStackTop processDefaultKernelStackSize root root kernelPml4 s =
        .ok (process', s')) : LiveInv m₀ root s' := by
  obtain ⟨⟨t, u, hcopy, huser, hstack⟩, -⟩ := processCreate_ok_inv hcall
  obtain ⟨hshared, -⟩ := copyUpperHalf_effect hkernel hinv hcopy
  exact mapKernelStack_effect (mapUserStack_effect hargs.top hargs.size hshared huser) hstack

end Stacks

/-! ## The end -/

section Destroy

variable {m₀ s s' : Machine} {root : Nat} {debug : Bool}

/-- After the pages of the kernel stack were given back, its tables are still
there. -/
theorem freeKernelStack_effect (debug : Bool) (hinv : LiveInv m₀ root s) :
    ∃ s', freeRange debug root kernelStackStart 4 s = .ok ((), s') ∧
      LifeInv ProcessHalf m₀ root s' ∧
      ∃ pt, tableAt s'.mem root (pathToPt kernelStackStart) = some pt := by
  have htracks := pagesOf_tracks ProcessHalf
  obtain ⟨s', hcall, hlife, -, hpt⟩ := freeRange_rule
    (fun k t => LifeInv ProcessHalf m₀ root t ∧
      (∀ j, k ≤ j → j < 4 →
        ∃ f, tableAt t.mem root (pathOf (kernelStackStart + j * pageSize)) = some f) ∧
      ∃ pt, tableAt t.mem root (pathToPt kernelStackStart) = some pt)
    htracks (by decide) (fun k hk => processHalf_stack hk) (fun _ t ht => ht.1.owned)
    (fun k t hk ht => ht.2.1 k (Nat.le_refl k) hk)
    (by
      rintro k f t t' hk ⟨hlife, hpages, pt, hpt⟩ hmapped hfreed
      refine ⟨hlife.freed (processHalf_stack hk) hmapped hfreed, ?_, pt, ?_⟩
      · intro j hkj hj
        obtain ⟨g, hg⟩ := hpages j (by omega) hj
        refine ⟨g, ?_⟩
        rw [hfreed.other _ (htracks.pathOf (processHalf_stack hj)), hg]
        intro heq
        have hjk := pathOf_stack_injective hj hk heq
        omega
      · rw [hfreed.other _ _ (ne_pathOf_of_length (by simp [pathToPt])), hpt]
        exact htracks.pathToPt (processHalf_stack (k := 0) (by decide)))
    ⟨hinv.life, fun j _ hj => hinv.stack j hj, by
      obtain ⟨f, hf⟩ := hinv.stack 0 (by decide)
      obtain ⟨pt, hpt, -⟩ := tableAt_snoc_eq_some (p := pathToPt kernelStackStart) hf
      exact ⟨pt, hpt⟩⟩
  exact ⟨s', hcall, hlife, hpt⟩

/-- The frames `process_destroy` gives back after the kernel stack. -/
theorem LifeInv.releasable (hinv : LifeInv ProcessHalf m₀ root s) :
    Releasable s (lowerFrames s.mem root ++ [root]) := by
  have htree := hinv.owned.tree
  have hroot : PagesOf ProcessHalf [] := Or.inl rfl
  have hlower := hinv.owned.releasable (pagesOf_tracks ProcessHalf) lowerHalf_processHalf
  refine ⟨?_, ?_, ?_, ?_⟩
  · rw [List.nodup_append]
    refine ⟨hlower.nodup, List.nodup_singleton root, ?_⟩
    rintro f hf g hg rfl
    obtain ⟨q, hunder, hlen, ht⟩ := mem_lowerFrames.mp hf
    rw [List.mem_singleton] at hg
    subst hg
    have hnil := htree.unique q [] f (Or.inr ⟨under_mono lowerHalf_processHalf hunder, hlen⟩) hroot
      ht (tableAt_nil _ _)
    obtain ⟨i, rest, rfl, -⟩ := hunder
    cases hnil
  · intro f hf
    rcases List.mem_append.mp hf with hin | hin
    · exact hlower.aligned f hin
    · rw [List.mem_singleton.mp hin]
      exact htree.aligned [] root hroot (tableAt_nil _ _)
  · intro f hf
    rcases List.mem_append.mp hf with hin | hin
    · exact hlower.small f hin
    · rw [List.mem_singleton.mp hin]
      exact htree.small [] root hroot (tableAt_nil _ _)
  · intro f hf
    rcases List.mem_append.mp hf with hin | hin
    · exact hlower.used f hin
    · rw [List.mem_singleton.mp hin]
      exact htree.used [] root hroot (tableAt_nil _ _)

/-- Frames with different paths have different numbers. -/
theorem LifeInv.frame_ne {p q : List (Fin 512)} {t u : Nat}
    (hinv : LifeInv ProcessHalf m₀ root s) (hp : PagesOf ProcessHalf p)
    (hq : PagesOf ProcessHalf q) (ht : tableAt s.mem root p = some t)
    (hu : tableAt s.mem root q = some u) (hne : p ≠ q) : t / pageSize ≠ u / pageSize := by
  exact fun heq => hne (hinv.owned.tree.path_eq hp hq ht hu heq)

/-- What is given back lies on the root's path or below the lower half. -/
theorem LifeInv.path_of_released {f : Nat} (hin : f ∈ lowerFrames s.mem root ++ [root]) :
    ∃ q, PagesOf ProcessHalf q ∧ (q = [] ∨ Under LowerHalf q) ∧ tableAt s.mem root q = some f := by
  rcases List.mem_append.mp hin with hlower | hroot
  · obtain ⟨q, hunder, hlen, ht⟩ := mem_lowerFrames.mp hlower
    exact ⟨q, Or.inr ⟨under_mono lowerHalf_processHalf hunder, hlen⟩, Or.inr hunder, ht⟩
  · rw [List.mem_singleton.mp hroot]
    exact ⟨[], Or.inl rfl, Or.inl rfl, tableAt_nil _ _⟩

/-- What remains after the end of a process: everything that was in use before, and
three frames that were free. -/
structure Leak (m₀ m : Machine) : Prop where
  kept : ∀ i, bitAt m₀.pmm.bitmap i = true → bitAt m.pmm.bitmap i = true
  leaked : ∃ frames : List Nat, frames.Nodup ∧ frames.length = 3 ∧
    ∀ i ∈ frames, bitAt m₀.pmm.bitmap i = false ∧ bitAt m.pmm.bitmap i = true

/-- Giving back the lower half and the root leaves the tables of the kernel stack. -/
theorem leak_of_released {pt : Nat} (hinv : LifeInv ProcessHalf m₀ root s)
    (hpt : tableAt s.mem root (pathToPt kernelStackStart) = some pt)
    (hreleased : Released (lowerFrames s.mem root ++ [root]) s s') : Leak m₀ s' := by
  have hslot : pml4Idx kernelStackStart = kernelStackSlot := pml4Idx_stack (k := 0) (by decide)
  have hpath (rest : List (Fin 512)) (hlen : rest.length ≤ 3) :
      PagesOf ProcessHalf (pml4Idx kernelStackStart :: rest) :=
    Or.inr ⟨⟨_, rest, rfl, Or.inr hslot⟩, Nat.succ_le_succ hlen⟩
  -- a table below the slot was free before and is not given back
  have hstays (rest : List (Fin 512)) (t : Nat) (hlen : rest.length ≤ 3)
      (ht : tableAt s.mem root (pml4Idx kernelStackStart :: rest) = some t) :
      bitAt m₀.pmm.bitmap (t / pageSize) = false ∧ bitAt s'.pmm.bitmap (t / pageSize) = true := by
    have hq := hpath rest hlen
    refine ⟨hinv.new _ t hq ht,
      (hreleased.bits _).mpr ⟨hinv.owned.tree.used _ t hq ht, ?_⟩⟩
    intro hin
    rw [frame_eq_of_aligned (hinv.owned.tree.aligned _ t hq ht)] at hin
    obtain ⟨q, hq', hwhere, ht'⟩ := LifeInv.path_of_released hin
    have heq := hinv.owned.tree.unique _ q t hq hq' ht ht'
    subst heq
    rcases hwhere with hnil | ⟨i, rest', hcons, hi⟩
    · cases hnil
    · obtain ⟨rfl, -⟩ := List.cons.inj hcons
      rw [hslot] at hi
      exact absurd hi (by decide : ¬ (510 : Nat) < 256)
  obtain ⟨pd, hpd, -⟩ := tableAt_snoc_eq_some
    (p := [pml4Idx kernelStackStart, pdptIdx kernelStackStart]) hpt
  obtain ⟨pdpt, hpdpt, -⟩ := tableAt_snoc_eq_some (p := [pml4Idx kernelStackStart]) hpd
  refine ⟨?_, [pdpt / pageSize, pd / pageSize, pt / pageSize], ?_, rfl, ?_⟩
  · intro i hi
    refine (hreleased.bits i).mpr ⟨hinv.base i hi, ?_⟩
    intro hin
    obtain ⟨q, hq, -, ht⟩ := LifeInv.path_of_released hin
    exact hinv.apart hi hq ht (Nat.mul_div_cancel i (by decide)).symm
  · have h1 := hinv.frame_ne (hpath [] (by simp)) (hpath _ (by simp)) hpdpt hpd (by simp)
    have h2 := hinv.frame_ne (hpath [] (by simp)) (hpath _ (by simp)) hpdpt hpt (by simp)
    have h3 := hinv.frame_ne (hpath _ (by simp)) (hpath _ (by simp)) hpd hpt (by simp)
    simp [h1, h2, h3]
  · simp only [List.forall_mem_cons, List.not_mem_nil, false_imp_iff, implies_true, and_true]
    exact ⟨hstays _ pdpt (by simp) hpdpt, hstays _ pd (by simp) hpd, hstays _ pt (by simp) hpt⟩

/-- `process_destroy` succeeds, and leaks. -/
theorem processDestroy_leaks (debug : Bool) {process : Process} (hinv : LiveInv m₀ root s)
    (hpml4 : process.pml4 = root) (hphys : process.pml4Phys = root)
    (htop : process.kernelStackTop = processVirtKernelStackTop)
    (hsize : process.kernelStackSize = processDefaultKernelStackSize) :
    ∃ m', processDestroy debug process s = .ok ((), m') ∧ Leak m₀ m' := by
  obtain ⟨t, hfree, hlife, pt, hpt⟩ := freeKernelStack_effect debug hinv
  have hlinks : LowerLinks t.mem root := fun q j hunder hlen =>
    hlife.owned.links q j (under_mono lowerHalf_processHalf hunder) hlen
  have hreleases : Releases t.mem (lowerFrames t.mem root ++ [root])
      (vmmDestroy debug root >>= fun _ => freePage debug root) := by
    rw [← freedIn_destroyTrace_of_links hlinks]
    have hroot : Performs t.mem [.free root] (freePage debug root) := Performs.freePage debug root
    simpa using ((vmmDestroy_performs debug root).seq hroot).releases
  obtain ⟨m', hrest, hreleased⟩ := hreleases t rfl hlife.releasable
  refine ⟨m', ?_, leak_of_released hlife hpt hreleased⟩
  unfold processDestroy
  rw [hpml4, hphys, htop, hsize]
  exact (bind_eq_of_ok hfree).trans hrest

end Destroy

/-! ## Whole lives -/

/-- A process from its first frame to the call of `process_destroy`.  `m₀` is the
machine before, `r` machine and process at the end. -/
inductive ProcessLife {σ : Type} (debug : Bool) (reader : Reader σ) (kernelPml4 : Nat)
    (m₀ : Machine) : SbrkRun → Prop
  | mk {root : Nat} {m₁ m₂ m₃ : Machine} {outHeader : List UInt8} {stack : Nat → List UInt8}
      {file : σ} {loaded : LoadedElf} {process process' : Process}
      {pid cs ss rflags stackTop stackSize : Nat} {r : SbrkRun}
      (hinit : vmmInit debug m₀ = .ok (root, m₁))
      (hload : elf64LoadExecutable debug reader root outHeader stack file m₁ =
        .ok (.ok loaded, m₂))
      (hsegments : ∀ phdr ∈ loaded.segments, SegmentOk phdr)
      (hbrk : process.brk = process.brkStart) (haligned : process.brkStart % pageSize = 0)
      (hlower : process.brkStart < 2 ^ 47) (hargs : CreateArgs stackTop stackSize)
      (hcreate : processCreate debug process pid loaded.header.eEntry cs ss rflags stackTop
        stackSize processVirtKernelStackTop processDefaultKernelStackSize root root kernelPml4 m₂ =
          .ok (process', m₃))
      (hrun : Relation.ReflTransGen (SbrkStep SbrkInRange debug) ⟨m₃, process'⟩ r) :
      ProcessLife debug reader kernelPml4 m₀ r

/-- `process_destroy` succeeds, and afterwards the same frames are in use as at the
start. -/
def ConservesMemory (debug : Bool) (m₀ : Machine) (r : SbrkRun) : Prop :=
  ∃ m', processDestroy debug r.process r.machine = .ok ((), m') ∧
    ∀ i, bitAt m'.pmm.bitmap i = bitAt m₀.pmm.bitmap i

theorem Leak.not_same {m₀ m : Machine} (hleak : Leak m₀ m) :
    ¬ ∀ i, bitAt m.pmm.bitmap i = bitAt m₀.pmm.bitmap i := by
  intro hsame
  obtain ⟨frames, -, hlen, hframes⟩ := hleak.leaked
  cases frames with
  | nil => cases hlen
  | cons i rest =>
    obtain ⟨hclear, hset⟩ := hframes i (List.mem_cons_self ..)
    rw [hsame i, hclear] at hset
    cases hset

theorem ProcessLife.leak {σ : Type} {debug : Bool} {reader : Reader σ} {kernelPml4 : Nat}
    {m₀ : Machine} {r : SbrkRun} (hreader : reader.Bounded) (hkernel : KernelRoot m₀ kernelPml4)
    (hlife : ProcessLife debug reader kernelPml4 m₀ r) :
    ∃ m', processDestroy debug r.process r.machine = .ok ((), m') ∧ Leak m₀ m' := by
  cases hlife with
  | @mk root m1 m2 m3 _ _ _ _ process process' _ _ _ _ _ _ _ hinit hload hsegments hbrk haligned
      hlower hargs hcreate hrun =>
      have hstart : LifeInv LowerHalf m₀ root m1 := lifeInv_start LowerHalf hinit
      have hloaded : LifeInv LowerHalf m₀ root m2 :=
        elf64LoadExecutable_keeps (pagesOf_tracks LowerHalf) (fun _ hi => hi)
          (lifeInv_pageInvariant fun _ hi => hi) (lifeInv_keptByWrites fun _ hi => hi) hreader
          hsegments hstart hload
      have hlive := processCreate_effect hargs hkernel hloaded hcreate
      obtain ⟨-, hroot, hphys, htop, hsize, hstart', hbrk'⟩ := processCreate_ok_inv hcreate
      subst hroot
      have hheap : HeapInv process' (LiveInv m₀ process'.pml4) r := by
        refine run_invariant hrun (heapInv_start ?_ ?_ ?_ hlive) ?_
        · rw [hbrk', hbrk, hstart']
        · rw [hstart']
          exact haligned
        · rw [hstart']
          exact hlower
        · intro t t' ht hstep
          exact heapInv_step (pagesOf_tracks ProcessHalf) lowerHalf_processHalf
            liveInv_pageInvariant ht hstep
      have heq := hheap.process_eq
      refine processDestroy_leaks debug hheap.keeps ?_ ?_ ?_ ?_
      · rw [heq]
      · rw [heq, hphys]
      · rw [heq, htop]
      · rw [heq, hsize]

/-- No life of a process conserves memory: the three tables of its kernel stack are
lost, and nothing else that was in use is given back. -/
theorem process_life_leaks {σ : Type} {debug : Bool} {reader : Reader σ} {kernelPml4 : Nat}
    {m₀ : Machine} {r : SbrkRun} (hreader : reader.Bounded) (hkernel : KernelRoot m₀ kernelPml4)
    (hlife : ProcessLife debug reader kernelPml4 m₀ r) :
    ¬ ConservesMemory debug m₀ r ∧
      ∃ m', processDestroy debug r.process r.machine = .ok ((), m') ∧ Leak m₀ m' := by
  obtain ⟨m', hcall, hleak⟩ := hlife.leak hreader hkernel
  refine ⟨?_, m', hcall, hleak⟩
  rintro ⟨m, hcall', hsame⟩
  rw [hcall] at hcall'
  cases hcall'
  exact hleak.not_same hsame

/-! ## A concrete life -/

/-- An ELF file with one segment of two bytes at `0x400000`. -/
def tinyElf : List UInt8 :=
  [0x7F, 0x45, 0x4C, 0x46, 2, 1, 1, 0, 0, 0, 0, 0, 0, 0, 0, 0,
    2, 0, 0x3E, 0, 1, 0, 0, 0, 0, 0, 0x40, 0, 0, 0, 0, 0,
    64, 0, 0, 0, 0, 0, 0, 0, 0, 0, 0, 0, 0, 0, 0, 0,
    0, 0, 0, 0, 64, 0, 56, 0, 1, 0, 0, 0, 0, 0, 0, 0,
    1, 0, 0, 0, 5, 0, 0, 0, 120, 0, 0, 0, 0, 0, 0, 0,
    0, 0, 0x40, 0, 0, 0, 0, 0, 0, 0, 0x40, 0, 0, 0, 0, 0,
    2, 0, 0, 0, 0, 0, 0, 0, 2, 0, 0, 0, 0, 0, 0, 0, 0, 0x10, 0, 0, 0, 0, 0, 0,
    0xEB, 0xFE]

/-- The header of its segment. -/
def tinyPhdr : Elf64Phdr where
  pType := 1
  pOffset := 120
  pVaddr := 0x400000
  pFilesz := 2
  pMemsz := 2

/-- A life up to `process_destroy`: a root table for the kernel, the file above, a user
stack of one page, and one call of `SYS_SBRK`. -/
def tinyLife : KernelM (Nat × List Elf64Phdr) := do
  let kernelPml4 ← vmmInit true
  let root ← vmmInit true
  match ← elf64LoadExecutable true (idealReader tinyElf) root [] (fun _ => []) 0 with
  | .error _ => return (0, [])
  | .ok loaded =>
    let process ← processCreate true (bareProcess root 0x402000) 100 loaded.header.eEntry 0x23
      0x1B 0x200 0x600000 0x1000 processVirtKernelStackTop processDefaultKernelStackSize root
      root kernelPml4
    let (ret, _) ← syscallSbrk true process 0x1000
    return (ret, loaded.segments)

theorem tinyLife_result :
    (tinyLife (Machine.allFree 2)).toOption.map Prod.fst = some (0x402000, [tinyPhdr]) := by
  decide +kernel

theorem tinyPhdr_ok : SegmentOk tinyPhdr := ⟨by decide, Or.inr (by decide)⟩

theorem exists_processLife : ∃ (kernelPml4 : Nat) (m₀ : Machine) (r : SbrkRun),
    KernelRoot m₀ kernelPml4 ∧
      ProcessLife true (idealReader tinyElf) kernelPml4 m₀ r := by
  have hresult := tinyLife_result
  cases hall : tinyLife (Machine.allFree 2) with
  | error panic =>
    rw [hall] at hresult
    cases hresult
  | ok result =>
    obtain ⟨⟨ret, segments⟩, m4⟩ := result
    rw [hall] at hresult
    obtain ⟨rfl, rfl⟩ := Prod.mk.inj (Option.some.inj hresult)
    obtain ⟨kernelPml4, m₀, hkernel, hrest⟩ := bind_ok_iff.mp hall
    obtain ⟨root, m1, hinit, hrest⟩ := bind_ok_iff.mp hrest
    obtain ⟨answer, m2, hload, hrest⟩ := bind_ok_iff.mp hrest
    have hempty := vmmInit_emptyRoot hkernel
    cases answer with
    | error err => cases (pure_ok_iff.mp hrest).1
    | ok loaded =>
      obtain ⟨process', m3, hcreate, hrest⟩ := bind_ok_iff.mp hrest
      obtain ⟨⟨ret, process''⟩, m5, hsbrk, hrest⟩ := bind_ok_iff.mp hrest
      obtain ⟨hpair, rfl⟩ := pure_ok_iff.mp hrest
      obtain ⟨rfl, hsegments⟩ := Prod.mk.inj hpair
      obtain ⟨-, -, -, -, -, -, hbrk⟩ := processCreate_ok_inv hcreate
      refine ⟨kernelPml4, m₀, ⟨m5, process''⟩, ⟨hempty.aligned, hempty.used, hempty.empty _⟩,
        ProcessLife.mk hinit hload ?_ rfl (by decide : 0x402000 % pageSize = 0)
          (by decide : 0x402000 < 2 ^ 47)
          ⟨by decide, by decide⟩ hcreate (Relation.ReflTransGen.single
            (SbrkStep.call (by decide : 0x1000 < 2 ^ 64) ?_ hsbrk))⟩
      · rw [hsegments]
        intro phdr hphdr
        rw [List.mem_singleton.mp hphdr]
        exact tinyPhdr_ok
      · rw [hbrk]
        exact (by decide : SbrkInRange 0x402000 0x1000)

/-- The life above conserves no memory. -/
theorem process_life_leaks_tiny : ∃ (kernelPml4 : Nat) (m₀ : Machine) (r : SbrkRun),
    KernelRoot m₀ kernelPml4 ∧ ProcessLife true (idealReader tinyElf) kernelPml4 m₀ r ∧
      ¬ ConservesMemory true m₀ r := by
  obtain ⟨kernelPml4, m₀, r, hkernel, hlife⟩ := exists_processLife
  exact ⟨kernelPml4, m₀, r, hkernel, hlife,
    (process_life_leaks (idealReader_bounded tinyElf) hkernel hlife).1⟩

/-- So it is not true that the life of a process conserves memory. -/
theorem process_life_not_conserved : ¬ ∀ (kernelPml4 : Nat) (m₀ : Machine) (r : SbrkRun),
    KernelRoot m₀ kernelPml4 → ProcessLife true (idealReader tinyElf) kernelPml4 m₀ r →
    ConservesMemory true m₀ r := by
  intro hall
  obtain ⟨kernelPml4, m₀, r, hkernel, hlife⟩ := exists_processLife
  obtain ⟨m', hcall, hleak⟩ := hlife.leak (idealReader_bounded tinyElf) hkernel
  obtain ⟨m, hcall', hsame⟩ := hall kernelPml4 m₀ r hkernel hlife
  rw [hcall] at hcall'
  cases hcall'
  exact hleak.not_same hsame

end Pristine.Kernel
