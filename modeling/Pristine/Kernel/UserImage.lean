import Pristine.Kernel.ProcessLife
import Pristine.Kernel.VmmFree

/-!
# What user space reads

`readVirt` is a read through the page tables, as the hardware does it.  While a
process is built its lower half only grows by whole pages: a frame is taken and
mapped, filled with zeros, and part of it is overwritten.  `BuiltFrom` says what the
lower half reads at such a point, and which bytes of physical memory have changed
since the start; `BuiltFrom.page` is the step for one page.
-/

namespace Pristine.Kernel

open Lib

/-- The byte at a virtual address. -/
def readVirt (mem : ByteMem) (pml4 virt : Nat) : Option UInt8 :=
  (walk mem pml4 virt).map fun tr => mem (tr.base + virt % (tr.count * pageSize))

/-! ## The log accounts for all writes -/

/-- The logged access may have changed the byte at `a`. -/
def Access.Changes (a : Nat) : Access → Prop
  | .write addr => addr ≤ a ∧ a < addr + 8
  | .zero frame => frame ≤ a ∧ a < frame + pageSize
  | .read _ | .free _ => False

/-- Bytes that no logged access concerns are as before. -/
def LogsWrites {α : Type} (x : KernelM α) : Prop :=
  ∀ s r s', x s = .ok (r, s') →
    ∃ l, s'.log = l ++ s.log ∧ ∀ a, (∀ acc ∈ l, ¬ acc.Changes a) → s'.mem a = s.mem a

namespace LogsWrites

theorem pure {α : Type} (r : α) : LogsWrites (Pure.pure r : KernelM α) := by
  intro s r' s' hcall
  obtain ⟨-, rfl⟩ := pure_ok_iff.mp hcall
  exact ⟨[], rfl, fun _ _ => rfl⟩

theorem bind {α β : Type} {x : KernelM α} {f : α → KernelM β} (hx : LogsWrites x)
    (hf : ∀ r, LogsWrites (f r)) : LogsWrites (x >>= f) := by
  intro s r s' hcall
  obtain ⟨r1, s1, hfirst, hrest⟩ := bind_ok_iff.mp hcall
  obtain ⟨l1, hlog1, hmem1⟩ := hx s r1 s1 hfirst
  obtain ⟨l2, hlog2, hmem2⟩ := hf r1 s1 r s' hrest
  refine ⟨l2 ++ l1, by rw [hlog2, hlog1, List.append_assoc], ?_⟩
  intro a hout
  rw [hmem2 a fun acc hacc => hout acc (List.mem_append_left _ hacc),
    hmem1 a fun acc hacc => hout acc (List.mem_append_right _ hacc)]

theorem readEntry (table idx : Nat) : LogsWrites (Kernel.readEntry table idx) := by
  intro s r s' hcall
  obtain ⟨-, rfl⟩ := readEntry_ok_iff.mp hcall
  exact ⟨[_], rfl, fun _ _ => rfl⟩

theorem writeEntry (table idx value : Nat) : LogsWrites (Kernel.writeEntry table idx value) := by
  intro s r s' hcall
  obtain rfl := writeEntry_ok_iff.mp hcall
  refine ⟨[.write (table + 8 * idx)], rfl, fun a hout => storeLE_of_outside _ ?_⟩
  have hnot := hout _ (List.mem_singleton_self _)
  unfold Access.Changes at hnot
  omega

theorem zeroPage (frame : Nat) : LogsWrites (Kernel.zeroPage frame) := by
  intro s r s' hcall
  obtain rfl := zeroPage_ok_iff.mp hcall
  refine ⟨[.zero frame], rfl, fun a hout => fill_of_outside _ ?_⟩
  have hnot := hout _ (List.mem_singleton_self _)
  unfold Access.Changes at hnot
  omega

theorem allocPage (debug : Bool) : LogsWrites (Kernel.allocPage debug) := by
  intro s r s' hcall
  obtain ⟨idx, -, -, rfl⟩ := allocPage_ok_iff.mp hcall
  exact ⟨[], rfl, fun _ _ => rfl⟩

theorem panicIf (condition : Prop) [Decidable condition] (panic : KPanic) :
    LogsWrites (Kernel.panicIf condition panic) := by
  intro s r s' hcall
  obtain ⟨-, rfl⟩ := panicIf_ok_iff.mp hcall
  exact ⟨[], rfl, fun _ _ => rfl⟩

theorem vmmNextTable (debug : Bool) (iflags table : Nat) (idx : Fin 512) :
    LogsWrites (Kernel.vmmNextTable debug iflags table idx) := by
  refine (readEntry _ _).bind fun entry => ?_
  split
  · refine (allocPage debug).bind fun frame => ?_
    exact (writeEntry _ _ _).bind fun _ => (zeroPage _).bind fun _ => pure _
  · exact pure _

theorem vmmMap (debug : Bool) (pml4 phys virt flags : Nat) :
    LogsWrites (Kernel.vmmMap debug pml4 phys virt flags) := by
  refine (panicIf _ _).bind fun _ => (panicIf _ _).bind fun _ => ?_
  refine bind ?_ fun pt => ?_
  · exact (vmmNextTable _ _ _ _).bind fun _ => (vmmNextTable _ _ _ _).bind fun _ =>
      vmmNextTable _ _ _ _
  · cases debug with
    | false => exact writeEntry _ _ _
    | true => exact (readEntry _ _).bind fun _ => (panicIf _ _).bind fun _ => writeEntry _ _ _

theorem mapFreshPage (debug : Bool) (pml4 virt flags : Nat) :
    LogsWrites (Kernel.mapFreshPage debug pml4 virt flags) :=
  (allocPage debug).bind fun _ => (vmmMap _ _ _ _ _).bind fun _ => pure _

end LogsWrites

/-- An access on a path is inside a frame of that path. -/
theorem OnPath.frame_eq {P : List (Fin 512) → Prop} {s : Machine} {root virt a : Nat} {acc : Access}
    (htree : PageTree P s root) (hclosed : PrefixClosed P) (hpath : P (pathOf virt))
    (hon : OnPath root (pathOf virt) s.mem acc) (hchanges : acc.Changes a) :
    ∃ q t, q <+: pathOf virt ∧ tableAt s.mem root q = some t ∧ a / pageSize = t / pageSize := by
  cases acc with
  | read addr => exact hchanges.elim
  | free frame => exact hchanges.elim
  | write addr =>
    obtain ⟨q, j, t, hpre, ht, rfl⟩ := hon
    have hq : q <+: pathOf virt := (List.prefix_append q [j]).trans hpre
    have haligned := htree.aligned q t (hclosed.mono hq hpath) ht
    refine ⟨q, t, hq, ht, ?_⟩
    unfold Access.Changes at hchanges
    unfold pageSize at *
    omega
  | zero frame =>
    obtain ⟨q, -, hq, ht⟩ := hon
    have haligned := htree.aligned q frame (hclosed.mono hq hpath) ht
    refine ⟨q, frame, hq, ht, ?_⟩
    unfold Access.Changes at hchanges
    unfold pageSize at *
    omega

/-- Mapping a page writes to frames on its path. -/
theorem mapFreshPage_memory {P : List (Fin 512) → Prop} {H : Fin 512 → Prop} {debug : Bool}
    {root virt flags frame a : Nat} {s s' : Machine} (htracks : Tracks P H) (hH : H (pml4Idx virt))
    (hfresh : FreshPage P H root virt frame s s')
    (hcall : mapFreshPage debug root virt flags s = .ok (frame, s'))
    (haway : ∀ q t, q <+: pathOf virt → tableAt s'.mem root q = some t →
      a / pageSize ≠ t / pageSize) : s'.mem a = s.mem a := by
  obtain ⟨l, hlog, hmem⟩ := LogsWrites.mapFreshPage debug root virt flags s frame s' hcall
  obtain ⟨l', hlog', hon⟩ := hfresh.logged
  obtain rfl := List.append_cancel_right (hlog.symm.trans hlog')
  refine hmem a fun acc hacc hchanges => ?_
  obtain ⟨q, t, hq, ht, hsame⟩ :=
    (hon acc hacc).frame_eq hfresh.owned.tree htracks.closed (htracks.pathOf hH) hchanges
  exact haway q t hq ht hsame

/-! ## Reading through owned tables -/

section Read

variable {s : Machine} {root virt : Nat}

theorem base_page4k (entry : Nat) : (Translation.page4k entry).base = entry &&& pteAddrMask := by
  show (entry &&& pteAddrMask) / (1 * pageSize) * (1 * pageSize) = _
  rw [Nat.one_mul]
  exact frame_eq_of_aligned (and_pteAddrMask_aligned entry)

/-- In the lower half a read goes to the frame at the end of the path. -/
theorem Owned.readVirt_eq {P : List (Fin 512) → Prop} (howned : Owned P LowerHalf s root)
    (hvirt : virt < 2 ^ 47) :
    readVirt s.mem root virt =
      (tableAt s.mem root (pathOf virt)).map fun frame => s.mem (frame + virt % pageSize) := by
  unfold readVirt
  rcases howned.walk_cases (lowerHalf_of_lt hvirt) with
    ⟨hwalk, htable⟩ | ⟨entry, f, hlink, hwalk, htable⟩
  · rw [hwalk, htable]
    rfl
  · have hcount : (Translation.page4k entry).count = 1 := rfl
    rw [hwalk, htable, Option.map_some, Option.map_some, base_page4k, hlink.addr, hcount, Nat.one_mul]

end Read

/-! ## Building a lower half page by page -/

/-- A byte of a page of zeros with `bytes` at `offset`. -/
def pageByte (offset : Nat) (bytes : List UInt8) (j : Nat) : UInt8 :=
  if offset ≤ j ∧ j < offset + bytes.length then bytes.getD (j - offset) 0 else 0

/-- What the lower half reads with one more page. -/
def placePage (image : Nat → Option UInt8) (addr offset : Nat) (bytes : List UInt8) :
    Nat → Option UInt8 := fun virt =>
  if virt / pageSize = addr / pageSize then some (pageByte offset bytes (virt % pageSize))
  else image virt

/-- The frame was taken from the page allocator since the start. -/
def TakenSince (s₀ s : Machine) (i : Nat) : Prop :=
  bitAt s₀.pmm.bitmap i = false ∧ bitAt s.pmm.bitmap i = true

/-- The lower half reads as `image`.  Since the start no byte has changed but those of new frames and
of the root table, whose upper half is as it was. -/
structure BuiltFrom (s₀ : Machine) (root : Nat) (image : Nat → Option UInt8) (s : Machine) : Prop where
  owned : Owned (PagesOf LowerHalf) LowerHalf s root
  base : ∀ i, bitAt s₀.pmm.bitmap i = true → bitAt s.pmm.bitmap i = true
  new : ∀ q t, PagesOf LowerHalf q → q ≠ [] → tableAt s.mem root q = some t →
    bitAt s₀.pmm.bitmap (t / pageSize) = false
  written : ∀ a, s.mem a ≠ s₀.mem a →
    TakenSince s₀ s (a / pageSize) ∨ a / pageSize = root / pageSize
  upper : ∀ i, ¬ LowerHalf i → tableEntry s.mem root i = tableEntry s₀.mem root i
  image : ∀ virt < 2 ^ 47, readVirt s.mem root virt = image virt

section Start

variable {s : Machine} {root : Nat}

theorem EmptyLower.owned (hempty : EmptyLower s root) :
    Owned (PagesOf LowerHalf) LowerHalf s root := by
  refine ⟨⟨?_, ?_, ?_, ?_⟩, fun q j hunder _ => Or.inl (hempty.entryAt_eq hunder)⟩
  · intro p q t hp hq htp htq
    rw [(hempty.tableAt_eq hp htp).1, (hempty.tableAt_eq hq htq).1]
  · intro q t hq ht
    rw [(hempty.tableAt_eq hq ht).2]
    exact hempty.aligned
  · intro q t hq ht
    rw [(hempty.tableAt_eq hq ht).2]
    exact hempty.small
  · intro q t hq ht
    rw [(hempty.tableAt_eq hq ht).2]
    exact hempty.used

/-- At the start nothing is mapped. -/
theorem EmptyLower.builtFrom (hempty : EmptyLower s root) : BuiltFrom s root (fun _ => none) s := by
  refine ⟨hempty.owned, fun _ hi => hi, ?_, fun a hne => absurd rfl hne, fun _ _ => rfl, ?_⟩
  · intro q t hq hne ht
    exact absurd (hempty.tableAt_eq hq ht).1 hne
  · intro virt hvirt
    rw [hempty.owned.readVirt_eq hvirt]
    cases ht : tableAt s.mem root (pathOf virt) with
    | none => rfl
    | some t =>
      have hnil := (hempty.tableAt_eq ((pagesOf_tracks _).pathOf (lowerHalf_of_lt hvirt)) ht).1
      cases hnil

end Start

section Page

variable {s₀ s t : Machine} {root addr frame flags offset : Nat} {bytes : List UInt8}
variable {image : Nat → Option UInt8} {debug : Bool}

/-- Another page has the same frame as before. -/
theorem FreshPage.tableAt_other {P : List (Fin 512) → Prop} {H : Fin 512 → Prop} {virt : Nat}
    (htracks : Tracks P H) (hfresh : FreshPage P H root addr frame s t) (hH : H (pml4Idx virt))
    (hne : pathOf virt ≠ pathOf addr) :
    tableAt t.mem root (pathOf virt) = tableAt s.mem root (pathOf virt) := by
  rw [pathOf_eq, tableAt_snoc, tableAt_snoc, hfresh.entries _ _ (htracks.pathToPt hH)
    (ne_pathOf_of_length (by simp [pathToPt]))]
  intro hpre
  exact hne (hpre.eq_of_length rfl)

/-- A frame is zeroed and partly overwritten. -/
def Machine.fillFrame (t : Machine) (frame offset : Nat) (bytes : List UInt8) (log : List Access) :
    Machine where
  pmm := t.pmm
  mem := storeBytes (fill t.mem frame pageSize 0) (frame + offset) bytes
  log := log

theorem fillFrame_outside {a : Nat} (log : List Access) (haligned : frame % pageSize = 0)
    (hfit : offset + bytes.length ≤ pageSize) (hne : a / pageSize ≠ frame / pageSize) :
    (t.fillFrame frame offset bytes log).mem a = t.mem a := by
  show storeBytes (fill t.mem frame pageSize 0) (frame + offset) bytes a = t.mem a
  unfold pageSize at *
  rw [storeBytes_of_outside _ (by omega), fill_of_outside _ (by omega)]

theorem fillFrame_inside {j : Nat} (log : List Access) (hj : j < pageSize) :
    (t.fillFrame frame offset bytes log).mem (frame + j) = pageByte offset bytes j := by
  show storeBytes (fill t.mem frame pageSize 0) (frame + offset) bytes (frame + j) = _
  unfold storeBytes pageByte fill
  rw [show frame + j - (frame + offset) = j - offset by omega]
  by_cases hin : offset ≤ j ∧ j < offset + bytes.length
  · rw [if_pos hin, if_pos (by omega)]
  · rw [if_neg hin, if_neg (by omega), if_pos (by omega)]

theorem pathOf_eq_of_page {virt addr : Nat} (hsame : virt / pageSize = addr / pageSize) :
    pathOf virt = pathOf addr := by
  rw [← pathOf_pageOf virt, ← pathOf_pageOf addr]
  unfold pageOf
  rw [hsame]

theorem pathOf_ne_of_page {virt addr : Nat} (hvirt : virt < 2 ^ 47) (haddr : addr < 2 ^ 47)
    (hne : virt / pageSize ≠ addr / pageSize) : pathOf virt ≠ pathOf addr := by
  rw [← pathOf_pageOf virt, ← pathOf_pageOf addr]
  refine pathOf_ne ?_ ?_ (pageOf_aligned _) (pageOf_aligned _) ?_
  all_goals
    unfold pageOf pageSize at *
    omega

/-- One page: it is taken and mapped, zeroed, and partly overwritten. -/
theorem BuiltFrom.page (hbuilt : BuiltFrom s₀ root image s) (haddr : addr < 2 ^ 47)
    (hflags : LinkFlags flags) (hcall : mapFreshPage debug root addr flags s = .ok (frame, t))
    (hfit : offset + bytes.length ≤ pageSize) (log : List Access) :
    BuiltFrom s₀ root (placePage image addr offset bytes) (t.fillFrame frame offset bytes log) := by
  have htracks := pagesOf_tracks LowerHalf
  have hH := lowerHalf_of_lt haddr
  have hpath := htracks.pathOf hH
  have hfresh := mapFreshPage_effect htracks hbuilt.owned hH hflags hcall
  have htree := hfresh.owned.tree
  have haligned := htree.aligned _ _ hpath hfresh.page
  have hout {a : Nat} (hne : a / pageSize ≠ frame / pageSize) :
      (t.fillFrame frame offset bytes log).mem a = t.mem a :=
    fillFrame_outside log haligned hfit hne
  obtain ⟨howned, hsame⟩ : Owned (PagesOf LowerHalf) LowerHalf (t.fillFrame frame offset bytes log) root ∧
      ∀ q, PagesOf LowerHalf q →
        tableAt (t.fillFrame frame offset bytes log).mem root q = tableAt t.mem root q :=
    hfresh.owned.writePage htracks hH hfresh.page rfl fun a hne => hout hne
  have hapart {q : List (Fin 512)} {u : Nat} (hq : PagesOf LowerHalf q) (hne : q ≠ pathOf addr)
      (hu : tableAt t.mem root q = some u) : u / pageSize ≠ frame / pageSize :=
    fun heq => hne (htree.path_eq hq hpath hu hfresh.page heq)
  have htaken {q : List (Fin 512)} {u : Nat} (hq : PagesOf LowerHalf q) (hne : q ≠ [])
      (hu : tableAt t.mem root q = some u) : TakenSince s₀ t (u / pageSize) := by
    refine ⟨?_, htree.used q u hq hu⟩
    rcases hfresh.fresh q u hq hu with hold | hclear
    · exact hbuilt.new q u hq hne hold
    · by_contra hset
      rw [hbuilt.base _ (Bool.not_eq_false _ ▸ hset)] at hclear
      cases hclear
  refine ⟨howned, fun i hi => hfresh.bits i (hbuilt.base i hi), ?_, ?_, ?_, ?_⟩
  · intro q u hq hne hu
    exact (htaken hq hne ((hsame q hq).symm.trans hu)).1
  · intro a hchanged
    by_cases hframe : a / pageSize = frame / pageSize
    · rw [hframe]
      exact Or.inl (htaken hpath (by simp [pathOf]) hfresh.page)
    · by_cases hon : ∃ q u, q <+: pathOf addr ∧ tableAt t.mem root q = some u ∧
          a / pageSize = u / pageSize
      · obtain ⟨q, u, hq, hu, heq⟩ := hon
        by_cases hnil : q = []
        · subst hnil
          cases hu
          exact Or.inr heq
        · rw [heq]
          exact Or.inl (htaken (htracks.closed.mono hq hpath) hnil hu)
      · have hkept := mapFreshPage_memory htracks hH hfresh hcall (a := a)
          fun q u hq hu heq => hon ⟨q, u, hq, hu, heq⟩
        rw [hout hframe, hkept] at hchanged
        rcases hbuilt.written a hchanged with hold | hroot
        · exact Or.inl ⟨hold.1, hfresh.bits _ hold.2⟩
        · exact Or.inr hroot
  · intro i hi
    have hroot := hapart (Or.inl rfl) (by simp [pathOf]) (tableAt_nil t.mem root)
    have hrootaligned := htree.aligned [] root (Or.inl rfl) (tableAt_nil _ _)
    have hentry : tableEntry t.mem root i = tableEntry s.mem root i := by
      refine hfresh.entries [] i (Or.inl rfl) (by simp [pathOf]) ?_
      intro hpre
      obtain rfl : i = pml4Idx addr := (List.cons_prefix_cons.mp hpre).1
      exact hi hH
    rw [← hbuilt.upper i hi, ← hentry]
    apply loadLE_congr
    intro a hlo hhi
    apply hout
    unfold pageSize at *
    omega
  · intro virt hvirt
    have hV := lowerHalf_of_lt hvirt
    have hPvirt := htracks.pathOf hV
    rw [howned.readVirt_eq hvirt, hsame _ hPvirt]
    unfold placePage
    split
    · rename_i hpage
      rw [pathOf_eq_of_page hpage, hfresh.page, Option.map_some,
        fillFrame_inside log (Nat.mod_lt _ (by decide))]
    · rename_i hpage
      have hne := pathOf_ne_of_page hvirt haddr hpage
      rw [← hbuilt.image virt hvirt, hbuilt.owned.readVirt_eq hvirt,
        ← hfresh.tableAt_other htracks hV hne]
      cases hf : tableAt t.mem root (pathOf virt) with
      | none => rfl
      | some f =>
        -- the page of another address is neither the new frame nor a table on the way to it
        have hfaligned := htree.aligned _ f hPvirt hf
        have hdiv : (f + virt % pageSize) / pageSize = f / pageSize := by
          unfold pageSize at *
          omega
        rw [Option.map_some, Option.map_some, hout (by rw [hdiv]; exact hapart hPvirt hne hf),
          mapFreshPage_memory htracks hH hfresh hcall]
        intro q u hq hu heq
        rw [hdiv] at heq
        obtain rfl := htree.path_eq (htracks.closed.mono hq hpath) hPvirt hu hf heq.symm
        exact hne (hq.eq_of_length rfl)

end Page

end Pristine.Kernel
