import Pristine.Kernel.FrameBudget
import Pristine.Kernel.Sbrk

/-!
# The pages of the heap

The heap of a process is followed page by page.  `HeapHeld S` compares a state
with the one the process started in: the pages of `S` have frames that were free
then, all other pages are as they were, and every frame in use is accounted for.
One page more or less changes `S` by that page (`HeapHeld.fresh`,
`HeapHeld.freed`), and so a call of `SYS_SBRK` moves the end of the heap with the
break (`heapFollowed_step`).

What a request costs is known exactly (`takes_mapRange`), so it is also known
when it cannot be satisfied, and what happens then: `sbrk_never_atomic`.
-/

namespace Pristine.Kernel

open Lib Relation

/-! ## Heap pages -/

/-- Frames in use that are neither tables nor pages of the tree. -/
def Background (P : List (Fin 512) → Prop) (s : Machine) (root i : Nat) : Prop :=
  bitAt s.pmm.bitmap i = true ∧ ∀ q, P q → tableAt s.mem root q ≠ some (i * pageSize)

theorem PageTree.balanced_background {P : List (Fin 512) → Prop} {s : Machine} {root : Nat}
    (htree : PageTree P s root) : Balanced P (Background P s root) s root := by
  intro i
  constructor
  · intro hset
    by_cases hin : ∃ q, P q ∧ tableAt s.mem root q = some (i * pageSize)
    · exact Or.inr hin
    · exact Or.inl ⟨hset, fun q hq ht => hin ⟨q, hq, ht⟩⟩
  · rintro (hbackground | ⟨q, hq, ht⟩)
    · exact hbackground.1
    · have hused := htree.used q _ hq ht
      rwa [Nat.mul_div_cancel i (by decide)] at hused

/-- Compared with the start `s₀`, the pages of `S` are mapped to frames taken since, and nothing else
has changed for the other pages. -/
structure HeapHeld (s₀ : Machine) (root : Nat) (S : Nat → Prop) (s : Machine) : Prop where
  owned : Owned UserPath LowerHalf s root
  bits : ∀ i, bitAt s₀.pmm.bitmap i = true → bitAt s.pmm.bitmap i = true
  balanced : Balanced UserPath (Background UserPath s₀ root) s root
  page : ∀ v, v % pageSize = 0 → v < 2 ^ 47 → S v →
    ∃ f, tableAt s.mem root (pathOf v) = some f ∧ bitAt s₀.pmm.bitmap (f / pageSize) = false
  other : ∀ v, v % pageSize = 0 → v < 2 ^ 47 → ¬ S v →
    tableAt s.mem root (pathOf v) = tableAt s₀.mem root (pathOf v)

section Held

variable {s₀ s s' : Machine} {root virt frame : Nat} {S T : Nat → Prop}

theorem HeapHeld.refl (howned : Owned UserPath LowerHalf s₀ root) (hnone : ∀ v, ¬ S v) :
    HeapHeld s₀ root S s₀ :=
  ⟨howned, fun _ hset => hset, howned.tree.balanced_background, fun v _ _ hS => absurd hS (hnone v),
    fun _ _ _ _ => rfl⟩

theorem HeapHeld.congr (hheld : HeapHeld s₀ root S s)
    (hsame : ∀ v, v % pageSize = 0 → v < 2 ^ 47 → (S v ↔ T v)) : HeapHeld s₀ root T s :=
  ⟨hheld.owned, hheld.bits, hheld.balanced,
    fun v haligned hv hT => hheld.page v haligned hv ((hsame v haligned hv).mpr hT),
    fun v haligned hv hT => hheld.other v haligned hv (fun hS => hT ((hsame v haligned hv).mp hS))⟩

theorem HeapHeld.fresh (hheld : HeapHeld s₀ root S s) (hvirt : virt < 2 ^ 47)
    (haligned : virt % pageSize = 0) (hnone : tableAt s₀.mem root (pathOf virt) = none) (hS : ¬ S virt)
    (hfresh : FreshPage UserPath LowerHalf root virt frame s s') :
    HeapHeld s₀ root (fun v => S v ∨ v = virt) s' := by
  have hunmapped : tableAt s.mem root (pathOf virt) = none :=
    (hheld.other virt haligned hvirt hS).trans hnone
  have hH := lowerHalf_of_lt hvirt
  refine ⟨hfresh.owned, fun i hset => hfresh.bits i (hheld.bits i hset),
    hfresh.balanced (hheld.owned.entry_eq_zero hH hunmapped) _ hheld.balanced, ?_, ?_⟩
  · intro v hva hv hin
    by_cases heq : v = virt
    · subst heq
      refine ⟨frame, hfresh.page, ?_⟩
      rcases hfresh.fresh _ frame (userPath_tracks.pathOf hH) hfresh.page with hold | hclear
      · rw [hunmapped] at hold
        cases hold
      · -- what is free now was free at the start
        rw [← Bool.not_eq_true] at hclear ⊢
        exact fun hset => hclear (hheld.bits _ hset)
    · obtain ⟨f, hf, hclear⟩ := hheld.page v hva hv (hin.resolve_right heq)
      exact ⟨f, hfresh.keep _ f (userPath_tracks.pathOf (lowerHalf_of_lt hv))
        (pathOf_ne hv hvirt hva haligned heq) hf, hclear⟩
  · intro v hva hv hout
    obtain ⟨hSv, hne⟩ := not_or.mp hout
    have hoff : ¬ pathOf v <+: pathOf virt := fun hpre =>
      pathOf_ne hv hvirt hva haligned hne (hpre.eq_of_length rfl)
    rw [← hheld.other v hva hv hSv, pathOf_eq, tableAt_snoc, tableAt_snoc,
      hfresh.entries _ _ (userPath_tracks.pathToPt (lowerHalf_of_lt hv))
        (ne_pathOf_of_length (by simp [pathToPt])) hoff]

theorem HeapHeld.freed (hheld : HeapHeld s₀ root S s) (hvirt : virt < 2 ^ 47)
    (haligned : virt % pageSize = 0) (hnone : tableAt s₀.mem root (pathOf virt) = none) (hS : S virt)
    (hframe : tableAt s.mem root (pathOf virt) = some frame)
    (hfreed : FreedPage UserPath LowerHalf root virt frame s s') :
    HeapHeld s₀ root (fun v => S v ∧ v ≠ virt) s' := by
  have hclear : bitAt s₀.pmm.bitmap (frame / pageSize) = false := by
    obtain ⟨f, hf, hclear⟩ := hheld.page virt haligned hvirt hS
    rw [hframe] at hf
    cases hf
    exact hclear
  have hother (v : Nat) (hva : v % pageSize = 0) (hv : v < 2 ^ 47) (hne : v ≠ virt) :
      tableAt s'.mem root (pathOf v) = tableAt s.mem root (pathOf v) :=
    hfreed.other _ (userPath_tracks.pathOf (lowerHalf_of_lt hv))
      (pathOf_ne hv hvirt hva haligned hne)
  refine ⟨hfreed.owned, fun i hset => ?_, hfreed.balanced _ (fun hback => ?_) hheld.balanced, ?_, ?_⟩
  · rw [hfreed.bits, hheld.bits i hset]
    have hne : frame / pageSize ≠ i := by
      rintro rfl
      rw [hclear] at hset
      cases hset
    simp [hne]
  · rw [hback.1] at hclear
    cases hclear
  · rintro v hva hv ⟨hSv, hne⟩
    rw [hother v hva hv hne]
    exact hheld.page v hva hv hSv
  · intro v hva hv hout
    by_cases heq : v = virt
    · subst heq
      rw [hfreed.page, hnone]
    · rw [hother v hva hv heq]
      exact hheld.other v hva hv fun hSv => hout ⟨hSv, heq⟩

/-! ## Runs of pages -/

/-- The addresses from `start` up to `stop`. -/
def HeapRange (start stop v : Nat) : Prop := start ≤ v ∧ v < stop

theorem page_lt {base count k : Nat} (hk : k < count) :
    base + k * pageSize < base + count * pageSize :=
  Nat.add_lt_add_left (Nat.mul_lt_mul_of_pos_right hk (by decide)) base

theorem page_aligned {base : Nat} (hbase : base % pageSize = 0) (k : Nat) :
    (base + k * pageSize) % pageSize = 0 := by
  rw [Nat.add_mul_mod_self_right, hbase]

section Range

variable {start base count : Nat} (hbase : base % pageSize = 0) (hstart : start ≤ base)
variable (hend : base + count * pageSize ≤ 2 ^ 47)
variable (hfree : ∀ v, v % pageSize = 0 → base ≤ v → v < base + count * pageSize →
  tableAt s₀.mem root (pathOf v) = none)

include hbase hstart hend hfree

theorem HeapHeld.grow {debug : Bool} (hheld : HeapHeld s₀ root (HeapRange start base) s)
    (hcall : mapRange debug root vmmFlagsUserData base count s = .ok ((), s')) :
    HeapHeld s₀ root (HeapRange start (base + count * pageSize)) s' := by
  have haligned := page_aligned hbase
  refine mapRange_rule (fun k t => HeapHeld s₀ root (HeapRange start (base + k * pageSize)) t)
    userPath_tracks userData_linkFlags (by omega)
    (fun k hk => lowerHalf_of_lt (Nat.lt_of_lt_of_le (page_lt hk) hend))
    (fun k t hJ => hJ.owned) ?_ (by simpa using hheld) hcall
  intro k frame t t' hk hJ hfresh
  have hvirt := Nat.lt_of_lt_of_le (page_lt hk) hend
  refine (hJ.fresh hvirt (haligned k)
    (hfree _ (haligned k) (Nat.le_add_right _ _) (page_lt hk)) ?_ hfresh).congr ?_
  · exact fun hin => Nat.lt_irrefl _ hin.2
  · intro v hv _
    rw [Nat.add_mul, Nat.one_mul, ← Nat.add_assoc]
    have hk' := haligned k
    have hle : start ≤ base + k * pageSize := Nat.le_trans hstart (Nat.le_add_right _ _)
    unfold HeapRange
    generalize base + k * pageSize = stop at *
    unfold pageSize at *
    omega

theorem HeapHeld.shrink (debug : Bool)
    (hheld : HeapHeld s₀ root (HeapRange start (base + count * pageSize)) s) :
    ∃ s', freeRange debug root base count s = .ok ((), s') ∧
      HeapHeld s₀ root (HeapRange start base) s' := by
  have haligned := page_aligned hbase
  -- after `k` pages the heap has a gap of `k` pages
  let left (k v : Nat) : Prop :=
    HeapRange start (base + count * pageSize) v ∧ ¬ HeapRange base (base + k * pageSize) v
  have hleft (k : Nat) (hk : k < count) : left k (base + k * pageSize) :=
    ⟨⟨Nat.le_trans hstart (Nat.le_add_right _ _), page_lt hk⟩, fun hin => Nat.lt_irrefl _ hin.2⟩
  have hvirt (k : Nat) (hk : k < count) := Nat.lt_of_lt_of_le (page_lt hk) hend
  have hrun : ∃ s', freeRange debug root base count s = .ok ((), s') ∧
      HeapHeld s₀ root (left count) s' := freeRange_rule
    (fun k t => HeapHeld s₀ root (left k) t) userPath_tracks (by omega)
    (fun k hk => lowerHalf_of_lt (hvirt k hk)) (fun k t hJ => hJ.owned)
    (fun k t hk hJ => (hJ.page _ (haligned k) (hvirt k hk) (hleft k hk)).imp fun _ hf => hf.1)
    (fun k frame t t' hk hJ hframe hfreed => by
      refine (hJ.freed (hvirt k hk) (haligned k)
        (hfree _ (haligned k) (Nat.le_add_right _ _) (page_lt hk)) (hleft k hk) hframe hfreed).congr ?_
      intro v hv _
      have hk' := haligned k
      simp only [left, HeapRange]
      rw [Nat.add_mul, Nat.one_mul, ← Nat.add_assoc]
      generalize base + count * pageSize = top at *
      have hle : base ≤ base + k * pageSize := Nat.le_add_right _ _
      generalize base + k * pageSize = stop at *
      unfold pageSize at *
      omega)
    (hheld.congr fun v _ _ => by simp [left, HeapRange])
  obtain ⟨s', hcall, hdone⟩ := hrun
  refine ⟨s', hcall, hdone.congr fun v _ _ => ?_⟩
  simp only [left, HeapRange]
  omega

end Range

/-! ## Frames by the hardware's walk -/

/-- The frame of the 4 KiB page that the hardware's walk finds. -/
def pageFrame (mem : ByteMem) (root virt : Nat) : Option Nat :=
  match walk mem root virt with
  | some (.page4k entry) => some (entry &&& pteAddrMask)
  | _ => none

/-- Below `H` the walk finds what the tree has. -/
theorem Owned.pageFrame_eq {P : List (Fin 512) → Prop} {H : Fin 512 → Prop}
    (howned : Owned P H s root) (hH : H (pml4Idx virt)) :
    pageFrame s.mem root virt = tableAt s.mem root (pathOf virt) := by
  unfold pageFrame
  rcases howned.walk_cases hH with ⟨hwalk, htable⟩ | ⟨entry, f, hlink, hwalk, htable⟩
  · rw [hwalk, htable]
  · rw [hwalk, htable, ← hlink.addr]

/-- The frames taken since the start that are not tables. -/
def dataFrames (s₀ s : Machine) (root : Nat) : Set Nat :=
  {i | bitAt s.pmm.bitmap i = true ∧ bitAt s₀.pmm.bitmap i = false ∧
    ∀ q, q.length ≤ 3 → tableAt s.mem root q ≠ some (i * pageSize)}

end Held

section Count

variable {s₀ s : Machine} {root start count : Nat}

/-- Every path of four indices below the lower half is the path of a page there. -/
theorem exists_pathOf_lower {q : List (Fin 512)} (hlen : q.length = 4) (hunder : Under LowerHalf q) :
    ∃ v, v % pageSize = 0 ∧ v < 2 ^ 47 ∧ pathOf v = q := by
  match q, hlen with
  | [a, b, c, d], _ =>
    obtain ⟨v, hcanon, haligned, hpath⟩ := exists_pathOf a b c d
    refine ⟨v, haligned, ?_, hpath⟩
    obtain ⟨i, rest, hq, hi⟩ := hunder
    have hidx : pml4Idx v = i := by
      rw [hq] at hpath
      exact (List.cons.inj hpath).1
    unfold LowerHalf at hi
    rw [← hidx] at hi
    unfold pml4Idx at hi
    rw [tableIdx_val] at hi
    unfold Canonical at hcanon
    omega

variable (howned : Owned UserPath LowerHalf s₀ root)
variable (hheld : HeapHeld s₀ root (HeapRange start (start + count * pageSize)) s)
variable (hstart : start % pageSize = 0) (hend : start + count * pageSize ≤ 2 ^ 47)

include howned hheld hstart hend

/-- The data frames are the frames of the heap's pages. -/
theorem HeapHeld.dataFrames_eq :
    dataFrames s₀ s root = ↑((Finset.range count).image fun k =>
      (tableAt s.mem root (pathOf (start + k * pageSize))).getD 0 / pageSize) := by
  have hpath (v : Nat) (hv : v < 2 ^ 47) : UserPath (pathOf v) :=
    userPath_tracks.pathOf (lowerHalf_of_lt hv)
  ext i
  simp only [dataFrames, Set.mem_ofPred_eq, Finset.coe_image, Set.mem_image, Finset.coe_range,
    Set.mem_Iio]
  constructor
  · rintro ⟨hset, hclear, hdata⟩
    rcases (hheld.balanced i).mp hset with hback | ⟨q, hq, ht⟩
    · rw [hback.1] at hclear
      cases hclear
    · rcases hq with hshort | ⟨hlen, hunder⟩
      · exact absurd ht (hdata q hshort)
      · obtain ⟨v, haligned, hv, rfl⟩ := exists_pathOf_lower hlen hunder
        have hin : HeapRange start (start + count * pageSize) v := by
          -- the other pages have the frames they had at the start
          by_contra hout
          rw [hheld.other v haligned hv hout] at ht
          have hused := howned.tree.used _ _ (hpath v hv) ht
          rw [Nat.mul_div_cancel i (by decide), hclear] at hused
          cases hused
        have hk : v = start + (v - start) / pageSize * pageSize := by
          obtain ⟨hlo, -⟩ := hin
          unfold pageSize at *
          omega
        refine ⟨(v - start) / pageSize, ?_, ?_⟩
        · obtain ⟨hlo, hhi⟩ := hin
          unfold pageSize at *
          omega
        · rw [← hk, ht]
          exact Nat.mul_div_cancel i (by decide)
  · rintro ⟨k, hk, rfl⟩
    have hv := Nat.lt_of_lt_of_le (page_lt hk) hend
    obtain ⟨f, hf, hclear⟩ := hheld.page _ (page_aligned hstart k) hv ⟨Nat.le_add_right _ _, page_lt hk⟩
    rw [hf, Option.getD_some]
    refine ⟨hheld.owned.tree.used _ f (hpath _ hv) hf, hclear, fun q hq ht => ?_⟩
    rw [frame_eq_of_aligned (hheld.owned.tree.aligned _ f (hpath _ hv) hf)] at ht
    have heq := hheld.owned.tree.unique q _ f (Or.inl hq) (hpath _ hv) ht hf
    rw [heq] at hq
    simp [pathOf] at hq

/-- There are as many data frames as pages. -/
theorem HeapHeld.ncard_dataFrames : (dataFrames s₀ s root).ncard = count := by
  rw [hheld.dataFrames_eq howned hstart hend, Set.ncard_coe_finset, Finset.card_image_of_injOn,
    Finset.card_range]
  intro j hj k hk hsame
  rw [Finset.coe_range, Set.mem_Iio] at hj hk
  have hpage (k : Nat) (hk : k < count) :
      ∃ f, tableAt s.mem root (pathOf (start + k * pageSize)) = some f ∧
        start + k * pageSize < 2 ^ 47 ∧ (start + k * pageSize) % pageSize = 0 := by
    have hv := Nat.lt_of_lt_of_le (page_lt hk) hend
    obtain ⟨f, hf, -⟩ := hheld.page _ (page_aligned hstart k) hv ⟨Nat.le_add_right _ _, page_lt hk⟩
    exact ⟨f, hf, hv, page_aligned hstart k⟩
  obtain ⟨f, hf, hfv, hfa⟩ := hpage j hj
  obtain ⟨g, hg, hgv, hga⟩ := hpage k hk
  have hPf := userPath_tracks.pathOf (lowerHalf_of_lt hfv)
  have hPg := userPath_tracks.pathOf (lowerHalf_of_lt hgv)
  simp only [hf, hg, Option.getD_some] at hsame
  have hpaths := hheld.owned.tree.path_eq hPf hPg hf hg hsame
  have haddr := pathOf_injective (Or.inl hfv) (Or.inl hgv) hfa hga hpaths
  unfold pageSize at haddr
  omega

end Count

/-! ## Requests within bounds -/

/-- The break stays between `start` and `limit`. -/
def SbrkWithin (start limit brk arg : Nat) : Prop :=
  (start : Int) ≤ brk + toInt64 arg ∧ (brk : Int) + toInt64 arg ≤ limit

instance (start limit brk arg : Nat) : Decidable (SbrkWithin start limit brk arg) :=
  inferInstanceAs (Decidable (_ ∧ _))

/-- The pages a request adds, as `syscall_sbrk` counts them. -/
def sbrkPages (process : Process) (arg : Nat) : Nat :=
  (alignUp ((process.brk + arg) % 2 ^ 64) pageSize / pageSize + 2 ^ 64 -
    alignUp process.brk pageSize / pageSize) % 2 ^ 64

/-- The frames a request needs: none to shrink. -/
def sbrkFrames (mem : ByteMem) (process : Process) (arg : Nat) : Nat :=
  if 2 ^ 63 ≤ arg then 0
  else framesNeeded mem process.pml4 (alignUp process.brk pageSize) (sbrkPages process arg)

/-- A process whose heap may grow up to `limit`: nothing is mapped between. -/
structure HeapStart (limit : Nat) (r : SbrkRun) : Prop where
  owned : Owned UserPath LowerHalf r.machine r.process.pml4
  brk_eq : r.process.brk = r.process.brkStart
  aligned : r.process.brkStart % pageSize = 0
  limit_ge : r.process.brkStart ≤ limit
  limit_lt : limit < 2 ^ 47
  free : ∀ v, v % pageSize = 0 → r.process.brkStart ≤ v → v < limit →
    pageFrame r.machine.mem r.process.pml4 v = none

/-- The invariant of a run from `r₀`: the heap ends at the break. -/
structure HeapFollowed (limit : Nat) (r₀ r : SbrkRun) : Prop where
  process_eq : r.process = { r₀.process with brk := r.process.brk }
  brk_ge : r₀.process.brkStart ≤ r.process.brk
  brk_le : r.process.brk ≤ limit
  held : HeapHeld r₀.machine r₀.process.pml4
    (HeapRange r₀.process.brkStart (alignUp r.process.brk pageSize)) r.machine

section Runs

variable {debug : Bool} {limit arg : Nat} {r₀ r : SbrkRun}

theorem heapFollowed_start (hstart : HeapStart limit r₀) : HeapFollowed limit r₀ r₀ := by
  have hlt := hstart.limit_lt
  have hge := hstart.limit_ge
  have haligned := hstart.aligned
  refine ⟨rfl, Nat.le_of_eq hstart.brk_eq.symm, ?_, HeapHeld.refl hstart.owned fun v hin => ?_⟩
  · rw [hstart.brk_eq]
    exact hge
  · unfold HeapRange at hin
    rw [hstart.brk_eq, alignUp_of_lt (by omega)] at hin
    unfold pageSize at haligned
    omega

/-- Pages between `brk_start` and the limit were not mapped at the start. -/
theorem HeapStart.tableAt_eq_none (hstart : HeapStart limit r₀) {v : Nat} (haligned : v % pageSize = 0)
    (hlo : r₀.process.brkStart ≤ v) (hhi : v < limit) :
    tableAt r₀.machine.mem r₀.process.pml4 (pathOf v) = none := by
  have hlt := hstart.limit_lt
  rw [← hstart.owned.pageFrame_eq (lowerHalf_of_lt (by omega))]
  exact hstart.free v haligned hlo hhi

/-- The break after a request within bounds. -/
theorem newBrk_of_within {start brk : Nat} (hlimit : limit < 2 ^ 47)
    (hwithin : SbrkWithin start limit brk arg) :
    (((brk + arg) % 2 ^ 64 : Nat) : Int) = brk + toInt64 arg ∧ start ≤ (brk + arg) % 2 ^ 64 ∧
      (brk + arg) % 2 ^ 64 ≤ limit := by
  obtain ⟨hlo, hhi⟩ := hwithin
  unfold toInt64 at *
  split at hlo <;> simp_all only [if_true, if_false] <;> omega

theorem HeapFollowed.pml4_eq (hinv : HeapFollowed limit r₀ r) : r.process.pml4 = r₀.process.pml4 := by
  rw [hinv.process_eq]

theorem HeapFollowed.brkStart_eq (hinv : HeapFollowed limit r₀ r) :
    r.process.brkStart = r₀.process.brkStart := by
  rw [hinv.process_eq]

theorem HeapFollowed.withBrk_eq (hinv : HeapFollowed limit r₀ r) (brk : Nat) :
    { r.process with brk := brk } = { r₀.process with brk := brk } := by
  rw [hinv.process_eq]

/-! The two branches of `syscall_sbrk` that change something. -/

theorem syscallSbrk_of_neg (debug : Bool) (process : Process) (hneg : 2 ^ 63 ≤ arg)
    (hge : process.brkStart ≤ (process.brk + arg) % 2 ^ 64) :
    syscallSbrk debug process arg = (do
      freeRange debug process.pml4
        (alignUp ((process.brk + arg) % 2 ^ 64) pageSize / pageSize * pageSize)
        (alignUp process.brk pageSize / pageSize -
          alignUp ((process.brk + arg) % 2 ^ 64) pageSize / pageSize)
      return (process.brk, { process with brk := (process.brk + arg) % 2 ^ 64 })) := by
  unfold syscallSbrk
  rw [if_pos hneg, if_neg (Nat.not_lt_of_le hge)]

theorem syscallSbrk_of_pos (debug : Bool) (process : Process) (hpos : ¬ 2 ^ 63 ≤ arg) :
    syscallSbrk debug process arg = (do
      mapRange debug process.pml4 vmmFlagsUserData (alignUp process.brk pageSize)
        (sbrkPages process arg)
      return (process.brk, { process with brk := (process.brk + arg) % 2 ^ 64 })) := by
  unfold syscallSbrk sbrkPages
  rw [if_neg hpos]

/-- A request that shrinks the heap is granted. -/
theorem HeapFollowed.shrink (debug : Bool) (hinv : HeapFollowed limit r₀ r)
    (hstart : HeapStart limit r₀) (harg : arg < 2 ^ 64) (hneg : 2 ^ 63 ≤ arg)
    (hwithin : SbrkWithin r₀.process.brkStart limit r.process.brk arg) :
    ∃ m', syscallSbrk debug r.process arg r.machine =
        .ok ((r.process.brk, { r.process with brk := (r.process.brk + arg) % 2 ^ 64 }), m') ∧
      HeapFollowed limit r₀ ⟨m', { r.process with brk := (r.process.brk + arg) % 2 ^ 64 }⟩ := by
  obtain ⟨hnew, hge, hle⟩ := newBrk_of_within hstart.limit_lt hwithin
  have hlimit := hstart.limit_lt
  have hbrk := hinv.brk_le
  have hdown : (r.process.brk + arg) % 2 ^ 64 ≤ r.process.brk := by
    unfold toInt64 at hnew
    rw [if_pos hneg] at hnew
    omega
  have hheld := hinv.held
  have hold := alignUp_of_lt (show r.process.brk < 2 ^ 47 by omega)
  have hround := alignUp_of_lt (show (r.process.brk + arg) % 2 ^ 64 < 2 ^ 47 by omega)
  have haligned := hstart.aligned
  rw [syscallSbrk_of_neg debug r.process hneg (by rw [hinv.brkStart_eq]; exact hge)]
  generalize (r.process.brk + arg) % 2 ^ 64 = brk at *
  generalize alignUp r.process.brk pageSize = old at *
  -- the pages to free are those from the new break up to the old one
  have hcount : alignUp brk pageSize + (old / pageSize - alignUp brk pageSize / pageSize) * pageSize =
      old := by
    rw [hround, hold]
    unfold pageSize
    omega
  rw [← hcount] at hheld
  obtain ⟨m', hcall, hafter⟩ := HeapHeld.shrink (by rw [hround]; unfold pageSize; omega)
    (by rw [hround]; unfold pageSize at haligned; omega) (by omega)
    (fun v hv hlo hhi => hstart.tableAt_eq_none hv (by rw [hround] at hlo; omega)
      (by rw [hcount, hold] at hhi; unfold pageSize at hv; omega)) debug hheld
  refine ⟨m', (bind_eq_of_ok (a := ()) ?_).trans rfl, hinv.withBrk_eq brk, hge, hle, hafter⟩
  rw [hinv.pml4_eq, frame_eq_of_aligned (by rw [hround]; unfold pageSize; omega)]
  exact hcall

/-- What a request to grow adds to the heap. -/
theorem HeapFollowed.growth (hinv : HeapFollowed limit r₀ r) (hstart : HeapStart limit r₀)
    (hpos : ¬ 2 ^ 63 ≤ arg) (hwithin : SbrkWithin r₀.process.brkStart limit r.process.brk arg) :
    alignUp r.process.brk pageSize % pageSize = 0 ∧
    r₀.process.brkStart ≤ alignUp r.process.brk pageSize ∧
    alignUp r.process.brk pageSize + sbrkPages r.process arg * pageSize =
      alignUp ((r.process.brk + arg) % 2 ^ 64) pageSize ∧
    alignUp ((r.process.brk + arg) % 2 ^ 64) pageSize ≤ 2 ^ 47 ∧
    ∀ v, v % pageSize = 0 → alignUp r.process.brk pageSize ≤ v →
      v < alignUp ((r.process.brk + arg) % 2 ^ 64) pageSize →
      tableAt r₀.machine.mem r₀.process.pml4 (pathOf v) = none := by
  obtain ⟨hnew, hge, hle⟩ := newBrk_of_within hstart.limit_lt hwithin
  have hlimit := hstart.limit_lt
  have hbrk := hinv.brk_le
  have hfrom := hinv.brk_ge
  have hold := alignUp_of_lt (show r.process.brk < 2 ^ 47 by omega)
  have hround := alignUp_of_lt (show (r.process.brk + arg) % 2 ^ 64 < 2 ^ 47 by omega)
  refine ⟨?_, ?_, ?_, ?_, fun v hv hlo hhi => hstart.tableAt_eq_none hv ?_ ?_⟩
  · rw [hold]
    unfold pageSize
    omega
  · rw [hold]
    omega
  · unfold sbrkPages
    rw [hold, hround]
    unfold pageSize
    omega
  · rw [hround]
    omega
  · rw [hold] at hlo
    omega
  · rw [hround] at hhi
    unfold pageSize at hv
    omega

/-- A request to grow costs the frames it needs. -/
theorem HeapFollowed.takes (debug : Bool) (hinv : HeapFollowed limit r₀ r)
    (hstart : HeapStart limit r₀) (hpos : ¬ 2 ^ 63 ≤ arg)
    (hwithin : SbrkWithin r₀.process.brkStart limit r.process.brk arg) :
    Takes (sbrkFrames r.machine.mem r.process arg) (syscallSbrk debug r.process arg) r.machine := by
  obtain ⟨haligned, hlo, hcount, htop, hfree⟩ := hinv.growth hstart hpos hwithin
  have hempty (k : Nat) (hk : k < sbrkPages r.process arg) :
      tableAt r.machine.mem r.process.pml4
        (pathOf (alignUp r.process.brk pageSize + k * pageSize)) = none := by
    have hlt : alignUp r.process.brk pageSize + k * pageSize < _ := page_lt hk
    have hpage := page_aligned haligned k
    rw [hinv.pml4_eq, hinv.held.other _ hpage (by omega) fun hin => by unfold HeapRange at hin; omega]
    exact hfree _ hpage (Nat.le_add_right _ _) (by omega)
  have howned : Owned UserPath LowerHalf r.machine r.process.pml4 := by
    rw [hinv.pml4_eq]
    exact hinv.held.owned
  have hpages := takes_mapRange debug userPath_tracks (fun _ hi => hi) userData_linkFlags
    haligned (by rw [hcount]; exact htop) howned hempty
  rw [syscallSbrk_of_pos debug r.process hpos]
  unfold sbrkFrames
  rw [if_neg hpos]
  exact hpages.bind_of_le (Nat.le_refl _) fun _ _ _ => ⟨0, Nat.add_zero _, Takes.pure _⟩

/-- A request that is granted returns the old break and moves the end of the heap. -/
theorem HeapFollowed.granted {ret : Nat} {process' : Process} {machine' : Machine}
    (hinv : HeapFollowed limit r₀ r) (hstart : HeapStart limit r₀) (harg : arg < 2 ^ 64)
    (hwithin : SbrkWithin r₀.process.brkStart limit r.process.brk arg)
    (hcall : syscallSbrk debug r.process arg r.machine = .ok ((ret, process'), machine')) :
    ret = r.process.brk ∧ process' = { r.process with brk := (r.process.brk + arg) % 2 ^ 64 } ∧
      HeapFollowed limit r₀ ⟨machine', process'⟩ := by
  by_cases hneg : 2 ^ 63 ≤ arg
  · obtain ⟨m', hshrunk, hafter⟩ := hinv.shrink debug hstart harg hneg hwithin
    rw [hcall] at hshrunk
    obtain ⟨⟨rfl, rfl⟩, rfl⟩ : (ret = _ ∧ process' = _) ∧ machine' = m' := by
      simpa only [Except.ok.injEq, Prod.mk.injEq] using hshrunk
    exact ⟨rfl, rfl, hafter⟩
  · obtain ⟨haligned, hlo, hcount, htop, hfree⟩ := hinv.growth hstart hneg hwithin
    obtain ⟨-, hge, hle⟩ := newBrk_of_within hstart.limit_lt hwithin
    rw [syscallSbrk_of_pos debug r.process hneg] at hcall
    obtain ⟨_, t, hmap, hcall⟩ := bind_ok_iff.mp hcall
    obtain ⟨hpair, rfl⟩ := pure_ok_iff.mp hcall
    obtain ⟨rfl, rfl⟩ := Prod.mk.inj hpair
    rw [hinv.pml4_eq] at hmap
    have hafter := HeapHeld.grow haligned hlo (by rw [hcount]; exact htop)
      (by rw [hcount]; exact hfree) hinv.held hmap
    rw [hcount] at hafter
    exact ⟨rfl, rfl, hinv.withBrk_eq _, hge, hle, hafter⟩

theorem heapFollowed_run (hstart : HeapStart limit r₀)
    (hrun : ReflTransGen (SbrkStep (SbrkWithin r₀.process.brkStart limit) debug) r₀ r) :
    HeapFollowed limit r₀ r := by
  refine run_invariant hrun (heapFollowed_start hstart) fun t t' hinv hstep => ?_
  cases hstep with
  | call harg hwithin hcall => exact (hinv.granted hstart harg hwithin hcall).2.2

end Runs

/-! ## The heap follows the break -/

/-- What a process finds after a run of calls from `r₀`. -/
structure HeapFollows (debug : Bool) (limit : Nat) (r₀ r : SbrkRun) : Prop where
  process : r.process = { r₀.process with brk := r.process.brk }
  /-- the mapped pages of the heap are those up to the break -/
  mapped : ∀ v, v % pageSize = 0 → r₀.process.brkStart ≤ v → v < alignUp limit pageSize →
    ((pageFrame r.machine.mem r.process.pml4 v).isSome ↔ v < alignUp r.process.brk pageSize)
  /-- each has a frame of its own, which was free at the start and is in use now -/
  own : ∀ v f, v % pageSize = 0 →
    HeapRange r₀.process.brkStart (alignUp r.process.brk pageSize) v →
    pageFrame r.machine.mem r.process.pml4 v = some f →
    bitAt r₀.machine.pmm.bitmap (f / pageSize) = false ∧
      bitAt r.machine.pmm.bitmap (f / pageSize) = true ∧
      ∀ q, UserPath q → tableAt r.machine.mem r.process.pml4 q = some f → q = pathOf v
  /-- the other pages of the lower half are as they were -/
  others : ∀ v, v % pageSize = 0 → v < 2 ^ 47 →
    ¬ HeapRange r₀.process.brkStart (alignUp r.process.brk pageSize) v →
    pageFrame r.machine.mem r.process.pml4 v = pageFrame r₀.machine.mem r₀.process.pml4 v
  /-- as many data frames are held as there are pages -/
  held : (dataFrames r₀.machine r.machine r.process.pml4).ncard =
    (alignUp r.process.brk pageSize - r₀.process.brkStart) / pageSize
  returns : ∀ arg ret process' machine', arg < 2 ^ 64 →
    SbrkWithin r₀.process.brkStart limit r.process.brk arg →
    syscallSbrk debug r.process arg r.machine = .ok ((ret, process'), machine') →
    ret = r.process.brk ∧ (process'.brk : Int) = r.process.brk + toInt64 arg
  succeeds : ∀ arg, arg < 2 ^ 64 → SbrkWithin r₀.process.brkStart limit r.process.brk arg →
    sbrkFrames r.machine.mem r.process arg ≤ clearFrames r.machine →
    ∃ process' machine', syscallSbrk debug r.process arg r.machine =
      .ok ((r.process.brk, process'), machine')

/-- Two outcomes are the same for the process: its record, its pages and the number of its frames. -/
structure SameOutcome (r₀ r r' : SbrkRun) : Prop where
  process : r'.process = r.process
  pages : ∀ v, v % pageSize = 0 → v < 2 ^ 47 →
    (pageFrame r'.machine.mem r'.process.pml4 v).isSome =
      (pageFrame r.machine.mem r.process.pml4 v).isSome
  frames : (dataFrames r₀.machine r'.machine r'.process.pml4).ncard =
    (dataFrames r₀.machine r.machine r.process.pml4).ncard

section Outcome

variable {debug : Bool} {limit : Nat} {r₀ r r' : SbrkRun}

variable (hinv : HeapFollowed limit r₀ r)

include hinv

theorem HeapFollowed.pageFrame_eq {v : Nat} (hv : v < 2 ^ 47) :
    pageFrame r.machine.mem r.process.pml4 v =
      tableAt r.machine.mem r₀.process.pml4 (pathOf v) := by
  rw [hinv.pml4_eq]
  exact hinv.held.owned.pageFrame_eq (lowerHalf_of_lt hv)

/-- A page of the lower half is mapped if it is in the heap, or was mapped at the start. -/
theorem HeapFollowed.isSome_iff (hstart : HeapStart limit r₀) {v : Nat}
    (haligned : v % pageSize = 0) (hv : v < 2 ^ 47) :
    (pageFrame r.machine.mem r.process.pml4 v).isSome ↔
      HeapRange r₀.process.brkStart (alignUp r.process.brk pageSize) v ∨
        (pageFrame r₀.machine.mem r₀.process.pml4 v).isSome := by
  rw [hinv.pageFrame_eq hv, hstart.owned.pageFrame_eq (lowerHalf_of_lt hv)]
  by_cases hin : HeapRange r₀.process.brkStart (alignUp r.process.brk pageSize) v
  · obtain ⟨f, hf, -⟩ := hinv.held.page v haligned hv hin
    simp [hf, hin]
  · rw [hinv.held.other v haligned hv hin]
    simp [hin]

theorem HeapFollowed.ncard_dataFrames (hstart : HeapStart limit r₀) :
    (dataFrames r₀.machine r.machine r.process.pml4).ncard =
      (alignUp r.process.brk pageSize - r₀.process.brkStart) / pageSize := by
  have hbrk := hinv.brk_le
  have hge := hinv.brk_ge
  have hlimit := hstart.limit_lt
  have haligned := hstart.aligned
  have hheld := hinv.held
  have hround := alignUp_of_lt (show r.process.brk < 2 ^ 47 by omega)
  have hcount : r₀.process.brkStart +
      (alignUp r.process.brk pageSize - r₀.process.brkStart) / pageSize * pageSize =
        alignUp r.process.brk pageSize := by
    rw [hround]
    unfold pageSize at *
    omega
  rw [← hcount] at hheld
  rw [hinv.pml4_eq]
  exact hheld.ncard_dataFrames hstart.owned haligned (by rw [hcount, hround]; omega)

theorem HeapFollowed.follows (hstart : HeapStart limit r₀) : HeapFollows debug limit r₀ r := by
  have hlimit := hstart.limit_lt
  have hround := alignUp_of_lt hlimit
  have hbrk := hinv.brk_le
  refine ⟨hinv.process_eq, ?_, ?_, ?_, hinv.ncard_dataFrames hstart, ?_, ?_⟩
  · intro v hv hlo hhi
    rw [hround] at hhi
    have hlt : v < limit := by
      unfold pageSize at hv
      omega
    rw [hinv.isSome_iff hstart hv (by omega), hstart.free v hv hlo hlt]
    simp [HeapRange, hlo]
  · intro v f hv hin hf
    have hlow : v < 2 ^ 47 := by
      obtain ⟨-, hhi⟩ := hin
      rw [alignUp_of_lt (by omega)] at hhi
      omega
    have hpath := userPath_tracks.pathOf (lowerHalf_of_lt hlow)
    rw [hinv.pageFrame_eq hlow] at hf
    obtain ⟨g, hg, hclear⟩ := hinv.held.page v hv hlow hin
    obtain rfl : f = g := Option.some.inj (hf.symm.trans hg)
    refine ⟨hclear, hinv.held.owned.tree.used _ f hpath hf, fun q hq ht => ?_⟩
    rw [hinv.pml4_eq] at ht
    exact hinv.held.owned.tree.unique q _ f hq hpath ht hf
  · intro v hv hlow hout
    rw [hinv.pageFrame_eq hlow, hstart.owned.pageFrame_eq (lowerHalf_of_lt hlow)]
    exact hinv.held.other v hv hlow hout
  · intro arg ret process' machine' harg hwithin hcall
    obtain ⟨hret, rfl, -⟩ := hinv.granted hstart harg hwithin hcall
    exact ⟨hret, (newBrk_of_within hlimit hwithin).1⟩
  · intro arg harg hwithin hframes
    by_cases hneg : 2 ^ 63 ≤ arg
    · obtain ⟨m', hcall, -⟩ := hinv.shrink debug hstart harg hneg hwithin
      exact ⟨_, m', hcall⟩
    · obtain ⟨⟨ret, process'⟩, m', hcall⟩ :=
        (hinv.takes debug hstart hneg hwithin).ok_iff.mpr hframes
      obtain ⟨rfl, -, -⟩ := hinv.granted hstart harg hwithin hcall
      exact ⟨process', m', hcall⟩

/-- Only the break counts, not the requests that led to it. -/
theorem HeapFollowed.sameOutcome (hinv' : HeapFollowed limit r₀ r') (hstart : HeapStart limit r₀)
    (hbrk : r'.process.brk = r.process.brk) : SameOutcome r₀ r r' := by
  refine ⟨?_, fun v hv hlow => ?_, ?_⟩
  · rw [hinv.process_eq, hinv'.process_eq, hbrk]
  · rw [Bool.eq_iff_iff, hinv.isSome_iff hstart hv hlow, hinv'.isSome_iff hstart hv hlow, hbrk]
  · rw [hinv.ncard_dataFrames hstart, hinv'.ncard_dataFrames hstart, hbrk]

end Outcome

/-- In every run of requests that keep the break between `brk_start` and a limit below which nothing
else is mapped, the heap's pages are those up to the break. -/
theorem heap_follows_break {debug : Bool} {limit : Nat} {r₀ r : SbrkRun} (hstart : HeapStart limit r₀)
    (hrun : ReflTransGen (SbrkStep (SbrkWithin r₀.process.brkStart limit) debug) r₀ r) :
    HeapFollows debug limit r₀ r ∧
      ∀ r', ReflTransGen (SbrkStep (SbrkWithin r₀.process.brkStart limit) debug) r₀ r' →
        r'.process.brk = r.process.brk → SameOutcome r₀ r r' := by
  have hinv := heapFollowed_run hstart hrun
  exact ⟨hinv.follows hstart, fun r' hrun' hbrk =>
    hinv.sameOutcome (heapFollowed_run hstart hrun') hstart hbrk⟩

/-- A process without pages. -/
theorem bareProcess_heapStart {debug : Bool} {pml4 brk limit : Nat} {m0 m : Machine}
    (hinit : vmmInit debug m0 = .ok (pml4, m)) (haligned : brk % pageSize = 0) (hle : brk ≤ limit)
    (hlimit : limit < 2 ^ 47) : HeapStart limit ⟨m, bareProcess pml4 brk⟩ := by
  have hroot := vmmInit_emptyRoot hinit
  have howned := hroot.owned UserPath LowerHalf
  refine ⟨howned, rfl, haligned, hle, hlimit, fun v _ _ hv => ?_⟩
  show pageFrame m.mem pml4 v = none
  rw [howned.pageFrame_eq (lowerHalf_of_lt (by omega))]
  exact hroot.tableAt_eq_none (by simp [pathOf])

/-- The heap that grows by `0x1800` bytes and shrinks by `0x1000`. -/
theorem heap_follows_break_two_calls : ∃ r₀ r : SbrkRun, HeapStart 0x500000 r₀ ∧
    r.process.brk = 0x400800 ∧ HeapFollows true 0x500000 r₀ r := by
  obtain ⟨pml4, m₀, m, m₁, m₂, p₁, p₂, ret₁, ret₂, hinit, hgrow, hbrk₁, hshrink, hbrk₂⟩ := exists_twoCalls
  have hstart : HeapStart 0x500000 ⟨m, bareProcess pml4 0x400000⟩ :=
    bareProcess_heapStart hinit (by decide) (by decide) (by decide)
  have hstep₁ : SbrkStep (SbrkWithin 0x400000 0x500000) true ⟨m, bareProcess pml4 0x400000⟩ ⟨m₁, p₁⟩ :=
    SbrkStep.call (by decide) (show SbrkWithin 0x400000 0x500000 0x400000 0x1800 by decide) hgrow
  have hstep₂ : SbrkStep (SbrkWithin 0x400000 0x500000) true ⟨m₁, p₁⟩ ⟨m₂, p₂⟩ :=
    SbrkStep.call (by decide) (by rw [hbrk₁]; decide) hshrink
  exact ⟨_, _, hstart, hbrk₂,
    (heap_follows_break hstart ((ReflTransGen.single hstep₁).tail hstep₂)).1⟩

/-! ## Requests that cannot be satisfied -/

/-- `MFAIL`, as the system call would return it. -/
def mfail : Nat := 2 ^ 64 - 1

/-- The request goes below `brk_start`, or there are too few frames for it. -/
def SbrkUnsatisfiable (process : Process) (arg : Nat) (machine : Machine) : Prop :=
  (process.brk : Int) + toInt64 arg < process.brkStart ∨
    clearFrames machine < sbrkFrames machine.mem process arg

/-- The call returns `MFAIL`, and the break, the memory and the page map are as before. -/
def SbrkFailsAtomically (debug : Bool) (process : Process) (arg : Nat) (machine : Machine) : Prop :=
  ∃ process' machine', syscallSbrk debug process arg machine = .ok ((mfail, process'), machine') ∧
    process'.brk = process.brk ∧ machine'.mem = machine.mem ∧ machine'.pmm = machine.pmm

/-- Without the frames it needs, a request within bounds stops the kernel. -/
theorem HeapFollowed.noMemory (debug : Bool) {limit arg : Nat} {r₀ r : SbrkRun}
    (hinv : HeapFollowed limit r₀ r) (hstart : HeapStart limit r₀)
    (hwithin : SbrkWithin r₀.process.brkStart limit r.process.brk arg)
    (hfew : clearFrames r.machine < sbrkFrames r.machine.mem r.process arg) :
    syscallSbrk debug r.process arg r.machine = .error .pmmAllocNoMemory := by
  have hpos : ¬ 2 ^ 63 ≤ arg := by
    intro hneg
    unfold sbrkFrames at hfew
    rw [if_pos hneg] at hfew
    omega
  exact (hinv.takes debug hstart hpos hwithin).error_of_lt hfew

theorem sbrkFrames_zero {mem : ByteMem} {process : Process} (hbrk : process.brk < 2 ^ 64) :
    sbrkFrames mem process 0 = 0 := by
  have hpages : sbrkPages process 0 = 0 := by
    unfold sbrkPages
    rw [Nat.add_zero, Nat.mod_eq_of_lt hbrk, Nat.add_sub_cancel_left, Nat.mod_self]
  unfold sbrkFrames
  rw [if_neg (by decide), hpages]
  simp [framesNeeded, missingTables]

/-- No request that cannot be satisfied fails as it should: `syscall_sbrk` returns zero for one below
`brk_start`, grants it where the sum wraps around, and lets `pmm_alloc` panic. -/
theorem sbrk_never_atomic (debug : Bool) {process : Process} {arg : Nat} {machine : Machine}
    (hbrk : process.brk < 2 ^ 64) (hbegin : process.brkStart < 2 ^ 64) (harg : arg < 2 ^ 64)
    (hcannot : SbrkUnsatisfiable process arg machine) :
    ¬ SbrkFailsAtomically debug process arg machine := by
  rintro ⟨process', machine', hcall, hsame, -⟩
  by_cases hneg : 2 ^ 63 ≤ arg
  · by_cases hlow : (process.brk + arg) % 2 ^ 64 < process.brkStart
    · rw [syscallSbrk_refused debug process machine hneg hlow] at hcall
      have hret : 0 = mfail := by
        injection hcall with hpair
        exact congrArg (fun p => p.1.1) hpair
      exact absurd hret (by decide)
    · rw [syscallSbrk_of_neg debug process hneg (Nat.le_of_not_lt hlow)] at hcall
      obtain ⟨_, t, -, hcall⟩ := bind_ok_iff.mp hcall
      obtain ⟨hpair, -⟩ := pure_ok_iff.mp hcall
      obtain ⟨-, rfl⟩ := Prod.mk.inj hpair
      -- the break has moved
      simp only at hsame
      omega
  · rw [syscallSbrk_of_pos debug process hneg] at hcall
    obtain ⟨_, t, -, hcall⟩ := bind_ok_iff.mp hcall
    obtain ⟨hpair, -⟩ := pure_ok_iff.mp hcall
    obtain ⟨hret, rfl⟩ := Prod.mk.inj hpair
    simp only at hsame
    obtain rfl : arg = 0 := by omega
    unfold mfail at hret
    rcases hcannot with hbelow | hfew
    · unfold toInt64 at hbelow
      rw [if_neg (by decide)] at hbelow
      omega
    · rw [sbrkFrames_zero hbrk] at hfew
      omega

/-- A machine of eight frames has one root table and seven free frames at most. -/
theorem clearFrames_of_init {pml4 : Nat} {m : Machine}
    (hinit : vmmInit true (Machine.allFree 1) = .ok (pml4, m)) : clearFrames m ≤ 8 := by
  obtain ⟨idx, -, -, rfl⟩ := vmmInit_ok_inv hinit
  exact clearCount_le _ _

theorem exists_init : ∃ pml4 m, vmmInit true (Machine.allFree 1) = .ok (pml4, m) := by
  cases hinit : vmmInit true (Machine.allFree 1) with
  | error panic =>
    have hok : (vmmInit true (Machine.allFree 1)).isOk = true := by decide +kernel
    rw [hinit] at hok
    cases hok
  | ok result => exact ⟨result.1, result.2, rfl⟩

/-- 256 pages cannot be had on a machine of eight frames. -/
theorem unsatisfiable_of_init {pml4 : Nat} {m : Machine}
    (hinit : vmmInit true (Machine.allFree 1) = .ok (pml4, m)) :
    clearFrames m < sbrkFrames m.mem (bareProcess pml4 0x400000) 0x100000 := by
  have hfew := clearFrames_of_init hinit
  have hpages : sbrkPages (bareProcess pml4 0x400000) 0x100000 = 256 := by
    show (alignUp ((0x400000 + 0x100000) % 2 ^ 64) pageSize / pageSize + 2 ^ 64 -
      alignUp 0x400000 pageSize / pageSize) % 2 ^ 64 = 256
    decide
  unfold sbrkFrames
  rw [if_neg (by decide), hpages]
  unfold framesNeeded
  omega

theorem sbrk_never_atomic_below : ∃ pml4 m,
    SbrkUnsatisfiable (bareProcess pml4 0x400000) (2 ^ 64 - 0x1000) m ∧
      ¬ SbrkFailsAtomically true (bareProcess pml4 0x400000) (2 ^ 64 - 0x1000) m := by
  obtain ⟨pml4, m, -⟩ := exists_init
  have hcannot : SbrkUnsatisfiable (bareProcess pml4 0x400000) (2 ^ 64 - 0x1000) m :=
    Or.inl (show (0x400000 : Int) + toInt64 (2 ^ 64 - 0x1000) < 0x400000 by decide)
  exact ⟨pml4, m, hcannot, sbrk_never_atomic true (show 0x400000 < 2 ^ 64 by decide)
    (show 0x400000 < 2 ^ 64 by decide) (by decide) hcannot⟩

/-- A fresh process on a machine of eight frames: asking for 1 MiB stops the kernel, and asking for
`-0x1000` returns zero, the failure value of no allocator. -/
theorem sbrk_not_atomic : ∃ pml4 m,
    vmmInit true (Machine.allFree 1) = .ok (pml4, m) ∧
    SbrkUnsatisfiable (bareProcess pml4 0x400000) 0x100000 m ∧
    syscallSbrk true (bareProcess pml4 0x400000) 0x100000 m = .error .pmmAllocNoMemory ∧
    SbrkUnsatisfiable (bareProcess pml4 0x400000) (2 ^ 64 - 0x1000) m ∧
    syscallSbrk true (bareProcess pml4 0x400000) (2 ^ 64 - 0x1000) m =
      .ok ((0, bareProcess pml4 0x400000), m) := by
  obtain ⟨pml4, m, hinit⟩ := exists_init
  have hfew := unsatisfiable_of_init hinit
  have hstart : HeapStart 0x600000 ⟨m, bareProcess pml4 0x400000⟩ :=
    bareProcess_heapStart hinit (by decide) (by decide) (by decide)
  refine ⟨pml4, m, hinit, Or.inr hfew, ?_,
    Or.inl (show (0x400000 : Int) + toInt64 (2 ^ 64 - 0x1000) < 0x400000 by decide), ?_⟩
  · exact (heapFollowed_start hstart).noMemory true hstart
      (show SbrkWithin 0x400000 0x600000 0x400000 0x100000 by decide) hfew
  · exact syscallSbrk_refused true (bareProcess pml4 0x400000) m (by decide)
      (show (0x400000 + (2 ^ 64 - 0x1000)) % 2 ^ 64 < 0x400000 by decide)

end Pristine.Kernel
