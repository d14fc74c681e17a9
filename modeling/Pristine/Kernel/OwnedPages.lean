import Pristine.Kernel.AddressSpace

/-!
# Address spaces that own their pages

For the memory of a process the tree of tables is followed one level further:
below a set `H` of root indices the page frames themselves are leaves of the
tree.  Every frame a process maps there was taken from the page allocator for
that purpose, so tables and pages together have unique paths.

Two operations change such an address space: a page is taken and mapped
(`mapFreshPage_effect`), or a mapped page is given back (`vmmFree_effect`).
-/

namespace Pristine.Kernel

open Lib

/-- The path starts with an index of `H`. -/
def Under (H : Fin 512 → Prop) (q : List (Fin 512)) : Prop :=
  ∃ i rest, q = i :: rest ∧ H i

/-- The domain `P` follows the indices of `H` down to the pages. -/
structure Tracks (P : List (Fin 512) → Prop) (H : Fin 512 → Prop) : Prop where
  closed : PrefixClosed P
  short : ∀ q, P q → q.length ≤ 4
  below : ∀ i rest, H i → (P (i :: rest) ↔ rest.length ≤ 3)

/-- Tables and pages form a tree, and below `H` every entry is empty or points to
a table or page. -/
structure Owned (P : List (Fin 512) → Prop) (H : Fin 512 → Prop) (s : Machine) (root : Nat) :
    Prop where
  tree : PageTree P s root
  links : ∀ q j, Under H (q ++ [j]) → q.length ≤ 3 →
    entryAt s.mem root q j = 0 ∨ ∃ f, TableLink (entryAt s.mem root q j) f

theorem EmptyRoot.owned {s : Machine} {root : Nat} (hroot : EmptyRoot s root)
    (P : List (Fin 512) → Prop) (H : Fin 512 → Prop) : Owned P H s root :=
  ⟨hroot.tree P, fun q j _ _ => Or.inl (hroot.entryAt_eq_zero q j)⟩

section Domain

variable {P : List (Fin 512) → Prop} {H : Fin 512 → Prop} {virt : Nat}

theorem under_pathOf {q : List (Fin 512)} (hH : H (pml4Idx virt)) (hne : q ≠ [])
    (hpre : q <+: pathOf virt) : Under H q := by
  cases q with
  | nil => exact absurd rfl hne
  | cons i rest =>
    have hi : i = pml4Idx virt := (List.cons_prefix_cons.mp hpre).1
    exact ⟨i, rest, rfl, by rw [hi]; exact hH⟩

theorem Tracks.pathOf (htracks : Tracks P H) (hH : H (pml4Idx virt)) : P (pathOf virt) :=
  (htracks.below _ _ hH).mpr (by simp)

theorem Tracks.pathToPt (htracks : Tracks P H) (hH : H (pml4Idx virt)) : P (pathToPt virt) :=
  (htracks.below _ _ hH).mpr (by simp)

theorem Tracks.rim (htracks : Tracks P H) (hH : H (pml4Idx virt)) (j : Fin 512) :
    ¬ P (Kernel.pathToPt virt ++ [ptIdx virt] ++ [j]) := by
  intro hP
  have hlen := (htracks.below _ _ hH).mp hP
  simp at hlen

theorem Tracks.of_under (htracks : Tracks P H) {q : List (Fin 512)} (hunder : Under H q)
    (hlen : q.length ≤ 4) : P q := by
  obtain ⟨i, rest, rfl, hi⟩ := hunder
  refine (htracks.below i rest hi).mpr ?_
  rw [List.length_cons] at hlen
  omega

end Domain

/-! ## Taking and mapping a page -/

/-- `pmm_alloc` followed by `vmm_map` of the new frame. -/
def mapFreshPage (debug : Bool) (pml4 virt flags : Nat) : KernelM Nat := do
  let phys ← allocPage debug
  vmmMap debug pml4 phys virt flags
  return phys

/-- What taking and mapping a page does. -/
structure FreshPage (P : List (Fin 512) → Prop) (H : Fin 512 → Prop) (root virt frame : Nat)
    (s s' : Machine) : Prop where
  owned : Owned P H s' root
  page : tableAt s'.mem root (pathOf virt) = some frame
  keep : ∀ q t, P q → q ≠ pathOf virt → tableAt s.mem root q = some t →
    tableAt s'.mem root q = some t
  fresh : ∀ q t, P q → tableAt s'.mem root q = some t →
    tableAt s.mem root q = some t ∨ bitAt s.pmm.bitmap (t / pageSize) = false
  entries : ∀ q j, P q → q ≠ pathOf virt → ¬ q ++ [j] <+: pathOf virt →
    entryAt s'.mem root q j = entryAt s.mem root q j
  bits : ∀ i, bitAt s.pmm.bitmap i = true → bitAt s'.pmm.bitmap i = true
  balanced : entryAt s.mem root (pathToPt virt) (ptIdx virt) = 0 →
    ∀ B, Balanced P B s root → Balanced P B s' root
  memory : ∀ a, bitAt s.pmm.bitmap (a / pageSize) = true →
    (∀ q t, P q → tableAt s.mem root q = some t → a / pageSize ≠ t / pageSize) →
    s'.mem a = s.mem a
  logged : ∃ l, s'.log = l ++ s.log ∧ ∀ acc ∈ l, OnPath root (pathOf virt) s'.mem acc

section MapFresh

variable {P : List (Fin 512) → Prop} {H : Fin 512 → Prop} {debug : Bool}
variable {root virt flags frame : Nat} {s s' : Machine}

/-- Marking one more frame as used keeps a tree. -/
theorem PageTree.alloc (htree : PageTree P s root) (idx : Nat) :
    PageTree P { s with pmm := { s.pmm with bitmap := bitmapSet s.pmm.bitmap idx } } root := by
  refine ⟨htree.unique, htree.aligned, htree.small, ?_⟩
  intro q t hq ht
  rw [bitAt_bitmapSet, htree.used q t hq ht, Bool.or_true]

/-- The entries on the way to a page below `H`. -/
theorem Owned.links_path (howned : Owned P H s root) (hH : H (pml4Idx virt)) (q : List (Fin 512))
    (j : Fin 512) (hpre : q ++ [j] <+: pathOf virt) :
    entryAt s.mem root q j = 0 ∨ ∃ f, TableLink (entryAt s.mem root q j) f := by
  have hlen := hpre.length_le
  rw [List.length_append] at hlen
  exact howned.links q j (under_pathOf hH (by simp) hpre) (by simp [Kernel.pathOf] at hlen; omega)

/-- The hardware's walk finds the page that the tree has. -/
theorem Owned.walk_cases (howned : Owned P H s root) (hH : H (pml4Idx virt)) :
    walk s.mem root virt = none ∧ tableAt s.mem root (pathOf virt) = none ∨
      ∃ entry f, TableLink entry f ∧ walk s.mem root virt = some (.page4k entry) ∧
        tableAt s.mem root (pathOf virt) = some f := by
  rw [walk_eq_leaf fun q j hpre =>
    howned.links_path hH q j (hpre.trans (List.prefix_append _ [ptIdx virt])), pathOf_eq, tableAt_snoc]
  rcases howned.links_path hH (pathToPt virt) (ptIdx virt) (List.prefix_refl _) with
    hzero | ⟨f, hlink⟩
  · simp [hzero]
  · exact Or.inr ⟨_, f, hlink, if_neg hlink.present, hlink.child⟩

theorem Owned.noLargeOnPath (howned : Owned P H s root) (hH : H (pml4Idx virt)) :
    NoLargeOnPath s.mem root virt := by
  intro q j hpre
  rcases howned.links_path hH q j (hpre.trans (List.prefix_append _ [ptIdx virt])) with
    hzero | ⟨f, hlink⟩
  · rw [hzero]
    exact Nat.zero_and _
  · exact hlink.not_page

theorem ne_pathOf_of_length {q : List (Fin 512)} (hlen : q.length ≤ 3) : q ≠ pathOf virt := by
  rintro rfl
  simp [Kernel.pathOf] at hlen

/-- The entry of a page is cleared, or led to a new frame. -/
theorem Owned.store {pt value : Nat} (htracks : Tracks P H) (howned : Owned P H s root)
    (hH : H (pml4Idx virt)) (htable : tableAt s.mem root (pathToPt virt) = some pt)
    (hvalue : value = 0 ∨ ∃ f, TableLink value f)
    (hfresh : ∀ f, childTable value = some f → FreshFrame P s root f)
    (hmem : s'.mem = storeLE s.mem (pt + 8 * ptIdx virt) 8 value) (hpmm : s'.pmm = s.pmm) :
    Owned P H s' root ∧ tableAt s'.mem root (pathOf virt) = childTable value ∧
      (∀ q, P q → q ≠ pathOf virt → tableAt s'.mem root q = tableAt s.mem root q) ∧
      (∀ q j, P q → q ≠ pathOf virt → ¬ q ++ [j] <+: pathOf virt →
        entryAt s'.mem root q j = entryAt s.mem root q j) ∧
      ∀ a, a / pageSize ≠ pt / pageSize → s'.mem a = s.mem a := by
  have hPpt := htracks.pathToPt hH
  have hlt : value < 2 ^ 64 := by
    rcases hvalue with rfl | ⟨f, hlink⟩
    · decide
    · exact hlink.lt
  obtain ⟨htree', hall, hentries⟩ := storeInside htracks.closed howned.tree hPpt (htracks.rim hH)
    htable hlt hfresh hmem hpmm
  refine ⟨⟨htree', fun q j hunder hlen => ?_⟩, (hall _ (htracks.pathOf hH)).trans (if_pos rfl),
    fun q hq hne => (hall q hq).trans (if_neg hne), fun q j hq hne hoff => ?_, fun a ha => ?_⟩
  · have hq : P q := htracks.closed q j (htracks.of_under hunder (by simp; omega))
    rw [hentries q j hq (ne_pathOf_of_length hlen)]
    split
    · exact hvalue
    · exact howned.links q j hunder hlen
  · rw [hentries q j hq hne, if_neg]
    rintro ⟨rfl, rfl⟩
    exact hoff (List.prefix_refl _)
  · have haligned := howned.tree.aligned _ pt hPpt htable
    rw [hmem, storeLE_of_outside]
    unfold pageSize at *
    omega

/-- The frames of two trees that differ by one page. -/
theorem frames_iff {p : List (Fin 512)} {k : Nat} (hp : P p) (hnone : tableAt s.mem root p = none)
    (hpage : tableAt s'.mem root p = some (k * pageSize))
    (hother : ∀ q, P q → q ≠ p → tableAt s'.mem root q = tableAt s.mem root q) (i : Nat) :
    (∃ q, P q ∧ tableAt s'.mem root q = some (i * pageSize)) ↔
      i = k ∨ ∃ q, P q ∧ tableAt s.mem root q = some (i * pageSize) := by
  constructor
  · rintro ⟨q, hq, ht⟩
    by_cases hne : q = p
    · rw [hne, hpage] at ht
      exact Or.inl (Nat.eq_of_mul_eq_mul_right (by decide) (Option.some.inj ht)).symm
    · exact Or.inr ⟨q, hq, hother q hq hne ▸ ht⟩
  · rintro (rfl | ⟨q, hq, ht⟩)
    · exact ⟨p, hp, hpage⟩
    · refine ⟨q, hq, (hother q hq ?_).trans ht⟩
      rintro rfl
      rw [hnone] at ht
      cases ht

theorem mapFreshPage_effect (htracks : Tracks P H) (howned : Owned P H s root)
    (hH : H (pml4Idx virt)) (hflags : LinkFlags flags)
    (hcall : mapFreshPage debug root virt flags s = .ok (frame, s')) :
    FreshPage P H root virt frame s s' := by
  obtain ⟨phys, s1, halloc, hcall⟩ := bind_ok_iff.mp hcall
  obtain ⟨idx, hfirst, rfl, rfl⟩ := allocPage_ok_iff.mp halloc
  obtain ⟨_, s2, hmap, hcall⟩ := bind_ok_iff.mp hcall
  obtain ⟨rfl, rfl⟩ := pure_ok_iff.mp hcall
  have hdiv : idx * pageSize / pageSize = idx := Nat.mul_div_cancel idx (by decide)
  have halign : idx * pageSize % pageSize = 0 := Nat.mul_mod_left idx pageSize
  have hidx : idx < 2 ^ 32 := Nat.lt_trans hfirst.lt s.pmm.bitCount_lt
  have hwidth : idx * pageSize < 2 ^ 52 := by
    unfold pageSize
    omega
  have hlink := tableLink_or halign hwidth hflags
  have hPpt := htracks.pathToPt hH
  have hPpath := htracks.pathOf hH
  obtain ⟨s1, pt, hdone⟩ := vmmMap_ok_inv htracks.closed (howned.tree.alloc idx) hPpt
    (howned.noLargeOnPath hH) hmap
  have hgrew := hdone.grew
  have hmarked : bitAt (bitmapSet s.pmm.bitmap idx) idx = true := by simp
  have hfresh : FreshFrame P s1 root (idx * pageSize) := by
    refine ⟨halign, by rw [hdiv]; exact hidx, ?_, ?_⟩
    · rw [hdiv]
      exact hgrew.bits idx hmarked
    · -- old tables were used before, new ones were clear after the frame was taken
      intro q hq ht
      rcases hgrew.fresh q _ hq ht with hold | hnew
      · have hused := howned.tree.used q _ hq hold
        rw [hdiv, hfirst.clear] at hused
        cases hused
      · rw [hdiv] at hnew
        exact Bool.false_ne_true (hnew.symm.trans hmarked)
  have howned1 : Owned P H s1 root := by
    refine ⟨hgrew.tree, fun q j hunder hlen => ?_⟩
    have hq : P q := htracks.closed q j (htracks.of_under hunder (by simp; omega))
    rcases hgrew.entries q j hq with hsame | ⟨-, -, hnew⟩
    · rw [hsame]
      exact howned.links q j hunder hlen
    · exact Or.inr hnew
  obtain ⟨howned', hpage, hother, hentries, haround⟩ := howned1.store htracks hH hdone.table
    (Or.inr ⟨_, hlink⟩) (fun f hf => by cases hlink.child.symm.trans hf; exact hfresh) hdone.mem
    hdone.pmm
  rw [hlink.child] at hpage
  refine ⟨howned', hpage, ?_, ?_, ?_, ?_, ?_, ?_, ?_⟩
  · intro q t hq hne ht
    rw [hother q hq hne]
    exact hgrew.keep q t hq ht
  · intro q t hq ht
    by_cases hne : q = pathOf virt
    · subst hne
      rw [hpage] at ht
      cases ht
      rw [hdiv]
      exact Or.inr hfirst.clear
    · rw [hother q hq hne] at ht
      rcases hgrew.fresh q t hq ht with hold | hnew
      · exact Or.inl hold
      · right
        rw [bitAt_bitmapSet, Bool.or_eq_false_iff] at hnew
        exact hnew.2
  · intro q j hq hne hoff
    rw [hentries q j hq hne hoff]
    rcases hgrew.entries q j hq with hsame | ⟨-, hpre, -⟩
    · exact hsame
    · exact absurd (hpre.trans (List.prefix_append _ [ptIdx virt])) hoff
  · intro i hi
    rw [hdone.pmm]
    apply hgrew.bits
    rw [bitAt_bitmapSet, hi, Bool.or_true]
  · intro hempty B hbal i
    -- between the two calls the new frame belongs to the background
    have hbal1 : Balanced P (fun k => B k ∨ k = idx)
        { s with pmm := { s.pmm with bitmap := bitmapSet s.pmm.bitmap idx } } root := by
      intro k
      rw [bitAt_bitmapSet, Bool.or_eq_true, decide_eq_true_eq, hbal k, or_assoc, or_left_comm,
        eq_comm]
    have hnone : tableAt s1.mem root (pathOf virt) = none := by
      rw [pathOf_eq, tableAt_snoc]
      rcases hgrew.entries _ (ptIdx virt) hPpt with hsame | ⟨-, hpre, -⟩
      · rw [hsame]
        exact congrArg childTable hempty
      · have hlen := hpre.length_le
        simp at hlen
    rw [hdone.pmm, hgrew.balanced _ hbal1 i, or_assoc, frames_iff hPpath hnone hpage hother]
  · intro a hused haway
    have hused1 : bitAt (bitmapSet s.pmm.bitmap idx) (a / pageSize) = true := by
      rw [bitAt_bitmapSet, hused, Bool.or_true]
    have hpt : a / pageSize ≠ pt / pageSize := by
      rcases hgrew.fresh _ pt hPpt hdone.table with hold | hnew
      · exact haway _ pt hPpt hold
      · intro hsame
        rw [← hsame] at hnew
        exact Bool.false_ne_true (hnew.symm.trans hused1)
    rw [haround a hpt, hgrew.memory a hused1 haway]
  · apply hdone.logged
    intro q t hpre ht
    rw [hother q (htracks.closed.mono hpre hPpt) (ne_pathOf_of_length hpre.length_le), ht]

end MapFresh

/-! ## Giving a page back -/

/-- What giving a page back does. -/
structure FreedPage (P : List (Fin 512) → Prop) (H : Fin 512 → Prop) (root virt frame : Nat)
    (s s' : Machine) : Prop where
  owned : Owned P H s' root
  page : tableAt s'.mem root (pathOf virt) = none
  other : ∀ q, P q → q ≠ pathOf virt → tableAt s'.mem root q = tableAt s.mem root q
  entries : ∀ q j, P q → q ≠ pathOf virt → ¬ q ++ [j] <+: pathOf virt →
    entryAt s'.mem root q j = entryAt s.mem root q j
  bits : ∀ i, bitAt s'.pmm.bitmap i = (!decide (frame / pageSize = i) && bitAt s.pmm.bitmap i)
  balanced : ∀ B, ¬ B (frame / pageSize) → Balanced P B s root → Balanced P B s' root
  memory : ∀ a, (∀ q t, P q → tableAt s.mem root q = some t → a / pageSize ≠ t / pageSize) →
    s'.mem a = s.mem a
  logged : ∃ l, s'.log = l ++ s.log ∧
    ∀ acc ∈ l, acc = .free frame ∨ OnPath root (pathOf virt) s'.mem acc

section Free

variable {P : List (Fin 512) → Prop} {H : Fin 512 → Prop} {root virt frame : Nat}
variable {s : Machine}

/-- Giving back a frame that is not in the tree keeps the tree. -/
theorem PageTree.free (htree : PageTree P s root) {idx : Nat}
    (hout : ∀ q, P q → tableAt s.mem root q ≠ some (idx * pageSize)) (log : List Access) :
    PageTree P { pmm := { s.pmm with bitmap := bitmapClear s.pmm.bitmap idx }
                 mem := s.mem
                 log := log } root := by
  refine ⟨htree.unique, htree.aligned, htree.small, ?_⟩
  intro q t hq ht
  have haligned := htree.aligned q t hq ht
  have hne : idx ≠ t / pageSize := by
    intro heq
    apply hout q hq
    have ht' : t = idx * pageSize := by
      unfold pageSize at *
      omega
    rw [← ht']
    exact ht
  rw [bitAt_bitmapClear, htree.used q t hq ht]
  simp [hne]

theorem vmmFree_effect (debug : Bool) (htracks : Tracks P H) (howned : Owned P H s root)
    (hH : H (pml4Idx virt)) (hmapped : tableAt s.mem root (pathOf virt) = some frame) :
    ∃ s', vmmFree debug root virt s = .ok ((), s') ∧ FreedPage P H root virt frame s s' := by
  have hPpt := htracks.pathToPt hH
  have hPpath := htracks.pathOf hH
  obtain ⟨pt, htable, hne, -, haddr⟩ := tableAt_snoc_eq_some (p := pathToPt virt) hmapped
  have hsmall := howned.tree.small _ _ hPpath hmapped
  have haligned := howned.tree.aligned _ _ hPpath hmapped
  have hframe := frame_eq_of_aligned haligned
  have hlinks := howned.links_path hH
  have hpresent : tableEntry s.mem pt (ptIdx virt) &&& vmmFlagsPresent ≠ 0 := by
    rw [← entryAt_of_tableAt htable] at hne ⊢
    rcases hlinks (pathToPt virt) (ptIdx virt) (List.prefix_refl _) with hzero | ⟨f, hlink⟩
    · exact absurd hzero hne
    · exact hlink.present
  have hfree : pmmFree debug s.pmm (tableEntry s.mem pt (ptIdx virt) &&& pteAddrMask) =
      .ok { s.pmm with bitmap := bitmapClear s.pmm.bitmap (frame / pageSize) } := by
    rw [haddr, ← pmmFree_of_set debug s.pmm hsmall (howned.tree.used _ _ hPpath hmapped), hframe]
  obtain ⟨l, hcall, hon⟩ := vmmFree_of_mapped debug
    (fun q t hpre ht => howned.tree.small q t (htracks.closed.mono hpre hPpt) ht)
    htable (fun q j hpre => hlinks q j (hpre.trans (List.prefix_append _ _))) hpresent hfree
  rw [haddr] at hcall
  refine ⟨_, hcall, ?_⟩
  -- first the entry is cleared, then the frame is outside the tree
  let s1 : Machine := { s with mem := storeLE s.mem (pt + 8 * ptIdx virt) 8 0 }
  obtain ⟨howned1, hpage, hother, hentries, haround⟩ :=
    howned.store htracks hH htable (Or.inl rfl) (fun _ hf => nomatch hf) (show s1.mem = _ from rfl) rfl
  rw [childTable_zero] at hpage
  have hout : ∀ q, P q → tableAt s1.mem root q ≠ some (frame / pageSize * pageSize) := by
    intro q hq ht
    rw [hframe] at ht
    by_cases hq' : q = pathOf virt
    · rw [hq', hpage] at ht
      cases ht
    · rw [hother q hq hq'] at ht
      exact hq' (howned.tree.unique q _ frame hq hPpath ht hmapped)
  refine ⟨⟨howned1.tree.free hout _, howned1.links⟩, hpage, hother, hentries,
    bitAt_bitmapClear s.pmm.bitmap (frame / pageSize), ?_,
    fun a haway => haround a (haway _ pt hPpt htable), ?_⟩
  · intro B hB hbal i
    show bitAt (bitmapClear s.pmm.bitmap (frame / pageSize)) i = true ↔
      B i ∨ ∃ q, P q ∧ tableAt s1.mem root q = some (i * pageSize)
    rw [bitAt_bitmapClear, Bool.and_eq_true, Bool.not_eq_true', decide_eq_false_iff_not, hbal i,
      frames_iff hPpath hpage (hframe.symm ▸ hmapped) fun q hq hne => (hother q hq hne).symm]
    constructor
    · rintro ⟨hi, hin | rfl | hin⟩
      · exact Or.inl hin
      · exact absurd rfl hi
      · exact Or.inr hin
    · rintro (hin | ⟨q, hq, ht⟩)
      · refine ⟨?_, Or.inl hin⟩
        rintro rfl
        exact hB hin
      · refine ⟨?_, Or.inr (Or.inr ⟨q, hq, ht⟩)⟩
        rintro rfl
        exact hout q hq ht
  · refine ⟨.write (pt + 8 * ptIdx virt) :: .free frame :: l, rfl, ?_⟩
    have hkeep : ∀ q t, q <+: pathToPt virt → tableAt s.mem root q = some t →
        tableAt s1.mem root q = some t := by
      intro q t hpre ht
      rw [hother q (htracks.closed.mono hpre hPpt) (ne_pathOf_of_length hpre.length_le), ht]
    rw [List.forall_mem_cons, List.forall_mem_cons]
    refine ⟨Or.inr ?_, Or.inl rfl, fun acc hacc => Or.inr (hon _ hkeep acc hacc)⟩
    exact ⟨pathToPt virt, _, _, List.prefix_refl _, hkeep _ _ (List.prefix_refl _) htable, rfl⟩

end Free

/-! ## Staying below `H` -/

/-- The access concerns neither a root entry outside `H` nor a table behind one. -/
def Avoids (P : List (Fin 512) → Prop) (H : Fin 512 → Prop) (root : Nat) (mem : ByteMem) :
    Access → Prop
  | .read addr | .write addr =>
    (∀ q t, P q → q ≠ [] → ¬ Under H q → tableAt mem root q = some t →
      addr / pageSize ≠ t / pageSize) ∧
    ∀ j : Fin 512, ¬ H j → addr ≠ root + 8 * j
  | .zero frame | .free frame =>
    ∀ q t, P q → ¬ Under H q → tableAt mem root q = some t → frame ≠ t

/-- Between two states everything outside `H` was left alone. -/
structure StaysUnder (P : List (Fin 512) → Prop) (H : Fin 512 → Prop) (root : Nat)
    (s s' : Machine) : Prop where
  owned : Owned P H s' root
  outside : ∀ q j, P q → q.length ≤ 3 → ¬ Under H (q ++ [j]) →
    entryAt s'.mem root q j = entryAt s.mem root q j
  logged : ∃ l, s'.log = l ++ s.log ∧ ∀ acc ∈ l, Avoids P H root s'.mem acc

section Stays

variable {P : List (Fin 512) → Prop} {H : Fin 512 → Prop} {root virt frame : Nat}
variable {s0 s s' : Machine}

theorem not_prefix_of_not_under {q : List (Fin 512)} {j : Fin 512} (hH : H (pml4Idx virt))
    (hout : ¬ Under H (q ++ [j])) : ¬ q ++ [j] <+: pathOf virt := by
  intro hpre
  exact hout (under_pathOf hH (by simp) hpre)

theorem OnPath.avoids {mem : ByteMem} {acc : Access} (htracks : Tracks P H)
    (htree : PageTree P s root) (hmem : s.mem = mem) (hH : H (pml4Idx virt))
    (hon : OnPath root (pathOf virt) mem acc) : Avoids P H root mem acc := by
  subst hmem
  have hPpath := htracks.pathOf hH
  -- an entry on the path: its table is the root or lies below `H`
  have hentry : ∀ (q : List (Fin 512)) (j : Fin 512) (t : Nat), q ++ [j] <+: pathOf virt →
      tableAt s.mem root q = some t →
      (∀ q' t', P q' → q' ≠ [] → ¬ Under H q' → tableAt s.mem root q' = some t' →
        (t + 8 * j) / pageSize ≠ t' / pageSize) ∧
      ∀ j' : Fin 512, ¬ H j' → t + 8 * (j : Nat) ≠ root + 8 * j' := by
    intro q j t hpre ht
    have hqpre : q <+: pathOf virt := (List.prefix_append q [j]).trans hpre
    have hq : P q := htracks.closed.mono hqpre hPpath
    have haligned := htree.aligned q t hq ht
    constructor
    · intro q' t' hq' hne hout ht' hsame
      have hdiv : (t + 8 * (j : Nat)) / pageSize = t / pageSize := by
        unfold pageSize at *
        omega
      obtain rfl := htree.path_eq hq hq' ht ht' (hdiv.symm.trans hsame)
      exact hout (under_pathOf hH hne hqpre)
    · intro j' hj' heq
      have hroot : P [] := htracks.closed.mono (by simp) hPpath
      have haligned' := htree.aligned [] root hroot (tableAt_nil _ _)
      have htr : t = root ∧ (j : Nat) = j' := by
        unfold pageSize at *
        omega
      obtain ⟨rfl, hjj⟩ := htr
      have hnil := htree.unique q [] t hq hroot ht (tableAt_nil _ _)
      subst hnil
      have hfirst : j = pml4Idx virt := (List.cons_prefix_cons.mp hpre).1
      rw [← Fin.ext hjj, hfirst] at hj'
      exact hj' hH
  cases acc with
  | read addr =>
    obtain ⟨q, j, t, hpre, ht, rfl⟩ := hon
    exact hentry q j t hpre ht
  | write addr =>
    obtain ⟨q, j, t, hpre, ht, rfl⟩ := hon
    exact hentry q j t hpre ht
  | zero f =>
    obtain ⟨q, hne, hpre, ht⟩ := hon
    rintro q' t' hq' hout ht' rfl
    have hqq := htree.unique q q' f (htracks.closed.mono hpre hPpath) hq' ht ht'
    subst hqq
    exact hout (under_pathOf hH hne hpre)
  | free f => exact hon.elim

/-- Tables outside `H` are found by entries outside `H`. -/
theorem tableAt_outside (htracks : Tracks P H)
    (hsame : ∀ q j, P q → q.length ≤ 3 → ¬ Under H (q ++ [j]) →
      entryAt s'.mem root q j = entryAt s.mem root q j)
    {q : List (Fin 512)} (hq : P q) (hout : ¬ Under H q) :
    tableAt s'.mem root q = tableAt s.mem root q := by
  have hlen := htracks.short q hq
  cases q using List.reverseRecOn with
  | nil => rfl
  | append_singleton q j =>
    rw [List.length_append, List.length_singleton] at hlen
    rw [tableAt_snoc, tableAt_snoc, hsame q j (htracks.closed q j hq) (by omega) hout]

theorem Avoids.keep {mem mem' : ByteMem} {acc : Access}
    (hsame : ∀ q, P q → ¬ Under H q → tableAt mem' root q = tableAt mem root q)
    (havoids : Avoids P H root mem acc) : Avoids P H root mem' acc := by
  cases acc with
  | read addr =>
    refine ⟨fun q t hq hne hout ht => havoids.1 q t hq hne hout ?_, havoids.2⟩
    rw [← hsame q hq hout, ht]
  | write addr =>
    refine ⟨fun q t hq hne hout ht => havoids.1 q t hq hne hout ?_, havoids.2⟩
    rw [← hsame q hq hout, ht]
  | zero f =>
    intro q t hq hout ht
    apply havoids q t hq hout
    rw [← hsame q hq hout, ht]
  | free f =>
    intro q t hq hout ht
    apply havoids q t hq hout
    rw [← hsame q hq hout, ht]

theorem StaysUnder.refl (howned : Owned P H s root) : StaysUnder P H root s s :=
  ⟨howned, fun _ _ _ _ _ => rfl, [], rfl, by simp⟩

variable (htracks : Tracks P H) (hstays : StaysUnder P H root s0 s)

include htracks hstays

/-- One more change below `H` extends a run of such changes. -/
theorem StaysUnder.extend (howned : Owned P H s' root)
    (hsame : ∀ q j, P q → q.length ≤ 3 → ¬ Under H (q ++ [j]) →
      entryAt s'.mem root q j = entryAt s.mem root q j)
    (hlog : ∃ l, s'.log = l ++ s.log ∧ ∀ acc ∈ l, Avoids P H root s'.mem acc) :
    StaysUnder P H root s0 s' := by
  refine ⟨howned, ?_, ?_⟩
  · intro q j hq hlen hout
    rw [hsame q j hq hlen hout, hstays.outside q j hq hlen hout]
  · obtain ⟨l1, hlog1, havoid1⟩ := hstays.logged
    obtain ⟨l2, hlog2, havoid2⟩ := hlog
    refine ⟨l2 ++ l1, by rw [hlog2, hlog1, List.append_assoc], ?_⟩
    intro acc hacc
    rcases List.mem_append.mp hacc with hin | hin
    · exact havoid2 acc hin
    · exact (havoid1 acc hin).keep fun q hq hout => tableAt_outside htracks hsame hq hout

theorem StaysUnder.fresh (hH : H (pml4Idx virt)) (hfresh : FreshPage P H root virt frame s s') :
    StaysUnder P H root s0 s' := by
  refine hstays.extend htracks hfresh.owned ?_ ?_
  · intro q j hq hlen hout
    exact hfresh.entries q j hq (ne_pathOf_of_length hlen) (not_prefix_of_not_under hH hout)
  · obtain ⟨l, hlog, hon⟩ := hfresh.logged
    exact ⟨l, hlog, fun acc hacc => (hon acc hacc).avoids htracks hfresh.owned.tree rfl hH⟩

theorem StaysUnder.freed (hH : H (pml4Idx virt))
    (hmapped : tableAt s.mem root (pathOf virt) = some frame)
    (hfreed : FreedPage P H root virt frame s s') : StaysUnder P H root s0 s' := by
  have hPpath := htracks.pathOf hH
  refine hstays.extend htracks hfreed.owned ?_ ?_
  · intro q j hq hlen hout
    exact hfreed.entries q j hq (ne_pathOf_of_length hlen) (not_prefix_of_not_under hH hout)
  · obtain ⟨l, hlog, hon⟩ := hfreed.logged
    refine ⟨l, hlog, ?_⟩
    intro acc hacc
    rcases hon acc hacc with rfl | hpath
    · -- the freed frame had the page's path, so it is no table outside `H`
      rintro q t hq hout ht rfl
      have hne : q ≠ pathOf virt := by
        rintro rfl
        exact hout ⟨_, _, rfl, hH⟩
      rw [hfreed.other q hq hne] at ht
      exact hne (hstays.owned.tree.unique q _ frame hq hPpath ht hmapped)
    · exact hpath.avoids htracks hfreed.owned.tree rfl hH

end Stays

end Pristine.Kernel
