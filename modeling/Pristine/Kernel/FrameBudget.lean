import Pristine.Kernel.Process

/-!
# How many frames a run of pages takes

Mapping a run of pages costs a frame for each page and one for each table that is
missing on the way to a page (`framesNeeded`, `takes_mapRange`), so it succeeds
exactly when these frames are there (`Takes.ok_iff`).
-/

namespace Pristine.Kernel

open Lib

theorem mem_tablePaths {virt : Nat} {q : List (Fin 512)} :
    q ∈ tablePaths virt ↔ q ≠ [] ∧ q.length ≤ 3 ∧ q <+: pathOf virt := by
  unfold tablePaths pathOf
  simp only [Finset.mem_insert, Finset.mem_singleton]
  constructor
  · rintro (rfl | rfl | rfl) <;> simp
  · rintro ⟨hne, hlen, hpre⟩
    match q, hne, hlen, hpre with
    | [a], _, _, hpre => simp_all
    | [a, b], _, _, hpre => simp_all
    | [a, b, c], _, _, hpre => simp_all

/-- The tables that are missing on the ways to `count` pages from `virt` on. -/
def missingTables (mem : ByteMem) (root virt count : Nat) : Finset (List (Fin 512)) :=
  ((Finset.range count).biUnion fun k => tablePaths (virt + k * pageSize)).filter fun q =>
    tableAt mem root q = none

/-- The frames for `count` pages from `virt` on, and for the tables they need. -/
def framesNeeded (mem : ByteMem) (root virt count : Nat) : Nat :=
  count + (missingTables mem root virt count).card

theorem mem_missingTables {mem : ByteMem} {root virt count : Nat} {q : List (Fin 512)} :
    q ∈ missingTables mem root virt count ↔
      (∃ k < count, q ∈ tablePaths (virt + k * pageSize)) ∧ tableAt mem root q = none := by
  simp [missingTables]

section Budget

variable {P : List (Fin 512) → Prop} {H : Fin 512 → Prop} {debug : Bool}
variable {root virt flags frame : Nat} {s s' : Machine}

/-- Below `H`, a page without a frame has an empty entry. -/
theorem Owned.entry_eq_zero (howned : Owned P H s root) (hH : H (pml4Idx virt))
    (hnone : tableAt s.mem root (pathOf virt) = none) :
    entryAt s.mem root (pathToPt virt) (ptIdx virt) = 0 := by
  rcases howned.links (pathToPt virt) (ptIdx virt) (under_pathOf hH (by simp) (List.prefix_refl _))
    (by simp [pathToPt]) with hzero | ⟨f, hlink⟩
  · exact hzero
  · rw [pathOf_eq, tableAt_snoc, hlink.child] at hnone
    cases hnone

/-- Taking and mapping a page. -/
theorem takes_mapFreshPage (debug : Bool) (flags : Nat) (htracks : Tracks P H)
    (howned : Owned P H s root) (hH : H (pml4Idx virt)) (hvirt : virt % pageSize = 0)
    (hnone : tableAt s.mem root (pathOf virt) = none) :
    Takes (1 + ((tablePaths virt).filter fun q => tableAt s.mem root q = none).card)
      (mapFreshPage debug root virt flags) s := by
  refine (Takes.alloc debug).bind fun phys s1 halloc => ?_
  obtain ⟨idx, -, rfl, rfl⟩ := allocPage_ok_iff.mp halloc
  have hphys := (isAligned_pageSize_iff (idx * pageSize)).mpr (Nat.mul_mod_left _ _)
  have hmap := takes_vmmMap debug flags htracks.closed (howned.tree.alloc idx) (htracks.pathToPt hH)
    (howned.noLargeOnPath hH) hphys ((isAligned_pageSize_iff _).mpr hvirt)
    (howned.entry_eq_zero hH hnone)
  exact hmap.bind (k := 0) fun _ _ _ => Takes.pure _

/-- A fresh page creates the tables on its way and no others. -/
theorem FreshPage.missing_iff (hfresh : FreshPage P H root virt frame s s') {q : List (Fin 512)}
    (hclosed : PrefixClosed P) (hq : P q) (hlen : q.length ≤ 3) :
    tableAt s'.mem root q = none ↔ tableAt s.mem root q = none ∧ ¬ q <+: pathOf virt := by
  by_cases hpre : q <+: pathOf virt
  · obtain ⟨rest, hrest⟩ := hpre
    simp only [show q <+: pathOf virt from ⟨rest, hrest⟩, not_true_eq_false, and_false, iff_false]
    intro hnone
    have hpage := hfresh.page
    rw [← hrest, tableAt_append_of_none hnone] at hpage
    cases hpage
  · simp only [hpre, not_false_eq_true, and_true]
    cases q using List.reverseRecOn with
    | nil => exact absurd List.nil_prefix hpre
    | append_singleton q j =>
      rw [List.length_append, List.length_singleton] at hlen
      rw [tableAt_snoc, tableAt_snoc, hfresh.entries q j (hclosed q j hq)
        (ne_pathOf_of_length (by omega)) hpre]

/-- The tables for a run of pages are those for its first page and, once that is mapped, those for the
others. -/
theorem card_missingTables_succ (mem mem' : ByteMem) {count : Nat}
    (hafter : ∀ k < count, ∀ q ∈ tablePaths (virt + pageSize + k * pageSize),
      (tableAt mem' root q = none ↔ tableAt mem root q = none ∧ q ∉ tablePaths virt)) :
    (missingTables mem root virt (count + 1)).card =
      ((tablePaths virt).filter fun q => tableAt mem root q = none).card +
        (missingTables mem' root (virt + pageSize) count).card := by
  rw [← Finset.card_union_of_disjoint]
  · congr 1
    ext q
    rw [Finset.mem_union, mem_missingTables, mem_missingTables, Finset.mem_filter]
    constructor
    · rintro ⟨⟨k, hk, hq⟩, hnone⟩
      by_cases hfirst : q ∈ tablePaths virt
      · exact Or.inl ⟨hfirst, hnone⟩
      · cases k with
        | zero =>
          rw [Nat.zero_mul, Nat.add_zero] at hq
          exact absurd hq hfirst
        | succ k =>
          rw [← range_shift] at hq
          exact Or.inr ⟨⟨k, by omega, hq⟩, (hafter k (by omega) q hq).mpr ⟨hnone, hfirst⟩⟩
    · rintro (⟨hq, hnone⟩ | ⟨⟨k, hk, hq⟩, hnone⟩)
      · exact ⟨⟨0, by omega, by rwa [Nat.zero_mul, Nat.add_zero]⟩, hnone⟩
      · refine ⟨⟨k + 1, by omega, by rwa [← range_shift]⟩, ?_⟩
        exact ((hafter k hk q hq).mp hnone).1
  · rw [Finset.disjoint_left]
    intro q hq hrest
    obtain ⟨⟨k, hk, hq'⟩, hnone⟩ := mem_missingTables.mp hrest
    exact ((hafter k hk q hq').mp hnone).2 (Finset.mem_filter.mp hq).1

/-- Mapping a run of unmapped pages of the lower half. -/
theorem takes_mapRange (debug : Bool) {count : Nat} (htracks : Tracks P H)
    (hlow : ∀ i, LowerHalf i → H i) (hflags : LinkFlags flags) (haligned : virt % pageSize = 0)
    (hend : virt + count * pageSize ≤ 2 ^ 47) (howned : Owned P H s root)
    (hempty : ∀ k < count, tableAt s.mem root (pathOf (virt + k * pageSize)) = none) :
    Takes (framesNeeded s.mem root virt count) (mapRange debug root flags virt count) s := by
  induction count generalizing virt s with
  | zero => exact Takes.pure ()
  | succ count ih =>
    have hvirt : virt < 2 ^ 47 := by
      unfold pageSize at hend
      omega
    have hH := hlow _ (lowerHalf_of_lt hvirt)
    have hfirst := hempty 0 (by omega)
    rw [Nat.zero_mul, Nat.add_zero] at hfirst
    have hpage := takes_mapFreshPage debug flags htracks howned hH haligned hfirst
    refine hpage.bind_of_le ?_ fun frame t hcall => ?_
    · unfold framesNeeded
      have hsub : ((tablePaths virt).filter fun q => tableAt s.mem root q = none) ⊆
          missingTables s.mem root virt (count + 1) := by
        intro q hq
        obtain ⟨hin, hnone⟩ := Finset.mem_filter.mp hq
        exact mem_missingTables.mpr ⟨⟨0, by omega, by rwa [Nat.zero_mul, Nat.add_zero]⟩, hnone⟩
      have hcard := Finset.card_le_card hsub
      omega
    · have hfresh := mapFreshPage_effect htracks howned hH hflags hcall
      have hnext : (virt + pageSize) % 2 ^ 64 = virt + pageSize := by
        unfold pageSize at *
        omega
      rw [hnext]
      refine ⟨framesNeeded t.mem root (virt + pageSize) count, ?_, ih ?_ ?_ hfresh.owned ?_⟩
      · unfold framesNeeded
        rw [card_missingTables_succ s.mem t.mem]
        · omega
        · intro k hk q hq
          obtain ⟨hne, hlen, hpre⟩ := mem_tablePaths.mp hq
          have hP : P q := htracks.closed.mono hpre
            (htracks.pathOf (hlow _ (lowerHalf_of_lt (by unfold pageSize at *; omega))))
          rw [hfresh.missing_iff htracks.closed hP hlen, mem_tablePaths]
          simp [hne, hlen]
      · unfold pageSize at *
        omega
      · rw [Nat.add_mul, Nat.one_mul] at hend
        omega
      · intro k hk
        -- the other pages have other paths
        have hother : ¬ pathOf (virt + pageSize + k * pageSize) <+: pathOf virt := by
          intro hpre
          have heq := hpre.eq_of_length rfl
          have hsame := pathOf_injective (Or.inl (by unfold pageSize at *; omega)) (Or.inl hvirt)
            (by unfold pageSize at *; omega) haligned heq
          unfold pageSize at hsame
          omega
        have hrest := hempty (k + 1) (by omega)
        rw [← range_shift] at hrest
        rw [pathOf_eq, tableAt_snoc] at hrest ⊢
        rw [hfresh.entries _ _ (htracks.pathToPt (hlow _ (lowerHalf_of_lt (by
          unfold pageSize at *; omega)))) (ne_pathOf_of_length (by simp [pathToPt])) hother]
        exact hrest

end Budget

end Pristine.Kernel
