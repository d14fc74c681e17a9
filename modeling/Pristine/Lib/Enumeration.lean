import Mathlib.Data.Set.Function
import Mathlib.Order.Interval.Set.Basic
import Mathlib.Tactic

/-!
# Enumerations of intervals

A set is enumerated by a function that maps it one to one onto an interval of
numbers.  Enumerations of adjacent intervals join.
-/

namespace Pristine.Lib

variable {α : Type} {f : α → Nat} {s t : Set α} {a b c : Nat}

/-- Enumerations of two intervals, one behind the other. -/
theorem bijOn_Ico_union (hs : Set.BijOn f s (Set.Ico a b)) (ht : Set.BijOn f t (Set.Ico b c))
    (hab : a ≤ b) (hbc : b ≤ c) : Set.BijOn f (s ∪ t) (Set.Ico a c) := by
  have hunion := hs.union ht ?_
  · rwa [Set.Ico_union_Ico_eq_Ico hab hbc] at hunion
  · -- the two parts have values on either side of `b`
    have hbelow (x : α) (hx : x ∈ s) : f x < b := (hs.mapsTo hx).2
    have habove (x : α) (hx : x ∈ t) : b ≤ f x := (ht.mapsTo hx).1
    rintro x (hx | hx) y (hy | hy) hxy
    · exact hs.injOn hx hy hxy
    · have := hbelow x hx
      have := habove y hy
      omega
    · have := habove x hx
      have := hbelow y hy
      omega
    · exact ht.injOn hx hy hxy

theorem bijOn_Ico_empty (f : α → Nat) (a : Nat) : Set.BijOn f ∅ (Set.Ico a a) := by
  rw [Set.Ico_self]
  exact Set.bijOn_empty f

theorem bijOn_Ico_single {x : α} (hx : f x = a) : Set.BijOn f {x} (Set.Ico a (a + 1)) := by
  have hsingle : Set.Ico a (a + 1) = {f x} := by
    ext b
    simp only [Set.mem_Ico, Set.mem_singleton_iff]
    omega
  rw [hsingle]
  exact Set.bijOn_singleton.mpr rfl

/-- An enumeration by consecutive numbers. -/
theorem bijOn_Ico_image {g : Nat → α} {lo hi : Nat}
    (hg : ∀ j, lo ≤ j → j < hi → f (g j) = a + (j - lo)) :
    Set.BijOn f { x | ∃ j, x = g j ∧ lo ≤ j ∧ j < hi } (Set.Ico a (a + (hi - lo))) := by
  refine ⟨?_, ?_, ?_⟩
  · rintro x ⟨j, rfl, hlo, hhi⟩
    rw [Set.mem_Ico, hg j hlo hhi]
    omega
  · rintro x ⟨j, rfl, hlo, hhi⟩ y ⟨j', rfl, hlo', hhi'⟩ hsame
    rw [hg j hlo hhi, hg j' hlo' hhi'] at hsame
    rw [show j = j' by omega]
  · intro b hb
    rw [Set.mem_Ico] at hb
    refine ⟨g (lo + (b - a)), ⟨_, rfl, by omega, by omega⟩, ?_⟩
    rw [hg _ (by omega) (by omega)]
    omega

end Pristine.Lib
