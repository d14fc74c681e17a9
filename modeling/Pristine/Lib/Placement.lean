import Mathlib.Logic.Function.Basic

/-!
# Tokens in places

`held : place → Option token` says which token a place holds.  `Placement`
requires every token to be in at most one place.  Putting a new token into an
empty place, moving one to an empty place and taking one away keep this, and
change the set of placed tokens in the obvious way.
-/

namespace Pristine.Lib

open Function

variable {place token : Type*}

/-- No token is in two places. -/
def Placement (held : place → Option token) : Prop :=
  ∀ i j p, held i = some p → held j = some p → i = j

/-- The token is somewhere. -/
def Placed (held : place → Option token) (p : token) : Prop := ∃ i, held i = some p

theorem Placement.existsUnique {held : place → Option token} (hheld : Placement held)
    {p : token} (hp : Placed held p) : ∃! i, held i = some p := by
  obtain ⟨i, hi⟩ := hp
  exact ⟨i, hi, fun j hj => hheld j i p hj hi⟩

section Update

variable [DecidableEq place] {held : place → Option token} {i j : place} {p : token}

theorem placed_put (hempty : held i = none) (q : token) :
    Placed (update held i (some p)) q ↔ q = p ∨ Placed held q := by
  constructor
  · rintro ⟨k, hk⟩
    by_cases hki : k = i
    · subst hki
      rw [update_self] at hk
      exact Or.inl (Option.some.inj hk).symm
    · rw [update_of_ne hki] at hk
      exact Or.inr ⟨k, hk⟩
  · rintro (rfl | ⟨k, hk⟩)
    · exact ⟨i, update_self ..⟩
    · have hki : k ≠ i := by
        rintro rfl
        rw [hempty] at hk
        cases hk
      exact ⟨k, by rw [update_of_ne hki, hk]⟩

theorem Placement.put (hheld : Placement held) (hnew : ¬ Placed held p) :
    Placement (update held i (some p)) := by
  intro k l q hk hl
  simp only [update_apply] at hk hl
  split at hk <;> split at hl
  · rename_i hki hli
    rw [hki, hli]
  · cases hk
    exact absurd ⟨l, hl⟩ hnew
  · cases hl
    exact absurd ⟨k, hk⟩ hnew
  · exact hheld k l q hk hl

theorem Placement.take (hheld : Placement held) : Placement (update held i none) := by
  intro k l q hk hl
  simp only [update_apply] at hk hl
  split at hk
  · cases hk
  · split at hl
    · cases hl
    · exact hheld k l q hk hl

theorem Placement.placed_take (hheld : Placement held) (hp : held i = some p) (q : token) :
    Placed (update held i none) q ↔ Placed held q ∧ q ≠ p := by
  constructor
  · rintro ⟨k, hk⟩
    simp only [update_apply] at hk
    split at hk
    · cases hk
    · rename_i hki
      refine ⟨⟨k, hk⟩, ?_⟩
      rintro rfl
      exact hki (hheld k i q hk hp)
  · rintro ⟨⟨k, hk⟩, hqp⟩
    have hki : k ≠ i := by
      rintro rfl
      rw [hp] at hk
      exact hqp (Option.some.inj hk).symm
    exact ⟨k, by rw [update_of_ne hki, hk]⟩

/-- A move is a removal followed by a put. -/
theorem Placement.move (hheld : Placement held) (hp : held i = some p) (hempty : held j = none) :
    Placement (update (update held i none) j (some p)) ∧
      ∀ q, Placed (update (update held i none) j (some p)) q ↔
        Placed held q := by
  have hji : j ≠ i := by
    rintro rfl
    rw [hp] at hempty
    cases hempty
  have hgone : ¬ Placed (update held i none) p := by
    rw [hheld.placed_take hp]
    exact fun h => h.2 rfl
  refine ⟨hheld.take.put hgone, fun q => ?_⟩
  rw [placed_put (by rw [update_of_ne hji, hempty]), hheld.placed_take hp]
  constructor
  · rintro (rfl | ⟨hq, -⟩)
    · exact ⟨i, hp⟩
    · exact hq
  · intro hq
    by_cases hqp : q = p
    · exact Or.inl hqp
    · exact Or.inr ⟨hq, hqp⟩

end Update

end Pristine.Lib
