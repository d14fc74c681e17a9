import Mathlib.Tactic

/-!
# Copying cells one after another

A copy in steps reads a cell and writes another one.  If no step reads what an
earlier step wrote, all the cells hold at the end what was to be read at the
start (`copyCells_at`), whatever the order of the steps and however the two
ranges overlap.
-/

namespace Pristine.Lib

variable {α β : Type} [DecidableEq α]

/-- Step `k` copies cell `from k` to cell `to k`. -/
def copyCells (dst src : Nat → α) : Nat → (α → β) → α → β
  | 0, mem => mem
  | n + 1, mem =>
    let mem' := copyCells dst src n mem
    Function.update mem' (dst n) (mem' (src n))

variable {dst src : Nat → α} {mem : α → β} {n : Nat}

/-- Cells that no step writes keep their contents. -/
theorem copyCells_other {a : α} (hother : ∀ k < n, a ≠ dst k) : copyCells dst src n mem a = mem a := by
  induction n with
  | zero => rfl
  | succ n ih =>
    rw [copyCells, Function.update_of_ne (hother n (by omega))]
    exact ih fun k hk => hother k (by omega)

/-- The cells that are written hold what was to be read. -/
theorem copyCells_at (hfresh : ∀ i j, i < j → j < n → src j ≠ dst i)
    (hinj : ∀ i j, i < j → j < n → dst i ≠ dst j) {k : Nat} (hk : k < n) :
    copyCells dst src n mem (dst k) = mem (src k) := by
  induction n with
  | zero => exact absurd hk (Nat.not_lt_zero k)
  | succ n ih =>
    rw [copyCells]
    by_cases hlast : k = n
    · -- the last step reads a cell that is as it was
      rw [hlast, Function.update_self]
      exact copyCells_other fun i hi => hfresh i n hi (by omega)
    · rw [Function.update_of_ne (hinj k n (by omega) (by omega))]
      exact ih (fun i j hij hj => hfresh i j hij (by omega))
        (fun i j hij hj => hinj i j hij (by omega)) (by omega)

/-- A property of contents that all cells but one have is not lost while that cell is not read. -/
theorem copyCells_forall {P : β → Prop} {marked : α} (hmem : ∀ a, a ≠ marked → P (mem a))
    (hunread : ∀ k < n, src k ≠ marked) {a : α} (ha : a ≠ marked ∨ ∃ k < n, dst k = marked) :
    P (copyCells dst src n mem a) := by
  induction n generalizing a with
  | zero =>
    rcases ha with hne | ⟨k, hk, -⟩
    · exact hmem a hne
    · exact absurd hk (Nat.not_lt_zero k)
  | succ n ih =>
    have hrest (b : α) (hb : b ≠ marked ∨ ∃ k < n, dst k = marked) :
        P (copyCells dst src n mem b) := ih (fun k hk => hunread k (by omega)) hb
    rw [copyCells]
    by_cases hhere : a = dst n
    · rw [hhere, Function.update_self]
      exact hrest _ (Or.inl (hunread n (by omega)))
    · rw [Function.update_of_ne hhere]
      refine hrest a ?_
      by_cases hne : a = marked
      · obtain ⟨k, hk, hdst⟩ := ha.resolve_left (not_not.mpr hne)
        refine Or.inr ⟨k, ?_, hdst⟩
        by_contra hge
        have hkn : k = n := by omega
        exact hhere (by rw [hne, ← hdst, hkn])
      · exact Or.inl hne

end Pristine.Lib
