import Mathlib.Logic.Relation

/-!
# Runs of a transition relation

A run is a finite sequence of steps, `Relation.ReflTransGen step`.  Safety
results of the development are instances of one rule: what holds at the start
and is kept by every step holds in every state a run reaches.
-/

namespace Pristine.Lib

/-- The invariant rule. -/
theorem run_invariant {σ : Type*} {step : σ → σ → Prop} {inv : σ → Prop} {s s' : σ}
    (hrun : Relation.ReflTransGen step s s') (hstart : inv s)
    (hstep : ∀ t t', inv t → step t t' → inv t') : inv s' := by
  induction hrun with
  | refl => exact hstart
  | tail _ hlast ih => exact hstep _ _ ih hlast

end Pristine.Lib
