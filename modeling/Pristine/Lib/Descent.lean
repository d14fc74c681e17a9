import Mathlib.Data.Fintype.Order
import Mathlib.Logic.Relation
import Mathlib.Order.WellFounded

/-!
# Descending a graph

A walk that goes from a node to each of its children comes to an end if the
relation is accessible at the node where it begins.  Over finitely many nodes
this is so exactly if no node that it reaches lies on a cycle.
-/

namespace Pristine.Lib

open Relation

variable {α : Type*} {r : α → α → Prop} {root : α}

/-- No node below `root` can be reached from itself. -/
def NoCycleBelow (r : α → α → Prop) (root : α) : Prop :=
  ∀ i, ReflTransGen r root i → ¬ TransGen r i i

theorem acc_of_reflTransGen {i : α} (hacc : Acc (fun j i => r i j) root)
    (hreach : ReflTransGen r root i) : Acc (fun j i => r i j) i := by
  induction hreach with
  | refl => exact hacc
  | tail _ hstep ih => exact ih.inv hstep

/-- A walk down from an accessible node meets no cycle. -/
theorem noCycleBelow_of_acc (hacc : Acc (fun j i => r i j) root) : NoCycleBelow r root := by
  intro i hreach hcycle
  have hclosure : Acc (TransGen fun j i => r i j) i := (acc_of_reflTransGen hacc hreach).transGen
  have hself : TransGen (fun j i => r i j) i i := transGen_swap.mp hcycle
  induction hclosure with
  | intro i _ ih => exact ih i hself hreach hcycle hself

/-- Without a cycle among finitely many nodes the walk ends. -/
theorem acc_of_noCycleBelow (hfinite : {i | ReflTransGen r root i}.Finite)
    (hcycle : NoCycleBelow r root) : Acc (fun j i => r i j) root := by
  let below : {i // ReflTransGen r root i} → {i // ReflTransGen r root i} → Prop :=
    fun j i => TransGen r i.1 j.1
  have : Finite {i // ReflTransGen r root i} := hfinite
  have hirrefl : Std.Irrefl below := ⟨fun i => hcycle i.1 i.2⟩
  have hwf : WellFounded below := Finite.wellFounded_of_trans_of_irrefl below
  suffices hall : ∀ i : {i // ReflTransGen r root i}, Acc (fun j i => r i j) i.1 from
    hall ⟨root, .refl⟩
  intro i
  induction i using hwf.induction with
  | _ i ih =>
    constructor
    intro j hstep
    exact ih ⟨j, i.2.tail hstep⟩ (.single hstep)

end Pristine.Lib
