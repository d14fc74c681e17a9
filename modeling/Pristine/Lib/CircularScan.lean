import Mathlib.Data.List.FinRange
import Mathlib.Data.List.Rotate

/-!
# Circular scans

A table with `n` slots is searched from a cursor on, around the end, for the
first occupied slot, and the cursor is then left behind that slot.  Two facts
make this a round-robin: the occupied slots in the order of the search rotate by
one with every hit (`cyclicOrder_rotate`), and an occupied slot that comes before
another one in this order does so until it is hit (`precedes_advance`).
-/

namespace Pristine.Lib

variable {α : Type*} {n : Nat}

/-- `k` slots after slot `c`. -/
def cyc (c : Fin n) (k : Nat) : Fin n := ⟨(c + k) % n, Nat.mod_lt _ c.pos⟩

/-- How far slot `i` is ahead of slot `c`. -/
def ahead (c i : Fin n) : Nat := if c.val ≤ i.val then i - c else i + n - c

theorem ahead_lt (c i : Fin n) : ahead c i < n := by
  unfold ahead
  split <;> omega

theorem cyc_val {c : Fin n} {k : Nat} (hk : k ≤ n) :
    (cyc c k).val = if c + k < n then c + k else c + k - n := by
  unfold cyc
  dsimp only
  split
  · rename_i hlt
    exact Nat.mod_eq_of_lt hlt
  · rw [Nat.mod_eq_sub_mod (by omega), Nat.mod_eq_of_lt (by omega)]

theorem cyc_ahead (c i : Fin n) : cyc c (ahead c i) = i := by
  apply Fin.ext
  rw [cyc_val (Nat.le_of_lt (ahead_lt c i))]
  unfold ahead
  split <;> split <;> omega

theorem ahead_cyc {c : Fin n} {k : Nat} (hk : k < n) : ahead c (cyc c k) = k := by
  have hval := cyc_val (c := c) (Nat.le_of_lt hk)
  unfold ahead
  rw [hval]
  by_cases hwrap : c + k < n
  · rw [if_pos hwrap]
    split <;> omega
  · rw [if_neg hwrap]
    split <;> omega

theorem cyc_cyc (c : Fin n) (j k : Nat) : cyc (cyc c j) k = cyc c (j + k) := by
  apply Fin.ext
  unfold cyc
  dsimp only
  rw [Nat.mod_add_mod, Nat.add_assoc]

theorem cyc_add_self (c : Fin n) (k : Nat) : cyc c (n + k) = cyc c k := by
  apply Fin.ext
  unfold cyc
  dsimp only
  rw [Nat.add_left_comm, Nat.add_mod_left]

/-- The first occupied slot from `c` on is `k` slots ahead and holds `a`. -/
structure FirstFrom (table : Fin n → Option α) (c : Fin n) (k : Nat) (a : α) : Prop where
  lt : k < n
  here : table (cyc c k) = some a
  before : ∀ j, j < k → table (cyc c j) = none

/-- The occupied slots in the order of a search from `c`. -/
def cyclicOrder (table : Fin n → Option α) (c : Fin n) : List α :=
  (List.range n).filterMap fun k => table (cyc c k)

section

variable {table : Fin n → Option α} {c : Fin n} {k : Nat} {a : α}

/-- No slot is ahead of the first one. -/
theorem FirstFrom.le_ahead (hfirst : FirstFrom table c k a) {i : Fin n} {b : α}
    (hi : table i = some b) : k ≤ ahead c i := by
  by_contra hlt
  have hnone := hfirst.before (ahead c i) (by omega)
  rw [cyc_ahead, hi] at hnone
  cases hnone

/-- A hit moves its slot from the front of the order to the back. -/
theorem cyclicOrder_rotate (hfirst : FirstFrom table c k a) :
    ∃ rest, cyclicOrder table c = a :: rest ∧
      cyclicOrder table (cyc c (k + 1)) = rest ++ [a] := by
  have hk := hfirst.lt
  have hfront : (List.range (k + 1)).filterMap (fun j => table (cyc c j)) = [a] := by
    have hempty : (List.range k).filterMap (fun j => table (cyc c j)) = [] := by
      rw [List.filterMap_eq_nil_iff]
      intro j hj
      exact hfirst.before j (List.mem_range.mp hj)
    rw [List.range_succ, List.filterMap_append, hempty]
    simp [hfirst.here]
  refine ⟨(List.range (n - (k + 1))).filterMap fun j => table (cyc c (k + 1 + j)), ?_, ?_⟩
  · have hsplit : List.range n =
        List.range (k + 1) ++ (List.range (n - (k + 1))).map (k + 1 + ·) := by
      rw [← List.range_add, Nat.add_sub_cancel' hk]
    unfold cyclicOrder
    rw [hsplit, List.filterMap_append, List.filterMap_map, hfront]
    rfl
  · -- the slots up to the hit come round again at the end
    have hback : ∀ j, cyc (cyc c (k + 1)) (n - (k + 1) + j) = cyc c j := by
      intro j
      rw [cyc_cyc, show k + 1 + (n - (k + 1) + j) = n + j by omega, cyc_add_self]
    have hsplit : List.range n =
        List.range (n - (k + 1)) ++ (List.range (k + 1)).map (n - (k + 1) + ·) := by
      rw [← List.range_add, Nat.sub_add_cancel hk]
    unfold cyclicOrder
    rw [hsplit, List.filterMap_append, List.filterMap_map, ← hfront]
    congr 1
    · refine List.filterMap_congr fun j _ => ?_
      rw [cyc_cyc]
    · refine List.filterMap_congr fun j _ => ?_
      rw [Function.comp_apply, hback]

/-- The search visits every slot once. -/
theorem map_cyc_perm (c : Fin n) : ((List.range n).map (cyc c)).Perm (List.finRange n) := by
  rw [List.perm_ext_iff_of_nodup _ (List.nodup_finRange n)]
  · intro i
    simp only [List.mem_map, List.mem_range, List.mem_finRange, iff_true]
    exact ⟨ahead c i, ahead_lt c i, cyc_ahead c i⟩
  · refine List.Nodup.map_on ?_ List.nodup_range
    intro j hj k hk heq
    rw [List.mem_range] at hj hk
    rw [← ahead_cyc (c := c) hj, heq, ahead_cyc hk]

theorem cyclicOrder_perm (table : Fin n → Option α) (c : Fin n) :
    (cyclicOrder table c).Perm ((List.finRange n).filterMap table) := by
  have hmap : cyclicOrder table c = ((List.range n).map (cyc c)).filterMap table := by
    rw [List.filterMap_map]
    rfl
  rw [hmap]
  exact (map_cyc_perm c).filterMap table

/-- From `c` on, slot `i` is met before slot `j`. -/
def Precedes (c i j : Fin n) : Prop := ahead c i < ahead c j

/-- Slot `i` keeps its place before slot `j` until it is hit. -/
theorem precedes_advance (hfirst : FirstFrom table c k a) {i j : Fin n} {b : α}
    (hi : table i = some b) (hij : Precedes c i j) :
    cyc c k = i ∨ cyc c k ≠ j ∧ Precedes (cyc c (k + 1)) i j := by
  have hle := hfirst.le_ahead hi
  have hk := hfirst.lt
  unfold Precedes at *
  by_cases hhit : k = ahead c i
  · left
    rw [hhit, cyc_ahead]
  · right
    refine ⟨?_, ?_⟩
    · intro hj
      have hahead := ahead_cyc (c := c) hk
      rw [hj] at hahead
      omega
    · have hnext := cyc_val (c := c) (show k + 1 ≤ n by omega)
      unfold ahead at *
      simp only [hnext] at *
      split at hle <;> split at hij <;> split at hij <;> split at hhit <;> split <;> split <;>
        split <;> omega

/-- A slot that was just hit comes last. -/
theorem precedes_of_hit {i j : Fin n} (hij : i ≠ j) : Precedes (cyc j 1) i j := by
  have hnext := cyc_val (c := j) (show 1 ≤ n by have := j.pos; omega)
  unfold Precedes ahead
  simp only [hnext]
  split <;> split <;> split <;> omega

end

end Pristine.Lib
