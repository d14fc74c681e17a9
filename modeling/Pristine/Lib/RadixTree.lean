import Mathlib.Tactic

/-!
# Pointer trees indexed by paths

A node is a block of entries and an entry may point to a child node.  Nodes are
found by following a path of indices from a root, as a page walk does.  The
module knows nothing about how nodes are stored: `entry` reads a node's entry
and `child` the node an entry points to.

Results are relative to a prefix-closed domain `P` of paths, so that a client
can choose the depth and the part of the tree it speaks about.  The tree
property is `UniquePaths`: no node is reached by two paths.  Changing one entry
of such a tree changes `follow` below that entry and nowhere else
(`follow_update_outside`), and linking a fresh childless node keeps the
tree property (`UniquePaths.link`).
-/

namespace Pristine.Lib

section Follow

variable {ν ι ε : Type*} (child : ε → Option ν) (entry : ν → ι → ε)

/-- Follow a path of indices from a node. -/
def follow : ν → List ι → Option ν
  | t, [] => some t
  | t, i :: rest => (child (entry t i)).bind fun u => follow u rest

theorem follow_append (t : ν) (p q : List ι) :
    follow child entry t (p ++ q) =
      (follow child entry t p).bind fun u => follow child entry u q := by
  induction p generalizing t with
  | nil => rfl
  | cons i p ih =>
    simp only [List.cons_append, follow]
    cases child (entry t i) with
    | none => rfl
    | some u => exact ih u

theorem follow_snoc (t : ν) (p : List ι) (i : ι) :
    follow child entry t (p ++ [i]) = (follow child entry t p).bind fun u => child (entry u i) := by
  rw [follow_append]
  congr 1
  funext u
  simp only [follow]
  cases child (entry u i) <;> rfl

/-- A domain of paths that contains every prefix of its members. -/
def PrefixClosed (P : List ι → Prop) : Prop :=
  ∀ p i, P (p ++ [i]) → P p

/-- No node is reached by two paths of the domain. -/
def UniquePaths (P : List ι → Prop) (root : ν) : Prop :=
  ∀ p q t, P p → P q → follow child entry root p = some t →
    follow child entry root q = some t → p = q

end Follow

section Update

variable {ν ι ε : Type*} {child : ε → Option ν} {entry entry' : ν → ι → ε}
variable {P : List ι → Prop} {root t₀ : ν} {p0 : List ι} {i₀ : ι}

theorem PrefixClosed.mono (hclosed : PrefixClosed P) {p q : List ι}
    (hpq : p <+: q) (hq : P q) : P p := by
  obtain ⟨r, rfl⟩ := hpq
  induction r using List.reverseRecOn with
  | nil => simpa using hq
  | append_singleton r i ih =>
    rw [← List.append_assoc] at hq
    exact ih (hclosed _ _ hq)

/-- Entries that agree on every node of the domain give the same nodes. -/
theorem follow_congr (hclosed : PrefixClosed P)
    (hagree : ∀ p i t, P (p ++ [i]) → follow child entry root p = some t →
      child (entry' t i) = child (entry t i)) :
    ∀ q, P q → follow child entry' root q = follow child entry root q := by
  intro q
  induction q using List.reverseRecOn with
  | nil => intro _; rfl
  | append_singleton q i ih =>
    intro hq
    rw [follow_snoc, follow_snoc, ih (hclosed _ _ hq)]
    cases hnode : follow child entry root q with
    | none => rfl
    | some t => exact hagree q i t hq hnode

section Entry

variable (hclosed : PrefixClosed P)
    (hunique : UniquePaths child entry P root) (hp0 : P p0)
    (hnode : follow child entry root p0 = some t₀)
    (hagree : ∀ p i t, P (p ++ [i]) → follow child entry root p = some t →
      t ≠ t₀ ∨ i ≠ i₀ → child (entry' t i) = child (entry t i))

include hclosed hunique hp0 hnode hagree

/-- A change of entry `i₀` of node `t₀` is invisible to every path that does not
run through that entry. -/
theorem follow_update_outside :
    ∀ q, P q → ¬ (p0 ++ [i₀]) <+: q →
      follow child entry' root q = follow child entry root q := by
  intro q
  induction q using List.reverseRecOn with
  | nil => intro _ _; rfl
  | append_singleton q i ih =>
    intro hq hnot
    have hshort : ¬ (p0 ++ [i₀]) <+: q := fun hpre =>
      hnot (hpre.trans (List.prefix_append q [i]))
    rw [follow_snoc, follow_snoc, ih (hclosed _ _ hq) hshort]
    cases hfound : follow child entry root q with
    | none => rfl
    | some t =>
      apply hagree q i t hq hfound
      by_contra hsame
      push Not at hsame
      obtain ⟨rfl, rfl⟩ := hsame
      -- the only path to `t₀` is `p0`
      have hpath := hunique q p0 t (hclosed _ _ hq) hp0 hfound hnode
      subst hpath
      exact hnot (List.prefix_refl _)

/-- The changed node itself is still found where it was. -/
theorem follow_update_self : follow child entry' root p0 = some t₀ := by
  rw [follow_update_outside hclosed hunique hp0 hnode hagree p0 hp0, hnode]
  intro hpre
  have hlen := hpre.length_le
  simp at hlen

variable (hchildless : ∀ f i, child (entry' t₀ i₀) = some f → P (p0 ++ [i₀] ++ [i]) →
      child (entry' f i) = none)

include hchildless

/-- Complete description of a tree after one entry was made to point to a node
without children of its own in the domain. -/
theorem follow_link :
    ∀ q, P q → follow child entry' root q =
      open Classical in
      if q = p0 ++ [i₀] then child (entry' t₀ i₀)
      else if (p0 ++ [i₀]) <+: q then none
      else follow child entry root q := by
  intro q hq
  have hself := follow_update_self hclosed hunique hp0 hnode hagree
  by_cases hpre : (p0 ++ [i₀]) <+: q
  · obtain ⟨rest, rfl⟩ := hpre
    rw [follow_append, follow_snoc, hself]
    cases rest with
    | nil =>
      simp only [List.append_nil, if_true, Option.bind_some]
      cases child (entry' t₀ i₀) <;> rfl
    | cons i rest =>
      rw [if_neg (by simp), if_pos (List.prefix_append _ _)]
      cases hf : child (entry' t₀ i₀) with
      | none => simp [hf]
      | some f =>
        have hone : P (p0 ++ [i₀] ++ [i]) :=
          hclosed.mono (by simp) hq
        simp [hf, follow, hchildless f i hf hone]
  · have hne : q ≠ p0 ++ [i₀] := by
      rintro rfl
      exact hpre (List.prefix_refl _)
    rw [if_neg hne, if_neg hpre]
    exact follow_update_outside hclosed hunique hp0 hnode hagree q hq hpre

/-- Linking a node that was not reached before, or unlinking one, keeps the
tree property. -/
theorem UniquePaths.link
    (hfresh : ∀ f q, child (entry' t₀ i₀) = some f → P q →
      follow child entry root q ≠ some f) :
    UniquePaths child entry' P root := by
  classical
  have hall := follow_link hclosed hunique hp0 hnode hagree hchildless
  intro p q t hp hq hfollowp hfollowq
  rw [hall p hp] at hfollowp
  rw [hall q hq] at hfollowq
  split_ifs at hfollowp with hp1 hp2
  · split_ifs at hfollowq with hq1 hq2
    · rw [hp1, hq1]
    · exact absurd hfollowq (hfresh t q hfollowp hq)
  · split_ifs at hfollowq with hq1 hq2
    · exact absurd hfollowp (hfresh t p hfollowq hp)
    · exact hunique p q t hp hq hfollowp hfollowq

end Entry

end Update

end Pristine.Lib
