import Mathlib.Data.List.Nodup
import Mathlib.Data.List.Basic

/-!
# Linked lists as views of pointer maps

An intrusive list is a head pointer and maps from nodes to their neighbours.
`Chain` reads a singly linked list off a map of links, `DList` a doubly linked
one off a pair of maps.  The rules say what the usual pointer updates do to the
list that is read: they only ask for the values of the new maps at the nodes of
the list, so that they apply to any memory that holds such maps.
-/

namespace Pristine.Lib

variable {ν : Type*}

/-! ## Singly linked -/

/-- From `head` the links run through the nodes of the list and end at `stop`. -/
def Chain (link : ν → ν) (stop : ν) : ν → List ν → Prop
  | head, [] => head = stop
  | head, x :: xs => head = x ∧ Chain link stop (link x) xs

theorem Chain.congr {link link' : ν → ν} {stop head : ν} {xs : List ν}
    (hchain : Chain link stop head xs) (hlink : ∀ x ∈ xs, link' x = link x) :
    Chain link' stop head xs := by
  induction xs generalizing head with
  | nil => exact hchain
  | cons x xs ih =>
    obtain ⟨hhead, hrest⟩ := hchain
    refine ⟨hhead, ?_⟩
    rw [hlink x (List.mem_cons_self ..)]
    exact ih hrest fun y hy => hlink y (List.mem_cons_of_mem x hy)

/-- A chain through the values of a function, each linked to the next. -/
theorem Chain.ofFn {link : ν → ν} (node : Nat → ν) (first count : Nat)
    (hlink : ∀ k, first ≤ k → k < first + count → link (node k) = node (k + 1)) :
    Chain link (node (first + count)) (node first) ((List.range' first count).map node) := by
  induction count generalizing first with
  | zero => rfl
  | succ count ih =>
    rw [List.range'_succ, List.map_cons]
    refine ⟨rfl, ?_⟩
    rw [hlink first (Nat.le_refl _) (by omega), show first + (count + 1) = first + 1 + count by omega]
    exact ih (first + 1) fun k hlo hhi => hlink k (by omega) (by omega)

/-- The end of a chain can be redirected at its last node. -/
theorem Chain.redirect {link link' : ν → ν} {stop stop' head last : ν} {xs : List ν}
    (hchain : Chain link stop head (xs ++ [last])) (hlink : ∀ x ∈ xs, link' x = link x)
    (hlast : link' last = stop') : Chain link' stop' head (xs ++ [last]) := by
  induction xs generalizing head with
  | nil => exact ⟨hchain.1, hlast⟩
  | cons x xs ih =>
    obtain ⟨hhead, hrest⟩ := hchain
    refine ⟨hhead, ?_⟩
    rw [hlink x (List.mem_cons_self ..)]
    exact ih hrest fun y hy => hlink y (List.mem_cons_of_mem x hy)

/-! ## Doubly linked -/

/-- From `head` the list is linked in both directions; `before` is what the first node
has as its predecessor. -/
def DList (next prev : ν → ν) (null : ν) : ν → ν → List ν → Prop
  | _, head, [] => head = null
  | before, head, x :: xs =>
    head = x ∧ x ≠ null ∧ prev x = before ∧ DList next prev null x (next x) xs

namespace DList

variable {next prev next' prev' : ν → ν} {null before before' head : ν} {xs : List ν}

theorem congr (hlist : DList next prev null before head xs)
    (hnext : ∀ x ∈ xs, next' x = next x) (hprev : ∀ x ∈ xs, prev' x = prev x) :
    DList next' prev' null before head xs := by
  induction xs generalizing before head with
  | nil => exact hlist
  | cons x xs ih =>
    obtain ⟨hhead, hnull, hbefore, hrest⟩ := hlist
    refine ⟨hhead, hnull, ?_, ?_⟩
    · rw [hprev x (List.mem_cons_self ..), hbefore]
    · rw [hnext x (List.mem_cons_self ..)]
      exact ih hrest (fun y hy => hnext y (List.mem_cons_of_mem x hy))
        fun y hy => hprev y (List.mem_cons_of_mem x hy)

theorem ne_null (hlist : DList next prev null before head xs) : ∀ x ∈ xs, x ≠ null := by
  induction xs generalizing before head with
  | nil => intro x hx; cases hx
  | cons x xs ih =>
    obtain ⟨-, hnull, -, hrest⟩ := hlist
    intro y hy
    rcases List.mem_cons.mp hy with rfl | hin
    · exact hnull
    · exact ih hrest y hin

theorem head_eq_null_iff (hlist : DList next prev null before head xs) : head = null ↔ xs = [] := by
  cases xs with
  | nil => exact ⟨fun _ => rfl, fun _ => hlist⟩
  | cons x xs =>
    obtain ⟨hhead, hnull, -, -⟩ := hlist
    constructor
    · intro h
      exact absurd (hhead.symm.trans h) hnull
    · intro h
      cases h

/-- The links determine the list. -/
theorem unique {ys : List ν} (hxs : DList next prev null before head xs)
    (hys : DList next prev null before' head ys) : xs = ys := by
  induction xs generalizing before before' head ys with
  | nil => exact ((head_eq_null_iff hys).mp hxs).symm
  | cons x xs ih =>
    obtain ⟨rfl, hnull, -, hrest⟩ := hxs
    cases ys with
    | nil => exact absurd hys hnull
    | cons y ys =>
      obtain ⟨rfl, -, -, hrest'⟩ := hys
      rw [ih hrest hrest']

/-- The head pointer is null or the first node. -/
theorem head_mem (hlist : DList next prev null before head xs) (hne : head ≠ null) : head ∈ xs := by
  cases xs with
  | nil => exact absurd hlist hne
  | cons x xs =>
    rw [hlist.1]
    exact List.mem_cons_self ..

/-- Give the first node another predecessor. -/
theorem setBefore (hlist : DList next prev null before head xs) (hnodup : xs.Nodup)
    (hnext : ∀ x ∈ xs, next' x = next x) (hfirst : head ≠ null → prev' head = before')
    (hprev : ∀ x ∈ xs, x ≠ head → prev' x = prev x) : DList next' prev' null before' head xs := by
  cases xs with
  | nil => exact hlist
  | cons x xs =>
    obtain ⟨hhead, hnull, -, hrest⟩ := hlist
    subst hhead
    obtain ⟨hfresh, -⟩ := List.nodup_cons.mp hnodup
    refine ⟨rfl, hnull, hfirst hnull, ?_⟩
    rw [hnext head (List.mem_cons_self ..)]
    refine hrest.congr (fun y hy => hnext y (List.mem_cons_of_mem _ hy)) ?_
    intro y hy
    refine hprev y (List.mem_cons_of_mem _ hy) ?_
    rintro rfl
    exact hfresh hy

/-- Put a node in front. -/
theorem push {x : ν} (hlist : DList next prev null before head xs) (hnodup : xs.Nodup)
    (hx : x ≠ null) (hnextx : next' x = head) (hprevx : prev' x = before')
    (hnext : ∀ y ∈ xs, next' y = next y) (hfirst : head ≠ null → prev' head = x)
    (hprev : ∀ y ∈ xs, y ≠ head → prev' y = prev y) :
    DList next' prev' null before' x (x :: xs) := by
  refine ⟨rfl, hx, hprevx, ?_⟩
  rw [hnextx]
  exact hlist.setBefore hnodup hnext hfirst hprev

variable {x : ν} {l r : List ν} (hlist : DList next prev null before head (l ++ x :: r))

include hlist

theorem next_mem : next x = null ∨ next x ∈ r := by
  induction l generalizing before head with
  | nil =>
    obtain ⟨-, -, -, hrest⟩ := hlist
    by_cases hnull : next x = null
    · exact Or.inl hnull
    · exact Or.inr (hrest.head_mem hnull)
  | cons y l ih => exact ih hlist.2.2.2

theorem prev_mem (hl : l ≠ []) : prev x ∈ l := by
  induction l generalizing before head with
  | nil => exact absurd rfl hl
  | cons y l ih =>
    obtain ⟨-, -, -, hrest⟩ := hlist
    cases l with
    | nil =>
      obtain ⟨-, -, hprev, -⟩ := hrest
      rw [hprev]
      exact List.mem_cons_self ..
    | cons z l => exact List.mem_cons_of_mem y (ih hrest (List.cons_ne_nil z l))

/-- Take a node out: its neighbours are linked to each other. -/
theorem unlink [DecidableEq ν] (hnodup : (l ++ x :: r).Nodup)
    (hbefore : before ∉ l ++ x :: r) (hnext : ∀ y ∈ l ++ r, y ≠ prev x → next' y = next y)
    (hleft : l ≠ [] → next' (prev x) = next x) (hprev : ∀ y ∈ l ++ r, y ≠ next x → prev' y = prev y)
    (hright : next x ≠ null → prev' (next x) = prev x) :
    DList next' prev' null before (if head = x then next x else head) (l ++ r) := by
  induction l generalizing before head with
  | nil =>
    obtain ⟨hhead, -, hprevx, hrest⟩ := hlist
    obtain ⟨-, hr⟩ := List.nodup_cons.mp hnodup
    rw [if_pos hhead]
    refine hrest.setBefore hr ?_ ?_ hprev
    · intro y hy
      refine hnext y hy ?_
      rintro rfl
      exact hbefore (List.mem_cons_of_mem x (by rw [← hprevx]; exact hy))
    · intro hnull
      rw [hright hnull, hprevx]
  | cons y l ih =>
    have hnextx := hlist.next_mem
    obtain ⟨hhead, hnull, hprevy, hrest⟩ := hlist
    obtain ⟨hfresh, hnodup'⟩ := List.nodup_cons.mp hnodup
    have hyx : y ≠ x := by
      rintro rfl
      exact hfresh (List.mem_append_right l (List.mem_cons_self ..))
    have hynext : y ≠ next x := by
      intro heq
      rcases hnextx with hnone | hin
      · exact hnull (heq.trans hnone)
      · exact hfresh (List.mem_append_right l (List.mem_cons_of_mem x (heq ▸ hin)))
    -- the link of `y` moves on only if `y` stands directly before `x`
    have hnexty : next' y = if next y = x then next x else next y := by
      cases l with
      | nil =>
        obtain ⟨hy, -, hprevx, -⟩ := hrest
        rw [if_pos hy, ← hleft (List.cons_ne_nil y []), hprevx]
      | cons z l =>
        have hz : next y ≠ x := by
          rw [hrest.1]
          rintro rfl
          exact (List.nodup_cons.mp hnodup').1
            (List.mem_append_right l (List.mem_cons_self ..))
        rw [if_neg hz]
        refine hnext y (List.mem_cons_self ..) ?_
        rintro hy
        have hin := hrest.prev_mem (List.cons_ne_nil z l)
        rw [← hy] at hin
        exact hfresh (List.mem_append_left _ hin)
    rw [if_neg (by rw [hhead]; exact hyx)]
    refine ⟨hhead, hnull, ?_, ?_⟩
    · rw [hprev y (List.mem_cons_self ..) hynext, hprevy]
    · rw [hnexty]
      refine ih hrest hnodup' hfresh ?_ ?_ ?_
      · intro z hz
        exact hnext z (List.mem_cons_of_mem y hz)
      · intro hl
        exact hleft (List.cons_ne_nil y l)
      · intro z hz
        exact hprev z (List.mem_cons_of_mem y hz)

end DList

end Pristine.Lib
