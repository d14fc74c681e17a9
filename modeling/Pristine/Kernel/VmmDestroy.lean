import Pristine.Kernel.Process

/-!
# Tearing down an address space

`vmm_destroy` walks the lower half of an address space and gives back its pages
and tables, children before parents.  The order is that of `lowerPaths`, a list
of index paths that does not depend on memory; the frames it gives back are
those the paths lead to (`lowerFrames`).

`Performs` describes code that makes a list of accesses and gives back their
frames.  Every loop of `vmm_destroy` is of this kind, whatever is in memory, so
the whole of `vmm_destroy` is known by one list, `destroyTrace`.
-/

namespace Pristine.Kernel

open Lib

/-! ## Paths in the order of the walk -/

/-- Paths strictly below `q`, down `depth` levels, children before parents. -/
def pathsBelow : Nat → List (Fin 512) → List (List (Fin 512))
  | 0, _ => []
  | depth + 1, q =>
    (List.finRange 512).flatMap fun i => pathsBelow depth (q ++ [i]) ++ [q ++ [i]]

/-- The part of the walk that starts at the entries `is` of the table behind `q`. -/
def pathsFrom (depth : Nat) (q : List (Fin 512)) (is : List (Fin 512)) : List (List (Fin 512)) :=
  is.flatMap fun i => pathsBelow depth (q ++ [i]) ++ [q ++ [i]]

theorem pathsBelow_succ (depth : Nat) (q : List (Fin 512)) :
    pathsBelow (depth + 1) q = pathsFrom depth q (List.finRange 512) := rfl

theorem mem_pathsFrom_of {depth : Nat} {q p is : List (Fin 512)}
    (hbelow : ∀ i, p ∈ pathsBelow depth (q ++ [i]) ↔
      ∃ rest, p = q ++ i :: rest ∧ rest ≠ [] ∧ rest.length ≤ depth) :
    p ∈ pathsFrom depth q is ↔ ∃ i rest, i ∈ is ∧ p = q ++ i :: rest ∧ rest.length ≤ depth := by
  unfold pathsFrom
  rw [List.mem_flatMap]
  constructor
  · rintro ⟨i, hi, hp⟩
    rcases List.mem_append.mp hp with hin | hin
    · obtain ⟨rest, rfl, -, hlen⟩ := (hbelow i).mp hin
      exact ⟨i, rest, hi, rfl, hlen⟩
    · exact ⟨i, [], hi, List.mem_singleton.mp hin, Nat.zero_le _⟩
  · rintro ⟨i, rest, hi, rfl, hlen⟩
    refine ⟨i, hi, List.mem_append.mpr ?_⟩
    by_cases hrest : rest = []
    · right
      rw [hrest, List.mem_singleton]
    · exact Or.inl ((hbelow i).mpr ⟨rest, rfl, hrest, hlen⟩)

theorem mem_pathsBelow {depth : Nat} {q p : List (Fin 512)} :
    p ∈ pathsBelow depth q ↔ ∃ rest, p = q ++ rest ∧ rest ≠ [] ∧ rest.length ≤ depth := by
  induction depth generalizing q with
  | zero =>
    constructor
    · intro hp
      cases hp
    · rintro ⟨rest, -, hne, hlen⟩
      exact absurd (List.eq_nil_of_length_eq_zero (Nat.le_zero.mp hlen)) hne
  | succ depth ih =>
    rw [pathsBelow_succ, mem_pathsFrom_of (fun i => by simpa using ih (q := q ++ [i]))]
    constructor
    · rintro ⟨i, rest, -, rfl, hlen⟩
      exact ⟨i :: rest, rfl, List.cons_ne_nil _ _, by simpa using hlen⟩
    · rintro ⟨rest, rfl, hne, hlen⟩
      cases rest with
      | nil => exact absurd rfl hne
      | cons i rest => exact ⟨i, rest, List.mem_finRange i, rfl, by simpa using hlen⟩

theorem mem_pathsFrom {depth : Nat} {q p is : List (Fin 512)} :
    p ∈ pathsFrom depth q is ↔ ∃ i rest, i ∈ is ∧ p = q ++ i :: rest ∧ rest.length ≤ depth :=
  mem_pathsFrom_of fun i => by simpa using mem_pathsBelow (q := q ++ [i])

theorem nodup_pathsFrom_of {depth : Nat} {q is : List (Fin 512)} (his : is.Nodup)
    (hbelow : ∀ i, (pathsBelow depth (q ++ [i])).Nodup) : (pathsFrom depth q is).Nodup := by
  unfold pathsFrom
  rw [List.nodup_flatMap]
  constructor
  · intro i _
    rw [List.nodup_append]
    refine ⟨hbelow i, List.nodup_singleton _, ?_⟩
    rintro p hp p' hp' rfl
    obtain ⟨rest, heq, hne, -⟩ := mem_pathsBelow.mp hp
    rw [List.mem_singleton.mp hp'] at heq
    exact hne (List.self_eq_append_right.mp heq)
  · refine his.imp_of_mem ?_
    intro i j _ _ hij p hpi hpj
    -- both lists consist of extensions, by `i` and by `j`
    have hext (k : Fin 512) (hp : p ∈ pathsBelow depth (q ++ [k]) ++ [q ++ [k]]) :
        ∃ rest, p = q ++ k :: rest := by
      rcases List.mem_append.mp hp with hin | hin
      · obtain ⟨rest, rfl, -, -⟩ := mem_pathsBelow.mp hin
        exact ⟨rest, by simp⟩
      · exact ⟨[], List.mem_singleton.mp hin⟩
    obtain ⟨resti, hi⟩ := hext i hpi
    obtain ⟨restj, hj⟩ := hext j hpj
    rw [hi] at hj
    exact hij (List.cons.inj (List.append_cancel_left hj)).1

theorem nodup_pathsBelow (depth : Nat) (q : List (Fin 512)) : (pathsBelow depth q).Nodup := by
  induction depth generalizing q with
  | zero => exact List.nodup_nil
  | succ depth ih => exact nodup_pathsFrom_of (List.nodup_finRange 512) fun i => ih (q ++ [i])

/-- The root entries `vmm_destroy` looks at, in order. -/
def lowerIndices : List (Fin 512) := (List.finRange 256).map (Fin.castLE (by decide))

theorem mem_lowerIndices {i : Fin 512} : i ∈ lowerIndices ↔ LowerHalf i := by
  unfold lowerIndices LowerHalf
  rw [List.mem_map]
  constructor
  · rintro ⟨k, -, rfl⟩
    exact k.isLt
  · intro hi
    exact ⟨⟨i.val, hi⟩, List.mem_finRange _, rfl⟩

/-- All paths of the lower half, in the order of `vmm_destroy`. -/
def lowerPaths : List (List (Fin 512)) := pathsFrom 3 [] lowerIndices

theorem mem_lowerPaths {p : List (Fin 512)} :
    p ∈ lowerPaths ↔ Under LowerHalf p ∧ p.length ≤ 4 := by
  unfold lowerPaths
  rw [mem_pathsFrom]
  constructor
  · rintro ⟨i, rest, hi, rfl, hlen⟩
    exact ⟨⟨i, rest, rfl, mem_lowerIndices.mp hi⟩, Nat.succ_le_succ hlen⟩
  · rintro ⟨⟨i, rest, rfl, hi⟩, hlen⟩
    exact ⟨i, rest, mem_lowerIndices.mpr hi, rfl, Nat.le_of_succ_le_succ hlen⟩

theorem nodup_lowerPaths : lowerPaths.Nodup := by
  refine nodup_pathsFrom_of ?_ fun i => nodup_pathsBelow 3 _
  exact (List.nodup_finRange 256).map (Fin.castLE_injective (by decide))

/-- The frames behind the given paths. -/
def framesAt (mem : ByteMem) (root : Nat) (paths : List (List (Fin 512))) : List Nat :=
  paths.filterMap (tableAt mem root)

/-- The frames of the lower half, in the order of `vmm_destroy`. -/
def lowerFrames (mem : ByteMem) (root : Nat) : List Nat := framesAt mem root lowerPaths

theorem mem_lowerFrames {mem : ByteMem} {root f : Nat} :
    f ∈ lowerFrames mem root ↔
      ∃ q, Under LowerHalf q ∧ q.length ≤ 4 ∧ tableAt mem root q = some f := by
  unfold lowerFrames framesAt
  rw [List.mem_filterMap]
  constructor
  · rintro ⟨q, hq, hf⟩
    obtain ⟨hunder, hlen⟩ := mem_lowerPaths.mp hq
    exact ⟨q, hunder, hlen, hf⟩
  · rintro ⟨q, hunder, hlen, hf⟩
    exact ⟨q, mem_lowerPaths.mpr ⟨hunder, hlen⟩, hf⟩

/-! ## Giving back a list of frames -/

/-- The frames can be given back one after another. -/
structure Releasable (s : Machine) (frames : List Nat) : Prop where
  nodup : frames.Nodup
  aligned : ∀ f ∈ frames, f % pageSize = 0
  small : ∀ f ∈ frames, f / pageSize < 2 ^ 32
  used : ∀ f ∈ frames, bitAt s.pmm.bitmap (f / pageSize) = true

/-- Exactly the frames of the list were given back. -/
structure Released (frames : List Nat) (s s' : Machine) : Prop where
  mem : s'.mem = s.mem
  bits : ∀ i, bitAt s'.pmm.bitmap i = true ↔
    bitAt s.pmm.bitmap i = true ∧ i * pageSize ∉ frames

/-- In memory `mem` the code gives back the frames of the list. -/
def Releases (mem : ByteMem) (frames : List Nat) (run : KernelM Unit) : Prop :=
  ∀ s, s.mem = mem → Releasable s frames → ∃ s', run s = .ok ((), s') ∧ Released frames s s'

/-! ## What code does to the log -/

/-- The frame an access gives back. -/
def Access.freed : Access → Option Nat
  | .free f => some f
  | _ => none

/-- The frames given back by accesses, in order. -/
def freedIn (l : List Access) : List Nat := l.filterMap Access.freed

@[simp] theorem freedIn_nil : freedIn [] = [] := rfl

@[simp] theorem freedIn_append (l l' : List Access) : freedIn (l ++ l') = freedIn l ++ freedIn l' :=
  List.filterMap_append

@[simp] theorem freedIn_read (addr : Nat) (l : List Access) : freedIn (.read addr :: l) = freedIn l :=
  rfl

@[simp] theorem freedIn_write (addr : Nat) (l : List Access) : freedIn (.write addr :: l) = freedIn l :=
  rfl

@[simp] theorem freedIn_zero (f : Nat) (l : List Access) : freedIn (.zero f :: l) = freedIn l := rfl

@[simp] theorem freedIn_free (f : Nat) (l : List Access) : freedIn (.free f :: l) = f :: freedIn l := rfl

/-- In memory `mem` the code makes the accesses of the list, and gives back their frames. -/
def Performs (mem : ByteMem) (l : List Access) (run : KernelM Unit) : Prop :=
  ∀ s, s.mem = mem → Releasable s (freedIn l) →
    ∃ s', run s = .ok ((), s') ∧ Released (freedIn l) s s' ∧ s'.log = l.reverse ++ s.log

namespace Performs

variable {mem : ByteMem} {l l' : List Access} {run run' : KernelM Unit}

theorem releases (hrun : Performs mem l run) : Releases mem (freedIn l) run := by
  intro s hmem hrel
  obtain ⟨s', hcall, hdone, -⟩ := hrun s hmem hrel
  exact ⟨s', hcall, hdone⟩

theorem pure_unit : Performs mem [] (pure ()) := by
  intro s _ _
  exact ⟨s, rfl, ⟨rfl, by simp⟩, rfl⟩

theorem freePage (debug : Bool) (f : Nat) : Performs mem [.free f] (freePage debug f) := by
  intro s _ hrel
  have hin : f ∈ freedIn [.free f] := List.mem_singleton_self f
  have haligned := hrel.aligned f hin
  have hfree := pmmFree_of_set debug s.pmm (hrel.small f hin) (hrel.used f hin)
  rw [frame_eq_of_aligned haligned] at hfree
  refine ⟨_, freePage_ok_iff.mpr ⟨_, hfree, rfl⟩, ⟨rfl, fun i => ?_⟩, rfl⟩
  show bitAt (bitmapClear s.pmm.bitmap (f / pageSize)) i = true ↔ _ ∧ i * pageSize ∉ [f]
  have hiff : f / pageSize = i ↔ i * pageSize = f := by
    constructor
    · rintro rfl
      exact frame_eq_of_aligned haligned
    · rintro rfl
      exact Nat.mul_div_cancel i (by decide)
  rw [bitAt_bitmapClear, Bool.and_eq_true, Bool.not_eq_true', decide_eq_false_iff_not, hiff,
    List.mem_singleton, and_comm]

theorem readEntry_bind {table idx : Nat} {next : Nat → KernelM Unit}
    (hnext : Performs mem l (next (tableEntry mem table idx))) :
    Performs mem (.read (table + 8 * idx) :: l) (readEntry table idx >>= next) := by
  intro s hmem hrel
  obtain ⟨s', hrun, hdone, hlog⟩ := hnext
    { s with log := .read (table + 8 * idx) :: s.log } hmem
    ⟨hrel.nodup, hrel.aligned, hrel.small, hrel.used⟩
  refine ⟨s', ?_, ⟨hdone.mem, hdone.bits⟩, ?_⟩
  · rw [← hrun, ← hmem]
    rfl
  · rw [hlog, List.reverse_cons, List.append_assoc]
    rfl

theorem seq (hfirst : Performs mem l run) (hsecond : Performs mem l' run') :
    Performs mem (l ++ l') (run >>= fun _ => run') := by
  intro s hmem hrel
  rw [freedIn_append] at hrel ⊢
  obtain ⟨hfs, hgs, hdisjoint⟩ := List.nodup_append.mp hrel.nodup
  obtain ⟨t, hrun, ht, hlog⟩ := hfirst s hmem
    ⟨hfs, fun f hf => hrel.aligned f (List.mem_append_left _ hf),
      fun f hf => hrel.small f (List.mem_append_left _ hf),
      fun f hf => hrel.used f (List.mem_append_left _ hf)⟩
  obtain ⟨s', hrun', hs', hlog'⟩ := hsecond t (ht.mem.trans hmem) (by
    refine ⟨hgs, fun f hf => hrel.aligned f (List.mem_append_right _ hf),
      fun f hf => hrel.small f (List.mem_append_right _ hf), ?_⟩
    intro f hf
    refine (ht.bits _).mpr ⟨hrel.used f (List.mem_append_right _ hf), ?_⟩
    rw [frame_eq_of_aligned (hrel.aligned f (List.mem_append_right _ hf))]
    intro hin
    exact hdisjoint f hin f hf rfl)
  refine ⟨s', (bind_eq_of_ok hrun).trans hrun', ⟨hs'.mem.trans ht.mem, fun i => ?_⟩, ?_⟩
  · rw [hs'.bits, ht.bits, List.mem_append, not_or, and_assoc]
  · rw [hlog', hlog, List.reverse_append, List.append_assoc]

/-- A loop over table indices. -/
theorem forM {xs : List Nat} {is : List (Fin 512)} {body : Nat → KernelM Unit}
    {trace : Fin 512 → List Access} (hxs : is.map Fin.val = xs)
    (hbody : ∀ i ∈ is, Performs mem (trace i) (body i)) :
    Performs mem (is.flatMap trace) (xs.forM body) := by
  subst hxs
  induction is with
  | nil => exact pure_unit
  | cons i is ih =>
    rw [List.flatMap_cons]
    refine seq (hbody i (List.mem_cons_self ..)) (ih ?_)
    intro j hj
    exact hbody j (List.mem_cons_of_mem i hj)

end Performs

/-! ## The loops of `vmm_destroy` -/

/-- One loop: each entry is read, and if it is not skipped, what is below it and, after a second read,
the frame in it are given back. -/
def levelTrace (mem : ByteMem) (table : Nat) (is : List (Fin 512)) (skipped : Nat → Prop)
    [DecidablePred skipped] (below : Nat → List Access) : List Access :=
  is.flatMap fun (i : Fin 512) => .read (table + 8 * i) ::
    if skipped (tableEntry mem table i) then []
    else below (tableEntry mem table i &&& pteAddrMask) ++
      [.read (table + 8 * i), .free (tableEntry mem table i &&& pteAddrMask)]

def ptTrace (mem : ByteMem) (pt : Nat) : List Access :=
  levelTrace mem pt (List.finRange 512) (fun entry => entry = 0) fun _ => []

def pdTrace (mem : ByteMem) (pd : Nat) : List Access :=
  levelTrace mem pd (List.finRange 512) (fun entry => entry = 0 ∨ entry &&& vmmPageSizeFlag ≠ 0)
    (ptTrace mem)

def pdptTrace (mem : ByteMem) (pdpt : Nat) : List Access :=
  levelTrace mem pdpt (List.finRange 512) (fun entry => entry = 0 ∨ entry &&& vmmPageSizeFlag ≠ 0)
    (pdTrace mem)

/-- The accesses of `vmm_destroy`. -/
def destroyTrace (mem : ByteMem) (root : Nat) : List Access :=
  levelTrace mem root lowerIndices (fun entry => entry = 0) (pdptTrace mem)

section Loops

variable {mem : ByteMem} {debug : Bool}

theorem map_val_finRange : (List.finRange 512).map Fin.val = List.range 512 :=
  List.map_coe_finRange_eq_range

theorem vmmDestroyEntry_performs (table : Nat) (i : Fin 512) :
    Performs mem [.read (table + 8 * i), .free (tableEntry mem table i &&& pteAddrMask)]
      (vmmDestroyEntry debug table i) :=
  Performs.readEntry_bind (Performs.freePage debug _)

theorem vmmDestroyPt_performs (pt : Nat) : Performs mem (ptTrace mem pt) (vmmDestroyPt debug pt) := by
  refine Performs.forM map_val_finRange fun i _ => Performs.readEntry_bind ?_
  by_cases hzero : tableEntry mem pt i = 0
  · rw [if_pos hzero, if_pos hzero]
    exact Performs.pure_unit
  · rw [if_neg hzero, if_neg hzero]
    exact vmmDestroyEntry_performs pt i

/-- The body of the two middle loops. -/
theorem performs_table {table : Nat} {i : Fin 512} {below : Nat → List Access}
    {destroy : Nat → KernelM Unit} (hbelow : ∀ t, Performs mem (below t) (destroy t)) :
    Performs mem (.read (table + 8 * i) ::
        if tableEntry mem table i = 0 ∨ tableEntry mem table i &&& vmmPageSizeFlag ≠ 0 then []
        else below (tableEntry mem table i &&& pteAddrMask) ++
          [.read (table + 8 * i), .free (tableEntry mem table i &&& pteAddrMask)])
      (readEntry table i >>= fun entry =>
        if entry = 0 then pure ()
        else if entry &&& vmmPageSizeFlag ≠ 0 then pure ()
        else do
          destroy (entry &&& pteAddrMask)
          vmmDestroyEntry debug table i) := by
  refine Performs.readEntry_bind ?_
  by_cases hzero : tableEntry mem table i = 0
  · rw [if_pos (Or.inl hzero), if_pos hzero]
    exact Performs.pure_unit
  · by_cases hpage : tableEntry mem table i &&& vmmPageSizeFlag ≠ 0
    · rw [if_pos (Or.inr hpage), if_neg hzero, if_pos hpage]
      exact Performs.pure_unit
    · rw [if_neg (not_or.mpr ⟨hzero, hpage⟩), if_neg hzero, if_neg hpage]
      exact (hbelow _).seq (vmmDestroyEntry_performs table i)

theorem vmmDestroyPd_performs (pd : Nat) : Performs mem (pdTrace mem pd) (vmmDestroyPd debug pd) :=
  Performs.forM map_val_finRange fun _ _ => performs_table vmmDestroyPt_performs

theorem vmmDestroyPdpt_performs (pdpt : Nat) :
    Performs mem (pdptTrace mem pdpt) (vmmDestroyPdpt debug pdpt) :=
  Performs.forM map_val_finRange fun _ _ => performs_table vmmDestroyPd_performs

theorem vmmDestroy_performs (debug : Bool) (root : Nat) :
    Performs mem (destroyTrace mem root) (vmmDestroy debug root) := by
  have hindices : lowerIndices.map Fin.val = List.range 256 := by
    unfold lowerIndices
    rw [List.map_map]
    exact List.map_coe_finRange_eq_range
  refine Performs.forM hindices fun i _ => Performs.readEntry_bind ?_
  by_cases hzero : tableEntry mem root i = 0
  · rw [if_pos hzero, if_pos hzero]
    exact Performs.pure_unit
  · rw [if_neg hzero, if_neg hzero]
    exact (vmmDestroyPdpt_performs _).seq (vmmDestroyEntry_performs root i)

end Loops

/-! ## The frames given back -/

/-- The frame in an entry of a page table, whatever its flags. -/
def leafFrame (entry : Nat) : Option Nat :=
  if entry = 0 then none else some (entry &&& pteAddrMask)

/-- The frame behind a path: a table, or behind four indices what the page table's entry holds. -/
def frameAt (mem : ByteMem) (root : Nat) : List (Fin 512) → Option Nat
  | [a, b, c, d] => leafFrame (entryAt mem root [a, b, c] d)
  | q => tableAt mem root q

/-- Every entry above the page tables of the lower half is empty or points to a table. -/
def LowerTablesLinked (mem : ByteMem) (root : Nat) : Prop :=
  ∀ q j, Under LowerHalf (q ++ [j]) → q.length ≤ 2 →
    entryAt mem root q j = 0 ∨ ∃ f, TableLink (entryAt mem root q j) f

/-- Every entry of the lower half is empty or points to a table or page. -/
def LowerLinks (mem : ByteMem) (root : Nat) : Prop :=
  ∀ q j, Under LowerHalf (q ++ [j]) → q.length ≤ 3 →
    entryAt mem root q j = 0 ∨ ∃ f, TableLink (entryAt mem root q j) f

section Frames

variable {mem : ByteMem} {root t : Nat} {q : List (Fin 512)}

theorem under_append {H : Fin 512 → Prop} {p r : List (Fin 512)} (hp : Under H p) :
    Under H (p ++ r) := by
  obtain ⟨i, rest, rfl, hi⟩ := hp
  exact ⟨i, rest ++ r, rfl, hi⟩

theorem frameAt_table (hlen : q.length ≤ 3) : frameAt mem root q = tableAt mem root q := by
  unfold frameAt
  split
  · simp at hlen
  · rfl

theorem frameAt_page (hlen : q.length = 3) (j : Fin 512) :
    frameAt mem root (q ++ [j]) = leafFrame (entryAt mem root q j) := by
  match q, hlen with
  | [a, b, c], _ => rfl

/-- Nothing is below an empty entry. -/
theorem frameAt_below_empty {i : Fin 512} (hempty : entryAt mem root q i = 0)
    {p : List (Fin 512)} (hpre : q ++ [i] <+: p) (hp : p.length ≤ 4) : frameAt mem root p = none := by
  have hnone : childTable (entryAt mem root q i) = none := by rw [hempty, childTable_zero]
  by_cases hshort : p.length ≤ 3
  · rw [frameAt_table hshort]
    exact tableAt_below_empty hnone hpre
  · cases p using List.reverseRecOn with
    | nil => exact absurd (Nat.zero_le 3) hshort
    | append_singleton p j =>
      rw [List.length_append, List.length_singleton] at hshort hp
      rw [frameAt_page (by omega)]
      by_cases heq : q ++ [i] = p ++ [j]
      · obtain ⟨rfl, hij⟩ := List.append_inj' heq rfl
        rw [← List.singleton_inj.mp hij, hempty]
        rfl
      · have hpre' : q ++ [i] <+: p := by
          rcases List.prefix_concat_iff.mp hpre with hsame | hshorter
          · exact absurd hsame heq
          · exact hshorter
        rw [entryAt_of_none (tableAt_below_empty hnone hpre')]
        rfl

/-- One iteration of a loop gives back what is behind its entry. -/
theorem freedIn_entry {depth : Nat} {i : Fin 512} (skipped : Nat → Prop) [DecidablePred skipped]
    (below : Nat → List Access) (hlen : q.length + depth ≤ 3) (htable : tableAt mem root q = some t)
    (hskip : skipped (tableEntry mem t i) ↔ tableEntry mem t i = 0)
    (hchild : tableEntry mem t i ≠ 0 →
      frameAt mem root (q ++ [i]) = some (tableEntry mem t i &&& pteAddrMask))
    (hbelow : tableEntry mem t i ≠ 0 → freedIn (below (tableEntry mem t i &&& pteAddrMask)) =
      (pathsBelow depth (q ++ [i])).filterMap (frameAt mem root)) :
    freedIn (.read (t + 8 * i) :: if skipped (tableEntry mem t i) then []
        else below (tableEntry mem t i &&& pteAddrMask) ++
          [.read (t + 8 * i), .free (tableEntry mem t i &&& pteAddrMask)]) =
      (pathsBelow depth (q ++ [i]) ++ [q ++ [i]]).filterMap (frameAt mem root) := by
  have hentry := entryAt_of_tableAt htable i
  rw [freedIn_read, List.filterMap_append]
  by_cases hzero : tableEntry mem t i = 0
  · have hnone (p : List (Fin 512)) (hpre : q ++ [i] <+: p) (hp : p.length ≤ 4) :
        frameAt mem root p = none := frameAt_below_empty (hentry.trans hzero) hpre hp
    have hinner : (pathsBelow depth (q ++ [i])).filterMap (frameAt mem root) = [] := by
      refine List.filterMap_eq_nil_iff.mpr fun p hp => ?_
      obtain ⟨rest, rfl, -, hrest⟩ := mem_pathsBelow.mp hp
      exact hnone _ (List.prefix_append _ _) (by simp; omega)
    rw [if_pos (hskip.mpr hzero), hinner, List.filterMap_cons,
      hnone _ (List.prefix_refl _) (by simp; omega)]
    rfl
  · rw [if_neg fun hs => hzero (hskip.mp hs), freedIn_append, hbelow hzero, List.filterMap_cons,
      hchild hzero]
    rfl

/-- A loop gives back what is behind its entries. -/
theorem freedIn_level {depth : Nat} {is : List (Fin 512)} {skipped : Nat → Prop}
    [DecidablePred skipped] {below : Nat → List Access}
    (hentry : ∀ i ∈ is, freedIn (.read (t + 8 * i) :: if skipped (tableEntry mem t i) then []
        else below (tableEntry mem t i &&& pteAddrMask) ++
          [.read (t + 8 * i), .free (tableEntry mem t i &&& pteAddrMask)]) =
      (pathsBelow depth (q ++ [i]) ++ [q ++ [i]]).filterMap (frameAt mem root)) :
    freedIn (levelTrace mem t is skipped below) =
      (pathsFrom depth q is).filterMap (frameAt mem root) := by
  unfold levelTrace pathsFrom freedIn at *
  rw [List.filterMap_flatMap, List.filterMap_flatMap]
  exact List.flatMap_congr fun i hi => hentry i hi

theorem freedIn_ptTrace (hlen : q.length = 3) (htable : tableAt mem root q = some t) :
    freedIn (ptTrace mem t) = (pathsBelow 1 q).filterMap (frameAt mem root) := by
  rw [pathsBelow_succ]
  refine freedIn_level fun i _ => freedIn_entry (fun entry => entry = 0) (fun _ => []) hlen.le htable
    Iff.rfl (fun hne => ?_) fun _ => rfl
  rw [frameAt_page hlen, entryAt_of_tableAt htable]
  exact if_neg hne

/-- A table behind an entry that is not empty. -/
theorem LowerTablesLinked.link (hlinks : LowerTablesLinked mem root) {i : Fin 512}
    (hunder : Under LowerHalf (q ++ [i])) (hlen : q.length ≤ 2) (htable : tableAt mem root q = some t)
    (hne : tableEntry mem t i ≠ 0) : tableEntry mem t i &&& vmmPageSizeFlag = 0 ∧
      tableAt mem root (q ++ [i]) = some (tableEntry mem t i &&& pteAddrMask) := by
  have hentry := entryAt_of_tableAt htable i
  rcases hlinks q i hunder hlen with hzero | ⟨f, hlink⟩
  · exact absurd (hentry.symm.trans hzero) hne
  · rw [tableAt_snoc, hlink.child, ← hentry, hlink.addr]
    exact ⟨hlink.not_page, rfl⟩

/-- The loop over a table whose entries lead to tables. -/
theorem freedIn_tables (hlinks : LowerTablesLinked mem root) {depth : Nat} {is : List (Fin 512)}
    {skipped : Nat → Prop} [DecidablePred skipped] {below : Nat → List Access}
    (hunder : ∀ i ∈ is, Under LowerHalf (q ++ [i])) (hlen : q.length ≤ 2) (hdepth : q.length + depth = 3)
    (htable : tableAt mem root q = some t)
    (hskip : ∀ entry, entry &&& vmmPageSizeFlag = 0 → (skipped entry ↔ entry = 0))
    (hbelow : ∀ i ∈ is, ∀ u, tableAt mem root (q ++ [i]) = some u →
      freedIn (below u) = (pathsBelow depth (q ++ [i])).filterMap (frameAt mem root)) :
    freedIn (levelTrace mem t is skipped below) =
      (pathsFrom depth q is).filterMap (frameAt mem root) := by
  refine freedIn_level fun i hi => freedIn_entry skipped below hdepth.le htable (hskip _ ?_)
    (fun hne => ?_) fun hne => hbelow i hi _ (hlinks.link (hunder i hi) hlen htable hne).2
  · by_cases hzero : tableEntry mem t i = 0
    · rw [hzero]
      exact Nat.zero_and _
    · exact (hlinks.link (hunder i hi) hlen htable hzero).1
  · rw [frameAt_table (by simp; omega)]
    exact (hlinks.link (hunder i hi) hlen htable hne).2

theorem skipped_iff {entry : Nat} (hpage : entry &&& vmmPageSizeFlag = 0) :
    entry = 0 ∨ entry &&& vmmPageSizeFlag ≠ 0 ↔ entry = 0 := by
  simp [hpage]

theorem freedIn_pdTrace (hlinks : LowerTablesLinked mem root) (hunder : Under LowerHalf q)
    (hlen : q.length = 2) (htable : tableAt mem root q = some t) :
    freedIn (pdTrace mem t) = (pathsBelow 2 q).filterMap (frameAt mem root) := by
  rw [pathsBelow_succ]
  exact freedIn_tables hlinks (fun _ _ => under_append hunder) (by omega) (by omega) htable
    (fun _ => skipped_iff) fun i _ u hu => freedIn_ptTrace (by simp [hlen]) hu

theorem freedIn_pdptTrace (hlinks : LowerTablesLinked mem root) (hunder : Under LowerHalf q)
    (hlen : q.length = 1) (htable : tableAt mem root q = some t) :
    freedIn (pdptTrace mem t) = (pathsBelow 3 q).filterMap (frameAt mem root) := by
  rw [pathsBelow_succ]
  exact freedIn_tables hlinks (fun _ _ => under_append hunder) (by omega) (by omega) htable
    (fun _ => skipped_iff) fun i _ u hu =>
      freedIn_pdTrace hlinks (under_append hunder) (by simp [hlen]) hu

/-- `vmm_destroy` gives back what the paths of the lower half lead to. -/
theorem freedIn_destroyTrace (hlinks : LowerTablesLinked mem root) :
    freedIn (destroyTrace mem root) = lowerPaths.filterMap (frameAt mem root) := by
  have hunder (i : Fin 512) (hi : i ∈ lowerIndices) : Under LowerHalf ([] ++ [i]) :=
    ⟨i, [], rfl, mem_lowerIndices.mp hi⟩
  exact freedIn_tables hlinks (q := []) hunder (by simp) rfl (tableAt_nil mem root) (fun _ _ => Iff.rfl)
    fun i hi u hu => freedIn_pdptTrace hlinks (hunder i hi) rfl hu

theorem LowerLinks.tables (hlinks : LowerLinks mem root) : LowerTablesLinked mem root :=
  fun q j hunder hlen => hlinks q j hunder (by omega)

/-- Where the page tables have no flag that marks large pages, all frames are found as tables are. -/
theorem LowerLinks.frameAt_eq (hlinks : LowerLinks mem root) {p : List (Fin 512)} (hp : p ∈ lowerPaths) :
    frameAt mem root p = tableAt mem root p := by
  obtain ⟨hunder, hlen⟩ := mem_lowerPaths.mp hp
  by_cases hshort : p.length ≤ 3
  · exact frameAt_table hshort
  · cases p using List.reverseRecOn with
    | nil => exact absurd (Nat.zero_le 3) hshort
    | append_singleton p j =>
      rw [List.length_append, List.length_singleton] at hshort hlen
      rw [frameAt_page (by omega), tableAt_snoc]
      rcases hlinks p j hunder (by omega) with hzero | ⟨f, hlink⟩
      · rw [hzero]
        rfl
      · rw [hlink.child, leafFrame, if_neg hlink.ne_zero, hlink.addr]

theorem freedIn_destroyTrace_of_links (hlinks : LowerLinks mem root) :
    freedIn (destroyTrace mem root) = lowerFrames mem root := by
  rw [freedIn_destroyTrace hlinks.tables, lowerFrames, framesAt]
  exact List.filterMap_congr fun p hp => hlinks.frameAt_eq hp

end Frames

/-! ## Address spaces that own their pages -/

section OwnedSpace

variable {P : List (Fin 512) → Prop} {H : Fin 512 → Prop} {s : Machine} {root : Nat}

theorem under_mono {H' : Fin 512 → Prop} {q : List (Fin 512)} (hH : ∀ i, H' i → H i)
    (hq : Under H' q) : Under H q := by
  obtain ⟨i, rest, rfl, hi⟩ := hq
  exact ⟨i, rest, rfl, hH i hi⟩

theorem Owned.releasable (htracks : Tracks P H) (hlow : ∀ i, LowerHalf i → H i)
    (howned : Owned P H s root) : Releasable s (lowerFrames s.mem root) := by
  have hpath : ∀ f ∈ lowerFrames s.mem root, ∃ q, P q ∧ tableAt s.mem root q = some f := by
    intro f hf
    obtain ⟨q, hunder, hlen, ht⟩ := mem_lowerFrames.mp hf
    exact ⟨q, htracks.of_under (under_mono hlow hunder) hlen, ht⟩
  refine ⟨?_, ?_, ?_, ?_⟩
  · -- different paths lead to different frames
    refine List.pairwise_filterMap.mpr (nodup_lowerPaths.imp_of_mem ?_)
    intro p q hp hq hne f hf f' hf' heq
    obtain ⟨hpunder, hplen⟩ := mem_lowerPaths.mp hp
    obtain ⟨hqunder, hqlen⟩ := mem_lowerPaths.mp hq
    subst heq
    exact hne (howned.tree.unique p q f (htracks.of_under (under_mono hlow hpunder) hplen)
      (htracks.of_under (under_mono hlow hqunder) hqlen) hf hf')
  · intro f hf
    obtain ⟨q, hq, ht⟩ := hpath f hf
    exact howned.tree.aligned q f hq ht
  · intro f hf
    obtain ⟨q, hq, ht⟩ := hpath f hf
    exact howned.tree.small q f hq ht
  · intro f hf
    obtain ⟨q, hq, ht⟩ := hpath f hf
    exact howned.tree.used q f hq ht

end OwnedSpace

end Pristine.Kernel
