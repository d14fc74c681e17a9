import Pristine.Kernel.SlabHeap
import Pristine.Lib.Run

/-!
# Allocation and release of kernel objects

Runs of `kmalloc` and `kfree`, with clients that write to their objects in
between.  In every state of a run the live objects are aligned, lie behind the
header of a mapped slab page, and do not overlap (`kmalloc_safe`).

The invariant ties the live objects to the slab heap: an object of a slab is live
or on the slab's free list, and never both.
-/

namespace Pristine.Kernel

open Function Lib Relation

/-! ## Runs -/

/-- A live object: what `kmalloc` returned, for which request, from which bin. -/
structure Allocation where
  addr : Nat
  numBytes : Nat
  bin : BinIdx
  deriving DecidableEq

/-- The byte belongs to the object. -/
def Allocation.Covers (o : Allocation) (a : Nat) : Prop :=
  o.addr ≤ a ∧ a < o.addr + objectSize o.bin

/-- The allocator and the objects its clients hold. -/
structure KmallocRun (κ : Type) where
  state : SlabState κ
  live : List Allocation

/-- The static data before the first call. -/
structure KmallocRun.Initial {κ : Type} (r : KmallocRun κ) : Prop where
  free : ∀ b, r.state.freeSlabs b = 0
  full : ∀ b, r.state.fullSlabs b = 0
  top : r.state.slabTop = 0
  live : r.live = []

/-- What can happen: a request of 1 to 1024 bytes, the release of a live object, or
writes that leave slab pages outside the live objects alone. -/
inductive KmallocStep {κ : Type} (ops : PageOps κ) (Mapped : κ → Nat → Prop) (debug : Bool) :
    KmallocRun κ → KmallocRun κ → Prop
  | kmalloc {r : KmallocRun κ} {numBytes addr : Nat} {b : BinIdx} {s' : SlabState κ}
      (hpos : 1 ≤ numBytes) (hmax : numBytes ≤ 1024) (hbin : kmallocBin numBytes = some b)
      (hcall : kmalloc ops debug numBytes r.state = .ok (addr, s')) :
      KmallocStep ops Mapped debug r ⟨s', ⟨addr, numBytes, b⟩ :: r.live⟩
  | kfree {r : KmallocRun κ} {o : Allocation} {s' : SlabState κ} (hlive : o ∈ r.live)
      (hcall : kfree ops debug o.addr r.state = .ok s') :
      KmallocStep ops Mapped debug r ⟨s', r.live.erase o⟩
  | write {r : KmallocRun κ} {mem' : ByteMem}
      (hsame : ∀ a page, Mapped r.state.pages page → page ≤ a → a < page + pageSize →
        (∀ o ∈ r.live, ¬ o.Covers a) → mem' a = r.state.mem a) :
      KmallocStep ops Mapped debug r ⟨{ r.state with mem := mem' }, r.live⟩

/-- What clients rely on. -/
structure KmallocContract {κ : Type} (Mapped : κ → Nat → Prop) (r : KmallocRun κ) : Prop where
  aligned : ∀ o ∈ r.live, o.addr % 8 = 0
  fits : ∀ o ∈ r.live, o.numBytes ≤ objectSize o.bin
  /-- inside one slab page, behind its header -/
  inside : ∀ o ∈ r.live, ∃ slab, slab % pageSize = 0 ∧ Mapped r.state.pages slab ∧
    slab + sizeofSlabHeader ≤ o.addr ∧ o.addr + objectSize o.bin ≤ slab + pageSize
  /-- no two live objects overlap, so that none is handed out twice -/
  disjoint : r.live.Pairwise fun o o' =>
    o.addr + objectSize o.bin ≤ o'.addr ∨ o'.addr + objectSize o'.bin ≤ o.addr

/-! ## The invariant -/

/-- Slabs with free objects are on the free list, full ones on the full list. -/
structure Slabs.Sorted (g : Slabs) : Prop where
  free : ∀ b x, x ∈ g.free b → g.objs x ≠ []
  full : ∀ b x, x ∈ g.full b → g.objs x = []

structure KmallocInv {κ : Type} (Mapped : κ → Nat → Prop) (r : KmallocRun κ) (g : Slabs) :
    Prop where
  heap : SlabHeap Mapped r.state g
  sorted : g.Sorted
  fits : ∀ o ∈ r.live, o.numBytes ≤ objectSize o.bin
  live : ∀ o ∈ r.live, ∃ x ∈ g.all o.bin, o.addr ∈ objects o.bin x ∧ o.addr ∉ g.objs x
  complete : ∀ b x a, x ∈ g.all b → a ∈ objects b x → a ∉ g.objs x →
    ∃ o ∈ r.live, o.addr = a ∧ o.bin = b
  nodup : (r.live.map Allocation.addr).Nodup

section Inv

variable {κ : Type} {Mapped : κ → Nat → Prop} {r : KmallocRun κ} {g : Slabs}

/-- An object belongs to one slab. -/
theorem SlabHeap.same_slab {s : SlabState κ} (hheap : SlabHeap Mapped s g) {b c : BinIdx}
    {x y a : Nat} (hx : x ∈ g.all b) (hy : y ∈ g.all c) (hax : a ∈ objects b x)
    (hay : a ∈ objects c y) : x = y ∧ b = c := by
  have hokx := hheap.ok b x hx
  have hoky := hheap.ok c y hy
  have hxy : x = y := by
    rw [← object_slab hokx.aligned hokx.top hax, ← object_slab hoky.aligned hoky.top hay]
  subst hxy
  exact ⟨rfl, hheap.owner b c x hx hy⟩

theorem KmallocInv.contract (hinv : KmallocInv Mapped r g) : KmallocContract Mapped r := by
  refine ⟨?_, hinv.fits, ?_, ?_⟩
  · intro o ho
    obtain ⟨x, hx, haddr, -⟩ := hinv.live o ho
    exact object_aligned (hinv.heap.aligned hx) haddr
  · intro o ho
    obtain ⟨x, hx, haddr, -⟩ := hinv.live o ho
    exact ⟨x, hinv.heap.aligned hx, hinv.heap.mapped _ x hx, object_inside haddr⟩
  · have hpairs := List.pairwise_map.mp hinv.nodup
    refine hpairs.imp_of_mem ?_
    intro o o' ho ho' hne
    obtain ⟨x, hx, haddr, -⟩ := hinv.live o ho
    obtain ⟨y, hy, haddr', -⟩ := hinv.live o' ho'
    by_cases hxy : x = y
    · -- in one slab objects are apart
      subst hxy
      have hbin := hinv.heap.owner _ _ x hx hy
      rw [← hbin] at haddr' ⊢
      exact objects_apart haddr haddr' hne
    · -- objects of different slabs are on different pages
      have hpx := hinv.heap.aligned hx
      have hpy := hinv.heap.aligned hy
      obtain ⟨hlow, hhigh⟩ := object_inside haddr
      obtain ⟨hlow', hhigh'⟩ := object_inside haddr'
      unfold sizeofSlabHeader pageSize at *
      omega

theorem kmallocInv_initial (hinit : r.Initial) :
    KmallocInv Mapped r ⟨fun _ => [], fun _ => [], fun _ => [], fun _ => 0⟩ := by
  have hheap : SlabHeap Mapped r.state ⟨fun _ => [], fun _ => [], fun _ => [], fun _ => 0⟩ := by
    refine ⟨hinit.free, hinit.full, fun _ => List.nodup_nil, nofun, nofun, nofun, nofun, nofun, ?_, ?_⟩
    · rw [hinit.top]
      rfl
    · rw [hinit.top]
      decide
  refine ⟨hheap, ⟨nofun, nofun⟩, ?_, ?_, nofun, ?_⟩
  · rw [hinit.live]
    exact nofun
  · rw [hinit.live]
    exact nofun
  · rw [hinit.live]
    exact List.nodup_nil

/-! ## `kmalloc` -/

section Inv

variable (hinv : KmallocInv Mapped r g)

include hinv

/-- A new slab has no live objects. -/
theorem KmallocInv.add {b : BinIdx} {slab phys : Nat} {s' : SlabState κ}
    (hnew : ∀ c, slab ∉ g.all c) (hheap : SlabHeap Mapped s' (g.add b slab phys)) :
    KmallocInv Mapped ⟨s', r.live⟩ (g.add b slab phys) := by
  have hobjs (c : BinIdx) (x : Nat) (hx : x ∈ g.all c) : (g.add b slab phys).objs x = g.objs x := by
    have hne : x ≠ slab := by
      rintro rfl
      exact hnew c hx
    simp [Slabs.add, Slabs.setObjs, Slabs.relist, hne]
  have hown : (g.add b slab phys).objs slab = objects b slab := by
    simp [Slabs.add, Slabs.setObjs]
  refine ⟨hheap, ⟨?_, ?_⟩, hinv.fits, ?_, ?_, hinv.nodup⟩
  · intro c x hx
    rcases Slabs.mem_all_add.mp (List.mem_append_left _ hx) with ⟨rfl, rfl⟩ | hold
    · rw [hown, ← List.length_pos_iff_ne_nil, length_objects]
      have hmax := (maxObjects_bounds c).1
      omega
    · rw [hobjs c x hold]
      refine hinv.sorted.free c x ?_
      have hne : x ≠ slab := by
        rintro rfl
        exact hnew c hold
      by_cases hcb : c = b
      · subst hcb
        simpa [Slabs.add, Slabs.setObjs, Slabs.relist, hne] using hx
      · simpa [Slabs.add, Slabs.setObjs, Slabs.relist, hcb] using hx
  · intro c x hx
    have hfull : x ∈ g.full c := by
      simpa [Slabs.add, Slabs.setObjs, Slabs.relist] using hx
    rw [hobjs c x (List.mem_append_right _ hfull)]
    exact hinv.sorted.full c x hfull
  · intro o ho
    obtain ⟨x, hx, haddr, hnot⟩ := hinv.live o ho
    refine ⟨x, Slabs.mem_all_add.mpr (Or.inr hx), haddr, ?_⟩
    rw [hobjs _ x hx]
    exact hnot
  · intro c x a hx haddr hnot
    rcases Slabs.mem_all_add.mp hx with ⟨rfl, rfl⟩ | hold
    · exact absurd haddr (hown ▸ hnot)
    · rw [hobjs c x hold] at hnot
      exact hinv.complete c x a hold haddr hnot

/-- An object that is free is not live. -/
theorem KmallocInv.free_not_live {b : BinIdx} {slab a : Nat} (hslab : slab ∈ g.all b)
    (ha : a ∈ objects b slab) (hfree : a ∈ g.objs slab) : a ∉ r.live.map Allocation.addr := by
  intro hin
  obtain ⟨o, ho, rfl⟩ := List.mem_map.mp hin
  obtain ⟨x, hx, haddr, hnot⟩ := hinv.live o ho
  obtain ⟨rfl, -⟩ := hinv.heap.same_slab hx hslab haddr ha
  exact hnot hfree

/-- The object that `popObject` returns becomes live. -/
theorem KmallocInv.pop {b : BinIdx} {slab a numBytes : Nat} {rest : List Nat} {s' : SlabState κ}
    {g' : Slabs} (hslab : slab ∈ g.all b) (hobjs : g.objs slab = a :: rest)
    (hfits : numBytes ≤ objectSize b) (hheap : SlabHeap Mapped s' g') (hsorted : g'.Sorted)
    (hall : ∀ c x, x ∈ g'.all c ↔ x ∈ g.all c) (hobjs' : g'.objs = update g.objs slab rest)
    : KmallocInv Mapped ⟨s', ⟨a, numBytes, b⟩ :: r.live⟩ g' := by
  have hok := hinv.heap.ok b slab hslab
  have ha : a ∈ objects b slab := hok.subset a (hobjs ▸ List.mem_cons_self ..)
  have hself : g'.objs slab = rest := by rw [hobjs', update_self]
  have hother (x : Nat) (hx : x ≠ slab) : g'.objs x = g.objs x := by
    rw [hobjs', update_of_ne hx]
  refine ⟨hheap, hsorted, ?_, ?_, ?_, ?_⟩
  · intro o ho
    rcases List.mem_cons.mp ho with rfl | hold
    · exact hfits
    · exact hinv.fits o hold
  · intro o ho
    rcases List.mem_cons.mp ho with rfl | hold
    · have hnodup := hok.nodup
      rw [hobjs] at hnodup
      exact ⟨slab, (hall b slab).mpr hslab, ha, hself ▸ (List.nodup_cons.mp hnodup).1⟩
    · obtain ⟨x, hx, haddr, hnot⟩ := hinv.live o hold
      refine ⟨x, (hall _ x).mpr hx, haddr, ?_⟩
      by_cases hxs : x = slab
      · subst hxs
        rw [hobjs] at hnot
        rw [hself]
        exact fun hin => hnot (List.mem_cons_of_mem a hin)
      · rw [hother x hxs]
        exact hnot
  · intro c x p hx hp hnot
    have hx := (hall c x).mp hx
    by_cases hxs : x = slab
    · subst hxs
      obtain rfl := hinv.heap.owner c b x hx hslab
      by_cases hpa : p = a
      · subst hpa
        exact ⟨_, List.mem_cons_self .., rfl, rfl⟩
      · rw [hself] at hnot
        have hold : p ∉ g.objs x := by
          rw [hobjs, List.mem_cons]
          exact fun h => h.elim hpa hnot
        obtain ⟨o, ho, haddr⟩ := hinv.complete c x p hx hp hold
        exact ⟨o, List.mem_cons_of_mem _ ho, haddr⟩
    · rw [hother x hxs] at hnot
      obtain ⟨o, ho, haddr⟩ := hinv.complete c x p hx hp hnot
      exact ⟨o, List.mem_cons_of_mem _ ho, haddr⟩
  · refine List.nodup_cons.mpr ⟨?_, hinv.nodup⟩
    exact hinv.free_not_live hslab ha (hobjs ▸ List.mem_cons_self ..)

/-- Sortedness after the objects of one slab and the lists of its bin have changed. -/
theorem KmallocInv.sorted_move {b : BinIdx} {slab : Nat} (hslab : slab ∈ g.all b)
    {objs free full : List Nat} (hfree : ∀ x ∈ free, if x = slab then objs ≠ [] else x ∈ g.free b)
    (hfull : ∀ x ∈ full, if x = slab then objs = [] else x ∈ g.full b) :
    ((g.setObjs slab objs).relist b free full).Sorted := by
  have hother (c : BinIdx) (x : Nat) (hcb : c ≠ b) (hx : x ∈ g.all c) :
      (g.setObjs slab objs).objs x = g.objs x := by
    refine update_of_ne ?_ ..
    rintro rfl
    exact hcb (hinv.heap.owner c b x hx hslab)
  refine ⟨?_, ?_⟩
  · intro c x hx
    by_cases hcb : c = b
    · subst hcb
      have hx : x ∈ free := by simpa [Slabs.relist] using hx
      have hcase := hfree x hx
      by_cases hxs : x = slab
      · simpa [Slabs.relist, Slabs.setObjs, hxs] using hcase
      · rw [if_neg hxs] at hcase
        simpa [Slabs.relist, Slabs.setObjs, hxs] using hinv.sorted.free c x hcase
    · have hx : x ∈ g.free c := by simpa [Slabs.relist, Slabs.setObjs, hcb] using hx
      show (g.setObjs slab objs).objs x ≠ []
      rw [hother c x hcb (List.mem_append_left _ hx)]
      exact hinv.sorted.free c x hx
  · intro c x hx
    by_cases hcb : c = b
    · subst hcb
      have hx : x ∈ full := by simpa [Slabs.relist] using hx
      have hcase := hfull x hx
      by_cases hxs : x = slab
      · simpa [Slabs.relist, Slabs.setObjs, hxs] using hcase
      · rw [if_neg hxs] at hcase
        simpa [Slabs.relist, Slabs.setObjs, hxs] using hinv.sorted.full c x hcase
    · have hx : x ∈ g.full c := by simpa [Slabs.relist, Slabs.setObjs, hcb] using hx
      show (g.setObjs slab objs).objs x = []
      rw [hother c x hcb (List.mem_append_right _ hx)]
      exact hinv.sorted.full c x hx

/-- The same when no slab has changed its list. -/
theorem KmallocInv.sorted_setObjs {b : BinIdx} {slab : Nat} (hslab : slab ∈ g.free b)
    {objs : List Nat} (hne : objs ≠ []) : (g.setObjs slab objs).Sorted := by
  have hsame : (g.setObjs slab objs).relist b (g.free b) (g.full b) = g.setObjs slab objs := by
    simp [Slabs.relist, Slabs.setObjs]
  rw [← hsame]
  have hnodup := List.nodup_append.mp (hinv.heap.nodup b)
  refine hinv.sorted_move (List.mem_append_left _ hslab) ?_ ?_
  · intro x hx
    split
    · exact hne
    · exact hx
  · intro x hx
    rw [if_neg]
    · exact hx
    · rintro rfl
      exact hnodup.2.2 x hslab x hx rfl

/-- Taking an object from the first free slab of a bin.  It lies in that slab, and the slabs stay the
same. -/
theorem takeObject_slabs {b : BinIdx} {numBytes : Nat} (hsome : r.state.freeSlabs b ≠ 0)
    (hfits : numBytes ≤ objectSize b) :
    ∃ g', KmallocInv Mapped
        ⟨(takeObject b r.state).2, ⟨(takeObject b r.state).1, numBytes, b⟩ :: r.live⟩ g' ∧
      (takeObject b r.state).1 ∈ objects b (r.state.freeSlabs b) ∧
      (∀ c x, x ∈ g'.all c ↔ x ∈ g.all c) ∧ g'.phys = g.phys := by
  obtain ⟨rest, hfree⟩ := hinv.heap.free_cons hsome
  obtain ⟨slab, hslabEq⟩ : ∃ slab, r.state.freeSlabs b = slab := ⟨_, rfl⟩
  rw [hslabEq] at hfree
  have hmem : slab ∈ g.free b := hfree ▸ List.mem_cons_self ..
  have hslab : slab ∈ g.all b := List.mem_append_left _ hmem
  obtain ⟨a, objs, hobjs⟩ := List.exists_cons_of_ne_nil (hinv.sorted.free b slab hmem)
  obtain ⟨haddr, hheap⟩ := popObject_heap hinv.heap hslab hobjs
  have hcount := (hheap.ok b slab hslab).count
  have hself : (g.setObjs slab objs).objs slab = objs := update_self ..
  rw [hself] at hcount
  have hobject : a ∈ objects b slab :=
    (hinv.heap.ok b slab hslab).subset a (hobjs ▸ List.mem_cons_self ..)
  unfold takeObject
  dsimp only
  rw [hslabEq, haddr]
  by_cases hfull : slabField .countObjects (popObject slab r.state).2.mem slab = maxObjects b
  · -- the last object was taken: the slab goes to the full slabs
    have hnil : objs = [] := List.length_eq_zero_iff.mp (by omega)
    rw [if_pos hfull]
    have hnodup := hinv.heap.nodup b
    have hall : slab :: (rest ++ g.full b) = g.all b := by
      rw [Slabs.all, hfree]
      rfl
    rw [← hall] at hnodup
    have hsame (c : BinIdx) (x : Nat) :
        x ∈ ((g.setObjs slab objs).relist b rest (slab :: (g.setObjs slab objs).full b)).all c ↔
          x ∈ g.all c := by
      rw [Slabs.all_relist]
      split
      · rename_i hcb
        rw [hcb, ← hall]
        exact List.perm_middle.mem_iff
      · exact Iff.rfl
    refine ⟨_, hinv.pop hslab hobjs hfits (retireSlab_heap hheap hfree) ?_ hsame rfl, hobject,
      hsame, rfl⟩
    refine hinv.sorted_move hslab ?_ ?_
    · intro x hx
      rw [if_neg]
      · rw [hfree]
        exact List.mem_cons_of_mem slab hx
      · rintro rfl
        exact (List.nodup_cons.mp hnodup).1 (List.mem_append_left _ hx)
    · intro x hx
      split
      · exact hnil
      · rename_i hne
        exact (List.mem_cons.mp hx).resolve_left hne
  · rw [if_neg hfull]
    have hne : objs ≠ [] := by
      rintro rfl
      exact hfull hcount
    exact ⟨_, hinv.pop hslab hobjs hfits hheap (hinv.sorted_setObjs hmem hne)
      (fun _ _ => Iff.rfl) rfl, hobject, fun _ _ => Iff.rfl, rfl⟩

end Inv

/-- The bin of a request holds objects of at least that size. -/
theorem kmallocBin_fits {numBytes : Nat} {b : BinIdx} (hbin : kmallocBin numBytes = some b) :
    numBytes ≤ objectSize b := by
  obtain ⟨c, hfind, rfl⟩ := Option.map_eq_some_iff.mp hbin
  have hle : numBytes ≤ c.1 := by simpa using List.find?_some hfind
  have hcases : ∀ c ∈ kmallocCases, c.1 = objectSize c.2 := by decide
  rw [← hcases c (List.mem_of_find?_eq_some hfind)]
  exact hle

/-- The steps of `bin_alloc`. -/
theorem binAlloc_ok_inv {ops : PageOps κ} {debug : Bool} {b : BinIdx} {addr : Nat}
    {s s' : SlabState κ} (hcall : binAlloc ops debug b s = .ok (addr, s')) :
    ∃ s1, (s.freeSlabs b = 0 ∧ newSlab ops b s = .ok s1 ∨ s.freeSlabs b ≠ 0 ∧ s1 = s) ∧
      takeObject b s1 = (addr, s') := by
  unfold binAlloc at hcall
  by_cases hdebug : debug ∧ slabVirtEnd - pageSize ≤ s.slabTop
  · rw [if_pos hdebug] at hcall
    cases hcall
  · rw [if_neg hdebug] at hcall
    by_cases hempty : s.freeSlabs b = 0
    · rw [if_pos hempty] at hcall
      cases hnew : newSlab ops b s with
      | error panic =>
        rw [hnew] at hcall
        cases hcall
      | ok s1 =>
        rw [hnew] at hcall
        exact ⟨s1, Or.inl ⟨hempty, rfl⟩, Except.ok.inj hcall⟩
    · rw [if_neg hempty] at hcall
      exact ⟨s, Or.inr ⟨hempty, rfl⟩, Except.ok.inj hcall⟩

/-- What `kmalloc` asks of the page level: no slab gets the last page of the address space. -/
structure SlabPages (ops : PageOps κ) (Mapped : κ → Nat → Prop) : Prop
    extends TracksPages ops Mapped where
  space : ∀ k phys virt k', slabVirtStart ≤ virt → ops.vmmMap phys virt k = .ok k' →
    virt + pageSize < 2 ^ 64

theorem binAlloc_inv {ops : PageOps κ} {debug : Bool} (hpages : SlabPages ops Mapped)
    (hinv : KmallocInv Mapped r g) {b : BinIdx} {numBytes addr : Nat} {s' : SlabState κ}
    (hfits : numBytes ≤ objectSize b) (hcall : binAlloc ops debug b r.state = .ok (addr, s')) :
    ∃ g', KmallocInv Mapped ⟨s', ⟨addr, numBytes, b⟩ :: r.live⟩ g' := by
  obtain ⟨s1, hslab, htake⟩ := binAlloc_ok_inv hcall
  have hfirst : ∃ g1, KmallocInv Mapped ⟨s1, r.live⟩ g1 ∧ s1.freeSlabs b ≠ 0 := by
    rcases hslab with ⟨hempty, hnew⟩ | ⟨hsome, rfl⟩
    · obtain ⟨phys, k, k', -, hmap, -⟩ := newSlab_ok_inv hnew
      rw [Nat.mod_eq_of_lt hinv.heap.space] at hmap
      obtain ⟨hunused, hheap⟩ := newSlab_heap hpages.toTracksPages hinv.heap
        (fun _ => hpages.space k phys _ k' (Nat.le_add_right _ _) hmap) hempty hnew
      refine ⟨_, hinv.add hunused hheap, ?_⟩
      rw [ne_eq, DList.head_eq_null_iff (hheap.freeList b)]
      simp [Slabs.add, Slabs.setObjs, Slabs.relist]
    · exact ⟨g, hinv, hsome⟩
  obtain ⟨g1, hinv1, hsome⟩ := hfirst
  obtain ⟨g', hlast, -⟩ := takeObject_slabs hinv1 hsome hfits
  rw [htake] at hlast
  exact ⟨g', hlast⟩

theorem takeObject_pages (b : BinIdx) (s : SlabState κ) : (takeObject b s).2.pages = s.pages := by
  unfold takeObject
  dsimp only
  split <;> rfl

/-! ## `kfree` -/

/-- The slab an object lies in. -/
def slabOf (addr : Nat) : Nat := addr &&& (2 ^ 64 - pageSize)

theorem returnObject_pages (b : BinIdx) (slab addr : Nat) (s : SlabState κ) :
    (returnObject b slab addr s).pages = s.pages := by
  unfold returnObject
  dsimp only
  split <;> rfl

/-- The object given back is no longer live. -/
theorem KmallocInv.push (hinv : KmallocInv Mapped r g) {o : Allocation} (ho : o ∈ r.live)
    {slab : Nat} {s' : SlabState κ} {g' : Slabs} (hslab : slab ∈ g.all o.bin)
    (hobj : o.addr ∈ objects o.bin slab) (hheap : SlabHeap Mapped s' g') (hsorted : g'.Sorted)
    (hall : ∀ c x, x ∈ g'.all c ↔ x ∈ g.all c)
    (hobjs' : g'.objs = update g.objs slab (o.addr :: g.objs slab)) :
    KmallocInv Mapped ⟨s', r.live.erase o⟩ g' := by
  have hself : g'.objs slab = o.addr :: g.objs slab := by rw [hobjs', update_self]
  have hother (x : Nat) (hx : x ≠ slab) : g'.objs x = g.objs x := by
    rw [hobjs', update_of_ne hx]
  have hnodup : r.live.Nodup := List.Nodup.of_map _ hinv.nodup
  refine ⟨hheap, hsorted, ?_, ?_, ?_, ?_⟩
  · intro p hp
    exact hinv.fits p (List.mem_of_mem_erase hp)
  · intro p hp
    obtain ⟨hne, hlive⟩ := hnodup.mem_erase_iff.mp hp
    obtain ⟨x, hx, haddr, hnot⟩ := hinv.live p hlive
    refine ⟨x, (hall _ x).mpr hx, haddr, ?_⟩
    by_cases hxs : x = slab
    · subst hxs
      rw [hself, List.mem_cons]
      rintro (heq | hin)
      · exact hne (List.inj_on_of_nodup_map hinv.nodup hlive ho heq)
      · exact hnot hin
    · rw [hother x hxs]
      exact hnot
  · intro c x p hx hp hnot
    have hx := (hall c x).mp hx
    have hold : p ∉ g.objs x ∧ p ≠ o.addr := by
      by_cases hxs : x = slab
      · subst hxs
        rw [hself, List.mem_cons, not_or] at hnot
        exact ⟨hnot.2, hnot.1⟩
      · rw [hother x hxs] at hnot
        refine ⟨hnot, ?_⟩
        rintro rfl
        exact hxs (hinv.heap.same_slab hx hslab hp hobj).1
    obtain ⟨q, hq, rfl, hbin⟩ := hinv.complete c x p hx hp hold.1
    refine ⟨q, hnodup.mem_erase_iff.mpr ⟨?_, hq⟩, rfl, hbin⟩
    rintro rfl
    exact hold.2 rfl
  · exact hinv.nodup.sublist (List.erase_sublist.map _)

/-- Without one of its free slabs a bin has its other slabs. -/
theorem SlabHeap.mem_all_without {s : SlabState κ} (hheap : SlabHeap Mapped s g) {b : BinIdx}
    {slab : Nat} {left right : List Nat} (hsplit : g.free b = left ++ slab :: right) (c : BinIdx)
    (x : Nat) : x ∈ (g.relist b (left ++ right) (g.full b)).all c ↔ x ∈ g.all c ∧ x ≠ slab := by
  have hin : slab ∈ g.all b := by
    rw [Slabs.all, hsplit]
    simp
  have hnodup := hheap.nodup b
  rw [Slabs.all, hsplit, List.append_assoc, List.cons_append] at hnodup
  have hapart := (List.nodup_cons.mp (List.perm_middle.nodup_iff.mp hnodup)).1
  rw [Slabs.all_relist]
  split
  · rename_i hcb
    rw [hcb, Slabs.all, hsplit, List.append_assoc]
    constructor
    · intro hx
      refine ⟨?_, fun heq => hapart (heq ▸ hx)⟩
      simp only [List.mem_append, List.mem_cons] at hx ⊢
      tauto
    · rintro ⟨hx, hne⟩
      simp only [List.mem_append, List.mem_cons] at hx ⊢
      tauto
  · rename_i hcb
    exact ⟨fun hx => ⟨hx, fun heq => hcb (hheap.owner c b x hx (heq ▸ hin))⟩, fun h => h.1⟩

/-- A slab all of whose objects are free can go. -/
theorem KmallocInv.drop (hinv : KmallocInv Mapped r g) {b : BinIdx} {slab : Nat}
    {left right : List Nat} {s' : SlabState κ} (hfree : g.free b = left ++ slab :: right)
    (hempty : ∀ a ∈ objects b slab, a ∈ g.objs slab)
    (hheap : SlabHeap Mapped s' (g.relist b (left ++ right) (g.full b))) :
    KmallocInv Mapped ⟨s', r.live⟩ (g.relist b (left ++ right) (g.full b)) := by
  have hsub (x : Nat) (hx : x ∈ left ++ right) : x ∈ g.free b := by
    rw [hfree]
    exact (List.sublist_cons_self slab right |>.append_left left).subset hx
  have hwithout := hinv.heap.mem_all_without hfree
  refine ⟨hheap, ⟨?_, ?_⟩, hinv.fits, ?_, ?_, hinv.nodup⟩
  · intro c x hx
    refine hinv.sorted.free c x ?_
    by_cases hcb : c = b
    · subst hcb
      exact hsub x (by simpa [Slabs.relist] using hx)
    · simpa [Slabs.relist, hcb] using hx
  · intro c x hx
    exact hinv.sorted.full c x (by simpa [Slabs.relist] using hx)
  · intro o ho
    obtain ⟨x, hx, haddr, hnot⟩ := hinv.live o ho
    refine ⟨x, (hwithout _ x).mpr ⟨hx, ?_⟩, haddr, hnot⟩
    rintro rfl
    have hin : x ∈ g.all b := by
      rw [Slabs.all, hfree]
      simp
    rw [hinv.heap.owner _ b x hx hin] at haddr
    exact hnot (hempty _ haddr)
  · intro c x a hx
    exact hinv.complete c x a ((hwithout c x).mp hx).1

/-- The steps of `bin_free` for an object of a slab. -/
theorem binFree_ok_inv {ops : PageOps κ} {debug : Bool} {b : BinIdx} {slab addr : Nat}
    {s s' : SlabState κ} (hslab : addr &&& (2 ^ 64 - pageSize) = slab)
    (hbin : slabField .bin s.mem slab = b) (hcall : binFree ops debug addr s = .ok s') :
    slabField .countObjects (returnObject b slab addr s).mem slab = 0 ∧
        releaseSlab ops b slab (returnObject b slab addr s) = .ok s' ∨
      slabField .countObjects (returnObject b slab addr s).mem slab ≠ 0 ∧
        s' = returnObject b slab addr s := by
  have hlt : slabField .bin s.mem slab < 24 := by
    rw [hbin]
    exact b.isLt
  have hb : (⟨slabField .bin s.mem slab, hlt⟩ : BinIdx) = b := Fin.ext hbin
  unfold binFree at hcall
  rw [hslab] at hcall
  by_cases hdebug : debug ∧ (addr < slabVirtStart ∨ slabVirtEnd < addr)
  · rw [if_pos hdebug] at hcall
    cases hcall
  · rw [if_neg hdebug] at hcall
    rw [dif_pos hlt, hb] at hcall
    by_cases hzero : slabField .countObjects (returnObject b slab addr s).mem slab = 0
    · rw [if_pos hzero] at hcall
      exact Or.inl ⟨hzero, hcall⟩
    · rw [if_neg hzero] at hcall
      exact Or.inr ⟨hzero, (Except.ok.inj hcall).symm⟩

/-- `bin_free` panics unless the header names a bin. -/
theorem binFree_bin_lt {ops : PageOps κ} {debug : Bool} {addr : Nat} {s s' : SlabState κ}
    (hcall : binFree ops debug addr s = .ok s') : slabField .bin s.mem (slabOf addr) < 24 := by
  by_contra hbin
  have hslab : addr &&& (2 ^ 64 - pageSize) = slabOf addr := rfl
  unfold binFree at hcall
  rw [hslab] at hcall
  split at hcall
  · cases hcall
  · dsimp only at hcall
    rw [dif_neg hbin] at hcall
    cases hcall

/-- The steps of the release of a slab. -/
theorem releaseSlab_ok_inv {ops : PageOps κ} {b : BinIdx} {slab : Nat} {s s' : SlabState κ}
    (hcall : releaseSlab ops b slab s = .ok s') :
    ∃ k k', ops.pmmFree (slabField .phys (dropSlab b slab s).mem slab) s.pages = .ok k ∧
      ops.vmmUnmap slab k = .ok k' ∧ s' = { dropSlab b slab s with pages := k' } := by
  change (ops.pmmFree (slabField .phys (dropSlab b slab s).mem slab) s.pages >>= _) = _ at hcall
  cases hfree : ops.pmmFree (slabField .phys (dropSlab b slab s).mem slab) s.pages with
  | error panic =>
    rw [hfree] at hcall
    cases hcall
  | ok k =>
    rw [hfree] at hcall
    change (ops.vmmUnmap slab k >>= _) = _ at hcall
    cases hunmap : ops.vmmUnmap slab k with
    | error panic =>
      rw [hunmap] at hcall
      cases hcall
    | ok k' =>
      rw [hunmap] at hcall
      exact ⟨k, k', rfl, hunmap, (Except.ok.inj hcall).symm⟩

/-- Giving an object back.  Its slab has a free object now and is with the free slabs; the slabs stay
the same. -/
theorem returnObject_slabs (hinv : KmallocInv Mapped r g) {o : Allocation} (ho : o ∈ r.live)
    {slab : Nat} (hslab : slab ∈ g.all o.bin) (hobj : o.addr ∈ objects o.bin slab)
    (hnot : o.addr ∉ g.objs slab) :
    ∃ g', KmallocInv Mapped ⟨returnObject o.bin slab o.addr r.state, r.live.erase o⟩ g' ∧
      slab ∈ g'.free o.bin ∧ (∀ c x, x ∈ g'.all c ↔ x ∈ g.all c) ∧ g'.phys = g.phys := by
  have hcount := (hinv.heap.ok o.bin slab hslab).count
  have hheap := pushObject_heap hinv.heap hslab hobj hnot
  have hnodup := List.nodup_append.mp (hinv.heap.nodup o.bin)
  unfold returnObject
  by_cases hwasFull : slabField .countObjects r.state.mem slab = maxObjects o.bin
  · -- a full slab comes back to the free slabs
    rw [if_pos hwasFull]
    have hnil : g.objs slab = [] := List.length_eq_zero_iff.mp (by omega)
    have hfull : slab ∈ g.full o.bin := by
      refine (List.mem_append.mp hslab).resolve_left ?_
      intro hin
      exact hinv.sorted.free o.bin slab hin hnil
    obtain ⟨left, right, hsplit⟩ := List.append_of_mem hfull
    have hfullNodup := hnodup.2.1
    rw [hsplit] at hfullNodup
    have hapart := (List.nodup_cons.mp (List.perm_middle.nodup_iff.mp hfullNodup)).1
    have hsame (c : BinIdx) (x : Nat) :
        x ∈ ((g.setObjs slab (o.addr :: g.objs slab)).relist o.bin
            (slab :: (g.setObjs slab (o.addr :: g.objs slab)).free o.bin) (left ++ right)).all c ↔
          x ∈ g.all c := by
      rw [Slabs.all_relist]
      split
      · rename_i hcb
        rw [hcb, Slabs.all, hsplit]
        simp only [List.mem_append, List.mem_cons, Slabs.setObjs]
        tauto
      · exact Iff.rfl
    refine ⟨_, hinv.push ho hslab hobj (reviveSlab_heap hheap hsplit) ?_ hsame rfl, ?_, hsame, rfl⟩
    · refine hinv.sorted_move hslab ?_ ?_
      · intro x hx
        split
        · exact List.cons_ne_nil _ _
        · rename_i hne
          exact (List.mem_cons.mp hx).resolve_left hne
      · intro x hx
        rw [if_neg]
        · rw [hsplit]
          exact (List.sublist_cons_self slab right |>.append_left left).subset hx
        · rintro rfl
          exact hapart hx
    · simp [Slabs.relist]
  · rw [if_neg hwasFull]
    have hfree : slab ∈ g.free o.bin := by
      refine (List.mem_append.mp hslab).resolve_right ?_
      intro hin
      have hnil := hinv.sorted.full o.bin slab hin
      rw [hnil] at hcount
      exact hwasFull hcount
    exact ⟨_, hinv.push ho hslab hobj hheap (hinv.sorted_setObjs hfree (List.cons_ne_nil _ _))
      (fun _ _ => Iff.rfl) rfl, hfree, fun _ _ => Iff.rfl, rfl⟩

/-- Releasing a slab whose objects are all free. -/
theorem releaseSlab_slabs {ops : PageOps κ} (hpages : TracksPages ops Mapped)
    (hinv : KmallocInv Mapped r g) {b : BinIdx} {slab : Nat} {s' : SlabState κ}
    (hslab : slab ∈ g.free b) (hempty : slabField .countObjects r.state.mem slab = 0)
    (hcall : releaseSlab ops b slab r.state = .ok s') :
    ∃ g', KmallocInv Mapped ⟨s', r.live⟩ g' ∧ (∀ c x, x ∈ g'.all c ↔ x ∈ g.all c ∧ x ≠ slab) ∧
      g'.phys = g.phys ∧ slabField .phys (dropSlab b slab r.state).mem slab = g.phys slab := by
  have hin : slab ∈ g.all b := List.mem_append_left _ hslab
  have hok := hinv.heap.ok b slab hin
  obtain ⟨left, right, hsplit⟩ := List.append_of_mem hslab
  obtain ⟨k, k', hfree, hunmap, rfl⟩ := releaseSlab_ok_inv hcall
  obtain ⟨hlinks, hheap⟩ := dropSlab_heap hinv.heap hsplit
  have hall : ∀ a ∈ objects b slab, a ∈ g.objs slab := by
    -- as many objects are free as there are
    have hcount := hok.count
    rw [hempty, Nat.zero_add] at hcount
    have hperm := (hok.nodup.subperm hok.subset).perm_of_length_le
      (length_objects.trans_le hcount.ge)
    exact fun a ha => hperm.symm.subset ha
  have hwithout := hinv.heap.mem_all_without hsplit
  refine ⟨_, hinv.drop hsplit hall ⟨hheap.freeList, hheap.fullList, hheap.nodup, hheap.owner,
    hheap.ok, hheap.phys, ?_, hheap.below, hheap.top, hheap.space⟩, hwithout, rfl, ?_⟩
  · intro c x hx
    have hold := hheap.mapped c x hx
    exact (hpages.vmmUnmap k slab k' hunmap x).mpr
      ⟨(hpages.pmmFree r.state.pages _ k hfree x).mpr hold, ((hwithout c x).mp hx).2⟩
  · rw [hlinks.field _ slab (by decide) (by decide) hok.aligned]
    exact hinv.heap.phys b slab hin

theorem kfree_inv {ops : PageOps κ} {debug : Bool} (hpages : TracksPages ops Mapped)
    (hinv : KmallocInv Mapped r g) {o : Allocation} (ho : o ∈ r.live) {s' : SlabState κ}
    (hcall : kfree ops debug o.addr r.state = .ok s') :
    ∃ g', KmallocInv Mapped ⟨s', r.live.erase o⟩ g' := by
  obtain ⟨slab, hslab, hobj, hnot⟩ := hinv.live o ho
  have hok := hinv.heap.ok o.bin slab hslab
  obtain ⟨g1, hinv1, hfree, -⟩ := returnObject_slabs hinv ho hslab hobj hnot
  rcases binFree_ok_inv (object_slab hok.aligned hok.top hobj) hok.bin hcall with
    ⟨hempty, hrelease⟩ | ⟨-, rfl⟩
  · obtain ⟨g', hinv', -⟩ := releaseSlab_slabs hpages hinv1 hfree hempty hrelease
    exact ⟨g', hinv'⟩
  · exact ⟨g1, hinv1⟩

/-! ## Writes of clients -/

section Writes

variable {mem' : ByteMem} (hinv : KmallocInv Mapped r g)
variable (hsame : ∀ a page, Mapped r.state.pages page → page ≤ a → a < page + pageSize →
  (∀ o ∈ r.live, ¬ o.Covers a) → mem' a = r.state.mem a)

include hinv hsame

/-- No header is inside a live object. -/
theorem write_slabField (f : SlabField) (b : BinIdx) (x : Nat) (hx : x ∈ g.all b) :
    slabField f mem' x = slabField f r.state.mem x := by
  have hf := f.in_header
  apply loadLE_congr
  intro a hlo hhi
  refine hsame a x (hinv.heap.mapped b x hx) (by omega) ?_ ?_
  · unfold sizeofSlabHeader pageSize at *
    omega
  · intro o ho hcovers
    obtain ⟨y, hy, haddr, -⟩ := hinv.live o ho
    obtain ⟨hlow, hhigh⟩ := object_inside haddr
    obtain ⟨hstart, hstop⟩ := hcovers
    have hpx := hinv.heap.aligned hx
    have hpy := hinv.heap.aligned hy
    unfold sizeofSlabHeader pageSize at *
    omega

/-- Neither a header nor a free object is inside a live object. -/
theorem write_inv : KmallocInv Mapped ⟨{ r.state with mem := mem' }, r.live⟩ g := by
  have hfield := write_slabField hinv hsame
  have hword (b : BinIdx) (x : Nat) (hx : x ∈ g.all b) (p : Nat) (hp : p ∈ g.objs x) :
      word mem' p = word r.state.mem p := by
    have hobj := (hinv.heap.ok b x hx).subset p hp
    obtain ⟨hlow, hhigh⟩ := object_inBody hobj
    have hsize := (objectSize_bounds b).2.1
    apply loadLE_congr
    intro a hlo hhi
    refine hsame a x (hinv.heap.mapped b x hx) (by omega) (by omega) ?_
    intro o ho hcovers
    obtain ⟨y, hy, haddr, hnot⟩ := hinv.live o ho
    obtain ⟨hstart, hstop⟩ := hcovers
    by_cases hxy : x = y
    · subst hxy
      have hbin := hinv.heap.owner _ _ x hx hy
      rw [← hbin] at haddr hstop
      have hne : p ≠ o.addr := by
        rintro rfl
        exact hnot hp
      have hapart := objects_apart hobj haddr hne
      omega
    · obtain ⟨hlow', hhigh'⟩ := object_inside haddr
      have hpx := hinv.heap.aligned hx
      have hpy := hinv.heap.aligned hy
      unfold sizeofSlabHeader pageSize at *
      omega
  refine ⟨⟨?_, ?_, hinv.heap.nodup, hinv.heap.owner, ?_, ?_, hinv.heap.mapped, hinv.heap.below,
    hinv.heap.top, hinv.heap.space⟩, hinv.sorted, hinv.fits, hinv.live, hinv.complete, hinv.nodup⟩
  · intro b
    refine DList.congr (hinv.heap.freeList b) ?_ ?_
    · exact fun y hy => hfield _ b y (List.mem_append_left _ hy)
    · exact fun y hy => hfield _ b y (List.mem_append_left _ hy)
  · intro b
    refine DList.congr (hinv.heap.fullList b) ?_ ?_
    · exact fun y hy => hfield _ b y (List.mem_append_right _ hy)
    · exact fun y hy => hfield _ b y (List.mem_append_right _ hy)
  · intro b x hx
    exact (hinv.heap.ok b x hx).congr (hfield _ b x hx) (hfield _ b x hx) (hfield _ b x hx)
      (hword b x hx)
  · exact fun b x hx => (hfield _ b x hx).trans (hinv.heap.phys b x hx)

end Writes

/-! ## Whole runs -/

/-- The run has come to a state with some slabs. -/
def KmallocRun.Sound (Mapped : κ → Nat → Prop) (r : KmallocRun κ) : Prop :=
  ∃ g, KmallocInv Mapped r g

theorem kmallocStep_inv {ops : PageOps κ} {debug : Bool} (hpages : SlabPages ops Mapped)
    {r r' : KmallocRun κ} (hinv : r.Sound Mapped) (hstep : KmallocStep ops Mapped debug r r') :
    r'.Sound Mapped := by
  obtain ⟨g, hinv⟩ := hinv
  cases hstep with
  | kmalloc hpos hmax hbin hcall =>
    unfold kmalloc at hcall
    rw [if_neg (by omega), hbin] at hcall
    exact binAlloc_inv hpages hinv (kmallocBin_fits hbin) hcall
  | kfree hlive hcall => exact kfree_inv hpages.toTracksPages hinv hlive hcall
  | write hsame => exact ⟨g, write_inv hinv hsame⟩

/-- Whatever the clients do, in every state of a run the live objects are as they may
expect. -/
theorem kmalloc_safe {ops : PageOps κ} {debug : Bool} (hpages : SlabPages ops Mapped)
    {r₀ r : KmallocRun κ} (hinit : r₀.Initial)
    (hrun : ReflTransGen (KmallocStep ops Mapped debug) r₀ r) :
    KmallocContract Mapped r := by
  have hstart : r₀.Sound Mapped := ⟨_, kmallocInv_initial hinit⟩
  have hreached : r.Sound Mapped :=
    run_invariant hrun hstart fun _ _ => kmallocStep_inv hpages
  obtain ⟨g, hinv⟩ := hreached
  exact hinv.contract

end Inv

/-- A page level that keeps the list of mapped pages. -/
def listPages : PageOps (List Nat) where
  pmmAlloc k := .ok (pageSize, k)
  pmmFree _ k := .ok k
  vmmMap _ virt k :=
    if virt ∈ k ∨ virt = 0 ∨ 2 ^ 64 ≤ virt + pageSize then
      .error .binAllocExhausted
    else
      .ok (virt :: k)
  vmmUnmap virt k := .ok (k.filter (· ≠ virt))
  contents _ _ _ := 0

theorem listPages_map {k k' : List Nat} {phys virt : Nat} (hcall : listPages.vmmMap phys virt k = .ok k') :
    virt + pageSize < 2 ^ 64 ∧ k' = virt :: k := by
  simp only [listPages] at hcall
  split at hcall
  · cases hcall
  · cases hcall
    exact ⟨by omega, rfl⟩

theorem listPages_slabPages : SlabPages listPages fun k v => v ∈ k := by
  refine ⟨⟨?_, ?_, ?_, ?_⟩, fun k phys virt k' _ hcall => (listPages_map hcall).1⟩
  · intro k phys k' hcall v
    cases hcall
    exact Iff.rfl
  · intro k phys k' hcall v
    cases hcall
    exact Iff.rfl
  · intro k phys virt k' hcall v
    rw [(listPages_map hcall).2]
    exact List.mem_cons
  · intro k virt k' hcall v
    cases hcall
    simp

def emptyBins : SlabState (List Nat) where
  mem := fun _ => 0
  freeSlabs := fun _ => 0
  fullSlabs := fun _ => 0
  slabTop := 0
  pages := []

/-- Two requests that one slab serves, and the release of the first object. -/
def kmallocTwiceKfree : Except KPanic (Nat × Nat × SlabState (List Nat)) := do
  let (p, s) ← kmalloc listPages true 1000 emptyBins
  let (q, s) ← kmalloc listPages true 900 s
  let s ← kfree listPages true p s
  return (p, q, s)

theorem kmallocTwiceKfree_result :
    kmallocTwiceKfree.toOption.map (fun result => (result.1, result.2.1, result.2.2.pages)) =
      some (0xFFFF900000000030, 0xFFFF900000000430, [0xFFFF900000000000]) := by
  decide +kernel

theorem kmalloc_safe_twice : ∃ r₀ r : KmallocRun (List Nat), r₀.Initial ∧
    ReflTransGen (KmallocStep listPages (fun k v => v ∈ k) true) r₀ r ∧
    r.live = [⟨0xFFFF900000000430, 900, 23⟩] ∧ KmallocContract (fun k v => v ∈ k) r := by
  have hinit : (⟨emptyBins, []⟩ : KmallocRun (List Nat)).Initial :=
    ⟨fun _ => rfl, fun _ => rfl, rfl, rfl⟩
  have hresult := kmallocTwiceKfree_result
  unfold kmallocTwiceKfree at hresult
  cases hp : kmalloc listPages true 1000 emptyBins with
  | error panic =>
    rw [hp] at hresult
    cases hresult
  | ok first =>
    obtain ⟨p, s₁⟩ := first
    rw [hp] at hresult
    change Option.map _ (Except.toOption (kmalloc listPages true 900 s₁ >>= _)) = _ at hresult
    cases hq : kmalloc listPages true 900 s₁ with
    | error panic =>
      rw [hq] at hresult
      cases hresult
    | ok second =>
      obtain ⟨q, s₂⟩ := second
      rw [hq] at hresult
      change Option.map _ (Except.toOption (kfree listPages true p s₂ >>= _)) = _ at hresult
      cases hfree : kfree listPages true p s₂ with
      | error panic =>
        rw [hfree] at hresult
        cases hresult
      | ok s₃ =>
        rw [hfree] at hresult
        have hpq := Option.some.inj hresult
        obtain ⟨rfl, hpq⟩ := Prod.mk.inj hpq
        obtain ⟨rfl, -⟩ := Prod.mk.inj hpq
        have hrun : ReflTransGen (KmallocStep listPages (fun k v => v ∈ k) true)
            ⟨emptyBins, []⟩ ⟨s₃, [⟨0xFFFF900000000430, 900, 23⟩]⟩ := by
          refine .tail (.tail (.tail .refl (.kmalloc (by decide) (by decide) rfl hp))
            (.kmalloc (by decide) (by decide) rfl hq)) ?_
          exact .kfree (o := ⟨0xFFFF900000000030, 1000, 23⟩) (by simp) hfree
        exact ⟨_, _, hinit, hrun, rfl, kmalloc_safe listPages_slabPages hinit hrun⟩

end Pristine.Kernel
