import Pristine.Kernel.SlabPage

/-!
# The slab heap

`SlabHeap` reads the slabs of every bin, their frames and their free objects off
memory, as ghost state (`Slabs`).  Each step of `bin_alloc` and `bin_free` changes
it in one way: a slab is added (`newSlab_heap`), an object is taken or given back,
a slab changes its list (`SlabHeap.move`) or is dropped (`dropSlab_heap`).

Slabs lie below `slab_top`, so a new one has a page of its own as long as
`slab_top` does not wrap around.
-/

namespace Pristine.Kernel

open Function Lib

/-! ## All slabs -/

/-- The slabs of every bin, by list, and the free objects and the frame of every slab. -/
structure Slabs where
  free : BinIdx → List Nat
  full : BinIdx → List Nat
  objs : Nat → List Nat
  phys : Nat → Nat

namespace Slabs

/-- All slabs of a bin. -/
def all (g : Slabs) (b : BinIdx) : List Nat := g.free b ++ g.full b

/-- Other lists for one bin. -/
def relist (g : Slabs) (b : BinIdx) (free full : List Nat) : Slabs :=
  { g with free := update g.free b free, full := update g.full b full }

/-- Other free objects for one slab. -/
def setObjs (g : Slabs) (slab : Nat) (free : List Nat) : Slabs :=
  { g with objs := update g.objs slab free }

theorem all_relist (g : Slabs) (b c : BinIdx) (free full : List Nat) :
    (g.relist b free full).all c = if c = b then free ++ full else g.all c := by
  unfold all relist
  by_cases hcb : c = b
  · subst hcb
    simp
  · simp [hcb]

end Slabs

/-- In memory there is a list of slabs from `head` on. -/
def SlabList (mem : ByteMem) (head : Nat) (xs : List Nat) : Prop :=
  DList (slabField .nextSlab mem) (slabField .prevSlab mem) 0 0 head xs

/-- The allocator's memory holds the slabs `g`. -/
structure SlabHeap {κ : Type} (Mapped : κ → Nat → Prop) (s : SlabState κ) (g : Slabs) : Prop where
  freeList : ∀ b, SlabList s.mem (s.freeSlabs b) (g.free b)
  fullList : ∀ b, SlabList s.mem (s.fullSlabs b) (g.full b)
  nodup : ∀ b, (g.all b).Nodup
  owner : ∀ b c x, x ∈ g.all b → x ∈ g.all c → b = c
  ok : ∀ b x, x ∈ g.all b → SlabOk b s.mem x (g.objs x)
  phys : ∀ b x, x ∈ g.all b → slabField .phys s.mem x = g.phys x
  mapped : ∀ b x, x ∈ g.all b → Mapped s.pages x
  /-- slabs are made one behind the other -/
  below : ∀ b x, x ∈ g.all b → x < slabVirtStart + s.slabTop
  top : s.slabTop % pageSize = 0
  space : slabVirtStart + s.slabTop < 2 ^ 64

/-! ## Moving slabs between lists -/

/-- Only links between slabs have changed. -/
structure LinkStores (mem mem' : ByteMem) : Prop where
  field : ∀ f x, f ≠ .nextSlab → f ≠ .prevSlab → x % pageSize = 0 →
    slabField f mem' x = slabField f mem x
  body : ∀ x a, x % pageSize = 0 → InBody x a → word mem' a = word mem a

section Links

variable {mem mem' : ByteMem} {x y value : Nat}

theorem LinkStores.refl (mem : ByteMem) : LinkStores mem mem :=
  ⟨fun _ _ _ _ _ => rfl, fun _ _ _ _ => rfl⟩

theorem LinkStores.trans {mem'' : ByteMem} (h : LinkStores mem mem')
    (h' : LinkStores mem' mem'') : LinkStores mem mem'' := by
  refine ⟨?_, ?_⟩
  · intro f x hnext hprev hx
    rw [h'.field f x hnext hprev hx, h.field f x hnext hprev hx]
  · intro x a hx ha
    rw [h'.body x a hx ha, h.body x a hx ha]

theorem linkStores_setSlabField {f : SlabField} (hf : f = .nextSlab ∨ f = .prevSlab)
    (hx : x % pageSize = 0) : LinkStores mem (setSlabField f mem x value) := by
  refine ⟨?_, ?_⟩
  · intro g y hnext hprev hy
    refine slabField_set_other hy hx (Or.inl ?_)
    rintro rfl
    exact hf.elim hnext hprev
  · intro y a hy ha
    exact word_setSlabField hx hy ha

theorem linkStores_setPrevSlab (hx : x % pageSize = 0) :
    LinkStores mem (setPrevSlab mem x value) := by
  unfold setPrevSlab
  split
  · exact linkStores_setSlabField (Or.inr rfl) hx
  · exact LinkStores.refl mem

theorem linkStores_setNextSlab (hx : x % pageSize = 0) :
    LinkStores mem (setNextSlab mem x value) := by
  unfold setNextSlab
  split
  · exact linkStores_setSlabField (Or.inl rfl) hx
  · exact LinkStores.refl mem

theorem slabField_setSlabField {f g : SlabField} (hx : x % pageSize = 0) (hy : y % pageSize = 0)
    (hvalue : value < 256 ^ g.width) :
    slabField f (setSlabField g mem y value) x =
      if f = g ∧ x = y then value else slabField f mem x := by
  by_cases hsame : f = g ∧ x = y
  · obtain ⟨rfl, rfl⟩ := hsame
    rw [if_pos ⟨rfl, rfl⟩, slabField_set_same hvalue]
  · rw [if_neg hsame, slabField_set_other hx hy]
    rw [not_and_or] at hsame
    exact hsame

theorem slabField_setPrevSlab {f : SlabField} (hx : x % pageSize = 0) (hy : y % pageSize = 0)
    (hvalue : value < 2 ^ 64) :
    slabField f (setPrevSlab mem y value) x =
      if f = .prevSlab ∧ x = y ∧ y ≠ 0 then value else slabField f mem x := by
  unfold setPrevSlab
  by_cases hnull : y = 0
  · simp [hnull]
  · rw [if_pos hnull, slabField_setSlabField hx hy hvalue]
    simp [hnull]

theorem slabField_setNextSlab {f : SlabField} (hx : x % pageSize = 0) (hy : y % pageSize = 0)
    (hvalue : value < 2 ^ 64) :
    slabField f (setNextSlab mem y value) x =
      if f = .nextSlab ∧ x = y ∧ y ≠ 0 then value else slabField f mem x := by
  unfold setNextSlab
  by_cases hnull : y = 0
  · simp [hnull]
  · rw [if_pos hnull, slabField_setSlabField hx hy hvalue]
    simp [hnull]

/-- The nodes of a list are page aligned 64-bit addresses. -/
def PageList (xs : List Nat) : Prop := ∀ x ∈ xs, x % pageSize = 0 ∧ x < 2 ^ 64

theorem SlabList.head_pointer {head : Nat} {xs : List Nat} (hlist : SlabList mem head xs)
    (hxs : PageList xs) : head % pageSize = 0 ∧ head < 2 ^ 64 := by
  by_cases hnull : head = 0
  · subst hnull
    exact ⟨rfl, by decide⟩
  · exact hxs head (DList.head_mem hlist hnull)

/-! ### Taking a slab out -/

section Bypass

variable {slab head : Nat} {l r : List Nat} (hlist : SlabList mem head (l ++ slab :: r))

include hlist

/-- The neighbours of a slab of a list. -/
theorem SlabList.neighbours :
    (slabField .nextSlab mem slab = 0 ∨ slabField .nextSlab mem slab ∈ r) ∧
      (slabField .prevSlab mem slab = 0 ∨ slabField .prevSlab mem slab ∈ l) := by
  refine ⟨DList.next_mem hlist, ?_⟩
  cases l with
  | nil => exact Or.inl hlist.2.2.1
  | cons y l => exact Or.inr (DList.prev_mem hlist (List.cons_ne_nil y l))

variable (hpages : PageList (l ++ slab :: r))

include hpages

theorem SlabList.pointers :
    slab % pageSize = 0 ∧ slabField .nextSlab mem slab % pageSize = 0 ∧
      slabField .prevSlab mem slab % pageSize = 0 := by
  obtain ⟨hnext, hprev⟩ := hlist.neighbours
  refine ⟨(hpages slab (List.mem_append_right l (List.mem_cons_self ..))).1, ?_, ?_⟩
  · rcases hnext with hnull | hin
    · rw [hnull]
      rfl
    · exact (hpages _ (List.mem_append_right l (List.mem_cons_of_mem slab hin))).1
  · rcases hprev with hnull | hin
    · rw [hnull]
      rfl
    · exact (hpages _ (List.mem_append_left _ hin)).1

variable (hnodup : (l ++ slab :: r).Nodup)

include hnodup

/-- The first store of the bypass does not reach the slab's own links. -/
theorem SlabList.bypass_eq :
    bypassSlab slab mem =
      setNextSlab (setPrevSlab mem (slabField .nextSlab mem slab) (slabField .prevSlab mem slab))
        (slabField .prevSlab mem slab) (slabField .nextSlab mem slab) := by
  obtain ⟨hslab, hn, -⟩ := hlist.pointers hpages
  have hown : ¬ (slab = slabField .nextSlab mem slab ∧ slabField .nextSlab mem slab ≠ 0) := by
    rintro ⟨heq, hne⟩
    have hin := hlist.neighbours.1.resolve_left hne
    rw [← heq] at hin
    exact (List.nodup_cons.mp (List.nodup_append.mp hnodup).2.1).1 hin
  have hself (f : SlabField) :
      slabField f (setPrevSlab mem (slabField .nextSlab mem slab) (slabField .prevSlab mem slab))
        slab = slabField f mem slab := by
    rw [slabField_setPrevSlab hslab hn (slabField_lt .prevSlab mem slab), if_neg]
    rintro ⟨-, heq, hne⟩
    exact hown ⟨heq, hne⟩
  unfold bypassSlab
  dsimp only
  rw [hself, hself]

theorem SlabList.bypass_linkStores : LinkStores mem (bypassSlab slab mem) := by
  obtain ⟨-, hn, hp⟩ := hlist.pointers hpages
  rw [hlist.bypass_eq hpages hnodup]
  exact (linkStores_setPrevSlab hn).trans (linkStores_setNextSlab hp)

theorem SlabList.bypass_field (f : SlabField) {y : Nat} (hy : y % pageSize = 0) :
    slabField f (bypassSlab slab mem) y =
      if f = .nextSlab ∧ y = slabField .prevSlab mem slab ∧ slabField .prevSlab mem slab ≠ 0 then
        slabField .nextSlab mem slab
      else if f = .prevSlab ∧ y = slabField .nextSlab mem slab ∧ slabField .nextSlab mem slab ≠ 0 then
        slabField .prevSlab mem slab
      else slabField f mem y := by
  obtain ⟨-, hn, hp⟩ := hlist.pointers hpages
  rw [hlist.bypass_eq hpages hnodup,
    slabField_setNextSlab hy hp (slabField_lt .nextSlab mem slab),
    slabField_setPrevSlab hy hn (slabField_lt .prevSlab mem slab)]

/-- The slab is out of its list. -/
theorem SlabList.bypass :
    SlabList (bypassSlab slab mem)
      (if head = slab then slabField .nextSlab mem slab else head) (l ++ r) := by
  obtain ⟨-, hn, hp⟩ := hlist.pointers hpages
  have haligned (y : Nat) (hy : y ∈ l ++ r) : y % pageSize = 0 := by
    refine (hpages y ?_).1
    simp only [List.mem_append, List.mem_cons] at hy ⊢
    tauto
  refine DList.unlink hlist hnodup ?_ ?_ ?_ ?_ ?_
  · intro hzero
    exact DList.ne_null hlist 0 hzero rfl
  · intro y hy hne
    simp [hlist.bypass_field hpages hnodup .nextSlab (haligned y hy), hne]
  · intro hl
    have hin := DList.prev_mem hlist hl
    have hnz := DList.ne_null hlist _ (List.mem_append_left _ hin)
    rw [hlist.bypass_field hpages hnodup .nextSlab hp, if_pos ⟨rfl, rfl, hnz⟩]
  · intro y hy hne
    simp [hlist.bypass_field hpages hnodup .prevSlab (haligned y hy), hne]
  · intro hnz
    simp [hlist.bypass_field hpages hnodup .prevSlab hn, hnz]

/-- Other lists do not notice. -/
theorem SlabList.bypass_frame {head' : Nat} {ys : List Nat} (hys : SlabList mem head' ys)
    (hysPages : PageList ys) (hapart : ∀ y ∈ ys, y ∉ l ++ slab :: r) :
    SlabList (bypassSlab slab mem) head' ys := by
  obtain ⟨hnext, hprev⟩ := hlist.neighbours
  have hfield (f : SlabField) (y : Nat) (hy : y ∈ ys) :
      slabField f (bypassSlab slab mem) y = slabField f mem y := by
    rw [hlist.bypass_field hpages hnodup f (hysPages y hy).1, if_neg, if_neg]
    · rintro ⟨-, rfl, hnz⟩
      exact hapart _ hy (List.mem_append_right l (List.mem_cons_of_mem slab (hnext.resolve_left hnz)))
    · rintro ⟨-, rfl, hnz⟩
      exact hapart _ hy (List.mem_append_left _ (hprev.resolve_left hnz))
  exact DList.congr hys (hfield _) (hfield _)

end Bypass

/-- For the first slab of a list there is only one neighbour to link. -/
theorem SlabList.bypass_first {slab head : Nat} {r : List Nat}
    (hlist : SlabList mem head (slab :: r)) (hpages : PageList (slab :: r))
    (hnodup : (slab :: r).Nodup) :
    bypassSlab slab mem = setPrevSlab mem (slabField .nextSlab mem slab) 0 := by
  have hprev : slabField .prevSlab mem slab = 0 := hlist.2.2.1
  rw [SlabList.bypass_eq (l := []) hlist hpages hnodup, hprev]
  rfl

/-! ### Putting a slab in front -/

section Insert

variable {slab head : Nat} {xs : List Nat}

theorem insertSlab_linkStores (hslab : slab % pageSize = 0) (hhead : head % pageSize = 0) :
    LinkStores mem (insertSlab slab head mem) :=
  ((linkStores_setPrevSlab hhead).trans (linkStores_setSlabField (Or.inl rfl) hslab)).trans
    (linkStores_setSlabField (Or.inr rfl) hslab)

theorem insertSlab_field (f : SlabField) (hslab : slab % pageSize = 0) (hslabLt : slab < 2 ^ 64)
    (hhead : head % pageSize = 0 ∧ head < 2 ^ 64) {y : Nat} (hy : y % pageSize = 0) :
    slabField f (insertSlab slab head mem) y =
      if f = .prevSlab ∧ y = slab then 0 else if f = .nextSlab ∧ y = slab then head
      else if f = .prevSlab ∧ y = head ∧ head ≠ 0 then slab else slabField f mem y := by
  unfold insertSlab
  rw [slabField_setSlabField hy hslab (by decide), slabField_setSlabField hy hslab hhead.2,
    slabField_setPrevSlab hy hhead.1 hslabLt]

theorem SlabList.insert (hlist : SlabList mem head xs) (hpages : PageList xs)
    (hnodup : xs.Nodup) (hslab : slab % pageSize = 0) (hslabLt : slab < 2 ^ 64) (hpos : slab ≠ 0)
    (hfresh : slab ∉ xs) : SlabList (insertSlab slab head mem) slab (slab :: xs) := by
  have hhead := hlist.head_pointer hpages
  have hne (y : Nat) (hy : y ∈ xs) : y ≠ slab := by
    rintro rfl
    exact hfresh hy
  refine DList.push hlist hnodup hpos ?_ ?_ ?_ ?_ ?_
  · simp [insertSlab_field .nextSlab hslab hslabLt hhead hslab]
  · simp [insertSlab_field .prevSlab hslab hslabLt hhead hslab]
  · intro y hy
    simp [insertSlab_field .nextSlab hslab hslabLt hhead (hpages y hy).1, hne y hy]
  · intro hnz
    simp [insertSlab_field .prevSlab hslab hslabLt hhead hhead.1, hne _ (DList.head_mem hlist hnz),
      hnz]
  · intro y hy hyhead
    simp [insertSlab_field .prevSlab hslab hslabLt hhead (hpages y hy).1, hne y hy, hyhead]

theorem SlabList.insert_frame (hlist : SlabList mem head xs) (hpages : PageList xs)
    (hslab : slab % pageSize = 0) (hslabLt : slab < 2 ^ 64) {head' : Nat} {ys : List Nat}
    (hys : SlabList mem head' ys) (hysPages : PageList ys) (hapart : ∀ y ∈ ys, y ∉ slab :: xs) :
    SlabList (insertSlab slab head mem) head' ys := by
  have hhead := hlist.head_pointer hpages
  have hfield (f : SlabField) (y : Nat) (hy : y ∈ ys) :
      slabField f (insertSlab slab head mem) y = slabField f mem y := by
    have hne := List.ne_of_not_mem_cons (hapart y hy)
    rw [insertSlab_field f hslab hslabLt hhead (hysPages y hy).1, if_neg fun h => hne h.2,
      if_neg fun h => hne h.2, if_neg]
    rintro ⟨-, rfl, hnz⟩
    exact hapart _ hy (List.mem_cons_of_mem slab (DList.head_mem hlist hnz))
  exact DList.congr hys (hfield _) (hfield _)

end Insert

end Links

section Heap

variable {κ : Type} {Mapped : κ → Nat → Prop} {s s' : SlabState κ} {g : Slabs} {b c : BinIdx}
variable {slab x : Nat}

section Facts

variable (hheap : SlabHeap Mapped s g)

include hheap

theorem SlabHeap.aligned (hx : x ∈ g.all b) : x % pageSize = 0 :=
  (hheap.ok b x hx).aligned

theorem SlabHeap.pages (b : BinIdx) : PageList (g.all b) := by
  intro x hx
  have hok := hheap.ok b x hx
  exact ⟨hok.aligned, Nat.lt_of_le_of_lt (Nat.le_add_right _ _) hok.top⟩

theorem SlabHeap.freePages (b : BinIdx) : PageList (g.free b) :=
  fun x hx => hheap.pages b x (List.mem_append_left _ hx)

theorem SlabHeap.fullPages (b : BinIdx) : PageList (g.full b) :=
  fun x hx => hheap.pages b x (List.mem_append_right _ hx)

/-- The first free slab of a bin. -/
theorem SlabHeap.free_cons (hsome : s.freeSlabs b ≠ 0) :
    ∃ rest, g.free b = s.freeSlabs b :: rest := by
  have hlist := hheap.freeList b
  cases hcase : g.free b with
  | nil => exact absurd ((DList.head_eq_null_iff hlist).mpr hcase) hsome
  | cons y rest =>
    rw [hcase] at hlist
    exact ⟨rest, by rw [hlist.1]⟩

/-- The rule for moves between the lists of one bin: only links have changed, and the
lists of the other bins are as before. -/
theorem SlabHeap.relist {free full : List Nat} (hsub : ∀ x ∈ free ++ full, x ∈ g.all b)
    (hnodup : (free ++ full).Nodup) (hlinks : LinkStores s.mem s'.mem)
    (hfree : SlabList s'.mem (s'.freeSlabs b) free) (hfull : SlabList s'.mem (s'.fullSlabs b) full)
    (hother : ∀ c, c ≠ b → SlabList s'.mem (s'.freeSlabs c) (g.free c) ∧
      SlabList s'.mem (s'.fullSlabs c) (g.full c)) (hpages : s'.pages = s.pages)
    (htop : s'.slabTop = s.slabTop) : SlabHeap Mapped s' (g.relist b free full) := by
  have hall : ∀ c x, x ∈ (g.relist b free full).all c → x ∈ g.all c := by
    intro c x hx
    rw [Slabs.all_relist] at hx
    split at hx
    · rename_i hcb
      rw [hcb]
      exact hsub x hx
    · exact hx
  refine ⟨?_, ?_, ?_, ?_, ?_, ?_, ?_, ?_, htop ▸ hheap.top, htop ▸ hheap.space⟩
  · intro c
    by_cases hcb : c = b
    · subst hcb
      simpa [Slabs.relist] using hfree
    · simpa [Slabs.relist, hcb] using (hother c hcb).1
  · intro c
    by_cases hcb : c = b
    · subst hcb
      simpa [Slabs.relist] using hfull
    · simpa [Slabs.relist, hcb] using (hother c hcb).2
  · intro c
    rw [Slabs.all_relist]
    split
    · exact hnodup
    · exact hheap.nodup c
  · intro c d x hc hd
    exact hheap.owner c d x (hall c x hc) (hall d x hd)
  · intro c x hx
    have hok := hheap.ok c x (hall c x hx)
    refine hok.congr ?_ ?_ ?_ ?_
    · exact hlinks.field _ x (by decide) (by decide) hok.aligned
    · exact hlinks.field _ x (by decide) (by decide) hok.aligned
    · exact hlinks.field _ x (by decide) (by decide) hok.aligned
    · intro o ho
      exact hlinks.body x o hok.aligned (object_inBody (hok.subset o ho))
  · intro c x hx
    have hold := hall c x hx
    rw [hlinks.field _ x (by decide) (by decide) (hheap.aligned hold)]
    exact hheap.phys c x hold
  · intro c x hx
    rw [hpages]
    exact hheap.mapped c x (hall c x hx)
  · intro c x hx
    rw [htop]
    exact hheap.below c x (hall c x hx)

/-- A slab of another bin is none of this bin's. -/
theorem SlabHeap.apart (hcb : c ≠ b) {xs : List Nat} (hxs : ∀ x ∈ xs, x ∈ g.all b) :
    ∀ y ∈ g.all c, y ∉ xs := by
  intro y hy hin
  exact hcb (hheap.owner c b y hy (hxs y hin))

end Facts

/-- What the memory of a bin looks like after a slab was taken out of one of its lists
and put in front of the other. -/
structure Moved (s : SlabState κ) (g : Slabs) (b : BinIdx) (next' head' : Nat)
    (rest to' : List Nat) (mem' : ByteMem) : Prop where
  links : LinkStores s.mem mem'
  source : SlabList mem' next' rest
  target : SlabList mem' head' to'
  other : ∀ c h ys, c ≠ b → (∀ y ∈ ys, y ∈ g.all c) → SlabList s.mem h ys → SlabList mem' h ys

theorem Moved.other_bins {next' head' : Nat} {rest to' : List Nat}
    (hmoved : Moved s g b next' head' rest to' s'.mem) (hheap : SlabHeap Mapped s g)
    (hheads : ∀ c, c ≠ b → s'.freeSlabs c = s.freeSlabs c ∧ s'.fullSlabs c = s.fullSlabs c) :
    ∀ c, c ≠ b → SlabList s'.mem (s'.freeSlabs c) (g.free c) ∧
      SlabList s'.mem (s'.fullSlabs c) (g.full c) := by
  intro c hcb
  rw [(hheads c hcb).1, (hheads c hcb).2]
  exact ⟨hmoved.other c _ _ hcb (fun y hy => List.mem_append_left _ hy) (hheap.freeList c),
    hmoved.other c _ _ hcb (fun y hy => List.mem_append_right _ hy) (hheap.fullList c)⟩

theorem SlabHeap.move (hheap : SlabHeap Mapped s g) {to' l r : List Nat} {head head' : Nat}
    (hperm : ((l ++ slab :: r) ++ to').Perm (g.all b))
    (hlist : SlabList s.mem head (l ++ slab :: r)) (hlist' : SlabList s.mem head' to') :
    Moved s g b (if head = slab then slabField .nextSlab s.mem slab else head) slab (l ++ r)
      (slab :: to') (insertSlab slab head' (bypassSlab slab s.mem)) := by
  have hin (x : Nat) (hx : x ∈ (l ++ slab :: r) ++ to') : x ∈ g.all b := hperm.subset hx
  have hnodup := hperm.nodup_iff.mpr (hheap.nodup b)
  obtain ⟨hfromNodup, htoNodup, hdisjoint⟩ := List.nodup_append.mp hnodup
  have hfrom : PageList (l ++ slab :: r) :=
    fun x hx => hheap.pages b x (hin x (List.mem_append_left _ hx))
  have hto : PageList to' := fun x hx => hheap.pages b x (hin x (List.mem_append_right _ hx))
  have hslabIn : slab ∈ l ++ slab :: r := List.mem_append_right l (List.mem_cons_self ..)
  have hslab := hfrom slab hslabIn
  have hslabTo : slab ∉ to' := fun h => hdisjoint slab hslabIn slab h rfl
  have hsub (y : Nat) (hy : y ∈ l ++ r) : y ∈ l ++ slab :: r := by
    simp only [List.mem_append, List.mem_cons] at hy ⊢
    tauto
  -- the other list between the two steps
  have hto' : SlabList (bypassSlab slab s.mem) head' to' :=
    hlist.bypass_frame hfrom hfromNodup hlist' hto
      fun y hy hy' => hdisjoint y hy' y hy rfl
  have hheadPtr := hto'.head_pointer hto
  refine ⟨?_, ?_, ?_, ?_⟩
  · exact (hlist.bypass_linkStores hfrom hfromNodup).trans
      (insertSlab_linkStores hslab.1 hheadPtr.1)
  · refine hto'.insert_frame hto hslab.1 hslab.2 (hlist.bypass hfrom hfromNodup)
      (fun y hy => hfrom y (hsub y hy)) ?_
    intro y hy hcons
    rcases List.mem_cons.mp hcons with rfl | hin'
    · have hmid := List.perm_middle.nodup_iff.mp hfromNodup
      exact (List.nodup_cons.mp hmid).1 hy
    · exact hdisjoint y (hsub y hy) y hin' rfl
  · exact hto'.insert hto htoNodup hslab.1 hslab.2
      (DList.ne_null hlist slab hslabIn) hslabTo
  · intro c h ys hcb hys hold
    have hysPages : PageList ys := fun y hy => hheap.pages c y (hys y hy)
    have hcopy := hlist.bypass_frame hfrom hfromNodup hold hysPages fun y hy hy' =>
      hheap.apart hcb (fun x hx => hin x (List.mem_append_left _ hx)) y (hys y hy) hy'
    refine hto'.insert_frame hto hslab.1 hslab.2 hcopy hysPages fun y hy hy' => ?_
    refine hheap.apart hcb (fun x hx => hin x ?_) y (hys y hy) hy'
    rcases List.mem_cons.mp hx with rfl | hx
    · exact List.mem_append_left _ hslabIn
    · exact List.mem_append_right _ hx

theorem retireSlab_heap (hheap : SlabHeap Mapped s g) {rest : List Nat}
    (hfree : g.free b = slab :: rest) :
    SlabHeap Mapped (retireSlab b slab s) (g.relist b rest (slab :: g.full b)) := by
  have hlist := hheap.freeList b
  rw [hfree] at hlist
  have hall : (slab :: rest) ++ g.full b = g.all b := by rw [← hfree]; rfl
  have hfreePages := hheap.freePages b
  rw [hfree] at hfreePages
  have hfreeNodup := (List.nodup_append.mp (hheap.nodup b)).1
  rw [hfree] at hfreeNodup
  have hmoved := hheap.move (l := []) (by rw [List.nil_append, hall]) hlist (hheap.fullList b)
  rw [if_pos hlist.1, hlist.bypass_first hfreePages hfreeNodup] at hmoved
  refine hheap.relist ?_ ?_ hmoved.links ?_ ?_ ?_ rfl rfl
  · intro x hx
    rw [← hall]
    simp only [List.cons_append, List.mem_append, List.mem_cons] at hx ⊢
    tauto
  · have hnodup := hheap.nodup b
    rw [← hall] at hnodup
    exact List.perm_middle.nodup_iff.mpr hnodup
  · have hhead : (retireSlab b slab s).freeSlabs b = slabField .nextSlab s.mem slab :=
      update_self ..
    rw [hhead]
    exact hmoved.source
  · have hhead : (retireSlab b slab s).fullSlabs b = slab := update_self ..
    rw [hhead]
    exact hmoved.target
  · exact hmoved.other_bins hheap fun c hcb =>
      ⟨update_of_ne hcb .., update_of_ne hcb ..⟩

theorem reviveSlab_heap (hheap : SlabHeap Mapped s g) {l r : List Nat}
    (hfull : g.full b = l ++ slab :: r) :
    SlabHeap Mapped (reviveSlab b slab s) (g.relist b (slab :: g.free b) (l ++ r)) := by
  have hlist := hheap.fullList b
  rw [hfull] at hlist
  have hperm : ((l ++ slab :: r) ++ g.free b).Perm (g.all b) := by
    rw [← hfull]
    exact List.perm_append_comm
  have hmoved := hheap.move hperm hlist (hheap.freeList b)
  have hperm' : ((slab :: g.free b) ++ (l ++ r)).Perm (g.all b) := by
    refine List.Perm.trans ?_ hperm
    refine List.perm_append_comm.trans ?_
    rw [List.append_assoc, List.append_assoc]
    refine List.Perm.append_left l ?_
    rw [List.cons_append]
    exact List.perm_middle
  refine hheap.relist ?_ ?_ hmoved.links ?_ ?_ ?_ rfl rfl
  · intro x hx
    exact hperm'.subset hx
  · exact hperm'.nodup_iff.mpr (hheap.nodup b)
  · have hhead : (reviveSlab b slab s).freeSlabs b = slab := update_self ..
    rw [hhead]
    exact hmoved.target
  · have hhead : (reviveSlab b slab s).fullSlabs b =
        if s.fullSlabs b = slab then slabField .nextSlab s.mem slab else s.fullSlabs b :=
      update_self ..
    rw [hhead]
    exact hmoved.source
  · exact hmoved.other_bins hheap fun c hcb =>
      ⟨update_of_ne hcb .., update_of_ne hcb ..⟩

theorem dropSlab_heap (hheap : SlabHeap Mapped s g) {l r : List Nat}
    (hfree : g.free b = l ++ slab :: r) : LinkStores s.mem (dropSlab b slab s).mem ∧
      SlabHeap Mapped (dropSlab b slab s) (g.relist b (l ++ r) (g.full b)) := by
  have hlist := hheap.freeList b
  have hpages := hheap.freePages b
  have hfreeNodup := (List.nodup_append.mp (hheap.nodup b)).1
  rw [hfree] at hlist hpages hfreeNodup
  have hin (x : Nat) (hx : x ∈ l ++ slab :: r) : x ∈ g.all b := by
    rw [← hfree] at hx
    exact List.mem_append_left _ hx
  have hsublist : ((l ++ r) ++ g.full b).Sublist (g.all b) := by
    rw [Slabs.all, hfree]
    exact ((List.sublist_cons_self slab r).append_left l).append_right _
  have hframe (c : BinIdx) (h : Nat) (ys : List Nat) (hys : ∀ y ∈ ys, y ∈ g.all c)
      (hapart : ∀ y ∈ ys, y ∉ l ++ slab :: r) (hold : SlabList s.mem h ys) :
      SlabList (bypassSlab slab s.mem) h ys :=
    hlist.bypass_frame hpages hfreeNodup hold (fun y hy => hheap.pages c y (hys y hy)) hapart
  have hlinks := hlist.bypass_linkStores hpages hfreeNodup
  refine ⟨hlinks, hheap.relist ?_ ?_ hlinks ?_ ?_ ?_ rfl rfl⟩
  · intro x hx
    exact hsublist.subset hx
  · exact (hheap.nodup b).sublist hsublist
  · have hhead : (dropSlab b slab s).freeSlabs b =
        if s.freeSlabs b = slab then slabField .nextSlab s.mem slab else s.freeSlabs b :=
      update_self ..
    rw [hhead]
    exact hlist.bypass hpages hfreeNodup
  · refine hframe b _ _ (fun y hy => List.mem_append_right _ hy) ?_ (hheap.fullList b)
    intro y hy hy'
    rw [← hfree] at hy'
    exact (List.nodup_append.mp (hheap.nodup b)).2.2 y hy' y hy rfl
  · intro c hcb
    have hheads : (dropSlab b slab s).freeSlabs c = s.freeSlabs c := update_of_ne hcb ..
    rw [hheads]
    have hapart := hheap.apart hcb hin
    exact ⟨hframe c _ _ (fun y hy => List.mem_append_left _ hy)
        (fun y hy => hapart y (List.mem_append_left _ hy)) (hheap.freeList c),
      hframe c _ _ (fun y hy => List.mem_append_right _ hy)
        (fun y hy => hapart y (List.mem_append_right _ hy)) (hheap.fullList c)⟩

/-! ## Objects of one slab -/

/-- Headers on other pages do not depend on the page at `slab`. -/
theorem slabField_outside {mem mem' : ByteMem} {f : SlabField} (hx : x % pageSize = 0)
    (hslab : slab % pageSize = 0) (hne : x ≠ slab)
    (hsame : ∀ a, a < slab ∨ slab + pageSize ≤ a → mem' a = mem a) :
    slabField f mem' x = slabField f mem x := by
  apply slabField_congr
  intro a hlo hhi
  apply hsame
  unfold pageSize at *
  omega

/-- Slabs on other pages do not either. -/
theorem SlabOk.outside {mem mem' : ByteMem} {free : List Nat} (hok : SlabOk c mem x free)
    (hslab : slab % pageSize = 0) (hne : x ≠ slab)
    (hsame : ∀ a, a < slab ∨ slab + pageSize ≤ a → mem' a = mem a) : SlabOk c mem' x free := by
  have haligned := hok.aligned
  have hfield (f : SlabField) := slabField_outside (f := f) haligned hslab hne hsame
  refine hok.congr (hfield _) (hfield _) (hfield _) ?_
  intro o ho
  obtain ⟨hlow, hhigh⟩ := object_inBody (hok.subset o ho)
  apply loadLE_congr
  intro a hlo hhi
  apply hsame
  unfold pageSize at *
  omega

theorem SlabList.outside {mem mem' : ByteMem} {head : Nat} {xs : List Nat}
    (hlist : SlabList mem head xs) (hpages : PageList xs) (hslab : slab % pageSize = 0)
    (hown : slab ∈ xs → slabField .nextSlab mem' slab = slabField .nextSlab mem slab ∧
      slabField .prevSlab mem' slab = slabField .prevSlab mem slab)
    (hsame : ∀ a, a < slab ∨ slab + pageSize ≤ a → mem' a = mem a) : SlabList mem' head xs := by
  have hfield (f : SlabField) (y : Nat) (hy : y ∈ xs) (hne : y ≠ slab) :
      slabField f mem' y = slabField f mem y := slabField_outside (hpages y hy).1 hslab hne hsame
  refine DList.congr hlist ?_ ?_
  · intro y hy
    by_cases hne : y = slab
    · subst hne
      exact (hown hy).1
    · exact hfield _ y hy hne
  · intro y hy
    by_cases hne : y = slab
    · subst hne
      exact (hown hy).2
    · exact hfield _ y hy hne

/-- The rule for changes inside one slab. -/
theorem SlabHeap.setObjs (hheap : SlabHeap Mapped s g) {mem' : ByteMem} {free : List Nat}
    (hslab : slab ∈ g.all b) (hok : SlabOk b mem' slab free)
    (hfield : ∀ f, f ≠ .countObjects → f ≠ .nextFree → slabField f mem' slab = slabField f s.mem slab)
    (hsame : ∀ a, a < slab ∨ slab + pageSize ≤ a → mem' a = s.mem a) :
    SlabHeap Mapped { s with mem := mem' } (g.setObjs slab free) := by
  have haligned := hheap.aligned hslab
  have hnext := hfield .nextSlab (by decide) (by decide)
  have hprev := hfield .prevSlab (by decide) (by decide)
  refine ⟨?_, ?_, hheap.nodup, hheap.owner, ?_, ?_, hheap.mapped, hheap.below, hheap.top,
    hheap.space⟩
  · intro c
    exact (hheap.freeList c).outside (hheap.freePages c) haligned (fun _ => ⟨hnext, hprev⟩) hsame
  · intro c
    exact (hheap.fullList c).outside (hheap.fullPages c) haligned (fun _ => ⟨hnext, hprev⟩) hsame
  · intro c x hx
    by_cases hne : x = slab
    · subst hne
      obtain rfl := hheap.owner b c x hslab hx
      simpa [Slabs.setObjs] using hok
    · have hold := (hheap.ok c x hx).outside haligned hne hsame
      simpa [Slabs.setObjs, hne] using hold
  · intro c x hx
    refine Eq.trans ?_ (hheap.phys c x hx)
    by_cases hne : x = slab
    · rw [hne]
      exact hfield .phys (by decide) (by decide)
    · exact slabField_outside (hheap.aligned hx) haligned hne hsame

/-- The same for a new list of free objects and their number in the header. -/
theorem SlabHeap.setFree (hheap : SlabHeap Mapped s g) (hslab : slab ∈ g.all b) {mem : ByteMem}
    {first count : Nat} {free : List Nat} (hfirst : first < 2 ^ 64) (hcount : count < 2 ^ 32)
    (hfield : ∀ f, slabField f mem slab = slabField f s.mem slab)
    (hsame : ∀ a, a < slab ∨ slab + pageSize ≤ a → mem a = s.mem a)
    (hlength : count + free.length = maxObjects b)
    (hchain : Chain (word mem) (tailLink b slab) first free) (hnodup : free.Nodup)
    (hsubset : ∀ o ∈ free, o ∈ objects b slab) :
    SlabHeap Mapped
      { s with mem := setSlabField .countObjects (setSlabField .nextFree mem slab first) slab count }
      (g.setObjs slab free) := by
  have hok := hheap.ok b slab hslab
  have haligned := hok.aligned
  refine hheap.setObjs hslab ⟨haligned, hok.pos, hok.top, ?_, ?_, ?_, hnodup, hsubset⟩ ?_ ?_
  · rw [slabField_set_other haligned haligned (Or.inl (by decide)),
      slabField_set_other haligned haligned (Or.inl (by decide)), hfield, hok.bin]
  · rw [slabField_set_same hcount]
    exact hlength
  · rw [slabField_set_other haligned haligned (Or.inl (by decide)), slabField_set_same hfirst]
    refine hchain.congr ?_
    intro p hp
    have hbody := object_inBody (hsubset p hp)
    rw [word_setSlabField haligned haligned hbody, word_setSlabField haligned haligned hbody]
  · intro f hf hf'
    rw [slabField_set_other haligned haligned (Or.inl hf),
      slabField_set_other haligned haligned (Or.inl hf'), hfield]
  · intro a ha
    rw [setSlabField_outside _ ha, setSlabField_outside _ ha, hsame a ha]

/-- Taking an object: the first free one is returned. -/
theorem popObject_heap (hheap : SlabHeap Mapped s g) {o : Nat} {rest : List Nat}
    (hslab : slab ∈ g.all b) (hobjs : g.objs slab = o :: rest) :
    (popObject slab s).1 = o ∧ SlabHeap Mapped (popObject slab s).2 (g.setObjs slab rest) := by
  have hok := hheap.ok b slab hslab
  rw [hobjs] at hok
  have haligned := hok.aligned
  obtain ⟨haddr, hchain⟩ := hok.chain
  have howner := object_slab haligned hok.top (hok.subset o (List.mem_cons_self ..))
  have hmax := (maxObjects_bounds b).2
  have hcount := hok.count
  rw [List.length_cons] at hcount
  have hcall : popObject slab s = (o, { s with
      mem := setSlabField .countObjects (setSlabField .nextFree s.mem slab (word s.mem o)) slab
        (slabField .countObjects s.mem slab + 1) }) := by
    unfold popObject
    dsimp only
    rw [haddr, howner, slabField_set_other haligned haligned (Or.inl (by decide)),
      Nat.mod_eq_of_lt (by omega)]
  rw [hcall]
  exact ⟨rfl, hheap.setFree hslab (word_lt s.mem o) (by omega) (fun _ => rfl) (fun _ _ => rfl)
    (by omega) hchain (List.nodup_cons.mp hok.nodup).2
    fun p hp => hok.subset p (List.mem_cons_of_mem o hp)⟩

/-- Fewer objects are free than there are when one is not. -/
theorem SlabOk.length_lt {mem : ByteMem} {free : List Nat} (hok : SlabOk b mem slab free)
    {o : Nat} (ho : o ∈ objects b slab) (hnot : o ∉ free) : free.length < maxObjects b := by
  have hsub : (o :: free) ⊆ objects b slab := by
    intro p hp
    rcases List.mem_cons.mp hp with rfl | hin
    · exact ho
    · exact hok.subset p hin
  have hle := (List.nodup_cons.mpr ⟨hnot, hok.nodup⟩).length_le_of_subset hsub
  rw [length_objects, List.length_cons] at hle
  exact hle

/-- Giving back an object that is not free. -/
theorem pushObject_heap (hheap : SlabHeap Mapped s g) {o : Nat} (hslab : slab ∈ g.all b)
    (ho : o ∈ objects b slab) (hnot : o ∉ g.objs slab) :
    SlabHeap Mapped (pushObject slab o s) (g.setObjs slab (o :: g.objs slab)) := by
  have hok := hheap.ok b slab hslab
  have haligned := hok.aligned
  have hbody := object_inBody ho
  have hlt := hok.length_lt ho hnot
  have hmax := (maxObjects_bounds b).2
  have hcount := hok.count
  have holt : o < 2 ^ 64 := by
    have htop := hok.top
    have hhigh := hbody.high
    omega
  have hcall : pushObject slab o s = { s with
      mem := setSlabField .countObjects
        (setSlabField .nextFree (setWord s.mem o (slabField .nextFree s.mem slab)) slab o) slab
        (slabField .countObjects s.mem slab - 1) } := by
    have hpred : (slabField .countObjects s.mem slab + 2 ^ 32 - 1) % 2 ^ 32 =
        slabField .countObjects s.mem slab - 1 := by omega
    unfold pushObject
    dsimp only
    rw [slabField_set_other haligned haligned (Or.inl (by decide)),
      slabField_setWord haligned haligned hbody, hpred]
  rw [hcall]
  refine hheap.setFree hslab holt (by omega) (fun _ => slabField_setWord haligned haligned hbody)
    ?_ ?_ ⟨rfl, ?_⟩ (List.nodup_cons.mpr ⟨hnot, hok.nodup⟩) ?_
  · intro a ha
    apply storeLE_of_outside
    obtain ⟨hlow, hhigh⟩ := hbody
    omega
  · rw [List.length_cons]
    omega
  · rw [word_setWord_same (slabField_lt .nextFree s.mem slab)]
    refine hok.chain.congr ?_
    intro p hp
    have hpo : p ≠ o := by
      rintro rfl
      exact hnot hp
    exact word_setWord_other (object_aligned haligned (hok.subset p hp))
      (object_aligned haligned ho) hpo
  · intro p hp
    rcases List.mem_cons.mp hp with rfl | hin
    · exact ho
    · exact hok.subset p hin

/-! ## A new slab -/

/-- `Mapped` follows what is mapped and unmapped. -/
structure TracksPages (ops : PageOps κ) (Mapped : κ → Nat → Prop) : Prop where
  pmmAlloc : ∀ k phys k', ops.pmmAlloc k = .ok (phys, k') → ∀ v, Mapped k' v ↔ Mapped k v
  pmmFree : ∀ k phys k', ops.pmmFree phys k = .ok k' → ∀ v, Mapped k' v ↔ Mapped k v
  vmmMap : ∀ k phys virt k', ops.vmmMap phys virt k = .ok k' → ∀ v, Mapped k' v ↔ v = virt ∨ Mapped k v
  vmmUnmap : ∀ k virt k', ops.vmmUnmap virt k = .ok k' → ∀ v, Mapped k' v ↔ Mapped k v ∧ v ≠ virt

/-- A bin with one more free slab, all of whose objects are free. -/
def Slabs.add (g : Slabs) (b : BinIdx) (slab phys : Nat) : Slabs :=
  { (g.relist b (slab :: g.free b) (g.full b)).setObjs slab (objects b slab) with
    phys := update g.phys slab phys }

theorem Slabs.all_add (g : Slabs) (b c : BinIdx) (slab phys : Nat) :
    (g.add b slab phys).all c = if c = b then slab :: g.free b ++ g.full b else g.all c :=
  g.all_relist b c _ _

theorem Slabs.mem_all_add {g : Slabs} {phys : Nat} : x ∈ (g.add b slab phys).all c ↔
    (c = b ∧ x = slab) ∨ x ∈ g.all c := by
  rw [Slabs.all_add]
  by_cases hcb : c = b
  · subst hcb
    simp [Slabs.all]
  · simp [hcb]

/-- The steps of `newSlab`. -/
theorem newSlab_ok_inv {ops : PageOps κ} (hcall : newSlab ops b s = .ok s') :
    ∃ phys k k', ops.pmmAlloc s.pages = .ok (phys, k) ∧
      ops.vmmMap phys ((slabVirtStart + s.slabTop) % 2 ^ 64) k = .ok k' ∧
      s' = { s with
        mem := setPrevSlab (setSlabField .prevSlab (setSlabField .nextSlab
          (formatSlab b ((slabVirtStart + s.slabTop) % 2 ^ 64) phys
            (showPage (ops.contents k' phys) ((slabVirtStart + s.slabTop) % 2 ^ 64) s.mem))
          ((slabVirtStart + s.slabTop) % 2 ^ 64) (s.freeSlabs b))
          ((slabVirtStart + s.slabTop) % 2 ^ 64) 0) (s.freeSlabs b)
          ((slabVirtStart + s.slabTop) % 2 ^ 64)
        freeSlabs := update s.freeSlabs b ((slabVirtStart + s.slabTop) % 2 ^ 64)
        slabTop := (s.slabTop + pageSize) % 2 ^ 64
        pages := k' } := by
  unfold newSlab at hcall
  cases halloc : ops.pmmAlloc s.pages with
  | error panic =>
    rw [halloc] at hcall
    cases hcall
  | ok result =>
    obtain ⟨phys, k⟩ := result
    rw [halloc] at hcall
    change (ops.vmmMap phys ((slabVirtStart + s.slabTop) % 2 ^ 64) k >>= _) = _ at hcall
    cases hmap : ops.vmmMap phys ((slabVirtStart + s.slabTop) % 2 ^ 64) k with
    | error panic =>
      rw [hmap] at hcall
      cases hcall
    | ok k' =>
      rw [hmap] at hcall
      cases hcall
      exact ⟨phys, k, k', rfl, hmap, rfl⟩

/-- The memory of a new slab that is alone in its list. -/
theorem newSlab_memory (b : BinIdx) (contents : Nat → UInt8) (phys : Nat) (mem : ByteMem)
    (hslab : slab % pageSize = 0) (hpos : 0 < slab) (htop : slab + pageSize < 2 ^ 64)
    {mem' : ByteMem} (hmem' : mem' = setSlabField .prevSlab (setSlabField .nextSlab
      (formatSlab b slab phys (showPage contents slab mem)) slab 0) slab 0) :
    SlabOk b mem' slab (objects b slab) ∧ slabField .nextSlab mem' slab = 0 ∧
      slabField .prevSlab mem' slab = 0 ∧
      ∀ a, a < slab ∨ slab + pageSize ≤ a → mem' a = mem a := by
  have hstores : LinkStores (formatSlab b slab phys (showPage contents slab mem)) mem' := by
    rw [hmem']
    exact (linkStores_setSlabField (Or.inl rfl) hslab).trans
      (linkStores_setSlabField (Or.inr rfl) hslab)
  have hformat := formatSlab_ok b phys (showPage contents slab mem) hslab hpos htop
  refine ⟨?_, ?_, ?_, ?_⟩
  · refine hformat.congr (hstores.field _ slab (by decide) (by decide) hslab)
      (hstores.field _ slab (by decide) (by decide) hslab)
      (hstores.field _ slab (by decide) (by decide) hslab) ?_
    intro o ho
    exact hstores.body slab o hslab (object_inBody ho)
  · rw [hmem', slabField_set_other hslab hslab (Or.inl (by decide)),
      slabField_set_same (by decide)]
  · rw [hmem', slabField_set_same (by decide)]
  · intro a ha
    rw [hmem', setSlabField_outside _ ha, setSlabField_outside _ ha,
      formatSlab_outside b phys _ hslab htop ha]
    unfold showPage
    rw [if_neg (by omega)]

/-- The page of a slab that `bin_alloc` would make for the bin now is not the last one of the address
space. -/
def SlabFits (b : BinIdx) (s : SlabState κ) : Prop :=
  s.freeSlabs b = 0 → slabVirtStart + s.slabTop + pageSize < 2 ^ 64

/-- A new slab is behind all others. -/
theorem newSlab_heap {ops : PageOps κ} (hpages : TracksPages ops Mapped)
    (hheap : SlabHeap Mapped s g) (hfits : SlabFits b s) (hempty : s.freeSlabs b = 0)
    (hcall : newSlab ops b s = .ok s') :
    (∀ c, slabVirtStart + s.slabTop ∉ g.all c) ∧
      SlabHeap Mapped s' (g.add b (slabVirtStart + s.slabTop)
        (slabField .phys s'.mem (slabVirtStart + s.slabTop))) := by
  obtain ⟨phys, k, k', halloc, hmap, rfl⟩ := newSlab_ok_inv hcall
  have htop := hheap.top
  have hlast := hfits hempty
  have hnew (c : BinIdx) : slabVirtStart + s.slabTop ∉ g.all c :=
    fun hin => Nat.lt_irrefl _ (hheap.below c _ hin)
  have haligned : (slabVirtStart + s.slabTop) % pageSize = 0 := by
    unfold slabVirtStart pageSize at *
    omega
  have hpos : 0 < slabVirtStart + s.slabTop := Nat.add_pos_left (by decide) _
  rw [Nat.mod_eq_of_lt hheap.space] at *
  have hbelow (c : BinIdx) (x : Nat) (hx : x ∈ g.all c) : x < slabVirtStart + s.slabTop + pageSize :=
    Nat.lt_add_right _ (hheap.below c x hx)
  have hmod : (s.slabTop + pageSize) % 2 ^ 64 = s.slabTop + pageSize := Nat.mod_eq_of_lt (by omega)
  generalize hslab : slabVirtStart + s.slabTop = slab at *
  have hmapped := hpages.vmmMap k phys slab k' hmap
  have hkeep := hpages.pmmAlloc s.pages phys k halloc
  have hnone : g.free b = [] := (DList.head_eq_null_iff (hheap.freeList b)).mp hempty
  refine ⟨hnew, ?_⟩
  rw [hempty]
  obtain ⟨mem', hmem'⟩ : ∃ mem', mem' = setSlabField .prevSlab (setSlabField .nextSlab
      (formatSlab b slab phys (showPage (ops.contents k' phys) slab s.mem)) slab 0) slab 0 :=
    ⟨_, rfl⟩
  obtain ⟨hok, hnext, hprev, hsame⟩ :=
    newSlab_memory b (ops.contents k' phys) phys s.mem haligned hpos hlast hmem'
  have hnoop (m : ByteMem) : setPrevSlab m 0 slab = m := rfl
  rw [hnoop, ← hmem']
  refine ⟨?_, ?_, ?_, ?_, ?_, ?_, ?_, ?_, ?_, ?_⟩
  · intro c
    by_cases hcb : c = b
    · subst hcb
      have hsingle : SlabList mem' slab [slab] :=
        ⟨rfl, Nat.pos_iff_ne_zero.mp hpos, hprev, hnext⟩
      simpa [Slabs.add, Slabs.relist, Slabs.setObjs, hnone] using hsingle
    · have hold := (hheap.freeList c).outside (hheap.freePages c) haligned
        (fun hin => absurd (List.mem_append_left _ hin) (hnew c)) hsame
      simpa [Slabs.add, Slabs.relist, Slabs.setObjs, hcb] using hold
  · intro c
    have hold := (hheap.fullList c).outside (hheap.fullPages c) haligned
      (fun hin => absurd (List.mem_append_right _ hin) (hnew c)) hsame
    simpa [Slabs.add, Slabs.relist, Slabs.setObjs] using hold
  · intro c
    rw [Slabs.all_add]
    split
    · exact List.nodup_cons.mpr ⟨hnew b, hheap.nodup b⟩
    · exact hheap.nodup c
  · intro c d x hc hd
    rcases Slabs.mem_all_add.mp hc with ⟨rfl, rfl⟩ | holdc
    · rcases Slabs.mem_all_add.mp hd with ⟨rfl, -⟩ | holdd
      · rfl
      · exact absurd holdd (hnew d)
    · rcases Slabs.mem_all_add.mp hd with ⟨rfl, rfl⟩ | holdd
      · exact absurd holdc (hnew c)
      · exact hheap.owner c d x holdc holdd
  · intro c x hx
    rcases Slabs.mem_all_add.mp hx with ⟨rfl, rfl⟩ | hold
    · simpa [Slabs.add, Slabs.setObjs] using hok
    · have hne : x ≠ slab := by
        rintro rfl
        exact hnew c hold
      have hokx := (hheap.ok c x hold).outside haligned hne hsame
      simpa [Slabs.add, Slabs.relist, Slabs.setObjs, hne] using hokx
  · intro c x hx
    rcases Slabs.mem_all_add.mp hx with ⟨-, rfl⟩ | hold
    · exact (update_self (β := fun _ => Nat) x _ g.phys).symm
    · have hne : x ≠ slab := fun heq => hnew c (heq ▸ hold)
      exact (slabField_outside (hheap.aligned hold) haligned hne hsame).trans
        ((hheap.phys c x hold).trans (update_of_ne hne ..).symm)
  · intro c x hx
    refine (hmapped x).mpr ?_
    rcases Slabs.mem_all_add.mp hx with ⟨-, rfl⟩ | hold
    · exact Or.inl rfl
    · exact Or.inr ((hkeep x).mpr (hheap.mapped c x hold))
  · intro c x hx
    rw [hmod, ← Nat.add_assoc, hslab]
    rcases Slabs.mem_all_add.mp hx with ⟨-, rfl⟩ | hold
    · exact Nat.lt_add_of_pos_right (by decide)
    · exact hbelow c x hold
  · show (s.slabTop + pageSize) % 2 ^ 64 % pageSize = 0
    rw [hmod, Nat.add_mod_right, htop]
  · show slabVirtStart + (s.slabTop + pageSize) % 2 ^ 64 < 2 ^ 64
    rwa [hmod, ← Nat.add_assoc, hslab]

end Heap

end Pristine.Kernel
