import Pristine.Kernel.Process
import Pristine.Kernel.Slab
import Pristine.Lib.LinkedList

/-!
# One slab page

A slab is used through two kinds of cells, header fields and words behind the
header.  They never overlap, so that a store to one is invisible to the others.

The loop of `bin_alloc` that links a new slab writes one link too many when the
object size does not divide the page, and the null word after the loop then ends
up inside the last object.  `SlabOk` therefore lets the free list end in
`tailLink`, and counts the objects instead.
-/

namespace Pristine.Kernel

open Lib

/-! ## Cells -/

/-- Eight bytes of the page at `slab` behind the header. -/
structure InBody (slab addr : Nat) : Prop where
  low : slab + sizeofSlabHeader ≤ addr
  high : addr + 8 ≤ slab + pageSize

theorem SlabField.in_header (field : SlabField) :
    field.offset + field.width ≤ sizeofSlabHeader := by
  cases field <;> decide

section Cells

variable {mem : ByteMem} {x y a b value : Nat} {f g : SlabField}

theorem slabField_set_same (hvalue : value < 256 ^ f.width) :
    slabField f (setSlabField f mem x value) x = value :=
  loadLE_storeLE_same mem _ _ _ hvalue

theorem slabField_set_other (hx : x % pageSize = 0) (hy : y % pageSize = 0)
    (hne : f ≠ g ∨ x ≠ y) : slabField f (setSlabField g mem y value) x = slabField f mem x := by
  apply loadLE_storeLE_disjoint
  have hf := f.in_header
  have hg := g.in_header
  unfold sizeofSlabHeader at hf hg
  unfold pageSize at hx hy
  by_cases hxy : x = y
  · subst hxy
    have hfg : f ≠ g := by simpa using hne
    revert hfg
    cases f <;> cases g <;> simp [SlabField.offset, SlabField.width]
  · omega

theorem slabField_setWord (hx : x % pageSize = 0) (hy : y % pageSize = 0) (ha : InBody y a) :
    slabField f (setWord mem a value) x = slabField f mem x := by
  apply loadLE_storeLE_disjoint
  have hf := f.in_header
  obtain ⟨hlow, hhigh⟩ := ha
  unfold sizeofSlabHeader pageSize at *
  omega

theorem word_setSlabField (hx : x % pageSize = 0) (hy : y % pageSize = 0) (ha : InBody y a) :
    word (setSlabField f mem x value) a = word mem a := by
  apply loadLE_storeLE_disjoint
  have hf := f.in_header
  obtain ⟨hlow, hhigh⟩ := ha
  unfold sizeofSlabHeader pageSize at *
  omega

theorem word_setWord_same (hvalue : value < 2 ^ 64) : word (setWord mem a value) a = value :=
  loadLE_storeLE_same mem a 8 value hvalue

theorem word_setWord_other (ha : a % 8 = 0) (hb : b % 8 = 0) (hne : a ≠ b) :
    word (setWord mem b value) a = word mem a := by
  apply loadLE_storeLE_disjoint
  omega

theorem word_lt (mem : ByteMem) (a : Nat) : word mem a < 2 ^ 64 := loadLE_lt mem a 8

theorem slabField_lt (f : SlabField) (mem : ByteMem) (x : Nat) :
    slabField f mem x < 256 ^ f.width :=
  loadLE_lt mem (x + f.offset) f.width

/-- A header only depends on the bytes of its page. -/
theorem slabField_congr {mem' : ByteMem} (hsame : ∀ a, x ≤ a → a < x + pageSize → mem' a = mem a) :
    slabField f mem' x = slabField f mem x := by
  apply loadLE_congr
  intro a hlo hhi
  have hf := f.in_header
  unfold sizeofSlabHeader at hf
  exact hsame a (by omega) (by unfold pageSize; omega)

end Cells

/-! ## Objects -/

/-- Object `k` of a slab of bin `b`. -/
def objectAt (b : BinIdx) (slab k : Nat) : Nat := slab + sizeofSlabHeader + k * objectSize b

/-- The objects of a slab, in address order. -/
def objects (b : BinIdx) (slab : Nat) : List Nat :=
  (List.range (maxObjects b)).map (objectAt b slab)

/-- The last link of a slab's free list.  Unless the objects fill the page it is not null
but the place where one more object would begin. -/
def tailLink (b : BinIdx) (slab : Nat) : Nat :=
  if maxObjects b * objectSize b = pageSize - sizeofSlabHeader then 0
  else objectAt b slab (maxObjects b)

section Objects

variable {b : BinIdx} {slab addr : Nat}

theorem objectSize_bounds (b : BinIdx) :
    objectSize b % 8 = 0 ∧ 8 ≤ objectSize b ∧ objectSize b ≤ 1024 := by
  revert b
  decide

theorem maxObjects_bounds (b : BinIdx) : 3 ≤ maxObjects b ∧ maxObjects b ≤ 506 := by
  revert b
  decide

/-- The objects fit, one more does not, and what is left over can hold a pointer. -/
theorem maxObjects_mul (b : BinIdx) :
    maxObjects b * objectSize b ≤ 4048 ∧ 4048 < maxObjects b * objectSize b + objectSize b ∧
      maxObjects b * objectSize b % 8 = 0 := by
  revert b
  decide

theorem objectAt_le (slab : Nat) {k : Nat} (hk : k < maxObjects b) :
    slab + sizeofSlabHeader ≤ objectAt b slab k ∧
      objectAt b slab k + objectSize b ≤ slab + pageSize := by
  have hmul : (k + 1) * objectSize b ≤ maxObjects b * objectSize b :=
    Nat.mul_le_mul_right _ hk
  have hmax := (maxObjects_mul b).1
  rw [Nat.add_mul, Nat.one_mul] at hmul
  unfold objectAt sizeofSlabHeader pageSize
  omega

theorem mem_objects : addr ∈ objects b slab ↔ ∃ k, k < maxObjects b ∧ addr = objectAt b slab k := by
  unfold objects
  rw [List.mem_map]
  constructor
  · rintro ⟨k, hk, rfl⟩
    exact ⟨k, List.mem_range.mp hk, rfl⟩
  · rintro ⟨k, hk, rfl⟩
    exact ⟨k, List.mem_range.mpr hk, rfl⟩

theorem length_objects : (objects b slab).length = maxObjects b := by
  unfold objects
  rw [List.length_map, List.length_range]

theorem objectAt_injective (b : BinIdx) (slab : Nat) : Function.Injective (objectAt b slab) := by
  intro j k hjk
  have hpos := (objectSize_bounds b).2.1
  exact Nat.eq_of_mul_eq_mul_right (by omega) (Nat.add_left_cancel hjk)

theorem nodup_objects : (objects b slab).Nodup :=
  List.nodup_range.map (objectAt_injective b slab)

theorem object_inside (haddr : addr ∈ objects b slab) :
    slab + sizeofSlabHeader ≤ addr ∧ addr + objectSize b ≤ slab + pageSize := by
  obtain ⟨k, hk, rfl⟩ := mem_objects.mp haddr
  exact objectAt_le slab hk

theorem object_inBody (haddr : addr ∈ objects b slab) : InBody slab addr := by
  have hinside := object_inside haddr
  have hsize := (objectSize_bounds b).2.1
  exact ⟨hinside.1, by omega⟩

theorem objectAt_aligned (hslab : slab % pageSize = 0) (k : Nat) : objectAt b slab k % 8 = 0 := by
  have hmul : k * objectSize b % 8 = 0 := by
    rw [Nat.mul_mod, (objectSize_bounds b).1, Nat.mul_zero, Nat.zero_mod]
  unfold objectAt sizeofSlabHeader
  unfold pageSize at hslab
  omega

theorem object_aligned (hslab : slab % pageSize = 0) (haddr : addr ∈ objects b slab) :
    addr % 8 = 0 := by
  obtain ⟨k, -, rfl⟩ := mem_objects.mp haddr
  exact objectAt_aligned hslab k

/-- Objects of one slab do not overlap. -/
theorem objects_apart {addr' : Nat} (haddr : addr ∈ objects b slab)
    (haddr' : addr' ∈ objects b slab) (hne : addr ≠ addr') :
    addr + objectSize b ≤ addr' ∨ addr' + objectSize b ≤ addr := by
  obtain ⟨j, -, rfl⟩ := mem_objects.mp haddr
  obtain ⟨k, -, rfl⟩ := mem_objects.mp haddr'
  have hjk : j ≠ k := by
    rintro rfl
    exact hne rfl
  unfold objectAt
  rcases Nat.lt_or_gt_of_ne hjk with hlt | hgt
  · have hmul : (j + 1) * objectSize b ≤ k * objectSize b := Nat.mul_le_mul_right _ hlt
    rw [Nat.add_mul, Nat.one_mul] at hmul
    omega
  · have hmul : (k + 1) * objectSize b ≤ j * objectSize b := Nat.mul_le_mul_right _ hgt
    rw [Nat.add_mul, Nat.one_mul] at hmul
    omega

/-- The slab of an object is found by rounding down. -/
theorem object_slab (hslab : slab % pageSize = 0) (htop : slab + pageSize < 2 ^ 64)
    (haddr : addr ∈ objects b slab) : addr &&& (2 ^ 64 - pageSize) = slab := by
  obtain ⟨hlow, hhigh⟩ := object_inside haddr
  have hsize := (objectSize_bounds b).2.1
  rw [and_pageMask (by omega)]
  unfold pageSize sizeofSlabHeader at *
  omega

end Objects

/-! ## One slab -/

/-- The page at `slab` is a slab of bin `b` with the free objects `free`. -/
structure SlabOk (b : BinIdx) (mem : ByteMem) (slab : Nat) (free : List Nat) : Prop where
  aligned : slab % pageSize = 0
  pos : 0 < slab
  top : slab + pageSize < 2 ^ 64
  bin : slabField .bin mem slab = b
  count : slabField .countObjects mem slab + free.length = maxObjects b
  chain : Chain (word mem) (tailLink b slab) (slabField .nextFree mem slab) free
  nodup : free.Nodup
  subset : ∀ o ∈ free, o ∈ objects b slab

theorem SlabOk.congr {b : BinIdx} {mem mem' : ByteMem} {slab : Nat} {free : List Nat}
    (hok : SlabOk b mem slab free) (hbin : slabField .bin mem' slab = slabField .bin mem slab)
    (hcount : slabField .countObjects mem' slab = slabField .countObjects mem slab)
    (hnext : slabField .nextFree mem' slab = slabField .nextFree mem slab)
    (hword : ∀ o ∈ free, word mem' o = word mem o) : SlabOk b mem' slab free := by
  refine ⟨hok.aligned, hok.pos, hok.top, hbin.trans hok.bin, ?_, ?_, hok.nodup, hok.subset⟩
  · rw [hcount]
    exact hok.count
  · rw [hnext]
    exact hok.chain.congr hword

section Format

variable {size stop fuel i : Nat} {mem : ByteMem}

/-- The loop writes between its bounds only. -/
theorem linkObjects_outside (hsize : size % 8 = 0) (hi : i % 8 = 0) (hstop : stop % 8 = 0)
    (hwrap : stop + size < 2 ^ 64) {a : Nat} (ha : a < i ∨ stop ≤ a) :
    linkObjects size stop fuel i mem a = mem a := by
  induction fuel generalizing i mem with
  | zero => rfl
  | succ fuel ih =>
    unfold linkObjects
    split
    · have hnext : (i + size) % 2 ^ 64 = i + size := Nat.mod_eq_of_lt (by omega)
      rw [hnext, ih (by omega) (by omega)]
      exact storeLE_of_outside _ (by omega)
    · rfl

/-- Every object the loop reaches is linked to the next. -/
theorem linkObjects_word (hpos : 8 ≤ size) (hsize : size % 8 = 0) (hi : i % 8 = 0)
    (hstop : stop % 8 = 0) (hwrap : stop + size < 2 ^ 64) {k : Nat} (hfuel : k < fuel)
    (hk : i + k * size < stop) :
    word (linkObjects size stop fuel i mem) (i + k * size) = i + (k + 1) * size := by
  induction fuel generalizing i mem k with
  | zero => omega
  | succ fuel ih =>
    have hlt : i < stop := Nat.lt_of_le_of_lt (Nat.le_add_right i _) hk
    have hnext : (i + size) % 2 ^ 64 = i + size := Nat.mod_eq_of_lt (by omega)
    unfold linkObjects
    rw [if_pos hlt, hnext]
    cases k with
    | zero =>
      -- later iterations write behind this object's link
      have hkeep : word (linkObjects size stop fuel (i + size) (setWord mem i (i + size))) i =
          word (setWord mem i (i + size)) i := by
        apply loadLE_congr
        intro a hlo hhi
        exact linkObjects_outside hsize (by omega) hstop hwrap (Or.inl (by omega))
      rw [Nat.zero_mul, Nat.add_zero, hkeep, word_setWord_same (by omega)]
      omega
    | succ k =>
      have hstep : i + (k + 1) * size = i + size + k * size := by
        rw [Nat.add_mul, Nat.one_mul]
        omega
      rw [hstep] at hk ⊢
      rw [ih (by omega) (by omega) hk, Nat.add_mul, Nat.add_mul (k + 1), Nat.one_mul]
      omega

variable {b : BinIdx} {slab : Nat}

theorem slabField_linkObjects {f : SlabField} (hslab : slab % pageSize = 0)
    (htop : slab + pageSize < 2 ^ 64) :
    slabField f (linkObjects (objectSize b) (slab + pageSize) fuel (slab + sizeofSlabHeader) mem)
      slab = slabField f mem slab := by
  obtain ⟨hmod, -, hle⟩ := objectSize_bounds b
  have hf := f.in_header
  apply loadLE_congr
  intro a hlo hhi
  unfold sizeofSlabHeader pageSize at *
  exact linkObjects_outside hmod (by omega) (by omega) (by omega) (by omega)

/-- After the loop the objects form a chain that ends behind the last one. -/
theorem linkObjects_chain (mem : ByteMem) (hslab : slab % pageSize = 0) (htop : slab + pageSize < 2 ^ 64) :
    Chain (word (linkObjects (objectSize b) (slab + pageSize) pageSize (slab + sizeofSlabHeader)
      mem)) (objectAt b slab (maxObjects b)) (slab + sizeofSlabHeader) (objects b slab) := by
  obtain ⟨hmod, hpos, hle⟩ := objectSize_bounds b
  have hmax := (maxObjects_bounds b).2
  have hhead : (slab + sizeofSlabHeader) % 8 = 0 := by
    unfold sizeofSlabHeader
    unfold pageSize at hslab
    omega
  have hstop : (slab + pageSize) % 8 = 0 := by
    unfold pageSize at *
    omega
  have hwrap : slab + pageSize + objectSize b < 2 ^ 64 := by
    unfold pageSize at *
    omega
  have hlink : ∀ k, 0 ≤ k → k < 0 + maxObjects b →
      word (linkObjects (objectSize b) (slab + pageSize) pageSize (slab + sizeofSlabHeader) mem)
        (objectAt b slab k) = objectAt b slab (k + 1) := by
    intro k _ hk
    have hinside := objectAt_le (b := b) (k := k) slab (by omega)
    have hfuel : k < pageSize := by
      unfold pageSize
      omega
    exact linkObjects_word hpos hmod hhead hstop hwrap hfuel
      (show objectAt b slab k < slab + pageSize by omega)
  have hchain := Chain.ofFn (objectAt b slab) 0 (maxObjects b) hlink
  have hfirst : objectAt b slab 0 = slab + sizeofSlabHeader := by simp [objectAt]
  rw [hfirst, Nat.zero_add, ← List.range_eq_range'] at hchain
  exact hchain

/-- The word meant to end the list: the link of the last object if the objects fill the
page, and no object's link otherwise. -/
theorem terminator_chain {m : ByteMem} {stop : Nat} (hstop : stop = slab + pageSize - objectSize b)
    (hslab : slab % pageSize = 0)
    (hchain : Chain (word m) (objectAt b slab (maxObjects b)) (slab + sizeofSlabHeader)
      (objects b slab)) :
    Chain (word (setWord m stop 0)) (tailLink b slab) (slab + sizeofSlabHeader)
      (objects b slab) := by
  obtain ⟨hmod, hpos, hle⟩ := objectSize_bounds b
  obtain ⟨hfit, hover, hmul⟩ := maxObjects_mul b
  have hstop8 : stop % 8 = 0 := by
    unfold pageSize at *
    omega
  have hother (o : Nat) (ho : o ∈ objects b slab) (hne : o ≠ stop) :
      word (setWord m stop 0) o = word m o :=
    word_setWord_other (object_aligned hslab ho) hstop8 hne
  unfold tailLink
  by_cases hfull : maxObjects b * objectSize b = pageSize - sizeofSlabHeader
  · rw [if_pos hfull]
    obtain ⟨last, hlast⟩ : ∃ last, maxObjects b = last + 1 :=
      ⟨maxObjects b - 1, by have := (maxObjects_bounds b).1; omega⟩
    have hsplit : objects b slab =
        (List.range last).map (objectAt b slab) ++ [objectAt b slab last] := by
      unfold objects
      rw [hlast, List.range_succ, List.map_append, List.map_singleton]
    have hlastAt : objectAt b slab last = stop := by
      rw [hlast, Nat.add_mul, Nat.one_mul] at hfull
      unfold objectAt
      rw [hstop]
      omega
    rw [hsplit] at hchain ⊢
    refine hchain.redirect ?_ ?_
    · intro o ho
      refine hother o (by rw [hsplit]; exact List.mem_append_left _ ho) ?_
      rintro rfl
      obtain ⟨k, hk, heq⟩ := List.mem_map.mp ho
      have hkl := objectAt_injective b slab (heq.trans hlastAt.symm)
      rw [hkl] at hk
      exact absurd (List.mem_range.mp hk) (Nat.lt_irrefl _)
    · rw [hlastAt]
      exact word_setWord_same (by decide)
  · rw [if_neg hfull]
    refine hchain.congr ?_
    intro o ho
    refine hother o ho ?_
    rintro rfl
    -- the terminator stands behind the link of the last object
    obtain ⟨k, hk, hkeq⟩ := mem_objects.mp ho
    have hupper : (k + 1) * objectSize b ≤ maxObjects b * objectSize b :=
      Nat.mul_le_mul_right _ hk
    rw [Nat.add_mul, Nat.one_mul] at hupper
    unfold objectAt at hkeq
    unfold sizeofSlabHeader pageSize at *
    omega

theorem slabEnd_eq (htop : slab + pageSize < 2 ^ 64) :
    (slab + pageSize) % 2 ^ 64 = slab + pageSize ∧
      (slab + pageSize + 2 ^ 64 - objectSize b) % 2 ^ 64 = slab + pageSize - objectSize b ∧
      InBody slab (slab + pageSize - objectSize b) := by
  have hsize := objectSize_bounds b
  refine ⟨?_, ?_, ?_, ?_⟩
  all_goals
    simp only [sizeofSlabHeader, pageSize] at *
    omega

/-- The fields of a header survive the loop and the writes after it. -/
theorem slabField_formatSlab {f : SlabField} (b : BinIdx) (phys : Nat) (mem : ByteMem)
    (hslab : slab % pageSize = 0) (htop : slab + pageSize < 2 ^ 64) (hf : f ≠ .nextFree) :
    slabField f (formatSlab b slab phys mem) slab = slabField f (setSlabField .bin (setSlabField .phys
      (setSlabField .countObjects mem slab 0) slab phys) slab b) slab := by
  obtain ⟨hend, hstop, hbody⟩ := slabEnd_eq (b := b) htop
  unfold formatSlab
  dsimp only
  rw [hend, hstop, slabField_set_other hslab hslab (Or.inl hf), slabField_setWord hslab hslab hbody,
    slabField_linkObjects hslab htop]

theorem formatSlab_bin (b : BinIdx) (phys : Nat) (mem : ByteMem) (hslab : slab % pageSize = 0)
    (htop : slab + pageSize < 2 ^ 64) : slabField .bin (formatSlab b slab phys mem) slab = b := by
  rw [slabField_formatSlab b phys mem hslab htop (by decide), slabField_set_same]
  exact Nat.lt_of_lt_of_le b.isLt (by decide)

theorem formatSlab_count (b : BinIdx) (phys : Nat) (mem : ByteMem) (hslab : slab % pageSize = 0)
    (htop : slab + pageSize < 2 ^ 64) :
    slabField .countObjects (formatSlab b slab phys mem) slab = 0 := by
  rw [slabField_formatSlab b phys mem hslab htop (by decide),
    slabField_set_other hslab hslab (Or.inl (by decide)),
    slabField_set_other hslab hslab (Or.inl (by decide)), slabField_set_same (by decide)]

/-- A new slab, all of whose objects are free. -/
theorem formatSlab_ok (b : BinIdx) (phys : Nat) (mem : ByteMem) (hslab : slab % pageSize = 0)
    (hpos : 0 < slab) (htop : slab + pageSize < 2 ^ 64) :
    SlabOk b (formatSlab b slab phys mem) slab (objects b slab) := by
  refine ⟨hslab, hpos, htop, formatSlab_bin b phys mem hslab htop, ?_, ?_, nodup_objects,
    fun o ho => ho⟩
  · rw [formatSlab_count b phys mem hslab htop, length_objects, Nat.zero_add]
  · obtain ⟨hend, hstop, -⟩ := slabEnd_eq (b := b) htop
    unfold formatSlab
    dsimp only
    rw [hend, hstop]
    generalize setSlabField .bin _ slab _ = m
    rw [slabField_set_same]
    · refine (terminator_chain rfl hslab (linkObjects_chain m hslab htop)).congr ?_
      intro o ho
      exact word_setSlabField hslab hslab (object_inBody ho)
    · show slab + sizeofSlabHeader < 256 ^ 8
      unfold sizeofSlabHeader
      unfold pageSize at htop
      omega

theorem setSlabField_outside {f : SlabField} {value a : Nat} (mem : ByteMem)
    (ha : a < slab ∨ slab + pageSize ≤ a) : setSlabField f mem slab value a = mem a := by
  have hf := f.in_header
  apply storeLE_of_outside
  unfold sizeofSlabHeader at hf
  unfold pageSize at ha
  omega

/-- Formatting a slab changes nothing outside its page. -/
theorem formatSlab_outside (b : BinIdx) (phys : Nat) (mem : ByteMem) (hslab : slab % pageSize = 0)
    (htop : slab + pageSize < 2 ^ 64) {a : Nat} (ha : a < slab ∨ slab + pageSize ≤ a) :
    formatSlab b slab phys mem a = mem a := by
  obtain ⟨hend, hstop, -⟩ := slabEnd_eq (b := b) htop
  obtain ⟨hmod, hpos, hle⟩ := objectSize_bounds b
  unfold formatSlab
  rw [hend, hstop, setSlabField_outside _ ha]
  have hword (m : ByteMem) : setWord m (slab + pageSize - objectSize b) 0 a = m a := by
    apply storeLE_of_outside
    unfold pageSize at *
    omega
  rw [hword, linkObjects_outside hmod, setSlabField_outside _ ha, setSlabField_outside _ ha,
    setSlabField_outside _ ha]
  all_goals
    unfold sizeofSlabHeader pageSize at *
    omega

end Format

end Pristine.Kernel
