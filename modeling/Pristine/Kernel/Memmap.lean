import Pristine.Kernel.Process

/-!
# The memory map

`memmap_bitmap_init` paints the pages of each E820 entry into the page bitmap,
entry after entry: free for type 1, used for every other type.  Both ends of an
entry are rounded up, so a page belongs to the entry that holds its first byte.
`memmapContract_iff_cleanMap` says for which maps the result is the set of pages
that consist of usable memory.
-/

namespace Pristine.Kernel

open Lib

/-- `MemmapEntry`. -/
structure MemmapEntry where
  baseAddrLow : UInt32
  baseAddrHigh : UInt32
  lengthLow : UInt32
  lengthHigh : UInt32
  type : UInt32
  deriving DecidableEq, Repr

namespace MemmapEntry

variable (e : MemmapEntry)

/-- `entry_base`. -/
def entryBase : Nat := e.baseAddrHigh.toNat <<< 32 ||| e.baseAddrLow.toNat

/-- `entry_size`. -/
def entrySize : Nat := e.lengthHigh.toNat <<< 32 ||| e.lengthLow.toNat

/-- `base`. -/
def base : Nat := alignUp e.entryBase pageSize

/-- `end`. -/
def stop : Nat := alignUp ((e.entryBase + e.entrySize) % 2 ^ 64) pageSize

/-- Iterations of the painting loop. -/
def pages : Nat := pagesBetween e.base e.stop

end MemmapEntry

/-- `MemmapInitResult`. -/
structure MemmapInitResult where
  memoryUsable : Nat
  memoryUsableTop : Nat
  memoryTop : Nat
  deriving DecidableEq, Repr

/-- The loop `for (m = start; ...; m += VMM_DEFAULT_PAGE_SIZE)` over `bitmap_set` or
`bitmap_clear`, which take a 32-bit index. -/
def paintPages (paint : ByteMem → Nat → ByteMem) : Nat → Nat → ByteMem → ByteMem
  | 0, _, bitmap => bitmap
  | left + 1, m, bitmap =>
    paintPages paint left (m + pageSize) (paint bitmap (m / pageSize % 2 ^ 32))

/-- One iteration over the entries. -/
def memmapStep (acc : MemmapInitResult × ByteMem) (e : MemmapEntry) :
    MemmapInitResult × ByteMem :=
  let memoryTop := if acc.1.memoryTop < e.stop then e.stop else acc.1.memoryTop
  if e.type = 1 then
    ({ memoryUsable := (acc.1.memoryUsable + e.entrySize) % 2 ^ 32
       memoryUsableTop :=
        if acc.1.memoryUsableTop < e.stop then e.stop else acc.1.memoryUsableTop
       memoryTop := memoryTop },
      paintPages bitmapClear e.pages e.base acc.2)
  else
    ({ acc.1 with memoryTop := memoryTop }, paintPages bitmapSet e.pages e.base acc.2)

/-- `memmap_bitmap_init`. -/
def memmapBitmapInit (entries : List MemmapEntry) (bitmap : ByteMem) :
    MemmapInitResult × ByteMem :=
  entries.foldl memmapStep (⟨0, 0, 0⟩, bitmap)

/-- The set-up in `kmain`: `bitmap_clear_all`, then `memmap_bitmap_init`. -/
def memmapSetup (mem : ByteMem) (size : Nat) (entries : List MemmapEntry) :
    MemmapInitResult × ByteMem :=
  memmapBitmapInit entries (bitmapClearAll mem size)

theorem bitAt_bitmapClearAll (mem : ByteMem) {size i : Nat} (hi : i < 8 * size) :
    bitAt (bitmapClearAll mem size) i = false := by
  have hin : 0 ≤ i / 8 ∧ i / 8 < 0 + size := by omega
  unfold bitAt bitmapClearAll fill
  rw [if_pos hin]
  exact Nat.zero_testBit _

/-! ## Painting -/

/-- The loop paints bit `i`. -/
def PaintsFrom (left m i : Nat) : Prop :=
  ∃ k, k < left ∧ (m / pageSize + k) % 2 ^ 32 = i

/-- Entry `e` paints bit `i`. -/
def MemmapEntry.Paints (e : MemmapEntry) (i : Nat) : Prop :=
  PaintsFrom e.pages e.base i

theorem paintsFrom_succ {left m i : Nat} :
    PaintsFrom (left + 1) m i ↔ m / pageSize % 2 ^ 32 = i ∨ PaintsFrom left (m + pageSize) i := by
  have hnext : (m + pageSize) / pageSize = m / pageSize + 1 := Nat.add_div_right m (by decide)
  unfold PaintsFrom
  rw [hnext]
  constructor
  · rintro ⟨k, hk, hi⟩
    cases k with
    | zero => exact Or.inl hi
    | succ k => exact Or.inr ⟨k, by omega, by rw [← hi]; congr 1; omega⟩
  · rintro (hi | ⟨k, hk, hi⟩)
    · exact ⟨0, by omega, hi⟩
    · exact ⟨k + 1, by omega, by rw [← hi]; congr 1; omega⟩

section Painting

variable {paint : ByteMem → Nat → ByteMem} {value : Bool}

/-- Bits the loop does not reach keep their value. -/
theorem bitAt_paintPages_other
    (hpaint : ∀ bitmap j i, j ≠ i → bitAt (paint bitmap j) i = bitAt bitmap i)
    {left m i : Nat} (hnot : ¬ PaintsFrom left m i) (bitmap : ByteMem) :
    bitAt (paintPages paint left m bitmap) i = bitAt bitmap i := by
  induction left generalizing m bitmap with
  | zero => rfl
  | succ left ih =>
    rw [paintsFrom_succ, not_or] at hnot
    rw [paintPages, ih hnot.2, hpaint _ _ _ hnot.1]

/-- The others have the painted value. -/
theorem bitAt_paintPages (hpaint : ∀ bitmap j i, j ≠ i → bitAt (paint bitmap j) i = bitAt bitmap i)
    (hvalue : ∀ bitmap i, bitAt (paint bitmap i) i = value)
    {left m i : Nat} (hpaints : PaintsFrom left m i) (bitmap : ByteMem) :
    bitAt (paintPages paint left m bitmap) i = value := by
  induction left generalizing m bitmap with
  | zero =>
    obtain ⟨k, hk, -⟩ := hpaints
    omega
  | succ left ih =>
    rw [paintPages]
    by_cases hrest : PaintsFrom left (m + pageSize) i
    · exact ih hrest _
    · obtain rfl := (paintsFrom_succ.mp hpaints).resolve_right hrest
      rw [bitAt_paintPages_other hpaint hrest, hvalue]

end Painting

theorem bitAt_bitmapSet_other (bitmap : ByteMem) (j i : Nat) (hne : j ≠ i) :
    bitAt (bitmapSet bitmap j) i = bitAt bitmap i := by
  simp [hne]

theorem bitAt_bitmapClear_other (bitmap : ByteMem) (j i : Nat) (hne : j ≠ i) :
    bitAt (bitmapClear bitmap j) i = bitAt bitmap i := by
  simp [hne]

section Step

variable {e : MemmapEntry} {i : Nat}

/-- An entry decides the bits it paints. -/
theorem bitAt_memmapStep (hpaints : e.Paints i) (acc : MemmapInitResult × ByteMem) :
    bitAt (memmapStep acc e).2 i = decide (e.type ≠ 1) := by
  unfold memmapStep
  by_cases htype : e.type = 1
  · simp only [htype, if_true]
    exact bitAt_paintPages bitAt_bitmapClear_other (fun _ _ => by simp) hpaints _
  · simp only [htype, if_false, ne_eq, not_false_eq_true, decide_true]
    exact bitAt_paintPages bitAt_bitmapSet_other (fun _ _ => by simp) hpaints _

theorem bitAt_memmapStep_other (hnot : ¬ e.Paints i) (acc : MemmapInitResult × ByteMem) :
    bitAt (memmapStep acc e).2 i = bitAt acc.2 i := by
  unfold memmapStep
  by_cases htype : e.type = 1
  · simp only [htype, if_true]
    exact bitAt_paintPages_other bitAt_bitmapClear_other hnot _
  · simp only [htype, if_false]
    exact bitAt_paintPages_other bitAt_bitmapSet_other hnot _

end Step

/-! ## The bitmap after all entries -/

section Entries

variable {entries : List MemmapEntry} {bitmap : ByteMem} {i : Nat}

theorem memmapBitmapInit_snoc (entries : List MemmapEntry) (e : MemmapEntry) (bitmap : ByteMem) :
    memmapBitmapInit (entries ++ [e]) bitmap = memmapStep (memmapBitmapInit entries bitmap) e := by
  simp [memmapBitmapInit]

/-- No entry paints the bit. -/
theorem bitAt_memmap_unpainted (hnone : ∀ e ∈ entries, ¬ e.Paints i) :
    bitAt (memmapBitmapInit entries bitmap).2 i = bitAt bitmap i := by
  induction entries using List.reverseRecOn with
  | nil => rfl
  | append_singleton entries e ih =>
    rw [memmapBitmapInit_snoc, bitAt_memmapStep_other (hnone e (by simp))]
    exact ih fun e' he' => hnone e' (by simp [he'])

/-- Entry `e` is the last one that paints the bit. -/
def LastPainter (entries : List MemmapEntry) (i : Nat) (e : MemmapEntry) : Prop :=
  ∃ before after, entries = before ++ e :: after ∧ e.Paints i ∧ ∀ e' ∈ after, ¬ e'.Paints i

/-- The last entry that paints the bit decides it. -/
theorem bitAt_memmap_last {e : MemmapEntry} (hlast : LastPainter entries i e) :
    bitAt (memmapBitmapInit entries bitmap).2 i = decide (e.type ≠ 1) := by
  obtain ⟨before, after, rfl, hpaints, hafter⟩ := hlast
  induction after using List.reverseRecOn with
  | nil => rw [memmapBitmapInit_snoc, bitAt_memmapStep hpaints]
  | append_singleton after e' ih =>
    rw [← List.cons_append, ← List.append_assoc, memmapBitmapInit_snoc,
      bitAt_memmapStep_other (hafter e' (by simp))]
    exact ih fun e'' he'' => hafter e'' (by simp [he''])

theorem exists_lastPainter {e : MemmapEntry} (he : e ∈ entries) (hpaints : e.Paints i) :
    ∃ e', e' ∈ entries ∧ LastPainter entries i e' := by
  induction entries using List.reverseRecOn with
  | nil => exact absurd he List.not_mem_nil
  | append_singleton entries last ih =>
    by_cases hlast : last.Paints i
    · exact ⟨last, by simp, entries, [], rfl, hlast, by simp⟩
    · have hmem : e ∈ entries := by
        rcases List.mem_append.mp he with h | h
        · exact h
        · obtain rfl := List.mem_singleton.mp h
          exact absurd hpaints hlast
      obtain ⟨e', he', before, after, rfl, hpaints', hafter⟩ := ih hmem
      refine ⟨e', by simp, before, after ++ [last], by simp, hpaints', ?_⟩
      intro e'' he''
      rcases List.mem_append.mp he'' with h | h
      · exact hafter e'' h
      · obtain rfl := List.mem_singleton.mp h
        exact hlast

/-- If all entries that paint the bit agree, their order does not matter. -/
theorem bitAt_memmap_agree {value : Bool} {e : MemmapEntry} (he : e ∈ entries)
    (hpaints : e.Paints i) (hagree : ∀ e' ∈ entries, e'.Paints i → decide (e'.type ≠ 1) = value) :
    bitAt (memmapBitmapInit entries bitmap).2 i = value := by
  obtain ⟨e', he', hlast⟩ := exists_lastPainter he hpaints
  have hpaints' : e'.Paints i := by
    obtain ⟨-, -, -, h, -⟩ := hlast
    exact h
  rw [bitAt_memmap_last hlast, hagree e' he' hpaints']

/-- The usable top is the largest rounded end of a usable entry. -/
theorem lt_memoryUsableTop_iff (entries : List MemmapEntry) (bitmap : ByteMem) (a : Nat) :
    a < (memmapBitmapInit entries bitmap).1.memoryUsableTop ↔
      ∃ e ∈ entries, e.type = 1 ∧ a < e.stop := by
  induction entries using List.reverseRecOn with
  | nil => simp [memmapBitmapInit]
  | append_singleton entries e ih =>
    simp only [memmapBitmapInit_snoc, List.mem_append, List.mem_singleton, or_and_right, exists_or,
      exists_eq_left, ← ih]
    unfold memmapStep
    by_cases htype : e.type = 1
    · simp only [htype, if_true, true_and]
      split <;> omega
    · simp [htype]

end Entries

/-! ## Pages of usable memory -/

/-- Byte `a` lies in the entry.  Addresses have 64 bits. -/
def MemmapEntry.Holds (e : MemmapEntry) (a : Nat) : Prop :=
  ∃ k, k < e.entrySize ∧ a = (e.entryBase + k) % 2 ^ 64

/-- Every byte of page `n` lies in a usable entry, and none in an entry of another type. -/
def RealRam (entries : List MemmapEntry) (n : Nat) : Prop :=
  ∀ k, k < pageSize → (∃ e ∈ entries, e.type = 1 ∧ e.Holds (pageSize * n + k)) ∧
    ∀ e ∈ entries, e.type ≠ 1 → ¬ e.Holds (pageSize * n + k)

/-- Bitmap index of page `n`, an `uint32_t`. -/
def pageIndex (n : Nat) : Nat := n % 2 ^ 32

/-- In whatever order the entries come, the free pages below the usable top are those of usable
memory. -/
def MemmapContract (mem : ByteMem) (size : Nat) (entries : List MemmapEntry) : Prop :=
  ∀ ordered, ordered.Perm entries →
    ∀ n, pageSize * n < (memmapSetup mem size ordered).1.memoryUsableTop →
      (bitAt (memmapSetup mem size ordered).2 (pageIndex n) = false ↔ RealRam entries n)

/-- An entry that paints a page below the usable top is of type 1 exactly if the page is usable
memory, and a page that no entry paints has the right value from the start. -/
def CleanMap (mem : ByteMem) (size : Nat) (entries : List MemmapEntry) : Prop :=
  ∀ n, (∃ e ∈ entries, e.type = 1 ∧ pageSize * n < e.stop) →
    (∀ e ∈ entries, e.Paints (pageIndex n) → (e.type = 1 ↔ RealRam entries n)) ∧
      ((∀ e ∈ entries, ¬ e.Paints (pageIndex n)) →
        (bitAt (bitmapClearAll mem size) (pageIndex n) = false ↔ RealRam entries n))

/-- Some order paints with a given entry last. -/
theorem exists_order_last {entries : List MemmapEntry} {e : MemmapEntry} {i : Nat}
    (he : e ∈ entries) (hpaints : e.Paints i) :
    ∃ ordered, ordered.Perm entries ∧ LastPainter ordered i e := by
  refine ⟨entries.erase e ++ [e], ?_, entries.erase e, [], rfl, hpaints, by simp⟩
  exact (List.perm_append_singleton e _).trans (List.perm_cons_erase he).symm

/-- For which memory maps the free pages are those of usable memory. -/
theorem memmapContract_iff_cleanMap (mem : ByteMem) (size : Nat) (entries : List MemmapEntry) :
    MemmapContract mem size entries ↔ CleanMap mem size entries := by
  constructor
  · intro hcontract n htop
    have hbit (ordered : List MemmapEntry) (hperm : ordered.Perm entries) :
        bitAt (memmapSetup mem size ordered).2 (pageIndex n) = false ↔ RealRam entries n := by
      obtain ⟨e, he, htype, hlt⟩ := htop
      refine hcontract ordered hperm n ?_
      exact (lt_memoryUsableTop_iff _ _ _).mpr ⟨e, hperm.mem_iff.mpr he, htype, hlt⟩
    refine ⟨?_, ?_⟩
    · intro e he hpaints
      obtain ⟨ordered, hperm, hlast⟩ := exists_order_last he hpaints
      rw [← hbit ordered hperm, memmapSetup, bitAt_memmap_last hlast]
      simp
    · intro hnone
      rw [← hbit entries (List.Perm.refl _), memmapSetup, bitAt_memmap_unpainted hnone]
  · intro hclean ordered hperm n htop
    obtain ⟨e₀, he₀, htype₀, hlt₀⟩ := (lt_memoryUsableTop_iff _ _ _).mp htop
    obtain ⟨hpainted, hunpainted⟩ := hclean n ⟨e₀, hperm.mem_iff.mp he₀, htype₀, hlt₀⟩
    unfold memmapSetup
    by_cases hsome : ∃ e ∈ ordered, e.Paints (pageIndex n)
    · -- the entries that paint the page agree, so their order does not matter
      obtain ⟨e, he, hpaints⟩ := hsome
      have hagree (e' : MemmapEntry) (he' : e' ∈ ordered) (hpaints' : e'.Paints (pageIndex n)) :
          decide (e'.type ≠ 1) = decide (e.type ≠ 1) := by
        have hiff := hpainted e' (hperm.mem_iff.mp he') hpaints'
        rw [← hpainted e (hperm.mem_iff.mp he) hpaints] at hiff
        simp [hiff]
      rw [bitAt_memmap_agree he hpaints hagree,
        ← hpainted e (hperm.mem_iff.mp he) hpaints]
      simp
    · have hnone : ∀ e ∈ ordered, ¬ e.Paints (pageIndex n) :=
        fun e he hpaints => hsome ⟨e, he, hpaints⟩
      rw [bitAt_memmap_unpainted hnone]
      exact hunpainted fun e he => hnone e (hperm.mem_iff.mpr he)

/-- One megabyte of usable memory that begins at one megabyte. -/
def secondMegabyte : MemmapEntry := ⟨0x100000, 0, 0x100000, 0, 1⟩

/-- The page at address 0, which the map does not describe, is marked free. -/
theorem memmap_gap_is_free :
    0 < (memmapSetup (fun _ => 0) 0xC0000 [secondMegabyte]).1.memoryUsableTop ∧
      bitAt (memmapSetup (fun _ => 0) 0xC0000 [secondMegabyte]).2 (pageIndex 0) = false ∧
      ¬ RealRam [secondMegabyte] 0 ∧ ¬ MemmapContract (fun _ => 0) 0xC0000 [secondMegabyte] := by
  have htop : 0 < (memmapSetup (fun _ => 0) 0xC0000 [secondMegabyte]).1.memoryUsableTop :=
    (lt_memoryUsableTop_iff _ _ _).mpr
      ⟨secondMegabyte, List.mem_singleton_self _, by decide, by decide +kernel⟩
  have hnot : ¬ secondMegabyte.Paints (pageIndex 0) := by
    rintro ⟨k, hk, hi⟩
    have hpages : secondMegabyte.pages = 256 := by decide +kernel
    have hbase : secondMegabyte.base / pageSize = 256 := by decide +kernel
    have hzero : pageIndex 0 = 0 := rfl
    rw [hbase, hzero] at hi
    omega
  have hfree :
      bitAt (memmapSetup (fun _ => 0) 0xC0000 [secondMegabyte]).2 (pageIndex 0) = false := by
    rw [memmapSetup, bitAt_memmap_unpainted (by simpa using hnot)]
    exact bitAt_bitmapClearAll _ (by decide)
  have hram : ¬ RealRam [secondMegabyte] 0 := by
    intro hram
    obtain ⟨⟨e, he, -, k, hk, ha⟩, -⟩ := hram 0 (by decide)
    obtain rfl := List.mem_singleton.mp he
    have hbase : secondMegabyte.entryBase = 0x100000 := by decide +kernel
    have hsize : secondMegabyte.entrySize = 0x100000 := by decide +kernel
    rw [hsize] at hk
    rw [hbase] at ha
    omega
  refine ⟨htop, hfree, hram, fun hcontract => hram ?_⟩
  exact (hcontract _ (List.Perm.refl _) 0 htop).mp hfree

end Pristine.Kernel
