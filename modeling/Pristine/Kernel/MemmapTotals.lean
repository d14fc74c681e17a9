import Pristine.Kernel.Boot

/-!
# Totals and bounds of the memory map

`memmap_bitmap_init` adds the usable lengths in 32 bits, rounds the ends in 64
bits, and passes the page numbers to the bitmap as 32-bit indices without a
bound.  `totalsExact_iff` says for which maps its totals are the exact ones, and
`paintsInside_iff` for which maps it stays inside the bitmap of stage 2.
-/

namespace Pristine.Kernel

open Lib

/-! ## Totals -/

/-- The largest member of a list, 0 for none. -/
def listMax (values : List Nat) : Nat := values.foldr max 0

theorem lt_listMax_iff (values : List Nat) (a : Nat) :
    a < listMax values ↔ ∃ v ∈ values, a < v := by
  unfold listMax
  induction values with
  | nil => simp
  | cons v values ih =>
    rw [List.foldr_cons, lt_max_iff, ih]
    simp

theorem lt_listMax_map_iff {α : Type} (f : α → Nat) (xs : List α) (a : Nat) :
    a < listMax (xs.map f) ↔ ∃ x ∈ xs, a < f x := by
  rw [lt_listMax_iff]
  simp only [List.mem_map, exists_exists_and_eq_and]

/-- Numbers with the same smaller numbers are equal. -/
theorem eq_of_lt_iff {x y : Nat} (h : ∀ a, a < x ↔ a < y) : x = y := by
  have hx := h x
  have hy := h y
  omega

namespace MemmapEntry

variable (e : MemmapEntry)

/-- The end of the entry, rounded up to a page. -/
def exactEnd : Nat := (e.entryBase + e.entrySize + (pageSize - 1)) / pageSize * pageSize

/-- The page of the rounded base, as a 64-bit address gives it. -/
def firstPage : Nat := (e.entryBase + (pageSize - 1)) / pageSize % 2 ^ 52

/-- The page of the rounded end, as a 64-bit address gives it. -/
def endPage : Nat := ((e.entryBase + e.entrySize) % 2 ^ 64 + (pageSize - 1)) / pageSize % 2 ^ 52

/-- The entry does not come so close to the end of the address space that its end is 0. -/
def EndFits : Prop := e.entryBase + e.entrySize ≤ 2 ^ 64 - pageSize

instance : Decidable e.EndFits := inferInstanceAs (Decidable (_ ≤ _))

theorem base_eq : e.base = e.firstPage * pageSize := by
  unfold base firstPage
  rw [alignUp_pageSize]
  unfold pageSize
  omega

theorem stop_eq : e.stop = e.endPage * pageSize := by
  unfold stop endPage
  rw [alignUp_pageSize]
  unfold pageSize
  omega

theorem endPage_lt : e.endPage < 2 ^ 52 := Nat.mod_lt _ (by decide)

theorem pages_eq : e.pages = e.endPage - e.firstPage := by
  unfold pages pagesBetween
  rw [base_eq, stop_eq]
  unfold pageSize
  omega

variable {e}

theorem stop_of_endFits (hfits : e.EndFits) : e.stop = e.exactEnd := by
  unfold EndFits pageSize at hfits
  rw [stop_eq]
  unfold endPage exactEnd pageSize
  omega

/-- A rounded end that does not fit is above every end in 64 bits. -/
theorem stop_lt_exactEnd (hfits : ¬ e.EndFits) (e' : MemmapEntry) : e'.stop < e.exactEnd := by
  have hlt := e'.endPage_lt
  unfold EndFits pageSize at hfits
  rw [stop_eq]
  unfold exactEnd pageSize
  omega

end MemmapEntry

/-- The usable bytes of a memory map. -/
def usableSum (entries : List MemmapEntry) : Nat :=
  ((entries.filter fun e => e.type = 1).map MemmapEntry.entrySize).sum

/-- In whatever order the entries come, the totals are the exact sum and the exact maxima. -/
def TotalsExact (entries : List MemmapEntry) (bitmap : ByteMem) : Prop :=
  ∀ ordered, ordered.Perm entries →
    let result := (memmapBitmapInit ordered bitmap).1
    result.memoryUsable = usableSum entries ∧
      result.memoryUsableTop =
        listMax ((entries.filter fun e => e.type = 1).map MemmapEntry.exactEnd) ∧
      result.memoryTop = listMax (entries.map MemmapEntry.exactEnd)

section Totals

variable (entries : List MemmapEntry) (bitmap : ByteMem)

theorem memoryUsable_eq :
    (memmapBitmapInit entries bitmap).1.memoryUsable = usableSum entries % 2 ^ 32 := by
  unfold usableSum
  induction entries using List.reverseRecOn with
  | nil => rfl
  | append_singleton entries e ih =>
    rw [memmapBitmapInit_snoc, List.filter_append, List.map_append, List.sum_append]
    unfold memmapStep
    by_cases htype : e.type = 1
    · simp only [htype, if_true, decide_true, List.filter_cons_of_pos, List.filter_nil,
        List.map_cons, List.map_nil, List.sum_cons, List.sum_nil, ih]
      omega
    · simp [htype, ih]

/-- The top is the largest rounded end. -/
theorem lt_memoryTop_iff (a : Nat) :
    a < (memmapBitmapInit entries bitmap).1.memoryTop ↔ ∃ e ∈ entries, a < e.stop := by
  induction entries using List.reverseRecOn with
  | nil => simp [memmapBitmapInit]
  | append_singleton entries e ih =>
    have hstep : (memmapStep (memmapBitmapInit entries bitmap) e).1.memoryTop =
        if (memmapBitmapInit entries bitmap).1.memoryTop < e.stop then e.stop
        else (memmapBitmapInit entries bitmap).1.memoryTop := by
      unfold memmapStep
      by_cases htype : e.type = 1 <;> simp [htype]
    simp only [memmapBitmapInit_snoc, List.mem_append, List.mem_singleton, or_and_right, exists_or,
      exists_eq_left, ← ih, hstep]
    split <;> omega

variable {entries bitmap}

theorem memoryTop_of_endFits (hfits : ∀ e ∈ entries, e.EndFits) :
    (memmapBitmapInit entries bitmap).1.memoryTop = listMax (entries.map MemmapEntry.exactEnd) := by
  refine eq_of_lt_iff fun a => ?_
  rw [lt_memoryTop_iff, lt_listMax_map_iff]
  exact exists_congr fun e => and_congr_right fun he => by
    rw [MemmapEntry.stop_of_endFits (hfits e he)]

theorem memoryUsableTop_of_endFits (hfits : ∀ e ∈ entries, e.EndFits) :
    (memmapBitmapInit entries bitmap).1.memoryUsableTop =
      listMax ((entries.filter fun e => e.type = 1).map MemmapEntry.exactEnd) := by
  refine eq_of_lt_iff fun a => ?_
  rw [lt_memoryUsableTop_iff, lt_listMax_map_iff]
  simp only [List.mem_filter, decide_eq_true_eq, and_assoc]
  exact exists_congr fun e => and_congr_right fun he => by
    rw [MemmapEntry.stop_of_endFits (hfits e he)]

/-- An entry whose end does not fit makes the top wrong. -/
theorem memoryTop_ne {e : MemmapEntry} (he : e ∈ entries) (hfits : ¬ e.EndFits) :
    (memmapBitmapInit entries bitmap).1.memoryTop ≠ listMax (entries.map MemmapEntry.exactEnd) := by
  intro heq
  have hlow : ∀ a, a < e.exactEnd → a < (memmapBitmapInit entries bitmap).1.memoryTop := by
    intro a ha
    rw [heq, lt_listMax_map_iff]
    exact ⟨e, he, ha⟩
  -- the top is the end of some entry, and that is below
  have hpos : 0 < e.exactEnd := Nat.zero_lt_of_lt (MemmapEntry.stop_lt_exactEnd hfits e)
  obtain ⟨e', -, hstop⟩ := (lt_memoryTop_iff entries bitmap _).mp (hlow (e.exactEnd - 1) (by omega))
  have hlt := MemmapEntry.stop_lt_exactEnd hfits e'
  omega

theorem usableSum_perm {ordered : List MemmapEntry} (hperm : ordered.Perm entries) :
    usableSum ordered = usableSum entries :=
  ((hperm.filter _).map _).sum_eq

theorem listMax_perm {xs ys : List Nat} (hperm : xs.Perm ys) : listMax xs = listMax ys := by
  refine eq_of_lt_iff fun a => ?_
  rw [lt_listMax_iff, lt_listMax_iff]
  exact exists_congr fun v => and_congr_left fun _ => hperm.mem_iff

end Totals

/-- The totals are exact if less than 4 GiB are usable and no entry reaches into the last page of the
address space, and only then. -/
theorem totalsExact_iff (entries : List MemmapEntry) (bitmap : ByteMem) :
    TotalsExact entries bitmap ↔ usableSum entries < 2 ^ 32 ∧ ∀ e ∈ entries, e.EndFits := by
  constructor
  · intro hexact
    obtain ⟨husable, -, htop⟩ := hexact entries (List.Perm.refl entries)
    refine ⟨?_, ?_⟩
    · rw [← husable, memoryUsable_eq]
      exact Nat.mod_lt _ (by decide)
    · intro e he
      by_contra hfits
      exact memoryTop_ne he hfits htop
  · rintro ⟨hsum, hfits⟩ ordered hperm
    have hfits' : ∀ e ∈ ordered, e.EndFits := fun e he => hfits e (hperm.mem_iff.mp he)
    refine ⟨?_, ?_, ?_⟩
    · rw [memoryUsable_eq, usableSum_perm hperm]
      exact Nat.mod_eq_of_lt hsum
    · rw [memoryUsableTop_of_endFits hfits']
      exact listMax_perm ((hperm.filter _).map _)
    · rw [memoryTop_of_endFits hfits']
      exact listMax_perm (hperm.map _)

/-- Four GiB of usable memory, from four GiB on. -/
def fourGigabytes : MemmapEntry := ⟨0, 1, 0, 1, 1⟩

/-- Four GiB are counted as none. -/
theorem fourGigabytes_usable_zero :
    usableSum [fourGigabytes] = 2 ^ 32 ∧
      (memmapBitmapInit [fourGigabytes] (fun _ => 0)).1.memoryUsable = 0 ∧
      ¬ TotalsExact [fourGigabytes] (fun _ => 0) := by
  have hsum : usableSum [fourGigabytes] = 2 ^ 32 := by decide +kernel
  have hzero : (memmapBitmapInit [fourGigabytes] (fun _ => 0)).1.memoryUsable = 0 := by
    rw [memoryUsable_eq, hsum]
    rfl
  refine ⟨hsum, hzero, fun hexact => ?_⟩
  have husable := (hexact _ (List.Perm.refl _)).1
  rw [hsum, hzero] at husable
  exact absurd husable (by decide)

/-! ## Bounds -/

/-- The indices that the loop `for (m = base; m < end; m += VMM_DEFAULT_PAGE_SIZE)` passes to the
bitmap, if it ends within `fuel` tests. -/
def pageLoop : Nat → Nat → Nat → Option (List Nat)
  | 0, _, _ => none
  | fuel + 1, m, stop =>
    if m < stop then
      (pageLoop fuel ((m + pageSize) % 2 ^ 64) stop).map (m / pageSize % 2 ^ 32 :: ·)
    else some []

/-- The argument of `pmm_set_bitmap_size` in `kmain`. -/
def pmmBitmapSize (result : MemmapInitResult) : Nat := result.memoryUsableTop / 8 / pageSize % 2 ^ 32

/-- The loops over the pages end, every index is inside the bitmap, and so is the size that the page
allocator is given. -/
def PaintsInside (size : Nat) (entries : List MemmapEntry) (bitmap : ByteMem) : Prop :=
  (∀ e ∈ entries, ∃ fuel indices, pageLoop fuel e.base e.stop = some indices ∧
    ∀ i ∈ indices, i < size * 8) ∧
  pmmBitmapSize (memmapBitmapInit entries bitmap).1 ≤ size

/-- The indices from page `first` on. -/
def pageIndices (first count : Nat) : List Nat :=
  (List.range count).map fun k => (first + k) % 2 ^ 32

theorem pageIndices_succ (first count : Nat) :
    pageIndices first (count + 1) = first % 2 ^ 32 :: pageIndices (first + 1) count := by
  simp [pageIndices, List.range_succ_eq_map, Nat.add_assoc, Nat.add_comm 1]

/-- The loop ends, with one iteration for each page: page addresses below the end do not wrap. -/
theorem pageLoop_eq {first stop : Nat} (hstop : stop < 2 ^ 52) (fuel : Nat) :
    pageLoop fuel (first * pageSize) (stop * pageSize) =
      if stop - first < fuel then some (pageIndices first (stop - first)) else none := by
  induction fuel generalizing first with
  | zero => rfl
  | succ fuel ih =>
    rw [pageLoop]
    by_cases hlt : first < stop
    · have hnext : (first * pageSize + pageSize) % 2 ^ 64 = (first + 1) * pageSize := by
        unfold pageSize
        omega
      have hindex : first * pageSize / pageSize = first := Nat.mul_div_cancel _ (by decide)
      have hcount : stop - first = stop - (first + 1) + 1 := by omega
      rw [if_pos (Nat.mul_lt_mul_of_pos_right hlt (by decide)), hnext, ih, hindex, hcount,
        pageIndices_succ]
      by_cases hfuel : stop - (first + 1) < fuel
      · rw [if_pos hfuel, if_pos (by omega)]
        rfl
      · rw [if_neg hfuel, if_neg (by omega)]
        rfl
    · have hcount : stop - first = 0 := by omega
      rw [if_neg (fun h => hlt (Nat.lt_of_mul_lt_mul_right h)), hcount, if_pos (Nat.succ_pos fuel)]
      rfl

theorem paintPages_eq (paint : ByteMem → Nat → ByteMem) (first count : Nat) (bitmap : ByteMem) :
    paintPages paint count (first * pageSize) bitmap = (pageIndices first count).foldl paint bitmap := by
  induction count generalizing first bitmap with
  | zero => rfl
  | succ count ih =>
    have hindex : first * pageSize / pageSize = first := Nat.mul_div_cancel _ (by decide)
    rw [paintPages, hindex, ← Nat.succ_mul, ih, pageIndices_succ]
    rfl

/-- The indices of the loop are those that `memmap_bitmap_init` paints, in this order. -/
theorem paintPages_of_pageLoop {e : MemmapEntry} {fuel : Nat} {indices : List Nat}
    (hloop : pageLoop fuel e.base e.stop = some indices) (paint : ByteMem → Nat → ByteMem)
    (bitmap : ByteMem) : paintPages paint e.pages e.base bitmap = indices.foldl paint bitmap := by
  rw [e.base_eq, e.stop_eq, pageLoop_eq e.endPage_lt] at hloop
  rw [e.base_eq, e.pages_eq, paintPages_eq]
  split at hloop
  · rw [Option.some.inj hloop]
  · cases hloop

/-- The indices are inside if they do not wrap and the last one is. -/
theorem pageIndices_inside_iff {size : Nat} (hsize : size * 8 < 2 ^ 32) (first count : Nat) :
    (∀ i ∈ pageIndices first count, i < size * 8) ↔
      0 < count → first % 2 ^ 32 + count ≤ size * 8 := by
  unfold pageIndices
  simp only [List.mem_map, List.mem_range, forall_exists_index, and_imp, forall_apply_eq_imp_iff₂]
  constructor
  · intro hinside hpos
    by_contra hgt
    -- either the first index is outside, or the one at the end of the bitmap is painted
    by_cases hfirst : first % 2 ^ 32 < size * 8
    · have hout := hinside (size * 8 - first % 2 ^ 32) (by omega)
      omega
    · have hout := hinside 0 hpos
      omega
  · intro hle k hk
    omega

/-- The largest rounded end of a usable entry, in pages. -/
def lastUsablePage (entries : List MemmapEntry) : Nat :=
  listMax ((entries.filter fun e => e.type = 1).map MemmapEntry.endPage)

theorem pmmBitmapSize_eq (entries : List MemmapEntry) (bitmap : ByteMem) :
    pmmBitmapSize (memmapBitmapInit entries bitmap).1 = lastUsablePage entries / 8 % 2 ^ 32 := by
  have htop : (memmapBitmapInit entries bitmap).1.memoryUsableTop =
      lastUsablePage entries * pageSize := by
    refine eq_of_lt_iff fun a => ?_
    have hdiv (n : Nat) : a < n * pageSize ↔ a / pageSize < n :=
      (Nat.div_lt_iff_lt_mul (by decide)).symm
    rw [lt_memoryUsableTop_iff, hdiv, lastUsablePage, lt_listMax_map_iff]
    simp only [List.mem_filter, decide_eq_true_eq, and_assoc, MemmapEntry.stop_eq, hdiv]
  unfold pmmBitmapSize
  rw [htop, Nat.div_div_eq_div_mul, Nat.mul_comm 8, ← Nat.div_div_eq_div_mul,
    Nat.mul_div_cancel _ (by decide)]

/-- For which maps `memmap_bitmap_init` stays inside the bitmap. -/
theorem paintsInside_iff (entries : List MemmapEntry) (bitmap : ByteMem) :
    PaintsInside stage2MemoryBitmapSize entries bitmap ↔
      (∀ e ∈ entries, e.firstPage < e.endPage →
        e.firstPage % 2 ^ 32 + (e.endPage - e.firstPage) ≤ stage2MemoryBitmapSize * 8) ∧
      lastUsablePage entries / 8 % 2 ^ 32 ≤ stage2MemoryBitmapSize := by
  unfold PaintsInside
  rw [pmmBitmapSize_eq]
  refine and_congr_left fun _ => forall₂_congr fun e _ => ?_
  have hloop (fuel : Nat) : pageLoop fuel e.base e.stop =
      if e.endPage - e.firstPage < fuel then some (pageIndices e.firstPage (e.endPage - e.firstPage))
      else none := by
    rw [e.base_eq, e.stop_eq]
    exact pageLoop_eq e.endPage_lt fuel
  have hinside := pageIndices_inside_iff (show stage2MemoryBitmapSize * 8 < 2 ^ 32 by decide)
    e.firstPage (e.endPage - e.firstPage)
  rw [Nat.sub_pos_iff_lt] at hinside
  rw [← hinside]
  constructor
  · rintro ⟨fuel, indices, hrun, hbound⟩
    rw [hloop] at hrun
    split at hrun
    · cases hrun
      exact hbound
    · cases hrun
  · intro hbound
    refine ⟨e.endPage - e.firstPage + 1, _, ?_, hbound⟩
    rw [hloop, if_pos (Nat.lt_succ_self _)]

/-- The reserved region below one terabyte that some machines report. -/
def terabyteHole : MemmapEntry := ⟨0, 0xFD, 0, 3, 2⟩

/-- Its first index is far outside the bitmap. -/
theorem terabyteHole_outside :
    terabyteHole.Paints 0xFD00000 ∧ stage2MemoryBitmapSize * 8 ≤ 0xFD00000 ∧
      ¬ PaintsInside stage2MemoryBitmapSize [terabyteHole] (fun _ => 0) := by
  have hfirst : terabyteHole.firstPage = 0xFD00000 := by decide +kernel
  have hend : terabyteHole.endPage = 0x10000000 := by decide +kernel
  refine ⟨⟨0, ?_, ?_⟩, by decide, ?_⟩
  · rw [MemmapEntry.pages_eq, hfirst, hend]
    decide
  · rw [MemmapEntry.base_eq, hfirst]
    decide
  · rintro ⟨hloops, -⟩
    obtain ⟨fuel, indices, hrun, hbound⟩ := hloops terabyteHole List.mem_cons_self
    rw [MemmapEntry.base_eq, MemmapEntry.stop_eq, hfirst, hend, pageLoop_eq (by decide)] at hrun
    split at hrun
    · have hmem : 0xFD00000 ∈ indices := by
        rw [← Option.some.inj hrun]
        exact List.mem_map.mpr ⟨0, List.mem_range.mpr (by decide), by decide⟩
      exact absurd (hbound 0xFD00000 hmem) (by decide)
    · cases hrun

end Pristine.Kernel
