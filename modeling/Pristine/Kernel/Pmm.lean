import Pristine.Kernel.Bitmap
import Pristine.Kernel.Panic
import Pristine.Lib.Run

/-!
# Physical page allocator

`kernel/kernel/pmm.c` keeps one bit per 4 KiB page.  The size of the map is a
`uint32_t` count of bytes, and the number of bits handed to the search is
computed as a 32-bit product, so a map of `2 ^ 29` bytes or more is searched
only in part.  Below that size the allocator is a plain set of pages in use.
-/

namespace Pristine.Kernel

open Function Lib Relation

/-- `VMM_DEFAULT_PAGE_SIZE`. -/
def pageSize : Nat := 4096

/-- The allocator's two globals, `__pmm_bitmap` and `__pmm_bitmap_size`. -/
structure Pmm where
  bitmap : ByteMem
  bitmapSize : UInt32

/-- `pmm_init`. -/
def pmmInit (bitmap : ByteMem) (size : UInt32) : Pmm where
  bitmap := bitmap
  bitmapSize := size

/-- `__pmm_bitmap_size * 8`, a 32-bit product. -/
def Pmm.bitCount (pmm : Pmm) : Nat :=
  (pmm.bitmapSize * 8).toNat

/-- Number of pages the map describes, as an integer. -/
def Pmm.pageCount (pmm : Pmm) : Nat :=
  pmm.bitmapSize.toNat * 8

/-- `pmm_alloc`. -/
def pmmAlloc (debug : Bool) (pmm : Pmm) : Except KPanic (Nat × Pmm) :=
  let idx := bitmapFind pmm.bitmap pmm.bitCount
  if idx = uint32Max then
    .error .pmmAllocNoMemory
  else if debug ∧ bitmapTest pmm.bitmap idx ≠ 0 then
    .error .pmmAllocSetIndex
  else
    .ok (idx * pageSize, { pmm with bitmap := bitmapSet pmm.bitmap idx })

/-- `pmm_free`. -/
def pmmFree (debug : Bool) (pmm : Pmm) (page : Nat) : Except KPanic Pmm :=
  if debug ∧ page &&& (pageSize - 1) ≠ 0 then
    .error (.pmmFreeUnaligned page)
  else
    -- the page index is narrowed to `uint32_t`
    let idx := page / pageSize % 2 ^ 32
    if debug ∧ bitmapTest pmm.bitmap idx = 0 then
      .error (.pmmFreeDouble page)
    else
      .ok { pmm with bitmap := bitmapClear pmm.bitmap idx }

/-- `pmm_set_bitmap_size`. -/
def pmmSetBitmapSize (pmm : Pmm) (bitmapSize : UInt32) : Pmm :=
  { pmm with bitmapSize := bitmapSize }

/-- The counting loop of `pmm_get_free_page_count`. -/
def pmmCountLoop (bitmap : ByteMem) (i count : Nat) : Nat → Nat
  | 0 => count
  | left + 1 =>
    pmmCountLoop bitmap (i + 1) (if bitmapTest bitmap i = 0 then count + 1 else count) left

/-- `pmm_get_free_page_count`. -/
def pmmGetFreePageCount (pmm : Pmm) : Nat :=
  pmmCountLoop pmm.bitmap 0 0 pmm.bitCount

theorem Pmm.bitCount_eq (pmm : Pmm) : pmm.bitCount = pmm.pageCount % 2 ^ 32 := by
  simp [Pmm.bitCount, Pmm.pageCount, UInt32.toNat_mul]

theorem Pmm.bitCount_lt (pmm : Pmm) : pmm.bitCount < 2 ^ 32 := by
  rw [pmm.bitCount_eq]
  exact Nat.mod_lt _ (by decide)

/-- Below `2 ^ 29` bytes the product does not wrap. -/
theorem Pmm.bitCount_eq_pageCount {pmm : Pmm} (hsize : pmm.bitmapSize.toNat < 2 ^ 29) :
    pmm.bitCount = pmm.pageCount := by
  rw [pmm.bitCount_eq]
  unfold Pmm.pageCount
  omega

/-! ## One lemma per operation -/

/-- `pmm_alloc` panics exactly when every searched bit is set, and then for
lack of memory. -/
theorem pmmAlloc_error_iff (debug : Bool) (pmm : Pmm) (panic : KPanic) :
    pmmAlloc debug pmm = .error panic ↔
      panic = .pmmAllocNoMemory ∧ ∀ i, i < pmm.bitCount → bitAt pmm.bitmap i = true := by
  rcases bitmapFind_cases pmm.bitmap pmm.bitCount_lt with ⟨hfind, hfull⟩ | ⟨hfind, hfirst⟩
  · simp only [pmmAlloc, hfind, if_true, Except.error.injEq]
    exact ⟨fun h => ⟨h.symm, hfull⟩, fun h => h.1.symm⟩
  · have htest : bitmapTest pmm.bitmap (bitmapFind pmm.bitmap pmm.bitCount) = 0 :=
      (bitmapTest_eq_zero_iff _ _).mpr hfirst.clear
    simp only [pmmAlloc, hfind, if_false, htest, ne_eq, not_true_eq_false, and_false,
      reduceCtorEq, false_iff, not_and]
    intro _ hall
    have hset := hall _ hfirst.lt
    rw [hfirst.clear] at hset
    exact Bool.false_ne_true hset

/-- What a successful `pmm_alloc` did: it took the first clear searched bit. -/
theorem pmmAlloc_ok_iff (debug : Bool) (pmm : Pmm) (page : Nat) (pmm' : Pmm) :
    pmmAlloc debug pmm = .ok (page, pmm') ↔
      ∃ idx, IsFirstClear pmm.bitmap pmm.bitCount idx ∧ page = idx * pageSize ∧
        pmm' = { pmm with bitmap := bitmapSet pmm.bitmap idx } := by
  rcases bitmapFind_cases pmm.bitmap pmm.bitCount_lt with ⟨hfind, hfull⟩ | ⟨hfind, hfirst⟩
  · simp only [pmmAlloc, hfind, if_true, reduceCtorEq, false_iff, not_exists, not_and]
    intro idx hfirst
    have hset := hfull idx hfirst.lt
    rw [hfirst.clear] at hset
    exact absurd hset Bool.false_ne_true
  · have htest : bitmapTest pmm.bitmap (bitmapFind pmm.bitmap pmm.bitCount) = 0 :=
      (bitmapTest_eq_zero_iff _ _).mpr hfirst.clear
    simp only [pmmAlloc, hfind, if_false, htest, ne_eq, not_true_eq_false, and_false,
      Except.ok.injEq, Prod.mk.injEq]
    constructor
    · rintro ⟨rfl, rfl⟩
      exact ⟨_, hfirst, rfl, rfl⟩
    · rintro ⟨idx, hidx, rfl, rfl⟩
      have hsame := bitmapFind_of_firstClear (Nat.le_of_lt pmm.bitCount_lt) hidx
      rw [hsame]
      exact ⟨rfl, rfl⟩

/-- `pmm_free` of an aligned page with its bit set clears that bit, in both
builds. -/
theorem pmmFree_of_set (debug : Bool) (pmm : Pmm) {idx : Nat} (hidx : idx < 2 ^ 32)
    (hset : bitAt pmm.bitmap idx = true) :
    pmmFree debug pmm (idx * pageSize) =
      .ok { pmm with bitmap := bitmapClear pmm.bitmap idx } := by
  have haligned : idx * pageSize &&& (pageSize - 1) = 0 := by
    rw [show pageSize - 1 = 2 ^ 12 - 1 by decide, Nat.and_two_pow_sub_one_eq_mod]
    unfold pageSize
    omega
  have hdiv : idx * pageSize / pageSize % 2 ^ 32 = idx := by
    rw [Nat.mul_div_cancel _ (by decide), Nat.mod_eq_of_lt hidx]
  have htest : bitmapTest pmm.bitmap idx ≠ 0 := by
    intro hzero
    rw [bitmapTest_eq_zero_iff, hset] at hzero
    exact Bool.false_ne_true hzero.symm
  simp only [pmmFree, haligned, hdiv, htest, ne_eq, not_true_eq_false, and_false, if_false]

private theorem pmmCountLoop_eq (bitmap : ByteMem) (left i count : Nat)
    (hcount : count = clearCount bitmap i) :
    pmmCountLoop bitmap i count left = clearCount bitmap (i + left) := by
  induction left generalizing i count with
  | zero => exact hcount
  | succ left ih =>
    rw [pmmCountLoop, ih (i + 1)]
    · rw [show i + 1 + left = i + (left + 1) by omega]
    · rw [clearCount_succ, hcount]
      cases hbit : bitAt bitmap i with
      | true =>
        have htest : bitmapTest bitmap i ≠ 0 := by
          intro hzero
          rw [bitmapTest_eq_zero_iff, hbit] at hzero
          exact Bool.false_ne_true hzero.symm
        simp [htest]
      | false => simp [(bitmapTest_eq_zero_iff bitmap i).mpr hbit]

/-- The counting loop counts the clear bits it walks over. -/
theorem pmmGetFreePageCount_eq (pmm : Pmm) :
    pmmGetFreePageCount pmm = clearCount pmm.bitmap pmm.bitCount := by
  have hloop := pmmCountLoop_eq pmm.bitmap pmm.bitCount 0 0 rfl
  rwa [Nat.zero_add] at hloop

/-! ## Client runs

The client's own record of a run: which pages are in use according to the
calls' results alone, and how many allocations are live. -/

/-- The allocator together with its client's ledger. -/
structure PmmRun where
  pmm : Pmm
  inUse : Nat → Bool
  live : Int

/-- Before the first call the pages in use are those the map marks. -/
def PmmRun.start (bitmap : ByteMem) (size : UInt32) : PmmRun where
  pmm := pmmInit bitmap size
  inUse := bitAt bitmap
  live := 0

/-- A page a client may free: aligned, described by the map, and in use. -/
def PmmRun.Freeable (r : PmmRun) (page : Nat) : Prop :=
  page % pageSize = 0 ∧ page / pageSize < r.pmm.pageCount ∧ r.inUse (page / pageSize) = true

/-- One `pmm_alloc` or `pmm_free` call of a client that frees only pages in
use. -/
inductive PmmStep (debug : Bool) : PmmRun → PmmRun → Prop
  | alloc {r : PmmRun} {page : Nat} {pmm' : Pmm}
      (hcall : pmmAlloc debug r.pmm = .ok (page, pmm')) :
      PmmStep debug r
        { pmm := pmm', inUse := update r.inUse (page / pageSize) true,
          live := r.live + 1 }
  | free {r : PmmRun} {page : Nat} {pmm' : Pmm} (hpage : r.Freeable page)
      (hcall : pmmFree debug r.pmm page = .ok pmm') :
      PmmStep debug r
        { pmm := pmm', inUse := update r.inUse (page / pageSize) false,
          live := r.live - 1 }

/-- States a client can reach from a given map. -/
def PmmReachable (debug : Bool) (bitmap : ByteMem) (size : UInt32) (r : PmmRun) : Prop :=
  ReflTransGen (PmmStep debug) (PmmRun.start bitmap size) r

/-- Exactly bit `i` differs between the two maps. -/
def FlipsOnly (bitmap bitmap' : ByteMem) (i : Nat) : Prop :=
  ∀ j, bitAt bitmap' j = if j = i then !bitAt bitmap j else bitAt bitmap j

/-- The allocator's contract at one state of a run. -/
structure PmmContract (debug : Bool) (bitmap : ByteMem) (size : UInt32) (r : PmmRun) :
    Prop where
  /-- an allocation is an aligned page inside the map that was not in use -/
  alloc_fresh : ∀ page pmm', pmmAlloc debug r.pmm = .ok (page, pmm') →
    page % pageSize = 0 ∧ page < size.toNat * 8 * pageSize ∧
      r.inUse (page / pageSize) = false ∧
      FlipsOnly r.pmm.bitmap pmm'.bitmap (page / pageSize)
  /-- it fails exactly when nothing is free -/
  alloc_panics : (∃ panic, pmmAlloc debug r.pmm = .error panic) ↔
    ∀ i, i < size.toNat * 8 → r.inUse i = true
  /-- a page in use can be freed, and only its bit changes -/
  free_flips : ∀ page, r.Freeable page → ∃ pmm', pmmFree debug r.pmm page = .ok pmm' ∧
    FlipsOnly r.pmm.bitmap pmm'.bitmap (page / pageSize)
  /-- the free count is the initial one minus the live allocations -/
  free_count : (pmmGetFreePageCount r.pmm : Int) =
    clearCount bitmap (size.toNat * 8) - r.live

/-! ## The invariant of a run -/

/-- Map and ledger agree, the size never changes, and the counts balance. -/
structure PmmInv (bitmap : ByteMem) (size : UInt32) (r : PmmRun) : Prop where
  size_eq : r.pmm.bitmapSize = size
  agree : ∀ i, bitAt r.pmm.bitmap i = r.inUse i
  balance : (clearCount r.pmm.bitmap (size.toNat * 8) : Int) =
    clearCount bitmap (size.toNat * 8) - r.live

theorem pmmInv_start (bitmap : ByteMem) (size : UInt32) :
    PmmInv bitmap size (PmmRun.start bitmap size) where
  size_eq := rfl
  agree := fun _ => rfl
  balance := by simp [PmmRun.start, pmmInit]

/-- Marking a page in the map and in the ledger keeps them in agreement. -/
private theorem agree_update {bitmap bitmap' : ByteMem} {inUse : Nat → Bool} {idx : Nat}
    {value : Bool} (hagree : ∀ i, bitAt bitmap i = inUse i) (hidx : bitAt bitmap' idx = value)
    (hother : ∀ i, i ≠ idx → bitAt bitmap' i = bitAt bitmap i) (i : Nat) :
    bitAt bitmap' i = update inUse idx value i := by
  by_cases hi : i = idx
  · subst hi
    rw [update_self, hidx]
  · rw [update_of_ne hi, hother i hi, hagree i]

theorem pmmInv_step {debug : Bool} {bitmap : ByteMem} {size : UInt32}
    (hsize : size.toNat < 2 ^ 29) {r r' : PmmRun} (hinv : PmmInv bitmap size r)
    (hstep : PmmStep debug r r') : PmmInv bitmap size r' := by
  obtain ⟨hsz, hagree, hbalance⟩ := hinv
  cases hstep with
  | @alloc page pmm' hcall =>
    obtain ⟨idx, hfirst, rfl, rfl⟩ := (pmmAlloc_ok_iff debug r.pmm page pmm').mp hcall
    have hpage : idx * pageSize / pageSize = idx := Nat.mul_div_cancel _ (by decide)
    have hidx : idx < size.toNat * 8 := by
      have hlt := hfirst.lt
      rw [r.pmm.bitCount_eq_pageCount (by rw [hsz]; exact hsize), Pmm.pageCount, hsz] at hlt
      exact hlt
    refine ⟨hsz, ?_, ?_⟩
    · rw [hpage]
      apply agree_update hagree (by simp)
      intro i hi
      simp [Ne.symm hi]
    · have hcount : clearCount (bitmapSet r.pmm.bitmap idx) (size.toNat * 8) + 1 =
          clearCount r.pmm.bitmap (size.toNat * 8) := clearCount_orBit hidx hfirst.clear
      show (clearCount (bitmapSet r.pmm.bitmap idx) (size.toNat * 8) : Int) =
        clearCount bitmap (size.toNat * 8) - (r.live + 1)
      omega
  | @free page pmm' hpage hcall =>
    obtain ⟨haligned, hrange, huse⟩ := hpage
    have hidx : page / pageSize < size.toNat * 8 := by
      rw [Pmm.pageCount, hsz] at hrange
      exact hrange
    have hmul : page / pageSize * pageSize = page := Nat.div_mul_cancel
      (Nat.dvd_of_mod_eq_zero haligned)
    have hset : bitAt r.pmm.bitmap (page / pageSize) = true := (hagree _).trans huse
    have hfree := pmmFree_of_set debug r.pmm (by omega) hset
    rw [hmul, hcall] at hfree
    cases hfree
    refine ⟨hsz, ?_, ?_⟩
    · apply agree_update hagree (by simp)
      intro i hi
      simp [Ne.symm hi]
    · have hcount : clearCount (bitmapClear r.pmm.bitmap (page / pageSize))
          (size.toNat * 8) = clearCount r.pmm.bitmap (size.toNat * 8) + 1 :=
        clearCount_andNotBit hidx hset
      show (clearCount (bitmapClear r.pmm.bitmap (page / pageSize))
        (size.toNat * 8) : Int) = clearCount bitmap (size.toNat * 8) - (r.live - 1)
      omega

/-- The contract follows from the invariant as long as the bit count does not
wrap. -/
theorem pmmContract_of_inv (debug : Bool) {bitmap : ByteMem} {size : UInt32}
    (hsize : size.toNat < 2 ^ 29) {r : PmmRun} (hinv : PmmInv bitmap size r) :
    PmmContract debug bitmap size r := by
  obtain ⟨hsz, hagree, hbalance⟩ := hinv
  have hcount : r.pmm.bitCount = size.toNat * 8 := by
    rw [r.pmm.bitCount_eq_pageCount (by rw [hsz]; exact hsize), Pmm.pageCount, hsz]
  refine ⟨?_, ?_, ?_, ?_⟩
  · intro page pmm' hcall
    obtain ⟨idx, hfirst, rfl, rfl⟩ := (pmmAlloc_ok_iff debug r.pmm page pmm').mp hcall
    have hpage : idx * pageSize / pageSize = idx := Nat.mul_div_cancel _ (by decide)
    have hidx : idx < size.toNat * 8 := hcount ▸ hfirst.lt
    refine ⟨Nat.mul_mod_left idx pageSize,
      (Nat.mul_lt_mul_right (by decide)).mpr hidx, ?_, ?_⟩
    · rw [hpage, ← hagree idx]
      exact hfirst.clear
    · intro j
      rw [hpage]
      by_cases hj : j = idx
      · subst hj
        simp [hfirst.clear]
      · simp [hj, Ne.symm hj]
  · constructor
    · rintro ⟨panic, hcall⟩ i hi
      have hfull := ((pmmAlloc_error_iff debug r.pmm panic).mp hcall).2
      rw [← hagree i]
      exact hfull i (hcount ▸ hi)
    · intro hall
      refine ⟨.pmmAllocNoMemory, (pmmAlloc_error_iff debug r.pmm _).mpr ⟨rfl, ?_⟩⟩
      intro i hi
      rw [hagree i]
      exact hall i (hcount ▸ hi)
  · rintro page ⟨haligned, hrange, huse⟩
    have hmul : page / pageSize * pageSize = page := Nat.div_mul_cancel
      (Nat.dvd_of_mod_eq_zero haligned)
    have hset : bitAt r.pmm.bitmap (page / pageSize) = true := (hagree _).trans huse
    rw [Pmm.pageCount, hsz] at hrange
    have hfree := pmmFree_of_set debug r.pmm (by omega) hset
    rw [hmul] at hfree
    refine ⟨_, hfree, ?_⟩
    intro j
    by_cases hj : j = page / pageSize
    · subst hj
      simp [hset]
    · simp [hj, Ne.symm hj]
  · rw [pmmGetFreePageCount_eq, hcount]
    exact hbalance

/-! ## The wrapped map

From `2 ^ 29` bytes on, page `bitCount` is described by the map but never
searched.  Any run can be continued until the searched part is exhausted while
that page is still free. -/

/-- Allocate until the searched part of the map is full.  The unsearched pages
keep their ledger entries. -/
theorem exists_exhausted (debug : Bool) (n : Nat) (r : PmmRun)
    (hn : clearCount r.pmm.bitmap r.pmm.bitCount = n) :
    ∃ r', ReflTransGen (PmmStep debug) r r' ∧
      r'.pmm.bitmapSize = r.pmm.bitmapSize ∧
      clearCount r'.pmm.bitmap r.pmm.bitCount = 0 ∧
      ∀ i, r.pmm.bitCount ≤ i → r'.inUse i = r.inUse i := by
  induction n generalizing r with
  | zero => exact ⟨r, .refl, rfl, hn, fun _ _ => rfl⟩
  | succ n ih =>
    rcases full_or_firstClear r.pmm.bitmap r.pmm.bitCount with hfull | ⟨idx, hfirst⟩
    · rw [(clearCount_eq_zero_iff _ _).mpr hfull] at hn
      omega
    · have hcall := (pmmAlloc_ok_iff debug r.pmm _ _).mpr ⟨idx, hfirst, rfl, rfl⟩
      have hpage : idx * pageSize / pageSize = idx := Nat.mul_div_cancel _ (by decide)
      have hcount : clearCount (bitmapSet r.pmm.bitmap idx) r.pmm.bitCount + 1 =
          clearCount r.pmm.bitmap r.pmm.bitCount := clearCount_orBit hfirst.lt hfirst.clear
      obtain ⟨r', hrun, hsize, hzero, hkeep⟩ := ih
        { pmm := { r.pmm with bitmap := bitmapSet r.pmm.bitmap idx },
          inUse := update r.inUse (idx * pageSize / pageSize) true,
          live := r.live + 1 } (by
            show clearCount (bitmapSet r.pmm.bitmap idx) r.pmm.bitCount = n
            omega)
      refine ⟨r', ReflTransGen.head (.alloc hcall) hrun, hsize, hzero, ?_⟩
      intro i hi
      rw [hkeep i hi, hpage]
      exact update_of_ne (by have := hfirst.lt; omega) _ _

/-- A state in which the first unsearched page is free breaks the contract
later in some run. -/
theorem not_contract_of_unsearched_free (debug : Bool) {bitmap : ByteMem} {size : UInt32}
    {r : PmmRun} (hreach : PmmReachable debug bitmap size r)
    (hbig : r.pmm.bitCount < size.toNat * 8) (hfree : r.inUse r.pmm.bitCount = false) :
    ∃ r', PmmReachable debug bitmap size r' ∧ ¬ PmmContract debug bitmap size r' := by
  obtain ⟨r', hrun, hsize, hzero, hkeep⟩ := exists_exhausted debug _ r rfl
  refine ⟨r', hreach.trans hrun, ?_⟩
  intro hcontract
  have hcount : r'.pmm.bitCount = r.pmm.bitCount := by
    unfold Pmm.bitCount
    rw [hsize]
  have hpanics : pmmAlloc debug r'.pmm = .error .pmmAllocNoMemory := by
    apply (pmmAlloc_error_iff debug r'.pmm _).mpr
    refine ⟨rfl, ?_⟩
    rw [hcount]
    exact (clearCount_eq_zero_iff _ _).mp hzero
  have huse := hcontract.alloc_panics.mp ⟨_, hpanics⟩ _ hbig
  rw [hkeep _ (Nat.le_refl _), hfree] at huse
  exact Bool.false_ne_true huse

/-- From `2 ^ 29` bytes on, some run breaks the contract, whatever the map. -/
theorem exists_not_contract (debug : Bool) (bitmap : ByteMem) {size : UInt32}
    (hsize : 2 ^ 29 ≤ size.toNat) :
    ∃ r, PmmReachable debug bitmap size r ∧ ¬ PmmContract debug bitmap size r := by
  have hcount : (PmmRun.start bitmap size).pmm.bitCount = size.toNat * 8 % 2 ^ 32 :=
    (PmmRun.start bitmap size).pmm.bitCount_eq
  have hbig : (PmmRun.start bitmap size).pmm.bitCount < size.toNat * 8 := by omega
  cases huse : (PmmRun.start bitmap size).inUse (PmmRun.start bitmap size).pmm.bitCount with
  | false => exact not_contract_of_unsearched_free debug .refl hbig huse
  | true =>
    -- free that page first
    set n := (PmmRun.start bitmap size).pmm.bitCount with hn
    have hpage : n * pageSize / pageSize = n := Nat.mul_div_cancel _ (by decide)
    have hfreeable : (PmmRun.start bitmap size).Freeable (n * pageSize) := by
      refine ⟨Nat.mul_mod_left n pageSize, ?_, ?_⟩
      · rw [hpage]
        exact hbig
      · rw [hpage]
        exact huse
    have hn32 : n < 2 ^ 32 := (PmmRun.start bitmap size).pmm.bitCount_lt
    have hcall := pmmFree_of_set debug (PmmRun.start bitmap size).pmm hn32 huse
    have hstep := PmmStep.free hfreeable hcall
    refine not_contract_of_unsearched_free debug (ReflTransGen.single hstep)
      hbig ?_
    show update (PmmRun.start bitmap size).inUse (n * pageSize / pageSize) false n =
      false
    rw [hpage, update_self]

/-- The allocator meets its contract in every run exactly when the map is
smaller than `2 ^ 29` bytes. -/
theorem pmmContract_iff_size_lt (debug : Bool) (bitmap : ByteMem) (size : UInt32) :
    (∀ r, PmmReachable debug bitmap size r → PmmContract debug bitmap size r) ↔
      size.toNat < 2 ^ 29 := by
  constructor
  · intro hall
    by_contra hbig
    obtain ⟨r, hreach, hbreak⟩ := exists_not_contract debug bitmap (Nat.le_of_not_lt hbig)
    exact hbreak (hall r hreach)
  · intro hsize r hreach
    exact pmmContract_of_inv debug hsize
      (run_invariant hreach (pmmInv_start bitmap size) fun _ _ hinv hstep =>
        pmmInv_step hsize hinv hstep)

/-- An empty map of `2 ^ 29` bytes: every page is free, and the first
allocation panics. -/
theorem pmmContract_fails_at_wrap :
    ¬ ∀ (debug : Bool) (bitmap : ByteMem) (size : UInt32) (r : PmmRun),
      PmmReachable debug bitmap size r → PmmContract debug bitmap size r := by
  intro hall
  have hcontract := hall false (fun _ => 0) 0x20000000 _ .refl
  have hpanics : pmmAlloc false (PmmRun.start (fun _ => 0) 0x20000000).pmm =
      .error .pmmAllocNoMemory := rfl
  have huse := hcontract.alloc_panics.mp ⟨_, hpanics⟩ 0 (by decide)
  exact Bool.false_ne_true huse

end Pristine.Kernel
