import Pristine.Kernel.MixedPages
import Pristine.Kernel.VmmDestroy

/-!
# What `vmm_free` gives back

`vmm_free` walks down to a mapping of any size, gives its frames back and clears
its entry.  Its walk is not the hardware's: it takes the address bits of a large or
huge page from the mask for 4 KiB pages, which holds the memory-type bit 12, it does
not look at the present bit of an entry with the page-size bit, and it does not look
at the present bit of a page-directory entry at all.  `freesMapping_iff` says when it
does what the hardware's walk asks for.
-/

namespace Pristine.Kernel

open Lib

/-! ## The two walks -/

/-- The frames from `start` on. -/
def framesFrom (start n : Nat) : List Nat := (List.range n).map fun i => start + i * pageSize

namespace Translation

/-- The entry at the end of the walk. -/
def entry : Translation → Nat
  | page4k entry | page2m entry | page1g entry => entry

/-- The number of frames. -/
def count : Translation → Nat
  | page4k _ => 1
  | page2m _ => largePageSize / pageSize
  | page1g _ => hugePageSize / pageSize

/-- The first frame: the hardware takes bits 12, 21 or 30 and up of the entry. -/
def base (tr : Translation) : Nat :=
  (tr.entry &&& pteAddrMask) / (tr.count * pageSize) * (tr.count * pageSize)

/-- The frames of the mapping. -/
def frames (tr : Translation) : List Nat := framesFrom tr.base tr.count

end Translation

section Walks

variable (mem : ByteMem) (pml4 virt : Nat)

/-- The entries on the walk of an address, each in the table that the one above names. -/
def pml4eOf : Nat := tableEntry mem pml4 (pml4Idx virt)

def pdpteOf : Nat := tableEntry mem (pml4eOf mem pml4 virt &&& pteAddrMask) (pdptIdx virt)

def pdeOf : Nat := tableEntry mem (pdpteOf mem pml4 virt &&& pteAddrMask) (pdIdx virt)

def pteOf : Nat := tableEntry mem (pdeOf mem pml4 virt &&& pteAddrMask) (ptIdx virt)

/-- Where the entry lies at which the hardware's walk ends. -/
def entryAddr : Translation → Nat
  | .page1g _ => (pml4eOf mem pml4 virt &&& pteAddrMask) + 8 * pdptIdx virt
  | .page2m _ => (pdpteOf mem pml4 virt &&& pteAddrMask) + 8 * pdIdx virt
  | .page4k _ => (pdeOf mem pml4 virt &&& pteAddrMask) + 8 * ptIdx virt

/-- The tables under the top one on the hardware's walk. -/
def walkTables : Translation → List Nat
  | .page1g _ => [pml4eOf mem pml4 virt &&& pteAddrMask]
  | .page2m _ => [pml4eOf mem pml4 virt &&& pteAddrMask, pdpteOf mem pml4 virt &&& pteAddrMask]
  | .page4k _ => [pml4eOf mem pml4 virt &&& pteAddrMask, pdpteOf mem pml4 virt &&& pteAddrMask,
      pdeOf mem pml4 virt &&& pteAddrMask]

/-- The entry that the tests of `vmm_free` lead to, and the size of page it takes it for. -/
def freeTarget : Option Translation :=
  if physToVirt (pml4eOf mem pml4 virt &&& pteAddrMask) = 0 ∨
      pml4eOf mem pml4 virt &&& vmmFlagsPresent = 0 then
    none
  else if pdpteOf mem pml4 virt &&& vmmPageSizeFlag ≠ 0 then
    some (.page1g (pdpteOf mem pml4 virt))
  else if physToVirt (pdpteOf mem pml4 virt &&& pteAddrMask) = 0 ∨
      pdpteOf mem pml4 virt &&& vmmFlagsPresent = 0 then
    none
  else if pdeOf mem pml4 virt &&& vmmPageSizeFlag ≠ 0 then
    some (.page2m (pdeOf mem pml4 virt))
  else if physToVirt (pdeOf mem pml4 virt &&& pteAddrMask) = 0 ∨
      pteOf mem pml4 virt &&& vmmFlagsPresent = 0 then
    none
  else
    some (.page4k (pteOf mem pml4 virt))

end Walks

/-! ## The property -/

/-- The page allocator counts the frame as used; it knows frames by 32-bit numbers. -/
def InUse (pmm : Pmm) (frame : Nat) : Prop := bitAt pmm.bitmap (frame / pageSize % 2 ^ 32) = true

instance (pmm : Pmm) (frame : Nat) : Decidable (InUse pmm frame) :=
  inferInstanceAs (Decidable (bitAt pmm.bitmap (frame / pageSize % 2 ^ 32) = true))

/-- The frames were given back one after the other, and no other page became free. -/
structure GivenBack (frames : List Nat) (s s' : Machine) : Prop where
  calls : ∃ l, s'.log = l ++ s.log ∧ (freedIn l).reverse = frames
  bits : ∀ i, bitAt s'.pmm.bitmap i = true ↔
    bitAt s.pmm.bitmap i = true ∧ ∀ f ∈ frames, i ≠ f / pageSize

/-- `vmm_free` gives back what is mapped and clears its entry, or panics and has done nothing. -/
def FreesMapping (debug : Bool) (pml4 virt : Nat) (s : Machine) : Prop :=
  match walk s.mem pml4 virt with
  | some tr => ∃ s', AtPanic.vmmFree debug pml4 virt s = .ok () s' ∧ GivenBack tr.frames s s' ∧
      s'.mem = storeLE s.mem (entryAddr s.mem pml4 virt tr) 8 0
  | none => ∃ panic s', AtPanic.vmmFree debug pml4 virt s = .error panic s' ∧
      GivenBack [] s s' ∧ s'.mem = s.mem

/-- When it does so.  For a mapping, no table on the walk lies where `phys_to_virt` is zero, the entry
has no bits between bit 12 and the size of the page, in a debug build its frames are in use, and no
page in use is mistaken for one of them by its 32-bit number.  Without a mapping, the walk of `vmm_free`
ends in a panic, or, in a debug build, at a frame that is not in use. -/
def FreeCond (debug : Bool) (pml4 virt : Nat) (s : Machine) : Prop :=
  match walk s.mem pml4 virt with
  | some tr => (∀ t ∈ walkTables s.mem pml4 virt tr, physToVirt t ≠ 0) ∧
      (tr.entry &&& pteAddrMask) % (tr.count * pageSize) = 0 ∧
      (debug = true → ∀ f ∈ tr.frames, InUse s.pmm f) ∧
      ∀ i, bitAt s.pmm.bitmap i = true →
        ((∃ f ∈ tr.frames, i = f / pageSize % 2 ^ 32) ↔ ∃ f ∈ tr.frames, i = f / pageSize)
  | none => ∀ tr, freeTarget s.mem pml4 virt = some tr →
      debug = true ∧ ¬ InUse s.pmm (tr.entry &&& pteAddrMask)

/-! ## Giving frames back -/

/-- The machine after `pmm_free`. -/
def freedPage (s : Machine) (frame : Nat) : Machine :=
  { s with
    pmm := { s.pmm with bitmap := bitmapClear s.pmm.bitmap (frame / pageSize % 2 ^ 32) }
    log := .free frame :: s.log }

/-- The machine after the loop of `vmm_free`. -/
def freedPages : Nat → Nat → Machine → Machine
  | 0, _, s => s
  | left + 1, start, s => freedPages left (start + pageSize) (freedPage s start)

section Free

variable {debug : Bool} {s : Machine} {start frame n : Nat}

theorem freePage_ok (haligned : frame % pageSize = 0) (huse : debug = true → InUse s.pmm frame) :
    freePage debug frame s = .ok ((), freedPage s frame) := by
  refine freePage_ok_iff.mpr ⟨_, ?_, rfl⟩
  have hlow : frame &&& (pageSize - 1) = 0 := aligned_and_low haligned (by decide)
  unfold pmmFree
  rw [if_neg (fun h => h.2 hlow)]
  rw [if_neg]
  rintro ⟨hdebug, hzero⟩
  have hset := huse hdebug
  unfold InUse at hset
  rw [(bitmapTest_eq_zero_iff ..).mp hzero] at hset
  cases hset

theorem freePage_double (haligned : frame % pageSize = 0) (hfree : ¬ InUse s.pmm frame) :
    freePage true frame s = .error (.pmmFreeDouble frame) := by
  have hlow : frame &&& (pageSize - 1) = 0 := aligned_and_low haligned (by decide)
  have hclear : bitAt s.pmm.bitmap (frame / pageSize % 2 ^ 32) = false :=
    Bool.eq_false_iff.mpr hfree
  unfold freePage pmmFree
  rw [if_neg (fun h => h.2 hlow)]
  rw [if_pos ⟨rfl, (bitmapTest_eq_zero_iff ..).mpr hclear⟩]

@[simp] theorem freedPages_mem : (freedPages n start s).mem = s.mem := by
  induction n generalizing start s with
  | zero => rfl
  | succ n ih => exact ih

theorem framesFrom_succ (start n : Nat) :
    framesFrom start (n + 1) = start :: framesFrom (start + pageSize) n := by
  unfold framesFrom
  rw [List.range_succ_eq_map, List.map_cons, List.map_map]
  refine congrArg₂ List.cons (by simp) (List.map_congr_left fun i _ => ?_)
  simp only [Function.comp_apply, Nat.succ_eq_add_one]
  ring

theorem freedIn_frees (frames : List Nat) : freedIn (frames.map Access.free) = frames := by
  induction frames with
  | nil => rfl
  | cons f frames ih => rw [List.map_cons, freedIn_free, ih]

theorem freedPages_log : (freedPages n start s).log =
    ((framesFrom start n).map Access.free).reverse ++ s.log := by
  induction n generalizing start s with
  | zero => rfl
  | succ n ih =>
    rw [freedPages, ih, framesFrom_succ]
    simp [freedPage]

theorem bitAt_freedPages (i : Nat) : bitAt (freedPages n start s).pmm.bitmap i = true ↔
    bitAt s.pmm.bitmap i = true ∧ ∀ f ∈ framesFrom start n, i ≠ f / pageSize % 2 ^ 32 := by
  induction n generalizing start s with
  | zero => simp [freedPages, framesFrom]
  | succ n ih =>
    rw [freedPages, ih, framesFrom_succ, List.forall_mem_cons]
    show bitAt (bitmapClear s.pmm.bitmap (start / pageSize % 2 ^ 32)) i = true ∧ _ ↔ _
    rw [bitAt_bitmapClear]
    simp only [Bool.and_eq_true, Bool.not_eq_true', decide_eq_false_iff_not]
    constructor
    · rintro ⟨⟨hne, hset⟩, hrest⟩
      exact ⟨hset, fun h => hne h.symm, hrest⟩
    · rintro ⟨hset, hne, hrest⟩
      exact ⟨⟨fun h => hne h.symm, hset⟩, hrest⟩

/-- The numbers of the frames of a page are different. -/
theorem inUse_freedPage (haligned : start % pageSize = 0) (hn : n < 2 ^ 32) {f : Nat}
    (hf : f ∈ framesFrom (start + pageSize) n) : InUse (freedPage s start).pmm f ↔ InUse s.pmm f := by
  obtain ⟨i, hi, rfl⟩ := List.mem_map.mp hf
  have hi := List.mem_range.mp hi
  unfold InUse
  show bitAt (bitmapClear s.pmm.bitmap (start / pageSize % 2 ^ 32)) _ = true ↔ _
  have hne : start / pageSize % 2 ^ 32 ≠ (start + pageSize + i * pageSize) / pageSize % 2 ^ 32 := by
    unfold pageSize at *
    omega
  rw [bitAt_bitmapClear, decide_eq_false hne]
  simp

theorem freeFrames_ok (haligned : start % pageSize = 0) (hn : n ≤ 2 ^ 32)
    (huse : debug = true → ∀ f ∈ framesFrom start n, InUse s.pmm f) :
    AtPanic.freeFrames debug start n s = .ok () (freedPages n start s) := by
  induction n generalizing start s with
  | zero => rfl
  | succ n ih =>
    rw [framesFrom_succ] at huse
    have hfirst := freePage_ok haligned fun h => (List.forall_mem_cons.mp (huse h)).1
    rw [AtPanic.freeFrames_succ, AtPanic.lift_of_ok hfirst, freedPages]
    refine ih ?_ (by omega) fun h f hf => ?_
    · unfold pageSize at *
      omega
    · exact (inUse_freedPage haligned (by omega) hf).mpr ((List.forall_mem_cons.mp (huse h)).2 f hf)

/-- In a debug build the loop ends early at a frame that is not in use. -/
theorem freeFrames_error (haligned : start % pageSize = 0) (hn : n ≤ 2 ^ 32)
    (hfree : ∃ f ∈ framesFrom start n, ¬ InUse s.pmm f) :
    ∃ panic s', AtPanic.freeFrames true start n s = .error panic s' := by
  induction n generalizing start s with
  | zero =>
    obtain ⟨f, hf, -⟩ := hfree
    cases hf
  | succ n ih =>
    rw [AtPanic.freeFrames_succ]
    by_cases hstart : InUse s.pmm start
    · rw [AtPanic.lift_of_ok (freePage_ok haligned fun _ => hstart)]
      obtain ⟨f, hf, hnot⟩ := hfree
      rw [framesFrom_succ, List.mem_cons] at hf
      rcases hf with rfl | hf
      · exact absurd hstart hnot
      · refine ih ?_ (by omega) ⟨f, hf, fun h => ?_⟩
        · unfold pageSize at *
          omega
        · exact hnot ((inUse_freedPage haligned (by omega) hf).mp h)
    · exact ⟨_, s, AtPanic.lift_of_error (freePage_double haligned hstart)⟩

theorem freeFrames_double (haligned : start % pageSize = 0) (hfree : ¬ InUse s.pmm start) :
    AtPanic.freeFrames true start (n + 1) s = .error (.pmmFreeDouble start) s := by
  rw [AtPanic.freeFrames_succ, AtPanic.lift_of_error (freePage_double haligned hfree)]

@[simp] theorem freeFrames_one :
    AtPanic.freeFrames debug start 1 = (liftM (freePage debug start) : PanicM Unit) := by
  simp [AtPanic.freeFrames, Ops.freeFrames]

/-- However it ends, the loop has given some frames back and done nothing else. -/
theorem freeFrames_log : Yields (fun _ s' => ∃ l, s'.log = l ++ s.log)
    (fun s' => ∃ l, s'.log = l ++ s.log) (AtPanic.freeFrames debug start n s) := by
  induction n generalizing start s with
  | zero => exact ⟨[], rfl⟩
  | succ n ih =>
    rw [AtPanic.freeFrames_succ]
    cases hfree : freePage debug start s with
    | error panic =>
      rw [AtPanic.lift_of_error hfree]
      exact ⟨[], rfl⟩
    | ok result =>
      obtain ⟨_, s1⟩ := result
      rw [AtPanic.lift_of_ok hfree]
      obtain ⟨pmm, -, rfl⟩ := freePage_ok_iff.mp hfree
      refine ih.mono ?_ ?_
      · rintro - s' ⟨l, hlog⟩
        exact ⟨l ++ [.free start], by rw [hlog]; simp⟩
      · rintro s' ⟨l, hlog⟩
        exact ⟨l ++ [.free start], by rw [hlog]; simp⟩

/-- Once the first frame is given back, a failure comes too late. -/
theorem freeFrames_late (haligned : start % pageSize = 0)
    (hfirst : debug = true → InUse s.pmm start) {panic : KPanic} {s' : Machine}
    (hcall : AtPanic.freeFrames debug start (n + 1) s = .error panic s') :
    ∃ l, s'.log = l ++ .free start :: s.log := by
  rw [AtPanic.freeFrames_succ, AtPanic.lift_of_ok (freePage_ok haligned hfirst)] at hcall
  have hlog : Yields _ _ (AtPanic.freeFrames debug (start + pageSize) n (freedPage s start)) :=
    freeFrames_log
  rw [hcall] at hlog
  exact hlog

end Free

/-! ## What `vmm_free` does -/

/-- The machine after the entry is cleared, the end of `vmm_free`. -/
def clearedAt (addr : Nat) (s : Machine) : Machine :=
  { s with mem := storeLE s.mem addr 8 0, log := .write addr :: s.log }

section VmmFree

variable {debug : Bool} {pml4 virt : Nat} {s : Machine} {tr : Translation}

variable (debug) in
theorem vmmFree_none (htarget : freeTarget s.mem pml4 virt = none) :
    ∃ panic l, freedIn l = [] ∧
      AtPanic.vmmFree debug pml4 virt s = .error panic { s with log := l ++ s.log } := by
  unfold freeTarget pteOf pdeOf pdpteOf pml4eOf at htarget
  unfold AtPanic.vmmFree Ops.vmmFree
  rw [AtPanic.read_bind]
  split_ifs at htarget with hpdpt hhuge hpd hlarge hpt
  · rw [AtPanic.guard_error hpdpt]
    exact ⟨_, [_], rfl, rfl⟩
  · rw [AtPanic.guard_skip hpdpt, AtPanic.read_bind, if_neg hhuge]
    rw [AtPanic.guard_error hpd]
    exact ⟨_, [_, _], rfl, rfl⟩
  · rw [AtPanic.guard_skip hpdpt, AtPanic.read_bind, if_neg hhuge]
    rw [AtPanic.guard_skip hpd, AtPanic.read_bind, if_neg hlarge]
    rw [AtPanic.read_bind, AtPanic.guard_error hpt]
    exact ⟨_, [_, _, _, _], rfl, rfl⟩

variable (debug) in
theorem vmmFree_some (htarget : freeTarget s.mem pml4 virt = some tr) :
    ∃ l, freedIn l = [] ∧ AtPanic.vmmFree debug pml4 virt s =
      (AtPanic.freeFrames debug (tr.entry &&& pteAddrMask) tr.count >>= fun _ =>
        modify (clearedAt (entryAddr s.mem pml4 virt tr))) { s with log := l ++ s.log } := by
  unfold freeTarget pteOf pdeOf pdpteOf pml4eOf at htarget
  unfold AtPanic.vmmFree Ops.vmmFree
  rw [AtPanic.read_bind]
  split_ifs at htarget with hpdpt hhuge hpd hlarge hpt
  · cases htarget
    rw [AtPanic.guard_skip hpdpt, AtPanic.read_bind, if_pos hhuge]
    exact ⟨[_, _], rfl, rfl⟩
  · cases htarget
    rw [AtPanic.guard_skip hpdpt, AtPanic.read_bind, if_neg hhuge]
    rw [AtPanic.guard_skip hpd, AtPanic.read_bind, if_pos hlarge]
    exact ⟨[_, _, _], rfl, rfl⟩
  · cases htarget
    rw [AtPanic.guard_skip hpdpt, AtPanic.read_bind, if_neg hhuge]
    rw [AtPanic.guard_skip hpd, AtPanic.read_bind, if_neg hlarge]
    rw [AtPanic.read_bind, AtPanic.guard_skip hpt]
    unfold Translation.count
    rw [freeFrames_one]
    exact ⟨[.read _, .read _, .read _, .read _], rfl, rfl⟩

/-- On a mapping the walk of `vmm_free` is the hardware's, unless a table lies where `phys_to_virt` is
zero. -/
theorem freeTarget_of_walk (hwalk : walk s.mem pml4 virt = some tr) :
    freeTarget s.mem pml4 virt =
      if ∀ t ∈ walkTables s.mem pml4 virt tr, physToVirt t ≠ 0 then some tr else none := by
  change (if pml4eOf s.mem pml4 virt &&& vmmFlagsPresent = 0 then none else
    if pdpteOf s.mem pml4 virt &&& vmmFlagsPresent = 0 then none else
    if pdpteOf s.mem pml4 virt &&& vmmPageSizeFlag ≠ 0 then
      some (.page1g (pdpteOf s.mem pml4 virt)) else
    if pdeOf s.mem pml4 virt &&& vmmFlagsPresent = 0 then none else
    if pdeOf s.mem pml4 virt &&& vmmPageSizeFlag ≠ 0 then
      some (.page2m (pdeOf s.mem pml4 virt)) else
    if pteOf s.mem pml4 virt &&& vmmFlagsPresent = 0 then none else
      some (.page4k (pteOf s.mem pml4 virt))) = some tr at hwalk
  unfold freeTarget
  split_ifs at hwalk with hpml4e hpdpte hhuge hpde hlarge hpte
  · cases hwalk
    simp [walkTables, hpml4e, hhuge]
  · cases hwalk
    by_cases hpdpt : physToVirt (pml4eOf s.mem pml4 virt &&& pteAddrMask) = 0
    · simp [walkTables, hpdpt]
    · simp [walkTables, hpml4e, hpdpte, hhuge, hlarge, hpdpt]
  · cases hwalk
    by_cases hpdpt : physToVirt (pml4eOf s.mem pml4 virt &&& pteAddrMask) = 0
    · simp [walkTables, hpdpt]
    · by_cases hpd : physToVirt (pdpteOf s.mem pml4 virt &&& pteAddrMask) = 0
      · simp [walkTables, hpml4e, hhuge, hpdpt, hpd]
      · simp [walkTables, hpml4e, hpdpte, hhuge, hlarge, hpte, hpdpt, hpd]

theorem count_bounds (tr : Translation) : 0 < tr.count ∧ tr.count ≤ 2 ^ 32 := by
  cases tr <;> simp [Translation.count, pageSize, largePageSize, hugePageSize]

/-- The frames that `vmm_free` works on are those of the mapping just if the entry has no bits between
bit 12 and the size of the page. -/
theorem framesFrom_eq_frames : framesFrom (tr.entry &&& pteAddrMask) tr.count = tr.frames ↔
    (tr.entry &&& pteAddrMask) % (tr.count * pageSize) = 0 := by
  constructor
  · intro hframes
    obtain ⟨n, hn⟩ : ∃ n, tr.count = n + 1 := Nat.exists_eq_add_one.mpr (count_bounds tr).1
    unfold Translation.frames at hframes
    rw [hn, framesFrom_succ, framesFrom_succ] at hframes
    have hbase : tr.entry &&& pteAddrMask = tr.base := (List.cons.inj hframes).1
    rw [hbase]
    exact Nat.mul_mod_left _ _
  · intro hlow
    unfold Translation.frames Translation.base
    rw [Nat.div_mul_cancel (Nat.dvd_of_mod_eq_zero hlow)]

/-- The machine when all frames are given back and the entry is cleared. -/
def freedMapping (pml4 virt : Nat) (tr : Translation) (l : List Access) (s : Machine) : Machine :=
  clearedAt (entryAddr s.mem pml4 virt tr)
    (freedPages tr.count (tr.entry &&& pteAddrMask) { s with log := l ++ s.log })

/-- It returns when, in a debug build, the frames that it works on are in use. -/
theorem vmmFree_ok (htarget : freeTarget s.mem pml4 virt = some tr)
    (huse : debug = true → ∀ f ∈ framesFrom (tr.entry &&& pteAddrMask) tr.count, InUse s.pmm f) :
    ∃ l, freedIn l = [] ∧
      AtPanic.vmmFree debug pml4 virt s = .ok () (freedMapping pml4 virt tr l s) := by
  obtain ⟨l, hl, hcall⟩ := vmmFree_some debug htarget
  have hfree : AtPanic.freeFrames debug (tr.entry &&& pteAddrMask) tr.count
      { s with log := l ++ s.log } = .ok () (freedPages tr.count (tr.entry &&& pteAddrMask)
        { s with log := l ++ s.log }) :=
    freeFrames_ok (and_pteAddrMask_aligned _) (count_bounds tr).2 huse
  refine ⟨l, hl, ?_⟩
  rw [hcall, bind_of_ok hfree]
  rfl

/-- A frame that is not in use stops it in a debug build. -/
theorem vmmFree_error (htarget : freeTarget s.mem pml4 virt = some tr)
    (hfree : ∃ f ∈ framesFrom (tr.entry &&& pteAddrMask) tr.count, ¬ InUse s.pmm f) :
    ∃ panic s', AtPanic.vmmFree true pml4 virt s = .error panic s' := by
  obtain ⟨l, -, hcall⟩ := vmmFree_some true htarget
  obtain ⟨panic, s', herror⟩ : ∃ panic s', AtPanic.freeFrames true (tr.entry &&& pteAddrMask) tr.count
      { s with log := l ++ s.log } = .error panic s' :=
    freeFrames_error (and_pteAddrMask_aligned _) (count_bounds tr).2 hfree
  exact ⟨panic, s', by rw [hcall, bind_of_error herror]⟩

/-- What the finished call has given back, against a list of frames. -/
theorem givenBack_freedMapping {l : List Access} {frames : List Nat} (hl : freedIn l = []) :
    GivenBack frames s (freedMapping pml4 virt tr l s) ↔
      framesFrom (tr.entry &&& pteAddrMask) tr.count = frames ∧
        ∀ i, bitAt s.pmm.bitmap i = true →
          ((∃ f ∈ frames, i = f / pageSize % 2 ^ 32) ↔ ∃ f ∈ frames, i = f / pageSize) := by
  have hlog : (freedMapping pml4 virt tr l s).log = (.write (entryAddr s.mem pml4 virt tr) ::
      ((framesFrom (tr.entry &&& pteAddrMask) tr.count).map Access.free).reverse ++ l) ++ s.log := by
    unfold freedMapping clearedAt
    rw [freedPages_log]
    simp
  have hfreed : (freedIn (.write (entryAddr s.mem pml4 virt tr) ::
      ((framesFrom (tr.entry &&& pteAddrMask) tr.count).map Access.free).reverse ++ l)).reverse =
      framesFrom (tr.entry &&& pteAddrMask) tr.count := by
    rw [List.cons_append, freedIn_write, freedIn_append, hl, List.append_nil, ← List.map_reverse,
      freedIn_frees, List.reverse_reverse]
  have hbits (i : Nat) : bitAt (freedMapping pml4 virt tr l s).pmm.bitmap i = true ↔
      bitAt s.pmm.bitmap i = true ∧
        ∀ f ∈ framesFrom (tr.entry &&& pteAddrMask) tr.count, i ≠ f / pageSize % 2 ^ 32 :=
    bitAt_freedPages i
  constructor
  · intro hback
    obtain ⟨l', hlog', hframes⟩ := hback.calls
    rw [hlog] at hlog'
    obtain rfl := List.append_cancel_right hlog'
    rw [hfreed] at hframes
    refine ⟨hframes, fun i hset => ?_⟩
    have hiff := (hbits i).symm.trans (hback.bits i)
    rw [hframes, and_congr_right_iff] at hiff
    have hiff := not_congr (hiff hset)
    push Not at hiff
    exact hiff
  · rintro ⟨hframes, hmistaken⟩
    refine ⟨⟨_, hlog, hfreed.trans hframes⟩, fun i => ?_⟩
    rw [hbits, hframes, and_congr_right_iff]
    intro hset
    have hiff := not_congr (hmistaken i hset)
    push Not at hiff
    exact hiff

/-- On a mapping. -/
theorem frees_iff (htarget : freeTarget s.mem pml4 virt = some tr) :
    (∃ s', AtPanic.vmmFree debug pml4 virt s = .ok () s' ∧ GivenBack tr.frames s s' ∧
      s'.mem = storeLE s.mem (entryAddr s.mem pml4 virt tr) 8 0) ↔
    (tr.entry &&& pteAddrMask) % (tr.count * pageSize) = 0 ∧
      (debug = true → ∀ f ∈ tr.frames, InUse s.pmm f) ∧
      ∀ i, bitAt s.pmm.bitmap i = true →
        ((∃ f ∈ tr.frames, i = f / pageSize % 2 ^ 32) ↔ ∃ f ∈ tr.frames, i = f / pageSize) := by
  constructor
  · rintro ⟨s', hcall, hback, -⟩
    have huse (hdebug : debug = true) :
        ∀ f ∈ framesFrom (tr.entry &&& pteAddrMask) tr.count, InUse s.pmm f := by
      by_contra hnot
      push Not at hnot
      subst hdebug
      obtain ⟨panic, t, herror⟩ := vmmFree_error htarget hnot
      rw [herror] at hcall
      cases hcall
    obtain ⟨l, hl, hok⟩ := vmmFree_ok htarget huse
    rw [hok] at hcall
    cases hcall
    obtain ⟨hframes, hmistaken⟩ := (givenBack_freedMapping hl).mp hback
    rw [hframes] at huse
    exact ⟨framesFrom_eq_frames.mp hframes, huse, hmistaken⟩
  · rintro ⟨hlow, huse, hmistaken⟩
    have hframes := framesFrom_eq_frames.mpr hlow
    rw [← hframes] at huse
    obtain ⟨l, hl, hok⟩ := vmmFree_ok htarget huse
    refine ⟨_, hok, (givenBack_freedMapping hl).mpr ⟨hframes, hmistaken⟩, ?_⟩
    unfold freedMapping clearedAt
    rw [freedPages_mem]

/-- At an entry that is no mapping. -/
theorem refuses_iff (htarget : freeTarget s.mem pml4 virt = some tr) :
    (∃ panic s', AtPanic.vmmFree debug pml4 virt s = .error panic s' ∧ GivenBack [] s s' ∧
      s'.mem = s.mem) ↔ debug = true ∧ ¬ InUse s.pmm (tr.entry &&& pteAddrMask) := by
  obtain ⟨l, hl, heq⟩ := vmmFree_some debug htarget
  obtain ⟨n, hn⟩ : ∃ n, tr.count = n + 1 := Nat.exists_eq_add_one.mpr (count_bounds tr).1
  rw [hn] at heq
  constructor
  · rintro ⟨panic, s', hcall, hback, -⟩
    by_contra hnot
    push Not at hnot
    rw [heq] at hcall
    rcases bind_eq_error.mp hcall with hfree | ⟨_, t, -, hclear⟩
    · have hnot : debug = true → InUse ({ s with log := l ++ s.log } : Machine).pmm _ := hnot
      obtain ⟨l', hlate⟩ := freeFrames_late (and_pteAddrMask_aligned _) hnot hfree
      obtain ⟨l'', hlog, hnone⟩ := hback.calls
      rw [hlate, show l' ++ .free (tr.entry &&& pteAddrMask) :: (l ++ s.log) =
        (l' ++ .free (tr.entry &&& pteAddrMask) :: l) ++ s.log by simp] at hlog
      obtain rfl := List.append_cancel_right hlog
      simp at hnone
    · cases hclear
  · rintro ⟨rfl, hfree⟩
    refine ⟨.pmmFreeDouble (tr.entry &&& pteAddrMask), { s with log := l ++ s.log }, ?_,
      ⟨⟨l, rfl, by rw [hl]; rfl⟩, by simp⟩, rfl⟩
    exact heq.trans (bind_of_error (freeFrames_double (and_pteAddrMask_aligned _) hfree))

theorem freesMapping_mapped (hwalk : walk s.mem pml4 virt = some tr) :
    FreesMapping debug pml4 virt s ↔ (∀ t ∈ walkTables s.mem pml4 virt tr, physToVirt t ≠ 0) ∧
      (tr.entry &&& pteAddrMask) % (tr.count * pageSize) = 0 ∧
      (debug = true → ∀ f ∈ tr.frames, InUse s.pmm f) ∧
      ∀ i, bitAt s.pmm.bitmap i = true →
        ((∃ f ∈ tr.frames, i = f / pageSize % 2 ^ 32) ↔ ∃ f ∈ tr.frames, i = f / pageSize) := by
  have htarget := freeTarget_of_walk hwalk
  unfold FreesMapping
  rw [hwalk]
  dsimp only
  split_ifs at htarget with htables
  · rw [frees_iff htarget]
    exact (and_iff_right htables).symm
  · refine iff_of_false ?_ fun hcond => htables hcond.1
    rintro ⟨s', hcall, -⟩
    obtain ⟨panic, l, -, herror⟩ := vmmFree_none debug htarget
    rw [herror] at hcall
    cases hcall

theorem freesMapping_unmapped (hwalk : walk s.mem pml4 virt = none) :
    FreesMapping debug pml4 virt s ↔ ∀ tr, freeTarget s.mem pml4 virt = some tr →
      debug = true ∧ ¬ InUse s.pmm (tr.entry &&& pteAddrMask) := by
  unfold FreesMapping
  rw [hwalk]
  cases htarget : freeTarget s.mem pml4 virt with
  | none =>
    obtain ⟨panic, l, hl, hcall⟩ := vmmFree_none debug htarget
    refine iff_of_true ⟨panic, _, hcall, ⟨⟨l, rfl, by rw [hl]; rfl⟩, by simp⟩, rfl⟩ ?_
    rintro tr ⟨⟩
  | some tr =>
    rw [refuses_iff htarget]
    exact ⟨fun h _ htr => Option.some.inj htr ▸ h, fun h => h tr rfl⟩

end VmmFree

/-- What `vmm_free` does is what the hardware's walk asks for just under the condition. -/
theorem freesMapping_iff (debug : Bool) (pml4 virt : Nat) (s : Machine) :
    FreesMapping debug pml4 virt s ↔ FreeCond debug pml4 virt s := by
  unfold FreeCond
  cases hwalk : walk s.mem pml4 virt with
  | none => exact freesMapping_unmapped hwalk
  | some tr => exact freesMapping_mapped hwalk

/-- A top table, and a page of 2 MiB in it whose memory type has the bit 12 set. -/
def mapWithPat : PanicM Nat := do
  let pml4 ← vmmInit true
  AtPanic.vmmMapLarge true pml4 0x200000 0x200000 0x1003
  return pml4

theorem mapWithPat_walks : (match mapWithPat (Machine.zeroed 1) with
    | .ok pml4 s => some (pml4, walk s.mem pml4 0x200000, walk s.mem pml4 0x400000,
        freeTarget s.mem pml4 0x400000, decide (InUse s.pmm 0x1000))
    | .error .. => none) = some (0, some (.page2m 0x201083), none, some (.page4k 0x1003), true) := by
  decide +kernel

/-- The page of 2 MiB is given back from one frame too high, and the address after it, where nothing is
mapped, is looked up in physical page 0, here the top table: its first entry is taken for a page, the
table under it is given back and the entry is cleared. -/
theorem vmmFree_releases_other : ∃ pml4 s, mapWithPat (Machine.zeroed 1) = .ok pml4 s ∧
    walk s.mem pml4 0x200000 = some (.page2m 0x201083) ∧ ¬ FreesMapping false pml4 0x200000 s ∧
    walk s.mem pml4 0x400000 = none ∧ ¬ FreesMapping true pml4 0x400000 s := by
  have hwalks := mapWithPat_walks
  cases hrun : mapWithPat (Machine.zeroed 1) with
  | error panic t =>
    rw [hrun] at hwalks
    cases hwalks
  | ok pml4 s =>
    rw [hrun] at hwalks
    simp only [Option.some.injEq, Prod.mk.injEq, decide_eq_true_eq] at hwalks
    obtain ⟨-, hmapped, hnone, htarget, huse⟩ := hwalks
    refine ⟨pml4, s, rfl, hmapped, ?_, hnone, ?_⟩
    · intro hfrees
      have hlow := ((freesMapping_mapped hmapped).mp hfrees).2.1
      exact absurd hlow (by decide)
    · intro hrefuses
      exact ((freesMapping_unmapped hnone).mp hrefuses _ htarget).2 huse

end Pristine.Kernel
