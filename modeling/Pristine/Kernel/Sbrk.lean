import Pristine.Kernel.Process

/-!
# The program break

Runs of `SYS_SBRK` calls of one process.  The break has to stay between
`brk_start` and `PROCESS_VIRT_TOP`, and the kernel's half of the address space
must not be touched.

The bound check of `syscall_sbrk` is made after the request was added to the
break in 64-bit arithmetic, and growing is not checked at all.  So the contract
holds in runs whose requests neither wrap below zero nor pass the top
(`SbrkInRange`, `sbrk_confined`), and fails without that condition
(`sbrk_not_confined`).
-/

namespace Pristine.Kernel

open Lib Relation

/-- All tables, and the pages of the lower half. -/
def UserPath (q : List (Fin 512)) : Prop :=
  q.length ≤ 3 ∨ (q.length = 4 ∧ Under LowerHalf q)

theorem userPath_tracks : Tracks UserPath LowerHalf := by
  refine ⟨?_, ?_, ?_⟩
  · intro p i hp
    left
    rcases hp with hlen | ⟨hlen, -⟩
    · rw [List.length_append] at hlen
      omega
    · rw [List.length_append, List.length_singleton] at hlen
      omega
  · intro q hq
    rcases hq with hlen | ⟨hlen, -⟩
    · omega
    · omega
  · intro i rest hi
    unfold UserPath
    rw [List.length_cons]
    constructor
    · rintro (hlen | ⟨hlen, -⟩)
      · omega
      · omega
    · intro hlen
      by_cases hshort : rest.length ≤ 2
      · exact Or.inl (by omega)
      · exact Or.inr ⟨by omega, i, rest, rfl, hi⟩

/-- A process between two system calls. -/
structure SbrkRun where
  machine : Machine
  process : Process

/-- A new process: well-formed page tables, and a page-aligned break in the lower
half. -/
structure SbrkRun.Start (r : SbrkRun) : Prop where
  owned : Owned UserPath LowerHalf r.machine r.process.pml4
  brk_eq : r.process.brk = r.process.brkStart
  aligned : r.process.brkStart % pageSize = 0
  lower : r.process.brkStart < 2 ^ 47

/-- One `SYS_SBRK` call with an argument `Allowed` for the current break. -/
inductive SbrkStep (Allowed : Nat → Nat → Prop) (debug : Bool) : SbrkRun → SbrkRun → Prop
  | call {r : SbrkRun} {arg ret : Nat} {process' : Process} {machine' : Machine}
      (harg : arg < 2 ^ 64) (hallowed : Allowed r.process.brk arg)
      (hcall : syscallSbrk debug r.process arg r.machine = .ok ((ret, process'), machine')) :
      SbrkStep Allowed debug r ⟨machine', process'⟩

/-- What a run has to respect: the bounds of the break, and the kernel's half. -/
structure SbrkContract (Allowed : Nat → Nat → Prop) (debug : Bool) (r₀ r : SbrkRun) : Prop where
  brk_ge : r.process.brkStart ≤ r.process.brk
  brk_le : r.process.brk ≤ processVirtTop
  same_start : r.process.brkStart = r₀.process.brkStart
  same_root : r.process.pml4 = r₀.process.pml4
  /-- no entry of the upper half, nor of a table behind one, has changed -/
  upper_same : ∀ q j, q.length ≤ 3 → ¬ Under LowerHalf (q ++ [j]) →
    entryAt r.machine.mem r₀.process.pml4 q j = entryAt r₀.machine.mem r₀.process.pml4 q j
  /-- no such entry or table was read, written, zeroed or freed -/
  upper_avoided : ∃ l, r.machine.log = l ++ r₀.machine.log ∧
    ∀ acc ∈ l, Avoids UserPath LowerHalf r₀.process.pml4 r.machine.mem acc
  /-- a request that leaves the bounds is refused and changes nothing -/
  refused : ∀ arg, arg < 2 ^ 64 → Allowed r.process.brk arg →
    ¬ ((r.process.brkStart : Int) ≤ r.process.brk + toInt64 arg ∧
      r.process.brk + toInt64 arg ≤ processVirtTop) →
    syscallSbrk debug r.process arg r.machine = .ok ((0, r.process), r.machine)

/-- The request neither takes the break below zero nor above the top. -/
def SbrkInRange (brk arg : Nat) : Prop :=
  0 ≤ (brk : Int) + toInt64 arg ∧ (brk : Int) + toInt64 arg ≤ processVirtTop

instance (brk arg : Nat) : Decidable (SbrkInRange brk arg) :=
  inferInstanceAs (Decidable (_ ∧ _))

/-! ## The invariant

The heap is followed for any domain of paths that tracks the lower half, and for
any property `I` of the machine that page operations keep. -/

/-- Every page of the heap is mapped. -/
def HeapMapped (mem : ByteMem) (root start stop : Nat) : Prop :=
  ∀ v, v % pageSize = 0 → start ≤ v → v < stop → ∃ f, tableAt mem root (pathOf v) = some f

/-- The invariant of a run that started with `process₀`. -/
structure HeapInv (process₀ : Process) (I : Machine → Prop) (r : SbrkRun) : Prop where
  process_eq : r.process = { process₀ with brk := r.process.brk }
  brk_ge : process₀.brkStart ≤ r.process.brk
  brk_le : r.process.brk ≤ processVirtTop
  keeps : I r.machine
  heap : HeapMapped r.machine.mem process₀.pml4 process₀.brkStart
    (alignUp r.process.brk pageSize)

theorem alignUp_of_lt {value : Nat} (hvalue : value < 2 ^ 47) :
    alignUp value pageSize = (value + 4095) / 4096 * 4096 := by
  rw [alignUp_pageSize]
  unfold pageSize
  omega

theorem alignUp_of_le {value : Nat} (hvalue : value ≤ processVirtTop) :
    alignUp value pageSize = (value + 4095) / 4096 * 4096 :=
  alignUp_of_lt (Nat.lt_of_le_of_lt hvalue (by decide))

/-- Pages of the lower half have different paths. -/
theorem pathOf_ne {u v : Nat} (hu : u < 2 ^ 47) (hv : v < 2 ^ 47) (hua : u % pageSize = 0)
    (hva : v % pageSize = 0) (hne : u ≠ v) : pathOf u ≠ pathOf v := by
  intro heq
  exact hne (pathOf_injective (Or.inl hu) (Or.inl hv) hua hva heq)

theorem heapInv_start {process : Process} {machine : Machine} {I : Machine → Prop}
    (hbrk : process.brk = process.brkStart) (haligned : process.brkStart % pageSize = 0)
    (hlower : process.brkStart < 2 ^ 47) (hkeeps : I machine) :
    HeapInv process I ⟨machine, process⟩ := by
  have hle : process.brkStart ≤ processVirtTop := by
    unfold processVirtTop
    unfold pageSize at haligned
    omega
  refine ⟨rfl, Nat.le_of_eq hbrk.symm, ?_, hkeeps, ?_⟩
  · rw [hbrk]
    exact hle
  · intro v hv hlo hhi
    rw [hbrk, alignUp_of_le hle] at hhi
    unfold pageSize at *
    omega

section Heap

variable {P : List (Fin 512) → Prop} {H : Fin 512 → Prop} {I : Machine → Prop}
variable {process₀ : Process} {r : SbrkRun} {debug : Bool}

/-! ## Growing -/

/-- Pages that stay mapped when a fresh page is mapped, and that page. -/
theorem heapMapped_fresh {root start stop frame : Nat} {s s' : Machine}
    (htracks : Tracks P H) (hlow : ∀ i, LowerHalf i → H i)
    (hstop : stop < 2 ^ 47) (haligned : stop % pageSize = 0)
    (hheap : HeapMapped s.mem root start stop) (hfresh : FreshPage P H root stop frame s s') :
    HeapMapped s'.mem root start (stop + pageSize) := by
  intro v hv hlo hhi
  by_cases heq : v = stop
  · subst heq
    exact ⟨frame, hfresh.page⟩
  · have hlt : v < stop := by
      unfold pageSize at *
      omega
    obtain ⟨f, hf⟩ := hheap v hv hlo hlt
    refine ⟨f, hfresh.keep _ f ?_ ?_ hf⟩
    · exact htracks.pathOf (hlow _ (lowerHalf_of_lt (by omega)))
    · exact pathOf_ne (by omega) hstop hv haligned heq

theorem userData_linkFlags : LinkFlags vmmFlagsUserData :=
  ⟨by decide, by decide, by decide, by decide⟩

theorem sbrk_grow {arg : Nat} {machine' : Machine} (htracks : Tracks P H)
    (hlow : ∀ i, LowerHalf i → H i) (hpages : PageInvariant P H process₀.pml4 I)
    (hinv : HeapInv process₀ I r) (htop : r.process.brk + arg ≤ processVirtTop)
    (hcall : mapRange debug process₀.pml4 vmmFlagsUserData (alignUp r.process.brk pageSize)
      (alignUp (r.process.brk + arg) pageSize / pageSize -
        alignUp r.process.brk pageSize / pageSize) r.machine = .ok ((), machine')) :
    I machine' ∧ HeapMapped machine'.mem process₀.pml4 process₀.brkStart
      (alignUp (r.process.brk + arg) pageSize) := by
  have hfrom := alignUp_of_le hinv.brk_le
  have hto := alignUp_of_le htop
  have hbrk := hinv.brk_le
  have hheap := hinv.heap
  generalize alignUp r.process.brk pageSize = start at hcall hfrom hheap
  generalize alignUp (r.process.brk + arg) pageSize = stop at hcall hto ⊢
  unfold processVirtTop at htop hbrk
  have hlt : ∀ k, k < stop / pageSize - start / pageSize → start + k * pageSize < 2 ^ 47 := by
    intro k hk
    unfold pageSize at *
    omega
  have haligned : ∀ k, (start + k * pageSize) % pageSize = 0 := by
    intro k
    unfold pageSize
    omega
  have hall := mapRange_rule
    (fun k t => I t ∧
      HeapMapped t.mem process₀.pml4 process₀.brkStart (start + k * pageSize))
    htracks userData_linkFlags (by unfold pageSize at *; omega)
    (fun k hk => hlow _ (lowerHalf_of_lt (hlt k hk))) (fun k t hJ => hpages.owned t hJ.1) ?_
    ⟨hinv.keeps, by simpa using hheap⟩ hcall
  · obtain ⟨hkeeps, hmapped⟩ := hall
    refine ⟨hkeeps, ?_⟩
    have hend : start + (stop / pageSize - start / pageSize) * pageSize = stop := by
      unfold pageSize
      omega
    rw [hend] at hmapped
    exact hmapped
  · rintro k frame t t' hk ⟨hkeeps, hmapped⟩ hfresh
    refine ⟨hpages.fresh _ frame t t' (lowerHalf_of_lt (hlt k hk)) hkeeps hfresh, ?_⟩
    have hgrown := heapMapped_fresh htracks hlow (hlt k hk) (haligned k) hmapped hfresh
    rw [Nat.add_mul, Nat.one_mul, ← Nat.add_assoc]
    exact hgrown

/-! ## Shrinking -/

/-- The other pages stay mapped when a page is given back. -/
theorem heapMapped_freed {root start stop virt frame : Nat} {s s' : Machine}
    (htracks : Tracks P H) (hlow : ∀ i, LowerHalf i → H i)
    (hvirt : virt < 2 ^ 47) (haligned : virt % pageSize = 0) (hstop : stop ≤ 2 ^ 47)
    (hout : virt < start ∨ stop ≤ virt) (hheap : HeapMapped s.mem root start stop)
    (hfreed : FreedPage P H root virt frame s s') : HeapMapped s'.mem root start stop := by
  intro v hv hlo hhi
  obtain ⟨f, hf⟩ := hheap v hv hlo hhi
  refine ⟨f, ?_⟩
  rw [hfreed.other _ (htracks.pathOf (hlow _ (lowerHalf_of_lt (by omega))))
    (pathOf_ne (by omega) hvirt hv haligned (by omega))]
  exact hf

theorem sbrk_shrink (debug : Bool) {brk : Nat} (htracks : Tracks P H)
    (hlow : ∀ i, LowerHalf i → H i) (hpages : PageInvariant P H process₀.pml4 I)
    (hinv : HeapInv process₀ I r) (hle : brk ≤ r.process.brk) (hge : process₀.brkStart ≤ brk) :
    ∃ machine', freeRange debug process₀.pml4 (alignUp brk pageSize / pageSize * pageSize)
        (alignUp r.process.brk pageSize / pageSize - alignUp brk pageSize / pageSize) r.machine =
          .ok ((), machine') ∧
      I machine' ∧
      HeapMapped machine'.mem process₀.pml4 process₀.brkStart (alignUp brk pageSize) := by
  have hbrk := hinv.brk_le
  have hold := alignUp_of_le hbrk
  have hnew := alignUp_of_le (Nat.le_trans hle hbrk)
  have hheap := hinv.heap
  generalize alignUp r.process.brk pageSize = old at hold hheap ⊢
  generalize alignUp brk pageSize = new at hnew ⊢
  have hround : new / pageSize * pageSize = new := by
    unfold pageSize
    omega
  rw [hround]
  unfold processVirtTop at hbrk
  have hlt : ∀ k, k < old / pageSize - new / pageSize → new + k * pageSize < 2 ^ 47 := by
    intro k hk
    unfold pageSize at *
    omega
  have haligned : ∀ k, (new + k * pageSize) % pageSize = 0 := by
    intro k
    unfold pageSize
    omega
  have hstart : I r.machine ∧
      HeapMapped r.machine.mem process₀.pml4 process₀.brkStart new ∧
      HeapMapped r.machine.mem process₀.pml4 (new + 0 * pageSize) old := by
    refine ⟨hinv.keeps, ?_, ?_⟩
    · intro v hv hlo hhi
      exact hheap v hv hlo (by omega)
    · intro v hv hlo hhi
      exact hheap v hv (by omega) hhi
  -- kept below the new break, and still to be freed above
  obtain ⟨machine', hcall, hkeeps, hkept, -⟩ := freeRange_rule
    (fun k t => I t ∧
      HeapMapped t.mem process₀.pml4 process₀.brkStart new ∧
      HeapMapped t.mem process₀.pml4 (new + k * pageSize) old)
    htracks (by unfold pageSize at *; omega)
    (fun k hk => hlow _ (lowerHalf_of_lt (hlt k hk))) (fun k t hJ => hpages.owned t hJ.1)
    (by
      rintro k t hk ⟨-, -, hrest⟩
      refine hrest _ (haligned k) (Nat.le_refl _) ?_
      unfold pageSize at *
      omega)
    (by
      rintro k frame t t' hk ⟨hkeeps, hkept, hrest⟩ hframe hfreed
      have hrest' : HeapMapped t.mem process₀.pml4 (new + (k + 1) * pageSize) old := by
        intro v hv hlo hhi
        refine hrest v hv ?_ hhi
        rw [Nat.add_mul] at hlo
        omega
      refine ⟨hpages.freed _ frame t t' (lowerHalf_of_lt (hlt k hk)) hkeeps hframe hfreed, ?_, ?_⟩
      · exact heapMapped_freed htracks hlow (hlt k hk) (haligned k) (by omega)
          (Or.inr (by omega)) hkept hfreed
      · refine heapMapped_freed htracks hlow (hlt k hk) (haligned k) (by omega) (Or.inl ?_)
          hrest' hfreed
        unfold pageSize
        omega)
    hstart
  exact ⟨machine', hcall, hkeeps, hkept⟩

end Heap

/-! ## Runs -/

/-- A request below `brk_start` is refused. -/
theorem syscallSbrk_refused (debug : Bool) (process : Process) {arg : Nat} (machine : Machine)
    (hneg : 2 ^ 63 ≤ arg) (hlow : (process.brk + arg) % 2 ^ 64 < process.brkStart) :
    syscallSbrk debug process arg machine = .ok ((0, process), machine) := by
  unfold syscallSbrk
  rw [if_pos hneg, if_pos hlow]
  rfl

/-- A negative request that is granted without touching a page. -/
theorem syscallSbrk_no_pages (debug : Bool) (process : Process) {arg : Nat} (machine : Machine)
    (hneg : 2 ^ 63 ≤ arg) (hge : process.brkStart ≤ (process.brk + arg) % 2 ^ 64)
    (hpages : alignUp process.brk pageSize / pageSize ≤
      alignUp ((process.brk + arg) % 2 ^ 64) pageSize / pageSize) :
    syscallSbrk debug process arg machine =
      .ok ((process.brk, { process with brk := (process.brk + arg) % 2 ^ 64 }), machine) := by
  unfold syscallSbrk
  rw [if_pos hneg, if_neg (Nat.not_lt_of_le hge), Nat.sub_eq_zero_of_le hpages]
  rfl

/-- The two ways a call can succeed. -/
theorem syscallSbrk_ok_inv {debug : Bool} {process process' : Process} {arg ret : Nat}
    {machine machine' : Machine}
    (hcall : syscallSbrk debug process arg machine = .ok ((ret, process'), machine')) :
    (2 ^ 63 ≤ arg ∧ (process.brk + arg) % 2 ^ 64 < process.brkStart ∧ process' = process ∧
      machine' = machine) ∨
    (2 ^ 63 ≤ arg ∧ process.brkStart ≤ (process.brk + arg) % 2 ^ 64 ∧
      process' = { process with brk := (process.brk + arg) % 2 ^ 64 } ∧
      freeRange debug process.pml4
        (alignUp ((process.brk + arg) % 2 ^ 64) pageSize / pageSize * pageSize)
        (alignUp process.brk pageSize / pageSize -
          alignUp ((process.brk + arg) % 2 ^ 64) pageSize / pageSize) machine =
            .ok ((), machine')) ∨
    (arg < 2 ^ 63 ∧ process' = { process with brk := (process.brk + arg) % 2 ^ 64 } ∧
      mapRange debug process.pml4 vmmFlagsUserData (alignUp process.brk pageSize)
        ((alignUp ((process.brk + arg) % 2 ^ 64) pageSize / pageSize + 2 ^ 64 -
          alignUp process.brk pageSize / pageSize) % 2 ^ 64) machine = .ok ((), machine')) := by
  unfold syscallSbrk at hcall
  split at hcall
  · rename_i hneg
    split at hcall
    · rename_i hlow
      obtain ⟨hpair, rfl⟩ := pure_ok_iff.mp hcall
      exact Or.inl ⟨hneg, hlow, (Prod.mk.inj hpair).2.symm, rfl⟩
    · rename_i hlow
      obtain ⟨_, t, hfree, hcall⟩ := bind_ok_iff.mp hcall
      obtain ⟨hpair, rfl⟩ := pure_ok_iff.mp hcall
      exact Or.inr (Or.inl ⟨hneg, Nat.le_of_not_lt hlow, (Prod.mk.inj hpair).2.symm, hfree⟩)
  · rename_i hpos
    obtain ⟨_, t, hmap, hcall⟩ := bind_ok_iff.mp hcall
    obtain ⟨hpair, rfl⟩ := pure_ok_iff.mp hcall
    exact Or.inr (Or.inr ⟨Nat.lt_of_not_le hpos, (Prod.mk.inj hpair).2.symm, hmap⟩)

theorem heapInv_step {P : List (Fin 512) → Prop} {H : Fin 512 → Prop} {I : Machine → Prop}
    {process₀ : Process} {debug : Bool} {r r' : SbrkRun} (htracks : Tracks P H)
    (hlow : ∀ i, LowerHalf i → H i) (hpages : PageInvariant P H process₀.pml4 I)
    (hinv : HeapInv process₀ I r) (hstep : SbrkStep SbrkInRange debug r r') :
    HeapInv process₀ I r' := by
  cases hstep with
  | @call arg ret process' machine' harg hallowed hcall =>
    have hbrk := hinv.brk_le
    have hroot : r.process.pml4 = process₀.pml4 := by rw [hinv.process_eq]
    have hbegin : r.process.brkStart = process₀.brkStart := by rw [hinv.process_eq]
    have hsame (brk : Nat) : { r.process with brk := brk } = { process₀ with brk := brk } := by
      rw [hinv.process_eq]
    obtain ⟨hlow0, hhigh⟩ := hallowed
    unfold toInt64 at hlow0 hhigh
    have htop : processVirtTop < 2 ^ 47 := by decide
    rcases syscallSbrk_ok_inv hcall with ⟨-, -, rfl, rfl⟩ | ⟨hneg, hge, rfl, hfree⟩ |
      ⟨hpos, rfl, hmap⟩
    · exact hinv
    · rw [if_pos hneg] at hlow0 hhigh
      have hle : (r.process.brk + arg) % 2 ^ 64 ≤ r.process.brk := by omega
      rw [hbegin] at hge
      rw [hroot] at hfree
      obtain ⟨m, hfree', hkeeps, hheap⟩ := sbrk_shrink debug htracks hlow hpages hinv hle hge
      rw [hfree] at hfree'
      cases hfree'
      exact ⟨hsame _, hge, Nat.le_trans hle hbrk, hkeeps, hheap⟩
    · rw [if_neg (Nat.not_le_of_lt hpos)] at hlow0 hhigh
      have hsum : (r.process.brk + arg) % 2 ^ 64 = r.process.brk + arg := by omega
      have hle : r.process.brk + arg ≤ processVirtTop := by omega
      rw [hsum, hroot] at hmap
      rw [hsum]
      have hcount : (alignUp (r.process.brk + arg) pageSize / pageSize + 2 ^ 64 -
            alignUp r.process.brk pageSize / pageSize) % 2 ^ 64 =
          alignUp (r.process.brk + arg) pageSize / pageSize -
            alignUp r.process.brk pageSize / pageSize := by
        rw [alignUp_of_le hbrk, alignUp_of_le hle]
        unfold pageSize
        omega
      rw [hcount] at hmap
      obtain ⟨hkeeps, hheap⟩ := sbrk_grow htracks hlow hpages hinv hle hmap
      have hge := hinv.brk_ge
      exact ⟨hsame _, Nat.le_trans hge (Nat.le_add_right _ _), hle, hkeeps, hheap⟩

/-- In runs whose requests stay in range, the break and the kernel's half are
safe. -/
theorem sbrk_confined {debug : Bool} {r₀ r : SbrkRun} (hstart : r₀.Start)
    (hrun : ReflTransGen (SbrkStep SbrkInRange debug) r₀ r) :
    SbrkContract SbrkInRange debug r₀ r := by
  have hpages : PageInvariant UserPath LowerHalf r₀.process.pml4
      (StaysUnder UserPath LowerHalf r₀.process.pml4 r₀.machine) :=
    staysUnder_pageInvariant userPath_tracks (fun _ hi => hi) r₀.machine
  have hinv : HeapInv r₀.process
      (StaysUnder UserPath LowerHalf r₀.process.pml4 r₀.machine) r :=
    run_invariant hrun
      (heapInv_start hstart.brk_eq hstart.aligned hstart.lower (StaysUnder.refl hstart.owned))
      fun _ _ hinv hstep => heapInv_step userPath_tracks (fun _ hi => hi) hpages hinv hstep
  have hbegin : r.process.brkStart = r₀.process.brkStart := by rw [hinv.process_eq]
  have hroot : r.process.pml4 = r₀.process.pml4 := by rw [hinv.process_eq]
  refine ⟨?_, hinv.brk_le, hbegin, hroot, ?_, hinv.keeps.logged, ?_⟩
  · rw [hbegin]
    exact hinv.brk_ge
  · intro q j hlen hout
    exact hinv.keeps.outside q j (Or.inl hlen) hlen hout
  · rintro arg harg ⟨hlow, hhigh⟩ hbad
    -- in range and out of bounds: the new break is below `brk_start`
    have hbelow : (r.process.brk : Int) + toInt64 arg < r.process.brkStart := by
      by_contra hge
      exact hbad ⟨not_lt.mp hge, hhigh⟩
    have hbrk := hinv.brk_ge
    have hbrkle := hinv.brk_le
    have htop : processVirtTop < 2 ^ 47 := by decide
    rw [hbegin] at hbelow
    unfold toInt64 at hlow hbelow
    by_cases hneg : 2 ^ 63 ≤ arg
    · rw [if_pos hneg] at hlow hbelow
      exact syscallSbrk_refused debug r.process r.machine hneg (by rw [hbegin]; omega)
    · rw [if_neg hneg] at hlow hbelow
      omega

/-! ## Two concrete runs -/

theorem bareProcess_start {debug : Bool} {pml4 brk : Nat} {m0 m : Machine}
    (hinit : vmmInit debug m0 = .ok (pml4, m)) (haligned : brk % pageSize = 0)
    (hlower : brk < 2 ^ 47) : (SbrkRun.mk m (bareProcess pml4 brk)).Start :=
  ⟨(vmmInit_emptyRoot hinit).owned UserPath LowerHalf, rfl, haligned, hlower⟩

/-- Two calls of a process without pages: its heap grows by `0x1800` bytes and shrinks by `0x1000`. -/
theorem exists_twoCalls : ∃ (pml4 : Nat) (m0 m m1 m2 : Machine) (p1 p2 : Process) (ret1 ret2 : Nat),
    vmmInit true m0 = .ok (pml4, m) ∧
    syscallSbrk true (bareProcess pml4 0x400000) 0x1800 m = .ok ((ret1, p1), m1) ∧
    p1.brk = 0x401800 ∧
    syscallSbrk true p1 (2 ^ 64 - 0x1000) m1 = .ok ((ret2, p2), m2) ∧ p2.brk = 0x400800 := by
  have hok : ((do
      let pml4 ← vmmInit true
      let grown ← syscallSbrk true (bareProcess pml4 0x400000) 0x1800
      syscallSbrk true grown.2 (2 ^ 64 - 0x1000)) (Machine.allFree 1)).isOk = true := by
    decide +kernel
  cases hall : (do
      let pml4 ← vmmInit true
      let grown ← syscallSbrk true (bareProcess pml4 0x400000) 0x1800
      syscallSbrk true grown.2 (2 ^ 64 - 0x1000)) (Machine.allFree 1) with
  | error panic =>
    rw [hall] at hok
    cases hok
  | ok result =>
    obtain ⟨⟨ret2, p2⟩, m2⟩ := result
    obtain ⟨pml4, m, hinit, hrest⟩ := bind_ok_iff.mp hall
    obtain ⟨⟨ret1, p1⟩, m1, hgrow, hshrink⟩ := bind_ok_iff.mp hrest
    refine ⟨pml4, _, m, m1, m2, p1, p2, ret1, ret2, hinit, hgrow, ?_⟩
    obtain rfl : p1 = { bareProcess pml4 0x400000 with brk := (0x400000 + 0x1800) % 2 ^ 64 } := by
      rcases syscallSbrk_ok_inv hgrow with ⟨hneg, -⟩ | ⟨hneg, -⟩ | ⟨-, heq, -⟩
      · omega
      · omega
      · exact heq
    refine ⟨rfl, hshrink, ?_⟩
    rcases syscallSbrk_ok_inv hshrink with ⟨-, hlow, -⟩ | ⟨-, -, rfl, -⟩ | ⟨hpos, -⟩
    · exact absurd hlow (show ¬ ((0x400000 + 0x1800) % 2 ^ 64 + (2 ^ 64 - 0x1000)) % 2 ^ 64 <
        0x400000 by decide)
    · show ((0x400000 + 0x1800) % 2 ^ 64 + (2 ^ 64 - 0x1000)) % 2 ^ 64 = 0x400800
      decide
    · omega

/-- A heap that grows by `0x1800` bytes and shrinks by `0x1000`. -/
theorem sbrk_confined_two_calls : ∃ r₀ r : SbrkRun, r₀.Start ∧ r.process.brk = 0x400800 ∧
    SbrkContract SbrkInRange true r₀ r := by
  obtain ⟨pml4, m₀, m, m₁, m₂, p₁, p₂, ret₁, ret₂, hinit, hgrow, hbrk₁, hshrink, hbrk₂⟩ := exists_twoCalls
  have hstart := bareProcess_start hinit (show 0x400000 % pageSize = 0 by decide) (by decide)
  have hstep₁ : SbrkStep SbrkInRange true ⟨m, bareProcess pml4 0x400000⟩ ⟨m₁, p₁⟩ :=
    SbrkStep.call (by decide) (show SbrkInRange 0x400000 0x1800 by decide) hgrow
  have hstep₂ : SbrkStep SbrkInRange true ⟨m₁, p₁⟩ ⟨m₂, p₂⟩ :=
    SbrkStep.call (by decide) (by rw [hbrk₁]; decide) hshrink
  exact ⟨_, _, hstart, hbrk₂, sbrk_confined hstart
    ((ReflTransGen.single hstep₁).tail hstep₂)⟩

/-- Asking for `-0x2000` at a break of `0x1000` wraps around and is granted: the
break ends up in the kernel's half. -/
theorem sbrk_not_confined : ¬ ∀ (debug : Bool) (r₀ r : SbrkRun), r₀.Start →
    ReflTransGen (SbrkStep (fun _ _ => True) debug) r₀ r →
    SbrkContract (fun _ _ => True) debug r₀ r := by
  intro hall
  cases hinit : vmmInit true (Machine.allFree 1) with
  | error panic =>
    have hok : (vmmInit true (Machine.allFree 1)).isOk = true := by decide +kernel
    rw [hinit] at hok
    cases hok
  | ok result =>
    obtain ⟨pml4, m⟩ := result
    have hstart := bareProcess_start hinit (show 0x1000 % pageSize = 0 by decide) (by decide)
    have hcall := syscallSbrk_no_pages true (bareProcess pml4 0x1000) m
      (show 2 ^ 63 ≤ 2 ^ 64 - 0x2000 by decide)
      (show 0x1000 ≤ (0x1000 + (2 ^ 64 - 0x2000)) % 2 ^ 64 by decide)
      (show alignUp 0x1000 pageSize / pageSize ≤
        alignUp ((0x1000 + (2 ^ 64 - 0x2000)) % 2 ^ 64) pageSize / pageSize by decide)
    have hstep : SbrkStep (fun _ _ => True) true ⟨m, bareProcess pml4 0x1000⟩ _ :=
      SbrkStep.call (by decide) trivial hcall
    have hbrk := (hall true _ _ hstart (ReflTransGen.single hstep)).brk_le
    exact absurd hbrk
      (show ¬ (0x1000 + (2 ^ 64 - 0x2000)) % 2 ^ 64 ≤ processVirtTop by decide)

end Pristine.Kernel
