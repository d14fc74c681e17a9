import Pristine.Bsfs.PopulateRules

/-!
# `BSFS_PANIC` as the Makefiles compile it

The Makefiles define `BSFS_STDLIB_EXISTS`, the header tests `DBSFS_STDLIB_EXISTS`:
`BSFS_PANIC` does nothing, and a program that meets one of its conditions goes on.
So `bsfs-populate` never stops where it says that it does (`not_failsCleanly`).
-/

namespace Pristine.Bsfs

open Lib Kernel

/-! ## How the tools are compiled -/

/-- The macros that the tools test or are given. -/
inductive Macro where
  | bsfsDebug
  | bsfsStdlibExists
  | dbsfsDebug
  | dbsfsStdlibExists
  deriving DecidableEq

/-- What both Makefiles define with `-D`. -/
def makefileMacros : List Macro := [.bsfsDebug, .bsfsStdlibExists]

/-- `bsfs.h`: whether `BSFS_PANIC` calls `exit`. -/
def panicExits (macros : List Macro) : Bool := decide (Macro.dbsfsStdlibExists ∈ macros)

/-! ## The property -/

/-- How a run of `bsfs-populate` ends. -/
abbrev PopulateResult := EStateM.Result Halt PopulateState Unit

def finalState : PopulateResult → PopulateState
  | .ok _ s => s
  | .error _ s => s

/-- A condition of `BSFS_PANIC` was met. -/
def PanicArises (result : PopulateResult) : Prop := (finalState result).panics ≠ []

/-- The program stopped at the first panic, has no pointer to a block that does not exist, and left
the metadata of the image and its size alone. -/
structure FailsCleanly (image : HostFile) (result : PopulateResult) : Prop where
  stops : ∃ panic, result = .error (.exit panic) (finalState result) ∧
    (finalState result).panics = [panic]
  pointers : ∀ idx k, ((finalState result).inodeTable idx).direct k <
    (finalState result).header.totalBlocks
  metadata : ∀ a, a < (finalState result).header.blockSize * (finalState result).header.dataStart →
    (finalState result).image.bytes a = image.bytes a
  size : (finalState result).image.size = image.size

/-! ## Programs that go on -/

/-- No panic ends the program. -/
def NeverExits {α : Type} (program : PopulateM α) : Prop :=
  ∀ s panic s', program s ≠ .error (.exit panic) s'

theorem NeverExits.bind {α β : Type} {program : PopulateM α} {next : α → PopulateM β}
    (hprogram : NeverExits program) (hnext : ∀ a, NeverExits (next a)) :
    NeverExits (program >>= next) := by
  intro s panic s' h
  rcases bind_eq_error.mp h with hfirst | ⟨a, t, -, hsecond⟩
  · exact hprogram s panic s' hfirst
  · exact hnext a t panic s' hsecond

theorem neverExits_modifyInode (idx : Nat) (f : BsfsInode → BsfsInode) :
    NeverExits (modifyInode idx f) := by
  have hget : NeverExits (get : PopulateM PopulateState) := fun _ _ _ h => by cases h
  refine hget.bind fun s => NeverExits.bind ?_ fun _ _ _ _ h => by cases h
  unfold undefinedIf
  split
  · exact fun _ _ _ h => by cases h
  · exact fun _ _ _ h => by cases h

/-- Where `BSFS_PANIC` does nothing, no program ends at a panic. -/
theorem neverExits_rules : PanicRules fun _ program => NeverExits (program false) where
  pure := fun _ _ _ _ h => by cases h
  get := fun _ _ _ h => by cases h
  modify := fun _ _ _ _ h => by cases h
  modifyInode := neverExits_modifyInode
  halt := fun hhalt s panic s' h => by
    cases h
    exact hhalt panic rfl
  panic := fun _ _ _ h => by cases h
  bind := NeverExits.bind

/-- As it is compiled, the program does not stop at a panic. -/
theorem populateMain_never_exits {fs : HostFs} {fuel : Nat} {args : PopulateArgs}
    {heap : PopulateHeap} {image : HostFile} {result : PopulateResult}
    (hrun : populateMain (panicExits makefileMacros) fs fuel args heap image = some result)
    (panic : BsfsPanic) (s : PopulateState) : result ≠ .error (.exit panic) s := by
  obtain ⟨h, -, rfl⟩ := Option.map_eq_some_iff.mp hrun
  exact neverExits_rules.populateRun fuel args heap _ _ panic s

/-- Whatever the image and the host's tree, no panic is a clean failure. -/
theorem not_failsCleanly {fs : HostFs} {fuel : Nat} {args : PopulateArgs} {heap : PopulateHeap}
    {image : HostFile} {result : PopulateResult}
    (hrun : populateMain (panicExits makefileMacros) fs fuel args heap image = some result) :
    PanicArises result → ¬ FailsCleanly image result := by
  intro _ hclean
  obtain ⟨panic, hexit, -⟩ := hclean.stops
  exact populateMain_never_exits hrun panic _ hexit

/-! ## A volume without free blocks -/

/-- A volume of eight blocks, all of them in front of the data. -/
def fullVolume : Option HostFile := mkfsMain 4096 3 [] ⟨32768, fun _ => 0⟩

/-- A host whose directories are empty. -/
def emptyHost : HostFs where
  opendir := fun _ => some []
  fopen := fun _ => none
  time := fun _ => 0

/-- The run that stores an empty tree in an image. -/
def emptyRun (image : HostFile) : Option PopulateResult :=
  populateMain (panicExits makefileMacros) emptyHost 1 ⟨4096, 3, false, .dot⟩
    ⟨fun _ => 0, fun _ => 0⟩ image

/-- What the run leaves on the volume: panics, the first block of the root directory, the number of
blocks, the count of free ones, the size of the image and the first byte of its block bitmap.  It is
`none` if the run does not come to its end. -/
def fullRunSummary : Option (List BsfsPanic × Nat × Nat × Nat × Nat × UInt8) :=
  match fullVolume.bind emptyRun with
  | some (.ok _ s) =>
    some (s.panics, (s.inodeTable 1).direct 0, s.header.totalBlocks, s.header.freeBlocks,
      s.image.size, s.image.bytes 16384)
  | _ => none

theorem fullRunSummary_eq : fullRunSummary =
    some ([.noFreeBlockCounted], 8, 8, 2 ^ 32 - 1, 33024, 0xFF) := by
  decide +kernel

/-- The root directory gets block 8 of a volume of 8, the count of free blocks wraps around, the
image grows, and the metadata are written. -/
structure WrittenAnyway (s : PopulateState) : Prop where
  panics : s.panics = [.noFreeBlockCounted]
  root : (s.inodeTable 1).direct 0 = s.header.totalBlocks
  freeBlocks : s.header.freeBlocks = 2 ^ 32 - 1
  size : s.image.size = 33024
  bitmap : s.image.bytes 16384 = 0xFF

theorem fullRun_writtenAnyway : ∃ image s, fullVolume = some image ∧
    emptyRun image = some (.ok () s) ∧ WrittenAnyway s := by
  have hsummary := fullRunSummary_eq
  unfold fullRunSummary at hsummary
  split at hsummary
  · rename_i u s hrun
    obtain ⟨image, himage, hmain⟩ := Option.bind_eq_some_iff.mp hrun
    simp only [Option.some.injEq, Prod.mk.injEq] at hsummary
    obtain ⟨hpanics, hroot, htotal, hfree, hsize, hbitmap⟩ := hsummary
    exact ⟨image, s, himage, hmain, hpanics, hroot.trans htotal.symm, hfree, hsize, hbitmap⟩
  · cases hsummary

theorem WrittenAnyway.panicArises {s : PopulateState} (h : WrittenAnyway s) :
    PanicArises (.ok () s) := by
  show s.panics ≠ []
  rw [h.panics]
  exact List.cons_ne_nil _ _

theorem not_failsCleanly_full : ∃ image result, fullVolume = some image ∧
    emptyRun image = some result ∧ PanicArises result ∧ ¬ FailsCleanly image result := by
  obtain ⟨image, s, himage, hrun, hwritten⟩ := fullRun_writtenAnyway
  exact ⟨image, _, himage, hrun, hwritten.panicArises, not_failsCleanly hrun hwritten.panicArises⟩

/-- A panic arises and the run comes to its end. -/
theorem panic_ignored : ∃ image s, fullVolume = some image ∧ emptyRun image = some (.ok () s) ∧
    PanicArises (.ok () s) ∧ WrittenAnyway s ∧ ¬ FailsCleanly image (.ok () s) := by
  obtain ⟨image, s, himage, hrun, hwritten⟩ := fullRun_writtenAnyway
  refine ⟨image, s, himage, hrun, hwritten.panicArises, hwritten, fun hclean => ?_⟩
  obtain ⟨panic, hexit, -⟩ := hclean.stops
  cases hexit

end Pristine.Bsfs
