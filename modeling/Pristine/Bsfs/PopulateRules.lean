import Pristine.Bsfs.Panics
import Pristine.Bsfs.PopulateMain

/-!
# Properties of `bsfs-populate` as a whole

What is closed under `PanicRules` holds of every function of `bsfs-populate.c` and
of its `main`.
-/

namespace Pristine.Bsfs

open Lib Kernel

namespace PanicRules

variable {P : ∀ α : Type, (Bool → PopulateM α) → Prop}

variable (hP : PanicRules P)

include hP

theorem writeAt (offset : Nat) (data : List UInt8) :
    P Unit fun _ => seekImage offset >>= fun _ => writeImage data := by
  refine hP.bind (hP.modify fun s => ?_) fun _ => hP.modify fun _ => rfl
  split <;> rfl

/-! ## Files -/

theorem writeBlock (block : Nat) (data : List UInt8) : P Unit fun _ => writeBlock block data :=
  hP.bind hP.get fun _ => hP.writeAt _ _

theorem storeDirect (idx current block : Nat) (data : List UInt8) (st : StoreState) :
    P StoreState fun _ => storeDirect idx current block data st :=
  hP.bind (hP.modifyInode _ _) fun _ => hP.bind (hP.writeBlock _ _) fun _ => hP.pure _

theorem l1TableFor (idx slot : Nat) (st : StoreState) :
    P (Option (Nat × (Nat → Nat))) fun exits => l1TableFor exits idx slot st :=
  hP.ite (hP.bind hP.allocBlock fun _ => hP.bind (hP.modifyInode _ _) fun _ => hP.pure _) (hP.pure _)

theorem storeIndirect (idx slot block : Nat) (data : List UInt8) (st : StoreState) :
    P StoreState fun exits => storeIndirect exits idx slot block data st := by
  refine hP.bind (hP.l1TableFor idx slot st) fun l1 => ?_
  cases l1 with
  | none => exact hP.undefined
  | some table => exact hP.bind (hP.writeBlock _ _) fun _ => hP.pure _

theorem storeTooBig (path : CString) (size current l3Start : Nat) :
    P StoreState fun exits => storeTooBig exits path size current l3Start :=
  hP.bind hP.panic fun _ => hP.undefined

theorem placeChunk (path : CString) (size idx current block : Nat) (data : List UInt8)
    (st : StoreState) :
    P StoreState fun exits => placeChunk exits path size idx current block data st :=
  hP.bind hP.get fun _ => hP.ite (hP.storeDirect _ _ _ _ _)
    (hP.ite (hP.storeIndirect _ _ _ _ _) (hP.storeTooBig _ _ _ _))

theorem storeChunk (path : CString) (size idx current : Nat) (data : List UInt8) (st : StoreState) :
    P StoreState fun exits => storeChunk exits path size idx current data st :=
  hP.bind hP.allocBlock fun _ => hP.bind (hP.placeChunk _ _ _ _ _ _ _) fun _ =>
    hP.bind (hP.modifyInode _ _) fun _ => hP.pure _

theorem storeChunks (path : CString) (size idx current : Nat) (data : List (List UInt8))
    (st : StoreState) :
    P StoreState fun exits => storeChunks exits path size idx current data st := by
  induction data generalizing current st with
  | nil => exact hP.pure st
  | cons chunk rest ih => exact hP.bind (hP.storeChunk _ _ _ _ _ _) fun st => ih (current + 1) st

theorem writeL1 (capacity : Nat) (l1 : Option (Nat × (Nat → Nat))) :
    P Unit fun _ => writeL1 capacity l1 := by
  cases l1 with
  | none => exact hP.pure ()
  | some table => exact hP.writeBlock _ _

theorem storeFile (path : CString) (time idx : Nat) (data : List UInt8) :
    P Unit fun exits => storeFile exits path time idx data :=
  hP.bind (hP.modifyInode _ _) fun _ => hP.bind hP.get fun _ =>
    hP.bind (hP.storeChunks _ _ _ _ _ _) fun _ => hP.bind (hP.writeL1 _ _) fun _ =>
      hP.modifyInode _ _

/-! ## Directories -/

theorem addLink (idx inode : Nat) (name : CString) :
    P Unit fun exits => addLink exits idx inode name :=
  hP.bind (hP.allocDirent _) fun _ => hP.bind (hP.writeAt _ _) fun _ => hP.modifyInode _ _

theorem openEntry (idx : Nat) : P (Nat × Nat) fun exits => openEntry exits idx :=
  hP.bind (hP.allocDirent _) fun _ => hP.bind hP.allocInode fun _ =>
    hP.bind (hP.modifyInode _ _) fun _ => hP.pure _

variable {fs : HostFs} {recurse : Bool → CString → Nat → Nat → PopulateM Unit}

theorem populateFile (path name : CString) (time idx : Nat) :
    P Unit fun exits => populateFile exits fs path name time idx := by
  refine hP.bind (hP.openEntry idx) fun entry => ?_
  cases fs.fopen (subpath path name) with
  | none => exact hP.bind hP.panic fun _ => hP.undefined
  | some data => exact hP.bind (hP.storeFile _ _ _ _) fun _ => hP.writeAt _ _

theorem populateEntry
    (hrecurse : ∀ path idx parent, P Unit fun exits => recurse exits path idx parent)
    (path : CString) (time idx : Nat) (dirent : HostDirent) :
    P Unit fun exits => populateEntry exits fs (recurse exits) path time idx dirent := by
  refine hP.ite (hP.pure ()) ?_
  cases dirent.type with
  | dir =>
    exact hP.bind (hP.openEntry idx) fun _ => hP.bind (hP.writeAt _ _) fun _ => hrecurse _ _ _
  | reg => exact hP.populateFile _ _ _ _
  | unknown => exact hP.bind hP.panic fun _ => hP.undefined
  | other type => exact hP.bind hP.panic fun _ => hP.undefined

theorem populateEntries
    (hrecurse : ∀ path idx parent, P Unit fun exits => recurse exits path idx parent)
    (path : CString) (time idx : Nat) (dirents : List HostDirent) :
    P Unit fun exits => populateEntries exits fs (recurse exits) path time idx dirents := by
  induction dirents with
  | nil => exact hP.pure ()
  | cons dirent rest ih => exact hP.bind (hP.populateEntry hrecurse _ _ _ _) fun _ => ih

theorem populateDir (fuel : Nat) (path : CString) (idx parent : Nat) :
    P Unit fun exits => bsfsPopulateDir exits fs fuel path idx parent := by
  induction fuel generalizing path idx parent with
  | zero => exact hP.halt fun _ h => by cases h
  | succ fuel ih =>
    refine hP.bind hP.panicIf fun _ => hP.bind (hP.modifyInode _ _) fun _ =>
      hP.bind (hP.addLink _ _ _) fun _ => hP.bind (hP.addLink _ _ _) fun _ => ?_
    cases fs.opendir path with
    | none => exact hP.undefined
    | some dirents => exact hP.populateEntries ih _ _ _ _

/-! ## `main` -/

theorem reserveBlocks (i left : Nat) : P Unit fun exits => reserveBlocks exits i left := by
  induction left generalizing i with
  | zero => exact hP.pure ()
  | succ left ih => exact hP.bind (hP.setBlockBit i) fun _ => ih (i + 1)

theorem reserveMegablocks (blockSize mb left : Nat) :
    P Unit fun exits => reserveMegablocks exits blockSize mb left := by
  induction left generalizing mb with
  | zero => exact hP.pure ()
  | succ left ih =>
    exact hP.bind hP.get fun _ => hP.bind hP.undefinedIf fun _ =>
      hP.bind (hP.markFullMegablock _ _) fun _ => ih (mb + 1)

theorem setUp (args : PopulateArgs) : P Nat fun exits => setUp exits args := by
  refine hP.bind hP.get fun _ => hP.bind (hP.reserveBlocks _ _) fun _ =>
    hP.bind (hP.reserveMegablocks _ _ _) fun _ => hP.bind hP.allocInode fun _ =>
      hP.bind hP.allocInode fun _ => hP.bind (hP.modify ?_) fun _ => hP.pure _
  exact fun _ => rfl

theorem writeRegion (start blocks : Nat) (bytes : ByteMem) :
    P Unit fun _ => writeRegion start blocks bytes :=
  hP.bind hP.get fun _ => hP.writeAt _ _

theorem writeBack (args : PopulateArgs) (heap : PopulateHeap) (other : List UInt8 × List UInt8) :
    P Unit fun _ => writeBack args heap other :=
  hP.bind hP.get fun _ => hP.bind (hP.writeRegion _ _ _) fun _ => hP.bind (hP.writeRegion _ _ _) fun _ =>
    hP.bind (hP.writeRegion _ _ _) fun _ => hP.bind (hP.writeRegion _ _ _) fun _ => hP.writeAt _ _

theorem populateRun (fuel : Nat) (args : PopulateArgs) (heap : PopulateHeap)
    (other : List UInt8 × List UInt8) :
    P Unit fun exits => populateRun exits fs fuel args heap other :=
  hP.bind (hP.setUp args) fun _ => hP.bind (hP.populateDir _ _ _ _) fun _ => hP.writeBack _ _ _

end PanicRules

end Pristine.Bsfs
