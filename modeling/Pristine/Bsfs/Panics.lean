import Pristine.Bsfs.FirstFit

/-!
# Panics

`BSFS_PANIC` ends the program or does nothing.  `PanicRules` collects what a
property of programs has to be closed under to hold of the functions of `bsfs.c`.
The model records every panic, so a call during which none was recorded runs the
same way under both settings (`RecordsPanics`).
-/

namespace Pristine.Bsfs

open Lib Kernel

/-! ## Properties of whole programs -/

/-- A property of programs that holds of their parts and of sequences.  A program is given the
setting of `BSFS_PANIC`. -/
structure PanicRules (P : ∀ α : Type, (Bool → PopulateM α) → Prop) : Prop where
  pure : ∀ {α : Type} (a : α), P α fun _ => Pure.pure a
  get : P PopulateState fun _ => MonadState.get
  modify : ∀ {f : PopulateState → PopulateState}, (∀ s, (f s).panics = s.panics) →
    P PUnit fun _ => modify f
  modifyInode : ∀ idx f, P Unit fun _ => modifyInode idx f
  halt : ∀ {α : Type} {halt : Halt}, (∀ panic, halt ≠ .exit panic) → P α fun _ => throw halt
  panic : ∀ {panic : BsfsPanic}, P Unit fun exits => bsfsPanic exits panic
  bind : ∀ {α β : Type} {program : Bool → PopulateM α} {next : Bool → α → PopulateM β},
    P α program → (∀ a, P β fun exits => next exits a) →
    P β fun exits => program exits >>= next exits

namespace PanicRules

variable {P : ∀ α : Type, (Bool → PopulateM α) → Prop} {α : Type}
variable {condition : Prop} [Decidable condition]

theorem ite (_ : PanicRules P) {program program' : Bool → PopulateM α} (hprogram : P α program)
    (hprogram' : P α program') :
    P α fun exits => if condition then program exits else program' exits := by
  split
  · exact hprogram
  · exact hprogram'

variable (hP : PanicRules P)

include hP

theorem undefined : P α fun _ => throw .undefined := hP.halt fun _ h => by cases h

theorem panicIf {panic : BsfsPanic} : P Unit fun exits => bsfsPanicIf exits condition panic :=
  hP.ite hP.panic (hP.pure ())

theorem undefinedIf : P Unit fun _ => undefinedIf condition :=
  hP.ite hP.undefined (hP.pure ())

theorem setBlockBit (index : Nat) : P Unit fun exits => setBlockBit exits index :=
  hP.bind hP.get fun _ => hP.bind hP.undefinedIf fun _ => hP.bind hP.panicIf fun _ =>
    hP.modify fun _ => rfl

theorem setMegablockBit (index : Nat) : P Unit fun exits => setMegablockBit exits index :=
  hP.bind hP.get fun _ => hP.bind hP.undefinedIf fun _ => hP.bind hP.panicIf fun _ =>
    hP.modify fun _ => rfl

theorem setInodeBit (index : Nat) : P Unit fun exits => setInodeBit exits index :=
  hP.bind hP.get fun _ => hP.bind hP.undefinedIf fun _ => hP.bind hP.panicIf fun _ =>
    hP.modify fun _ => rfl

theorem markFullMegablock (megablock slice : Nat) :
    P Unit fun exits => markFullMegablock exits megablock slice :=
  hP.bind hP.get fun _ => hP.ite (hP.setMegablockBit _) (hP.pure _)

theorem countBlock : P Unit fun exits => countBlock exits :=
  hP.bind hP.get fun _ => hP.bind hP.panicIf fun _ => hP.modify fun _ => rfl

theorem allocBlock : P Nat fun exits => bsfsAllocBlock exits :=
  hP.bind hP.get fun _ => hP.bind hP.panicIf fun _ => hP.bind hP.undefinedIf fun _ =>
    hP.ite (hP.bind hP.panic fun _ => hP.pure _)
      (hP.bind hP.panicIf fun _ => hP.bind (hP.setBlockBit _) fun _ =>
        hP.bind (hP.markFullMegablock _ _) fun _ => hP.bind hP.countBlock fun _ => hP.pure _)

theorem allocInode : P Nat fun exits => bsfsAllocInode exits := by
  refine hP.bind hP.get fun _ => hP.ite (hP.bind hP.panic fun _ => hP.pure _)
    (hP.bind (hP.setInodeBit _) fun _ => hP.bind (hP.modify ?_) fun _ => hP.pure _)
  exact fun _ => rfl

theorem ensureDirentBlock (idx localBlock : Nat) :
    P Unit fun exits => ensureDirentBlock exits idx localBlock :=
  hP.bind hP.get fun _ => hP.ite (hP.bind hP.allocBlock fun _ => hP.modifyInode _ _) (hP.pure _)

theorem allocDirent (idx : Nat) : P Nat fun exits => bsfsAllocDirent exits idx :=
  hP.bind hP.get fun _ => hP.bind hP.undefinedIf fun _ =>
    hP.ite (hP.bind hP.panic fun _ => hP.pure _) (hP.ite (hP.bind hP.panic fun _ => hP.pure _)
      (hP.bind (hP.ensureDirentBlock _ _) fun _ => hP.bind hP.get fun _ => hP.pure _))

end PanicRules

/-! ## Recorded panics -/

/-- The program only adds to the recorded panics, and if it adds none it also succeeds when a panic
ends it. -/
def RecordsPanics {α : Type} (program : Bool → PopulateM α) : Prop :=
  ∀ exits s a s', program exits s = .ok a s' →
    s.panics <:+ s'.panics ∧ (s'.panics = s.panics → program true s = .ok a s')

namespace RecordsPanics

variable {α β : Type} {panic : BsfsPanic}

/-- Programs that neither panic nor look at the setting. -/
theorem of_keeps {program : PopulateM α}
    (hkeeps : ∀ s a s', program s = .ok a s' → s'.panics = s.panics) :
    RecordsPanics fun _ => program := by
  intro _ s a s' hcall
  exact ⟨hkeeps s a s' hcall ▸ List.suffix_refl _, fun _ => hcall⟩

theorem of_pure (a : α) : RecordsPanics fun _ => (pure a : PopulateM α) :=
  of_keeps fun s _ s' hcall => by rw [(pure_eq_ok.mp hcall).2]

theorem of_get : RecordsPanics fun _ => (get : PopulateM PopulateState) :=
  of_keeps fun s _ s' hcall => by rw [(get_eq_ok.mp hcall).2]

theorem of_modify {f : PopulateState → PopulateState} (hkeeps : ∀ s, (f s).panics = s.panics) :
    RecordsPanics fun _ => (modify f : PopulateM PUnit) :=
  of_keeps fun s _ s' hcall => by rw [← modify_eq_ok.mp hcall, hkeeps]

theorem of_throw (halt : Halt) : RecordsPanics fun _ => (throw halt : PopulateM α) :=
  of_keeps fun _ _ _ hcall => absurd hcall (by simp)

theorem bind {program : Bool → PopulateM α} {next : Bool → α → PopulateM β}
    (hprogram : RecordsPanics program) (hnext : ∀ a, RecordsPanics fun exits => next exits a) :
    RecordsPanics fun exits => program exits >>= next exits := by
  intro exits s b s' hcall
  obtain ⟨a, t, hfirst, hsecond⟩ := bind_eq_ok.mp hcall
  obtain ⟨hgrow, hsame⟩ := hprogram exits s a t hfirst
  obtain ⟨hgrow', hsame'⟩ := hnext a exits t b s' hsecond
  refine ⟨hgrow.trans hgrow', fun hnone => ?_⟩
  -- nothing was added on the way
  have hmiddle : t.panics = s.panics := by
    rw [hnone] at hgrow'
    exact hgrow'.eq_of_length_le hgrow.length_le
  exact (bind_of_ok (hsame hmiddle)).trans (hsame' (hnone.trans hmiddle.symm))

theorem of_panic : RecordsPanics fun exits => bsfsPanic exits panic := by
  intro exits s u s' hcall
  cases exits with
  | true => cases hcall
  | false =>
    cases hcall
    exact ⟨List.suffix_cons _ _, fun hnone => absurd hnone (List.cons_ne_self _ _)⟩

/-- A call that recorded no panic. -/
theorem quiet {program : Bool → PopulateM α} (hprogram : RecordsPanics program) {exits : Bool}
    {s s' : PopulateState} {a : α} (hcall : program exits s = .ok a s')
    (hquiet : s'.panics = s.panics) : program true s = .ok a s' :=
  (hprogram exits s a s' hcall).2 hquiet

/-! ## The functions of `bsfs.c` -/

theorem of_modifyInode (idx : Nat) (f : BsfsInode → BsfsInode) :
    RecordsPanics fun _ => modifyInode idx f := by
  refine of_keeps fun s _ s' hcall => ?_
  unfold modifyInode at hcall
  rw [get_bind] at hcall
  obtain ⟨-, hset⟩ := undefinedIf_bind.mp hcall
  cases hset
  rfl

theorem rules : PanicRules fun _ program => RecordsPanics program where
  pure := of_pure
  get := of_get
  modify := of_modify
  modifyInode := of_modifyInode
  halt := fun _ => of_throw _
  panic := of_panic
  bind := bind

end RecordsPanics

end Pristine.Bsfs
