import Mathlib.Tactic

/-!
# State and failure

Rules for programs in `EStateM`, where a failure keeps the state it happened in.
A result of a sequence is a result of its parts (`bind_eq_ok`, `bind_of_ok`).

`Yields` states what holds of both outcomes of a program, with a rule for
sequences.  `dropState` compares a program with one in `StateT σ (Except ε)`,
where a failure loses the state.
-/

namespace Pristine.Lib

section Rules

variable {ε σ α β : Type} {x : EStateM ε σ α} {f : α → EStateM ε σ β} {s s' t : σ} {a : α} {b : β}
variable {a' : α} {e : ε}

theorem bind_eq_ok : (x >>= f) s = .ok b s' ↔ ∃ a t, x s = .ok a t ∧ f a t = .ok b s' := by
  show EStateM.bind x f s = _ ↔ _
  unfold EStateM.bind
  cases hx : x s with
  | ok a t => simp
  | error e t => simp

theorem bind_of_ok (hx : x s = .ok a t) : (x >>= f) s = f a t := by
  show EStateM.bind x f s = _
  unfold EStateM.bind
  rw [hx]

theorem bind_of_error (hx : x s = .error e t) : (x >>= f) s = .error e t := by
  show EStateM.bind x f s = _
  unfold EStateM.bind
  rw [hx]

theorem bind_eq_error : (x >>= f) s = .error e s' ↔
    x s = .error e s' ∨ ∃ a t, x s = .ok a t ∧ f a t = .error e s' := by
  show EStateM.bind x f s = _ ↔ _
  unfold EStateM.bind
  cases hx : x s with
  | ok a t => simp
  | error e t => simp

@[simp] theorem pure_eq_ok : (pure a : EStateM ε σ α) s = .ok a' s' ↔ a = a' ∧ s = s' := by
  show EStateM.Result.ok a s = _ ↔ _
  simp

@[simp] theorem throw_eq_ok : (throw e : EStateM ε σ α) s = .ok a s' ↔ False := by
  show EStateM.Result.error e s = _ ↔ _
  simp

@[simp] theorem get_eq_ok {u : σ} : (get : EStateM ε σ σ) s = .ok u s' ↔ s = u ∧ s = s' := by
  show EStateM.Result.ok s s = _ ↔ _
  simp

theorem get_bind {f : σ → EStateM ε σ β} : ((get : EStateM ε σ σ) >>= f) s = f s s := rfl

@[simp] theorem modify_eq_ok {g : σ → σ} {u : PUnit} :
    (modify g : EStateM ε σ PUnit) s = .ok u s' ↔ g s = s' := by
  show EStateM.Result.ok PUnit.unit (g s) = _ ↔ _
  simp

end Rules

/-! ## Both outcomes -/

section Yields

variable {ε σ α β : Type}

/-- A result satisfies `Q`, and a failure happens in a state that satisfies `E`. -/
def Yields (Q : α → σ → Prop) (E : σ → Prop) : EStateM.Result ε σ α → Prop
  | .ok a s => Q a s
  | .error _ s => E s

variable {x : EStateM ε σ α} {f : α → EStateM ε σ β} {Q Q' : α → σ → Prop} {R : β → σ → Prop}
variable {E E' : σ → Prop} {s : σ}

theorem Yields.bind (hx : Yields Q E (x s)) (hf : ∀ a t, Q a t → Yields R E (f a t)) :
    Yields R E ((x >>= f) s) := by
  cases hrun : x s with
  | ok a t =>
    rw [bind_of_ok hrun]
    rw [hrun] at hx
    exact hf a t hx
  | error e t =>
    rw [bind_of_error hrun]
    rw [hrun] at hx
    exact hx

theorem Yields.mono {r : EStateM.Result ε σ α} (hr : Yields Q E r) (hQ : ∀ a t, Q a t → Q' a t)
    (hE : ∀ t, E t → E' t) : Yields Q' E' r := by
  cases r with
  | ok a t => exact hQ a t hr
  | error e t => exact hE t hr

end Yields

/-! ## Losing the state of a failure -/

section DropState

variable {ε σ α β : Type}

/-- A program without the state at a failure. -/
def dropState (x : EStateM ε σ α) : StateT σ (Except ε) α := fun s =>
  match x s with
  | .ok a s' => .ok (a, s')
  | .error e _ => .error e

/-- A program whose failures happen before anything was done. -/
def keepState (x : StateT σ (Except ε) α) : EStateM ε σ α := fun s =>
  match x s with
  | .ok (a, s') => .ok a s'
  | .error e => .error e s

@[simp] theorem dropState_pure (a : α) : dropState (pure a : EStateM ε σ α) = pure a := rfl

@[simp] theorem dropState_keepState (x : StateT σ (Except ε) α) : dropState (keepState x) = x := by
  funext s
  unfold dropState keepState
  cases x s <;> rfl

@[simp] theorem dropState_bind (x : EStateM ε σ α) (f : α → EStateM ε σ β) :
    dropState (x >>= f) = dropState x >>= fun a => dropState (f a) := by
  funext s
  show (match (x >>= f) s with
    | .ok b s' => Except.ok (b, s')
    | .error e _ => Except.error e) = Except.bind (dropState x s) fun p => dropState (f p.1) p.2
  cases hx : x s with
  | ok a t =>
    rw [bind_of_ok hx, show dropState x s = .ok (a, t) by simp only [dropState, hx]]
    rfl
  | error e t =>
    rw [bind_of_error hx, show dropState x s = .error e by simp only [dropState, hx]]
    rfl

@[simp] theorem dropState_map (f : α → β) (x : EStateM ε σ α) :
    dropState (f <$> x) = f <$> dropState x := by
  rw [← bind_pure_comp, ← bind_pure_comp, dropState_bind]
  rfl

theorem keepState_eq_ok {x : StateT σ (Except ε) α} {s s' : σ} {a : α} :
    keepState x s = .ok a s' ↔ x s = .ok (a, s') := by
  unfold keepState
  cases x s with
  | ok p => simp [Prod.ext_iff]
  | error e => simp

theorem dropState_eq_ok {x : EStateM ε σ α} {s s' : σ} {a : α} :
    dropState x s = .ok (a, s') ↔ x s = .ok a s' := by
  unfold dropState
  cases x s with
  | ok b t => simp
  | error e t => simp

/-- Both outcomes of a program that keeps its state on failure. -/
theorem yields_keepState {x : StateT σ (Except ε) α} {Q : α → σ → Prop} {E : σ → Prop} {s : σ}
    (hok : ∀ a s', x s = .ok (a, s') → Q a s') (herror : ∀ e, x s = .error e → E s) :
    Yields Q E (keepState x s) := by
  unfold keepState
  cases hx : x s with
  | ok p => exact hok p.1 p.2 hx
  | error e => exact herror e hx

end DropState

end Pristine.Lib
