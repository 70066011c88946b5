import LambdaLift.Execution.Basic

/-!
# Two programs that run alike

* `Agree Q r r'`: both runs give a result, and `Q` holds of the results and the worlds they leave;
  or both fail in the same way. What a run that fails leaves behind does not matter.
* `Agree.bind`: runs that agree can be continued by runs that agree.
* `read_of_get`, `write_of_set`: what reading and setting a variable do in a given world.
-/

namespace LambdaLift

namespace Execution

/-- The results of two runs are the same up to `Q`. -/
inductive Agree {α β : Type} (Q : α → β → World → World → Prop) :
    Except EvalError α × World → Except EvalError β × World → Prop
  | ok {a : α} {b : β} {w w' : World} (h : Q a b w w') : Agree Q (.ok a, w) (.ok b, w')
  | error {e : EvalError} {w w' : World} : Agree Q (.error e, w) (.error e, w')

section

variable {α β γ δ : Type} {w w' : World}

theorem bind_apply (m : Run α) (f : α → Run β) (w : World) :
    (m >>= f) w = match m w with
      | (.ok a, v) => f a v
      | (.error e, v) => (.error e, v) := by
  change (match m w with | (a, v) => ExceptT.bindCont f a v) = _
  rcases m w with ⟨a | e, v⟩ <;> rfl

theorem Agree.bind {Q : α → β → World → World → Prop} {R : γ → δ → World → World → Prop} {m : Run α}
    {m' : Run β} {f : α → Run γ} {f' : β → Run δ} (h : Agree Q (m w) (m' w'))
    (hf : ∀ a b v v', Q a b v v' → Agree R (f a v) (f' b v')) :
    Agree R ((m >>= f) w) ((m' >>= f') w') := by
  rw [bind_apply, bind_apply]
  generalize m w = r at h
  generalize m' w' = r' at h
  cases h with
  | ok h => exact hf _ _ _ _ h
  | error => exact .error

theorem Agree.pure {Q : α → β → World → World → Prop} {a : α} {b : β} (h : Q a b w w') :
    Agree Q ((pure a : Run α) w) ((pure b : Run β) w') :=
  .ok h

theorem Agree.throw {Q : α → β → World → World → Prop} (e : EvalError) :
    Agree Q ((throw e : Run α) w) ((throw e : Run β) w') :=
  .error

theorem Agree.mono {Q R : α → β → World → World → Prop} {r : Except EvalError α × World}
    {r' : Except EvalError β × World} (h : Agree Q r r') (hQ : ∀ a b v v', Q a b v v' → R a b v v')
    : Agree R r r' := by
  cases h with
  | ok h => exact .ok (hQ _ _ _ _ h)
  | error => exact .error

end

section Variables

variable {env : Environment} {w : World}

variable {x : String} {a : Value}

theorem get_bind {α : Type} (f : World → Run α) : (get >>= f) w = f w w :=
  rfl

theorem read_of_get (h : w.store.get env x = .ok a) : read env x w = (.ok a, w) := by
  simp only [read, get_bind, h]
  rfl

theorem read_of_error {e : AccessError} (h : w.store.get env x = .error e) :
    read env x w = (.error (.ofAccess x e), w) := by
  simp only [read, get_bind, h]
  rfl

theorem write_of_set {s : Store} (h : w.store.set env x a = .ok s) :
    write env x a w = (.ok (), ⟨s, w.output⟩) := by
  simp only [write, get_bind, h]
  rfl

theorem write_of_error {e : AccessError} (h : w.store.set env x a = .error e) :
    write env x a w = (.error (.ofAccess x e), w) := by
  simp only [write, get_bind, h]
  rfl

theorem isResolvable_apply (x : String) :
    isResolvable env x w = (.ok (w.store.resolve? x env).isSome, w) :=
  rfl

end Variables

/-- What a run prints, or how it fails. -/
def outcome {α : Type} (r : Except EvalError α × World) : Except EvalError String :=
  match r with
  | (.ok _, w) => .ok w.output
  | (.error e, _) => .error e

theorem run_eq (limit : Nat) (p : Program) :
    run limit p = outcome (body (call limit) [globalScope] p.statements World.initial) := by
  unfold run outcome
  rcases body (call limit) [globalScope] p.statements World.initial with ⟨_ | _, _⟩ <;> rfl

theorem outcome_eq {α β : Type} {Q : α → β → World → World → Prop} {r : Except EvalError α × World}
    {r' : Except EvalError β × World} (h : Agree Q r r')
    (hQ : ∀ a b v v', Q a b v v' → v'.output = v.output) : outcome r' = outcome r := by
  cases h with
  | ok h => exact congrArg Except.ok (hQ _ _ _ _ h)
  | error => rfl

end Execution

end LambdaLift
