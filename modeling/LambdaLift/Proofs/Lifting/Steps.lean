import LambdaLift.Proofs.Lifting.Supported

/-!
# What a successful step of lifting did

Lifting is written as steps that may fail. Each lemma opens one step that did not fail: a sequence
(`Lifting.bind_ok`), what is read from or put into the registry, and the checks of a function's
signature (`Lifting.signature_ok`).
-/

namespace LambdaLift

namespace Lifting

/-- A sequence that does not fail consists of two steps that do not fail. -/
theorem except_bind_ok {ε α β : Type} {x : Except ε α} {f : α → Except ε β} {b : β} :
    (x >>= f) = .ok b ↔ ∃ a, x = .ok a ∧ f a = .ok b := by
  cases x with
  | error e =>
    constructor
    · intro h; cases h
    · rintro ⟨_, h, _⟩; cases h
  | ok a =>
    constructor
    · intro h; exact ⟨a, rfl, h⟩
    · rintro ⟨_, h, h'⟩; cases h; exact h'

theorem except_pure_ok {ε α : Type} {a b : α} : (pure a : Except ε α) = .ok b ↔ a = b := by
  constructor
  · intro h; cases h; rfl
  · rintro rfl; rfl

theorem ok_of_toOption {ε α : Type} {x : Except ε α} {a : α} (h : x.toOption = some a) :
    x = .ok a := by
  cases x with
  | error e => cases h
  | ok b => exact congrArg Except.ok (Option.some.inj h)

variable {α β : Type} {r r' : Functions}

theorem bind_ok {x : Lift α} {f : α → Lift β} {b : β} :
    (x >>= f) r = (.ok b, r') ↔ ∃ a r₁, x r = (.ok a, r₁) ∧ f a r₁ = (.ok b, r') := by
  simp only [bind, ExceptT.bind, ExceptT.mk, StateT.bind, ExceptT.bindCont]
  rcases x r with ⟨_ | a, r₁⟩
  · constructor
    · intro h; cases h
    · rintro ⟨_, _, h, _⟩; cases h
  · constructor
    · intro h; exact ⟨a, r₁, rfl, h⟩
    · rintro ⟨_, _, h, h'⟩; cases h; exact h'

theorem pure_ok {a b : α} : (pure a : Lift α) r = (.ok b, r') ↔ a = b ∧ r = r' := by
  constructor
  · intro h; cases h; exact ⟨rfl, rfl⟩
  · rintro ⟨rfl, rfl⟩; rfl

theorem liftM_ok {x : Except Unsupported α} {b : α} :
    (liftM x : Lift α) r = (.ok b, r') ↔ x = .ok b ∧ r = r' := by
  constructor
  · intro h; cases h; exact ⟨rfl, rfl⟩
  · rintro ⟨rfl, rfl⟩; rfl

theorem get_ok {q : Functions} : (get : Lift Functions) r = (.ok q, r') ↔ r = q ∧ r = r' := by
  constructor
  · intro h; cases h; exact ⟨rfl, rfl⟩
  · rintro ⟨rfl, rfl⟩; rfl

theorem set_ok {q : Functions} {u : PUnit} : (set q : Lift PUnit) r = (.ok u, r') ↔ q = r' := by
  constructor
  · intro h; cases h; rfl
  · rintro rfl; rfl

theorem modify_ok {f : Functions → Functions} {u : PUnit} :
    (modify f : Lift PUnit) r = (.ok u, r') ↔ f r = r' := by
  constructor
  · intro h; cases h; rfl
  · rintro rfl; rfl

theorem throw_ok {e : Unsupported} {b : α} : ¬ (throw e : Lift α) r = (.ok b, r') := by
  intro h
  cases h

/-! ## Signatures -/

/-- Parameters that can be lifted are plain names. -/
theorem mapM_parameter_ok {ps : List Param} {names : List String}
    (h : ps.mapM parameter = .ok names) :
    (∀ p ∈ ps, p.plainName?.isSome) ∧ ps.filterMap Param.plainName? = names := by
  induction ps generalizing names with
  | nil =>
    rw [List.mapM_nil, except_pure_ok] at h
    exact ⟨List.forall_mem_nil _, h⟩
  | cons p ps ih =>
    simp only [List.mapM_cons, except_bind_ok, except_pure_ok] at h
    obtain ⟨x, hx, xs, hxs, rfl⟩ := h
    have hp : p.plainName? = some x := by
      unfold parameter at hx
      split at hx
      · rename_i y hy
        cases hx
        exact hy
      · cases hx
    obtain ⟨hplain, hrest⟩ := ih hxs
    exact ⟨List.forall_mem_cons.2 ⟨by simp [hp], hplain⟩, by simp [hp, hrest]⟩

/-- The signature of a function that can be lifted consists of its name and its parameters. -/
theorem signature_ok {head : FunctionHead} {name : String} {params : List String}
    (h : signature head = .ok (name, params)) :
    head.Supported ∧ head.name? = some name ∧ head.params.filterMap Param.plainName? = params := by
  unfold signature at h
  split at h
  · rename_i x hx
    split at h
    · cases h
    · rename_i hmarks
      simp only [except_bind_ok, except_pure_ok] at h
      obtain ⟨names, hnames, heq⟩ := h
      cases heq
      simp only [Bool.or_eq_true, not_or, Bool.not_eq_true, String.isEmpty_eq_false_iff] at hmarks
      obtain ⟨hplain, hparams⟩ := mapM_parameter_ok hnames
      exact ⟨⟨hmarks.1.1, hmarks.1.2, ⟨_, hx, hmarks.2⟩, hplain⟩, hx, hparams⟩
  · cases h

end Lifting

end LambdaLift
