import LambdaLift.Proofs.Execution.Agree
import LambdaLift.Proofs.Execution.Declarations
import LambdaLift.Proofs.Execution.Sequence
import LambdaLift.Proofs.Lifting.Supported
import Mathlib.Data.List.Forall2

/-!
# Runs in lockstep

Two runs do the same step by step if their stores differ only in the bodies of functions, and if the
bodies in question run alike. What a function is compared by and shown as does not depend on its
body, and the order of the variables in a scope cannot be seen.

* `Leeway`: how far two runs may differ. A run can be compared with itself, to show what holds of
  all functions that it reaches.
* `Value.Matches L`, `Store.Matches L`: equal up to the bodies of functions, for which there is
  leeway.
* `Tandem L Q m m'`: in matching worlds the steps fail alike or give results in `Q`, and leave
  matching worlds.
* `tandem_expr`: expressions run in tandem with themselves.
* `Stmt.Matches L`, `tandem_stmt`: statements that are the same up to their bodies run in tandem.
* `run_of_bodies`: if the bodies run in tandem for which there is leeway, programs run alike.
-/

namespace LambdaLift

/-! ## Values -/

/-- Values that are not functions. -/
abbrev Value.IsData (v : Value) : Prop :=
  v.isCallable = false

theorem Value.IsData.ne_function {v : Value} (h : v.IsData) (f : Closure) : v ≠ .function f :=
  fun hf => by simp [hf, IsData, isCallable] at h

theorem Value.isData_of_operate? {op : BinaryOp} {a b v : Value} (h : operate? op a b = some v) :
    v.IsData := by
  cases op <;> simp only [operate?, Option.some.injEq, reduceCtorEq] at h <;> subst h <;>
    first | rfl | (unfold add; split <;> rfl)

/-- How far two runs may differ: in the bodies of functions, and if calls may be `cut` in the first
run, it may fail because they nest too deep. If the runs are `strict`, they do not fail for want of
support. -/
structure Leeway where
  bodies : List Stmt → List Stmt → Prop
  strict : Prop := False
  cut : Prop := False

variable {L : Leeway}

/-- The functions have the same environment, name and parameters, and for their bodies there is
leeway. -/
structure Closure.Matches (L : Leeway) (f g : Closure) : Prop where
  environment : g.environment = f.environment
  name? : g.head.name? = f.head.name?
  params : g.head.params.map Param.plainName? = f.head.params.map Param.plainName?
  supported : L.strict → f.head.Supported
  body : L.bodies f.body g.body

/-- The values are the same, or matching functions. -/
inductive Value.Matches (L : Leeway) : Value → Value → Prop
  | same {v : Value} (h : ∀ f, v ≠ .function f) : Matches L v v
  | function {f g : Closure} (h : f.Matches L g) : Matches L (.function f) (.function g)

namespace Value

theorem Matches.of_isData {v : Value} (h : v.IsData) : v.Matches L v :=
  .same h.ne_function

variable {a a' b b' : Value}

theorem Matches.typeOf (h : a.Matches L a') : a'.typeOf = a.typeOf := by
  cases h <;> rfl

theorem Matches.toBoolean (h : a.Matches L a') : a'.toBoolean = a.toBoolean := by
  cases h <;> rfl

theorem Matches.toNumber (h : a.Matches L a') : a'.toNumber = a.toNumber := by
  cases h <;> rfl

theorem Matches.toInt32 (h : a.Matches L a') : a'.toInt32 = a.toInt32 := by
  cases h <;> rfl

theorem Matches.toUInt32 (h : a.Matches L a') : a'.toUInt32 = a.toUInt32 := by
  cases h <;> rfl

theorem Matches.text (h : a.Matches L a') : a'.text = a.text := by
  cases h with
  | same => rfl
  | function h => simp only [Value.text, h.name?]

theorem Matches.isCallable (h : a.Matches L a') : a'.isCallable = a.isCallable := by
  cases h <;> rfl

theorem Matches.isNothing (h : a.Matches L a') : a'.isNothing = a.isNothing := by
  cases h <;> rfl

theorem Matches.withoutFunction (h : a.Matches L a') :
    a'.withoutFunction = a.withoutFunction := by
  cases h with
  | same => rfl
  | function h => exact congrArg string (Matches.text (.function h))

theorem Matches.withoutBoolean (h : a.Matches L a') :
    a.withoutBoolean.Matches L a'.withoutBoolean := by
  cases h with
  | same h =>
    cases a with
    | boolean b => exact .of_isData rfl
    | _ => exact .same h
  | function h => exact .function h

theorem Matches.strictEquals (ha : a.Matches L a') (hb : b.Matches L b') :
    a'.strictEquals b' = a.strictEquals b := by
  cases ha with
  | same ha =>
    cases hb with
    | same => rfl
    | function => cases a <;> first | rfl | exact absurd rfl (ha _)
  | function hf =>
    cases hb with
    | same hb => cases b <;> first | rfl | exact absurd rfl (hb _)
    | function hg =>
      simp only [Value.strictEquals, Closure.same, hf.environment, hf.name?, hg.environment,
        hg.name?]

theorem Matches.mixedEquals (ha : a.Matches L a') (hb : b.Matches L b') :
    a'.mixedEquals b' = a.mixedEquals b := by
  simp only [Value.mixedEquals, ha.isCallable, hb.isCallable, ha.strictEquals hb,
    ha.withoutFunction, hb.withoutFunction]

theorem Matches.looseEquals (ha : a.Matches L a') (hb : b.Matches L b') :
    a'.looseEquals b' = a.looseEquals b := by
  simp only [Value.looseEquals, ha.isNothing, hb.isNothing,
    ha.withoutBoolean.mixedEquals hb.withoutBoolean]

theorem Matches.add (ha : a.Matches L a') (hb : b.Matches L b') : a'.add b' = a.add b := by
  simp only [Value.add, ha.withoutFunction, hb.withoutFunction, ha.text, hb.text, ha.toNumber,
    hb.toNumber]

theorem Matches.less? (ha : a.Matches L a') (hb : b.Matches L b') : a'.less? b' = a.less? b := by
  cases ha with
  | same ha =>
    cases hb with
    | same => rfl
    | function => cases a <;> rfl
  | function => cases hb <;> rfl

/-- An operator on values does not see the bodies of functions. -/
theorem Matches.operate? (op : BinaryOp) (ha : a.Matches L a') (hb : b.Matches L b') :
    Value.operate? op a' b' = Value.operate? op a b := by
  cases op <;>
    simp only [Value.operate?, ha.add hb, ha.looseEquals hb, ha.strictEquals hb, ha.less? hb,
      hb.less? ha, ha.toNumber, hb.toNumber, ha.toInt32, hb.toInt32, ha.toUInt32, hb.toUInt32,
      shiftCount]

end Value

/-! ## Variables -/

/-- The variables are of one kind, and their values match. -/
structure Variable.Matches (L : Leeway) (v v' : Variable) : Prop where
  kind : v'.kind = v.kind
  value : Option.Rel (Value.Matches L) v.value v'.value

/-- The scopes of both stores hold matching variables. -/
structure Store.Matches (L : Leeway) (s s' : Store) : Prop where
  next : s'.next = s.next
  lookup? : ∀ i x, Option.Rel (Variable.Matches L) (s.lookup? i x) (s'.lookup? i x)

namespace Store.Matches

variable {s s' : Store}

theorem push (h : s.Matches L s') : s.push.Matches L s'.push where
  next := by simp [h.next]
  lookup? i x := by simpa only [lookup?_push] using h.lookup? i x

theorem declare (h : s.Matches L s') (i : Nat) (x : String) {v v' : Variable}
    (hv : v.Matches L v') : (s.declare i x v).Matches L (s'.declare i x v') where
  next := by simp [h.next]
  lookup? j y := by
    rw [lookup?_declare_eq, lookup?_declare_eq, h.next]
    split
    · exact .some hv
    · exact h.lookup? j y

theorem declareVar (h : s.Matches L s') (i : Nat) (x : String) {v v' : Value}
    (hv : v.Matches L v') : (s.declareVar i x v).Matches L (s'.declareVar i x v') := by
  have hnew := h.declare i x (⟨rfl, .some hv⟩ : Variable.Matches L ⟨some v, .var⟩ ⟨some v', .var⟩)
  have hold := h.lookup? i x
  unfold Store.declareVar
  generalize s.lookup? i x = old at hold
  generalize s'.lookup? i x = old' at hold
  cases hold with
  | none => exact hnew
  | @some u u' hu =>
    have hvalue := hu.value
    simp only [Option.bind_some]
    generalize u.value = value at hvalue
    generalize u'.value = value' at hvalue
    cases hvalue with
    | none => exact hnew
    | some => exact h

theorem setInitial (h : s.Matches L s') (i : Nat) (x : String) {v v' : Value}
    (hv : v.Matches L v') : (s.setInitial i x v).Matches L (s'.setInitial i x v') := by
  have hold := h.lookup? i x
  unfold Store.setInitial
  generalize s.lookup? i x = old at hold
  generalize s'.lookup? i x = old' at hold
  cases hold with
  | none => exact h
  | some hu => exact h.declare i x ⟨hu.kind, .some hv⟩

/-- A name stands for the same place in both. -/
theorem resolve? (h : s.Matches L s') (x : String) (env : Environment) :
    Option.Rel (fun a b => b.1 = a.1 ∧ a.2.Matches L b.2) (s.resolve? x env)
      (s'.resolve? x env) := by
  induction env with
  | nil => exact .none
  | cons i env ih =>
    have hi := h.lookup? i x
    unfold Store.resolve?
    generalize s.lookup? i x = v at hi
    generalize s'.lookup? i x = v' at hi
    cases hi with
    | none => exact ih
    | some hv => exact .some ⟨rfl, hv⟩

theorem isSome_resolve? (h : s.Matches L s') (x : String) (env : Environment) :
    (s'.resolve? x env).isSome = (s.resolve? x env).isSome := by
  have hx := h.resolve? x env
  generalize s.resolve? x env = r at hx
  generalize s'.resolve? x env = r' at hx
  cases hx <;> rfl

/-- A variable has matching values in both, or cannot be read in either. -/
theorem get (h : s.Matches L s') (env : Environment) (x : String) :
    (∃ e, s.get env x = .error e ∧ s'.get env x = .error e) ∨
      ∃ v v', v.Matches L v' ∧ s.get env x = .ok v ∧ s'.get env x = .ok v' := by
  have hx := h.resolve? x env
  unfold Store.get
  generalize s.resolve? x env = r at hx
  generalize s'.resolve? x env = r' at hx
  cases hx with
  | none => exact .inl ⟨_, rfl, rfl⟩
  | @some a b hab =>
    obtain ⟨i, u⟩ := a
    obtain ⟨j, u'⟩ := b
    have hvalue := hab.2.value
    simp only
    generalize u.value = value at hvalue
    generalize u'.value = value' at hvalue
    cases hvalue with
    | none => exact .inl ⟨_, rfl, rfl⟩
    | some hv => exact .inr ⟨_, _, hv, rfl, rfl⟩

/-- A variable can be set in both, or cannot be set in either. -/
theorem set (h : s.Matches L s') (env : Environment) (x : String) {v v' : Value}
    (hv : v.Matches L v') : (∃ e, s.set env x v = .error e ∧ s'.set env x v' = .error e) ∨
      ∃ t t', t.Matches L t' ∧ s.set env x v = .ok t ∧ s'.set env x v' = .ok t' := by
  have hx := h.resolve? x env
  unfold Store.set
  generalize s.resolve? x env = r at hx
  generalize s'.resolve? x env = r' at hx
  cases hx with
  | none => exact .inl ⟨_, rfl, rfl⟩
  | @some a b hab =>
    obtain ⟨i, value, kind⟩ := a
    obtain ⟨j, value', kind'⟩ := b
    obtain ⟨rfl, rfl, hvalue⟩ : j = i ∧ kind' = kind ∧ Option.Rel (Value.Matches L) value value' :=
      ⟨hab.1, hab.2.kind, hab.2.value⟩
    cases hvalue with
    | none => exact .inl ⟨_, rfl, rfl⟩
    | some =>
      have hset := h.declare j x (⟨rfl, .some hv⟩ :
        Variable.Matches L ⟨some v, kind'⟩ ⟨some v', kind'⟩)
      by_cases hconstant : kind' = .const_
      · simp only [Option.isNone_some, Bool.false_eq_true, if_false, Variable.isConstant, hconstant]
        exact .inl ⟨_, rfl, rfl⟩
      · simp only [Option.isNone_some, Bool.false_eq_true, if_false, Variable.isConstant, hconstant]
        exact .inr ⟨_, _, hset, rfl, rfl⟩

end Store.Matches

/-! ## Statements -/

/-- Whether the statement has a list of statements in it. -/
def Stmt.hasBody : Stmt → Bool
  | .block .. | .function .. => true
  | .vars .. | .empty _ | .expression .. | .return_ .. | .other _ => false

/-- The statements are the same, but for the lists of statements in them there is leeway. -/
inductive Stmt.Matches (L : Leeway) : Stmt → Stmt → Prop
  | plain {s : Stmt} (h : s.hasBody = false) (hs : L.strict → s.Supported) : Matches L s s
  | block (r : Range) {ss ts : List Stmt} (h : L.bodies ss ts) :
    Matches L (.block r ss) (.block r ts)
  | function {head : FunctionHead} (hhead : L.strict → head.Supported) {ss ts : List Stmt}
    (h : L.bodies ss ts) : Matches L (.function head ss) (.function head ts)

namespace Execution

/-- Both worlds have printed the same, and their stores match. -/
structure World.Matches (L : Leeway) (w w' : World) : Prop where
  output : w'.output = w.output
  store : w.store.Matches L w'.store

/-- Both runs give results in `Q` or fail alike, or the first one is cut. -/
inductive Ends (L : Leeway) {α β : Type} (Q : α → β → World → World → Prop) :
    Except EvalError α × World → Except EvalError β × World → Prop
  | ok {a : α} {b : β} {w w' : World} (h : Q a b w w') : Ends L Q (.ok a, w) (.ok b, w')
  | error {e : EvalError} {w w' : World} (h : L.strict → e.errorClass ≠ .unsupported) :
    Ends L Q (.error e, w) (.error e, w')
  | cut {w : World} (h : L.cut) (r : Except EvalError β × World) :
    Ends L Q (.error .stackOverflow, w) r

/-- In matching worlds the steps fail alike, or give results in `Q` and leave matching worlds. -/
def Tandem (L : Leeway) {α β : Type} (Q : α → β → Prop) (m : Run α) (m' : Run β) : Prop :=
  ∀ w w', w.Matches L w' → Ends L (fun a b v v' => Q a b ∧ v.Matches L v') (m w) (m' w')

/-- Calls of matching functions with matching arguments run in tandem. -/
def TandemCalls (L : Leeway) (calls calls' : Calls) : Prop :=
  ∀ f g args args', f.Matches L g → List.Forall₂ (Value.Matches L) args args' →
    Tandem L (Value.Matches L) (calls f args) (calls' g args')

section Steps

variable {α β γ δ : Type} {Q : α → β → Prop} {Q' : γ → δ → Prop}

theorem Tandem.pure {a : α} {b : β} (h : Q a b) : Tandem L Q (pure a) (pure b) :=
  fun _ _ hw => .ok ⟨h, hw⟩

theorem Tandem.throw {e : EvalError} (h : L.strict → e.errorClass ≠ .unsupported) :
    Tandem L Q (throw e) (throw e) :=
  fun _ _ _ => .error h

theorem Tandem.bind {m : Run α} {m' : Run β} {f : α → Run γ} {f' : β → Run δ}
    (h : Tandem L Q m m') (hf : ∀ a b, Q a b → Tandem L Q' (f a) (f' b)) :
    Tandem L Q' (m >>= f) (m' >>= f') := by
  intro w w' hw
  have hends := h w w' hw
  rw [bind_apply, bind_apply]
  generalize m w = r at hends
  generalize m' w' = r' at hends
  cases hends with
  | ok h => exact hf _ _ h.1 _ _ h.2
  | error h => exact .error h
  | cut h => exact .cut h _

theorem Tandem.modifyStore {f f' : Store → Store}
    (h : ∀ s s', s.Matches L s' → (f s).Matches L (f' s')) :
    Tandem L (fun _ _ => True) (modifyStore f) (modifyStore f') :=
  fun w w' hw => .ok ⟨trivial, hw.output, h w.store w'.store hw.store⟩

theorem errorClass_ofAccess (x : String) (e : AccessError) :
    (EvalError.ofAccess x e).errorClass ≠ .unsupported := by
  cases e <;> exact nofun

theorem tandem_read (env : Environment) (x : String) :
    Tandem L (Value.Matches L) (read env x) (read env x) := by
  intro w w' hw
  rcases hw.store.get env x with ⟨e, he, he'⟩ | ⟨v, v', hv, hget, hget'⟩
  · rw [read_of_error he, read_of_error he']
    exact .error fun _ => errorClass_ofAccess x e
  · rw [read_of_get hget, read_of_get hget']
    exact .ok ⟨hv, hw⟩

theorem tandem_isResolvable (env : Environment) (x : String) :
    Tandem L Eq (isResolvable env x) (isResolvable env x) := by
  intro w w' hw
  rw [isResolvable_apply, isResolvable_apply, hw.store.isSome_resolve?]
  exact .ok ⟨rfl, hw⟩

theorem tandem_nameResolvable (env : Environment) (e : Expr) :
    Tandem L Eq (e.name?.elim (pure true) (isResolvable env))
      (e.name?.elim (pure true) (isResolvable env)) := by
  cases e.name? with
  | none => exact .pure rfl
  | some x => exact tandem_isResolvable env x

theorem tandem_write (env : Environment) (x : String) {v v' : Value} (hv : v.Matches L v') :
    Tandem L (fun _ _ => True) (write env x v) (write env x v') := by
  intro w w' hw
  rcases hw.store.set env x hv with ⟨e, he, he'⟩ | ⟨t, t', ht, hset, hset'⟩
  · rw [write_of_error he, write_of_error he']
    exact .error fun _ => errorClass_ofAccess x e
  · rw [write_of_set hset, write_of_set hset']
    exact .ok ⟨trivial, hw.output, ht⟩

theorem tandem_assign (env : Environment) (x : String) {v v' : Value} (hv : v.Matches L v') :
    Tandem L (fun _ _ => True) (assign env x v) (assign env x v') := by
  refine (tandem_isResolvable env x).bind ?_
  rintro resolvable _ rfl
  cases resolvable with
  | true => exact tandem_write env x hv
  | false => exact .modifyStore fun s s' hs => hs.declareVar globalScope x hv

theorem tandem_openScope (env : Environment) :
    Tandem L Eq (openScope env) (openScope env) := by
  intro w w' hw
  have hopen (w : World) : openScope env w =
      (.ok (w.store.next :: env), { w with store := w.store.push }) := rfl
  rw [hopen, hopen, hw.store.next]
  exact .ok ⟨rfl, hw.output, hw.store.push⟩

theorem tandem_step (env : Environment) (e : Expr) (change : Float → Float) :
    Tandem L Eq (step env e change) (step env e change) := by
  unfold step
  cases e.name? with
  | none => exact .throw fun _ => nofun
  | some x =>
    refine (tandem_read env x).bind fun v v' hv => ?_
    rw [hv.toNumber]
    exact (tandem_assign env x (.of_isData rfl)).bind fun _ _ _ => .pure rfl

theorem tandem_operate {op : BinaryOp} (hop : L.strict → op.isLiftable = true)
    (hvalues : op ≠ .and ∧ op ≠ .or ∧ op ≠ .comma ∧ op ≠ .assign) {a a' b b' : Value}
    (ha : a.Matches L a') (hb : b.Matches L b') :
    Tandem L (Value.Matches L) (operate op a b) (operate op a' b') := by
  unfold operate
  rw [ha.operate? op hb, ha.text, hb.text]
  cases hv : Value.operate? op a b with
  | some v => exact .pure (.of_isData (Value.isData_of_operate? hv))
  | none =>
    simp only
    split
    · exact .throw fun _ => nofun
    · -- Operators on values that have no result are `in` and those that cannot be lifted.
      refine .throw fun hstrict => absurd (hop hstrict) ?_
      cases op <;> simp_all [Value.operate?, BinaryOp.isLiftable]

theorem tandem_print {args args' : List Value} (hargs : List.Forall₂ (Value.Matches L) args args') :
    Tandem L (fun _ _ => True) (print args) (print args') := by
  have htexts : args'.map Value.text = args.map Value.text := by
    induction hargs with
    | nil => rfl
    | cons hv _ ih => rw [List.map_cons, List.map_cons, hv.text, ih]
  intro w w' hw
  refine .ok ⟨trivial, ?_, hw.store⟩
  simp only [hw.output, htexts]

theorem tandem_apply {calls calls' : Calls} (hcalls : TandemCalls L calls calls') (callee : String)
    {f f' : Value} (hf : f.Matches L f') {args args' : List Value}
    (hargs : List.Forall₂ (Value.Matches L) args args') :
    Tandem L (Value.Matches L) (apply calls callee f args) (apply calls' callee f' args') := by
  cases hf with
  | function h => exact hcalls _ _ args args' h hargs
  | same h =>
    cases f with
    | print => exact (tandem_print hargs).bind fun _ _ _ => .pure (.of_isData rfl)
    | function g => exact absurd rfl (h g)
    | undefined | null | boolean _ | number _ | string _ => exact .throw fun _ => nofun

end Steps

/-! ## Expressions -/

section Expressions

variable {calls calls' : Calls} {env : Environment}

theorem tandem_unary {e : Expr}
    (he : Tandem L (Value.Matches L) (expr calls env e) (expr calls' env e)) (op : PrefixOp)
    (r : Range) : Tandem L (Value.Matches L) (expr calls env (.unary r op e))
      (expr calls' env (.unary r op e)) := by
  cases op with
  | increment | decrement =>
    refine (tandem_step env e _).bind ?_
    rintro x _ rfl
    exact .pure (.of_isData rfl)
  | typeof =>
    refine (tandem_nameResolvable env e).bind ?_
    rintro resolvable _ rfl
    cases resolvable with
    | true =>
      refine he.bind fun v v' hv => ?_
      rw [hv.typeOf]
      exact .pure (.of_isData rfl)
    | false => exact .pure (.of_isData rfl)
  | delete =>
    simp only [expr]
    cases e.name? with
    | some x =>
      refine (tandem_isResolvable env x).bind ?_
      rintro resolvable _ rfl
      exact .pure (.of_isData rfl)
    | none => exact he.bind fun _ _ _ => .pure (.of_isData rfl)
  | not =>
    refine he.bind fun v v' hv => ?_
    rw [hv.toBoolean]
    exact .pure (.of_isData rfl)
  | bitNot =>
    refine he.bind fun v v' hv => ?_
    rw [hv.toInt32]
    exact .pure (.of_isData rfl)
  | plus | minus =>
    refine he.bind fun v v' hv => ?_
    rw [hv.toNumber]
    exact .pure (.of_isData rfl)
  | void => exact he.bind fun _ _ _ => .pure (.of_isData rfl)

theorem tandem_binary {a b : Expr} {op : BinaryOp} (hop : L.strict → op.isLiftable = true)
    (htarget : op = .assign → L.strict → a.name?.isSome = true)
    (ha : op ≠ .assign → Tandem L (Value.Matches L) (expr calls env a) (expr calls' env a))
    (hb : Tandem L (Value.Matches L) (expr calls env b) (expr calls' env b)) (r opRange : Range) :
    Tandem L (Value.Matches L) (expr calls env (.binary r op opRange a b))
      (expr calls' env (.binary r op opRange a b)) := by
  cases op with
  | assign =>
    simp only [expr]
    cases hname : a.name? with
    | none => exact .throw fun hstrict => by simpa [hname] using htarget rfl hstrict
    | some x =>
      exact hb.bind fun v v' hv => (tandem_assign env x hv).bind fun _ _ _ => .pure hv
  | and =>
    refine (ha nofun).bind fun v v' hv => ?_
    rw [hv.toBoolean]
    split
    · exact hb
    · exact .pure hv
  | or =>
    refine (ha nofun).bind fun v v' hv => ?_
    rw [hv.toBoolean]
    split
    · exact .pure hv
    · exact hb
  | comma => exact (ha nofun).bind fun _ _ _ => hb
  | _ =>
    exact (ha nofun).bind fun v v' hv => hb.bind fun u u' hu => tandem_operate hop (by simp) hv hu

variable (hcalls : TandemCalls L calls calls') (env : Environment)
include hcalls

set_option linter.unusedSectionVars false in
mutual

/-- Expressions run in tandem with themselves. -/
theorem tandem_expr : (e : Expr) → (L.strict → e.Supported) →
      Tandem L (Value.Matches L) (expr calls env e) (expr calls' env e)
  | .ident id, _ => tandem_read env id.name
  | .number _, _ | .string _, _ | .boolean .., _ | .null _, _ => .pure (.of_isData rfl)
  | .paren _ e, he => tandem_expr e he
  | .unary r op e, he => tandem_unary (tandem_expr e he) op r
  | .update _ op e, _ => by
    refine (tandem_step env e _).bind ?_
    rintro x _ rfl
    exact .pure (.of_isData rfl)
  | .binary r op opRange a b, he =>
    tandem_binary (fun h => (he h).1) (fun hop h => by simpa [hop] using (he h).2.1)
      (fun hop => tandem_expr a fun h => by simpa [hop] using (he h).2.1)
      (tandem_expr b fun h => (he h).2.2) r opRange
  | .call _ isOptional f args, he => by
    cases isOptional with
    | true => exact .throw fun h => nomatch (he h).1
    | false =>
      simp only [expr]
      cases hname : f.name? with
      | none => exact .throw fun h => by simpa [hname] using (he h).2.1
      | some callee =>
        refine (tandem_read env callee).bind fun g g' hg => ?_
        -- The limit is looked at only after the callee and the arguments are known.
        exact (tandem_exprs args fun h => (he h).2.2).bind fun vs vs' hvs =>
          tandem_apply hcalls callee hg hvs
  | .other _, he => .throw fun h => (he h).elim

theorem tandem_exprs : (es : List Expr) → (L.strict → Expr.SupportedList es) →
      Tandem L (List.Forall₂ (Value.Matches L)) (exprs calls env es) (exprs calls' env es)
  | [], _ => .pure .nil
  | e :: es, hes =>
    (tandem_expr e fun h => (hes h).1).bind fun _ _ hv =>
      (tandem_exprs es fun h => (hes h).2).bind fun _ _ hvs => .pure (.cons hv hvs)

end

/-! ## Declarations of variables -/

theorem tandem_declarator (kind : VarKind) (d : Declarator) (hd : L.strict → d.Supported) :
    Tandem L (fun _ _ => True) (declarator calls env kind d) (declarator calls' env kind d) := by
  have hset (x : String) {v v' : Value} (hv : v.Matches L v') : Tandem L (fun _ _ => True)
      (modifyStore (·.setInitial (innermost env) x v))
      (modifyStore (·.setInitial (innermost env) x v')) :=
    .modifyStore fun s s' hs => hs.setInitial _ x hv
  obtain ⟨r, target, init⟩ := d
  cases target with
  | pattern n => exact .throw fun h => nomatch (hd h).1
  | name id =>
    cases init with
    | some e =>
      refine (tandem_expr hcalls env e fun h => (hd h).2 e rfl).bind fun v v' hv => ?_
      split
      · exact hset id.name hv
      · exact tandem_write env id.name hv
    | none =>
      simp only [declarator]
      split
      · exact hset id.name (.of_isData rfl)
      · exact .pure trivial

theorem tandem_declarators (kind : VarKind) (ds : List Declarator)
    (hds : L.strict → ∀ d ∈ ds, d.Supported) :
    Tandem L (fun _ _ => True) (declarators calls env kind ds)
      (declarators calls' env kind ds) := by
  induction ds with
  | nil => exact .pure trivial
  | cons d ds ih =>
    refine (tandem_declarator hcalls env kind d fun h => hds h d List.mem_cons_self).bind
      fun _ _ _ => ?_
    exact ih fun h d' hd' => hds h d' (List.mem_cons_of_mem d hd')

end Expressions

/-! ## Entering lists -/

section Declarations

variable {s s' : Store}

/-- Entering a body that declares the same variables. -/
theorem matches_declareVars (h : s.Matches L s') (env : Environment) {ss ts : List Stmt}
    (hnames : varNamesOfList ts = varNamesOfList ss) :
    (declareVars env ss s).Matches L (declareVars env ts s') := by
  unfold declareVars
  rw [hnames]
  induction varNamesOfList ss generalizing s s' with
  | nil => exact h
  | cons x xs ih => exact ih (h.declareVar _ x (.of_isData rfl))

/-- Entering a declaration of block variables. -/
theorem matches_declareStmt_vars (h : s.Matches L s') (env : Environment) (r listRange : Range)
    (kind : VarKind) (ds : List Declarator) :
    (declareStmt env s (.vars r listRange kind ds)).Matches L
      (declareStmt env s' (.vars r listRange kind ds)) := by
  simp only [declareStmt]
  split
  · induction ds.filterMap (·.target.name?) generalizing s s' with
    | nil => exact h
    | cons x xs ih => exact ih (h.declare _ x ⟨rfl, .none⟩)
  · exact h

end Declarations

/-! ## Statements -/

/-- Both statements end alike. -/
inductive Completion.Matches (L : Leeway) : Completion → Completion → Prop
  | normal : Matches L .normal .normal
  | returned {v v' : Value} (h : v.Matches L v') : Matches L (.returned v) (.returned v')

theorem Completion.Matches.next {c c' : Completion} (hc : c.Matches L c') {m m' : Run Completion}
    (h : Tandem L (Completion.Matches L) m m') :
    Tandem L (Completion.Matches L) (c.next m) (c'.next m') := by
  cases hc with
  | normal => exact h
  | returned hv => exact .pure (.returned hv)

/-- Lists that declare the same and do the same, apart from the order in which they declare it. -/
structure Interchangeable (ss ts : List Stmt) : Prop where
  varNames : varNamesOfList ts = varNamesOfList ss
  lookup? : ∀ env s i x, (declareList env ts s).lookup? i x = (declareList env ss s).lookup? i x
  stmts : ∀ calls env, stmts calls env ts = stmts calls env ss

theorem Interchangeable.refl (ss : List Stmt) : Interchangeable ss ss :=
  ⟨rfl, fun _ _ _ _ => rfl, fun _ _ => rfl⟩

/-- Lists for which there is leeway match statement by statement, and then may be interchanged. -/
def ListsMatch (L : Leeway) : Prop :=
  ∀ ss us, L.bodies ss us → ∃ ts, List.Forall₂ (Stmt.Matches L) ss ts ∧ Interchangeable ts us

section Statements

variable {ss ts us : List Stmt}

theorem matches_declareStmt (env : Environment) {s s' : Store} (h : s.Matches L s') {st st' : Stmt}
    (hst : st.Matches L st') : (declareStmt env s st).Matches L (declareStmt env s' st') := by
  cases hst with
  | plain hplain =>
    cases st with
    | vars r listRange kind ds => exact matches_declareStmt_vars h env r listRange kind ds
    | function => cases hplain
    | _ => exact h
  | block => exact h
  | @function head hhead ss ts hbody =>
    simp only [declareStmt]
    cases head.name? with
    | none => exact h
    | some x => exact h.declare _ x ⟨rfl, .some (.function ⟨rfl, rfl, rfl, hhead, hbody⟩)⟩

theorem matches_declareList (env : Environment) {s s' : Store} (h : s.Matches L s')
    (hss : List.Forall₂ (Stmt.Matches L) ss ts) (hus : Interchangeable ts us) :
    (declareList env ss s).Matches L (declareList env us s') := by
  have hts : (declareList env ss s).Matches L (declareList env ts s') := by
    clear hus
    induction hss generalizing s s' with
    | nil => exact h
    | cons hst _ ih => exact ih (matches_declareStmt env h hst)
  refine ⟨?_, fun i x => ?_⟩
  · rw [← hts.next, declareList_eq, declareList_eq, Store.next_declareAll, Store.next_declareAll]
  · rw [hus.lookup?]
    exact hts.lookup? i x

mutual

theorem varNames_of_matches (hL : ListsMatch L) :
    (s : Stmt) → {t : Stmt} → s.Matches L t → varNames t = varNames s
  | _, _, .plain .. => rfl
  | _, _, .function .. => rfl
  | .block _ ss, _, .block _ h => by
    obtain ⟨ts, hts, hus⟩ := hL _ _ h
    rw [varNames, varNames, hus.varNames, varNamesOfList_of_matches hL ss hts]

theorem varNamesOfList_of_matches (hL : ListsMatch L) : (ss : List Stmt) → {ts : List Stmt} →
    List.Forall₂ (Stmt.Matches L) ss ts → varNamesOfList ts = varNamesOfList ss
  | [], _, .nil => rfl
  | s :: ss, _, .cons hs hss => by
    rw [varNamesOfList, varNamesOfList, varNames_of_matches hL s hs,
      varNamesOfList_of_matches hL ss hss]

end

variable {calls calls' : Calls}

/-- A list is entered, and then its statements are run. -/
theorem tandem_entered (env : Environment)
    (hstmts : Tandem L (Completion.Matches L) (stmts calls env ss) (stmts calls' env ts))
    (hss : List.Forall₂ (Stmt.Matches L) ss ts) (hus : Interchangeable ts us) :
    Tandem L (Completion.Matches L) (do modifyStore (declareList env ss); stmts calls env ss)
      (do modifyStore (declareList env us); stmts calls' env us) := by
  rw [hus.stmts]
  exact (Tandem.modifyStore fun s s' hs => matches_declareList env hs hss hus).bind
    fun _ _ _ => hstmts

mutual

/-- Matching statements run in tandem, provided that calls do. -/
theorem tandem_stmt (hL : ListsMatch L) (hcalls : TandemCalls L calls calls') (env : Environment) :
    (s : Stmt) → {t : Stmt} → s.Matches L t →
      Tandem L (Completion.Matches L) (stmt calls env s) (stmt calls' env t)
  | .vars _ _ kind ds, _, .plain _ hs =>
    (tandem_declarators hcalls env kind ds hs).bind fun _ _ _ => .pure .normal
  | .function .., _, .function .. | .empty _, _, .plain .. => .pure .normal
  | .block _ ss, _, .block _ h => by
    obtain ⟨ts, hts, hus⟩ := hL _ _ h
    rw [stmt, stmt]
    refine (tandem_openScope env).bind ?_
    rintro inner _ rfl
    exact tandem_entered inner (tandem_stmts hL hcalls inner ss hts) hts hus
  | .expression _ e, _, .plain _ hs =>
    (tandem_expr hcalls env e hs).bind fun _ _ _ => .pure .normal
  | .return_ _ (some e), _, .plain _ hs =>
    (tandem_expr hcalls env e fun h => hs h e rfl).bind fun _ _ hv => .pure (.returned hv)
  | .return_ _ none, _, .plain .. => .pure (.returned (.of_isData rfl))
  | .other _, _, .plain _ hs => .throw fun h => (hs h).elim

theorem tandem_stmts (hL : ListsMatch L) (hcalls : TandemCalls L calls calls') (env : Environment) :
    (ss : List Stmt) → {ts : List Stmt} → List.Forall₂ (Stmt.Matches L) ss ts →
      Tandem L (Completion.Matches L) (stmts calls env ss) (stmts calls' env ts)
  | [], _, .nil => .pure .normal
  | s :: ss, _, .cons hs hss => by
    rw [stmts_cons, stmts_cons]
    exact (tandem_stmt hL hcalls env s hs).bind fun _ _ hc =>
      hc.next (tandem_stmts hL hcalls env ss hss)

end

/-- Bodies for which there is leeway run in tandem, provided that calls do. -/
def TandemBodies (L : Leeway) : Prop :=
  ∀ ss ts, L.bodies ss ts → ∀ calls calls', TandemCalls L calls calls' → ∀ env,
    Tandem L (Completion.Matches L) (body calls env ss) (body calls' env ts)

theorem tandem_body (hL : ListsMatch L) : TandemBodies L := by
  intro ss us h calls calls' hcalls env
  obtain ⟨ts, hts, hus⟩ := hL ss us h
  have hnames : varNamesOfList us = varNamesOfList ss := by
    rw [hus.varNames, varNamesOfList_of_matches hL ss hts]
  refine (Tandem.modifyStore fun s s' hs => matches_declareVars hs env hnames).bind fun _ _ _ => ?_
  exact tandem_entered env (tandem_stmts hL hcalls env ss hts) hts hus

end Statements

/-! ## Calls and programs -/

theorem tandem_bindParams (env : Environment) {ps ps' : List Param} {args args' : List Value}
    (hps : ps'.map Param.plainName? = ps.map Param.plainName?)
    (hplain : L.strict → ∀ p ∈ ps, p.plainName?.isSome)
    (hargs : List.Forall₂ (Value.Matches L) args args') :
    Tandem L (fun _ _ => True) (bindParams env ps args) (bindParams env ps' args') := by
  induction ps generalizing ps' args args' with
  | nil =>
    cases ps' with
    | nil => exact .pure trivial
    | cons p' ps' => cases hps
  | cons p ps ih =>
    cases ps' with
    | nil => cases hps
    | cons p' ps' =>
      obtain ⟨hp, hps⟩ := List.cons.inj hps
      rw [bindParams, bindParams, hp]
      cases hname : p.plainName? with
      | none => exact .throw fun h => by simpa [hname] using hplain h p List.mem_cons_self
      | some x =>
        have hhead : (args.headD .undefined).Matches L (args'.headD .undefined) := by
          cases hargs with
          | nil => exact .of_isData rfl
          | cons hv => exact hv
        have htail : List.Forall₂ (Value.Matches L) args.tail args'.tail := by
          cases hargs with
          | nil => exact .nil
          | cons _ hvs => exact hvs
        refine (Tandem.modifyStore fun s s' hs => ?_).bind fun _ _ _ =>
          ih hps (fun h p' hp' => hplain h p' (List.mem_cons_of_mem p hp')) htail
        exact hs.declare _ x ⟨rfl, .some hhead⟩

/-- A call jumps to a body that has been found in a variable. The number of calls that may still
nest decreases, so it is an induction on that. Where there are none left, a run that may be cut
stops before the other one. -/
theorem tandem_call (hbodies : TandemBodies L) {limit limit' : Nat}
    (hlimit : limit' = limit ∨ L.cut ∧ limit ≤ limit') :
    TandemCalls L (call limit) (call limit') := by
  induction limit generalizing limit' with
  | zero =>
    rcases hlimit with rfl | ⟨hcut, -⟩
    · exact fun _ _ _ _ _ _ => .throw fun _ => nofun
    · exact fun _ _ _ _ _ _ _ _ _ => .cut hcut _
  | succ limit ih =>
    obtain ⟨limit', rfl⟩ : ∃ n, limit' = n + 1 := Nat.exists_eq_add_one.2 (by omega)
    intro f g args args' hfg hargs
    rw [call, call, hfg.environment]
    refine (tandem_openScope f.environment).bind ?_
    rintro env _ rfl
    refine (tandem_bindParams env hfg.params (fun h => (hfg.supported h).params) hargs).bind
      fun _ _ _ => ?_
    have hcalls : TandemCalls L (call limit) (call limit') :=
      ih (hlimit.imp Nat.succ.inj fun h => ⟨h.1, Nat.le_of_succ_le_succ h.2⟩)
    refine (hbodies _ _ hfg.body _ _ hcalls env).bind fun c c' hc => ?_
    cases hc with
    | normal => exact .pure (.of_isData rfl)
    | returned hv => exact .pure hv

theorem matches_initial : World.initial.Matches L World.initial := by
  have hempty : Store.Matches L ⟨#[]⟩ ⟨#[]⟩ := by
    refine ⟨rfl, fun i x => ?_⟩
    rw [Store.lookup?_of_le (Nat.zero_le i)]
    exact .none
  refine ⟨rfl, ?_⟩
  rw [store_initial]
  exact hempty.push.declare _ _ ⟨rfl, .some (.same fun _ hf => nomatch hf)⟩

/-- Programs for which there is leeway run alike, unless the first one is cut. -/
theorem run_of_bodies (hbodies : TandemBodies L) {p q : Program}
    (h : L.bodies p.statements q.statements) {limit limit' : Nat}
    (hlimit : limit' = limit ∨ L.cut ∧ limit ≤ limit') :
    L.cut ∧ run limit p = .error .stackOverflow ∨ run limit' q = run limit p ∧
      (L.strict → ∀ kind, run limit p ≠ .error (.unsupported kind)) := by
  have hbody := hbodies _ _ h _ _ (tandem_call hbodies hlimit) [globalScope] World.initial
    World.initial matches_initial
  rw [run_eq, run_eq]
  generalize body (call limit) [globalScope] p.statements World.initial = r at hbody
  generalize body (call limit') [globalScope] q.statements World.initial = r' at hbody
  cases hbody with
  | ok h => exact .inr ⟨congrArg Except.ok h.2.output, fun _ _ => nofun⟩
  | error h =>
    refine .inr ⟨rfl, fun hstrict kind hkind => h hstrict ?_⟩
    rw [Except.error.inj hkind]
    rfl
  | cut h => exact .inl ⟨h, rfl⟩

/-- Programs run alike if there is leeway for their bodies only. -/
theorem run_eq_of_bodies {R : List Stmt → List Stmt → Prop}
    (hbodies : TandemBodies ⟨R, False, False⟩) {p q : Program} (h : R p.statements q.statements)
    (limit : Nat) : run limit q = run limit p :=
  (run_of_bodies hbodies h (.inl rfl)).elim (fun hcut => hcut.1.elim) And.left

end Execution

end LambdaLift
