import LambdaLift.Grammar.Recursion
import LambdaLift.Proofs.Execution.Lockstep
import LambdaLift.Proofs.Execution.Moments

/-!
# Statements bind no names outside

Scopes are shared by all functions that were declared in them. Whatever a statement calls, and
however it ends, it leaves the names of the scopes that were open before as they are.

* `Environment.Rooted`, `Store.Rooted`: environments that end in the scope of the program, and
  stores in which all functions were declared in such environments.
* `Permit`: the changes that are allowed to scopes that were open before. `Spares p s s'`: from `s`
  to `s'` nothing else has changed.
* `Leaves p w Q m`: in the world `w` the step `m` leaves all but the allowed as it was, also if it
  fails, and if it gives a result then one with `Q`. This goes through all constructs
  (`leaves_expr`, `leaves_stmt`, `leaves_body`) and calls (`leaves_call`).
* `Reachable.rooted`: all worlds that come up in the runs of programs are rooted.
* `stmt_spares_older_scopes`: what running a statement can do to the scopes that were open before.
-/

namespace LambdaLift

open List

/-- The block variables that a statement gives their first value. -/
def Stmt.blockVariables : Stmt → List String
  | .vars _ _ kind ds => if kind.isBlockScoped then ds.filterMap (·.target.name?) else []
  | .function .. | .block .. | .expression .. | .return_ .. | .empty _ | .other _ => []

open Execution (globalScope innermost)

/-! ## Environments that end in the scope of the program -/

/-- All scopes of the environment are among the first `next`, and the outermost one is the scope of
the program. -/
structure Environment.Rooted (env : Environment) (next : Nat) : Prop where
  last : env.getLast? = some globalScope
  isOpen : ∀ i ∈ env, i < next

namespace Environment.Rooted

variable {env : Environment} {next next' : Nat}

theorem mono (h : env.Rooted next) (hle : next ≤ next') : env.Rooted next' :=
  ⟨h.last, fun i hi => Nat.lt_of_lt_of_le (h.isOpen i hi) hle⟩

theorem cons (h : env.Rooted next) {i : Nat} (hi : i < next) :
    Environment.Rooted (i :: env) next where
  last := by
    rw [getLast?_cons, h.last]
    rfl
  isOpen := forall_mem_cons.2 ⟨hi, h.isOpen⟩

theorem globalScope_mem (h : env.Rooted next) : globalScope ∈ env :=
  mem_of_getLast? h.last

end Environment.Rooted

/-- If the value is a function, then its environment is rooted. -/
def Value.Rooted (v : Value) (next : Nat) : Prop :=
  ∀ f, v = .function f → f.environment.Rooted next

theorem Value.Rooted.mono {v : Value} {next next' : Nat} (h : v.Rooted next) (hle : next ≤ next') :
    v.Rooted next' :=
  fun f hf => (h f hf).mono hle

theorem Value.rooted_of_ne {v : Value} {next : Nat} (h : ∀ f, v ≠ .function f) : v.Rooted next :=
  fun f hf => absurd hf (h f)

theorem Value.IsData.rooted {v : Value} {next : Nat} (h : v.IsData) : v.Rooted next :=
  rooted_of_ne h.ne_function

/-- All functions in the variables of a store were declared in environments that end in the scope of
the program. -/
def Store.Rooted (s : Store) : Prop :=
  ∀ i x w v, s.lookup? i x = some w → w.value = some v → v.Rooted s.next

namespace Store

theorem next_lt_push (s : Store) : s.next < s.push.next := by
  simp

theorem Rooted.push {s : Store} (h : s.Rooted) : s.push.Rooted := by
  intro i x w v hw hv
  rw [lookup?_push] at hw
  exact (h i x w v hw hv).mono (Nat.le_of_lt s.next_lt_push)

end Store

/-- An environment in a new scope. -/
theorem Environment.Rooted.push {env : Environment} {s : Store} (h : env.Rooted s.next) :
    Environment.Rooted (s.next :: env) s.push.next :=
  (h.mono (Nat.le_of_lt s.next_lt_push)).cons s.next_lt_push

namespace Execution

/-! ## What may change -/

/-- The changes that a run may make to the scopes before `base`: it may give the constants in `own`
another value, and the scope of the program may gain the names in `gains`. -/
structure Permit where
  base : Nat
  own : Nat → String → Prop
  gains : String → Prop

/-- From `s` to `s'` only what is permitted has changed in older scopes. Names stay bound in all. -/
structure Spares (p : Permit) (s s' : Store) : Prop where
  next : s.next ≤ s'.next
  bound : ∀ i x, (s.lookup? i x).isSome → (s'.lookup? i x).isSome
  gained : ∀ i < p.base, ∀ x, (s'.lookup? i x).isSome →
    (s.lookup? i x).isSome ∨ i = globalScope ∧ p.gains x
  kind : ∀ i < p.base, ∀ x v v', s.lookup? i x = some v → s'.lookup? i x = some v' →
    v'.kind = v.kind
  constant : ∀ i < p.base, ∀ x v, s.lookup? i x = some v → v.isConstant → v.value.isSome →
    ¬ p.own i x → s'.lookup? i x = some v

variable {p : Permit} {s t u : Store}

theorem isSome_resolve?_iff {x : String} {env : Environment} :
    (s.resolve? x env).isSome ↔ ∃ i ∈ env, (s.lookup? i x).isSome := by
  induction env with
  | nil => simp [Store.resolve?]
  | cons i env ih =>
    rw [Store.resolve?]
    cases hi : s.lookup? i x with
    | none => simpa [hi] using ih
    | some v => simp [hi]

theorem lookup?_declare_cases (s : Store) (i : Nat) (x : String) (v : Variable) (j : Nat)
    (y : String) : (s.declare i x v).lookup? j y = s.lookup? j y ∨
      j = i ∧ y = x ∧ (s.declare i x v).lookup? j y = some v := by
  rw [Store.lookup?_declare_eq]
  split
  next h => exact .inr ⟨h.2.1, h.2.2, rfl⟩
  next => exact .inl rfl

namespace Spares

theorem refl (s : Store) : Spares p s s where
  next := Nat.le_refl _
  bound _ _ h := h
  gained _ _ _ h := .inl h
  kind _ _ _ v v' h h' := by
    obtain rfl := Option.some.inj (h.symm.trans h')
    rfl
  constant _ _ _ _ h _ _ _ := h

theorem trans (h : Spares p s t) (h' : Spares p t u) : Spares p s u where
  next := Nat.le_trans h.next h'.next
  bound i x hi := h'.bound i x (h.bound i x hi)
  gained i hi x hx := (h'.gained i hi x hx).elim (h.gained i hi x) .inr
  kind i hi x v v' hv hv' := by
    obtain ⟨w, hw⟩ := Option.isSome_iff_exists.1 (h.bound i x (by simp [hv]))
    rw [h'.kind i hi x w v' hw hv', h.kind i hi x v w hv hw]
  constant i hi x v hv hconstant hvalue hown :=
    h'.constant i hi x v (h.constant i hi x v hv hconstant hvalue hown) hconstant hvalue hown

theorem push (s : Store) : Spares p s s.push where
  next := by simp
  bound i x hi := by rwa [Store.lookup?_push]
  gained i _ x hi := .inl (by rwa [Store.lookup?_push] at hi)
  kind i hi x v v' hv hv' := by
    rw [Store.lookup?_push] at hv'
    exact (refl s).kind i hi x v v' hv hv'
  constant i _ x v hv _ _ _ := by rw [Store.lookup?_push, hv]

/-- One variable may change if its scope is new, or if that is permitted. -/
theorem declare (s : Store) (i : Nat) (x : String) (v : Variable)
    (hgained : i < p.base → (s.lookup? i x).isSome ∨ i = globalScope ∧ p.gains x)
    (hkept : i < p.base → ∀ w, s.lookup? i x = some w →
      v.kind = w.kind ∧ (w.isConstant → w.value.isSome → p.own i x)) :
    Spares p s (s.declare i x v) where
  next := by simp
  bound j y hj := by
    rcases lookup?_declare_cases s i x v j y with h | ⟨-, -, h⟩
    · rwa [h]
    · rw [h]
      rfl
  gained j hj y hy := by
    rcases lookup?_declare_cases s i x v j y with h | ⟨rfl, rfl, -⟩
    · exact .inl (h ▸ hy)
    · exact hgained hj
  kind j hj y w w' hw hw' := by
    rcases lookup?_declare_cases s i x v j y with h | ⟨rfl, rfl, h⟩
    · exact (refl s).kind j hj y w w' hw (h ▸ hw')
    · obtain rfl := Option.some.inj (h.symm.trans hw')
      exact (hkept hj w hw).1
  constant j hj y w hw hconstant hvalue hown := by
    rcases lookup?_declare_cases s i x v j y with h | ⟨rfl, rfl, -⟩
    · rw [h, hw]
    · exact absurd ((hkept hj w hw).2 hconstant hvalue) hown

theorem declareNew {i : Nat} (hi : p.base ≤ i) (s : Store) (x : String) (v : Variable) :
    Spares p s (s.declare i x v) :=
  declare s i x v (fun h => absurd h (Nat.not_lt.2 hi)) fun h => absurd h (Nat.not_lt.2 hi)

theorem declareAll {i : Nat} (hi : p.base ≤ i) (ds : List (String × Variable)) (s : Store) :
    Spares p s (s.declareAll i ds) := by
  induction ds generalizing s with
  | nil => exact refl s
  | cons d ds ih => exact (declareNew hi s d.1 d.2).trans (ih _)

end Spares

/-- The older scopes are open, and the store is rooted. -/
structure Sound (p : Permit) (s : Store) : Prop where
  base : p.base ≤ s.next
  rooted : s.Rooted

namespace Sound

theorem push (h : Sound p s) : Sound p s.push where
  base := Nat.le_trans h.base (Nat.le_of_lt (Store.next_lt_push s))
  rooted := h.rooted.push

theorem declare (h : Sound p s) {i : Nat} {x : String} {w : Variable}
    (hw : ∀ v, w.value = some v → v.Rooted s.next) : Sound p (s.declare i x w) where
  base := by simpa using h.base
  rooted j y u v hu hv := by
    rw [Store.next_declare]
    rcases lookup?_declare_cases s i x w j y with heq | ⟨-, -, heq⟩
    · exact h.rooted j y u v (heq ▸ hu) hv
    · obtain rfl := Option.some.inj (heq.symm.trans hu)
      exact hw v hv

end Sound

/-! ## Steps -/

/-- In the world the step leaves what it has to, however it ends. -/
def Leaves (p : Permit) (w : World) {α : Type} (Q : Store → α → Prop) (m : Run α) : Prop :=
  Sound p w.store → Sound p (m w).2.store ∧ Spares p w.store (m w).2.store ∧
    ∀ a, (m w).1 = .ok a → Q (m w).2.store a

/-- The result is rooted. -/
def RootedResult (s : Store) (v : Value) : Prop :=
  v.Rooted s.next

theorem RootedResult.of_isData {s : Store} {v : Value} (h : v.IsData) : RootedResult s v :=
  h.rooted

section

variable {w : World} {α β : Type} {Q : Store → α → Prop} {R : Store → β → Prop}

theorem Leaves.pure {a : α} (h : Q w.store a) : Leaves p w Q (pure a) := by
  refine fun hw => ⟨hw, .refl _, fun b hb => ?_⟩
  obtain rfl : a = b := Except.ok.inj hb
  exact h

theorem Leaves.throw (e : EvalError) : Leaves p w Q (throw e : Run α) :=
  fun hw => ⟨hw, .refl _, fun _ h => nomatch h⟩

variable {v : Value} {m : Run α} {x : String} {r : Range}

theorem Leaves.bind {f : α → Run β} (hm : Leaves p w Q m)
    (hf : ∀ a w', m w = (.ok a, w') → w.store.next ≤ w'.store.next → Q w'.store a →
      Leaves p w' R (f a)) : Leaves p w R (m >>= f) := by
  intro hw
  obtain ⟨hsound, hspares, hresult⟩ := hm hw
  rw [bind_apply]
  generalize hr : m w = r at hsound hspares hresult
  obtain ⟨result, w'⟩ := r
  cases result with
  | error e => exact ⟨hsound, hspares, fun _ h => nomatch h⟩
  | ok a =>
    obtain ⟨hsound', hspares', hresult'⟩ := hf a w' hr hspares.next (hresult a rfl) hsound
    exact ⟨hsound', hspares.trans hspares', hresult'⟩

theorem Leaves.imp {Q' : Store → α → Prop} (hm : Leaves p w Q m) (h : ∀ s a, Q s a → Q' s a) :
    Leaves p w Q' m := by
  intro hw
  obtain ⟨hsound, hspares, hresult⟩ := hm hw
  exact ⟨hsound, hspares, fun a ha => h _ a (hresult a ha)⟩

/-- A step whose result is no function. -/
theorem Leaves.bind_pure (hm : Leaves p w Q m) {f : α → β} (h : ∀ s a, Q s a → R s (f a)) :
    Leaves p w R (m >>= fun a => Pure.pure (f a)) :=
  hm.bind fun a w' _ _ ha => .pure (h w'.store a ha)

theorem Leaves.modifyStore {f : Store → Store} {Q : Store → Unit → Prop}
    (hf : Sound p w.store → Sound p (f w.store) ∧ Spares p w.store (f w.store) ∧
      Q (f w.store) ()) : Leaves p w Q (modifyStore f) := by
  intro hw
  obtain ⟨hsound, hspares, hresult⟩ := hf hw
  exact ⟨hsound, hspares, fun _ _ => hresult⟩

/-! ## Variables -/

variable {env : Environment}

theorem leaves_read (x : String) : Leaves p w
    (fun s v => v.Rooted s.next ∧ (s.resolve? x env).isSome) (read env x) := by
  intro hw
  cases hget : w.store.get env x with
  | error e =>
    rw [read_of_error hget]
    exact ⟨hw, .refl _, fun _ h => nomatch h⟩
  | ok v =>
    rw [read_of_get hget]
    refine ⟨hw, .refl _, fun a ha => ?_⟩
    obtain rfl : v = a := Except.ok.inj ha
    unfold Store.get at hget
    split at hget
    · cases hget
    · rename_i i u hu
      split at hget
      · rename_i value hvalue
        obtain rfl : value = v := Except.ok.inj hget
        exact ⟨hw.rooted i x u value (Store.lookup?_of_resolve? hu) hvalue, by simp [hu]⟩
      · cases hget

theorem leaves_isResolvable (x : String) : Leaves p w (fun _ _ => True) (isResolvable env x) :=
  fun hw => ⟨hw, .refl _, fun _ _ => trivial⟩

/-- In a scope of its own something may declare what it likes. -/
theorem Leaves.openScope {f : Environment → Run α} (hf : p.base ≤ w.store.next →
    Leaves p ⟨w.store.push, w.output⟩ Q (f (w.store.next :: env))) :
    Leaves p w Q (openScope env >>= f) := by
  intro hw
  obtain ⟨hsound, hspares, hresult⟩ := hf hw.base hw.push
  exact ⟨hsound, (Spares.push _).trans hspares, hresult⟩

/-- A variable keeps its kind when it is set, and a constant cannot be set. -/
theorem leaves_write (x : String) (hv : v.Rooted w.store.next) :
    Leaves p w (fun _ _ => True) (write env x v) := by
  intro hw
  cases hset : w.store.set env x v with
  | error e =>
    rw [write_of_error hset]
    exact ⟨hw, .refl _, fun _ _ => trivial⟩
  | ok t =>
    rw [write_of_set hset]
    unfold Store.set at hset
    split at hset
    · cases hset
    · rename_i i u hu
      split at hset
      · cases hset
      · split at hset
        · cases hset
        · rename_i hconstant
          obtain rfl := Except.ok.inj hset
          have hlookup := Store.lookup?_of_resolve? hu
          refine ⟨hw.declare fun v' hv' => Option.some.inj hv' ▸ hv, ?_, fun _ _ => trivial⟩
          refine .declare _ i x _ (fun _ => .inl (by simp [hlookup])) fun _ u' hu' => ?_
          obtain rfl := Option.some.inj (hlookup.symm.trans hu')
          exact ⟨rfl, fun h => absurd h hconstant⟩

theorem assign_apply (x : String) (v : Value) (w : World) : assign env x v w =
    if (w.store.resolve? x env).isSome then write env x v w
    else (.ok (), { w with store := w.store.declareVar globalScope x v }) := by
  rw [assign, bind_apply, isResolvable_apply]
  cases (w.store.resolve? x env).isSome <;> rfl

/-- A name that no scope has becomes one of the scope of the program, which is among the scopes that
were looked through. -/
theorem leaves_assign (henv : env.Rooted w.store.next) (hv : v.Rooted w.store.next)
    (hgains : w.store.resolve? x env = none → p.gains x) :
    Leaves p w (fun _ _ => True) (assign env x v) := by
  intro hw
  rw [assign_apply]
  split
  · exact leaves_write x hv hw
  · rename_i hnone
    have hglobal : w.store.lookup? globalScope x = none :=
      Option.not_isSome_iff_eq_none.1 fun hsome =>
        hnone (isSome_resolve?_iff.2 ⟨_, henv.globalScope_mem, hsome⟩)
    rw [Store.declareVar_of_none hglobal]
    refine ⟨hw.declare fun v' hv' => Option.some.inj hv' ▸ hv, ?_, fun _ _ => trivial⟩
    refine .declare _ _ x _ (fun _ => .inr ⟨rfl, hgains ?_⟩) fun _ u hu => ?_
    · exact Option.not_isSome_iff_eq_none.1 hnone
    · rw [hglobal] at hu
      cases hu

/-- A change by one reads the variable first, so the name can be seen. -/
theorem leaves_step (henv : env.Rooted w.store.next) (e : Expr) (change : Float → Float) :
    Leaves p w (fun _ _ => True) (step env e change) := by
  unfold step
  split
  · exact .throw _
  · rename_i x _
    refine (leaves_read x).bind fun old w' _ hnext hold => ?_
    have hassign : Leaves p w' (fun _ _ => True)
        (assign env x (.number (change old.toNumber))) := by
      refine leaves_assign (henv.mono hnext) (Value.IsData.rooted rfl)
        fun hnone => ?_
      rw [hnone] at hold
      cases hold.2
    exact hassign.bind_pure fun _ _ _ => trivial

theorem leaves_operate (op : BinaryOp) (a b : Value) :
    Leaves p w RootedResult (operate op a b) := by
  unfold operate
  split
  · rename_i v hv
    exact .pure (Value.isData_of_operate? hv).rooted
  · split <;> exact .throw _

/-! ## Expressions -/

/-- The names that an activity creates are among those that the scope of the program may gain. -/
def Allows (p : Permit) (m : Moment) : Prop :=
  ∀ x, m.Creates x → p.gains x

theorem Allows.of_starts {m m' : Moment} (h : Allows p m) (hstarts : m.Starts m') : Allows p m' :=
  fun x hx => h x (.of_starts hstarts hx)

/-- Calls leave what they have to, if at most `n` may nest. -/
def CallsLeave (p : Permit) (n : Nat) : Prop :=
  ∀ w f args, f.environment.Rooted w.store.next → (∀ v ∈ args, v.Rooted w.store.next) →
    Allows p ⟨n, .call f args, w⟩ → Leaves p w RootedResult (call n f args)

variable {n : Nat}

theorem leaves_apply (hcalls : CallsLeave p n) (callee : String) {f : Value} {args : List Value}
    (hf : f.Rooted w.store.next) (hargs : ∀ v ∈ args, v.Rooted w.store.next)
    (hallows : ∀ g, f = .function g → Allows p ⟨n, .call g args, w⟩) :
    Leaves p w RootedResult (apply (call n) callee f args) := by
  cases f with
  | print =>
    have hprint : Leaves p w (fun _ _ => True) (print args) :=
      fun hw => ⟨hw, .refl _, fun _ _ => trivial⟩
    exact hprint.bind_pure fun _ _ _ => .of_isData rfl
  | function f => exact hcalls w f args (hf f rfl) hargs (hallows f rfl)
  | undefined | null | boolean b | number x | string s => exact .throw _

/-- Evaluating an expression leaves what it has to. -/
def ExprLeaves (p : Permit) (n : Nat) (env : Environment) (e : Expr) : Prop :=
  ∀ w, env.Rooted w.store.next → Allows p ⟨n, .expr env e, w⟩ →
    Leaves p w RootedResult (expr (call n) env e)

theorem leaves_unary {op : PrefixOp} {e : Expr} (he : ExprLeaves p n env e) :
    ExprLeaves p n env (.unary r op e) := by
  intro w henv h
  have hoperand (hincrement : op ≠ .increment) (hdecrement : op ≠ .decrement)
      (hname : op = .typeof ∨ op = .delete → e.name? = none) :
      Leaves p w RootedResult (expr (call n) env e) :=
    he w henv (h.of_starts (.operand hincrement hdecrement hname))
  cases op with
  | increment | decrement => exact (leaves_step henv e _).bind_pure fun _ _ _ => .of_isData rfl
  | typeof =>
    have htext (s : String) {w' : World} : Leaves p w' RootedResult (pure (.string s)) :=
      .pure (.of_isData rfl)
    rw [expr]
    cases hname : e.name? with
    | none =>
      have he := hoperand (by decide) (by decide) fun _ => hname
      refine Leaves.bind (Q := fun _ b => b = true) (.pure rfl) fun b w' hb _ hb' => ?_
      obtain rfl : w = w' := congrArg Prod.snd hb
      rw [if_pos hb']
      exact he.bind fun _ _ _ _ _ => htext _
    | some x =>
      refine (leaves_isResolvable x).bind fun b w' _ _ _ => ?_
      split
      · cases e with
        | ident id => exact (leaves_read id.name).bind fun _ _ _ _ _ => htext _
        | _ => cases hname
      · exact htext _
  | delete =>
    rw [expr]
    split
    · exact (leaves_isResolvable _).bind_pure fun _ _ _ => .of_isData rfl
    · rename_i hname
      exact (hoperand (by decide) (by decide) fun _ => hname).bind_pure fun _ _ _ => .of_isData rfl
  | not | bitNot | plus | minus | void =>
    exact (hoperand (by decide) (by decide) (by simp)).bind_pure fun _ _ _ => .of_isData rfl

/-- An assignment to an undeclared name creates a variable, which is permitted. -/
theorem leaves_assignment {t : Range} {a b : Expr} (hb : ExprLeaves p n env b) :
    ExprLeaves p n env (.binary r .assign t a b) := by
  intro w henv h
  rw [expr]
  split
  · exact .throw _
  · rename_i x hx
    refine (hb w henv (h.of_starts (.assigned hx))).bind fun v w' hv hnext hrooted => ?_
    have hgains (hnone : w'.store.resolve? x env = none) : p.gains x :=
      h x (.of_starts (.assign hx hv) ⟨n, env, v, w', .refl, hnone⟩)
    refine (leaves_assign (henv.mono hnext) hrooted hgains).bind fun _ _ _ hnext' _ => ?_
    exact .pure (hrooted.mono hnext')

theorem leaves_binary {t : Range} {op : BinaryOp} {a b : Expr} (ha : ExprLeaves p n env a)
    (hb : ExprLeaves p n env b) : ExprLeaves p n env (.binary r op t a b) := by
  by_cases hassign : op = .assign
  · exact hassign ▸ leaves_assignment hb
  intro w henv h
  have hleft := ha w henv (h.of_starts (.left hassign))
  have hright {v : Value} {w' : World} (ha : expr (call n) env a w = (.ok v, w'))
      (hnext : w.store.next ≤ w'.store.next) (hand : op = .and → v.toBoolean = true)
      (hor : op = .or → v.toBoolean = false) : Leaves p w' RootedResult (expr (call n) env b) :=
    hb w' (henv.mono hnext) (h.of_starts (.right hassign ha hand hor))
  cases op with
  | assign => exact absurd rfl hassign
  | and =>
    refine hleft.bind fun v w' ha hnext hv => ?_
    split
    · rename_i htrue
      exact hright ha hnext (fun _ => htrue) (by simp)
    · exact .pure hv
  | or =>
    refine hleft.bind fun v w' ha hnext hv => ?_
    split
    · exact .pure hv
    · rename_i hfalse
      exact hright ha hnext (by simp) fun _ => Bool.eq_false_iff.2 hfalse
  | comma => exact hleft.bind fun v w' ha hnext _ => hright ha hnext (by simp) (by simp)
  | _ =>
    exact hleft.bind fun v w' ha hnext _ =>
      (hright ha hnext (by simp) (by simp)).bind fun u _ _ _ _ => leaves_operate _ v u

mutual

theorem leaves_expr (hcalls : CallsLeave p n) (e : Expr) : ExprLeaves p n env e := by
  intro w henv h
  cases e with
  | ident id => exact (leaves_read id.name).imp fun _ _ hv => hv.1
  | number lit | string lit | boolean _ b | null _ => exact .pure (.of_isData rfl)
  | paren _ e => exact leaves_expr hcalls e w henv (h.of_starts .paren)
  | unary r op e => exact leaves_unary (leaves_expr hcalls e) w henv h
  | update _ op e => exact (leaves_step henv e _).bind_pure fun _ _ _ => .of_isData rfl
  | binary r op t a b =>
    exact leaves_binary (leaves_expr hcalls a) (leaves_expr hcalls b) w henv h
  | call r isOptional f args =>
    cases isOptional with
    | true => exact .throw _
    | false =>
      rw [expr, if_neg (by decide)]
      split
      · exact .throw _
      · rename_i callee hcallee
        refine (leaves_read callee).bind fun g w' hg hnext hrooted => ?_
        refine (leaves_exprs hcalls args (henv.mono hnext) (h.of_starts (.args hcallee hg))).bind
          fun vs w'' hvs hnext' hargs => ?_
        refine leaves_apply hcalls callee (hrooted.1.mono hnext') hargs fun f' hf' => ?_
        subst hf'
        exact h.of_starts (.call hcallee hg hvs)
  | other m => exact .throw _

theorem leaves_exprs (hcalls : CallsLeave p n) (es : List Expr) {w : World}
    (henv : env.Rooted w.store.next) (h : Allows p ⟨n, .exprs env es, w⟩) :
    Leaves p w (fun s vs => ∀ v ∈ vs, v.Rooted s.next) (exprs (call n) env es) := by
  cases es with
  | nil => exact .pure (forall_mem_nil _)
  | cons e es =>
    refine (leaves_expr hcalls e _ henv (h.of_starts .firstExpr)).bind
      fun v w' hv hnext hrooted => ?_
    refine (leaves_exprs hcalls es (henv.mono hnext) (h.of_starts (.laterExprs hv))).bind
      fun vs w'' _ hnext' hargs => ?_
    exact .pure (forall_mem_cons.2 ⟨hrooted.mono hnext', hargs⟩)

end

/-! ## Declarations -/

theorem lookup?_declareAll_cases {i j : Nat} {y : String} {w : Variable}
    {ds : List (String × Variable)} (h : (s.declareAll i ds).lookup? j y = some w) :
    s.lookup? j y = some w ∨ (y, w) ∈ ds := by
  induction ds generalizing s with
  | nil => exact .inl h
  | cons d ds ih =>
    rcases ih h with hw | hmem
    · rcases lookup?_declare_cases s i d.1 d.2 j y with heq | ⟨-, rfl, heq⟩
      · exact .inl (heq ▸ hw)
      · obtain rfl := Option.some.inj (heq.symm.trans hw)
        exact .inr mem_cons_self
    · exact .inr (mem_cons_of_mem _ hmem)

/-- What a list of statements declares with a value is its functions. -/
theorem exists_function_of_mem_declarations {ss : List Stmt} {w : Variable}
    (hmem : (x, w) ∈ declarations env ss) (hv : w.value = some v) :
    ∃ head body, v = .function ⟨env, head, body⟩ := by
  obtain ⟨st, hst, hmem⟩ := mem_flatMap.1 hmem
  cases st with
  | vars _ _ kind ds =>
    simp only [declarationsOf] at hmem
    split at hmem
    · obtain ⟨y, -, heq⟩ := mem_map.1 hmem
      cases heq
      cases hv
    · cases hmem
  | function head body =>
    obtain ⟨y, -, heq⟩ := mem_map.1 hmem
    cases heq
    exact ⟨head, body, (Option.some.inj hv).symm⟩
  | block _ _ | empty _ | expression _ _ | return_ _ _ | other _ => cases hmem

/-- Entering a list of statements in a new scope. -/
theorem leaves_declareList (ss : List Stmt) (henv : env.Rooted w.store.next)
    (hnew : p.base ≤ innermost env) :
    Leaves p w (fun _ _ => True) (modifyStore (declareList env ss)) := by
  refine .modifyStore fun hw => ?_
  rw [declareList_eq]
  refine ⟨⟨by simpa using hw.base, fun i x u v hu hv => ?_⟩, .declareAll hnew _ _, trivial⟩
  rw [Store.next_declareAll]
  rcases lookup?_declareAll_cases hu with hu | hmem
  · exact hw.rooted i x u v hu hv
  · obtain ⟨head, body, rfl⟩ := exists_function_of_mem_declarations hmem hv
    intro f hf
    cases hf
    exact henv

theorem leaves_declareVars (ss : List Stmt) (hnew : p.base ≤ innermost env) :
    Leaves p w (fun _ _ => True) (modifyStore (declareVars env ss)) := by
  refine .modifyStore fun hw => ?_
  unfold declareVars
  generalize w.store = s at hw
  induction varNamesOfList ss generalizing s with
  | nil => exact ⟨hw, .refl _, trivial⟩
  | cons x xs ih =>
    have hfirst : Sound p (s.declareVar (innermost env) x .undefined) ∧
        Spares p s (s.declareVar (innermost env) x .undefined) := by
      unfold Store.declareVar
      split
      · exact ⟨hw, .refl _⟩
      · refine ⟨hw.declare fun v hv => ?_, .declareNew hnew ..⟩
        obtain rfl := Option.some.inj hv
        exact Value.IsData.rooted rfl
    obtain ⟨hsound, hspares, -⟩ := ih _ hfirst.1
    exact ⟨hsound, hfirst.2.trans hspares, trivial⟩

/-! ## Statements -/

theorem leaves_setInitial (hv : v.Rooted w.store.next)
    (hown : p.base ≤ innermost env ∨ p.own (innermost env) x) :
    Leaves p w (fun _ _ => True) (modifyStore (·.setInitial (innermost env) x v)) := by
  refine .modifyStore fun hw => ?_
  cases hlookup : w.store.lookup? (innermost env) x with
  | none =>
    simp only [Store.setInitial, hlookup]
    exact ⟨hw, .refl _, trivial⟩
  | some u =>
    rw [Store.setInitial_of_some hlookup]
    refine ⟨hw.declare fun v' hv' => Option.some.inj hv' ▸ hv, ?_, trivial⟩
    refine .declare _ _ x _ (fun _ => .inl (by simp [hlookup])) fun hold u' hu' => ?_
    obtain rfl := Option.some.inj (hlookup.symm.trans hu')
    exact ⟨rfl, fun _ _ => hown.resolve_left (Nat.not_le.2 hold)⟩

/-- The block variables of a declaration may be given a value. -/
def Owns (p : Permit) (env : Environment) (names : List String) : Prop :=
  ∀ x ∈ names, p.base ≤ innermost env ∨ p.own (innermost env) x

theorem leaves_declarator (hcalls : CallsLeave p n) {kind : VarKind} {d : Declarator}
    {ds : List Declarator} (henv : env.Rooted w.store.next)
    (h : Allows p ⟨n, .declarators env kind (d :: ds), w⟩)
    (hown : kind.isBlockScoped = true → Owns p env d.target.name?.toList) :
    Leaves p w (fun _ _ => True) (declarator (call n) env kind d) := by
  obtain ⟨r, target, init⟩ := d
  cases target with
  | pattern m => exact .throw _
  | name id =>
    have hset (v : Value) (hkind : kind.isBlockScoped = true) {w' : World}
        (hv : v.Rooted w'.store.next) : Leaves p w' (fun _ _ => True)
          (modifyStore (·.setInitial (innermost env) id.name v)) :=
      leaves_setInitial hv (hown hkind id.name mem_cons_self)
    cases init with
    | some e =>
      refine (leaves_expr hcalls e _ henv (h.of_starts .init)).bind fun v w' _ _ hv => ?_
      split
      · exact hset v ‹_› hv
      · exact leaves_write _ hv
    | none =>
      simp only [declarator]
      split
      · exact hset .undefined ‹_› (Value.IsData.rooted rfl)
      · exact .pure trivial

theorem leaves_declarators (hcalls : CallsLeave p n) {kind : VarKind} (ds : List Declarator)
    {w : World} (henv : env.Rooted w.store.next) (h : Allows p ⟨n, .declarators env kind ds, w⟩)
    (hown : kind.isBlockScoped = true → Owns p env (ds.filterMap (·.target.name?))) :
    Leaves p w (fun _ _ => True) (declarators (call n) env kind ds) := by
  induction ds generalizing w with
  | nil => exact .pure trivial
  | cons d ds ih =>
    have hfirst : Leaves p w (fun _ _ => True) (declarator (call n) env kind d) := by
      refine leaves_declarator hcalls henv h fun hkind x hx => hown hkind x ?_
      exact mem_filterMap.2 ⟨d, mem_cons_self, Option.mem_toList.1 hx⟩
    refine hfirst.bind fun _ w' hd hnext _ =>
      ih (henv.mono hnext) (h.of_starts (.laterDeclarators hd)) fun hkind x hx => hown hkind x ?_
    obtain ⟨d', hd', hx⟩ := mem_filterMap.1 hx
    exact mem_filterMap.2 ⟨d', mem_cons_of_mem _ hd', hx⟩

/-- What a statement gives back is rooted. -/
def RootedCompletion (s : Store) : Completion → Prop
  | .normal => True
  | .returned v => v.Rooted s.next

mutual

theorem leaves_stmt (hcalls : CallsLeave p n) (st : Stmt) {env : Environment} {w : World}
    (henv : env.Rooted w.store.next) (h : Allows p ⟨n, .stmt env st, w⟩)
    (hown : Owns p env st.blockVariables) :
    Leaves p w RootedCompletion (stmt (call n) env st) := by
  cases st with
  | vars _ _ kind ds =>
    have hnames (hkind : kind.isBlockScoped = true) :
        Owns p env (ds.filterMap (·.target.name?)) := by
      simpa only [Stmt.blockVariables, if_pos hkind] using hown
    exact (leaves_declarators hcalls ds henv (h.of_starts .vars) hnames).bind_pure
      fun _ _ _ => trivial
  | function head body => exact .pure trivial
  | empty _ => exact .pure trivial
  | block _ ss =>
    rw [stmt]
    refine .openScope fun hnew => ?_
    have hinner : Environment.Rooted (w.store.next :: env) w.store.push.next := henv.push
    refine (leaves_declareList ss hinner hnew).bind fun _ w' hw' hnext _ => ?_
    obtain rfl : _ = w' := congrArg Prod.snd hw'
    exact leaves_stmts hcalls ss (hinner.mono hnext) (h.of_starts .block) hnew
  | expression _ e =>
    exact (leaves_expr hcalls e _ henv (h.of_starts .expression)).bind_pure fun _ _ _ => trivial
  | return_ _ e =>
    cases e with
    | none => exact .pure (Value.IsData.rooted rfl)
    | some e =>
      exact (leaves_expr hcalls e _ henv (h.of_starts .return_)).bind_pure fun _ _ hv => hv
  | other m => exact .throw _

theorem leaves_stmts (hcalls : CallsLeave p n) (ss : List Stmt) {env : Environment} {w : World}
    (henv : env.Rooted w.store.next) (h : Allows p ⟨n, .stmts env ss, w⟩)
    (hnew : p.base ≤ innermost env) : Leaves p w RootedCompletion (stmts (call n) env ss) := by
  cases ss with
  | nil => exact .pure trivial
  | cons st ss =>
    rw [stmts_cons]
    refine (leaves_stmt hcalls st henv (h.of_starts .firstStmt) fun _ _ => .inl hnew).bind
      fun c w' hc hnext hrooted => ?_
    cases c with
    | returned v => exact .pure hrooted
    | normal => exact leaves_stmts hcalls ss (henv.mono hnext) (h.of_starts (.laterStmts hc)) hnew

end

/-- The body of a function or program. -/
theorem leaves_body (hcalls : CallsLeave p n) (ss : List Stmt) (henv : env.Rooted w.store.next)
    (h : Allows p ⟨n, .body env ss, w⟩) (hnew : p.base ≤ innermost env) :
    Leaves p w RootedCompletion (body (call n) env ss) := by
  refine (leaves_declareVars ss hnew).bind fun _ w₁ hw₁ hnext₁ _ => ?_
  refine (leaves_declareList ss (henv.mono hnext₁) hnew).bind fun _ w₂ hw₂ hnext₂ _ => ?_
  obtain rfl : _ = w₁ := congrArg Prod.snd hw₁
  obtain rfl : _ = w₂ := congrArg Prod.snd hw₂
  exact leaves_stmts hcalls ss (henv.mono (Nat.le_trans hnext₁ hnext₂)) (h.of_starts .body) hnew

/-! ## Calls -/

theorem leaves_bindParams (hnew : p.base ≤ innermost env) (ps : List Param) {args : List Value}
    {w : World} (hargs : ∀ v ∈ args, v.Rooted w.store.next) :
    Leaves p w (fun _ _ => True) (bindParams env ps args) := by
  induction ps generalizing args w with
  | nil => exact .pure trivial
  | cons param ps ih =>
    rw [bindParams]
    split
    · exact .throw _
    · rename_i x _
      have hvalue : (args.headD .undefined).Rooted w.store.next := by
        cases args with
        | nil => exact Value.IsData.rooted rfl
        | cons v vs => exact hargs v mem_cons_self
      have hdeclare : Leaves p w (fun _ _ => True) (modifyStore (·.declare (innermost env) x
          { value := some (args.headD .undefined), kind := .parameter })) :=
        .modifyStore fun hw =>
          ⟨hw.declare fun v hv => Option.some.inj hv ▸ hvalue, .declareNew hnew .., trivial⟩
      exact hdeclare.bind fun _ w' _ hnext _ => ih fun v hv =>
        (hargs v (mem_of_mem_tail hv)).mono hnext

/-- A call jumps to a body that was found in a variable and runs it in a new scope. The number of
calls that may still nest decreases, so it is an induction on that. -/
theorem leaves_call (p : Permit) (n : Nat) : CallsLeave p n := by
  induction n with
  | zero => exact fun _ _ _ _ _ _ => .throw _
  | succ n ih =>
    intro w f args hf hargs h
    rw [call]
    refine .openScope fun hnew => ?_
    have henv : Environment.Rooted (w.store.next :: f.environment) w.store.push.next := hf.push
    have hpush := Nat.le_of_lt w.store.next_lt_push
    refine (leaves_bindParams hnew _ fun v hv => (hargs v hv).mono hpush).bind
      fun _ w' hw' hnext _ => ?_
    refine (leaves_body ih _ (henv.mono hnext) (h.of_starts (.enter hw')) hnew).bind
      fun c _ _ _ hc => ?_
    cases c with
    | returned v => exact .pure hc
    | normal => exact .pure (.of_isData rfl)

end

/-! ## Reachable worlds -/

/-- All is permitted. -/
def Permit.all : Permit :=
  ⟨0, fun _ _ => True, fun _ => True⟩

theorem Permit.allows_all (m : Moment) : Allows .all m :=
  fun _ _ => trivial

/-- The environment and the values of an activity are rooted. -/
def Activity.Rooted (next : Nat) : Activity → Prop
  | .expr env _ | .exprs env _ | .declarators env _ _ | .stmt env _ | .stmts env _
  | .body env _ => env.Rooted next
  | .assign env _ v => env.Rooted next ∧ v.Rooted next
  | .call f args => f.environment.Rooted next ∧ ∀ v ∈ args, v.Rooted next

/-- The world of a moment is rooted, and so is what is run in it. -/
structure Moment.Rooted (m : Moment) : Prop where
  store : m.world.store.Rooted
  activity : m.activity.Rooted m.world.store.next

/-- A result that is reached in a rooted store. -/
theorem Leaves.of_eq {w w' : World} {α : Type} {Q : Store → α → Prop} {m : Run α} {a : α}
    (hm : Leaves .all w Q m) (hw : w.store.Rooted) (h : m w = (.ok a, w')) :
    w'.store.Rooted ∧ w.store.next ≤ w'.store.next ∧ Q w'.store a := by
  obtain ⟨hsound, hspares, hresult⟩ := hm ⟨Nat.zero_le _, hw⟩
  rw [h] at hsound hspares hresult
  exact ⟨hsound.rooted, hspares.next, hresult a rfl⟩

theorem Moment.Starts.rooted {m m' : Moment} (h : m.Starts m') (hm : m.Rooted) : m'.Rooted := by
  obtain ⟨hw, henv⟩ := hm
  have hcalls (n : Nat) : CallsLeave .all n := leaves_call .all n
  have hallows (m : Moment) : Allows .all m := Permit.allows_all m
  cases h with
  | paren | operand | left | assigned | firstExpr | init | vars | expression | return_
  | firstStmt => exact ⟨hw, henv⟩
  | right _ ha =>
    obtain ⟨hw', hnext, -⟩ := (leaves_expr (hcalls _) _ _ henv (hallows _)).of_eq hw ha
    exact ⟨hw', henv.mono hnext⟩
  | assign _ hb =>
    obtain ⟨hw', hnext, hv⟩ := (leaves_expr (hcalls _) _ _ henv (hallows _)).of_eq hw hb
    exact ⟨hw', henv.mono hnext, hv⟩
  | args _ hread =>
    obtain ⟨hw', hnext, -⟩ := (leaves_read _).of_eq hw hread
    exact ⟨hw', henv.mono hnext⟩
  | call _ hread hargs =>
    obtain ⟨hw', hnext, hf⟩ := (leaves_read _).of_eq hw hread
    have henv' := Environment.Rooted.mono henv hnext
    obtain ⟨hw'', hnext', hvs⟩ := (leaves_exprs (hcalls _) _ henv' (hallows _)).of_eq hw' hargs
    exact ⟨hw'', (hf.1.mono hnext') _ rfl, hvs⟩
  | laterExprs he =>
    obtain ⟨hw', hnext, -⟩ := (leaves_expr (hcalls _) _ _ henv (hallows _)).of_eq hw he
    exact ⟨hw', henv.mono hnext⟩
  | laterDeclarators hd =>
    obtain ⟨hw', hnext, -⟩ := (leaves_declarator (hcalls _) henv
      (hallows ⟨_, .declarators _ _ [_], _⟩) fun _ _ _ => .inl (Nat.zero_le _)).of_eq hw hd
    exact ⟨hw', henv.mono hnext⟩
  | @block n env _ ss w =>
    have hinner : Environment.Rooted (w.store.next :: env) w.store.push.next :=
      Environment.Rooted.push henv
    have hleaves := leaves_declareList (p := .all) (w := ⟨w.store.push, w.output⟩) ss hinner
      (Nat.zero_le _)
    obtain ⟨hw', hnext, -⟩ := hleaves.of_eq hw.push rfl
    exact ⟨hw', hinner.mono hnext⟩
  | laterStmts hs =>
    obtain ⟨hw', hnext, -⟩ := (leaves_stmt (hcalls _) _ henv (hallows _)
      fun _ _ => .inl (Nat.zero_le _)).of_eq hw hs
    exact ⟨hw', henv.mono hnext⟩
  | @body n env ss w =>
    have hvars := leaves_declareVars (p := .all) (w := w) ss (Nat.zero_le (innermost env))
    obtain ⟨hw₁, hnext₁, -⟩ := hvars.of_eq hw rfl
    have henv₁ := Environment.Rooted.mono henv hnext₁
    obtain ⟨hw₂, hnext₂, -⟩ := (leaves_declareList ss henv₁ (Nat.zero_le _)).of_eq hw₁ rfl
    exact ⟨hw₂, henv₁.mono hnext₂⟩
  | @enter n f args w w' hparams =>
    obtain ⟨hf, hargs⟩ := henv
    have hpush := Nat.le_of_lt w.store.next_lt_push
    have hleaves := leaves_bindParams (p := .all) (w := ⟨w.store.push, w.output⟩)
      (Nat.zero_le (innermost (w.store.next :: f.environment))) f.head.params
      fun v hv => (hargs v hv).mono hpush
    obtain ⟨hw', hnext, -⟩ := hleaves.of_eq hw.push hparams
    exact ⟨hw', hf.push.mono hnext⟩

theorem Moment.Reaches.rooted {m m' : Moment} (h : m.Reaches m') (hm : m.Rooted) : m'.Rooted := by
  induction h with
  | refl => exact hm
  | tail _ hstarts ih => exact hstarts.rooted ih

/-- An activity leaves a rooted world, also when it fails. -/
theorem Moment.Rooted.after {m : Moment} (hm : m.Rooted) : m.after.store.Rooted := by
  obtain ⟨n, activity, w⟩ := m
  obtain ⟨hw, henv⟩ := hm
  have hsound : Sound .all w.store := ⟨Nat.zero_le _, hw⟩
  have hcalls : CallsLeave .all n := leaves_call .all n
  have hallows := Permit.allows_all ⟨n, activity, w⟩
  cases activity with
  | expr env e => exact (leaves_expr hcalls e _ henv hallows hsound).1.rooted
  | exprs env es => exact (leaves_exprs hcalls es henv hallows hsound).1.rooted
  | assign env x v => exact (leaves_assign henv.1 henv.2 (fun _ => trivial) hsound).1.rooted
  | declarators env kind ds =>
    exact (leaves_declarators hcalls ds henv hallows
      (fun _ _ _ => .inl (Nat.zero_le _)) hsound).1.rooted
  | stmt env st =>
    exact (leaves_stmt hcalls st henv hallows (fun _ _ => .inl (Nat.zero_le _)) hsound).1.rooted
  | stmts env ss => exact (leaves_stmts hcalls ss henv hallows (Nat.zero_le _) hsound).1.rooted
  | body env ss => exact (leaves_body hcalls ss henv hallows (Nat.zero_le _) hsound).1.rooted
  | call f args => exact (hcalls w f args henv.1 henv.2 hallows hsound).1.rooted

theorem rooted_initial : World.initial.store.Rooted := by
  intro i x w v hw hv
  rw [store_initial] at hw
  rcases lookup?_declare_cases _ globalScope "print" ⟨some .print, .var⟩ i x with heq | ⟨-, -, heq⟩
  · rw [heq, Store.lookup?_push, Store.lookup?_of_le (Nat.zero_le i)] at hw
    cases hw
  · obtain rfl := Option.some.inj (heq.symm.trans hw)
    obtain rfl := Option.some.inj hv
    exact Value.rooted_of_ne (by simp)

/-- All worlds that come up in the runs of programs are rooted. -/
theorem Reachable.rooted {w : World} (h : Reachable w) : w.store.Rooted := by
  obtain ⟨limit, p, m, hreaches, hw⟩ := h
  have hstart : (Moment.ofProgram limit p).Rooted :=
    ⟨rooted_initial, rfl, forall_mem_singleton.2 (Nat.zero_lt_one)⟩
  have hm := hreaches.rooted hstart
  rcases hw with rfl | rfl
  · exact hm.store
  · exact hm.after

/-! ## Statements in reachable worlds -/

/-- What a statement may change in the scopes that are open when it is run: the block variables that
it declares, in the scope it is run in, and the names that are created while it is run. -/
def Permit.ofStmt (remaining : Nat) (env : Environment) (st : Stmt) (w : World) : Permit where
  base := w.store.next
  own i x := i = innermost env ∧ x ∈ st.blockVariables
  gains := Moment.Creates ⟨remaining, .stmt env st, w⟩

/-- **Bindings.** Running a statement, the functions it calls included, changes nothing but the
values of variables in the scopes that were open before: no scope loses or gains a name, except that
the scope of the program may gain names that are assigned while no scope around the assignment has
them. No variable changes its kind, and a constant that has a value keeps it, unless the statement
itself declares it in that scope. That holds however the statement ends. -/
theorem stmt_spares_older_scopes {w : World} {env : Environment} (hw : Reachable w)
    (henv : env.Rooted w.store.next) (remaining : Nat) (st : Stmt) :
    Spares (.ofStmt remaining env st w) w.store (stmt (call remaining) env st w).2.store := by
  have hleaves := leaves_stmt (leaves_call (.ofStmt remaining env st w) remaining) st henv
    (fun _ hx => hx) fun x hx => .inr ⟨rfl, hx⟩
  exact (hleaves ⟨Nat.le_refl _, hw.rooted⟩).2.1

/-- The world after a program with a constant and with a function that assigns another name. -/
def declared : World :=
  (Moment.ofProgram 1
    (Parsed.ofText "a" "const c=true;function f()\x7bn=c\x7d").program).after

/-- Calls the function. -/
def calling : Stmt :=
  .expression default (.call default false (.ident ⟨default, "f", false⟩) [])

theorem calling_spares_declared : Reachable declared ∧
    Environment.Rooted [globalScope] declared.store.next ∧
    Spares (.ofStmt 1 [globalScope] calling declared) declared.store
      (stmt (call 1) [globalScope] calling declared).2.store ∧
    (declared.store.lookup? globalScope "n").isNone ∧
    ((stmt (call 1) [globalScope] calling declared).2.store.lookup? globalScope "n").isSome := by
  have hw : Reachable declared := ⟨1, _, _, .refl, .inr rfl⟩
  have henv : Environment.Rooted [globalScope] declared.store.next :=
    ⟨rfl, List.forall_mem_singleton.2 (by decide +kernel)⟩
  exact ⟨hw, henv, stmt_spares_older_scopes hw henv 1 calling, by decide +kernel, by decide +kernel⟩

end Execution

end LambdaLift
