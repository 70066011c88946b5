import LambdaLift.Grammar.Recursion
import LambdaLift.Proofs.Execution.Lockstep

/-!
# Running comes to an end

A call goes on with a body that has been found in a variable, which may be any body of the program,
the one that it stands in included. Here that recursion is written out: the parts of a program are
run by evaluators that know each other only from the level below, and a counter in the state of the
machine says how many calls the program is in.

* `Levels.evaluators limit n`: what the parts of a program do with `n` levels. Every evaluation of
  an expression, a statement or a call takes one, and without levels there is no result.
* `Levels.Same height d m' m`: with levels, and in `d` calls, a step does what it does without
  counting levels and calls, and the counter is as before, also if the step fails.
* `run_within_levels`: the levels that a program takes are bounded by the number of calls that may
  nest and the height of the program. With that many it prints the same or fails in the same way.
-/

namespace LambdaLift

open Stmt

/-! ## How high programs are -/

mutual

/-- The levels that evaluating an expression takes, without those of calls. -/
def Expr.levels : Expr → Nat
  | .paren _ e | .unary _ _ e | .update _ _ e => e.levels + 1
  | .binary _ _ _ a b => max a.levels b.levels + 1
  | .call _ _ _ args => Expr.levelsOfList args + 1
  | _ => 1

/-- The levels that evaluating expressions takes. -/
def Expr.levelsOfList : List Expr → Nat
  | [] => 0
  | e :: es => max e.levels (Expr.levelsOfList es)

end

/-- The levels that an initial value takes. -/
def Declarator.levels (d : Declarator) : Nat :=
  d.init.elim 0 Expr.levels

/-- The levels that the initial values of variables take. -/
def Declarator.levelsOfList : List Declarator → Nat
  | [] => 0
  | d :: ds => max d.levels (Declarator.levelsOfList ds)

mutual

/-- The levels that a statement takes, without those of calls. A function takes those of its
body, so that no function in it is higher. -/
def Stmt.levels : Stmt → Nat
  | .vars _ _ _ ds => Declarator.levelsOfList ds + 1
  | .function _ body | .block _ body => levelsOfList body + 1
  | .expression _ e => e.levels + 1
  | .return_ _ e => e.elim 0 Expr.levels + 1
  | .empty _ | .other _ => 1

/-- The levels that statements take. -/
def Stmt.levelsOfList : List Stmt → Nat
  | [] => 0
  | s :: ss => max s.levels (levelsOfList ss)

end

theorem Stmt.levels_le_of_mem {s : Stmt} {ss : List Stmt} (h : s ∈ ss) :
    s.levels ≤ levelsOfList ss := by
  induction ss with
  | nil => cases h
  | cons t ss ih =>
    rw [levelsOfList]
    rcases List.mem_cons.1 h with rfl | h
    · exact Nat.le_max_left ..
    · exact Nat.le_trans (ih h) (Nat.le_max_right ..)

namespace Execution

/-- All bodies take at most `height` levels. -/
abbrev upTo (height : Nat) : Leeway where
  bodies ss ts := ts = ss ∧ levelsOfList ss ≤ height

theorem matches_of_levels {height : Nat} {s : Stmt} (h : s.levels ≤ height) :
    s.Matches (upTo height) s := by
  cases s with
  | block r body => exact .block r ⟨rfl, Nat.le_of_succ_le h⟩
  | function head body => exact .function False.elim ⟨rfl, Nat.le_of_succ_le h⟩
  | _ => exact .plain rfl False.elim

theorem forall₂_of_levels {height : Nat} {ss : List Stmt} (h : levelsOfList ss ≤ height) :
    List.Forall₂ (Stmt.Matches (upTo height)) ss ss :=
  List.forall₂_same.2 fun _ hs => matches_of_levels (Nat.le_trans (levels_le_of_mem hs) h)

theorem listsMatch_levels (height : Nat) : ListsMatch (upTo height) := by
  rintro _ ss ⟨rfl, hss⟩
  exact ⟨ss, forall₂_of_levels hss, .refl ss⟩

/-! ## Evaluation level by level -/

/-- A running program: its world, and the number of calls that it is in. -/
structure Machine where
  world : World
  depth : Nat

/-- A step of a program that may run out of levels. Then it has no result, not even a failure. -/
abbrev Bounded (α : Type) := ExceptT EvalError (StateT Machine Option) α

namespace Levels

/-- A step that takes no levels. -/
def lift {α : Type} (m : Run α) : Bounded α :=
  fun s => some ((m s.world).1, { s with world := (m s.world).2 })

/-- Counts a call while a step runs. The call is over also when the step fails. -/
def inCall {α : Type} (m : Bounded α) : Bounded α :=
  fun s => (m { s with depth := s.depth + 1 }).map fun r =>
    (r.1, { r.2 with depth := r.2.depth - 1 })

/-- The number of calls that the program is in. -/
def depth : Bounded Nat :=
  fun s => some (.ok s.depth, s)

/-- What expressions, statements and calls do. -/
structure Evaluators where
  expr : Environment → Expr → Bounded Value
  stmt : Environment → Stmt → Bounded Completion
  call : Closure → List Value → Bounded Value

section

variable (g : Evaluators) (env : Environment)

/-- Calls what the name `callee` stands for. -/
def apply (callee : String) (f : Value) (args : List Value) : Bounded Value :=
  match f with
  | .print => do
    lift (print args)
    return .undefined
  | .function f => g.call f args
  | _ => throw (.notCallable callee)

/-- Evaluates expressions one after another. -/
def exprs : List Expr → Bounded (List Value)
  | [] => return []
  | e :: es => do
    let v ← g.expr env e
    return v :: (← exprs es)

/-- Evaluates an expression. -/
def expr : Expr → Bounded Value
  | .ident id => lift (read env id.name)
  | .number lit => return .number lit.value
  | .string lit => return .string lit.value
  | .boolean _ b => return .boolean b
  | .null _ => return .null
  | .paren _ e => g.expr env e
  | .unary _ op e =>
    match op with
    | .increment => do return .number (← lift (step env e increment)).2
    | .decrement => do return .number (← lift (step env e decrement)).2
    | .typeof => do
      if ← lift (e.name?.elim (pure true) (isResolvable env)) then
        return .string (← g.expr env e).typeOf
      else
        return .string Value.undefined.typeOf
    | .delete =>
      match e.name? with
      | some name => do return .boolean (!(← lift (isResolvable env name)))
      | none => do
        let _ ← g.expr env e
        return .boolean true
    | .not => do return .boolean (!(← g.expr env e).toBoolean)
    | .bitNot => do return .ofInt32 (~~~(← g.expr env e).toInt32)
    | .plus => do return .number (← g.expr env e).toNumber
    | .minus => do return .number (-(← g.expr env e).toNumber)
    | .void => do
      let _ ← g.expr env e
      return .undefined
  | .update _ op e => do return .number (← lift (step env e (updateChange op))).1
  | .binary _ op _ a b =>
    match op with
    | .assign =>
      match a.name? with
      | none => throw (.unsupported a.kind)
      | some name => do
        let v ← g.expr env b
        lift (assign env name v)
        return v
    | .and => do
      let v ← g.expr env a
      if v.toBoolean then g.expr env b else return v
    | .or => do
      let v ← g.expr env a
      if v.toBoolean then return v else g.expr env b
    | .comma => do
      let _ ← g.expr env a
      g.expr env b
    | op => do
      let v ← g.expr env a
      let w ← g.expr env b
      lift (operate op v w)
  | .call _ isOptional f args =>
    if isOptional then throw (.unsupported (.node .callExpression))
    else
      match f.name? with
      | none => throw (.unsupported f.kind)
      | some callee => do
        let h ← lift (read env callee)
        apply g callee h (← exprs g env args)
  | .other n => throw (.unsupported n.kind)

/-- Gives a declared variable its initial value. -/
def declarator (kind : VarKind) (d : Declarator) : Bounded Unit :=
  match d.target with
  | .pattern n => throw (.unsupported n.kind)
  | .name id =>
    match d.init with
    | some e => do
      let v ← g.expr env e
      if kind.isBlockScoped then
        lift (modifyStore (·.setInitial (innermost env) id.name v))
      else
        lift (write env id.name v)
    | none =>
      if kind.isBlockScoped then
        lift (modifyStore (·.setInitial (innermost env) id.name .undefined))
      else
        return ()

/-- Gives declared variables their initial values, one after another. -/
def declarators (kind : VarKind) : List Declarator → Bounded Unit
  | [] => return ()
  | d :: ds => do
    declarator g env kind d
    declarators kind ds

/-- Runs statements one after another, up to a return. -/
def stmts : List Stmt → Bounded Completion
  | [] => return .normal
  | s :: ss => do
    match ← g.stmt env s with
    | .returned v => return .returned v
    | .normal => stmts ss

/-- Runs a statement. -/
def stmt : Stmt → Bounded Completion
  | .vars _ _ kind ds => do
    declarators g env kind ds
    return .normal
  | .function .. | .empty _ => return .normal
  | .block _ body => do
    let inner ← lift (openScope env)
    lift (modifyStore (declareList inner body))
    stmts g inner body
  | .expression _ e => do
    let _ ← g.expr env e
    return .normal
  | .return_ _ e =>
    match e with
    | some e => do return .returned (← g.expr env e)
    | none => return .returned .undefined
  | .other n => throw (.unsupported n.kind)

/-- Runs the body of a function or a program. -/
def body (statements : List Stmt) : Bounded Completion := do
  lift (modifyStore (declareVars env statements))
  lift (modifyStore (declareList env statements))
  stmts g env statements

/-- Calls a declared function, if the program is in fewer than `limit` calls. -/
def call (limit : Nat) (f : Closure) (args : List Value) : Bounded Value := do
  if limit ≤ (← depth) then
    throw .stackOverflow
  else
    let inner ← lift (openScope f.environment)
    lift (bindParams inner f.head.params args)
    match ← inCall (body g inner f.body) with
    | .returned v => return v
    | .normal => return .undefined

end

/-- What the parts of a program do with a number of levels. -/
def evaluators (limit : Nat) : Nat → Evaluators
  | 0 => ⟨fun _ _ _ => none, fun _ _ _ => none, fun _ _ _ => none⟩
  | n + 1 =>
    let g := evaluators limit n
    ⟨expr g, stmt g, call g limit⟩

theorem evaluators_expr (limit n : Nat) :
    (evaluators limit (n + 1)).expr = expr (evaluators limit n) := rfl

theorem evaluators_call (limit n : Nat) :
    (evaluators limit (n + 1)).call = call (evaluators limit n) limit := rfl

/-- What a program prints, and the number of calls that it is in at the end. -/
def run (limit levels : Nat) (p : Program) : Option (Except EvalError String × Nat) :=
  (body (evaluators limit levels) [globalScope] p.statements ⟨World.initial, 0⟩).map fun r =>
    (outcome (r.1, r.2.world), r.2.depth)

/-! ## Levels that suffice -/

/-- In `d` calls and with levels, the step `m'` does what `m` does, and the program is in `d` calls
again. -/
def Same (height d : Nat) {α : Type} (m' : Bounded α) (m : Run α) : Prop :=
  ∀ w : World, w.Matches (upTo height) w → m' ⟨w, d⟩ = some ((m w).1, ⟨(m w).2, d⟩)

section

variable {height d : Nat} {α β : Type} {Q : α → α → Prop}

theorem Same.lift (m : Run α) : Same height d (lift m) m :=
  fun _ _ => rfl

theorem Same.pure (a : α) : Same height d (pure a : Bounded α) (pure a) :=
  fun _ _ => rfl

theorem Same.throw (e : EvalError) : Same height d (throw e : Bounded α) (throw e) :=
  fun _ _ => rfl

theorem bind_of_some {m : Bounded α} {f : α → Bounded β} {s t : Machine}
    {r : Except EvalError α} (h : m s = some (r, t)) :
    (m >>= f) s = ExceptT.bindCont f r t := by
  change (m s).bind (fun x => ExceptT.bindCont f x.1 x.2) = _
  rw [h]
  rfl

/-- Steps that do the same can be continued by steps that do the same. -/
theorem Same.bind {m' : Bounded α} {m : Run α} {f' : α → Bounded β} {f : α → Run β}
    (hm : Same height d m' m) (htandem : Tandem (upTo height) Q m m)
    (hf : ∀ a, Q a a → Same height d (f' a) (f a)) : Same height d (m' >>= f') (m >>= f) := by
  intro w hw
  have hends := htandem w w hw
  rw [bind_of_some (hm w hw), bind_apply]
  generalize m w = r at hends ⊢
  cases hends with
  | ok h => exact hf _ h.1 _ h.2
  | error | cut => rfl

/-- The machine knows how many calls the program is in. -/
theorem Same.depth_bind {f : Nat → Bounded α} {m : Run α} (h : Same height d (f d) m) :
    Same height d (depth >>= f) m :=
  fun w hw => h w hw

/-- A call is counted while the step runs, and not any more afterwards. -/
theorem Same.inCall {m' : Bounded α} {m : Run α} (h : Same height (d + 1) m' m) :
    Same height d (inCall m') m := by
  intro w hw
  rw [Levels.inCall, h w hw]
  rfl

end

section

variable {limit height d need : Nat} {calls : Calls}

/-- From `need` levels on, calls do the same. They run in tandem with themselves, too. -/
structure SameCalls (height limit d need : Nat) (calls : Calls) : Prop where
  tandem : TandemCalls (upTo height) calls calls
  same : ∀ n, need ≤ n → ∀ f : Closure, f.Matches (upTo height) f → ∀ args : List Value,
    List.Forall₂ (Value.Matches (upTo height)) args args →
    Same height d ((evaluators limit n).call f args) (calls f args)

theorem tandem_declareList (env : Environment) {ss : List Stmt} (hss : levelsOfList ss ≤ height) :
    Tandem (upTo height) (fun _ _ => True) (modifyStore (declareList env ss))
      (modifyStore (declareList env ss)) :=
  .modifyStore fun _ _ hs => matches_declareList env hs (forall₂_of_levels hss) (.refl ss)

variable (hcalls : SameCalls height limit d need calls)
include hcalls

theorem SameCalls.tandem_expr (env : Environment) (e : Expr) :
    Tandem (upTo height) (Value.Matches (upTo height)) (Execution.expr calls env e)
      (Execution.expr calls env e) :=
  Execution.tandem_expr hcalls.tandem env e False.elim

theorem SameCalls.tandem_exprs (env : Environment) (es : List Expr) :
    Tandem (upTo height) (List.Forall₂ (Value.Matches (upTo height)))
      (Execution.exprs calls env es) (Execution.exprs calls env es) :=
  Execution.tandem_exprs hcalls.tandem env es False.elim

theorem same_apply {n : Nat} (hn : need ≤ n) (callee : String) {f : Value}
    (hf : f.Matches (upTo height) f) {args : List Value}
    (hargs : List.Forall₂ (Value.Matches (upTo height)) args args) :
    Same height d (apply (evaluators limit n) callee f args)
      (Execution.apply calls callee f args) := by
  cases f with
  | print => exact (Same.lift _).bind (tandem_print hargs) fun _ _ => .pure _
  | function f =>
    cases hf with
    | same h => exact absurd rfl (h f)
    | function hf => exact hcalls.same n hn f hf args hargs
  | undefined | null | boolean b | number x | string s => exact .throw _

mutual

theorem same_expr (env : Environment) (e : Expr) {n : Nat} (hn : e.levels + need ≤ n) :
    Same height d ((evaluators limit n).expr env e) (Execution.expr calls env e) := by
  have hkeeps := hcalls.tandem_expr env
  cases n with
  | zero => cases e <;> simp [Expr.levels] at hn
  | succ n =>
    cases e with
    | ident id => exact .lift _
    | number lit | string lit | boolean _ b | null _ => exact .pure _
    | paren _ e =>
      rw [Expr.levels] at hn
      exact same_expr env e (by omega)
    | unary _ op e =>
      rw [Expr.levels] at hn
      have hoperand := same_expr env e (n := n) (by omega)
      cases op with
      | increment => exact (Same.lift _).bind (tandem_step env e increment) fun _ _ => .pure _
      | decrement => exact (Same.lift _).bind (tandem_step env e decrement) fun _ _ => .pure _
      | typeof =>
        refine (Same.lift _).bind (tandem_nameResolvable env e) fun b _ => ?_
        cases b with
        | true => exact hoperand.bind (hkeeps e) fun _ _ => .pure _
        | false => exact .pure _
      | delete =>
        have hnamed (x : String) := (Same.lift (d := d) (isResolvable env x)).bind
          (tandem_isResolvable (L := upTo height) env x) fun b _ => .pure (Value.boolean (!b))
        have hother := hoperand.bind (hkeeps e) fun _ _ => .pure (Value.boolean true)
        rw [evaluators_expr, expr, Execution.expr]
        cases e.name? with
        | some x => exact hnamed x
        | none => exact hother
      | not | bitNot | plus | minus | void =>
        exact hoperand.bind (hkeeps e) fun _ _ => .pure _
    | update _ op e =>
      exact (Same.lift _).bind (tandem_step env e (updateChange op)) fun _ _ => .pure _
    | binary _ op _ a b =>
      rw [Expr.levels] at hn
      have hleft := same_expr env a (n := n) (by omega)
      have hright := same_expr env b (n := n) (by omega)
      cases op with
      | assign =>
        rw [evaluators_expr, expr, Execution.expr]
        cases a.name? with
        | none => exact .throw _
        | some x =>
          exact hright.bind (hkeeps b) fun v hv =>
            (Same.lift _).bind (tandem_assign env x hv) fun _ _ => .pure _
      | and =>
        refine hleft.bind (hkeeps a) fun v _ => ?_
        split
        · exact hright
        · exact .pure _
      | or =>
        refine hleft.bind (hkeeps a) fun v _ => ?_
        split
        · exact .pure _
        · exact hright
      | comma => exact hleft.bind (hkeeps a) fun _ _ => hright
      | _ => exact hleft.bind (hkeeps a) fun _ _ => hright.bind (hkeeps b) fun _ _ => .lift _
    | call _ isOptional f args =>
      rw [Expr.levels] at hn
      have hargs := same_exprs env args (n := n) (by omega)
      rw [evaluators_expr, expr, Execution.expr]
      split
      · exact .throw _
      · cases f.name? with
        | none => exact .throw _
        | some callee =>
          refine (Same.lift _).bind (tandem_read env callee) fun g hg => ?_
          refine hargs.bind (hcalls.tandem_exprs env args) fun vs hvs => ?_
          exact same_apply hcalls (by omega) callee hg hvs
    | other n => exact .throw _

theorem same_exprs (env : Environment) (es : List Expr) {n : Nat}
    (hn : Expr.levelsOfList es + need ≤ n) :
    Same height d (exprs (evaluators limit n) env es) (Execution.exprs calls env es) := by
  cases es with
  | nil => exact .pure _
  | cons e es =>
    rw [Expr.levelsOfList] at hn
    have hfirst := same_expr env e (n := n) (by omega)
    have hrest := same_exprs env es (n := n) (by omega)
    exact hfirst.bind (hcalls.tandem_expr env e) fun _ _ =>
      hrest.bind (hcalls.tandem_exprs env es) fun _ _ => .pure _

end

theorem same_declarator (env : Environment) (kind : VarKind) (decl : Declarator) {n : Nat}
    (hn : decl.levels + need ≤ n) :
    Same height d (declarator (evaluators limit n) env kind decl)
      (Execution.declarator calls env kind decl) := by
  obtain ⟨range, target, init⟩ := decl
  cases target with
  | pattern node => exact .throw _
  | name id =>
    cases init with
    | none =>
      simp only [declarator, Execution.declarator]
      split
      · exact .lift _
      · exact .pure _
    | some e =>
      refine (same_expr hcalls env e hn).bind (hcalls.tandem_expr env e) fun v _ => ?_
      split <;> exact .lift _

theorem same_declarators (env : Environment) (kind : VarKind) (ds : List Declarator) {n : Nat}
    (hn : Declarator.levelsOfList ds + need ≤ n) :
    Same height d (declarators (evaluators limit n) env kind ds)
      (Execution.declarators calls env kind ds) := by
  induction ds with
  | nil => exact .pure _
  | cons decl ds ih =>
    rw [Declarator.levelsOfList] at hn
    have hfirst := same_declarator hcalls env kind decl (n := n) (by omega)
    exact hfirst.bind (tandem_declarator hcalls.tandem env kind decl False.elim) fun _ _ =>
      ih (by omega)

mutual

theorem same_stmt (env : Environment) (s : Stmt) (hs : s.levels ≤ height) {n : Nat}
    (hn : s.levels + need ≤ n) :
    Same height d ((evaluators limit n).stmt env s) (Execution.stmt calls env s) := by
  cases n with
  | zero => cases s <;> simp [Stmt.levels] at hn
  | succ n =>
    cases s with
    | vars _ _ kind ds =>
      rw [Stmt.levels] at hn
      have hds := same_declarators hcalls env kind ds (n := n) (by omega)
      exact hds.bind (tandem_declarators hcalls.tandem env kind ds False.elim) fun _ _ => .pure _
    | function head body => exact .pure _
    | empty _ => exact .pure _
    | block _ body =>
      rw [Stmt.levels] at hs hn
      refine (Same.lift _).bind (tandem_openScope env) fun inner _ => ?_
      refine (Same.lift _).bind (tandem_declareList inner (by omega)) fun _ _ => ?_
      exact same_stmts inner body (by omega) (by omega)
    | expression _ e =>
      rw [Stmt.levels] at hn
      have he := same_expr hcalls env e (n := n) (by omega)
      exact he.bind (hcalls.tandem_expr env e) fun _ _ => .pure _
    | return_ _ e =>
      cases e with
      | none => exact .pure _
      | some e =>
        rw [Stmt.levels, Option.elim_some] at hn
        have he := same_expr hcalls env e (n := n) (by omega)
        exact he.bind (hcalls.tandem_expr env e) fun _ _ => .pure _
    | other n => exact .throw _

theorem same_stmts (env : Environment) (ss : List Stmt) (hss : levelsOfList ss ≤ height) {n : Nat}
    (hn : levelsOfList ss + need ≤ n) :
    Same height d (stmts (evaluators limit n) env ss) (Execution.stmts calls env ss) := by
  cases ss with
  | nil => exact .pure _
  | cons s ss =>
    rw [levelsOfList] at hss hn
    have hs : s.levels ≤ height := by omega
    have hfirst := same_stmt env s hs (n := n) (by omega)
    have hrest := same_stmts env ss (n := n) (by omega) (by omega)
    have hkeeps := tandem_stmt (listsMatch_levels height) hcalls.tandem env s (matches_of_levels hs)
    refine hfirst.bind hkeeps fun c _ => ?_
    cases c with
    | returned v => exact .pure _
    | normal => exact hrest

end

theorem same_body (env : Environment) {ss : List Stmt} (hss : levelsOfList ss ≤ height) {n : Nat}
    (hn : levelsOfList ss + need ≤ n) :
    Same height d (body (evaluators limit n) env ss) (Execution.body calls env ss) :=
  (Same.lift _).bind (.modifyStore fun _ _ hs => matches_declareVars hs env rfl) fun _ _ =>
    (Same.lift _).bind (tandem_declareList env hss) fun _ _ =>
      same_stmts hcalls env ss hss hn

end

/-- The levels that a call takes in a program of the given height, if further calls may nest in
it. -/
def ofCall (height remaining : Nat) : Nat :=
  remaining * (height + 1) + 1

/-- The induction is on the calls that may still nest: each takes a level for itself and those of a
body, which is no higher than the program. -/
theorem sameCalls_call (limit height : Nat) {d remaining : Nat} (hd : d + remaining = limit) :
    SameCalls height limit d (ofCall height remaining) (Execution.call remaining) := by
  have hbodies := tandem_body (listsMatch_levels height)
  induction remaining generalizing d with
  | zero =>
    refine ⟨tandem_call hbodies (.inl rfl), fun n hn f _ args _ => ?_⟩
    obtain ⟨n, rfl⟩ := Nat.exists_eq_add_one.2 (Nat.lt_of_lt_of_le (Nat.succ_pos _) hn)
    rw [evaluators_call]
    refine .depth_bind ?_
    rw [if_pos (by omega)]
    exact .throw _
  | succ remaining ih =>
    refine ⟨tandem_call hbodies (.inl rfl), fun n hn f hf args hargs => ?_⟩
    obtain ⟨n, rfl⟩ := Nat.exists_eq_add_one.2 (Nat.lt_of_lt_of_le (Nat.succ_pos _) hn)
    have hneed : height + ofCall height remaining ≤ n := by
      simp only [ofCall, Nat.succ_mul] at hn ⊢
      omega
    rw [evaluators_call]
    refine .depth_bind ?_
    rw [if_neg (by omega)]
    refine (Same.lift _).bind (tandem_openScope f.environment) fun env _ => ?_
    refine (Same.lift _).bind (tandem_bindParams env rfl False.elim hargs) fun _ _ => ?_
    have hcalls := ih (d := d + 1) (by omega)
    have hbody : Same height (d + 1) (body (evaluators limit n) env f.body)
        (Execution.body (Execution.call remaining) env f.body) :=
      same_body hcalls env hf.body.2 (Nat.le_trans (Nat.add_le_add_right hf.body.2 _) hneed)
    refine hbody.inCall.bind (hbodies _ _ hf.body _ _ hcalls.tandem env) fun c _ => ?_
    cases c with
    | returned v => exact .pure _
    | normal => exact .pure _

/-- **Running comes to an end.** The evaluation of expressions, statements and calls takes at most
a level for each level of the program and one more, as often as calls may nest and once more for the
program itself. With that many levels it has a result, which is what the program prints or how it
fails, and at the end the program is in no call. -/
theorem run_within_levels (limit : Nat) (p : Program) {levels : Nat}
    (h : (limit + 1) * (Stmt.levelsOfList p.statements + 1) ≤ levels) :
    run limit levels p = some (Execution.run limit p, 0) := by
  have hneed : Stmt.levelsOfList p.statements + ofCall (Stmt.levelsOfList p.statements) limit ≤
      levels := by
    simp only [ofCall, Nat.succ_mul] at h ⊢
    omega
  have hsame := same_body (sameCalls_call limit _ (Nat.zero_add limit)) [globalScope]
    (Nat.le_refl _) hneed World.initial matches_initial
  rw [run, hsame, run_eq]
  rfl

/-- A function that calls what it is given, given to itself. -/
def selfCall : Program :=
  (Parsed.ofText "a" "function f(g)\x7bvar h=g;return h(g)\x7df(f)").program

theorem selfCall_within_levels :
    (2 + 1) * (Stmt.levelsOfList selfCall.statements + 1) ≤ 15 ∧
      run 2 15 selfCall = some (Execution.run 2 selfCall, 0) ∧
      (Execution.run 2 selfCall).toOption = none := by
  have hlevels : (2 + 1) * (Stmt.levelsOfList selfCall.statements + 1) ≤ 15 := by decide +kernel
  exact ⟨hlevels, run_within_levels 2 selfCall hlevels, by decide +kernel⟩

end Levels

end Execution

end LambdaLift
