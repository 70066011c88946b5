import LambdaLift.Execution.Basic
import Mathlib.Logic.Relation

/-!
# Moments of an execution

An execution gives a result and a world, and says nothing of what happens on the way. Here the parts
of an execution stand in a relation.

* `Activity`, `Moment`: something that is run, and the world in which it starts.
* `Moment.Starts`: running the one leads to running the other as its next part.
* `Moment.Reaches`: the one is run as part of the other.
* `Reachable`: the worlds before and after the parts of the runs of programs.
* `Moment.Creates`: a name is assigned on the way while no scope has it.
-/

namespace LambdaLift.Execution

/-- What can be run in an execution. -/
inductive Activity
  | expr (env : Environment) (e : Expr)
  | exprs (env : Environment) (es : List Expr)
  | assign (env : Environment) (x : String) (v : Value)
  | declarators (env : Environment) (kind : VarKind) (ds : List Declarator)
  | stmt (env : Environment) (s : Stmt)
  | stmts (env : Environment) (ss : List Stmt)
  | body (env : Environment) (ss : List Stmt)
  | call (f : Closure) (args : List Value)

/-- The start of an activity: the number of calls that may nest in it, and the world. -/
structure Moment where
  remaining : Nat
  activity : Activity
  world : World

namespace Moment

/-- The world that an activity leaves, also when it fails. -/
def after : Moment → World
  | ⟨n, .expr env e, w⟩ => (expr (call n) env e w).2
  | ⟨n, .exprs env es, w⟩ => (exprs (call n) env es w).2
  | ⟨_, .assign env x v, w⟩ => (assign env x v w).2
  | ⟨n, .declarators env kind ds, w⟩ => (declarators (call n) env kind ds w).2
  | ⟨n, .stmt env s, w⟩ => (stmt (call n) env s w).2
  | ⟨n, .stmts env ss, w⟩ => (stmts (call n) env ss w).2
  | ⟨n, .body env ss, w⟩ => (body (call n) env ss w).2
  | ⟨n, .call f args, w⟩ => (call n f args w).2

/-- The parts of an activity, each in the world that the parts before it have left. A name under
`typeof` or `delete` is only looked up, and a change by one assigns a name that it has read before,
so these have no parts. -/
inductive Starts : Moment → Moment → Prop
  | paren {n env r e w} : Starts ⟨n, .expr env (.paren r e), w⟩ ⟨n, .expr env e, w⟩
  | operand {n env r op e w} (hincrement : op ≠ .increment) (hdecrement : op ≠ .decrement)
      (hname : op = .typeof ∨ op = .delete → e.name? = none) :
      Starts ⟨n, .expr env (.unary r op e), w⟩ ⟨n, .expr env e, w⟩
  | left {n env r op t a b w} (hop : op ≠ .assign) :
      Starts ⟨n, .expr env (.binary r op t a b), w⟩ ⟨n, .expr env a, w⟩
  | right {n env r op t a b w v w'} (hop : op ≠ .assign)
      (ha : expr (call n) env a w = (.ok v, w'))
      (hand : op = .and → v.toBoolean = true) (hor : op = .or → v.toBoolean = false) :
      Starts ⟨n, .expr env (.binary r op t a b), w⟩ ⟨n, .expr env b, w'⟩
  | assigned {n env r t a b w x} (hx : a.name? = some x) :
      Starts ⟨n, .expr env (.binary r .assign t a b), w⟩ ⟨n, .expr env b, w⟩
  | assign {n env r t a b w x v w'} (hx : a.name? = some x)
      (hb : expr (call n) env b w = (.ok v, w')) :
      Starts ⟨n, .expr env (.binary r .assign t a b), w⟩ ⟨n, .assign env x v, w'⟩
  | args {n env r f args w x v w'} (hx : f.name? = some x)
      (hread : read env x w = (.ok v, w')) :
      Starts ⟨n, .expr env (.call r false f args), w⟩ ⟨n, .exprs env args, w'⟩
  | call {n env r f args w x g w' vs w''} (hx : f.name? = some x)
      (hread : read env x w = (.ok (.function g), w'))
      (hargs : exprs (call n) env args w' = (.ok vs, w'')) :
      Starts ⟨n, .expr env (.call r false f args), w⟩ ⟨n, .call g vs, w''⟩
  | firstExpr {n env e es w} : Starts ⟨n, .exprs env (e :: es), w⟩ ⟨n, .expr env e, w⟩
  | laterExprs {n env e es w v w'} (he : expr (call n) env e w = (.ok v, w')) :
      Starts ⟨n, .exprs env (e :: es), w⟩ ⟨n, .exprs env es, w'⟩
  | init {n env kind r id e ds w} :
      Starts ⟨n, .declarators env kind (⟨r, .name id, some e⟩ :: ds), w⟩ ⟨n, .expr env e, w⟩
  | laterDeclarators {n env kind d ds w w'}
      (hd : declarator (call n) env kind d w = (.ok (), w')) :
      Starts ⟨n, .declarators env kind (d :: ds), w⟩ ⟨n, .declarators env kind ds, w'⟩
  | vars {n env r r' kind ds w} :
      Starts ⟨n, .stmt env (.vars r r' kind ds), w⟩ ⟨n, .declarators env kind ds, w⟩
  | block {n env r ss w} :
      Starts ⟨n, .stmt env (.block r ss), w⟩ ⟨n, .stmts (w.store.next :: env) ss,
        { w with store := declareList (w.store.next :: env) ss w.store.push }⟩
  | expression {n env r e w} : Starts ⟨n, .stmt env (.expression r e), w⟩ ⟨n, .expr env e, w⟩
  | return_ {n env r e w} : Starts ⟨n, .stmt env (.return_ r (some e)), w⟩ ⟨n, .expr env e, w⟩
  | firstStmt {n env s ss w} : Starts ⟨n, .stmts env (s :: ss), w⟩ ⟨n, .stmt env s, w⟩
  | laterStmts {n env s ss w w'}
      (hs : stmt (call n) env s w = (.ok .normal, w')) :
      Starts ⟨n, .stmts env (s :: ss), w⟩ ⟨n, .stmts env ss, w'⟩
  | body {n env ss w} : Starts ⟨n, .body env ss, w⟩ ⟨n, .stmts env ss,
      { w with store := declareList env ss (declareVars env ss w.store) }⟩
  | enter {n f args w w'} (hparams : bindParams (w.store.next :: f.environment) f.head.params args
        { w with store := w.store.push } = (.ok (), w')) :
      Starts ⟨n + 1, .call f args, w⟩ ⟨n, .body (w.store.next :: f.environment) f.body, w'⟩

/-- The second moment comes up while the activity of the first is run. -/
def Reaches : Moment → Moment → Prop :=
  Relation.ReflTransGen Starts

/-- On the way the name is assigned in an environment in which no scope has it. -/
def Creates (m : Moment) (x : String) : Prop :=
  ∃ n env v w, m.Reaches ⟨n, .assign env x v, w⟩ ∧ w.store.resolve? x env = none

theorem Creates.of_starts {m m' : Moment} {x : String} (h : m.Starts m') (hx : m'.Creates x) :
    m.Creates x := by
  obtain ⟨n, env, v, w, hreaches, hnone⟩ := hx
  exact ⟨n, env, v, w, .head h hreaches, hnone⟩

/-- The start of a program. -/
def ofProgram (limit : Nat) (p : Program) : Moment :=
  ⟨limit, .body [globalScope] p.statements, .initial⟩

end Moment

/-- The world is one before or after an activity in the run of a program. -/
def Reachable (w : World) : Prop :=
  ∃ limit p m, (Moment.ofProgram limit p).Reaches m ∧ (w = m.world ∨ w = m.after)

end LambdaLift.Execution
