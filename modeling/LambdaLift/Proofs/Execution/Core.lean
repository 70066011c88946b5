import LambdaLift.Proofs.Execution.Lockstep
import LambdaLift.Proofs.Tree.Core

/-!
# Only the core of a program matters

* `expr_core`, `declarators_core`: an expression does what its core does, and so do declarators.
* `HasCore`: a list of statements and its core. As function bodies these run in tandem
  (`tandemBodies_core`).
* `run_eq_of_core`: programs with the same core run alike.
-/

namespace LambdaLift

open Stmt

namespace Execution

/-! ## Expressions -/

/-- Parentheses do not change the value of an expression. -/
theorem expr_bare (calls : Calls) (env : Environment) (e : Expr) :
    expr calls env e.bare = expr calls env e := by
  fun_induction Expr.bare e with
  | case1 r e ih => rw [ih, expr]
  | case2 e => rfl

theorem step_core (env : Environment) (e : Expr) (change : Float → Float) :
    step env e.core change = step env e change := by
  rw [step, step, Expr.name?_core]

variable {calls calls' : Calls}

mutual

theorem expr_core (env : Environment) : (e : Expr) →
    expr calls env e.core = expr calls env e
  | .ident _ | .number _ | .string _ | .boolean .. | .null _ => rfl
  | .paren _ e => by rw [Expr.core, expr, expr, expr_core env e]
  | .unary _ op e => by
    cases op <;> simp only [Expr.core, expr, Expr.name?_core, step_core, expr_core env e]
  | .update _ op e => by rw [Expr.core, expr, expr, step_core]
  | .binary _ op _ a b => by
    rw [Expr.core]
    split
    · rename_i hop
      subst hop
      simp only [expr, Expr.name?_core, Expr.kind_core, expr_core env b]
    · rename_i hop
      cases op with
      | assign => exact absurd rfl hop
      | _ => simp only [expr, expr_bare, expr_core env a, expr_core env b]
  | .call _ isOptional f args => by
    simp only [Expr.core, expr, Expr.name?_core, Expr.kind_core, exprs_core env args]
  | .other n => by rw [Expr.core, expr, expr, Node.kind_blank]

theorem exprs_core (env : Environment) : (es : List Expr) →
    exprs calls env (Expr.coreList es) = exprs calls env es
  | [] => rfl
  | e :: es => by rw [Expr.coreList, exprs, exprs, expr_core env e, exprs_core env es]

end

theorem declarator_core (env : Environment) (kind : VarKind) (d : Declarator) :
    declarator calls env kind d.core = declarator calls env kind d := by
  obtain ⟨r, target, init⟩ := d
  cases target with
  | pattern n => simp only [declarator, Declarator.core, Binding.core, Node.kind_blank]
  | name id =>
    cases init with
    | some e =>
      simp only [declarator, Declarator.core, Binding.core, Option.map_some, expr_core]
      rfl
    | none => rfl

theorem declarators_core (env : Environment) (kind : VarKind) (ds : List Declarator) :
    declarators calls env kind (ds.map Declarator.core) = declarators calls env kind ds := by
  induction ds with
  | nil => rfl
  | cons d ds ih => rw [List.map_cons, declarators, declarators, declarator_core, ih]

/-! ## Declarations -/

/-- The second list is the core of the first one. -/
def HasCore (ss ts : List Stmt) : Prop :=
  ts = coreList ss

/-- Bodies may be replaced by their cores. -/
abbrev upToCore : Leeway where
  bodies := HasCore

mutual

theorem varNames_core : (s : Stmt) → varNamesOfList s.core = varNames s
  | .vars _ _ kind ds => by
    rw [core]
    exact varNamesOfList_variables kind _ _ _ _ Declarator.name?_target_core ds
  | .block _ body => by
    simp [core, varNamesOfList, varNames, varNamesOfList_core body]
  | .function .. | .empty _ | .expression .. | .return_ .. | .other _ => by
    simp [core, varNamesOfList, varNames]

theorem varNamesOfList_core : (ss : List Stmt) →
    varNamesOfList (coreList ss) = varNamesOfList ss
  | [] => rfl
  | s :: ss => by
    rw [coreList, varNamesOfList_append, varNames_core s, varNamesOfList_core ss,
      varNamesOfList]

end

theorem matches_declareStmt_core (env : Environment) {s s' : Store} (h : s.Matches upToCore s')
    (st : Stmt) : (declareStmt env s st).Matches upToCore (declareList env st.core s') := by
  cases st with
  | vars r listRange kind ds =>
    rw [core, declareList_variables env kind _ _ r listRange Declarator.name?_target_core]
    exact matches_declareStmt_vars h env r listRange kind ds
  | function head body =>
    simp only [core, declareList, declareStmt, List.foldl_cons, List.foldl_nil,
      FunctionHead.name?_core]
    cases head.name? with
    | none => exact h
    | some name =>
      refine h.declare _ name ⟨rfl, .some (.function ⟨rfl, head.name?_core, ?_, False.elim, rfl⟩)⟩
      rw [FunctionHead.core, List.map_map]
      exact List.map_congr_left fun p _ => p.plainName?_core
  | _ => exact h

theorem matches_declareList_core (env : Environment) {s s' : Store} (h : s.Matches upToCore s')
    (ss : List Stmt) :
    (declareList env ss s).Matches upToCore (declareList env (coreList ss) s') := by
  induction ss generalizing s s' with
  | nil => exact h
  | cons st ss ih =>
    rw [coreList, declareList_append]
    exact ih (matches_declareStmt_core env h st)

/-! ## Statements -/

mutual

theorem tandem_stmt_core (hcalls : TandemCalls upToCore calls calls') (env : Environment) :
    (s : Stmt) → Tandem upToCore (Completion.Matches upToCore) (stmt calls env s)
      (stmts calls' env s.core)
  | .vars _ _ kind ds => by
    have hsplit := stmts_variables calls' env kind noRange noRange (ds.map Declarator.core)
    rw [List.map_map] at hsplit
    rw [core, stmt]
    refine hsplit ▸ ?_
    rw [declarators_core]
    exact (tandem_declarators hcalls env kind ds False.elim).bind fun _ _ _ => .pure .normal
  | .function .. | .empty _ => by
    rw [core, stmts_singleton, stmt, stmt]
    exact .pure .normal
  | .block _ body => by
    rw [core, stmts_singleton, stmt, stmt]
    refine (tandem_openScope env).bind ?_
    rintro inner _ rfl
    refine (Tandem.modifyStore fun s s' hs => ?_).bind fun _ _ _ =>
      tandem_stmts_core hcalls inner body
    exact matches_declareList_core inner hs body
  | .expression _ e => by
    rw [core, stmts_singleton, stmt, stmt, expr_core]
    exact (tandem_expr hcalls env e False.elim).bind fun _ _ _ => .pure .normal
  | .return_ _ e => by
    rw [core, stmts_singleton]
    cases e with
    | some e =>
      rw [Option.map_some, stmt, stmt, expr_core]
      exact (tandem_expr hcalls env e False.elim).bind fun _ _ hv => .pure (.returned hv)
    | none => exact .pure (.returned (.of_isData rfl))
  | .other n => by
    rw [core, stmts_singleton, stmt, stmt, Node.kind_blank]
    exact .throw False.elim

theorem tandem_stmts_core (hcalls : TandemCalls upToCore calls calls') (env : Environment) :
    (ss : List Stmt) → Tandem upToCore (Completion.Matches upToCore) (stmts calls env ss)
      (stmts calls' env (coreList ss))
  | [] => .pure .normal
  | s :: ss => by
    rw [coreList, stmts_append, stmts_cons]
    exact (tandem_stmt_core hcalls env s).bind fun _ _ hc =>
      hc.next (tandem_stmts_core hcalls env ss)

end

theorem tandemBodies_core : TandemBodies upToCore := by
  rintro ss _ rfl calls calls' hcalls env
  refine (Tandem.modifyStore fun s s' hs => ?_).bind fun _ _ _ => ?_
  · exact matches_declareVars hs env (varNamesOfList_core ss)
  · refine (Tandem.modifyStore fun s s' hs => ?_).bind fun _ _ _ => tandem_stmts_core hcalls env ss
    exact matches_declareList_core env hs ss

/-- **The core.** Programs with the same core run alike. -/
theorem run_eq_of_core {p q : Program}
    (h : coreList p.statements = coreList q.statements) (limit : Nat) :
    run limit p = run limit q := by
  have hcore (p : Program) : run limit ⟨0, coreList p.statements⟩ = run limit p :=
    run_eq_of_bodies tandemBodies_core (q := ⟨0, coreList p.statements⟩) rfl limit
  rw [← hcore p, h, hcore q]

end Execution

end LambdaLift
