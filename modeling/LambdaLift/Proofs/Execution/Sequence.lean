import LambdaLift.Execution.Basic

/-!
# Statements one after another

What lists of statements declare and do, in terms of their parts.

* `stmts_append`: the second part of a list is run if the first one ends without a return.
* `stmts_variables`, `declareList_variables`, `varNamesOfList_variables`: variables that are
  declared one at a time are the variables of one declaration.
-/

namespace LambdaLift

namespace Execution

/-- Goes on with `rest`, except after a return. -/
def Completion.next (rest : Run Completion) : Completion → Run Completion
  | .returned v => return .returned v
  | .normal => rest

theorem Completion.next_normal : Completion.next (pure .normal) = pure := by
  funext c
  cases c <;> rfl

section

variable (calls : Calls) (env : Environment)

theorem stmts_cons (s : Stmt) (ss : List Stmt) :
    stmts calls env (s :: ss) = stmt calls env s >>= Completion.next (stmts calls env ss) := by
  rw [stmts]
  refine congrArg _ (funext fun c => ?_)
  cases c <;> rfl

theorem stmts_append (ss ts : List Stmt) :
    stmts calls env (ss ++ ts) = stmts calls env ss >>= Completion.next (stmts calls env ts) := by
  induction ss with
  | nil => rw [List.nil_append, stmts, pure_bind, Completion.next]
  | cons s ss ih =>
    rw [List.cons_append, stmts_cons, stmts_cons, bind_assoc, ih]
    refine congrArg _ (funext fun c => ?_)
    cases c with
    | returned v => simp only [Completion.next, pure_bind]
    | normal => rfl

theorem stmts_singleton (s : Stmt) : stmts calls env [s] = stmt calls env s := by
  rw [stmts_cons, stmts, Completion.next_normal, bind_pure]

/-- Variables that are declared one at a time. -/
theorem stmts_variables (kind : VarKind) (r listRange : Range) (ds : List Declarator) :
    stmts calls env (ds.map fun d => .vars r listRange kind [d]) = (do
      declarators calls env kind ds
      return .normal) := by
  induction ds with
  | nil => simp [stmts, declarators]
  | cons d ds ih =>
    rw [List.map_cons, stmts_cons, ih]
    simp [stmt, declarators, Completion.next]

end

/-! ## Declarations -/

theorem declareList_append (env : Environment) (ss ts : List Stmt) (s : Store) :
    declareList env (ss ++ ts) s = declareList env ts (declareList env ss s) :=
  List.foldl_append

/-- Block variables that are declared one at a time. -/
theorem declareList_variables (env : Environment) (kind : VarKind) (r listRange : Range)
    (r' listRange' : Range) {f : Declarator → Declarator}
    (hf : ∀ d, (f d).target.name? = d.target.name?) (ds : List Declarator) (s : Store) :
    declareList env (ds.map fun d => .vars r listRange kind [f d]) s =
      declareStmt env s (.vars r' listRange' kind ds) := by
  induction ds generalizing s with
  | nil => cases hkind : kind.isBlockScoped <;> simp [declareList, declareStmt, hkind]
  | cons d ds ih =>
    have hfirst : declareList env (.vars r listRange kind [f d] :: ds.map fun d =>
        .vars r listRange kind [f d]) s = _ := ih (declareStmt env s (.vars r listRange kind [f d]))
    rw [List.map_cons, hfirst]
    cases hkind : kind.isBlockScoped with
    | false => simp [declareStmt, hkind]
    | true =>
      cases hd : d.target.name? <;> simp [declareStmt, hkind, hf, hd]

theorem varNamesOfList_append (ss ts : List Stmt) :
    varNamesOfList (ss ++ ts) = varNamesOfList ss ++ varNamesOfList ts := by
  induction ss with
  | nil => rfl
  | cons s ss ih => simp [varNamesOfList, ih]

/-- Function variables that are declared one at a time. -/
theorem varNamesOfList_variables (kind : VarKind) (r listRange r' listRange' : Range)
    {f : Declarator → Declarator} (hf : ∀ d, (f d).target.name? = d.target.name?)
    (ds : List Declarator) :
    varNamesOfList (ds.map fun d => .vars r listRange kind [f d]) =
      varNames (.vars r' listRange' kind ds) := by
  induction ds with
  | nil => cases kind <;> rfl
  | cons d ds ih =>
    rw [List.map_cons, varNamesOfList, ih]
    cases kind with
    | var => cases hd : d.target.name? <;> simp [varNames, hf, hd]
    | _ => rfl

end Execution

end LambdaLift
