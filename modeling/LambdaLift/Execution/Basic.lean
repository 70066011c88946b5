import LambdaLift.Execution.Error
import LambdaLift.Value.Operation

/-!
# Execution

Programs are run on their tree. Declarations take effect before the statements around them: the
variables of a function body at once, also those in its blocks, and the functions and block
variables of a list of statements when the list is entered.

* `Execution.expr`, `Execution.stmt`: an expression and a statement in an environment. What a call
  of a declared function does is a parameter.
* `Execution.call`: a call, with the number of further calls that may nest in it.
* `Execution.run`: what a program prints.
-/

namespace LambdaLift

namespace Execution

/-- The number of calls that may nest in each other. -/
def defaultCallLimit : Nat := 256

/-- The variables of a program, and what it has printed. -/
structure World where
  store : Store
  output : String
deriving Inhabited

/-- A step of a program. It leaves a world also when it fails. -/
abbrev Run (α : Type) := ExceptT EvalError (StateM World) α

/-- What a call of a declared function does. -/
abbrev Calls := Closure → List Value → Run Value

/-- How a statement ends. -/
inductive Completion
  | normal
  | returned (v : Value)
deriving Inhabited

/-! ## Variables -/

/-- Changes the store. -/
def modifyStore (f : Store → Store) : Run Unit :=
  modify fun w => { w with store := f w.store }

/-- The value of a variable. -/
def read (env : Environment) (name : String) : Run Value := do
  match (← get).store.get env name with
  | .ok v => return v
  | .error e => throw (.ofAccess name e)

/-- Whether a name stands for a variable. -/
def isResolvable (env : Environment) (name : String) : Run Bool := do
  return ((← get).store.resolve? name env).isSome

/-- Sets a variable. -/
def write (env : Environment) (name : String) (v : Value) : Run Unit := do
  match (← get).store.set env name v with
  | .ok store => modifyStore fun _ => store
  | .error e => throw (.ofAccess name e)

/-- The scope of the program. -/
def globalScope : Nat := 0

/-- Assigns to a variable. A name that is declared nowhere becomes a variable of the program. -/
def assign (env : Environment) (name : String) (v : Value) : Run Unit := do
  if ← isResolvable env name then
    write env name v
  else
    modifyStore (·.declareVar globalScope name v)

/-- Opens a scope in an environment. -/
def openScope (env : Environment) : Run Environment := do
  let i := (← get).store.next
  modifyStore Store.push
  return i :: env

/-- The scope that declarations in an environment go to. -/
def innermost (env : Environment) : Nat :=
  env.headD globalScope

/-! ## Expressions -/

/-- Prints values on a line. -/
def print (args : List Value) : Run Unit :=
  modify fun w => { w with output := w.output ++ " ".intercalate (args.map Value.text) ++ "\n" }

/-- Calls what the name `callee` stands for. -/
def apply (calls : Calls) (callee : String) (f : Value) (args : List Value) : Run Value :=
  match f with
  | .print => do
    print args
    return .undefined
  | .function f => calls f args
  | _ => throw (.notCallable callee)

/-- The result of an operator on two values. -/
def operate (op : BinaryOp) (a b : Value) : Run Value :=
  match Value.operate? op a b with
  | some v => return v
  | none =>
    if op = .isIn then throw (.noMembers a.text b.text) else throw (.unsupported (.token op.token))

/-- Changes a variable by one, and gives its number before and after. -/
def step (env : Environment) (target : Expr) (change : Float → Float) : Run (Float × Float) :=
  match target.name? with
  | none => throw .invalidUpdate
  | some name => do
    let old := (← read env name).toNumber
    assign env name (.number (change old))
    return (old, change old)

/-- One more. -/
def increment (x : Float) : Float :=
  x + Binary64.ofNat 1

/-- One less. -/
def decrement (x : Float) : Float :=
  x - Binary64.ofNat 1

/-- What an operator after a variable does to it. -/
def updateChange : UpdateOp → Float → Float
  | .increment => increment
  | .decrement => decrement

mutual

/-- Evaluates an expression. -/
def expr (calls : Calls) (env : Environment) : Expr → Run Value
  | .ident id => read env id.name
  | .number lit => return .number lit.value
  | .string lit => return .string lit.value
  | .boolean _ b => return .boolean b
  | .null _ => return .null
  | .paren _ e => expr calls env e
  | .unary _ op e =>
    match op with
    | .increment => do return .number (← step env e increment).2
    | .decrement => do return .number (← step env e decrement).2
    | .typeof => do
      if ← (e.name?.elim (pure true) (isResolvable env)) then
        return .string (← expr calls env e).typeOf
      else
        return .string Value.undefined.typeOf
    | .delete =>
      match e.name? with
      | some name => do return .boolean (!(← isResolvable env name))
      | none => do
        let _ ← expr calls env e
        return .boolean true
    | .not => do return .boolean (!(← expr calls env e).toBoolean)
    | .bitNot => do return .ofInt32 (~~~(← expr calls env e).toInt32)
    | .plus => do return .number (← expr calls env e).toNumber
    | .minus => do return .number (-(← expr calls env e).toNumber)
    | .void => do
      let _ ← expr calls env e
      return .undefined
  | .update _ op e => do return .number (← step env e (updateChange op)).1
  | .binary _ op _ a b =>
    match op with
    | .assign =>
      match a.name? with
      | none => throw (.unsupported a.kind)
      | some name => do
        let v ← expr calls env b
        assign env name v
        return v
    | .and => do
      let v ← expr calls env a
      if v.toBoolean then expr calls env b else return v
    | .or => do
      let v ← expr calls env a
      if v.toBoolean then return v else expr calls env b
    | .comma => do
      let _ ← expr calls env a
      expr calls env b
    | op => do
      let v ← expr calls env a
      let w ← expr calls env b
      operate op v w
  | .call _ isOptional f args =>
    if isOptional then throw (.unsupported (.node .callExpression))
    else
      match f.name? with
      | none => throw (.unsupported f.kind)
      | some callee => do
        let g ← read env callee
        apply calls callee g (← exprs calls env args)
  | .other n => throw (.unsupported n.kind)

/-- Evaluates expressions one after another. -/
def exprs (calls : Calls) (env : Environment) : List Expr → Run (List Value)
  | [] => return []
  | e :: es => do
    let v ← expr calls env e
    return v :: (← exprs calls env es)

end

/-! ## Declarations -/

mutual

/-- The variables that a statement declares for the whole function around it. -/
def varNames : Stmt → List String
  | .vars _ _ .var ds => ds.filterMap (·.target.name?)
  | .block _ body => varNamesOfList body
  | _ => []

/-- The variables that statements declare for the whole function around them. -/
def varNamesOfList : List Stmt → List String
  | [] => []
  | s :: ss => varNames s ++ varNamesOfList ss

end

/-- Declares the variables of a whole function. -/
def declareVars (env : Environment) (body : List Stmt) (store : Store) : Store :=
  (varNamesOfList body).foldl (fun s x => s.declareVar (innermost env) x .undefined) store

/-- Declares what a statement declares for the list of statements it stands in. -/
def declareStmt (env : Environment) (store : Store) : Stmt → Store
  | .vars _ _ kind ds =>
    if kind.isBlockScoped then
      (ds.filterMap (·.target.name?)).foldl
        (fun s x => s.declare (innermost env) x { value := none, kind := kind.variableKind })
        store
    else store
  | .function head body =>
    match head.name? with
    | some name =>
      store.declare (innermost env) name (.ofFunction ⟨env, head, body⟩)
    | none => store
  | _ => store

/-- Declares what statements declare for the list they make up. -/
def declareList (env : Environment) (body : List Stmt) (store : Store) : Store :=
  body.foldl (declareStmt env) store

/-! ## Statements -/

/-- Gives a declared variable its initial value. Without one, a block variable becomes undefined
and any other stays as it is. -/
def declarator (calls : Calls) (env : Environment) (kind : VarKind) (d : Declarator) :
    Run Unit :=
  match d.target with
  | .pattern n => throw (.unsupported n.kind)
  | .name id =>
    match d.init with
    | some e => do
      let v ← expr calls env e
      if kind.isBlockScoped then
        modifyStore (·.setInitial (innermost env) id.name v)
      else
        write env id.name v
    | none =>
      if kind.isBlockScoped then
        modifyStore (·.setInitial (innermost env) id.name .undefined)
      else
        return ()

/-- Gives declared variables their initial values, one after another. -/
def declarators (calls : Calls) (env : Environment) (kind : VarKind) : List Declarator → Run Unit
  | [] => return ()
  | d :: ds => do
    declarator calls env kind d
    declarators calls env kind ds

mutual

/-- Runs a statement. -/
def stmt (calls : Calls) (env : Environment) : Stmt → Run Completion
  | .vars _ _ kind ds => do
    declarators calls env kind ds
    return .normal
  | .function .. | .empty _ => return .normal
  | .block _ body => do
    let inner ← openScope env
    modifyStore (declareList inner body)
    stmts calls inner body
  | .expression _ e => do
    let _ ← expr calls env e
    return .normal
  | .return_ _ e =>
    match e with
    | some e => do return .returned (← expr calls env e)
    | none => return .returned .undefined
  | .other n => throw (.unsupported n.kind)

/-- Runs statements one after another, up to a return. -/
def stmts (calls : Calls) (env : Environment) : List Stmt → Run Completion
  | [] => return .normal
  | s :: ss => do
    match ← stmt calls env s with
    | .returned v => return .returned v
    | .normal => stmts calls env ss

end

/-- Runs the body of a function or a program. -/
def body (calls : Calls) (env : Environment) (statements : List Stmt) : Run Completion := do
  modifyStore (declareVars env statements)
  modifyStore (declareList env statements)
  stmts calls env statements

/-- Gives parameters their values. A parameter without an argument is undefined. -/
def bindParams (env : Environment) : List Param → List Value → Run Unit
  | [], _ => return ()
  | p :: ps, args =>
    match p.plainName? with
    | none => throw (.unsupported (.node .parameter))
    | some name => do
      modifyStore (·.declare (innermost env) name
        { value := some (args.headD .undefined), kind := .parameter })
      bindParams env ps args.tail

/-- Calls a declared function, in which at most `remaining` calls may nest, itself included. -/
def call : (remaining : Nat) → Calls
  | 0, _, _ => throw .stackOverflow
  | remaining + 1, f, args => do
    let env ← openScope f.environment
    bindParams env f.head.params args
    match ← body (call remaining) env f.body with
    | .returned v => return v
    | .normal => return .undefined

/-- The world before a program runs. -/
def World.initial : World where
  store := ⟨#[[("print", { value := some .print, kind := .var })]]⟩
  output := ""

/-- What a program prints, with at most `limit` calls nesting in each other. -/
def run (limit : Nat) (p : Program) : Except EvalError String :=
  match body (call limit) [globalScope] p.statements World.initial with
  | (.ok _, w) => .ok w.output
  | (.error e, _) => .error e

end Execution

end LambdaLift
