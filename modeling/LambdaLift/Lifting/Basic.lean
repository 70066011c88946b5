import LambdaLift.Code.Layout
import LambdaLift.Lifting.Registry
import LambdaLift.Scope.FreeNames

/-!
# Lifting

One pass over a program. A function declared in another one is not kept where it stands: it is
entered in the registry with the names it captures, and follows the statements of the program. From
there on calls of it pass the captured names as further arguments; a call that comes before the
declaration stays as it is.

* `Lifting.expr`, `Lifting.stmt`: lifted code of an expression and a statement.
* `Lifting.program`: lifted code of a program.

Lifting stops at the first construct that it cannot handle. The registry shows how far it came.
-/

namespace LambdaLift

/-- A construct that cannot be lifted, and where it stands. -/
structure Unsupported where
  kind : Kind
  range : Range
deriving DecidableEq, Inhabited

/-- What is said about a construct that cannot be handled. -/
def Unsupported.message (u : Unsupported) : String :=
  "unsupported construct: " ++ u.kind.name

namespace Lifting

/-- The functions lifted so far, with code as bodies. -/
abbrev Functions := Registry (List Code.Stmt)

/-- A step of lifting. It leaves a registry also when it fails. -/
abbrev Lift (α : Type) := ExceptT Unsupported (StateM Functions) α

/-- The operator of an operation that is not an assignment, if it can be lifted. -/
def operator (op : BinaryOp) (opRange : Range) : Except Unsupported Unit :=
  if op.isLiftable then .ok () else .error ⟨.token op.token, opRange⟩

mutual

/-- Lifts an expression. -/
def expr (r : Functions) : Expr → Except Unsupported Code.Expr
  | .ident id => .ok (.name id.name)
  | .number lit => .ok (.number lit.raw)
  | .string lit => .ok (.string lit.raw)
  | .boolean _ b => .ok (.boolean b)
  | .null _ => .ok .null
  | .paren _ e => do return .paren (← expr r e)
  | .unary _ op e => do return .unary op (← expr r e)
  | .update _ op e => do return .update op (← expr r e)
  | .binary _ op opRange a b => do
    operator op opRange
    if op = .assign then
      match a.name? with
      | some x => return .assign x (← expr r b)
      | none => .error ⟨a.kind, a.range⟩
    else
      return .binary op (← expr r a) (← expr r b)
  | .call range isOptional f args =>
    if isOptional then .error ⟨.node .callExpression, range⟩
    else
      match f.name? with
      | none => .error ⟨f.kind, f.range⟩
      | some callee => do
        return .call callee ((← exprs r args) ++ r.appendedArguments callee args.length)
  | .other n => .error ⟨n.kind, n.range⟩

/-- Lifts expressions one after another. -/
def exprs (r : Functions) : List Expr → Except Unsupported (List Code.Expr)
  | [] => .ok []
  | e :: es => do return (← expr r e) :: (← exprs r es)

end

/-- Lifts an expression, if there is one. -/
def expr? (r : Functions) : Option Expr → Except Unsupported (Option Code.Expr)
  | none => .ok none
  | some e => some <$> expr r e

/-- Lifts a declared variable to a declaration of its own. -/
def declarator (r : Functions) (kind : VarKind) (d : Declarator) :
    Except Unsupported Code.Stmt :=
  match d.target with
  | .name id => do return .variable_ kind id.name (← expr? r d.init)
  | .pattern n => .error ⟨n.kind, n.range⟩

/-- Lifts declared variables one after another. -/
def declarators (r : Functions) (kind : VarKind) (ds : List Declarator) :
    Except Unsupported (List Code.Stmt) :=
  ds.mapM (declarator r kind)

/-- The name of a plain parameter. -/
def parameter (p : Param) : Except Unsupported String :=
  match p.plainName? with
  | some name => .ok name
  | none => .error ⟨.node .parameter, p.range⟩

/-- The name and the parameters of a function that can be lifted: one that runs at once, has a name
and only plain parameters. -/
def signature (head : FunctionHead) : Except Unsupported (String × List String) :=
  match head.name? with
  | some name =>
    if head.isAsync || head.isGenerator || name.isEmpty then
      .error ⟨.node .functionDeclaration, head.range⟩
    else do
      return (name, ← head.params.mapM parameter)
  | none => .error ⟨.node .functionDeclaration, head.range⟩

mutual

/-- Lifts a statement to the statements that stay in its place. `nested` tells whether it stands in
a function. -/
def stmt (nested : Bool) : Stmt → Lift (List Code.Stmt)
  | .vars _ _ kind ds => do declarators (← get) kind ds
  | .function head body => do
    let (name, params) ← signature head
    if nested then
      let r ← get
      let captured := FreeNames.ofFunction r.appendedCaptures head body
      set (r.register { name, params, captured })
      let code ← stmts true body
      modify (·.setBody name r.nextTicket code)
      return []
    else
      return [.function name params (← stmts true body)]
  | .block _ body => do return [.block (← stmts nested body)]
  | .expression _ e => do return [.expression (← expr (← get) e)]
  | .return_ _ e => do return [.return_ (← expr? (← get) e)]
  | .empty range => throw ⟨.node .emptyStatement, range⟩
  | .other n => throw ⟨n.kind, n.range⟩

/-- Lifts statements one after another. -/
def stmts (nested : Bool) : List Stmt → Lift (List Code.Stmt)
  | [] => return []
  | s :: ss => do return (← stmt nested s) ++ (← stmts nested ss)

end

/-- A lifted function as a declaration at the top level. -/
def declaration (f : LiftedFunction (List Code.Stmt)) : Code.Stmt :=
  .function f.name f.allParams (f.body.getD [])

/-- Lifts a program: its statements, and the lifted functions after them. -/
def program (p : Program) : Lift (List Code.Stmt) := do
  modify Registry.clear
  let code ← stmts false p.statements
  return code ++ (← get).functions.map declaration

/-- The text of a lifted program, and the registry that lifting it leaves behind. -/
def text (layout : Layout) (p : Program) (r : Functions) :
    Except Unsupported String × Functions :=
  let (result, r) := program p r
  (result.map (Code.programText layout), r)

end Lifting

end LambdaLift
