import LambdaLift.Proofs.Code.Tree
import LambdaLift.Scope.FreeNames

/-!
# Lifting from tree to tree

What lifting does to a program, said without a registry. The functions entered so far are a log, to
which entries are only ever added; what a call passes on is read off the latest entry of its name.

* `TreeLifting.stmts`: the statements that stay where they are, and the functions entered on the
  way, each with its body, in the order in which they were entered.
* `TreeLifting.lastOfEach`: one function for each name, the one entered last, in the order in
  which the names were first entered.
* `TreeLifting.program`: the statements that stay, and the functions after them.
-/

namespace LambdaLift

namespace TreeLifting

/-- A function that was entered: its parameters, and the names it captures. -/
structure Entry where
  name : String
  params : List String
  captured : List String
deriving DecidableEq

/-- A call of the function with `count` arguments leaves out the last ones of this list. -/
def Entry.arguments (e : Entry) (count : Nat) : List Expr :=
  (List.replicate e.params.length Code.Expr.undefined.tree ++
    e.captured.map fun x => Expr.ident (.ofName x)).drop count

/-- The captured names among the arguments that a call with `count` arguments leaves out. -/
def Entry.passed (e : Entry) (count : Nat) : List String :=
  e.captured.drop (count - e.params.length)

/-- The latest entry of a name. -/
def latest? (log : List Entry) (name : String) : Option Entry :=
  log.reverse.find? (·.name = name)

/-- What a call passes besides its own arguments. -/
def arguments (log : List Entry) (callee : String) (count : Nat) : List Expr :=
  (latest? log callee).elim [] (·.arguments count)

/-- The captured names that a call passes. -/
def passed (log : List Entry) (callee : String) (count : Nat) : List String :=
  (latest? log callee).elim [] (·.passed count)

mutual

/-- The lifted expression. -/
def expr (log : List Entry) : Expr → Expr
  | .paren r e => .paren r (expr log e)
  | .unary r op e => .unary r op (expr log e)
  | .update r op e => .update r op (expr log e)
  | .binary r op opRange a b =>
    if op = .assign then .binary r op opRange a (expr log b)
    else .binary r op opRange (.paren noRange (expr log a)) (.paren noRange (expr log b))
  | .call r isOptional f args =>
    .call r isOptional f
      (exprs log args ++ f.name?.elim [] fun callee => arguments log callee args.length)
  | .ident id => .ident id
  | .number lit => .number lit
  | .string lit => .string lit
  | .boolean r b => .boolean r b
  | .null r => .null r
  | .other n => .other n

/-- The lifted expressions. -/
def exprs (log : List Entry) : List Expr → List Expr
  | [] => []
  | e :: es => expr log e :: exprs log es

end

/-- The declaration of one variable, with its initial value lifted. -/
def variable_ (log : List Entry) (kind : VarKind) (d : Declarator) : Stmt :=
  .vars noRange noRange kind [{ d with init := d.init.map (expr log) }]

/-- What lifting statements gives: those that stay, and the functions entered, with bodies. -/
structure Lifted where
  kept : List Stmt := []
  entered : List (Entry × List Stmt) := []

/-- The log of the functions entered. -/
def Lifted.log (l : Lifted) : List Entry :=
  l.entered.map Prod.fst

/-- The entry of a function that is met with the given log. -/
def entry (log : List Entry) (head : FunctionHead) (body : List Stmt) : Entry where
  name := head.name?.getD ""
  params := head.params.filterMap Param.plainName?
  captured := FreeNames.ofFunction (passed log) head body

mutual

/-- Lifts a statement that stands in a function if `nested`. -/
def stmt (nested : Bool) (log : List Entry) : Stmt → Lifted
  | .vars _ _ kind ds => { kept := ds.map (variable_ log kind) }
  | .function head body =>
    if nested then
      let e := entry log head body
      let inner := stmts true (log ++ [e]) body
      { entered := (e, inner.kept) :: inner.entered }
    else
      let inner := stmts true log body
      { kept := [.function head inner.kept], entered := inner.entered }
  | .block r body =>
    let inner := stmts nested log body
    { kept := [.block r inner.kept], entered := inner.entered }
  | .expression r e => { kept := [.expression r (expr log e)] }
  | .return_ r e => { kept := [.return_ r (e.map (expr log))] }
  | .empty r => { kept := [.empty r] }
  | .other n => { kept := [.other n] }

/-- Lifts statements, each with the functions entered before it in the log. -/
def stmts (nested : Bool) (log : List Entry) : List Stmt → Lifted
  | [] => {}
  | s :: ss =>
    let first := stmt nested log s
    let rest := stmts nested (log ++ first.log) ss
    ⟨first.kept ++ rest.kept, first.entered ++ rest.entered⟩

end

/-- One function for each name: the one entered last, in the place of the first. -/
def lastOfEach (entered : List (Entry × List Stmt)) : List (Entry × List Stmt) :=
  (entered.map (·.1.name)).eraseDups.filterMap fun x => entered.reverse.find? (·.1.name = x)

/-- An entered function as a declaration at the top level. -/
def declaration (f : Entry × List Stmt) : Stmt :=
  .function (.ofNames f.1.name (f.1.params ++ f.1.captured)) f.2

/-- The lifted program: the statements that stay, and the lifted functions after them. -/
def program (statements : List Stmt) : List Stmt :=
  let l := stmts false [] statements
  l.kept ++ (lastOfEach l.entered).map declaration

end TreeLifting

end LambdaLift
