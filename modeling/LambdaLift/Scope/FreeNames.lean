import LambdaLift.Scope.Stack
import LambdaLift.Tree.Stmt

/-!
# Free names

A name is free in a function if the function reads it at a place where none of its parameters and
no declaration so far in its body binds it. Free names are listed once each, in the order in which
they are first read.

A call of a function that takes further arguments counts as reading these: `Calls.appended` tells
which they are.
-/

namespace LambdaLift

namespace FreeNames

/-- What is known about the calls in a function. -/
structure Calls where
  /-- The names that are passed to a function besides the given number of arguments. -/
  appended : (callee : String) → (argumentCount : Nat) → List String
  /-- The function that is looked at. What it takes besides its parameters is yet to be found. -/
  self : Option String

/-- The scopes open at a place in a function, and the free names read up to there. -/
structure Finding where
  scopes : ScopeStack := {}
  free : List String := []
deriving Inhabited

namespace Finding

/-- A name is read. -/
def read (s : Finding) (name : String) : Finding :=
  if s.scopes.isBound name || s.free.contains name then s
  else { s with free := s.free ++ [name] }

/-- Names are read one after another. -/
def readAll (s : Finding) (names : List String) : Finding :=
  names.foldl read s

/-- A name is bound. -/
def bind (s : Finding) (name : String) : Finding :=
  { s with scopes := s.scopes.bind name }

/-- The names that a pattern or parameter list binds. -/
def bindTargets (s : Finding) (targets : List Binding) : Finding :=
  (targets.filterMap Binding.name?).foldl bind s

/-- A scope is opened. -/
def push (s : Finding) : Finding :=
  { s with scopes := s.scopes.push }

/-- A scope is closed. -/
def pop (s : Finding) : Finding :=
  { s with scopes := s.scopes.pop }

end Finding

mutual

/-- Reads an expression. -/
def expr (calls : Calls) (s : Finding) : Expr → Finding
  | .ident id => s.read id.name
  | .paren _ e | .unary _ _ e | .update _ _ e => expr calls s e
  | .binary _ _ _ a b => expr calls (expr calls s a) b
  | .call _ _ f args =>
    match f.name? with
    | none => s
    | some callee =>
      let s := exprs calls (s.read callee) args
      if s.scopes.isBound callee || calls.self = some callee then s
      else s.readAll (calls.appended callee args.length)
  | .number _ | .string _ | .boolean .. | .null _ | .other _ => s

/-- Reads expressions one after another. -/
def exprs (calls : Calls) (s : Finding) : List Expr → Finding
  | [] => s
  | e :: es => exprs calls (expr calls s e) es

end

/-- Reads an expression, if there is one. -/
def expr? (calls : Calls) (s : Finding) (e : Option Expr) : Finding :=
  e.elim s (expr calls s)

/-- Reads a declared variable. Its name is bound before its initial value is read. -/
def declarator (calls : Calls) (s : Finding) (d : Declarator) : Finding :=
  expr? calls (s.bindTargets [d.target]) d.init

mutual

/-- Reads a statement. -/
def stmt (calls : Calls) (s : Finding) : Stmt → Finding
  | .vars _ _ _ ds => ds.foldl (declarator calls) s
  | .function head body =>
    let s := (head.name?.elim s s.bind).push.bindTargets (head.params.map Param.target)
    (stmts calls s.push body).pop.pop
  | .block _ body => (stmts calls s.push body).pop
  | .expression _ e => expr calls s e
  | .return_ _ e => expr? calls s e
  | .empty _ | .other _ => s

/-- Reads statements one after another. -/
def stmts (calls : Calls) (s : Finding) : List Stmt → Finding
  | [] => s
  | t :: ts => stmts calls (stmt calls s t) ts

end

/-- The free names of a function. -/
def ofFunction (appended : String → Nat → List String) (head : FunctionHead)
    (body : List Stmt) : List String :=
  let start := Finding.push {} |>.bindTargets (head.params.map Param.target)
  (stmts ⟨appended, head.name?⟩ start.push body).free

end FreeNames

end LambdaLift
