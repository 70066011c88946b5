import LambdaLift.Tree.Stmt

/-!
# Walking a tree

The parts of a tree that lifting looks at, in the order of the text. Statements and expressions
that cannot be lifted are not entered.

* `Stmt.names`: the names that are read.
* `Stmt.functions`: the function declarations, outer ones before the ones in them.
-/

namespace LambdaLift

mutual

/-- The names that an expression reads. -/
def Expr.names : Expr → List Ident
  | .ident id => [id]
  | .paren _ e | .unary _ _ e | .update _ _ e => e.names
  | .binary _ _ _ a b => a.names ++ b.names
  | .call _ _ f args => f.names ++ Expr.namesOfList args
  | .number _ | .string _ | .boolean .. | .null _ | .other _ => []

/-- The names that a list of expressions reads. -/
def Expr.namesOfList : List Expr → List Ident
  | [] => []
  | e :: es => e.names ++ Expr.namesOfList es

end

mutual

/-- The names that a statement reads. -/
def Stmt.names : Stmt → List Ident
  | .vars _ _ _ ds => ds.flatMap fun d => (d.init.map Expr.names).getD []
  | .function _ body | .block _ body => Stmt.namesOfList body
  | .expression _ e => e.names
  | .return_ _ e => (e.map Expr.names).getD []
  | .empty _ | .other _ => []

/-- The names that a list of statements reads. -/
def Stmt.namesOfList : List Stmt → List Ident
  | [] => []
  | s :: ss => s.names ++ Stmt.namesOfList ss

end

mutual

/-- The function declarations in a statement. -/
def Stmt.functions : Stmt → List (FunctionHead × List Stmt)
  | .function head body => (head, body) :: Stmt.functionsOfList body
  | .block _ body => Stmt.functionsOfList body
  | .vars .. | .expression .. | .return_ .. | .empty _ | .other _ => []

/-- The function declarations in a list of statements. -/
def Stmt.functionsOfList : List Stmt → List (FunctionHead × List Stmt)
  | [] => []
  | s :: ss => s.functions ++ Stmt.functionsOfList ss

end

end LambdaLift
