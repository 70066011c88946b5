import LambdaLift.Tree.Node
import LambdaLift.Tree.Operator

/-!
# Lifted code

Programs as they are after lifting: names and values as they are written, one variable a
declaration, and calls of named functions only.

* `Code.Expr.text`: an expression as text. Both operands of an operator stand in parentheses.
-/

namespace LambdaLift

namespace Code

/-- Expressions. -/
inductive Expr
  | name (name : String)
  | number (raw : String)
  | string (raw : String)
  | boolean (value : Bool)
  | null
  | paren (inner : Expr)
  | unary (op : PrefixOp) (operand : Expr)
  | update (op : UpdateOp) (operand : Expr)
  | binary (op : BinaryOp) (left right : Expr)
  | assign (target : String) (value : Expr)
  | call (callee : String) (args : List Expr)
deriving Inhabited

/-- Statements. -/
inductive Stmt
  | variable_ (kind : VarKind) (name : String) (init : Option Expr)
  | function (name : String) (params : List String) (body : List Stmt)
  | block (body : List Stmt)
  | expression (e : Expr)
  | return_ (e : Option Expr)
deriving Inhabited

/-- The items with a comma and a space between them. -/
def commaList (items : List String) : String :=
  ", ".intercalate items

mutual

/-- The text of an expression. -/
def Expr.text : Expr → String
  | .name n => n
  | .number raw => raw
  | .string raw => raw
  | .boolean b => if b then "true" else "false"
  | .null => "null"
  | .paren e => "(" ++ e.text ++ ")"
  | .unary op e =>
    op.text ++ (if PrefixOp.needsSpace op.text e.text then " " else "") ++ e.text
  | .update op e => e.text ++ op.text
  | .binary op a b => "(" ++ a.text ++ ") " ++ op.token.text?.getD "" ++ " (" ++ b.text ++ ")"
  | .assign x e => x ++ " = " ++ e.text
  | .call f args => f ++ "(" ++ commaList (Expr.texts args) ++ ")"

/-- The texts of expressions. -/
def Expr.texts : List Expr → List String
  | [] => []
  | e :: es => e.text :: Expr.texts es

end

/-- The value that stands for an argument left out. -/
def Expr.undefined : Expr :=
  .unary .void (.number "0")

end Code

end LambdaLift
