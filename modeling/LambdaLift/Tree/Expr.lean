import LambdaLift.Tree.Node
import LambdaLift.Tree.Operator

/-!
# Expressions

`Expr` has a constructor for each kind of expression that can be lifted; the others are kept as
uniform nodes.
-/

namespace LambdaLift

/-- A name in the text. A missing one is empty and has no width. -/
structure Ident where
  range : Range
  name : String
  isMissing : Bool := false
deriving DecidableEq, Inhabited

/-- A string, a template piece or a regular expression: contents with escapes resolved, and the
literal as written. -/
structure Literal where
  range : Range
  value : String
  raw : String
  isMissing : Bool := false
deriving DecidableEq, Inhabited

/-- A number: its value, and the number as written. -/
structure NumberLiteral where
  range : Range
  value : Float
  raw : String
deriving Inhabited

/-- Expressions. -/
inductive Expr
  | ident (id : Ident)
  | number (lit : NumberLiteral)
  | string (lit : Literal)
  | boolean (range : Range) (value : Bool)
  | null (range : Range)
  | paren (range : Range) (inner : Expr)
  | unary (range : Range) (op : PrefixOp) (operand : Expr)
  | update (range : Range) (op : UpdateOp) (operand : Expr)
  | binary (range : Range) (op : BinaryOp) (opRange : Range) (left right : Expr)
  | call (range : Range) (isOptional : Bool) (callee : Expr) (args : List Expr)
  /-- An expression of any other kind. -/
  | other (node : Node)
deriving Inhabited

namespace Ident

/-- The node of a name. -/
def node (role : Role) (id : Ident) : Node :=
  .node role (.token .identifier) id.range { isMissing := id.isMissing } (.name id.name) []

end Ident

namespace Literal

/-- The node of a literal of the given kind. -/
def node (role : Role) (kind : TokenKind) (lit : Literal) : Node :=
  .node role (.token kind) lit.range { isMissing := lit.isMissing } (.literal lit.value lit.raw) []

end Literal

namespace NumberLiteral

/-- The node of a number. -/
def node (role : Role) (lit : NumberLiteral) : Node :=
  .node role (.token .number) lit.range {} (.number lit.value lit.raw) []

end NumberLiteral

namespace Expr

/-- The place of an expression. -/
def range : Expr → Range
  | ident id => id.range
  | number lit => lit.range
  | string lit => lit.range
  | boolean r _ | null r | paren r _ | unary r .. | update r .. | binary r .. | call r .. => r
  | other node => node.range

/-- The kind of an expression. -/
def kind : Expr → Kind
  | ident _ => .token .identifier
  | number _ => .token .number
  | string _ => .token .string
  | boolean _ b => .token (.keyword (if b then .true_ else .false_))
  | null _ => .token (.keyword .null_)
  | paren .. => .node .parenthesizedExpression
  | unary .. => .node .prefixUnaryExpression
  | update .. => .node .postfixUnaryExpression
  | binary .. => .node .binaryExpression
  | call .. => .node .callExpression
  | other node => node.kind

/-- The name, if the expression is one. -/
def name? : Expr → Option String
  | ident id => some id.name
  | _ => none

mutual

/-- The node of an expression. -/
def node (role : Role) : Expr → Node
  | ident id => id.node role
  | number lit => lit.node role
  | string lit => lit.node role .string
  | boolean r b => .ofToken role (.keyword (if b then .true_ else .false_)) r
  | null r => .ofToken role (.keyword .null_) r
  | paren r e => .ofKind role .parenthesizedExpression r [node .expression e]
  | unary r op e =>
    .ofKind role .prefixUnaryExpression r [node .operand e] {} (.operator op.token)
  | update r op e =>
    .ofKind role .postfixUnaryExpression r [node .operand e] {} (.operator op.token)
  | binary r op opRange a b =>
    .ofKind role .binaryExpression r
      [node .left a, .ofToken .operator op.token opRange, node .right b]
  | call r isOptional callee args =>
    .ofKind role .callExpression r (node .callee callee :: nodes .argument args) { isOptional }
      (.callee callee.name?)
  | other n => n.withRole role

/-- The nodes of expressions in one role. -/
def nodes (role : Role) : List Expr → List Node
  | [] => []
  | e :: es => node role e :: nodes role es

end

end Expr

end LambdaLift
