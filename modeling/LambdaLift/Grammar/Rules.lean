import LambdaLift.Grammar.State
import LambdaLift.Tree.Stmt

/-!
# The productions that others refer to

Every production is defined once, over a record with the recursive ones, and `Grammar.Recursion`
ties the knot. So each production can be read, and reasoned about, by itself.
-/

namespace LambdaLift

namespace Grammar

/-- The productions that occur in themselves. -/
structure Rules where
  statement : Parse Stmt
  /-- An expression without a comma at its top. -/
  assignment : Parse Expr
  /-- A chain of operators that bind tighter than `floor`. -/
  chain : (floor : Nat) → Parse Expr
  /-- An operand of a chain. -/
  unary : Parse Expr
  /-- An expression with accesses and calls after it. -/
  access : Parse Expr
  /-- An expression that starts with `new`. -/
  construction : Parse Expr
  /-- A name or a pattern of names. -/
  binding : Parse Binding

/-- One more operand of a comma after `left`, if there is one. -/
def commaStep (g : Rules) (left : Expr) : Parse (Option Expr) := do
  if (← current) = .punctuator .comma then
    let opRange ← tokenRange
    advance
    let right ← g.assignment
    return some (.binary (← rangeFrom left.range.start) .comma opRange left right)
  else
    return none

/-- Further operands of a comma after the expression `first`. -/
def commaChain (g : Rules) (first : Expr) : Parse Expr :=
  iterate (commaStep g) first

/-- An expression, with commas. -/
def expression (g : Rules) : Parse Expr := do
  commaChain g (← g.assignment)

/-- An initial value after an equals sign, if there is one. -/
def initializer (g : Rules) : Parse (Option Expr) := do
  if ← accept (.punctuator .equal) then
    return some (← g.assignment)
  else
    return none

/-- The next of several statements. One that makes no sense is passed over. -/
def statementTurn (g : Rules) (isEnd : TokenKind → Bool) : Parse (Turn Stmt) := do
  let kind ← current
  if isEnd kind || kind = .endOfFile then
    return .stop
  else
    let start ← position
    let s ← g.statement
    recover start
    return .next s

/-- Statements up to the end of the text or a kind of token that ends them. -/
def statements (g : Rules) (isEnd : TokenKind → Bool) : Parse (List Stmt) :=
  many (statementTurn g isEnd)

/-- Statements in braces, and their place. -/
def block (g : Rules) : Parse (Range × List Stmt) := do
  let start ← position
  expect (.punctuator .openBrace)
  let body ← statements g (· = .punctuator .closeBrace)
  expect (.punctuator .closeBrace)
  return (← rangeFrom start, body)

/-- The node of a block. -/
def blockNode (role : Role) (b : Range × List Stmt) : Node :=
  .ofKind role .block b.1 (Stmt.nodes b.2)

end Grammar

end LambdaLift
