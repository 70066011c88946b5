import LambdaLift.Grammar.Member

/-!
# Expressions

From the inside out: `primary`, then accesses and calls after it (`access`), operators around one
operand (`unary`), chains of binary operators by how tightly they bind (`chain`), conditionals and
assignments.
-/

namespace LambdaLift

namespace Grammar

/-! ## Lists of expressions -/

/-- Whether an expression can start with a token of the given kind. -/
def startsExpression : TokenKind → Bool
  | .identifier | .number | .string | .template | .templateHead => true
  | .punctuator p =>
    match p with
    | .openParen | .openBracket | .openBrace | .plus | .minus | .tilde | .bang | .plusPlus
    | .minusMinus | .slash | .slashEqual => true
    | _ => false
  | .keyword k =>
    match k with
    | .new_ | .delete_ | .typeof_ | .void_ | .super_ | .this_ | .true_ | .false_ | .null_
    | .function_ | .class_ => true
    | _ => false
  | _ => false

/-- An element of a list of expressions, maybe with dots before it. -/
def listElement (g : Rules) : Parse Expr := do
  let start ← position
  if ← accept (.punctuator .ellipsis) then
    let e ← g.assignment
    return .other (.ofKind .expression .spreadElement (← rangeFrom start) [e.node .expression])
  else
    withIn true g.assignment

/-- The next argument. -/
def argumentTurn (g : Rules) : Parse (Turn Expr) := do
  match ← current with
  | .punctuator .closeParen | .endOfFile => return .stop
  | kind =>
    if kind = .punctuator .ellipsis || startsExpression kind then
      turnAtComma (← listElement g)
    else
      report .argumentExpected
      return .stop

/-- Arguments in parentheses. -/
def arguments (g : Rules) : Parse (List Expr) := do
  expect (.punctuator .openParen)
  let args ← many (argumentTurn g)
  expect (.punctuator .closeParen)
  return args

/-- The next element of an array literal. A comma without an element before it leaves one out. -/
def elementTurn (g : Rules) : Parse (Turn Node) := do
  match ← current with
  | .punctuator .closeBracket | .endOfFile => return .stop
  | .punctuator .comma =>
    let start ← position
    advance
    return .next (.ofKind .element .omittedExpression (.empty start) [])
  | _ => turnAtComma ((← listElement g).node .element)

/-- An array literal. -/
def arrayLiteral (g : Rules) : Parse Expr := do
  let start ← position
  expect (.punctuator .openBracket)
  let elements ← many (elementTurn g)
  expect (.punctuator .closeBracket)
  return .other (.ofKind .expression .arrayLiteralExpression (← rangeFrom start) elements)

/-! ## Templates -/

/-- The part of a template after a substitution. -/
def templateRest : Parse (TokenKind × Literal) := do
  if (← current) = .punctuator .closeBrace then
    rescanTemplate
    let kind ← current
    return (kind, ← literal)
  else
    report (.expected Punctuator.closeBrace.text)
    return (.templateTail, ← missingLiteral)

/-- A substitution of a template, and the part after it. -/
def templateSpan (g : Rules) : Parse (Turn Node) := do
  let start ← position
  let e ← expression g
  let (kind, lit) ← templateRest
  let span := .ofKind .span .templateSpan (← rangeFrom start)
    [e.node .expression, lit.node .literal kind]
  return if kind = .templateTail then .last span else .next span

/-- A template, with or without substitutions. -/
def template (g : Rules) : Parse Node := do
  let start ← position
  if (← current) = .template then
    return (← literal).node .expression .template
  else
    let head ← literal
    let spans ← many (templateSpan g)
    return .ofKind .expression .templateExpression (← rangeFrom start)
      (head.node .head .templateHead :: spans)

/-! ## Primary expressions -/

/-- An expression in parentheses. -/
def parenthesized (g : Rules) : Parse Expr := do
  let start ← position
  expect (.punctuator .openParen)
  let inner ← withIn true (expression g)
  expect (.punctuator .closeParen)
  return .paren (← rangeFrom start) inner

/-- A word that is an expression by itself. -/
def keywordExpression (make : Range → Expr) : Parse Expr := do
  let start ← position
  advance
  return make (← rangeFrom start)

/-- A missing expression. The token in its place is passed over, unless the text around the
expression may go on there. -/
def missingExpression : Parse Expr := do
  let start ← position
  report .expressionExpected
  let stays ← look fun l =>
    isRecoveryPoint l.kind || l.kind = .punctuator .closeParen ||
      l.kind = .punctuator .closeBracket || l.kind = .punctuator .semicolon
  if !stays then
    advance
  return .ident ⟨.empty start, "", true⟩

/-- An expression that is not made of others by operators. -/
def primary (g : Rules) : Parse Expr := do
  let start ← position
  match ← current with
  | .identifier =>
    if ← look isAsyncFunction then
      advance
      functionExpression g start true
    else
      return .ident (← name)
  | .number => return .number (← numberLiteral)
  | .string => return .string (← literal)
  | .template | .templateHead => return .other (← template g)
  | .punctuator .slash | .punctuator .slashEqual =>
    rescanSlash
    return .other ((← literal).node .expression .regex)
  | .punctuator .openParen => parenthesized g
  | .punctuator .openBracket => arrayLiteral g
  | .punctuator .openBrace => objectLiteral g
  | .keyword .function_ => functionExpression g start false
  | .keyword .class_ => return .other (← classLike g .classExpression)
  | .keyword .null_ => keywordExpression .null
  | .keyword .true_ => keywordExpression (.boolean · true)
  | .keyword .false_ => keywordExpression (.boolean · false)
  | .keyword .this_ =>
    keywordExpression fun r => .other (.ofToken .expression (.keyword .this_) r)
  | .keyword .super_ =>
    keywordExpression fun r => .other (.ofToken .expression (.keyword .super_) r)
  | _ => missingExpression

/-! ## Accesses and calls -/

/-- The access to a member by name. The current token is the name. -/
def memberAccess (e : Expr) (isOptional : Bool) : Parse Expr := do
  let id ← word
  return .other (.ofKind .expression .propertyAccessExpression (← rangeFrom e.range.start)
    [e.node .expression, id.node .name] { isOptional })

/-- The access to an element. The current token is the opening bracket; the words `in` within are
operators unless the link is optional. -/
def elementAccess (g : Rules) (e : Expr) (isOptional : Bool) : Parse Expr := do
  advance
  let index ← if isOptional then expression g else withIn true (expression g)
  expect (.punctuator .closeBracket)
  return .other (.ofKind .expression .elementAccessExpression (← rangeFrom e.range.start)
    [e.node .expression, index.node .argument] { isOptional })

/-- A call. The current token is the opening parenthesis. -/
def call (g : Rules) (e : Expr) (isOptional : Bool) : Parse Expr := do
  let args ← arguments g
  return .call (← rangeFrom e.range.start) isOptional e args

/-- A template with a tag before it. -/
def taggedTemplate (g : Rules) (e : Expr) : Parse Expr := do
  let t ← template g
  return .other (.ofKind .expression .taggedTemplateExpression (← rangeFrom e.range.start)
    [e.node .tag, t.withRole .template])

/-- A link of an optional chain, after its mark. -/
def optionalLink (g : Rules) (e : Expr) : Parse Expr := do
  match ← current with
  | .punctuator .openParen => call g e true
  | .punctuator .openBracket => elementAccess g e true
  | _ => memberAccess e true

/-- One access or call after `e`, if there is one. The callee of `new` has no calls. -/
def link? (g : Rules) (allowsCalls : Bool) (e : Expr) : Parse (Option Expr) := do
  match ← current with
  | .punctuator .dot =>
    advance
    return some (← memberAccess e false)
  | .punctuator .questionDot =>
    if allowsCalls then
      advance
      return some (← optionalLink g e)
    else
      return none
  | .punctuator .openBracket => return some (← elementAccess g e false)
  | .punctuator .openParen =>
    if allowsCalls then
      return some (← call g e false)
    else
      return none
  | .template | .templateHead => return some (← taggedTemplate g e)
  | _ => return none

/-- What `new` is applied to. -/
def constructed (g : Rules) : Parse Expr := do
  let e ← if (← current) = .keyword .new_ then g.construction else primary g
  iterate (link? g false) e

/-- An expression that starts with `new`. -/
def construction (g : Rules) : Parse Expr := do
  let start ← position
  expect (.keyword .new_)
  match ← nested (pure none) (some <$> constructed g) with
  | none => return .ident (← missingName)
  | some callee =>
    let args? ← if (← current) = .punctuator .openParen then some <$> arguments g else pure none
    return .other (.ofKind .expression .newExpression (← rangeFrom start)
      (callee.node .callee :: Expr.nodes .argument (args?.getD [])) {}
      (.construction args?.isSome))

/-- An expression with accesses and calls after it. -/
def access (g : Rules) : Parse Expr := do
  let e ← if (← current) = .keyword .new_ then construction g else primary g
  iterate (link? g true) e

/-! ## Operators -/

/-- An operand with an operator after it. -/
def updated (g : Rules) : Parse Expr := do
  let e ← access g
  match UpdateOp.ofToken? (← current) with
  | some op =>
    if ← look (·.lineBreakBefore) then
      return e
    else
      advance
      return .update (← rangeFrom e.range.start) op e
  | none => return e

/-- An operand with operators before it. -/
def unary (g : Rules) : Parse Expr := do
  match PrefixOp.ofToken? (← current) with
  | none => updated g
  | some op =>
    nested (.ident <$> missingName) do
      let start ← position
      advance
      let e ← g.unary
      return .unary (← rangeFrom start) op e

/-- The operator `op` at the current token with `left` and the operand that `right` reads. -/
def operation (op : BinaryOp) (left : Expr) (right : Parse Expr) : Parse Expr := do
  let opRange ← tokenRange
  advance
  let r ← right
  return .binary (← rangeFrom left.range.start) op opRange left r

/-- The operator at the current token with its level, if it can continue a chain of operators. -/
def chainOperator? : Parse (Option (BinaryOp × Nat)) := do
  let allowsIn := (← get).allowsIn
  match BinaryOp.ofToken? (← current) with
  | some op => return if op = .isIn && !allowsIn then none else op.level?.map (op, ·)
  | none => return none

/-- The level that operators in a right operand must exceed. Powers group to the right. -/
def rightFloor (op : BinaryOp) (level : Nat) : Nat :=
  if op = .power then level - 1 else level

/-- One more operator after `left`, if there is one that binds tighter than `floor`. -/
def chainStep (g : Rules) (floor : Nat) (left : Expr) : Parse (Option Expr) := do
  match ← chainOperator? with
  | some (op, level) =>
    if floor < level then
      return some (← operation op left (g.chain (rightFloor op level)))
    else
      return none
  | none => return none

/-- A chain of operators that bind tighter than `floor`. -/
def chain (g : Rules) (floor : Nat) : Parse Expr := do
  iterate (chainStep g floor) (← unary g)

/-- A chain of operators, or a choice by one. -/
def conditional (g : Rules) : Parse Expr := do
  let e ← chain g 0
  if ← accept (.punctuator .question) then
    let a ← withIn true g.assignment
    expect (.punctuator .colon)
    let b ← g.assignment
    return .other (.ofKind .expression .conditionalExpression (← rangeFrom e.range.start)
      [e.node .condition, a.node .whenTrue, b.node .whenFalse])
  else
    return e

/-- An expression without a comma at its top: an arrow function, an assignment or a value. -/
def assignment (g : Rules) : Parse Expr :=
  nested (.ident <$> missingName) do
    match ← arrowFunction? g with
    | some e => return e
    | none =>
      let e ← conditional g
      match BinaryOp.ofToken? (← current) with
      | some op => if op.isAssignment then operation op e g.assignment else return e
      | none => return e

end Grammar

end LambdaLift
