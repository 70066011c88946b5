import LambdaLift.Grammar.Name

/-!
# Functions and arrow functions
-/

namespace LambdaLift

namespace Grammar

/-- A parameter. -/
def parameter (g : Rules) : Parse Param := do
  let start ← position
  let dots ← accept? (.punctuator .ellipsis)
  let target ← g.binding
  let init ← initializer g
  return ⟨← rangeFrom start, dots, target, init⟩

/-- The next parameter. -/
def parameterTurn (g : Rules) : Parse (Turn Param) := do
  match ← current with
  | .punctuator .closeParen | .endOfFile => return .stop
  | _ => turnAtComma (← parameter g)

/-- Parameters in parentheses. -/
def parameters (g : Rules) : Parse (List Param) := do
  expect (.punctuator .openParen)
  let params ← many (parameterTurn g)
  expect (.punctuator .closeParen)
  return params

/-- The word `function`, and whether a star follows it. -/
def functionWord : Parse Bool := do
  expect (.keyword .function_)
  accept (.punctuator .star)

/-- What follows the name in a function declaration that starts at `start`. -/
def functionRest (g : Rules) (start : Nat) (isAsync isGenerator : Bool) (name : Option Ident) :
    Parse Stmt := do
  let params ← parameters g
  let (bodyRange, body) ← block g
  return .function ⟨← rangeFrom start, isAsync, isGenerator, name, params, bodyRange⟩ body

/-- A function declaration that starts at `start`. The current token is `function`; a word `async`
before it has been read. Only the function of a default export may do without a name. -/
def functionDeclaration (g : Rules) (start : Nat) (isAsync mayBeNameless : Bool) :
    Parse Stmt := do
  let isGenerator ← functionWord
  let name ←
    if mayBeNameless && (← current) = .punctuator .openParen then
      pure none
    else if (← current) = .identifier then
      some <$> Grammar.name
    else do
      report .functionNameExpected
      some <$> missingName
  functionRest g start isAsync isGenerator name

/-- A function expression that starts at `start`. -/
def functionExpression (g : Rules) (start : Nat) (isAsync : Bool) : Parse Expr := do
  let isGenerator ← functionWord
  let name ← name?
  let params ← parameters g
  let body ← block g
  return .other (.ofKind .expression .functionExpression (← rangeFrom start)
    (signatureNodes name params ++ [blockNode .body body]) { isAsync, isGenerator })

/-- Whether `l` stands on the word `async`, with the word `function` after it on the same line. -/
def isAsyncFunction (l : Lexer) : Bool :=
  isName "async" l && l.scan.kind = .keyword .function_ && !l.scan.lineBreakBefore

/-! ## Arrow functions

Whether a name or a parenthesis starts an arrow function shows only at the arrow, so the text is
looked through up to there.
-/

/-- Whether the token after `l` is an arrow on the same line. -/
def arrowFollows (l : Lexer) : Bool :=
  l.scan.kind = .punctuator .arrow && !l.scan.lineBreakBefore

/-- Looks for the bracket that closes the first one, from `l` on with `depth` brackets open, among
at most `bound` tokens, and tells whether an arrow follows it. -/
def arrowAfterBracketsWithin : (bound depth : Nat) → Lexer → Bool
  | 0, _, _ => false
  | bound + 1, depth, l =>
    match l.kind with
    | .punctuator .openParen | .punctuator .openBracket | .punctuator .openBrace
    | .templateHead => arrowAfterBracketsWithin bound (depth + 1) l.scan
    | .punctuator .closeParen | .punctuator .closeBracket | .punctuator .closeBrace =>
      if depth ≤ 1 then arrowFollows l else arrowAfterBracketsWithin bound (depth - 1) l.scan
    | .endOfFile => false
    | _ => arrowAfterBracketsWithin bound depth l.scan

/-- Whether an arrow follows the bracket that closes the one at `l`. -/
def arrowAfterBrackets (l : Lexer) : Bool :=
  arrowAfterBracketsWithin (l.start.rest.length + 1) 0 l

/-- Whether the word `async` at `l` starts an arrow function. -/
def asyncArrowFollows (l : Lexer) : Bool :=
  let next := l.scan
  !next.lineBreakBefore &&
    match next.kind with
    | .identifier => arrowFollows next
    | .punctuator .openParen => arrowAfterBrackets next
    | _ => false

/-- The word `async` before an arrow function: whether it is there, or `none` if it is there and no
arrow function follows. The parameter of an arrow function may be called `async`. -/
def arrowModifier? : Parse (Option Bool) := do
  if (← look (isName "async")) && !(← look arrowFollows) then
    if ← look asyncArrowFollows then
      advance
      return some true
    else
      return none
  else
    return some false

/-- The parameters of an arrow function, if one starts here. -/
def arrowParameters? (g : Rules) : Parse (Option (List Param)) := do
  match ← current with
  | .identifier =>
    if ← look arrowFollows then
      let id ← name
      return some [⟨id.range, none, .name id, none⟩]
    else
      return none
  | .punctuator .openParen =>
    if ← look arrowAfterBrackets then
      return some (← parameters g)
    else
      return none
  | _ => return none

/-- The body of an arrow function: a block or an expression. -/
def arrowBody (g : Rules) : Parse Node := do
  if (← current) = .punctuator .openBrace then
    return blockNode .body (← block g)
  else
    return (← g.assignment).node .body

/-- An arrow function, if one starts here. -/
def arrowFunction? (g : Rules) : Parse (Option Expr) := do
  let start ← position
  match ← arrowModifier? with
  | none => return none
  | some isAsync =>
    match ← arrowParameters? g with
    | none => return none
    | some params =>
      expect (.punctuator .arrow)
      let body ← arrowBody g
      return some (.other (.ofKind .expression .arrowFunction (← rangeFrom start)
        (params.map Param.node ++ [body]) { isAsync }))

end Grammar

end LambdaLift
