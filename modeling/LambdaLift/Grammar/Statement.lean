import LambdaLift.Grammar.Expression
import LambdaLift.Grammar.Module

/-!
# Statements
-/

namespace LambdaLift

namespace Grammar

/-! ## Variables -/

/-- The word of a variable declaration, by its token. -/
def variableWord : TokenKind → VarKind
  | .keyword .let_ => .let_
  | .keyword .const_ => .const_
  | _ => .var

/-- One variable with its initial value. -/
def declarator (g : Rules) : Parse Declarator := do
  let start ← position
  let target ← g.binding
  let init ← initializer g
  return ⟨← rangeFrom start, target, init⟩

/-- The next variable of a declaration. -/
def variableTurn (g : Rules) : Parse (Turn Declarator) := do
  match ← current with
  | .identifier | .punctuator .openBrace | .punctuator .openBracket =>
    turnAtComma (← declarator g)
  | _ =>
    report .variableExpected
    return .stop

/-- A variable declaration without a semicolon. -/
def variableList (g : Rules) : Parse (Range × VarKind × List Declarator) := do
  let start ← position
  let kind := variableWord (← current)
  advance
  let declarators ← many (variableTurn g)
  return (← rangeFrom start, kind, declarators)

/-- A variable declaration. -/
def variableStatement (g : Rules) : Parse Stmt := do
  let start ← position
  let (listRange, kind, declarators) ← variableList g
  semicolon
  return .vars (← rangeFrom start) listRange kind declarators

/-! ## Simple statements -/

/-- An expression as a statement. -/
def expressionStatement (g : Rules) : Parse Stmt := do
  let start ← position
  let e ← expression g
  semicolon
  return .expression (← rangeFrom start) e

/-- Whether a statement can end before the token, by a semicolon or without one. -/
def endsStatement (l : Lexer) : Bool :=
  l.kind = .punctuator .semicolon || l.kind = .punctuator .closeBrace || l.kind = .endOfFile ||
    l.lineBreakBefore

/-- A return statement. -/
def returnStatement (g : Rules) : Parse Stmt := do
  let start ← position
  expect (.keyword .return_)
  let e ← if ← look endsStatement then pure none else some <$> expression g
  semicolon
  return .return_ (← rangeFrom start) e

/-- A throw statement. -/
def throwStatement (g : Rules) : Parse Node := do
  let start ← position
  expect (.keyword .throw_)
  let e ← expression g
  semicolon
  return .ofKind .statement .throwStatement (← rangeFrom start) [e.node .expression]

/-- A jump out of a statement, maybe one with a label. -/
def jumpStatement (kind : NodeKind) : Parse Node := do
  let start ← position
  advance
  let label ← if ← look (·.lineBreakBefore) then pure none else name?
  semicolon
  return .ofKind .statement kind (← rangeFrom start) (label.map (Ident.node .label)).toList

/-- A stop for whoever watches the program run. -/
def debuggerStatement : Parse Node := do
  let start ← position
  advance
  semicolon
  return .ofKind .statement .debuggerStatement (← rangeFrom start) []

/-- A statement with a label before it. -/
def labeledStatement (g : Rules) : Parse Node := do
  let start ← position
  let label ← name
  expect (.punctuator .colon)
  let body ← g.statement
  return .ofKind .statement .labeledStatement (← rangeFrom start)
    [label.node .label, body.node .body]

/-! ## Choices and loops -/

/-- An expression in parentheses that belong to a statement. -/
def parenthesizedCondition (g : Rules) : Parse Expr := do
  expect (.punctuator .openParen)
  let e ← expression g
  expect (.punctuator .closeParen)
  return e

/-- A choice between two statements. -/
def ifStatement (g : Rules) : Parse Node := do
  let start ← position
  expect (.keyword .if_)
  let e ← parenthesizedCondition g
  let yes ← g.statement
  let no ← if ← accept (.keyword .else_) then some <$> g.statement else pure none
  return .ofKind .statement .ifStatement (← rangeFrom start)
    (e.node .condition :: yes.node .consequent :: (no.map (Stmt.node .alternate)).toList)

/-- A loop with its condition in front. -/
def whileStatement (g : Rules) : Parse Node := do
  let start ← position
  expect (.keyword .while_)
  let e ← parenthesizedCondition g
  let body ← g.statement
  return .ofKind .statement .whileStatement (← rangeFrom start) [e.node .condition, body.node .body]

/-- A loop with its condition at the end. -/
def doStatement (g : Rules) : Parse Node := do
  let start ← position
  expect (.keyword .do_)
  let body ← g.statement
  expect (.keyword .while_)
  let e ← parenthesizedCondition g
  semicolon
  return .ofKind .statement .doStatement (← rangeFrom start) [body.node .body, e.node .condition]

/-- A statement within the scope of an object. -/
def withStatement (g : Rules) : Parse Node := do
  let start ← position
  expect (.keyword .with_)
  let e ← parenthesizedCondition g
  let body ← g.statement
  return .ofKind .statement .withStatement (← rangeFrom start)
    [e.node .expression, body.node .body]

/-- What a loop starts with. -/
def loopStart (g : Rules) : Parse (Option Node) := do
  match ← current with
  | .punctuator .semicolon => return none
  | .keyword .var_ | .keyword .let_ | .keyword .const_ =>
    let (range, kind, declarators) ← withIn false (variableList g)
    return some (variablesNode .initializer range kind declarators)
  | _ => return some ((← withIn false (expression g)).node .initializer)

/-- The loop over the members or the elements of a value that a word at the current token says. -/
def memberLoop? : Parse (Option NodeKind) := do
  if (← current) = .keyword .in_ then
    return some .forInStatement
  else if ← look (isName "of") then
    return some .forOfStatement
  else
    return none

/-- A loop over the members or the elements of a value, from the word in its head on. -/
def memberLoop (g : Rules) (start : Nat) (kind : NodeKind) (init : Node) : Parse Node := do
  advance
  let e ← if kind = .forInStatement then expression g else g.assignment
  expect (.punctuator .closeParen)
  let body ← g.statement
  return .ofKind .statement kind (← rangeFrom start)
    [init, e.node .expression, body.node .body]

/-- An expression, unless the current token is of the given kind. -/
def expressionUnless (g : Rules) (kind : TokenKind) : Parse (Option Expr) := do
  if (← current) = kind then
    return none
  else
    return some (← expression g)

/-- A loop with a counter, from the first semicolon on. -/
def countingLoop (g : Rules) (start : Nat) (init : Option Node) : Parse Node := do
  expect (.punctuator .semicolon)
  let condition ← expressionUnless g (.punctuator .semicolon)
  expect (.punctuator .semicolon)
  let step ← expressionUnless g (.punctuator .closeParen)
  expect (.punctuator .closeParen)
  let body ← g.statement
  return .ofKind .statement .forStatement (← rangeFrom start)
    (init.toList ++ (condition.map (Expr.node .condition)).toList ++
      (step.map (Expr.node .incrementor)).toList ++ [body.node .body])

/-- A loop that starts with `for`. -/
def forStatement (g : Rules) : Parse Node := do
  let start ← position
  expect (.keyword .for_)
  expect (.punctuator .openParen)
  match ← loopStart g with
  | some init =>
    match ← memberLoop? with
    | some kind => memberLoop g start kind init
    | none => countingLoop g start (some init)
  | none => countingLoop g start none

/-! ## Clauses -/

/-- Whether a kind of token ends the statements of a clause. -/
def endsClause (kind : TokenKind) : Bool :=
  kind = .keyword .case_ || kind = .keyword .default_ || kind = .punctuator .closeBrace

/-- The colon and the statements of a clause that starts at `start`. -/
def clauseBody (g : Rules) (start : Nat) (kind : NodeKind) (e : List Node) :
    Parse (Turn Node) := do
  expect (.punctuator .colon)
  let body ← statements g endsClause
  return .next (.ofKind .clause kind (← rangeFrom start) (e ++ Stmt.nodes body))

/-- The next clause of a choice. -/
def clauseTurn (g : Rules) : Parse (Turn Node) := do
  let start ← position
  match ← current with
  | .keyword .case_ =>
    advance
    let e ← expression g
    clauseBody g start .caseClause [e.node .expression]
  | .keyword .default_ =>
    advance
    clauseBody g start .defaultClause []
  | _ => return .stop

/-- A choice among clauses by a value. -/
def switchStatement (g : Rules) : Parse Node := do
  let start ← position
  expect (.keyword .switch_)
  let e ← parenthesizedCondition g
  expect (.punctuator .openBrace)
  let clauses ← many (clauseTurn g)
  expect (.punctuator .closeBrace)
  return .ofKind .statement .switchStatement (← rangeFrom start) (e.node .expression :: clauses)

/-- The name or pattern for an error, if there is one. -/
def catchBinding (g : Rules) : Parse (List Node) := do
  if ← accept (.punctuator .openParen) then
    let target ← g.binding
    expect (.punctuator .closeParen)
    return [target.node .binding]
  else
    return []

/-- What is done about an error. -/
def catchClause? (g : Rules) : Parse (Option Node) := do
  let start ← position
  if ← accept (.keyword .catch_) then
    let target ← catchBinding g
    let body ← block g
    return some (.ofKind .catchClause .catchClause (← rangeFrom start)
      (target ++ [blockNode .body body]))
  else
    return none

/-- What is done in any case. -/
def finallyBlock? (g : Rules) : Parse (Option Node) := do
  if ← accept (.keyword .finally_) then
    return some (blockNode .finallyBlock (← block g))
  else
    return none

/-- A block with what is done about errors in it. -/
def tryStatement (g : Rules) : Parse Node := do
  let start ← position
  expect (.keyword .try_)
  let body ← block g
  let handler ← catchClause? g
  let cleanup ← finallyBlock? g
  if handler.isNone && cleanup.isNone then
    report .handlerExpected
  return .ofKind .statement .tryStatement (← rangeFrom start)
    (blockNode .tryBlock body :: handler.toList ++ cleanup.toList)

/-! ## All statements -/

/-- Whether `l` stands on a name with a colon after it. -/
def isLabel (l : Lexer) : Bool :=
  l.scan.kind = .punctuator .colon

/-- A statement that starts with the keyword `k`. -/
def keywordStatement (g : Rules) (k : Keyword) : Parse Stmt := do
  match k with
  | .var_ | .let_ | .const_ => variableStatement g
  | .function_ => functionDeclaration g (← position) false false
  | .class_ => return .other (← classLike g .classDeclaration)
  | .if_ => return .other (← ifStatement g)
  | .return_ => returnStatement g
  | .while_ => return .other (← whileStatement g)
  | .for_ => return .other (← forStatement g)
  | .do_ => return .other (← doStatement g)
  | .break_ => return .other (← jumpStatement .breakStatement)
  | .continue_ => return .other (← jumpStatement .continueStatement)
  | .throw_ => return .other (← throwStatement g)
  | .try_ => return .other (← tryStatement g)
  | .switch_ => return .other (← switchStatement g)
  | .with_ => return .other (← withStatement g)
  | .debugger_ => return .other (← debuggerStatement)
  | .import_ => return .other (← importDeclaration)
  | .export_ => return .other (← exportDeclaration g)
  | _ => expressionStatement g

/-- A statement, by its first tokens. -/
def statementBody (g : Rules) : Parse Stmt := do
  let start ← position
  match ← current with
  | .punctuator .semicolon =>
    advance
    return .empty (← rangeFrom start)
  | .punctuator .openBrace =>
    let (range, body) ← block g
    return .block range body
  | .keyword k => keywordStatement g k
  | .identifier =>
    if ← look isAsyncFunction then
      advance
      functionDeclaration g start true false
    else if ← look isLabel then
      return .other (← labeledStatement g)
    else
      expressionStatement g
  | _ => expressionStatement g

/-- An empty statement of no width for one that is nested too deep. -/
def missingStatement : Parse Stmt := do
  return .empty (.empty (← position))

/-- A statement. -/
def statement (g : Rules) : Parse Stmt :=
  nested missingStatement (statementBody g)

end Grammar

end LambdaLift
