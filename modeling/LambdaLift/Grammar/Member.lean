import LambdaLift.Grammar.Function

/-!
# Classes and object literals
-/

namespace LambdaLift

namespace Grammar

/-- Whether the word at `l` (`static`, `async`, `get`, `set`) says something about a member that
follows, and is not the name of a member itself. -/
def modifiesMember (l : Lexer) : Bool :=
  match l.scan.kind with
  | .punctuator .openParen | .punctuator .equal | .punctuator .semicolon
  | .punctuator .closeBrace | .punctuator .colon | .punctuator .comma | .endOfFile => false
  | _ => true

/-- What stands before the name of a member. -/
structure MemberWords where
  kind : NodeKind
  isAsync : Bool
  isGenerator : Bool

/-- A function that is not just a method of no further description. -/
def MemberWords.isMarked (m : MemberWords) : Bool :=
  m.kind ≠ .methodDeclaration || m.isAsync || m.isGenerator

/-- The words `get`, `set`, `async` and a star before the name of a member. -/
def memberWords : Parse MemberWords := do
  if ← look fun l => isName "get" l && modifiesMember l then
    advance
    return ⟨.getAccessor, false, false⟩
  else if ← look fun l => isName "set" l && modifiesMember l then
    advance
    return ⟨.setAccessor, false, false⟩
  else
    let isAsync ← look fun l => isName "async" l && modifiesMember l && !l.scan.lineBreakBefore
    if isAsync then
      advance
    let isGenerator ← accept (.punctuator .star)
    return ⟨.methodDeclaration, isAsync, isGenerator⟩

/-- A method that starts at `start`, from its parameters on. -/
def method (g : Rules) (start : Nat) (words : MemberWords) (isStatic : Bool)
    (property : PropertyName) : Parse Node := do
  let params ← parameters g
  let body ← block g
  return .ofKind .member words.kind (← rangeFrom start)
    (property.node :: params.map Param.node ++ [blockNode .body body])
    { isAsync := words.isAsync, isGenerator := words.isGenerator, isStatic }

/-! ## Classes -/

/-- A method or a field of a class that starts at `start`. -/
def methodOrField (g : Rules) (start : Nat) (isStatic : Bool) : Parse Node := do
  let words ← memberWords
  let property ← propertyName g
  if words.kind ≠ .methodDeclaration || (← current) = .punctuator .openParen then
    method g start words isStatic property
  else
    let init ← initializer g
    semicolon
    return .ofKind .member .propertyDeclaration (← rangeFrom start)
      (property.node :: initializerNodes init)
      { isAsync := words.isAsync, isGenerator := words.isGenerator, isStatic }

/-- A member of a class. -/
def classMember (g : Rules) : Parse Node := do
  let start ← position
  if ← accept (.punctuator .semicolon) then
    return .ofKind .member .semicolonClassElement (← rangeFrom start) []
  else if ← look fun l => isName "static" l && modifiesMember l then
    advance
    if (← current) = .punctuator .openBrace then
      return blockNode .staticBlock (← block g)
    else
      methodOrField g start true
  else
    methodOrField g start false

/-- The next member of a class. One that reads nothing costs a token. -/
def memberTurn (g : Rules) : Parse (Turn Node) := do
  match ← current with
  | .punctuator .closeBrace | .endOfFile => return .stop
  | _ =>
    let start ← position
    let m ← classMember g
    if (← position) = start then
      advance
    return .next m

/-- The members of a class. -/
def classMembers (g : Rules) : Parse (List Node) :=
  many (memberTurn g)

/-- The class that another one extends. -/
def heritage (g : Rules) : Parse (Option Expr) := do
  if ← accept (.keyword .extends_) then
    return some (← g.access)
  else
    return none

/-- A class declaration or expression. Only a class expression may do without a name. -/
def classLike (g : Rules) (kind : NodeKind) : Parse Node := do
  let start ← position
  expect (.keyword .class_)
  let name ← name?
  if name.isNone && kind = .classDeclaration then
    report .identifierExpected
  let parent ← heritage g
  expect (.punctuator .openBrace)
  let members ← classMembers g
  expect (.punctuator .closeBrace)
  return .ofKind .statement kind (← rangeFrom start)
    ((name.map (Ident.node .name)).toList ++ (parent.map (Expr.node .heritage)).toList ++ members)

/-! ## Object literals -/

/-- What follows the name of a property of an object literal that is not a method. -/
def propertyValue (g : Rules) (start : Nat) (property : PropertyName) : Parse Node := do
  if ← accept (.punctuator .colon) then
    let value ← g.assignment
    return .ofKind .property .propertyAssignment (← rangeFrom start)
      [property.node, value.node .initializer]
  else
    match property with
    | .word id =>
      let init ← initializer g
      return .ofKind .property .shorthandPropertyAssignment (← rangeFrom start)
        (id.node .name :: initializerNodes init)
    | _ =>
      report (.expected Punctuator.colon.text)
      let missing ← missingName
      return .ofKind .property .propertyAssignment (← rangeFrom start)
        [property.node, missing.node .initializer]

/-- A property of an object literal. -/
def objectProperty (g : Rules) : Parse Node := do
  let start ← position
  if ← accept (.punctuator .ellipsis) then
    let e ← g.assignment
    return .ofKind .property .spreadAssignment (← rangeFrom start) [e.node .expression]
  else
    if !startsPropertyName (← current) then
      report .propertyExpected
    let words ← memberWords
    let property ← propertyName g
    if words.isMarked || (← current) = .punctuator .openParen then
      method g start words false property
    else
      propertyValue g start property

/-- The next property of an object literal. -/
def propertyTurn (g : Rules) : Parse (Turn Node) := do
  match ← current with
  | .punctuator .closeBrace | .endOfFile => return .stop
  | _ => turnAtComma (← objectProperty g)

/-- An object literal. -/
def objectLiteral (g : Rules) : Parse Expr := do
  let start ← position
  expect (.punctuator .openBrace)
  let properties ← many (propertyTurn g)
  expect (.punctuator .closeBrace)
  return .other (.ofKind .expression .objectLiteralExpression (← rangeFrom start) properties)

end Grammar

end LambdaLift
