import LambdaLift.Grammar.Rules

/-!
# Names, literals and patterns
-/

namespace LambdaLift

namespace Grammar

/-- A name of no width for one that is missing. -/
def missingName : Parse Ident := do
  return ⟨.empty (← position), "", true⟩

/-- A name where keywords may stand as well. -/
def word : Parse Ident := do
  if (← current).isWord then
    let start ← position
    let name ← look (·.value)
    advance
    return ⟨← rangeFrom start, name, false⟩
  else
    report .identifierExpected
    missingName

/-- A name. -/
def name : Parse Ident := do
  if (← current) = .identifier then
    word
  else
    report .identifierExpected
    missingName

/-- The name at the current token, if it is one. -/
def name? : Parse (Option Ident) := do
  if (← current) = .identifier then
    return some (← name)
  else
    return none

/-- The current token as a literal. -/
def literal : Parse Literal := do
  let start ← position
  let value ← look (·.value)
  let raw ← look (·.text)
  advance
  return ⟨← rangeFrom start, value, raw, false⟩

/-- A literal of no width for one that is missing. -/
def missingLiteral : Parse Literal := do
  return ⟨.empty (← position), "", "", true⟩

/-- The current token as a number. -/
def numberLiteral : Parse NumberLiteral := do
  let start ← position
  let value ← look (·.number)
  let raw ← look (·.text)
  advance
  return ⟨← rangeFrom start, value, raw⟩

/-- The name of a property. -/
inductive PropertyName
  | word (id : Ident)
  | string (lit : Literal)
  | number (lit : NumberLiteral)
  | computed (e : Expr)

/-- The node of the name of a property. -/
def PropertyName.node : PropertyName → Node
  | word id => id.node .name
  | string lit => lit.node .name .string
  | number lit => lit.node .name
  | computed e => e.node .computedName

/-- The name of a property: a word, a string, a number, or an expression in brackets. -/
def propertyName (g : Rules) : Parse PropertyName := do
  match ← current with
  | .string => return .string (← literal)
  | .number => return .number (← numberLiteral)
  | .punctuator .openBracket =>
    advance
    let e ← g.assignment
    expect (.punctuator .closeBracket)
    return .computed e
  | _ => return .word (← word)

/-- Whether the name of a property can start with a token of the given kind. -/
def startsPropertyName : TokenKind → Bool
  | .string | .number | .punctuator .openBracket => true
  | kind => kind.isWord

/-! ## Patterns -/

/-- An element of a pattern, from its parts. -/
def bindingElement (range : Range) (dots : Option Range) (property : Option PropertyName)
    (target : Binding) (init : Option Expr) : Node :=
  .ofKind .element .bindingElement range
    (ellipsisNodes dots ++ (property.map PropertyName.node).toList ++
      target.node .binding :: initializerNodes init)

/-- What a property in a pattern is bound to: what follows a colon, or the property's own name. -/
def propertyTarget (g : Rules) (property : PropertyName) :
    Parse (Option PropertyName × Binding) := do
  if ← accept (.punctuator .colon) then
    return (some property, ← g.binding)
  else
    match property with
    | .word id => return (none, .name id)
    | _ =>
      report (.expected Punctuator.colon.text)
      return (some property, .name (← missingName))

/-- An element of an object pattern. -/
def objectPatternElement (g : Rules) : Parse Node := do
  let start ← position
  match ← accept? (.punctuator .ellipsis) with
  | some dots =>
    let id ← name
    return bindingElement (← rangeFrom start) (some dots) none (.name id) none
  | none =>
    let (property, target) ← propertyTarget g (← propertyName g)
    let init ← initializer g
    return bindingElement (← rangeFrom start) none property target init

/-- The next element of an object pattern. -/
def objectPatternTurn (g : Rules) : Parse (Turn Node) := do
  match ← current with
  | .punctuator .closeBrace | .endOfFile => return .stop
  | _ => turnAtComma (← objectPatternElement g)

/-- A pattern in braces. -/
def objectPattern (g : Rules) : Parse Node := do
  let start ← position
  expect (.punctuator .openBrace)
  let elements ← many (objectPatternTurn g)
  expect (.punctuator .closeBrace)
  return .ofKind .binding .objectBindingPattern (← rangeFrom start) elements

/-- An element of an array pattern. -/
def arrayPatternElement (g : Rules) : Parse Node := do
  let start ← position
  let dots ← accept? (.punctuator .ellipsis)
  let target ← g.binding
  let init ← initializer g
  return bindingElement (← rangeFrom start) dots none target init

/-- The next element of an array pattern. A comma without an element before it leaves a hole. -/
def arrayPatternTurn (g : Rules) : Parse (Turn Node) := do
  match ← current with
  | .punctuator .closeBracket | .endOfFile => return .stop
  | .punctuator .comma =>
    advance
    return .next .hole
  | _ => turnAtComma (← arrayPatternElement g)

/-- A pattern in brackets. -/
def arrayPattern (g : Rules) : Parse Node := do
  let start ← position
  expect (.punctuator .openBracket)
  let elements ← many (arrayPatternTurn g)
  expect (.punctuator .closeBracket)
  return .ofKind .binding .arrayBindingPattern (← rangeFrom start) elements

/-- A name or a pattern. -/
def binding (g : Rules) : Parse Binding := do
  match ← current with
  | .punctuator .openBrace => return .pattern (← objectPattern g)
  | .punctuator .openBracket => return .pattern (← arrayPattern g)
  | _ => return .name (← name)

end Grammar

end LambdaLift
