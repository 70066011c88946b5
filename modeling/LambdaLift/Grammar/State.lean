import LambdaLift.Token.Lexer

/-!
# Reading by a grammar

A production of the grammar is a `Parse`: a step from one `State` to the next that gives a part of
the tree. A text that is wrong is reported and read on, so a step always gives something; `none`
stands for a loop or recursion that went on for longer than its bound, which no text brings about.

* `current`, `advance`, `expect`, `accept`: the tokens.
* `report`: tells of a fault at the current token.
* `many`, `iterate`: loops, bounded by the characters that are left.
* `nested`: a construct that counts as a level of nesting. At the first one beyond the limit the
  rest of the text is skipped, and from then on `report` does nothing.
-/

namespace LambdaLift

namespace Grammar

/-- The number of levels a text may nest. -/
def nestingLimit : Nat := 200

/-- How far a text has been read. -/
structure State where
  /-- Stands on the first token that is not read. -/
  lexer : Lexer
  /-- Where the last token that was read ends. -/
  previousEnd : Nat
  /-- The tokens that were read, the last one first. Nothing is decided by them. -/
  tokens : List Token
  /-- What the grammar found wrong. -/
  reports : List Report
  /-- The number of nested constructs around the current token. -/
  depth : Nat
  /-- The text nests too deep, and the rest of it was skipped. -/
  isAborted : Bool
  /-- Whether the word `in` is an operator here. In the head of a loop it is not. -/
  allowsIn : Bool

/-- The number of characters from the current token on. -/
def State.remaining (s : State) : Nat :=
  s.lexer.start.rest.length

/-- A step of reading. -/
abbrev Parse (α : Type) := StateT State Option α

variable {α : Type}

/-- Something about the current token and those after it. Nothing is read. -/
def look (f : Lexer → α) : Parse α := do
  return f (← get).lexer

/-- The kind of the current token. -/
def current : Parse TokenKind :=
  look (·.kind)

/-- Where the current token starts. -/
def position : Parse Nat :=
  look (·.start.offset)

/-- The place of the current token. -/
def tokenRange : Parse Range :=
  look (·.range)

/-- The range from `start` to the end of the last token that was read. -/
def rangeFrom (start : Nat) : Parse Range := do
  return ⟨start, (← get).previousEnd⟩

/-- Reads the current token. -/
def advance : Parse Unit :=
  modify fun s =>
    { s with
      lexer := s.lexer.scan
      previousEnd := s.lexer.here.offset
      tokens := s.lexer.token :: s.tokens }

/-- Reads the current slash as the start of a regular expression. -/
def rescanSlash : Parse Unit :=
  modify fun s => { s with lexer := s.lexer.rescanSlash }

/-- Reads the current closing brace as the end of a substitution in a template. -/
def rescanTemplate : Parse Unit :=
  modify fun s => { s with lexer := s.lexer.rescanTemplate }

/-- Tells of a fault at the given place. -/
def reportAt (span : Span) (fault : Fault) : Parse Unit :=
  modify fun s => { s with reports := s.reports ++ [.ofFault span fault] }

/-- Tells of a fault at the current token, unless the rest of the text is skipped. -/
def report (fault : Fault) : Parse Unit := do
  if !(← get).isAborted then
    reportAt (← tokenRange).span fault

/-- Reads a token of the given kind, if it is the current one, and gives its place. -/
def accept? (kind : TokenKind) : Parse (Option Range) := do
  if (← current) = kind then
    let range ← tokenRange
    advance
    return some range
  else
    return none

/-- Reads a token of the given kind, if it is the current one. -/
def accept (kind : TokenKind) : Parse Bool := do
  return (← accept? kind).isSome

/-- Reads a token of the given kind, or reports that it is missing. -/
def expect (kind : TokenKind) : Parse Unit := do
  if !(← accept kind) then
    report (.expected (kind.text?.getD "token"))

/-- Reads a semicolon, if there is one. Statements may do without. -/
def semicolon : Parse Unit :=
  discard (accept (.punctuator .semicolon))

/-! ## Words that are names elsewhere -/

/-- Whether a token is the name `word`. -/
def isName (word : String) (l : Lexer) : Bool :=
  l.kind = .identifier && l.value = word

/-- Reads the name `word`, or reports that it is missing. -/
def expectName (word : String) : Parse Unit := do
  if ← look (isName word) then
    advance
  else
    report (.expected word)

/-! ## Loops -/

/-- What a turn of a loop says about the next one. -/
inductive Turn (α : Type)
  /-- The loop is over. -/
  | stop
  /-- The loop is over after this item. -/
  | last (a : α)
  /-- The loop goes on after this item. -/
  | next (a : α)

/-- Takes turns up to the last one, at most `bound` of them. -/
def manyWithin (turn : Parse (Turn α)) : Nat → Parse (List α)
  | 0 => failure
  | bound + 1 => do
    match ← turn with
    | .stop => return []
    | .last a => return [a]
    | .next a => return a :: (← manyWithin turn bound)

/-- Takes turns up to the last one. Every turn but the last reads a token. -/
def many (turn : Parse (Turn α)) : Parse (List α) := do
  manyWithin turn ((← get).remaining + 2)

/-- Goes on from `a` as long as there is a next value, for at most `bound` steps. -/
def iterateWithin (step : α → Parse (Option α)) : Nat → α → Parse α
  | 0, _ => failure
  | bound + 1, a => do
    match ← step a with
    | some b => iterateWithin step bound b
    | none => return a

/-- Goes on from `a` as long as there is a next value. Every step but the last reads a token. -/
def iterate (step : α → Parse (Option α)) (a : α) : Parse α := do
  iterateWithin step ((← get).remaining + 2) a

/-- Reads the current token, unless its kind satisfies `p`. -/
def skipStep (p : TokenKind → Bool) : Unit → Parse (Option Unit) := fun _ => do
  if p (← current) then
    return none
  else
    advance
    return some ()

/-- Reads up to the first token of a kind that satisfies `p`. -/
def skipTo (p : TokenKind → Bool) : Parse Unit :=
  iterate (skipStep p) ()

/-- The items of a list with commas between them: after an item the list goes on if there is a
comma. -/
def turnAtComma (a : α) : Parse (Turn α) := do
  return if ← accept (.punctuator .comma) then .next a else .last a

/-! ## Nesting -/

/-- Skips the rest of the text. -/
def abort : Parse Unit := do
  report (.tooDeep nestingLimit)
  modify ({ · with isAborted := true })
  skipTo (· = .endOfFile)

/-- Enters a construct, and tells whether it may be read. -/
def enter : Parse Bool := do
  modify fun s => { s with depth := s.depth + 1 }
  if (← get).isAborted then
    return false
  else if nestingLimit < (← get).depth then
    abort
    return false
  else
    return true

/-- Leaves a construct that was entered. -/
def leave : Parse Unit := do
  match (← get).depth with
  | 0 => failure
  | depth + 1 => modify ({ · with depth })

/-- Reads a construct that counts as a level of nesting. One that is too deep is `missing`. -/
def nested (missing body : Parse α) : Parse α := do
  if ← enter then
    let a ← body
    leave
    return a
  else
    leave
    missing

/-- Reads with the word `in` as an operator or not, as given. -/
def withIn (allowed : Bool) (body : Parse α) : Parse α := do
  let before := (← get).allowsIn
  modify ({ · with allowsIn := allowed })
  let a ← body
  modify ({ · with allowsIn := before })
  return a

/-! ## Recovery -/

/-- Kinds of tokens at which reading goes on after a statement that made no sense. -/
def isRecoveryPoint : TokenKind → Bool
  | .endOfFile | .punctuator .closeBrace => true
  | .keyword k =>
    match k with
    | .var_ | .let_ | .const_ | .function_ | .class_ | .if_ | .for_ | .while_ | .do_ | .switch_
    | .return_ | .throw_ | .try_ | .break_ | .continue_ | .export_ | .import_ => true
    | _ => false
  | _ => false

/-- If nothing was read since the token at `start`, goes on to the next recovery point, or to the
next token if `start` is one. -/
def recover (start : Nat) : Parse Unit := do
  if (← position) = start then
    skipTo isRecoveryPoint
    if (← position) = start then
      advance

end Grammar

end LambdaLift
