import LambdaLift.Token.Reading
import LambdaLift.Token.Trivia

/-!
# The lexer

A lexer stands on a token of a text and has collected the reports so far. Moving on gives a new
lexer, so looking ahead is moving on and forgetting the result.

A slash and a closing brace can be the start of a longer token, which only the grammar knows; for
those the current token is read again (`rescanSlash`, `rescanTemplate`).
-/

namespace LambdaLift

/-- A token of a text: what it is, where it stands, and how it is written. -/
structure Token where
  kind : TokenKind
  range : Range
  flags : TokenFlags

/-- A token of a text, and the reports made up to it. The token runs from `start` to `here`. -/
structure Lexer where
  start : Cursor
  here : Cursor
  kind : TokenKind
  value : String
  number : Float
  flags : TokenFlags
  reports : List Report

namespace Lexer

/-- Before the first token of a text. -/
def ofText (text : String) : Lexer where
  start := .ofText text
  here := .ofText text
  kind := .unknown
  value := ""
  number := Binary64.zero
  flags := {}
  reports := []

/-- Passes a first line that names the program to run the text with. -/
def skipShebang (l : Lexer) : Lexer :=
  if l.here.offset = 0 && l.here.startsWith ['#', '!'] then
    { l with here := Trivia.lineComment (l.here.skip 2) }
  else l

/-- The next token. -/
def scan (l : Lexer) : Lexer :=
  let trivia := Trivia.skip l.here
  let lexeme := Lexeme.read trivia.stop
  { start := trivia.stop
    here := lexeme.stop
    kind := lexeme.kind
    value := String.ofList lexeme.value
    number := lexeme.number
    flags := lexeme.flags.or { lineBreakBefore := trivia.lineBreak }
    reports := l.reports ++ trivia.reports ++ lexeme.reports }

/-- Puts a longer reading in place of the current token. How the token was written before stays on
record. -/
def reread (l : Lexer) (lexeme : Lexeme) : Lexer :=
  { l with
    here := lexeme.stop
    kind := lexeme.kind
    value := String.ofList lexeme.value
    flags := l.flags.or lexeme.flags
    reports := l.reports ++ lexeme.reports }

/-- Reads the current slash again as the start of a regular expression. -/
def rescanSlash (l : Lexer) : Lexer :=
  l.reread (Quoted.regex l.start)

/-- Reads the current closing brace again as the end of a substitution in a template. -/
def rescanTemplate (l : Lexer) : Lexer :=
  l.reread (Quoted.templatePiece false l.start (l.start.skip 1))

/-- The token as it is written. -/
def text (l : Lexer) : String :=
  String.ofList (l.start.textTo l.here)

/-- The place of the token. -/
def range (l : Lexer) : Range :=
  ⟨l.start.offset, l.here.offset⟩

/-- The current token. -/
def token (l : Lexer) : Token :=
  ⟨l.kind, l.range, l.flags⟩

/-- Whether a line ends before the token. -/
def lineBreakBefore (l : Lexer) : Bool :=
  l.flags.lineBreakBefore

/-- A token to come back to, and the number of reports made up to it. -/
structure Mark where
  lexer : Lexer
  reportCount : Nat

/-- Remembers the current token. -/
def mark (l : Lexer) : Mark :=
  ⟨l, l.reports.length⟩

/-- Goes back to a remembered token and forgets the reports made since. Reports that were taken
away since do not come back. -/
def restore (l : Lexer) (m : Mark) : Lexer :=
  { m.lexer with reports := l.reports.take m.reportCount }

/-- The lexer without its reports. -/
def clearReports (l : Lexer) : Lexer :=
  { l with reports := [] }

end Lexer

end LambdaLift
