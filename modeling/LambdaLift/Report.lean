import LambdaLift.Text.Range

/-!
# Reports

Reading a text never fails. What is wrong with it is collected as reports, and the caller decides
whether the tree is of use.

* `Template`: the fixed part of a report, with holes `{0}`, `{1}`, ... in its text.
* `Fault`: every cause of a report, and `Fault.template` with its code and wording.
* `Report`: a fault at a place, with `Report.render` as its printed line.
* `Report.sort`: the order in which reports are shown.
-/

namespace LambdaLift

/-- How grave a report is. -/
inductive Severity
  | warning
  | error
deriving DecidableEq, Inhabited

/-- The word for a severity in a printed report. -/
def Severity.word : Severity → String
  | .warning => "warning"
  | .error => "error"

/-- The fixed part of a report. -/
structure Template where
  code : Nat
  severity : Severity
  text : String

namespace Template

/-- Replaces every occurrence of `hole`, from left to right, by `filling`; `skip` counts the
characters of an occurrence that are still to be dropped. -/
def substitute (hole filling : List Char) : Nat → List Char → List Char
  | _, [] => []
  | skip + 1, _ :: cs => substitute hole filling skip cs
  | 0, c :: cs =>
    if hole.isPrefixOf (c :: cs) then filling ++ substitute hole filling (hole.length - 1) cs
    else c :: substitute hole filling 0 cs

/-- The text of the hole with the given number. -/
def hole (index : Nat) : List Char :=
  '\x7b' :: (toString index).toList ++ ['\x7d']

/-- Fills the holes from `index` on, one argument after another, each over the whole text: a hole
that comes with an argument is filled by a later one. -/
def fillFrom (index : Nat) (text : List Char) : List String → List Char
  | [] => text
  | a :: as => fillFrom (index + 1) (substitute (hole index) a.toList 0 text) as

/-- The text with its holes filled. -/
def fill (t : Template) (arguments : List String) : String :=
  String.ofList (fillFrom 0 t.text.toList arguments)

end Template

/-- Everything that can be wrong with a text. -/
inductive Fault
  | unterminatedString
  | unterminatedComment
  | digitExpected
  | hexDigitExpected
  | invalidCharacter
  | unterminatedTemplate
  | unterminatedRegex
  | invalidEscape
  | nameAfterNumber
  | identifierExpected
  | functionNameExpected
  /-- The given token, or kind of token, is missing. -/
  | expected (what : String)
  | expressionExpected
  | declarationExpected
  | variableExpected
  | argumentExpected
  | propertyExpected
  | handlerExpected
  /-- The text nests deeper than the given number of levels. -/
  | tooDeep (limit : Nat)
deriving DecidableEq

namespace Fault

/-- Code and wording of a fault. -/
def template : Fault → Template
  | unterminatedString => ⟨1002, .error, "Unterminated string literal."⟩
  | unterminatedComment => ⟨1010, .error, "'*/' expected."⟩
  | digitExpected => ⟨1124, .error, "Digit expected."⟩
  | hexDigitExpected => ⟨1125, .error, "Hexadecimal digit expected."⟩
  | invalidCharacter => ⟨1127, .error, "Invalid character."⟩
  | unterminatedTemplate => ⟨1160, .error, "Unterminated template literal."⟩
  | unterminatedRegex => ⟨1161, .error, "Unterminated regular expression literal."⟩
  | invalidEscape => ⟨1198, .error, "Invalid escape sequence."⟩
  | nameAfterNumber =>
    ⟨1351, .error, "An identifier or keyword cannot immediately follow a numeric literal."⟩
  | identifierExpected => ⟨1003, .error, "Identifier expected."⟩
  | functionNameExpected => ⟨1003, .error, "Function name expected."⟩
  | expected _ => ⟨1005, .error, "'\x7b0\x7d' expected."⟩
  | expressionExpected => ⟨1109, .error, "Expression expected."⟩
  | declarationExpected => ⟨1128, .error, "Declaration or statement expected."⟩
  | variableExpected => ⟨1134, .error, "Variable declaration expected."⟩
  | argumentExpected => ⟨1135, .error, "Argument expression expected."⟩
  | propertyExpected => ⟨1136, .error, "Property assignment expected."⟩
  | handlerExpected => ⟨1472, .error, "'catch' or 'finally' expected."⟩
  | tooDeep _ => ⟨1500, .error, "Maximum nesting depth of \x7b0\x7d exceeded."⟩

/-- What fills the holes of a fault's template. -/
def arguments : Fault → List String
  | expected what => [what]
  | tooDeep limit => [toString limit]
  | _ => []

end Fault

/-- Something to tell about a text: what, where, and, once it is known, in which file. -/
structure Report where
  file : Option String
  span : Span
  text : String
  code : Nat
  severity : Severity
deriving DecidableEq, Inhabited

namespace Report

/-- A report at `span`, not yet in a file. -/
def ofTemplate (span : Span) (t : Template) (arguments : List String) : Report :=
  ⟨none, span, t.fill arguments, t.code, t.severity⟩

/-- The report of a fault at `span`. -/
def ofFault (span : Span) (f : Fault) : Report :=
  ofTemplate span f.template f.arguments

/-- Puts the report in a file, unless it is in one. -/
def inFile (file : String) (r : Report) : Report :=
  { r with file := some (r.file.getD file) }

/-- Whether the report is an error. -/
def isError (r : Report) : Bool :=
  r.severity = .error

/-- The printed line, with `place` for the place in the file. A report without a file has no
place. -/
def line (place : String) (r : Report) : String :=
  let body := r.severity.word ++ " JL" ++ toString r.code ++ ": " ++ r.text
  match r.file with
  | some file => file ++ "(" ++ place ++ "): " ++ body
  | none => body

/-- The printed line with line and column. -/
def render (lines : LineMap) (r : Report) : String :=
  r.line (lines.locate r.span.start).text

/-- The printed line with the byte offset. -/
def renderOffset (r : Report) : String :=
  r.line (toString r.span.start)

/-- Whether the first file comes strictly before the second one; no file comes before all. -/
def fileBefore : Option String → Option String → Bool
  | none, none => false
  | none, some _ => true
  | some _, none => false
  | some f, some g => f < g

/-- Whether `a` may stand before `b`: by file, then by offset. -/
def ordered (a b : Report) : Bool :=
  fileBefore a.file b.file || (a.file = b.file && a.span.start ≤ b.span.start)

/-- The reports by file and offset. Reports at one offset keep the order they were made in. -/
def sort (rs : List Report) : List Report :=
  rs.mergeSort ordered

end Report

end LambdaLift
