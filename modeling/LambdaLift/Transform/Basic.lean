import LambdaLift.Files.System
import LambdaLift.Grammar.Recursion
import LambdaLift.Lifting.Basic

/-!
# From program text to lifted program text

A text is transformed only if nothing is wrong with it and all of it can be lifted.
-/

namespace LambdaLift

/-- Why a path cannot be written to. -/
inductive OutputFault
  | empty
  | isDirectory
  | system (e : FileError)
deriving DecidableEq, Inhabited

/-- What is said about a path that cannot be written to. -/
def OutputFault.text : OutputFault → String
  | empty => "path is empty"
  | isDirectory => "path is a directory"
  | system e => e.text

/-- Why a program is not transformed. -/
inductive TransformError
  /-- Something is wrong with the text: a line for each fault. -/
  | parseFailure (file : String) (lines : List String)
  | unsupported (file : String) (construct : Kind) (place : Location)
  | invalidOutput (path : String) (fault : OutputFault)
  | inaccessible (path : String) (cause : FileError)
deriving DecidableEq, Inhabited

namespace TransformError

/-- What is said about the failure. -/
def message : TransformError → String
  | parseFailure file lines =>
    "failed to parse " ++ file ++ ": " ++ toString lines.length ++ " syntax error(s)"
  | unsupported file construct place =>
    file ++ "(" ++ place.text ++ "): unsupported construct: " ++ construct.name
  | invalidOutput path fault => "invalid output path '" ++ path ++ "': " ++ fault.text
  | inaccessible path _ => "cannot access '" ++ path ++ "'"

/-- The status that a program ends with after the failure. -/
def exitCode : TransformError → Nat
  | parseFailure .. | unsupported .. | invalidOutput .. | inaccessible .. => 1

end TransformError

/-- The failure to lift a construct of a text. -/
def Unsupported.inText (u : Unsupported) (file text : String) : TransformError :=
  .unsupported file u.kind ((LineMap.ofText text).locate u.range.start)

/-- Transforms a text, read as the contents of `file`. -/
def transformText (file text : String) : Except TransformError String :=
  let p := Parsed.ofText file text
  if p.hasErrors then
    .error (.parseFailure file (p.reports.map (Report.render (LineMap.ofText text))))
  else
    (Lifting.text {} p.program {}).1.mapError (·.inText file text)

end LambdaLift
