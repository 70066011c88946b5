import LambdaLift.Code.Basic
import LambdaLift.Code.Printer

/-!
# The layout of lifted code

Each statement starts a line, and the statements of a block are indented by one level more. A block
without statements is written as `{}`.
-/

namespace LambdaLift

namespace Code

/-- The head of a function up to its body. -/
def functionHead (name : String) (params : List String) : String :=
  "function " ++ name ++ "(" ++ commaList params ++ ") "

/-- A variable with its initial value. -/
def variableText (kind : VarKind) (name : String) (init : Option Expr) : String :=
  kind.text ++ " " ++ name ++ init.elim "" (" = " ++ ·.text) ++ ";"

/-- A return with its value. -/
def returnText (e : Option Expr) : String :=
  "return" ++ e.elim "" (" " ++ ·.text) ++ ";"

mutual

/-- Writes a statement on lines of its own. -/
def Stmt.write (p : Printer) : Stmt → Printer
  | .variable_ kind name init => p.lineStart.write (variableText kind name init)
  | .function name params body =>
    Stmt.writeBlock (p.lineStart.write (functionHead name params)) body
  | .block body => Stmt.writeBlock p.lineStart body
  | .expression e => p.lineStart.write (e.text ++ ";")
  | .return_ e => p.lineStart.write (returnText e)

/-- Writes statements in braces. -/
def Stmt.writeBlock (p : Printer) : List Stmt → Printer
  | [] => p.write "\x7b\x7d"
  | s :: ss =>
    (Stmt.writeAll (Stmt.write (p.write "\x7b").increase s) ss).decrease.lineStart.write "\x7d"

/-- Writes statements one after another. -/
def Stmt.writeAll (p : Printer) : List Stmt → Printer
  | [] => p
  | s :: ss => Stmt.writeAll (Stmt.write p s) ss

end

/-- The text of a block that starts at the margin. -/
def blockText (layout : Layout) (body : List Stmt) : String :=
  (Stmt.writeBlock { layout } body).text

/-- The text of a program. -/
def programText (layout : Layout) (program : List Stmt) : String :=
  (Stmt.writeAll { layout } program).finish

end Code

end LambdaLift
