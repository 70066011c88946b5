import LambdaLift.Grammar.Statement

/-!
# The grammar as a whole

* `rules`: the productions, with a bound on how deep they occur in each other.
* `Parsed.ofText`: the tree of a text and all that is wrong with it.
-/

namespace LambdaLift

namespace Grammar

/-- The productions, occurring in each other at most `bound` levels deep. -/
def rules : (bound : Nat) → Rules
  | 0 =>
    { statement := failure
      assignment := failure
      chain := fun _ => failure
      unary := failure
      access := failure
      construction := failure
      binding := failure }
  | bound + 1 =>
    { statement := fun s => statement (rules bound) s
      assignment := fun s => assignment (rules bound) s
      chain := fun floor s => chain (rules bound) floor s
      unary := fun s => unary (rules bound) s
      access := fun s => access (rules bound) s
      construction := fun s => construction (rules bound) s
      binding := fun s => binding (rules bound) s }

/-- At the first token of a text. -/
def State.ofText (text : String) : State where
  lexer := (Lexer.ofText text).skipShebang.scan
  previousEnd := (Lexer.ofText text).skipShebang.here.offset
  tokens := []
  reports := []
  depth := 0
  isAborted := false
  allowsIn := true

/-- A bound that no text reaches: a production that occurs in another one without a token read in
between stands for a smaller construct. -/
def recursionBound (text : String) : Nat :=
  8 * (text.length + 2)

/-- All statements of a text. -/
def program (g : Rules) : Parse (List Stmt) :=
  statements g (· = .endOfFile)

/-- Reads a whole text. -/
def run? (text : String) : Option (List Stmt × State) :=
  program (rules (recursionBound text)) (.ofText text)

end Grammar

/-- The tree of a text, and what is wrong with the text, by offset. -/
structure Parsed where
  file : String
  program : Program
  reports : List Report
deriving Inhabited

namespace Parsed

/-- What reading a text as the contents of `file` gives, with the last state of the grammar. Faults
in tokens come before other faults at the same offset. -/
def ofRun (file text : String) (statements : List Stmt) (s : Grammar.State) : Parsed where
  file := file
  program := ⟨text.utf8ByteSize, statements⟩
  reports := Report.sort ((s.lexer.reports ++ s.reports).map (Report.inFile file))

/-- Reads a text as the contents of `file`. -/
def ofText (file text : String) : Parsed :=
  match Grammar.run? text with
  | some (statements, s) => ofRun file text statements s
  | none => default

/-- Whether a fault was found. -/
def hasErrors (p : Parsed) : Bool :=
  p.reports.any Report.isError

end Parsed

end LambdaLift
