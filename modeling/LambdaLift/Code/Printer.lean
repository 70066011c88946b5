/-!
# Text with indentation

A `Printer` holds the text written so far and how far lines are indented now.
-/

namespace LambdaLift

/-- How text is laid out. -/
structure Layout where
  /-- What a line is indented with, once for each level. -/
  indentation : String := "    "
  /-- What ends a line. -/
  newline : String := "\n"
  /-- Whether the last line is ended as well. -/
  endsWithNewline : Bool := true
deriving DecidableEq, Inhabited

/-- Text that is being written. -/
structure Printer where
  layout : Layout
  output : String := ""
  level : Nat := 0
deriving Inhabited

namespace Printer

/-- Adds text. -/
def write (p : Printer) (s : String) : Printer :=
  { p with output := p.output ++ s }

/-- Whether nothing has been written. -/
def isEmpty (p : Printer) : Bool :=
  p.output.isEmpty

/-- Ends the line. -/
def newline (p : Printer) : Printer :=
  p.write p.layout.newline

/-- The indentation of `level` levels. -/
def indentationOf (layout : Layout) : (level : Nat) → String
  | 0 => ""
  | level + 1 => layout.indentation ++ indentationOf layout level

/-- Writes the indentation of a line. -/
def indent (p : Printer) : Printer :=
  p.write (indentationOf p.layout p.level)

/-- Starts a line. The first one needs no end of a line before it. -/
def lineStart (p : Printer) : Printer :=
  (if p.isEmpty then p else p.newline).indent

/-- Writes items with commas between them. -/
def commaList (p : Printer) (items : List String) : Printer :=
  p.write (", ".intercalate items)

/-- Indents the lines to come by one level more. -/
def increase (p : Printer) : Printer :=
  { p with level := p.level + 1 }

/-- Indents the lines to come by one level less. -/
def decrease (p : Printer) : Printer :=
  { p with level := p.level - 1 }

/-- The text as written. -/
def text (p : Printer) : String :=
  p.output

/-- The text as a whole file: the last line is ended if the layout asks for it. A file of no text
has no lines. -/
def finish (p : Printer) : String :=
  if p.layout.endsWithNewline && !p.isEmpty then p.newline.text else p.text

end Printer

end LambdaLift
