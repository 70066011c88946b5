/-!
# Paths

A path is a list of parts with slashes between them. Slashes in a row count as one. The part `.`
stays where it is and `..` goes one directory up.
-/

namespace LambdaLift

/-- The pieces of a text between the slashes. -/
def Path.segments : List Char → List (List Char)
  | [] => [[]]
  | c :: cs =>
    if c = '/' then [] :: segments cs
    else
      match segments cs with
      | [] => [[c]]
      | s :: ss => (c :: s) :: ss

/-- A path. -/
structure Path where
  /-- The path starts at the root, with a slash. -/
  isAbsolute : Bool
  parts : List String
  /-- The path ends in a slash, so it can only name a directory. -/
  endsInSlash : Bool
deriving DecidableEq, Inhabited

namespace Path

/-- The path that a text spells. -/
def ofText (s : String) : Path where
  isAbsolute := s.toList.head? = some '/'
  parts := ((segments s.toList).filter (!·.isEmpty)).map String.ofList
  endsInSlash := s.toList.getLast? = some '/'

/-- A text that spells the path. -/
def text (p : Path) : String :=
  (if p.isAbsolute then "/" else "") ++ "/".intercalate p.parts ++
    (if p.endsInSlash && !p.parts.isEmpty then "/" else "")

/-- The path of no text, which names nothing. -/
def isEmpty (p : Path) : Bool :=
  !p.isAbsolute && p.parts.isEmpty

/-- The parts without those that stay in place. A path may still start with one. -/
def plainParts (p : Path) : List String :=
  match p.isAbsolute, p.parts with
  | false, "." :: rest => "." :: rest.filter (· ≠ ".")
  | _, parts => parts.filter (· ≠ ".")

/-- The path without its last part. The root and the empty path have no parent. -/
def parent? (p : Path) : Option Path :=
  if p.plainParts.isEmpty then none
  else some { isAbsolute := p.isAbsolute, parts := p.plainParts.dropLast, endsInSlash := false }

end Path

end LambdaLift
