import LambdaLift.Transform.Basic

/-!
# From file to file

The path of the output is checked first, and the directories on it are made. The output is written
only after everything else went well.
-/

namespace LambdaLift

namespace Transform

variable {m : Type → Type} [Monad m] (fs : FileSystem m)

/-- Checks that a path can be written to, and makes the directories above it. -/
def prepare (output : String) : m (Except TransformError Unit) := do
  let path := Path.ofText output
  let refuse (fault : OutputFault) : Except TransformError Unit :=
    .error (.invalidOutput output fault)
  if path.isEmpty then
    return refuse .empty
  else if ← fs.isDirectory path then
    return refuse .isDirectory
  else
    match path.parent? with
    | none => return .ok ()
    | some parent =>
      match ← fs.makeDirectories parent with
      | .ok () => return .ok ()
      | .error e => return refuse (.system e)

/-- The transformed text of a file. -/
def transformed (input : String) : m (Except TransformError String) := do
  match ← fs.readText (Path.ofText input) with
  | .error e => return .error (.inaccessible input e)
  | .ok text => return transformText input text

/-- Transforms the program in one file and puts it in another. -/
def file (input output : String) : m (Except TransformError Unit) := do
  match ← prepare fs output with
  | .error e => return .error e
  | .ok () =>
    match ← transformed fs input with
    | .error e => return .error e
    | .ok text =>
      match ← fs.writeText (Path.ofText output) text with
      | .error e => return .error (.inaccessible output e)
      | .ok () => return .ok ()

end Transform

end LambdaLift
