import LambdaLift.Command

/-!
# The program

Runs the command line on the files of the machine.
-/

namespace LambdaLift

namespace Machine

/-- Why an operation of the machine failed. -/
def fileError : IO.Error → FileError
  | .noFileOrDirectory .. => .notFound
  | .alreadyExists .. => .exists_
  | .inappropriateType _ code details =>
    if code = 20 then .notDirectory else if code = 21 then .isDirectory else .other details
  | e => .other (toString e)

/-- The result of an action, with its failure as a value. -/
def attempt {α : Type} (action : IO α) : IO (Except FileError α) := do
  match ← action.toBaseIO with
  | .ok a => return .ok a
  | .error e => return .error (fileError e)

/-- The files of the machine. -/
def files : FileSystem IO where
  isDirectory p := do
    match ← (IO.FS.realPath p.text).toBaseIO with
    | .ok found => found.isDir
    | .error _ => return false
  makeDirectory p := attempt (IO.FS.createDir p.text)
  read p := attempt (IO.FS.readBinFile p.text)
  write p bytes := attempt (IO.FS.writeBinFile p.text bytes)

end Machine

end LambdaLift

open LambdaLift in
/-- Transforms one file into another. -/
def main (arguments : List String) : IO UInt32 := do
  let outcome ←
    match ← Command.execute Machine.files arguments with
    | .ok outcome => pure outcome
    | .error e => pure (Command.refused e)
  IO.print outcome.output
  IO.eprint outcome.errors
  return UInt32.ofNat outcome.code
