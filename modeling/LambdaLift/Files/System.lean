import LambdaLift.Files.Path

/-!
# What is asked of a file system

* `FileError`: why an operation fails, and the words for it.
* `FileSystem`: the operations, in any monad.
* `FileSystem.makeDirectories`: a directory with all directories above it.
-/

namespace LambdaLift

/-- Why an operation on files fails. -/
inductive FileError
  | notFound
  | exists_
  | notDirectory
  | isDirectory
  /-- The contents of a file are not UTF-8. -/
  | invalidText
  /-- Any other cause, in the words of the system. -/
  | other (text : String)
deriving DecidableEq, Inhabited

/-- What is said about a failed operation. -/
def FileError.text : FileError → String
  | notFound => "No such file or directory (os error 2)"
  | exists_ => "File exists (os error 17)"
  | notDirectory => "Not a directory (os error 20)"
  | isDirectory => "Is a directory (os error 21)"
  | invalidText => "stream did not contain valid UTF-8"
  | other text => text

/-- The operations of a file system. -/
structure FileSystem (m : Type → Type) where
  /-- Whether a path names a directory. -/
  isDirectory : Path → m Bool
  /-- Makes a directory in one that exists. -/
  makeDirectory : Path → m (Except FileError Unit)
  /-- The bytes of a file. -/
  read : Path → m (Except FileError ByteArray)
  /-- Puts bytes in the place of a file's contents, or in a new file. -/
  write : Path → ByteArray → m (Except FileError Unit)

namespace FileSystem

variable {m : Type → Type} [Monad m] (fs : FileSystem m)

/-- Makes a directory. One that is there already is no failure. -/
def ensureDirectory (p : Path) : m (Except FileError Unit) := do
  match ← fs.makeDirectory p with
  | .ok () => return .ok ()
  | .error e => return if ← fs.isDirectory p then .ok () else .error e

/-- Makes a directory, with at most `levels` directories above it that are missing. -/
def makeDirectoriesWithin : (levels : Nat) → Path → m (Except FileError Unit)
  | 0, p => fs.ensureDirectory p
  | levels + 1, p =>
    if p.isEmpty then return .ok ()
    else do
      match ← fs.makeDirectory p with
      | .ok () => return .ok ()
      | .error .notFound =>
        match p.parent? with
        | none => return .error .notFound
        | some above =>
          match ← makeDirectoriesWithin levels above with
          | .ok () => fs.ensureDirectory p
          | .error e => return .error e
      | .error e => return if ← fs.isDirectory p then .ok () else .error e

/-- Makes a directory and all directories above it that are missing. -/
def makeDirectories (p : Path) : m (Except FileError Unit) :=
  fs.makeDirectoriesWithin (p.parts.length + 1) p

/-- The text in a file. -/
def readText (p : Path) : m (Except FileError String) := do
  match ← fs.read p with
  | .ok bytes => return (String.fromUTF8? bytes).elim (.error .invalidText) .ok
  | .error e => return .error e

/-- Puts text in a file. -/
def writeText (p : Path) (text : String) : m (Except FileError Unit) :=
  fs.write p text.toUTF8

end FileSystem

end LambdaLift
