import LambdaLift.Files.System

/-!
# A file system in memory

Files and directories by the parts of their paths from the root, which is also where relative paths
start. `FileTree.system` has the operations on it: each gives the error that a walk along the path
meets first.
-/

namespace LambdaLift

/-- What a path leads to. -/
inductive FileEntry
  | directory
  | file (contents : ByteArray)
deriving Inhabited

/-- A place in the tree: the parts of the path from the root. -/
abbrev FilePlace := List String

/-- All files and directories but the root. -/
structure FileTree where
  entries : List (FilePlace × FileEntry) := []
deriving Inhabited

namespace FileTree

/-- What is at a place. -/
def get? (t : FileTree) (place : FilePlace) : Option FileEntry :=
  if place.isEmpty then some .directory else t.entries.lookup place

/-- Puts an entry at a place. -/
def put (t : FileTree) (place : FilePlace) (entry : FileEntry) : FileTree :=
  ⟨(place, entry) :: t.entries.filter (·.1 ≠ place)⟩

/-- Goes from a directory along one part of a path. -/
def step (t : FileTree) (place : FilePlace) (part : String) : Except FileError FilePlace :=
  match t.get? place with
  | none => .error .notFound
  | some (.file _) => .error .notDirectory
  | some .directory =>
    match part with
    | "." => .ok place
    | ".." => .ok place.dropLast
    | part => .ok (place ++ [part])

/-- Goes along the parts of a path. The place reached need not exist. -/
def walk (t : FileTree) (place : FilePlace) : List String → Except FileError FilePlace
  | [] => .ok place
  | part :: parts => do walk t (← t.step place part) parts

/-- What a path names. -/
def find (t : FileTree) (p : Path) : Except FileError FileEntry := do
  if p.isEmpty then
    .error .notFound
  else
    match t.get? (← t.walk [] p.parts) with
    | none => .error .notFound
    | some (.file bytes) => if p.endsInSlash then .error .notDirectory else .ok (.file bytes)
    | some .directory => .ok .directory

/-- Where a path would put a new entry: the place, and what is there now. -/
def target (t : FileTree) (p : Path) : Except FileError (FilePlace × Option FileEntry) := do
  if p.isEmpty then
    .error .notFound
  else
    let place ← t.walk [] p.parts
    return (place, t.get? place)

/-- Makes a directory. -/
def makeDirectory (t : FileTree) (p : Path) : Except FileError FileTree := do
  match ← t.target p with
  | (_, some _) => .error .exists_
  | (place, none) => .ok (t.put place .directory)

/-- The bytes of a file. -/
def read (t : FileTree) (p : Path) : Except FileError ByteArray := do
  match ← t.find p with
  | .directory => .error .isDirectory
  | .file bytes => .ok bytes

/-- Puts bytes in a file. -/
def write (t : FileTree) (p : Path) (bytes : ByteArray) : Except FileError FileTree := do
  match ← t.target p with
  | (_, some .directory) => .error .isDirectory
  | (place, _) => if p.endsInSlash then .error .isDirectory else .ok (t.put place (.file bytes))

/-- Whether a path names a directory. -/
def isDirectory (t : FileTree) (p : Path) : Bool :=
  match t.find p with
  | .ok .directory => true
  | _ => false

/-- Runs an operation that changes the tree if it succeeds. -/
def update (f : FileTree → Except FileError FileTree) : StateM FileTree (Except FileError Unit) :=
  fun t =>
    match f t with
    | .ok t' => (.ok (), t')
    | .error e => (.error e, t)

/-- The operations on a tree. -/
def system : FileSystem (StateM FileTree) where
  isDirectory p := return (← get).isDirectory p
  makeDirectory p := update (·.makeDirectory p)
  read p := return (← get).read p
  write p bytes := update (·.write p bytes)

end FileTree

end LambdaLift
