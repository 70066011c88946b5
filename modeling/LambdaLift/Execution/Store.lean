import LambdaLift.Value.Basic

/-!
# Variables

* `Scope`: the variables of one block, function call or program.
* `Store`: all scopes that have been opened, by number. Scopes are never closed, since a function
  may outlive the call it was declared in.

A variable is looked up in the scopes of an environment from the innermost outward.
-/

namespace LambdaLift

/-- What declared a variable. -/
inductive Variable.Kind
  | var
  | let_
  | const_
  | function
  | parameter
deriving DecidableEq, Inhabited

/-- The kind of the variables that a word declares. -/
def VarKind.variableKind : VarKind → Variable.Kind
  | var => .var
  | let_ => .let_
  | const_ => .const_

/-- A variable. It has no value before its declaration is reached. -/
structure Variable where
  value : Option Value
  kind : Variable.Kind
deriving Inhabited

/-- The variable of a declared function. -/
def Variable.ofFunction (f : Closure) : Variable where
  value := some (.function f)
  kind := .function

/-- Whether the variable keeps its first value. -/
def Variable.isConstant (v : Variable) : Bool :=
  v.kind = .const_

/-- Variables by name, each name once. -/
abbrev Scope := List (String × Variable)

namespace Scope

/-- The variable of the given name. -/
def get? (s : Scope) (name : String) : Option Variable :=
  List.lookup name s

/-- Puts a variable in the place of the one with the same name, or at the end. -/
def put (name : String) (v : Variable) : Scope → Scope
  | [] => [(name, v)]
  | (n, w) :: s => if n = name then (n, v) :: s else (n, w) :: put name v s

end Scope

/-- Why a variable cannot be read or set. -/
inductive AccessError
  | undefined
  | uninitialized
  | constant
deriving DecidableEq, Inhabited

/-- The scopes opened so far. -/
structure Store where
  scopes : Array Scope
deriving Inhabited

namespace Store

/-- The scope with the given number. -/
def scope (s : Store) (i : Nat) : Scope :=
  s.scopes.getD i []

/-- The variable of the given name in one scope. -/
def lookup? (s : Store) (i : Nat) (name : String) : Option Variable :=
  (s.scope i).get? name

/-- Changes one scope. -/
def modify (s : Store) (i : Nat) (f : Scope → Scope) : Store :=
  ⟨s.scopes.modify i f⟩

/-- The number of the scope that is opened next. -/
def next (s : Store) : Nat :=
  s.scopes.size

/-- Opens a scope. -/
def push (s : Store) : Store :=
  ⟨s.scopes.push []⟩

/-- Declares a variable in one scope. -/
def declare (s : Store) (i : Nat) (name : String) (v : Variable) : Store :=
  s.modify i (Scope.put name v)

/-- Declares a variable without a dead zone. One that has a value keeps it. -/
def declareVar (s : Store) (i : Nat) (name : String) (value : Value) : Store :=
  match (s.lookup? i name).bind Variable.value with
  | some _ => s
  | none => s.declare i name { value := some value, kind := .var }

/-- Gives a variable of one scope its value. -/
def setInitial (s : Store) (i : Nat) (name : String) (value : Value) : Store :=
  match s.lookup? i name with
  | some v => s.declare i name { v with value := some value }
  | none => s

/-- The innermost scope of an environment that has the name, with its variable. -/
def resolve? (s : Store) (name : String) : Environment → Option (Nat × Variable)
  | [] => none
  | i :: is =>
    match s.lookup? i name with
    | some v => some (i, v)
    | none => resolve? s name is

/-- The value of a variable. -/
def get (s : Store) (env : Environment) (name : String) : Except AccessError Value :=
  match s.resolve? name env with
  | none => .error .undefined
  | some (_, v) =>
    match v.value with
    | some value => .ok value
    | none => .error .uninitialized

/-- Sets a variable that has a value and is not constant. -/
def set (s : Store) (env : Environment) (name : String) (value : Value) :
    Except AccessError Store :=
  match s.resolve? name env with
  | none => .error .undefined
  | some (i, v) =>
    if v.value.isNone then .error .uninitialized
    else if v.isConstant then .error .constant
    else .ok (s.declare i name { v with value := some value })

end Store

end LambdaLift
