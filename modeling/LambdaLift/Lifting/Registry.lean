import LambdaLift.Code.Basic

/-!
# The functions that are lifted

A registry lists the functions that have been lifted so far, in the order in which their names were
first entered. Entering a name again replaces the function in its place.

The body of a function is known only after the function has been entered. Each entry has a ticket,
and a body is taken only with the ticket of the function that it belongs to.
-/

namespace LambdaLift

/-- A nested function that is moved to the top level, with a body of type `β`. -/
structure LiftedFunction (β : Type) where
  name : String
  /-- The parameters that the function is declared with. -/
  params : List String
  /-- The names that the function reads from outside, which become parameters. -/
  captured : List String
  /-- The body, once it is known. -/
  body : Option β := none

namespace LiftedFunction

variable {β : Type} (f : LiftedFunction β)

/-- The parameters of the function at the top level. -/
def allParams : List String :=
  f.params ++ f.captured

/-- The captured names that a call with the given number of arguments passes. A call with more
arguments than parameters has given the first ones a value. -/
def appendedCaptures (argumentCount : Nat) : List String :=
  f.captured.drop (argumentCount - f.params.length)

/-- What a call with the given number of arguments passes besides these: a value for every
parameter left out, then captured names. -/
def appendedArguments (argumentCount : Nat) : List Code.Expr :=
  List.replicate (f.params.length - argumentCount) .undefined ++
    (f.appendedCaptures argumentCount).map .name

end LiftedFunction

/-- The lifted functions with their tickets, and the number of tickets given out. -/
structure Registry (β : Type) where
  entries : List (Nat × LiftedFunction β) := []
  issued : Nat := 0

namespace Registry

variable {β : Type}

/-- Puts an entry in the place of the one with the same name, or at the end. -/
def place (e : Nat × LiftedFunction β) :
    List (Nat × LiftedFunction β) → List (Nat × LiftedFunction β)
  | [] => [e]
  | d :: ds => if d.2.name = e.2.name then e :: ds else d :: place e ds

/-- Enters a function. -/
def register (r : Registry β) (f : LiftedFunction β) : Registry β :=
  ⟨place (r.issued, f) r.entries, r.issued + 1⟩

/-- The ticket of the function that is entered next. -/
def nextTicket (r : Registry β) : Nat :=
  r.issued

/-- Gives the function with the given name its body. A body whose function has been replaced is
dropped. -/
def setBody (r : Registry β) (name : String) (ticket : Nat) (body : β) : Registry β :=
  { r with
    entries := r.entries.map fun (t, f) =>
      if f.name = name && t = ticket then (t, { f with body := some body }) else (t, f) }

/-- The lifted functions. -/
def functions (r : Registry β) : List (LiftedFunction β) :=
  r.entries.map Prod.snd

/-- The function with the given name. -/
def get? (r : Registry β) (name : String) : Option (LiftedFunction β) :=
  r.functions.find? (·.name = name)

/-- The captured names that a call of the named function passes. -/
def appendedCaptures (r : Registry β) (name : String) (argumentCount : Nat) : List String :=
  match r.get? name with
  | some f => f.appendedCaptures argumentCount
  | none => []

/-- What a call of the named function passes besides its arguments. -/
def appendedArguments (r : Registry β) (name : String) (argumentCount : Nat) : List Code.Expr :=
  match r.get? name with
  | some f => f.appendedArguments argumentCount
  | none => []

/-- Forgets all functions. Tickets are not given out again. -/
def clear (r : Registry β) : Registry β :=
  { r with entries := [] }

end Registry

end LambdaLift
