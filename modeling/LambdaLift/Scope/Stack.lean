/-!
# Scopes

A stack of open scopes, each with the names bound in it. A name is bound if any open scope has it,
and closing a scope forgets its names.
-/

namespace LambdaLift

/-- The open scopes, the innermost first. -/
structure ScopeStack where
  scopes : List (List String) := []
deriving DecidableEq, Inhabited

namespace ScopeStack

/-- Opens a scope. -/
def push (s : ScopeStack) : ScopeStack :=
  ⟨[] :: s.scopes⟩

/-- Closes the innermost scope, if there is one. -/
def pop (s : ScopeStack) : ScopeStack :=
  ⟨s.scopes.tail⟩

/-- Binds a name in the innermost scope, and opens one if there is none. -/
def bind (s : ScopeStack) (name : String) : ScopeStack :=
  match s.scopes with
  | [] => ⟨[[name]]⟩
  | inner :: outer => ⟨(name :: inner) :: outer⟩

/-- Binds names one after another. -/
def bindAll (s : ScopeStack) (names : List String) : ScopeStack :=
  names.foldl bind s

/-- Whether an open scope has the name. -/
def isBound (s : ScopeStack) (name : String) : Bool :=
  s.scopes.any (·.contains name)

/-- The number of open scopes. -/
def depth (s : ScopeStack) : Nat :=
  s.scopes.length

end ScopeStack

end LambdaLift
