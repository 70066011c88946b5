import LambdaLift.Execution.Store

/-!
# Failures of a running program
-/

namespace LambdaLift

/-- Why a program stops. -/
inductive EvalError
  | undefinedName (name : String)
  | uninitialized (name : String)
  | constantAssignment
  | notCallable (name : String)
  /-- The operator `in` on a value without members. -/
  | noMembers (key holder : String)
  | invalidUpdate
  | stackOverflow
  | unsupported (kind : Kind)
deriving DecidableEq, Inhabited

/-- The kinds of failures that a program can tell apart. -/
inductive ErrorClass
  | reference
  | type
  | range
  | unsupported
deriving DecidableEq, Inhabited

namespace EvalError

/-- The failure to read or set the variable `name`. -/
def ofAccess (name : String) : AccessError → EvalError
  | .undefined => undefinedName name
  | .uninitialized => uninitialized name
  | .constant => constantAssignment

/-- The kind of a failure. -/
def errorClass : EvalError → ErrorClass
  | undefinedName _ | uninitialized _ | invalidUpdate => .reference
  | constantAssignment | notCallable _ | noMembers .. => .type
  | stackOverflow => .range
  | unsupported _ => .unsupported

/-- What is said about a failure. -/
def message : EvalError → String
  | undefinedName name => "ReferenceError: " ++ name ++ " is not defined"
  | uninitialized name => "ReferenceError: Cannot access '" ++ name ++ "' before initialization"
  | constantAssignment => "TypeError: Assignment to constant variable."
  | notCallable name => "TypeError: " ++ name ++ " is not a function"
  | noMembers key holder =>
    "TypeError: Cannot use 'in' operator to search for '" ++ key ++ "' in " ++ holder
  | invalidUpdate => "ReferenceError: Invalid left-hand side expression in update operation"
  | stackOverflow => "RangeError: Maximum call stack size exceeded"
  | unsupported kind => "unsupported construct: " ++ kind.name

end EvalError

end LambdaLift
