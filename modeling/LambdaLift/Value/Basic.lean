import LambdaLift.Numeral.Conversion
import LambdaLift.Numeral.Shortest
import LambdaLift.Tree.Stmt

/-!
# Values

* `Value`: what an expression evaluates to.
* `Value.toBoolean`, `toNumber`, `toInt32`, `toUInt32`, `text`: the conversions.
* `Value.strictEquals`, `looseEquals`: equality without and with conversion.
-/

namespace LambdaLift

/-- The scopes that can be seen from a place in a program, by number, the innermost first. -/
abbrev Environment := List Nat

/-- A declared function and the scopes that can be seen from its declaration. -/
structure Closure where
  environment : Environment
  head : FunctionHead
  body : List Stmt
deriving Inhabited

/-- Values. -/
inductive Value
  | undefined
  | null
  | boolean (b : Bool)
  | number (x : Float)
  | string (s : String)
  | function (f : Closure)
  /-- The function that prints its arguments. -/
  | print
deriving Inhabited

/-- Whether two functions are one. A scope holds one function of a name, so the scope and the name
tell. -/
def Closure.same (f g : Closure) : Bool :=
  f.environment.head? = g.environment.head? && f.head.name? = g.head.name?

namespace Value

/-- Whether the value can be called. -/
def isCallable : Value → Bool
  | function _ | print => true
  | _ => false

/-- The word for the type of a value. -/
def typeOf : Value → String
  | undefined => "undefined"
  | null => "object"
  | boolean _ => "boolean"
  | number _ => "number"
  | string _ => "string"
  | function _ | print => "function"

/-- Whether a condition with this value holds. -/
def toBoolean : Value → Bool
  | undefined | null => false
  | boolean b => b
  | number x => !(x.isNaN || x == Binary64.zero)
  | string s => !s.isEmpty
  | function _ | print => true

/-- The number that a truth value counts as. -/
def ofBoolean (b : Bool) : Float :=
  Binary64.ofNat b.toNat

/-- The value as a number. -/
def toNumber : Value → Float
  | undefined => Binary64.notANumber
  | null => Binary64.zero
  | boolean b => ofBoolean b
  | number x => x
  | string s => Conversion.ofText s
  | function _ | print => Binary64.notANumber

/-- The text of a function with the given name and contents. -/
def functionText (name contents : String) : String :=
  "function " ++ name ++ "() \x7b [" ++ contents ++ "] \x7d"

/-- The value as text. The contents of a function are not shown. -/
def text : Value → String
  | undefined => "undefined"
  | null => "null"
  | boolean b => if b then "true" else "false"
  | number x => Shortest.ofFloat x
  | string s => s
  | function f => functionText (f.head.name?.getD "") "code"
  | print => functionText "print" "native code"

/-- The value as a number of 32 bits without sign. -/
def toUInt32 (v : Value) : UInt32 :=
  Binary64.toUInt32 v.toNumber

/-- The value as a number of 32 bits in two's complement. -/
def toInt32 (v : Value) : Int32 :=
  Binary64.toInt32 v.toNumber

/-! ## Equality -/

/-- Equality of values of one type. Values of different types are not equal. -/
def strictEquals : Value → Value → Bool
  | undefined, undefined | null, null | print, print => true
  | boolean a, boolean b => a == b
  | number x, number y => x == y
  | string s, string t => s == t
  | function f, function g => f.same g
  | _, _ => false

/-- One of the two values for nothing. -/
def isNothing : Value → Bool
  | undefined | null => true
  | _ => false

/-- A truth value as a number, and other values as they are. -/
def withoutBoolean : Value → Value
  | boolean b => number (ofBoolean b)
  | v => v

/-- A function as its text, and other values as they are. -/
def withoutFunction : Value → Value
  | function f => string (function f).text
  | print => string print.text
  | v => v

/-- Equality of values that are not nothing and not truth values. Numbers and strings are compared
as numbers, and a function with one of them by its text. -/
def mixedEquals (a b : Value) : Bool :=
  if a.isCallable && b.isCallable then a.strictEquals b
  else
    match a.withoutFunction, b.withoutFunction with
    | string s, number y => Conversion.ofText s == y
    | number x, string t => x == Conversion.ofText t
    | a, b => a.strictEquals b

/-- Equality with conversion. The two values for nothing are equal to each other and to no other
value. -/
def looseEquals (a b : Value) : Bool :=
  if a.isNothing || b.isNothing then a.isNothing && b.isNothing
  else mixedEquals a.withoutBoolean b.withoutBoolean

end Value

end LambdaLift
