import LambdaLift.Text.Range
import LambdaLift.Tree.Kind

/-!
# Uniform nodes

A tree of program text in one shape: every node has a kind, a place, marks, and children in source
order, each with the role it plays in its parent. Constructs that cannot be lifted are kept in this
shape only, since nothing but their kind and place is ever asked of them; those that can are typed
(`Expr`, `Stmt`) and turn into nodes by `Expr.node` and `Stmt.node`.
-/

namespace LambdaLift

/-- The word that declares variables. -/
inductive VarKind
  | var
  | let_
  | const_
deriving DecidableEq, Inhabited

namespace VarKind

/-- The word itself. -/
def text : VarKind → String
  | var => "var"
  | let_ => "let"
  | const_ => "const"

/-- Whether the variables belong to the block around them and not to the function. -/
def isBlockScoped : VarKind → Bool
  | var => false
  | let_ | const_ => true

end VarKind

/-- The part that a node plays in its parent. -/
inductive Role
  | root
  | statement
  | endOfFile
  | name
  | computedName
  | binding
  | element
  | ellipsis
  | initializer
  | parameter
  | body
  | heritage
  | member
  | staticBlock
  | declarations
  | declaration
  | defaultBinding
  | namespaceBinding
  | specifier
  | moduleName
  | expression
  | propertyName
  | condition
  | consequent
  | alternate
  | incrementor
  | label
  | clause
  | tryBlock
  | catchClause
  | finallyBlock
  | operand
  | left
  | operator
  | right
  | whenTrue
  | whenFalse
  | callee
  | argument
  | tag
  | template
  | head
  | span
  | literal
  | property
deriving DecidableEq, Inhabited

/-- What is said of a node besides its kind. -/
structure Marks where
  isAsync : Bool := false
  isGenerator : Bool := false
  isStatic : Bool := false
  /-- A default export. -/
  isDefault : Bool := false
  /-- A link of an optional chain. -/
  isOptional : Bool := false
  /-- The node stands for something that is missing in the text. -/
  isMissing : Bool := false
deriving DecidableEq, Inhabited

/-- What a node holds besides its children. -/
inductive Detail
  | none
  /-- The name of an identifier. -/
  | name (text : String)
  /-- The contents of a literal with escapes resolved, and the literal as written. -/
  | literal (value raw : String)
  /-- The value of a number, and the number as written. -/
  | number (value : Float) (raw : String)
  /-- The word of a variable declaration. -/
  | vars (kind : VarKind)
  /-- The operator before or after an operand. -/
  | operator (token : TokenKind)
  /-- The name of a plain parameter. -/
  | parameter (name : Option String)
  /-- The name of a callee that is a plain name. -/
  | callee (name : Option String)
  /-- Whether a construction has an argument list. -/
  | construction (hasArguments : Bool)
deriving Inhabited

/-- A node, or the place of an element that an array pattern leaves out. -/
inductive Node
  | node (role : Role) (kind : Kind) (range : Range) (marks : Marks) (detail : Detail)
      (children : List Node)
  | hole
deriving Inhabited

namespace Node

/-- The node in another role. -/
def withRole (role : Role) : Node → Node
  | node _ kind range marks detail children => node role kind range marks detail children
  | hole => hole

/-- The kind of the node. A hole has the kind of an element left out of an array. -/
def kind : Node → Kind
  | node _ kind .. => kind
  | hole => .node .omittedExpression

/-- The place of the node. -/
def range : Node → Range
  | node _ _ range .. => range
  | hole => .empty 0

/-- A node of a construct. -/
def ofKind (role : Role) (kind : NodeKind) (range : Range) (children : List Node)
    (marks : Marks := {}) (detail : Detail := .none) : Node :=
  node role (.node kind) range marks detail children

/-- A node of a single token. -/
def ofToken (role : Role) (kind : TokenKind) (range : Range) : Node :=
  node role (.token kind) range {} .none []

end Node

end LambdaLift
