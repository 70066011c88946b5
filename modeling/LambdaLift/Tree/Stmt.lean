import LambdaLift.Tree.Expr

/-!
# Statements

* `Stmt`: the statements that can be lifted, and all others as uniform nodes.
* `Program`: the statements of a text.
-/

namespace LambdaLift

/-- What a declaration binds: a name, or the names in a pattern. -/
inductive Binding
  | name (id : Ident)
  | pattern (node : Node)
deriving Inhabited

namespace Binding

/-- The bound name, if it is a single one. -/
def name? : Binding → Option String
  | name id => some id.name
  | pattern _ => none

/-- The place of a binding. -/
def range : Binding → Range
  | name id => id.range
  | pattern n => n.range

/-- The kind of a binding. -/
def kind : Binding → Kind
  | name _ => .token .identifier
  | pattern n => n.kind

/-- The node of a binding. -/
def node (role : Role) : Binding → Node
  | name id => id.node role
  | pattern n => n.withRole role

end Binding

/-- One variable of a declaration, with its initial value. -/
structure Declarator where
  range : Range
  target : Binding
  init : Option Expr
deriving Inhabited

/-- The node of an initial value, if there is one. -/
def initializerNodes (init : Option Expr) : List Node :=
  (init.map (Expr.node .initializer)).toList

/-- The node of the dots before a rest element, if there are any. -/
def ellipsisNodes (dots : Option Range) : List Node :=
  (dots.map (Node.ofToken .ellipsis (.punctuator .ellipsis))).toList

/-- The node of a declarator. -/
def Declarator.node (d : Declarator) : Node :=
  .ofKind .declaration .variableDeclaration d.range
    (d.target.node .binding :: initializerNodes d.init)

/-- A parameter. `ellipsis` is the place of the dots of a rest parameter. -/
structure Param where
  range : Range
  ellipsis : Option Range
  target : Binding
  init : Option Expr
deriving Inhabited

namespace Param

/-- The name of a parameter that is a name and nothing else. -/
def plainName? (p : Param) : Option String :=
  if p.ellipsis.isNone && p.init.isNone then p.target.name? else none

/-- The node of a parameter. -/
def node (p : Param) : Node :=
  .ofKind .parameter .parameter p.range
    (ellipsisNodes p.ellipsis ++ p.target.node .binding :: initializerNodes p.init)
    {} (.parameter p.plainName?)

end Param

/-- A function declaration without the statements of its body. -/
structure FunctionHead where
  range : Range
  isAsync : Bool
  isGenerator : Bool
  name : Option Ident
  params : List Param
  bodyRange : Range
deriving Inhabited

/-- The name of a declared function. -/
def FunctionHead.name? (h : FunctionHead) : Option String :=
  h.name.map (·.name)

/-- Statements. -/
inductive Stmt
  | vars (range listRange : Range) (kind : VarKind) (declarators : List Declarator)
  | function (head : FunctionHead) (body : List Stmt)
  | block (range : Range) (body : List Stmt)
  | empty (range : Range)
  | expression (range : Range) (e : Expr)
  | return_ (range : Range) (e : Option Expr)
  /-- A statement of any other kind. -/
  | other (node : Node)
deriving Inhabited

/-- The node of a variable declaration without the word and semicolon around it. -/
def variablesNode (role : Role) (range : Range) (kind : VarKind) (ds : List Declarator) : Node :=
  .ofKind role .variableDeclarationList range (ds.map Declarator.node) {} (.vars kind)

/-- The nodes in front of the body of a function. -/
def signatureNodes (name : Option Ident) (params : List Param) : List Node :=
  (name.map (Ident.node .name)).toList ++ params.map Param.node

namespace Stmt

/-- The place of a statement. -/
def range : Stmt → Range
  | vars r .. => r
  | function h _ => h.range
  | block r _ | empty r | expression r _ | return_ r _ => r
  | other n => n.range

/-- The kind of a statement. -/
def kind : Stmt → Kind
  | vars .. => .node .variableStatement
  | function .. => .node .functionDeclaration
  | block .. => .node .block
  | empty _ => .node .emptyStatement
  | expression .. => .node .expressionStatement
  | return_ .. => .node .returnStatement
  | other n => n.kind

mutual

/-- The node of a statement. -/
def node (role : Role) : Stmt → Node
  | vars r listRange kind ds =>
    .ofKind role .variableStatement r [variablesNode .declarations listRange kind ds]
  | function h body =>
    .ofKind role .functionDeclaration h.range
      (signatureNodes h.name h.params ++ [.ofKind .body .block h.bodyRange (nodes body)])
      { isAsync := h.isAsync, isGenerator := h.isGenerator }
  | block r body => .ofKind role .block r (nodes body)
  | empty r => .ofKind role .emptyStatement r []
  | expression r e => .ofKind role .expressionStatement r [e.node .expression]
  | return_ r e => .ofKind role .returnStatement r (e.map (Expr.node .expression)).toList
  | other n => n.withRole role

/-- The nodes of statements in a list of statements. -/
def nodes : List Stmt → List Node
  | [] => []
  | s :: ss => node .statement s :: nodes ss

end

end Stmt

/-- The statements of a text of `length` bytes. -/
structure Program where
  length : Nat
  statements : List Stmt
deriving Inhabited

/-- The node of a whole text. The end of the text is a token of its own. -/
def Program.node (p : Program) : Node :=
  .ofKind .root .sourceFile ⟨0, p.length⟩
    (Stmt.nodes p.statements ++ [.ofToken .endOfFile .endOfFile (.empty p.length)])

end LambdaLift
