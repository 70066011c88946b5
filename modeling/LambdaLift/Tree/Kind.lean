import LambdaLift.Token.Kind

/-!
# Kinds of nodes

* `NodeKind`: what a node with children of its own is.
* `Kind`: the kind of any part of a tree, a node or a single token.
-/

namespace LambdaLift

/-- What a node is. -/
inductive NodeKind
  | sourceFile
  | parameter
  | objectBindingPattern
  | arrayBindingPattern
  | bindingElement
  | computedPropertyName
  | arrayLiteralExpression
  | objectLiteralExpression
  | propertyAssignment
  | shorthandPropertyAssignment
  | spreadAssignment
  | propertyAccessExpression
  | elementAccessExpression
  | callExpression
  | newExpression
  | taggedTemplateExpression
  | parenthesizedExpression
  | functionExpression
  | arrowFunction
  | prefixUnaryExpression
  | postfixUnaryExpression
  | binaryExpression
  | conditionalExpression
  | templateExpression
  | templateSpan
  | spreadElement
  | classExpression
  | omittedExpression
  | block
  | emptyStatement
  | variableStatement
  | expressionStatement
  | ifStatement
  | doStatement
  | whileStatement
  | forStatement
  | forInStatement
  | forOfStatement
  | continueStatement
  | breakStatement
  | returnStatement
  | withStatement
  | switchStatement
  | labeledStatement
  | throwStatement
  | tryStatement
  | debuggerStatement
  | variableDeclaration
  | variableDeclarationList
  | functionDeclaration
  | classDeclaration
  | importDeclaration
  | exportDeclaration
  | importSpecifier
  | exportSpecifier
  | caseClause
  | defaultClause
  | catchClause
  | methodDeclaration
  | getAccessor
  | setAccessor
  | propertyDeclaration
  | classStaticBlockDeclaration
  | semicolonClassElement
deriving DecidableEq, Inhabited

namespace NodeKind

/-- Every kind of node: names and patterns, then expressions, statements, and parts of them. -/
def all : List NodeKind :=
  [
    .sourceFile, .parameter, .objectBindingPattern, .arrayBindingPattern, .bindingElement,
    .computedPropertyName, .arrayLiteralExpression, .objectLiteralExpression,
    .propertyAssignment, .shorthandPropertyAssignment, .spreadAssignment,
    .propertyAccessExpression, .elementAccessExpression, .callExpression, .newExpression,
    .taggedTemplateExpression, .parenthesizedExpression, .functionExpression, .arrowFunction,
    .prefixUnaryExpression, .postfixUnaryExpression, .binaryExpression, .conditionalExpression,
    .templateExpression, .templateSpan, .spreadElement, .classExpression, .omittedExpression,
    .block, .emptyStatement, .variableStatement, .expressionStatement, .ifStatement,
    .doStatement, .whileStatement, .forStatement, .forInStatement, .forOfStatement,
    .continueStatement, .breakStatement, .returnStatement, .withStatement, .switchStatement,
    .labeledStatement, .throwStatement, .tryStatement, .debuggerStatement, .variableDeclaration,
    .variableDeclarationList, .functionDeclaration, .classDeclaration, .importDeclaration,
    .exportDeclaration, .importSpecifier, .exportSpecifier, .caseClause, .defaultClause,
    .catchClause, .methodDeclaration, .getAccessor, .setAccessor, .propertyDeclaration,
    .classStaticBlockDeclaration, .semicolonClassElement]

/-- The name of the kind. -/
def name : NodeKind → String
  | sourceFile => "SourceFile"
  | parameter => "Parameter"
  | objectBindingPattern => "ObjectBindingPattern"
  | arrayBindingPattern => "ArrayBindingPattern"
  | bindingElement => "BindingElement"
  | computedPropertyName => "ComputedPropertyName"
  | arrayLiteralExpression => "ArrayLiteralExpression"
  | objectLiteralExpression => "ObjectLiteralExpression"
  | propertyAssignment => "PropertyAssignment"
  | shorthandPropertyAssignment => "ShorthandPropertyAssignment"
  | spreadAssignment => "SpreadAssignment"
  | propertyAccessExpression => "PropertyAccessExpression"
  | elementAccessExpression => "ElementAccessExpression"
  | callExpression => "CallExpression"
  | newExpression => "NewExpression"
  | taggedTemplateExpression => "TaggedTemplateExpression"
  | parenthesizedExpression => "ParenthesizedExpression"
  | functionExpression => "FunctionExpression"
  | arrowFunction => "ArrowFunction"
  | prefixUnaryExpression => "PrefixUnaryExpression"
  | postfixUnaryExpression => "PostfixUnaryExpression"
  | binaryExpression => "BinaryExpression"
  | conditionalExpression => "ConditionalExpression"
  | templateExpression => "TemplateExpression"
  | templateSpan => "TemplateSpan"
  | spreadElement => "SpreadElement"
  | classExpression => "ClassExpression"
  | omittedExpression => "OmittedExpression"
  | block => "Block"
  | emptyStatement => "EmptyStatement"
  | variableStatement => "VariableStatement"
  | expressionStatement => "ExpressionStatement"
  | ifStatement => "IfStatement"
  | doStatement => "DoStatement"
  | whileStatement => "WhileStatement"
  | forStatement => "ForStatement"
  | forInStatement => "ForInStatement"
  | forOfStatement => "ForOfStatement"
  | continueStatement => "ContinueStatement"
  | breakStatement => "BreakStatement"
  | returnStatement => "ReturnStatement"
  | withStatement => "WithStatement"
  | switchStatement => "SwitchStatement"
  | labeledStatement => "LabeledStatement"
  | throwStatement => "ThrowStatement"
  | tryStatement => "TryStatement"
  | debuggerStatement => "DebuggerStatement"
  | variableDeclaration => "VariableDeclaration"
  | variableDeclarationList => "VariableDeclarationList"
  | functionDeclaration => "FunctionDeclaration"
  | classDeclaration => "ClassDeclaration"
  | importDeclaration => "ImportDeclaration"
  | exportDeclaration => "ExportDeclaration"
  | importSpecifier => "ImportSpecifier"
  | exportSpecifier => "ExportSpecifier"
  | caseClause => "CaseClause"
  | defaultClause => "DefaultClause"
  | catchClause => "CatchClause"
  | methodDeclaration => "MethodDeclaration"
  | getAccessor => "GetAccessor"
  | setAccessor => "SetAccessor"
  | propertyDeclaration => "PropertyDeclaration"
  | classStaticBlockDeclaration => "ClassStaticBlockDeclaration"
  | semicolonClassElement => "SemicolonClassElement"

/-- Statements, declarations included. A declarator and a list of them count as well. -/
def isStatement : NodeKind → Bool
  | block | emptyStatement | variableStatement | expressionStatement | ifStatement
  | doStatement | whileStatement | forStatement | forInStatement | forOfStatement
  | continueStatement | breakStatement | returnStatement | withStatement | switchStatement
  | labeledStatement | throwStatement | tryStatement | debuggerStatement | variableDeclaration
  | variableDeclarationList | functionDeclaration | classDeclaration | importDeclaration
  | exportDeclaration => true
  | _ => false

end NodeKind

/-- The kind of any part of a tree. -/
inductive Kind
  | token (t : TokenKind)
  | node (n : NodeKind)
deriving DecidableEq, Inhabited

namespace Kind

/-- The name of the kind. -/
def name : Kind → String
  | token t => t.name
  | node n => n.name

/-- Every kind. -/
def all : List Kind :=
  TokenKind.all.map token ++ NodeKind.all.map node

/-- The kind with the given name. -/
def ofName? (s : String) : Option Kind :=
  all.find? (·.name = s)

/-- The token kind, if it is one. -/
def token? : Kind → Option TokenKind
  | token t => some t
  | node _ => none

/-- Statements, declarations included. -/
def isStatement : Kind → Bool
  | token _ => false
  | node n => n.isStatement

end Kind

end LambdaLift
