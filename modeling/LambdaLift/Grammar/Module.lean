import LambdaLift.Grammar.Member

/-!
# Imports and exports
-/

namespace LambdaLift

namespace Grammar

/-- The text that names a module. -/
def moduleName : Parse Literal := do
  if (← current) = .string then
    literal
  else
    report (.expected "string literal")
    missingLiteral

/-- The node of a module's name. -/
def moduleNode (lit : Literal) : Node :=
  lit.node .moduleName .string

/-- One name in an import or export, maybe under another name. -/
def specifier (kind : NodeKind) : Parse Node := do
  let start ← position
  let first ← word
  if ← look (isName "as") then
    advance
    let second ← word
    return .ofKind .specifier kind (← rangeFrom start)
      [first.node .propertyName, second.node .name]
  else
    return .ofKind .specifier kind (← rangeFrom start) [first.node .name]

/-- The next name in an import or export. -/
def specifierTurn (kind : NodeKind) : Parse (Turn Node) := do
  if (← current).isWord then
    turnAtComma (← specifier kind)
  else
    return .stop

/-- Names in braces in an import or export. -/
def specifiers (kind : NodeKind) : Parse (List Node) := do
  expect (.punctuator .openBrace)
  let names ← many (specifierTurn kind)
  expect (.punctuator .closeBrace)
  return names

/-- The names that an import brings in besides a default one. -/
def importedOthers : Parse (List Node) := do
  if ← accept (.punctuator .star) then
    expectName "as"
    let id ← name
    return [id.node .namespaceBinding]
  else if (← current) = .punctuator .openBrace then
    specifiers .importSpecifier
  else
    return []

/-- The names that an import brings in. -/
def importedNames : Parse (List Node) := do
  let whole ← name?
  if whole.isSome then
    discard (accept (.punctuator .comma))
  let others ← importedOthers
  return (whole.map (Ident.node .defaultBinding)).toList ++ others

/-- What stands before the module's name in an import: nothing, or names and the word `from`. -/
def importClause : Parse (List Node) := do
  if (← current) = .string then
    return []
  else
    let names ← importedNames
    expectName "from"
    return names

/-- An import. -/
def importDeclaration : Parse Node := do
  let start ← position
  expect (.keyword .import_)
  let names ← importClause
  let source ← moduleName
  semicolon
  return .ofKind .statement .importDeclaration (← rangeFrom start) (names ++ [moduleNode source])

/-- What a default export exports. -/
def exportedDefault (g : Rules) : Parse Node := do
  let start ← position
  match ← current with
  | .keyword .function_ =>
    return (← functionDeclaration g start false true).node .declaration
  | .keyword .class_ => return (← classLike g .classDeclaration).withRole .declaration
  | _ =>
    if ← look isAsyncFunction then
      advance
      return (← functionDeclaration g (← position) true true).node .declaration
    else
      let e ← g.assignment
      semicolon
      return e.node .expression

/-- The one name for everything that another module exports, if there is one. -/
def exportedAlias : Parse (List Node) := do
  if ← look (isName "as") then
    advance
    let id ← word
    return [.ofKind .specifier .exportSpecifier id.range [id.node .name]]
  else
    return []

/-- Everything that another module exports, maybe under one name. -/
def exportedModule : Parse (List Node) := do
  let names ← exportedAlias
  expectName "from"
  let source ← moduleName
  semicolon
  return names ++ [moduleNode source]

/-- The module that exported names come from, if they are not this one's. -/
def exportSource : Parse (List Node) := do
  if ← look (isName "from") then
    advance
    let source ← moduleName
    return [moduleNode source]
  else
    return []

/-- Names that are exported, maybe from another module. -/
def exportedNames : Parse (List Node) := do
  let names ← specifiers .exportSpecifier
  let source ← exportSource
  semicolon
  return names ++ source

/-- Whether a statement of the given kind declares something that can be exported. -/
def isExportable (kind : Kind) : Bool :=
  kind = .node .variableStatement || kind = .node .functionDeclaration ||
    kind = .node .classDeclaration

/-- A declaration that is exported. -/
def exportedDeclaration (g : Rules) : Parse Node := do
  let s ← g.statement
  if !isExportable s.kind then
    reportAt s.range.span .declarationExpected
  return s.node .declaration

/-- What an export that is not the default one exports. -/
def exportedItems (g : Rules) : Parse (List Node) := do
  if ← accept (.punctuator .star) then
    exportedModule
  else if (← current) = .punctuator .openBrace then
    exportedNames
  else
    let item ← exportedDeclaration g
    return [item]

/-- An export. -/
def exportDeclaration (g : Rules) : Parse Node := do
  let start ← position
  expect (.keyword .export_)
  let isDefault ← accept (.keyword .default_)
  let children ← if isDefault then List.singleton <$> exportedDefault g else exportedItems g
  return .ofKind .statement .exportDeclaration (← rangeFrom start) children { isDefault }

end Grammar

end LambdaLift
