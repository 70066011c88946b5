import LambdaLift.Token.Reading
import LambdaLift.Tree.Stmt

/-!
# Trees without positions

Two texts of one program give trees that differ in the places of their nodes.

* `Stmt.unplaced`: the tree with every range, also those in uniform nodes, set to `noRange`.
* `Stmt.respelled`: the tree without positions whose literals have the values that their texts
  spell. A tree that was read from a text has these values anyway (`Stmt.Faithful`,
  `Stmt.respelled_eq_unplaced`).
-/

namespace LambdaLift

/-- The range of a node without a position. -/
def noRange : Range := .empty 0

/-- The number that a text spells. -/
def numberSpelled (raw : String) : Float :=
  (Lexeme.read (.ofText raw)).number

/-- The contents of the string that a text spells. -/
def stringSpelled (raw : String) : String :=
  String.ofList (Lexeme.read (.ofText raw)).value

/-- What becomes of the leaves of a tree. -/
structure Leaves where
  ident : Ident → Ident
  number : NumberLiteral → NumberLiteral
  string : Literal → Literal

namespace Leaves

/-- Leaves lose their position. -/
def unplaced : Leaves where
  ident id := { id with range := noRange }
  number lit := { lit with range := noRange }
  string lit := { lit with range := noRange }

/-- Leaves lose their position, and literals get the values that their texts spell. -/
def respelled : Leaves where
  ident id := ⟨noRange, id.name, false⟩
  number lit := ⟨noRange, numberSpelled lit.raw, lit.raw⟩
  string lit := ⟨noRange, stringSpelled lit.raw, lit.raw, false⟩

end Leaves

mutual

/-- The node without positions. -/
def Node.unplaced : Node → Node
  | .node role kind _ marks detail children =>
    .node role kind noRange marks detail (Node.unplacedList children)
  | .hole => .hole

/-- The nodes without positions. -/
def Node.unplacedList : List Node → List Node
  | [] => []
  | n :: ns => n.unplaced :: Node.unplacedList ns

end

mutual

/-- The expression without positions, with its leaves changed. -/
def Expr.clear (l : Leaves) : Expr → Expr
  | .ident id => .ident (l.ident id)
  | .number lit => .number (l.number lit)
  | .string lit => .string (l.string lit)
  | .boolean _ b => .boolean noRange b
  | .null _ => .null noRange
  | .paren _ e => .paren noRange (e.clear l)
  | .unary _ op e => .unary noRange op (e.clear l)
  | .update _ op e => .update noRange op (e.clear l)
  | .binary _ op _ a b => .binary noRange op noRange (a.clear l) (b.clear l)
  | .call _ isOptional f args => .call noRange isOptional (f.clear l) (Expr.clearList l args)
  | .other n => .other n.unplaced

/-- The expressions without positions, with their leaves changed. -/
def Expr.clearList (l : Leaves) : List Expr → List Expr
  | [] => []
  | e :: es => e.clear l :: Expr.clearList l es

end

/-- What is bound, without positions and with its name changed. -/
def Binding.clear (l : Leaves) : Binding → Binding
  | .name id => .name (l.ident id)
  | .pattern n => .pattern n.unplaced

/-- The declarator without positions, with its leaves changed. -/
def Declarator.clear (l : Leaves) (d : Declarator) : Declarator :=
  ⟨noRange, d.target.clear l, d.init.map (Expr.clear l)⟩

/-- The parameter without positions, with its leaves changed. -/
def Param.clear (l : Leaves) (p : Param) : Param :=
  ⟨noRange, p.ellipsis.map fun _ => noRange, p.target.clear l, p.init.map (Expr.clear l)⟩

/-- The head of a function without positions, with its leaves changed. -/
def FunctionHead.clear (l : Leaves) (h : FunctionHead) : FunctionHead :=
  ⟨noRange, h.isAsync, h.isGenerator, h.name.map l.ident, h.params.map (Param.clear l), noRange⟩

mutual

/-- The statement without positions, with its leaves changed. -/
def Stmt.clear (l : Leaves) : Stmt → Stmt
  | .vars _ _ kind ds => .vars noRange noRange kind (ds.map (Declarator.clear l))
  | .function head body => .function (head.clear l) (Stmt.clearList l body)
  | .block _ body => .block noRange (Stmt.clearList l body)
  | .empty _ => .empty noRange
  | .expression _ e => .expression noRange (e.clear l)
  | .return_ _ e => .return_ noRange (e.map (Expr.clear l))
  | .other n => .other n.unplaced

/-- The statements without positions, with their leaves changed. -/
def Stmt.clearList (l : Leaves) : List Stmt → List Stmt
  | [] => []
  | s :: ss => s.clear l :: Stmt.clearList l ss

end

/-- The expression without positions. -/
def Expr.unplaced (e : Expr) : Expr :=
  e.clear .unplaced

/-- The statement without positions. -/
def Stmt.unplaced (s : Stmt) : Stmt :=
  s.clear .unplaced

/-- The expression without positions, each literal with the value that its text spells. -/
def Expr.respelled (e : Expr) : Expr :=
  e.clear .respelled

/-- The statement without positions, each literal with the value that its text spells. -/
def Stmt.respelled (s : Stmt) : Stmt :=
  s.clear .respelled

theorem Expr.name?_unplaced (e : Expr) : e.unplaced.name? = e.name? := by
  cases e <;> rfl

theorem Expr.clearList_eq_map (l : Leaves) (es : List Expr) :
    Expr.clearList l es = es.map (Expr.clear l) := by
  induction es with
  | nil => rfl
  | cons e es ih => simp [Expr.clearList, ih]

theorem Stmt.clearList_eq_map (l : Leaves) (ss : List Stmt) :
    Stmt.clearList l ss = ss.map (Stmt.clear l) := by
  induction ss with
  | nil => rfl
  | cons s ss ih => simp [Stmt.clearList, ih]

end LambdaLift
