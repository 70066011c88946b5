import LambdaLift.Code.Basic
import LambdaLift.Proofs.Tree.Position

/-!
# The tree of lifted code

Lifted code is data from which a text is made. `Code.Stmt.tree` is the tree that the text stands
for, without positions: both operands of an operator that is not an assignment are in parentheses,
and literals have the values that their texts spell.

* `Code.Stmt.ofTrees_trees`: the code can be read off its trees.
-/

namespace LambdaLift

open Stmt

/-- A name without a position. -/
def Ident.ofName (x : String) : Ident :=
  ⟨noRange, x, false⟩

/-- A parameter that is a name and nothing else. -/
def Param.ofName (x : String) : Param :=
  ⟨noRange, none, .name (.ofName x), none⟩

/-- The head of a function with the given name and parameters. -/
def FunctionHead.ofNames (name : String) (params : List String) : FunctionHead :=
  ⟨noRange, false, false, some (.ofName name), params.map .ofName, noRange⟩

/-- A variable declaration of one name. -/
def Stmt.ofVariable (kind : VarKind) (name : String) (init : Option Expr) : Stmt :=
  .vars noRange noRange kind [⟨noRange, .name (.ofName name), init⟩]

namespace Code

mutual

/-- The tree of an expression. -/
def Expr.tree : Code.Expr → LambdaLift.Expr
  | .name x => .ident (.ofName x)
  | .number raw => .number ⟨noRange, numberSpelled raw, raw⟩
  | .string raw => .string ⟨noRange, stringSpelled raw, raw, false⟩
  | .boolean b => .boolean noRange b
  | .null => .null noRange
  | .paren e => .paren noRange e.tree
  | .unary op e => .unary noRange op e.tree
  | .update op e => .update noRange op e.tree
  | .binary op a b => .binary noRange op noRange (.paren noRange a.tree) (.paren noRange b.tree)
  | .assign x e => .binary noRange .assign noRange (.ident (.ofName x)) e.tree
  | .call f args => .call noRange false (.ident (.ofName f)) (Expr.trees args)

/-- The trees of expressions. -/
def Expr.trees : List Code.Expr → List LambdaLift.Expr
  | [] => []
  | e :: es => e.tree :: Expr.trees es

end

mutual

/-- The tree of a statement. -/
def Stmt.tree : Code.Stmt → LambdaLift.Stmt
  | .variable_ kind x init => .ofVariable kind x (init.map Expr.tree)
  | .function name params body => .function (.ofNames name params) (trees body)
  | .block body => .block noRange (trees body)
  | .expression e => .expression noRange e.tree
  | .return_ e => .return_ noRange (e.map Expr.tree)

/-- The trees of statements. -/
def Stmt.trees : List Code.Stmt → List LambdaLift.Stmt
  | [] => []
  | s :: ss => s.tree :: trees ss

end

theorem Expr.trees_eq_map (es : List Code.Expr) : Expr.trees es = es.map Expr.tree := by
  induction es with
  | nil => rfl
  | cons e es ih => simp [Expr.trees, ih]

theorem Stmt.trees_eq_map (ss : List Code.Stmt) : trees ss = ss.map tree := by
  induction ss with
  | nil => rfl
  | cons s ss ih => simp [trees, ih]

@[simp] theorem Stmt.trees_append (as bs : List Code.Stmt) :
    trees (as ++ bs) = trees as ++ trees bs := by
  simp [trees_eq_map]

@[simp] theorem Expr.trees_append (as bs : List Code.Expr) :
    Expr.trees (as ++ bs) = Expr.trees as ++ Expr.trees bs := by
  simp [Expr.trees_eq_map]

/-! ## From trees back to code -/

mutual

/-- The code whose tree this is. Other trees give an arbitrary result. -/
def Expr.ofTree : LambdaLift.Expr → Code.Expr
  | .ident id => .name id.name
  | .number lit => .number lit.raw
  | .string lit => .string lit.raw
  | .boolean _ b => .boolean b
  | .paren _ e => .paren (Expr.ofTree e)
  | .unary _ op e => .unary op (Expr.ofTree e)
  | .update _ op e => .update op (Expr.ofTree e)
  | .binary _ op _ (.paren _ a) (.paren _ b) => .binary op (Expr.ofTree a) (Expr.ofTree b)
  | .binary _ _ _ (.ident id) e => .assign id.name (Expr.ofTree e)
  | .call _ _ f args => .call (f.name?.getD "") (Expr.ofTrees args)
  | .binary .. | .null _ | .other _ => .null

/-- The code whose trees these are. -/
def Expr.ofTrees : List LambdaLift.Expr → List Code.Expr
  | [] => []
  | e :: es => Expr.ofTree e :: Expr.ofTrees es

end

mutual

theorem Expr.ofTree_tree (e : Code.Expr) : Expr.ofTree e.tree = e := by
  cases e with
  | name x | number x | string x | boolean x | null => rfl
  | paren e | unary op e | update op e | assign x e =>
    simp [Expr.tree, Expr.ofTree, Expr.ofTree_tree e, Ident.ofName]
  | binary op a b => simp [Expr.tree, Expr.ofTree, Expr.ofTree_tree a, Expr.ofTree_tree b]
  | call f args =>
    simp [Expr.tree, Expr.ofTree, Expr.ofTrees_trees args, Ident.ofName, LambdaLift.Expr.name?]

theorem Expr.ofTrees_trees (es : List Code.Expr) : Expr.ofTrees (Expr.trees es) = es := by
  cases es with
  | nil => rfl
  | cons e es => simp [Expr.trees, Expr.ofTrees, Expr.ofTree_tree e, Expr.ofTrees_trees es]

end

mutual

/-- The code whose tree this is. Other trees give an arbitrary result. -/
def Stmt.ofTree : LambdaLift.Stmt → Code.Stmt
  | .vars _ _ kind (d :: _) =>
    .variable_ kind (d.target.name?.getD "") (d.init.map Expr.ofTree)
  | .function head body =>
    .function (head.name?.getD "") (head.params.filterMap Param.plainName?) (ofTrees body)
  | .block _ body => .block (ofTrees body)
  | .expression _ e => .expression (Expr.ofTree e)
  | .return_ _ e => .return_ (e.map Expr.ofTree)
  | .vars _ _ _ [] | .empty _ | .other _ => .return_ none

/-- The code whose trees these are. -/
def Stmt.ofTrees : List LambdaLift.Stmt → List Code.Stmt
  | [] => []
  | s :: ss => ofTree s :: ofTrees ss

end

mutual

theorem Stmt.ofTree_tree (s : Code.Stmt) : ofTree s.tree = s := by
  have hinit (e : Option Code.Expr) : (e.map Expr.tree).map Expr.ofTree = e := by
    simp [Function.comp_def, Expr.ofTree_tree]
  cases s with
  | variable_ kind x init =>
    simp [tree, ofTree, LambdaLift.Stmt.ofVariable, Binding.name?, Ident.ofName, hinit]
  | function name params body =>
    have hparams : (params.map Param.ofName).filterMap Param.plainName? = params := by
      rw [List.filterMap_map]
      exact List.filterMap_some
    simp [tree, ofTree, FunctionHead.ofNames, FunctionHead.name?, Ident.ofName, hparams,
      ofTrees_trees body]
  | block body => simp [tree, ofTree, ofTrees_trees body]
  | expression e => simp [tree, ofTree, Expr.ofTree_tree e]
  | return_ e => simp [tree, ofTree, hinit]

theorem Stmt.ofTrees_trees (ss : List Code.Stmt) : ofTrees (trees ss) = ss := by
  cases ss with
  | nil => rfl
  | cons s ss => simp [trees, ofTrees, ofTree_tree s, ofTrees_trees ss]

end

theorem Stmt.ofTrees_append (as bs : List LambdaLift.Stmt) :
    ofTrees (as ++ bs) = ofTrees as ++ ofTrees bs := by
  induction as with
  | nil => rfl
  | cons a as ih => rw [List.cons_append, ofTrees, ih, ofTrees, List.cons_append]

end Code

end LambdaLift
