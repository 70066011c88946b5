import LambdaLift.Proofs.Tree.Position

/-!
# What a tree means

Positions do not matter when a program runs, nor do parentheses around the operands of an operator,
nor whether variables are declared together or one after another. Of a construct that cannot be run
only the kind matters, which the failure names.

* `Expr.core`, `Stmt.core`: the tree without what does not matter. A statement becomes a list, as
  a declaration of several variables becomes several declarations.
* `Stmt.coreList_unplaced`: the core does not depend on positions.
-/

namespace LambdaLift

open Stmt

/-- The node with nothing but its kind. -/
def Node.blank : Node → Node
  | .node _ kind _ _ _ _ => .node .root kind noRange {} .none []
  | .hole => .hole

/-- The expression in the parentheses around it. -/
def Expr.bare : Expr → Expr
  | .paren _ e => e.bare
  | e => e

mutual

/-- The expression without positions, without the contents of what cannot be run, and without
parentheses around the operands of operators. The target of an assignment keeps them, since it is a
name only without. -/
def Expr.core : Expr → Expr
  | .ident id => .ident (Leaves.unplaced.ident id)
  | .number lit => .number (Leaves.unplaced.number lit)
  | .string lit => .string (Leaves.unplaced.string lit)
  | .boolean _ b => .boolean noRange b
  | .null _ => .null noRange
  | .paren _ e => .paren noRange e.core
  | .unary _ op e => .unary noRange op e.core
  | .update _ op e => .update noRange op e.core
  | .binary _ op _ a b =>
    if op = .assign then .binary noRange op noRange a.core b.core
    else .binary noRange op noRange a.core.bare b.core.bare
  | .call _ isOptional f args => .call noRange isOptional f.core (Expr.coreList args)
  | .other n => .other n.blank

/-- The cores of expressions. -/
def Expr.coreList : List Expr → List Expr
  | [] => []
  | e :: es => e.core :: Expr.coreList es

end

/-- What is bound, without positions and without the contents of a pattern. -/
def Binding.core : Binding → Binding
  | .name id => .name (Leaves.unplaced.ident id)
  | .pattern n => .pattern n.blank

/-- The declarator without positions, with the core of its initial value. -/
def Declarator.core (d : Declarator) : Declarator :=
  ⟨noRange, d.target.core, d.init.map Expr.core⟩

/-- The parameter without positions, with the core of its initial value. -/
def Param.core (p : Param) : Param :=
  ⟨noRange, p.ellipsis.map fun _ => noRange, p.target.core, p.init.map Expr.core⟩

/-- The head of a function without positions, with the cores of its parameters. -/
def FunctionHead.core (h : FunctionHead) : FunctionHead :=
  ⟨noRange, h.isAsync, h.isGenerator, h.name.map Leaves.unplaced.ident, h.params.map Param.core,
    noRange⟩

mutual

/-- The core of a statement: one declaration for each variable. -/
def Stmt.core : Stmt → List Stmt
  | .vars _ _ kind ds => ds.map fun d => .vars noRange noRange kind [d.core]
  | .function head body => [.function head.core (coreList body)]
  | .block _ body => [.block noRange (coreList body)]
  | .empty _ => [.empty noRange]
  | .expression _ e => [.expression noRange e.core]
  | .return_ _ e => [.return_ noRange (e.map Expr.core)]
  | .other n => [.other n.blank]

/-- The core of statements. -/
def Stmt.coreList : List Stmt → List Stmt
  | [] => []
  | s :: ss => s.core ++ coreList ss

end

theorem Stmt.coreList_append (ss ts : List Stmt) :
    coreList (ss ++ ts) = coreList ss ++ coreList ts := by
  induction ss with
  | nil => rfl
  | cons s ss ih => simp [coreList, ih]

/-! ## Names and kinds -/

theorem Node.kind_blank (n : Node) : n.blank.kind = n.kind := by
  cases n <;> rfl

theorem Expr.name?_core (e : Expr) : e.core.name? = e.name? := by
  cases e with
  | binary r op opRange a b =>
    rw [Expr.core]
    split <;> rfl
  | _ => rfl

theorem Expr.kind_core (e : Expr) : e.core.kind = e.kind := by
  cases e with
  | binary r op opRange a b =>
    rw [Expr.core]
    split <;> rfl
  | other n => exact n.kind_blank
  | _ => rfl

theorem Binding.name?_core (b : Binding) : b.core.name? = b.name? := by
  cases b <;> rfl

theorem Param.plainName?_core (p : Param) : p.core.plainName? = p.plainName? := by
  simp [Param.plainName?, Param.core, Binding.name?_core]

theorem FunctionHead.name?_core (h : FunctionHead) : h.core.name? = h.name? := by
  obtain ⟨_, _, _, name, _, _⟩ := h
  cases name <;> rfl

theorem Declarator.name?_target_core (d : Declarator) : d.core.target.name? = d.target.name? :=
  d.target.name?_core

/-! ## Positions -/

section Positions

theorem Node.blank_unplaced (n : Node) : n.unplaced.blank = n.blank := by
  cases n <;> rfl

mutual

theorem Expr.core_unplaced : (e : Expr) → e.unplaced.core = e.core
  | .ident _ | .number _ | .string _ | .boolean .. | .null _ => rfl
  | .paren _ e | .unary _ _ e | .update _ _ e => by
    simpa [Expr.unplaced, Expr.clear, Expr.core] using Expr.core_unplaced e
  | .binary _ _ _ a b => by
    have ha : (a.clear .unplaced).core = a.core := Expr.core_unplaced a
    have hb : (b.clear .unplaced).core = b.core := Expr.core_unplaced b
    simp [Expr.unplaced, Expr.clear, Expr.core, ha, hb]
  | .call _ _ f args => by
    simpa [Expr.unplaced, Expr.clear, Expr.core] using
      ⟨Expr.core_unplaced f, Expr.coreList_unplaced args⟩
  | .other n => by simp [Expr.unplaced, Expr.clear, Expr.core, Node.blank_unplaced n]

theorem Expr.coreList_unplaced : (es : List Expr) →
    Expr.coreList (Expr.clearList .unplaced es) = Expr.coreList es
  | [] => rfl
  | e :: es => by
    simpa [Expr.clearList, Expr.coreList] using
      ⟨Expr.core_unplaced e, Expr.coreList_unplaced es⟩

end

theorem Expr.map_core_unplaced (e : Option Expr) :
    (e.map (Expr.clear .unplaced)).map Expr.core = e.map Expr.core := by
  cases e with
  | none => rfl
  | some e => exact congrArg some (Expr.core_unplaced e)

theorem Binding.core_unplaced (b : Binding) : (b.clear .unplaced).core = b.core := by
  cases b with
  | name id => rfl
  | pattern n => exact congrArg Binding.pattern n.blank_unplaced

theorem Declarator.core_unplaced (d : Declarator) : (d.clear .unplaced).core = d.core := by
  simp [Declarator.core, Declarator.clear, Binding.core_unplaced, -Option.map_map,
    Expr.map_core_unplaced]

theorem Param.core_unplaced (p : Param) : (p.clear .unplaced).core = p.core := by
  obtain ⟨r, ellipsis, target, init⟩ := p
  simp only [Param.core, Param.clear, Binding.core_unplaced, Expr.map_core_unplaced]
  cases ellipsis <;> rfl

theorem FunctionHead.core_unplaced (h : FunctionHead) : (h.clear .unplaced).core = h.core := by
  have hparams : (h.params.map (Param.clear .unplaced)).map Param.core =
      h.params.map Param.core := by
    rw [List.map_map]
    exact List.map_congr_left fun p _ => p.core_unplaced
  simp only [FunctionHead.core, FunctionHead.clear, hparams]
  cases h.name <;> rfl

mutual

theorem Stmt.core_unplaced : (s : Stmt) → s.unplaced.core = s.core
  | .vars _ _ _ ds => by
    simp [unplaced, clear, core, Function.comp_def, Declarator.core_unplaced]
  | .function head body => by
    simp [unplaced, clear, core, FunctionHead.core_unplaced,
      coreList_unplaced body]
  | .block _ body => by simp [unplaced, clear, core, coreList_unplaced body]
  | .empty _ => rfl
  | .expression _ e => congrArg (fun e => [expression noRange e]) (Expr.core_unplaced e)
  | .return_ _ e => congrArg (fun e => [return_ noRange e]) (Expr.map_core_unplaced e)
  | .other n => by simp [unplaced, clear, core, Node.blank_unplaced]

theorem Stmt.coreList_unplaced : (ss : List Stmt) →
    coreList (clearList .unplaced ss) = coreList ss
  | [] => rfl
  | s :: ss => by
    have hs : (s.clear .unplaced).core = s.core := core_unplaced s
    simp only [clearList, coreList, hs, coreList_unplaced ss]

end

end Positions

end LambdaLift
