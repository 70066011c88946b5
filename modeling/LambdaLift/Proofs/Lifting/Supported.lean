import LambdaLift.Lifting.Basic
import LambdaLift.Proofs.Scope.Declared

/-!
# What can be lifted

`Stmt.Supported` says on the tree alone what lifting accepts: variables bound to names, functions
that run at once and have a name and plain parameters, blocks, expressions and returns, with names,
values, operators and calls of names as expressions.
-/

namespace LambdaLift

mutual

/-- An expression that can be lifted. -/
def Expr.Supported : Expr → Prop
  | .ident _ | .number _ | .string _ | .boolean .. | .null _ => True
  | .paren _ e | .unary _ _ e | .update _ _ e => e.Supported
  | .binary _ op _ a b =>
    op.isLiftable = true ∧ (if op = .assign then a.name?.isSome = true else a.Supported) ∧ b.Supported
  | .call _ isOptional f args =>
    isOptional = false ∧ f.name?.isSome ∧ Expr.SupportedList args
  | .other _ => False

/-- Expressions that can be lifted. -/
def Expr.SupportedList : List Expr → Prop
  | [] => True
  | e :: es => e.Supported ∧ Expr.SupportedList es

end

theorem Expr.supportedList_iff {es : List Expr} :
    Expr.SupportedList es ↔ ∀ e ∈ es, e.Supported := by
  induction es with
  | nil => simp [Expr.SupportedList]
  | cons e es ih => simp [Expr.SupportedList, ih]

/-- A variable that can be lifted is bound to a name. -/
def Declarator.Supported (d : Declarator) : Prop :=
  d.target.name?.isSome ∧ ∀ e ∈ d.init, e.Supported

/-- A function that can be lifted has a name and plain parameters, and runs at once. -/
structure FunctionHead.Supported (h : FunctionHead) : Prop where
  isAsync : h.isAsync = false
  isGenerator : h.isGenerator = false
  name : ∃ name, h.name? = some name ∧ name ≠ ""
  params : ∀ p ∈ h.params, p.plainName?.isSome

mutual

/-- A statement that can be lifted. -/
def Stmt.Supported : Stmt → Prop
  | .vars _ _ _ ds => ∀ d ∈ ds, d.Supported
  | .function head body => head.Supported ∧ Stmt.SupportedList body
  | .block _ body => Stmt.SupportedList body
  | .expression _ e => e.Supported
  | .return_ _ e => ∀ e' ∈ e, e'.Supported
  | .empty _ | .other _ => False

/-- Statements that can be lifted. -/
def Stmt.SupportedList : List Stmt → Prop
  | [] => True
  | s :: ss => s.Supported ∧ Stmt.SupportedList ss

end

mutual

theorem Stmt.supported_of_nested (nested : Bool) (s : Stmt) (hs : s.Supported) :
    ∀ f ∈ s.nestedFunctions nested, f.1.Supported := by
  cases s with
  | function head body =>
    rw [Stmt.nestedFunctions, List.forall_mem_append]
    refine ⟨?_, Stmt.supported_of_nestedOfList true body hs.2⟩
    cases nested with
    | true => exact fun f hf => List.mem_singleton.1 hf ▸ hs.1
    | false => exact fun f hf => absurd hf (List.not_mem_nil)
  | block _ body => exact Stmt.supported_of_nestedOfList nested body hs
  | vars _ _ _ _ | expression _ _ | return_ _ _ | empty _ | other _ =>
    exact fun f hf => absurd hf (List.not_mem_nil)

theorem Stmt.supported_of_nestedOfList (nested : Bool) (ss : List Stmt)
    (hs : Stmt.SupportedList ss) : ∀ f ∈ Stmt.nestedFunctionsOfList nested ss, f.1.Supported := by
  cases ss with
  | nil => exact fun f hf => absurd hf (List.not_mem_nil)
  | cons s ss =>
    rw [Stmt.nestedFunctionsOfList, List.forall_mem_append]
    exact ⟨Stmt.supported_of_nested nested s hs.1, Stmt.supported_of_nestedOfList nested ss hs.2⟩

end

theorem Stmt.supportedList_iff {ss : List Stmt} :
    Stmt.SupportedList ss ↔ ∀ s ∈ ss, s.Supported := by
  induction ss with
  | nil => simp [Stmt.SupportedList]
  | cons s ss ih => simp [Stmt.SupportedList, ih]

end LambdaLift
