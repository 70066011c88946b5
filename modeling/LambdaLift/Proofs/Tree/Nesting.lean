import LambdaLift.Proofs.Tree.Position

/-!
# How deep lifted programs nest

Reading a text counts the constructs around each token: statements, values that stand on their own,
and operands of operators before them. Operators between operands and calls one after another are
read in loops and are not counted.

* `Expr.nesting`, `Stmt.nesting`: the levels of nesting in what can be lifted.
* `Stmt.nesting_clear`: they do not depend on positions.
-/

namespace LambdaLift

open Stmt

/-- The most levels that one of some things takes. -/
def mostLevels {ι : Type} (levels : ι → Nat) : List ι → Nat
  | [] => 0
  | i :: items => max (levels i) (mostLevels levels items)

mutual

/-- The levels of nesting within an expression that stands on its own. -/
def Expr.nesting : Expr → Nat
  | .paren _ e | .unary _ _ e => e.nesting + 1
  | .update _ _ e => e.nesting
  | .binary _ op _ a b => if op = .assign then b.nesting + 1 else max a.nesting b.nesting
  | .call _ _ _ args => Expr.nestingOfList args
  | _ => 0

/-- The levels of nesting in arguments, each of which stands on its own. -/
def Expr.nestingOfList : List Expr → Nat
  | [] => 0
  | e :: es => max (e.nesting + 1) (Expr.nestingOfList es)

end

/-- The levels of nesting in an expression that stands on its own, if there is one. -/
def Expr.nesting? (e : Option Expr) : Nat :=
  e.elim 0 (·.nesting + 1)

mutual

/-- The levels of nesting that a statement takes. -/
def Stmt.nesting : Stmt → Nat
  | .vars _ _ _ ds => mostLevels (fun d => Expr.nesting? d.init) ds + 1
  | .function _ body | .block _ body => nestingOfList body + 1
  | .expression _ e => e.nesting + 2
  | .return_ _ e => Expr.nesting? e + 1
  | .empty _ | .other _ => 1

/-- The levels of nesting that statements take. -/
def Stmt.nestingOfList : List Stmt → Nat
  | [] => 0
  | s :: ss => max s.nesting (nestingOfList ss)

end

theorem Expr.nestingOfList_eq (es : List Expr) :
    Expr.nestingOfList es = mostLevels (fun e : Expr => e.nesting + 1) es := by
  induction es with
  | nil => rfl
  | cons e es ih => rw [Expr.nestingOfList, mostLevels, ih]

theorem mostLevels_zero {ι : Type} (items : List ι) : mostLevels (fun _ => 0) items = 0 := by
  induction items with
  | nil => rfl
  | cons i items ih => rw [mostLevels, ih, Nat.max_self]

theorem mostLevels_map {ι κ : Type} (levels : κ → Nat) (f : ι → κ) (items : List ι) :
    mostLevels levels (items.map f) = mostLevels (levels ∘ f) items := by
  induction items with
  | nil => rfl
  | cons i items ih => simp [mostLevels, ih]

/-! ## Positions -/

section

variable (l : Leaves)

mutual

theorem Expr.nesting_clear (e : Expr) : (e.clear l).nesting = e.nesting := by
  cases e with
  | paren _ e | unary _ _ e | update _ _ e => simp [Expr.clear, Expr.nesting, Expr.nesting_clear e]
  | binary _ op _ a b =>
    simp [Expr.clear, Expr.nesting, Expr.nesting_clear a, Expr.nesting_clear b]
  | call _ _ f args => simp [Expr.clear, Expr.nesting, Expr.nestingOfList_clear args]
  | ident _ | number _ | string _ | boolean _ _ | null _ | other _ => rfl

theorem Expr.nestingOfList_clear (es : List Expr) :
    Expr.nestingOfList (Expr.clearList l es) = Expr.nestingOfList es := by
  cases es with
  | nil => rfl
  | cons e es =>
    simp [Expr.clearList, Expr.nestingOfList, Expr.nesting_clear e, Expr.nestingOfList_clear es]

end

theorem Expr.nesting?_clear (e : Option Expr) :
    Expr.nesting? (e.map (Expr.clear l)) = Expr.nesting? e := by
  cases e with
  | none => rfl
  | some e => simp [Expr.nesting?, Expr.nesting_clear]

mutual

theorem Stmt.nesting_clear (s : Stmt) : (s.clear l).nesting = s.nesting := by
  cases s with
  | vars _ _ kind ds =>
    rw [clear, nesting, mostLevels_map]
    simp [nesting, Function.comp_def, Declarator.clear, Expr.nesting?_clear]
  | function head body | block _ body =>
    simp [clear, nesting, nestingOfList_clear body]
  | expression _ e => simp [clear, nesting, Expr.nesting_clear]
  | return_ _ e => simp [clear, nesting, Expr.nesting?_clear]
  | empty _ | other _ => rfl

theorem Stmt.nestingOfList_clear (ss : List Stmt) :
    nestingOfList (clearList l ss) = nestingOfList ss := by
  cases ss with
  | nil => rfl
  | cons s ss =>
    simp [clearList, nestingOfList, nesting_clear s, nestingOfList_clear ss]

end

end

end LambdaLift
