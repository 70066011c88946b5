import LambdaLift.Proofs.Lifting.Evaluation

/-!
# What the names at a place stand for

The static side of the proof that lifting keeps the behaviour of a program. A place in a well scoped
program has a context: the variables and functions that its names stand for, the latest one first,
each with the number of scopes that are open where it is declared. The context of a function is the
part of a context from the function on.

* `introduced`: the names that statements declare besides the variables of the function around them.
* `Item`, `Fn`: what a name stands for, and the functions among it.
* `FunctionOk`, `WellFormed`: all functions of a context can be called with the rest of the context.
* `Seen.stmts`: what statements read is visible where they stand.
-/

namespace LambdaLift

open List

namespace Behaviour

open TreeLifting (Entry latest? passed)
open FreeReads (ofExpr ofExpr? ofDeclarators ofStmt ofStmts paramNames)
open Captures (noCalls)
open Execution (varNames varNamesOfList)

mutual

/-- The names that a statement declares anywhere in it, except for the variables that belong to the
function around it. -/
def introduced : Stmt → List String
  | .vars _ _ kind ds => if kind.isBlockScoped then ds.filterMap (·.target.name?) else []
  | .function head body =>
    head.name?.toList ++ (head.paramNames ++ (varNamesOfList body ++ introducedOfList body))
  | .block _ body => introducedOfList body
  | .expression .. | .return_ .. | .empty _ | .other _ => []

/-- The names that statements declare anywhere in them, except for the variables that belong to the
function around them. -/
def introducedOfList : List Stmt → List String
  | [] => []
  | s :: ss => introduced s ++ introducedOfList ss

end

mutual

theorem perm_introduced (s : Stmt) :
    (varNames s ++ introduced s).Perm (s.variables ++ s.functions.filterMap (·.1.name?)) := by
  cases s with
  | vars _ _ kind ds =>
    cases kind <;> simp [varNames, introduced, Stmt.variables, Stmt.functions, VarKind.isBlockScoped]
  | function head body =>
    have ih := perm_introducedOfList body
    have hname : (Stmt.functions (.function head body)).filterMap (·.1.name?) =
        head.name?.toList ++ (Stmt.functionsOfList body).filterMap (·.1.name?) := by
      cases hname : head.name? <;> simp [Stmt.functions, hname]
    rw [hname, perm_iff_count]
    intro x
    have hx := perm_iff_count.1 ih x
    simp only [varNames, introduced, Stmt.variables, FunctionHead.paramNames, Stmt.declaredOfList,
      nil_append, count_append] at hx ⊢
    omega
  | block _ body => exact perm_introducedOfList body
  | expression _ _ | return_ _ _ | empty _ | other _ => exact .refl _

/-- Every declared name is a variable of the function around the statements or introduced by
them. -/
theorem perm_introducedOfList (ss : List Stmt) :
    (varNamesOfList ss ++ introducedOfList ss).Perm (Stmt.declaredOfList ss) := by
  cases ss with
  | nil => exact .refl _
  | cons s ss =>
    rw [perm_iff_count]
    intro x
    have hs := perm_iff_count.1 (perm_introduced s) x
    have hss := perm_iff_count.1 (perm_introducedOfList ss) x
    simp only [varNamesOfList, introducedOfList, Stmt.declaredOfList, Stmt.variablesOfList,
      Stmt.functionsOfList, filterMap_append, count_append] at hs hss ⊢
    omega

end

mutual

theorem mem_introduced_of_nested {nested : Bool} {m : String} (s : Stmt)
    (h : m ∈ s.nestedNames nested) : m ∈ introduced s := by
  cases s with
  | function head body =>
    rcases mem_append.1 h with h | h
    · cases nested with
      | true => exact mem_append.2 (.inl h)
      | false => cases h
    · have hbody := mem_introducedOfList_of_nested body h
      simp [introduced, hbody]
  | block _ body => exact mem_introducedOfList_of_nested body h
  | vars _ _ _ _ | expression _ _ | return_ _ _ | empty _ | other _ => cases h

/-- Nested functions are introduced. -/
theorem mem_introducedOfList_of_nested {nested : Bool} {m : String} (ss : List Stmt)
    (h : m ∈ Stmt.nestedNamesOfList nested ss) : m ∈ introducedOfList ss := by
  cases ss with
  | nil => cases h
  | cons s ss =>
    rcases mem_append.1 h with h | h
    · exact mem_append.2 (.inl (mem_introduced_of_nested s h))
    · exact mem_append.2 (.inr (mem_introducedOfList_of_nested ss h))

end

mutual

theorem mem_variables_of_varNames {x : String} (s : Stmt) (h : x ∈ varNames s) :
    x ∈ s.variables := by
  cases s with
  | vars _ _ kind ds =>
    cases kind with
    | var => exact h
    | let_ | const_ => cases h
  | block _ body => exact mem_variablesOfList_of_varNames body h
  | function _ _ | expression _ _ | return_ _ _ | empty _ | other _ => cases h

/-- Variables of the function around are variables. -/
theorem mem_variablesOfList_of_varNames {x : String} (ss : List Stmt) (h : x ∈ varNamesOfList ss) :
    x ∈ Stmt.variablesOfList ss := by
  cases ss with
  | nil => cases h
  | cons s ss =>
    rcases mem_append.1 h with h | h
    · exact mem_append.2 (.inl (mem_variables_of_varNames s h))
    · exact mem_append.2 (.inr (mem_variablesOfList_of_varNames ss h))

end

/-! ## Items -/

/-- A function declaration, in the body of another function if `nested`, with the functions that
were entered before it. -/
structure Fn where
  head : FunctionHead
  body : List Stmt
  nested : Bool
  log : List Entry

namespace Fn

/-- The entry of a nested function. -/
def entry (f : Fn) : Entry :=
  TreeLifting.entry f.log f.head f.body

/-- The functions that were entered before the body of the function. -/
def inner (f : Fn) : List Entry :=
  if f.nested then f.log ++ [f.entry] else f.log

/-- The body of the function, lifted. -/
def lifted (f : Fn) : TreeLifting.Lifted :=
  TreeLifting.stmts true f.inner f.body

/-- The head of the function in the lifted program. -/
def liftedHead (f : Fn) : FunctionHead :=
  if f.nested then .ofNames f.entry.name (f.entry.params ++ f.entry.captured) else f.head

/-- The function value of the lifted program for the one that is declared in the given
environment. -/
def target (f : Fn) (env : Environment) : Closure where
  environment := if f.nested then [Execution.globalScope] else env
  head := f.liftedHead
  body := f.lifted.kept

end Fn

/-- What a name can stand for. -/
inductive Meaning
  | variable_
  | function (f : Fn)
  | print

/-- The entry of a nested function. -/
def Meaning.entry? : Meaning → Option Entry
  | .function f => if f.nested then some f.entry else none
  | .variable_ | .print => none

/-- A name with what it stands for, and the number of scopes around its declaration, the one that it
is declared in included. -/
structure Item where
  name : String
  depth : Nat
  meaning : Meaning

/-- The item is a function that is declared in the body of another one. -/
def Item.IsNested (a : Item) : Prop :=
  a.meaning.entry?.isSome = true

/-- What names stand for, the latest first. -/
abbrev Context := List Item

/-- The names of a context. -/
def Context.names (Γ : Context) : List String :=
  map Item.name Γ

/-- The log has the entries of the nested functions of a context, and of no other name there. -/
def Knows (log : List Entry) (Γ : Context) : Prop :=
  ∀ a ∈ Γ, latest? log a.name = a.meaning.entry?

/-- What is visible is in the context, as a variable or as a function. -/
structure Covers (Γ : Context) (v : Visible) : Prop where
  vars : ∀ x ∈ v.vars, ∃ a ∈ Γ, a.name = x ∧ a.meaning = .variable_
  functions : ∀ x ∈ v.functions, ∃ a ∈ Γ, a.name = x ∧ a.meaning ≠ .variable_

/-- The functions of a program that are lifted. -/
abbrev LiftedFunctions := List (Entry × List Stmt)

/-- Calls do not pass more arguments to lifted functions than these have parameters. -/
def FewArguments (all : LiftedFunctions) (calls : List (String × Nat)) : Prop :=
  ∀ c ∈ calls, ∀ f ∈ all, f.1.name = c.1 → c.2 ≤ f.1.params.length

/-- The function `f`, to which the item `a` refers and which is declared in the context `Γ`, can be
called in any environment that has the items. -/
structure FunctionOk (all : LiftedFunctions) (a : Item) (f : Fn) (Γ : Context) : Prop where
  name : f.head.name? = some a.name
  head : f.head.Supported
  supported : Stmt.SupportedList f.body
  visible : ∃ v, Stmt.ScopedList (v.enter f.head.paramNames) f.body ∧ Covers (a :: Γ) v
  distinct : (Context.names (a :: Γ) ++
    (f.head.paramNames ++ (varNamesOfList f.body ++ introducedOfList f.body))).Nodup
  unlifted : ∀ x ∈ f.head.paramNames ++ Stmt.variablesOfList f.body, x ∉ all.map (·.1.name)
  arity : FewArguments all (Stmt.callsOfList f.body)
  entered : ∀ g ∈ f.lifted.entered, g ∈ all
  logged : ∀ e ∈ f.inner, ∃ g ∈ all, g.1 = e
  knows : Knows f.inner (a :: Γ)
  own : f.nested = true → (f.entry, f.lifted.kept) ∈ all
  captured : f.nested = true → ∀ x ∈ f.entry.captured, x ∈ Context.names (a :: Γ)
  outer : f.nested = false → ∀ b ∈ Γ, ¬ b.IsNested

/-- Items are declared in scopes that are still open where later items are declared, and functions
can be called. -/
def WellFormed (all : LiftedFunctions) : Context → Prop
  | [] => True
  | a :: Γ =>
    (∀ b ∈ Γ, b.depth ≤ a.depth) ∧ (a.name ∈ all.map (·.1.name) → a.IsNested) ∧
      (∀ f, a.meaning = .function f → FunctionOk all a f Γ) ∧ WellFormed all Γ

variable {Γ : Context} {all : LiftedFunctions} {a : Item}

theorem WellFormed.depth_le (h : WellFormed all (a :: Γ)) : ∀ b ∈ a :: Γ, b.depth ≤ a.depth :=
  forall_mem_cons.2 ⟨Nat.le_refl _, h.1⟩

/-- The context from an item on. -/
theorem WellFormed.exists_suffix (h : WellFormed all Γ) (ha : a ∈ Γ) :
    ∃ Γ', a :: Γ' <:+ Γ ∧ WellFormed all (a :: Γ') := by
  induction Γ with
  | nil => cases ha
  | cons b Γ ih =>
    rcases mem_cons.1 ha with rfl | ha
    · exact ⟨Γ, suffix_rfl, h⟩
    · obtain ⟨Γ', hsuffix, hwf⟩ := ih h.2.2.2 ha
      exact ⟨Γ', hsuffix.trans (suffix_cons ..), hwf⟩

theorem WellFormed.isNested (h : WellFormed all Γ) (ha : a ∈ Γ)
    (hlifted : a.name ∈ all.map (·.1.name)) : a.IsNested := by
  obtain ⟨Γ', -, hwf⟩ := h.exists_suffix ha
  exact hwf.2.1 hlifted

theorem Knows.append {log more : List Entry} (h : Knows log Γ)
    (hmore : ∀ e ∈ more, e.name ∉ Γ.names) : Knows (log ++ more) Γ := by
  intro a ha
  rw [Captures.latest?_append, Captures.latest?_eq_none.2, Option.none_or, h a ha]
  intro hname
  obtain ⟨e, he, hename⟩ := mem_map.1 hname
  exact hmore e he (hename ▸ mem_map_of_mem ha)

/-! ## What a function captures is visible -/

/-- The name is among `names` together with all that calls of it pass on. -/
def PassedOn (names : List String) (calls : FreeNames.Calls) (x : String) : Prop :=
  x ∈ names ∧ (calls.self ≠ some x → ∀ count, ∀ y ∈ calls.appended x count, y ∈ names)

/-- What is visible is bound, or is among `names` together with all that calls of it pass on. -/
structure Seen (names : List String) (calls : FreeNames.Calls) (v : Visible)
    (bound : List String) : Prop where
  vars : ∀ x ∈ v.vars, x ∈ bound ∨ PassedOn names calls x
  functions : ∀ x ∈ v.functions, x ∈ bound ∨ PassedOn names calls x

section Seen

variable {names : List String} {calls : FreeNames.Calls} {v : Visible} {bound : List String}

section

variable (h : Seen names calls v bound)
include h

theorem Seen.bind (xs : List String) :
    Seen names calls v (xs ++ bound) where
  vars x hx := (h.vars x hx).imp_left fun hx => mem_append.2 (.inr hx)
  functions x hx := (h.functions x hx).imp_left fun hx => mem_append.2 (.inr hx)

theorem Seen.declare (xs : List String) :
    Seen names calls (v.declare xs) (xs ++ bound) where
  vars x hx := by
    rcases mem_append.1 hx with hx | hx
    · exact .inl (mem_append.2 (.inl hx))
    · exact (h.bind xs).vars x hx
  functions := (h.bind xs).functions

theorem Seen.function (xs ys : List String) :
    Seen names calls ((v.named xs).enter ys) (ys.reverse ++ (xs ++ bound)) where
  vars x hx := by
    rcases mem_append.1 hx with hx | hx
    · exact .inl (mem_append.2 (.inl (mem_reverse.2 hx)))
    · exact ((h.bind xs).bind ys.reverse).vars x hx
  functions x hx := by
    rcases mem_append.1 hx with hx | hx
    · exact .inl (mem_append.2 (.inr (mem_append.2 (.inl hx))))
    · exact ((h.bind xs).bind ys.reverse).functions x hx

theorem Seen.after (s : Stmt) :
    Seen names calls (v.after s) (FreeReads.binds s ++ bound) := by
  cases s with
  | vars _ _ _ ds =>
    simp only [Visible.after, FreeReads.binds, FreeReads.targets]
    induction ds generalizing v bound with
    | nil => exact h
    | cons d ds ih =>
      have hd := ih (h.declare d.target.name?.toList)
      cases hx : d.target.name? <;> simpa [hx] using hd
  | function head body =>
    refine ⟨(h.bind _).vars, fun x hx => ?_⟩
    rcases mem_append.1 hx with hx | hx
    · exact .inl (mem_append.2 (.inl hx))
    · exact (h.bind _).functions x hx
  | block _ _ | expression _ _ | return_ _ _ | empty _ | other _ => exact h

set_option linter.unusedSectionVars false in
mutual

theorem Seen.expr (e : Expr) (he : e.Scoped v) :
    ∀ x ∈ ofExpr calls bound e, x ∈ names := by
  cases e with
  | ident id =>
    intro x hx
    obtain ⟨hid, hx⟩ := FreeReads.mem_unbound.1 hx
    rw [mem_singleton.1 hid] at hx ⊢
    exact ((h.vars _ he).resolve_left hx).1
  | paren _ e => exact Seen.expr e he
  | unary _ _ e | update _ _ e => exact Seen.expr e he.1
  | binary _ _ _ a b =>
    intro x hx
    rcases mem_append.1 hx with hx | hx
    · exact Seen.expr a he.1 x hx
    · exact Seen.expr b he.2.1 x hx
  | call _ _ f args =>
    intro x hx
    simp only [ofExpr] at hx
    split at hx
    · cases hx
    · rename_i callee hcallee
      have hvisible := (he.1 callee hcallee).elim (h.functions callee) (h.vars callee)
      rcases mem_append.1 hx with hx | hx
      · rcases mem_append.1 hx with hx | hx
        · obtain ⟨hname, hx⟩ := FreeReads.mem_unbound.1 hx
          rw [mem_singleton.1 hname] at hx ⊢
          exact (hvisible.resolve_left hx).1
        · exact Seen.exprs args he.2 x hx
      · obtain ⟨hbound, hself, hx, -⟩ := FreeReads.mem_passed.1 hx
        exact (hvisible.resolve_left hbound).2 hself _ x hx
  | number _ | string _ | boolean _ _ | null _ | other _ =>
    intro x hx
    cases hx

theorem Seen.exprs (es : List Expr) (hes : Expr.ScopedList v es) :
    ∀ x ∈ FreeReads.ofExprs calls bound es, x ∈ names := by
  cases es with
  | nil =>
    intro x hx
    cases hx
  | cons e es =>
    intro x hx
    rcases mem_append.1 hx with hx | hx
    · exact Seen.expr e hes.1 x hx
    · exact Seen.exprs es hes.2 x hx

end

theorem Seen.expr? (e : Option Expr) (he : ∀ e' ∈ e, e'.Scoped v) :
    ∀ x ∈ ofExpr? calls bound e, x ∈ names := by
  cases e with
  | none =>
    intro x hx
    cases hx
  | some e => exact h.expr e (he e rfl)

theorem Seen.declarators (ds : List Declarator) (hds : Declarator.ScopedList v ds) :
    ∀ x ∈ ofDeclarators calls bound ds, x ∈ names := by
  induction ds generalizing v bound with
  | nil =>
    intro x hx
    cases hx
  | cons d ds ih =>
    intro x hx
    rcases mem_append.1 hx with hx | hx
    · exact (h.bind _).expr? d.init hds.1 x hx
    · exact ih (h.declare _) hds.2 x hx

end

mutual

theorem Seen.stmt {v : Visible} {bound : List String} (h : Seen names calls v bound) (s : Stmt)
    (hs : s.Scoped v) : ∀ x ∈ ofStmt calls bound s, x ∈ names := by
  cases s with
  | vars _ _ _ ds => exact h.declarators ds hs
  | function head body => exact Seen.stmts (h.function _ _) body hs
  | block _ body => exact Seen.stmts h body hs
  | expression _ e => exact h.expr e hs
  | return_ _ e => exact h.expr? e hs
  | empty _ | other _ =>
    intro x hx
    cases hx

/-- Scoped statements read only what is visible. -/
theorem Seen.stmts {v : Visible} {bound : List String} (h : Seen names calls v bound)
    (ss : List Stmt) (hss : Stmt.ScopedList v ss) : ∀ x ∈ ofStmts calls bound ss, x ∈ names := by
  cases ss with
  | nil =>
    intro x hx
    cases hx
  | cons s ss =>
    intro x hx
    rcases mem_append.1 hx with hx | hx
    · exact Seen.stmt h s hss.1 x hx
    · exact Seen.stmts (h.after s) ss hss.2 x hx

end

end Seen

end Behaviour

end LambdaLift
