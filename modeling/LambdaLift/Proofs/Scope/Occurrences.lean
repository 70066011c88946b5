import LambdaLift.Proofs.Scope.FreeReads
import Mathlib.Data.List.Basic
import Mathlib.Data.List.Induction

/-!
# Occurrences of names

The names that occur in a function, each with what stands around it. Whether a name is in scope is
read off what stands around the occurrence, with no scopes that are opened and closed on the way.

* `Surrounding`: what can bring a name into scope at a place: the parameters of a function around
  it, the name of a function declared around it, statements before it in a list around it, and
  variables declared before it in the same statement or with the initial value it stands in.
* `Occurrence.ofFunction`: the occurrences in a function, in the order of the text.
* `FreeNames.ofFunction_lists_unbound`: the free names of a function are the names of the
  occurrences that are not in scope, each once, in the order in which they first occur so.
-/

namespace LambdaLift

open FreeReads List

/-- The names that a statement brings into scope after it. What is declared in a block or in the
body of a function stays there. -/
def Stmt.introduced : Stmt → List String
  | .vars _ _ _ ds => ds.filterMap (·.target.name?)
  | .function head _ => head.name?.toList
  | .block .. | .expression .. | .return_ .. | .empty _ | .other _ => []

/-- Something around a place that can bring names into scope there. -/
inductive Surrounding
  /-- The parameters of a function that the place is in. -/
  | parameters (params : List Param)
  /-- A function that is declared around the place. -/
  | function (head : FunctionHead)
  /-- The statements before the place in a list of statements around it. -/
  | earlier (statements : List Stmt)
  /-- The variables of a declaration, up to the one whose initial value the place is in. -/
  | variables (declarators : List Declarator)

/-- The names brought into scope. A pattern brings none. -/
def Surrounding.names : Surrounding → List String
  | .parameters params => params.filterMap (·.target.name?)
  | .function head => head.name?.toList
  | .earlier statements => statements.flatMap Stmt.introduced
  | .variables declarators => declarators.filterMap (·.target.name?)

/-- A name is in scope at a place if something around the place brings it into scope. -/
def InScope (around : List Surrounding) (x : String) : Prop :=
  x ∈ around.flatMap Surrounding.names

instance (around : List Surrounding) (x : String) : Decidable (InScope around x) :=
  inferInstanceAs (Decidable (x ∈ around.flatMap Surrounding.names))

theorem inScope_cons {s : Surrounding} {around : List Surrounding} {x : String} :
    InScope (s :: around) x ↔ x ∈ s.names ∨ InScope around x := by
  simp [InScope]

/-- A name that occurs in a function, with what stands around it there. -/
structure Occurrence where
  name : String
  /-- From the inside outward, up to the parameters of the function. -/
  around : List Surrounding

namespace Occurrence

/-- The name is in scope where it occurs. -/
def IsBound (o : Occurrence) : Prop :=
  InScope o.around o.name

instance (o : Occurrence) : Decidable o.IsBound :=
  inferInstanceAs (Decidable (InScope o.around o.name))

section

variable (calls : FreeNames.Calls)

/-- The names that a call passes besides its arguments occur at the call, unless the callee is in
scope there or is the function that is looked at. -/
def ofPassed (around : List Surrounding) (callee : String) (count : Nat) : List Occurrence :=
  if InScope around callee ∨ calls.self = some callee then []
  else (calls.appended callee count).map (⟨·, around⟩)

mutual

/-- The occurrences in an expression. A call of anything but a name has none, also in its
arguments. -/
def ofExpr (around : List Surrounding) : Expr → List Occurrence
  | .ident id => [⟨id.name, around⟩]
  | .paren _ e | .unary _ _ e | .update _ _ e => ofExpr around e
  | .binary _ _ _ a b => ofExpr around a ++ ofExpr around b
  | .call _ _ f args =>
    match f.name? with
    | none => []
    | some callee =>
      ⟨callee, around⟩ :: (ofExprs around args ++ ofPassed calls around callee args.length)
  | .number _ | .string _ | .boolean .. | .null _ | .other _ => []

/-- The occurrences in expressions. -/
def ofExprs (around : List Surrounding) : List Expr → List Occurrence
  | [] => []
  | e :: es => ofExpr around e ++ ofExprs around es

end

/-- The occurrences in an expression, if there is one. -/
def ofExpr? (around : List Surrounding) (e : Option Expr) : List Occurrence :=
  e.elim [] (ofExpr calls around)

/-- The occurrences in initial values. A variable is in scope in its own and in those after it. -/
def ofDeclarators (around : List Surrounding) (before : List Declarator) :
    List Declarator → List Occurrence
  | [] => []
  | d :: ds =>
    ofExpr? calls (.variables (before ++ [d]) :: around) d.init ++
      ofDeclarators around (before ++ [d]) ds

mutual

/-- The occurrences in a statement. -/
def ofStmt (around : List Surrounding) : Stmt → List Occurrence
  | .vars _ _ _ ds => ofDeclarators calls around [] ds
  | .function head body => ofStmts (.parameters head.params :: .function head :: around) [] body
  | .block _ body => ofStmts around [] body
  | .expression _ e => ofExpr calls around e
  | .return_ _ e => ofExpr? calls around e
  | .empty _ | .other _ => []

/-- The occurrences in the statements of a list that come after the statements `before`. -/
def ofStmts (around : List Surrounding) (before : List Stmt) : List Stmt → List Occurrence
  | [] => []
  | s :: ss => ofStmt (.earlier before :: around) s ++ ofStmts around (before ++ [s]) ss

end

end

/-- The occurrences in a function. Its own name is not in scope by being its name. -/
def ofFunction (appended : String → Nat → List String) (head : FunctionHead)
    (body : List Stmt) : List Occurrence :=
  ofStmts ⟨appended, head.name?⟩ [.parameters head.params] [] body

/-- The names of the occurrences that are not in scope. -/
def unboundNames (os : List Occurrence) : List String :=
  (os.filter (¬ ·.IsBound)).map name

theorem mem_unboundNames {os : List Occurrence} {x : String} :
    x ∈ unboundNames os ↔ ∃ o ∈ os, o.name = x ∧ ¬ o.IsBound := by
  simp only [unboundNames, mem_map, mem_filter, decide_eq_true_eq]
  refine exists_congr fun o => ?_
  rw [and_assoc, and_comm (a := ¬ o.IsBound)]

@[simp] theorem unboundNames_append (os ps : List Occurrence) :
    unboundNames (os ++ ps) = unboundNames os ++ unboundNames ps := by
  simp [unboundNames]

/-! ## Occurrences and reads -/

/-- The names that are in scope at a place are those in the list. -/
def Bounds (around : List Surrounding) (bound : List String) : Prop :=
  ∀ x, x ∈ bound ↔ InScope around x

theorem Bounds.cons {around : List Surrounding} {bound : List String} (h : Bounds around bound)
    {s : Surrounding} {names : List String} (hs : ∀ x, x ∈ names ↔ x ∈ s.names) :
    Bounds (s :: around) (names ++ bound) := by
  intro x
  rw [mem_append, inScope_cons, hs, h]

/-- What brings no name into scope changes nothing. -/
theorem Bounds.cons_nil {around : List Surrounding} {bound : List String} (h : Bounds around bound)
    {s : Surrounding} (hs : s.names = []) : Bounds (s :: around) bound := by
  intro x
  rw [inScope_cons, hs, or_iff_right not_mem_nil, h]

section

variable {calls : FreeNames.Calls}

variable {around : List Surrounding} {bound : List String}

/-- Occurrences of names at one place. -/
theorem unboundNames_map (h : Bounds around bound) (names : List String) :
    unboundNames (names.map (⟨·, around⟩)) = unbound bound names := by
  rw [unboundNames, unbound, filter_map, map_map]
  refine (map_id' _).trans (filter_congr fun x _ => ?_)
  exact decide_eq_decide.2 (not_congr (h x).symm)

theorem unboundNames_ofPassed (h : Bounds around bound) (callee : String) (count : Nat) :
    unboundNames (ofPassed calls around callee count) =
      passed calls bound callee count := by
  unfold ofPassed passed
  simp only [h callee]
  split
  · rfl
  · exact unboundNames_map h _

mutual

theorem unboundNames_ofExpr {around : List Surrounding} {bound : List String}
    (h : Bounds around bound) (e : Expr) :
    unboundNames (ofExpr calls around e) = FreeReads.ofExpr calls bound e := by
  cases e with
  | ident id => exact unboundNames_map h [id.name]
  | paren _ e | unary _ _ e | update _ _ e => exact unboundNames_ofExpr h e
  | binary _ _ _ a b =>
    rw [ofExpr, FreeReads.ofExpr, unboundNames_append, unboundNames_ofExpr h a,
      unboundNames_ofExpr h b]
  | call _ _ f args =>
    rw [ofExpr, FreeReads.ofExpr]
    cases f.name? with
    | none => rfl
    | some callee =>
      have hcallee : unboundNames [⟨callee, around⟩] = unbound bound [callee] :=
        unboundNames_map h [callee]
      simp only
      rw [← singleton_append, unboundNames_append, unboundNames_append, hcallee,
        unboundNames_ofExprs h args, unboundNames_ofPassed h, append_assoc]
  | number _ | string _ | boolean _ _ | null _ | other _ => rfl

theorem unboundNames_ofExprs {around : List Surrounding} {bound : List String}
    (h : Bounds around bound) (es : List Expr) :
    unboundNames (ofExprs calls around es) = FreeReads.ofExprs calls bound es := by
  cases es with
  | nil => rfl
  | cons e es =>
    rw [ofExprs, FreeReads.ofExprs, unboundNames_append, unboundNames_ofExpr h e,
      unboundNames_ofExprs h es]

end

theorem unboundNames_ofExpr? (h : Bounds around bound) (e : Option Expr) :
    unboundNames (ofExpr? calls around e) = FreeReads.ofExpr? calls bound e := by
  cases e with
  | none => rfl
  | some e => exact unboundNames_ofExpr h e

/-- The variables declared so far are the ones before in the same statement. -/
theorem unboundNames_ofDeclarators {before : List Declarator}
    (h : Bounds (.variables before :: around) bound) (ds : List Declarator) :
    unboundNames (ofDeclarators calls around before ds) =
      FreeReads.ofDeclarators calls bound ds := by
  induction ds generalizing before bound with
  | nil => rfl
  | cons d ds ih =>
    have hnext : Bounds (.variables (before ++ [d]) :: around)
        (d.target.name?.toList ++ bound) := by
      intro x
      rw [mem_append, h, inScope_cons, inScope_cons]
      simp [Surrounding.names, or_left_comm, or_assoc, eq_comm]
    rw [ofDeclarators, FreeReads.ofDeclarators, unboundNames_append, unboundNames_ofExpr? hnext,
      ih hnext]

theorem mem_binds {s : Stmt} {x : String} : x ∈ binds s ↔ x ∈ s.introduced := by
  cases s <;> simp [binds, targets, Stmt.introduced]

mutual

theorem unboundNames_ofStmt {around : List Surrounding} {bound : List String}
    (h : Bounds around bound) (s : Stmt) :
    unboundNames (ofStmt calls around s) = FreeReads.ofStmt calls bound s := by
  cases s with
  | vars _ _ _ ds =>
    exact unboundNames_ofDeclarators (h.cons_nil (by rfl)) ds
  | function head body =>
    have hname : Bounds (.function head :: around) (head.name?.toList ++ bound) :=
      h.cons fun _ => .rfl
    have hparams : Bounds (.parameters head.params :: .function head :: around)
        (paramNames head.params ++ (head.name?.toList ++ bound)) :=
      hname.cons fun x => by simp [paramNames, Surrounding.names]
    exact unboundNames_ofStmts (hparams.cons_nil (by rfl)) body
  | block _ body => exact unboundNames_ofStmts (h.cons_nil (by rfl)) body
  | expression _ e => exact unboundNames_ofExpr h e
  | return_ _ e => exact unboundNames_ofExpr? h e
  | empty _ | other _ => rfl

/-- The names bound so far in a list of statements are those that the statements before bring into
scope. -/
theorem unboundNames_ofStmts {around : List Surrounding} {bound : List String} {before : List Stmt}
    (h : Bounds (.earlier before :: around) bound) (ss : List Stmt) :
    unboundNames (ofStmts calls around before ss) = FreeReads.ofStmts calls bound ss := by
  cases ss with
  | nil => rfl
  | cons s ss =>
    have hnext : Bounds (.earlier (before ++ [s]) :: around) (binds s ++ bound) := by
      intro x
      rw [mem_append, h, inScope_cons, inScope_cons, mem_binds]
      simp [Surrounding.names, or_left_comm, or_assoc]
    rw [ofStmts, FreeReads.ofStmts, unboundNames_append, unboundNames_ofStmt h s,
      unboundNames_ofStmts hnext ss]

end

end

end Occurrence

namespace FreeNames

/-! ## The order of free names -/

theorem Finding.note_concat (free names : List String) (x : String) :
    note free (names ++ [x]) =
      if x ∈ note free names then note free names else note free names ++ [x] := by
  rw [note_append]
  simp [note]

/-- Names are noted in the order in which they first come up. -/
theorem Finding.pairwise_note (names : List String) :
    (note [] names).Pairwise fun x y => names.idxOf x < names.idxOf y := by
  induction names using reverseRecOn with
  | nil => exact .nil
  | append_singleton names z ih =>
    -- A name that was there before `z` is found at the same place.
    have hkeep : ∀ x ∈ note [] names, (names ++ [z]).idxOf x = names.idxOf x := by
      intro x hx
      exact idxOf_append_of_mem ((mem_note.1 hx).resolve_left not_mem_nil)
    have hold : (note [] names).Pairwise fun x y =>
        (names ++ [z]).idxOf x < (names ++ [z]).idxOf y := by
      refine ih.imp_of_mem fun {x y} hx hy hlt => ?_
      rwa [hkeep x hx, hkeep y hy]
    rw [note_concat]
    split
    · exact hold
    · rename_i hz
      have hnew : z ∉ names := fun h => hz (mem_note.2 (.inr h))
      refine pairwise_append.2 ⟨hold, pairwise_singleton _ _, fun x hx y hy => ?_⟩
      rw [mem_singleton.1 hy, hkeep x hx, idxOf_append_of_notMem hnew]
      exact Nat.lt_add_right _
        (idxOf_lt_length_of_mem ((mem_note.1 hx).resolve_left not_mem_nil))

/-- **The free names are the names of the occurrences that are not in scope.** Each is listed once,
and they stand in the order in which they first occur where they are not in scope. -/
theorem ofFunction_lists_unbound (appended : String → Nat → List String) (head : FunctionHead)
    (body : List Stmt) :
    (ofFunction appended head body).Nodup ∧
      (∀ x, x ∈ ofFunction appended head body ↔
        ∃ o ∈ Occurrence.ofFunction appended head body, o.name = x ∧ ¬ InScope o.around x) ∧
      (ofFunction appended head body).Pairwise fun x y =>
        (Occurrence.unboundNames (Occurrence.ofFunction appended head body)).idxOf x <
          (Occurrence.unboundNames (Occurrence.ofFunction appended head body)).idxOf y := by
  have hparams :
      Occurrence.Bounds [.parameters head.params] (FreeReads.paramNames head.params) := by
    intro x
    simp [InScope, Surrounding.names, FreeReads.paramNames]
  have hnames : ofFunction appended head body = Finding.note []
      (Occurrence.unboundNames (Occurrence.ofFunction appended head body)) := by
    rw [ofFunction_eq_note, Occurrence.ofFunction,
      Occurrence.unboundNames_ofStmts (hparams.cons_nil (by rfl)) body]
  refine ⟨nodup_ofFunction appended head body, fun x => ?_, ?_⟩
  · rw [hnames, Finding.mem_note, or_iff_right List.not_mem_nil, Occurrence.mem_unboundNames]
    refine exists_congr fun o => and_congr_right fun _ => and_congr_right fun hx => ?_
    rw [Occurrence.IsBound, hx]
  · rw [hnames]
    exact Finding.pairwise_note _

end FreeNames

end LambdaLift
