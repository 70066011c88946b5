import LambdaLift.Scope.FreeNames

/-!
# Free names as reads

The search for free names walks a function with a stack of scopes. Here the same reads are listed
by recursion on the tree alone, with the names bound around a place as a plain list:

* `FreeReads.ofStmts`: the names that statements read where they are not bound, in the order of
  the text and with repetitions.
* `FreeNames.stmts_eq`: the walk over statements binds what they declare, and adds to the free
  names what they read.
* `FreeNames.mem_ofFunction`: a name is free in a function exactly if the function reads it where
  it is not bound.
-/

namespace LambdaLift

open List

namespace FreeReads

open FreeNames (Calls)

/-- The names among `names` that are not bound. -/
def unbound (bound names : List String) : List String :=
  names.filter (· ∉ bound)

/-- What a call passes besides its arguments counts as read, unless the callee is bound in the
function that is looked at or is that function. -/
def passed (calls : Calls) (bound : List String) (callee : String) (count : Nat) : List String :=
  if callee ∈ bound ∨ calls.self = some callee then []
  else unbound bound (calls.appended callee count)

mutual

/-- The names that an expression reads where only `bound` is bound. -/
def ofExpr (calls : Calls) (bound : List String) : Expr → List String
  | .ident id => unbound bound [id.name]
  | .paren _ e | .unary _ _ e | .update _ _ e => ofExpr calls bound e
  | .binary _ _ _ a b => ofExpr calls bound a ++ ofExpr calls bound b
  | .call _ _ f args =>
    match f.name? with
    | none => []
    | some callee =>
      unbound bound [callee] ++ ofExprs calls bound args ++
        passed calls bound callee args.length
  | .number _ | .string _ | .boolean .. | .null _ | .other _ => []

/-- The names that expressions read. -/
def ofExprs (calls : Calls) (bound : List String) : List Expr → List String
  | [] => []
  | e :: es => ofExpr calls bound e ++ ofExprs calls bound es

end

/-- The names that an expression reads, if there is one. -/
def ofExpr? (calls : Calls) (bound : List String) (e : Option Expr) : List String :=
  e.elim [] (ofExpr calls bound)

/-- The names of declared variables, the last one first. -/
def targets (ds : List Declarator) : List String :=
  (ds.filterMap (·.target.name?)).reverse

/-- The names that initial values read. A variable is bound in its own initial value and in those
after it. -/
def ofDeclarators (calls : Calls) (bound : List String) : List Declarator → List String
  | [] => []
  | d :: ds =>
    let inner := d.target.name?.toList ++ bound
    ofExpr? calls inner d.init ++ ofDeclarators calls inner ds

/-- The names of parameters, the last one first. -/
def paramNames (params : List Param) : List String :=
  (params.filterMap (·.target.name?)).reverse

/-- The names that a statement binds in the list it stands in. -/
def binds : Stmt → List String
  | .vars _ _ _ ds => targets ds
  | .function head _ => head.name?.toList
  | .block .. | .expression .. | .return_ .. | .empty _ | .other _ => []

mutual

/-- The names that a statement reads where only `bound` is bound. -/
def ofStmt (calls : Calls) (bound : List String) : Stmt → List String
  | .vars _ _ _ ds => ofDeclarators calls bound ds
  | .function head body =>
    ofStmts calls (paramNames head.params ++ (head.name?.toList ++ bound)) body
  | .block _ body => ofStmts calls bound body
  | .expression _ e => ofExpr calls bound e
  | .return_ _ e => ofExpr? calls bound e
  | .empty _ | .other _ => []

/-- The names that statements read. What a statement binds is bound from there on. -/
def ofStmts (calls : Calls) (bound : List String) : List Stmt → List String
  | [] => []
  | t :: ts => ofStmt calls bound t ++ ofStmts calls (binds t ++ bound) ts

end

variable {bound : List String} {x : String} {calls : Calls}

theorem mem_unbound {names : List String} :
    x ∈ unbound bound names ↔ x ∈ names ∧ x ∉ bound := by
  simp [unbound]

theorem mem_passed {callee : String} {count : Nat} :
    x ∈ passed calls bound callee count ↔
      callee ∉ bound ∧ calls.self ≠ some callee ∧ x ∈ calls.appended callee count ∧ x ∉ bound := by
  unfold passed
  split
  · rename_i h
    simp only [not_mem_nil, false_iff, not_and]
    intro hb hs
    exact absurd h (not_or.2 ⟨hb, hs⟩)
  · rename_i h
    rw [mem_unbound]
    exact ⟨fun hx => ⟨(not_or.1 h).1, (not_or.1 h).2, hx.1, hx.2⟩, fun hx => hx.2.2⟩

theorem mem_ofExprs {es : List Expr} :
    x ∈ ofExprs calls bound es ↔ ∃ e ∈ es, x ∈ ofExpr calls bound e := by
  induction es with
  | nil => simp [ofExprs]
  | cons e es ih => simp [ofExprs, ih]

/-! ## What is read is not bound -/

mutual

theorem not_mem_of_ofExpr (e : Expr) (h : x ∈ ofExpr calls bound e) : x ∉ bound := by
  cases e with
  | ident id => exact (mem_unbound.1 h).2
  | paren _ e | unary _ _ e | update _ _ e => exact not_mem_of_ofExpr e h
  | binary _ _ _ a b =>
    rcases mem_append.1 h with h | h
    · exact not_mem_of_ofExpr a h
    · exact not_mem_of_ofExpr b h
  | call _ _ f args =>
    simp only [ofExpr] at h
    split at h
    · cases h
    · rcases mem_append.1 h with h | h
      · rcases mem_append.1 h with h | h
        · exact (mem_unbound.1 h).2
        · exact not_mem_of_ofExprs args h
      · exact (mem_passed.1 h).2.2.2
  | number _ | string _ | boolean _ _ | null _ | other _ => cases h

theorem not_mem_of_ofExprs (es : List Expr) (h : x ∈ ofExprs calls bound es) : x ∉ bound := by
  cases es with
  | nil => cases h
  | cons e es =>
    rcases mem_append.1 h with h | h
    · exact not_mem_of_ofExpr e h
    · exact not_mem_of_ofExprs es h

end

theorem not_mem_of_ofExpr? (e : Option Expr) (h : x ∈ ofExpr? calls bound e) : x ∉ bound := by
  cases e with
  | none => cases h
  | some e => exact not_mem_of_ofExpr e h

theorem not_mem_of_ofDeclarators (ds : List Declarator) (h : x ∈ ofDeclarators calls bound ds) :
    x ∉ bound := by
  induction ds generalizing bound with
  | nil => cases h
  | cons d ds ih =>
    intro hx
    rcases mem_append.1 h with h | h
    · exact not_mem_of_ofExpr? d.init h (mem_append.2 (.inr hx))
    · exact ih h (mem_append.2 (.inr hx))

mutual

theorem not_mem_of_ofStmt {bound : List String} (s : Stmt)
    (h : x ∈ ofStmt calls bound s) : x ∉ bound := by
  cases s with
  | vars _ _ _ ds => exact not_mem_of_ofDeclarators ds h
  | function head body =>
    intro hx
    exact not_mem_of_ofStmts body h (by simp [hx])
  | block _ body => exact not_mem_of_ofStmts body h
  | expression _ e => exact not_mem_of_ofExpr e h
  | return_ _ e => exact not_mem_of_ofExpr? e h
  | empty _ | other _ => cases h

/-- A name that statements read is not bound where they stand. -/
theorem not_mem_of_ofStmts {bound : List String} (ss : List Stmt)
    (h : x ∈ ofStmts calls bound ss) : x ∉ bound := by
  cases ss with
  | nil => cases h
  | cons s ss =>
    intro hx
    rcases mem_append.1 h with h | h
    · exact not_mem_of_ofStmt s h hx
    · exact not_mem_of_ofStmts ss h (mem_append.2 (.inr hx))

end

/-- The names that statements bind in the list they make up, the last one first. -/
def bindsAll : List Stmt → List String
  | [] => []
  | s :: ss => bindsAll ss ++ binds s

theorem ofStmts_append (calls : Calls) (bound : List String) (as bs : List Stmt) :
    ofStmts calls bound (as ++ bs) =
      ofStmts calls bound as ++ ofStmts calls (bindsAll as ++ bound) bs := by
  induction as generalizing bound with
  | nil => rfl
  | cons a as ih => simp [ofStmts, ih, bindsAll]

end FreeReads

namespace ScopeStack

/-- The names bound in any open scope. -/
def names (s : ScopeStack) : List String :=
  s.scopes.flatten

@[simp] theorem isBound_eq (s : ScopeStack) (x : String) : s.isBound x = decide (x ∈ s.names) := by
  rw [Bool.eq_iff_iff]
  simp [isBound, names, mem_flatten]

@[simp] theorem names_push (s : ScopeStack) : s.push.names = s.names := by
  simp [push, names]

@[simp] theorem names_bind (s : ScopeStack) (x : String) : (s.bind x).names = x :: s.names := by
  unfold bind names
  split <;> rename_i h <;> simp [h]

theorem names_bindAll (s : ScopeStack) (xs : List String) :
    (xs.foldl bind s).names = xs.reverse ++ s.names := by
  induction xs generalizing s with
  | nil => rfl
  | cons x xs ih => rw [foldl_cons, ih, names_bind]; simp

/-- Binding names in an opened scope and closing it leaves the scopes as they were. -/
theorem pop_bindAll_push (s : ScopeStack) (xs : List String) : (xs.foldl bind s.push).pop = s := by
  have h : ∀ (inner : List String), (xs.foldl bind ⟨inner :: s.scopes⟩).pop = s := by
    induction xs with
    | nil => intro inner; rfl
    | cons x xs ih => intro inner; exact ih (x :: inner)
  exact h []

end ScopeStack

namespace FreeNames

namespace Finding

/-- Adds names to a list, those that are new to it, one after another. -/
def note (free : List String) (names : List String) : List String :=
  names.foldl (fun free x => if free.contains x then free else free ++ [x]) free

@[simp] theorem note_nil (free : List String) : note free [] = free := rfl

theorem note_cons (free : List String) (y : String) (ys : List String) :
    note free (y :: ys) = note (if free.contains y then free else free ++ [y]) ys := rfl

theorem note_append (free xs ys : List String) :
    note free (xs ++ ys) = note (note free xs) ys := by
  simp [note]

theorem mem_note {x : String} {free names : List String} :
    x ∈ note free names ↔ x ∈ free ∨ x ∈ names := by
  induction names generalizing free with
  | nil => simp
  | cons y ys ih =>
    rw [note_cons, ih]
    grind

theorem nodup_note {free names : List String} (h : free.Nodup) : (note free names).Nodup := by
  induction names generalizing free with
  | nil => exact h
  | cons y ys ih =>
    rw [note_cons]
    refine ih ?_
    grind

/-- The finding after `names` were read: those not bound are noted. -/
def noting (s : Finding) (names : List String) : Finding :=
  { s with free := note s.free names }

@[simp] theorem noting_scopes (s : Finding) (names : List String) :
    (s.noting names).scopes = s.scopes := rfl

@[simp] theorem noting_nil (s : Finding) : s.noting [] = s := rfl

theorem noting_noting (s : Finding) (xs ys : List String) :
    (s.noting xs).noting ys = s.noting (xs ++ ys) := by
  simp [noting, note_append]

theorem read_eq (s : Finding) (x : String) :
    s.read x = s.noting (FreeReads.unbound s.scopes.names [x]) := by
  unfold read FreeReads.unbound
  by_cases hb : x ∈ s.scopes.names
  · simp [hb]
  · by_cases hf : x ∈ s.free <;> simp [hb, hf, noting, note]

theorem readAll_eq (s : Finding) (xs : List String) :
    s.readAll xs = s.noting (FreeReads.unbound s.scopes.names xs) := by
  induction xs generalizing s with
  | nil => rfl
  | cons x xs ih =>
    have h : s.readAll (x :: xs) = (s.read x).readAll xs := rfl
    rw [h, ih, read_eq, noting_scopes, noting_noting]
    simp only [FreeReads.unbound, ← filter_append, cons_append, nil_append]

end Finding

mutual

/-- Reading an expression notes its unbound names. -/
theorem expr_eq (calls : Calls) (s : Finding) (e : Expr) :
    expr calls s e = s.noting (FreeReads.ofExpr calls s.scopes.names e) := by
  cases e with
  | ident id => exact Finding.read_eq s id.name
  | paren r e | unary r op e | update r op e => exact expr_eq calls s e
  | binary r op opRange a b =>
    simp only [expr, FreeReads.ofExpr]
    rw [expr_eq calls s a, expr_eq calls _ b, Finding.noting_scopes, Finding.noting_noting]
  | call r isOptional f args =>
    simp only [expr, FreeReads.ofExpr]
    cases f.name? with
    | none => rfl
    | some callee =>
      simp only
      rw [exprs_eq calls _ args, Finding.read_eq, Finding.noting_scopes, Finding.noting_noting]
      by_cases hskip : callee ∈ s.scopes.names ∨ calls.self = some callee
      · simp [FreeReads.passed, hskip]
      · simp only [Finding.noting_scopes, ScopeStack.isBound_eq, Bool.or_eq_true, decide_eq_true_eq,
          hskip, FreeReads.passed, ↓reduceIte, Finding.readAll_eq, Finding.noting_noting]
  | number lit | string lit | boolean r b | null r | other n => simp [expr, FreeReads.ofExpr]

theorem exprs_eq (calls : Calls) (s : Finding) (es : List Expr) :
    exprs calls s es = s.noting (FreeReads.ofExprs calls s.scopes.names es) := by
  cases es with
  | nil => rfl
  | cons e es =>
    simp only [exprs, FreeReads.ofExprs]
    rw [expr_eq calls s e, exprs_eq calls _ es, Finding.noting_scopes, Finding.noting_noting]

end

theorem expr?_eq (calls : Calls) (s : Finding) (e : Option Expr) :
    expr? calls s e = s.noting (FreeReads.ofExpr? calls s.scopes.names e) := by
  cases e with
  | none => rfl
  | some e => exact expr_eq calls s e

/-- The finding in which `names` are bound in the innermost scope. -/
def Finding.binding (s : Finding) (names : List String) : Finding :=
  { s with scopes := names.foldl ScopeStack.bind s.scopes }

theorem Finding.foldl_bind (s : Finding) (names : List String) :
    names.foldl Finding.bind s = s.binding names := by
  induction names generalizing s with
  | nil => rfl
  | cons x xs ih => exact ih (s.bind x)

theorem Finding.binding_binding (s : Finding) (xs ys : List String) :
    (s.binding xs).binding ys = s.binding (xs ++ ys) := by
  simp [Finding.binding]

theorem Finding.noting_binding (s : Finding) (xs ys : List String) :
    (s.noting xs).binding ys = (s.binding ys).noting xs := rfl

@[simp] theorem Finding.names_binding (s : Finding) (xs : List String) :
    (s.binding xs).scopes.names = xs.reverse ++ s.scopes.names :=
  ScopeStack.names_bindAll s.scopes xs

@[simp] theorem Finding.names_push (s : Finding) : s.push.scopes.names = s.scopes.names :=
  s.scopes.names_push

/-- What is bound in an opened scope is forgotten when the scope is closed. -/
theorem Finding.pop_binding_push (s : Finding) (xs : List String) : (s.push.binding xs).pop = s := by
  simp only [Finding.pop, Finding.binding, Finding.push]
  rw [ScopeStack.pop_bindAll_push]

theorem Finding.pop_noting (s : Finding) (xs : List String) :
    (s.noting xs).pop = s.pop.noting xs := rfl

theorem Finding.bindTargets_eq (s : Finding) (targets : List Binding) :
    s.bindTargets targets = s.binding (targets.filterMap Binding.name?) :=
  s.foldl_bind _

/-- Reading declared variables binds them and notes what their initial values read. -/
theorem declarators_eq (calls : Calls) (s : Finding) (ds : List Declarator) :
    ds.foldl (declarator calls) s =
      (s.binding (ds.filterMap (·.target.name?))).noting
        (FreeReads.ofDeclarators calls s.scopes.names ds) := by
  induction ds generalizing s with
  | nil => rfl
  | cons d ds ih =>
    have hnames : (s.binding d.target.name?.toList).scopes.names =
        d.target.name?.toList ++ s.scopes.names := by
      rw [Finding.names_binding]
      cases d.target.name? <;> rfl
    have hd : declarator calls s d =
        (s.binding d.target.name?.toList).noting
          (FreeReads.ofExpr? calls (d.target.name?.toList ++ s.scopes.names) d.init) := by
      rw [declarator, expr?_eq, Finding.bindTargets_eq, ← hnames]
      cases h : d.target.name? <;> simp [h]
    rw [foldl_cons, ih, hd, Finding.noting_scopes, hnames, Finding.noting_binding,
      Finding.noting_noting, Finding.binding_binding]
    cases h : d.target.name? <;> simp [h, FreeReads.ofDeclarators]

/-- The names that a statement binds, in the order of the text. -/
def declared (t : Stmt) : List String :=
  (FreeReads.binds t).reverse

mutual

/-- Reading a statement binds what it declares and notes what it reads. -/
theorem stmt_eq (calls : Calls) (s : Finding) (t : Stmt) :
    stmt calls s t =
      (s.binding (declared t)).noting (FreeReads.ofStmt calls s.scopes.names t) := by
  cases t with
  | vars r listRange kind ds =>
    simp [stmt, declared, FreeReads.binds, FreeReads.targets, FreeReads.ofStmt, declarators_eq]
  | function head body =>
    simp only [stmt, FreeReads.ofStmt]
    have hname : head.name?.elim s s.bind = s.binding head.name?.toList := by
      cases head.name? <;> rfl
    rw [hname, Finding.bindTargets_eq, stmts_eq calls _ body, Finding.pop_noting,
      Finding.pop_binding_push, Finding.pop_noting, Finding.pop_binding_push]
    have hnames : ((s.binding head.name?.toList).push.binding
          ((head.params.map Param.target).filterMap Binding.name?)).push.scopes.names =
        FreeReads.paramNames head.params ++ (head.name?.toList ++ s.scopes.names) := by
      cases head.name? <;> simp [FreeReads.paramNames, filterMap_map, Function.comp_def]
    rw [hnames]
    cases h : head.name? <;> simp [declared, FreeReads.binds, h]
  | block r body =>
    simp only [stmt, FreeReads.ofStmt]
    rw [stmts_eq calls _ body, Finding.pop_noting, Finding.pop_binding_push, Finding.names_push]
    rfl
  | expression r e => exact expr_eq calls s e
  | return_ r e => exact expr?_eq calls s e
  | empty r | other n => rfl

/-- Reading statements binds what they declare and notes what they read. -/
theorem stmts_eq (calls : Calls) (s : Finding) (ts : List Stmt) :
    stmts calls s ts =
      (s.binding (ts.flatMap declared)).noting (FreeReads.ofStmts calls s.scopes.names ts) := by
  cases ts with
  | nil => rfl
  | cons t ts =>
    simp only [stmts, FreeReads.ofStmts]
    rw [stmt_eq calls s t, stmts_eq calls _ ts, Finding.noting_scopes, Finding.names_binding,
      Finding.noting_binding, Finding.noting_noting, Finding.binding_binding]
    simp [declared]

end

/-- The free names of a function are noted as its body is read, with the parameters bound. -/
theorem ofFunction_eq_note (appended : String → Nat → List String) (head : FunctionHead)
    (body : List Stmt) :
    ofFunction appended head body = Finding.note []
    (FreeReads.ofStmts ⟨appended, head.name?⟩ (FreeReads.paramNames head.params) body) := by
  have hnames : ((Finding.push {}).bindTargets (head.params.map Param.target)).push.scopes.names =
      FreeReads.paramNames head.params := by
    rw [Finding.bindTargets_eq, Finding.names_push, Finding.names_binding, Finding.names_push]
    simp [FreeReads.paramNames, filterMap_map, Function.comp_def, ScopeStack.names]
  rw [ofFunction, stmts_eq, hnames, Finding.bindTargets_eq]
  rfl

/-- **Free names are unbound reads.** The free names of a function are the names that its body
reads where neither a parameter nor a declaration before binds them. -/
theorem mem_ofFunction {appended : String → Nat → List String} {head : FunctionHead}
    {body : List Stmt} {x : String} :
    x ∈ ofFunction appended head body ↔
      x ∈ FreeReads.ofStmts ⟨appended, head.name?⟩ (FreeReads.paramNames head.params) body := by
  rw [ofFunction_eq_note, Finding.mem_note]
  simp

theorem nodup_ofFunction (appended : String → Nat → List String) (head : FunctionHead)
    (body : List Stmt) : (ofFunction appended head body).Nodup := by
  rw [ofFunction_eq_note]
  exact Finding.nodup_note nodup_nil

end FreeNames

end LambdaLift
