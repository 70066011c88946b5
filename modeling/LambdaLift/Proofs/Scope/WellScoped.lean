import LambdaLift.Proofs.Scope.Declared

/-!
# Well scoped programs

A program in which every name is declared once and used only after its declaration.

* `Visible`: what may be read, assigned and called at a place.
* `Stmt.Scoped`: every name is used where it is visible. A name is visible in the list of
  statements that declares it, after its declaration; a function also in its own body. Functions
  are only called. Only variables of the function around a place are assigned there.
* `Stmt.calls`: the calls, with the number of their arguments.
* `WellScoped`: moreover all names are distinct, and no nested function is called with more
  arguments than it has parameters.
-/

namespace LambdaLift

open List Stmt

/-- The names of the parameters of a function. -/
def FunctionHead.paramNames (h : FunctionHead) : List String :=
  h.params.filterMap (·.target.name?)

/-- What may be named at a place: the variables that may be read, those among them that may be
assigned, and the functions that may be called. -/
structure Visible where
  vars : List String := []
  own : List String := []
  functions : List String := []

namespace Visible

/-- After the declaration of variables. -/
def declare (v : Visible) (names : List String) : Visible :=
  { v with vars := names ++ v.vars, own := names ++ v.own }

/-- After the name of a function in its declaration. -/
def named (v : Visible) (names : List String) : Visible :=
  { v with functions := names ++ v.functions }

/-- In the body of a function with the given parameters. What was declared around the function may
be read there and not be assigned. -/
def enter (v : Visible) (params : List String) : Visible :=
  { v with vars := params ++ v.vars, own := params }

/-- After a statement of a list, in that list. -/
def after (v : Visible) : Stmt → Visible
  | .vars _ _ _ ds => ds.foldl (fun v d => v.declare d.target.name?.toList) v
  | .function head _ => v.named head.name?.toList
  | .block .. | .expression .. | .return_ .. | .empty _ | .other _ => v

end Visible

/-- A target that is a name may be assigned. -/
def Visible.MayAssign (v : Visible) (target : Expr) : Prop :=
  ∀ x ∈ target.name?, x ∈ v.own

instance (v : Visible) (target : Expr) : Decidable (v.MayAssign target) :=
  inferInstanceAs (Decidable (∀ x ∈ target.name?, x ∈ v.own))

mutual

/-- An expression names only what is visible, functions only in order to call them, and assigns only
variables of the function around it. -/
def Expr.Scoped (v : Visible) : Expr → Prop
  | .ident id => id.name ∈ v.vars
  | .paren _ e => e.Scoped v
  | .unary _ op e =>
    e.Scoped v ∧ (op = .increment ∨ op = .decrement → v.MayAssign e)
  | .update _ _ e => e.Scoped v ∧ v.MayAssign e
  | .binary _ op _ a b => a.Scoped v ∧ b.Scoped v ∧ (op = .assign → v.MayAssign a)
  | .call _ _ f args =>
    (∀ x ∈ f.name?, x ∈ v.functions ∨ x ∈ v.vars) ∧ Expr.ScopedList v args
  | .number _ | .string _ | .boolean .. | .null _ | .other _ => True

/-- Expressions that name only what is visible. -/
def Expr.ScopedList (v : Visible) : List Expr → Prop
  | [] => True
  | e :: es => e.Scoped v ∧ Expr.ScopedList v es

end

/-- Variables whose initial values name only what is visible, each variable after its own. -/
def Declarator.ScopedList (v : Visible) : List Declarator → Prop
  | [] => True
  | d :: ds =>
    (∀ e ∈ d.init, e.Scoped v) ∧ Declarator.ScopedList (v.declare d.target.name?.toList) ds

mutual

/-- A statement in which every name is used where it is visible. -/
def Stmt.Scoped (v : Visible) : Stmt → Prop
  | .vars _ _ _ ds => Declarator.ScopedList v ds
  | .function head body =>
    ScopedList ((v.named head.name?.toList).enter head.paramNames) body
  | .block _ body => ScopedList v body
  | .expression _ e => e.Scoped v
  | .return_ _ e => ∀ e' ∈ e, e'.Scoped v
  | .empty _ | .other _ => True

/-- Statements in which every name is used where it is visible. -/
def Stmt.ScopedList (v : Visible) : List Stmt → Prop
  | [] => True
  | s :: ss => s.Scoped v ∧ ScopedList (v.after s) ss

end

/-! ## Calls -/

mutual

/-- The names that an expression calls, with the numbers of arguments. -/
def Expr.calls : Expr → List (String × Nat)
  | .paren _ e | .unary _ _ e | .update _ _ e => e.calls
  | .binary _ _ _ a b => a.calls ++ b.calls
  | .call _ _ f args => f.name?.toList.map (·, args.length) ++ Expr.callsOfList args
  | .ident _ | .number _ | .string _ | .boolean .. | .null _ | .other _ => []

/-- The names that expressions call, with the numbers of arguments. -/
def Expr.callsOfList : List Expr → List (String × Nat)
  | [] => []
  | e :: es => e.calls ++ Expr.callsOfList es

end

mutual

/-- The names that a statement calls anywhere in it, with the numbers of arguments. -/
def Stmt.calls : Stmt → List (String × Nat)
  | .vars _ _ _ ds => ds.flatMap fun d => d.init.elim [] Expr.calls
  | .function _ body | .block _ body => callsOfList body
  | .expression _ e => e.calls
  | .return_ _ e => e.elim [] Expr.calls
  | .empty _ | .other _ => []

/-- The names that statements call anywhere in them, with the numbers of arguments. -/
def Stmt.callsOfList : List Stmt → List (String × Nat)
  | [] => []
  | s :: ss => s.calls ++ callsOfList ss

end

/-- The names that statements declare anywhere in them: variables, parameters and functions. -/
def Stmt.declaredOfList (ss : List Stmt) : List String :=
  variablesOfList ss ++ (functionsOfList ss).filterMap (·.1.name?)

/-- **Well scoped statements.** All declared names are distinct, every name is used where it is
visible, and no nested function is called with more arguments than it has parameters. The function
that prints is there from the start. -/
structure WellScoped (ss : List Stmt) : Prop where
  distinct : ("print" :: declaredOfList ss).Nodup
  visible : ScopedList { functions := ["print"] } ss
  arity : ∀ f ∈ nestedFunctionsOfList false ss, ∀ c ∈ callsOfList ss,
    f.1.name? = some c.1 → c.2 ≤ f.1.params.length

/-! ## Decidability -/

mutual

/-- Whether an expression is scoped can be decided. -/
def Expr.decideScoped (v : Visible) : (e : Expr) → Decidable (e.Scoped v)
  | .ident id => inferInstanceAs (Decidable (id.name ∈ v.vars))
  | .paren _ e => e.decideScoped v
  | .unary _ op e =>
    @instDecidableAnd _ _ (e.decideScoped v)
      (inferInstanceAs (Decidable (op = .increment ∨ op = .decrement → v.MayAssign e)))
  | .update _ _ e =>
    @instDecidableAnd _ _ (e.decideScoped v) (inferInstanceAs (Decidable (v.MayAssign e)))
  | .binary _ op _ a b =>
    @instDecidableAnd _ _ (a.decideScoped v)
      (@instDecidableAnd _ _ (b.decideScoped v)
        (inferInstanceAs (Decidable (op = .assign → v.MayAssign a))))
  | .call _ _ f args =>
    @instDecidableAnd _ _
      (inferInstanceAs (Decidable (∀ x ∈ f.name?, x ∈ v.functions ∨ x ∈ v.vars)))
      (Expr.decideScopedList v args)
  | .number _ | .string _ | .boolean .. | .null _ | .other _ => inferInstanceAs (Decidable True)

/-- Whether expressions are scoped can be decided. -/
def Expr.decideScopedList (v : Visible) : (es : List Expr) → Decidable (Expr.ScopedList v es)
  | [] => inferInstanceAs (Decidable True)
  | e :: es => @instDecidableAnd _ _ (e.decideScoped v) (Expr.decideScopedList v es)

end

instance (v : Visible) (e : Expr) : Decidable (e.Scoped v) :=
  e.decideScoped v

/-- Whether variables are scoped can be decided. -/
def Declarator.decideScopedList :
    (v : Visible) → (ds : List Declarator) → Decidable (Declarator.ScopedList v ds)
  | _, [] => inferInstanceAs (Decidable True)
  | v, d :: ds =>
    @instDecidableAnd _ _ (inferInstanceAs (Decidable (∀ e ∈ d.init, e.Scoped v)))
      (Declarator.decideScopedList (v.declare d.target.name?.toList) ds)

mutual

/-- Whether a statement is scoped can be decided. -/
def Stmt.decideScoped : (v : Visible) → (s : Stmt) → Decidable (s.Scoped v)
  | v, .vars _ _ _ ds => Declarator.decideScopedList v ds
  | v, .function head body =>
    decideScopedList ((v.named head.name?.toList).enter head.paramNames) body
  | v, .block _ body => decideScopedList v body
  | v, .expression _ e => e.decideScoped v
  | v, .return_ _ e => inferInstanceAs (Decidable (∀ e' ∈ e, Expr.Scoped v e'))
  | _, .empty _ | _, .other _ => inferInstanceAs (Decidable True)

/-- Whether statements are scoped can be decided. -/
def Stmt.decideScopedList : (v : Visible) → (ss : List Stmt) → Decidable (ScopedList v ss)
  | _, [] => inferInstanceAs (Decidable True)
  | v, s :: ss =>
    @instDecidableAnd _ _ (decideScoped v s) (decideScopedList (v.after s) ss)

end

instance (v : Visible) (ss : List Stmt) : Decidable (ScopedList v ss) :=
  decideScopedList v ss

theorem wellScoped_iff {ss : List Stmt} :
    WellScoped ss ↔ ("print" :: declaredOfList ss).Nodup ∧
      ScopedList { functions := ["print"] } ss ∧
      ∀ f ∈ nestedFunctionsOfList false ss, ∀ c ∈ callsOfList ss,
        f.1.name? = some c.1 → c.2 ≤ f.1.params.length :=
  ⟨fun h => ⟨h.distinct, h.visible, h.arity⟩, fun h => ⟨h.1, h.2.1, h.2.2⟩⟩

instance (ss : List Stmt) : Decidable (WellScoped ss) :=
  decidable_of_iff _ wellScoped_iff.symm

/-! ## Functions of well scoped statements -/

mutual

theorem Stmt.nestedFunctions_true (s : Stmt) : s.nestedFunctions true = s.functions := by
  cases s with
  | function head body =>
    simp [nestedFunctions, Stmt.functions, nestedFunctionsOfList_true body]
  | block _ body => exact nestedFunctionsOfList_true body
  | vars _ _ _ _ | expression _ _ | return_ _ _ | empty _ | other _ => rfl

/-- In a function body all functions are nested ones. -/
theorem Stmt.nestedFunctionsOfList_true (ss : List Stmt) :
    nestedFunctionsOfList true ss = functionsOfList ss := by
  cases ss with
  | nil => rfl
  | cons s ss =>
    rw [nestedFunctionsOfList, nestedFunctions_true s, nestedFunctionsOfList_true ss,
      functionsOfList]

end

mutual

theorem Stmt.perm_functions (s : Stmt) :
    (s.outerFunctions ++ s.nestedFunctions false).Perm s.functions := by
  cases s with
  | function head body =>
    simp [outerFunctions, nestedFunctions, Stmt.functions,
      nestedFunctionsOfList_true]
  | block _ body => exact perm_functionsOfList body
  | vars _ _ _ _ | expression _ _ | return_ _ _ | empty _ | other _ => exact .refl _

/-- Every function is an outer one or a nested one. -/
theorem Stmt.perm_functionsOfList (ss : List Stmt) :
    (outerFunctionsOfList ss ++ nestedFunctionsOfList false ss).Perm
      (functionsOfList ss) := by
  cases ss with
  | nil => exact .refl _
  | cons s ss =>
    refine .trans ?_ ((perm_functions s).append (perm_functionsOfList ss))
    simp only [outerFunctionsOfList, nestedFunctionsOfList, append_assoc]
    exact (perm_append_comm_assoc ..).append_left _

end

namespace WellScoped

variable {ss : List Stmt}

/-- The names of variables, of outer functions and of nested functions, all apart. -/
theorem apart (h : WellScoped ss) :
    ("print" :: (variablesOfList ss ++
      ((outerFunctionsOfList ss).filterMap (·.1.name?) ++
        nestedNamesOfList false ss))).Nodup := by
  refine (Perm.nodup_iff (.cons _ (.append_left _ ?_))).1 h.distinct
  rw [nestedNamesOfList_eq, ← filterMap_append]
  exact ((perm_functionsOfList ss).filterMap _).symm

theorem nodup_nested (h : WellScoped ss) : (nestedNamesOfList false ss).Nodup :=
  (nodup_append.1 (nodup_append.1 (nodup_cons.1 h.apart).2).2.1).2.1

theorem variables_not_nested (h : WellScoped ss) :
    ∀ x ∈ variablesOfList ss, x ∉ nestedNamesOfList false ss := fun x hx hn =>
  (nodup_append.1 (nodup_cons.1 h.apart).2).2.2 x hx x (mem_append.2 (.inr hn)) rfl

theorem outer_not_nested (h : WellScoped ss) :
    ∀ f ∈ outerFunctionsOfList ss, ∀ m ∈ f.1.name?,
      m ∉ nestedNamesOfList false ss := fun f hf m hm hn =>
  (nodup_append.1 (nodup_append.1 (nodup_cons.1 h.apart).2).2.1).2.2 m
    (mem_filterMap.2 ⟨f, hf, hm⟩) m hn rfl

theorem print_not_nested (h : WellScoped ss) : "print" ∉ nestedNamesOfList false ss :=
  fun hn => (nodup_cons.1 h.apart).1
    (mem_append.2 (.inr (mem_append.2 (.inr hn))))

end WellScoped

/-! ## Calls of well scoped statements -/

mutual

theorem Expr.callees_of_scoped {v : Visible} (e : Expr) (h : e.Scoped v) :
    ∀ x ∈ e.callees, x ∈ v.functions ∨ x ∈ v.vars := by
  cases e with
  | paren _ e => exact Expr.callees_of_scoped e h
  | unary _ _ e | update _ _ e => exact Expr.callees_of_scoped e h.1
  | binary _ _ _ a b =>
    exact forall_mem_append.2
      ⟨Expr.callees_of_scoped a h.1, Expr.callees_of_scoped b h.2.1⟩
  | call _ _ f args =>
    refine forall_mem_append.2 ⟨fun x hx => h.1 x (Option.mem_toList.1 hx), ?_⟩
    exact Expr.calleesOfList_of_scoped args h.2
  | ident _ | number _ | string _ | boolean _ _ | null _ | other _ => exact forall_mem_nil _

/-- Only visible names are called. -/
theorem Expr.calleesOfList_of_scoped {v : Visible} (es : List Expr) (h : Expr.ScopedList v es) :
    ∀ x ∈ Expr.calleesOfList es, x ∈ v.functions ∨ x ∈ v.vars := by
  cases es with
  | nil => exact forall_mem_nil _
  | cons e es =>
    exact forall_mem_append.2
      ⟨Expr.callees_of_scoped e h.1, Expr.calleesOfList_of_scoped es h.2⟩

end

/-- Functions among `names` are visible only if they are in `shown`, and no variable has such a
name. -/
structure Visible.Among (v : Visible) (names shown : List String) : Prop where
  vars : ∀ x ∈ v.vars, x ∉ names
  functions : ∀ x ∈ v.functions, x ∈ names → x ∈ shown

section Among

variable {v : Visible} {names shown : List String}

theorem Visible.Among.expr (h : v.Among names shown) {e : Expr} (he : e.Scoped v) :
    e.CallsAmong names shown := fun x hx hn =>
  (e.callees_of_scoped he x hx).elim (fun hx => h.functions x hx hn)
    fun hx => absurd hn (h.vars x hx)

theorem Visible.Among.declare (h : v.Among names shown) {xs : List String}
    (hxs : ∀ x ∈ xs, x ∉ names) : (v.declare xs).Among names shown :=
  ⟨forall_mem_append.2 ⟨hxs, h.vars⟩, h.functions⟩

theorem Visible.Among.named (h : v.Among names shown) {xs : List String}
    (hxs : ∀ x ∈ xs, x ∈ shown) : (v.named xs).Among names shown :=
  ⟨h.vars, forall_mem_append.2 ⟨fun x hx _ => hxs x hx, h.functions⟩⟩

theorem Visible.Among.enter (h : v.Among names shown) {xs : List String}
    (hxs : ∀ x ∈ xs, x ∉ names) : (v.enter xs).Among names shown :=
  ⟨forall_mem_append.2 ⟨hxs, h.vars⟩, h.functions⟩

theorem Visible.Among.inner (h : v.Among names shown) (more : List String) :
    v.Among names (more ++ shown) :=
  ⟨h.vars, fun x hx hn => mem_append.2 (.inr (h.functions x hx hn))⟩

theorem Visible.Among.declarators (h : v.Among names shown) (ds : List Declarator)
    (hds : ∀ x ∈ ds.filterMap (·.target.name?), x ∉ names) (hscoped : Declarator.ScopedList v ds) :
    (∀ d ∈ ds, ∀ e ∈ d.init, e.CallsAmong names shown) ∧
      (ds.foldl (fun v d => v.declare d.target.name?.toList) v).Among names shown := by
  induction ds generalizing v with
  | nil => exact ⟨forall_mem_nil _, h⟩
  | cons d ds ih =>
    have htarget : ∀ x ∈ d.target.name?.toList, x ∉ names := fun x hx =>
      hds x (mem_filterMap.2 ⟨d, mem_cons_self .., Option.mem_toList.1 hx⟩)
    have hrest : ∀ x ∈ ds.filterMap (·.target.name?), x ∉ names := fun x hx => by
      obtain ⟨d', hd', hx⟩ := mem_filterMap.1 hx
      exact hds x (mem_filterMap.2 ⟨d', mem_cons_of_mem _ hd', hx⟩)
    obtain ⟨hcalls, hafter⟩ := ih (h.declare htarget) hrest hscoped.2
    exact ⟨forall_mem_cons.2 ⟨fun e he => h.expr (hscoped.1 e he), hcalls⟩, hafter⟩

theorem Visible.Among.after (h : v.Among names shown) {s : Stmt}
    (hvars : ∀ x ∈ s.variables, x ∉ names) (hdirect : ∀ x ∈ directFunctions [s], x ∈ shown)
    (hscoped : s.Scoped v) : (v.after s).Among names shown := by
  cases s with
  | vars _ _ _ ds => exact (h.declarators ds hvars hscoped).2
  | function head body => exact h.named (by simpa [directFunctions] using hdirect)
  | block _ _ | expression _ _ | return_ _ _ | empty _ | other _ => exact h

mutual

theorem Visible.Among.stmt {v : Visible} {shown : List String} (h : v.Among names shown) (s : Stmt)
    (hvars : ∀ x ∈ s.variables, x ∉ names) (hdirect : ∀ x ∈ directFunctions [s], x ∈ shown)
    (hscoped : s.Scoped v) : s.CallsInside names shown := by
  cases s with
  | vars _ _ _ ds => exact (h.declarators ds hvars hscoped).1
  | function head body =>
    obtain ⟨hparams, hbody⟩ := forall_mem_append.1 hvars
    have hname : (v.named head.name?.toList).Among names shown :=
      h.named (by simpa [directFunctions] using hdirect)
    exact Visible.Among.stmts ((hname.enter hparams).inner _) body hbody
      (fun x hx => mem_append.2 (.inl hx)) hscoped
  | block _ body =>
    exact Visible.Among.stmts (h.inner _) body hvars (fun x hx => mem_append.2 (.inl hx)) hscoped
  | expression _ e => exact h.expr hscoped
  | return_ _ e => exact fun e' he' => h.expr (hscoped e' he')
  | empty _ | other _ => trivial

/-- Functions of well scoped statements are called in the lists of statements that declare them. -/
theorem Visible.Among.stmts {v : Visible} {shown : List String} (h : v.Among names shown)
    (ss : List Stmt) (hvars : ∀ x ∈ variablesOfList ss, x ∉ names)
    (hdirect : ∀ x ∈ directFunctions ss, x ∈ shown) (hscoped : ScopedList v ss) :
    CallsInsideList names shown ss := by
  cases ss with
  | nil => trivial
  | cons s ss =>
    rw [directFunctions_cons] at hdirect
    obtain ⟨hvars, hvars'⟩ := forall_mem_append.1 hvars
    obtain ⟨hdirect, hdirect'⟩ := forall_mem_append.1 hdirect
    exact ⟨Visible.Among.stmt h s hvars hdirect hscoped.1,
      Visible.Among.stmts (h.after hvars hdirect hscoped.1) ss hvars' hdirect' hscoped.2⟩

end

end Among

theorem WellScoped.callsInside {ss : List Stmt} (h : WellScoped ss) :
    CallsInsideList (nestedNamesOfList false ss) (directFunctions ss) ss := by
  have hstart : Visible.Among { functions := ["print"] } (nestedNamesOfList false ss)
      (directFunctions ss) :=
    ⟨forall_mem_nil _, forall_mem_singleton.2 fun hn => absurd hn h.print_not_nested⟩
  exact hstart.stmts ss h.variables_not_nested (fun x hx => hx) h.visible

end LambdaLift
