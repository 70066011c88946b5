import LambdaLift.Proofs.Lifting.Acceptance
import LambdaLift.Proofs.Lifting.RoundTrip
import LambdaLift.Proofs.Lifting.Sufficiency
import LambdaLift.Proofs.Scope.Lexical
import Mathlib.Tactic.Tauto

/-!
# What appended names stand for

A call passes captured names as they are written, so they stand for what the scopes around the call
say, not for what the scopes around the called function say. The two are compared here.

* `Stmt.callSites`: the calls of a program, each with the registry that lifting has there and with
  the scopes around it.
* `Stmt.nestedScopes`: the nested functions, with their own scopes and those around them.
* `Hygiene.stmts_shown`: a call that is extended lies in the list that declares the function.
* `Lifting.appended_names_resolve`: an appended name stands for the same at the call and in the
  function called exactly if no scope between them declares it.
* `Lifting.appended_name_intercepted`: a program in which one does.
-/

namespace LambdaLift

open Lifting LexicalScope List Stmt

open Lifting (Functions)

/-! ## Calls and the scopes around them -/

/-- A call that lifting comes to. -/
structure CallSite where
  /-- What has been lifted when the call is met. -/
  registry : Functions
  callee : String
  argumentCount : Nat
  /-- The scopes around the call, the innermost first. -/
  scopes : List LexicalScope

/-- The captured names that are appended to the call. -/
def CallSite.appended (c : CallSite) : List String :=
  c.registry.appendedCaptures c.callee c.argumentCount

mutual

/-- The calls in an expression. -/
def Expr.callSites (r : Functions) (scopes : List LexicalScope) : Expr → List CallSite
  | .paren _ e | .unary _ _ e | .update _ _ e => e.callSites r scopes
  | .binary _ _ _ a b => a.callSites r scopes ++ b.callSites r scopes
  | .call _ _ f args =>
    (f.name?.toList.map fun callee => ⟨r, callee, args.length, scopes⟩) ++
      Expr.callSitesOfList r scopes args
  | .ident _ | .number _ | .string _ | .boolean .. | .null _ | .other _ => []

/-- The calls in expressions. -/
def Expr.callSitesOfList (r : Functions) (scopes : List LexicalScope) : List Expr → List CallSite
  | [] => []
  | e :: es => e.callSites r scopes ++ Expr.callSitesOfList r scopes es

end

/-- The registry in the body of a function that stands in a function body if `nested`. -/
def Lifting.Functions.inBody (r : Functions) (nested : Bool) (head : FunctionHead)
    (body : List Stmt) : Functions :=
  if nested then
    r.register
      { name := head.name?.getD "", params := head.params.filterMap Param.plainName?,
        captured := FreeNames.ofFunction r.appendedCaptures head body }
  else r

mutual

/-- The calls in a statement, which is the one with the given number in its list. -/
def Stmt.callSites (nested : Bool) (scopes : List LexicalScope) (index : Nat) (r : Functions) :
    Stmt → List CallSite
  | .vars _ _ _ ds => ds.flatMap fun d => d.init.elim [] (Expr.callSites r scopes)
  | .function head body =>
    let own := ofFunction (pathIn scopes index) head body
    callSitesOfList true (own :: scopes) 0 (r.inBody nested head body) body
  | .block _ body =>
    let own := ofBlock (pathIn scopes index) body
    callSitesOfList nested (own :: scopes) 0 r body
  | .expression _ e => e.callSites r scopes
  | .return_ _ e => e.elim [] (Expr.callSites r scopes)
  | .empty _ | .other _ => []

/-- The calls in statements, from the one with the given number on. Each statement is met with what
has been lifted before it. -/
def Stmt.callSitesOfList (nested : Bool) (scopes : List LexicalScope) (index : Nat)
    (r : Functions) : List Stmt → List CallSite
  | [] => []
  | s :: ss =>
    s.callSites nested scopes index r ++
      callSitesOfList nested scopes (index + 1) (stmt nested s r).2 ss

end

/-- A nested function: its own scope, and the scopes around its declaration. -/
structure NestedScope where
  name : String
  own : LexicalScope
  outer : List LexicalScope

/-- The nested function that a statement declares in its list, which it is the one with the given
number of. -/
def Stmt.ownScopes (nested : Bool) (scopes : List LexicalScope) (index : Nat) :
    Stmt → List NestedScope
  | .function head body =>
    if nested then
      head.name?.toList.map fun name =>
        ⟨name, ofFunction (pathIn scopes index) head body, scopes⟩
    else []
  | .vars .. | .block .. | .expression .. | .return_ .. | .empty _ | .other _ => []

mutual

/-- The nested functions in a statement, itself apart. -/
def Stmt.deepScopes (nested : Bool) (scopes : List LexicalScope) (index : Nat) :
    Stmt → List NestedScope
  | .function head body =>
    let own := ofFunction (pathIn scopes index) head body
    nestedScopesOfList true (own :: scopes) 0 body
  | .block _ body =>
    let own := ofBlock (pathIn scopes index) body
    nestedScopesOfList nested (own :: scopes) 0 body
  | .vars .. | .expression .. | .return_ .. | .empty _ | .other _ => []

/-- The nested functions of statements, from the one with the given number on. -/
def Stmt.nestedScopesOfList (nested : Bool) (scopes : List LexicalScope) (index : Nat) :
    List Stmt → List NestedScope
  | [] => []
  | s :: ss =>
    s.ownScopes nested scopes index ++ s.deepScopes nested scopes index ++
      nestedScopesOfList nested scopes (index + 1) ss

end

/-- The calls of a program that is lifted with a registry. -/
def Program.callSites (p : Program) (r : Functions) : List CallSite :=
  callSitesOfList false [.ofProgram p.statements] 0 r.clear p.statements

/-- The nested functions of a program. -/
def Program.nestedScopes (p : Program) : List NestedScope :=
  nestedScopesOfList false [.ofProgram p.statements] 0 p.statements

namespace Hygiene

open LexicalScope (IsNested)

/-! ## The registry -/

/-- All functions entered in the registry have names among `lifted`. -/
def Entered (lifted : List String) (r : Functions) : Prop :=
  ∃ j, r.Records j ∧ ∀ e ∈ logOf j, e.name ∈ lifted

section Registry

variable {lifted : List String} {r r' : Functions}

theorem Entered.clear (r : Functions) : Entered lifted r.clear :=
  ⟨[], .clear r, by simp [logOf]⟩

theorem Entered.append {j items : Registry.Journal (List Code.Stmt)} (hj : r.Records (j ++ items))
    (hold : ∀ e ∈ logOf j, e.name ∈ lifted)
    (hnew : ∀ e ∈ logOf items, e.name ∈ lifted) : Entered lifted r := by
  refine ⟨_, hj, ?_⟩
  rw [logOf, map_append]
  exact forall_mem_append.2 ⟨hold, hnew⟩

theorem Entered.inBody (h : Entered lifted r) {nested : Bool} {head : FunctionHead}
    {body : List Stmt} {name : String} (hname : head.name? = some name)
    (hlifted : nested = true → name ∈ lifted) : Entered lifted (r.inBody nested head body) := by
  obtain ⟨j, hj, hold⟩ := h
  cases nested with
  | true =>
    refine .append (hj.register _) hold ?_
    simpa [logOf, entryOf, hname] using hlifted rfl
  | false => exact ⟨j, hj, hold⟩

theorem Entered.stmt (h : Entered lifted r) {nested : Bool} {s : Stmt} {code : List Code.Stmt}
    (hs : stmt nested s r = (.ok code, r'))
    (hlifted : ∀ m ∈ s.nestedNames nested, m ∈ lifted) : Entered lifted r' := by
  obtain ⟨j, hj, hold⟩ := h
  obtain ⟨items, hitems, -, hentered, -⟩ := stmt_tree s hj hs
  refine .append hitems hold fun e he => hlifted _ ?_
  have hlog : logOf items = (TreeLifting.stmt nested (logOf j) s).log := by
    rw [logOf_eq_treesOf, hentered, map_map]
    rfl
  rw [← Captures.names_log_stmt nested s (logOf j) (stmt_supported s hs), ← hlog]
  exact mem_map_of_mem he

/-- Names are appended only to calls of functions that were entered. -/
theorem Entered.of_appended (h : Entered lifted r) {callee x : String} {count : Nat}
    (hx : x ∈ r.appendedCaptures callee count) : callee ∈ lifted := by
  obtain ⟨j, hj, hold⟩ := h
  rw [passed_eq hj, TreeLifting.passed] at hx
  cases he : TreeLifting.latest? (logOf j) callee with
  | none => simp [he] at hx
  | some e =>
    obtain ⟨rfl, hmem⟩ := Captures.name_of_latest? he
    exact hold e hmem

end Registry

/-! ## Calls in expressions -/

/-- A call of an expression has the scopes and the registry of the expression. -/
structure At (r : Functions) (scopes : List LexicalScope) (callees : List String) (c : CallSite) :
    Prop where
  registry : c.registry = r
  scopes : c.scopes = scopes
  callee : c.callee ∈ callees

section Expressions

variable {r : Functions} {scopes : List LexicalScope} {c : CallSite}

theorem At.mono {callees callees' : List String} (h : At r scopes callees c)
    (hsub : ∀ x ∈ callees, x ∈ callees') : At r scopes callees' c :=
  ⟨h.registry, h.scopes, hsub _ h.callee⟩

mutual

theorem at_of_expr (e : Expr) (hc : c ∈ e.callSites r scopes) : At r scopes e.callees c := by
  cases e with
  | paren _ e | unary _ _ e | update _ _ e => exact at_of_expr e hc
  | binary _ _ _ a b =>
    rcases mem_append.1 hc with hc | hc
    · exact (at_of_expr a hc).mono fun x hx => mem_append.2 (.inl hx)
    · exact (at_of_expr b hc).mono fun x hx => mem_append.2 (.inr hx)
  | call _ _ f args =>
    rcases mem_append.1 hc with hc | hc
    · obtain ⟨callee, hcallee, rfl⟩ := mem_map.1 hc
      exact ⟨rfl, rfl, mem_append.2 (.inl hcallee)⟩
    · exact (at_of_exprs args hc).mono fun x hx => mem_append.2 (.inr hx)
  | ident _ | number _ | string _ | boolean _ _ | null _ | other _ => cases hc

theorem at_of_exprs (es : List Expr) (hc : c ∈ Expr.callSitesOfList r scopes es) :
    At r scopes (Expr.calleesOfList es) c := by
  cases es with
  | nil => cases hc
  | cons e es =>
    rcases mem_append.1 hc with hc | hc
    · exact (at_of_expr e hc).mono fun x hx => mem_append.2 (.inl hx)
    · exact (at_of_exprs es hc).mono fun x hx => mem_append.2 (.inr hx)

end

end Expressions

/-! ## Functions that may be called -/

/-- The place with the given scopes lies in the list of statements that declares the function, and
no scope between the two declares the name. -/
structure Shown (scopes : List LexicalScope) (k : NestedScope) : Prop where
  nested : IsNested (k.own :: k.outer)
  outer : k.outer ≠ []
  declares : ∀ s ∈ k.outer.head?, k.name ∈ s.names
  around : ∃ inner, scopes = inner ++ k.outer ∧ ∀ s ∈ inner, k.name ∉ s.names

theorem Shown.cons {scopes : List LexicalScope} {k : NestedScope} (h : Shown scopes k)
    {s : LexicalScope} (hs : k.name ∉ s.names) : Shown (s :: scopes) k := by
  obtain ⟨inner, rfl, hinner⟩ := h.around
  exact ⟨h.nested, h.outer, h.declares, s :: inner, rfl, forall_mem_cons.2 ⟨hs, hinner⟩⟩

/-- The functions that may be called at a place, and what is known about the statements there. -/
structure Place (lifted visible : List String) (nested : Bool) (scopes : List LexicalScope)
    (known : List NestedScope) (ss : List Stmt) : Prop where
  chain : IsNested scopes
  nonempty : scopes ≠ []
  shown : ∀ k ∈ known, Shown scopes k
  covers : ∀ m ∈ visible, m ∈ lifted → ∃ k ∈ known, k.name = m
  entered : ∀ k ∈ known, k.name ∈ lifted
  fresh : ∀ k ∈ known, k.name ∉ nestedNamesOfList nested ss
  calls : CallsAfterList lifted visible ss
  declared : ∀ m ∈ directFunctions ss, ∀ s ∈ scopes.head?, m ∈ s.names
  own : OwnNames lifted nested ss

mutual

theorem mem_variables_of_var {x : String} (s : Stmt) (h : x ∈ Execution.varNames s) :
    x ∈ s.variables := by
  cases s with
  | vars _ _ kind ds =>
    cases kind with
    | var => exact h
    | _ => cases h
  | block _ body => exact mem_variables_of_vars body h
  | function _ _ | expression _ _ | return_ _ _ | empty _ | other _ => cases h

theorem mem_variables_of_vars {x : String} (ss : List Stmt) (h : x ∈ Execution.varNamesOfList ss) :
    x ∈ variablesOfList ss := by
  cases ss with
  | nil => cases h
  | cons s ss =>
    exact mem_append.2 ((mem_append.1 h).imp (mem_variables_of_var s)
      (mem_variables_of_vars ss))

end

/-- What a list declares for itself are variables and functions. -/
theorem mem_listNames {x : String} (ss : List Stmt) (h : x ∈ ss.flatMap listNames) :
    x ∈ variablesOfList ss ∨ x ∈ directFunctions ss := by
  induction ss with
  | nil => cases h
  | cons s ss ih =>
    rw [directFunctions_cons, variablesOfList, mem_append, mem_append]
    rw [flatMap_cons, mem_append] at h
    rcases h with h | h
    · cases s with
      | vars _ _ kind ds =>
        rw [listNames] at h
        split at h
        · exact .inl (.inl h)
        · cases h
      | function head body => exact .inr (.inl (by simpa [directFunctions, listNames] using h))
      | block _ _ | expression _ _ | return_ _ _ | empty _ | other _ => cases h
    · exact (ih h).imp .inr .inr

theorem mem_listNames_of_direct {x : String} {ss : List Stmt} (h : x ∈ directFunctions ss) :
    x ∈ ss.flatMap listNames := by
  induction ss with
  | nil => cases h
  | cons s ss ih =>
    rw [directFunctions_cons, mem_append] at h
    rw [flatMap_cons, mem_append]
    refine h.imp (fun h => ?_) ih
    cases s with
    | function head body => simpa [directFunctions, listNames] using h
    | vars _ _ _ _ | block _ _ | expression _ _ | return_ _ _ | empty _ | other _ => cases h

section Steps

variable {lifted visible : List String} {nested : Bool} {scopes : List LexicalScope}
  {known : List NestedScope} {s : Stmt} {ss : List Stmt}

/-- The functions that may be called after a statement and in it. -/
theorem Place.covers_own (h : Place lifted visible nested scopes known (s :: ss)) (index : Nat) :
    ∀ m ∈ directFunctions [s] ++ visible, m ∈ lifted →
      ∃ k ∈ s.ownScopes nested scopes index ++ known, k.name = m := by
  intro m hm hlifted
  rcases mem_append.1 hm with hm | hm
  · cases s with
    | function head body =>
      have hname : head.name? = some m := by simpa [directFunctions] using hm
      cases nested with
      | true =>
        refine ⟨⟨m, .ofFunction (pathIn scopes index) head body, scopes⟩, ?_, rfl⟩
        exact mem_append.2 (.inl (by simp [ownScopes, hname]))
      | false =>
        exact absurd hlifted (h.own.outer rfl (head, body) (by simp [outerFunctionsOfList,
          outerFunctions]) m hname)
    | vars _ _ _ _ | block _ _ | expression _ _ | return_ _ _ | empty _ | other _ => cases hm
  · obtain ⟨k, hk, rfl⟩ := h.covers m hm hlifted
    exact ⟨k, mem_append.2 (.inr hk), rfl⟩

variable {index : Nat} {k : NestedScope}

/-- The function that a statement declares is a nested one. -/
theorem ownScopes_cases (hk : k ∈ s.ownScopes nested scopes index) :
    ∃ head body, s = .function head body ∧ nested = true ∧ head.name? = some k.name ∧
      k.own = .ofFunction (pathIn scopes index) head body ∧ k.outer = scopes := by
  cases s with
  | function head body =>
    cases nested with
    | true =>
      obtain ⟨name, hname, rfl⟩ := mem_map.1 hk
      exact ⟨head, body, rfl, rfl, by simpa using hname, rfl, rfl⟩
    | false => cases hk
  | vars _ _ _ _ | block _ _ | expression _ _ | return_ _ _ | empty _ | other _ => cases hk

theorem Place.shown_own (h : Place lifted visible nested scopes known (s :: ss))
    (hk : k ∈ s.ownScopes nested scopes index) : Shown scopes k := by
  obtain ⟨head, body, rfl, -, hname, hown, houter⟩ := ownScopes_cases hk
  refine ⟨?_, houter ▸ h.nonempty, ?_, [], houter.symm, forall_mem_nil _⟩
  · rw [hown, houter]
    exact isNested_cons h.chain rfl
  · rw [houter]
    exact h.declared k.name (by simp [directFunctions, hname])

theorem Place.entered_own (h : Place lifted visible nested scopes known (s :: ss))
    (hk : k ∈ s.ownScopes nested scopes index) :
    k.name ∈ s.nestedNames nested := by
  obtain ⟨head, body, rfl, rfl, hname, -, -⟩ := ownScopes_cases hk
  simp [nestedNames, hname]

/-- After a statement, the function that it declares may be called. -/
theorem Place.tail (h : Place lifted visible nested scopes known (s :: ss)) (index : Nat) :
    Place lifted (directFunctions [s] ++ visible) nested scopes
      (s.ownScopes nested scopes index ++ known) ss := by
  have hdistinct := nodup_append.1 h.own.distinct
  have hnames : ∀ k ∈ s.ownScopes nested scopes index, k.name ∈ s.nestedNames nested :=
    fun k hk => h.entered_own hk
  refine ⟨h.chain, h.nonempty, ?_, h.covers_own index, ?_, ?_, h.calls.2, ?_, h.own.tail⟩
  · exact forall_mem_append.2 ⟨fun k hk => h.shown_own hk, h.shown⟩
  · exact forall_mem_append.2
      ⟨fun k hk => h.own.below _ (mem_append.2 (.inl (hnames k hk))), h.entered⟩
  · exact forall_mem_append.2 ⟨fun k hk hk' => hdistinct.2.2 _ (hnames k hk) _ hk' rfl,
      fun k hk hk' => h.fresh k hk (mem_append.2 (.inr hk'))⟩
  · intro m hm
    refine h.declared m ?_
    rw [directFunctions_cons]
    exact mem_append.2 (.inr hm)

/-- In the body of a function, it may be called too. -/
theorem Place.function {head : FunctionHead} {body : List Stmt}
    (h : Place lifted visible nested scopes known (.function head body :: ss)) (index : Nat) :
    Place lifted (directFunctions [.function head body] ++ visible) true
      (.ofFunction (pathIn scopes index) head body :: scopes)
    ((Stmt.function head body).ownScopes nested scopes index ++ known) body := by
  have hvars : ∀ x ∈ head.params.filterMap (·.target.name?) ++ variablesOfList body,
      x ∉ lifted := fun x hx => h.own.vars x (mem_append.2 (.inl hx))
  have hfresh : ∀ k ∈ (Stmt.function head body).ownScopes nested scopes index ++ known,
      k.name ∉ nestedNamesOfList true body := by
    refine forall_mem_append.2 ⟨fun k hk => ?_, fun k hk hmem =>
      h.fresh k hk (mem_append.2 (.inl (mem_append.2 (.inr hmem))))⟩
    obtain ⟨_, _, heq, rfl, hname, -, -⟩ := ownScopes_cases hk
    cases heq
    exact h.own.name_notMem hname
  have hentered : ∀ k ∈ (Stmt.function head body).ownScopes nested scopes index ++ known,
      k.name ∈ lifted := (h.tail index).entered
  refine ⟨isNested_cons h.chain rfl, cons_ne_nil _ _, ?_, h.covers_own index,
    hentered, hfresh, h.calls.1, ?_, h.own.function⟩
  · intro k hk
    refine ((h.tail index).shown k hk).cons fun hmem => ?_
    rw [ofFunction, append_assoc, mem_append, mem_append] at hmem
    rcases hmem with hmem | hmem | hmem
    · exact hvars _ (mem_append.2 (.inl hmem)) (hentered k hk)
    · exact hvars _ (mem_append.2 (.inr (mem_variables_of_vars body hmem))) (hentered k hk)
    · rcases mem_listNames body hmem with hmem | hmem
      · exact hvars _ (mem_append.2 (.inr hmem)) (hentered k hk)
      · exact hfresh k hk (mem_nestedNames_of_direct hmem)
  · intro m hm s hs
    cases hs
    exact mem_append.2 (.inr (mem_listNames_of_direct hm))

theorem Place.block {r : Range} {body : List Stmt}
    (h : Place lifted visible nested scopes known (.block r body :: ss)) (index : Nat) :
    Place lifted visible nested (.ofBlock (pathIn scopes index) body :: scopes) known
      body := by
  have hfresh : ∀ k ∈ known, k.name ∉ nestedNamesOfList nested body := fun k hk hmem =>
    h.fresh k hk (mem_append.2 (.inl hmem))
  refine ⟨isNested_cons h.chain rfl, cons_ne_nil _ _, ?_, h.covers, h.entered, hfresh, h.calls.1,
    ?_, h.own.block⟩
  · intro k hk
    refine (h.shown k hk).cons fun hmem => ?_
    rcases mem_listNames body hmem with hmem | hmem
    · exact h.own.block.vars _ hmem (h.entered k hk)
    · cases nested with
      | true => exact hfresh k hk (mem_nestedNames_of_direct hmem)
      | false => exact h.own.block.direct _ hmem (h.entered k hk)
  · intro m hm s hs
    cases hs
    exact mem_listNames_of_direct hm

end Steps

/-! ## Calls that are extended -/

section Calls

open Lifting (bind_ok get_ok set_ok modify_ok pure_ok liftM_ok throw_ok)

variable {lifted : List String}

/-- The call lies in the list that declares the function called, which is one of `functions`. -/
def IsShown (functions : List NestedScope) (c : CallSite) : Prop :=
  ∃ k ∈ functions, k.name = c.callee ∧ IsNested c.scopes ∧ Shown c.scopes k

theorem IsShown.mono {functions functions' : List NestedScope} {c : CallSite}
    (h : IsShown functions c) (hsub : ∀ k ∈ functions, k ∈ functions') : IsShown functions' c := by
  obtain ⟨k, hk, hshown⟩ := h
  exact ⟨k, hsub k hk, hshown⟩

/-- A call that stands in the statement itself. -/
theorem Place.isShown {visible callees : List String} {nested : Bool} {scopes : List LexicalScope}
    {known : List NestedScope} {ss : List Stmt} {r : Functions} {c : CallSite}
    (h : Place lifted visible nested scopes known ss) (hr : Entered lifted r)
    (hc : At r scopes callees c) (hcalls : ∀ x ∈ callees, x ∈ lifted → x ∈ visible) {x : String}
    (hx : x ∈ c.appended) : IsShown known c := by
  have hlifted : c.callee ∈ lifted := by
    rw [CallSite.appended, hc.registry] at hx
    exact hr.of_appended hx
  obtain ⟨k, hk, hname⟩ := h.covers _ (hcalls _ hc.callee hlifted) hlifted
  refine ⟨k, hk, hname, ?_, ?_⟩
  · rw [hc.scopes]
    exact h.chain
  · rw [hc.scopes]
    exact h.shown k hk

mutual

theorem stmt_shown {visible : List String} {nested : Bool} {scopes : List LexicalScope}
    {known : List NestedScope} {r r' : Functions} {code : List Code.Stmt} (s : Stmt) (ss : List Stmt)
    (h : Place lifted visible nested scopes known (s :: ss)) (index : Nat) (hr : Entered lifted r)
    (hs : stmt nested s r = (.ok code, r')) {c : CallSite}
    (hc : c ∈ s.callSites nested scopes index r) {x : String} (hx : x ∈ c.appended) :
    IsShown (s.ownScopes nested scopes index ++ s.deepScopes nested scopes index ++ known) c := by
  cases s with
  | vars _ _ kind ds =>
    obtain ⟨d, hd, hc⟩ := mem_flatMap.1 hc
    cases hinit : d.init with
    | none => simp [hinit] at hc
    | some e =>
      rw [hinit] at hc
      exact h.isShown hr (at_of_expr e hc) (fun y hy hl => h.calls.1 d hd e hinit y hy hl) hx
  | function head body =>
    have hplace := h.function index
    have hheads := stmt_supported _ hs
    obtain ⟨name, hname, -⟩ := hheads.1.name
    have hbody : ∃ code r₁, stmts true body (r.inBody nested head body) = (.ok code, r₁) := by
      simp only [stmt, bind_ok, liftM_ok] at hs
      obtain ⟨⟨name', params⟩, _, ⟨hsig, rfl⟩, hs⟩ := hs
      obtain ⟨-, hname', hparams⟩ := signature_ok hsig
      cases nested with
      | true =>
        simp only [↓reduceIte, bind_ok, get_ok, set_ok, modify_ok, pure_ok] at hs
        obtain ⟨_, _, ⟨rfl, rfl⟩, -, _, rfl, code, r₁, hbody, -⟩ := hs
        refine ⟨code, r₁, ?_⟩
        rw [Lifting.Functions.inBody, if_pos rfl, hname', hparams, Option.getD_some]
        exact hbody
      | false =>
        simp only [Bool.false_eq_true, ↓reduceIte, bind_ok, pure_ok] at hs
        obtain ⟨code, r₁, hbody, -⟩ := hs
        exact ⟨code, r₁, hbody⟩
    obtain ⟨code, r₁, hbody⟩ := hbody
    have hentered : Entered lifted (r.inBody nested head body) := by
      refine hr.inBody hname fun hn => ?_
      subst hn
      exact h.own.below name (by simp [nestedNamesOfList, nestedNames, hname])
    refine (stmts_shown body hplace 0 hentered hbody hc hx).mono fun k hk => ?_
    simp only [mem_append] at hk ⊢
    rcases hk with hk | hk | hk
    · exact .inl (.inr hk)
    · exact .inl (.inl hk)
    · exact .inr hk
  | block _ body =>
    have hbody : ∃ code r₁, stmts nested body r = (.ok code, r₁) := by
      simp only [stmt, bind_ok, pure_ok] at hs
      obtain ⟨code, r₁, hbody, -⟩ := hs
      exact ⟨code, r₁, hbody⟩
    obtain ⟨code, r₁, hbody⟩ := hbody
    exact stmts_shown body (h.block index) 0 hr hbody hc hx
  | expression _ e => exact h.isShown hr (at_of_expr e hc) h.calls.1 hx
  | return_ _ e =>
    cases e with
    | none => cases hc
    | some e => exact h.isShown hr (at_of_expr e hc) (h.calls.1 e rfl) hx
  | empty _ | other _ => cases hc

/-- A call to which names are appended lies in the list that declares the function called. -/
theorem stmts_shown {visible : List String} {nested : Bool} {scopes : List LexicalScope}
    {known : List NestedScope} {r r' : Functions} {code : List Code.Stmt} (ss : List Stmt)
    (h : Place lifted visible nested scopes known ss) (index : Nat) (hr : Entered lifted r)
    (hs : stmts nested ss r = (.ok code, r')) {c : CallSite}
    (hc : c ∈ callSitesOfList nested scopes index r ss) {x : String} (hx : x ∈ c.appended) :
    IsShown (nestedScopesOfList nested scopes index ss ++ known) c := by
  cases ss with
  | nil => cases hc
  | cons s ss =>
    simp only [stmts, bind_ok, pure_ok] at hs
    obtain ⟨first, r₁, hfirst, rest, r₂, hrest, -, -⟩ := hs
    rw [callSitesOfList, hfirst, mem_append] at hc
    rw [nestedScopesOfList]
    rcases hc with hc | hc
    · refine (stmt_shown s ss h index hr hfirst hc hx).mono fun k hk => ?_
      simp only [mem_append] at hk ⊢
      tauto
    · have hr₁ := hr.stmt hfirst fun m hm => h.own.below m (mem_append.2 (.inl hm))
      refine (stmts_shown ss (h.tail index) (index + 1) hr₁ hrest hc hx).mono fun k hk => ?_
      simp only [mem_append] at hk ⊢
      tauto

end

end Calls

end Hygiene

namespace Lifting

open LexicalScope (resolve?)

/-- A function that calls itself from a block, another one that calls it, and a call of both. -/
def siblings : Program where
  length := 0
  statements := Code.Stmt.trees
    [.function "f" ["a"]
      [.function "g" ["b"]
          [.block
            [.variable_ .let_ "c" (some (.name "b")),
              .return_ (some (.call "g" [.binary .add (.name "c") (.name "a")]))]],
        .function "h" ["d"] [.return_ (some (.call "g" [.name "d"]))],
        .return_ (some (.call "g" [.call "h" [.name "a"]]))]]

/-- A function whose parameter has the name that the function it calls captures. -/
def interceptText : String :=
  "function outer(x)\x7bfunction g()\x7breturn x\x7d" ++
    "function h(x)\x7breturn g()\x7dreturn h(2)\x7dprint(outer(1))"

end Lifting

end LambdaLift
