import LambdaLift.Proofs.Execution.Lockstep
import LambdaLift.Proofs.Execution.Variables
import LambdaLift.Proofs.Lifting.Captures
import LambdaLift.Proofs.Scope.WellScoped

/-!
# Lifted expressions evaluate alike

What must hold of two environments for an expression and its lifted form to evaluate alike in them,
and that it suffices.

* `Joined R w w'`: two worlds that have printed the same, with stores related by `R`.
* `Bridge`: the variables that can be read have the same value on both sides, those that can be
  assigned can be changed alike, and calls of what can be called run alike if on the lifted side the
  arguments are extended.
* `expr_alike`: an expression and its lifted form give the same value or fail alike.
-/

namespace LambdaLift

open List

namespace TreeLifting

theorem name?_expr (log : List Entry) (e : Expr) : (expr log e).name? = e.name? := by
  cases e with
  | binary r op opRange a b =>
    simp only [expr]
    split <;> rfl
  | _ => simp [expr, Expr.name?]

end TreeLifting

namespace Execution

open TreeLifting (Entry latest? arguments passed)
open FreeReads (ofExpr ofExprs)
open Captures (noCalls)

/-- Both worlds have printed the same, and their stores are related. -/
structure Joined (R : Store → Store → Prop) (w w' : World) : Prop where
  output : w'.output = w.output
  store : R w.store w'.store

/-- Both runs give the same result, which is a `P`, and leave worlds that are joined. -/
structure Alike {α : Type} (P : α → Prop) (R : Store → Store → Prop) (a b : α) (w w' : World) :
    Prop where
  eq : b = a
  prop : P a
  joined : Joined R w w'

/-- What expressions in `env` and their lifted forms in `env'` see of the stores that `R` relates.
Names that are `available` can be seen in the lifted code. -/
structure Bridge (calls : Calls) (env env' : Environment) (v : Visible) (log : List Entry)
    (available : String → Prop) (R : Store → Store → Prop) : Prop where
  read : ∀ x ∈ v.vars, available x → ∀ s t, R s t →
    ∃ a : Value, a.IsData ∧ s.get env x = .ok a ∧ t.get env' x = .ok a
  assign : ∀ x ∈ v.own, ∀ s t, R s t →
    ∃ i w, s.resolve? x env = some (i, w) ∧ t.resolve? x env' = some (i, w) ∧
      ∀ a : Value, a.IsData → R (s.declare i x { w with value := some a })
        (t.declare i x { w with value := some a })
  plain : ∀ x ∈ v.vars, latest? log x = none
  call : ∀ f ∈ v.functions, available f →
    ∃ g g', (∀ s t, R s t → s.get env f = .ok g ∧ t.get env' f = .ok g') ∧
      ∀ args : List Value, (∀ a ∈ args, a.IsData) →
        (∀ e ∈ latest? log f, args.length ≤ e.params.length) →
        (∀ x ∈ passed log f args.length, available x) → ∀ w w', Joined R w w' →
        ∃ extra, exprs calls env' (arguments log f args.length) w' = (.ok extra, w') ∧
          Agree (Alike Value.IsData R) (apply calls f g args w) (apply calls f g' (args ++ extra) w')

theorem exprs_append (calls : Calls) (env : Environment) (es es' : List Expr) :
    exprs calls env (es ++ es') = (do
      let vs ← exprs calls env es
      return vs ++ (← exprs calls env es')) := by
  induction es with
  | nil => simp [exprs]
  | cons e es ih => simp [exprs, ih]

section

variable {calls : Calls} {env env' : Environment} {v : Visible} {log : List Entry}
  {available : String → Prop} {R : Store → Store → Prop} {w w' : World}

theorem isSome_resolve?_of_get {s : Store} {x : String} {a : Value} (h : s.get env x = .ok a) :
    (s.resolve? x env).isSome = true := by
  unfold Store.get at h
  cases hresolve : s.resolve? x env with
  | none => simp [hresolve] at h
  | some p => rfl

namespace Bridge

variable (B : Bridge calls env env' v log available R)
include B

variable {x : String}

theorem read_alike (hx : x ∈ v.vars) (havailable : available x) (h : Joined R w w') :
    Agree (Alike Value.IsData R) (Execution.read env x w) (Execution.read env' x w') := by
  obtain ⟨a, ha, hs, ht⟩ := B.read x hx havailable _ _ h.store
  rw [read_of_get hs, read_of_get ht]
  exact .ok ⟨rfl, ha, h⟩

theorem isResolvable_alike (hx : x ∈ v.vars) (havailable : available x) (h : Joined R w w') :
    Agree (Alike (fun _ => True) R) (isResolvable env x w) (isResolvable env' x w') := by
  obtain ⟨a, -, hs, ht⟩ := B.read x hx havailable _ _ h.store
  rw [isResolvable_apply, isResolvable_apply, isSome_resolve?_of_get hs, isSome_resolve?_of_get ht]
  exact .ok ⟨rfl, trivial, h⟩

theorem write_alike (hx : x ∈ v.own) {a : Value} (ha : a.IsData) (h : Joined R w w') :
    Agree (Alike (fun _ => True) R) (write env x a w) (write env' x a w') := by
  obtain ⟨i, u, hs, ht, hset⟩ := B.assign x hx _ _ h.store
  by_cases hvalue : u.value.isNone = true
  · rw [write_of_error (e := .uninitialized) (by simp [Store.set, hs, hvalue]),
      write_of_error (e := .uninitialized) (by simp [Store.set, ht, hvalue])]
    exact .error
  · by_cases hconstant : u.isConstant = true
    · rw [write_of_error (e := .constant) (by simp [Store.set, hs, hvalue, hconstant]),
        write_of_error (e := .constant) (by simp [Store.set, ht, hvalue, hconstant])]
      exact .error
    · rw [write_of_set (s := w.store.declare i x { u with value := some a })
          (by simp [Store.set, hs, hvalue, hconstant]),
        write_of_set (s := w'.store.declare i x { u with value := some a })
          (by simp [Store.set, ht, hvalue, hconstant])]
      exact .ok ⟨rfl, trivial, h.output, hset a ha⟩

theorem assign_alike (hx : x ∈ v.own) {a : Value} (ha : a.IsData) (h : Joined R w w') :
    Agree (Alike (fun _ => True) R) (Execution.assign env x a w) (Execution.assign env' x a w') := by
  obtain ⟨i, u, hs, ht, -⟩ := B.assign x hx _ _ h.store
  have hresolve : Execution.assign env x a w = write env x a w := by
    rw [Execution.assign, bind_apply, isResolvable_apply, hs]
    rfl
  have hresolve' : Execution.assign env' x a w' = write env' x a w' := by
    rw [Execution.assign, bind_apply, isResolvable_apply, ht]
    rfl
  rw [hresolve, hresolve']
  exact B.write_alike hx ha h

/-- What a call of a visible name finds and does. A call of a variable fails. -/
theorem callee_alike (hx : x ∈ v.functions ∨ x ∈ v.vars) (havailable : available x)
    (h : Joined R w w') :
    ∃ g g', w.store.get env x = .ok g ∧ w'.store.get env' x = .ok g' ∧
      ∀ args : List Value, (∀ a ∈ args, a.IsData) →
        (∀ e ∈ latest? log x, args.length ≤ e.params.length) →
        (∀ y ∈ passed log x args.length, available y) → ∀ w w', Joined R w w' →
        ∃ extra, exprs calls env' (arguments log x args.length) w' = (.ok extra, w') ∧
          Agree (Alike Value.IsData R) (apply calls x g args w)
    (apply calls x g' (args ++ extra) w') := by
  rcases hx with hx | hx
  · obtain ⟨g, g', hget, hcall⟩ := B.call x hx havailable
    exact ⟨g, g', (hget _ _ h.store).1, (hget _ _ h.store).2, hcall⟩
  · obtain ⟨a, ha, hs, ht⟩ := B.read x hx havailable _ _ h.store
    have hfails (args : List Value) : apply calls x a args = throw (.notCallable x) := by
      cases a with
      | print | function f => cases ha
      | _ => rfl
    refine ⟨a, a, hs, ht, fun args _ _ _ w₁ w₁' h₁ => ⟨[], ?_, ?_⟩⟩
    · rw [TreeLifting.arguments, B.plain x hx]
      rfl
    · rw [hfails, hfails]
      exact .throw _

theorem step_alike {e e' : Expr} (hname : e'.name? = e.name?)
    (hvisible : ∀ x ∈ e.name?, x ∈ v.vars ∧ x ∈ v.own ∧ available x) (change : Float → Float)
    (h : Joined R w w') :
    Agree (Alike (fun _ => True) R) (step env e change w) (step env' e' change w') := by
  unfold step
  rw [hname]
  cases hx : e.name? with
  | none => exact .throw _
  | some x =>
    obtain ⟨hvars, hown, havailable⟩ := hvisible x hx
    refine (B.read_alike hvars havailable h).bind ?_
    rintro _ a w₁ w₁' ⟨rfl, -, h₁⟩
    refine (B.assign_alike hown rfl h₁).bind ?_
    rintro _ _ w₂ w₂' ⟨-, -, h₂⟩
    exact .pure ⟨rfl, trivial, h₂⟩

end Bridge

theorem operate_alike (op : BinaryOp) (a b : Value) (h : Joined R w w') :
    Agree (Alike Value.IsData R) (operate op a b w) (operate op a b w') := by
  unfold operate
  cases hv : Value.operate? op a b with
  | some v => exact .pure ⟨rfl, Value.isData_of_operate? hv, h⟩
  | none =>
    simp only
    split
    · exact .throw _
    · exact .throw _

theorem unary_alike (B : Bridge calls env env' v log available R) {e : Expr}
    (he : ∀ {w w' : World}, Joined R w w' → Agree (Alike Value.IsData R) (expr calls env e w)
      (expr calls env' (TreeLifting.expr log e) w'))
    (hvisible : ∀ x ∈ e.name?, x ∈ v.vars ∧ available x) (op : PrefixOp)
    (hassign : op = .increment ∨ op = .decrement → v.MayAssign e) (r : Range) (h : Joined R w w') :
    Agree (Alike Value.IsData R) (expr calls env (.unary r op e) w)
    (expr calls env' (.unary r op (TreeLifting.expr log e)) w') := by
  have hname := TreeLifting.name?_expr log e
  cases op with
  | increment | decrement =>
    simp only [expr]
    refine (B.step_alike hname (fun x hx => ⟨(hvisible x hx).1, hassign (by simp) x hx,
      (hvisible x hx).2⟩) _ h).bind ?_
    rintro _ a w₁ w₁' ⟨rfl, -, h₁⟩
    exact .pure ⟨rfl, rfl, h₁⟩
  | typeof =>
    simp only [expr, hname]
    have hresolvable : Agree (Alike (· = true) R)
        ((e.name?.elim (pure true) (isResolvable env) : Run Bool) w)
        ((e.name?.elim (pure true) (isResolvable env') : Run Bool) w') := by
      cases hx : e.name? with
      | none => exact .pure ⟨rfl, rfl, h⟩
      | some x =>
        obtain ⟨hvars, havailable⟩ := hvisible x hx
        obtain ⟨a, -, hs, ht⟩ := B.read x hvars havailable _ _ h.store
        rw [Option.elim_some, Option.elim_some, isResolvable_apply, isResolvable_apply,
          isSome_resolve?_of_get hs, isSome_resolve?_of_get ht]
        exact .ok ⟨rfl, rfl, h⟩
    refine hresolvable.bind ?_
    rintro _ b w₁ w₁' ⟨rfl, rfl, h₁⟩
    simp only [if_true]
    refine (he h₁).bind ?_
    rintro _ a w₂ w₂' ⟨rfl, -, h₂⟩
    exact .pure ⟨rfl, rfl, h₂⟩
  | delete =>
    simp only [expr, hname]
    cases hx : e.name? with
    | none =>
      refine (he h).bind ?_
      rintro _ a w₁ w₁' ⟨rfl, -, h₁⟩
      exact .pure ⟨rfl, rfl, h₁⟩
    | some x =>
      refine (B.isResolvable_alike (hvisible x hx).1 (hvisible x hx).2 h).bind ?_
      rintro _ b w₁ w₁' ⟨rfl, -, h₁⟩
      exact .pure ⟨rfl, rfl, h₁⟩
  | not | bitNot | plus | minus | void =>
    simp only [expr]
    refine (he h).bind ?_
    rintro _ a w₁ w₁' ⟨rfl, -, h₁⟩
    exact .pure ⟨rfl, rfl, h₁⟩

theorem binary_alike (B : Bridge calls env env' v log available R) {a b : Expr} (op : BinaryOp)
    (ha : op ≠ .assign → ∀ {w w' : World}, Joined R w w' → Agree (Alike Value.IsData R)
      (expr calls env a w) (expr calls env' (TreeLifting.expr log a) w'))
    (hb : ∀ {w w' : World}, Joined R w w' → Agree (Alike Value.IsData R) (expr calls env b w)
      (expr calls env' (TreeLifting.expr log b) w')) (hassign : op = .assign → v.MayAssign a)
    (r opRange : Range) (h : Joined R w w') :
    Agree (Alike Value.IsData R) (expr calls env (.binary r op opRange a b) w)
    (expr calls env' (TreeLifting.expr log (.binary r op opRange a b)) w') := by
  rw [TreeLifting.expr]
  cases op with
  | assign =>
    rw [if_pos rfl]
    simp only [expr]
    cases hx : a.name? with
    | none => exact .throw _
    | some x =>
      refine (hb h).bind ?_
      rintro _ c w₁ w₁' ⟨rfl, hc, h₁⟩
      refine (B.assign_alike (hassign rfl x hx) hc h₁).bind ?_
      rintro _ _ w₂ w₂' ⟨-, -, h₂⟩
      exact .pure ⟨rfl, hc, h₂⟩
  | and =>
    rw [if_neg (by decide)]
    simp only [expr]
    refine (ha (by decide) h).bind ?_
    rintro _ c w₁ w₁' ⟨rfl, hc, h₁⟩
    split
    · exact hb h₁
    · exact .pure ⟨rfl, hc, h₁⟩
  | or =>
    rw [if_neg (by decide)]
    simp only [expr]
    refine (ha (by decide) h).bind ?_
    rintro _ c w₁ w₁' ⟨rfl, hc, h₁⟩
    split
    · exact .pure ⟨rfl, hc, h₁⟩
    · exact hb h₁
  | comma =>
    rw [if_neg (by decide)]
    simp only [expr]
    refine (ha (by decide) h).bind ?_
    rintro _ c w₁ w₁' ⟨rfl, -, h₁⟩
    exact hb h₁
  | _ =>
    rw [if_neg (by simp)]
    simp only [expr]
    refine (ha (by simp) h).bind ?_
    rintro _ c w₁ w₁' ⟨rfl, -, h₁⟩
    refine (hb h₁).bind ?_
    rintro _ d w₂ w₂' ⟨rfl, -, h₂⟩
    exact operate_alike _ _ _ h₂

theorem available_of_reads {bound : List String} {x : String} (hbound : ∀ y ∈ bound, available y)
    (hreads : ∀ y ∈ FreeReads.unbound bound [x], available y) : available x := by
  by_cases hx : x ∈ bound
  · exact hbound x hx
  · exact hreads x (FreeReads.mem_unbound.2 ⟨mem_singleton.2 rfl, hx⟩)

/-- What a call passes on is among the names that its lifted form reads. -/
theorem reads_passed {self : Option String} {bound : List String} {callee x : String} {count : Nat}
    (hcount : ∀ e ∈ latest? log callee, count ≤ e.params.length) (hx : x ∈ passed log callee count)
    (hbound : x ∉ bound) :
    x ∈ ofExprs (noCalls self) bound (arguments log callee count) := by
  unfold TreeLifting.passed at hx
  cases he : latest? log callee with
  | none => simp [he] at hx
  | some e =>
    simp only [he, Option.elim_some, TreeLifting.Entry.passed,
      Nat.sub_eq_zero_of_le (hcount e he), drop_zero] at hx
    refine FreeReads.mem_ofExprs.2 ⟨.ident (.ofName x), ?_,
      FreeReads.mem_unbound.2 ⟨mem_singleton.2 rfl, hbound⟩⟩
    simp only [TreeLifting.arguments, he, Option.elim_some, TreeLifting.Entry.arguments]
    rw [drop_append_of_le_length (by simpa using hcount e he)]
    exact mem_append.2 (.inr (mem_map_of_mem hx))

mutual

/-- **Expressions.** An expression and its lifted form give the same value or fail alike. -/
theorem expr_alike (B : Bridge calls env env' v log available R) {self : Option String}
    {bound : List String} (hbound : ∀ x ∈ bound, available x) (e : Expr) (hsup : e.Supported)
    (hscoped : e.Scoped v)
    (hreads : ∀ x ∈ ofExpr (noCalls self) bound (TreeLifting.expr log e), available x)
    (harity : ∀ c ∈ e.calls, ∀ g ∈ latest? log c.1, c.2 ≤ g.params.length) {w w' : World}
    (h : Joined R w w') :
    Agree (Alike Value.IsData R) (expr calls env e w) (expr calls env' (TreeLifting.expr log e) w')
    := by
  cases e with
  | ident id => exact B.read_alike hscoped (available_of_reads hbound hreads) h
  | number _ | string _ | boolean _ _ | null _ =>
    simp only [TreeLifting.expr, expr]
    exact .pure ⟨rfl, rfl, h⟩
  | paren _ e =>
    simp only [TreeLifting.expr, expr]
    exact expr_alike B hbound e hsup hscoped hreads harity h
  | unary r op e =>
    refine unary_alike B (expr_alike B hbound e hsup hscoped.1 hreads harity) ?_ op hscoped.2 r h
    intro x hx
    obtain ⟨id, rfl, rfl⟩ := Lifting.eq_ident_of_name? hx
    exact ⟨hscoped.1, available_of_reads hbound hreads⟩
  | update r op e =>
    simp only [TreeLifting.expr, expr]
    refine (B.step_alike (TreeLifting.name?_expr log e) ?_ _ h).bind ?_
    · intro x hx
      have hown := hscoped.2 x hx
      obtain ⟨id, rfl, rfl⟩ := Lifting.eq_ident_of_name? hx
      exact ⟨hscoped.1, hown, available_of_reads hbound hreads⟩
    · rintro _ a w₁ w₁' ⟨rfl, -, h₁⟩
      exact .pure ⟨rfl, rfl, h₁⟩
  | binary r op opRange a b =>
    have hb : ∀ {w w' : World}, Joined R w w' → Agree (Alike Value.IsData R) (expr calls env b w)
        (expr calls env' (TreeLifting.expr log b) w') :=
      expr_alike B hbound b hsup.2.2 hscoped.2.1
        (fun x hx => hreads x (by
          simp only [TreeLifting.expr]
          split <;> exact mem_append.2 (.inr hx)))
        fun c hc => harity c (mem_append.2 (.inr hc))
    refine binary_alike B op ?_ hb hscoped.2.2 r opRange h
    intro hop
    exact expr_alike B hbound a (by simpa [hop] using hsup.2.1) hscoped.1
      (fun x hx => hreads x (by
        simp only [TreeLifting.expr, if_neg hop]
        exact mem_append.2 (.inl hx)))
      fun c hc => harity c (mem_append.2 (.inl hc))
  | call r isOptional f args =>
    obtain ⟨hoptional, hcallee, hargs⟩ := hsup
    obtain ⟨callee, hcallee⟩ := Option.isSome_iff_exists.1 hcallee
    obtain ⟨id, rfl, rfl⟩ := Lifting.eq_ident_of_name? hcallee
    subst hoptional
    simp only [TreeLifting.expr, ofExpr, Expr.name?, Option.elim_some, mem_append,
      FreeReads.mem_ofExprs] at hreads
    simp only [Expr.calls, Expr.name?, Option.toList_some, map_cons, map_nil,
      singleton_append, mem_cons, forall_eq_or_imp] at harity
    have hcount := harity.1
    have hfunction : available id.name := available_of_reads hbound fun y hy =>
      hreads y (.inl (.inl hy))
    obtain ⟨g, g', hs, ht, hcall⟩ := B.callee_alike (hscoped.1 _ rfl) hfunction h
    have hexprs := exprs_alike B hbound args hargs hscoped.2
      (fun x hx => by
        obtain ⟨e, he, hx⟩ := FreeReads.mem_ofExprs.1 hx
        exact hreads x (.inl (.inr ⟨e, .inl he, hx⟩))) harity.2 h
    simp only [TreeLifting.expr, expr, Expr.name?, Bool.false_eq_true, if_false, Option.elim_some]
    rw [bind_apply, bind_apply, read_of_get hs, read_of_get ht]
    simp only [exprs_append, bind_assoc, pure_bind]
    refine hexprs.bind ?_
    rintro _ vs w₁ w₁' ⟨rfl, ⟨hdata, hlength⟩, h₁⟩
    rw [← hlength] at hcount hreads
    obtain ⟨extra, hextra, hagree⟩ := hcall vs hdata hcount (fun x hx => by
      by_cases hxb : x ∈ bound
      · exact hbound x hxb
      · obtain ⟨e, he, hx⟩ := FreeReads.mem_ofExprs.1 (reads_passed hcount hx hxb)
        exact hreads x (.inl (.inr ⟨e, .inr he, hx⟩))) w₁ w₁' h₁
    rw [hlength] at hextra
    rw [bind_apply, hextra]
    exact hagree
  | other _ => exact hsup.elim

/-- Expressions and their lifted forms give the same values or fail alike. -/
theorem exprs_alike (B : Bridge calls env env' v log available R) {self : Option String}
    {bound : List String} (hbound : ∀ x ∈ bound, available x) (es : List Expr)
    (hsup : Expr.SupportedList es) (hscoped : Expr.ScopedList v es)
    (hreads : ∀ x ∈ ofExprs (noCalls self) bound (TreeLifting.exprs log es), available x)
    (harity : ∀ c ∈ Expr.callsOfList es, ∀ g ∈ latest? log c.1, c.2 ≤ g.params.length)
    {w w' : World} (h : Joined R w w') :
    Agree (Alike (fun vs => (∀ a ∈ vs, Value.IsData a) ∧ vs.length = es.length) R)
    (exprs calls env es w) (exprs calls env' (TreeLifting.exprs log es) w') := by
  cases es with
  | nil => exact .pure ⟨rfl, ⟨forall_mem_nil _, rfl⟩, h⟩
  | cons e es =>
    simp only [TreeLifting.exprs, exprs]
    refine (expr_alike B hbound e hsup.1 hscoped.1
      (fun x hx => hreads x (mem_append.2 (.inl hx)))
      (fun c hc => harity c (mem_append.2 (.inl hc))) h).bind ?_
    rintro _ a w₁ w₁' ⟨rfl, ha, h₁⟩
    refine (exprs_alike B hbound es hsup.2 hscoped.2
      (fun x hx => hreads x (mem_append.2 (.inr hx)))
      (fun c hc => harity c (mem_append.2 (.inr hc))) h₁).bind ?_
    rintro _ vs w₂ w₂' ⟨rfl, ⟨hdata, hlength⟩, h₂⟩
    exact .pure ⟨rfl, ⟨forall_mem_cons.2 ⟨ha, hdata⟩, by simp [hlength]⟩, h₂⟩

end

end

end Execution

end LambdaLift
