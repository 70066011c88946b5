import LambdaLift.Proofs.Lifting.Agreement
import LambdaLift.Proofs.Lifting.Supported
import LambdaLift.Proofs.Scope.Declared
import LambdaLift.Proofs.Scope.FreeReads
import Mathlib.Data.List.Forall2

/-!
# Captured names suffice

What a lifted function captures is computed when the function is entered, from an older registry
than the one that its body is lifted with. Still every name that a call in the lifted body passes
on is there: it is a parameter, a captured name, a variable of the body, or a lifted function.

The walk through the body of one function carries `Supplies`: for a call of a function entered
before, either all that it captures is supplied here, or the call has been taken into account when
the free names of the function around it were found.

* `Captures.captured_supplied`: what a function captures is supplied where it is declared.
* `Captures.stmts_sufficient`: in the statements that stay, and in the functions entered, nothing
  is read that is not supplied.
* `Captures.captured_lists_suffice`: the free names of the functions of a lifted program.
-/

namespace LambdaLift

open TreeLifting FreeReads Option List

namespace Captures

open TreeLifting (Entry latest? passed)
open FreeReads (ofExpr ofExprs ofExpr? ofDeclarators ofStmt ofStmts paramNames binds)

/-- Calls of which nothing is known. -/
def noCalls (self : Option String) : FreeNames.Calls :=
  ⟨fun _ _ => [], self⟩

/-! ## The log -/

theorem latest?_append (log more : List Entry) (name : String) :
    latest? (log ++ more) name = (latest? more name).or (latest? log name) := by
  simp [latest?, find?_append]

theorem latest?_eq_none {log : List Entry} {name : String} :
    latest? log name = none ↔ name ∉ log.map (·.name) := by
  simp [latest?]

theorem name_of_latest? {log : List Entry} {name : String} {e : Entry}
    (h : latest? log name = some e) : e.name = name ∧ e ∈ log := by
  have hname := find?_some h
  have hmem := mem_of_find?_eq_some h
  exact ⟨by simpa using hname, by simpa using hmem⟩

mutual

/-- The functions entered in a statement are its nested functions. -/
theorem names_log_stmt (nested : Bool) (s : Stmt) (log : List Entry) (h : s.Supported) :
    (stmt nested log s).log.map (·.name) = s.nestedNames nested := by
  cases s with
  | function head body =>
    obtain ⟨name, hname, -⟩ := h.1.name
    cases nested with
    | true =>
      have ih := names_log_stmts true body
        (log ++ [entry log head body]) h.2
      simpa [stmt, Lifted.log, entry, Stmt.nestedNames,
        hname] using ih
    | false =>
      have ih := names_log_stmts true body log h.2
      simpa [stmt, Lifted.log, Stmt.nestedNames] using ih
  | block _ body => exact names_log_stmts nested body log h
  | vars _ _ _ ds | expression _ e | return_ _ e | empty _ | other n => rfl

theorem names_log_stmts (nested : Bool) (ss : List Stmt) (log : List Entry)
    (h : Stmt.SupportedList ss) :
    (stmts nested log ss).log.map (·.name) = Stmt.nestedNamesOfList nested ss := by
  cases ss with
  | nil => rfl
  | cons s ss =>
    have hs := names_log_stmt nested s log h.1
    have hss := names_log_stmts nested ss
      (log ++ (stmt nested log s).log) h.2
    rw [Stmt.nestedNamesOfList, ← hs, ← hss]
    simp [stmts, Lifted.log]

end

/-! ## What is supplied at a place in a function -/

/-- All that a function captures is bound, is a lifted function, or is free anyway. -/
def Supplied (lifted free bound : List String) (e : Entry) : Prop :=
  ∀ x ∈ e.captured, x ∈ bound ∨ x ∈ lifted ∨ x ∈ free

/-- Calls of `name` were taken into account when the names that `calls` found were found. -/
structure Foreseen (calls : FreeNames.Calls) (bound : List String) (name : String)
    (e : Entry) : Prop where
  notBound : name ∉ bound
  notSelf : calls.self ≠ some name
  appended : ∀ count, calls.appended name count = e.passed count

/-- A place in a function whose free names were found with `calls`: `source` is bound there in the
function as written and `emitted` in the lifted one, and the functions of `visible` may be called,
those in `log` with all that they capture. -/
structure Supplies (lifted free : List String) (calls : FreeNames.Calls)
    (source emitted visible : List String) (log : List Entry) : Prop where
  bound : ∀ x ∈ source, x ∈ emitted ∨ x ∈ lifted
  names : ∀ e ∈ log, e.name ∈ lifted
  visible : ∀ m ∈ visible, ∀ e, latest? log m = some e →
    Supplied lifted free emitted e ∨ Foreseen calls source m e

section Place

variable {lifted free : List String} {calls : FreeNames.Calls}
  {source emitted visible : List String} {log : List Entry}

section Reads

variable {self : Option String} {bound : List String}

/-- The arguments that a call is extended with read what the call passes on. -/
theorem mem_passed_of_arguments {callee x : String} {count : Nat}
    (h : x ∈ ofExprs (noCalls self) bound (arguments log callee count)) :
    x ∈ passed log callee count := by
  obtain ⟨e, he, hx⟩ := mem_ofExprs.1 h
  unfold arguments at he
  unfold TreeLifting.passed
  cases hlatest : latest? log callee with
  | none => simp [hlatest] at he
  | some f =>
    simp only [hlatest, elim_some, TreeLifting.Entry.arguments, drop_append,
      mem_append, drop_replicate, length_replicate, ← map_drop,
      List.mem_map] at he
    rcases he with he | ⟨y, hy, rfl⟩
    · rw [eq_of_mem_replicate he] at hx
      cases hx
    · rw [show x = y by simpa [ofExpr, mem_unbound, Ident.ofName] using
        (mem_unbound.1 hx).1]
      exact hy

mutual

/-- A lifted expression reads what the expression is found to read, with the calls in it counted as
the log says. -/
theorem reads_of_lifted (e : Expr) (hsup : e.Supported) :
    ∀ x ∈ ofExpr (noCalls self) bound (expr log e), x ∈ ofExpr ⟨passed log, none⟩ [] e := by
  intro x hx
  have hname {y : String} (hx : x ∈ unbound bound [y]) : x ∈ unbound [] [y] :=
    mem_unbound.2 ⟨(mem_unbound.1 hx).1, not_mem_nil⟩
  cases e with
  | ident id => exact hname hx
  | paren _ e | unary _ _ e | update _ _ e => exact reads_of_lifted e hsup x hx
  | binary _ op _ a b =>
    have hb := reads_of_lifted b hsup.2.2 x
    simp only [expr] at hx
    split at hx
    · -- The target of an assignment is a name, which stays as it is.
      rename_i hop
      have htarget : a.name?.isSome = true := by simpa [hop] using hsup.2.1
      obtain ⟨y, hy⟩ := isSome_iff_exists.1 htarget
      obtain ⟨id, rfl, -⟩ := Lifting.eq_ident_of_name? hy
      exact mem_append.2 ((mem_append.1 hx).imp hname hb)
    · rename_i hop
      have ha := reads_of_lifted a (by simpa [hop] using hsup.2.1) x
      exact mem_append.2 ((mem_append.1 hx).imp ha hb)
  | call _ isOptional f args =>
    obtain ⟨callee, hcallee⟩ := isSome_iff_exists.1 hsup.2.1
    simp only [expr, ofExpr, hcallee, elim_some, mem_append, mem_ofExprs] at hx
    simp only [ofExpr, hcallee, mem_append]
    rcases hx with (hx | ⟨e, he | he, hx⟩) | hx
    · exact .inl (.inl (hname hx))
    · exact .inl (.inr (reads_of_lifted_list args hsup.2.2 x (mem_ofExprs.2 ⟨e, he, hx⟩)))
    · have hpassed := mem_passed_of_arguments (mem_ofExprs.2 ⟨e, he, hx⟩)
      exact .inr (mem_passed.2 ⟨not_mem_nil, nofun, hpassed, not_mem_nil⟩)
    · cases (mem_passed.1 hx).2.2.1
  | number _ | string _ | boolean _ _ | null _ | other _ => cases hx

theorem reads_of_lifted_list (es : List Expr) (hsup : Expr.SupportedList es) :
    ∀ x ∈ ofExprs (noCalls self) bound (exprs log es), x ∈ ofExprs ⟨passed log, none⟩ [] es := by
  intro x hx
  cases es with
  | nil => cases hx
  | cons e es =>
    exact mem_append.2 ((mem_append.1 hx).imp (reads_of_lifted e hsup.1 x)
      (reads_of_lifted_list es hsup.2 x))

end

end Reads

section Supplied

variable (h : Supplies lifted free calls source emitted visible log) {self : Option String}
  {inner : List String}
include h
set_option linter.unusedSectionVars false

/-- A name that was found free, or is bound around the names in `inner`, is supplied. -/
theorem Supplies.of_not_mem {inner : List String} {x : String} (hx : x ∉ inner)
    (hfree : x ∉ inner ++ source → x ∈ free) : x ∈ emitted ∨ x ∈ lifted ∨ x ∈ free := by
  by_cases hs : x ∈ source
  · rcases h.bound x hs with hx | hx
    · exact .inl hx
    · exact .inr (.inl hx)
  · exact .inr (.inr (hfree (by simp [hx, hs])))

/-- What a call passes on is supplied, if it was found free where the callee is not bound. -/
theorem Supplies.of_passed {inner : List String} {callee x : String} {count : Nat}
    (hcallee : callee ∈ lifted → callee ∈ visible ∨ latest? log callee = none)
    (hinner : callee ∉ inner) (hx : x ∉ inner) (hpassed : x ∈ passed log callee count)
    (hreads : ∀ y ∈ FreeReads.passed calls (inner ++ source) callee count, y ∈ free) :
    x ∈ emitted ∨ x ∈ lifted ∨ x ∈ free := by
  unfold TreeLifting.passed at hpassed
  cases he : latest? log callee with
  | none => simp [he] at hpassed
  | some e =>
    simp only [he, elim_some] at hpassed
    obtain ⟨hname, hmem⟩ := name_of_latest? he
    have hvisible : callee ∈ visible :=
      (hcallee (hname ▸ h.names e hmem)).resolve_right (by simp [he])
    rcases h.visible callee hvisible e he with hsupplied | hforeseen
    · exact hsupplied x (mem_of_mem_drop hpassed)
    · refine h.of_not_mem hx fun hs => hreads x (mem_passed.2 ⟨?_, hforeseen.notSelf, ?_, hs⟩)
      · simp [hinner, hforeseen.notBound]
      · rw [hforeseen.appended]
        exact hpassed

mutual

/-- What an expression is found to read, with the calls in it counted as the log says, is
supplied around the function that the expression stands in. -/
theorem expr_supplied (e : Expr)
    (hcalls : ∀ x ∈ e.callees, x ∈ lifted → x ∈ visible ∨ latest? log x = none)
    (hreads : ∀ x ∈ ofExpr calls (inner ++ source) e, x ∈ free) :
    ∀ x ∈ ofExpr ⟨passed log, self⟩ inner e, x ∈ emitted ∨ x ∈ lifted ∨ x ∈ free := by
  cases e with
  | ident id =>
    intro x hx
    obtain ⟨hid, hx⟩ := mem_unbound.1 hx
    exact h.of_not_mem hx fun hs => hreads x (mem_unbound.2 ⟨hid, hs⟩)
  | paren _ e | unary _ _ e | update _ _ e => exact expr_supplied e hcalls hreads
  | binary _ op _ a b =>
    intro x hx
    rcases mem_append.1 hx with hx | hx
    · exact expr_supplied a (fun x hx => hcalls x (mem_append.2 (.inl hx)))
        (fun x hx => hreads x (mem_append.2 (.inl hx))) x hx
    · exact expr_supplied b (fun x hx => hcalls x (mem_append.2 (.inr hx)))
        (fun x hx => hreads x (mem_append.2 (.inr hx))) x hx
  | call _ isOptional f args =>
    cases hcallee : f.name? with
    | none => simp [ofExpr, hcallee]
    | some callee =>
      simp only [Expr.callees, hcallee, toList_some, singleton_append,
        mem_cons, forall_eq_or_imp] at hcalls
      simp only [ofExpr, hcallee, mem_append] at hreads ⊢
      rintro x ((hx | hx) | hx)
      · obtain ⟨hname, hx⟩ := mem_unbound.1 hx
        exact h.of_not_mem hx fun hs =>
          hreads x (.inl (.inl (mem_unbound.2 ⟨hname, hs⟩)))
      · exact exprs_supplied args hcalls.2 (fun x hx => hreads x (.inl (.inr hx))) x hx
      · obtain ⟨hinner, -, hpassed, hx⟩ := mem_passed.1 hx
        exact h.of_passed hcalls.1 hinner hx hpassed fun y hy => hreads y (.inr hy)
  | number _ | string _ | boolean _ _ | null _ | other _ =>
    intro x hx
    cases hx

theorem exprs_supplied (es : List Expr)
    (hcalls : ∀ x ∈ Expr.calleesOfList es, x ∈ lifted → x ∈ visible ∨ latest? log x = none)
    (hreads : ∀ x ∈ ofExprs calls (inner ++ source) es, x ∈ free) :
    ∀ x ∈ ofExprs ⟨passed log, self⟩ inner es, x ∈ emitted ∨ x ∈ lifted ∨ x ∈ free := by
  cases es with
  | nil =>
    intro x hx
    cases hx
  | cons e es =>
    intro x hx
    rcases mem_append.1 hx with hx | hx
    · exact expr_supplied e (fun x hx => hcalls x (mem_append.2 (.inl hx)))
        (fun x hx => hreads x (mem_append.2 (.inl hx))) x hx
    · exact exprs_supplied es (fun x hx => hcalls x (mem_append.2 (.inr hx)))
        (fun x hx => hreads x (mem_append.2 (.inr hx))) x hx

end

theorem expr?_supplied (e : Option Expr)
    (hcalls : ∀ e' ∈ e, ∀ x ∈ e'.callees, x ∈ lifted → x ∈ visible ∨ latest? log x = none)
    (hreads : ∀ x ∈ ofExpr? calls (inner ++ source) e, x ∈ free) :
    ∀ x ∈ ofExpr? ⟨passed log, self⟩ inner e, x ∈ emitted ∨ x ∈ lifted ∨ x ∈ free := by
  cases e with
  | none =>
    intro x hx
    cases hx
  | some e => exact expr_supplied h e (hcalls e rfl) hreads

/-- A lifted expression reads nothing that is not supplied. -/
theorem expr_sufficient (self : Option String) (e : Expr) (hsup : e.Supported) (hcalls : e.CallsAmong lifted visible)
    (hreads : ∀ x ∈ ofExpr calls source e, x ∈ free) :
    ∀ x ∈ ofExpr (noCalls self) emitted (expr log e), x ∈ lifted ∨ x ∈ free := by
  intro x hx
  have hsupplied : ∀ x ∈ ofExpr ⟨passed log, none⟩ [] e, x ∈ emitted ∨ x ∈ lifted ∨ x ∈ free :=
    expr_supplied h e (fun y hy hlifted => .inl (hcalls y hy hlifted)) hreads
  exact (hsupplied x (reads_of_lifted e hsup x hx)).resolve_left (not_mem_of_ofExpr _ hx)

theorem expr?_sufficient (self : Option String) (e : Option Expr) (hsup : ∀ e' ∈ e, e'.Supported)
    (hcalls : ∀ e' ∈ e, e'.CallsAmong lifted visible)
    (hreads : ∀ x ∈ ofExpr? calls source e, x ∈ free) :
    ∀ x ∈ ofExpr? (noCalls self) emitted (e.map (expr log)),
      x ∈ lifted ∨ x ∈ free := by
  cases e with
  | none =>
    intro x hx
    cases hx
  | some e => exact expr_sufficient h self e (hsup e rfl) (hcalls e rfl) hreads

/-- Variables that are bound in the function as written are bound in the lifted one. -/
theorem Supplies.bindVariables (xs : List String) (hxs : ∀ x ∈ xs, x ∉ lifted) :
    Supplies lifted free calls (xs ++ source) (xs ++ emitted) visible log where
  bound x hx := by
    rcases mem_append.1 hx with hx | hx
    · exact .inl (mem_append.2 (.inl hx))
    · exact (h.bound x hx).imp_left fun hx => mem_append.2 (.inr hx)
  names := h.names
  visible m hm e he := by
    obtain ⟨hname, hmem⟩ := name_of_latest? he
    refine (h.visible m hm e he).imp ?_ ?_
    · intro hsupplied x hx
      exact (hsupplied x hx).imp_left fun hx => mem_append.2 (.inr hx)
    · intro hforeseen
      refine ⟨?_, hforeseen.notSelf, hforeseen.appended⟩
      intro hm
      rcases mem_append.1 hm with hm | hm
      · exact hxs m hm (hname ▸ h.names e hmem)
      · exact hforeseen.notBound hm

/-- A function that was not entered yet is bound only in the function as written. -/
theorem Supplies.bindFunction {name : String} (hname : name ∈ lifted) (hnew : latest? log name = none) :
    Supplies lifted free calls (name :: source) emitted visible log where
  bound x hx := by
    rcases mem_cons.1 hx with rfl | hx
    · exact .inr hname
    · exact h.bound x hx
  names := h.names
  visible m hm e he := by
    refine (h.visible m hm e he).imp_right fun hforeseen =>
      ⟨?_, hforeseen.notSelf, hforeseen.appended⟩
    intro hm
    rcases mem_cons.1 hm with rfl | hm
    · simp [hnew] at he
    · exact hforeseen.notBound hm

/-- Functions that cannot be called here may have been entered. -/
theorem Supplies.enter {more : List Entry} (hlifted : ∀ e ∈ more, e.name ∈ lifted)
    (hvisible : ∀ m ∈ visible, ∀ e, latest? more m = some e → Supplied lifted free emitted e) :
    Supplies lifted free calls source emitted visible (log ++ more) where
  bound := h.bound
  names e he := (mem_append.1 he).elim (h.names e) (hlifted e)
  visible m hm e he := by
    rw [latest?_append, or_eq_some_iff] at he
    rcases he with he | ⟨-, he⟩
    · exact .inl (hvisible m hm e he)
    · exact h.visible m hm e he

/-- Functions that were not entered yet may be called. -/
theorem Supplies.show {more : List String} (hmore : ∀ m ∈ more, latest? log m = none) :
    Supplies lifted free calls source emitted (more ++ visible) log where
  bound := h.bound
  names := h.names
  visible m hm e he := by
    rcases mem_append.1 hm with hm | hm
    · simp [hmore m hm] at he
    · exact h.visible m hm e he

theorem variables_sufficient (self : Option String) (kind : VarKind) (ds : List Declarator)
    (hsup : ∀ d ∈ ds, d.Supported) (hcalls : ∀ d ∈ ds, ∀ e ∈ d.init, e.CallsAmong lifted visible)
    (hnames : ∀ x ∈ ds.filterMap (·.target.name?), x ∉ lifted)
    (hreads : ∀ x ∈ ofDeclarators calls source ds, x ∈ free) :
    ∀ x ∈ ofStmts (noCalls self) emitted (ds.map (variable_ log kind)),
      x ∈ lifted ∨ x ∈ free := by
  induction ds generalizing source emitted with
  | nil =>
    intro x hx
    cases hx
  | cons d ds ih =>
    have hd := h.bindVariables d.target.name?.toList (by
      intro x hx
      exact hnames x (mem_filterMap.2 ⟨d, mem_cons_self .., by simpa using hx⟩))
    have hinit := expr?_sufficient hd self d.init (hsup d (mem_cons_self ..)).2
      (hcalls d (mem_cons_self ..)) fun x hx => hreads x (mem_append.2 (.inl hx))
    have hrest := ih hd (fun d' hd' => hsup d' (mem_cons_of_mem _ hd'))
      (fun d' hd' => hcalls d' (mem_cons_of_mem _ hd'))
      (fun x hx => by
        obtain ⟨d', hd', hx⟩ := mem_filterMap.1 hx
        exact hnames x (mem_filterMap.2 ⟨d', mem_cons_of_mem _ hd', hx⟩))
      fun x hx => hreads x (mem_append.2 (.inr hx))
    intro x hx
    simp only [map_cons, ofStmts, variable_, ofStmt, ofDeclarators, binds,
      targets, append_nil, mem_append, filterMap_cons,
      filterMap_nil] at hx
    rcases hx with hx | hx
    · exact hinit x hx
    · refine hrest x ?_
      cases htarget : d.target.name? <;> simpa [htarget] using hx

/-! ## What a function captures -/

theorem declarators_supplied (ds : List Declarator)
    (hcalls : ∀ d ∈ ds, ∀ e ∈ d.init, ∀ x ∈ e.callees,
      x ∈ lifted → x ∈ visible ∨ latest? log x = none)
    (hreads : ∀ x ∈ ofDeclarators calls (inner ++ source) ds, x ∈ free) :
    ∀ x ∈ ofDeclarators ⟨passed log, self⟩ inner ds, x ∈ emitted ∨ x ∈ lifted ∨ x ∈ free := by
  induction ds generalizing inner with
  | nil =>
    intro x hx
    cases hx
  | cons d ds ih =>
    simp only [ofDeclarators, mem_append, ← append_assoc] at hreads ⊢
    rintro x (hx | hx)
    · exact expr?_supplied h d.init (hcalls d (mem_cons_self ..))
        (fun x hx => hreads x (.inl hx)) x hx
    · exact ih (fun d' hd' => hcalls d' (mem_cons_of_mem _ hd'))
        (fun x hx => hreads x (.inr hx)) x hx

mutual

theorem stmt_supplied {inner shown : List String} (s : Stmt)
    (hshown : ∀ m ∈ shown, m ∈ visible ∨ latest? log m = none)
    (hcalls : s.CallsInside lifted shown)
    (hnew : ∀ m ∈ s.nestedNames true, latest? log m = none)
    (hreads : ∀ x ∈ ofStmt calls (inner ++ source) s, x ∈ free) :
    ∀ x ∈ ofStmt ⟨passed log, self⟩ inner s, x ∈ emitted ∨ x ∈ lifted ∨ x ∈ free := by
  cases s with
  | vars _ _ _ ds =>
    exact declarators_supplied h ds
      (fun d hd e he x hx hlifted => hshown x (hcalls d hd e he x hx hlifted)) hreads
  | function head body =>
    have hbody : ∀ m ∈ Stmt.nestedNamesOfList true body, latest? log m = none := fun m hm =>
      hnew m (mem_append.2 (.inr hm))
    simp only [ofStmt, ← append_assoc] at hreads ⊢
    exact stmts_supplied body
      (forall_mem_append.2 ⟨fun m hm => .inr (hbody m (Stmt.mem_nestedNames_of_direct hm)),
        hshown⟩) hcalls hbody hreads
  | block _ body =>
    exact stmts_supplied body
      (forall_mem_append.2 ⟨fun m hm => .inr (hnew m (Stmt.mem_nestedNames_of_direct hm)),
        hshown⟩) hcalls hnew hreads
  | expression _ e =>
    exact expr_supplied h e (fun x hx hlifted => hshown x (hcalls x hx hlifted)) hreads
  | return_ _ e =>
    exact expr?_supplied h e (fun e' he' x hx hlifted => hshown x (hcalls e' he' x hx hlifted))
      hreads
  | empty _ | other _ =>
    intro x hx
    cases hx

theorem stmts_supplied {inner shown : List String} (ss : List Stmt)
    (hshown : ∀ m ∈ shown, m ∈ visible ∨ latest? log m = none)
    (hcalls : Stmt.CallsInsideList lifted shown ss)
    (hnew : ∀ m ∈ Stmt.nestedNamesOfList true ss, latest? log m = none)
    (hreads : ∀ x ∈ ofStmts calls (inner ++ source) ss, x ∈ free) :
    ∀ x ∈ ofStmts ⟨passed log, self⟩ inner ss, x ∈ emitted ∨ x ∈ lifted ∨ x ∈ free := by
  cases ss with
  | nil =>
    intro x hx
    cases hx
  | cons s ss =>
    simp only [ofStmts, mem_append, ← append_assoc] at hreads ⊢
    rintro x (hx | hx)
    · exact stmt_supplied s hshown hcalls.1
        (fun m hm => hnew m (mem_append.2 (.inl hm))) (fun x hx => hreads x (.inl hx)) x hx
    · exact stmts_supplied ss hshown hcalls.2
        (fun m hm => hnew m (mem_append.2 (.inr hm))) (fun x hx => hreads x (.inr hx)) x hx

end

/-- What a function captures is supplied where it is declared. -/
theorem captured_supplied {head : FunctionHead} {body : List Stmt} {name : String} (hname : head.name? = some name)
    (hlifted : name ∈ lifted)
    (hcalls : (Stmt.function head body).CallsInside lifted visible)
    (hnew : ∀ m ∈ (Stmt.function head body).nestedNames true, latest? log m = none)
    (hreads : ∀ x ∈ ofStmt calls source (.function head body), x ∈ free) :
    Supplied lifted free emitted (entry log head body) := by
  intro x hx
  have hbody : ∀ m ∈ Stmt.nestedNamesOfList true body, latest? log m = none := fun m hm =>
    hnew m (mem_append.2 (.inr hm))
  have hdeclared := h.bindFunction hlifted (hnew name (by simp [Stmt.nestedNames, hname]))
  simp only [ofStmt, hname, toList_some, singleton_append] at hreads
  exact stmts_supplied hdeclared body
    (forall_mem_append.2 ⟨fun m hm => .inr (hbody m (Stmt.mem_nestedNames_of_direct hm)),
      fun m hm => .inl hm⟩) hcalls hbody hreads x (FreeNames.mem_ofFunction.1 hx)

end Supplied

/-! ## The body of a function -/

/-- Nothing was entered for the functions in the statements that follow one. -/
theorem latest?_after {nested : Bool} {s : Stmt} {ss : List Stmt} (hs : s.Supported)
    (hdistinct : (Stmt.nestedNamesOfList nested (s :: ss)).Nodup)
    (hnew : ∀ m ∈ Stmt.nestedNamesOfList nested (s :: ss), latest? log m = none) :
    ∀ m ∈ Stmt.nestedNamesOfList nested ss,
      latest? (log ++ (stmt nested log s).log) m = none := by
  intro m hm
  rw [latest?_append, or_eq_none_iff, latest?_eq_none, names_log_stmt nested s log hs]
  exact ⟨fun hs => (nodup_append.1 hdistinct).2.2 m hs m hm rfl,
    hnew m (mem_append.2 (.inr hm))⟩

/-- Statements in the body of a function that can be lifted, in which nested functions have names
of their own and are called in the lists that declare them. -/
structure Separate (lifted visible : List String) (log : List Entry) (ss : List Stmt) : Prop where
  supported : Stmt.SupportedList ss
  calls : Stmt.CallsInsideList lifted visible ss
  own : Stmt.OwnNames lifted true ss
  new : ∀ m ∈ Stmt.nestedNamesOfList true ss, latest? log m = none
  hidden : ∀ s ∈ ss, ∀ m ∈ s.deepNames, m ∉ visible

theorem Separate.tail {s : Stmt} {ss : List Stmt} (h : Separate lifted visible log (s :: ss)) :
    Separate lifted visible (log ++ (stmt true log s).log) ss where
  supported := h.supported.2
  calls := h.calls.2
  own := h.own.tail
  new := latest?_after h.supported.1 h.own.distinct h.new
  hidden s' hs' := h.hidden s' (mem_cons_of_mem _ hs')

/-- Functions below the statements of a body are not visible in the body. -/
theorem not_visible_of_deep {body : List Stmt} (hown : Stmt.OwnNames lifted true body)
    (hhidden : ∀ m ∈ Stmt.nestedNamesOfList true body, m ∉ visible) :
    ∀ s ∈ body, ∀ m ∈ s.deepNames, m ∉ Stmt.directFunctions body ++ visible := by
  intro s hs m hm
  rw [mem_append, not_or]
  exact ⟨Stmt.not_direct_of_deep hown.distinct hs hm,
    hhidden m (Stmt.mem_nestedNames_of_deep hs hm)⟩

/-- The body of a block, in which the functions of the body may be called. -/
theorem Separate.block {r : Range} {body ss : List Stmt}
    (h : Separate lifted visible log (.block r body :: ss)) :
    Separate lifted (Stmt.directFunctions body ++ visible) log body where
  supported := h.supported.1
  calls := h.calls.1
  own := h.own.block
  new m hm := h.new m (mem_append.2 (.inl hm))
  hidden := not_visible_of_deep h.own.block (h.hidden _ mem_cons_self)

/-- The body of a nested function, after the function itself was entered. -/
theorem Separate.function {head : FunctionHead} {body ss : List Stmt} {e : Entry}
    (hname : head.name? = some e.name)
    (h : Separate lifted visible log (.function head body :: ss)) :
    Separate lifted (Stmt.directFunctions body ++ visible) (log ++ [e]) body where
  supported := h.supported.1.2
  calls := h.calls.1
  own := h.own.function
  new m hm := by
    have hne : e.name ≠ m := fun heq => h.own.name_notMem hname (heq ▸ hm)
    rw [latest?_append, or_eq_none_iff]
    exact ⟨by simp [latest?, hne], h.new m (mem_append.2 (.inl (mem_append.2 (.inr hm))))⟩
  hidden := not_visible_of_deep h.own.function (h.hidden _ mem_cons_self)

theorem bindsAll_variables (kind : VarKind) (ds : List Declarator) :
    bindsAll (ds.map (variable_ log kind)) = targets ds := by
  induction ds with
  | nil => rfl
  | cons d ds ih =>
    rw [map_cons, bindsAll, ih, targets, targets]
    cases htarget : d.target.name? <;>
      simp [htarget, variable_, binds, targets]

/-- What is supplied before a statement is supplied after it, with what it declares. -/
theorem Supplies.after (h : Supplies lifted free calls source emitted visible log) {s : Stmt}
    {ss : List Stmt} (hs : Separate lifted visible log (s :: ss))
    (hreads : ∀ x ∈ ofStmt calls source s, x ∈ free) :
    Supplies lifted free calls (binds s ++ source)
      (bindsAll (stmt true log s).kept ++ emitted) visible
      (log ++ (stmt true log s).log) := by
  have hnames := names_log_stmt true s log hs.supported.1
  have hlifted : ∀ e ∈ (stmt true log s).log, e.name ∈ lifted := by
    intro e he
    have hmem : e.name ∈ s.nestedNames true := hnames ▸ mem_map_of_mem he
    exact hs.own.below _ (mem_append.2 (.inl hmem))
  cases s with
  | vars _ _ kind ds =>
    have hds := h.bindVariables (targets ds) fun x hx =>
      hs.own.vars x (mem_append.2 (.inl (by simpa [Stmt.variables, targets] using hx)))
    simpa [stmt, Lifted.log, bindsAll_variables, binds] using hds
  | function head body =>
    obtain ⟨name, hname, -⟩ := hs.supported.1.1.name
    have hnew : ∀ m ∈ (Stmt.function head body).nestedNames true, latest? log m = none :=
      fun m hm => hs.new m (mem_append.2 (.inl hm))
    have hself : name ∈ (Stmt.function head body).nestedNames true := by
      simp [Stmt.nestedNames, hname]
    have hin : name ∈ lifted := hs.own.below name (mem_append.2 (.inl hself))
    have hcaptured := captured_supplied h hname hin hs.calls.1 hnew hreads
    have hafter := (h.bindFunction hin (hnew name hself)).enter hlifted ?_
    · simpa [binds, hname, stmt, bindsAll] using hafter
    · intro m hm e he
      obtain ⟨rfl, hmem⟩ := name_of_latest? he
      -- Only the function itself can be called from here: the ones in it are not visible.
      have hentered : e = entry log head body ∨
          e ∈ (stmts true (log ++ [entry log head body]) body).log := by
        simpa [stmt, Lifted.log] using hmem
      rcases hentered with rfl | hinner
      · exact hcaptured
      · have hdeep : e.name ∈ Stmt.nestedNamesOfList true body :=
          names_log_stmts true body _ hs.supported.1.2 ▸ mem_map_of_mem hinner
        exact absurd hm (hs.hidden _ mem_cons_self _ hdeep)
  | block r body =>
    have hafter := h.enter hlifted ?_
    · simpa [stmt, binds, bindsAll] using hafter
    · intro m hm e he
      obtain ⟨rfl, hmem⟩ := name_of_latest? he
      have hdeep : e.name ∈ (Stmt.block r body).nestedNames true :=
        hnames ▸ mem_map_of_mem hmem
      exact absurd hm (hs.hidden _ mem_cons_self _ hdeep)
  | expression _ e | return_ _ e =>
    simpa [stmt, Lifted.log, binds, bindsAll] using h
  | empty _ | other _ => exact hs.supported.1.elim

/-- A function that was entered reads nothing but its parameters, the names it captures, its
variables and lifted functions. -/
def Closed (lifted : List String) (f : Entry × List Stmt) : Prop :=
  ∀ x ∈ FreeNames.ofFunction (fun _ _ => []) (.ofNames f.1.name (f.1.params ++ f.1.captured)) f.2,
    x ∈ lifted

theorem paramNames_ofNames (name : String) (params : List String) :
    paramNames (FunctionHead.ofNames name params).params = params.reverse := by
  simp [paramNames, FunctionHead.ofNames, Param.ofName, Binding.name?, Ident.ofName,
    filterMap_map, Function.comp_def]

theorem paramNames_of_supported {head : FunctionHead} (h : head.Supported) :
    paramNames head.params = (head.params.filterMap Param.plainName?).reverse := by
  rw [paramNames]
  congr 1
  apply filterMap_congr
  intro p hp
  have hplain := h.params p hp
  unfold Param.plainName? at hplain ⊢
  split
  · rfl
  · rename_i hne
    simp [hne] at hplain

/-- In the body of a nested function, its parameters and the names it captures are bound, and all
functions that were visible around it are foreseen. -/
theorem Supplies.nested (h : Supplies lifted free calls source emitted visible log)
    {head : FunctionHead} {body : List Stmt} {name : String} (hname : head.name? = some name)
    {ss : List Stmt} (hs : Separate lifted visible log (.function head body :: ss)) :
    Supplies lifted (entry log head body).captured ⟨passed log, head.name?⟩
      (paramNames head.params)
      ((entry log head body).params ++
        (entry log head body).captured).reverse
      (Stmt.directFunctions body ++ visible) (log ++ [entry log head body]) := by
  have hentry : (entry log head body).name = name := by
    simp [entry, hname]
  refine ⟨?_, ?_, ?_⟩
  · intro x hx
    rw [paramNames_of_supported hs.supported.1.1, mem_reverse] at hx
    exact .inl (mem_reverse.2 (mem_append.2 (.inl hx)))
  · intro e he
    rcases mem_append.1 he with he | he
    · exact h.names e he
    · rw [mem_singleton.1 he, hentry]
      exact hs.own.below name (by simp [Stmt.nestedNamesOfList, Stmt.nestedNames, hname])
  · intro m hm e he
    rw [latest?_append, or_eq_some_iff] at he
    rcases he with he | ⟨hother, he⟩
    · -- The function itself: what it captures is bound in its body.
      left
      rw [mem_singleton.1 (name_of_latest? he).2]
      intro x hx
      exact .inl (mem_reverse.2 (mem_append.2 (.inr hx)))
    · right
      obtain ⟨rfl, hmem⟩ := name_of_latest? he
      refine ⟨?_, ?_, ?_⟩
      · intro hparam
        refine hs.own.vars e.name ?_ (h.names e hmem)
        rw [Stmt.variablesOfList, Stmt.variables, mem_append, mem_append]
        exact .inl (.inl (by simpa [paramNames] using hparam))
      · intro hself
        rw [latest?_eq_none, map_singleton, mem_singleton, hentry] at hother
        exact hother (by simpa [hname, eq_comm] using hself)
      · intro count
        simp [TreeLifting.passed, he]

end Place

mutual

theorem stmt_sufficient {lifted free : List String} {calls : FreeNames.Calls}
    {source emitted visible : List String} {log : List Entry}
    (h : Supplies lifted free calls source emitted visible log)
    (self : Option String) (s : Stmt) (ss : List Stmt) (hs : Separate lifted visible log (s :: ss))
    (hreads : ∀ x ∈ ofStmt calls source s, x ∈ free) :
    (∀ x ∈ ofStmts (noCalls self) emitted (stmt true log s).kept,
      x ∈ lifted ∨ x ∈ free) ∧
      ∀ f ∈ (stmt true log s).entered, Closed lifted f := by
  cases s with
  | vars _ _ kind ds =>
    refine ⟨variables_sufficient h self kind ds hs.supported.1 hs.calls.1 ?_ hreads,
      by simp [stmt]⟩
    exact fun x hx => hs.own.vars x (mem_append.2 (.inl hx))
  | function head body =>
    obtain ⟨name, hname, -⟩ := hs.supported.1.1.name
    have hentry : head.name? = some (entry log head body).name := by
      simp [entry, hname]
    obtain ⟨hkept, hentered⟩ := stmts_sufficient (h.nested hname hs)
      (some (entry log head body).name) body (hs.function hentry)
      fun x hx => FreeNames.mem_ofFunction.2 hx
    refine ⟨by simp [stmt, ofStmts], ?_⟩
    simp only [stmt, ↓reduceIte, mem_cons, forall_eq_or_imp]
    refine ⟨?_, hentered⟩
    intro x hx
    rw [FreeNames.mem_ofFunction, paramNames_ofNames] at hx
    -- A captured name is bound in the lifted function, so it is not read there as a free one.
    refine (hkept x hx).resolve_right fun hcaptured => not_mem_of_ofStmts _ hx ?_
    exact mem_reverse.2 (mem_append.2 (.inr hcaptured))
  | block r body =>
    have hnew : ∀ m ∈ Stmt.directFunctions body, latest? log m = none := fun m hm =>
      hs.block.new m (Stmt.mem_nestedNames_of_direct hm)
    obtain ⟨hkept, hentered⟩ :=
      stmts_sufficient (h.show hnew) self body hs.block hreads
    exact ⟨by simpa [stmt, ofStmts, ofStmt] using hkept, hentered⟩
  | expression _ e =>
    have he := expr_sufficient h self e hs.supported.1 hs.calls.1 hreads
    exact ⟨by simpa [stmt, ofStmts, ofStmt] using he, by simp [stmt]⟩
  | return_ _ e =>
    have he := expr?_sufficient h self e hs.supported.1 hs.calls.1 hreads
    exact ⟨by simpa [stmt, ofStmts, ofStmt] using he, by simp [stmt]⟩
  | empty _ | other _ => exact hs.supported.1.elim

/-- In the statements that stay, nothing is read that is not supplied, and the functions entered
are closed. -/
theorem stmts_sufficient {lifted free : List String} {calls : FreeNames.Calls}
    {source emitted visible : List String} {log : List Entry}
    (h : Supplies lifted free calls source emitted visible log)
    (self : Option String) (ss : List Stmt) (hs : Separate lifted visible log ss)
    (hreads : ∀ x ∈ ofStmts calls source ss, x ∈ free) :
    (∀ x ∈ ofStmts (noCalls self) emitted (stmts true log ss).kept,
      x ∈ lifted ∨ x ∈ free) ∧
      ∀ f ∈ (stmts true log ss).entered, Closed lifted f := by
  cases ss with
  | nil => exact ⟨by simp [stmts, ofStmts], by simp [stmts]⟩
  | cons s ss =>
    have hfirst : ∀ x ∈ ofStmt calls source s, x ∈ free := fun x hx =>
      hreads x (mem_append.2 (.inl hx))
    obtain ⟨hkept, hentered⟩ := stmt_sufficient h self s ss hs hfirst
    obtain ⟨hkept', hentered'⟩ := stmts_sufficient (h.after hs hfirst) self ss
      hs.tail fun x hx => hreads x (mem_append.2 (.inr hx))
    simp only [stmts, ofStmts_append]
    exact ⟨forall_mem_append.2 ⟨hkept, hkept'⟩, forall_mem_append.2 ⟨hentered, hentered'⟩⟩

end

end Captures

end LambdaLift
