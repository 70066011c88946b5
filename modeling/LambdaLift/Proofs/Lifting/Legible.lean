import LambdaLift.Proofs.Lifting.Tree
import LambdaLift.Proofs.Scope.FreeReads
import LambdaLift.Proofs.Tree.Legible

/-!
# Lifting keeps trees legible

Operands are put in parentheses, and the arguments that are added are names of the program or
`void 0`, so the lifted tree of a legible tree is legible.

* `FreeReads.isName_of_ofStmts`: what legible statements read are names.
* `TreeLifting.Entry.Legible`: an entered function whose names are names that can be read.
* `TreeLifting.program_legible`: the lifted program of a legible program is legible.
-/

namespace LambdaLift

open List

/-! ## Free names -/

namespace FreeReads

open FreeNames (Calls)

theorem isName_of_name? {e : Expr} {x : String} (he : e.Legible) (hx : e.name? = some x) :
    IsName x := by
  cases e with
  | ident id =>
    obtain rfl : id.name = x := by simpa [Expr.name?] using hx
    exact he.isName
  | _ => cases hx

variable {calls : Calls} (hcalls : ∀ f n, ∀ x ∈ calls.appended f n, IsName x)
include hcalls
set_option linter.unusedSectionVars false

mutual

theorem isName_of_ofExpr (bound : List String) (e : Expr) (he : e.Legible) :
    ∀ x ∈ ofExpr calls bound e, IsName x := by
  intro x hx
  cases e with
  | ident id =>
    obtain ⟨hx, -⟩ := mem_unbound.1 hx
    obtain rfl : x = id.name := by simpa using hx
    exact he.isName
  | paren _ e => exact isName_of_ofExpr bound e he x hx
  | unary _ op e | update _ op e => exact isName_of_ofExpr bound e he.2 x hx
  | binary _ op _ a b =>
    rcases mem_append.1 hx with hx | hx
    · exact isName_of_ofExpr bound a he.2.2.1 x hx
    · exact isName_of_ofExpr bound b he.2.2.2 x hx
  | call _ isOptional f args =>
    simp only [ofExpr] at hx
    split at hx
    · simp at hx
    · rename_i callee hcallee
      simp only [mem_append, mem_unbound, mem_passed, mem_singleton] at hx
      rcases hx with (⟨rfl, -⟩ | hx) | ⟨-, -, hx, -⟩
      · exact isName_of_name? he.2.2.1 hcallee
      · exact isName_of_ofExprs bound args he.2.2.2 x hx
      · exact hcalls _ _ x hx
  | number lit | string lit | boolean _ b | null _ => simp [ofExpr] at hx
  | other n => exact he.elim

theorem isName_of_ofExprs (bound : List String) (es : List Expr) (hes : Expr.LegibleList es) :
    ∀ x ∈ ofExprs calls bound es, IsName x := by
  intro x hx
  cases es with
  | nil => simp [ofExprs] at hx
  | cons e es =>
    rcases mem_append.1 hx with hx | hx
    · exact isName_of_ofExpr bound e hes.1.2 x hx
    · exact isName_of_ofExprs bound es hes.2 x hx

end

theorem isName_of_ofExpr? (bound : List String) {e : Option Expr} (he : ∀ e' ∈ e, e'.Legible) :
    ∀ x ∈ ofExpr? calls bound e, IsName x := by
  cases e with
  | none => simp [ofExpr?]
  | some e => exact isName_of_ofExpr hcalls bound e (he e rfl)

theorem isName_of_ofDeclarators (bound : List String) {ds : List Declarator}
    (hds : ∀ d ∈ ds, d.Legible) : ∀ x ∈ ofDeclarators calls bound ds, IsName x := by
  induction ds generalizing bound with
  | nil => simp [ofDeclarators]
  | cons d ds ih =>
    obtain ⟨hd, hds⟩ := forall_mem_cons.1 hds
    intro x hx
    rcases mem_append.1 hx with hx | hx
    · exact isName_of_ofExpr? hcalls _ (fun e he => (hd.init e he).2) x hx
    · exact ih _ hds x hx

mutual

theorem isName_of_ofStmt (bound : List String) (s : Stmt) (hs : s.Legible) :
    ∀ x ∈ ofStmt calls bound s, IsName x := by
  cases s with
  | vars _ _ kind ds => exact isName_of_ofDeclarators hcalls bound hs
  | function head body => exact isName_of_ofStmts _ body hs.2
  | block _ body => exact isName_of_ofStmts _ body hs
  | expression _ e => exact isName_of_ofExpr hcalls bound e hs
  | return_ _ e => exact isName_of_ofExpr? hcalls bound hs
  | empty _ | other n => exact hs.elim

/-- What legible statements read are names. -/
theorem isName_of_ofStmts (bound : List String) (ss : List Stmt) (hss : Stmt.LegibleList ss) :
    ∀ x ∈ ofStmts calls bound ss, IsName x := by
  intro x hx
  cases ss with
  | nil => simp [ofStmts] at hx
  | cons s ss =>
    rcases mem_append.1 hx with hx | hx
    · exact isName_of_ofStmt bound s hss.1 x hx
    · exact isName_of_ofStmts _ ss hss.2 x hx

end

end FreeReads

/-! ## Lifting -/

theorem isNumber_zero : IsNumber "0" := by
  have hkind : (Lexeme.read (.ofText "0")).kind = .number := by decide
  have hreports : (Lexeme.read (.ofText "0")).reports = [] := by decide
  have htext : String.ofList ((Cursor.ofText "0").textTo (Lexeme.read (.ofText "0")).stop) = "0" :=
    by decide
  exact htext ▸ (Number.isNumber_of_read hkind hreports).1

theorem Ident.legible_ofName {x : String} (h : IsName x) : (Ident.ofName x).Legible :=
  ⟨h, rfl⟩

namespace TreeLifting

/-- The names of an entered function are names that can be read. -/
structure Entry.Legible (e : Entry) : Prop where
  name : IsName e.name
  params : ∀ x ∈ e.params, IsName x
  captured : ∀ x ∈ e.captured, IsName x

theorem latest?_mem {log : List Entry} {name : String} {e : Entry}
    (h : latest? log name = some e) : e ∈ log :=
  mem_reverse.1 (mem_of_find?_eq_some h)

section Legible

variable {log : List Entry}

theorem isName_passed (hlog : ∀ e ∈ log, e.Legible) (callee : String) (count : Nat) :
    ∀ x ∈ passed log callee count, IsName x := by
  intro x hx
  rw [passed] at hx
  cases hlatest : latest? log callee with
  | none => simp [hlatest] at hx
  | some e =>
    rw [hlatest] at hx
    exact (hlog e (latest?_mem hlatest)).captured x (mem_of_mem_drop hx)

theorem legible_arguments (hlog : ∀ e ∈ log, e.Legible) (callee : String) (count : Nat) :
    Expr.LegibleList (arguments log callee count) := by
  rw [Expr.legibleList_iff]
  intro a ha
  rw [arguments] at ha
  cases hlatest : latest? log callee with
  | none => simp [hlatest] at ha
  | some e =>
    rw [hlatest] at ha
    rcases mem_append.1 (mem_of_mem_drop ha) with ha | ha
    · obtain ⟨-, rfl⟩ := mem_replicate.1 ha
      exact ⟨Nat.le_add_left 1 2, Nat.zero_le 1, isNumber_zero, rfl⟩
    · obtain ⟨x, hx, rfl⟩ := mem_map.1 ha
      exact ⟨Nat.zero_le 3, (hlog e (latest?_mem hlatest)).captured x hx, rfl⟩

theorem rank_expr (log : List Entry) (e : Expr) : (expr log e).rank = e.rank := by
  cases e with
  | binary _ op _ a b =>
    rw [expr]
    split <;> rfl
  | _ => rfl

mutual

theorem expr_legible (hlog : ∀ e ∈ log, e.Legible) (e : Expr) (he : e.Legible) :
    (expr log e).Legible := by
  cases e with
  | ident id | number lit | string lit | boolean _ b | null _ => exact he
  | paren _ e => exact expr_legible hlog e he
  | unary _ op e => exact ⟨(rank_expr log e).trans_le he.1, expr_legible hlog e he.2⟩
  | update _ op e => exact ⟨(rank_expr log e).trans he.1, expr_legible hlog e he.2⟩
  | binary _ op _ a b =>
    obtain ⟨hop, hassign, ha, hb⟩ := he
    rw [expr]
    split
    · rename_i heq
      refine ⟨hop, fun _ => ⟨(hassign heq).1, ?_⟩, ha, expr_legible hlog b hb⟩
      exact (rank_expr log b).trans_le (hassign heq).2
    · rename_i hne
      exact ⟨hop, fun heq => absurd heq hne, expr_legible hlog a ha, expr_legible hlog b hb⟩
  | call _ isOptional f args =>
    obtain ⟨hoptional, hname, hf, hargs⟩ := he
    refine ⟨hoptional, hname, hf, ?_⟩
    obtain ⟨callee, hcallee⟩ := Option.isSome_iff_exists.1 hname
    have hmore := legible_arguments hlog callee args.length
    have hown := exprs_legible hlog args hargs
    rw [Expr.legibleList_iff] at hmore hown ⊢
    rw [hcallee]
    exact forall_mem_append.2 ⟨hown, hmore⟩
  | other n => exact he.elim

theorem exprs_legible (hlog : ∀ e ∈ log, e.Legible) (es : List Expr) (hes : Expr.LegibleList es) :
    Expr.LegibleList (exprs log es) := by
  cases es with
  | nil => trivial
  | cons e es =>
    exact ⟨⟨(rank_expr log e).trans_le hes.1.1, expr_legible hlog e hes.1.2⟩,
      exprs_legible hlog es hes.2⟩

end

theorem variables_legible (hlog : ∀ e ∈ log, e.Legible) (kind : VarKind) {ds : List Declarator}
    (hds : ∀ d ∈ ds, d.Legible) : Stmt.LegibleList (ds.map (variable_ log kind)) := by
  rw [Stmt.legibleList_iff]
  intro s hs
  obtain ⟨d, hd, rfl⟩ := mem_map.1 hs
  refine forall_mem_singleton.2 ⟨(hds d hd).target, fun e' he' => ?_⟩
  obtain ⟨e, he, rfl⟩ := Option.map_eq_some_iff.1 he'
  obtain ⟨hrank, he⟩ := (hds d hd).init e he
  exact ⟨(rank_expr log e).trans_le hrank, expr_legible hlog e he⟩

theorem Binding.isName_of_legible {b : Binding} (hb : b.Legible) {x : String}
    (hx : b.name? = some x) : IsName x := by
  obtain ⟨id, rfl, hid⟩ := hb
  obtain rfl : id.name = x := by simpa [Binding.name?] using hx
  exact hid.isName

theorem entry_legible (hlog : ∀ e ∈ log, e.Legible) {head : FunctionHead} {body : List Stmt}
    (hhead : head.Legible) (hbody : Stmt.LegibleList body) : (entry log head body).Legible where
  name := by
    obtain ⟨id, hname, hid⟩ := hhead.name
    simp only [entry, FunctionHead.name?, hname, Option.map_some, Option.getD_some]
    exact hid.isName
  params := by
    intro x hx
    obtain ⟨p, hp, hplain⟩ := mem_filterMap.1 hx
    have hp := hhead.params p hp
    simp only [Param.plainName?, hp.ellipsis, hp.init, Option.isNone_none, Bool.and_self,
      ↓reduceIte] at hplain
    exact Binding.isName_of_legible hp.target hplain
  captured := by
    intro x hx
    exact FreeReads.isName_of_ofStmts (isName_passed hlog) _ body hbody x
      (FreeNames.mem_ofFunction.1 hx)

end Legible

/-- What was lifted is legible. -/
structure Lifted.Legible (l : Lifted) : Prop where
  kept : Stmt.LegibleList l.kept
  entered : ∀ f ∈ l.entered, f.1.Legible ∧ Stmt.LegibleList f.2

theorem Lifted.Legible.log {l : Lifted} (h : l.Legible) : ∀ e ∈ l.log, e.Legible := by
  intro e he
  obtain ⟨f, hf, rfl⟩ := mem_map.1 he
  exact (h.entered f hf).1

mutual

theorem stmt_legible (nested : Bool) {log : List Entry} (hlog : ∀ e ∈ log, e.Legible) (s : Stmt)
    (hs : s.Legible) : (stmt nested log s).Legible := by
  cases s with
  | vars _ _ kind ds => exact ⟨variables_legible hlog kind hs, by simp [stmt]⟩
  | function head body =>
    obtain ⟨hhead, hbody⟩ := hs
    cases nested with
    | true =>
      have hentry := entry_legible hlog hhead hbody
      have hinner := stmts_legible true (forall_mem_append.2
        ⟨hlog, forall_mem_singleton.2 hentry⟩) body hbody
      exact ⟨trivial, forall_mem_cons.2 ⟨⟨hentry, hinner.kept⟩, hinner.entered⟩⟩
    | false =>
      have hinner := stmts_legible true hlog body hbody
      exact ⟨⟨⟨hhead, hinner.kept⟩, trivial⟩, hinner.entered⟩
  | block _ body =>
    have hinner := stmts_legible nested hlog body hs
    exact ⟨⟨hinner.kept, trivial⟩, hinner.entered⟩
  | expression _ e => exact ⟨⟨expr_legible hlog e hs, trivial⟩, by simp [stmt]⟩
  | return_ _ e =>
    refine ⟨⟨fun e' he' => ?_, trivial⟩, by simp [stmt]⟩
    obtain ⟨e, he, rfl⟩ := Option.map_eq_some_iff.1 he'
    exact expr_legible hlog e (hs e he)
  | empty _ | other n => exact hs.elim

theorem stmts_legible (nested : Bool) {log : List Entry} (hlog : ∀ e ∈ log, e.Legible)
    (ss : List Stmt) (hss : Stmt.LegibleList ss) : (stmts nested log ss).Legible := by
  cases ss with
  | nil => exact ⟨trivial, by simp [stmts]⟩
  | cons s ss =>
    have hfirst := stmt_legible nested hlog s hss.1
    have hrest := stmts_legible nested (forall_mem_append.2 ⟨hlog, hfirst.log⟩) ss hss.2
    refine ⟨?_, forall_mem_append.2 ⟨hfirst.entered, hrest.entered⟩⟩
    have hkept := hfirst.kept
    have hmore := hrest.kept
    rw [Stmt.legibleList_iff] at hkept hmore ⊢
    exact forall_mem_append.2 ⟨hkept, hmore⟩

end

theorem mem_of_mem_lastOfEach {entered : List (Entry × List Stmt)} {f : Entry × List Stmt}
    (h : f ∈ lastOfEach entered) : f ∈ entered := by
  obtain ⟨x, -, hfind⟩ := mem_filterMap.1 h
  exact mem_reverse.1 (mem_of_find?_eq_some hfind)

theorem declaration_legible {f : Entry × List Stmt} (hf : f.1.Legible)
    (hbody : Stmt.LegibleList f.2) : (declaration f).Legible := by
  refine ⟨⟨rfl, rfl, ⟨_, rfl, Ident.legible_ofName hf.name⟩, fun p hp => ?_⟩, hbody⟩
  obtain ⟨x, hx, rfl⟩ := mem_map.1 hp
  have hname : IsName x := (mem_append.1 hx).elim (hf.params x) (hf.captured x)
  exact ⟨rfl, ⟨_, rfl, Ident.legible_ofName hname⟩, rfl⟩

/-- The lifted program of a legible program is legible. -/
theorem program_legible {statements : List Stmt} (h : Stmt.LegibleList statements) :
    Stmt.LegibleList (program statements) := by
  have hlifted := stmts_legible false (forall_mem_nil _) statements h
  have hkept := hlifted.kept
  rw [Stmt.legibleList_iff] at hkept ⊢
  refine forall_mem_append.2 ⟨hkept, fun s hs => ?_⟩
  obtain ⟨f, hf, rfl⟩ := mem_map.1 hs
  obtain ⟨hentry, hbody⟩ := hlifted.entered f (mem_of_mem_lastOfEach hf)
  exact declaration_legible hentry hbody

end TreeLifting

end LambdaLift
