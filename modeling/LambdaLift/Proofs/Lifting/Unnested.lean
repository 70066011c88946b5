import LambdaLift.Proofs.Execution.Core
import LambdaLift.Proofs.Lifting.RoundTrip
import LambdaLift.Proofs.Scope.Declared

/-!
# Programs without nested functions

Lifting a program in which no function is declared in the body of another one changes nothing but
its parentheses and the grouping of its variables.

* `TreeLifting.coreList_program`: the lifted program has the core of the program.
* `Lifting.run_reparsed`: what is read back from the lifted text runs as the program that lifting
  from tree to tree gives.
* `Lifting.unnested_behaviour`: a program without nested functions runs as its lifted text does.
-/

namespace LambdaLift

open Stmt

namespace TreeLifting

mutual

theorem core_expr : (e : Expr) → (expr [] e).core = e.core
  | .ident _ | .number _ | .string _ | .boolean .. | .null _ | .other _ => by rw [expr]
  | .paren _ e | .unary _ _ e | .update _ _ e => by simp [expr, Expr.core, core_expr e]
  | .binary _ op _ a b => by
    by_cases hop : op = .assign
    · simp [expr, Expr.core, hop, core_expr b]
    · simp [expr, Expr.core, hop, Expr.bare, core_expr a, core_expr b]
  | .call _ _ f args => by
    have harguments : (f.name?.elim [] fun callee => arguments [] callee args.length) = [] := by
      cases f.name? <;> rfl
    simp [expr, Expr.core, harguments, core_exprs args]

theorem core_exprs : (es : List Expr) → Expr.coreList (exprs [] es) = Expr.coreList es
  | [] => rfl
  | e :: es => by simp [exprs, Expr.coreList, core_expr e, core_exprs es]

end

theorem map_core_expr (e : Option Expr) : (e.map (expr [])).map Expr.core = e.map Expr.core := by
  cases e with
  | none => rfl
  | some e => exact congrArg some (core_expr e)

theorem core_variable (kind : VarKind) (d : Declarator) :
    (variable_ [] kind d).core = [.vars noRange noRange kind [d.core]] := by
  simp only [variable_, core, List.map_cons, List.map_nil, Declarator.core, map_core_expr]

theorem coreList_variables (kind : VarKind) (ds : List Declarator) (r listRange : Range) :
    coreList (ds.map (variable_ [] kind)) = (vars r listRange kind ds).core := by
  induction ds with
  | nil => rfl
  | cons d ds ih =>
    rw [List.map_cons, coreList, core_variable, ih]
    rfl

/-- What stays has the core of what was there, and no function is entered. -/
def Lifted.Unchanged (l : Lifted) (ss : List Stmt) : Prop :=
  l.entered = [] ∧ coreList l.kept = coreList ss

mutual

theorem unchanged_stmt : (s : Stmt) → (nested : Bool) → s.Supported →
    s.nestedNames nested = [] → (stmt nested [] s).Unchanged [s]
  | .vars r listRange kind ds, _, _, _ => by
    refine ⟨rfl, ?_⟩
    rw [stmt, coreList_variables kind ds r listRange]
    simp [coreList]
  | .function head body, nested, hs, hnone => by
    obtain ⟨name, hname, -⟩ := hs.1.name
    cases nested with
    | true => simp [nestedNames, hname] at hnone
    | false =>
      obtain ⟨hentered, hkept⟩ := unchanged_stmts body true hs.2 hnone
      exact ⟨hentered, by simp [stmt, coreList, core, hkept]⟩
  | .block _ body, nested, hs, hnone => by
    obtain ⟨hentered, hkept⟩ := unchanged_stmts body nested hs hnone
    exact ⟨hentered, by simp [stmt, coreList, core, hkept]⟩
  | .expression _ e, _, _, _ => ⟨rfl, by simp [stmt, coreList, core, core_expr]⟩
  | .return_ _ e, _, _, _ =>
    ⟨rfl, by simp [stmt, coreList, core, -Option.map_map, map_core_expr]⟩

theorem unchanged_stmts : (ss : List Stmt) → (nested : Bool) → SupportedList ss →
    nestedNamesOfList nested ss = [] → (stmts nested [] ss).Unchanged ss
  | [], _, _, _ => ⟨rfl, rfl⟩
  | s :: ss, nested, hs, hnone => by
    obtain ⟨hfirst, hrest⟩ := List.append_eq_nil_iff.1 hnone
    obtain ⟨hentered, hkept⟩ := unchanged_stmt s nested hs.1 hfirst
    have hlog : (stmt nested [] s).log = [] := by rw [Lifted.log, hentered, List.map_nil]
    obtain ⟨hentered', hkept'⟩ := unchanged_stmts ss nested hs.2 hrest
    refine ⟨?_, ?_⟩
    · simp [stmts, hlog, hentered, hentered']
    · simp [stmts, hlog, coreList_append, hkept, hkept', coreList]

end

/-- Lifting keeps the core of a program without nested functions. -/
theorem coreList_program {ss : List Stmt} (hs : SupportedList ss)
    (hnone : nestedNamesOfList false ss = []) :
    coreList (program ss) = coreList ss := by
  obtain ⟨hentered, hkept⟩ := unchanged_stmts ss false hs hnone
  simp [program, hentered, lastOfEach, hkept]

end TreeLifting

namespace Lifting

/-- What is read back from the lifted text runs as the program that lifting from tree to tree
gives. -/
theorem run_reparsed {file text out : String} {layout : Layout} {r : Functions}
    (hclean : (Parsed.ofText file text).reports = [])
    (hnames : PlainNames (Lexer.ofText text).skipShebang) (hlayout : layout.IsBlank)
    (hout : (Lifting.text layout (Parsed.ofText file text).program r).1 = .ok out)
    (file' : String) :
    (Parsed.ofText file' out).NestsTooDeep ∨
      (Parsed.ofText file' out).reports = [] ∧
        ∀ limit, Execution.run limit (Parsed.ofText file' out).program =
          Execution.run limit
            ⟨0, TreeLifting.program (Parsed.ofText file text).program.statements⟩ := by
  obtain ⟨code, rfl, hcode, htrees⟩ := exists_code hclean hnames hout
  refine (Parsed.ofText_programText hlayout hcode file').imp_right ?_
  rintro ⟨hreports, hstatements⟩
  refine ⟨hreports, Execution.run_eq_of_core ?_⟩
  have hunplaced (ss : List Stmt) : coreList (ss.map unplaced) = coreList ss := by
    rw [← coreList_unplaced ss, clearList_eq_map]
    rfl
  rw [← hunplaced, hstatements, htrees, hunplaced]

/-- **Programs without nested functions keep their behaviour.** Take a text without a fault in which
no name is written with an escape and no function is declared in the body of a function, lift it,
and write it with a layout of blanks. Reading what was written finds that it nests too deep, or
finds nothing wrong and gives a program that prints the same or fails in the same way, whatever
the number of calls that may nest. -/
theorem unnested_behaviour {file text out : String} {layout : Layout} {r : Functions}
    (hclean : (Parsed.ofText file text).reports = [])
    (hnames : PlainNames (Lexer.ofText text).skipShebang)
    (hunnested : Stmt.nestedNamesOfList false (Parsed.ofText file text).program.statements = [])
    (hlayout : layout.IsBlank)
    (hout : (Lifting.text layout (Parsed.ofText file text).program r).1 = .ok out)
    (file' : String) :
    (Parsed.ofText file' out).NestsTooDeep ∨
      (Parsed.ofText file' out).reports = [] ∧
        ∀ limit, Execution.run limit (Parsed.ofText file' out).program =
          Execution.run limit (Parsed.ofText file text).program := by
  refine (run_reparsed hclean hnames hlayout hout file').imp_right ?_
  rintro ⟨hreports, hrun⟩
  refine ⟨hreports, fun limit => (hrun limit).trans ?_⟩
  exact Execution.run_eq_of_core
    (TreeLifting.coreList_program (supported_of_text hout) hunnested) limit

/-- A function whose variables have the names of others, and a variable that is read too early. -/
def shadowText : String :=
  "var a=1,b=a+2;function f(a)\x7blet c=a*b;return c\x7dprint(f(b),a);d=c;let c"

/-- What it is lifted to, without indentation and ends of lines. -/
def shadowLifted : String :=
  "var a = 1;var b = (a) + (2);function f(a) \x7blet c = (a) * (b);return c;\x7d" ++
    "print(f(b), a);d = c;let c;"

theorem unnested_behaviour_shadow :
    (Parsed.ofText "a" shadowText).reports = [] ∧
      PlainNames (Lexer.ofText shadowText).skipShebang ∧
      Stmt.nestedNamesOfList false (Parsed.ofText "a" shadowText).program.statements = [] ∧
      (Lifting.text ⟨"", "", false⟩ (Parsed.ofText "a" shadowText).program {}).1 =
        .ok shadowLifted ∧
      (Parsed.ofText "b" shadowLifted).reports = [] ∧
      Execution.run 1 (Parsed.ofText "b" shadowLifted).program =
        Execution.run 1 (Parsed.ofText "a" shadowText).program := by
  have hclean : (Parsed.ofText "a" shadowText).reports = [] := by decide +kernel
  have hnames : PlainNames (Lexer.ofText shadowText).skipShebang :=
    .of_end 50 (by decide +kernel) (by decide +kernel)
  have hunnested :
      Stmt.nestedNamesOfList false (Parsed.ofText "a" shadowText).program.statements = [] := by
    decide +kernel
  have hout : (Lifting.text ⟨"", "", false⟩ (Parsed.ofText "a" shadowText).program {}).1 =
      .ok shadowLifted :=
    ok_of_toOption (by decide +kernel)
  have hreparsed : (Parsed.ofText "b" shadowLifted).reports = [] := by decide +kernel
  refine ⟨hclean, hnames, hunnested, hout, hreparsed, ?_⟩
  obtain ⟨span, hspan⟩ | ⟨-, hrun⟩ :=
    unnested_behaviour hclean hnames hunnested ⟨by simp, by simp⟩ hout "b"
  · rw [hreparsed] at hspan
    cases hspan
  · exact hrun 1

end Lifting

end LambdaLift
