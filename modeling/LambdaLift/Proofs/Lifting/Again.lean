import LambdaLift.Proofs.Lifting.Acceptance
import LambdaLift.Proofs.Lifting.RoundTrip
import LambdaLift.Transform.Basic

/-!
# Transforming a text again

What a transformation writes is a program of the kind that it takes: names, values, operators and
calls, and functions with plain parameters. What can keep it from being transformed again is only
how deep it nests. Operands are written in parentheses, so a chain of operators, which is read in a
loop and nests no deeper for being long, takes a level for each operator once it is lifted.

* `Code.Stmt.supported_trees`: the trees of printable code are supported.
* `again_cases`: a lifted text is read and lifted once more, or it nests too deep.
* `transformed_again_iff`: which of the two is said by the nesting of the lifted tree.
-/

namespace LambdaLift

open Parsed Stmt

/-! ## What can be lifted does not depend on positions -/

mutual

theorem Expr.supported_unplaced (e : Expr) : e.unplaced.Supported ↔ e.Supported := by
  cases e with
  | ident _ | number _ | string _ | boolean _ _ | null _ | other _ => rfl
  | paren _ e | unary _ _ e | update _ _ e => exact Expr.supported_unplaced e
  | binary _ op _ a b =>
    have ha := Expr.supported_unplaced a
    have hb := Expr.supported_unplaced b
    have hname := congrArg Option.isSome a.name?_unplaced
    simp only [Expr.unplaced] at ha hb hname
    simp only [Expr.unplaced, Expr.clear, Expr.Supported, ha, hb, hname]
  | call _ isOptional f args =>
    have hname := congrArg Option.isSome f.name?_unplaced
    simp only [Expr.unplaced] at hname
    simp only [Expr.unplaced, Expr.clear, Expr.Supported, hname, Expr.supportedList_unplaced args]

theorem Expr.supportedList_unplaced (es : List Expr) :
    Expr.SupportedList (Expr.clearList .unplaced es) ↔ Expr.SupportedList es := by
  cases es with
  | nil => rfl
  | cons e es =>
    exact and_congr (Expr.supported_unplaced e) (Expr.supportedList_unplaced es)

end

theorem Expr.supported?_unplaced (e : Option Expr) :
    (∀ e' ∈ e.map (Expr.clear .unplaced), e'.Supported) ↔ ∀ e' ∈ e, e'.Supported := by
  cases e with
  | none => simp
  | some e =>
    simp only [Option.map_some, Option.mem_some, forall_eq']
    exact e.supported_unplaced

theorem Binding.name?_unplaced (b : Binding) : (b.clear .unplaced).name? = b.name? := by
  cases b <;> rfl

theorem Declarator.supported_unplaced (d : Declarator) :
    (d.clear .unplaced).Supported ↔ d.Supported := by
  simp only [Declarator.Supported, Declarator.clear, d.target.name?_unplaced,
    Expr.supported?_unplaced]

theorem Param.plainName?_unplaced (p : Param) : (p.clear .unplaced).plainName? = p.plainName? := by
  obtain ⟨range, ellipsis, target, init⟩ := p
  cases ellipsis <;> cases target <;> cases init <;> rfl

theorem FunctionHead.supported_unplaced (h : FunctionHead) :
    (h.clear .unplaced).Supported ↔ h.Supported := by
  have hname : (h.clear .unplaced).name? = h.name? := by
    simp only [FunctionHead.name?, FunctionHead.clear, Option.map_map]
    rfl
  have hparams : (∀ p ∈ (h.clear .unplaced).params, p.plainName?.isSome) ↔
      ∀ p ∈ h.params, p.plainName?.isSome := by
    simp [FunctionHead.clear, Param.plainName?_unplaced]
  constructor
  · rintro ⟨hasync, hgen, hn, hps⟩
    exact ⟨hasync, hgen, hname ▸ hn, hparams.1 hps⟩
  · rintro ⟨hasync, hgen, hn, hps⟩
    exact ⟨hasync, hgen, hname.symm ▸ hn, hparams.2 hps⟩

mutual

theorem Stmt.supported_unplaced (s : Stmt) : s.unplaced.Supported ↔ s.Supported := by
  cases s with
  | vars _ _ _ ds => simp [unplaced, clear, Supported, Declarator.supported_unplaced]
  | function head body =>
    exact and_congr head.supported_unplaced (supportedList_unplaced body)
  | block _ body => exact supportedList_unplaced body
  | expression _ e => exact e.supported_unplaced
  | return_ _ e => exact Expr.supported?_unplaced e
  | empty _ | other _ => rfl

theorem Stmt.supportedList_unplaced (ss : List Stmt) :
    SupportedList (clearList .unplaced ss) ↔ SupportedList ss := by
  cases ss with
  | nil => rfl
  | cons s ss => exact and_congr s.supported_unplaced (supportedList_unplaced ss)

end

/-! ## Lifted code -/

namespace Code

mutual

theorem Expr.supported_tree (e : Code.Expr) (h : e.Printable) : e.tree.Supported := by
  cases e with
  | name _ | number _ | string _ | boolean _ | null => trivial
  | paren e => exact Expr.supported_tree e h
  | unary op e | update op e => exact Expr.supported_tree e h.2
  | binary op a b =>
    obtain ⟨hop, hassign, ha, hb⟩ := h
    refine ⟨hop, ?_, Expr.supported_tree b hb⟩
    rw [if_neg hassign]
    exact Expr.supported_tree a ha
  | assign x e => exact ⟨rfl, rfl, Expr.supported_tree e h.2.2⟩
  | call f args => exact ⟨rfl, rfl, Expr.supported_trees args h.2⟩

theorem Expr.supported_trees (es : List Code.Expr) (h : Expr.PrintableList es) :
    LambdaLift.Expr.SupportedList (Expr.trees es) := by
  cases es with
  | nil => trivial
  | cons e es => exact ⟨Expr.supported_tree e h.1.2, Expr.supported_trees es h.2⟩

end

theorem Expr.supported_tree? (e : Option Code.Expr) (h : ∀ e' ∈ e, e'.Printable) :
    ∀ t ∈ e.map Expr.tree, t.Supported := by
  intro t ht
  obtain ⟨e', he', rfl⟩ := Option.map_eq_some_iff.1 ht
  exact e'.supported_tree (h e' he')

theorem supported_ofNames {name : String} (hname : IsName name) (params : List String) :
    (FunctionHead.ofNames name params).Supported where
  isAsync := rfl
  isGenerator := rfl
  name := by
    refine ⟨name, rfl, ?_⟩
    rintro rfl
    obtain ⟨c, hc, -⟩ := hname.start
    simp at hc
  params p hp := by
    obtain ⟨x, -, rfl⟩ := List.mem_map.1 hp
    rfl

mutual

theorem Stmt.supported_tree (s : Code.Stmt) (h : s.Printable) : s.tree.Supported := by
  cases s with
  | variable_ kind x init =>
    intro d hd
    obtain rfl := List.mem_singleton.1 hd
    exact ⟨rfl, Expr.supported_tree? init fun e he => (h.2 e he).2⟩
  | function name params body =>
    exact ⟨supported_ofNames h.1 params, supported_trees body h.2.2⟩
  | block body => exact supported_trees body h
  | expression e => exact Expr.supported_tree e h
  | return_ e => exact Expr.supported_tree? e h

/-- The trees of printable code can be lifted. -/
theorem Stmt.supported_trees (ss : List Code.Stmt) (h : PrintableList ss) :
    LambdaLift.Stmt.SupportedList (trees ss) := by
  cases ss with
  | nil => trivial
  | cons s ss => exact ⟨supported_tree s h.1, supported_trees ss h.2⟩

end

end Code

/-! ## Once more -/

/-- A text is transformed if nothing is wrong with it and it can be lifted. -/
theorem transformText_eq_ok_iff {file text out : String} :
    transformText file text = .ok out ↔ (ofText file text).reports = [] ∧
      (Lifting.text {} (ofText file text).program {}).1 = .ok out := by
  rw [← hasErrors_eq_false_iff, transformText]
  cases hasErrors : (ofText file text).hasErrors with
  | true => simp
  | false =>
    cases (Lifting.text {} (ofText file text).program {}).1 <;> simp [Except.mapError]

/-- A text that nests too deep is not transformed, and the failure says so. -/
theorem transformText_of_nestsTooDeep {file text : String}
    (h : (ofText file text).NestsTooDeep) :
    ∃ span, transformText file text = .error (.parseFailure file
      [((Report.ofFault span (.tooDeep Grammar.nestingLimit)).inFile file).render
        (LineMap.ofText text)]) := by
  obtain ⟨span, hreports⟩ := h
  obtain ⟨statements, s, hrun⟩ :=
    Grammar.program_ends (Nat.le_refl (Grammar.recursionBound text))
  have hfile : (ofText file text).file = file := by
    rw [ofText_of_run? hrun]
    rfl
  have herrors : (ofText file text).hasErrors = true := by
    rw [Parsed.hasErrors, hreports]
    rfl
  refine ⟨span, (if_pos herrors).trans ?_⟩
  rw [hreports, hfile]
  rfl

/-- Lines are indented with blanks. -/
theorem Layout.isBlank_default : Layout.IsBlank {} :=
  ⟨List.all_eq_true.1 (by decide), List.all_eq_true.1 (by decide)⟩

namespace Lifting

variable {file text out : String}

/-- The text of printable code is transformed, or it nests too deep. -/
theorem transformed_programText {code : List Code.Stmt} (hcode : Code.Stmt.PrintableList code)
    (file : String) :
    (ofText file (Code.programText {} code)).NestsTooDeep ∧
        Grammar.nestingLimit < nestingOfList (Code.Stmt.trees code) ∨
      (∃ out, transformText file (Code.programText {} code) = .ok out) ∧
        nestingOfList (Code.Stmt.trees code) ≤ Grammar.nestingLimit := by
  refine (nesting_programText Layout.isBlank_default hcode file).imp_right ?_
  rintro ⟨⟨hreports, hread⟩, hroom⟩
  have hsup :
      SupportedList (ofText file (Code.programText {} code)).program.statements := by
    rw [← supportedList_unplaced, clearList_eq_map]
    exact hread.symm ▸ Code.Stmt.supported_trees code hcode
  obtain ⟨code', r', hprogram⟩ := exists_program_ok hsup {}
  refine ⟨⟨Code.programText {} code', transformText_eq_ok_iff.2 ⟨hreports, ?_⟩⟩, hroom⟩
  simp [Lifting.text, hprogram, Except.map]

/-- What was lifted is transformed once more, or it nests too deep. -/
theorem again_cases (hout : transformText file text = .ok out)
    (hnames : PlainNames (Lexer.ofText text).skipShebang) (file' : String) :
    (ofText file' out).NestsTooDeep ∧ Grammar.nestingLimit <
        nestingOfList (TreeLifting.program (ofText file text).program.statements) ∨
      (∃ again, transformText file' out = .ok again) ∧
        nestingOfList (TreeLifting.program (ofText file text).program.statements) ≤
          Grammar.nestingLimit := by
  obtain ⟨hclean, hlifted⟩ := transformText_eq_ok_iff.1 hout
  obtain ⟨code, rfl, hcode, htrees⟩ := exists_code hclean hnames hlifted
  have hnesting : nestingOfList (Code.Stmt.trees code) =
      nestingOfList (TreeLifting.program (ofText file text).program.statements) := by
    rw [htrees, show Stmt.unplaced = clear .unplaced from rfl, ← clearList_eq_map,
      nestingOfList_clear]
  rw [← hnesting]
  exact transformed_programText hcode file'

/-- **Transforming again.** Take a text in which no name is written with an escape, and transform it.
What comes out can be transformed again exactly if its tree, which lifting from tree to tree gives,
takes no more levels of nesting than there are. Otherwise the one thing wrong with it is that it
nests too deep. -/
theorem transformed_again_iff (hout : transformText file text = .ok out)
    (hnames : PlainNames (Lexer.ofText text).skipShebang) (file' : String) :
    ((∃ again, transformText file' out = .ok again) ↔
        Stmt.nestingOfList (TreeLifting.program (Parsed.ofText file text).program.statements) ≤
          Grammar.nestingLimit) ∧
      ((¬ ∃ again, transformText file' out = .ok again) →
        ∃ span, transformText file' out = .error (.parseFailure file'
          [((Report.ofFault span (.tooDeep Grammar.nestingLimit)).inFile file').render
            (LineMap.ofText out)])) := by
  rcases again_cases hout hnames file' with ⟨hdeep, hlimit⟩ | ⟨hagain, hroom⟩
  · obtain ⟨span, herror⟩ := transformText_of_nestsTooDeep hdeep
    refine ⟨⟨?_, fun hroom => absurd hroom (Nat.not_le.2 hlimit)⟩, fun _ => ⟨span, herror⟩⟩
    rintro ⟨again, hagain⟩
    rw [herror] at hagain
    cases hagain
  · exact ⟨⟨fun _ => hroom, fun _ => hagain⟩, fun hno => absurd hagain hno⟩

/-- A function in a function that reads a parameter of it. -/
def innerText : String :=
  "function f(a)\x7bfunction g()\x7breturn a\x7dg()\x7d"

/-- What it is lifted to. -/
def innerLifted : String :=
  "function f(a) \x7b\n    g(a);\n\x7d\nfunction g(a) \x7b\n    return a;\n\x7d\n"

theorem inner_transformed_again :
    transformText "a.js" innerText = .ok innerLifted ∧
      PlainNames (Lexer.ofText innerText).skipShebang ∧
      ∃ again, transformText "b.js" innerLifted = .ok again := by
  have hout : transformText "a.js" innerText = .ok innerLifted := ok_of_toOption (by decide +kernel)
  have hnames : PlainNames (Lexer.ofText innerText).skipShebang := plainNames_of_not_mem (by decide)
  exact ⟨hout, hnames, (transformed_again_iff hout hnames "b.js").1.2 (by decide +kernel)⟩

/-! ## Sums -/

/-- A sum of `count + 1` zeros. -/
def sumOfZeros : Nat → Code.Expr
  | 0 => .number "0"
  | count + 1 => .binary .add (sumOfZeros count) (.number "0")

/-- The sum as a program. -/
def sumText (count : Nat) : String :=
  Code.programText {} [.expression (sumOfZeros count)]

theorem printable_sumOfZeros (count : Nat) : (sumOfZeros count).Printable := by
  induction count with
  | zero => exact isNumber_zero
  | succ count ih => exact ⟨rfl, by simp, ih, isNumber_zero⟩

theorem not_mem_sumText (count : Nat) : '\\' ∉ (sumText count).toList := by
  have hsum : '\\' ∉ (sumOfZeros count).text.toList := by
    induction count with
    | zero => decide
    | succ count ih =>
      simp only [sumOfZeros, Code.Expr.text, String.toList_append, List.mem_append, ih]
      decide
  rw [sumText, ← Code.spell_programPieces]
  simp only [Code.programPieces, Code.Stmt.pieces, Code.Stmt.linePieces, Piece.spell_append,
    Code.Expr.spell_pieces, List.mem_append, hsum]
  decide

/-- Each sum takes a level more than the sum within it. -/
theorem nesting_sumOfZeros (count : Nat) : (sumOfZeros count).tree.nesting = count := by
  induction count with
  | zero => rfl
  | succ count ih => simp [sumOfZeros, Code.Expr.tree, Expr.nesting, ih]

mutual

theorem nesting_expr_unplaced (log : List TreeLifting.Entry) (e : Expr) :
    (TreeLifting.expr log e.unplaced).nesting = (TreeLifting.expr log e).nesting := by
  cases e with
  | ident _ | number _ | string _ | boolean _ _ | null _ | other _ => rfl
  | paren _ e | unary _ _ e | update _ _ e =>
    have he := nesting_expr_unplaced log e
    simp only [Expr.unplaced] at he
    simp only [Expr.unplaced, Expr.clear, TreeLifting.expr, Expr.nesting, he]
  | binary _ op _ a b =>
    have ha := nesting_expr_unplaced log a
    have hb := nesting_expr_unplaced log b
    simp only [Expr.unplaced] at ha hb
    simp only [Expr.unplaced, Expr.clear, TreeLifting.expr]
    split <;> simp_all [Expr.nesting]
  | call _ isOptional f args =>
    have hname := f.name?_unplaced
    simp only [Expr.unplaced] at hname
    simp only [Expr.unplaced, Expr.clear, TreeLifting.expr, Expr.nesting, hname,
      Expr.clearList_eq_map, List.length_map]
    rw [← Expr.clearList_eq_map]
    exact nesting_exprs_unplaced log args _

theorem nesting_exprs_unplaced (log : List TreeLifting.Entry) (es more : List Expr) :
    Expr.nestingOfList (TreeLifting.exprs log (Expr.clearList .unplaced es) ++ more) =
      Expr.nestingOfList (TreeLifting.exprs log es ++ more) := by
  cases es with
  | nil => rfl
  | cons e es =>
    have he := nesting_expr_unplaced log e
    simp only [Expr.unplaced] at he
    simp only [Expr.clearList, TreeLifting.exprs, List.cons_append, Expr.nestingOfList, he,
      nesting_exprs_unplaced log es more]

end

/-- Lifted once more, it takes two. -/
theorem nesting_lifted_sum (log : List TreeLifting.Entry) (count : Nat) :
    (TreeLifting.expr log (sumOfZeros count).tree).nesting = 2 * count := by
  induction count with
  | zero => rfl
  | succ count ih =>
    have hop : BinaryOp.add ≠ .assign := by decide
    have hzero : (TreeLifting.expr log (Code.Expr.number "0").tree).nesting = 0 := rfl
    simp only [sumOfZeros, Code.Expr.tree, TreeLifting.expr, Expr.nesting, if_neg hop, ih] at hzero ⊢
    omega

/-- The tree of a sum, lifted. -/
theorem nesting_program_sum {count : Nat} {ss : List Stmt}
    (h : ss.map Stmt.unplaced = Code.Stmt.trees [.expression (sumOfZeros count)]) :
    nestingOfList (TreeLifting.program ss) = 2 * count + 2 := by
  obtain ⟨s, rfl, hs⟩ := List.map_eq_singleton_iff.1 h
  cases s with
  | expression range e =>
    obtain ⟨-, he⟩ := Stmt.expression.inj hs
    have hlifted : (TreeLifting.expr [] e).nesting = 2 * count := by
      rw [← nesting_expr_unplaced, Expr.unplaced, he, nesting_lifted_sum]
    simp only [TreeLifting.program, TreeLifting.stmts, TreeLifting.stmt, TreeLifting.lastOfEach]
    simp [nestingOfList, nesting, hlifted]
  | _ => cases hs

/-- A sum whose text takes all but a few of the levels there are is transformed, but what it is
lifted to takes nearly twice as many and is not transformed again. -/
theorem sum_not_transformed_again :
    PlainNames (Lexer.ofText (sumText 100)).skipShebang ∧
      ∃ out, transformText "a.js" (sumText 100) = .ok out ∧
        ∀ file' again, transformText file' out ≠ .ok again := by
  have hcode : Code.Stmt.PrintableList [.expression (sumOfZeros 100)] :=
    ⟨printable_sumOfZeros 100, trivial⟩
  have hnesting : Stmt.nestingOfList (Code.Stmt.trees [.expression (sumOfZeros 100)]) = 102 := by
    simp [Code.Stmt.trees, Code.Stmt.tree, Stmt.nestingOfList, Stmt.nesting, nesting_sumOfZeros]
  have hroom : ¬ Grammar.nestingLimit <
      Stmt.nestingOfList (Code.Stmt.trees [.expression (sumOfZeros 100)]) := by
    rw [hnesting]
    decide
  obtain ⟨⟨-, hread⟩, -⟩ :=
    (Parsed.nesting_programText Layout.isBlank_default hcode "a.js").resolve_left fun h => hroom h.2
  obtain ⟨⟨out, hout⟩, -⟩ := (transformed_programText hcode "a.js").resolve_left fun h => hroom h.2
  have hnames := plainNames_of_not_mem (not_mem_sumText 100)
  refine ⟨hnames, out, hout, fun file' again hagain => ?_⟩
  obtain ⟨hdeep, -⟩ | ⟨-, hlifted⟩ := again_cases hout hnames file'
  · obtain ⟨span, herror⟩ := transformText_of_nestsTooDeep hdeep
    rw [herror] at hagain
    cases hagain
  · rw [nesting_program_sum hread] at hlifted
    exact absurd hlifted (by decide)

end Lifting

end LambdaLift
