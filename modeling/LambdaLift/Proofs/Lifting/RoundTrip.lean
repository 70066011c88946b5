import LambdaLift.Proofs.Grammar.Clean
import LambdaLift.Proofs.Grammar.Legible
import LambdaLift.Proofs.Lifting.Acceptance
import LambdaLift.Proofs.Lifting.Legible

/-!
# Reading lifted programs back

The text of a lifted program is read as the tree that `TreeLifting.program` gives, up to positions,
or is found to nest too deep.

* `Parsed.ofText_programText`: the text of printable code is read as the trees of the code.
* `Lifting.exists_code`: a text without a fault is lifted to the text of printable code whose trees
  are those of `TreeLifting.program`.
* `Lifting.reparsed_lifted_text`: both together.
-/

namespace LambdaLift

namespace Parsed

/-- The one thing wrong with the text is that it nests too deep. -/
def NestsTooDeep (p : Parsed) : Prop :=
  ∃ span, p.reports = [(Report.ofFault span (.tooDeep Grammar.nestingLimit)).inFile p.file]

/-- The text of printable code is read as the trees of the code, if these take no more levels of
nesting than there are, and nests too deep otherwise. -/
theorem nesting_programText {layout : Layout} (hlayout : layout.IsBlank) {code : List Code.Stmt}
    (hcode : Code.Stmt.PrintableList code) (file : String) :
    (ofText file (Code.programText layout code)).NestsTooDeep ∧
        Grammar.nestingLimit < Stmt.nestingOfList (Code.Stmt.trees code) ∨
      ((ofText file (Code.programText layout code)).reports = [] ∧
          (ofText file (Code.programText layout code)).program.statements.map Stmt.unplaced =
            Code.Stmt.trees code) ∧
        Stmt.nestingOfList (Code.Stmt.trees code) ≤ Grammar.nestingLimit := by
  obtain ⟨statements, s, hrun, ⟨htrees, hreports, hlexer, hroom⟩ | ⟨haborted, hdeep⟩⟩ :=
    Grammar.run?_programText hlayout hcode
  · refine .inr ⟨?_, hroom⟩
    rw [ofText_of_run? hrun, reports_eq_nil, hlexer, hreports]
    exact ⟨rfl, htrees⟩
  · refine .inl ⟨?_, hdeep⟩
    obtain ⟨span, hreports⟩ := haborted.reports
    rw [ofText_of_run? hrun]
    refine ⟨span, ?_⟩
    rw [ofRun, haborted.lexerReports, hreports]
    exact List.mergeSort_singleton _

/-- The text of printable code is read as the trees of the code, or nests too deep. -/
theorem ofText_programText {layout : Layout} (hlayout : layout.IsBlank) {code : List Code.Stmt}
    (hcode : Code.Stmt.PrintableList code) (file : String) :
    (ofText file (Code.programText layout code)).NestsTooDeep ∨
      (ofText file (Code.programText layout code)).reports = [] ∧
        (ofText file (Code.programText layout code)).program.statements.map Stmt.unplaced =
          Code.Stmt.trees code :=
  (nesting_programText hlayout hcode file).imp And.left And.left

/-- The statements of a text without a fault in which no name is written with an escape are
legible, if they can be lifted. -/
theorem legible {file text : String} (hclean : (ofText file text).reports = [])
    (hnames : PlainNames (Lexer.ofText text).skipShebang)
    (hsup : Stmt.SupportedList (ofText file text).program.statements) :
    Stmt.LegibleList (ofText file text).program.statements := by
  cases hrun : Grammar.run? text with
  | none =>
    rw [ofText, hrun]
    trivial
  | some result =>
    obtain ⟨statements, s⟩ := result
    rw [ofText_of_run? hrun] at hclean hsup ⊢
    exact Grammar.legible_of_run? hnames hrun (reports_eq_nil.1 hclean) hsup

end Parsed

namespace Lifting

/-- A text without a fault is lifted to the text of printable code. -/
theorem exists_code {file text out : String} {layout : Layout} {r : Functions}
    (hclean : (Parsed.ofText file text).reports = [])
    (hnames : PlainNames (Lexer.ofText text).skipShebang)
    (hout : (Lifting.text layout (Parsed.ofText file text).program r).1 = .ok out) :
    ∃ code, out = Code.programText layout code ∧ Code.Stmt.PrintableList code ∧
      Code.Stmt.trees code =
        (TreeLifting.program (Parsed.ofText file text).program.statements).map Stmt.unplaced := by
  cases hprogram : program (Parsed.ofText file text).program r with
  | mk result r' =>
    cases result with
    | error u =>
      simp [Lifting.text, hprogram, Except.map] at hout
    | ok code =>
      have htext : out = Code.programText layout code := by
        simpa [Lifting.text, hprogram, Except.map] using hout.symm
      have hlegible := TreeLifting.program_legible
        (Parsed.legible hclean hnames (program_supported hprogram))
      have htrees : Code.Stmt.trees code =
          (TreeLifting.program (Parsed.ofText file text).program.statements).map Stmt.unplaced := by
        rw [program_tree hprogram]
        exact List.map_congr_left fun s hs =>
          Stmt.respelled_eq_unplaced s (Stmt.legibleList_iff.1 hlegible s hs)
      refine ⟨code, htext, Code.Stmt.printableList_of_legible code ?_, htrees⟩
      have hunplaced := Stmt.LegibleList.unplaced _ hlegible
      rwa [Stmt.clearList_eq_map, ← show Stmt.unplaced = Stmt.clear .unplaced from rfl,
        ← htrees] at hunplaced

/-- **Lifted programs are read back.** Take a text without a fault in which no name is written with
an escape, lift it, and write it with a layout of blanks. Reading what was written finds that it
nests too deep and nothing else, or finds nothing wrong and gives, up to positions, the tree that
lifting from tree to tree gives. -/
theorem reparsed_lifted_text {file text out : String} {layout : Layout} {r : Functions}
    (hclean : (Parsed.ofText file text).reports = [])
    (hnames : PlainNames (Lexer.ofText text).skipShebang) (hlayout : layout.IsBlank)
    (hout : (Lifting.text layout (Parsed.ofText file text).program r).1 = .ok out)
    (file' : String) :
    (Parsed.ofText file' out).NestsTooDeep ∨
      (Parsed.ofText file' out).reports = [] ∧
        (Parsed.ofText file' out).program.statements.map Stmt.unplaced =
          (TreeLifting.program (Parsed.ofText file text).program.statements).map Stmt.unplaced := by
  obtain ⟨code, rfl, hcode, htrees⟩ := exists_code hclean hnames hout
  rw [← htrees]
  exact Parsed.ofText_programText hlayout hcode file'

/-- A function in a function that reads a variable of it. -/
def captureText : String :=
  "function f(a)\x7bvar b,c=- -a;function g(d)\x7breturn c*d\x7dg(b)\x7d"

/-- What it is lifted to, without indentation and ends of lines. -/
def captureLifted : String :=
  "function f(a) \x7bvar b;var c = - -a;g(b, c);\x7dfunction g(d, c) \x7breturn (c) * (d);\x7d"

theorem reparsed_lifted_text_capture :
    (Parsed.ofText "a" captureText).reports = [] ∧
      PlainNames (Lexer.ofText captureText).skipShebang ∧
      (Lifting.text ⟨"", "", false⟩ (Parsed.ofText "a" captureText).program {}).1 =
        .ok captureLifted ∧
      (Parsed.ofText "b" captureLifted).reports = [] ∧
      (Parsed.ofText "b" captureLifted).program.statements.map Stmt.unplaced =
        (TreeLifting.program (Parsed.ofText "a" captureText).program.statements).map
          Stmt.unplaced := by
  have hclean : (Parsed.ofText "a" captureText).reports = [] := by decide +kernel
  have hnames : PlainNames (Lexer.ofText captureText).skipShebang :=
    .of_end 31 (by decide +kernel) (by decide +kernel)
  have hout : (Lifting.text ⟨"", "", false⟩ (Parsed.ofText "a" captureText).program {}).1 =
      .ok captureLifted :=
    ok_of_toOption (by decide +kernel)
  have hreparsed : (Parsed.ofText "b" captureLifted).reports = [] := by decide +kernel
  refine ⟨hclean, hnames, hout, ?_⟩
  refine (reparsed_lifted_text hclean hnames ⟨by simp, by simp⟩ hout "b").resolve_left ?_
  rintro ⟨span, hspan⟩
  rw [hreparsed] at hspan
  cases hspan

end Lifting

end LambdaLift
