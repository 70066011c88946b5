import LambdaLift.Proofs.Grammar.Placement
import LambdaLift.Transform.Basic

/-!
# Faults of a text

The grammar reads on after a mistake and puts something in place of what is missing. A caller that
sees no report has to rely on the tree, so nothing may be put there in silence.

* `Node.isStandIn`: the node was put in place of something that the text lacks.
* `faults_are_reported`: a tree with such a node, and a text with a faulty token, come with an error,
  and the text is not transformed.
-/

namespace LambdaLift

/-- A node of this kind may be without a width: an element that is left out, the end of the text,
and the whole of an empty text. -/
def Kind.mayBeEmpty (kind : Kind) : Bool :=
  kind = .node .omittedExpression || kind = .token .endOfFile || kind = .node .sourceFile

/-- The node was put in place of something that the text lacks: it is marked so, it is a name or a
literal without a character, or it has no width and is not of a kind that may do without one. -/
def Node.isStandIn (n : Node) : Bool :=
  n.marks.isMissing || n.detail.isBlank ||
    (!n.kind.mayBeEmpty && n.range.stop ≤ n.range.start)

theorem Node.Fits.isStandIn {text : String} {n : Node} (h : n.Fits text) : n.isStandIn = false := by
  have hwidth : n.kind.mayBeEmpty = false → n.range.start < n.range.stop := by
    intro hkind
    simp only [Kind.mayBeEmpty, Bool.or_eq_false_iff, decide_eq_false_iff_not] at hkind
    obtain ⟨⟨homitted, hend⟩, hfile⟩ := hkind
    exact h.lt homitted hend fun heq => absurd heq hfile
  cases hkind : n.kind.mayBeEmpty with
  | true => simp [Node.isStandIn, h.marks, h.detail, hkind]
  | false => simp [Node.isStandIn, h.marks, h.detail, hkind, hwidth hkind]

/-- A text with an error is not transformed. -/
theorem transformText_of_hasErrors {file text : String}
    (h : (Parsed.ofText file text).hasErrors = true) :
    ∃ lines, lines ≠ [] ∧ transformText file text = .error (.parseFailure file lines) := by
  refine ⟨_, ?_, if_pos h⟩
  intro hnil
  rw [(Parsed.hasErrors_eq_false_iff file text).2 (List.map_eq_nil_iff.1 hnil)] at h
  cases h

namespace Grammar

theorem isStandIn_of_reports {file text : String} (h : (Parsed.ofText file text).reports = []) :
    ∀ n ∈ (Parsed.ofText file text).program.node.parts, n.isStandIn = false := by
  obtain ⟨statements, s, hrun, -, hclean⟩ := exists_run h
  rw [Parsed.ofText_of_run? hrun]
  exact fun n hn => (Program.fits_node (reading_statements hclean) n hn).isStandIn

theorem isFaulty_of_reports {file text : String} (h : (Parsed.ofText file text).reports = [])
    {statements : List Stmt} {s : State} (hrun : run? text = some (statements, s)) :
    ∀ k ∈ s.tokens, k.isFaulty = false := by
  rw [Parsed.ofText_of_run? hrun, Parsed.reports_eq_nil, List.append_eq_nil_iff] at h
  exact (told_of_run? hrun).tokens h.1

/-- **No silent faults.** Every text is read to its end. If nothing is reported, then no node of the
tree stands in for something that is missing, and no token that was read has a fault. If there is
such a node or token, then there is an error, and the text is not transformed. -/
theorem faults_are_reported (file text : String) :
    ∃ s, run? text = some ((Parsed.ofText file text).program.statements, s) ∧
      ((Parsed.ofText file text).reports = [] →
        (∀ n ∈ (Parsed.ofText file text).program.node.parts, n.isStandIn = false) ∧
          ∀ k ∈ s.tokens, k.isFaulty = false) ∧
      ((∃ n ∈ (Parsed.ofText file text).program.node.parts, n.isStandIn = true) ∨
          (∃ k ∈ s.tokens, k.isFaulty = true) →
        (Parsed.ofText file text).hasErrors = true ∧
          ∃ lines, lines ≠ [] ∧ transformText file text = .error (.parseFailure file lines)) := by
  obtain ⟨statements, s, hrun⟩ := program_ends (Nat.le_refl (recursionBound text))
  have hstatements : (Parsed.ofText file text).program.statements = statements := by
    rw [Parsed.ofText_of_run? hrun]
    rfl
  refine ⟨s, hstatements ▸ hrun, fun h => ⟨isStandIn_of_reports h, isFaulty_of_reports h hrun⟩, ?_⟩
  intro hfault
  have herrors : (Parsed.ofText file text).hasErrors = true := by
    by_contra hno
    have hreports := (Parsed.hasErrors_eq_false_iff file text).1 (Bool.eq_false_iff.2 hno)
    rcases hfault with ⟨n, hn, hstandIn⟩ | ⟨k, hk, hfaulty⟩
    · exact absurd (isStandIn_of_reports hreports n hn) (by simp [hstandIn])
    · exact absurd (isFaulty_of_reports hreports hrun k hk) (by simp [hfaulty])
  exact ⟨herrors, transformText_of_hasErrors herrors⟩

/-- A template that ends after its substitution is read without a fault, and one that does not is an
error. -/
theorem open_template_is_reported :
    (Parsed.ofText "a.js" "f(`$\x7bx\x7d`);").reports = [] ∧
      (∀ n ∈ (Parsed.ofText "a.js" "f(`$\x7bx\x7d`);").program.node.parts, n.isStandIn = false) ∧
      (∃ n ∈ (Parsed.ofText "a.js" "f(`$\x7bx").program.node.parts, n.isStandIn = true) ∧
      (Parsed.ofText "a.js" "f(`$\x7bx").hasErrors = true ∧
      ∃ lines, lines ≠ [] ∧ transformText "a.js" "f(`$\x7bx" = .error (.parseFailure "a.js" lines) := by
  have hclean : (Parsed.ofText "a.js" "f(`$\x7bx\x7d`);").reports = [] :=
    List.isEmpty_iff.1 (by decide +kernel)
  have hopen : ∃ n ∈ (Parsed.ofText "a.js" "f(`$\x7bx").program.node.parts, n.isStandIn = true := by
    decide +kernel
  obtain ⟨s, -, hwhole, -⟩ := faults_are_reported "a.js" "f(`$\x7bx\x7d`);"
  obtain ⟨t, -, -, hfault⟩ := faults_are_reported "a.js" "f(`$\x7bx"
  exact ⟨hclean, (hwhole hclean).1, hopen, hfault (.inl hopen)⟩

end Grammar

end LambdaLift
