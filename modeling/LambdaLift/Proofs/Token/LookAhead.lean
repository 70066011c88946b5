import LambdaLift.Token.Lexer

/-!
# Looking ahead leaves no trace

A mark holds the number of reports made up to it and not the reports, so going back to it is right
only because whatever a lexer does adds reports at the end.

* `Lexer.Session`: a lexer in use, with the marks that were made and not gone back to yet.
* `Session.run?`: what comes of a list of acts. It is `none` if a token is read again that cannot
  be, or if there is no mark to go back to.
* `Session.Nests`: the marks of a session lie within each other, each with the reports made up to
  it.
* `lookAhead_leaves_no_trace`: after any acts between a mark and the way back to it, everything is
  as it was at the mark.
-/

namespace LambdaLift

namespace Lexer

theorem reports_prefix_scan (l : Lexer) : l.reports <+: l.scan.reports := by
  rw [scan, List.append_assoc]
  exact List.prefix_append ..

theorem reports_prefix_reread (l : Lexer) (x : Lexeme) : l.reports <+: (l.reread x).reports :=
  List.prefix_append ..

/-- As long as reports are only added, a mark leads back to where it was made. -/
theorem restore_mark {l m : Lexer} (h : l.reports <+: m.reports) : m.restore l.mark = l := by
  have hreports : m.reports.take l.reports.length = l.reports :=
    (List.prefix_iff_eq_take.1 h).symm
  simp only [restore, mark, hreports]

/-! ## Acts -/

/-- What can be done with a lexer. -/
inductive Act
  | scan
  | rescanSlash
  | rescanTemplate
  /-- Marks the current token. -/
  | save
  /-- Goes back to the last mark. -/
  | goBack
deriving DecidableEq

/-- A lexer in use, and the marks to go back to, the last one first. -/
structure Session where
  lexer : Lexer
  marks : List Mark

namespace Session

/-- What comes of an act. Only a slash and a closing brace can be read again, and there must be a
mark to go back to. -/
def act? (s : Session) : Act → Option Session
  | .scan => some { s with lexer := s.lexer.scan }
  | .rescanSlash =>
    if s.lexer.kind = .punctuator .slash ∨ s.lexer.kind = .punctuator .slashEqual then
      some { s with lexer := s.lexer.rescanSlash }
    else none
  | .rescanTemplate =>
    if s.lexer.kind = .punctuator .closeBrace then
      some { s with lexer := s.lexer.rescanTemplate }
    else none
  | .save => some { s with marks := s.lexer.mark :: s.marks }
  | .goBack =>
    match s.marks with
    | [] => none
    | m :: marks => some ⟨s.lexer.restore m, marks⟩

/-- What comes of acts, one after another. -/
def run? (s : Session) (acts : List Act) : Option Session :=
  acts.foldlM act? s

/-- Acts between a mark and the way back to it. -/
def lookAhead (acts : List Act) : List Act :=
  .save :: acts ++ [.goBack]

variable {s t : Session} {a : Act} {acts : List Act}

theorem run?_cons : s.run? (a :: acts) = (s.act? a).bind (·.run? acts) :=
  List.foldlM_cons

theorem run?_append (more : List Act) : s.run? (acts ++ more) = (s.run? acts).bind (·.run? more) :=
  List.foldlM_append

/-- The ways in which an act changes a session. -/
theorem act?_cases (h : s.act? a = some t) :
    s.lexer.reports <+: t.lexer.reports ∧ t.marks = s.marks ∨
    t.lexer = s.lexer ∧ t.marks = s.lexer.mark :: s.marks ∨
    ∃ m, s.marks = m :: t.marks ∧ t.lexer = s.lexer.restore m := by
  cases a with
  | scan =>
    cases h
    exact .inl ⟨reports_prefix_scan _, rfl⟩
  | rescanSlash | rescanTemplate =>
    obtain ⟨-, h⟩ := Option.ite_none_right_eq_some.1 h
    cases h
    exact .inl ⟨reports_prefix_reread .., rfl⟩
  | save =>
    cases h
    exact .inr (.inl ⟨rfl, rfl⟩)
  | goBack =>
    simp only [act?] at h
    split at h
    · cases h
    · rename_i m marks hmarks
      cases h
      exact .inr (.inr ⟨m, hmarks, rfl⟩)

/-! ## Marks made outside -/

/-- Acts that go back to marks of their own do not see the marks made before them. -/
theorem act?_outside (outside : List Mark) (h : s.act? a = some t) :
    (⟨s.lexer, s.marks ++ outside⟩ : Session).act? a = some ⟨t.lexer, t.marks ++ outside⟩ := by
  cases a with
  | scan | save =>
    cases h
    rfl
  | rescanSlash | rescanTemplate =>
    obtain ⟨hkind, h⟩ := Option.ite_none_right_eq_some.1 h
    cases h
    exact if_pos hkind
  | goBack =>
    simp only [act?] at h
    split at h
    · cases h
    · rename_i m marks hmarks
      cases h
      simp [act?, hmarks]

theorem run?_outside (outside : List Mark) (h : s.run? acts = some t) :
    (⟨s.lexer, s.marks ++ outside⟩ : Session).run? acts = some ⟨t.lexer, t.marks ++ outside⟩ := by
  induction acts generalizing s with
  | nil =>
    cases h
    rfl
  | cons a acts ih =>
    rw [run?_cons] at h ⊢
    obtain ⟨s₁, hact, hrun⟩ := Option.bind_eq_some_iff.1 h
    rw [act?_outside outside hact]
    exact ih hrun

/-! ## Marks within each other -/

/-- Up to each mark the reports were those of the mark before it, with more added at the end, and
since the last mark they have become `reports`. Before the first mark they were `base`. -/
inductive Nests (base : List Report) : (reports : List Report) → (marks : List Mark) → Prop
  | nil {reports : List Report} (h : base <+: reports) : Nests base reports []
  | cons {reports : List Report} {l : Lexer} {marks : List Mark} (h : l.reports <+: reports)
      (outer : Nests base l.reports marks) : Nests base reports (l.mark :: marks)

variable {base reports reports' : List Report} {marks : List Mark}

theorem Nests.added (h : Nests base reports marks) (hadded : reports <+: reports') :
    Nests base reports' marks := by
  cases h with
  | nil h => exact .nil (h.trans hadded)
  | cons h outer => exact .cons (h.trans hadded) outer

/-- An act keeps the marks within each other. -/
theorem Nests.act? (hs : Nests base s.lexer.reports s.marks) (h : s.act? a = some t) :
    Nests base t.lexer.reports t.marks := by
  obtain ⟨hadded, hmarks⟩ | ⟨hlexer, hmarks⟩ | ⟨m, hmarks, hlexer⟩ := act?_cases h
  · rw [hmarks]
    exact hs.added hadded
  · rw [hmarks, hlexer]
    exact .cons List.prefix_rfl hs
  · rw [hmarks] at hs
    cases hs with
    | cons hadded outer =>
      rw [hlexer, restore_mark hadded]
      exact outer

theorem Nests.run? (hs : Nests base s.lexer.reports s.marks) (h : s.run? acts = some t) :
    Nests base t.lexer.reports t.marks := by
  induction acts generalizing s with
  | nil =>
    cases h
    exact hs
  | cons a acts ih =>
    rw [run?_cons] at h
    obtain ⟨s₁, hact, hrun⟩ := Option.bind_eq_some_iff.1 h
    exact ih (hs.act? hact) hrun

/-- Acts that leave no mark of their own have only added reports. -/
theorem reports_prefix_run? {l m : Lexer} (h : (⟨l, []⟩ : Session).run? acts = some ⟨m, []⟩) :
    l.reports <+: m.reports := by
  have hstart : Nests l.reports l.reports [] := .nil List.prefix_rfl
  cases Nests.run? (s := ⟨l, []⟩) hstart h with
  | nil h => exact h

theorem run?_lookAhead {l m : Lexer} (h : (⟨l, []⟩ : Session).run? acts = some ⟨m, []⟩)
    (marks : List Mark) : (⟨l, marks⟩ : Session).run? (lookAhead acts) = some ⟨l, marks⟩ := by
  have hinside : (⟨l, l.mark :: marks⟩ : Session).run? acts = some ⟨m, l.mark :: marks⟩ :=
    run?_outside (l.mark :: marks) h
  have hback : (⟨m, l.mark :: marks⟩ : Session).run? [.goBack] =
      some ⟨m.restore l.mark, marks⟩ := rfl
  have hmarked : (⟨l, marks⟩ : Session).act? .save = some ⟨l, l.mark :: marks⟩ := rfl
  rw [lookAhead, List.cons_append, run?_cons, hmarked, Option.bind_some, run?_append, hinside,
    Option.bind_some, hback, restore_mark (reports_prefix_run? h)]

end Session

open Session

/-- **Looking ahead.** Whatever is done between a mark and the way back to it, with marks of its own
that it goes back to and the last one first, the lexer is then on the same token in every respect,
with the same reports, and all that is done later comes out as if nothing had been done before. -/
theorem lookAhead_leaves_no_trace {l m : Lexer} {acts : List Act}
    (hacts : (⟨l, []⟩ : Session).run? acts = some ⟨m, []⟩) (marks : List Mark)
    (later : List Act) :
    m.restore l.mark = l ∧
    (⟨l, marks⟩ : Session).run? (lookAhead acts) = some ⟨l, marks⟩ ∧
    (⟨l, marks⟩ : Session).run? (lookAhead acts ++ later) = (⟨l, marks⟩ : Session).run? later := by
  refine ⟨restore_mark (reports_prefix_run? hacts), run?_lookAhead hacts marks, ?_⟩
  rw [run?_append, run?_lookAhead hacts marks, Option.bind_some]

/-- Looking ahead past a slash that is read again, from within once more up to a string that is not
closed, and on to a closing brace that is read again: reports are made on the way and are gone
afterwards. -/
theorem lookAhead_past_open_string :
    let l := (ofText "x /a/ \x7d \x27b").scan
    let acts := [.scan, .rescanSlash] ++ lookAhead [.scan, .scan] ++ [.scan, .rescanTemplate]
    let m := l.scan.rescanSlash.scan.rescanTemplate
    (⟨l, []⟩ : Session).run? acts = some ⟨m, []⟩ ∧ l.scan.rescanSlash.scan.scan.reports.length = 1 ∧
      m.reports.length = 1 ∧ l.reports = [] ∧
      (⟨l, []⟩ : Session).run? (lookAhead acts ++ [.scan]) = some ⟨l.scan, []⟩ := by
  intro l acts m
  have hslash : l.scan.kind = .punctuator .slash := by decide +kernel
  have hbrace : l.scan.rescanSlash.scan.kind = .punctuator .closeBrace := by decide +kernel
  have hback : l.scan.rescanSlash.scan.scan.restore l.scan.rescanSlash.mark = l.scan.rescanSlash :=
    restore_mark ((reports_prefix_scan _).trans (reports_prefix_scan _))
  have hrun : (⟨l, []⟩ : Session).run? acts = some ⟨m, []⟩ := by
    simp [acts, m, run?, lookAhead, act?, hslash, hbrace, hback]
  obtain ⟨-, -, hlater⟩ := lookAhead_leaves_no_trace hrun [] [.scan]
  exact ⟨hrun, by decide +kernel, by decide +kernel, by decide +kernel, hlater⟩

end Lexer

end LambdaLift
