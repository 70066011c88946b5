import LambdaLift.Proofs.Token.Width

/-!
# Faults of tokens

Nothing that is wrong with a token is passed over in silence.

* `Errors rs`: all reports are errors. There are no others (`Report.isError_ofFault`).
* `Token.isFaulty`: the token is none of the language, it has no end, or it holds an escape that
  stands for nothing.
* `Lexeme.Tells`: a token comes with errors only, and one that comes without has no fault and, if it
  is a word, a letter. So does every token that is read (`Lexeme.tells_read`).
* `Lexer.Tells`: the same of the current token and the reports made up to it.
-/

namespace LambdaLift

/-- Every fault is an error. -/
theorem Report.isError_ofFault (span : Span) (fault : Fault) :
    (Report.ofFault span fault).isError = true := by
  cases fault <;> rfl

/-- All reports are errors. -/
def Errors (rs : List Report) : Prop :=
  ∀ r ∈ rs, r.isError = true

section Errors

variable {rs rs' : List Report}

@[simp]
theorem errors_nil : Errors [] := by
  simp [Errors]

@[simp]
theorem errors_ofFault (span : Span) (fault : Fault) : Errors [.ofFault span fault] := by
  simp [Errors, Report.isError_ofFault]

theorem Errors.append (h : Errors rs) (h' : Errors rs') : Errors (rs ++ rs') :=
  List.forall_mem_append.2 ⟨h, h'⟩

theorem Errors.cons_ofFault {span : Span} {fault : Fault} (h : Errors rs) :
    Errors (.ofFault span fault :: rs) :=
  (errors_ofFault span fault).append h

end Errors

/-- The token has no end, or holds an escape that stands for nothing. -/
def TokenFlags.isFaulty (f : TokenFlags) : Bool :=
  f.unterminated || f.invalidEscape

theorem TokenFlags.isFaulty_or (a b : TokenFlags) :
    (a.or b).isFaulty = (a.isFaulty || b.isFaulty) := by
  simp [isFaulty, TokenFlags.or, Bool.or_left_comm, Bool.or_assoc]

/-- Something is wrong with the token by itself. -/
def Token.isFaulty (t : Token) : Bool :=
  t.kind = .unknown || t.flags.isFaulty

/-- What is wrong with a token is reported, as an error. -/
structure Lexeme.Tells (x : Lexeme) : Prop where
  errors : Errors x.reports
  kind : x.reports = [] → x.kind ≠ .unknown
  flags : x.reports = [] → x.flags.isFaulty = false
  word : x.reports = [] → x.kind.isWord = true → x.value ≠ []

/-! ## Strings, templates and regular expressions -/

theorem Escape.errors_read (c : Cursor) : Errors (read c).reports := by
  fun_cases read c with
  | case5 | case7 => exact errors_ofFault _ _
  | _ => exact errors_nil

theorem Escape.isFaulty_read {c : Cursor} (h : (read c).reports = []) :
    (read c).flags.isFaulty = false := by
  revert h
  fun_cases read c with
  | case5 | case7 => exact fun h => absurd h (List.cons_ne_nil _ _)
  | _ => exact fun _ => rfl

namespace Quoted

/-- What is wrong with the inside of a literal is reported, as an error. -/
structure Body.Tells (b : Body) : Prop where
  errors : Errors b.reports
  flags : b.reports = [] → b.flags.isFaulty = false

theorem Body.Tells.escape {b : Body} (h : b.Tells) (c : Cursor) :
    (b.escape (Escape.read c)).Tells where
  errors := (Escape.errors_read c).append h.errors
  flags hnil := by
    obtain ⟨hescape, hb⟩ := List.append_eq_nil_iff.1 hnil
    rw [Body.escape, TokenFlags.isFaulty_or, Escape.isFaulty_read hescape, h.flags hb]
    rfl

theorem Body.Made.tells {b : Body} (h : b.Made) : b.Tells := by
  induction h with
  | done => exact ⟨errors_nil, fun _ => rfl⟩
  | push _ _ ih => exact ⟨ih.errors, ih.flags⟩
  | escape c _ ih => exact ih.escape c

/-- A literal that is not closed is reported. -/
theorem Body.Tells.lexeme {b : Body} (h : b.Tells) (start : Cursor) {kind : TokenKind}
    (fault : Fault) (hkind : kind ≠ .unknown) (hword : kind.isWord = false) :
    (lexeme start kind fault b).Tells where
  errors := by
    refine h.errors.append ?_
    split
    · exact errors_nil
    · exact errors_ofFault _ _
  kind _ := hkind
  flags hnil := by
    obtain ⟨hb, hclosed⟩ := List.append_eq_nil_iff.1 hnil
    have hflags := h.flags hb
    simp only [TokenFlags.isFaulty, Bool.or_eq_false_iff] at hflags
    simp_all [Quoted.lexeme, TokenFlags.isFaulty]
  word _ heq := absurd heq (by simp [Quoted.lexeme, hword])

theorem tells_templatePiece (first : Bool) (start c : Cursor) :
    (templatePiece first start c).Tells := by
  have htemplate := kind_templatePiece first start c
  refine (made_templateBody c).tells.lexeme start _ (fun heq => ?_)
    (TokenKind.isWord_of_isTemplate htemplate)
  rw [show (templatePiece first start c).kind = .unknown from heq] at htemplate
  cases htemplate

theorem tells_regex (c : Cursor) : (regex c).Tells :=
  Body.Tells.lexeme (b := { stop := _, value := _, closed := _ }) ⟨errors_nil, fun _ => rfl⟩ c _
    (by simp) rfl

end Quoted

/-! ## Numbers and names -/

namespace Number

theorem tells_lexeme {start stop : Cursor} {number : Float} {flags : TokenFlags}
    {reports : List Report} (hreports : Errors reports) (hflags : flags.isFaulty = false) :
    (lexeme start stop number flags reports).Tells where
  errors := by
    have hname : Errors (nameAfter stop).2 := by
      unfold nameAfter
      split <;> simp
    exact hreports.append hname
  kind _ := by simp [lexeme]
  flags _ := hflags
  word _ heq := by cases heq

theorem errors_missingDigit (c : Cursor) (fault : Fault) {p : Prop} [Decidable p] :
    Errors (if p then [missingDigit c fault] else []) := by
  split <;> simp [missingDigit]

theorem tells_decimal (c : Cursor) : (decimal c).Tells :=
  tells_lexeme (errors_missingDigit _ _) (by rfl)

theorem tells_read (c : Cursor) : (read c).Tells := by
  unfold read
  split
  · split
    · exact tells_lexeme (errors_missingDigit _ _) (by rfl)
    split
    · exact tells_lexeme (errors_missingDigit _ _) (by rfl)
    split
    · exact tells_lexeme (errors_missingDigit _ _) (by rfl)
    split
    · exact tells_lexeme errors_nil (by rfl)
    · exact tells_decimal c
  · exact tells_decimal c

end Number

namespace Name

theorem errors_body (c : Cursor) : Errors (body c).reports := by
  fun_induction body c with
  | case1 | case5 => exact errors_nil
  | case2 _ _ _ _ _ _ _ _ _ _ _ ih | case4 _ _ _ _ _ _ _ ih => exact ih
  | case3 _ _ _ _ _ _ _ _ _ _ ih => exact ih.cons_ofFault

/-- A name starts with a character, or with an escape that stands for one or is reported. -/
theorem value_body_ne_nil {c : Cursor} (h : Lexeme.startsName c.rest = true)
    (hreports : (body c).reports = []) : (body c).value ≠ [] := by
  have hreaches := reaches_body_skip h
  revert hreports hreaches
  fun_cases body c with
  | case1 hrest => simp [hrest, Lexeme.startsName] at h
  | case2 | case4 => exact fun _ _ => List.cons_ne_nil _ _
  | case3 => exact fun hreports => absurd hreports (List.cons_ne_nil _ _)
  | case5 x cs hrest =>
    -- A name passes its first character.
    intro _ hreaches
    exact absurd (Cursor.length_lt_of_reaches (by simp [hrest]) hreaches) (Nat.lt_irrefl _)

theorem tells_read {c : Cursor} (h : Lexeme.startsName c.rest = true) : (read c).Tells where
  errors := errors_body c
  kind _ heq := by
    have hword := kind_read c
    rw [heq] at hword
    cases hword
  flags _ := rfl
  word hnil _ := value_body_ne_nil h hnil

end Name

theorem Lexeme.tells_read (c : Cursor) : (read c).Tells := by
  unfold read
  split
  · exact ⟨errors_nil, fun _ => by simp, fun _ => rfl, fun _ h => by cases h⟩
  · split
    · exact (Quoted.made_stringBody ..).tells.lexeme c _ (by simp) rfl
    split
    · exact Quoted.tells_templatePiece ..
    split
    · exact Number.tells_read c
    split
    · exact Name.tells_read ‹_›
    split
    · exact ⟨errors_nil, fun _ => by simp, fun _ => rfl, fun _ h => by cases h⟩
    · exact ⟨errors_ofFault _ _, fun h => absurd h (List.cons_ne_nil _ _), fun _ => rfl,
        fun _ h => by cases h⟩

/-! ## Lexers -/

theorem Trivia.errors_skip (c : Cursor) : Errors (skip c).reports := by
  have hcomment (c : Cursor) : Errors (blockComment c).reports := by
    simp only [blockComment]
    split
    · exact errors_nil
    · exact errors_ofFault _ _
  fun_induction skip c with
  | case4 c _ _ _ _ _ _ _ _ ih => exact (hcomment c).append ih
  | _ => first | exact errors_nil | assumption

namespace Lexer

/-- What is wrong with the current token is reported, and all reports are errors. -/
structure Tells (l : Lexer) : Prop where
  errors : Errors l.reports
  token : l.reports = [] → l.token.isFaulty = false
  word : l.reports = [] → l.kind.isWord = true → l.value ≠ ""

variable {l : Lexer}

/-- What is written as a token has a character. -/
theorem OnToken.isEmpty_text {text : String} (h : l.OnToken text) (hkind : l.kind ≠ .endOfFile) :
    l.text.isEmpty = false := by
  have hwidth := h.width hkind
  have htext : l.start.textTo l.here ≠ [] := by
    rw [Cursor.textTo, ← List.length_pos_iff, List.length_take]
    omega
  simpa [Lexer.text] using htext

theorem tells_scan (h : Errors l.reports) : l.scan.Tells where
  errors := (h.append (Trivia.errors_skip _)).append (Lexeme.tells_read _).errors
  token hnil := by
    have hread := (List.append_eq_nil_iff.1 hnil).2
    have hkind := (Lexeme.tells_read _).kind hread
    have hflags := (Lexeme.tells_read _).flags hread
    rw [token, scan, Token.isFaulty, TokenFlags.isFaulty_or, hflags]
    simpa [TokenFlags.isFaulty] using hkind
  word hnil hword := by
    simpa [scan] using (Lexeme.tells_read _).word (List.append_eq_nil_iff.1 hnil).2 hword

theorem Tells.reread (h : l.Tells) {x : Lexeme} (hx : x.Tells) : (l.reread x).Tells where
  errors := h.errors.append hx.errors
  token hnil := by
    obtain ⟨hl, hread⟩ := List.append_eq_nil_iff.1 hnil
    have hbefore : l.flags.isFaulty = false := (Bool.or_eq_false_iff.1 (h.token hl)).2
    rw [Lexer.token, Lexer.reread, Token.isFaulty, TokenFlags.isFaulty_or, hbefore, hx.flags hread]
    simpa using hx.kind hread
  word hnil hword := by
    simpa [Lexer.reread] using hx.word (List.append_eq_nil_iff.1 hnil).2 hword

end Lexer

end LambdaLift
