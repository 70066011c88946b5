import LambdaLift.Proofs.Grammar.Follows
import LambdaLift.Proofs.Grammar.Statement
import LambdaLift.Proofs.Lifting.Agreement
import LambdaLift.Proofs.Lifting.Supported
import LambdaLift.Proofs.Token.Tiling
import LambdaLift.Proofs.Tree.Legible

/-!
# Texts have trees in order, and legible ones without a fault

What the grammar reads without a report and what can be lifted is legible: names and literals come
from tokens, and operands from the productions that bind tightly enough. With or without a report,
it is in the order of the text. Only productions that give something that can be lifted matter here;
the others may read their tokens anew.

* `PlainNames`: no name is written with an escape. A text without a backslash has no such name
  (`plainNames_of_not_mem`).
* `RulesYield`: what the productions give is in order, and legible without a fault.
* `rulesYield`: they do, by induction on the bound of the recursion.
* `inOrder_of_run?`: the statements of a text are in order if they can be lifted.
* `legible_of_run?`: the statements of a text without a fault are legible if they can be lifted.
-/

namespace LambdaLift

open Lexer Stmt

theorem iterate_scan_end {l : Lexer} (h : l.here.rest = []) (k : Nat) :
    (scan^[k] l).here.rest = [] := by
  induction k generalizing l with
  | zero => exact h
  | succ k ih =>
    have hhere : l.here = ⟨l.here.offset, []⟩ := by rw [← h]
    exact ih (scan_end hhere (by simp)).2.1

theorem escapedName_scan_end {l : Lexer} (h : l.here.rest = []) :
    l.scan.flags.escapedName = false := by
  have hstops : Trivia.Stops [] := by simp [Trivia.Stops]
  have hskip := Trivia.skip_of_stops hstops l.here.offset
  have hhere : l.here = ⟨l.here.offset, []⟩ := by rw [← h]
  rw [← hhere] at hskip
  simp [scan, hskip, h, Lexeme.read, TokenFlags.or]

/-- Only the tokens up to the end of the text matter. -/
theorem PlainNames.of_end {l : Lexer} (n : Nat)
    (h : ∀ k < n + 1, (scan^[k] l).flags.escapedName = false)
    (hend : (scan^[n] l).here.rest = []) : PlainNames l := by
  intro k
  by_cases hk : k < n + 1
  · exact h k hk
  · obtain ⟨m, rfl⟩ := Nat.exists_eq_add_of_le (Nat.le_of_not_lt hk)
    have hrest : (scan^[n + m] l).here.rest = [] := by
      rw [Nat.add_comm, Function.iterate_add_apply]
      exact iterate_scan_end hend m
    have hscan : scan^[n + 1 + m] l = (scan^[n + m] l).scan := by
      rw [Nat.add_right_comm, Function.iterate_succ_apply']
    rw [hscan]
    exact escapedName_scan_end hrest

/-! ## Texts without escapes -/

theorem Number.escapedName_read (c : Cursor) : (read c).flags.escapedName = false := by
  unfold read
  repeat' split
  all_goals rfl

/-- An escape in a name starts with a backslash. -/
theorem Name.mem_of_escaped {c : Cursor} (h : (body c).escaped = true) : '\\' ∈ c.rest := by
  have hescape {c : Cursor} (h : c.startsWith ['\\', 'u'] = true) : '\\' ∈ c.rest :=
    (List.isPrefixOf_iff_prefix.1 h).subset (List.mem_cons_self ..)
  fun_induction body c with
  | case1 | case5 => cases h
  | case2 c _ _ _ hesc | case3 c _ _ _ hesc => exact hescape hesc
  | case4 c _ _ _ _ _ _ ih => exact List.mem_of_mem_drop (ih h)

theorem Lexeme.mem_of_escapedName {c : Cursor} (h : (read c).flags.escapedName = true) :
    '\\' ∈ c.rest := by
  by_contra hplain
  refine absurd h (Bool.eq_false_iff.1 ?_)
  unfold read
  split
  · rfl
  · split
    · exact (Quoted.made_stringBody ..).flags.2
    split
    · exact (Quoted.made_templateBody _).flags.2
    split
    · exact Number.escapedName_read c
    split
    · exact Bool.eq_false_iff.2 (mt Name.mem_of_escaped hplain)
    split <;> rfl

/-- In a text without a backslash no name is written with an escape. -/
theorem plainNames_of_not_mem {text : String} (h : '\\' ∉ text.toList) :
    PlainNames (ofText text).skipShebang := by
  have hin (k : Nat) : (scan^[k] (ofText text).skipShebang).here.In text := by
    induction k with
    | zero => exact (within_ofText text).skipShebang.here
    | succ k ih =>
      rw [Function.iterate_succ_apply']
      exact (onToken_scan ih).toWithin.here
  intro k
  cases k with
  | zero =>
    unfold skipShebang
    split <;> rfl
  | succ k =>
    obtain ⟨before, htext, -⟩ := (onToken_scan (hin k)).toWithin.start
    rw [Function.iterate_succ_apply']
    refine Bool.eq_false_iff.2 fun hescaped => h ?_
    rw [htext]
    refine List.mem_append_right before (Lexeme.mem_of_escapedName ?_)
    simpa [scan, TokenFlags.or] using hescaped

namespace Grammar

section Productions

variable {s₀ : State}

/-! ## Tokens -/

/-- The current token was scanned. -/
theorem exists_scan {s : State} (hs : Reached s₀ s)
    (hkind : s.lexer.kind ≠ .unknown) :
    ∃ l : Lexer, s.lexer = l.scan ∧
      (PlainNames s₀.lexer → s.lexer.flags.escapedName = false) := by
  obtain ⟨k, hk⟩ := hs.lexer
  cases k with
  | zero => exact absurd (hk ▸ hs.source) hkind
  | succ k =>
    refine ⟨scan^[k] s₀.lexer, ?_, fun hnames => hk ▸ hnames (k + 1)⟩
    rw [hk, Function.iterate_succ_apply']

theorem lexeme_reports {l : Lexer} (h : l.scan.reports = []) :
    (Lexeme.read (Trivia.skip l.here).stop).reports = [] :=
  (List.append_eq_nil_iff.1 h).2

theorem isName_of_token {s : State} (hs : Reached s₀ s)
    (hnames : PlainNames s₀.lexer) (hkind : s.lexer.kind = .identifier) : IsName s.lexer.value := by
  obtain ⟨l, hl, hplain⟩ := exists_scan hs (by simp [hkind])
  replace hplain := hplain hnames
  rw [hl] at hkind hplain ⊢
  obtain ⟨hstarts, hread⟩ := Lexeme.read_of_identifier hkind
  have hescaped : (Name.read (Trivia.skip l.here).stop).flags.escapedName = false := by
    rw [← hread]
    exact (Bool.or_eq_false_iff.1 hplain).1
  have hname : (Name.read (Trivia.skip l.here).stop).kind = .identifier := hread ▸ hkind
  have := Name.isName_of_read hstarts hname hescaped
  rwa [← hread] at this

/-- What was reported so far. -/
theorem Faultless.lexerReports_of_advanced {s : State} (h : Faultless s₀ s.advanced) :
    s.lexer.reports = [] :=
  ((follows_advanced s).faultless h).lexerReports

theorem yields_missingName :
    Yields s₀ [] missingName (fun _ => True) (fun _ => True) fun id => [⟨id.range.start, false⟩] := by
  refine .position fun s => .mark ?_
  exact Yields.at (.pure fun _ => by exact ⟨trivial, rfl⟩) s

/-- A name that was read is legible. -/
theorem yields_name :
    Yields s₀ [] name (fun _ => True) Ident.Legible fun id => [⟨id.range.start, false⟩] := by
  refine .current fun s k hkind => ?_
  split
  · rename_i hk
    intro lo id s' h hs hpast _
    have hword : TokenKind.isWord .identifier = true := rfl
    rw [word, current_bind, hkind, hk, if_pos hword, position_bind, look_bind, advance_bind,
      rangeFrom_bind] at h
    obtain ⟨rfl, rfl⟩ := pure_eq_some.1 h
    have hs' := follows_advanced s
    refine ⟨hs', fun hclean => ⟨?_, rfl⟩, .place hpast.le (hs.offset_le hs')⟩
    exact isName_of_token hs hclean.names (hkind.trans hk)
  · exact Yields.at (.after_report yields_missingName) s

/-- A token whose text and value are kept. -/
theorem yieldsAt_numberLiteral {s : State} (hkind : s.lexer.kind = .number) :
    YieldsAt s₀ [] s numberLiteral (fun _ => True) NumberLiteral.Legible fun _ => [] := by
  intro lo lit s' h hs hpast _
  rw [numberLiteral, position_bind, look_bind, look_bind, advance_bind, rangeFrom_bind] at h
  obtain ⟨rfl, rfl⟩ := pure_eq_some.1 h
  have hs' := follows_advanced s
  refine ⟨hs', fun hclean => ?_, hpast.widen (hs.offset_le hs')⟩
  have hreports := hclean.lexerReports_of_advanced
  obtain ⟨l, hl, -⟩ := exists_scan hs (by simp [hkind])
  simp only [hl] at hkind hreports ⊢
  obtain ⟨hnumber, hvalue⟩ := Number.isNumber_of_read hkind (lexeme_reports hreports)
  exact ⟨hnumber, hvalue⟩

theorem yieldsAt_literal {s : State} (hkind : s.lexer.kind = .string) :
    YieldsAt s₀ [] s literal (fun _ => True) Literal.Legible fun _ => [] := by
  intro lo lit s' h hs hpast _
  rw [literal, position_bind, look_bind, look_bind, advance_bind, rangeFrom_bind] at h
  obtain ⟨rfl, rfl⟩ := pure_eq_some.1 h
  have hs' := follows_advanced s
  refine ⟨hs', fun hclean => ?_, hpast.widen (hs.offset_le hs')⟩
  have hreports := hclean.lexerReports_of_advanced
  obtain ⟨l, hl, -⟩ := exists_scan hs (by simp [hkind])
  simp only [hl] at hkind hreports ⊢
  obtain ⟨hstring, hvalue⟩ := Quoted.isString_of_read hkind (lexeme_reports hreports)
  exact ⟨hstring, hvalue, rfl⟩

/-! ## Expressions -/

/-- A legible expression that binds at least as tightly as the rank says. -/
abbrev LegibleAt (rank : Nat) (e : Expr) : Prop :=
  e.rank ≤ rank ∧ e.Legible

abbrev YieldsExpr (s₀ : State) (past : List Landmark) (p : Parse Expr) (rank : Nat) : Prop :=
  Yields s₀ past p Expr.Supported (LegibleAt rank) Expr.landmarks

abbrev YieldsStmt (s₀ : State) (p : Parse Stmt) : Prop :=
  Yields s₀ [] p Supported Legible landmarks

/-- What the productions give is in order and legible if it can be lifted. -/
structure RulesYield (s₀ : State) (g : Rules) : Prop where
  statement : YieldsStmt s₀ g.statement
  assignment : YieldsExpr s₀ [] g.assignment 3
  chain : ∀ floor, YieldsExpr s₀ [] (g.chain floor) 2
  unary : YieldsExpr s₀ [] g.unary 1
  binding : Yields s₀ [] g.binding (·.name?.isSome) Binding.Legible fun _ => []

variable {g : Rules}

theorem yields_expression (h : RulesYield s₀ g) :
    Yields s₀ [] (expression g) Expr.Supported Expr.Legible Expr.landmarks := by
  refine yields_iterate (h.assignment.mono fun e _ he => he.2) (fun a => ?_) fun a => ?_
  · refine .bind fun k => ?_
    split
    · refine .bind fun _ => .bind fun _ => .bind fun right => .bind fun r => .pure ?_
      rintro _ ⟨⟩ hb
      exact hb.2.1
    · exact .pure (by simp)
  · refine .after fun k => ?_
    split
    · refine .after fun opRange => .after fun _ => ?_
      refine (h.assignment.frame _).last ?_
      refine fun right => .bind fun r => .pure fun hsup => ⟨(hsup _ rfl).2.2, ?_, rfl⟩
      rintro hright ha _ ⟨⟩
      exact ⟨rfl, by simp, ha, hright.2⟩
    · exact yields_none a

theorem yields_initializer (h : RulesYield s₀ g) :
    Yields? s₀ (initializer g) Expr.Supported (LegibleAt 3) Expr.landmarks := by
  refine .after fun b => ?_
  split
  · rw [← map_eq_pure_bind]
    exact yields_some h.assignment
  · exact .pure fun _ => ⟨by simp, rfl⟩

theorem yields_listElement (h : RulesYield s₀ g) : YieldsExpr s₀ [] (listElement g) 3 := by
  refine .after fun start => .after fun b => ?_
  split
  · exact .of_only (.bind fun _ => .bind fun _ => .pure id)
  · exact yields_withIn true h.assignment

theorem yields_arguments (h : RulesYield s₀ g) :
    YieldsList s₀ (arguments g) Expr.Supported (LegibleAt 3)
      Expr.landmarks := by
  have hturn : YieldsTurn s₀ (argumentTurn g) Expr.Supported (LegibleAt 3)
      Expr.landmarks := by
    refine .after fun k => ?_
    split
    · exact yields_stop
    · exact yields_stop
    · split
      · exact yields_turnAtComma (yields_listElement h)
      · exact .after fun _ => yields_stop
  rw [arguments]
  refine .after fun _ => ?_
  refine (yields_many hturn).last fun es => ?_
  exact .bind fun _ => .pure fun hsup => ⟨hsup, id, rfl⟩

theorem yields_parenthesized (h : RulesYield s₀ g) : YieldsExpr s₀ [] (parenthesized g) 0 := by
  refine .after fun start => .after fun _ => ?_
  refine (yields_withIn true (yields_expression h)).last fun e => ?_
  exact .bind fun _ => .bind fun r => .pure fun hsup => ⟨hsup, fun he => ⟨Nat.le_refl 0, he⟩, rfl⟩

/-- A word that is an expression by itself has no landmarks. -/
theorem yields_keywordExpression {make : Range → Expr} (h : ∀ r, (make r).Supported →
    ((make r).rank ≤ 0 ∧ (make r).Legible) ∧ (make r).landmarks = []) :
    YieldsExpr s₀ [] (keywordExpression make) 0 :=
  .after fun _ => .after fun _ =>
    .after fun r => .pure (h r)

theorem yields_missingExpression {Good : Expr → Prop} :
    Yields s₀ [] missingExpression Expr.Supported Good Expr.landmarks := by
  refine .position fun s => .mark (Yields.at (.after_report (.after fun _ => ?_)) s)
  split
  · exact .after fun _ => .pure fun _ => ⟨trivial, rfl⟩
  · exact .pure fun _ => ⟨trivial, rfl⟩

theorem only_functionExpression (g : Rules) (start : Nat) (isAsync : Bool) :
    Only (functionExpression g start isAsync) (¬ Expr.Supported ·) :=
  .bind fun _ => .bind fun _ => .bind fun _ => .bind fun _ => .bind fun _ => .pure id

theorem only_arrayLiteral (g : Rules) : Only (arrayLiteral g) (¬ Expr.Supported ·) :=
  .bind fun _ => .bind fun _ => .bind fun _ => .bind fun _ => .bind fun _ => .pure id

theorem only_objectLiteral (g : Rules) : Only (objectLiteral g) (¬ Expr.Supported ·) :=
  .bind fun _ => .bind fun _ => .bind fun _ => .bind fun _ => .bind fun _ => .pure id

theorem yields_primary (h : RulesYield s₀ g) :
    YieldsExpr s₀ [] (primary g) 0 := by
  have hother (p : Parse Node) : YieldsExpr s₀ [] (do return .other (← p)) 0 :=
    .of_only (.bind fun _ => .pure id)
  have hthis (k : TokenKind) :
      YieldsExpr s₀ [] (keywordExpression fun r => .other (.ofToken .expression k r)) 0 :=
    yields_keywordExpression fun r hsup => hsup.elim
  refine .after fun start => .current fun s k hkind => ?_
  split
  · refine Yields.at (.after fun isFunction => ?_) s
    split
    · exact .of_only (.bind fun _ => only_functionExpression g start true)
    · refine yields_name.last fun id => .pure fun _ => ?_
      exact ⟨trivial, fun hid => ⟨Nat.le_refl 0, hid⟩, rfl⟩
  · intro lo e s' hread hs hpast hsup
    obtain ⟨lit, s₁, hlit, hread⟩ := bind_eq_some.1 hread
    obtain ⟨rfl, rfl⟩ := pure_eq_some.1 hread
    obtain ⟨hs', hgood, hmarks⟩ := yieldsAt_numberLiteral hkind lo lit _ hlit hs hpast trivial
    exact ⟨hs', fun hclean => ⟨Nat.le_refl 0, hgood hclean⟩, hmarks⟩
  · intro lo e s' hread hs hpast hsup
    obtain ⟨lit, s₁, hlit, hread⟩ := bind_eq_some.1 hread
    obtain ⟨rfl, rfl⟩ := pure_eq_some.1 hread
    obtain ⟨hs', hgood, hmarks⟩ := yieldsAt_literal hkind lo lit _ hlit hs hpast trivial
    exact ⟨hs', fun hclean => ⟨Nat.le_refl 0, hgood hclean⟩, hmarks⟩
  · exact (hother _).at _
  · exact (hother _).at _
  · exact (Yields.of_only (.bind fun _ => .bind fun _ => .pure id)).at _
  · exact (Yields.of_only (.bind fun _ => .bind fun _ => .pure id)).at _
  · exact (yields_parenthesized h).at _
  · exact (Yields.of_only (only_arrayLiteral g)).at _
  · exact (Yields.of_only (only_objectLiteral g)).at _
  · exact (Yields.of_only (only_functionExpression g start false)).at _
  · exact (hother _).at _
  · exact Yields.at (yields_keywordExpression fun r _ => by exact ⟨⟨Nat.le_refl 0, trivial⟩, rfl⟩) _
  · exact Yields.at (yields_keywordExpression fun r _ => by exact ⟨⟨Nat.le_refl 0, trivial⟩, rfl⟩) _
  · exact Yields.at (yields_keywordExpression fun r _ => by exact ⟨⟨Nat.le_refl 0, trivial⟩, rfl⟩) _
  · exact (hthis _).at _
  · exact (hthis _).at _
  · exact yields_missingExpression.at _

/-! ## Accesses and operators -/

theorem only_memberAccess (e : Expr) (isOptional : Bool) :
    Only (memberAccess e isOptional) (¬ Expr.Supported ·) :=
  .bind fun _ => .bind fun _ => .pure id

theorem only_elementAccess (g : Rules) (e : Expr) (isOptional : Bool) :
    Only (elementAccess g e isOptional) (¬ Expr.Supported ·) := by
  refine .bind fun _ => ?_
  split
  all_goals exact .bind fun _ => .bind fun _ => .bind fun _ => .pure id

theorem only_optionalLink (g : Rules) (e : Expr) :
    Only (optionalLink g e) (¬ Expr.Supported ·) := by
  refine .bind fun k => ?_
  split
  · exact .bind fun args => .bind fun r => .pure fun hsup => by cases hsup.1
  · exact only_elementAccess g e true
  · exact only_memberAccess e true

/-- A callee is a name, which is supported. -/
theorem supported_of_name? {e : Expr} (h : e.name?.isSome) : e.Supported := by
  cases e with
  | ident id => trivial
  | _ => cases h

theorem only_link? (g : Rules) (allowsCalls : Bool) (e : Expr) :
    Only (link? g allowsCalls e) fun o => ∀ e' ∈ o, e'.Supported → e.Supported := by
  have hreject : ∀ {p : Parse Expr}, Only p (¬ Expr.Supported ·) →
      Only (do return some (← p)) fun o => ∀ e' ∈ o, e'.Supported → e.Supported := by
    intro p hp
    refine hp.bind_of fun e' he' => .pure fun e'' he'' hsup => ?_
    cases he''
    exact absurd hsup he'
  have hnone : Only (pure (none : Option Expr)) fun o => ∀ e' ∈ o, e'.Supported → e.Supported :=
    .pure (by simp)
  refine .bind fun k => ?_
  split
  · exact .bind fun _ => hreject (only_memberAccess e false)
  · split
    · exact .bind fun _ => hreject (only_optionalLink g e)
    · exact hnone
  · exact hreject (only_elementAccess g e false)
  · split
    · refine Only.bind_of (R := fun e' => e'.Supported → e.Supported) ?_ fun e' he' => .pure ?_
      · exact .bind fun args => .bind fun r => .pure fun hsup => supported_of_name? hsup.2.1
      · rintro _ ⟨⟩
        exact he'
    · exact hnone
  · exact hreject (.bind fun _ => .bind fun _ => .pure id)
  · exact hreject (.bind fun _ => .bind fun _ => .pure id)
  · exact hnone

theorem yields_call (h : RulesYield s₀ g) (f : Expr) :
    Yields s₀ f.landmarks (call g f false) Expr.Supported
      (fun e => LegibleAt 0 f → LegibleAt 0 e) Expr.landmarks := by
  refine ((yields_arguments h).frame _).last fun args => ?_
  intro s e s' hread hsup
  rw [rangeFrom_bind] at hread
  obtain ⟨rfl, rfl⟩ := pure_eq_some.1 hread
  refine ⟨Expr.supportedList_iff.1 hsup.2.2, fun hargs hf => ?_, ?_⟩
  · exact ⟨Nat.le_refl 0, rfl, hsup.2.1, hf.2, Expr.legibleList_iff.2 hargs⟩
  · -- A call starts where its callee does, and the callee is a name.
    obtain ⟨x, hx⟩ := Option.isSome_iff_exists.1 hsup.2.1
    obtain ⟨id, rfl, -⟩ := Lifting.eq_ident_of_name? hx
    simp [Expr.landmarks, Expr.landmarksOfList_eq, Expr.range]

theorem yields_link? (h : RulesYield s₀ g) (f : Expr) :
    YieldsStep s₀ (link? g true) Expr.Supported (LegibleAt 0) Expr.landmarks
      f := by
  refine .after fun k => ?_
  split
  · exact .after fun _ => yields_next f (.of_only (only_memberAccess f false))
  · exact .after fun _ => yields_next f (.of_only (only_optionalLink g f))
  · exact yields_next f (.of_only (only_elementAccess g f false))
  · exact yields_next f (yields_call h f)
  · exact yields_next f (.of_only (.bind fun _ => .bind fun _ => .pure id))
  · exact yields_next f (.of_only (.bind fun _ => .bind fun _ => .pure id))
  · exact yields_none f

/-- What `new` gives is not supported, unless it is missing. -/
theorem yields_construction {Good : Expr → Prop} :
    Yields s₀ [] (construction g) Expr.Supported Good Expr.landmarks := by
  refine .after fun start => .after fun _ => ?_
  have hnested : Yields s₀ [] (nested (pure none) (some <$> constructed g)) (· = none)
      (fun _ => False) fun _ => [] := by
    refine yields_nested (.of_only ?_) (.pure fun _ => ⟨trivial, rfl⟩)
    intro s a s' hmap hnone
    obtain ⟨e, -, rfl⟩ := map_eq_some.1 hmap
    cases hnone
  refine hnested.bind (fun o => ?_) fun o => ?_
  · cases o with
    | none => exact .bind fun id => .pure fun _ => rfl
    | some callee =>
      refine .bind fun k => ?_
      split
      all_goals exact .bind fun args => .bind fun r => .pure fun hsup => hsup.elim
  · cases o with
    | none =>
      exact yields_missingName.last fun id =>
        .pure fun _ => ⟨trivial, fun _ hfalse => hfalse.elim, rfl⟩
    | some callee =>
      refine .after fun k => ?_
      split
      all_goals exact .of_only (.bind fun args => .bind fun r => .pure id)

theorem yields_access (h : RulesYield s₀ g) :
    YieldsExpr s₀ [] (access g) 0 := by
  refine .after fun k => ?_
  split
  · exact yields_iterate yields_construction (only_link? g true) fun a => yields_link? h a
  · exact yields_iterate (yields_primary h) (only_link? g true) fun a => yields_link? h a

theorem passes_update (e : Expr) (k : TokenKind) : Passes (match UpdateOp.ofToken? k with
    | some op => do
      if ← look (·.lineBreakBefore) then
        return e
      else
        advance
        return .update (← rangeFrom e.range.start) op e
    | none => return e) := by
  split <;> infer_instance

theorem yields_updated (h : RulesYield s₀ g) : YieldsExpr s₀ [] (updated g) 1 := by
  have := passes_update
  refine (yields_access h).last fun e => ?_
  have hsame : Only (pure e) fun e' => e'.Supported → e.Supported ∧
      (LegibleAt 0 e → LegibleAt 1 e') ∧ e'.landmarks = e.landmarks :=
    .pure fun hsup => ⟨hsup, fun he => ⟨he.1.trans (Nat.zero_le 1), he.2⟩, rfl⟩
  refine .bind fun k => ?_
  split
  · refine .bind fun b => ?_
    split
    · exact hsame
    · exact .bind fun _ => .bind fun r => .pure fun hsup =>
        ⟨hsup, fun he => ⟨Nat.le_refl 1, Nat.le_zero.1 he.1, he.2⟩, rfl⟩
  · exact hsame

theorem yields_missing {Good : Expr → Prop} (h : ∀ e, Good e) :
    Yields s₀ [] (.ident <$> missingName) Expr.Supported Good Expr.landmarks :=
  yields_missingName.map fun _ _ => ⟨trivial, fun _ => h _, rfl⟩

theorem yields_unary (h : RulesYield s₀ g) : YieldsExpr s₀ [] (unary g) 1 := by
  refine .after fun k => ?_
  split
  · exact yields_updated h
  · refine yields_nested ?_ (yields_missing fun _ => trivial)
    refine .after fun start => .after fun _ => ?_
    refine h.unary.last fun e => ?_
    exact .bind fun r => .pure fun hsup => ⟨hsup, fun he => ⟨Nat.le_refl 1, he⟩, rfl⟩

theorem only_operation (op : BinaryOp) (left : Expr) (right : Parse Expr) :
    Only (operation op left right) fun e => e.Supported → left.Supported := by
  refine .bind fun _ => .bind fun _ => .bind fun b => .bind fun r => .pure fun hsup => ?_
  have hleft := hsup.2.1
  split at hleft
  · exact supported_of_name? hleft
  · exact hleft

theorem yields_operation {op : BinaryOp} {left : Expr} {right : Parse Expr} {Good Q : Expr → Prop}
    (hright : Yields s₀ [] right Expr.Supported Good Expr.landmarks)
    (h : ∀ r opRange b, (Expr.binary r op opRange left b).Supported → Good b →
      Q (.binary r op opRange left b)) :
    Yields s₀ left.landmarks (operation op left right) Expr.Supported Q Expr.landmarks := by
  refine .after fun opRange => .after fun _ => ?_
  refine (hright.frame _).last fun b => ?_
  exact .bind fun r => .pure fun hsup => ⟨hsup.2.2, h r opRange b hsup, rfl⟩

instance passes_chainOperator? : Passes chainOperator? := by
  constructor
  intro s a s' h
  rw [chainOperator?, get_bind, current_bind] at h
  cases hop : BinaryOp.ofToken? s.lexer.kind <;> rw [hop] at h <;> cases h <;> exact .refl _

theorem only_chainOperator? :
    Only chainOperator? fun o => ∀ p ∈ o, p.1 ≠ .assign ∧ p.1 ≠ .comma := by
  refine .bind fun allowsIn => .bind fun k => ?_
  split
  · rename_i op _
    refine .pure fun p hp => ?_
    split at hp
    · cases hp
    · obtain ⟨level, hlevel, rfl⟩ := Option.map_eq_some_iff.1 hp
      constructor
      all_goals
        rintro rfl
        cases hlevel
  · exact .pure (by simp)

theorem only_chainStep (floor : Nat) (left : Expr) :
    Only (chainStep g floor left) fun o => ∀ e ∈ o, e.Supported → left.Supported := by
  refine .bind fun o => ?_
  split
  · split
    · refine (only_operation _ left _).bind_of fun e he => .pure fun e' he' => ?_
      cases he'
      exact he
    · exact .pure (by simp)
  · exact .pure (by simp)

theorem yields_chainStep (h : RulesYield s₀ g) (floor : Nat) (left : Expr) :
    YieldsStep s₀ (chainStep g floor) Expr.Supported (LegibleAt 2)
      Expr.landmarks left := by
  refine .after_of only_chainOperator? fun o ho => ?_
  split
  · obtain ⟨hassign, hcomma⟩ := ho _ rfl
    split
    · refine yields_next left (yields_operation (h.chain _) fun r opRange b hsup hb hleft =>
        ⟨?_, hsup.1, fun hop => absurd hop hassign, hleft.2, hb.2⟩)
      simp [Expr.rank, hassign, hcomma]
    · exact yields_none left
  · exact yields_none left

theorem yields_chain (h : RulesYield s₀ g) (floor : Nat) :
    YieldsExpr s₀ [] (chain g floor) 2 := by
  rw [chain]
  exact yields_iterate ((yields_unary h).mono fun e _ he => ⟨by omega, he.2⟩)
    (only_chainStep floor) fun left => yields_chainStep h floor left

theorem yields_conditional (h : RulesYield s₀ g) :
    YieldsExpr s₀ [] (conditional g) 2 := by
  refine (yields_chain h 0).bind (fun e => .bind fun b => ?_)
    fun e => .after fun b => ?_
  · split
    · exact .bind fun _ => .bind fun _ => .bind fun _ => .bind fun _ => .pure fun hsup => hsup.elim
    · exact .pure id
  · split
    · exact .of_only (.bind fun _ => .bind fun _ => .bind fun _ => .bind fun _ => .pure id)
    · exact .pure fun _ => ⟨id, rfl⟩

/-! ## Assignments -/

instance passes_arrowModifier? : Passes arrowModifier? := by
  unfold arrowModifier?
  infer_instance

theorem only_arrowFunction? : Only (arrowFunction? g) fun o => ∀ e ∈ o, ¬ e.Supported := by
  refine .bind fun start => .bind fun modifier => ?_
  split
  · exact .pure (by simp)
  · refine .bind fun params => ?_
    split
    · exact .pure (by simp)
    · refine .bind fun _ => .bind fun body => .bind fun r => .pure fun e he => ?_
      cases he
      exact id

/-- Where no arrow function is read, what was passed are tokens. -/
theorem yields_arrowFunction? :
    Yields s₀ [] (arrowFunction? g) (· = none) (fun _ => True) fun _ => [] := by
  have hparameters : Yields s₀ [] (arrowParameters? g) (· = none) (fun _ => True) fun _ => [] := by
    refine .after fun k => ?_
    split
    · refine .after fun b => ?_
      split
      · exact .of_only (.bind fun id => .pure (by simp))
      · exact .pure fun _ => ⟨trivial, rfl⟩
    · refine .after fun b => ?_
      split
      · exact .of_only (.bind fun params => .pure (by simp))
      · exact .pure fun _ => ⟨trivial, rfl⟩
    · exact .pure fun _ => ⟨trivial, rfl⟩
  refine .after fun start => .after fun modifier => ?_
  split
  · exact .pure fun _ => ⟨trivial, rfl⟩
  · refine hparameters.bind (fun params => ?_) fun params => ?_
    · split
      · exact .pure fun _ => rfl
      · exact .bind fun _ => .bind fun body => .bind fun r => .pure (by simp)
    · split
      · exact .pure fun _ => ⟨fun _ => trivial, rfl⟩
      · exact .of_only (.bind fun _ => .bind fun body => .bind fun r => .pure (by simp))

theorem yields_assignment (h : RulesYield s₀ g) :
    YieldsExpr s₀ [] (assignment g) 3 := by
  refine yields_nested ?_ (yields_missing fun _ => trivial)
  have hvalue : YieldsExpr s₀ [] (conditional g >>= assignmentRest g) 3 := by
    refine (yields_conditional h).bind (fun e => .bind fun k => ?_)
      fun e => .after fun k => ?_
    · split
      · split
        · exact only_operation _ e _
        · exact .pure id
      · exact .pure id
    · have hsame : Yields s₀ e.landmarks (pure e) Expr.Supported
          (fun e' => LegibleAt 2 e → LegibleAt 3 e') Expr.landmarks :=
        .pure fun _ => ⟨fun he => ⟨he.1.trans (by decide), he.2⟩, rfl⟩
      split
      · rename_i op _
        split
        · rename_i hop
          refine yields_operation h.assignment fun r opRange b hsup hb he => ?_
          obtain rfl : op = .assign := by
            cases op <;> first | rfl | (cases hop; done) | cases hsup.1
          exact ⟨Nat.le_refl 3, hsup.1, fun _ => ⟨hsup.2.1, hb.1⟩, he.2, hb.2⟩
        · exact hsame
      · exact hsame
  refine yields_arrowFunction?.bind_of only_arrowFunction? (fun o ho => ?_) fun o ho => ?_
  · cases o with
    | none => exact fun _ _ _ _ _ => rfl
    | some e => exact .pure fun hsup => absurd hsup (ho e rfl)
  · cases o with
    | none => exact hvalue.mono fun e _ he _ => he
    | some e => exact .of_only (.pure (ho e rfl))

/-! ## Statements -/

theorem yields_binding :
    Yields s₀ [] (binding g) (·.name?.isSome) Binding.Legible fun _ => [] := by
  refine .after fun k => ?_
  split
  · exact .of_only (.bind fun _ => .pure (by simp [Binding.name?]))
  · exact .of_only (.bind fun _ => .pure (by simp [Binding.name?]))
  · refine yields_name.unmarked.last fun id => .pure fun _ => ?_
    exact ⟨trivial, fun hid => ⟨id, rfl, hid⟩, rfl⟩

/-- Where the expressions of a declaration start. -/
abbrev declaratorMarks (d : Declarator) : List Landmark :=
  Expr.landmarks? d.init

theorem yields_declarator (h : RulesYield s₀ g) :
    Yields s₀ [] (declarator g) Declarator.Supported Declarator.Legible declaratorMarks := by
  refine .after fun start => h.binding.bind (fun target => ?_) fun target => ?_
  · exact .bind fun init => .bind fun r => .pure fun hsup => hsup.1
  · refine (yields_initializer h).last ?_
    refine fun init => .bind fun r => .pure fun hsup => ⟨hsup.2, fun hinit htarget => ?_, rfl⟩
    exact ⟨htarget, hinit⟩

theorem yields_variableStatement (h : RulesYield s₀ g) : YieldsStmt s₀ (variableStatement g) := by
  have hturn : YieldsTurn s₀ (variableTurn g) Declarator.Supported Declarator.Legible
      declaratorMarks := by
    refine .after fun k => ?_
    split
    · exact yields_turnAtComma (yields_declarator h)
    · exact yields_turnAtComma (yields_declarator h)
    · exact yields_turnAtComma (yields_declarator h)
    · exact .after fun _ => yields_stop
  have hlist : Yields s₀ [] (variableList g) (fun v => ∀ d ∈ v.2.2, d.Supported)
      (fun v => ∀ d ∈ v.2.2, d.Legible) fun v => v.2.2.flatMap declaratorMarks := by
    rw [variableList]
    refine .after fun start => .after fun k => ?_
    refine .after fun _ => ?_
    refine (yields_many hturn).last fun ds => ?_
    exact .bind fun r => .pure fun hsup => ⟨hsup, id, rfl⟩
  refine .after fun start => hlist.last fun v => ?_
  exact .bind fun _ => .bind fun r => .pure fun hsup => ⟨hsup, id, rfl⟩

theorem yields_expressionStatement (h : RulesYield s₀ g) :
    YieldsStmt s₀ (expressionStatement g) := by
  refine .after fun start => (yields_expression h).last fun e => ?_
  exact .bind fun _ => .bind fun r => .pure fun hsup => ⟨hsup, id, rfl⟩

theorem yields_returnStatement (h : RulesYield s₀ g) : YieldsStmt s₀ (returnStatement g) := by
  have htail (start : Nat) {p : Parse (Option Expr)}
      (hp : Yields? s₀ p Expr.Supported Expr.Legible Expr.landmarks) : YieldsStmt s₀ (do
        let e ← p
        semicolon
        return return_ (← rangeFrom start) e) := by
    refine hp.last fun e => ?_
    exact .bind fun _ => .bind fun r => .pure fun hsup => ⟨hsup, id, rfl⟩
  refine .after fun start => .after fun _ => ?_
  refine .after fun b => ?_
  split
  · exact htail start (.pure fun _ => ⟨by simp, rfl⟩)
  · exact htail start (yields_some (yields_expression h))

theorem yields_statements (h : RulesYield s₀ g) (isEnd : TokenKind → Bool) :
    Yields s₀ [] (statements g isEnd) SupportedList LegibleList landmarksOfList := by
  have hturn : YieldsTurn s₀ (statementTurn g isEnd) Supported Legible landmarks := by
    refine .after fun k => ?_
    split
    · exact yields_stop
    · refine .after fun start => h.statement.last fun s => ?_
      exact .bind fun _ => .pure fun hsup =>
          ⟨hsup s rfl, fun hs _ hs' => Option.some.inj hs' ▸ hs, rfl⟩
  intro lo s ss s' hread hs hpast hsup
  rw [supportedList_iff] at hsup
  rw [legibleList_iff, landmarksOfList_eq]
  exact yields_many hturn lo s ss s' hread hs hpast hsup

theorem yields_block (h : RulesYield s₀ g) : Yields s₀ [] (block g) (SupportedList ·.2)
    (LegibleList ·.2) (landmarksOfList ·.2) := by
  refine .after fun start => .after fun _ => ?_
  refine (yields_statements h _).last fun body => ?_
  exact .bind fun _ => .bind fun r => .pure fun hsup => ⟨hsup, id, rfl⟩

theorem yields_parameter (h : RulesYield s₀ g) :
    Yields s₀ [] (parameter g) (·.plainName?.isSome) Param.Legible fun _ => [] := by
  refine .after fun start => .after fun dots => ?_
  have hparts : ∀ {r : Range} {target : Binding} {init : Option Expr},
      (Param.mk r dots target init).plainName?.isSome →
        dots = none ∧ target.name?.isSome ∧ init = none := by
    intro r target init hplain
    simp only [Param.plainName?] at hplain
    split at hplain
    · rename_i hnone
      simp only [Bool.and_eq_true, Option.isNone_iff_eq_none] at hnone
      exact ⟨hnone.1, hplain, hnone.2⟩
    · cases hplain
  refine h.binding.bind (fun target => ?_) fun target => ?_
  · exact .bind fun init => .bind fun r => .pure fun hsup => (hparts hsup).2.1
  · refine (yields_initializer h).last ?_
    refine fun init => .bind fun r => .pure fun hsup => ?_
    obtain ⟨rfl, -, rfl⟩ := hparts hsup
    exact ⟨by simp, fun _ htarget => ⟨rfl, htarget, rfl⟩, rfl⟩

theorem yields_parameters (h : RulesYield s₀ g) :
    Yields s₀ [] (parameters g) (fun ps => ∀ p ∈ ps, p.plainName?.isSome)
      (fun ps => ∀ p ∈ ps, p.Legible) fun _ => [] := by
  have hturn : YieldsTurn s₀ (parameterTurn g) (·.plainName?.isSome) Param.Legible fun _ => [] := by
    refine .after fun k => ?_
    split
    · exact yields_stop
    · exact yields_stop
    · exact yields_turnAtComma (yields_parameter h)
  rw [parameters]
  refine .after fun _ => (yields_many hturn).last fun ps => ?_
  exact .bind fun _ => .pure fun hsup => ⟨hsup, id, by simp⟩

/-! ## Functions -/

theorem yields_functionRest (h : RulesYield s₀ g) (start : Nat) (isAsync isGenerator : Bool)
    (name : Option Ident) :
    Yields s₀ [⟨start, true⟩] (functionRest g start isAsync isGenerator name) Supported
      (fun s => (∀ id ∈ name, id.Legible) → s.Legible) landmarks := by
  refine ((yields_parameters h).frame _).bind (fun params => ?_) fun params => ?_
  · exact .bind fun b => .bind fun r => .pure fun hsup => hsup.1.params
  · refine ((yields_block h).frame _).last ?_
    rintro ⟨bodyRange, body⟩ s t s' hread hsup
    simp only [rangeFrom_bind] at hread
    obtain ⟨rfl, rfl⟩ := pure_eq_some.1 hread
    refine ⟨hsup.2, fun hbody hparams hname => ?_, rfl⟩
    obtain ⟨x, hx, -⟩ := hsup.1.name
    obtain ⟨id, hid, -⟩ := Option.map_eq_some_iff.1 hx
    exact ⟨⟨hsup.1.isAsync, hsup.1.isGenerator, ⟨id, hid, hname id hid⟩, hparams⟩, hbody⟩

/-- The word `function` takes room, so that what comes after it starts later. -/
theorem offset_lt_of_functionWord {s s' : State} {isGenerator : Bool} (hs : Reached s₀ s)
    (hkind : s.lexer.kind = .keyword .function_) (h : functionWord s = some (isGenerator, s')) :
    Follows s s' ∧ s.offset < s'.offset := by
  obtain ⟨_, s₁, hword, hstar⟩ := bind_eq_some.1 h
  rw [expect_of_eq hkind] at hword
  obtain ⟨-, rfl⟩ := Prod.mk.inj (Option.some.inj hword)
  have hadvanced := follows_advanced s
  have hfollows := Passes.follows hstar
  exact ⟨hadvanced.trans hfollows,
    (hs.isOrdered.start_lt_scan hkind).trans_le ((hs.follow hadvanced).offset_le hfollows)⟩

/-- A function starts before everything in it. -/
theorem yieldsAt_functionDeclaration (h : RulesYield s₀ g) {s : State}
    (hkind : s.lexer.kind = .keyword .function_) :
    YieldsAt s₀ [] s (functionDeclaration g s.offset false false) Supported Legible
      landmarks := by
  intro lo t s' hread hs hpast hsup
  obtain ⟨isGenerator, s₁, hword, hread⟩ := bind_eq_some.1 hread
  obtain ⟨hs₁, hlt⟩ := offset_lt_of_functionWord hs hkind hword
  have hrest := yields_functionRest h s.offset false isGenerator
  have hsome {p : Parse Ident} {Good : Ident → Prop} {marks : Ident → List Landmark}
      (hp : Yields s₀ [] p (fun _ => True) Good marks) : Yields s₀ [⟨s.offset, true⟩] (some <$> p)
        (fun _ => True) (fun o => ∀ id ∈ o, Good id) fun _ => [⟨s.offset, true⟩] :=
    (hp.frame _).unmarked.map fun id _ => ⟨trivial, fun hid _ h => Option.some.inj h ▸ hid, rfl⟩
  refine ((?_ : Yields s₀ [⟨s.offset, true⟩] _ Supported Legible landmarks) lo s₁ t s'
    hread (hs.follow hs₁) (.function hpast.le hlt) hsup).imp_left hs₁.trans
  refine .after fun k => .after fun k' => ?_
  split
  · exact (hrest none).mono fun s _ hs => hs (by simp)
  · split
    · exact (hsome yields_name).bind (fun _ _ _ _ _ _ => trivial) fun name => hrest name
    · exact .after_report ((hsome yields_missingName).bind (fun _ _ _ _ _ _ => trivial) fun name =>
        (hrest name).mono fun _ _ _ _ => trivial)

theorem only_asyncFunction (g : Rules) (start : Nat) (mayBeNameless : Bool) :
    Only (functionDeclaration g start true mayBeNameless) (¬ Supported ·) := by
  have hrest : ∀ isGenerator name,
      Only (functionRest g start true isGenerator name) (¬ Supported ·) := fun _ _ =>
    .bind fun _ => .bind fun _ => .bind fun _ => .pure fun hsup => Bool.noConfusion hsup.1.isAsync
  refine .bind fun isGenerator => .bind fun k => .bind fun k' => ?_
  split
  · exact hrest _ none
  · split
    · exact .bind fun name => hrest _ name
    · exact .bind fun _ => .bind fun name => hrest _ name

theorem yieldsAt_keywordStatement (h : RulesYield s₀ g) {s : State}
    {k : Keyword} (hkind : s.lexer.kind = .keyword k) :
    YieldsAt s₀ [] s (keywordStatement g k) Supported Legible landmarks := by
  have hother (p : Parse Node) : YieldsStmt s₀ (do return .other (← p)) :=
    .of_only (.bind fun _ => .pure id)
  by_cases hfunction : k = .function_
  · subst hfunction
    exact yieldsAt_functionDeclaration h hkind
  · refine (?_ : YieldsStmt s₀ (keywordStatement g k)).at s
    unfold keywordStatement
    split
    all_goals first
      | contradiction
      | exact hother _
      | exact yields_variableStatement h
      | exact yields_returnStatement h
      | exact yields_expressionStatement h

theorem yields_statementBody (h : RulesYield s₀ g) :
    YieldsStmt s₀ (statementBody g) := by
  -- A function starts where the state stands, so the branch is taken for this state.
  refine .position fun s => .current fun k hkind => ?_
  split
  · exact (Yields.of_only (.bind fun _ => .bind fun r => .pure id)).at s
  · refine Yields.at ?_ s
    exact (yields_block h).last fun b => .pure fun hsup => ⟨hsup, id, rfl⟩
  · exact yieldsAt_keywordStatement h hkind
  · refine Yields.at (.after fun isFunction => ?_) s
    split
    · exact .after fun _ => .of_only (only_asyncFunction g _ _)
    · refine .after fun isLabeled => ?_
      split
      · exact .of_only (.bind fun _ => .pure id)
      · exact yields_expressionStatement h
  · exact (yields_expressionStatement h).at s

theorem yields_statement (h : RulesYield s₀ g) :
    YieldsStmt s₀ (statement g) :=
  yields_nested (yields_statementBody h)
    (.after fun _ => .pure fun _ => ⟨trivial, rfl⟩)

end Productions

/-- What the productions give is in order, and legible without a fault, if it can be lifted, however
deep they occur in each other. -/
theorem rulesYield {s₀ : State} (n : Nat) : RulesYield s₀ (rules n) := by
  induction n with
  | zero =>
    refine ⟨?_, ?_, fun _ => ?_, ?_, ?_⟩
    all_goals
      intro lo s a s' h
      cases h
  | succ n ih =>
    exact ⟨yields_statement ih, yields_assignment ih,
      fun floor => yields_chain ih floor, yields_unary ih, yields_binding⟩

/-- What the whole program gives, from the state before its first token. -/
theorem run?_yields {text : String} {statements : List Stmt} {s : State}
    (hrun : run? text = some (statements, s)) (hsup : SupportedList statements) :
    Follows (State.ofText text) s ∧
      (Clean s → PlainNames (ofText text).skipShebang → LegibleList statements) ∧
      InOrder 0 s.offset (landmarksOfList statements) := by
  let source : State := { State.ofText text with lexer := (ofText text).skipShebang }
  have hsource : source.lexer.kind = .unknown := by
    simp only [source, skipShebang]
    split <;> rfl
  have hstart : Reached source (State.ofText text) :=
    ⟨⟨⟨1, rfl⟩, List.prefix_rfl, fun _ => rfl⟩, hsource, isOrdered_scan _⟩
  rw [run?, program] at hrun
  obtain ⟨hfollows, hlegible, horder⟩ := yields_statements (rulesYield (recursionBound text))
    (· = .endOfFile) 0 _ _ _ hrun hstart (.nil (Nat.zero_le _)) hsup
  exact ⟨hfollows, fun hclean hnames => hlegible ⟨hclean, hnames⟩, horder⟩

/-- **The order of a text.** Lifting comes to the calls and functions of a text in the order in
which they start. -/
theorem inOrder_of_run? {text : String} {statements : List Stmt} {s : State}
    (hrun : run? text = some (statements, s)) (hsup : SupportedList statements) :
    InOrder 0 s.offset (landmarksOfList statements) :=
  (run?_yields hrun hsup).2.2

/-- **Legible programs.** The statements of a text without a fault in which no name is written with
an escape are legible, if they can be lifted. -/
theorem legible_of_run? {text : String} {statements : List Stmt} {s : State}
    (hnames : PlainNames (ofText text).skipShebang)
    (hrun : run? text = some (statements, s)) (hreports : s.lexer.reports ++ s.reports = [])
    (hsup : SupportedList statements) : LegibleList statements := by
  obtain ⟨hlexer, hreports⟩ := List.append_eq_nil_iff.1 hreports
  obtain ⟨hfollows, hlegible, -⟩ := run?_yields hrun hsup
  have habort : s.isAborted = false := by
    rw [hfollows.isAborted (hreports.trans rfl)]
    rfl
  exact hlegible ⟨hreports, hlexer, habort⟩ hnames

end Grammar

end LambdaLift
