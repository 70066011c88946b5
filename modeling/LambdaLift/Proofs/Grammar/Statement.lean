import LambdaLift.Proofs.Grammar.Expression

/-!
# Reading programs back

* `StatementsRead`: the productions read every statement that has not too many tokens.
* `statementsRead`: they do, by induction on the bound of the recursion.
* `run?_programText`: the text of a printable program is read as the trees of its statements, or is
  found to nest too deep, which depends on `Stmt.nestingOfList`.
-/

namespace LambdaLift

open Code List Stmt

/-- The tokens of a statement. -/
def Code.Stmt.tokens (layout : Layout) (level : Nat) (s : Code.Stmt) : List Tok :=
  Piece.tokens (s.pieces layout level)

/-- The tokens of statements one after another. -/
def Code.Stmt.lineTokens (layout : Layout) (level : Nat) (ss : List Code.Stmt) : List Tok :=
  ss.flatMap (Code.Stmt.tokens layout level)

namespace Grammar

section Parts

variable {tape : Tape} {n : Nat}

/-! ## Statements one after another -/

theorem safe_statementTurn (g : Rules) (isEnd : TokenKind → Bool) :
    Safe (statementTurn g isEnd) (·.isOver = true) := by
  refine safe_current.bind fun k hk => ?_
  rw [hk, if_pos (by simp)]
  exact .pure rfl

/-- Nothing is done after a statement that reads a token. -/
theorem recover_eq {start : Nat} {s : State} (h : start < s.lexer.start.offset) :
    recover start s = some ((), s) := by
  rw [recover, bind_of_some (show position s = some (s.lexer.start.offset, s) from rfl),
    if_neg h.ne']
  rfl

variable {ts rest : List Tok} {t : Tok} {e : Code.Expr} {levels : Nat} {init : Option Code.Expr}

/-- The statement at the head of a list. -/
theorem reads_statementTurn {g : Rules} (isEnd : TokenKind → Bool) {u : Tok} {us : List Tok}
    {R : Stmt → Prop} (hu : (isEnd u.kind || u.kind = .endOfFile) = false)
    (h : Reads tape levels g.statement (u :: us ++ rest) rest R) :
    Reads tape levels (statementTurn g isEnd) (u :: us ++ rest) rest fun turn =>
      ∃ a, turn = .next a ∧ R a := by
  refine reads_current ?_
  rw [if_neg (by simpa using hu)]
  intro s hs hdepth
  have hposition : position s = some (s.lexer.start.offset, s) := rfl
  rw [bind_of_some hposition]
  obtain ⟨a, s', hread, hd, ⟨ha, hs', hroom⟩ | ⟨hs', hdeep⟩⟩ := h s hs hdepth
  · refine ⟨.next a, s', ?_, hd, .inl ⟨⟨a, rfl, ha⟩, hs', hroom⟩⟩
    rw [bind_of_some hread, bind_of_some (recover_eq (hs.offset_lt hs'))]
    rfl
  · obtain ⟨_, s'', hrecover, hd', -, hs''⟩ := safe_recover s.lexer.start.offset s' hs'
    refine ⟨.next a, s'', ?_, hd'.trans hd, .inr ⟨hs'', hdeep⟩⟩
    rw [bind_of_some hread, bind_of_some hrecover]
    rfl

/-! ## Expressions as statements -/

/-- Tokens other than the word `function`. -/
def NoFunction (ts : List Tok) : Prop :=
  ∀ t ∈ ts, t.kind ≠ .keyword .function_

@[simp] theorem noFunction_nil : NoFunction [] := by
  simp [NoFunction]

@[simp] theorem noFunction_cons :
    NoFunction (t :: ts) ↔ t.kind ≠ .keyword .function_ ∧ NoFunction ts :=
  forall_mem_cons

@[simp] theorem noFunction_append {us : List Tok} :
    NoFunction (ts ++ us) ↔ NoFunction ts ∧ NoFunction us :=
  forall_mem_append

mutual

/-- The word `function` is in no expression. -/
theorem noFunction_pieces (e : Code.Expr) (he : e.Printable) :
    NoFunction (Piece.tokens e.pieces) := by
  cases e with
  | name x | number raw | string raw | null => simp [Code.Expr.pieces, Tok.kind]
  | boolean b => cases b <;> simp [Code.Expr.pieces, Tok.kind]
  | paren e =>
    have := noFunction_pieces e he
    simp [Code.Expr.pieces, Tok.kind, this]
  | unary op e =>
    have := noFunction_pieces e he.2
    have hop : op.token ≠ .keyword .function_ := by cases op <;> decide
    simp only [Code.Expr.pieces]
    split <;> simp [Tok.kind, this, hop]
  | update op e =>
    have := noFunction_pieces e he.2
    have hop : op.token ≠ .keyword .function_ := by cases op <;> decide
    simp [Code.Expr.pieces, Tok.kind, this, hop]
  | binary op a b =>
    have ha := noFunction_pieces a he.2.2.1
    have hb := noFunction_pieces b he.2.2.2
    have hop : op.token ≠ .keyword .function_ := by
      cases op <;> first | decide | simp [BinaryOp.token]
    simp [Code.Expr.pieces, Tok.kind, ha, hb, hop]
  | assign x e =>
    have := noFunction_pieces e he.2.2
    simp [Code.Expr.pieces, Tok.kind, this]
  | call f args =>
    have := noFunction_list args he.2
    simp [Code.Expr.pieces, Tok.kind, this]

theorem noFunction_list (es : List Code.Expr) (hes : Code.Expr.PrintableList es) :
    NoFunction (Piece.tokens (Code.Expr.listPieces es)) := by
  cases es with
  | nil => simp [Code.Expr.listPieces]
  | cons e es =>
    have he := noFunction_pieces e hes.1.2
    have hmore := noFunction_more es hes.2
    simp [Code.Expr.listPieces, he, hmore]

theorem noFunction_more (es : List Code.Expr) (hes : Code.Expr.PrintableList es) :
    NoFunction (Piece.tokens (Code.Expr.morePieces es)) := by
  cases es with
  | nil => simp [Code.Expr.morePieces]
  | cons e es =>
    have he := noFunction_pieces e hes.1.2
    have hmore := noFunction_more es hes.2
    simp [Code.Expr.morePieces, Tok.kind, he, hmore]

end

theorem reads_expressionStatement (h : PartsRead tape n) (he : e.Printable)
    (hn : e.tokens.length ≤ n) (rest : List Tok) :
    Reads tape (e.tree.nesting + 1) (expressionStatement (rules n))
    (e.tokens ++ .fixed (.punctuator .semicolon) :: rest) rest
      fun s => s.unplaced = .expression noRange e.tree := by
  unfold expressionStatement
  refine reads_position fun start => ?_
  refine (h.expression e he hn (.fixed (.punctuator .semicolon)) rest rfl).bind_flat
    (fun a ha => ?_) fun a => ?_
  · refine reads_semicolon rfl (reads_rangeFrom fun r => .pure ?_)
    rw [unplaced, Stmt.clear, ← Expr.unplaced, ha]
  · exact safe_semicolon.bind fun _ _ => (safe_rangeFrom _).bind fun _ _ => .pure trivial

theorem keywordStatement_of_startsPlain (g : Rules) {k : Keyword}
    (h : startsPlain (.keyword k) = true) : keywordStatement g k = expressionStatement g := by
  cases k <;> first | rfl | cases h

theorem isLabel_eq {l : Lexer} (h : Streams l (t :: ts)) :
    isLabel l = false := by
  have hscan := Streams.scan h
  rw [isLabel, decide_eq_false_iff_not]
  cases hscan with
  | nil kind _ _ => simp [kind]
  | cons stands valid _ _ _ _ =>
    rw [stands.kind]
    exact (Tok.kind_ne valid).2.2

/-- A statement that starts as an expression is one. -/
theorem reads_statementBody_expression {g : Rules} {R : Stmt → Prop} (he : e.Printable)
    (h : Reads tape levels (expressionStatement g)
      (e.tokens ++ .fixed (.punctuator .semicolon) :: rest) rest R) :
    Reads tape levels (statementBody g) (e.tokens ++ .fixed (.punctuator .semicolon) :: rest) rest R := by
  have hfunction : NoFunction e.tokens := noFunction_pieces e he
  obtain ⟨u, us, hus, hu⟩ := startsPlain_tokens e
  rw [hus] at h hfunction ⊢
  unfold statementBody
  refine reads_position fun start => reads_current ?_
  cases hk : u.kind with
  | punctuator p =>
    cases p <;> first | exact h | (rw [hk] at hu; cases hu)
  | keyword k =>
    rw [hk] at hu
    simp only [keywordStatement_of_startsPlain g hu]
    exact h
  | identifier =>
    refine reads_look fun l hl => ?_
    have hasync : isAsyncFunction l = false := by
      cases us with
      | nil => exact isAsyncFunction_eq hl (by decide)
      | cons v vs => exact isAsyncFunction_eq hl (hfunction v (by simp))
    rw [hasync]
    refine reads_look fun l hl => ?_
    rw [isLabel_eq hl]
    exact h
  | _ => exact h

/-! ## Variables -/

theorem reads_binding (hn : 0 < n) (x : String) (ts : List Tok) :
    Reads tape 0 (rules n).binding (.name x :: ts) ts fun b => ∃ r, b = .name ⟨r, x, false⟩ := by
  obtain ⟨n, rfl⟩ := Nat.exists_eq_succ_of_ne_zero hn.ne'
  change Reads tape 0 (binding (rules n)) _ _ _
  unfold binding
  refine reads_current ((reads_name x).bind_flat ?_ fun id => .pure trivial)
  rintro _ ⟨r, rfl⟩
  exact .pure ⟨r, rfl⟩

theorem safe_initializer (g : Rules) : Safe (initializer g) fun _ => True := by
  refine (safe_accept (by simp)).bind fun b hb => ?_
  rw [hb]
  exact .pure trivial

theorem reads_initializer_none (g : Rules) (h : t.kind ≠ .punctuator .equal) :
    Reads tape 0 (initializer g) (t :: ts) (t :: ts) (· = none) :=
  reads_accept_ne h (.pure rfl)

/-- The tokens of an initial value. -/
def initializerTokens : Option Code.Expr → List Tok
  | none => []
  | some e => .fixed (.punctuator .equal) :: e.tokens

theorem reads_initializer (h : PartsRead tape n) (hinit : ∀ e ∈ init, e.rank ≤ 3 ∧ e.Printable)
    (hn : (initializerTokens init).length ≤ n) (ts : List Tok) :
    Reads tape (Expr.nesting? (init.map Code.Expr.tree)) (initializer (rules n))
    (initializerTokens init ++ .fixed (.punctuator .semicolon) :: ts)
    (.fixed (.punctuator .semicolon) :: ts)
      fun i => i.map Expr.unplaced = init.map Code.Expr.tree := by
  cases init with
  | none =>
    refine (reads_initializer_none _ (by decide)).mono ?_
    rintro _ rfl
    rfl
  | some e =>
    obtain ⟨hrank, he⟩ := hinit e rfl
    have hread := h.assignment e he hrank (Nat.le_of_succ_le hn) (.fixed (.punctuator .semicolon))
      ts rfl
    refine reads_accept rfl (hread.bind_flat (fun a ha => .pure ?_) fun a => .pure trivial)
    rw [Option.map_some, ha, Option.map_some]

theorem reads_declarator (h : PartsRead tape n) (hpos : 0 < n) (x : String)
    (hinit : ∀ e ∈ init, e.rank ≤ 3 ∧ e.Printable) (hn : (initializerTokens init).length ≤ n)
    (ts : List Tok) :
    Reads tape (Expr.nesting? (init.map Code.Expr.tree)) (declarator (rules n))
    (.name x :: (initializerTokens init ++ .fixed (.punctuator .semicolon) :: ts))
    (.fixed (.punctuator .semicolon) :: ts)
      fun d => d.clear .unplaced = ⟨noRange, .name (.ofName x), init.map Code.Expr.tree⟩ := by
  unfold declarator
  refine reads_position fun start => (reads_binding hpos x _).flat_bind ?_ fun b => ?_
  · rintro _ ⟨r, rfl⟩
    refine (reads_initializer h hinit hn ts).bind_flat (fun i hi => ?_) fun i => ?_
    · refine reads_rangeFrom fun range => .pure ?_
      rw [← hi]
      rfl
    · exact (safe_rangeFrom _).bind fun _ _ => .pure trivial
  · exact (safe_initializer _).bind fun _ _ => (safe_rangeFrom _).bind fun _ _ => .pure trivial

theorem safe_variableTurn (g : Rules) : Safe (variableTurn g) (·.isOver = true) := by
  refine safe_current.bind fun k hk => ?_
  rw [hk]
  exact (safe_report _).bind fun _ _ => .pure rfl

theorem variableWord_keyword (kind : VarKind) : variableWord (.keyword kind.keyword) = kind := by
  cases kind <;> rfl

/-- The declaration of one variable. -/
theorem reads_variableStatement (h : PartsRead tape n) (hpos : 0 < n) (kind : VarKind) (x : String)
    (hinit : ∀ e ∈ init, e.rank ≤ 3 ∧ e.Printable) (hn : (initializerTokens init).length ≤ n)
    (ts : List Tok) :
    Reads tape (Expr.nesting? (init.map Code.Expr.tree)) (variableStatement (rules n))
    (.fixed (.keyword kind.keyword) :: .name x ::
        (initializerTokens init ++ .fixed (.punctuator .semicolon) :: ts)) ts
      fun s => s.unplaced = .ofVariable kind x (init.map Code.Expr.tree) := by
  have hturn : Reads tape (Expr.nesting? (init.map Code.Expr.tree)) (variableTurn (rules n))
      (.name x :: (initializerTokens init ++ .fixed (.punctuator .semicolon) :: ts))
      (.fixed (.punctuator .semicolon) :: ts) fun turn => ∃ d, turn = .last d ∧
        d.clear .unplaced = ⟨noRange, .name (.ofName x), init.map Code.Expr.tree⟩ := by
    refine reads_current
      ((reads_declarator h hpos x hinit hn ts).bind_flat (fun d hd => ?_) fun d => ?_)
    · exact (reads_turnAtComma_last d (by decide)).mono fun turn hturn => ⟨d, hturn, hd⟩
    · exact (safe_turnAtComma d).any
  have hlist : Reads tape (Expr.nesting? (init.map Code.Expr.tree)) (variableList (rules n))
      (.fixed (.keyword kind.keyword) :: .name x ::
        (initializerTokens init ++ .fixed (.punctuator .semicolon) :: ts))
      (.fixed (.punctuator .semicolon) :: ts) fun r => r.2.1 = kind ∧
        r.2.2.map (Declarator.clear .unplaced) =
          [⟨noRange, .name (.ofName x), init.map Code.Expr.tree⟩] := by
    rw [variableList]
    refine reads_position fun start => reads_current (reads_advance ?_)
    have hmany : Reads tape (Expr.nesting? (init.map Code.Expr.tree))
        (many (variableTurn (rules n)))
        (.name x :: (initializerTokens init ++ .fixed (.punctuator .semicolon) :: ts))
        (.fixed (.punctuator .semicolon) :: ts) fun ds => ds.map (Declarator.clear .unplaced) =
          [⟨noRange, .name (.ofName x), init.map Code.Expr.tree⟩] := by
      refine reads_many fun bound hbound => ?_
      obtain ⟨bound, rfl⟩ := Nat.exists_eq_succ_of_ne_zero (Nat.ne_zero_of_lt hbound)
      exact reads_last (safe_variableTurn _) (by simp at hbound; omega) hturn
        fun d hd => by simp [hd]
    refine hmany.bind_flat (fun ds hds => reads_rangeFrom fun r => .pure ⟨?_, hds⟩) fun ds => ?_
    · exact variableWord_keyword kind
    · exact (safe_rangeFrom _).bind fun _ _ => .pure trivial
  unfold variableStatement
  refine reads_position fun start => hlist.bind_flat (fun r hr => ?_) fun r => ?_
  · obtain ⟨range, kind', ds⟩ := r
    obtain ⟨rfl, hds⟩ := hr
    refine reads_semicolon rfl (reads_rangeFrom fun r => .pure ?_)
    rw [unplaced, Stmt.clear, hds]
    rfl
  · exact safe_semicolon.bind fun _ _ => (safe_rangeFrom _).bind fun _ _ => .pure trivial

/-! ## Return statements -/

theorem endsStatement_tokens {l : Lexer} (h : Streams l (e.tokens ++ ts))
    (hline : l.lineBreakBefore = false) :
    endsStatement l = false := by
  obtain ⟨u, us, hus, hu⟩ := startsPlain_tokens e
  rw [hus] at h
  have hkind : l.kind = u.kind := by
    cases h with
    | cons stands _ _ _ _ _ => exact stands.kind
  have hne : ∀ k, startsPlain k = false → u.kind ≠ k := by
    rintro k hk rfl
    rw [hk] at hu
    cases hu
  simp [endsStatement, hkind, hline, hne (.punctuator .semicolon) rfl,
    hne (.punctuator .closeBrace) rfl, hne .endOfFile rfl]

theorem safe_afterReturn (start : Nat) (e : Option Expr) : Safe (do
    semicolon
    return Stmt.return_ (← rangeFrom start) e) fun _ => True :=
  safe_semicolon.bind fun _ _ => (safe_rangeFrom _).bind fun _ _ => .pure trivial

theorem reads_returnStatement_none (g : Rules) (ts : List Tok) :
    Reads tape 0 (returnStatement g)
    (.fixed (.keyword .return_) :: .fixed (.punctuator .semicolon) :: ts) ts
      fun s => s.unplaced = .return_ noRange none := by
  unfold returnStatement
  refine reads_position fun start => reads_expect rfl (reads_look fun l hl => ?_)
  have hends : endsStatement l = true := by
    cases hl with
    | cons stands _ _ _ _ _ => simp [endsStatement, stands.kind, Tok.kind]
  rw [if_pos hends, pure_bind]
  exact reads_semicolon rfl (reads_rangeFrom fun r => .pure rfl)

theorem reads_returnStatement (h : PartsRead tape n) (he : e.Printable) (hn : e.tokens.length ≤ n)
    (ts : List Tok) :
    Reads tape (e.tree.nesting + 1) (returnStatement (rules n))
    (.leading (.keyword .return_) :: (e.tokens ++ .fixed (.punctuator .semicolon) :: ts)) ts
      fun s => s.unplaced = .return_ noRange (some e.tree) := by
  have hread : Reads tape (e.tree.nesting + 1) (some <$> expression (rules n))
      (e.tokens ++ .fixed (.punctuator .semicolon) :: ts) (.fixed (.punctuator .semicolon) :: ts)
      fun a => a.map Expr.unplaced = some e.tree :=
    (h.expression e he hn _ ts rfl).map fun a ha => by rw [Option.map_some, ha]
  unfold returnStatement
  refine reads_position fun start => reads_expect_look fun l hl hline => ?_
  rw [if_neg (by simp [endsStatement_tokens hl hline])]
  refine hread.bind_flat (fun a ha => ?_) (safe_afterReturn start)
  refine reads_semicolon rfl (reads_rangeFrom fun r => .pure ?_)
  rw [← ha]
  rfl

/-! ## Functions -/

theorem safe_parameterTurn (g : Rules) : Safe (parameterTurn g) (·.isOver = true) := by
  refine safe_current.bind fun k hk => ?_
  rw [hk]
  exact .pure rfl

theorem reads_parameter (hn : 0 < n) (x : String) (ht : t.kind ≠ .punctuator .equal) :
    Reads tape 0 (parameter (rules n)) (.name x :: t :: ts) (t :: ts)
      fun p => p.clear .unplaced = .ofName x := by
  unfold parameter
  refine reads_position fun start => reads_accept?_ne (by simp [Tok.kind]) ?_
  refine (reads_binding hn x _).bind_flat ?_ fun b => ?_
  · rintro _ ⟨r, rfl⟩
    refine (reads_initializer_none _ ht).bind_flat ?_ fun i => ?_
    · rintro _ rfl
      exact reads_rangeFrom fun range => .pure rfl
    · exact (safe_rangeFrom _).bind fun _ _ => .pure trivial
  · exact (safe_initializer _).bind fun _ _ => (safe_rangeFrom _).bind fun _ _ => .pure trivial

/-- Parameters in parentheses. -/
theorem reads_parameters (hn : 0 < n) (xs : List String) (ts : List Tok) :
    Reads tape 0 (parameters (rules n)) (.fixed (.punctuator .openParen) ::
        (listTokens (fun x => [.name x]) xs ++ .fixed (.punctuator .closeParen) :: ts)) ts
      fun ps => ps.map (Param.clear .unplaced) = xs.map .ofName := by
  have hsafe : ∀ p : Param, Safe (turnAtComma p) fun _ => True := fun p => (safe_turnAtComma p).any
  have hlist : Reads tape (mostLevels (fun _ => 0) xs) (many (parameterTurn (rules n)))
      (listTokens (fun x => [.name x]) xs ++ .fixed (.punctuator .closeParen) :: ts)
      (.fixed (.punctuator .closeParen) :: ts)
      fun ps => ps.map (Param.clear .unplaced) = xs.map .ofName :=
    reads_list (safe_parameterTurn (rules n)) xs (reads_current (.pure rfl))
      (fun x _ us => reads_current <| by
        refine (reads_parameter hn x (by decide)).bind_flat (fun p hp => ?_) hsafe
        exact (reads_turnAtComma p rfl).mono fun turn hturn => ⟨p, hturn, hp⟩)
      (fun x _ => reads_current <| by
        refine (reads_parameter hn x (by decide)).bind_flat (fun p hp => ?_) hsafe
        exact (reads_turnAtComma_last p (by decide)).mono fun turn hturn => ⟨p, hturn, hp⟩)
  rw [mostLevels_zero] at hlist
  rw [parameters]
  refine reads_expect rfl (hlist.bind_flat (fun ps hps => reads_expect rfl (.pure hps)) fun ps => ?_)
  exact (safe_expect (by simp)).bind fun _ _ => .pure trivial

theorem tokens_namePieces (xs : List String) :
    Piece.tokens (namePieces xs) = listTokens (fun x => [.name x]) xs := by
  have hmore : ∀ xs : List String,
      Piece.tokens (moreNames xs) = moreTokens (fun x => [.name x]) xs := by
    intro xs
    induction xs with
    | nil => rfl
    | cons x xs ih =>
      rw [moreTokens] at ih
      simp [moreNames, moreTokens, ih]
  cases xs with
  | nil => rfl
  | cons x xs => simp [namePieces, listTokens, hmore]

theorem safe_statements (g : Rules) (isEnd : TokenKind → Bool) :
    Safe (statements g isEnd) fun _ => True :=
  (safe_many (safe_statementTurn g isEnd)).any

theorem safe_block (g : Rules) : Safe (block g) fun _ => True := by
  refine (safe_look _).bind fun start _ => (safe_expect (by simp)).bind fun _ _ => ?_
  refine (safe_statements g _).bind fun body _ => (safe_expect (by simp)).bind fun _ _ => ?_
  exact (safe_rangeFrom _).bind fun _ _ => .pure trivial

theorem safe_parameters (g : Rules) : Safe (parameters g) fun _ => True := by
  refine (safe_expect (by simp)).bind fun _ _ => (safe_many (safe_parameterTurn g)).bind ?_
  exact fun _ _ => (safe_expect (by simp)).bind fun _ _ => .pure trivial

theorem safe_afterParameters (g : Rules) (start : Nat) (name : Option Ident) (params : List Param) :
    Safe (do
      let (bodyRange, body) ← block g
      return Stmt.function ⟨← rangeFrom start, false, false, name, params, bodyRange⟩ body)
      fun _ => True :=
  (safe_block g).bind fun _ _ => (safe_rangeFrom _).bind fun _ _ => .pure trivial

theorem safe_functionRest (g : Rules) (start : Nat) (name : Option Ident) :
    Safe (functionRest g start false false name) fun _ => True :=
  (safe_parameters g).bind fun params _ => safe_afterParameters g start name params

/-- The declaration of a function whose body is read. -/
theorem reads_functionDeclaration (hn : 0 < n) (name : String) (params : List String)
    {body : List Code.Stmt} {bodyTokens : List Tok}
    (hbody : Reads tape levels (block (rules n)) bodyTokens rest
      fun b => b.2.map unplaced = Code.Stmt.trees body) (start : Nat) :
    Reads tape levels (functionDeclaration (rules n) start false false)
    (.fixed (.keyword .function_) :: .name name :: .fixed (.punctuator .openParen) ::
        (listTokens (fun x => [.name x]) params ++ .fixed (.punctuator .closeParen) :: bodyTokens))
      rest
      fun s => s.unplaced = (Code.Stmt.function name params body).tree := by
  unfold functionDeclaration functionWord
  rw [bind_assoc]
  refine reads_expect rfl (reads_accept_ne (by simp [Tok.kind]) (reads_current (reads_current ?_)))
  change Reads tape levels (some <$> Grammar.name >>= functionRest (rules n) start false false) _ _ _
  have hname : Reads tape 0 (some <$> Grammar.name) (.name name :: .fixed (.punctuator .openParen) ::
      (listTokens (fun x => [.name x]) params ++ .fixed (.punctuator .closeParen) :: bodyTokens))
      (.fixed (.punctuator .openParen) ::
      (listTokens (fun x => [.name x]) params ++ .fixed (.punctuator .closeParen) :: bodyTokens))
      fun id => id.map Leaves.unplaced.ident = some (.ofName name) :=
    (reads_name name).map <| by rintro _ ⟨r, rfl⟩; rfl
  refine hname.flat_bind (fun id hid => ?_) fun id => safe_functionRest (rules n) start id
  refine (reads_parameters hn params bodyTokens).flat_bind (fun ps hps => ?_)
    fun ps => safe_afterParameters (rules n) start id ps
  refine hbody.bind_flat (fun b hb => reads_rangeFrom fun r => .pure ?_)
    fun b => (safe_rangeFrom _).bind fun _ _ => .pure trivial
  rw [unplaced, Stmt.clear, FunctionHead.clear, clearList_eq_map, hid, hps,
    Code.Stmt.tree, ← hb]
  rfl

end Parts

/-! ## Blocks and programs -/

section Nested

variable {tape : Tape} {n : Nat} {layout : Layout} {level : Nat}

theorem tokens_linePieces (ss : List Code.Stmt) :
    Piece.tokens (Code.Stmt.linePieces layout level ss) = Code.Stmt.lineTokens layout level ss := by
  induction ss with
  | nil => rfl
  | cons s ss ih =>
    rw [Code.Stmt.lineTokens] at ih
    simp [Code.Stmt.linePieces, Code.Stmt.lineTokens, Code.Stmt.tokens, ih]

theorem tokens_blockPieces (body : List Code.Stmt) :
    Piece.tokens (Code.Stmt.blockPieces layout level body) =
      .fixed (.punctuator .openBrace) :: (Code.Stmt.lineTokens layout (level + 1) body ++
        [.fixed (.punctuator .closeBrace)]) := by
  cases body with
  | nil => rfl
  | cons s ss =>
    simp [Code.Stmt.blockPieces, tokens_linePieces, Code.Stmt.lineTokens, Code.Stmt.tokens]

/-- A statement starts with a token that ends no list of statements. -/
theorem exists_head_tokens (layout : Layout) (level : Nat) (s : Code.Stmt) : ∃ u us, s.tokens layout level = u :: us ∧
    u.kind ≠ .endOfFile ∧ u.kind ≠ .punctuator .closeBrace := by
  cases s with
  | variable_ kind x init => cases init <;> exact ⟨_, _, rfl, by simp [Tok.kind]⟩
  | function name params body => exact ⟨_, _, rfl, by decide⟩
  | block body =>
    exact ⟨.fixed (.punctuator .openBrace), _, tokens_blockPieces body, by decide⟩
  | expression e =>
    obtain ⟨u, us, hus, hu⟩ := startsPlain_tokens e
    rw [Code.Expr.tokens] at hus
    refine ⟨u, us ++ [.fixed (.punctuator .semicolon)], ?_, ?_, ?_⟩
    · simp [Code.Stmt.tokens, Code.Stmt.pieces, hus]
    all_goals
      intro hk
      rw [hk] at hu
      cases hu
  | return_ e => cases e <;> exact ⟨_, _, rfl, by decide⟩

/-- The productions read every statement of at most `n` tokens. -/
def StatementsRead (tape : Tape) (layout : Layout) (n : Nat) : Prop :=
  ∀ (s : Code.Stmt) (level : Nat), s.Printable → (s.tokens layout level).length ≤ n →
    ∀ rest, Reads tape s.tree.nesting (rules n).statement (s.tokens layout level ++ rest) rest
      (·.unplaced = s.tree)

theorem length_le_lineTokens (layout : Layout) (level : Nat) (ss : List Code.Stmt) :
    ss.length ≤ (Code.Stmt.lineTokens layout level ss).length := by
  induction ss with
  | nil => simp
  | cons s ss ih =>
    obtain ⟨u, us, hus, -⟩ := exists_head_tokens layout level s
    simp only [Code.Stmt.lineTokens, flatMap_cons, hus, length_append,
      length_cons] at ih ⊢
    omega

/-- **Statements.** All statements of a list are read, up to what ends the list. -/
theorem reads_statements (h : StatementsRead tape layout n) (isEnd : TokenKind → Bool)
    (hisEnd : ∀ k, k ≠ .endOfFile → k ≠ .punctuator .closeBrace → isEnd k = false) (rest : List Tok)
    (hstop : Reads tape 0 (statementTurn (rules n) isEnd) rest rest (· = .stop))
    {ss : List Code.Stmt} (hss : Code.Stmt.PrintableList ss)
    (hn : (Code.Stmt.lineTokens layout level ss).length ≤ n) :
    Reads tape (nestingOfList (Code.Stmt.trees ss)) (statements (rules n) isEnd)
    (Code.Stmt.lineTokens layout level ss ++ rest) rest
      fun as => as.map unplaced = Code.Stmt.trees ss := by
  rw [statements]
  refine reads_many fun bound hbound => ?_
  have hlength := length_le_lineTokens layout level ss
  rw [length_append] at hbound
  replace hbound : ss.length + 1 < bound := by omega
  clear hlength
  induction ss generalizing bound with
  | nil =>
    obtain ⟨bound, rfl⟩ := Nat.exists_eq_succ_of_ne_zero (Nat.ne_zero_of_lt hbound)
    exact reads_stop (safe_statementTurn _ _) (by omega) hstop rfl
  | cons s ss ih =>
    obtain ⟨bound, rfl⟩ := Nat.exists_eq_succ_of_ne_zero (Nat.ne_zero_of_lt hbound)
    rw [length_cons] at hbound
    rw [Code.Stmt.lineTokens, flatMap_cons, length_append] at hn
    have hread := h s level hss.1 (by omega) (Code.Stmt.lineTokens layout level ss ++ rest)
    obtain ⟨u, us, hus, hend, hbrace⟩ := exists_head_tokens layout level s
    rw [Code.Stmt.lineTokens, flatMap_cons, append_assoc, ← Code.Stmt.lineTokens, hus]
    rw [hus] at hread
    have hturn := reads_statementTurn isEnd (by simp [hisEnd u.kind hend hbrace, hend])
      hread
    refine reads_next (safe_statementTurn _ _) (by omega) hturn fun a ha => ?_
    refine (ih hss.2 ?_ bound (by omega)).mono fun as has => ?_
    · rw [Code.Stmt.lineTokens]
      omega
    · rw [map_cons, ha, has, Code.Stmt.trees]

theorem reads_block (h : StatementsRead tape layout n) {body : List Code.Stmt}
    (hbody : Code.Stmt.PrintableList body)
    (hn : (Code.Stmt.lineTokens layout level body).length ≤ n) (rest : List Tok) :
    Reads tape (nestingOfList (Code.Stmt.trees body)) (block (rules n))
    (.fixed (.punctuator .openBrace) ::
        (Code.Stmt.lineTokens layout level body ++ .fixed (.punctuator .closeBrace) :: rest)) rest
      fun b => b.2.map unplaced = Code.Stmt.trees body := by
  have hstatements := reads_statements h (· = .punctuator .closeBrace) (fun k _ hk => by simp [hk])
    (.fixed (.punctuator .closeBrace) :: rest) (reads_current (.pure rfl)) hbody hn
  refine reads_position fun start => reads_expect rfl ?_
  refine hstatements.bind_flat (fun as has => ?_) fun as => ?_
  · exact reads_expect rfl (reads_rangeFrom fun r => .pure has)
  · exact (safe_expect (by simp)).bind fun _ _ => (safe_rangeFrom _).bind fun _ _ => .pure trivial

theorem safe_missingStatement : Safe missingStatement fun _ => True :=
  (safe_look _).bind fun _ _ => .pure trivial

/-- A statement, if the expressions and the statements in it are read. -/
theorem reads_statement (h : PartsRead tape n) (hs : StatementsRead tape layout n) {s : Code.Stmt}
    (hprintable : s.Printable) (hn : (s.tokens layout level).length ≤ n + 1) (rest : List Tok) :
    Reads tape s.tree.nesting (statement (rules n)) (s.tokens layout level ++ rest) rest
      (·.unplaced = s.tree) := by
  cases s with
  | variable_ kind x init =>
    have htokens : (Code.Stmt.variable_ kind x init).tokens layout level =
        .fixed (.keyword kind.keyword) :: .name x ::
          (initializerTokens init ++ [.fixed (.punctuator .semicolon)]) := by
      cases init <;> simp [Code.Stmt.tokens, Code.Stmt.pieces, initializerTokens, Code.Expr.tokens]
    rw [htokens] at hn ⊢
    simp only [length_cons, length_append] at hn
    have hread := reads_variableStatement h (by omega) kind x hprintable.2 (by omega) rest
    have hkeyword : keywordStatement (rules n) kind.keyword = variableStatement (rules n) := by
      cases kind <;> rfl
    have hlevels : (Code.Stmt.variable_ kind x init).tree.nesting =
        Expr.nesting? (init.map Code.Expr.tree) + 1 := by
      simp [Code.Stmt.tree, ofVariable, nesting, mostLevels]
    simp only [cons_append, append_assoc, nil_append]
    rw [hlevels]
    refine reads_nested (reads_position fun start => reads_current ?_) safe_missingStatement
    simp only [Tok.kind, hkeyword]
    exact hread
  | function name params body =>
    have htokens : (Code.Stmt.function name params body).tokens layout level =
        .fixed (.keyword .function_) :: .name name :: .fixed (.punctuator .openParen) ::
          (listTokens (fun x => [.name x]) params ++ .fixed (.punctuator .closeParen) ::
            .fixed (.punctuator .openBrace) :: (Code.Stmt.lineTokens layout (level + 1) body ++
              [.fixed (.punctuator .closeBrace)])) := by
      simp [Code.Stmt.tokens, Code.Stmt.pieces, tokens_namePieces, tokens_blockPieces]
    rw [htokens] at hn ⊢
    simp only [length_cons, length_append] at hn
    have hbody := reads_block hs hprintable.2.2
      (show (Code.Stmt.lineTokens layout (level + 1) body).length ≤ n by omega) rest
    simp only [cons_append, append_assoc, nil_append]
    refine reads_nested ?_ safe_missingStatement
    refine reads_position fun start => reads_current (reads_position fun start => ?_)
    exact reads_functionDeclaration (by omega) name params hbody start
  | block body =>
    have htokens : (Code.Stmt.block body).tokens layout level =
        .fixed (.punctuator .openBrace) :: (Code.Stmt.lineTokens layout (level + 1) body ++
          [.fixed (.punctuator .closeBrace)]) := tokens_blockPieces body
    rw [htokens] at hn ⊢
    simp only [length_cons, length_append] at hn
    have hbody := reads_block hs hprintable
      (show (Code.Stmt.lineTokens layout (level + 1) body).length ≤ n by omega) rest
    simp only [cons_append, append_assoc, nil_append]
    refine reads_nested (reads_position fun start => reads_current ?_) safe_missingStatement
    refine hbody.bind_flat (fun b hb => .pure ?_) fun b => .pure trivial
    rw [unplaced, Stmt.clear, clearList_eq_map, Code.Stmt.tree, ← hb]
    rfl
  | expression e =>
    have htokens : (Code.Stmt.expression e).tokens layout level =
        e.tokens ++ [.fixed (.punctuator .semicolon)] := by
      simp [Code.Stmt.tokens, Code.Stmt.pieces, Code.Expr.tokens]
    rw [htokens] at hn ⊢
    simp only [length_cons, length_append] at hn
    rw [append_assoc]
    have hread := reads_expressionStatement h hprintable (by omega) rest
    exact reads_nested (reads_statementBody_expression hprintable hread) safe_missingStatement
  | return_ e =>
    cases e with
    | none =>
      refine reads_nested (reads_position fun start => reads_current ?_) safe_missingStatement
      exact reads_returnStatement_none (rules n) rest
    | some e =>
      have htokens : (Code.Stmt.return_ (some e)).tokens layout level =
          .leading (.keyword .return_) :: (e.tokens ++ [.fixed (.punctuator .semicolon)]) := by
        simp [Code.Stmt.tokens, Code.Stmt.pieces, Code.Expr.tokens]
      rw [htokens] at hn ⊢
      simp only [length_cons, length_append] at hn
      simp only [cons_append, append_assoc, nil_append]
      refine reads_nested (reads_position fun start => reads_current ?_) safe_missingStatement
      exact reads_returnStatement h (hprintable e rfl) (by omega) rest

/-- Every statement is read, with as many levels of productions as it has tokens. -/
theorem statementsRead (tape : Tape) (layout : Layout) (n : Nat) :
    StatementsRead tape layout n := by
  induction n with
  | zero =>
    intro s level _ hn
    obtain ⟨u, us, hus, -⟩ := exists_head_tokens layout level s
    rw [hus] at hn
    cases hn
  | succ n ih =>
    intro s level hs hn rest
    have hparts : PartsRead tape n := ⟨rulesRead tape n, gives_expression (rulesRead tape n)⟩
    exact reads_statement hparts ih hs hn rest

end Nested

theorem tokens_programPieces (layout : Layout) (code : List Code.Stmt) :
    Piece.tokens (programPieces layout code) = Code.Stmt.lineTokens layout 0 code := by
  cases code with
  | nil => rfl
  | cons s ss =>
    simp only [programPieces, Piece.tokens_append, tokens_linePieces]
    split <;> simp [Code.Stmt.lineTokens, Code.Stmt.tokens]

theorem length_tokens_le {layout : Layout} (hlayout : layout.IsBlank) {code : List Code.Stmt}
    (h : Code.Stmt.PrintableList code) :
    (Code.Stmt.lineTokens layout 0 code).length ≤ (programText layout code).length := by
  have hstreams := streams_programText hlayout h
  rw [tokens_programPieces, skipShebang_programText layout h] at hstreams
  calc (Code.Stmt.lineTokens layout 0 code).length
      ≤ (Lexer.ofText (programText layout code)).scan.start.rest.length :=
        length_le_of_streams hstreams
    _ ≤ (programText layout code).toList.length := (Lexer.here_le_scan_start _).2
    _ = (programText layout code).length := String.length_toList

/-- **Programs.** The text of a printable program is read as the trees of its statements without a
fault, if it takes no more levels of nesting than there are. Otherwise it is found to nest too
deep. -/
theorem run?_programText {layout : Layout} (hlayout : layout.IsBlank) {code : List Code.Stmt}
    (h : Code.Stmt.PrintableList code) :
    ∃ statements s, run? (programText layout code) = some (statements, s) ∧
      (statements.map unplaced = Code.Stmt.trees code ∧ s.reports = [] ∧
          s.lexer.reports = [] ∧ nestingOfList (Code.Stmt.trees code) ≤ nestingLimit ∨
        Aborted s ∧ nestingLimit < nestingOfList (Code.Stmt.trees code)) := by
  have hstreams := streams_programText hlayout h
  rw [tokens_programPieces] at hstreams
  let tape : Tape := ⟨_, _, hstreams⟩
  have hbound : (Code.Stmt.lineTokens layout 0 code).length ≤
      recursionBound (programText layout code) := by
    have := length_tokens_le hlayout h
    rw [recursionBound]
    omega
  have hend : Reads tape 0 (statementTurn (rules (recursionBound (programText layout code)))
      (· = .endOfFile)) [] [] (· = .stop) := reads_current_nil (.pure rfl)
  have hstart : At tape (State.ofText (programText layout code))
      (Code.Stmt.lineTokens layout 0 code ++ []) :=
    ⟨⟨[], by simp [tape], rfl⟩, rfl, rfl, rfl⟩
  have hdepth : (State.ofText (programText layout code)).depth = 0 := rfl
  obtain ⟨statements, s, hrun, -, hres⟩ :=
    reads_statements (statementsRead tape layout _) (· = .endOfFile) (fun k hk _ => by simp [hk]) []
      hend h hbound _ hstart (hdepth ▸ Nat.zero_le _)
  rw [hdepth, Nat.zero_add] at hres
  refine ⟨statements, s, hrun, hres.imp_left ?_⟩
  rintro ⟨htrees, hs, hroom⟩
  refine ⟨htrees, hs.reports, ?_, hroom⟩
  cases hs.streams with
  | nil _ _ reports => exact reports

end Grammar

end LambdaLift
