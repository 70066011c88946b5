import LambdaLift.Grammar.Recursion
import LambdaLift.Proofs.Code.Pieces
import LambdaLift.Proofs.Grammar.Reads

/-!
# Reading expressions back

The tokens of a printable expression are read as its tree, by the production of its rank and by
every looser one, if the token after it ends the production.

* `endsAccess`, `endsOperand`, `endsChain`, `endsAssignment`, `endsExpression`: kinds of tokens that
  end a production.
* `RulesRead`: the productions read every expression that has not too many tokens.
* `rulesRead`: they do, by induction on the bound of the recursion.
-/

namespace LambdaLift

open List Expr

/-- The tokens of an expression. -/
def Code.Expr.tokens (e : Code.Expr) : List Tok :=
  Piece.tokens e.pieces

namespace Grammar

open Code (Expr.tokens)

/-! ## No arrow functions -/

section Arrow

variable {t : Tok} {ts : List Tok} {l : Lexer}

theorem Streams.kind_ne_arrow (h : Streams l ts) : l.kind ≠ .punctuator .arrow := by
  cases h with
  | nil kind _ _ =>
    rw [kind]
    decide
  | cons stands valid _ _ _ _ =>
    rw [stands.kind]
    exact (Tok.kind_ne valid).2.1

theorem Streams.scan (h : Streams l (t :: ts)) : Streams l.scan ts := by
  cases h with
  | cons _ _ _ _ _ more => exact more

theorem arrowFollows_eq (h : Streams l (t :: ts)) : arrowFollows l = false := by
  simp [arrowFollows, Streams.kind_ne_arrow (Streams.scan h)]

theorem arrowAfterBracketsWithin_eq (bound depth : Nat) (h : Streams l ts) :
    arrowAfterBracketsWithin bound depth l = false := by
  induction bound generalizing depth l ts with
  | zero => rfl
  | succ bound ih =>
    cases ts with
    | nil =>
      cases h with
      | nil kind _ _ => simp [arrowAfterBracketsWithin, kind]
    | cons t ts =>
      have hscan := Streams.scan h
      unfold arrowAfterBracketsWithin
      split
      · exact ih _ hscan
      · exact ih _ hscan
      · exact ih _ hscan
      · exact ih _ hscan
      · split
        · exact arrowFollows_eq h
        · exact ih _ hscan
      · split
        · exact arrowFollows_eq h
        · exact ih _ hscan
      · split
        · exact arrowFollows_eq h
        · exact ih _ hscan
      · rfl
      · exact ih _ hscan

theorem asyncArrowFollows_eq (h : Streams l (t :: ts)) : asyncArrowFollows l = false := by
  have hscan := Streams.scan h
  unfold asyncArrowFollows
  cases ts with
  | nil =>
    cases hscan with
    | nil kind _ _ => simp [kind]
  | cons u ts =>
    have harrow := arrowFollows_eq hscan
    have hbrackets := arrowAfterBracketsWithin_eq (l.scan.start.rest.length + 1) 0 hscan
    simp only [Bool.and_eq_false_iff]
    right
    split
    · exact harrow
    · exact hbrackets
    · rfl

variable {tape : Tape} {g : Rules}

theorem peeks_arrowModifier? :
    Peeks tape arrowModifier? (t :: ts) fun m => m = none ∨ m = some false := by
  unfold arrowModifier?
  refine (peeks_look _).bind fun _ _ => (peeks_look _).bind fun _ _ => ?_
  split
  · refine (peeks_look _).bind ?_
    rintro _ ⟨l, hl, rfl⟩
    rw [asyncArrowFollows_eq hl]
    exact .pure (.inl rfl)
  · exact .pure (.inr rfl)

theorem peeks_arrowParameters? : Peeks tape (arrowParameters? g) (t :: ts) (· = none) := by
  unfold arrowParameters?
  refine peeks_current.bind fun k _ => ?_
  split
  · refine (peeks_look _).bind ?_
    rintro _ ⟨l, hl, rfl⟩
    rw [arrowFollows_eq hl]
    exact .pure rfl
  · refine (peeks_look _).bind ?_
    rintro _ ⟨l, hl, rfl⟩
    rw [arrowAfterBrackets, arrowAfterBracketsWithin_eq _ _ hl]
    exact .pure rfl
  · exact .pure rfl

/-- No arrow function starts in lifted code. -/
theorem peeks_arrowFunction? : Peeks tape (arrowFunction? g) (t :: ts) (· = none) := by
  unfold arrowFunction?
  refine (peeks_look _).bind fun start _ => peeks_arrowModifier?.bind fun m hm => ?_
  rcases hm with rfl | rfl
  · exact .pure rfl
  · refine peeks_arrowParameters?.bind fun params hparams => ?_
    rw [hparams]
    exact .pure rfl

end Arrow

/-! ## What ends a production -/

/-- No access and no call follows, and no function after the word `async`. -/
def endsAccess : TokenKind → Bool
  | .punctuator .dot | .punctuator .questionDot | .punctuator .openBracket
  | .punctuator .openParen | .template | .templateHead | .keyword .function_ => false
  | _ => true

/-- No operator after an operand follows either. -/
def endsOperand (k : TokenKind) : Bool :=
  endsAccess k && (UpdateOp.ofToken? k).isNone

/-- No operator of a chain follows either. -/
def endsChain (k : TokenKind) : Bool :=
  endsOperand k && (BinaryOp.ofToken? k).all (·.level?.isNone)

/-- No choice and no assignment follows either. -/
def endsAssignment (k : TokenKind) : Bool :=
  endsChain k && k ≠ .punctuator .question && (BinaryOp.ofToken? k).all (!·.isAssignment)

/-- No comma follows either. -/
def endsExpression (k : TokenKind) : Bool :=
  endsAssignment k && k ≠ .punctuator .comma

/-- The production reads the tokens of `e` before a token that ends it, and gives the tree of
`e`. -/
def Gives (tape : Tape) (levels : Nat) (p : Parse Expr) (ends : TokenKind → Bool)
    (e : Code.Expr) : Prop :=
  ∀ t ts, ends t.kind = true →
    Reads tape levels p (e.tokens ++ t :: ts) (t :: ts) fun a => a.unplaced = e.tree

/-- The recursive productions read every expression of at most `n` tokens. -/
structure RulesRead (tape : Tape) (n : Nat) : Prop where
  assignment : ∀ e : Code.Expr, e.Printable → e.rank ≤ 3 → e.tokens.length ≤ n →
    Gives tape (e.tree.nesting + 1) (rules n).assignment endsAssignment e
  chain : ∀ e : Code.Expr, e.Printable → e.rank ≤ 1 → e.tokens.length ≤ n →
    ∀ floor, Gives tape e.tree.nesting ((rules n).chain floor) endsChain e
  unary : ∀ e : Code.Expr, e.Printable → e.rank ≤ 1 → e.tokens.length ≤ n →
    Gives tape e.tree.nesting (rules n).unary endsOperand e

/-! ## Leaves -/

section Leaves

variable {tape : Tape} {ts : List Tok}

theorem reads_name (x : String) :
    Reads tape 0 name (.name x :: ts) ts fun id => ∃ r, id = ⟨r, x, false⟩ := by
  unfold name word
  refine reads_current (reads_current (reads_position fun start => reads_look fun l hl => ?_))
  cases hl with
  | cons stands _ _ _ _ _ =>
    have hvalue : l.value = x := stands.carries
    rw [hvalue]
    exact reads_advance (reads_rangeFrom fun r => .pure ⟨r, rfl⟩)

theorem reads_numberLiteral (raw : String) :
    Reads tape 0 numberLiteral (.number raw :: ts) ts fun lit =>
      ∃ r, lit = ⟨r, numberSpelled raw, raw⟩ := by
  unfold numberLiteral
  refine reads_position fun start => reads_look fun l hl => reads_look fun l' hl' => ?_
  cases hl with
  | cons stands _ _ _ _ _ =>
    cases hl' with
    | cons stands' _ _ _ _ _ =>
      have hnumber : l.number = numberSpelled raw := stands.carries
      have htext : l'.text = raw := stands'.text
      rw [hnumber, htext]
      exact reads_advance (reads_rangeFrom fun r => .pure ⟨r, rfl⟩)

theorem reads_literal (raw : String) :
    Reads tape 0 literal (.string raw :: ts) ts fun lit =>
      ∃ r, lit = ⟨r, stringSpelled raw, raw, false⟩ := by
  unfold literal
  refine reads_position fun start => reads_look fun l hl => reads_look fun l' hl' => ?_
  cases hl with
  | cons stands _ _ _ _ _ =>
    cases hl' with
    | cons stands' _ _ _ _ _ =>
      have hvalue : l.value = stringSpelled raw := stands.carries
      have htext : l'.text = raw := stands'.text
      rw [hvalue, htext]
      exact reads_advance (reads_rangeFrom fun r => .pure ⟨r, rfl⟩)

/-- No function follows the word `async`. -/
theorem isAsyncFunction_eq {l : Lexer} {t u : Tok} (h : Streams l (t :: u :: ts))
    (hu : u.kind ≠ .keyword .function_) : isAsyncFunction l = false := by
  have hkind : l.scan.kind = u.kind := by
    cases Streams.scan h with
    | cons stands _ _ _ _ _ => exact stands.kind
  simp [isAsyncFunction, hkind, hu]

theorem reads_keywordExpression {k : Keyword} {make : Range → Expr} {e : Expr}
    (h : ∀ r, (make r).unplaced = e) :
    Reads tape 0 (keywordExpression make) (.fixed (.keyword k) :: ts) ts fun a => a.unplaced = e := by
  unfold keywordExpression
  exact reads_position fun start => reads_advance (reads_rangeFrom fun r => .pure (h r))

end Leaves

/-! ## Expressions that are not made of others by operators -/

/-- An expression that is a production of its own. -/
def isPrimary : Code.Expr → Bool
  | .name _ | .number _ | .string _ | .boolean _ | .null | .paren _ => true
  | _ => false

section Expressions

variable {tape : Tape} {n : Nat}

/-- What comes after a part of an expression, when the rest of the text is skipped. -/
theorem safe_close {p : Punctuator} {start : Nat} {make : Range → Expr} :
    Safe (do expect (.punctuator p); return make (← rangeFrom start)) fun _ => True :=
  (safe_expect (by simp)).bind fun _ _ => (safe_rangeFrom start).bind fun _ _ => .pure trivial

variable {ts : List Tok} {levels : Nat} {e : Code.Expr} {t : Tok} {op : BinaryOp}

theorem gives_parenthesized (h : Gives tape levels (expression (rules n)) endsExpression e) :
    Gives tape levels (parenthesized (rules n)) (fun _ => true) (.paren e) := by
  intro t ts _
  unfold parenthesized
  have htokens : (Code.Expr.paren e).tokens ++ t :: ts = .fixed (.punctuator .openParen) ::
      (e.tokens ++ .fixed (.punctuator .closeParen) :: t :: ts) := by
    simp [Code.Expr.tokens, Code.Expr.pieces]
  rw [htokens]
  refine reads_position fun start => reads_expect rfl ?_
  refine (reads_withIn (h _ _ rfl)).bind_flat (fun inner hinner => ?_) fun inner => safe_close
  refine reads_expect rfl (reads_rangeFrom fun r => .pure ?_)
  rw [unplaced, clear, ← unplaced, hinner, Code.Expr.tree]

theorem gives_primary (h : ∀ e : Code.Expr, e.Printable → e.tokens.length ≤ n →
      Gives tape (e.tree.nesting + 1) (expression (rules n)) endsExpression e) (e : Code.Expr)
    (he : e.Printable) (hprimary : isPrimary e = true) (hn : e.tokens.length ≤ n + 1) :
    Gives tape e.tree.nesting (primary (rules n)) (· ≠ .keyword .function_) e := by
  intro t ts ht
  have ht : t.kind ≠ .keyword .function_ := by simpa using ht
  unfold primary
  refine reads_position fun start => ?_
  cases e with
  | name x =>
    refine reads_current (reads_look fun l hl => ?_)
    rw [isAsyncFunction_eq hl ht]
    refine (reads_name x).bind_flat (fun id hid => ?_) fun id => .pure trivial
    obtain ⟨r, rfl⟩ := hid
    exact .pure rfl
  | number raw =>
    refine reads_current ((reads_numberLiteral raw).bind_flat (fun lit hlit => ?_) ?_)
    · obtain ⟨r, rfl⟩ := hlit
      exact .pure rfl
    · exact fun lit => .pure trivial
  | string raw =>
    refine reads_current ((reads_literal raw).bind_flat (fun lit hlit => ?_) ?_)
    · obtain ⟨r, rfl⟩ := hlit
      exact .pure rfl
    · exact fun lit => .pure trivial
  | boolean b =>
    cases b
    · exact reads_current (reads_keywordExpression fun r => rfl)
    · exact reads_current (reads_keywordExpression fun r => rfl)
  | null => exact reads_current (reads_keywordExpression fun r => rfl)
  | paren e =>
    have hlength : e.tokens.length ≤ n := by
      simp only [Code.Expr.tokens, Code.Expr.pieces, Piece.tokens_tok, Piece.tokens_append,
        length_cons, length_append] at hn ⊢
      omega
    exact reads_current (gives_parenthesized (h e he hlength) t ts rfl)
  | _ => cases hprimary

/-! ## Arguments -/

theorem safe_argumentTurn (g : Rules) : Safe (argumentTurn g) (·.isOver = true) := by
  refine safe_current.bind fun k hk => ?_
  rw [hk]
  exact .pure rfl

/-- The kinds of tokens that lifted expressions start with. -/
def startsPlain : TokenKind → Bool
  | .identifier | .number | .string => true
  | .punctuator p => [.openParen, .plus, .minus, .tilde, .bang, .plusPlus, .minusMinus].contains p
  | .keyword k => [.true_, .false_, .null_, .typeof_, .void_, .delete_].contains k
  | _ => false

/-- What an expression starts with. -/
theorem startsPlain_tokens (e : Code.Expr) :
    ∃ u us, e.tokens = u :: us ∧ startsPlain u.kind = true := by
  cases e with
  | unary op e => exact ⟨_, _, rfl, by cases op <;> rfl⟩
  | boolean b => exact ⟨_, _, rfl, by cases b <;> rfl⟩
  | update op e =>
    obtain ⟨u, us, hus, hu⟩ := startsPlain_tokens e
    rw [Code.Expr.tokens] at hus
    exact ⟨u, us ++ [.attached op.token], by simp [Code.Expr.tokens, Code.Expr.pieces, hus], hu⟩
  | _ => exact ⟨_, _, rfl, rfl⟩

theorem startsExpression_tokens (e : Code.Expr) :
    ∃ u us, e.tokens = u :: us ∧ startsExpression u.kind = true := by
  obtain ⟨u, us, hus, hu⟩ := startsPlain_tokens e
  refine ⟨u, us, hus, ?_⟩
  cases hk : u.kind with
  | punctuator p => cases p <;> first | rfl | (rw [hk] at hu; cases hu)
  | keyword k => cases k <;> first | rfl | (rw [hk] at hu; cases hu)
  | identifier | number | string => rfl
  | _ =>
    rw [hk] at hu
    cases hu

theorem gives_listElement (h : Gives tape levels (rules n).assignment endsAssignment e) :
    Gives tape levels (listElement (rules n)) endsAssignment e := by
  intro t ts ht
  obtain ⟨u, us, hus, hu⟩ := startsExpression_tokens e
  have hdots : u.kind ≠ .punctuator .ellipsis := by
    intro hk
    rw [hk] at hu
    cases hu
  have hread := h t ts ht
  rw [hus] at hread ⊢
  unfold listElement
  exact reads_position fun start => reads_accept_ne hdots (reads_withIn hread)

/-- Before an expression the next turn reads an element of the list. -/
theorem reads_argumentTurn {R : Turn Expr → Prop} {rest : List Tok}
    (h : Reads tape levels (listElement (rules n) >>= turnAtComma) (e.tokens ++ ts) rest R) :
    Reads tape levels (argumentTurn (rules n)) (e.tokens ++ ts) rest R := by
  obtain ⟨u, us, hus, hu⟩ := startsExpression_tokens e
  rw [hus] at h ⊢
  unfold argumentTurn
  refine reads_current ?_
  split
  · rename_i hk
    rw [hk] at hu
    cases hu
  · rename_i hk
    rw [hk] at hu
    cases hu
  · rw [if_pos (by simp [hu])]
    exact h

/-- Arguments in parentheses. -/
theorem reads_arguments (args : List Code.Expr)
    (h : ∀ e ∈ args, Gives tape (e.tree.nesting + 1) (rules n).assignment endsAssignment e)
    (ts : List Tok) :
    Reads tape (nestingOfList (Code.Expr.trees args)) (arguments (rules n))
    (.fixed (.punctuator .openParen) ::
        (listTokens Code.Expr.tokens args ++ .fixed (.punctuator .closeParen) :: ts)) ts
      fun as => as.map unplaced = args.map Code.Expr.tree := by
  have hsafe : ∀ a : Expr, Safe (turnAtComma a) fun _ => True := fun a => (safe_turnAtComma a).any
  have hlist : Reads tape (mostLevels (fun e : Code.Expr => e.tree.nesting + 1) args)
      (many (argumentTurn (rules n)))
      (listTokens Code.Expr.tokens args ++ .fixed (.punctuator .closeParen) :: ts)
      (.fixed (.punctuator .closeParen) :: ts)
      fun as => as.map unplaced = args.map Code.Expr.tree :=
    reads_list (safe_argumentTurn (rules n)) args (reads_current (.pure rfl))
      (fun e he us => reads_argumentTurn <| by
        refine (gives_listElement (h e he) _ us rfl).bind_flat (fun a ha => ?_) hsafe
        exact (reads_turnAtComma a rfl).mono fun turn hturn => ⟨a, hturn, ha⟩)
      (fun e he => reads_argumentTurn <| by
        refine (gives_listElement (h e he) _ ts rfl).bind_flat (fun a ha => ?_) hsafe
        exact (reads_turnAtComma_last a (by decide)).mono fun turn hturn => ⟨a, hturn, ha⟩)
  rw [arguments, Code.Expr.trees_eq_map, nestingOfList_eq, mostLevels_map]
  refine reads_expect rfl (hlist.bind_flat (fun as has => reads_expect rfl (.pure has)) fun as => ?_)
  exact (safe_expect (by simp)).bind fun _ _ => .pure trivial

theorem tokens_listPieces (args : List Code.Expr) :
    Piece.tokens (Code.Expr.listPieces args) = listTokens Code.Expr.tokens args := by
  have hmore : ∀ es : List Code.Expr,
      Piece.tokens (Code.Expr.morePieces es) = moreTokens Code.Expr.tokens es := by
    intro es
    induction es with
    | nil => rfl
    | cons e es ih =>
      rw [moreTokens] at ih
      simp [Code.Expr.morePieces, moreTokens, Code.Expr.tokens, ih]
  cases args with
  | nil => rfl
  | cons e es => simp [Code.Expr.listPieces, listTokens, Code.Expr.tokens, hmore]

theorem mem_printableList {args : List Code.Expr} (h : Code.Expr.PrintableList args) (he : e ∈ args)
    : e.rank ≤ 3 ∧ e.Printable := by
  induction args with
  | nil => simp at he
  | cons e' es ih =>
    rcases mem_cons.1 he with rfl | he
    · exact h.1
    · exact ih h.2 he

/-! ## Accesses and operators -/

/-- What an expression that can be called starts with. -/
theorem exists_head_of_rank_zero (e : Code.Expr) (h : e.rank = 0) :
    ∃ u us, e.tokens = u :: us ∧ u.kind ≠ .keyword .new_ ∧ PrefixOp.ofToken? u.kind = none := by
  cases e with
  | unary op e | update op e | assign x e => cases h
  | binary op a b =>
    simp only [Code.Expr.rank] at h
    split at h <;> cases h
  | boolean b => exact ⟨_, _, rfl, by cases b <;> decide⟩
  | name x | number raw | string raw | call f args =>
    exact ⟨_, _, rfl, by simp [Tok.kind], rfl⟩
  | null | paren e => exact ⟨_, _, rfl, by decide⟩

theorem safe_link? (g : Rules) (e : Expr) : Safe (link? g true e) (· = none) := by
  refine safe_current.bind fun k hk => ?_
  rw [hk]
  exact .pure rfl

theorem reads_link?_none (g : Rules) (e : Expr) (h : endsAccess t.kind = true) :
    Reads tape 0 (link? g true e) (t :: ts) (t :: ts) (· = none) := by
  unfold link?
  refine reads_current ?_
  split
  case h_7 => exact .pure rfl
  all_goals
    rename_i hk
    rw [hk] at h
    cases h

/-- The expressions within an expression of at most `n + 1` tokens are read. -/
structure PartsRead (tape : Tape) (n : Nat) : Prop extends RulesRead tape n where
  expression : ∀ e : Code.Expr, e.Printable → e.tokens.length ≤ n →
    Gives tape (e.tree.nesting + 1) (expression (rules n)) endsExpression e

/-- A call is read as a link after its callee. -/
theorem reads_link?_call (g : Rules) (a : Expr) {args : List Code.Expr} {mid : List Tok}
    {x : Code.Expr} (ha : a.unplaced = x.tree)
    (h : Reads tape levels (arguments g) (.fixed (.punctuator .openParen) :: mid) ts
      fun as => as.map unplaced = args.map Code.Expr.tree) :
    Reads tape levels (link? g true a) (.fixed (.punctuator .openParen) :: mid) ts fun next =>
      ∃ b, next = some b ∧ b.unplaced = .call noRange false x.tree (Code.Expr.trees args) := by
  have hcall : Reads tape levels (call g a false) (.fixed (.punctuator .openParen) :: mid) ts
      fun b => b.unplaced = .call noRange false x.tree (Code.Expr.trees args) := by
    refine h.bind_flat (fun as has => reads_rangeFrom fun r => .pure ?_) fun as => ?_
    · rw [unplaced, clear, ← unplaced, ha, clearList_eq_map,
        Code.Expr.trees_eq_map, ← has]
      rfl
    · exact (safe_rangeFrom _).bind fun _ _ => .pure trivial
  unfold link?
  refine reads_current ?_
  exact hcall.bind_flat (fun b hb => .pure ⟨b, rfl, hb⟩) fun b => .pure trivial

theorem gives_access (h : PartsRead tape n) (e : Code.Expr) (he : e.Printable) (hrank : e.rank = 0)
    (hn : e.tokens.length ≤ n + 1) : Gives tape e.tree.nesting (access (rules n)) endsAccess e := by
  intro t ts ht
  have hfunction : t.kind ≠ .keyword .function_ := by
    intro hk
    rw [hk] at ht
    cases ht
  have hlinks : ∀ a, Safe (iterate (link? (rules n) true) a) fun _ => True :=
    fun a => (safe_iterate (safe_link? _ a)).any
  unfold access
  by_cases hprimary : isPrimary e = true
  · have hread := gives_primary h.expression e he hprimary hn t ts (by simpa using hfunction)
    obtain ⟨u, us, hus, hu, -⟩ := exists_head_of_rank_zero e hrank
    rw [hus] at hread ⊢
    refine reads_current ?_
    rw [if_neg hu]
    refine hread.bind_flat (fun a ha => ?_) hlinks
    exact reads_iterate_none (safe_link? _) (reads_link?_none _ a ht) ha
  · cases e with
    | call f args =>
      have htokens : (Code.Expr.call f args).tokens ++ t :: ts = .name f ::
          .fixed (.punctuator .openParen) ::
            (listTokens Code.Expr.tokens args ++ .fixed (.punctuator .closeParen) :: t :: ts) := by
        simp [Code.Expr.tokens, Code.Expr.pieces, tokens_listPieces]
      have hlength : (listTokens Code.Expr.tokens args).length ≤ n := by
        have := congrArg length htokens
        simp only [length_append, length_cons] at this
        omega
      have hargs := reads_arguments args (fun e' he' => h.assignment e' (mem_printableList he.2 he').2
        (mem_printableList he.2 he').1 ((length_le_listTokens he').trans hlength)) (t :: ts)
      have hcallee := gives_primary h.expression (.name f) he.1 rfl (Nat.le_add_left ..)
        (.fixed (.punctuator .openParen)) (listTokens Code.Expr.tokens args ++ .fixed (.punctuator .closeParen) :: t :: ts)
        (by decide)
      rw [htokens]
      refine reads_current ?_
      rw [if_neg (by simp [Tok.kind])]
      refine hcallee.flat_bind (fun a ha => ?_) hlinks
      exact reads_iterate_once (safe_link? _) (reads_link?_call _ a ha hargs)
        (fun b _ => reads_link?_none _ b ht) (by simp)
    | name x | number raw | string raw | boolean b | null | paren e => exact absurd rfl hprimary
    | unary op e | update op e | assign x e => cases hrank
    | binary op a b =>
      simp only [Code.Expr.rank] at hrank
      split at hrank <;> cases hrank

theorem safe_missing : Safe (ident <$> missingName) fun _ => True :=
  Safe.map (Q := fun _ => True) ((safe_look _).bind fun _ _ => .pure trivial)

theorem safe_afterAccess (e : Expr) : Safe (do
    match UpdateOp.ofToken? (← current) with
    | some op =>
      if ← look (·.lineBreakBefore) then
        return e
      else
        advance
        return .update (← rangeFrom e.range.start) op e
    | none => return e) fun _ => True := by
  refine safe_current.bind fun k hk => ?_
  rw [hk]
  exact .pure trivial

theorem gives_updated (h : PartsRead tape n) (e : Code.Expr) (he : e.Printable) (hrank : e.rank = 0)
    (hn : e.tokens.length ≤ n + 1) :
    Gives tape e.tree.nesting (updated (rules n)) endsOperand e := by
  intro t ts ht
  obtain ⟨haccess, hupdate⟩ := Bool.and_eq_true_iff.1 ht
  unfold updated
  refine (gives_access h e he hrank hn t ts haccess).bind_flat (fun a ha => reads_current ?_)
    safe_afterAccess
  rw [Option.isNone_iff_eq_none.1 hupdate]
  exact .pure ha

/-- An operator after its operand is on the same line. -/
theorem gives_update (h : PartsRead tape n) (op : UpdateOp) (he : e.Printable) (hrank : e.rank = 0)
    (hn : e.tokens.length ≤ n + 1) :
    Gives tape e.tree.nesting (updated (rules n)) endsOperand (.update op e) := by
  intro t ts ht
  have htokens : (Code.Expr.update op e).tokens ++ t :: ts =
      e.tokens ++ .attached op.token :: t :: ts := by
    simp [Code.Expr.tokens, Code.Expr.pieces]
  have hends : endsAccess (Tok.attached op.token).kind = true := by
    cases op <;> rfl
  have hop : UpdateOp.ofToken? (Tok.attached op.token).kind = some op := by
    cases op <;> rfl
  rw [htokens]
  unfold updated
  refine (gives_access h e he hrank hn _ _ hends).bind_flat (fun a ha => reads_current ?_)
    safe_afterAccess
  rw [hop]
  refine reads_look fun l hl => ?_
  cases hl with
  | cons stands _ _ _ _ _ =>
    rw [stands.attached _ rfl]
    refine reads_advance (reads_rangeFrom fun r => .pure ?_)
    rw [unplaced, clear, ← unplaced, ha, Code.Expr.tree]

/-- An operand, with operators before or after it. -/
theorem gives_unary (h : PartsRead tape n) (e : Code.Expr) (he : e.Printable) (hrank : e.rank ≤ 1)
    (hn : e.tokens.length ≤ n + 1) : Gives tape e.tree.nesting (unary (rules n)) endsOperand e := by
  have hplain : ∀ {u : Tok} {us t ts}, PrefixOp.ofToken? u.kind = none →
      Reads tape e.tree.nesting (updated (rules n)) (u :: us ++ t :: ts) (t :: ts)
        (fun a => a.unplaced = e.tree) →
      Reads tape e.tree.nesting (unary (rules n)) (u :: us ++ t :: ts) (t :: ts)
        fun a => a.unplaced = e.tree := by
    intro u us t ts hu hread
    unfold unary
    refine reads_current ?_
    rw [hu]
    exact hread
  intro t ts ht
  by_cases hzero : e.rank = 0
  · have hread := gives_updated h e he hzero hn t ts ht
    obtain ⟨u, us, hus, -, hu⟩ := exists_head_of_rank_zero e hzero
    rw [hus] at hread ⊢
    exact hplain hu hread
  · cases e with
    | unary op e =>
      have htokens : (Code.Expr.unary op e).tokens = .fixed op.token :: e.tokens := by
        simp only [Code.Expr.tokens, Code.Expr.pieces, Piece.tokens_tok, Piece.tokens_append]
        split <;> simp
      have hop : PrefixOp.ofToken? (Tok.fixed op.token).kind = some op := by
        cases op <;> rfl
      rw [htokens] at hn ⊢
      have hread := h.unary e he.2 he.1 (Nat.le_of_succ_le_succ hn) t ts ht
      unfold unary
      refine reads_current ?_
      rw [hop]
      refine reads_nested (reads_position fun start => reads_advance ?_) safe_missing
      refine hread.bind_flat (fun a ha => reads_rangeFrom fun r => .pure ?_) fun a => ?_
      · rw [unplaced, clear, ← unplaced, ha, Code.Expr.tree]
      · exact (safe_rangeFrom _).bind fun _ _ => .pure trivial
    | update op e =>
      have hlength : e.tokens.length ≤ n + 1 := by
        simp only [Code.Expr.tokens, Code.Expr.pieces, Piece.tokens_append, length_append] at hn ⊢
        omega
      have hread := gives_update h op he.2 he.1 hlength t ts ht
      obtain ⟨u, us, hus, -, hu⟩ := exists_head_of_rank_zero e he.1
      have htokens : (Code.Expr.update op e).tokens = u :: (us ++ [.attached op.token]) := by
        rw [Code.Expr.tokens] at hus
        simp [Code.Expr.tokens, Code.Expr.pieces, hus]
      rw [htokens] at hread ⊢
      exact hplain hu hread
    | assign x e => simp [Code.Expr.rank] at hrank
    | binary op a b =>
      simp only [Code.Expr.rank] at hrank
      split at hrank <;> omega
    | _ => exact absurd rfl hzero

/-! ## Chains of operators -/

theorem peeks_chainOperator? :
    Peeks tape chainOperator? (t :: ts) fun o =>
      o = (BinaryOp.ofToken? t.kind).bind fun op => op.level?.map (op, ·) := by
  intro s hs
  rw [chainOperator?, get_bind, hs.allowsIn]
  refine (peeks_current.bind (S := fun o => o = (BinaryOp.ofToken? t.kind).bind fun op =>
    op.level?.map (op, ·)) fun k hk => ?_) s hs
  rw [hk]
  cases BinaryOp.ofToken? t.kind with
  | none => exact .pure rfl
  | some op => exact .pure (by simp)

theorem safe_chainStep (g : Rules) (floor : Nat) (left : Expr) :
    Safe (chainStep g floor left) (· = none) := by
  have hnone : Safe chainOperator? (· = none) := by
    intro s hs
    rw [chainOperator?, get_bind]
    refine (safe_current.bind (S := fun o => o = none) fun k hk => ?_) s hs
    rw [hk]
    exact .pure rfl
  refine hnone.bind fun o ho => ?_
  rw [ho]
  exact .pure rfl

theorem reads_chainStep_none (g : Rules) (floor : Nat) (left : Expr)
    (ht : endsChain t.kind = true) :
    Reads tape 0 (chainStep g floor left) (t :: ts) (t :: ts) (· = none) := by
  refine peeks_chainOperator?.reads fun o ho => ?_
  have hnone : o = none := by
    rw [ho]
    have hall := (Bool.and_eq_true_iff.1 ht).2
    cases hop : BinaryOp.ofToken? t.kind with
    | none => rfl
    | some op =>
      rw [hop] at hall
      have : op.level? = none := by simpa using hall
      simp [this]
  rw [hnone]
  exact .pure rfl

theorem safe_chainSteps (g : Rules) (floor : Nat) (left : Expr) :
    Safe (iterate (chainStep g floor) left) fun _ => True :=
  (safe_iterate (safe_chainStep g floor left)).any

theorem endsOperand_of_endsChain {k : TokenKind} (h : endsChain k = true) : endsOperand k = true :=
  (Bool.and_eq_true_iff.1 h).1

/-- An operand is a chain of no operators. -/
theorem gives_chain_operand (h : PartsRead tape n) (e : Code.Expr) (he : e.Printable)
    (hrank : e.rank ≤ 1) (hn : e.tokens.length ≤ n + 1) (floor : Nat) :
    Gives tape e.tree.nesting (chain (rules n) floor) endsChain e := by
  intro t ts ht
  rw [chain]
  refine (gives_unary h e he hrank hn t ts (endsOperand_of_endsChain ht)).bind_flat (fun a ha => ?_)
    (safe_chainSteps _ floor)
  exact reads_iterate_none (safe_chainStep _ floor) (reads_chainStep_none _ floor a ht) ha

/-- The operator at the current token with its operands. -/
theorem reads_operation {left : Expr} {right : Parse Expr} {u : Tok} {rest : List Tok} {l r : Expr}
    (hl : left.unplaced = l) (h : Reads tape levels right ts rest fun a => a.unplaced = r) :
    Reads tape levels (operation op left right) (u :: ts) rest fun a =>
      a.unplaced = .binary noRange op noRange l r := by
  unfold operation
  refine reads_tokenRange fun opRange => reads_advance ?_
  refine h.bind_flat (fun a ha => reads_rangeFrom fun r => .pure ?_) fun a => ?_
  · rw [unplaced, clear, ← unplaced, ← unplaced, hl, ha]
  · exact (safe_rangeFrom _).bind fun _ _ => .pure trivial

theorem tokens_binary (op : BinaryOp) (a b : Code.Expr) : (Code.Expr.binary op a b).tokens =
    (Code.Expr.paren a).tokens ++ .fixed op.token :: (Code.Expr.paren b).tokens := by
  simp [Code.Expr.tokens, Code.Expr.pieces]

theorem nesting_binary (hassign : op ≠ .assign) (a b : Code.Expr) :
    (Code.Expr.binary op a b).tree.nesting =
      max (Code.Expr.paren a).tree.nesting (Code.Expr.paren b).tree.nesting := by
  simp [Code.Expr.tree, nesting, hassign]

/-- The operators of chains. -/
theorem exists_level (hop : op.isLiftable = true) (hassign : op ≠ .assign) (hcomma : op ≠ .comma) :
    endsOperand op.token = true ∧
      ∃ level, (BinaryOp.ofToken? op.token).bind (fun op => op.level?.map (op, ·)) =
        some (op, level) ∧ 0 < level := by
  cases op <;> first
    | cases hop; done
    | exact absurd rfl hassign
    | exact absurd rfl hcomma
    | exact ⟨rfl, _, rfl, by decide⟩

/-- An operator between two operands in parentheses. -/
theorem gives_chain_binary (h : PartsRead tape n) {a b : Code.Expr}
    (he : (Code.Expr.binary op a b).Printable) (hcomma : op ≠ .comma)
    (hn : (Code.Expr.binary op a b).tokens.length ≤ n + 1) :
    Gives tape (Code.Expr.binary op a b).tree.nesting (chain (rules n) 0) endsChain
      (.binary op a b) := by
  intro t ts ht
  obtain ⟨hop, hassign, ha, hb⟩ := he
  obtain ⟨hends, level, hlevel, hpos⟩ := exists_level hop hassign hcomma
  rw [tokens_binary] at hn ⊢
  simp only [length_append, length_cons] at hn
  have hleft := gives_unary h (.paren a) ha (Nat.zero_le _) (by omega) (.fixed op.token)
    ((Code.Expr.paren b).tokens ++ t :: ts) hends
  have hright := h.chain (.paren b) hb (Nat.zero_le _) (by omega) (rightFloor op level) t ts ht
  rw [chain, append_assoc, cons_append, nesting_binary hassign]
  refine hleft.bind (fun l hl => ?_) (safe_chainSteps _ 0)
  refine reads_iterate_once (safe_chainStep _ 0) ?_
    (fun b _ => reads_chainStep_none _ 0 b ht) (by simp)
  refine peeks_chainOperator?.reads fun o ho => ?_
  rw [ho, Tok.kind, hlevel]
  simp only [hpos, ↓reduceIte]
  exact (reads_operation hl hright).bind_flat (fun b hb => .pure ⟨b, rfl, hb⟩) fun b => .pure trivial

/-- A chain of at most one operator. -/
theorem gives_chain (h : PartsRead tape n) (e : Code.Expr) (he : e.Printable) (hrank : e.rank ≤ 2)
    (hn : e.tokens.length ≤ n + 1) : Gives tape e.tree.nesting (chain (rules n) 0) endsChain e := by
  by_cases hone : e.rank ≤ 1
  · exact gives_chain_operand h e he hone hn 0
  · cases e with
    | binary op a b =>
      refine gives_chain_binary h he ?_ hn
      rintro rfl
      simp [Code.Expr.rank] at hrank
    | assign x e => simp [Code.Expr.rank] at hrank
    | _ => simp [Code.Expr.rank] at hone

/-! ## Assignments and commas -/

theorem safe_afterChain (g : Rules) (e : Expr) : Safe (do
    if ← accept (.punctuator .question) then
      let a ← withIn true g.assignment
      expect (.punctuator .colon)
      let b ← g.assignment
      return .other (.ofKind .expression .conditionalExpression (← rangeFrom e.range.start)
        [e.node .condition, a.node .whenTrue, b.node .whenFalse])
    else
      return e) fun _ => True := by
  refine (safe_accept (by simp)).bind fun b hb => ?_
  rw [hb]
  exact .pure trivial

theorem reads_conditional {g : Rules} {us : List Tok} {e : Expr}
    (h : Reads tape levels (chain g 0) ts (t :: us) fun a => a.unplaced = e)
    (ht : t.kind ≠ .punctuator .question) :
    Reads tape levels (conditional g) ts (t :: us) fun a => a.unplaced = e :=
  h.bind_flat (fun _ ha => reads_accept_ne ht (.pure ha)) (safe_afterChain g)

/-- What follows the value or the target of an assignment. -/
def assignmentRest (g : Rules) (e : Expr) : Parse Expr := do
  match BinaryOp.ofToken? (← current) with
  | some op => if op.isAssignment then operation op e g.assignment else return e
  | none => return e

theorem safe_assignmentRest (g : Rules) (e : Expr) : Safe (assignmentRest g e) fun _ => True := by
  refine safe_current.bind fun k hk => ?_
  rw [hk]
  exact .pure trivial

/-- A value or an assignment to a name. -/
theorem gives_assignment (h : PartsRead tape n) (e : Code.Expr) (he : e.Printable)
    (hrank : e.rank ≤ 3) (hn : e.tokens.length ≤ n + 1) :
    Gives tape (e.tree.nesting + 1) (assignment (rules n)) endsAssignment e := by
  intro t ts ht
  have hpeek : Peeks tape (arrowFunction? (rules n)) (e.tokens ++ t :: ts) (· = none) := by
    obtain ⟨u, us, hus, -⟩ := startsExpression_tokens e
    rw [hus]
    exact peeks_arrowFunction?
  unfold assignment
  refine reads_nested (hpeek.reads fun arrow harrow => ?_) safe_missing
  rw [harrow]
  by_cases htwo : e.rank ≤ 2
  · simp only [endsAssignment, Bool.and_eq_true, decide_eq_true_eq] at ht
    obtain ⟨⟨hchain, hquestion⟩, hassign⟩ := ht
    have hread := gives_chain h e he htwo hn t ts hchain
    refine (reads_conditional hread hquestion).bind_flat (fun a ha => reads_current ?_)
      (safe_assignmentRest _)
    cases hop : BinaryOp.ofToken? t.kind with
    | none => exact .pure ha
    | some op =>
      rw [hop] at hassign
      have hplain : op.isAssignment = false := by simpa using hassign
      simp only [hplain, Bool.false_eq_true, ↓reduceIte]
      exact .pure ha
  · cases e with
    | assign x e =>
      have htokens : (Code.Expr.assign x e).tokens ++ t :: ts =
          (Code.Expr.name x).tokens ++ .fixed (.punctuator .equal) :: (e.tokens ++ t :: ts) := by
        simp [Code.Expr.tokens, Code.Expr.pieces]
      have hlength : e.tokens.length ≤ n := by
        have := congrArg length htokens
        simp only [length_append, length_cons] at this
        omega
      have hleft := gives_chain h (.name x) he.1 (Nat.zero_le _) (Nat.le_add_left ..)
        (.fixed (.punctuator .equal)) (e.tokens ++ t :: ts) rfl
      have hright := h.assignment e he.2.2 he.2.1 hlength t ts ht
      rw [htokens]
      refine (reads_conditional hleft (by decide)).flat_bind (fun a ha => reads_current ?_)
        (safe_assignmentRest _)
      exact reads_operation ha hright
    | binary op a b =>
      simp only [Code.Expr.rank] at hrank htwo
      by_cases hop : op = .comma <;> simp [hop] at hrank htwo
    | _ => simp [Code.Expr.rank] at htwo

theorem expression_eq (g : Rules) :
    expression g = (do iterate (commaStep g) (← g.assignment)) := rfl

theorem safe_commaStep (g : Rules) (left : Expr) : Safe (commaStep g left) (· = none) := by
  refine safe_current.bind fun k hk => ?_
  rw [hk]
  exact .pure rfl

theorem safe_commaSteps (g : Rules) (left : Expr) :
    Safe (iterate (commaStep g) left) fun _ => True :=
  (safe_iterate (safe_commaStep g left)).any

theorem reads_commaStep_none (g : Rules) (left : Expr) (ht : t.kind ≠ .punctuator .comma) :
    Reads tape 0 (commaStep g left) (t :: ts) (t :: ts) (· = none) := by
  refine reads_current ?_
  rw [if_neg ht]
  exact .pure rfl

theorem gives_expression (h : RulesRead tape n) (e : Code.Expr) (he : e.Printable)
    (hn : e.tokens.length ≤ n) :
    Gives tape (e.tree.nesting + 1) (expression (rules n)) endsExpression e := by
  intro t ts ht
  obtain ⟨hends, hcomma⟩ := Bool.and_eq_true_iff.1 ht
  have hcomma : t.kind ≠ .punctuator .comma := by simpa using hcomma
  rw [expression_eq]
  by_cases hrank : e.rank ≤ 3
  · refine (h.assignment e he hrank hn t ts hends).bind_flat (fun a ha => ?_) (safe_commaSteps _)
    exact reads_iterate_none (safe_commaStep _) (reads_commaStep_none _ a hcomma) ha
  · cases e with
    | binary op a b =>
      obtain rfl : op = .comma := by
        by_contra hop
        simp [Code.Expr.rank, hop] at hrank
      rw [tokens_binary] at hn ⊢
      simp only [length_append, length_cons] at hn
      have hleft := h.assignment (.paren a) he.2.2.1 (Nat.zero_le _) (by omega)
        (.fixed (.punctuator .comma)) ((Code.Expr.paren b).tokens ++ t :: ts) rfl
      have hright := h.assignment (.paren b) he.2.2.2 (Nat.zero_le _) (by omega) t ts hends
      rw [append_assoc, cons_append, nesting_binary he.2.1, ← Nat.add_max_add_right]
      refine hleft.bind (fun l hl => ?_) (safe_commaSteps _)
      refine reads_iterate_once (safe_commaStep _) ?_
        (fun b _ => reads_commaStep_none _ b hcomma) (by simp)
      refine reads_current (reads_tokenRange fun opRange => reads_advance ?_)
      refine hright.bind_flat (fun r hr => reads_rangeFrom fun range => .pure ⟨_, rfl, ?_⟩) fun r => ?_
      · rw [unplaced, clear, ← unplaced, ← unplaced, hl, hr]
        rfl
      · exact (safe_rangeFrom _).bind fun _ _ => .pure trivial
    | _ => simp [Code.Expr.rank] at hrank

/-- **Reading expressions back**: the productions read every expression of at most as many tokens
as the bound of the recursion. -/
theorem rulesRead (tape : Tape) (n : Nat) : RulesRead tape n := by
  induction n with
  | zero =>
    have hnone : ∀ e : Code.Expr, ¬e.tokens.length ≤ 0 := by
      intro e
      obtain ⟨u, us, hus, -⟩ := startsExpression_tokens e
      simp [hus]
    exact ⟨fun e _ _ hn => absurd hn (hnone e), fun e _ _ hn => absurd hn (hnone e),
      fun e _ _ hn => absurd hn (hnone e)⟩
  | succ n ih =>
    have hparts : PartsRead tape n := ⟨ih, gives_expression ih⟩
    exact ⟨gives_assignment hparts, fun e he hrank hn floor =>
      gives_chain_operand hparts e he hrank hn floor, gives_unary hparts⟩

end Expressions

end Grammar

end LambdaLift
