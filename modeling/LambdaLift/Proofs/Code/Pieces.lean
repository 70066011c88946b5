import LambdaLift.Code.Layout
import LambdaLift.Proofs.Code.Tree
import LambdaLift.Proofs.Token.Stream

/-!
# The tokens of lifted code

* `Code.Expr.pieces`, `Code.Stmt.pieces`: the tokens and blanks that code is written with.
* `Code.Expr.Printable`, `Code.Stmt.Printable`: names and literals are such, and operands bind as
  tightly as their place asks for (`Code.Expr.rank`).
* `Code.Expr.wellSpaced`: no token of an expression runs into the next one.
* `Code.streams_programText`: the text of a printable program is read as its tokens.
-/

namespace LambdaLift

open Punctuator List Expr

namespace Piece

/-- A punctuator. -/
abbrev sign (p : Punctuator) : Piece :=
  tok (.fixed (.punctuator p))

/-- A keyword. -/
abbrev word (k : Keyword) : Piece :=
  tok (.fixed (.keyword k))

/-- A name. -/
abbrev ident (x : String) : Piece :=
  tok (.name x)

/-- One space. -/
abbrev space : Piece :=
  blank [' ']

end Piece

/-- The keyword of a variable declaration. -/
def VarKind.keyword : VarKind → Keyword
  | var => .var_
  | let_ => .let_
  | const_ => .const_

theorem VarKind.text_keyword (kind : VarKind) : kind.keyword.text = kind.text := by
  cases kind <;> rfl

/-- A layout with nothing but blanks. -/
structure Layout.IsBlank (layout : Layout) : Prop where
  indentation : ∀ c ∈ layout.indentation.toList, isGap c = true
  newline : ∀ c ∈ layout.newline.toList, isGap c = true

namespace Code

open Piece

mutual

/-- The pieces of an expression. -/
def Expr.pieces : Code.Expr → List Piece
  | .name x => [ident x]
  | .number raw => [tok (.number raw)]
  | .string raw => [tok (.string raw)]
  | .boolean b => [word (if b then .true_ else .false_)]
  | .null => [word .null_]
  | .paren e => sign .openParen :: (e.pieces ++ [sign .closeParen])
  | .unary op e =>
    tok (.fixed op.token) ::
      ((if PrefixOp.needsSpace op.text e.text then [space] else []) ++ e.pieces)
  | .update op e => e.pieces ++ [tok (.attached op.token)]
  | .binary op a b =>
    sign .openParen :: (a.pieces ++ sign .closeParen :: space :: tok (.fixed op.token) :: space ::
      sign .openParen :: (b.pieces ++ [sign .closeParen]))
  | .assign x e => ident x :: space :: sign .equal :: space :: e.pieces
  | .call f args => ident f :: sign .openParen :: (listPieces args ++ [sign .closeParen])

/-- The pieces of a list of expressions. -/
def Expr.listPieces : List Code.Expr → List Piece
  | [] => []
  | e :: es => e.pieces ++ morePieces es

/-- The pieces of expressions that follow another one in a list. -/
def Expr.morePieces : List Code.Expr → List Piece
  | [] => []
  | e :: es => sign .comma :: space :: (e.pieces ++ morePieces es)

end

/-- The pieces of names that follow another one in a list. -/
def moreNames : List String → List Piece
  | [] => []
  | x :: xs => sign .comma :: space :: ident x :: moreNames xs

/-- The pieces of a list of names. -/
def namePieces : List String → List Piece
  | [] => []
  | x :: xs => ident x :: moreNames xs

/-- What a line starts with, after the end of the line before. -/
def margin (layout : Layout) (level : Nat) : List Char :=
  (layout.newline ++ Printer.indentationOf layout level).toList

mutual

/-- The pieces of a statement. -/
def Stmt.pieces (layout : Layout) (level : Nat) : Code.Stmt → List Piece
  | .variable_ kind x none => [word kind.keyword, space, ident x, sign .semicolon]
  | .variable_ kind x (some e) =>
    word kind.keyword :: space :: ident x :: space :: sign .equal :: space ::
      (e.pieces ++ [sign .semicolon])
  | .function name params body =>
    word .function_ :: space :: ident name :: sign .openParen ::
      (namePieces params ++ sign .closeParen :: space :: Stmt.blockPieces layout level body)
  | .block body => Stmt.blockPieces layout level body
  | .expression e => e.pieces ++ [sign .semicolon]
  | .return_ none => [word .return_, sign .semicolon]
  | .return_ (some e) => tok (.leading (.keyword .return_)) :: space :: (e.pieces ++ [sign .semicolon])

/-- The pieces of statements in braces. -/
def Stmt.blockPieces (layout : Layout) (level : Nat) : List Code.Stmt → List Piece
  | [] => [sign .openBrace, sign .closeBrace]
  | s :: ss =>
    sign .openBrace :: blank (margin layout (level + 1)) ::
      (s.pieces layout (level + 1) ++ (Stmt.linePieces layout (level + 1) ss ++
        [blank (margin layout level), sign .closeBrace]))

/-- The pieces of statements on lines of their own. -/
def Stmt.linePieces (layout : Layout) (level : Nat) : List Code.Stmt → List Piece
  | [] => []
  | s :: ss => blank (margin layout level) :: (s.pieces layout level ++ Stmt.linePieces layout level ss)

end

/-! ## The text of the pieces -/

mutual

theorem Expr.spell_pieces (e : Code.Expr) : spell e.pieces = e.text.toList := by
  cases e with
  | name x | number raw | string raw => simp [pieces, Expr.text, Tok.text]
  | boolean b => cases b <;> rfl
  | null => rfl
  | paren e =>
    have := spell_pieces e
    simp [pieces, Expr.text, Tok.text, TokenKind.text?, Punctuator.text, this]
  | unary op e =>
    have := spell_pieces e
    simp only [pieces, Expr.text]
    split <;> simp [this, Tok.text, PrefixOp.text]
  | update op e =>
    have := spell_pieces e
    simp [pieces, Expr.text, Tok.text, UpdateOp.text, this]
  | binary op a b =>
    have ha := spell_pieces a
    have hb := spell_pieces b
    simp [pieces, Expr.text, Tok.text, TokenKind.text?, Punctuator.text, ha, hb]
  | assign x e =>
    have := spell_pieces e
    simp [pieces, Expr.text, Tok.text, TokenKind.text?, Punctuator.text, this]
  | call f args =>
    have := spell_listPieces args
    simp [pieces, Expr.text, Tok.text, TokenKind.text?, Punctuator.text, this]

theorem Expr.spell_listPieces (es : List Code.Expr) :
    spell (listPieces es) = (commaList (texts es)).toList := by
  cases es with
  | nil => rfl
  | cons e es =>
    have he := spell_pieces e
    have hes := spell_morePieces e es
    simp [listPieces, he, hes]

theorem Expr.spell_morePieces (e : Code.Expr) (es : List Code.Expr) :
    e.text.toList ++ spell (morePieces es) = (commaList (texts (e :: es))).toList := by
  cases es with
  | nil => simp [morePieces, texts, commaList]
  | cons e' es =>
    have he := spell_pieces e'
    have hes := spell_morePieces e' es
    simp only [commaList, texts] at hes
    simp [morePieces, texts, commaList, he, hes, Tok.text, TokenKind.text?,
      Punctuator.text]

end

theorem spell_namePieces (xs : List String) : spell (namePieces xs) = (commaList xs).toList := by
  cases xs with
  | nil => rfl
  | cons x xs =>
    simp only [namePieces, spell_tok, Tok.text]
    induction xs generalizing x with
    | nil => simp [moreNames, commaList]
    | cons y ys ih =>
      have := ih y
      simp only [commaList] at this
      simp [moreNames, commaList, this, Tok.text, TokenKind.text?, Punctuator.text]

/-! ## Printable code -/

/-- How tightly an expression binds as it is written: `0` for one that can be called or updated,
`1` for an operand, `2` for a chain of operators, `3` for an assignment, `4` with a comma. -/
def Expr.rank : Code.Expr → Nat
  | .unary .. | .update .. => 1
  | .binary op .. => if op = .comma then 4 else 2
  | .assign .. => 3
  | _ => 0

mutual

/-- An expression whose text stands for it. -/
def Expr.Printable : Code.Expr → Prop
  | .name x => IsName x
  | .number raw => IsNumber raw
  | .string raw => IsString raw
  | .boolean _ | .null => True
  | .paren e => e.Printable
  | .unary _ e => e.rank ≤ 1 ∧ e.Printable
  | .update _ e => e.rank = 0 ∧ e.Printable
  | .binary op a b => op.isLiftable = true ∧ op ≠ .assign ∧ a.Printable ∧ b.Printable
  | .assign x e => IsName x ∧ e.rank ≤ 3 ∧ e.Printable
  | .call f args => IsName f ∧ PrintableList args

/-- Expressions that can stand in a list. -/
def Expr.PrintableList : List Code.Expr → Prop
  | [] => True
  | e :: es => (e.rank ≤ 3 ∧ e.Printable) ∧ PrintableList es

end

/-! ## Spacing -/

section Spacing

variable {broken : Bool} {ps : List Piece} {rest : List Char}

theorem not_mem_extensions_space (p : Punctuator) : ' ' ∉ p.extensions := by
  cases p <;> decide

/-- Before a space every fixed token can stand. -/
theorem fits_before_space {k : TokenKind} (hk : k.isFixed = true) :
    Fits broken (.fixed k) (space :: ps) rest where
  valid := hk
  ends := by
    cases k with
    | keyword k =>
      intro c hc
      obtain rfl : ' ' = c := by simpa using hc
      rfl
    | punctuator p =>
      intro c hc
      obtain rfl : ' ' = c := by simpa using hc
      exact ⟨not_mem_extensions_space p, fun _ => by decide⟩
    | _ => cases hk
  attached := by simp
  leading := by simp

/-- A punctuator that nothing extends can stand everywhere. -/
theorem fits_sign {p : Punctuator} (hp : p.extensions = [])
    (hfixed : (TokenKind.punctuator p).isFixed = true) :
    Fits broken (.fixed (.punctuator p)) ps rest where
  valid := hfixed
  ends := by
    intro d _
    refine ⟨by simp [hp], ?_⟩
    rintro rfl
    exact absurd hp (by decide)
  attached := by simp
  leading := by simp

theorem fits_ident {x : String} (hx : IsName x) (hrest : Delimits (spell ps ++ rest)) :
    Fits broken (.name x) ps rest :=
  ⟨hx, hrest, by simp, by simp⟩

theorem fits_word {k : Keyword} (hrest : Delimits (spell ps ++ rest)) :
    Fits broken (.fixed (.keyword k)) ps rest :=
  ⟨rfl, hrest, by simp, by simp⟩

theorem delimits_cons {c : Char} (h : isDelimiter c = true) (cs : List Char) :
    Delimits (c :: cs) := by
  intro d hd
  obtain rfl : c = d := by simpa using hd
  exact h

end Spacing

/-- An expression starts with a token. -/
theorem Expr.pieces_eq_cons (e : Code.Expr) : ∃ t ps, e.pieces = tok t :: ps := by
  cases e with
  | update op e =>
    obtain ⟨t, ps, hps⟩ := pieces_eq_cons e
    exact ⟨t, ps ++ [tok (.attached op.token)], by rw [pieces, hps]; rfl⟩
  | _ => exact ⟨_, _, rfl⟩

theorem Expr.endsBroken_pieces (e : Code.Expr) (broken : Bool) :
    endsBroken broken e.pieces = false := by
  cases e with
  | unary op e =>
    simp only [pieces, endsBroken, endsBroken_append]
    exact endsBroken_pieces e _
  | assign x e => exact endsBroken_pieces e _
  | paren e | update op e | binary op a b | call f args =>
    simp only [pieces, endsBroken, endsBroken_append]
  | _ => rfl

/-- The text starts with a character that extends no operator and no mark of a first line. -/
def StartsOther (cs : List Char) : Prop :=
  ∃ c more, cs = c :: more ∧ c ≠ '=' ∧ c ≠ '#'

theorem startsOther_cons {c : Char} (h : c ≠ '=' ∧ c ≠ '#') (cs : List Char) :
    StartsOther (c :: cs) :=
  ⟨c, cs, rfl, h⟩

variable {rest cs : List Char} {op : PrefixOp} {broken : Bool} {layout : Layout} {p q : Printer}
  {program : List Code.Stmt}

theorem StartsOther.append (h : StartsOther cs) (rest : List Char) :
    StartsOther (cs ++ rest) := by
  obtain ⟨c, more, rfl, hc⟩ := h
  exact ⟨c, more ++ rest, rfl, hc⟩

theorem startsOther_of_isName {x : String} (h : IsName x) : StartsOther x.toList := by
  obtain ⟨c, hc, hstart⟩ := h.start
  obtain ⟨cs, hcs⟩ := head?_eq_some_iff.1 hc
  refine ⟨c, cs, hcs, ?_, ?_⟩
  all_goals
    rintro rfl
    exact absurd hstart (by decide)

theorem startsOther_of_isNumber {raw : String} (h : IsNumber raw) : StartsOther raw.toList := by
  have hstart := h.start
  cases hraw : raw.toList with
  | nil => simp [hraw, Lexeme.startsNumber] at hstart
  | cons c cs =>
    rw [hraw, Number.startsNumber_cons] at hstart
    refine startsOther_cons ⟨?_, ?_⟩ cs
    all_goals
      rintro rfl
      exact absurd hstart (by simp; decide)

theorem startsOther_of_isString {raw : String} (h : IsString raw) : StartsOther raw.toList := by
  obtain ⟨q, cs, hcs, hq⟩ := h.start
  refine ⟨q, cs, hcs, ?_⟩
  rcases hq with rfl | rfl <;> decide

/-- What an expression starts with. -/
theorem Expr.startsOther (e : Code.Expr) (h : e.Printable) : StartsOther (spell e.pieces) := by
  cases e with
  | name x => simpa [pieces, Tok.text] using startsOther_of_isName h
  | number raw => simpa [pieces, Tok.text] using startsOther_of_isNumber h
  | string raw => simpa [pieces, Tok.text] using startsOther_of_isString h
  | boolean b => cases b <;> exact startsOther_cons (by decide) _
  | null => exact startsOther_cons (by decide) _
  | paren e | binary op a b => exact startsOther_cons (by decide) _
  | unary op e => cases op <;> exact startsOther_cons (by decide) _
  | update op e =>
    rw [pieces, spell_append]
    exact (Expr.startsOther e h.2).append _
  | assign x e | call f args => exact (startsOther_of_isName h.1).append _

theorem isFixed_prefixOp (op : PrefixOp) : op.token.isFixed = true := by
  cases op <;> decide

theorem isFixed_update (op : UpdateOp) : op.token.isFixed = true := by
  cases op <;> decide

theorem isFixed_binary {op : BinaryOp} (h : op.isLiftable = true) : op.token.isFixed = true := by
  cases op <;> first | cases h; done | decide

/-- After a word there is always a space. -/
theorem needsSpace_word {k : Keyword} (h : op.token = .keyword k) (text : String) :
    PrefixOp.needsSpace op.text text = true := by
  cases op <;> cases h <;>
    simp [PrefixOp.needsSpace, PrefixOp.text, PrefixOp.token, TokenKind.text?, Keyword.text]

/-- Without a space, the operand does not extend the operator. -/
theorem not_mem_extensions_prefixOp {p : Punctuator} (h : op.token = .punctuator p) {text : String}
    {c : Char} (hc : text.toList.head? = some c) (hne : c ≠ '=')
    (hspace : ¬PrefixOp.needsSpace op.text text = true) : c ∉ p.extensions ∧ p ≠ .slash := by
  have hbang : bang.extensions = ['=', '='] := by decide
  have htilde : tilde.extensions = [] := by decide
  have hplus : plus.extensions = ['+', '='] := by decide
  have hminus : minus.extensions = ['-', '='] := by decide
  have htwice : plusPlus.extensions = [] ∧ minusMinus.extensions = [] := by
    decide
  cases op <;> cases h <;>
    simp_all [PrefixOp.needsSpace, PrefixOp.text, PrefixOp.token, TokenKind.text?, Punctuator.text]

/-- An operator before its operand. -/
theorem fits_prefixOp {e : Code.Expr} (h : e.Printable) (rest : List Char) :
    Fits broken (.fixed op.token)
    ((if PrefixOp.needsSpace op.text e.text then [space] else []) ++ e.pieces) rest := by
  by_cases hspace : PrefixOp.needsSpace op.text e.text = true
  · rw [if_pos hspace]
    exact fits_before_space (isFixed_prefixOp op)
  · rw [if_neg hspace, nil_append]
    obtain ⟨c, cs, hcs, hne, -⟩ := Expr.startsOther e h
    have hhead : e.text.toList.head? = some c := by rw [← e.spell_pieces, hcs]; rfl
    refine ⟨isFixed_prefixOp op, ?_, by simp, by simp⟩
    unfold Tok.EndsBefore
    split
    · trivial
    · rename_i p hp
      intro d hd
      obtain rfl : c = d := by simpa [hcs] using hd
      obtain ⟨hext, hslash⟩ := not_mem_extensions_prefixOp hp hhead hne hspace
      exact ⟨hext, fun h => absurd h hslash⟩
    · rename_i hstring hpunct
      cases hk : op.token with
      | keyword k => exact absurd (needsSpace_word hk _) hspace
      | punctuator p => exact absurd hk (hpunct p)
      | _ => cases op <;> cases hk

/-- What follows an expression. -/
theorem Expr.wellSpaced_append {e : Code.Expr} {qs : List Piece}
    (he : WellSpaced broken e.pieces (spell qs ++ rest)) (hqs : WellSpaced false qs rest) :
    WellSpaced broken (e.pieces ++ qs) rest :=
  he.append (by rwa [endsBroken_pieces])

theorem fits_update {op : UpdateOp} {ps : List Piece} :
    Fits false (.attached op.token) ps rest where
  valid := isFixed_update op
  ends := by
    have htwice : plusPlus.extensions = [] ∧ minusMinus.extensions = [] := by
      decide
    cases op
    · exact fun d _ => ⟨by simp [htwice.1], by simp⟩
    · exact fun d _ => ⟨by simp [htwice.2], by simp⟩
  attached := by simp
  leading := by simp

theorem delimits_update (op : UpdateOp) (rest : List Char) :
    Delimits (spell [tok (.attached op.token)] ++ rest) := by
  cases op <;> exact delimits_cons rfl _

theorem wellSpaced_space {ps : List Piece} (h : WellSpaced broken ps rest) :
    WellSpaced broken (space :: ps) rest :=
  ⟨forall_mem_singleton.2 rfl, by simpa [show Character.isLineBreak ' ' = false from rfl] using h⟩

/-- What follows an expression in a list. -/
theorem Expr.delimits_morePieces (es : List Code.Expr) (rest : List Char) :
    Delimits (spell (morePieces es) ++ ')' :: rest) := by
  cases es with
  | nil => exact delimits_cons rfl rest
  | cons e es => exact delimits_cons rfl _

mutual

/-- No token of an expression runs into the next one. -/
theorem Expr.wellSpaced (e : Code.Expr) (h : e.Printable) {rest : List Char} (hrest : Delimits rest)
    (broken : Bool) : WellSpaced broken e.pieces rest := by
  have hopen : ∀ {b : Bool} {qs : List Piece} {rest : List Char},
      Fits b (.fixed (.punctuator .openParen)) qs rest := fits_sign (by decide) rfl
  have hclose : ∀ {b : Bool} {qs : List Piece} {rest : List Char},
      Fits b (.fixed (.punctuator .closeParen)) qs rest := fits_sign (by decide) rfl
  have hbefore : ∀ cs, Delimits (')' :: cs) := delimits_cons rfl
  cases e with
  | name x => exact ⟨fits_ident h hrest, trivial⟩
  | number raw => exact ⟨⟨h, hrest, by simp, by simp⟩, trivial⟩
  | string raw => exact ⟨⟨h, trivial, by simp, by simp⟩, trivial⟩
  | boolean b => exact ⟨fits_word hrest, trivial⟩
  | null => exact ⟨fits_word hrest, trivial⟩
  | paren e =>
    have he := Expr.wellSpaced e h (hbefore rest) false
    exact ⟨hopen, Expr.wellSpaced_append he ⟨hclose, trivial⟩⟩
  | unary op e =>
    have he := Expr.wellSpaced e h.2 hrest false
    refine ⟨fits_prefixOp h.2 rest, ?_⟩
    split
    · exact wellSpaced_space he
    · exact he
  | update op e =>
    have he := Expr.wellSpaced e h.2 (delimits_update op rest) broken
    exact Expr.wellSpaced_append he ⟨fits_update, trivial⟩
  | binary op a b =>
    obtain ⟨hop, -, ha, hb⟩ := h
    have ha := fun cs => Expr.wellSpaced a ha (hbefore cs) false
    have hb := Expr.wellSpaced b hb (hbefore rest) false
    refine ⟨hopen, Expr.wellSpaced_append (ha _) ⟨hclose, wellSpaced_space ?_⟩⟩
    refine ⟨fits_before_space (isFixed_binary hop), wellSpaced_space ?_⟩
    exact ⟨hopen, Expr.wellSpaced_append hb ⟨hclose, trivial⟩⟩
  | assign x e =>
    have he := Expr.wellSpaced e h.2.2 hrest false
    refine ⟨fits_ident h.1 (delimits_cons rfl _), wellSpaced_space ?_⟩
    exact ⟨fits_before_space rfl, wellSpaced_space he⟩
  | call f args =>
    have hargs := wellSpaced_list args h.2 rest
    refine ⟨fits_ident h.1 (delimits_cons rfl _), hopen, ?_⟩
    exact hargs.append ⟨hclose, trivial⟩

theorem Expr.wellSpaced_list (es : List Code.Expr) (h : PrintableList es) (rest : List Char) :
    WellSpaced false (listPieces es) (')' :: rest) := by
  cases es with
  | nil => trivial
  | cons e es =>
    have he := Expr.wellSpaced e h.1.2 (delimits_morePieces es rest) false
    exact Expr.wellSpaced_append he (wellSpaced_more es h.2 rest)

theorem Expr.wellSpaced_more (es : List Code.Expr) (h : PrintableList es) (rest : List Char) :
    WellSpaced false (morePieces es) (')' :: rest) := by
  cases es with
  | nil => trivial
  | cons e es =>
    have he := Expr.wellSpaced e h.1.2 (delimits_morePieces es rest) false
    refine ⟨fits_sign (by decide) rfl, wellSpaced_space ?_⟩
    exact Expr.wellSpaced_append he (wellSpaced_more es h.2 rest)

end

/-! ## Statements -/

mutual

/-- A statement whose text stands for it. -/
def Stmt.Printable : Code.Stmt → Prop
  | .variable_ _ x init => IsName x ∧ ∀ e ∈ init, e.rank ≤ 3 ∧ e.Printable
  | .function name params body => IsName name ∧ (∀ x ∈ params, IsName x) ∧ Stmt.PrintableList body
  | .block body => Stmt.PrintableList body
  | .expression e => e.Printable
  | .return_ e => ∀ e' ∈ e, e'.Printable

/-- Statements whose texts stand for them. -/
def Stmt.PrintableList : List Code.Stmt → Prop
  | [] => True
  | s :: ss => s.Printable ∧ Stmt.PrintableList ss

end

/-- What a statement starts with. -/
theorem Stmt.startsOther (layout : Layout) (level : Nat) (s : Code.Stmt) (h : s.Printable) :
    StartsOther (spell (s.pieces layout level)) := by
  cases s with
  | variable_ kind x init =>
    cases init <;> cases kind <;> exact startsOther_cons (by decide) _
  | function name params body => exact startsOther_cons (by decide) _
  | block body => cases body <;> exact startsOther_cons (by decide) _
  | expression e =>
    rw [Stmt.pieces, spell_append]
    exact (Expr.startsOther e h).append _
  | return_ e => cases e <;> exact startsOther_cons (by decide) _

theorem isGap_margin (h : layout.IsBlank) (level : Nat) :
    ∀ c ∈ margin layout level, isGap c = true := by
  have hindent : ∀ level, ∀ c ∈ (Printer.indentationOf layout level).toList, isGap c = true := by
    intro level
    induction level with
    | zero => simp [Printer.indentationOf]
    | succ level ih =>
      simp only [Printer.indentationOf, String.toList_append, mem_append]
      rintro c (hc | hc)
      · exact h.indentation c hc
      · exact ih c hc
  simp only [margin, String.toList_append, mem_append]
  rintro c (hc | hc)
  · exact h.newline c hc
  · exact hindent level c hc

theorem wellSpaced_moreNames {xs : List String} (h : ∀ x ∈ xs, IsName x) :
    WellSpaced false (moreNames xs) (')' :: rest) ∧
      Delimits (spell (moreNames xs) ++ ')' :: rest) := by
  induction xs with
  | nil => exact ⟨trivial, delimits_cons rfl _⟩
  | cons x xs ih =>
    obtain ⟨hmore, hdelimits⟩ := ih fun y hy => h y (mem_cons_of_mem _ hy)
    refine ⟨⟨fits_sign (by decide) rfl, wellSpaced_space ?_⟩, delimits_cons rfl _⟩
    exact ⟨fits_ident (h x (mem_cons_self ..)) hdelimits, hmore⟩

theorem wellSpaced_namePieces {xs : List String} (h : ∀ x ∈ xs, IsName x) :
    WellSpaced false (namePieces xs) (')' :: rest) := by
  cases xs with
  | nil => trivial
  | cons x xs =>
    obtain ⟨hmore, hdelimits⟩ := wellSpaced_moreNames fun y hy => h y (mem_cons_of_mem _ hy)
    exact ⟨fits_ident (h x (mem_cons_self ..)) hdelimits, hmore⟩

mutual

/-- No token of a statement runs into the next one. -/
theorem Stmt.wellSpaced {layout : Layout} (hlayout : layout.IsBlank) (level : Nat) (s : Code.Stmt)
    (h : s.Printable) (rest : List Char) (broken : Bool) :
    WellSpaced broken (s.pieces layout level) rest := by
  have hsemicolon : ∀ {b : Bool} {qs : List Piece} {rest : List Char},
      Fits b (.fixed (.punctuator .semicolon)) qs rest := fits_sign (by decide) rfl
  have hbefore : Delimits (';' :: rest) := delimits_cons rfl rest
  cases s with
  | variable_ kind x init =>
    cases init with
    | none =>
      refine ⟨fits_word (delimits_cons rfl _), wellSpaced_space ?_⟩
      exact ⟨fits_ident h.1 hbefore, hsemicolon, trivial⟩
    | some e =>
      have he := Expr.wellSpaced e (h.2 e rfl).2 hbefore false
      refine ⟨fits_word (delimits_cons rfl _), wellSpaced_space ?_⟩
      refine ⟨fits_ident h.1 (delimits_cons rfl _), wellSpaced_space ?_⟩
      refine ⟨fits_before_space rfl, wellSpaced_space ?_⟩
      exact Expr.wellSpaced_append he ⟨hsemicolon, trivial⟩
  | function name params body =>
    have hbody := Stmt.wellSpaced_block hlayout level body h.2.2 rest false
    refine ⟨fits_word (delimits_cons rfl _), wellSpaced_space ?_⟩
    refine ⟨fits_ident h.1 (delimits_cons rfl _), fits_sign (by decide) rfl, ?_⟩
    refine (wellSpaced_namePieces h.2.1).append ?_
    exact ⟨fits_sign (by decide) rfl, wellSpaced_space hbody⟩
  | block body => exact Stmt.wellSpaced_block hlayout level body h rest broken
  | expression e =>
    exact Expr.wellSpaced_append (Expr.wellSpaced e h hbefore broken) ⟨hsemicolon, trivial⟩
  | return_ e =>
    cases e with
    | none => exact ⟨fits_word hbefore, hsemicolon, trivial⟩
    | some e =>
      have he := Expr.wellSpaced e (h e rfl) hbefore false
      refine ⟨⟨rfl, delimits_cons rfl _, by simp, fun _ _ => ?_⟩, wellSpaced_space ?_⟩
      · obtain ⟨t, ps, hps⟩ := e.pieces_eq_cons
        exact ⟨t, ps ++ [sign .semicolon], by rw [hps]; rfl⟩
      · exact Expr.wellSpaced_append he ⟨hsemicolon, trivial⟩

theorem Stmt.wellSpaced_block {layout : Layout} (hlayout : layout.IsBlank) (level : Nat)
    (body : List Code.Stmt) (h : Stmt.PrintableList body) (rest : List Char) (broken : Bool) :
    WellSpaced broken (Stmt.blockPieces layout level body) rest := by
  cases body with
  | nil => exact ⟨fits_sign (by decide) rfl, fits_sign (by decide) rfl, trivial⟩
  | cons s ss =>
    have hs := fun cs b => Stmt.wellSpaced hlayout (level + 1) s h.1 cs b
    have hss := fun cs b => Stmt.wellSpaced_lines hlayout (level + 1) ss h.2 cs b
    refine ⟨fits_sign (by decide) rfl, isGap_margin hlayout _, (hs _ _).append ?_⟩
    refine (hss _ _).append ⟨isGap_margin hlayout _, fits_sign (by decide) rfl, trivial⟩

theorem Stmt.wellSpaced_lines {layout : Layout} (hlayout : layout.IsBlank) (level : Nat)
    (ss : List Code.Stmt) (h : Stmt.PrintableList ss) (rest : List Char) (broken : Bool) :
    WellSpaced broken (Stmt.linePieces layout level ss) rest := by
  cases ss with
  | nil => trivial
  | cons s ss =>
    have hs := fun cs b => Stmt.wellSpaced hlayout level s h.1 cs b
    have hss := fun cs b => Stmt.wellSpaced_lines hlayout level ss h.2 cs b
    exact ⟨isGap_margin hlayout _, (hs _ _).append (hss _ _)⟩

end

/-! ## Printing -/

/-- Writing `cs` leads from one printer to the other. -/
structure Adds (p q : Printer) (cs : List Char) : Prop where
  layout : q.layout = p.layout
  level : q.level = p.level
  output : q.output.toList = p.output.toList ++ cs

theorem Adds.trans {r : Printer} {as bs : List Char} (h : Adds p q as) (h' : Adds q r bs) :
    Adds p r (as ++ bs) where
  layout := h'.layout.trans h.layout
  level := h'.level.trans h.level
  output := by rw [h'.output, h.output, append_assoc]

theorem adds_write (p : Printer) (s : String) : Adds p (p.write s) s.toList :=
  ⟨rfl, rfl, by simp [Printer.write]⟩

/-- What starts a line. -/
def lineMargin (p : Printer) : List Char :=
  if p.isEmpty then (Printer.indentationOf p.layout p.level).toList else margin p.layout p.level

theorem adds_lineStart (p : Printer) : Adds p p.lineStart (lineMargin p) := by
  unfold Printer.lineStart lineMargin
  by_cases h : p.isEmpty = true
  · simp only [h, ↓reduceIte]
    exact adds_write _ _
  · simp only [h, Bool.false_eq_true, ↓reduceIte]
    refine ⟨rfl, rfl, ?_⟩
    simp [Printer.indent, Printer.newline, Printer.write, margin]

theorem isEmpty_of_adds (h : Adds p q cs) (hcs : cs ≠ []) :
    q.isEmpty = false := by
  rw [Printer.isEmpty, ← Bool.not_eq_true, String.isEmpty_iff]
  intro hempty
  have := h.output
  rw [hempty] at this
  simp [hcs] at this

theorem adds_line (p : Printer) (s : String) :
    Adds p (p.lineStart.write s) (lineMargin p ++ s.toList) :=
  (adds_lineStart p).trans (adds_write _ s)

/-- The last line of a block goes back to the level of the block. -/
theorem adds_closing (h : Adds p.increase q cs) (hcs : cs ≠ []) :
    Adds p (q.decrease.lineStart.write "\x7d") (cs ++ (margin p.layout p.level ++ ['\x7d'])) := by
  have hempty : q.isEmpty = false := isEmpty_of_adds h hcs
  have hlevel : q.decrease.level = p.level := by
    simp [Printer.decrease, h.level, Printer.increase]
  have hlayout : q.decrease.layout = p.layout := h.layout
  have houtput : q.decrease.output.toList = p.output.toList ++ cs := h.output
  have hend := adds_line q.decrease "\x7d"
  have hmargin : lineMargin q.decrease = margin q.decrease.layout q.decrease.level :=
    if_neg (Bool.eq_false_iff.1 hempty)
  rw [hmargin, hlevel, hlayout] at hend
  refine ⟨hend.layout.trans hlayout, hend.level.trans hlevel, ?_⟩
  rw [hend.output, houtput, append_assoc]
  rfl

theorem spell_variable (layout : Layout) (level : Nat) (kind : VarKind) (x : String)
    (init : Option Code.Expr) :
    (variableText kind x init).toList =
      spell ((Code.Stmt.variable_ kind x init).pieces layout level) := by
  cases init with
  | none =>
    simp [variableText, Stmt.pieces, Tok.text, TokenKind.text?, Punctuator.text,
      VarKind.text_keyword]
  | some e =>
    simp [variableText, Stmt.pieces, Tok.text, TokenKind.text?, Punctuator.text,
      VarKind.text_keyword, e.spell_pieces]

theorem spell_return (layout : Layout) (level : Nat) (e : Option Code.Expr) :
    (returnText e).toList = spell ((Code.Stmt.return_ e).pieces layout level) := by
  cases e with
  | none => rfl
  | some e =>
    simp [returnText, Stmt.pieces, Tok.text, TokenKind.text?, Keyword.text, Punctuator.text,
      e.spell_pieces]

theorem Stmt.spell_pieces_ne_nil (layout : Layout) (level : Nat) (s : Code.Stmt) :
    spell (s.pieces layout level) ≠ [] := by
  cases s with
  | variable_ kind x init => cases init <;> cases kind <;> exact cons_ne_nil _ _
  | function name params body => exact cons_ne_nil _ _
  | block body => cases body <;> exact cons_ne_nil _ _
  | expression e => simp [Stmt.pieces, Tok.text, TokenKind.text?, Punctuator.text]
  | return_ e => cases e <;> exact cons_ne_nil _ _

mutual

theorem Stmt.adds_write (p : Printer) (s : Code.Stmt) :
    Adds p (Stmt.write p s) (lineMargin p ++ spell (s.pieces p.layout p.level)) := by
  cases s with
  | variable_ kind x init =>
    rw [← spell_variable]
    exact adds_line p _
  | function name params body =>
    have hhead := adds_line p (functionHead name params)
    have hbody := Stmt.adds_writeBlock (p.lineStart.write (functionHead name params)) body
    rw [hhead.layout, hhead.level] at hbody
    have := hhead.trans hbody
    simpa [Stmt.write, Stmt.pieces, functionHead, spell_namePieces, Tok.text, TokenKind.text?,
      Punctuator.text, Keyword.text] using this
  | block body =>
    have hbody := Stmt.adds_writeBlock p.lineStart body
    rw [(adds_lineStart p).layout, (adds_lineStart p).level] at hbody
    exact (adds_lineStart p).trans hbody
  | expression e =>
    have := adds_line p (e.text ++ ";")
    simpa [Stmt.write, Stmt.pieces, e.spell_pieces, Tok.text, TokenKind.text?, Punctuator.text]
      using this
  | return_ e =>
    rw [← spell_return]
    exact adds_line p _

theorem Stmt.adds_writeBlock (p : Printer) (body : List Code.Stmt) :
    Adds p (Stmt.writeBlock p body) (spell (Stmt.blockPieces p.layout p.level body)) := by
  cases body with
  | nil => exact Code.adds_write p _
  | cons s ss =>
    have hopen : (p.write "\x7b").isEmpty = false :=
      isEmpty_of_adds (Code.adds_write p "\x7b") (by decide)
    have hmargin : lineMargin (p.write "\x7b").increase = margin p.layout (p.level + 1) :=
      if_neg (Bool.eq_false_iff.1 hopen)
    have hs := Stmt.adds_write (p.write "\x7b").increase s
    have hnonempty := isEmpty_of_adds hs (by simp [Stmt.spell_pieces_ne_nil])
    have hss := Stmt.adds_writeAll (Stmt.write (p.write "\x7b").increase s) hnonempty ss
    rw [hs.layout, hs.level] at hss
    have hend := adds_closing (hs.trans hss) (by simp [Stmt.spell_pieces_ne_nil])
    have hall := (Code.adds_write p "\x7b").trans hend
    rw [hmargin] at hall
    simpa [Stmt.writeBlock, Stmt.blockPieces, Printer.increase, Printer.write, Tok.text,
      TokenKind.text?, Punctuator.text] using hall

theorem Stmt.adds_writeAll (p : Printer) (hp : p.isEmpty = false) (ss : List Code.Stmt) :
    Adds p (Stmt.writeAll p ss) (spell (Stmt.linePieces p.layout p.level ss)) := by
  cases ss with
  | nil => exact ⟨rfl, rfl, by simp [Stmt.writeAll, Stmt.linePieces]⟩
  | cons s ss =>
    have hs := Stmt.adds_write p s
    have hss := Stmt.adds_writeAll (Stmt.write p s)
      (isEmpty_of_adds hs (by simp [Stmt.spell_pieces_ne_nil])) ss
    rw [hs.layout, hs.level] at hss
    have := hs.trans hss
    simpa [Stmt.writeAll, Stmt.linePieces, lineMargin, hp] using this

end

/-! ## Programs -/

/-- The pieces of a program. -/
def programPieces (layout : Layout) : List Code.Stmt → List Piece
  | [] => []
  | s :: ss => s.pieces layout 0 ++ (Stmt.linePieces layout 0 ss ++
      if layout.endsWithNewline then [blank layout.newline.toList] else [])

theorem spell_programPieces (layout : Layout) (program : List Code.Stmt) :
    spell (programPieces layout program) = (programText layout program).toList := by
  cases program with
  | nil => simp [programPieces, programText, Stmt.writeAll, Printer.finish, Printer.isEmpty,
      Printer.text]
  | cons s ss =>
    have hs := Stmt.adds_write { layout } s
    have hnonempty := isEmpty_of_adds hs (by simp [Stmt.spell_pieces_ne_nil])
    have hss := Stmt.adds_writeAll (Stmt.write { layout } s) hnonempty ss
    rw [hs.layout, hs.level] at hss
    have hall := hs.trans hss
    have hempty := isEmpty_of_adds hall (by simp [Stmt.spell_pieces_ne_nil])
    have hfirst : lineMargin { layout } = [] := rfl
    have houtput := hall.output
    simp only [hfirst, nil_append] at houtput
    rw [programText, Stmt.writeAll, Printer.finish, hempty, hall.layout, programPieces]
    by_cases hnewline : layout.endsWithNewline = true
    · simp [hnewline, Printer.newline, Printer.write, Printer.text, houtput, hall.layout]
    · simp [hnewline, Printer.text, houtput]

theorem wellSpaced_programPieces (hlayout : layout.IsBlank) (h : Stmt.PrintableList program)
    (rest : List Char) (broken : Bool) :
    WellSpaced broken (programPieces layout program) rest := by
  cases program with
  | nil => trivial
  | cons s ss =>
    refine (Stmt.wellSpaced hlayout 0 s h.1 _ _).append ?_
    refine (Stmt.wellSpaced_lines hlayout 0 ss h.2 _ _).append ?_
    split
    · exact ⟨hlayout.newline, trivial⟩
    · trivial

/-- The text of a program does not start with the mark of a first line. -/
theorem skipShebang_programText (layout : Layout) (h : Stmt.PrintableList program) :
    (Lexer.ofText (programText layout program)).skipShebang =
      Lexer.ofText (programText layout program) := by
  have hhere : (Lexer.ofText (programText layout program)).here =
      ⟨0, spell (programPieces layout program)⟩ := by
    rw [spell_programPieces]
    rfl
  rw [Lexer.skipShebang, if_neg]
  rw [hhere]
  cases program with
  | nil => simp [programPieces, Cursor.startsWith]
  | cons s ss =>
    obtain ⟨c, more, hc, -, hne⟩ := Stmt.startsOther layout 0 s h.1
    simp [programPieces, hc, Cursor.startsWith, isPrefixOf, Ne.symm hne]

/-- **Reading back a program**: the text of a printable program is read as its tokens. -/
theorem streams_programText (hlayout : layout.IsBlank) (h : Stmt.PrintableList program) :
    Streams (Lexer.ofText (programText layout program)).skipShebang.scan
      (tokens (programPieces layout program)) := by
  have hhere : (Lexer.ofText (programText layout program)).here =
      ⟨0, [] ++ spell (programPieces layout program)⟩ := by
    rw [spell_programPieces]
    rfl
  rw [skipShebang_programText layout h]
  exact streams_scan _ [] hhere (by simp) rfl (wellSpaced_programPieces hlayout h [] _)

end Code

end LambdaLift
