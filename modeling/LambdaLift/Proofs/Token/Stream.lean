import LambdaLift.Proofs.Token.Number
import LambdaLift.Token.Lexer

/-!
# Texts made of tokens

* `Tok`: a token to be written, and `Tok.Stands`, that a lexer stands on it.
* `Piece`: a token, or blanks between tokens. `Piece.WellSpaced` says that no token runs into the
  next one.
* `Streams`: the tokens that a lexer meets, up to the end of the text.
* `streams_scan`: a text made of well spaced pieces is read as its tokens.
-/

namespace LambdaLift

open Character List

/-! ## Between tokens -/

namespace Trivia

/-- What a token can start with. -/
def Stops (cs : List Char) : Prop :=
  ∀ c, cs.head? = some c → isGap c = false ∧
    (c = '/' → ∀ d, (cs.drop 1).head? = some d → d ≠ '/' ∧ d ≠ '*')

theorem skip_of_stops {cs : List Char} (h : Stops cs) (o : Nat) :
    skip ⟨o, cs⟩ = { stop := ⟨o, cs⟩ } := by
  rw [skip.eq_def]
  cases cs with
  | nil => rfl
  | cons c cs =>
    obtain ⟨hgap, hslash⟩ := h c rfl
    obtain ⟨hblank, hbreak⟩ := Bool.or_eq_false_iff.1 hgap
    have hcomment : (⟨o, c :: cs⟩ : Cursor).startsWith ['/', '/'] = false ∧
        (⟨o, c :: cs⟩ : Cursor).startsWith ['/', '*'] = false := by
      by_cases hc : c = '/'
      · cases cs with
        | nil => simp [Cursor.startsWith, isPrefixOf]
        | cons e cs =>
          obtain ⟨hline, hblock⟩ := hslash hc e rfl
          simp [Cursor.startsWith, isPrefixOf, hline.symm, hblock.symm]
      · exact ⟨Cursor.startsWith_of_ne hc, Cursor.startsWith_of_ne hc⟩
    simp [hbreak, hblank, hcomment]

/-- Blanks before a token are passed. -/
theorem skip_append {gap cs : List Char} (hgap : ∀ c ∈ gap, isGap c = true) (h : Stops cs)
    (o : Nat) :
    skip ⟨o, gap ++ cs⟩ =
      { stop := ⟨o + byteLength gap, cs⟩, lineBreak := gap.any isLineBreak } := by
  induction gap generalizing o with
  | nil => simpa [byteLength] using skip_of_stops h o
  | cons c gap ih =>
    have hc := hgap c (mem_cons_self ..)
    have ih := ih (fun d hd => hgap d (mem_cons_of_mem _ hd)) (o + c.utf8Size)
    have hskip : (⟨o, c :: (gap ++ cs)⟩ : Cursor).skip 1 = ⟨o + c.utf8Size, gap ++ cs⟩ := by
      rw [Cursor.skip_cons, Cursor.skip_zero]
    have hslash : c ≠ '/' := by
      rintro rfl
      exact absurd hc (by decide)
    rw [cons_append, skip.eq_def]
    simp only [hskip, ih]
    by_cases hbreak : isLineBreak c = true
    · simp [hbreak, byteLength, Nat.add_assoc]
    · have hblank : isBlank c = true := by simpa [isGap, hbreak] using hc
      simp [hbreak, hblank, Cursor.startsWith_of_ne hslash, byteLength, Nat.add_assoc]

/-- Between tokens the lexer only moves on. -/
theorem skip_le (c : Cursor) :
    c.offset ≤ (skip c).stop.offset ∧ (skip c).stop.rest.length ≤ c.rest.length := by
  have hskip : ∀ (c : Cursor) n, c.offset ≤ (c.skip n).offset ∧
      (c.skip n).rest.length ≤ c.rest.length :=
    fun c n => ⟨by simp [Cursor.skip], Cursor.length_skip_le c n⟩
  fun_induction skip c with
  | case1 c => exact ⟨le_rfl, le_rfl⟩
  | case2 c x _ _ _ _ ih => exact ⟨(hskip c 1).1.trans ih.1, ih.2.trans (hskip c 1).2⟩
  | case3 c x _ _ _ _ ih =>
    have hline := hskip (c.skip 2) ((c.skip 2).rest.takeWhile fun x => x ≠ '\n' && x ≠ '\r').length
    exact ⟨((hskip c 2).1.trans hline.1).trans ih.1, ih.2.trans (hline.2.trans (hskip c 2).2)⟩
  | case4 c x _ _ _ _ _ comment _ ih =>
    have hbody : (c.skip 2).offset ≤ comment.stop.offset ∧
        comment.stop.rest.length ≤ (c.skip 2).rest.length := hskip _ _
    exact ⟨((hskip c 2).1.trans hbody.1).trans ih.1, ih.2.trans (hbody.2.trans (hskip c 2).2)⟩
  | case5 c x _ _ _ _ _ _ ih => exact ⟨(hskip c 1).1.trans ih.1, ih.2.trans (hskip c 1).2⟩
  | case6 c => exact ⟨le_rfl, le_rfl⟩

end Trivia

/-! ## Tokens -/

/-- A token of a fixed text that reads the same before everything that does not extend it. -/
def TokenKind.isFixed : TokenKind → Bool
  | .keyword _ => true
  | .punctuator p =>
    p.text.toList.head? ≠ some '.' && p.text.toList.head? ≠ some '?' && p ≠ .arrow && p ≠ .colon
  | _ => false

/-- A token to be written. -/
inductive Tok
  | fixed (kind : TokenKind)
  /-- A token of a fixed text on the line of the token before it. -/
  | attached (kind : TokenKind)
  /-- A token of a fixed text on the line of the token after it. -/
  | leading (kind : TokenKind)
  | name (x : String)
  | number (raw : String)
  | string (raw : String)

namespace Tok

/-- What the token is. -/
def kind : Tok → TokenKind
  | fixed k | attached k | leading k => k
  | name _ => .identifier
  | number _ => .number
  | string _ => .string

/-- How the token is written. -/
def text : Tok → String
  | fixed k | attached k | leading k => k.text?.getD ""
  | name x => x
  | number raw | string raw => raw

/-- The text of the token is read as the token. -/
def Valid : Tok → Prop
  | fixed k | attached k | leading k => k.isFixed = true
  | name x => IsName x
  | number raw => IsNumber raw
  | string raw => IsString raw

/-- The token does not run into the text after it. -/
def EndsBefore (t : Tok) (rest : List Char) : Prop :=
  match t.kind with
  | .string => True
  | .punctuator p =>
    ∀ d, rest.head? = some d → d ∉ p.extensions ∧ (p = .slash → d ≠ '/' ∧ d ≠ '*')
  | _ => Delimits rest

/-- The value that the token stands for. -/
def Carries (value : String) (number : Float) : Tok → Prop
  | name x => value = x
  | .number raw => number = numberSpelled raw
  | string raw => value = stringSpelled raw
  | _ => True

variable {rest : List Char} {t : Tok}

/-- A fixed token is read as such. -/
theorem read_fixed {k : TokenKind} (hk : k.isFixed = true) (hrest : (fixed k).EndsBefore rest)
    (o : Nat) :
    (Lexeme.read ⟨o, (k.text?.getD "").toList ++ rest⟩).Is k
      ⟨o + byteLength (k.text?.getD "").toList, rest⟩ := by
  cases k with
  | keyword k =>
    simp only [TokenKind.text?, Option.getD_some]
    rw [Keyword.read k hrest]
    exact ⟨rfl, rfl, rfl, rfl⟩
  | punctuator p =>
    simp only [TokenKind.isFixed, Bool.and_eq_true, decide_eq_true_eq] at hk
    simp only [TokenKind.text?, Option.getD_some]
    rw [Punctuator.read hk.1.1.1 hk.1.1.2 fun d hd => (hrest d hd).1]
    exact ⟨rfl, rfl, rfl, rfl⟩
  | _ => cases hk

/-- A valid token is read as such. -/
theorem read (ht : t.Valid) (hrest : t.EndsBefore rest) (o : Nat) :
    (Lexeme.read ⟨o, t.text.toList ++ rest⟩).Is t.kind ⟨o + byteLength t.text.toList, rest⟩ ∧
      t.Carries (String.ofList (Lexeme.read ⟨o, t.text.toList ++ rest⟩).value)
    (Lexeme.read ⟨o, t.text.toList ++ rest⟩).number := by
  cases t with
  | fixed k | attached k | leading k => exact ⟨read_fixed ht hrest o, trivial⟩
  | name x =>
    have hread := IsName.read ht hrest o
    simp only [text, hread]
    exact ⟨⟨rfl, rfl, rfl, rfl⟩, by simp [Carries]⟩
  | number raw => exact ⟨ht.read o rest hrest, ht.number o rest hrest⟩
  | string raw =>
    refine ⟨ht.read o rest, ?_⟩
    simp only [Carries, text, ht.value, String.ofList_toList]

/-- Kinds of tokens that are not written. -/
theorem kind_ne (ht : t.Valid) : t.kind ≠ .endOfFile ∧ t.kind ≠ .punctuator .arrow ∧
    t.kind ≠ .punctuator .colon := by
  cases t with
  | fixed k | attached k | leading k =>
    have hk : k.isFixed = true := ht
    refine ⟨?_, ?_, ?_⟩
    all_goals
      rintro rfl
      exact absurd hk (by decide)
  | name x | number raw | string raw => simp [kind]

/-- A name is not between tokens. -/
theorem stops_of_isNameStart {c : Char} {cs : List Char} (hc : isNameStart c = true) :
    Trivia.Stops (c :: cs) := by
  intro d hd
  obtain rfl : c = d := by simpa using hd
  constructor
  · by_contra hgap
    simp [isNameStart_of_isGap (Bool.not_eq_false _ ▸ hgap)] at hc
  · rintro rfl
    exact absurd hc (by decide)

theorem stops_punctuator {p : Punctuator} (hrest : (fixed (.punctuator p)).EndsBefore rest) :
    p.text.toList ≠ [] ∧ Trivia.Stops (p.text.toList ++ rest) := by
  by_cases hslash : p = .slash
  · subst hslash
    have htext : Punctuator.slash.text.toList = ['/'] := rfl
    rw [htext]
    refine ⟨by decide, fun d hd => ?_⟩
    obtain rfl : '/' = d := by simpa using hd
    exact ⟨by decide, fun _ e he => (hrest e he).2 rfl⟩
  · obtain ⟨c, cs, hcs, hgap, hnext⟩ : ∃ c cs, p.text.toList = c :: cs ∧ isGap c = false ∧
        (c = '/' → cs.head? = some '=') := by
      cases p <;> first | exact absurd rfl hslash | exact ⟨_, _, rfl, by decide⟩
    refine ⟨by simp [hcs], fun d hd => ?_⟩
    obtain rfl : c = d := by simpa [hcs] using hd
    refine ⟨hgap, fun h e he => ?_⟩
    have hhead : (cs ++ rest).head? = some '=' := by simp [head?_append, hnext h]
    obtain rfl : '=' = e := by
      rw [hcs, cons_append, drop_one, tail_cons, hhead] at he
      exact Option.some.inj he
    decide

/-- A token starts with a character that is not between tokens. -/
theorem stops (ht : t.Valid) (hrest : t.EndsBefore rest) :
    t.text.toList ≠ [] ∧ Trivia.Stops (t.text.toList ++ rest) := by
  cases t with
  | fixed k | attached k | leading k =>
    cases k with
    | keyword k =>
      obtain ⟨c, cs, hcs, hstart⟩ := k.exists_text_eq
      simp only [text, TokenKind.text?, Option.getD_some, hcs]
      exact ⟨by simp, stops_of_isNameStart hstart⟩
    | punctuator p => exact stops_punctuator hrest
    | _ => cases ht
  | name x =>
    obtain ⟨c, hc, hstart⟩ := ht.start
    obtain ⟨cs, hcs⟩ := head?_eq_some_iff.1 hc
    simp only [text, hcs]
    exact ⟨by simp, stops_of_isNameStart hstart⟩
  | number raw =>
    have hstart := ht.start
    simp only [text]
    cases hraw : raw.toList with
    | nil => simp [hraw, Lexeme.startsNumber] at hstart
    | cons c cs =>
      rw [hraw, Number.startsNumber_cons, Bool.or_eq_true, Bool.and_eq_true] at hstart
      refine ⟨by simp, fun d hd => ?_⟩
      obtain rfl : c = d := by simpa using hd
      rcases hstart with hdigit | hdot
      · constructor
        · by_contra hgap
          simp [isDigit_of_isGap (Bool.not_eq_false _ ▸ hgap)] at hdigit
        · rintro rfl
          exact absurd hdigit (by decide)
      · obtain rfl : c = '.' := by simpa using hdot.1
        exact ⟨by decide, fun h => absurd h (by decide)⟩
  | string raw =>
    obtain ⟨q, cs, hraw, hq⟩ := ht.start
    simp only [text, hraw]
    refine ⟨by simp, fun d hd => ?_⟩
    obtain rfl : q = d := by simpa using hd
    rcases hq with rfl | rfl
    · exact ⟨by decide, fun h => absurd h (by decide)⟩
    · exact ⟨by decide, fun h => absurd h (by decide)⟩

end Tok

/-! ## Pieces of a text -/

/-- A token, or blanks between tokens. -/
inductive Piece
  | tok (t : Tok)
  | blank (cs : List Char)

namespace Piece

/-- The text of a piece. -/
def chars : Piece → List Char
  | tok t => t.text.toList
  | blank cs => cs

/-- The text of pieces. -/
def spell (ps : List Piece) : List Char :=
  ps.flatMap chars

/-- The token that a piece is. -/
def token? : Piece → Option Tok
  | tok t => some t
  | blank _ => none

/-- The tokens among pieces. -/
def tokens (ps : List Piece) : List Tok :=
  ps.filterMap token?

@[simp] theorem spell_nil : spell [] = [] := rfl

@[simp] theorem spell_tok (t : Tok) (ps : List Piece) :
    spell (tok t :: ps) = t.text.toList ++ spell ps := rfl

@[simp] theorem spell_blank (cs : List Char) (ps : List Piece) :
    spell (blank cs :: ps) = cs ++ spell ps := rfl

@[simp] theorem spell_append (ps qs : List Piece) : spell (ps ++ qs) = spell ps ++ spell qs := by
  simp [spell]

@[simp] theorem tokens_nil : tokens [] = [] := rfl

@[simp] theorem tokens_tok (t : Tok) (ps : List Piece) :
    tokens (tok t :: ps) = t :: tokens ps := rfl

@[simp] theorem tokens_blank (cs : List Char) (ps : List Piece) :
    tokens (blank cs :: ps) = tokens ps := rfl

@[simp] theorem tokens_append (ps qs : List Piece) :
    tokens (ps ++ qs) = tokens ps ++ tokens qs := by
  simp [tokens]

/-- A token can stand here: it is valid, does not run into the text after it, and is on the line of
its neighbours if it has to be. A line has ended since the last token if `broken`. -/
structure Fits (broken : Bool) (t : Tok) (ps : List Piece) (rest : List Char) : Prop where
  valid : t.Valid
  ends : t.EndsBefore (spell ps ++ rest)
  attached : ∀ k, t = .attached k → broken = false
  leading : ∀ k, t = .leading k → ∃ u qs, ps = blank [' '] :: tok u :: qs

/-- Pieces with `rest` after them, each of which fits in its place. -/
def WellSpaced (broken : Bool) : List Piece → (rest : List Char) → Prop
  | [], _ => True
  | blank cs :: ps, rest =>
    (∀ c ∈ cs, isGap c = true) ∧ WellSpaced (broken || cs.any isLineBreak) ps rest
  | tok t :: ps, rest => Fits broken t ps rest ∧ WellSpaced false ps rest

/-- Whether a line ends after the last token. -/
def endsBroken (broken : Bool) : List Piece → Bool
  | [] => broken
  | blank cs :: ps => endsBroken (broken || cs.any isLineBreak) ps
  | tok _ :: ps => endsBroken false ps

theorem WellSpaced.append {broken : Bool} {ps qs : List Piece} {rest : List Char}
    (hps : WellSpaced broken ps (spell qs ++ rest))
    (hqs : WellSpaced (endsBroken broken ps) qs rest) : WellSpaced broken (ps ++ qs) rest := by
  induction ps generalizing broken with
  | nil => exact hqs
  | cons p ps ih =>
    cases p with
    | blank cs => exact ⟨hps.1, ih hps.2 hqs⟩
    | tok t =>
      obtain ⟨⟨hvalid, hends, hattached, hleading⟩, hps⟩ := hps
      refine ⟨⟨hvalid, by simpa using hends, hattached, fun k hk => ?_⟩, ih hps hqs⟩
      obtain ⟨u, more, rfl⟩ := hleading k hk
      exact ⟨u, more ++ qs, rfl⟩

theorem endsBroken_append (broken : Bool) (ps qs : List Piece) :
    endsBroken broken (ps ++ qs) = endsBroken (endsBroken broken ps) qs := by
  induction ps generalizing broken with
  | nil => rfl
  | cons p ps ih => cases p <;> exact ih _

end Piece

/-! ## Lexers on the tokens of a text -/

/-- The lexer stands on the token. -/
structure Tok.Stands (t : Tok) (l : Lexer) : Prop where
  kind : l.kind = t.kind
  text : l.text = t.text
  carries : t.Carries l.value l.number
  attached : ∀ k, t = .attached k → l.lineBreakBefore = false
  leading : ∀ k, t = .leading k → l.scan.lineBreakBefore = false

/-- The lexer stands on the first of the tokens and meets the others after it, and then the end of
the text. Nothing was reported. -/
inductive Streams : Lexer → List Tok → Prop
  | nil {l : Lexer} (kind : l.kind = .endOfFile) (here : l.here.rest = [])
      (reports : l.reports = []) : Streams l []
  | cons {l : Lexer} {t : Tok} {ts : List Tok} (stands : t.Stands l) (valid : t.Valid)
      (reports : l.reports = []) (offset : l.start.offset < l.scan.start.offset)
      (length : l.scan.start.rest.length < l.start.rest.length) (more : Streams l.scan ts) :
      Streams l (t :: ts)

namespace Lexer

/-- The next token of a text that goes on with blanks and a token. -/
theorem scan_token {l : Lexer} {o : Nat} {gap rest : List Char} {t : Tok}
    (hhere : l.here = ⟨o, gap ++ (t.text.toList ++ rest)⟩) (hgap : ∀ c ∈ gap, isGap c = true)
    (ht : t.Valid) (hrest : t.EndsBefore rest) :
    l.scan.start = ⟨o + byteLength gap, t.text.toList ++ rest⟩ ∧
      l.scan.here = ⟨o + byteLength gap + byteLength t.text.toList, rest⟩ ∧
      l.scan.kind = t.kind ∧ t.Carries l.scan.value l.scan.number ∧
      l.scan.lineBreakBefore = gap.any isLineBreak ∧ l.scan.reports = l.reports := by
  have hskip := Trivia.skip_append hgap (Tok.stops ht hrest).2 o
  obtain ⟨⟨hkind, hstop, hreports, hbreak⟩, hcarries⟩ :=
    Tok.read ht hrest (o + byteLength gap)
  simp only [scan, hhere, hskip]
  refine ⟨trivial, hstop, hkind, hcarries, ?_, by simp [hreports]⟩
  simp [lineBreakBefore, TokenFlags.or, hbreak]

/-- After the last token comes the end of the text. -/
theorem scan_end {l : Lexer} {o : Nat} {gap : List Char} (hhere : l.here = ⟨o, gap⟩)
    (hgap : ∀ c ∈ gap, isGap c = true) :
    l.scan.kind = .endOfFile ∧ l.scan.here.rest = [] ∧ l.scan.reports = l.reports := by
  have hstops : Trivia.Stops [] := by simp [Trivia.Stops]
  have hskip := Trivia.skip_append hgap hstops o
  rw [append_nil] at hskip
  simp [scan, hhere, hskip, Lexeme.read]

/-- The next token does not start before the current one ends. -/
theorem here_le_scan_start (l : Lexer) :
    l.here.offset ≤ l.scan.start.offset ∧ l.scan.start.rest.length ≤ l.here.rest.length :=
  Trivia.skip_le l.here

end Lexer

open Piece in
/-- **Reading back**: a text made of well spaced pieces is read as its tokens. The blanks `gap` have
been passed since the last token. -/
theorem streams_scan (ps : List Piece) (gap : List Char) {l : Lexer} {o : Nat}
    (hhere : l.here = ⟨o, gap ++ spell ps⟩) (hgap : ∀ c ∈ gap, isGap c = true)
    (hreports : l.reports = []) (hps : WellSpaced (gap.any isLineBreak) ps []) :
    Streams l.scan (tokens ps) := by
  induction ps generalizing l o gap with
  | nil =>
    rw [spell_nil, append_nil] at hhere
    obtain ⟨hkind, hrest, hsame⟩ := Lexer.scan_end hhere hgap
    exact .nil hkind hrest (hsame.trans hreports)
  | cons p ps ih =>
    cases p with
    | blank cs =>
      refine ih (gap ++ cs) (by simpa using hhere) ?_ hreports ?_
      · intro c hc
        rcases mem_append.1 hc with hc | hc
        · exact hgap c hc
        · exact hps.1 c hc
      · simpa using hps.2
    | tok t =>
      obtain ⟨⟨hvalid, hends, hattached, hleading⟩, hps⟩ := hps
      rw [append_nil] at hends
      obtain ⟨hstart, hstop, hkind, hcarries, hbreak, hsame⟩ :=
        Lexer.scan_token hhere hgap hvalid hends
      have hpos : 0 < byteLength t.text.toList ∧ 0 < t.text.toList.length := by
        cases htext : t.text.toList with
        | nil => exact absurd htext (Tok.stops hvalid hends).1
        | cons c cs => exact ⟨byteLength_pos, by simp⟩
      have hle := l.scan.here_le_scan_start
      rw [hstop] at hle
      refine .cons ⟨hkind, ?_, hcarries, ?_, ?_⟩ hvalid (hsame.trans hreports) ?_ ?_
        (ih [] hstop (by simp) (hsame.trans hreports) hps)
      · rw [Lexer.text, hstart, hstop, Cursor.textTo_append, String.ofList_toList]
      · intro k hk
        rw [hbreak, hattached k hk]
      · intro k hk
        obtain ⟨u, qs, rfl⟩ := hleading k hk
        obtain ⟨-, ⟨hu, huends, -, -⟩, -⟩ := hps
        rw [append_nil] at huends
        obtain ⟨-, -, -, -, hspace, -⟩ := Lexer.scan_token hstop (forall_mem_singleton.2 rfl) hu huends
        rw [hspace]
        decide
      · rw [hstart]
        simp only at hle ⊢
        omega
      · rw [hstart]
        simp only [length_append] at hle ⊢
        omega

end LambdaLift
