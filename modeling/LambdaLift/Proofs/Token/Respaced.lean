import LambdaLift.Proofs.Token.Tiling
import Mathlib.Data.List.Forall2

/-!
# Tokens written again

Where a token ends is decided by looking at what follows it. If the tokens of a text are written
again, each on a line of its own or after a space as it was before, then something else follows
them. They are still read as the same tokens.

* `Spaced rest`: what can follow a token that is written again.
* `Punctuator.longest?_spaced`, `Name.body_local`, `Quoted.templateBody_local`: what the text after a
  token has to do with it. For strings and numbers this is `Quoted.exists_string` and
  `Number.relocates_read`.
* `Lexeme.readsAgain`: a token without a report is read again from its text.
* `Lexer.tokens`: the tokens of a text, and `Lexer.respaced`, the text in which they are written
  again.
* `Lexer.tokens_respaced`: that text has the same tokens, and nothing is reported.
-/

namespace LambdaLift

open Cursor List

/-- The end of the text, a space or a line feed. -/
def Spaced (rest : List Char) : Prop :=
  ∀ c, rest.head? = some c → c = ' ' ∨ c = '\n'

variable {rest : List Char} {c : Cursor}

theorem Spaced.not_mem (h : Spaced rest) {p : Char → Bool} (hspace : p ' ' = false)
    (hline : p '\n' = false) :
    ∀ c, rest.head? = some c → p c = false := by
  intro c hc
  rcases h c hc with rfl | rfl
  · exact hspace
  · exact hline

/-! ## Punctuators -/

namespace Punctuator

/-- The longest punctuator at the start of a text is the start of the text. -/
theorem text_of_longest? {cs : List Char} {p : Punctuator} (h : longest? cs = some p) :
    p.text.toList <+: cs := by
  unfold longest? at h
  split at h
  · split at h <;> cases h <;> simp [text]
  · obtain ⟨n, -, hn⟩ := exists_of_findSome?_eq_some h
    have htext : p.text.toList = cs.take n := by simpa using find?_some hn
    rw [htext]
    exact take_prefix n cs

theorem longest?_spaced (p : Punctuator) {rest : List Char} (h : Spaced rest) :
    longest? (p.text.toList ++ rest) = some p := by
  have hextensions : ' ' ∉ p.extensions ∧ '\n' ∉ p.extensions := by
    cases p <;> decide
  have hrest : ∀ d, rest.head? = some d → d ∉ p.extensions := by
    intro d hd
    rcases h d hd with rfl | rfl
    · exact hextensions.1
    · exact hextensions.2
  by_cases hp : p.text.toList.head? = some '?'
  · have hcases : p = .question ∨ p = .questionDot ∨ p.text.toList.take 2 = ['?', '?'] := by
      revert hp
      cases p <;> decide
    unfold longest?
    split
    · -- Before something else, a question mark and a point are one punctuator.
      rename_i d cs heq
      rcases hcases with rfl | rfl | hdouble
      · rcases h '.' (by simpa [text] using congrArg (·.tail.head?) heq) with hdot | hdot <;>
          exact absurd hdot (by decide)
      · have hd : rest.head? = some d := by simpa [text] using congrArg (·.tail.tail.head?) heq
        rw [h.not_mem (p := Character.isDigit) (by decide) (by decide) d hd]
        rfl
      · have htake := congrArg (take 2) heq
        rw [take_append, hdouble] at htake
        simp at htake
    · exact findSome?_ofChars? hrest
  · exact longest?_append hp hrest

/-- A punctuator before a space or a line feed does not start a number. -/
theorem startsNumber_spaced (p : Punctuator) {rest : List Char} (h : Spaced rest) :
    Lexeme.startsNumber (p.text.toList ++ rest) = false := by
  obtain ⟨c, cs, hcs, hdigit, hdot⟩ : ∃ c cs, p.text.toList = c :: cs ∧
      Character.isDigit c = false ∧ (c = '.' → cs = [] ∨ cs = ['.', '.']) := by
    cases p <;> exact ⟨_, _, rfl, by decide⟩
  have hnext : c = '.' → ∀ d, (cs ++ rest).head? = some d → Character.isDigit d = false := by
    intro hc d hd
    rcases hdot hc with rfl | rfl
    · exact h.not_mem (by decide) (by decide) d hd
    · obtain rfl : '.' = d := by simpa using hd
      decide
  rw [hcs, cons_append, Number.startsNumber_cons, hdigit, Bool.false_or]
  cases hhead : (cs ++ rest).head? with
  | none => simp
  | some d =>
    by_cases hc : c = '.'
    · simp [hnext hc d hhead]
    · simp [hc]

end Punctuator

/-! ## Names -/

namespace Name

/-- The text does not go on with a name. -/
def Ends (rest : List Char) : Prop :=
  ¬ ['\\', 'u'] <+: rest ∧ ∀ c, rest.head? = some c → Character.isNamePart c = false

theorem ends_of_spaced {rest : List Char} (h : Spaced rest) : Ends rest := by
  refine ⟨?_, h.not_mem (by decide) (by decide)⟩
  rintro ⟨w, rfl⟩
  rcases h '\\' rfl with h | h <;> exact absurd h (by decide)

theorem body_of_ends {rest : List Char} (h : Ends rest) (o : Nat) :
    body ⟨o, rest⟩ = { stop := ⟨o, rest⟩ } := by
  rw [body]
  cases rest with
  | nil => rfl
  | cons c rest =>
    have hescape : (⟨o, c :: rest⟩ : Cursor).startsWith ['\\', 'u'] = false := by
      rw [Cursor.startsWith, ← Bool.not_eq_true, isPrefixOf_iff_prefix]
      exact h.1
    simp [hescape, h.2 c rfl]

theorem ends_body (c : Cursor) : Ends (body c).stop.rest := by
  fun_induction body c with
  | case1 c hrest => simp [Ends, hrest]
  | case2 => assumption
  | case3 => assumption
  | case4 => assumption
  | case5 c x xs hrest hescape hx =>
    rw [Cursor.startsWith, isPrefixOf_iff_prefix] at hescape
    exact ⟨hescape, by simpa [hrest] using hx⟩

/-- A name without a report is the same before everything that does not go on with it. -/
theorem body_local (c : Cursor) (hclean : (body c).reports = []) :
    ∃ raw, c.rest = raw ++ (body c).stop.rest ∧ ∀ o rest, Ends rest →
      body ⟨o, raw ++ rest⟩ = { body c with stop := ⟨o + byteLength raw, rest⟩ } := by
  fun_induction body c with
  | case1 c hrest => exact ⟨[], rfl, fun o rest h => body_of_ends h o⟩
  | case2 c x xs hrest hesc cooked stop hread more y hcooked ih =>
    obtain ⟨o, cs⟩ := c
    obtain ⟨w, rfl⟩ : ∃ w, cs = '\\' :: 'u' :: w :=
      Exists.imp (fun _ => Eq.symm) <| isPrefixOf_iff_prefix.1 hesc
    obtain ⟨hcooked, hy⟩ := Option.filter_eq_some_iff.1 hcooked
    subst hcooked
    have hstop : (Escape.unicode (Cursor.skip ⟨o, '\\' :: 'u' :: w⟩ 2)).2 = stop :=
      congrArg Prod.snd hread
    obtain ⟨raw, hraw, hsame⟩ := ih hclean
    rw [hstop] at hraw hsame
    have hmore : more = body stop := congrArg body hstop
    clear_value more
    subst hmore
    rw [skip_cons, skip_cons, skip_zero] at hread
    obtain ⟨code, rfl, hcode⟩ := Escape.unicode_split hread
    -- A surrogate without its second half is no part of a name.
    have hplain : y ≠ Escape.replacement := by
      rintro rfl
      exact absurd hy (by decide +kernel)
    refine ⟨'\\' :: 'u' :: code ++ raw, by simp [← hraw], fun o' rest h => ?_⟩
    have hagain := hcode (o' + '\\'.utf8Size + 'u'.utf8Size) (raw ++ rest) (absurd · hplain)
    rw [append_assoc, cons_append, cons_append, body]
    simp only [Cursor.startsWith, isPrefixOf, beq_self_eq_true, Bool.and_self, ↓reduceIte,
      skip_cons, skip_zero, hagain, Option.filter_some, hy, hsame _ rest h]
    simp [byteLength, byteLength_append, Nat.add_assoc]
  | case3 => cases hclean
  | case4 c x xs hrest hesc hx more ih =>
    obtain ⟨raw, hraw, hsame⟩ := ih hclean
    have hxs : xs = raw ++ more.stop.rest := by
      rw [← hraw]
      simp [Cursor.skip, hrest]
    refine ⟨x :: raw, by rw [hrest, hxs]; rfl, fun o rest h => ?_⟩
    rw [cons_append, body_cons hx, hsame _ rest h]
    simp [byteLength, Nat.add_assoc, more]
  | case5 c x xs hrest hesc hx => exact ⟨[], rfl, fun o rest h => body_of_ends h o⟩

end Name

/-! ## Templates -/

theorem Cursor.startsWith_pair (o : Nat) (x a b : Char) (cs : List Char) :
    (⟨o, x :: cs⟩ : Cursor).startsWith [a, b] = (a == x && cs.head? == some b) := by
  cases cs with
  | nil => simp [startsWith, isPrefixOf]
  | cons y cs =>
    have hy : (b == y) = (y == b) := BEq.comm
    simp [startsWith, isPrefixOf, hy]

namespace Quoted

/-- What ends a piece of a template: the opening of a substitution, or the closing mark. -/
def templateEnd : (opened : Bool) → List Char
  | true => ['$', '\x7b']
  | false => ['\x60']

theorem exists_templateEnd (opened : Bool) :
    ∃ q cs, templateEnd opened = q :: cs ∧ EndsEscape q := by
  cases opened <;> exact ⟨_, _, rfl, by decide, by decide, by decide⟩

theorem head?_templateEnd (opened : Bool) (ys zs zs' : List Char) :
    (ys ++ (templateEnd opened ++ zs')).head? = (ys ++ (templateEnd opened ++ zs)).head? := by
  obtain ⟨q, cs, hend, -⟩ := exists_templateEnd opened
  rw [hend]
  exact Escape.head?_append_quote ys _ _

/-- The inside of a piece of a template that is closed and has no fault is the same wherever it
stands. -/
theorem templateBody_local (c : Cursor) (hclosed : (templateBody c).1.closed = true)
    (hclean : (templateBody c).1.reports = []) :
    ∃ ys, c.rest = ys ++ (templateEnd (templateBody c).2 ++ (templateBody c).1.stop.rest) ∧
      ∀ o zs, templateBody ⟨o, ys ++ (templateEnd (templateBody c).2 ++ zs)⟩ =
        ({ (templateBody c).1 with
            stop := ⟨o + byteLength ys + byteLength (templateEnd (templateBody c).2), zs⟩ },
          (templateBody c).2) := by
  fun_induction templateBody c with
  | case1 c hrest => cases hclosed
  | case2 c xs hrest =>
    refine ⟨[], by simp [templateEnd, Cursor.skip, hrest], fun o zs => ?_⟩
    rw [nil_append, templateEnd, templateBody]
    simp [skip_cons, byteLength]
  | case3 c x xs hrest hmark hsub =>
    obtain ⟨w, hw⟩ := isPrefixOf_iff_prefix.1 hsub
    refine ⟨[], by simp [templateEnd, Cursor.skip, ← hw], fun o zs => ?_⟩
    rw [nil_append, templateEnd, templateBody]
    simp [startsWith_pair, skip_cons, byteLength, Nat.add_assoc]
  | case4 c xs hsub b opened heq hrest hmark ih =>
    obtain ⟨hescape, hbody⟩ := append_eq_nil_iff.1 hclean
    rw [heq] at ih
    obtain ⟨ys, hys, hsame⟩ := ih hclosed hbody
    obtain ⟨q, cs, hend, hq⟩ := exists_templateEnd opened
    simp only [hend, cons_append] at hys hsame
    obtain ⟨o, rest⟩ := c
    simp only at hrest
    subst hrest
    cases xs with
    | nil =>
      -- Nothing follows the backslash, so nothing ends the piece either.
      simp [Escape.read, skip_cons, peek?] at hys
    | cons x w =>
      obtain ⟨pre, hpre, hread⟩ := Escape.read_local hq hescape hys
      refine ⟨'\\' :: pre ++ ys, by simp [hpre, hend, Body.escape], fun o' zs => ?_⟩
      rw [append_assoc, cons_append, templateBody]
      simp only [startsWith_pair, hend, cons_append, hread, hsame, Body.escape]
      simp [byteLength, byteLength_append, Nat.add_assoc]
  | case5 c xs hsub b opened heq hrest hmark hslash ih =>
    rw [heq] at ih
    obtain ⟨ys, hys, hsame⟩ := ih hclosed hclean
    obtain ⟨o, rest⟩ := c
    simp only at hrest
    subst hrest
    simp only [startsWith_pair, beq_self_eq_true, Bool.true_and] at hys
    by_cases hfeed : (xs.head? == some '\n') = true
    · obtain ⟨w, rfl⟩ := head?_eq_some_iff.1 (eq_of_beq hfeed)
      rw [dif_pos hfeed, skip_cons, skip_cons, skip_zero] at hys
      simp only at hys hsame
      refine ⟨'\r' :: '\n' :: ys, by rw [hys]; rfl, fun o' zs => ?_⟩
      rw [cons_append, cons_append, templateBody]
      simp only [startsWith_pair, head?_cons, beq_self_eq_true, Bool.and_self,
        ↓reduceIte, skip_cons, skip_zero, hsame, Body.push, byteLength, Nat.add_assoc]
      simp
    · rw [dif_neg hfeed, skip_cons, skip_zero] at hys
      simp only at hys hsame
      refine ⟨'\r' :: ys, by rw [hys]; rfl, fun o' zs => ?_⟩
      have hnext := head?_templateEnd opened ys b.stop.rest zs
      rw [← hys] at hnext
      rw [cons_append, templateBody]
      simp only [startsWith_pair, hnext, hfeed, Bool.and_false, Bool.false_eq_true,
        ↓reduceIte, skip_cons, skip_zero, hsame, Body.push, byteLength, Nat.add_assoc]
      simp
  | case6 c x xs hrest hmark hsub hslash hreturn b opened heq ih =>
    rw [heq] at ih
    obtain ⟨ys, hys, hsame⟩ := ih hclosed hclean
    obtain ⟨o, rest⟩ := c
    simp only at hrest
    subst hrest
    rw [skip_cons, skip_zero] at hys
    simp only at hys hsame
    refine ⟨x :: ys, by rw [hys]; rfl, fun o' zs => ?_⟩
    have hnext : (⟨o', x :: (ys ++ (templateEnd opened ++ zs))⟩ : Cursor).startsWith
        ['$', '\x7b'] = false := by
      rw [startsWith_pair, head?_templateEnd opened ys b.stop.rest zs, ← hys,
        ← startsWith_pair o]
      simpa using hsub
    rw [cons_append, templateBody]
    simp only [hmark, hnext, hslash, hreturn, ↓reduceIte, skip_cons, skip_zero, hsame,
      Body.push, byteLength, Nat.add_assoc]
    simp

end Quoted

/-! ## Tokens of every kind -/

/-- The token at the cursor is read again from its text when `rest` follows. -/
def Lexeme.ReadsAgain (c : Cursor) (rest : List Char) : Prop :=
  ∃ raw, c.rest = raw ++ (read c).stop.rest ∧ ∀ o,
    read ⟨o, raw ++ rest⟩ = { read c with stop := ⟨o + byteLength raw, rest⟩ }

open Lexeme

theorem Quoted.readsAgain_template {o : Nat} {cs : List Char}
    (hclean : (read ⟨o, '\x60' :: cs⟩).reports = []) (rest : List Char) :
    ReadsAgain ⟨o, '\x60' :: cs⟩ rest := by
  have heq (o : Nat) (cs : List Char) : read ⟨o, '\x60' :: cs⟩ =
      templatePiece true ⟨o, '\x60' :: cs⟩ ⟨o + '\x60'.utf8Size, cs⟩ := by
    simp [Lexeme.read, skip_cons]
  rw [heq] at hclean
  obtain ⟨hclosed, hbody⟩ := closed_of_lexeme hclean
  obtain ⟨ys, hys, hsame⟩ := templateBody_local _ hclosed hbody
  refine ⟨'\x60' :: (ys ++ templateEnd (templateBody ⟨o + '\x60'.utf8Size, cs⟩).2), ?_, ?_⟩
  · rw [heq, cons_append, append_assoc]
    exact congrArg ('\x60' :: ·) hys
  · intro o'
    rw [cons_append, append_assoc, heq, heq]
    simp only [templatePiece, lexeme, hsame, hclosed]
    simp [byteLength, byteLength_append, Nat.add_assoc]

theorem Number.readsAgain (hstart : startsNumber c.rest = true)
    (hclean : (Lexeme.read c).reports = [])
    (h : rest.head? = (Lexeme.read c).stop.rest.head? ∨ Ends rest ∧ rest.head? ≠ some '.') :
    ReadsAgain c rest := by
  obtain ⟨o, cs⟩ := c
  have hnumber := hclean
  rw [read_eq_number hstart] at hnumber
  obtain ⟨raw, after, x, rfl, hraw, -, hhere, hmoved⟩ := relocates_read hstart hnumber
  have hread := (read_eq_number hstart o).trans (hhere after rfl o)
  have hsettles : Settles raw x rest := by
    rw [hread] at h
    rcases h with h | ⟨hends, hdot⟩
    · exact hhere rest h
    · exact hmoved rest hends hdot
  refine ⟨raw, by rw [hread], fun o' => ?_⟩
  rw [read_eq_number (startsNumber_append hraw rest), hsettles, hread]

/-- A name starts where its first character is kept, and with it the letter after a backslash. -/
theorem Lexeme.startsName_append {raw : List Char} (h : startsName (raw ++ rest) = true)
    (hne : raw ≠ []) (hslash : raw ≠ ['\\']) (rest' : List Char) :
    startsName (raw ++ rest') = true := by
  match raw with
  | [] => exact absurd rfl hne
  | [x] =>
    have hx : x ≠ '\\' := fun hx => hslash (by rw [hx])
    have hstart : Character.isNameStart x = true := by
      cases rest <;> simpa [startsName, hx] using h
    cases rest' <;> simpa [startsName, hx] using hstart
  | x :: y :: raw =>
    by_cases hx : x = '\\' <;> simpa [startsName, hx] using h

theorem Lexeme.read_of_startsName {cs : List Char} (h : startsName cs = true) (o : Nat) :
    read ⟨o, cs⟩ = Name.read ⟨o, cs⟩ := by
  cases cs with
  | nil => simp [startsName] at h
  | cons x cs =>
    by_cases hx : x = '\\'
    · subst hx
      have hnumber : startsNumber ('\\' :: cs) = false := by
        rw [Number.startsNumber_cons]
        rfl
      simp [read, hnumber, h]
    · refine read_eq_name ?_
      cases cs <;> simpa [startsName, hx] using h

theorem Name.readsAgain (hstart : startsName c.rest = true) (hclean : (Lexeme.read c).reports = [])
    (h : Ends (Lexeme.read c).stop.rest → Ends rest) : ReadsAgain c rest := by
  obtain ⟨o, cs⟩ := c
  have hread := read_of_startsName hstart o
  rw [hread] at hclean h
  replace h := h (ends_body _)
  obtain ⟨raw, hraw, hsame⟩ := body_local _ hclean
  have hne : raw ≠ [] := by
    rintro rfl
    have hlt := length_lt_of_reaches (c := ⟨o, cs⟩) (by rintro rfl; simp [startsName] at hstart)
      (reaches_body_skip hstart)
    rw [hraw] at hlt
    exact Nat.lt_irrefl _ hlt
  -- A backslash alone would not have been read.
  have hslash : raw ≠ ['\\'] := by
    rintro rfl
    have hbody := congrArg (·.stop.rest) (hsame 0 [] (by simp [Ends]))
    rw [body] at hbody
    simp [Cursor.startsWith, isPrefixOf, show Character.isNamePart '\\' = false by decide]
      at hbody
  refine ⟨raw, by rw [hread]; exact hraw, fun o' => ?_⟩
  simp only at hraw
  rw [read_of_startsName (startsName_append (hraw ▸ hstart) hne hslash rest), hread]
  simp only [read, hsame o' rest h]

/-- A token without a report is read again before a text that ends it as the text after it did. -/
theorem Lexeme.readsAgain (hclean : (read c).reports = []) (hend : c.rest = [] → rest = [])
    (hnumber : rest.head? = (read c).stop.rest.head? ∨
      Number.Ends rest ∧ rest.head? ≠ some '.')
    (hname : Name.Ends (read c).stop.rest → Name.Ends rest)
    (hpunctuator : ∀ (p : Punctuator) after, after = (read c).stop.rest →
      Punctuator.longest? (p.text.toList ++ after) = some p →
      startsNumber (p.text.toList ++ after) = false →
      Punctuator.longest? (p.text.toList ++ rest) = some p ∧
        startsNumber (p.text.toList ++ rest) = false) : ReadsAgain c rest := by
  obtain ⟨o, cs⟩ := c
  cases cs with
  | nil =>
    obtain rfl := hend rfl
    exact ⟨[], rfl, fun o' => rfl⟩
  | cons x xs =>
    by_cases hquote : IsQuote x
    · have hkind : (read ⟨o, x :: xs⟩).kind = .string := by
        rw [Quoted.read_eq_string hquote]
        rfl
      obtain ⟨q, ys, -, hsplit, hsame⟩ := Quoted.exists_string hkind hclean
      exact ⟨_, hsplit, fun o' => hsame o' rest⟩
    by_cases hmark : x = '\x60'
    · subst hmark
      exact Quoted.readsAgain_template hclean rest
    by_cases hdigit : startsNumber (x :: xs) = true
    · exact Number.readsAgain hdigit hclean hnumber
    by_cases hletter : startsName (x :: xs) = true
    · exact Name.readsAgain hletter hclean hname
    cases hlongest : Punctuator.longest? (x :: xs) with
    | none =>
      simp only [IsQuote, not_or] at hquote
      simp [read, hquote, hmark, hdigit, hletter, hlongest] at hclean
    | some p =>
      obtain ⟨after, hafter⟩ := Punctuator.text_of_longest? hlongest
      rw [Bool.not_eq_true] at hdigit
      rw [← hafter] at hlongest hdigit hpunctuator ⊢
      have hread := Punctuator.read_of_longest? hlongest hdigit o
      obtain ⟨hlongest', hdigit'⟩ := hpunctuator p after (by rw [hread]) hlongest hdigit
      refine ⟨p.text.toList, by rw [hread], fun o' => ?_⟩
      rw [Punctuator.read_of_longest? hlongest' hdigit', hread]

/-- A token without a report is read again before a space, a line feed or the end of the text. -/
theorem Lexeme.readsAgain_spaced (hclean : (read c).reports = []) (h : Spaced rest)
    (hend : c.rest = [] → rest = []) : ReadsAgain c rest := by
  refine readsAgain hclean hend (.inr ⟨fun d hd => ?_, fun hd => ?_⟩)
    (fun _ => Name.ends_of_spaced h)
    fun p _ _ _ _ => ⟨Punctuator.longest?_spaced p h, Punctuator.startsNumber_spaced p h⟩
  · exact ⟨h.not_mem (by decide) (by decide) d hd, h.not_mem (by decide) (by decide) d hd⟩
  · rcases h _ hd with hd | hd <;> exact absurd hd (by decide)

/-! ## Between tokens -/

namespace Trivia

/-- What follows the gap before a token does not go on with the gap. -/
theorem stops_skip (c : Cursor) : Stops (skip c).stop.rest := by
  fun_induction skip c with
  | case1 c hrest =>
    intro d hd
    simp [hrest] at hd
  | case2 _ _ _ _ _ _ ih => exact ih
  | case3 _ _ _ _ _ _ ih => exact ih
  | case4 _ _ _ _ _ _ _ _ _ ih => exact ih
  | case5 _ _ _ _ _ _ _ _ ih => exact ih
  | case6 c x xs hrest hbreak hline hblock hblank =>
    obtain ⟨o, rest⟩ := c
    simp only at hrest
    subst hrest
    intro d hd
    obtain rfl : x = d := by simpa using hd
    refine ⟨by simp [isGap, hbreak, hblank], ?_⟩
    rintro rfl e he
    constructor
    · rintro rfl
      simp_all [startsWith_pair]
    · rintro rfl
      simp_all [startsWith_pair]

/-- A token that starts after a gap does so before other text, too. -/
theorem Stops.append {raw after rest : List Char} (h : Stops (raw ++ after)) (hrest : Spaced rest)
    (hend : raw = [] → rest = []) : Stops (raw ++ rest) := by
  match raw with
  | [] => simp [hend rfl, Stops]
  | [x] =>
    intro d hd
    refine ⟨(h d hd).1, fun _ e he => ?_⟩
    rcases hrest e he with rfl | rfl <;> decide
  | x :: y :: raw =>
    intro d hd
    exact h d hd

end Trivia

namespace Lexer

/-! ## The tokens of a text -/

theorem length_scan_lt {l : Lexer} (h : l.scan.kind ≠ .endOfFile) :
    l.scan.here.rest.length < l.here.rest.length := by
  have hne : (Trivia.skip l.here).stop.rest ≠ [] := fun hnil => h (kind_read_eq_endOfFile.2 hnil)
  have hwidth := length_lt_of_reaches hne (reaches_read_skip hne)
  exact Nat.lt_of_lt_of_le hwidth (here_le_scan_start l).2

/-- The tokens after the current one, with the end of the text as the last of them. -/
def tokens (l : Lexer) : List Lexer :=
  if l.scan.kind = .endOfFile then [l.scan] else l.scan :: l.scan.tokens
termination_by l.here.rest.length
decreasing_by exact length_scan_lt ‹_›

/-- A token as it is written again: on a new line if a line ends before it, and after a space if
not. -/
def respacedText (t : Lexer) : List Char :=
  (if t.lineBreakBefore then '\n' else ' ') :: t.text.toList

/-- The text in which tokens are written again. -/
def respaced (ts : List Lexer) : String :=
  String.ofList (ts.flatMap respacedText)

/-- Two tokens that differ only in their place. -/
structure Agrees (t t' : Lexer) : Prop where
  kind : t'.kind = t.kind
  text : t'.text = t.text
  value : t'.value = t.value
  number : t'.number = t.number
  flags : t'.flags = t.flags

theorem spaced_respaced (ts : List Lexer) : Spaced (ts.flatMap respacedText) := by
  intro c hc
  cases ts with
  | nil => cases hc
  | cons t ts =>
    obtain rfl : (if t.lineBreakBefore then '\n' else ' ') = c := by
      simpa [respacedText] using hc
    cases t.lineBreakBefore
    · exact .inl rfl
    · exact .inr rfl

/-- A token without a report is the next one of another text if the gap before it is passed there
and it is read again. -/
theorem agrees_scan {l l' : Lexer} {raw rest : List Char} {o : Nat}
    (hclean : (read l.scan.start).reports = []) (hraw : l.scan.start.rest = raw ++ l.scan.here.rest)
    (hskip : Trivia.skip l'.here =
      { stop := ⟨o, raw ++ rest⟩, lineBreak := (Trivia.skip l.here).lineBreak })
    (hread : ∀ o, read ⟨o, raw ++ rest⟩ =
      { read l.scan.start with stop := ⟨o + byteLength raw, rest⟩ }) :
    l.scan.Agrees l'.scan ∧ l'.scan.here.rest = rest ∧ l'.scan.reports = l'.reports := by
  have htext : l.scan.text = String.ofList raw :=
    congrArg String.ofList (textTo_of_append hraw)
  have hlexeme : l.scan.start = (Trivia.skip l.here).stop := rfl
  rw [hlexeme] at hread hclean
  refine ⟨⟨?_, ?_, ?_, ?_, ?_⟩, ?_, ?_⟩
  · simp [scan, hskip, hread]
  · rw [htext]
    simp [text, scan, hskip, hread, textTo_append]
  · simp [scan, hskip, hread]
  · simp [scan, hskip, hread]
  · simp [scan, hskip, hread]
  · simp [scan, hskip, hread]
  · simp [scan, hskip, hread, hclean]

/-- A token without a report is read again from a text in which it is written next. -/
theorem scan_respaced {l l' : Lexer} {rest : List Char} (hclean : l.scan.reports = [])
    (hrest : Spaced rest) (hend : l.scan.kind = .endOfFile → rest = [])
    (hhere : l'.here.rest = l.scan.respacedText ++ rest) :
    l.scan.Agrees l'.scan ∧ l'.scan.here.rest = rest ∧ l'.scan.reports = l'.reports := by
  have hreports := (append_eq_nil_iff.1 hclean).2
  have hnil : l.scan.start.rest = [] → rest = [] := fun h => hend (kind_read_eq_endOfFile.2 h)
  obtain ⟨raw, hraw, hread⟩ := readsAgain_spaced hreports hrest hnil
  have htext : l.scan.text = String.ofList raw :=
    congrArg String.ofList (textTo_of_append hraw)
  have hstops : Trivia.Stops (raw ++ rest) := by
    refine Trivia.Stops.append (hraw ▸ Trivia.stops_skip l.here) hrest ?_
    rintro rfl
    -- Before the end of the text a token takes a character.
    refine hnil (Classical.byContradiction fun hne => ?_)
    have hlt := length_lt_of_reaches hne (reaches_read_skip hne)
    exact Nat.ne_of_gt hlt (congrArg length hraw)
  have hbreak : l.scan.lineBreakBefore = (Trivia.skip l.here).lineBreak := by
    simp [lineBreakBefore, scan, TokenFlags.or, Lexeme.lineBreakBefore_read]
  rw [respacedText, htext, String.toList_ofList, hbreak] at hhere
  generalize hg : (if (Trivia.skip l.here).lineBreak then '\n' else ' ') = g at hhere
  have hgap : isGap g = true ∧ Character.isLineBreak g = (Trivia.skip l.here).lineBreak := by
    rw [← hg]
    cases (Trivia.skip l.here).lineBreak <;> decide
  have hskip : Trivia.skip l'.here =
      { stop := ⟨l'.here.offset + byteLength [g], raw ++ rest⟩
        lineBreak := (Trivia.skip l.here).lineBreak } := by
    have hone : ∀ x ∈ [g], isGap x = true := by simpa using hgap.1
    have := Trivia.skip_append hone hstops l'.here.offset
    rw [singleton_append, ← cons_append, ← hhere] at this
    simpa [hgap.2] using this
  exact agrees_scan hreports hraw hskip hread

theorem tokens_of_respaced {l l' : Lexer} (hclean : ∀ t ∈ l.tokens, t.reports = [])
    (hhere : l'.here.rest = l.tokens.flatMap respacedText) (hreports : l'.reports = []) :
    Forall₂ Agrees l.tokens l'.tokens ∧ ∀ t ∈ l'.tokens, t.reports = [] := by
  fun_induction tokens l generalizing l' with
  | case1 l hkind =>
    obtain ⟨hsame, -, hnone⟩ := scan_respaced (l := l) (hclean l.scan (by simp)) (spaced_respaced [])
      (fun _ => rfl) (by simpa using hhere)
    have htokens : l'.tokens = [l'.scan] := by rw [tokens, if_pos (hsame.kind.trans hkind)]
    rw [htokens]
    exact ⟨.cons hsame .nil, by simpa [hreports] using hnone⟩
  | case2 l hkind ih =>
    rw [flatMap_cons] at hhere
    obtain ⟨hsame, hafter, hnone⟩ := scan_respaced (hclean l.scan (by simp))
      (spaced_respaced l.scan.tokens) (absurd · hkind) hhere
    rw [hreports] at hnone
    obtain ⟨hmore, hclean'⟩ := ih (fun t ht => hclean t (mem_cons_of_mem _ ht)) hafter hnone
    have htokens : l'.tokens = l'.scan :: l'.scan.tokens := by
      rw [tokens, if_neg (hsame.kind.symm ▸ hkind)]
    rw [htokens]
    exact ⟨.cons hsame hmore, forall_mem_cons.2 ⟨hnone, hclean'⟩⟩

/-- **Writing tokens again.** If nothing is reported in the tokens of a text, then writing them one
after another, each on a new line or after a space as it was, gives a text with the same tokens, and
nothing is reported in it either. -/
theorem tokens_respaced (text : String) (hclean : ∀ t ∈ (ofText text).tokens, t.reports = []) :
    List.Forall₂ Agrees (ofText text).tokens (ofText (respaced (ofText text).tokens)).tokens ∧
      ∀ t ∈ (ofText (respaced (ofText text).tokens)).tokens, t.reports = [] :=
  tokens_of_respaced hclean (by simp [ofText, Cursor.ofText, respaced]) rfl

/-- Tokens that end where they do because of what follows: a question mark before a number, a number
in base eight before another one, a shift in an assignment, a name and a string with escapes, and a
template up to a substitution. -/
theorem tokens_respaced_escapes :
    let text := "a?.5:017.5>>>=b/**/\n\\u0061...'\\0' // d\n`$\x7b"
    (ofText text).tokens.map (·.text) = ["a", "?", ".5", ":", "017", ".5", ">>>=", "b", "\\u0061",
        "...", "'\\0'", "`$\x7b", ""] ∧
      respaced (ofText text).tokens =
        " a ? .5 : 017 .5 >>>= b\n\\u0061 ... '\\0'\n`$\x7b " ∧
      List.Forall₂ Agrees (ofText text).tokens (ofText (respaced (ofText text).tokens)).tokens := by
  intro text
  have hclean : (ofText text).tokens.all (·.reports.isEmpty) = true := by decide +kernel
  refine ⟨by decide +kernel, by decide +kernel, (tokens_respaced text fun t ht => ?_).1⟩
  simpa using List.all_eq_true.1 hclean t ht

end Lexer

end LambdaLift
