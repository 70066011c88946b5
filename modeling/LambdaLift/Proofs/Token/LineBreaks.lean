import LambdaLift.Proofs.Token.Respaced

/-!
# One line break for another

There are four characters that end a line. Between tokens one can stand for another, except on a
line that a comment takes to its end: only a line feed and a carriage return end such a comment.

* `Character.Alike`: characters that are the same or both end a line.
* `Lexeme.readsAgain_alike`: a token is read again before a text that is alike.
* `Trivia.OnLine part`: a place in a gap on the line of such a comment.
* `Trivia.skip_of_gap`, `Trivia.Gap.swap`: a gap is passed as a whole, and stays one when a line
  break in it is replaced.
* `Lexer.tokens_of_other_break`: a text in which a line break between tokens is replaced has the
  same tokens.
* `Lexer.separator_swallows_statement`: at the end of a comment this fails.
-/

namespace LambdaLift

open Cursor List

/-- The characters are the same, or both end a line. -/
def Character.Alike (x y : Char) : Prop :=
  x = y ∨ isLineBreak x = true ∧ isLineBreak y = true

open Character (Alike)

/-! ## What follows a token -/

section Alike

variable {x y : Char} {cs cs' : List Char}

theorem alike_swap {t t' : Char} (ht : Character.isLineBreak t = true)
    (ht' : Character.isLineBreak t' = true) (before after : List Char) :
    Forall₂ Alike (before ++ t :: after) (before ++ t' :: after) := by
  have hrefl (cs : List Char) : Forall₂ Alike cs cs :=
    forall₂_same.2 fun x _ => .inl rfl
  exact rel_append (hrefl before) (.cons (.inr ⟨ht, ht'⟩) (hrefl after))

theorem Character.Alike.symm (h : Alike x y) : Alike y x :=
  h.imp Eq.symm And.symm

/-- A character that is like one that ends no line is that character. -/
theorem Character.Alike.eq (h : Alike x y) (hx : isLineBreak x = false) : y = x := by
  rcases h with rfl | ⟨hbreak, -⟩
  · rfl
  · rw [hx] at hbreak
    cases hbreak

/-- A class of characters without line breaks does not tell characters apart that are alike. -/
theorem Character.Alike.apply (h : Alike x y) {p : Char → Bool}
    (hp : ∀ c, isLineBreak c = true → p c = false) : p y = p x := by
  rcases h with rfl | ⟨hx, hy⟩
  · rfl
  · rw [hp x hx, hp y hy]

theorem isGap_of_isLineBreak (h : Character.isLineBreak x = true) : isGap x = true := by
  rw [isGap, h, Bool.or_true]

theorem isLineBreak_cases (h : Character.isLineBreak x = true) :
    x = '\n' ∨ x = '\r' ∨ x = '\u2028' ∨ x = '\u2029' := by
  simpa [Character.isLineBreak, or_assoc] using h

theorem isNamePart_of_isLineBreak (h : Character.isLineBreak x = true) :
    Character.isNamePart x = false := by
  rcases isLineBreak_cases h with rfl | rfl | rfl | rfl <;> decide +kernel

theorem Name.Ends.alike (h : Ends cs) (halike : Forall₂ Alike cs cs') : Ends cs' := by
  have hpart (c : Char) := isNamePart_of_isLineBreak (x := c)
  constructor
  · rintro ⟨w, rfl⟩
    obtain ⟨x, xs, hx, hxs, rfl⟩ := forall₂_cons_right_iff.1 halike
    obtain ⟨y, ys, hy, hys, rfl⟩ := forall₂_cons_right_iff.1 hxs
    exact h.1 ⟨ys, by rw [hx.symm.eq rfl, hy.symm.eq rfl]; rfl⟩
  · intro c hc
    obtain ⟨cs', rfl⟩ : ∃ w, cs' = c :: w := head?_eq_some_iff.1 hc
    obtain ⟨x, xs, hx, hxs, rfl⟩ := forall₂_cons_right_iff.1 halike
    rw [hx.apply hpart]
    exact h.2 x rfl

theorem Trivia.Stops.alike (h : Stops cs) (halike : Forall₂ Alike cs cs') : Stops cs' := by
  intro c hc
  obtain ⟨cs', rfl⟩ : ∃ w, cs' = c :: w := head?_eq_some_iff.1 hc
  obtain ⟨x, xs, hx, hxs, rfl⟩ := forall₂_cons_right_iff.1 halike
  obtain ⟨hgap, hslash⟩ := h x rfl
  have hbreak : Character.isLineBreak x = false := by
    rw [isGap, Bool.or_eq_false_iff] at hgap
    exact hgap.2
  obtain rfl := hx.eq hbreak
  refine ⟨hgap, fun hc' d hd => ?_⟩
  obtain ⟨ds, rfl⟩ : ∃ w, cs' = d :: w := head?_eq_some_iff.1 hd
  obtain ⟨y, ys, hy, -, rfl⟩ := forall₂_cons_right_iff.1 hxs
  obtain ⟨hline, hblock⟩ := hslash hc' y rfl
  constructor
  · rintro rfl
    exact hline (hy.symm.eq rfl)
  · rintro rfl
    exact hblock (hy.symm.eq rfl)

theorem Lexeme.startsNumber_alike (h : Forall₂ Alike cs cs') :
    startsNumber cs' = startsNumber cs := by
  have hdigit (c : Char) (hc : Character.isLineBreak c = true) : Character.isDigit c = false :=
    isDigit_of_isGap (isGap_of_isLineBreak hc)
  cases h with
  | nil => rfl
  | @cons x y xs ys hx hxs =>
    have hdot : (y = '.' : Bool) = (x = '.' : Bool) :=
      hx.apply (p := (· = '.')) fun c hc => by
        rcases isLineBreak_cases hc with rfl | rfl | rfl | rfl <;> rfl
    rw [Number.startsNumber_cons, Number.startsNumber_cons, hx.apply hdigit, hdot]
    cases hxs with
    | nil => rfl
    | cons hy _ => simp [hy.apply hdigit]

namespace Punctuator

/-- No punctuator has a line break in it. -/
theorem ofChars?_of_isLineBreak (hx : x ∈ cs) (hbreak : Character.isLineBreak x = true) :
    ofChars? cs = none := by
  rw [ofChars?, find?_eq_none]
  intro p _ heq
  have hall : p.text.toList.all (!Character.isLineBreak ·) = true := by
    cases p <;> decide
  rw [decide_eq_true_eq] at heq
  subst heq
  simpa [hbreak] using all_eq_true.1 hall x hx

theorem eq_or_mem_isLineBreak (h : Forall₂ Alike cs cs') :
    cs = cs' ∨ (∃ x ∈ cs, Character.isLineBreak x = true) ∧
      ∃ x ∈ cs', Character.isLineBreak x = true := by
  induction h with
  | nil => exact .inl rfl
  | @cons x y _ _ hxy _ ih =>
    rcases hxy with rfl | ⟨hx, hy⟩
    · rcases ih with rfl | ⟨⟨a, ha, ha'⟩, b, hb, hb'⟩
      · exact .inl rfl
      · exact .inr ⟨⟨a, .tail _ ha, ha'⟩, b, .tail _ hb, hb'⟩
    · exact .inr ⟨⟨x, .head _, hx⟩, y, .head _, hy⟩

theorem ofChars?_alike (h : Forall₂ Alike cs cs') : ofChars? cs' = ofChars? cs := by
  rcases eq_or_mem_isLineBreak h with rfl | ⟨⟨a, ha, ha'⟩, b, hb, hb'⟩
  · rfl
  · rw [ofChars?_of_isLineBreak ha ha', ofChars?_of_isLineBreak hb hb']

theorem longest?_alike (h : Forall₂ Alike cs cs') : longest? cs' = longest? cs := by
  have hdigit (c : Char) (hc : Character.isLineBreak c = true) : Character.isDigit c = false :=
    isDigit_of_isGap (isGap_of_isLineBreak hc)
  have hparts (n : Nat) : ofChars? (cs'.take n) = ofChars? (cs.take n) :=
    ofChars?_alike (forall₂_take n h)
  unfold longest?
  split
  · obtain ⟨x, xs, hx, hxs, rfl⟩ := forall₂_cons_right_iff.1 h
    obtain ⟨y, ys, hy, hys, rfl⟩ := forall₂_cons_right_iff.1 hxs
    obtain ⟨d, ds, hd, hds, rfl⟩ := forall₂_cons_right_iff.1 hys
    rw [hx.symm.eq rfl, hy.symm.eq rfl]
    simp only [hd.apply hdigit]
  · rename_i hno
    split
    · obtain ⟨x, xs, hx, hxs, rfl⟩ := forall₂_cons_left_iff.1 h
      obtain ⟨y, ys, hy, hys, rfl⟩ := forall₂_cons_left_iff.1 hxs
      obtain ⟨d, ds, hd, hds, rfl⟩ := forall₂_cons_left_iff.1 hys
      exact absurd (by rw [hx.eq rfl, hy.eq rfl]) (hno d ds)
    · simp only [hparts]

end Punctuator

/-- A token without a report is read again before a text that is like the one after it. -/
theorem Lexeme.readsAgain_alike {c : Cursor} (hclean : (read c).reports = [])
    (h : Forall₂ Alike (read c).stop.rest cs') : ReadsAgain c cs' := by
  refine readsAgain hclean (fun hend => ?_) ?_ (fun hname => hname.alike h) ?_
  · have hlength := (Lexeme.reaches_read c).length_le
    rw [hend, length_nil, Nat.le_zero] at hlength
    rw [eq_nil_of_length_eq_zero hlength] at h
    exact forall₂_nil_left_iff.1 h
  · generalize (read c).stop.rest = after at h
    cases h with
    | nil => exact .inl rfl
    | @cons x y _ _ hxy _ =>
      rcases hxy with rfl | ⟨-, hy⟩
      · exact .inl rfl
      · have hgap := isGap_of_isLineBreak hy
        refine .inr ⟨fun c hc => ?_, fun hc => ?_⟩
        · cases hc
          exact ⟨isDigit_of_isGap hgap, isNameStart_of_isGap hgap⟩
        · cases hc
          cases hy
  · rintro p after rfl hlongest hnumber
    have halike : Forall₂ Alike (p.text.toList ++ (read c).stop.rest) (p.text.toList ++ cs') :=
      rel_append (forall₂_same.2 fun x _ => .inl rfl) h
    rw [Punctuator.longest?_alike halike, startsNumber_alike halike]
    exact ⟨hlongest, hnumber⟩

end Alike

/-! ## Between tokens -/

namespace Trivia

/-- A character at which a comment to the end of its line ends. -/
def endsLine (x : Char) : Bool :=
  x = '\n' || x = '\r'

/-- The part of a gap up to a place ends in a comment that takes the rest of its line, or at the end
of that line. -/
def OnLine (part : List Char) : Prop :=
  ∃ before body, part = before ++ '/' :: '/' :: body ∧
    Separates before ('/' :: '/' :: body) ∧ ∀ x ∈ body, endsLine x = false

theorem endsLine_eq_false {x : Char} : endsLine x = false ↔ x ≠ '\n' ∧ x ≠ '\r' := by
  simp [endsLine]

theorem endsLine_eq_true {x : Char} : endsLine x = true ↔ x = '\n' ∨ x = '\r' := by
  simp [endsLine]

variable {gap after part body : List Char} {broken closed : Bool}

theorem OnLine.blank (h : OnLine part) {x : Char}
    (hx : Character.isBlank x = true ∨ Character.isLineBreak x = true) : OnLine (x :: part) := by
  obtain ⟨before, comment, rfl, hbefore, hcomment⟩ := h
  exact ⟨x :: before, comment, rfl, .blank hx hbefore, hcomment⟩

theorem OnLine.line (h : OnLine part) (hbody : ∀ x ∈ body, x ≠ '\n' ∧ x ≠ '\r')
    (hnext : ∀ x, part.head? = some x → x = '\n' ∨ x = '\r') :
    OnLine ('/' :: '/' :: (body ++ part)) := by
  obtain ⟨before, comment, rfl, hbefore, hcomment⟩ := h
  exact ⟨'/' :: '/' :: (body ++ before), comment, by simp, .line hbody hnext hbefore, hcomment⟩

theorem OnLine.block (h : OnLine part) (hbody : ¬ ['*', '/'] <:+: body) :
    OnLine ('/' :: '*' :: (body ++ '*' :: '/' :: part)) := by
  obtain ⟨before, comment, rfl, hbefore, hcomment⟩ := h
  exact ⟨'/' :: '*' :: (body ++ '*' :: '/' :: before), comment, by simp, .block hbody hbefore,
    hcomment⟩

theorem commentBody_append (hbody : ¬ ['*', '/'] <:+: body) (cs : List Char) :
    commentBody (body ++ '*' :: '/' :: cs) = (body, true) := by
  induction body with
  | nil => rfl
  | cons x body ih =>
    have hmore : ¬ ['*', '/'] <:+: body := fun h => hbody (h.trans (suffix_cons x body).isInfix)
    rw [cons_append, commentBody.eq_3, ih hmore]
    -- The mark does not begin with the first character of the body.
    rintro ys rfl heq
    cases body with
    | nil => cases heq
    | cons y body =>
      obtain rfl : y = '/' := (List.cons.inj heq).1
      exact hbody ⟨[], body, rfl⟩

/-- A gap is passed as a whole. -/
theorem skip_of_gap (h : Gap gap broken closed after) (hclosed : closed = true)
    (hstops : Stops after) (o : Nat) : skip ⟨o, gap ++ after⟩ =
      { stop := ⟨o + byteLength gap, after⟩, lineBreak := broken } := by
  induction h generalizing o with
  | nil after => simpa [byteLength] using skip_of_stops hstops o
  | @lineBreak x gap after broken closed hx _ ih =>
    rw [cons_append, skip.eq_def]
    simp [hx, skip_cons, ih hclosed hstops, byteLength, Nat.add_assoc]
  | @blank x gap after broken closed hx hbreak _ ih =>
    have hslash : x ≠ '/' := by
      rintro rfl
      exact absurd hx (by decide)
    rw [cons_append, skip.eq_def]
    simp [hbreak, hx, startsWith_of_ne hslash, skip_cons, ih hclosed hstops,
      byteLength, Nat.add_assoc]
  | @line body gap after broken closed hbody hnext hend _ ih =>
    have hstop : ∀ c, (gap ++ after).head? = some c → (c ≠ '\n' && c ≠ '\r') = false := by
      intro c hc
      cases gap with
      | nil => simp [hend rfl] at hc
      | cons y gap => rcases hnext c hc with rfl | rfl <;> rfl
    have hline (o : Nat) : lineComment ⟨o, body ++ (gap ++ after)⟩ =
        ⟨o + byteLength body, gap ++ after⟩ := by
      rw [lineComment, skipWhile,
        takeWhile_append_all (fun x hx => by simpa using hbody x hx) hstop, Cursor.skip_append]
    rw [cons_append, cons_append, append_assoc, skip.eq_def]
    simp [show Character.isLineBreak '/' = false by decide, startsWith_pair,
      skip_cons, hline, ih hclosed hstops, byteLength, byteLength_append, Nat.add_assoc]
  | @block body gap after broken closed hbody _ ih =>
    have hcomment : blockComment ⟨o, '/' :: '*' :: (body ++ '*' :: '/' :: (gap ++ after))⟩ =
        { stop := ⟨o + byteLength ('/' :: '*' :: (body ++ ['*', '/'])), gap ++ after⟩
          lineBreak := body.any Character.isLineBreak } := by
      have hskip : (⟨o + '/'.utf8Size + '*'.utf8Size, body ++ '*' :: '/' :: (gap ++ after)⟩ :
          Cursor).skip (body.length + 2) =
            ⟨o + byteLength ('/' :: '*' :: (body ++ ['*', '/'])), gap ++ after⟩ := by
        have := Cursor.skip_append (o + '/'.utf8Size + '*'.utf8Size) (body ++ ['*', '/'])
          (gap ++ after)
        simpa [byteLength, Nat.add_assoc] using this
      simp [blockComment, skip_cons, commentBody_append hbody, hskip]
    have hcs : '/' :: '*' :: (body ++ '*' :: '/' :: gap) ++ after =
        '/' :: '*' :: (body ++ '*' :: '/' :: (gap ++ after)) := by simp
    rw [hcs, skip.eq_def]
    simp [show Character.isLineBreak '/' = false by decide, startsWith_pair, hcomment,
      ih hclosed hstops, byteLength, byteLength_append, Nat.add_assoc]
  | unclosed => cases hclosed

/-- Whether a gap ends does not depend on the token after it. -/
theorem Gap.before (h : Gap gap broken closed after) {after' : List Char}
    (hend : after = [] → after' = []) : Gap gap broken closed after' := by
  induction h with
  | nil => exact .nil _
  | lineBreak hx _ ih => exact .lineBreak hx (ih hend)
  | blank hx hbreak _ ih => exact .blank hx hbreak (ih hend)
  | line hbody hnext hnil _ ih => exact .line hbody hnext (hend ∘ hnil) (ih hend)
  | block hbody _ ih => exact .block hbody (ih hend)
  | unclosed hbody =>
    rw [hend rfl]
    exact .unclosed hbody

/-- A place in one of two parts. -/
theorem append_eq_append_cons {α : Type} {xs ys us vs : List α} {t : α}
    (h : xs ++ ys = us ++ t :: vs) : (∃ ms, us = xs ++ ms ∧ ys = ms ++ t :: vs) ∨
      ∃ ms, xs = us ++ t :: ms ∧ vs = ms ++ ys := by
  rcases append_eq_append_iff.1 h with h | ⟨ms, hxs, hys⟩
  · exact .inl h
  · cases ms with
    | nil => exact .inl ⟨[], by simpa using hxs.symm, by simpa using hys.symm⟩
    | cons m ms =>
      obtain ⟨rfl, rfl⟩ := List.cons.inj hys
      exact .inr ⟨ms, hxs, rfl⟩

variable {u v : List Char} {t t' : Char}

/-- Where a body does not close its comment, it does not with another line break in it. -/
theorem not_mark_swap (ht' : Character.isLineBreak t' = true) (h : ¬ ['*', '/'] <:+: u ++ t :: v) :
    ¬ ['*', '/'] <:+: u ++ t' :: v := by
  have hmark : t' ∉ ['*', '/'] := by
    rcases isLineBreak_cases ht' with rfl | rfl | rfl | rfl <;> decide
  rintro ⟨front, back, hinfix⟩
  refine h ?_
  rcases append_eq_append_cons hinfix with ⟨ms, rfl, -⟩ | ⟨ms, hfront, rfl⟩
  · exact ⟨front, ms ++ t :: v, by simp⟩
  rcases append_eq_append_cons hfront with ⟨ns, -, hns⟩ | ⟨ns, rfl, rfl⟩
  · exact absurd (hns ▸ by simp) hmark
  · exact ⟨u ++ t :: ns, back, by simp⟩

/-- A line break lies behind a mark. -/
theorem exists_of_marked (ht : Character.isLineBreak t = true) {x y : Char} {cs : List Char}
    (hx : Character.isLineBreak x = false) (hy : Character.isLineBreak y = false)
    (h : x :: y :: cs = u ++ t :: v) : ∃ w, u = x :: y :: w ∧ cs = w ++ t :: v := by
  match u with
  | [] | [_] => grind
  | _ :: _ :: w =>
    simp only [cons_append, List.cons.injEq] at h
    obtain ⟨rfl, rfl, h⟩ := h
    exact ⟨w, rfl, h⟩

/-- **A gap with another line break.** Only on the line of a comment must the other one end the
comment too, or neither of them. -/
theorem Gap.swap (ht : Character.isLineBreak t = true) (ht' : Character.isLineBreak t' = true)
    (hgap : gap = u ++ t :: v) (hline : OnLine u → endsLine t = endsLine t')
    (h : Gap gap broken closed after) : Gap (u ++ t' :: v) broken closed after := by
  have hany (xs ys : List Char) : (xs ++ t' :: ys).any Character.isLineBreak =
      (xs ++ t :: ys).any Character.isLineBreak := by simp [ht, ht']
  induction h generalizing u with
  | nil => simp at hgap
  | @lineBreak x gap _ _ _ hx more ih =>
    cases u with
    | nil =>
      obtain ⟨rfl, rfl⟩ := List.cons.inj hgap
      exact .lineBreak ht' more
    | cons y u =>
      obtain ⟨rfl, rfl⟩ := List.cons.inj hgap
      exact .lineBreak hx (ih rfl fun h => hline (h.blank (.inr hx)))
  | @blank x gap _ _ _ hx hbreak more ih =>
    cases u with
    | nil =>
      obtain ⟨rfl, rfl⟩ := List.cons.inj hgap
      rw [hbreak] at ht
      cases ht
    | cons y u =>
      obtain ⟨rfl, rfl⟩ := List.cons.inj hgap
      exact .blank hx hbreak (ih rfl fun h => hline (h.blank (.inl hx)))
  | @line body gap _ _ _ hbody hnext hend more ih =>
    obtain ⟨u, rfl, hu⟩ := exists_of_marked ht rfl rfl hgap
    rcases append_eq_append_cons hu with ⟨u, rfl, rfl⟩ | ⟨ms, rfl, rfl⟩
    · have hmore := ih rfl fun h => hline (h.line hbody fun x hx => hnext x (by simp [hx]))
      rw [cons_append, cons_append, append_assoc]
      refine .line hbody (fun x hx => ?_) (by simp) hmore
      cases u with
      | nil =>
        -- The line break ends the comment.
        obtain rfl : t' = x := by simpa using hx
        have hends : endsLine t = endsLine t' :=
          hline ⟨[], body, by simp, .nil _, fun x hx => endsLine_eq_false.2 (hbody x hx)⟩
        rw [← endsLine_eq_true, ← hends, endsLine_eq_true]
        exact hnext t rfl
      | cons y u => exact hnext x hx
    · have hends : endsLine t = endsLine t' :=
        hline ⟨[], u, rfl, .nil _, fun x hx => endsLine_eq_false.2 (hbody x (by simp [hx]))⟩
      have hbody' : ∀ x ∈ u ++ t' :: ms, x ≠ '\n' ∧ x ≠ '\r' := by
        intro x hx
        rcases mem_append.1 hx with hx | hx
        · exact hbody x (by simp [hx])
        rcases mem_cons.1 hx with rfl | hx
        · rw [← endsLine_eq_false, ← hends, endsLine_eq_false]
          exact hbody t (by simp)
        · exact hbody x (by simp [hx])
      simpa using Gap.line hbody' hnext hend more
  | @block body gap _ _ _ hbody more ih =>
    obtain ⟨u, rfl, hu⟩ := exists_of_marked ht rfl rfl hgap
    rcases append_eq_append_cons hu with ⟨u, rfl, hclose⟩ | ⟨ms, rfl, rfl⟩
    · obtain ⟨u, rfl, rfl⟩ := exists_of_marked ht rfl rfl hclose
      have hmore := ih rfl fun h => hline (by simpa using h.block hbody)
      simpa using Gap.block hbody hmore
    · have hmore := Gap.block (not_mark_swap ht' hbody) more
      rw [hany] at hmore
      simpa using hmore
  | @unclosed body hbody =>
    obtain ⟨u, rfl, rfl⟩ := exists_of_marked ht rfl rfl hgap
    have hmore := Gap.unclosed (not_mark_swap ht' hbody)
    rw [hany] at hmore
    exact hmore

theorem rest_lineComment (c : Cursor) :
    (lineComment c).rest = c.rest.dropWhile (!endsLine ·) := by
  have hclass : (fun x => x ≠ '\n' && x ≠ '\r' : Char → Bool) = (!endsLine ·) := by
    funext x
    simp [endsLine]
  have hsplit := takeWhile_append_dropWhile (p := (!endsLine ·)) (l := c.rest)
  rw [lineComment, skipWhile, hclass]
  show c.rest.drop _ = _
  nth_rewrite 2 [← hsplit]
  rw [drop_left]

end Trivia

/-! ## Tokens -/

namespace Lexer

open Trivia

variable {l l' : Lexer} {t t' : Char} {pre post : List Char}

/-- Two lexers with the same text ahead, except that the one may have a line break where the other
has another one. -/
inductive Recast (t t' : Char) (post : List Char) (l l' : Lexer) : Prop
  | past (h : l'.here.rest = l.here.rest)
  | ahead (pre : List Char) (h : l.here.rest = pre ++ t :: post)
      (h' : l'.here.rest = pre ++ t' :: post)

/-- A token without a report is the next one of a text that is alike behind the gap before it. -/
theorem scan_alike {raw gap rest : List Char} (hclean : l.scan.reports = [])
    (hraw : l.scan.start.rest = raw ++ l.scan.here.rest)
    (hgap : Gap gap (Trivia.skip l.here).lineBreak true (raw ++ l.scan.here.rest))
    (hrest : Forall₂ Alike l.scan.here.rest rest) (hhere : l'.here.rest = gap ++ (raw ++ rest)) :
    l.scan.Agrees l'.scan ∧ l'.scan.here.rest = rest ∧ l'.scan.reports = l'.reports := by
  have hreports := (append_eq_nil_iff.1 hclean).2
  obtain ⟨raw', hraw', hread⟩ := Lexeme.readsAgain_alike hreports hrest
  obtain rfl : raw = raw' := append_cancel_right (hraw.symm.trans hraw')
  have halike : Forall₂ Alike (raw ++ l.scan.here.rest) (raw ++ rest) :=
    rel_append (forall₂_same.2 fun x _ => .inl rfl) hrest
  have hstops : Stops (raw ++ rest) := (hraw ▸ stops_skip l.here).alike halike
  have hgap' := hgap.before fun hnil => forall₂_nil_left_iff.1 (hnil ▸ halike)
  have hskip := skip_of_gap hgap' rfl hstops l'.here.offset
  rw [← hhere] at hskip
  exact agrees_scan hreports hraw hskip hread

/-- One token of two texts that differ in a line break outside of it. -/
theorem Recast.scan (ht : Character.isLineBreak t = true) (ht' : Character.isLineBreak t' = true)
    (h : Recast t t' post l l') (hclean : l.scan.reports = [])
    (houtside : post.length < l.scan.start.rest.length → post.length < l.scan.here.rest.length)
    (hline : ∀ u, l.here.rest = u ++ t :: post → OnLine u → endsLine t = endsLine t') :
    l.scan.Agrees l'.scan ∧ Recast t t' post l.scan l'.scan ∧ l'.scan.reports = l'.reports := by
  obtain ⟨raw, hraw⟩ : ∃ raw, l.scan.start.rest = raw ++ l.scan.here.rest := by
    obtain ⟨n, hn⟩ := Lexeme.reaches_read l.scan.start
    have hrest : l.scan.here.rest = l.scan.start.rest.drop n := congrArg Cursor.rest hn
    exact ⟨l.scan.start.rest.take n, by rw [hrest, take_append_drop]⟩
  obtain ⟨gap, hgap, hpassed⟩ := gap_skip l.here
  have hclosed : (Trivia.skip l.here).reports = [] :=
    (append_eq_nil_iff.1 (append_eq_nil_iff.1 hclean).1).2
  have hstop : (Trivia.skip l.here).stop.rest = raw ++ l.scan.here.rest := hraw
  rw [hclosed, hstop] at hpassed
  rw [hstop] at hgap
  have hsame (rest : List Char) : Forall₂ Alike rest rest :=
    forall₂_same.2 fun x _ => .inl rfl
  cases h with
  | past h =>
    obtain ⟨hagrees, hrest, hreports⟩ := scan_alike hclean hraw hpassed (hsame _) (h.trans hgap)
    exact ⟨hagrees, .past hrest, hreports⟩
  | ahead pre h h' =>
    rw [h] at hgap
    rcases append_eq_append_cons hgap.symm with ⟨u, rfl, hu⟩ | ⟨v, rfl, rfl⟩
    · rcases append_eq_append_cons hu with ⟨u, rfl, hrest⟩ | ⟨v, rfl, rfl⟩
      · -- The line break comes after the token.
        obtain ⟨hagrees, hrest', hreports⟩ := scan_alike hclean hraw hpassed
          (hrest ▸ alike_swap ht ht' ..) (show _ = _ ++ (raw ++ (u ++ t' :: post)) from h'.trans (by simp))
        exact ⟨hagrees, .ahead u hrest hrest', hreports⟩
      · -- It is no part of the token.
        rw [hraw] at houtside
        simp only [length_append, length_cons] at houtside
        omega
    · -- It comes before the token.
      have hswap := hpassed.swap ht ht' rfl (hline pre h)
      obtain ⟨hagrees, hrest, hreports⟩ := scan_alike hclean hraw hswap (hsame _)
        (h'.trans (by simp))
      exact ⟨hagrees, .past hrest, hreports⟩

/-- The tokens of two texts that differ in a line break between tokens. -/
theorem Recast.tokens (ht : Character.isLineBreak t = true) (ht' : Character.isLineBreak t' = true)
    (h : Recast t t' post l l') (hclean : ∀ k ∈ l.tokens, k.reports = [])
    (houtside : ∀ k ∈ l.tokens, post.length < k.start.rest.length →
      post.length < k.here.rest.length)
    (hline : ∀ k ∈ l :: l.tokens, ∀ u, k.here.rest = u ++ t :: post → OnLine u →
      endsLine t = endsLine t')
    (hreports : l'.reports = []) :
    Forall₂ Agrees l.tokens l'.tokens ∧ ∀ k ∈ l'.tokens, k.reports = [] := by
  fun_induction Lexer.tokens l generalizing l' with
  | case1 l hkind =>
    obtain ⟨hsame, -, hnone⟩ := h.scan ht ht' (hclean l.scan (by simp)) (houtside l.scan (by simp))
      (hline l (by simp))
    have htokens : l'.tokens = [l'.scan] := by
      rw [Lexer.tokens, if_pos (hsame.kind.trans hkind)]
    rw [htokens]
    exact ⟨.cons hsame .nil, by simpa [hreports] using hnone⟩
  | case2 l hkind ih =>
    obtain ⟨hsame, hmore, hnone⟩ := h.scan ht ht' (hclean l.scan (by simp))
      (houtside l.scan (by simp)) (hline l (by simp))
    rw [hreports] at hnone
    obtain ⟨hrest, hclean'⟩ := ih hmore (fun k hk => hclean k (.tail _ hk))
      (fun k hk => houtside k (.tail _ hk)) (fun k hk => hline k (.tail _ hk)) hnone
    have htokens : l'.tokens = l'.scan :: l'.scan.tokens := by
      rw [Lexer.tokens, if_neg (hsame.kind.symm ▸ hkind)]
    rw [htokens]
    exact ⟨.cons hsame hrest, forall_mem_cons.2 ⟨hnone, hclean'⟩⟩

/-- The lexer at the start of a text. It can pass a first line that names the program to run the
text with. -/
def atStart (shebang : Bool) (text : String) : Lexer :=
  if shebang then (ofText text).skipShebang else ofText text

/-- The place after the first part of a text is on a line that is passed up to its end: on the line
of a comment, or on a first line that names a program. -/
def OnPassedLine (shebang : Bool) (pre rest : List Char) : Prop :=
  let l := atStart shebang (String.ofList (pre ++ rest))
  (∃ k ∈ l :: l.tokens, ∃ u, k.here.rest = u ++ rest ∧ OnLine u) ∨
    shebang = true ∧ ∃ body, pre = '#' :: '!' :: body ∧ ∀ x ∈ body, endsLine x = false

theorem rest_atStart (cs : List Char) :
    (atStart true (String.ofList ('#' :: '!' :: cs))).here.rest = cs.dropWhile (!endsLine ·) := by
  simp [atStart, skipShebang, ofText, Cursor.ofText, startsWith, rest_lineComment,
    Cursor.skip]

theorem atStart_of_not_shebang (ht : Character.isLineBreak t = true)
    (hpre : ∀ body, pre ≠ '#' :: '!' :: body) : atStart true (String.ofList (pre ++ t :: post)) =
      ofText (String.ofList (pre ++ t :: post)) := by
  have hmark : ¬ ['#', '!'] <+: pre ++ t :: post := by
    rintro ⟨cs, hcs⟩
    obtain ⟨body, hbody, -⟩ := exists_of_marked ht rfl rfl hcs
    exact hpre body hbody
  have hstarts : (ofText (String.ofList (pre ++ t :: post))).here.startsWith ['#', '!'] = false := by
    rw [startsWith, ← Bool.not_eq_true, isPrefixOf_iff_prefix]
    simpa [ofText, Cursor.ofText] using hmark
  rw [atStart, if_pos rfl, skipShebang, hstarts, Bool.and_false]
  rfl

theorem recast_atStart {shebang : Bool} (ht : Character.isLineBreak t = true)
    (ht' : Character.isLineBreak t' = true)
    (hline : OnPassedLine shebang pre (t :: post) → endsLine t = endsLine t') :
    Recast t t' post (atStart shebang (String.ofList (pre ++ t :: post)))
      (atStart shebang (String.ofList (pre ++ t' :: post))) := by
  have hplain : Recast t t' post (ofText (String.ofList (pre ++ t :: post)))
      (ofText (String.ofList (pre ++ t' :: post))) :=
    .ahead pre (by simp [ofText, Cursor.ofText]) (by simp [ofText, Cursor.ofText])
  cases shebang with
  | false => exact hplain
  | true =>
    by_cases hpre : ∃ body, pre = '#' :: '!' :: body
    · obtain ⟨body, rfl⟩ := hpre
      have hrest (x : Char) : (atStart true
          (String.ofList ('#' :: '!' :: body ++ x :: post))).here.rest =
            if body.dropWhile (!endsLine ·) = [] then (x :: post).dropWhile (!endsLine ·)
            else body.dropWhile (!endsLine ·) ++ x :: post := by
        simpa [dropWhile_append] using rest_atStart (body ++ x :: post)
      by_cases hbody : body.dropWhile (!endsLine ·) = []
      · have hends : endsLine t = endsLine t' := hline (.inr ⟨rfl, body, rfl, by
          simpa using dropWhile_eq_nil_iff.1 hbody⟩)
        simp only [if_pos hbody] at hrest
        cases hend : endsLine t with
        | false =>
          have hend' := hends.symm.trans hend
          exact .past (by rw [hrest, hrest]; simp [hend, hend'])
        | true =>
          have hend' := hends.symm.trans hend
          exact .ahead [] (by rw [hrest]; simp [hend]) (by rw [hrest]; simp [hend'])
      · simp only [if_neg hbody] at hrest
        exact .ahead _ (hrest t) (hrest t')
    · rw [not_exists] at hpre
      rw [atStart_of_not_shebang ht hpre, atStart_of_not_shebang ht' hpre]
      exact hplain

theorem within_atStart (shebang : Bool) (text : String) : (atStart shebang text).Within text := by
  cases shebang
  · exact within_ofText text
  · exact (within_ofText text).skipShebang

theorem Within.tokens {text : String} (h : l.Within text) : ∀ k ∈ l.tokens, k.Within text := by
  fun_induction Lexer.tokens l with
  | case1 l hkind => simpa using (onToken_scan h.here).toWithin
  | case2 l hkind ih =>
    have hscan := (onToken_scan h.here).toWithin
    exact forall_mem_cons.2 ⟨hscan, ih hscan⟩

/-- **One line break for another.** If nothing is reported in the tokens of a text and a line break
lies outside of all of them, then the text with another line break in its place has the same tokens,
and nothing is reported in it either. On a line that is passed up to its end the other one must end
the line too, or neither of them. -/
theorem tokens_of_other_break {shebang : Bool} (ht : Character.isLineBreak t = true)
    (ht' : Character.isLineBreak t' = true)
    (hclean : ∀ k ∈ (atStart shebang (String.ofList (pre ++ t :: post))).tokens, k.reports = [])
    (hbetween : ∀ k ∈ (atStart shebang (String.ofList (pre ++ t :: post))).tokens,
      k.here.offset ≤ byteLength pre ∨ byteLength pre < k.start.offset)
    (hline : OnPassedLine shebang pre (t :: post) → endsLine t = endsLine t') :
    List.Forall₂ Agrees (atStart shebang (String.ofList (pre ++ t :: post))).tokens
      (atStart shebang (String.ofList (pre ++ t' :: post))).tokens ∧
    ∀ k ∈ (atStart shebang (String.ofList (pre ++ t' :: post))).tokens, k.reports = [] := by
  refine (recast_atStart ht ht' hline).tokens ht ht' hclean (fun k hk hstart => ?_)
    (fun k hk u hu hon => hline (.inl ⟨k, hk, u, hu, hon⟩)) ?_
  · have hk' := (within_atStart ..).tokens k hk
    have hbreak : (⟨byteLength pre, t :: post⟩ : Cursor).In (String.ofList (pre ++ t :: post)) :=
      ⟨pre, by simp, rfl⟩
    have hpast : (⟨byteLength pre + t.utf8Size, post⟩ : Cursor).In
        (String.ofList (pre ++ t :: post)) := ⟨pre ++ [t], by simp, by
          simp [byteLength, byteLength_append]⟩
    -- The token starts no later than the line break, so it ends before it.
    have hle := (hk'.start.reaches_of_le hbreak hstart).offset_le
    by_contra hlt
    have hge := (hpast.reaches_of_le hk'.here (Nat.le_of_not_lt hlt)).offset_le
    have hsize := Char.utf8Size_pos t
    rcases hbetween k hk with h | h <;> simp only at hle hge <;> omega
  · unfold atStart skipShebang
    split <;> [split <;> rfl; rfl]

/-- A comment between two tokens of a line, with a separator of paragraphs for a carriage return in
it: a line ends before the second token all the same. -/
theorem tokens_of_other_break_in_comment :
    let pre := "a /* \u2028".toList
    let post := "*/ + b".toList
    (∀ k ∈ (atStart true (String.ofList (pre ++ '\r' :: post))).tokens, k.reports = [] ∧
        (k.here.offset ≤ byteLength pre ∨ byteLength pre < k.start.offset)) ∧
      ¬ OnPassedLine true pre ('\r' :: post) ∧
      List.Forall₂ Agrees (atStart true "a /* \u2028\r*/ + b").tokens
        (atStart true "a /* \u2028\u2029*/ + b").tokens := by
  intro pre post
  have hclean : (atStart true (String.ofList (pre ++ '\r' :: post))).tokens.all
      (fun k => k.reports.isEmpty &&
        (k.here.offset ≤ byteLength pre || byteLength pre < k.start.offset)) = true := by
    decide +kernel
  have hslash : (atStart true (String.ofList (pre ++ '\r' :: post)) ::
      (atStart true (String.ofList (pre ++ '\r' :: post))).tokens).all
        (fun k => !(['/', '/'] <:+: k.here.rest)) = true := by
    decide +kernel
  simp only [List.all_eq_true, Bool.and_eq_true, Bool.or_eq_true, decide_eq_true_eq,
    List.isEmpty_iff, Bool.not_eq_true', decide_eq_false_iff_not] at hclean hslash
  have hline : ¬ OnPassedLine true pre ('\r' :: post) := by
    rintro (⟨k, hk, u, hu, before, body, rfl, -⟩ | ⟨-, body, hbody, -⟩)
    · refine hslash k hk ?_
      rw [hu]
      exact ⟨before, body ++ '\r' :: post, by simp⟩
    · simp [pre] at hbody
  exact ⟨hclean, hline, (tokens_of_other_break rfl rfl (fun k hk => (hclean k hk).1)
    (fun k hk => (hclean k hk).2) (absurd · hline)).1⟩

/-- At the end of a comment that takes its line, a separator of lines for a line feed takes the
next statement into the comment, and nothing is reported. -/
theorem separator_swallows_statement :
    (∀ k ∈ (ofText "// a\nb").tokens, k.reports = []) ∧
      (ofText "// a\nb").tokens.map (·.text) = ["b", ""] ∧
      (∀ k ∈ (ofText "// a\u2028b").tokens, k.reports = []) ∧
      (ofText "// a\u2028b").tokens.map (·.text) = [""] := by
  decide +kernel

end Lexer

end LambdaLift
