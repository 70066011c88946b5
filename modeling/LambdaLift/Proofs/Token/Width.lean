import LambdaLift.Proofs.Token.Reach

/-!
# Tokens in a text

Offsets count bytes, and readers pass characters. That the two go together is said once, for
cursors; every reader then only has to reach its end by passing characters.

* `Cursor.In text c`: the cursor stands between two characters of the text.
* `Range.Covers text r cs`: the characters of the text at a range of bytes.
* `Lexeme.reaches_read_skip`: a token has a width, unless it is the end of the text.
* `Lexer.OnToken text l`: the lexer stands on a token of the text. Moving on and reading a token
  again keep this.
-/

namespace LambdaLift

open List

theorem utf8ByteSize_eq (text : String) : text.utf8ByteSize = byteLength text.toList := by
  obtain ⟨cs, rfl⟩ : ∃ cs, text = String.ofList cs := ⟨text.toList, by simp⟩
  induction cs with
  | nil => simp [byteLength]
  | cons c cs ih =>
    simp only [String.ofList_cons, String.utf8ByteSize_append, String.utf8ByteSize_singleton,
      String.toList_append, String.toList_singleton, singleton_append, byteLength, ih]

theorem length_le_byteLength (cs : List Char) : cs.length ≤ byteLength cs := by
  induction cs with
  | nil => exact Nat.le_refl 0
  | cons c cs ih =>
    have := c.utf8Size_pos
    simp only [length_cons, byteLength]
    omega

/-- The characters that a text has at a range of bytes. -/
def Range.Covers (text : String) (r : Range) (cs : List Char) : Prop :=
  ∃ before after, text.toList = before ++ cs ++ after ∧ r.start = byteLength before ∧
    r.stop = byteLength (before ++ cs)

namespace Cursor

/-- The cursor stands in the text: the text ends with what is still to be read, and the offset
counts the bytes before that. -/
def In (text : String) (c : Cursor) : Prop :=
  ∃ before, text.toList = before ++ c.rest ∧ c.offset = byteLength before

variable {text : String} {c d : Cursor}

theorem in_ofText (text : String) : (ofText text).In text :=
  ⟨[], rfl, rfl⟩

theorem In.reaches (hc : c.In text) (h : c.Reaches d) : d.In text := by
  obtain ⟨before, htext, hoffset⟩ := hc
  obtain ⟨n, rfl⟩ := h
  refine ⟨before ++ c.rest.take n, ?_, ?_⟩
  · rw [htext, append_assoc, skip, take_append_drop]
  · rw [skip, hoffset, byteLength_append]

/-- The offset is at the boundary of a character, as strings have it. -/
theorem In.isValid (hc : c.In text) : String.Pos.Raw.IsValid text ⟨c.offset⟩ := by
  obtain ⟨before, htext, hoffset⟩ := hc
  refine String.Pos.Raw.isValid_iff_exists_append.2
    ⟨String.ofList before, String.ofList c.rest, ?_, ?_⟩
  · rw [← String.ofList_append, ← htext, String.ofList_toList]
  · rw [String.rawEndPos, utf8ByteSize_eq, String.toList_ofList, hoffset]

theorem In.offset_add (hc : c.In text) : c.offset + byteLength c.rest = text.utf8ByteSize := by
  obtain ⟨before, htext, hoffset⟩ := hc
  rw [utf8ByteSize_eq, htext, byteLength_append, hoffset]

theorem In.length_le (hc : c.In text) : c.rest.length ≤ text.length := by
  obtain ⟨before, htext, -⟩ := hc
  rw [← String.length_toList, htext, length_append]
  omega

/-- Cursors in one text reach each other, by what is left to read. -/
theorem In.reaches_of_le (hc : c.In text) (hd : d.In text) (h : d.rest.length ≤ c.rest.length) :
    c.Reaches d := by
  obtain ⟨before, htext, hoffset⟩ := hc
  obtain ⟨before', htext', hoffset'⟩ := hd
  have hsame : before ++ c.rest = before' ++ d.rest := htext ▸ htext'
  obtain ⟨token, hbefore, hrest⟩ | ⟨token, hbefore, hrest⟩ := append_eq_append_iff.1 hsame
  · refine ⟨token.length, ?_⟩
    have hd : d = ⟨c.offset + byteLength token, d.rest⟩ := by
      rw [hoffset, ← byteLength_append, ← hbefore, ← hoffset']
    have hc : c = ⟨c.offset, token ++ d.rest⟩ := by rw [← hrest]
    rw [hd, hc, skip_append]
  · -- The later cursor has less to read, so nothing lies between the two.
    have hlength := congrArg length hrest
    rw [length_append] at hlength
    obtain rfl : token = [] := eq_nil_of_length_eq_zero (by omega)
    have hsame : c = d := by
      cases c
      cases d
      simp_all
    exact hsame ▸ .refl c

/-- In one text the offset says how much is left to read. -/
theorem In.offset_eq_iff (hc : c.In text) (hd : d.In text) :
    c.offset = d.offset ↔ c.rest.length = d.rest.length := by
  constructor
  · intro h
    rcases Nat.lt_trichotomy c.rest.length d.rest.length with hlt | heq | hlt
    · have := (hd.reaches_of_le hc hlt.le).offset_lt hlt
      omega
    · exact heq
    · have := (hc.reaches_of_le hd hlt.le).offset_lt hlt
      omega
  · intro h
    have hle := (hc.reaches_of_le hd h.ge).offset_le
    have hge := (hd.reaches_of_le hc h.le).offset_le
    omega

theorem textTo_of_append {cs : List Char} (h : c.rest = cs ++ d.rest) : c.textTo d = cs := by
  rw [textTo, h, length_append, Nat.add_sub_cancel, take_left]

/-- What lies between two cursors is what the text has there. -/
theorem In.covers (hc : c.In text) (h : c.Reaches d) :
    (⟨c.offset, d.offset⟩ : Range).Covers text (c.textTo d) := by
  obtain ⟨before, htext, hoffset⟩ := hc
  obtain ⟨n, rfl⟩ := h
  have htake : c.textTo (c.skip n) = c.rest.take n := by
    rw [textTo, length_skip]
    by_cases hn : n ≤ c.rest.length
    · rw [Nat.sub_sub_self hn]
    · rw [take_of_length_le (by omega), take_of_length_le (by omega)]
  refine ⟨before, c.rest.drop n, ?_, hoffset, ?_⟩
  · rw [htake, append_assoc, take_append_drop, htext]
  · rw [htake, byteLength_append, ← hoffset, skip]

theorem Reaches.length_le (h : c.Reaches d) : d.rest.length ≤ c.rest.length := by
  obtain ⟨n, rfl⟩ := h
  exact length_skip_le c n

/-- A cursor reached past the next character has less to read. -/
theorem length_lt_of_reaches (hc : c.rest ≠ []) (h : (c.skip 1).Reaches d) :
    d.rest.length < c.rest.length := by
  obtain ⟨n, rfl⟩ := h
  have hpos := length_pos_iff.2 hc
  rw [length_skip, length_skip]
  omega

end Cursor

open Cursor

/-! ## The width of a token -/

namespace Quoted

/-- A regular expression passes its slash. -/
theorem reaches_regex_skip (c : Cursor) : (c.skip 1).Reaches (regex c).stop := by
  have hbody := reaches_skip (c.skip 1) (regexLength false (c.skip 1).rest).1
  simp only [regex, lexeme]
  split
  · exact hbody.trans (reaches_skipWhile ..)
  · exact hbody

end Quoted

namespace Number

variable {c d : Cursor}

/-- A decimal number passes its first character, a digit or a point. -/
theorem reaches_decimal_skip (h : Lexeme.startsNumber c.rest = true) :
    (c.skip 1).Reaches (decimal c).stop := by
  cases hrest : c.rest with
  | nil => simp [hrest, Lexeme.startsNumber] at h
  | cons x cs =>
    by_cases hx : Character.isDigit x = true
    · have hrun : (c.skip 1).Reaches (run Character.isDigit c).stop := by
        refine ⟨(cs.takeWhile fun x => Character.isDigit x || x = '_').length, ?_⟩
        rw [skip_skip, Nat.add_comm]
        simp [run, hrest, hx]
      exact reaches_decimal_of (hrun.trans (reaches_fraction? _))
    · have hdot : x = '.' := by
        rw [hrest, startsNumber_cons] at h
        simp_all
      have hrun : (run Character.isDigit c).stop = c := by
        have hnone : (x :: cs).takeWhile (fun x => Character.isDigit x || x = '_') = [] := by
          rw [takeWhile_cons, hdot]
          rfl
        simp [run, hrest, hnone]
      refine reaches_decimal_of ?_
      rw [hrun, fraction?, if_pos (by simp [peek?, hrest, hdot])]
      exact reaches_run ..

theorem lineBreakBefore_read (c : Cursor) : (read c).flags.lineBreakBefore = false := by
  unfold read
  repeat' split
  all_goals rfl

/-- A number passes its first character. -/
theorem reaches_read_skip (h : Lexeme.startsNumber c.rest = true) :
    (c.skip 1).Reaches (read c).stop := by
  have hmark : (c.skip 1).Reaches (c.skip 2) := ⟨1, (skip_skip c 1 1).symm⟩
  have hmarked (base : Nat) (flags : TokenFlags) : (c.skip 1).Reaches (marked base flags c).stop :=
    reaches_lexeme (hmark.trans (reaches_run _ _)) ..
  unfold read
  split
  · split
    · exact hmarked ..
    split
    · exact hmarked ..
    split
    · exact hmarked ..
    split
    · rename_i digits _
      exact reaches_lexeme ⟨digits.length, by rw [skip_skip, Nat.add_comm]⟩ ..
    · exact reaches_decimal_skip h
  · exact reaches_decimal_skip h

end Number

theorem TokenKind.isWord_of_isTemplate {kind : TokenKind} (h : kind.isTemplate = true) :
    kind.isWord = false := by
  cases kind <;> simp_all [isTemplate, isWord]

namespace Name

/-- A name passes its first character, or the backslash of an escape in its place. -/
theorem reaches_body_skip {c : Cursor} (h : Lexeme.startsName c.rest = true) :
    (c.skip 1).Reaches (body c).stop := by
  have hescape : (c.skip 1).Reaches (c.skip 2) := ⟨1, (skip_skip c 1 1).symm⟩
  fun_cases body c with
  | case1 hrest => simp [hrest, Lexeme.startsName] at h
  | case2 | case3 => exact (hescape.trans (Escape.reaches_unicode _)).trans (reaches_body _)
  | case4 => exact reaches_body _
  | case5 x cs hrest hesc hpart =>
    -- A character that starts a name can also continue one.
    have hstart : Character.isNameStart x = true := by
      cases cs with
      | nil => simpa [hrest, Lexeme.startsName] using h
      | cons y cs =>
        by_cases hx : x = '\\'
        · simp_all [Lexeme.startsName, startsWith, isPrefixOf]
        · simpa [hrest, Lexeme.startsName, hx] using h
    exact absurd (isNamePart_of_isNameStart x hstart) hpart

/-- A name is what is written, unless it is written with an escape. -/
theorem value_body (c : Cursor) : ∃ cs, c.rest = cs ++ (body c).stop.rest ∧
    (¬ ['\\', 'u'] <:+: cs → (body c).value = cs) := by
  have hescape {c d : Cursor} (h : c.startsWith ['\\', 'u'] = true) (hd : (c.skip 2).Reaches d) :
      ∃ cs, c.rest = cs ++ d.rest ∧ ['\\', 'u'] <:+: cs := by
    obtain ⟨rest, hrest⟩ := isPrefixOf_iff_prefix.1 h
    obtain ⟨n, rfl⟩ := hd
    refine ⟨['\\', 'u'] ++ rest.take n, ?_, (prefix_append ..).isInfix⟩
    simp [skip, ← hrest]
  fun_induction body c with
  | case1 c => exact ⟨[], rfl, fun _ => rfl⟩
  | case2 c _ _ _ hesc _ _ _ _ _ _ | case3 c _ _ _ hesc _ _ _ _ _ =>
    obtain ⟨cs, hrest, hcs⟩ := hescape hesc ((Escape.reaches_unicode _).trans (reaches_body _))
    exact ⟨cs, hrest, fun h => absurd hcs h⟩
  | case4 c x xs hrest _ _ _ ih =>
    obtain ⟨cs, hsplit, hvalue⟩ := ih
    refine ⟨x :: cs, ?_, fun h => ?_⟩
    · have hskip : (c.skip 1).rest = xs := by simp [skip, hrest]
      rw [hrest, ← hskip, hsplit]
      rfl
    · rw [hvalue fun hescaped => h (hescaped.trans (suffix_cons x cs).isInfix)]
  | case5 c => exact ⟨[], rfl, fun _ => rfl⟩

end Name

namespace Lexeme

/-- Every token but the end of the text passes its first character. -/
theorem reaches_read_skip {c : Cursor} (h : c.rest ≠ []) : (c.skip 1).Reaches (read c).stop := by
  unfold read
  split
  · exact absurd ‹_› h
  · split
    · exact Quoted.reaches_stringBody ..
    split
    · exact Quoted.reaches_templateBody ..
    split
    · exact Number.reaches_read_skip ‹_›
    split
    · exact Name.reaches_body_skip ‹_›
    split
    · rename_i p _
      obtain ⟨n, hn⟩ : ∃ n, p.text.length = n + 1 := by
        have := Punctuator.length_text p
        rw [String.length_toList] at this
        exact ⟨p.text.length - 1, by omega⟩
      exact ⟨n, by rw [skip_skip, hn, Nat.add_comm]⟩
    · exact .refl _

/-- The end of the text is a token where nothing is left, and nowhere else. -/
theorem kind_read_eq_endOfFile {c : Cursor} : (read c).kind = .endOfFile ↔ c.rest = [] := by
  unfold read
  split
  · simp [*]
  · rename_i x cs hrest
    simp only [hrest, reduceCtorEq, iff_false]
    split
    · simp [Quoted.string, Quoted.lexeme]
    split
    · intro h
      have := Quoted.kind_templatePiece true c (c.skip 1)
      simp [h, TokenKind.isTemplate] at this
    split
    · rw [Number.kind_read]
      simp
    split
    · intro h
      have := Name.kind_read c
      simp [h, TokenKind.isWord] at this
    split <;> simp

/-- A word is what is written, unless it is written with an escape. -/
theorem value_read_of_isWord {c : Cursor} (h : (read c).kind.isWord = true)
    (hplain : ¬ ['\\', 'u'] <:+: c.textTo (read c).stop) :
    (read c).value = c.textTo (read c).stop := by
  have hname : read c = Name.read c := by
    revert h
    unfold read
    split
    · simp [TokenKind.isWord]
    · split
      · simp [Quoted.string, Quoted.lexeme, TokenKind.isWord]
      split
      · simp [TokenKind.isWord_of_isTemplate (Quoted.kind_templatePiece true c (c.skip 1))]
      split
      · simp [Number.kind_read, TokenKind.isWord]
      split
      · simp
      split <;> simp [TokenKind.isWord]
  obtain ⟨cs, hrest, hvalue⟩ := Name.value_body c
  have htext : c.textTo (read c).stop = cs := by
    rw [hname]
    exact textTo_of_append hrest
  rw [htext] at hplain ⊢
  rw [hname]
  exact hvalue hplain

/-- Whether a line ends before a token is not for the token itself to say. -/
theorem lineBreakBefore_read (c : Cursor) : (read c).flags.lineBreakBefore = false := by
  unfold read
  split
  · rfl
  · split
    · exact (Quoted.made_stringBody ..).flags.1
    split
    · exact (Quoted.made_templateBody _).flags.1
    split
    · exact Number.lineBreakBefore_read c
    split
    · rfl
    split <;> rfl

end Lexeme

/-! ## Lexers on a text -/

namespace Trivia

theorem reaches_skip (c : Cursor) : c.Reaches (skip c).stop := by
  fun_induction skip c with
  | case1 c | case6 c => exact .refl c
  | case2 c _ _ _ _ _ ih | case5 c _ _ _ _ _ _ _ ih => exact (Cursor.reaches_skip c 1).trans ih
  | case3 c _ _ _ _ _ ih =>
    exact ((Cursor.reaches_skip c 2).trans (reaches_skipWhile ..)).trans ih
  | case4 c _ _ _ _ _ _ _ _ ih =>
    exact ((Cursor.reaches_skip c 2).trans (Cursor.reaches_skip ..)).trans ih

end Trivia

namespace Lexer

/-- The token of the lexer lies in the text. -/
structure Within (text : String) (l : Lexer) : Prop where
  start : l.start.In text
  reaches : l.start.Reaches l.here

/-- The lexer stands on a token of the text. Every token but the end of the text has a width, and
the value of a word without escapes is the word itself. -/
structure OnToken (text : String) (l : Lexer) : Prop extends l.Within text where
  width : l.kind ≠ .endOfFile → l.here.rest.length < l.start.rest.length
  ends : l.kind = .endOfFile → l.start.rest = []
  spelled : l.kind.isWord = true → ¬ ['\\', 'u'] <:+: l.text.toList → l.value = l.text

variable {text : String} {l : Lexer}

theorem Within.here (h : l.Within text) : l.here.In text :=
  h.start.reaches h.reaches

theorem Within.reread (h : l.Within text) {x : Lexeme} (hx : (l.start.skip 1).Reaches x.stop) :
    (l.reread x).Within text :=
  ⟨h.start, (reaches_skip _ 1).trans hx⟩

/-- The token is what the text has at its place. -/
theorem Within.covers (h : l.Within text) : l.range.Covers text l.text.toList := by
  rw [Lexer.text, String.toList_ofList]
  exact h.start.covers h.reaches

theorem onToken_scan (h : l.here.In text) : l.scan.OnToken text where
  start := h.reaches (Trivia.reaches_skip _)
  reaches := Lexeme.reaches_read _
  width hkind :=
    have hrest := mt Lexeme.kind_read_eq_endOfFile.2 hkind
    length_lt_of_reaches hrest (Lexeme.reaches_read_skip hrest)
  ends := Lexeme.kind_read_eq_endOfFile.1
  spelled hword hplain := by
    rw [Lexer.text, String.toList_ofList] at hplain
    exact congrArg String.ofList (Lexeme.value_read_of_isWord hword hplain)

theorem OnToken.scan (h : l.OnToken text) : l.scan.OnToken text :=
  onToken_scan h.toWithin.here

/-- A token that is read again passes its first character. -/
theorem OnToken.reread (h : l.OnToken text) (hkind : l.kind ≠ .endOfFile) {x : Lexeme}
    (hx : (l.start.skip 1).Reaches x.stop) (hend : x.kind ≠ .endOfFile)
    (hword : x.kind.isWord = false) : (l.reread x).OnToken text where
  toWithin := h.toWithin.reread hx
  width _ := by
    have hrest : l.start.rest ≠ [] := by
      intro hrest
      have hwidth := h.width hkind
      simp [hrest] at hwidth
    exact length_lt_of_reaches hrest hx
  ends heq := absurd heq hend
  spelled heq := absurd heq (by simp [Lexer.reread, hword])

theorem OnToken.rescanSlash (h : l.OnToken text) (hkind : l.kind ≠ .endOfFile) :
    l.rescanSlash.OnToken text :=
  h.reread hkind (Quoted.reaches_regex_skip _) (by simp [Quoted.regex, Quoted.lexeme]) rfl

theorem OnToken.rescanTemplate (h : l.OnToken text) (hkind : l.kind ≠ .endOfFile) :
    l.rescanTemplate.OnToken text := by
  have htemplate := Quoted.kind_templatePiece false l.start (l.start.skip 1)
  refine h.reread hkind (Quoted.reaches_templateBody _) (fun heq => ?_) ?_
  · simp [heq, TokenKind.isTemplate] at htemplate
  · exact TokenKind.isWord_of_isTemplate htemplate

end Lexer

end LambdaLift
