import LambdaLift.Proofs.Tree.Position
import LambdaLift.Token.Trivia
import Mathlib.Data.List.TakeWhile

/-!
# Tokens in other surroundings

What a token is depends on the text after it only where the token ends. A word or a punctuator is
therefore read again wherever its text stands, if what follows cannot continue it.

* `Delimits`: what can follow a name or a number.
* `IsName`: texts that are read as names, by `IsName.read`.
* `Name.isName_of_read`: a name that was read without escapes has such a text.
* `Keyword.read`, `Punctuator.read`: the tokens of a fixed text.
-/

namespace LambdaLift

open Character List

theorem byteLength_append (a b : List Char) : byteLength (a ++ b) = byteLength a + byteLength b := by
  induction a with
  | nil => simp [byteLength]
  | cons c cs ih => simp [byteLength, ih, Nat.add_assoc]

variable {c : Char} {p : Char → Bool} {rest : List Char}

theorem byteLength_pos {cs : List Char} : 0 < byteLength (c :: cs) := by
  have := c.utf8Size_pos
  simp only [byteLength]
  omega

namespace Cursor

theorem skip_append (o : Nat) (a b : List Char) :
    (⟨o, a ++ b⟩ : Cursor).skip a.length = ⟨o + byteLength a, b⟩ := by
  simp [skip]

theorem skip_cons (o : Nat) (c : Char) (cs : List Char) (n : Nat) :
    (⟨o, c :: cs⟩ : Cursor).skip (n + 1) = (⟨o + c.utf8Size, cs⟩ : Cursor).skip n := by
  simp [skip, byteLength, Nat.add_assoc]

@[simp] theorem skip_zero (c : Cursor) : c.skip 0 = c := by
  simp [skip, byteLength]

theorem startsWith_of_ne {o : Nat} {x c : Char} {cs ds : List Char} (h : x ≠ c) :
    (⟨o, x :: cs⟩ : Cursor).startsWith (c :: ds) = false := by
  simp [startsWith, isPrefixOf, h.symm]

theorem textTo_append (o o' : Nat) (a b : List Char) :
    (⟨o, a ++ b⟩ : Cursor).textTo ⟨o', b⟩ = a := by
  simp [textTo]

end Cursor

/-- The longest start of a text in a class does not reach past a character outside of it. -/
theorem takeWhile_append_left (a : List Char) {b : List Char}
    (hb : ∀ c, b.head? = some c → p c = false) :
    (a ++ b).takeWhile p = a.takeWhile p := by
  induction a with
  | nil =>
    cases b with
    | nil => rfl
    | cons c b => simp [hb c rfl]
  | cons x a ih => by_cases hx : p x <;> simp [hx, ih]

theorem takeWhile_append_all {a b : List Char} (ha : ∀ x ∈ a, p x = true)
    (hb : ∀ c, b.head? = some c → p c = false) : (a ++ b).takeWhile p = a := by
  rw [takeWhile_append_left a hb, takeWhile_eq_self_iff.2 ha]

/-- A text is its longest start in a class and something that does not begin in the class. -/
theorem exists_takeWhile (p : Char → Bool) (cs : List Char) :
    ∃ a b, cs = a ++ b ∧ cs.takeWhile p = a ∧ (∀ x ∈ a, p x = true) ∧
      ∀ c, b.head? = some c → p c = false := by
  refine ⟨cs.takeWhile p, cs.dropWhile p, takeWhile_append_dropWhile.symm, rfl,
    fun x hx => mem_takeWhile_imp hx, ?_⟩
  intro c hc
  exact head?_dropWhile_not p cs |> fun h => by simpa [hc] using h

/-! ## What follows a token -/

/-- A character that ends a name or a number in lifted code. -/
def isDelimiter (c : Char) : Bool :=
  c = ' ' || c = '(' || c = ')' || c = ';' || c = ',' || c = '+' || c = '-'

/-- A text that cannot continue a name or a number. -/
def Delimits (rest : List Char) : Prop :=
  ∀ c, rest.head? = some c → isDelimiter c = true

theorem delimits_nil : Delimits [] := by
  simp [Delimits]

theorem isNamePart_of_isDelimiter (c : Char) (h : isDelimiter c = true) :
    isNamePart c = false := by
  simp only [isDelimiter, Bool.or_eq_true, decide_eq_true_eq] at h
  rcases h with (((((rfl | rfl) | rfl) | rfl) | rfl) | rfl) | rfl <;> decide

theorem isNamePart_of_isNameStart (c : Char) (h : isNameStart c = true) :
    isNamePart c = true := by
  simp only [isNameStart, isNamePart, IdentifierTable.isContinue,
    Bool.or_eq_true, Bool.and_eq_true] at h ⊢
  grind

theorem isDigit_of_isNameStart (c : Char) (h : isNameStart c = true) :
    isDigit c = false := by
  by_contra hdigit
  simp only [isDigit, Bool.not_eq_false, Bool.and_eq_true, decide_eq_true_eq] at hdigit
  have h0 : 48 ≤ c.toNat := hdigit.1
  have h9 : c.toNat ≤ 57 := hdigit.2
  simp only [isNameStart, isLetter, Bool.or_eq_true, Bool.and_eq_true,
    decide_eq_true_eq] at h
  rcases h with ((rfl | rfl) | h | h) | h
  · exact absurd h0 (by decide)
  · exact absurd h9 (by decide)
  · have : 97 ≤ c.toNat := h.1
    omega
  · have : 65 ≤ c.toNat := h.1
    omega
  · omega

/-- White space and ends of lines, but for the spaces of typography. -/
def blanks : List Char :=
  [' ', '\t', '\x0b', '\x0c', '\u00a0', '\u1680', '\u202f', '\u205f', '\u3000', '\ufeff', '\n',
    '\r', '\u2028', '\u2029']

/-- A character between tokens. -/
def isGap (c : Char) : Bool :=
  isBlank c || isLineBreak c

theorem blank_cases (h : isGap c = true) :
    c ∈ blanks ∨ (0x2000 ≤ c.toNat ∧ c.toNat ≤ 0x200a) := by
  simp only [isGap, isBlank, isLineBreak, Bool.or_eq_true, Bool.and_eq_true,
    decide_eq_true_eq] at h
  by_cases hc : '\u2000' ≤ c ∧ c ≤ '\u200a'
  · exact .inr hc
  · left
    simp only [blanks, mem_cons, not_mem_nil, or_false]
    simp only [hc, or_false] at h
    simpa only [or_assoc] using h

/-- No name starts with white space or at the end of a line. -/
theorem isNameStart_of_isGap (h : isGap c = true) :
    isNameStart c = false := by
  rcases blank_cases h with h | ⟨hlo, hhi⟩
  · have hblanks : blanks.all (!Character.isNameStart ·) = true := by decide +kernel
    simpa using all_eq_true.1 hblanks c h
  · have hnone : ∀ r ∈ IdentifierTable.startRanges, r.2 < 0x2000 ∨ 0x200a < r.1 := by
      decide +kernel
    have hstart : IdentifierTable.isStart c = false := by
      rw [IdentifierTable.isStart, IdentifierTable.covers, any_eq_false]
      intro r hr
      have := hnone r hr
      simp only [Bool.and_eq_true, decide_eq_true_eq]
      omega
    have hother : ∀ d : Char, d.toNat < 0x2000 → c ≠ d := by
      rintro d hd rfl
      omega
    simp only [isNameStart, isLetter, hstart, Bool.and_false, Bool.or_false,
      Bool.or_eq_false_iff, Bool.and_eq_false_iff, decide_eq_false_iff_not]
    refine ⟨⟨hother _ (by decide), hother _ (by decide)⟩, .inr ?_, .inr ?_⟩
    · exact fun h => absurd (show c.toNat ≤ 122 from h) (by omega)
    · exact fun h => absurd (show c.toNat ≤ 90 from h) (by omega)

/-- No digit is white space or ends a line. -/
theorem isDigit_of_isGap (h : isGap c = true) : isDigit c = false := by
  rcases blank_cases h with h | ⟨hlo, -⟩
  · have hblanks : blanks.all (!Character.isDigit ·) = true := by decide +kernel
    simpa using all_eq_true.1 hblanks c h
  · simp only [isDigit, Bool.and_eq_false_iff, decide_eq_false_iff_not]
    exact .inr fun h => absurd (show c.toNat ≤ 57 from h) (by omega)

/-! ## Names -/

namespace Name

theorem body_cons {o : Nat} {x : Char} {cs : List Char} (hx : isNamePart x = true) :
    body ⟨o, x :: cs⟩ =
      { body ⟨o + x.utf8Size, cs⟩ with value := x :: (body ⟨o + x.utf8Size, cs⟩).value } := by
  have hne : x ≠ '\\' := by
    rintro rfl
    exact absurd hx (by decide)
  rw [body]
  simp [Cursor.startsWith_of_ne hne, hx, Cursor.skip_cons]

/-- A run of name characters is read as it stands. -/
theorem body_append {cs rest : List Char} (hcs : ∀ x ∈ cs, isNamePart x = true)
    (hrest : Delimits rest) (o : Nat) :
    body ⟨o, cs ++ rest⟩ = { stop := ⟨o + byteLength cs, rest⟩, value := cs } := by
  induction cs generalizing o with
  | nil =>
    rw [body]
    cases rest with
    | nil => simp [byteLength]
    | cons c rest =>
      have hpart := isNamePart_of_isDelimiter c (hrest c rfl)
      have hne : c ≠ '\\' := by
        rintro rfl
        exact absurd (hrest _ rfl) (by decide)
      simp [Cursor.startsWith_of_ne hne, hpart, byteLength]
  | cons x cs ih =>
    rw [cons_append, body_cons (hcs x (mem_cons_self ..)),
      ih fun y hy => hcs y (mem_cons_of_mem _ hy)]
    simp [byteLength, Nat.add_assoc]

/-- A name without escapes consists of the name characters at the cursor. -/
theorem value_of_plain (c : Cursor) (h : (body c).escaped = false) :
    (∀ x ∈ (body c).value, isNamePart x = true) ∧
      ∃ rest, c.rest = (body c).value ++ rest ∧ (body c).stop.rest = rest := by
  fun_induction body c with
  | case1 c hrest => exact ⟨by simp, [], by simpa using hrest, hrest⟩
  | case2 | case3 => simp at h
  | case4 c x cs hrest hesc hx more ih =>
    obtain ⟨hpart, rest, hsplit, hstop⟩ := ih h
    refine ⟨?_, rest, ?_, hstop⟩
    · intro y hy
      rcases mem_cons.1 hy with rfl | hy
      · exact hx
      · exact hpart y hy
    · rw [hrest, cons_append, ← hsplit]
      simp [Cursor.skip, hrest]
  | case5 c x cs hrest hesc hx => exact ⟨by simp, c.rest, by simp, rfl⟩

end Name

/-- A text that is read as a name: it starts and goes on as a name and is no keyword. -/
structure IsName (x : String) : Prop where
  start : ∃ c, x.toList.head? = some c ∧ isNameStart c = true
  parts : ∀ c ∈ x.toList, isNamePart c = true
  plain : Keyword.ofText? x = none

theorem ofText_isName {l : List Char} (h : Keyword.ofText? (String.ofList l) = none)
    (hparts : ∀ c ∈ l, isNamePart c = true)
    (hstart : ∃ c, l.head? = some c ∧ isNameStart c = true) : IsName (String.ofList l) :=
  ⟨by simpa using hstart, by simpa using hparts, h⟩

namespace Lexeme

/-- Where a name starts without an escape, a name is read. -/
theorem read_eq_name {o : Nat} {c : Char} {cs : List Char} (hc : isNameStart c = true) :
    read ⟨o, c :: cs⟩ = Name.read ⟨o, c :: cs⟩ := by
  have hne : ∀ d : Char, isNameStart d = false → c ≠ d := by
    rintro d hd rfl
    simp [hd] at hc
  have hnumber : startsNumber (c :: cs) = false := by
    have hdot : c ≠ '.' := hne _ (by decide)
    have hdigit := isDigit_of_isNameStart c hc
    cases cs <;> simp_all [startsNumber]
  have hname : startsName (c :: cs) = true := by
    have hslash : c ≠ '\\' := hne _ (by decide)
    cases cs <;> simp_all [startsName]
  simp [read, hne '\x27' (by decide), hne '\x22' (by decide), hne '\x60' (by decide), hnumber, hname]

end Lexeme

theorem IsName.read {x : String} (h : IsName x) (hrest : Delimits rest) (o : Nat) :
    Lexeme.read ⟨o, x.toList ++ rest⟩ =
      { kind := .identifier, stop := ⟨o + byteLength x.toList, rest⟩, value := x.toList } := by
  obtain ⟨c, hc, hstart⟩ := h.start
  obtain ⟨cs, hcs⟩ := head?_eq_some_iff.1 hc
  have hbody := Name.body_append h.parts hrest o
  rw [hcs] at hbody ⊢
  rw [cons_append, Lexeme.read_eq_name hstart, Name.read, ← cons_append, hbody, ← hcs]
  simp [h.plain]

theorem Keyword.exists_text_eq (k : Keyword) :
    ∃ c cs, k.text.toList = c :: cs ∧ isNameStart c = true := by
  cases k <;> exact ⟨_, _, rfl, by decide⟩

/-- A keyword is read as such. -/
theorem Keyword.read (k : Keyword) (hrest : Delimits rest) (o : Nat) :
    Lexeme.read ⟨o, k.text.toList ++ rest⟩ =
      { kind := .keyword k, stop := ⟨o + byteLength k.text.toList, rest⟩,
        value := k.text.toList } := by
  have hparts : k.text.toList.all isNamePart = true := by
    cases k <;> decide
  have hplain : Keyword.ofText? k.text = some k := by
    cases k <;> decide
  obtain ⟨c, cs, hcs, hstart⟩ := k.exists_text_eq
  have hbody := Name.body_append (all_eq_true.1 hparts) hrest o
  rw [hcs] at hbody ⊢
  rw [cons_append, Lexeme.read_eq_name hstart, Name.read, ← cons_append, hbody, ← hcs]
  simp [hplain]

/-- A name that was read without escapes is a name. -/
theorem Name.isName_of_read {c : Cursor} (hstarts : Lexeme.startsName c.rest = true)
    (hkind : (read c).kind = .identifier) (hplain : (read c).flags.escapedName = false) :
    IsName (String.ofList (read c).value) := by
  have hescaped : (body c).escaped = false := hplain
  obtain ⟨hparts, rest, hsplit, -⟩ := value_of_plain c hescaped
  refine ofText_isName ?_ hparts ?_
  · simp only [read, hescaped, Bool.false_eq_true, ↓reduceIte] at hkind
    cases hkey : Keyword.ofText? (String.ofList (body c).value) with
    | none => exact hkey
    | some k => simp [hkey] at hkind
  · obtain ⟨o, cs⟩ := c
    cases cs with
    | nil => simp [Lexeme.startsName] at hstarts
    | cons x xs =>
      have hx : isNameStart x = true := by
        by_cases hslash : x = '\\'
        · subst hslash
          cases xs with
          | nil => simpa [Lexeme.startsName] using hstarts
          | cons y ys =>
            -- An escape at the start would have been noted.
            exfalso
            have hy : y = 'u' := by simpa [Lexeme.startsName] using hstarts
            subst hy
            rw [body] at hescaped
            simp only [Cursor.startsWith, isPrefixOf] at hescaped
            split at hescaped
            · split at hescaped <;> simp at hescaped
            · simp_all
        · cases xs <;> simp_all [Lexeme.startsName]
      have hpart := isNamePart_of_isNameStart x hx
      exact ⟨x, by simp [read, body_cons hpart], hx⟩

/-! ## Punctuators -/

namespace Punctuator

/-- The characters that make a longer punctuator of this one. -/
def extensions (p : Punctuator) : List Char :=
  all.filterMap fun q =>
    if p.text.toList.isPrefixOf q.text.toList then
      (q.text.toList.drop p.text.toList.length).head?
    else none

theorem ofChars?_text (p : Punctuator) : ofChars? p.text.toList = some p := by
  cases p <;> decide

theorem length_text (p : Punctuator) :
    p.text.toList.length = 1 ∨ p.text.toList.length = 2 ∨ p.text.toList.length = 3 ∨
      p.text.toList.length = 4 := by
  cases p <;> decide

variable {p : Punctuator} {rest : List Char}

theorem ofChars?_append {d : Char} (hd : d ∉ p.extensions) (cs : List Char) :
    ofChars? (p.text.toList ++ d :: cs) = none := by
  rw [ofChars?, find?_eq_none]
  intro q hq heq
  have heq : q.text.toList = p.text.toList ++ d :: cs := by simpa using heq
  refine hd (mem_filterMap.2 ⟨q, hq, ?_⟩)
  have hpre : p.text.toList.isPrefixOf q.text.toList = true :=
    isPrefixOf_iff_prefix.2 ⟨d :: cs, heq.symm⟩
  rw [if_pos hpre, heq]
  simp

/-- Where the next character does not extend a punctuator, no longer one is found. -/
theorem findSome?_ofChars? (hrest : ∀ d, rest.head? = some d → d ∉ p.extensions) :
    ([4, 3, 2, 1].findSome? fun n => ofChars? ((p.text.toList ++ rest).take n)) = some p := by
  have htake : ∀ n, p.text.toList.length ≤ n →
      ofChars? ((p.text.toList ++ rest).take n) = some p ∨
        ofChars? ((p.text.toList ++ rest).take n) = none := by
    intro n hn
    rw [take_append, take_of_length_le hn]
    cases hrest' : rest.take (n - p.text.toList.length) with
    | nil => exact .inl (by rw [append_nil]; exact ofChars?_text p)
    | cons d cs =>
      refine .inr (ofChars?_append (hrest d ?_) cs)
      cases rest with
      | nil => simp at hrest'
      | cons e es =>
        cases hm : n - p.text.toList.length with
        | zero => simp [hm] at hrest'
        | succ m => simp_all
  have hself : ofChars? ((p.text.toList ++ rest).take p.text.toList.length) = some p := by
    rw [take_left]
    exact ofChars?_text p
  rcases length_text p with hlen | hlen | hlen | hlen <;> rw [hlen] at hself
  · rcases htake 4 (by omega) with h4 | h4 <;> rcases htake 3 (by omega) with h3 | h3 <;>
      rcases htake 2 (by omega) with h2 | h2 <;> simp only [findSome?, h4, h3, h2, hself]
  · rcases htake 4 (by omega) with h4 | h4 <;> rcases htake 3 (by omega) with h3 | h3 <;>
      simp only [findSome?, h4, h3, hself]
  · rcases htake 4 (by omega) with h4 | h4 <;> simp only [findSome?, h4, hself]
  · simp only [findSome?, hself]

/-- A punctuator that the next character does not extend is the longest one. -/
theorem longest?_append (hp : p.text.toList.head? ≠ some '?')
    (hrest : ∀ d, rest.head? = some d → d ∉ p.extensions) :
    longest? (p.text.toList ++ rest) = some p := by
  unfold longest?
  split
  · rename_i d cs heq
    -- A text that starts with a question mark is excluded.
    cases htext : p.text.toList with
    | nil =>
      have := length_text p
      simp [htext] at this
    | cons x xs =>
      rw [htext, cons_append, List.cons.injEq] at heq
      rw [htext, heq.1] at hp
      exact absurd rfl hp
  · exact findSome?_ofChars? hrest

/-- The longest punctuator is read where no number starts. -/
theorem read_of_longest? (hlongest : longest? (p.text.toList ++ rest) = some p)
    (hnumber : Lexeme.startsNumber (p.text.toList ++ rest) = false) (o : Nat) :
    Lexeme.read ⟨o, p.text.toList ++ rest⟩ =
      { kind := .punctuator p, stop := ⟨o + byteLength p.text.toList, rest⟩ } := by
  have hskip := Cursor.skip_append o p.text.toList rest
  obtain ⟨c, cs, hcs, hstart, hother⟩ :
      ∃ c cs, p.text.toList = c :: cs ∧ isNameStart c = false ∧
        c ≠ '\x27' ∧ c ≠ '\x22' ∧ c ≠ '\x60' ∧ c ≠ '\\' := by
    cases p <;> exact ⟨_, _, rfl, by decide⟩
  have hname : Lexeme.startsName (c :: (cs ++ rest)) = false := by
    cases hr : cs ++ rest <;> simp_all [Lexeme.startsName]
  rw [hcs] at hlongest hnumber hskip
  simp only [Lexeme.read, hcs, cons_append] at hlongest hnumber hskip ⊢
  simp only [hother, decide_false, Bool.or_self, Bool.false_eq_true, ↓reduceIte, hnumber, hname,
    hlongest, ← String.length_toList, hcs, hskip]

/-- A punctuator that the next character does not extend is read as such. -/
theorem read (hdot : p.text.toList.head? ≠ some '.') (hquestion : p.text.toList.head? ≠ some '?')
    (hrest : ∀ d, rest.head? = some d → d ∉ p.extensions) (o : Nat) :
    Lexeme.read ⟨o, p.text.toList ++ rest⟩ =
      { kind := .punctuator p, stop := ⟨o + byteLength p.text.toList, rest⟩ } := by
  refine read_of_longest? (longest?_append hquestion hrest) ?_ o
  obtain ⟨c, cs, hcs, hdigit⟩ :
      ∃ c cs, p.text.toList = c :: cs ∧ isDigit c = false := by
    cases p <;> exact ⟨_, _, rfl, by decide⟩
  have hdot : c ≠ '.' := by
    rintro rfl
    exact hdot (by rw [hcs]; rfl)
  rw [hcs, cons_append]
  cases hr : cs ++ rest <;> simp_all [Lexeme.startsNumber]

end Punctuator

end LambdaLift
