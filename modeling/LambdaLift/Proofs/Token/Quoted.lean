import LambdaLift.Proofs.Token.Reread

/-!
# Strings in other surroundings

* `Lexeme.read_cases`: which reader reads a token, by its kind.
* `IsString`: texts that are read as a string wherever they stand.
* `Quoted.isString_of_read`: a string that was read without a fault has such a text.
-/

namespace LambdaLift

open Character Cursor TokenKind List

/-- A token of the given kind, without a fault, that ends at `stop`. -/
structure Lexeme.Is (x : Lexeme) (kind : TokenKind) (stop : Cursor) : Prop where
  kind : x.kind = kind
  stop : x.stop = stop
  reports : x.reports = []
  lineBreak : x.flags.lineBreakBefore = false

/-- A character that delimits strings. -/
def IsQuote (q : Char) : Prop :=
  q = '\x27' ∨ q = '\x22'

/-- A character that no escape goes on with. -/
structure EndsEscape (q : Char) : Prop where
  not_hexDigit : isHexDigit q = false
  ne_slash : '\\' ≠ q
  ne_u : 'u' ≠ q

theorem IsQuote.endsEscape {q : Char} (h : IsQuote q) : EndsEscape q := by
  rcases h with rfl | rfl <;> exact ⟨by decide, by decide, by decide⟩

/-! ## Which reader reads a token -/

theorem Number.kind_read (c : Cursor) : (Number.read c).kind = .number := by
  unfold Number.read
  repeat' split
  all_goals rfl

theorem Name.kind_read (c : Cursor) : (Name.read c).kind.isWord = true := by
  simp only [Name.read]
  cases (if (Name.body c).escaped then none
    else Keyword.ofText? (String.ofList (Name.body c).value)) <;> rfl

theorem Quoted.kind_templatePiece (first : Bool) (start c : Cursor) :
    (Quoted.templatePiece first start c).kind.isTemplate = true := by
  simp only [Quoted.templatePiece, Quoted.lexeme]
  split <;> rfl

/-- The readers of the tokens, by the kind of token that they read. -/
theorem Lexeme.read_cases (c : Cursor) :
    (read c).kind = .endOfFile ∨
      (∃ q cs, c.rest = q :: cs ∧ IsQuote q ∧ read c = Quoted.string q c) ∨
      (read c).kind.isTemplate = true ∨
      (startsNumber c.rest = true ∧ read c = Number.read c) ∨
      (startsName c.rest = true ∧ read c = Name.read c) ∨
      (read c).kind.isPunctuator = true ∨ (read c).kind = .unknown := by
  unfold read
  split
  · exact .inl rfl
  · rename_i x cs hrest
    right
    split
    · rename_i hx
      exact .inl ⟨x, cs, hrest, by simpa [IsQuote] using hx, rfl⟩
    right
    split
    · exact .inl (Quoted.kind_templatePiece ..)
    right
    split
    · exact .inl ⟨‹_›, rfl⟩
    right
    split
    · exact .inl ⟨‹_›, rfl⟩
    right
    split
    · exact .inl rfl
    · exact .inr rfl

/-- A name is read by the reader of names. -/
theorem Lexeme.read_of_identifier {c : Cursor} (h : (read c).kind = .identifier) :
    startsName c.rest = true ∧ read c = Name.read c := by
  rcases read_cases c with hk | ⟨q, cs, -, -, hk⟩ | hk | ⟨-, hk⟩ | hk | hk | hk
  · simp [hk] at h
  · simp [hk, Quoted.string, Quoted.lexeme] at h
  · simp [h, isTemplate] at hk
  · simp [hk, Number.kind_read] at h
  · exact hk
  · simp [h, isPunctuator] at hk
  · simp [hk] at h

/-- A number is read by the reader of numbers. -/
theorem Lexeme.read_of_number {c : Cursor} (h : (read c).kind = .number) :
    startsNumber c.rest = true ∧ read c = Number.read c := by
  rcases read_cases c with hk | ⟨q, cs, -, -, hk⟩ | hk | hk | ⟨-, hk⟩ | hk | hk
  · simp [hk] at h
  · simp [hk, Quoted.string, Quoted.lexeme] at h
  · simp [h, isTemplate] at hk
  · exact hk
  · have := Name.kind_read c
    simp [← hk, h, isWord] at this
  · simp [h, isPunctuator] at hk
  · simp [hk] at h

/-- A string starts with a quote. -/
theorem Lexeme.read_of_string {c : Cursor} (h : (read c).kind = .string) :
    ∃ q cs, c.rest = q :: cs ∧ IsQuote q ∧ read c = Quoted.string q c := by
  rcases read_cases c with hk | hk | hk | ⟨-, hk⟩ | ⟨-, hk⟩ | hk | hk
  · simp [hk] at h
  · exact hk
  · simp [h, isTemplate] at hk
  · simp [hk, Number.kind_read] at h
  · have := Name.kind_read c
    simp [← hk, h, isWord] at this
  · simp [h, isPunctuator] at hk
  · simp [hk] at h

/-! ## Strings -/

namespace Escape

variable {q : Char}

/-- Whether hexadecimal digits follow shows before a character that ends escapes. -/
theorem hexDigits?_append (hq : EndsEscape q) (o n : Nat) (ys zs : List Char) :
    hexDigits? ⟨o, ys ++ q :: zs⟩ n =
      if n ≤ ys.length ∧ (ys.take n).all isHexDigit = true then
        some (natOfDigits 16 (ys.take n), ⟨o + byteLength (ys.take n), ys.drop n ++ q :: zs⟩)
      else none := by
  unfold hexDigits?
  by_cases hn : n ≤ ys.length
  · simp [take_append_of_le_length hn, drop_append_of_le_length hn, hn, skip]
  · have hall : ((ys ++ q :: zs).take n).all isHexDigit = false := by
      rw [all_eq_false]
      refine ⟨q, ?_, by simp [hq.not_hexDigit]⟩
      rw [take_append, mem_append]
      obtain ⟨m, hm⟩ : ∃ m, n - ys.length = m + 1 := ⟨n - ys.length - 1, by omega⟩
      exact .inr (by simp [hm])
    simp [hn, hall]

variable {o : Nat} {w ys zs : List Char} {stop : Cursor}

/-- Whether the second half of a pair of surrogates follows shows before a character that ends
escapes. -/
theorem lowSurrogate?_eq_none (hq : EndsEscape q) (h : lowSurrogate? ⟨o, ys ++ q :: zs⟩ = none)
    (o' : Nat) (zs' : List Char) :
    lowSurrogate? ⟨o', ys ++ q :: zs'⟩ = none := by
  unfold lowSurrogate? at h ⊢
  match ys with
  | [] => simp [startsWith, isPrefixOf, hq.ne_slash]
  | [a] => simp [startsWith, isPrefixOf, hq.ne_u]
  | a :: b :: ys =>
    simp only [startsWith, cons_append, isPrefixOf, skip_cons,
      skip_zero, hexDigits?_append hq] at h ⊢
    split <;> rename_i hstarts
    · rw [if_pos hstarts] at h
      split <;> rename_i hdigits
      · rw [if_pos hdigits, Option.filter_some] at h
        rw [Option.filter_some]
        split at h
        · cases h
        · rename_i hrange
          rw [if_neg hrange]
      · rfl
    · rfl

theorem hexDigits?_split {n v : Nat} (h : hexDigits? ⟨o, w⟩ n = some (v, stop)) :
    ∃ digits t, w = digits ++ t ∧ digits.length = n ∧ stop.rest = t ∧
      ∀ o' t', hexDigits? ⟨o', digits ++ t'⟩ n = some (v, ⟨o' + byteLength digits, t'⟩) := by
  simp only [hexDigits?] at h
  split at h
  · rename_i hdigits
    cases h
    simp only [Bool.and_eq_true, decide_eq_true_eq] at hdigits
    refine ⟨w.take n, w.drop n, (take_append_drop n w).symm, hdigits.1, rfl, ?_⟩
    intro o' t'
    have hskip := skip_append o' (w.take n) t'
    rw [hdigits.1] at hskip
    have htake : (w.take n ++ t').take n = w.take n := take_left' hdigits.1
    simp only [hexDigits?, htake, hdigits, hskip, decide_true, Bool.and_self, ↓reduceIte]
  · cases h

/-- An escape after `\u` is the same before every text, but that a surrogate without its second half
must not find one there. -/
theorem unicode_split {y : Char} (h : unicode ⟨o, w⟩ = (some y, stop)) :
    ∃ pre, w = pre ++ stop.rest ∧ ∀ o' t',
      (y = replacement → lowSurrogate? stop = none →
        lowSurrogate? ⟨o' + byteLength pre, t'⟩ = none) →
      unicode ⟨o', pre ++ t'⟩ = (some y, ⟨o' + byteLength pre, t'⟩) := by
  unfold unicode at h
  split at h
  · rename_i hbrace
    obtain ⟨r, rfl⟩ := head?_eq_some_iff.1 hbrace
    obtain ⟨digits, r', rfl, htake, hhex, hr'⟩ := exists_takeWhile isHexDigit r
    simp only [braced, skip_cons, skip_zero, htake, skip_append] at h
    split at h
    · cases h
    · rename_i hclosed
      simp only [Bool.or_eq_true, not_or, Bool.not_eq_true, decide_eq_true_eq,
        Classical.not_not] at hclosed
      obtain ⟨t, rfl⟩ := head?_eq_some_iff.1 hclosed.2
      obtain ⟨hy, rfl⟩ := Prod.mk.inj h
      refine ⟨'\x7b' :: digits ++ ['\x7d'], by simp [skip_cons], ?_⟩
      intro o' t' _
      have htake' : (digits ++ '\x7d' :: t').takeWhile isHexDigit = digits :=
        takeWhile_append_all hhex (by simp [show isHexDigit '\x7d' = false by decide])
      simp [unicode, peek?, braced, skip_cons, htake', skip_append, hclosed.1, hy,
        byteLength, byteLength_append, Nat.add_assoc]
  · rename_i hbrace
    unfold fourDigits at h
    split at h
    · cases h
    · rename_i value stop₁ hfour
      obtain ⟨digits, t, rfl, hlen, ht, hsame⟩ := hexDigits?_split hfour
      have hpeek : ∀ o' (t' : List Char),
          (⟨o', digits ++ t'⟩ : Cursor).peek? ≠ some '\x7b' := by
        intro o' t'
        cases digits with
        | nil => simp at hlen
        | cons d ds => simpa [peek?] using hbrace
      split at h
      · rename_i hhigh
        split at h
        · rename_i low stop₂ hlow
          obtain ⟨hy, rfl⟩ := Prod.mk.inj h
          unfold lowSurrogate? at hlow
          split at hlow
          · rename_i hstarts
            obtain ⟨hhex, hrange⟩ := Option.filter_eq_some_iff.1 hlow
            obtain ⟨r, hr⟩ : ∃ r, t = '\\' :: 'u' :: r := by
              obtain ⟨r, hr⟩ := isPrefixOf_iff_prefix.1 hstarts
              exact ⟨r, by rw [← ht, ← hr]; rfl⟩
            subst hr
            obtain ⟨o₁, rest₁⟩ := stop₁
            simp only at ht
            subst ht
            simp only [skip_cons, skip_zero] at hhex
            obtain ⟨digits₂, t₂, rfl, hlen₂, rfl, hsame₂⟩ := hexDigits?_split hhex
            refine ⟨digits ++ '\\' :: 'u' :: digits₂, by simp, ?_⟩
            intro o' t' _
            have hlow' : lowSurrogate? ⟨o' + byteLength digits,
                '\\' :: 'u' :: (digits₂ ++ t')⟩ = some (low,
                  ⟨o' + byteLength digits + '\\'.utf8Size + 'u'.utf8Size + byteLength digits₂,
                    t'⟩) := by
              simp only [lowSurrogate?, startsWith, isPrefixOf, beq_self_eq_true,
                Bool.and_self, ↓reduceIte, skip_cons, skip_zero, hsame₂,
                Option.filter_some]
              rw [if_pos (by simpa using hrange)]
            simp only [unicode, append_assoc, cons_append, hpeek, ↓reduceIte, fourDigits,
              hsame, hhigh, hlow', hy]
            simp [byteLength_append, byteLength, Nat.add_assoc]
          · cases hlow
        · rename_i hlow
          obtain ⟨hy, rfl⟩ := Prod.mk.inj h
          refine ⟨digits, by rw [ht], ?_⟩
          intro o' t' hnone
          have hnone := hnone (Option.some.inj hy).symm hlow
          simp only [unicode, hpeek, ↓reduceIte, fourDigits, hsame, hhigh, hnone, hy]
      · rename_i hhigh
        obtain ⟨hy, rfl⟩ := Prod.mk.inj h
        refine ⟨digits, by rw [ht], ?_⟩
        intro o' t' _
        simp only [unicode, hpeek, ↓reduceIte, fourDigits, hsame, hhigh, hy]
        rfl

/-- An escape after `\u` is the same wherever it stands before the same characters up to one that
ends escapes. -/
theorem unicode_local (hq : EndsEscape q) {y : Char} (h : unicode ⟨o, w⟩ = (some y, stop))
    (hstop : stop.rest = ys ++ q :: zs) :
    ∃ pre, w = pre ++ (ys ++ q :: zs) ∧ ∀ o' zs', unicode ⟨o', pre ++ (ys ++ q :: zs')⟩ =
      (some y, ⟨o' + byteLength pre, ys ++ q :: zs'⟩) := by
  obtain ⟨pre, hw, hsame⟩ := unicode_split h
  refine ⟨pre, hstop ▸ hw, fun o' zs' => hsame o' _ fun _ hlow => ?_⟩
  obtain ⟨o₁, rest⟩ := stop
  simp only at hstop
  subst hstop
  exact lowSurrogate?_eq_none hq hlow _ zs'

theorem head?_append_quote (ys zs zs' : List Char) :
    (ys ++ q :: zs').head? = (ys ++ q :: zs).head? := by
  cases ys <;> rfl

/-- Digits of base eight end where they end before the same characters up to one of them. -/
theorem octalDigits_local {more v v' : Nat} (h : octalDigits more v ⟨o, w⟩ = (v', stop))
    (hstop : stop.rest = ys ++ q :: zs) :
    ∃ pre, w = pre ++ (ys ++ q :: zs) ∧ ∀ o' zs', octalDigits more v ⟨o', pre ++ (ys ++ q :: zs')⟩ =
      (v', ⟨o' + byteLength pre, ys ++ q :: zs'⟩) := by
  induction more generalizing v o w with
  | zero =>
    cases h
    exact ⟨[], hstop, fun o' zs' => by simp [octalDigits, byteLength]⟩
  | succ more ih =>
    -- Without a further digit the text goes on where it went on before.
    have hend : (v, (⟨o, w⟩ : Cursor)) = (v', stop) →
        (∀ d, w.head?.bind (digitValue? 8) = some d → ¬ v * 8 + d ≤ 0o377) →
        ∃ pre, w = pre ++ (ys ++ q :: zs) ∧ ∀ o' zs',
          octalDigits (more + 1) v ⟨o', pre ++ (ys ++ q :: zs')⟩ =
            (v', ⟨o' + byteLength pre, ys ++ q :: zs'⟩) := by
      intro heq hnone
      cases heq
      simp only at hstop
      subst hstop
      refine ⟨[], rfl, fun o' zs' => ?_⟩
      rw [nil_append, octalDigits, peek?, head?_append_quote ys zs zs']
      split
      · rename_i d hd
        rw [if_neg (hnone d hd)]
        rfl
      · rfl
    rw [octalDigits] at h
    split at h
    · rename_i d hd
      split at h
      · rename_i hle
        cases w with
        | nil => simp [peek?] at hd
        | cons x w =>
          rw [skip_cons, skip_zero] at h
          obtain ⟨pre, rfl, hsame⟩ := ih h
          refine ⟨x :: pre, rfl, fun o' zs' => ?_⟩
          have hd' : (⟨o', x :: (pre ++ (ys ++ q :: zs'))⟩ : Cursor).peek?.bind
              (digitValue? 8) = some d := by simpa [peek?] using hd
          rw [cons_append, octalDigits, hd']
          simp only [hle, ↓reduceIte, skip_cons, skip_zero, hsame, byteLength,
            Nat.add_assoc]
      · rename_i hle
        refine hend h fun d' hd' => ?_
        have : d' = d := by simpa [peek?, hd'] using hd
        rwa [this]
    · rename_i hd
      refine hend h fun d' hd' => ?_
      simp [peek?, hd'] at hd

/-- An escape without a fault is the same wherever it stands before the same characters up to one
that ends escapes. -/
theorem read_local (hq : EndsEscape q) {x : Char} (hclean : (read ⟨o, '\\' :: x :: w⟩).reports = [])
    (hstop : (read ⟨o, '\\' :: x :: w⟩).stop.rest = ys ++ q :: zs) :
    ∃ pre, x :: w = pre ++ (ys ++ q :: zs) ∧ ∀ o' zs',
      read ⟨o', '\\' :: (pre ++ (ys ++ q :: zs'))⟩ =
        { read ⟨o, '\\' :: x :: w⟩ with
          stop := ⟨o' + '\\'.utf8Size + byteLength pre, ys ++ q :: zs'⟩ } := by
  have hpeek : ∀ (pre : List Char) zs', w = pre ++ (ys ++ q :: zs) →
      (pre ++ (ys ++ q :: zs')).head? = w.head? := by
    rintro pre zs' rfl
    rw [← append_assoc, ← append_assoc]
    exact head?_append_quote (pre ++ ys) zs zs'
  simp only [read, skip_cons, skip_zero, peek?, head?_cons] at hclean hstop
  cases hletter : letter? x with
  | some y =>
    simp only [hletter] at hstop
    refine ⟨[x], by rw [hstop]; rfl, fun o' zs' => ?_⟩
    simp [read, skip_cons, peek?, hletter, byteLength]
  | none =>
    simp only [hletter] at hclean hstop
    by_cases hzero : (decide (x = '0') && !w.head?.any isDigit) = true
    · rw [if_pos hzero] at hstop
      refine ⟨[x], by rw [← hstop]; rfl, fun o' zs' => ?_⟩
      have hhead := hpeek [] zs' hstop
      rw [nil_append] at hhead
      simp only [read, singleton_append, skip_cons, skip_zero, peek?,
        head?_cons, hletter, hhead, if_pos hzero, byteLength, Nat.add_zero]
    · rw [if_neg hzero] at hclean hstop
      -- In the remaining cases something is read after `x`, and the rest is as before.
      suffices hrest : ∃ pre, w = pre ++ (ys ++ q :: zs) ∧ ∀ o' zs',
          read ⟨o', '\\' :: x :: (pre ++ (ys ++ q :: zs'))⟩ =
            { read ⟨o, '\\' :: x :: w⟩ with
              stop := ⟨o' + '\\'.utf8Size + x.utf8Size + byteLength pre, ys ++ q :: zs'⟩ } by
        obtain ⟨pre, hw, hsame⟩ := hrest
        refine ⟨x :: pre, by rw [hw]; rfl, fun o' zs' => ?_⟩
        rw [cons_append, hsame, byteLength, Nat.add_assoc, Nat.add_assoc]
      by_cases hx : x = 'x'
      · subst hx
        simp only [↓reduceIte] at hclean hstop
        split at hstop
        · rename_i value stop hhex
          obtain ⟨digits, t, rfl, -, ht, hsame⟩ := hexDigits?_split hhex
          rw [hstop] at ht
          subst ht
          refine ⟨digits, rfl, fun o' zs' => ?_⟩
          simp only [read, skip_cons, skip_zero, peek?, head?_cons, hletter,
            hpeek digits zs' rfl, if_neg hzero, ↓reduceIte, hsame]
        · rename_i hhex
          simp [hhex] at hclean
      · simp only [hx, ↓reduceIte] at hclean hstop
        by_cases hu : x = 'u'
        · subst hu
          simp only [↓reduceIte] at hclean hstop
          split at hstop
          · rename_i y stop hcode
            obtain ⟨pre, rfl, hsame⟩ := unicode_local hq hcode hstop
            refine ⟨pre, rfl, fun o' zs' => ?_⟩
            simp only [read, skip_cons, skip_zero, peek?, head?_cons, hletter,
              hpeek pre zs' rfl, if_neg hzero, hx, ↓reduceIte, hsame]
          · rename_i stop hcode
            simp [hcode] at hclean
        · simp only [hu, ↓reduceIte] at hstop
          cases hoctal : digitValue? 8 x with
          | some d =>
            simp only [hoctal, octal] at hstop
            obtain ⟨v, stop, hres⟩ : ∃ v stop, octalDigits 2 d
                ⟨o + '\\'.utf8Size + x.utf8Size, w⟩ = (v, stop) := ⟨_, _, rfl⟩
            rw [hres] at hstop
            obtain ⟨pre, rfl, hsame⟩ := octalDigits_local hres hstop
            refine ⟨pre, rfl, fun o' zs' => ?_⟩
            simp only [read, skip_cons, skip_zero, peek?, head?_cons, hletter,
              hpeek pre zs' rfl, if_neg hzero, hx, hu, ↓reduceIte, hoctal, octal, hsame]
          | none =>
            simp only [hoctal] at hstop
            by_cases hr : x = '\r'
            · subst hr
              simp only [↓reduceIte] at hstop
              split at hstop
              · rename_i hfeed
                obtain ⟨w, rfl⟩ := head?_eq_some_iff.1 hfeed
                rw [skip_cons, skip_zero] at hstop
                simp only at hstop
                subst hstop
                refine ⟨['\n'], rfl, fun o' zs' => ?_⟩
                simp [read, skip_cons, peek?, hletter, hoctal, byteLength]
              · rename_i hfeed
                simp only at hstop
                subst hstop
                refine ⟨[], rfl, fun o' zs' => ?_⟩
                have hhead := hpeek [] zs' rfl
                rw [nil_append] at hhead ⊢
                simp only [read, skip_cons, skip_zero, peek?, head?_cons,
                  hletter, hhead, if_neg hzero, hx, hu, ↓reduceIte, hoctal, if_neg hfeed, byteLength,
                  Nat.add_zero]
            · simp only [hr, ↓reduceIte] at hstop
              have hw : w = ys ++ q :: zs := by
                split at hstop <;> exact hstop
              refine ⟨[], hw, fun o' zs' => ?_⟩
              have hhead := hpeek [] zs' hw
              rw [nil_append] at hhead ⊢
              simp only [read, skip_cons, skip_zero, peek?, head?_cons,
                hletter, hhead, if_neg hzero, hx, hu, hr, ↓reduceIte, hoctal, byteLength,
                Nat.add_zero]
              split <;> rfl

end Escape

namespace Quoted

variable {q : Char}

/-- The inside of a string that is closed and has no fault ends at a quote, and is the same wherever
it stands. -/
theorem stringBody_local (hq : IsQuote q) (c : Cursor) (hclosed : (stringBody q c).closed = true)
    (hclean : (stringBody q c).reports = []) :
    ∃ ys zs, c.rest = ys ++ q :: zs ∧ (stringBody q c).stop.rest = zs ∧ ∀ o' zs',
      stringBody q ⟨o', ys ++ q :: zs'⟩ =
        { stringBody q c with stop := ⟨o' + byteLength ys + q.utf8Size, zs'⟩ } := by
  have hslash : q ≠ '\\' := by rcases hq with rfl | rfl <;> decide
  fun_induction stringBody q c with
  | case1 c hrest => cases hclosed
  | case2 c xs hrest =>
    refine ⟨[], xs, hrest, by simp [skip, hrest], fun o' zs' => ?_⟩
    rw [stringBody]
    simp [skip_cons, byteLength]
  | case3 c xs hrest hquote ih =>
    obtain ⟨hclean, hclean'⟩ := append_eq_nil_iff.1 hclean
    obtain ⟨ys, zs, hys, hstop, hsame⟩ := ih hclosed hclean'
    obtain ⟨o, rest⟩ := c
    simp only at hrest
    subst hrest
    cases xs with
    | nil =>
      -- Nothing follows the backslash, so there is no quote either.
      simp [Escape.read, skip_cons, peek?] at hys
    | cons x w =>
      obtain ⟨pre, hpre, hread⟩ := Escape.read_local hq.endsEscape hclean hys
      refine ⟨'\\' :: pre ++ ys, zs, by simp [hpre], hstop, fun o' zs' => ?_⟩
      rw [append_assoc, cons_append, stringBody]
      simp only [Ne.symm hslash, ↓reduceIte, hread, hsame, Body.escape]
      simp [byteLength, byteLength_append, Nat.add_assoc]
  | case4 c x xs hrest hquote hx hbreak => cases hclosed
  | case5 c x xs hrest hquote hx hbreak ih =>
    obtain ⟨ys, zs, hys, hstop, hsame⟩ := ih hclosed hclean
    refine ⟨x :: ys, zs, ?_, hstop, fun o' zs' => ?_⟩
    · rw [hrest, cons_append, ← hys]
      simp [skip, hrest]
    · rw [cons_append, stringBody]
      simp only [hquote, hx, hbreak, ↓reduceIte, skip_cons, skip_zero, hsame, Body.push]
      simp [byteLength, Nat.add_assoc]

/-- A literal without a report is closed. -/
theorem closed_of_lexeme {start : Cursor} {kind : TokenKind} {fault : Fault} {b : Body}
    (h : (lexeme start kind fault b).reports = []) : b.closed = true ∧ b.reports = [] := by
  obtain ⟨hbody, hclosed⟩ := append_eq_nil_iff.1 h
  refine ⟨?_, hbody⟩
  by_contra hopen
  simp [hopen] at hclosed

theorem flags_escape (c : Cursor) :
    (Escape.read c).flags.lineBreakBefore = false ∧ (Escape.read c).flags.escapedName = false := by
  simp only [Escape.read]
  repeat' split
  all_goals exact ⟨rfl, rfl⟩

/-- The inside of a literal is made up of characters and escapes. -/
inductive Body.Made : Body → Prop
  | done (stop : Cursor) (closed : Bool) : Made { stop, closed }
  | push (x : Char) {b : Body} (h : Made b) : Made (b.push x)
  | escape (c : Cursor) {b : Body} (h : Made b) : Made (b.escape (Escape.read c))

theorem made_stringBody (q : Char) (c : Cursor) : (stringBody q c).Made := by
  fun_induction stringBody q c with
  | case1 | case2 | case4 => exact .done ..
  | case3 c _ _ _ ih => exact ih.escape c
  | case5 _ _ _ _ _ _ _ ih => exact ih.push _

theorem made_templateBody (c : Cursor) : (templateBody c).1.Made := by
  fun_induction templateBody c with
  | case1 | case2 | case3 => exact .done ..
  | case4 c _ _ b opened h _ _ ih =>
    rw [h] at ih
    exact ih.escape c
  | case5 c _ _ b opened h _ _ _ ih | case6 c _ _ _ _ _ _ _ b opened h ih =>
    rw [h] at ih
    exact ih.push _

theorem Body.Made.flags {b : Body} (h : b.Made) :
    b.flags.lineBreakBefore = false ∧ b.flags.escapedName = false := by
  induction h with
  | done => exact ⟨rfl, rfl⟩
  | push x _ ih => exact ih
  | escape c _ ih => simp [Body.escape, TokenFlags.or, flags_escape, ih]

end Quoted

/-- A text that is read as a string. -/
structure IsString (raw : String) : Prop where
  start : ∃ q cs, raw.toList = q :: cs ∧ IsQuote q
  read : ∀ o rest, (Lexeme.read ⟨o, raw.toList ++ rest⟩).Is .string
    ⟨o + byteLength raw.toList, rest⟩
  value : ∀ o rest, (Lexeme.read ⟨o, raw.toList ++ rest⟩).value = (stringSpelled raw).toList

namespace Quoted

theorem read_eq_string {q : Char} (hq : IsQuote q) (o : Nat) (cs : List Char) :
    Lexeme.read ⟨o, q :: cs⟩ = string q ⟨o, q :: cs⟩ := by
  rcases hq with rfl | rfl <;> simp [Lexeme.read]

/-- A string that was read without a fault is read again wherever its text stands. -/
theorem exists_string {c : Cursor} (hkind : (Lexeme.read c).kind = .string)
    (hclean : (Lexeme.read c).reports = []) :
    ∃ q ys, IsQuote q ∧ c.rest = q :: (ys ++ [q]) ++ (Lexeme.read c).stop.rest ∧
      ∀ o' zs', Lexeme.read ⟨o', q :: (ys ++ [q]) ++ zs'⟩ =
        { Lexeme.read c with stop := ⟨o' + byteLength (q :: (ys ++ [q])), zs'⟩ } := by
  obtain ⟨q, cs, hrest, hq, heq⟩ := Lexeme.read_of_string hkind
  obtain ⟨o, rest⟩ := c
  simp only at hrest
  subst hrest
  rw [heq] at hclean ⊢
  obtain ⟨hclosed, hbody⟩ := closed_of_lexeme hclean
  obtain ⟨ys, zs, hys, hstop, hsame⟩ := stringBody_local hq _ hclosed hbody
  rw [skip_cons, skip_zero] at hys hstop hsame hclosed
  simp only at hys
  subst hys
  refine ⟨q, ys, hq, ?_, fun o' zs' => ?_⟩
  · simp [string, lexeme, skip_cons, hstop]
  · have hsplit : q :: (ys ++ [q]) ++ zs' = q :: (ys ++ q :: zs') := by simp
    rw [hsplit, read_eq_string hq]
    simp only [string, lexeme, skip_cons, skip_zero]
    rw [hsame (o' + q.utf8Size) zs']
    simp [hclosed, byteLength, byteLength_append, Nat.add_assoc]

/-- A string that was read without a fault has a text that is read as that string. -/
theorem isString_of_read {c : Cursor} (hkind : (Lexeme.read c).kind = .string)
    (hclean : (Lexeme.read c).reports = []) :
    IsString (String.ofList (c.textTo (Lexeme.read c).stop)) ∧
      String.ofList (Lexeme.read c).value =
        stringSpelled (String.ofList (c.textTo (Lexeme.read c).stop)) := by
  obtain ⟨q, ys, hq, hrest, hread⟩ := exists_string hkind hclean
  have htext : c.textTo (Lexeme.read c).stop = q :: (ys ++ [q]) := by
    rw [textTo, hrest, length_append, Nat.add_sub_cancel, take_left]
  have hbreak : (Lexeme.read c).flags.lineBreakBefore = false := by
    obtain ⟨p, cs, -, -, heq⟩ := Lexeme.read_of_string hkind
    rw [heq]
    exact (made_stringBody ..).flags.1
  have hspelled : stringSpelled (String.ofList (q :: (ys ++ [q]))) =
      String.ofList (Lexeme.read c).value := by
    have := hread 0 []
    rw [append_nil] at this
    rw [stringSpelled, ofText, String.toList_ofList, this]
  rw [htext]
  refine ⟨⟨⟨q, ys ++ [q], by simp, hq⟩, ?_, ?_⟩, hspelled.symm⟩
  · intro o' zs'
    rw [String.toList_ofList, hread]
    exact ⟨hkind, rfl, hclean, hbreak⟩
  · intro o' zs'
    rw [String.toList_ofList, hread, hspelled, String.toList_ofList]

end Quoted

end LambdaLift
