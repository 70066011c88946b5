import LambdaLift.Proofs.Token.Quoted

/-!
# Numbers in other surroundings

A number that was read without a fault is read again wherever its text stands before a delimiter.

* `Number.Spelling`: the parts of a decimal number as they are written.
* `Number.Relocates`: a text begins with a number that is found again elsewhere.
* `IsNumber`: texts that are read as a number before any delimiter.
* `Number.isNumber_of_read`: a number that was read without a fault has such a text.
-/

namespace LambdaLift

open Character Cursor Lexeme List

namespace Number

/-- Nothing that goes on as a number or a name. -/
def Ends (rest : List Char) : Prop :=
  ∀ c, rest.head? = some c → Character.isDigit c = false ∧ isNameStart c = false

theorem ends_of_delimits {rest : List Char} (h : Delimits rest) : Ends rest := by
  intro c hc
  have hpart := isNamePart_of_isDelimiter c (h c hc)
  constructor
  · simp only [isNamePart, Bool.or_eq_false_iff] at hpart
    exact hpart.1.1.1.2
  · by_contra hstart
    simp [isNamePart_of_isNameStart c (by simpa using hstart)] at hpart

theorem run_append {isDigit : Char → Bool} {a b : List Char}
    (ha : ∀ x ∈ a, (isDigit x || x = '_') = true)
    (hb : ∀ c, b.head? = some c → (isDigit c || c = '_') = false) (o : Nat) :
    run isDigit ⟨o, a ++ b⟩ =
      ⟨a.filter (· ≠ '_'), a.any (· = '_'), ⟨o + byteLength a, b⟩⟩ := by
  simp only [run, takeWhile_append_all ha hb, skip_append]

/-- A run of digits splits the text where it ends. -/
theorem exists_run (isDigit : Char → Bool) (cs : List Char) :
    ∃ a b, cs = a ++ b ∧ (∀ x ∈ a, (isDigit x || x = '_') = true) ∧
      (∀ c, b.head? = some c → (isDigit c || c = '_') = false) ∧ ∀ o, run isDigit ⟨o, cs⟩ =
        ⟨a.filter (· ≠ '_'), a.any (· = '_'), ⟨o + byteLength a, b⟩⟩ := by
  obtain ⟨a, b, rfl, -, ha, hb⟩ := exists_takeWhile (fun x => isDigit x || x = '_') cs
  exact ⟨a, b, rfl, ha, hb, run_append ha hb⟩

theorem lexeme_eq {start stop : Cursor} {number : Float} {flags : TokenFlags}
    {reports : List Report} (h : ∀ c, stop.rest.head? = some c → isNameStart c = false) :
    lexeme start stop number flags reports =
      { kind := .number, stop, value := start.textTo stop, number, flags, reports } := by
  have hafter : nameAfter stop = (stop, []) := by
    unfold nameAfter
    rw [if_neg]
    rw [peek?]
    cases hhead : stop.rest.head? with
    | none => simp
    | some c => simp [h c hhead]
  simp [lexeme, hafter]

/-- A number without a fault ends before anything but a name. -/
theorem of_lexeme_clean {start stop : Cursor} {number : Float} {flags : TokenFlags}
    {reports : List Report} (h : (lexeme start stop number flags reports).reports = []) :
    reports = [] ∧ ∀ c, stop.rest.head? = some c → isNameStart c = false := by
  obtain ⟨hreports, hafter⟩ := append_eq_nil_iff.1 h
  refine ⟨hreports, fun c hc => ?_⟩
  by_contra hstart
  have hname : stop.peek?.any isNameStart = true := by
    simpa [peek?, hc] using hstart
  have hafter : (nameAfter stop).2 = [] := hafter
  unfold nameAfter at hafter
  rw [if_pos hname] at hafter
  cases hafter

/-! ## Decimal numbers -/

/-- A run of digits and underscores. -/
def IsRun (cs : List Char) : Prop :=
  ∀ x ∈ cs, (Character.isDigit x || x = '_') = true

/-- No run of digits goes on here. -/
def NotRun (rest : List Char) : Prop :=
  ∀ c, rest.head? = some c → (Character.isDigit c || c = '_') = false

/-- The parts of a decimal number as they are written: the digits after a point, and the mark, the
sign and the digits of an exponent. -/
structure Spelling where
  whole : List Char
  fraction : Option (List Char)
  exponent : Option (Char × List Char × List Char)

namespace Spelling

/-- The parts consist of digits. -/
structure Written (p : Spelling) : Prop where
  whole : IsRun p.whole
  fraction : ∀ f ∈ p.fraction, IsRun f
  exponent : ∀ e ∈ p.exponent, (e.1 = 'e' ∨ e.1 = 'E') ∧
    (e.2.1 = [] ∨ e.2.1 = ['+'] ∨ e.2.1 = ['-']) ∧ IsRun e.2.2

/-- The digits of an exponent are left out. -/
def lacksDigits (p : Spelling) : Bool :=
  p.exponent.any fun e => (e.2.2.filter (· ≠ '_')).isEmpty

/-- The part after the whole number. -/
def fractionText (p : Spelling) : List Char :=
  p.fraction.elim [] ('.' :: ·)

/-- The exponent. -/
def exponentText (p : Spelling) : List Char :=
  p.exponent.elim [] fun e => e.1 :: (e.2.1 ++ e.2.2)

/-- The number as it is written. -/
def text (p : Spelling) : List Char :=
  p.whole ++ (p.fractionText ++ p.exponentText)

/-- A point after the number would belong to it. -/
def TakesPoint (p : Spelling) : Prop :=
  p.fraction = none ∧ p.exponent = none

/-- Nothing of `rest` belongs to the number. -/
structure Stops (p : Spelling) (rest : List Char) : Prop where
  run : NotRun rest
  point : p.TakesPoint → rest.head? ≠ some '.'
  mark : p.exponent = none → rest.head? ≠ some 'e' ∧ rest.head? ≠ some 'E'
  sign : ∀ e ∈ p.exponent, e.2 = ([], []) → rest.head? ≠ some '+' ∧ rest.head? ≠ some '-'

/-- The digits without underscores, and a zero for those of an exponent that are left out. -/
def literal (p : Spelling) : DecimalLiteral where
  whole := p.whole.filter (· ≠ '_')
  fraction := p.fraction.map (·.filter (· ≠ '_'))
  exponent := p.exponent.map fun (_, sign, power) =>
    (sign, if (power.filter (· ≠ '_')).isEmpty then ['0'] else power.filter (· ≠ '_'))

/-- How the number is written. -/
def flags (p : Spelling) : TokenFlags where
  scientific := p.exponent.isSome
  separated := p.whole.any (· = '_') || p.fraction.any (·.any (· = '_')) ||
    p.exponent.any (·.2.2.any (· = '_'))

end Spelling

variable {p : Spelling} {rest : List Char}

/-- Ends of runs of digits. -/
theorem Ends.not_run (h : Ends rest) : NotRun rest := by
  intro c hc
  obtain ⟨hdigit, hstart⟩ := h c hc
  have hne : c ≠ '_' := by
    rintro rfl
    exact absurd hstart (by decide)
  simp [hdigit, hne]

theorem Ends.stops (h : Ends rest) (hdigits : p.lacksDigits = false)
    (hpoint : p.TakesPoint → rest.head? ≠ some '.') : p.Stops rest where
  run := h.not_run
  point := hpoint
  mark _ := ⟨fun hc => absurd (h _ hc).2 (by decide), fun hc => absurd (h _ hc).2 (by decide)⟩
  sign e he hnone := by
    rw [Spelling.lacksDigits, Option.mem_def.1 he] at hdigits
    simp [hnone] at hdigits

/-- The digits after a point, before something that is no digit. -/
theorem fraction?_text (hp : p.Written) (hrest : NotRun rest)
    (hpoint : p.fraction = none → rest.head? ≠ some '.') (o : Nat) :
    fraction? ⟨o, p.fractionText ++ rest⟩ = p.fraction.map fun f =>
      ⟨f.filter (· ≠ '_'), f.any (· = '_'), ⟨o + byteLength p.fractionText, rest⟩⟩ := by
  unfold fraction? Spelling.fractionText
  cases hf : p.fraction with
  | none => exact if_neg (by simpa [peek?] using hpoint hf)
  | some f =>
    have hrun := run_append (hp.fraction f hf) hrest (o + '.'.utf8Size)
    rw [if_pos (by simp [peek?])]
    simp [skip_cons, hrun, byteLength, Nat.add_assoc]

/-- The sign and the digits after the mark of an exponent. -/
theorem exponent?_text (hp : p.Written) (hrest : p.Stops rest) (o : Nat) :
    exponent? ⟨o, p.exponentText ++ rest⟩ = p.exponent.map fun e =>
      (e.2.1, ⟨e.2.2.filter (· ≠ '_'), e.2.2.any (· = '_'),
        ⟨o + byteLength p.exponentText, rest⟩⟩) := by
  unfold exponent? Spelling.exponentText
  cases he : p.exponent with
  | none =>
    have hmark := hrest.mark he
    cases hhead : rest.head? with
    | none => simp [peek?, hhead]
    | some c => simpa [peek?, hhead] using hmark
  | some e =>
    obtain ⟨mark, sign, power⟩ := e
    obtain ⟨hmark, hsign, hpower⟩ := hp.exponent _ he
    simp only at hmark hsign hpower
    have hrun := run_append hpower hrest.run (o + mark.utf8Size + byteLength sign)
    have hsignAt : ((sign ++ (power ++ rest)).take 1).filter (fun x => x = '+' || x = '-') =
        sign := by
      rcases hsign with rfl | rfl | rfl
      · have hhead : (power ++ rest).head? ≠ some '+' ∧ (power ++ rest).head? ≠ some '-' := by
          cases power with
          | nil => exact hrest.sign _ he rfl
          | cons x power =>
            have hx := hpower x (mem_cons_self ..)
            constructor
            all_goals
              intro hc
              obtain rfl := Option.some.inj hc
              exact absurd hx (by decide)
        cases hcs : power ++ rest with
        | nil => rfl
        | cons x cs =>
          rw [hcs] at hhead
          simpa using hhead
      · rfl
      · rfl
    rw [if_pos (by rcases hmark with rfl | rfl <;> simp [peek?])]
    simp only [Option.elim_some, cons_append, append_assoc, skip_cons,
      skip_zero, hsignAt, skip_append, hrun, Option.map_some]
    simp [byteLength, byteLength_append, Nat.add_assoc]

/-- A decimal number that is written before something else is read as such. -/
theorem decimal_text (hp : p.Written) (hrest : p.Stops rest) (o : Nat) :
    decimal ⟨o, p.text ++ rest⟩ = lexeme ⟨o, p.text ++ rest⟩ ⟨o + byteLength p.text, rest⟩
      p.literal.toFloat p.flags (if p.lacksDigits then
        [missingDigit ⟨o + byteLength p.text, rest⟩ .digitExpected] else []) := by
  have hexp : NotRun (p.exponentText ++ rest) := by
    unfold Spelling.exponentText
    cases he : p.exponent with
    | none => exact hrest.run
    | some e =>
      intro c hc
      obtain rfl : e.1 = c := by simpa using hc
      rcases (hp.exponent e he).1 with h | h <;> rw [h] <;> decide
  have hdot : p.fraction = none → (p.exponentText ++ rest).head? ≠ some '.' := by
    intro hf
    cases he : p.exponent with
    | none => simpa [Spelling.exponentText, he] using hrest.point ⟨hf, he⟩
    | some e => rcases (hp.exponent e he).1 with h | h <;> simp [Spelling.exponentText, he, h]
  have hwhole : NotRun (p.fractionText ++ (p.exponentText ++ rest)) := by
    cases hf : p.fraction with
    | none => simpa [Spelling.fractionText, hf] using hexp
    | some f =>
      intro c hc
      obtain rfl : '.' = c := by simpa [Spelling.fractionText, hf] using hc
      decide
  have hw := run_append hp.whole hwhole o
  have hf := fraction?_text hp hexp hdot (o + byteLength p.whole)
  have he := exponent?_text hp hrest (o + byteLength p.whole + byteLength p.fractionText)
  have hbefore : (p.fraction.map fun f => (⟨f.filter (· ≠ '_'), f.any (· = '_'),
      ⟨o + byteLength p.whole + byteLength p.fractionText, p.exponentText ++ rest⟩⟩ : Run)).elim
        ⟨o + byteLength p.whole, p.fractionText ++ (p.exponentText ++ rest)⟩ Run.stop =
      ⟨o + byteLength p.whole + byteLength p.fractionText, p.exponentText ++ rest⟩ := by
    cases hf : p.fraction <;> simp [Spelling.fractionText, hf, byteLength]
  have hstop : (p.exponent.map fun e => (e.2.1, (⟨e.2.2.filter (· ≠ '_'), e.2.2.any (· = '_'),
      ⟨o + byteLength p.text, rest⟩⟩ : Run))).elim
        ⟨o + byteLength p.whole + byteLength p.fractionText, p.exponentText ++ rest⟩ (·.2.stop) =
      ⟨o + byteLength p.text, rest⟩ := by
    cases he : p.exponent <;>
      simp [Spelling.text, Spelling.exponentText, he, byteLength_append, Nat.add_assoc, byteLength]
  have hlength : o + byteLength p.whole + byteLength p.fractionText + byteLength p.exponentText =
      o + byteLength p.text := by
    simp [Spelling.text, byteLength_append, Nat.add_assoc]
  have htext : p.text ++ rest = p.whole ++ (p.fractionText ++ (p.exponentText ++ rest)) := by
    simp [Spelling.text]
  rw [hlength] at he
  rw [← htext] at hw
  simp only [decimal, hw, hf, hbefore, he, hstop]
  simp only [Spelling.literal, Spelling.flags, Spelling.lacksDigits, Option.map_map,
    Option.any_map, Option.isSome_map, Function.comp_def]
  rfl

/-- The first part of every text is written as a decimal number. -/
theorem exists_spelling (cs : List Char) :
    ∃ (p : Spelling) (rest : List Char), cs = p.text ++ rest ∧ p.Written ∧ p.Stops rest := by
  obtain ⟨w, t, rfl, -, hw, ht⟩ := exists_takeWhile (fun x => Character.isDigit x || x = '_') cs
  obtain ⟨fraction, t', rfl, hf, hdot, ht'⟩ : ∃ (fraction : Option (List Char)) (t' : List Char),
      t = fraction.elim [] ('.' :: ·) ++ t' ∧ (∀ f ∈ fraction, IsRun f) ∧
        (fraction = none → t'.head? ≠ some '.') ∧ NotRun t' := by
    cases t with
    | nil => exact ⟨none, [], rfl, by simp, by simp, ht⟩
    | cons c t =>
      by_cases hc : c = '.'
      · obtain ⟨f, t', rfl, -, hf, ht'⟩ := exists_takeWhile (fun x => Character.isDigit x || x = '_') t
        exact ⟨some f, t', by rw [hc]; rfl, by rintro _ ⟨⟩; exact hf, by simp, ht'⟩
      · exact ⟨none, c :: t, rfl, by simp, by simpa using hc, ht⟩
  by_cases hmark : ∃ mark t, t' = mark :: t ∧ (mark = 'e' ∨ mark = 'E')
  · obtain ⟨mark, t, rfl, hmark⟩ := hmark
    obtain ⟨sign, t', rfl, hsign, hnone⟩ : ∃ sign t', t = sign ++ t' ∧
        (sign = [] ∨ sign = ['+'] ∨ sign = ['-']) ∧
        (sign = [] → t'.head? ≠ some '+' ∧ t'.head? ≠ some '-') := by
      cases t with
      | nil => exact ⟨[], [], rfl, .inl rfl, by simp⟩
      | cons c t =>
        by_cases hc : c = '+' ∨ c = '-'
        · exact ⟨[c], t, rfl, by simpa using hc, by simp⟩
        · exact ⟨[], c :: t, rfl, .inl rfl, by simpa [not_or] using hc⟩
    obtain ⟨power, rest, rfl, -, hpower, hrest⟩ :=
      exists_takeWhile (fun x => Character.isDigit x || x = '_') t'
    refine ⟨⟨w, fraction, some (mark, sign, power)⟩, rest, by simp [Spelling.text,
      Spelling.fractionText, Spelling.exponentText], ⟨hw, hf, ?_⟩, hrest, ?_, ?_, ?_⟩
    · rintro _ ⟨⟩
      exact ⟨hmark, hsign, hpower⟩
    · exact fun h => by cases h.2
    · exact fun h => by cases h
    · rintro _ ⟨⟩ hempty
      obtain ⟨rfl, rfl⟩ := Prod.mk.inj hempty
      exact hnone rfl
  · refine ⟨⟨w, fraction, none⟩, t', by simp [Spelling.text, Spelling.fractionText,
      Spelling.exponentText], ⟨hw, hf, by simp⟩, ht', fun h => hdot h.1, fun _ => ?_, by simp⟩
    cases t' with
    | nil => simp
    | cons c t' => simpa [not_or] using fun h => hmark ⟨c, t', rfl, h⟩

/-- A number that is reported neither for a missing digit nor for a name after it. -/
theorem ends_of_clean {o : Nat} (hp : p.Written) (hrest : p.Stops rest)
    (hclean : (decimal ⟨o, p.text ++ rest⟩).reports = []) : p.lacksDigits = false ∧ Ends rest := by
  rw [decimal_text hp hrest] at hclean
  obtain ⟨hreports, hstart⟩ := of_lexeme_clean hclean
  constructor
  · by_contra hlacks
    simp [hlacks] at hreports
  · exact fun c hc => ⟨(Bool.or_eq_false_iff.1 (hrest.run c hc)).1, hstart c hc⟩

/-! ## Numbers of every base -/

/-- The text `raw` is taken for the number `x` when `rest` follows. -/
def Settles (raw : List Char) (x : Lexeme) (rest : List Char) : Prop :=
  ∀ o, read ⟨o, raw ++ rest⟩ = { x with stop := ⟨o + byteLength raw, rest⟩ }

/-- The text begins with a number that is found again before the character that follows it there and
before anything that ends it. -/
def Relocates (cs : List Char) : Prop :=
  ∃ raw rest x, cs = raw ++ rest ∧ startsNumber raw = true ∧ x.flags.lineBreakBefore = false ∧
    (∀ rest', rest'.head? = rest.head? → Settles raw x rest') ∧
    ∀ rest', Ends rest' → rest'.head? ≠ some '.' → Settles raw x rest'

theorem settles_lexeme {raw rest : List Char} {number : Float}
    {flags : TokenFlags} (hrest : ∀ c, rest.head? = some c → isNameStart c = false)
    (h : ∀ o, read ⟨o, raw ++ rest⟩ =
      lexeme ⟨o, raw ++ rest⟩ ⟨o + byteLength raw, rest⟩ number flags []) :
    Settles raw { kind := .number, stop := ⟨0, []⟩, value := raw, number, flags } rest := by
  intro o
  rw [h o, lexeme_eq hrest, textTo_append]

theorem isNameStart_of_digitValue? {base : Nat} {c : Char}
    (h : (digitValue? base c).isSome = true) :
    Character.isDigit c = true ∨ isNameStart c = true := by
  by_cases hdigit : Character.isDigit c = true
  · exact .inl hdigit
  · right
    have hletter : isLetter c = true := by
      by_contra hletter
      simp only [isLetter, Bool.or_eq_true, not_or] at hletter
      simp [digitValue?, hdigit, hletter.1, hletter.2] at h
    simp [isNameStart, hletter]

theorem Ends.not_digit {rest : List Char} (h : Ends rest) (base : Nat) :
    ∀ c, rest.head? = some c →
      ((digitValue? base c).isSome || c = '_') = false := by
  intro c hc
  obtain ⟨hdigit, hstart⟩ := h c hc
  rw [Bool.or_eq_false_iff]
  constructor
  · by_contra hsome
    rcases isNameStart_of_digitValue? (Bool.not_eq_false _ ▸ hsome) with h | h
    · exact Bool.false_ne_true (hdigit.symm.trans h)
    · exact Bool.false_ne_true (hstart.symm.trans h)
  · exact (Bool.or_eq_false_iff.1 (h.not_run c hc)).2

/-- The digits after the mark of the base. -/
theorem relocates_marked (base : Nat) (flags : TokenFlags) {o : Nat} {x : Char} {t : List Char}
    (hflags : flags.lineBreakBefore = false)
    (hread : ∀ o cs, read ⟨o, '0' :: x :: cs⟩ = marked base flags ⟨o, '0' :: x :: cs⟩)
    (hclean : (read ⟨o, '0' :: x :: t⟩).reports = []) : Relocates ('0' :: x :: t) := by
  obtain ⟨ds, rest, rfl, hds, hrest, hrun⟩ :=
    exists_run (fun x => (digitValue? base x).isSome) t
  have hskip : ∀ o rest, (⟨o, '0' :: x :: ds ++ rest⟩ : Cursor).skip 2 =
      ⟨o + '0'.utf8Size + x.utf8Size, ds ++ rest⟩ := by
    intro o rest
    simp [skip_cons]
  have hlength : ∀ o, o + '0'.utf8Size + x.utf8Size + byteLength ds =
      o + byteLength ('0' :: x :: ds) := by
    intro o
    simp only [byteLength]
    omega
  have hstop := hrun (o + '0'.utf8Size + x.utf8Size)
  have hcs : '0' :: x :: (ds ++ rest) = '0' :: x :: ds ++ rest := rfl
  rw [hread, hcs, marked, hskip, hstop] at hclean
  obtain ⟨hdigits, hstart⟩ := of_lexeme_clean hclean
  have hsome : (ds.filter (· ≠ '_')).isEmpty = false := by
    by_contra h
    rw [if_pos (by simpa using h)] at hdigits
    cases hdigits
  have hmarked : ∀ o rest', (∀ c, rest'.head? = some c →
      ((digitValue? base c).isSome || c = '_') = false) →
      read ⟨o, '0' :: x :: ds ++ rest'⟩ =
        lexeme ⟨o, '0' :: x :: ds ++ rest'⟩ ⟨o + byteLength ('0' :: x :: ds), rest'⟩
          (floatOfDigits base (ds.filter (· ≠ '_')))
          { flags with separated := ds.any (· = '_') } [] := by
    intro o rest' hrest'
    rw [cons_append, cons_append, hread, ← cons_append, ← cons_append]
    simp only [marked, hskip, run_append hds hrest', hsome, Bool.false_eq_true, ↓reduceIte,
      hlength]
  refine ⟨'0' :: x :: ds, rest,
    { kind := .number, stop := ⟨0, []⟩, value := '0' :: x :: ds
      number := floatOfDigits base (ds.filter (· ≠ '_'))
      flags := { flags with separated := ds.any (· = '_') } },
    hcs, rfl, hflags, fun rest' hhead => ?_, fun rest' hends _ => ?_⟩
  · rw [← hhead] at hstart hrest
    exact settles_lexeme hstart fun o => hmarked o rest' hrest
  · exact settles_lexeme (fun c hc => (hends c hc).2) fun o => hmarked o rest' (hends.not_digit base)

/-- No mark of a base and no base eight after a leading zero. -/
def isPlain : List Char → Bool
  | '0' :: x :: cs =>
    !(x = 'x' || x = 'X') && !(x = 'b' || x = 'B') && !(x = 'o' || x = 'O') &&
      (((x :: cs).takeWhile Character.isDigit).isEmpty ||
        ((x :: cs).takeWhile Character.isDigit).any fun d => '7' < d)
  | _ => true

theorem legacyOctal?_zero (o : Nat) (cs : List Char) :
    legacyOctal? ⟨o, '0' :: cs⟩ =
      if (cs.takeWhile Character.isDigit).isEmpty ||
          (cs.takeWhile Character.isDigit).any (fun d => '7' < d) then none
      else some (cs.takeWhile Character.isDigit) := by
  simp only [legacyOctal?, skip_cons, skip_zero]

/-- The digits after a leading zero. -/
theorem relocates_octal {o : Nat} {x : Char} {t : List Char} (h16 : ¬(x = 'x' || x = 'X') = true)
    (h2 : ¬(x = 'b' || x = 'B') = true) (h8 : ¬(x = 'o' || x = 'O') = true)
    (hoctal : (((x :: t).takeWhile Character.isDigit).isEmpty ||
      ((x :: t).takeWhile Character.isDigit).any fun d => '7' < d) = false)
    (hclean : (read ⟨o, '0' :: x :: t⟩).reports = []) : Relocates ('0' :: x :: t) := by
  obtain ⟨ds, rest, hcs, hdigits, hds, hrest⟩ := exists_takeWhile Character.isDigit (x :: t)
  rw [hdigits] at hoctal
  obtain ⟨ds, rfl⟩ : ∃ ds', ds = x :: ds' := by
    cases ds with
    | nil => simp at hoctal
    | cons y ds =>
      obtain ⟨rfl, -⟩ := List.cons.inj hcs
      exact ⟨ds, rfl⟩
  have hread : ∀ o rest', (∀ c, rest'.head? = some c → Character.isDigit c = false) →
      read ⟨o, '0' :: x :: ds ++ rest'⟩ =
        lexeme ⟨o, '0' :: x :: ds ++ rest'⟩ ⟨o + byteLength ('0' :: x :: ds), rest'⟩
          (floatOfDigits 8 (x :: ds)) { octal := true } [] := by
    intro o rest' hrest'
    have htake : (x :: (ds ++ rest')).takeWhile Character.isDigit = x :: ds :=
      takeWhile_append_all hds hrest'
    have hskip : (⟨o, '0' :: x :: (ds ++ rest')⟩ : Cursor).skip ((x :: ds).length + 1) =
        ⟨o + byteLength ('0' :: x :: ds), rest'⟩ :=
      skip_append o ('0' :: x :: ds) rest'
    simp only [cons_append, read, h16, h2, h8, Bool.false_eq_true, ↓reduceIte,
      legacyOctal?_zero, htake, hoctal, hskip]
  rw [hcs, ← cons_append, hread o rest hrest] at hclean
  obtain ⟨-, hstart⟩ := of_lexeme_clean hclean
  refine ⟨'0' :: x :: ds, rest,
    { kind := .number, stop := ⟨0, []⟩, value := '0' :: x :: ds
      number := floatOfDigits 8 (x :: ds), flags := { octal := true } },
    by rw [hcs]; rfl, rfl, rfl, fun rest' hhead => ?_, fun rest' hends _ => ?_⟩
  · rw [← hhead] at hstart hrest
    exact settles_lexeme hstart fun o => hread o rest' hrest
  · exact settles_lexeme (fun c hc => (hends c hc).2) fun o =>
      hread o rest' fun c hc => (hends c hc).1

theorem read_of_isPlain {cs : List Char} (h : isPlain cs = true) (o : Nat) :
    read ⟨o, cs⟩ = decimal ⟨o, cs⟩ := by
  unfold isPlain at h
  split at h
  · rename_i x t
    simp only [Bool.and_eq_true, Bool.not_eq_true'] at h
    obtain ⟨⟨⟨h16, h2⟩, h8⟩, hoctal⟩ := h
    simp only [read, h16, h2, h8, Bool.false_eq_true, ↓reduceIte, legacyOctal?_zero, hoctal]
  · rename_i hne
    unfold read
    split
    · rename_i x t hrest
      exact absurd hrest (hne x t)
    · rfl

/-- Whether a decimal number is plain shows in its text. -/
theorem isPlain_append {raw rest rest' : List Char} (hraw : startsNumber raw = true)
    (hrest : Ends rest) (hrest' : Ends rest') (h : isPlain (raw ++ rest) = true) :
    isPlain (raw ++ rest') = true := by
  have hdigit : ∀ {b : List Char}, Ends b → ∀ c, b.head? = some c → Character.isDigit c = false :=
    fun hb c hc => (hb c hc).1
  match raw, hraw with
  | [c], _ =>
    by_cases hc : c = '0'
    · subst hc
      cases rest' with
      | nil => rfl
      | cons d t =>
        obtain ⟨hd, hstart⟩ := hrest' d rfl
        have hne : ∀ x : Char, isNameStart x = true → d ≠ x := by
          rintro x hx rfl
          exact Bool.false_ne_true (hstart.symm.trans hx)
        simp [isPlain, hd, hne 'x' (by decide), hne 'X' (by decide), hne 'b' (by decide),
          hne 'B' (by decide), hne 'o' (by decide), hne 'O' (by decide)]
    · unfold isPlain
      split
      · simp_all
      · rfl
  | c :: x :: t, _ =>
    by_cases hc : c = '0'
    · subst hc
      have hsame : ∀ {b : List Char}, Ends b → (x :: (t ++ b)).takeWhile Character.isDigit =
          (x :: t).takeWhile Character.isDigit :=
        fun {b} hb => takeWhile_append_left (x :: t) (hdigit hb)
      simp only [cons_append, isPlain, hsame hrest, hsame hrest'] at h ⊢
      exact h
    · unfold isPlain
      split
      · simp_all
      · rfl

theorem startsNumber_cons (c : Char) (cs : List Char) : startsNumber (c :: cs) =
    (Character.isDigit c || (c = '.' && cs.head?.any Character.isDigit)) := by
  by_cases hc : c = '.'
  · subst hc
    cases cs with
    | nil => rfl
    | cons d cs => simp [startsNumber, show Character.isDigit '.' = false by decide]
  · simp [startsNumber, hc]

theorem startsNumber_append {raw : List Char} (h : startsNumber raw = true)
    (rest : List Char) : startsNumber (raw ++ rest) = true := by
  match raw, h with
  | c :: cs, h =>
    rw [startsNumber_cons, Bool.or_eq_true, Bool.and_eq_true] at h
    rw [cons_append, startsNumber_cons, Bool.or_eq_true, Bool.and_eq_true]
    refine h.imp_right fun h => ⟨h.1, ?_⟩
    cases cs with
    | nil => simp at h
    | cons d cs => exact h.2

/-- A decimal number starts with a digit, or with a point and a digit. -/
theorem Spelling.startsNumber_text (h : startsNumber (p.text ++ rest) = true)
    (hrest : p.Stops rest) : startsNumber p.text = true := by
  have hdigit {c : Char} (hc : rest.head? = some c) : Character.isDigit c = false :=
    (Bool.or_eq_false_iff.1 (hrest.run c hc)).1
  cases ht : p.text with
  | nil =>
    have hparts : p.TakesPoint := by
      simp only [text, fractionText, exponentText, append_eq_nil_iff] at ht
      constructor
      · cases hf : p.fraction with
        | none => rfl
        | some f => simp [hf] at ht
      · cases he : p.exponent with
        | none => rfl
        | some e => simp [he] at ht
    cases rest with
    | nil => simp [ht, startsNumber] at h
    | cons c rest =>
      rw [ht, nil_append, startsNumber_cons, hdigit rfl] at h
      rw [Bool.false_or, Bool.and_eq_true, decide_eq_true_eq] at h
      exact absurd (congrArg some h.1) (hrest.point hparts)
  | cons c cs =>
    rw [ht, cons_append, startsNumber_cons, Bool.or_eq_true, Bool.and_eq_true] at h
    rw [startsNumber_cons, Bool.or_eq_true, Bool.and_eq_true]
    refine h.imp_right fun h => ⟨h.1, ?_⟩
    cases cs with
    | nil =>
      -- The digit after the point would have been taken.
      cases rest with
      | nil => simp at h
      | cons d rest => simp [hdigit rfl] at h
    | cons d cs => exact h.2

theorem relocates_decimal {o : Nat} {cs : List Char} (hstart : startsNumber cs = true)
    (hplain : isPlain cs = true) (hclean : (decimal ⟨o, cs⟩).reports = []) :
    Relocates cs := by
  obtain ⟨p, rest, rfl, hp, hrest⟩ := exists_spelling cs
  obtain ⟨hdigits, hends⟩ := ends_of_clean hp hrest hclean
  have htext := Spelling.startsNumber_text hstart hrest
  have hsettles {rest' : List Char} (hends' : Ends rest') (hdot : p.TakesPoint → rest'.head? ≠ some '.') :
      Settles p.text { kind := .number, stop := ⟨0, []⟩, value := p.text
                       number := p.literal.toFloat, flags := p.flags } rest' := by
    refine settles_lexeme (fun c hc => (hends' c hc).2) fun o => ?_
    rw [read_of_isPlain (isPlain_append htext hends hends' hplain),
      decimal_text hp (hends'.stops hdigits hdot)]
    simp [hdigits]
  refine ⟨p.text, rest, { kind := .number, stop := ⟨0, []⟩, value := p.text
                          number := p.literal.toFloat, flags := p.flags },
    rfl, htext, rfl, fun rest' hhead => ?_, fun rest' hends' hdot => ?_⟩
  · exact hsettles (fun c hc => hends c (hhead ▸ hc)) (hhead ▸ hrest.point)
  · exact hsettles hends' fun _ => hdot

/-- A number that was read without a fault is found again. -/
theorem relocates_read {o : Nat} {cs : List Char} (hstart : startsNumber cs = true)
    (hclean : (read ⟨o, cs⟩).reports = []) : Relocates cs := by
  by_cases hplain : isPlain cs = true
  · rw [read_of_isPlain hplain] at hclean
    exact relocates_decimal hstart hplain hclean
  · unfold isPlain at hplain
    split at hplain
    case h_2 => exact absurd rfl hplain
    rename_i x t
    by_cases h16 : (x = 'x' || x = 'X') = true
    · exact relocates_marked 16 { hexMarked := true } rfl
        (fun o cs => by simp only [read, h16, ↓reduceIte]) hclean
    by_cases h2 : (x = 'b' || x = 'B') = true
    · exact relocates_marked 2 { binaryMarked := true } rfl
        (fun o cs => by simp only [read, h16, h2, Bool.false_eq_true, ↓reduceIte]) hclean
    by_cases h8 : (x = 'o' || x = 'O') = true
    · exact relocates_marked 8 { octalMarked := true } rfl
        (fun o cs => by simp only [read, h16, h2, h8, Bool.false_eq_true, ↓reduceIte]) hclean
    refine relocates_octal h16 h2 h8 ?_ hclean
    simpa only [h16, h2, h8, Bool.not_false, Bool.true_and, Bool.not_eq_true] using hplain

end Number

/-- A text that is read as a number. -/
structure IsNumber (raw : String) : Prop where
  start : startsNumber raw.toList = true
  read : ∀ o rest, Delimits rest → (Lexeme.read ⟨o, raw.toList ++ rest⟩).Is .number
    ⟨o + byteLength raw.toList, rest⟩
  number : ∀ o rest, Delimits rest →
    (Lexeme.read ⟨o, raw.toList ++ rest⟩).number = numberSpelled raw

namespace Number

theorem read_eq_number {cs : List Char} (h : startsNumber cs = true) (o : Nat) :
    Lexeme.read ⟨o, cs⟩ = read ⟨o, cs⟩ := by
  cases cs with
  | nil => simp [startsNumber] at h
  | cons c cs =>
    have hne : ∀ x, startsNumber (x :: cs) = false → c ≠ x := by
      rintro x hx rfl
      exact Bool.false_ne_true (hx.symm.trans h)
    have hquote : (c = '\x27' || c = '\x22') = false := by
      simp only [Bool.or_eq_false_iff, decide_eq_false_iff_not]
      exact ⟨hne _ (by rw [startsNumber_cons]; rfl), hne _ (by rw [startsNumber_cons]; rfl)⟩
    have htemplate : ¬c = '\x60' := hne _ (by rw [startsNumber_cons]; rfl)
    simp only [Lexeme.read, hquote, Bool.false_eq_true, ↓reduceIte, htemplate, h]

/-- A number that was read without a fault has a text that is read as that number. -/
theorem isNumber_of_read {c : Cursor} (hkind : (Lexeme.read c).kind = .number)
    (hclean : (Lexeme.read c).reports = []) :
    IsNumber (String.ofList (c.textTo (Lexeme.read c).stop)) ∧
      (Lexeme.read c).number = numberSpelled (String.ofList (c.textTo (Lexeme.read c).stop)) := by
  obtain ⟨hstart, heq⟩ := read_of_number hkind
  obtain ⟨o, cs⟩ := c
  rw [heq] at hclean
  obtain ⟨raw, rest, x, rfl, hraw, hbreak, hrest, hmoved⟩ := relocates_read hstart hclean
  have hread := hrest rest rfl o
  have hxkind : x.kind = .number := by
    have := kind_read ⟨o, raw ++ rest⟩
    rwa [hread] at this
  have htext : (⟨o, raw ++ rest⟩ : Cursor).textTo (Lexeme.read ⟨o, raw ++ rest⟩).stop = raw := by
    rw [heq, hread, textTo_append]
  have hagain : ∀ o rest', Delimits rest' →
      Lexeme.read ⟨o, (String.ofList raw).toList ++ rest'⟩ =
        { x with stop := ⟨o + byteLength raw, rest'⟩ } := by
    intro o rest' hdelimits
    have hdot : rest'.head? ≠ some '.' := fun h => absurd (hdelimits '.' h) (by decide)
    rw [String.toList_ofList, read_eq_number (startsNumber_append hraw rest')]
    exact hmoved rest' (ends_of_delimits hdelimits) hdot o
  have hspelled : numberSpelled (String.ofList raw) = x.number := by
    have := hagain 0 [] delimits_nil
    rw [append_nil] at this
    rw [numberSpelled, ofText, this]
  rw [htext]
  refine ⟨⟨by rwa [String.toList_ofList], ?_, ?_⟩, by rw [hspelled, heq, hread]⟩
  · intro o rest' hdelimits
    rw [hagain o rest' hdelimits]
    refine ⟨hxkind, by simp, ?_, hbreak⟩
    rwa [hread] at hclean
  · intro o rest' hdelimits
    rw [hagain o rest' hdelimits, hspelled]

end Number

end LambdaLift
