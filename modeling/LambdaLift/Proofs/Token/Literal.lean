import LambdaLift.Proofs.Numeral.Decimal
import LambdaLift.Proofs.Token.Number

/-!
# What decimal literals denote

A decimal literal is rewritten as a numeral before its number is taken. The numeral denotes the same
number as the literal without its underscores, where parts that are left out are zero.

* `Number.Spelling.value`: the number that a literal denotes, part by part.
* `Number.Spelling.exists_numeral`: the rewritten literal is a numeral for that number.
* `Number.decimal_literal_denotes`: the number of a token is the double nearest to it.
-/

namespace LambdaLift.Number

open List

open Decimal (natOfDigits signText Digits Numeral isDigits_zero)
open DecimalLiteral (fillWhole fillFraction dropPoints)

/-! ## The rewritten text -/

theorem fillFraction_append {a : List Char} (ha : '.' ∉ a) (cs : List Char) :
    fillFraction (a ++ cs) = a ++ fillFraction cs := by
  induction a with
  | nil => rfl
  | cons c a ih =>
    obtain ⟨hc, ha⟩ := not_or.1 (mt mem_cons.2 ha)
    simp [fillFraction, Ne.symm hc, ih ha]

theorem fillFraction_of_not_mem {cs : List Char} (h : '.' ∉ cs) : fillFraction cs = cs := by
  simpa [fillFraction] using fillFraction_append h []

theorem dropPoints_append {b : List Char} (hb : b ≠ []) (h : '.' ∉ b) (a : List Char) :
    dropPoints (a ++ b) = a ++ b := by
  obtain ⟨b, d, rfl⟩ := eq_nil_or_concat b |>.resolve_left hb
  have hd : d ≠ '.' := by
    rintro rfl
    simp at h
  simp [dropPoints, hd]

theorem dropPoints_point (a : List Char) : dropPoints (a ++ ['.']) = dropPoints a := by
  simp [dropPoints]

namespace Spelling

/-- The digits of a run. -/
abbrev digits (run : List Char) : List Char :=
  run.filter (· ≠ '_')

/-- The digits after the point. -/
def fractionDigits (p : Spelling) : List Char :=
  digits (p.fraction.getD [])

/-- The exponent; zero without digits. -/
def power (p : Spelling) : ℤ :=
  p.exponent.elim 0 fun e =>
    if e.2.1 = ['-'] then -natOfDigits (digits e.2.2) else natOfDigits (digits e.2.2)

/-- The number that the literal denotes. Parts without digits are zero. -/
def value (p : Spelling) : ℚ :=
  (natOfDigits (digits p.whole) + natOfDigits p.fractionDigits / 10 ^ p.fractionDigits.length) *
    10 ^ p.power

end Spelling

variable {p : Spelling} {rest : List Char}

theorem IsRun.digits {run : List Char} (h : IsRun run) :
    ∀ c ∈ Spelling.digits run, Character.isDigit c = true := by
  intro c hc
  obtain ⟨hmem, hne⟩ := mem_filter.1 hc
  simpa [of_decide_eq_true hne] using h c hmem

theorem point_not_mem {ds : List Char} (h : ∀ c ∈ ds, Character.isDigit c = true) : '.' ∉ ds :=
  fun hmem => absurd (h _ hmem) (by decide)

/-- The exponent of a literal, with a zero for digits that are left out. -/
theorem Spelling.Written.exists_exponent (hp : p.Written) :
    ∃ exponent : Option (Option Bool × Digits), Numeral.power exponent = p.power ∧
      (p.literal.exponent.elim [] fun e => 'e' :: (e.1 ++ e.2)) = Numeral.exponentText exponent := by
  unfold Spelling.power Spelling.literal
  rcases he : p.exponent with _ | ⟨mark, sign, run⟩
  · exact ⟨none, rfl, rfl⟩
  · obtain ⟨-, hsign, hrun⟩ := hp.exponent _ he
    obtain ⟨ds, hvalue, htext⟩ : ∃ ds : Digits, natOfDigits ds.1 = natOfDigits (digits run) ∧
        ds.1 = if (digits run).isEmpty then ['0'] else digits run := by
      by_cases hempty : digits run = []
      · exact ⟨⟨['0'], isDigits_zero⟩, by rw [hempty]; rfl, by rw [hempty]; rfl⟩
      · exact ⟨⟨digits run, hempty, hrun.digits⟩, rfl, by simp [hempty]⟩
    obtain ⟨sign, rfl, hnegative⟩ : ∃ s : Option Bool, signText s = sign ∧
        (s = some true ↔ sign = ['-']) := by
      rcases hsign with rfl | rfl | rfl
      exacts [⟨none, rfl, by decide⟩, ⟨some false, rfl, by decide⟩, ⟨some true, rfl, by decide⟩]
    refine ⟨some (sign, ds), ?_, congrArg (fun ds => 'e' :: (signText sign ++ ds)) htext.symm⟩
    simp [Numeral.power, hvalue, hnegative]

/-- An exponent has no point. -/
theorem point_not_mem_exponent (exponent : Option (Option Bool × Digits)) :
    '.' ∉ Numeral.exponentText exponent := by
  rcases exponent with _ | ⟨sign, ds⟩
  · simp [Numeral.exponentText]
  · have hds := point_not_mem ds.2.2
    rcases sign with _ | _ | _ <;> simpa [Numeral.exponentText, signText] using hds

/-- A zero before a point at the start. -/
theorem exists_whole {w : List Char} (hw : ∀ c ∈ w, Character.isDigit c = true) :
    ∃ whole : Digits, natOfDigits whole.1 = natOfDigits w ∧
      ∀ cs, fillWhole (w ++ '.' :: cs) = whole.1 ++ '.' :: cs := by
  rcases w with _ | ⟨c, w⟩
  · exact ⟨⟨['0'], isDigits_zero⟩, rfl, fun cs => rfl⟩
  · have hc : c ≠ '.' := fun hc => absurd (hw c (mem_cons_self ..)) (hc ▸ by decide)
    exact ⟨⟨c :: w, by simp, hw⟩, rfl, fun cs => by simp [fillWhole, hc]⟩

/-- A rewritten literal is a numeral for the number that the literal denotes. -/
theorem Spelling.Written.exists_numeral (hp : p.Written)
    (hdigits : p.fraction = none → Spelling.digits p.whole ≠ []) :
    ∃ n : Numeral, p.literal.normal = n.text ∧ n.value = p.value := by
  obtain ⟨exponent, hpower, htext⟩ := hp.exists_exponent
  have hw := hp.whole.digits
  have hepoint := point_not_mem_exponent exponent
  have hnormal : p.literal.normal = dropPoints (fillFraction (fillWhole (digits p.whole ++
      (p.fraction.map digits).elim [] ('.' :: ·) ++ Numeral.exponentText exponent))) := by
    rw [← htext]
    rfl
  rw [hnormal, Spelling.value, ← hpower]
  unfold Spelling.fractionDigits
  clear hnormal
  generalize digits p.whole = w at hdigits hw ⊢
  rcases hfraction : p.fraction with _ | f
  · -- There is no point, and nothing is rewritten.
    have hne := hdigits hfraction
    have hall : '.' ∉ w ++ Numeral.exponentText exponent := by simp [point_not_mem hw, hepoint]
    refine ⟨⟨⟨w, hne, hw⟩, none, exponent⟩, ?_, rfl⟩
    have hfill : fillWhole (w ++ Numeral.exponentText exponent) =
        w ++ Numeral.exponentText exponent := by
      unfold fillWhole
      split
      · next h => simp [h] at hall
      · rfl
    simp only [Option.map_none, Option.elim_none, append_nil, Numeral.text, nil_append]
    rw [hfill, fillFraction_of_not_mem hall]
    exact dropPoints_append (by simp [hne]) hall []
  · obtain ⟨whole, hvalue, hfill⟩ := exists_whole hw
    have hf := (hp.fraction f hfraction).digits
    simp only [Option.map_some, Option.elim_some, Option.getD_some, append_assoc,
      cons_append]
    rw [hfill, fillFraction_append (point_not_mem whole.2.2)]
    rcases hds : digits f with _ | ⟨d, ds⟩
    · rcases exponent with _ | ⟨sign, power⟩
      · -- The point stands at the end.
        refine ⟨⟨whole, none, none⟩, ?_, by simp [Numeral.value, Numeral.fractionDigits, hvalue]⟩
        change dropPoints (whole.1 ++ ['.']) = _
        rw [dropPoints_point]
        simpa [Numeral.text, Numeral.exponentText] using
          dropPoints_append whole.2.1 (point_not_mem whole.2.2) []
      · -- The point stands before an exponent.
        refine ⟨⟨whole, some ⟨['0'], isDigits_zero⟩, some (sign, power)⟩, ?_, ?_⟩
        · have hzero : '.' ∉ '0' :: Numeral.exponentText (some (sign, power)) := by simp [hepoint]
          have := dropPoints_append (by simp) hzero (whole.1 ++ ['.'])
          have hrest : '.' ∉ signText sign ++ power.1 := fun h => hepoint (mem_cons_of_mem _ h)
          simpa [Numeral.text, Numeral.exponentText, fillFraction,
            fillFraction_of_not_mem hrest] using this
        · have hzero : natOfDigits ['0'] = 0 := rfl
          have hnil : natOfDigits [] = 0 := rfl
          simp [Numeral.value, Numeral.fractionDigits, hvalue, hzero, hnil]
    · rw [hds] at hf
      have hd : d ≠ 'e' := by
        rintro rfl
        exact absurd (hf 'e' (mem_cons_self ..)) (by decide)
      refine ⟨⟨whole, some ⟨d :: ds, by simp, hf⟩, exponent⟩, ?_, ?_⟩
      · have hrest : '.' ∉ d :: ds ++ Numeral.exponentText exponent := by
          simpa [hepoint] using point_not_mem hf
        have hpoint (cs : List Char) :
            fillFraction ('.' :: d :: cs) = '.' :: fillFraction (d :: cs) := by
          rw [fillFraction]
          simpa using hd
        rw [cons_append, hpoint, ← cons_append, fillFraction_of_not_mem hrest]
        simpa [Numeral.text] using dropPoints_append (by simp) hrest (whole.1 ++ ['.'])
      · simp [Numeral.value, Numeral.fractionDigits, hvalue]

/-- Without a point the whole part has digits. -/
theorem Spelling.Written.digits_ne_nil (hp : p.Written)
    (hstart : Lexeme.startsNumber p.text = true) (hfraction : p.fraction = none) :
    Spelling.digits p.whole ≠ [] := by
  simp only [text, fractionText, hfraction, Option.elim_none, nil_append] at hstart
  rcases hwhole : p.whole with _ | ⟨c, w⟩
  · rw [hwhole, nil_append, exponentText] at hstart
    rcases he : p.exponent with _ | e
    · simp [he, Lexeme.startsNumber] at hstart
    · rw [he] at hstart
      rcases (hp.exponent e he).1 with h | h <;>
        simp [startsNumber_cons, h, Character.isDigit] at hstart
  · have hrun := hp.whole c (hwhole ▸ mem_cons_self ..)
    rw [hwhole, cons_append, startsNumber_cons] at hstart
    have hne : c ≠ '_' := by
      rintro rfl
      exact absurd hstart (by simp [Character.isDigit])
    simp [hne]

/-- **Decimal literals.** Where a number starts that is neither marked nor in base eight, its parts
are taken as far as they go. They are rewritten as a numeral that denotes the same number, so that
the number of the token is the double nearest to it. Digits that an exponent lacks are reported. -/
theorem decimal_literal_denotes {cs : List Char} (hstart : Lexeme.startsNumber cs = true)
    (hplain : isPlain cs = true) (o : Nat) :
    ∃ (p : Spelling) (rest : List Char) (n : Numeral), cs = p.text ++ rest ∧ p.Written ∧
      p.Stops rest ∧ p.literal.normal = n.text ∧ n.value = p.value ∧
      (Decimal.read? p.literal.normal).isSome ∧
      Lexeme.read ⟨o, cs⟩ = lexeme ⟨o, cs⟩ ⟨o + byteLength p.text, rest⟩ p.literal.toFloat p.flags
        (if p.lacksDigits then [missingDigit ⟨o + byteLength p.text, rest⟩ .digitExpected] else []) ∧
      Binary64.IsNearest false p.value (Lexeme.read ⟨o, cs⟩).number := by
  obtain ⟨p, rest, rfl, hp, hrest⟩ := exists_spelling cs
  have hdigits := hp.digits_ne_nil (Spelling.startsNumber_text hstart hrest)
  obtain ⟨n, htext, hvalue⟩ := hp.exists_numeral hdigits
  have hread := Decimal.read?_text none n
  rw [show signText none ++ n.text = p.literal.normal from htext.symm] at hread
  have hlexeme : Lexeme.read ⟨o, p.text ++ rest⟩ = _ :=
    (read_eq_number hstart o).trans ((read_of_isPlain hplain o).trans (decimal_text hp hrest o))
  refine ⟨p, rest, n, rfl, hp, hrest, htext, hvalue, by rw [hread]; rfl, hlexeme, ?_⟩
  rw [hlexeme, ← hvalue]
  change Binary64.IsNearest false n.value p.literal.toFloat
  rw [DecimalLiteral.toFloat, hread, Numeral.value, ← Decimal.magnitude_ofParts]
  exact Decimal.isNearest_toFloat _

/-- An eight after a leading zero, a separator, a point without digits after it and an exponent
without digits. -/
theorem decimal_literal_denotes_gaps :
    Lexeme.startsNumber "08_1.e+_;".toList = true ∧ isPlain "08_1.e+_;".toList = true ∧
      ∃ (p : Spelling) (rest : List Char) (n : Numeral), "08_1.e+_;".toList = p.text ++ rest ∧
        p.Written ∧ p.Stops rest ∧ p.literal.normal = n.text ∧ n.value = p.value ∧
        (Decimal.read? p.literal.normal).isSome ∧
        Lexeme.read ⟨0, "08_1.e+_;".toList⟩ = lexeme ⟨0, "08_1.e+_;".toList⟩
          ⟨0 + byteLength p.text, rest⟩ p.literal.toFloat p.flags (if p.lacksDigits then
            [missingDigit ⟨0 + byteLength p.text, rest⟩ .digitExpected] else []) ∧
        Binary64.IsNearest false p.value (Lexeme.read ⟨0, "08_1.e+_;".toList⟩).number :=
  ⟨by decide, by decide, decimal_literal_denotes (by decide) (by decide) 0⟩

end LambdaLift.Number
