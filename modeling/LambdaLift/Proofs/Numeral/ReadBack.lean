import LambdaLift.Proofs.Numeral.Shortest
import LambdaLift.Value.Basic

/-!
# Numbers as text and back

* `Shortest.Layout`: the shapes of a number as text, with exact counts.
* `Shortest.Layout.exists_numeral`: each shape is a numeral for the number that its digits stand for.
* `Conversion.ofText_numeral`: a string that is a numeral converts to the number that it denotes.
* `Value.number_text_reads_back`: the text of a number converts back to it.
-/

namespace LambdaLift

open List

open Decimal (natOfDigits signText Digits Numeral isDigits_zero)

/-! ## Layout -/

namespace Shortest

/-- The texts of `ds` with the point after the first digit, times `10 ^ e`: filled up with zeros,
split at the point, after leading zeros, or with an exponent that has a sign. -/
inductive Layout (ds : List Char) (e : ℤ) : List Char → Prop
  | whole (z : ℕ) (hcount : e + 1 = ds.length + z) (hle : e ≤ 20) : Layout ds e (ds ++ zeros z)
  | split (a b : List Char) (hds : ds = a ++ b) (ha : a ≠ []) (hb : b ≠ [])
      (hcount : e + 1 = a.length) (hle : e ≤ 20) : Layout ds e (a ++ '.' :: b)
  | small (z : ℕ) (hcount : e + 1 = -z) (hle : -6 ≤ e) :
      Layout ds e ('0' :: '.' :: (zeros z ++ ds))
  | scientific (first : Char) (rest : List Char) (hds : ds = first :: rest)
      (hout : e < -6 ∨ 20 < e) : Layout ds e (first :: (if rest = [] then [] else '.' :: rest) ++
        'e' :: (if e < 0 then '-' else '+') :: Nat.toDigits 10 e.natAbs)

theorem layout_numeral {d : Shortest.Digits} (hne : d.digits ≠ []) :
    Layout d.digits d.exponent (numeral d) := by
  have hpos := length_pos_iff.2 hne
  unfold numeral
  simp only [Bool.and_eq_true, decide_eq_true_eq]
  split
  · next h => exact .whole _ (by omega) (by omega)
  split
  · next hcount h =>
    have hlt : (d.exponent + 1).toNat < d.digits.length := by omega
    refine .split _ _ (take_append_drop ..).symm ?_ ?_ ?_ (by omega)
    · refine ne_nil_of_length_pos ?_
      rw [length_take_of_le hlt.le]
      omega
    · simpa using hlt
    · rw [length_take_of_le hlt.le]
      omega
  split
  · next h => exact .small _ (by omega) (by omega)
  · next hcount hsplit hsmall =>
    have hout : d.exponent < -6 ∨ 20 < d.exponent := by omega
    obtain ⟨ds, e⟩ := d
    match ds, hne with
    | [first], _ => exact .scientific first [] rfl hout
    | first :: second :: rest, _ => exact .scientific first (second :: rest) rfl hout

theorem isDigit_of_mem_zeros {z : ℕ} : ∀ c ∈ zeros z, Character.isDigit c = true := by
  intro c hc
  rw [eq_of_mem_replicate hc]
  rfl

/-- Each shape is a numeral for the number, plain in the middle and with a signed exponent
outside. -/
theorem Layout.exists_numeral {ds t : List Char} {e : ℤ} (hne : ds ≠ [])
    (hds : ∀ c ∈ ds, Character.isDigit c = true) (h : Layout ds e t) : ∃ n : Numeral, t = n.text ∧
      n.value = natOfDigits ds * 10 ^ (e + 1 - ds.length) ∧
      (n.exponent = none ↔ -6 ≤ e ∧ e ≤ 20) ∧ ∀ x ∈ n.exponent, x.1 = some (decide (e < 0)) := by
  cases h with
  | whole z hcount hle =>
    refine ⟨⟨⟨ds ++ zeros z, by simp [hne], forall_mem_append.2 ⟨hds, isDigit_of_mem_zeros⟩⟩, none,
      none⟩, ?_, ?_, ?_, by simp⟩
    · simp [Numeral.text, Numeral.exponentText]
    · rw [Numeral.value_eq, show e + 1 - ds.length = z by omega]
      simp [Numeral.fractionDigits, Numeral.power, Decimal.natOfDigits_append]
    · simp only [true_iff]
      omega
  | split a b hsplit ha hb hcount hle =>
    subst hsplit
    obtain ⟨hads, hbds⟩ := forall_mem_append.1 hds
    refine ⟨⟨⟨a, ha, hads⟩, some ⟨b, hb, hbds⟩, none⟩, ?_, ?_, ?_, by simp⟩
    · simp [Numeral.text, Numeral.exponentText]
    · rw [Numeral.value_eq, length_append, hcount]
      simp [Numeral.fractionDigits, Numeral.power]
    · simp only [true_iff]
      have := length_pos_iff.2 ha
      omega
  | small z hcount hle =>
    refine ⟨⟨⟨['0'], isDigits_zero⟩, some ⟨zeros z ++ ds, by simp [hne],
      forall_mem_append.2 ⟨isDigit_of_mem_zeros, hds⟩⟩, none⟩, ?_, ?_, ?_, by simp⟩
    · simp [Numeral.text, Numeral.exponentText]
    · have hzero : natOfDigits ['0'] = 0 := rfl
      have hleading : natOfDigits (['0'] ++ (zeros z ++ ds)) = natOfDigits ds := by
        simp only [Decimal.natOfDigits_append, natOfDigits_zeros, hzero, Nat.zero_mul, Nat.zero_add]
      rw [Numeral.value_eq]
      change (natOfDigits (['0'] ++ (zeros z ++ ds)) : ℚ) * 10 ^ (0 - ((zeros z ++ ds).length : ℤ)) = _
      rw [hleading, hcount, length_append, length_zeros]
      congr 2
      push_cast
      ring
    · simp only [true_iff]
      omega
  | scientific first rest hcons hout =>
    subst hcons
    obtain ⟨hfirst, hrest⟩ := forall_mem_cons.1 hds
    let exponent : Decimal.Digits :=
      ⟨Nat.toDigits 10 e.natAbs, ne_nil_of_length_pos Nat.length_toDigits_pos,
        fun _ => Decimal.isDigit_of_mem_toDigits⟩
    have hpower : Numeral.power (some (some (decide (e < 0)), exponent)) = e := by
      simp only [Numeral.power, Option.elim_some, exponent, Decimal.natOfDigits_toDigits]
      rcases lt_or_ge e 0 with hneg | hneg
      · rw [if_pos (by simp [hneg])]
        omega
      · rw [if_neg (by simp [hneg])]
        omega
    refine ⟨⟨⟨[first], by simp, by simpa using hfirst⟩,
      if h : rest = [] then none else some ⟨rest, h, hrest⟩,
      some (some (decide (e < 0)), exponent)⟩, ?_, ?_, ?_, ?_⟩
    · by_cases hempty : rest = [] <;>
        simp [Numeral.text, Numeral.exponentText, signText, hempty, exponent]
    · rw [Numeral.value_eq]
      simp only [hpower]
      by_cases hempty : rest = []
      · simp [Numeral.fractionDigits, hempty]
      · simp [Numeral.fractionDigits, hempty]
    · simp
      omega
    · simp

end Shortest

/-! ## Conversion -/

namespace Conversion

/-- The characters of numerals. -/
def alphabet : List Char :=
  "0123456789.e+-".toList

theorem mem_alphabet_of_isDigit {c : Char} (h : Character.isDigit c = true) : c ∈ alphabet := by
  simp only [Character.isDigit, Bool.and_eq_true, decide_eq_true_eq] at h
  have hlow : 48 ≤ c.toNat := h.1
  have hhigh : c.toNat ≤ 57 := h.2
  rw [← Char.ofNat_toNat c]
  interval_cases c.toNat <;> decide

theorem mem_alphabet_signText {sign : Option Bool} : ∀ c ∈ signText sign, c ∈ alphabet := by
  match sign with
  | none => exact forall_mem_nil _
  | some true | some false => exact forall_mem_singleton.2 (by decide)

theorem mem_alphabet_text (n : Numeral) : ∀ c ∈ n.text, c ∈ alphabet := by
  have hdigits (ds : Decimal.Digits) : ∀ c ∈ ds.1, c ∈ alphabet :=
    fun c hc => mem_alphabet_of_isDigit (ds.2.2 c hc)
  obtain ⟨whole, fraction, exponent⟩ := n
  refine forall_mem_append.2 ⟨hdigits whole, forall_mem_append.2 ⟨?_, ?_⟩⟩
  · cases fraction with
    | none => simp
    | some f => exact forall_mem_cons.2 ⟨by decide, hdigits f⟩
  · cases exponent with
    | none => simp [Numeral.exponentText]
    | some e => exact forall_mem_cons.2 ⟨by decide,
        forall_mem_append.2 ⟨mem_alphabet_signText, hdigits e.2⟩⟩

theorem trim_of_alphabet {cs : List Char} (h : ∀ c ∈ cs, c ∈ alphabet) : trim cs = cs := by
  have hdrop {cs : List Char} (h : ∀ c ∈ cs, c ∈ alphabet) :
      cs.dropWhile Character.isMargin = cs := by
    have hall : alphabet.all (!Character.isMargin ·) = true := by decide
    have hnone : ∀ c ∈ alphabet, Character.isMargin c = false := by simpa using hall
    cases cs with
    | nil => rfl
    | cons c cs => simp [hnone c (h c (mem_cons_self ..))]
  rw [trim, hdrop h, hdrop (by simpa using h), reverse_reverse]

theorem marked?_of_alphabet {cs : List Char} (h : ∀ c ∈ cs, c ∈ alphabet) : marked? cs = none := by
  have hmark {c : Char} {cs : List Char} (h : ∀ d ∈ '0' :: c :: cs, d ∈ alphabet) : c ∈ alphabet :=
    h c (by simp)
  unfold marked?
  split
  all_goals first
    | rfl
    | exact absurd (hmark h) (by decide)

/-- A numeral converts to the number that it denotes. -/
theorem ofText_numeral (sign : Option Bool) (n : Numeral) :
    ofText (String.ofList (signText sign ++ n.text)) =
      (Decimal.ofParts (sign == some true) n.whole.1 n.fractionDigits
        (Numeral.power n.exponent)).toFloat := by
  have hall : ∀ c ∈ signText sign ++ n.text, c ∈ alphabet :=
    forall_mem_append.2 ⟨mem_alphabet_signText, mem_alphabet_text n⟩
  have hword : n.text ≠ "Infinity".toList := by
    intro h
    have := mem_alphabet_text n 'I' (h ▸ by decide)
    exact absurd this (by decide)
  have hne : signText sign ++ n.text ≠ [] := by simp [Numeral.text, n.whole.2.1]
  have hsign : Decimal.takeSign (signText sign ++ n.text) = (sign == some true, n.text) :=
    Decimal.takeSign_signText sign n.whole _
  rw [ofText, String.toList_ofList, trim_of_alphabet hall]
  split
  · next h => exact absurd h hne
  · rw [marked?_of_alphabet hall]
    simp only [ofDecimal, hsign, if_neg hword, Decimal.read?_text, Option.elim_some]

end Conversion

/-! ## The text of a number -/

namespace Value

open Binary64 (ofBits infinityBits magnitude)

variable {bits : ℕ}

theorem mantissa_ne_zero (hpos : 0 < bits) : (magnitude bits).mantissa ≠ 0 := by
  unfold Binary64.magnitude
  split
  · exact hpos.ne'
  · exact (Nat.add_pos_left (by decide) _).ne'

theorem text_number (negative : Bool) (hpos : 0 < bits) (hlt : bits < infinityBits) :
    Shortest.ofFloat (ofBits negative bits) = String.ofList
      (signText (if negative then some true else none) ++
        Shortest.numeral (Shortest.digits (magnitude bits))) := by
  rw [Shortest.ofFloat, Binary64.decode_ofBits negative hlt]
  simp only [mantissa_ne_zero hpos, if_false]
  cases negative <;> rfl

/-- A finite number but zero converts to itself from its text. -/
theorem ofText_text_number (negative : Bool) (hpos : 0 < bits) (hlt : bits < infinityBits) :
    Conversion.ofText (Shortest.ofFloat (ofBits negative bits)) = ofBits negative bits := by
  obtain ⟨hne, hdigits, hbetween⟩ := Shortest.between_digits hpos
  obtain ⟨n, htext, hvalue, -⟩ := (Shortest.layout_numeral hne).exists_numeral hne hdigits
  have hsign : ((if negative then some true else none) == some true) = negative := by
    cases negative <;> rfl
  rw [text_number negative hpos hlt, htext, Conversion.ofText_numeral, hsign]
  refine (Decimal.isNearest_toFloat _).unique ⟨bits, ?_, rfl⟩
  rw [Decimal.magnitude_ofParts, ← Numeral.value, hvalue]
  exact hbetween.nearest hlt.le

/-- **Numbers as text.** The text of a positive number is a numeral for the number that its digits
stand for, in one of the layouts, plain from `10 ^ (-6)` up to below `10 ^ 21` and with an exponent
that has a sign outside. The text of every number converts back to it, but the sign of zero is
lost. -/
theorem number_text_reads_back (x : Float) :
    (∀ m, Binary64.decode x = .finite false m → m.mantissa ≠ 0 →
      let d := Shortest.digits m
      d.digits ≠ [] ∧ (∀ c ∈ d.digits, Character.isDigit c = true) ∧
      ∃ n : Numeral, text (.number x) = String.ofList n.text ∧
        Shortest.Layout d.digits d.exponent n.text ∧
        n.value = natOfDigits d.digits * 10 ^ (d.exponent + 1 - d.digits.length) ∧
        (n.exponent = none ↔ -6 ≤ d.exponent ∧ d.exponent ≤ 20) ∧
        ∀ e ∈ n.exponent, e.1 = some (decide (d.exponent < 0))) ∧
    (x ≠ ofBits true 0 → toNumber (.string (text (.number x))) = x) ∧
    toNumber (.string (text (.number (ofBits true 0)))) = Binary64.zero := by
  refine ⟨fun m hm hmantissa => ?_, fun hx => ?_, rfl⟩
  · obtain ⟨bits, hlt, rfl, rfl⟩ := Binary64.eq_ofBits_of_decode hm
    have hpos : 0 < bits := by
      refine Nat.pos_of_ne_zero ?_
      rintro rfl
      exact hmantissa rfl
    obtain ⟨hne, hdigits, -⟩ := Shortest.between_digits hpos
    have hlayout := Shortest.layout_numeral hne
    obtain ⟨n, htext, hvalue, hplain, hsign⟩ := hlayout.exists_numeral hne hdigits
    rw [htext] at hlayout
    refine ⟨hne, hdigits, n, ?_, hlayout, hvalue, hplain, hsign⟩
    rw [← htext]
    exact text_number false hpos hlt
  · change Conversion.ofText (Shortest.ofFloat x) = x
    rcases Binary64.eq_notANumber_or_ofBits x with rfl | ⟨negative, bits, hle, rfl⟩
    · rfl
    rcases Nat.eq_zero_or_pos bits with rfl | hpos
    · cases negative with
      | false => rfl
      | true => exact absurd rfl hx
    rcases Nat.lt_or_eq_of_le hle with hlt | rfl
    · exact ofText_text_number negative hpos hlt
    · rw [← Binary64.infinity, Shortest.ofFloat, Binary64.decode_infinity]
      cases negative <;> rfl

/-- The number `10 ^ 21`, the least with an exponent in its text. -/
theorem number_text_reads_back_exponent :
    Binary64.decode (ofBits false 0x444B1AE4D6E2EF50) = .finite false ⟨0x1B1AE4D6E2EF50, 17⟩ ∧
      (∃ n : Numeral, text (.number (ofBits false 0x444B1AE4D6E2EF50)) = String.ofList n.text) ∧
      toNumber (.string (text (.number (ofBits false 0x444B1AE4D6E2EF50)))) =
        ofBits false 0x444B1AE4D6E2EF50 := by
  have hdecode : Binary64.decode (ofBits false 0x444B1AE4D6E2EF50) =
      .finite false ⟨0x1B1AE4D6E2EF50, 17⟩ := Binary64.decode_ofBits false (by decide)
  obtain ⟨hpositive, hback, -⟩ := number_text_reads_back (ofBits false 0x444B1AE4D6E2EF50)
  obtain ⟨-, -, n, htext, -⟩ := hpositive _ hdecode (by decide)
  refine ⟨hdecode, ⟨n, htext⟩, hback fun hzero => ?_⟩
  have hsign := congrArg Binary64.decode hzero
  rw [hdecode, Binary64.decode_ofBits true (by decide)] at hsign
  cases hsign

end Value

end LambdaLift
