import LambdaLift.Grammar.Recursion
import LambdaLift.Proofs.Grammar.Unwinding
import LambdaLift.Proofs.Token.Faults
import LambdaLift.Proofs.Token.Tiling

/-!
# How far reading gets

What every production keeps, whatever the text is and whatever is reported about it.

* `Trace text ts stop`: the tokens `ts` are what the text has up to `stop`, with gaps in between.
* `State.Sound text s`: the state stands on a token of the text, and all before it was read.
* `Told l ts rs`: what is wrong with the tokens up to the current one is reported, as an error.
* `Beyond s s'`: `s'` comes after `s`. `Later s s'`: and the nesting limit is respected in between.
* `Moves n p`: `p` leads from sound states to later ones, and comes to an end where less than `n`
  characters are left. `Takes n isOver p`: it reads a token, unless its result is the last one of a
  loop. `MovesAt` and `TakesAt` say so of states at a token of a known kind.
* `Leads n p`: `p` is a part of an export, which may tell of it even beyond the nesting limit.

These are classes: a production that is put together from others has them by its form. A loop comes
to an end because its turns read tokens, and a recursion because a token is read before a production
occurs in itself, which is why the kind of the current token matters.
-/

namespace LambdaLift

open Lexer

namespace Grammar

/-- The tokens `ts`, the last one first, are the text up to `stop`: only white space, line breaks and
comments lie between them, and before the first of them a line that names the program to run. -/
inductive Trace (text : String) : (ts : List Token) → (stop : Nat) → Prop
  | nil : Trace text [] (ofText text).skipShebang.here.offset
  | cons {ts : List Token} {stop : Nat} {t : Token} {gap after cs : List Char}
      (before : Trace text ts stop) (hgap : (⟨stop, t.range.start⟩ : Range).Covers text gap)
      (hsep : Trivia.Separates gap after) (hcovers : t.range.Covers text cs)
      (hwidth : t.kind ≠ .endOfFile → t.range.start < t.range.stop) :
      Trace text (t :: ts) t.range.stop

/-- The state stands on a token of the text, and all before it was read. -/
structure State.Sound (text : String) (s : State) : Prop where
  lexer : s.lexer.OnToken text
  gap : ∃ gap, (⟨s.previousEnd, s.offset⟩ : Range).Covers text gap ∧
    Trivia.Separates gap s.lexer.start.rest
  trace : Trace text s.tokens s.previousEnd

/-- What is wrong with the token of the lexer or one of the tokens `ts` before it is reported, and
all reports are errors, be they the lexer's or the reports `rs` of the grammar. -/
structure Told (l : Lexer) (ts : List Token) (rs : List Report) : Prop extends l.Tells where
  tokens : l.reports = [] → ∀ t ∈ ts, t.isFaulty = false
  grammar : Errors rs

/-- Reading moved on from `s` to `s'`: the tokens that were read lie in between, reports stay, and
constructs that were entered were left. The rest of a text is skipped only with a report, and no
fault of a token is passed over. -/
structure Beyond (s s' : State) : Prop where
  tokens : ∃ ts, s'.tokens = ts ++ s.tokens ∧
    ∀ t ∈ ts, s.offset ≤ t.range.start ∧ t.range.stop ≤ s'.previousEnd
  remaining : s'.remaining ≤ s.remaining
  previousEnd : s.previousEnd ≤ s'.previousEnd
  reports : s.reports <+: s'.reports
  lexerReports : s.lexer.reports <+: s'.lexer.reports
  told : Told s.lexer s.tokens s.reports → Told s'.lexer s'.tokens s'.reports
  isAborted : s'.reports = s.reports → s'.isAborted = s.isAborted
  depth : s'.depth = s.depth
  allowsIn : s'.allowsIn = s.allowsIn

/-- Reading moved on from `s` to `s'`, within the nesting limit or up to the end of the text. -/
structure Later (s s' : State) : Prop extends Beyond s s', Heeds 0 s s'

section Classes

variable {α : Type} (n : Nat) (kind : TokenKind)

/-- `p` moves on in every text, and comes to an end where less than `n` characters are left. -/
class Moves (p : Parse α) : Prop where
  moves : ∀ text s a s', s.Sound text → p s = some (a, s') → s'.Sound text ∧ Later s s'
  ends : ∀ text s, s.Sound text → s.remaining < n → ∃ a s', p s = some (a, s')

/-- `p` moves on in this way, except that it may tell of an export that exports no declaration even
if the rest of the text was skipped. -/
class Leads (p : Parse α) : Prop where
  leads : ∀ text s a s', s.Sound text → p s = some (a, s') →
    s'.Sound text ∧ Beyond s s' ∧ Heeds 1 s s'
  ends : ∀ text s, s.Sound text → s.remaining < n → ∃ a s', p s = some (a, s')

/-- `p` moves on and comes to an end at tokens of the given kind. -/
class MovesAt (p : Parse α) : Prop where
  moves : ∀ text s a s', s.Sound text → s.lexer.kind = kind → p s = some (a, s') →
    s'.Sound text ∧ Later s s'
  ends : ∀ text s, s.Sound text → s.lexer.kind = kind → s.remaining < n →
    ∃ a s', p s = some (a, s')

/-- Where less than `n` characters are left, `p` reads a token, unless its result says that a loop
is over. -/
class Takes (isOver : α → Bool) (p : Parse α) : Prop where
  takes : ∀ text s a s', s.Sound text → s.remaining < n → p s = some (a, s') → isOver a = false →
    s'.remaining < s.remaining

/-- `p` reads a token in this way at tokens of the given kind. -/
class TakesAt (isOver : α → Bool) (p : Parse α) : Prop where
  takes : ∀ text s a s', s.Sound text → s.lexer.kind = kind → s.remaining < n →
    p s = some (a, s') → isOver a = false → s'.remaining < s.remaining

/-- `p` reads a token at tokens of the given kind. -/
abbrev Opens (p : Parse α) : Prop :=
  TakesAt n kind (fun _ => false) p

end Classes

/-- The kind of a token that can be read: not the end of the text. -/
class Present (kind : TokenKind) : Prop where
  ne : kind ≠ .endOfFile

instance (p : Punctuator) : Present (.punctuator p) := ⟨by simp⟩
instance (k : Keyword) : Present (.keyword k) := ⟨by simp⟩
instance : Present .identifier := ⟨by simp⟩
instance : Present .template := ⟨by simp⟩
instance : Present .templateHead := ⟨by simp⟩

section States

variable {text : String} {s s' s₁ s₂ s₃ : State}

theorem State.Sound.previousEnd_le (h : s.Sound text) : s.previousEnd ≤ s.offset := by
  obtain ⟨gap, ⟨before, after, -, hstart, hstop⟩, -⟩ := h.gap
  simp only at hstart hstop
  rw [hstart, hstop, byteLength_append]
  omega

/-- A token that was read has a width. -/
theorem Trace.width {ts : List Token} {stop : Nat} (h : Trace text ts stop) {t : Token}
    (ht : t ∈ ts) (hkind : t.kind ≠ .endOfFile) : t.range.start < t.range.stop := by
  induction h with
  | nil => cases ht
  | cons before hgap hsep hcovers hwidth ih =>
    rcases List.mem_cons.1 ht with rfl | ht
    · exact hwidth hkind
    · exact ih ht

theorem Beyond.refl (s : State) : Beyond s s where
  tokens := ⟨[], rfl, by simp⟩
  remaining := Nat.le_refl _
  previousEnd := Nat.le_refl _
  reports := List.prefix_rfl
  lexerReports := List.prefix_rfl
  told := id
  isAborted _ := rfl
  depth := rfl
  allowsIn := rfl

theorem Later.refl (s : State) : Later s s :=
  ⟨.refl s, .refl s⟩

theorem Beyond.offset_le (h : Beyond s s') (hs : s.Sound text) (hs' : s'.Sound text) :
    s.offset ≤ s'.offset :=
  (hs.lexer.start.reaches_of_le hs'.lexer.start h.remaining).offset_le

theorem Beyond.exports_le (h : Beyond s s') : s.exports ≤ s'.exports := by
  obtain ⟨ts, hts, -⟩ := h.tokens
  rw [State.exports, State.exports, hts, List.countP_append]
  exact Nat.le_add_left ..

theorem Beyond.trans (h : Beyond s₁ s₂) (h' : Beyond s₂ s₃) (hs₁ : s₁.Sound text)
    (hs₂ : s₂.Sound text) : Beyond s₁ s₃ where
  tokens := by
    obtain ⟨ts, hts, hmem⟩ := h.tokens
    obtain ⟨ts', hts', hmem'⟩ := h'.tokens
    refine ⟨ts' ++ ts, by rw [hts', hts, List.append_assoc], fun t ht => ?_⟩
    rcases List.mem_append.1 ht with ht | ht
    · have := h.offset_le hs₁ hs₂
      exact ⟨this.trans (hmem' t ht).1, (hmem' t ht).2⟩
    · exact ⟨(hmem t ht).1, (hmem t ht).2.trans h'.previousEnd⟩
  remaining := h'.remaining.trans h.remaining
  previousEnd := h.previousEnd.trans h'.previousEnd
  reports := h.reports.trans h'.reports
  lexerReports := h.lexerReports.trans h'.lexerReports
  told := h'.told ∘ h.told
  isAborted := by
    intro heq
    -- Reports that stay the same over both steps stay the same over each.
    have hprefix : s₂.reports <+: s₁.reports := heq ▸ h'.reports
    have heq₁ : s₂.reports = s₁.reports := hprefix.eq_of_length_le h.reports.length_le
    rw [h'.isAborted (heq.trans heq₁.symm), h.isAborted heq₁]
  depth := h'.depth.trans h.depth
  allowsIn := h'.allowsIn.trans h.allowsIn

theorem Later.trans (h : Later s₁ s₂) (h' : Later s₂ s₃) (hs₁ : s₁.Sound text) (hs₂ : s₂.Sound text)
    : Later s₁ s₃ :=
  ⟨h.toBeyond.trans h'.toBeyond hs₁ hs₂, h.toHeeds.trans h'.toHeeds h.exports_le⟩

/-- If nothing was reported up to a state, nothing was before. -/
theorem Beyond.clean (h : Beyond s s') (hs : Clean s') : Clean s := by
  have hreports : s.reports = [] := List.prefix_nil.1 (hs.reports ▸ h.reports)
  refine ⟨hreports, List.prefix_nil.1 (hs.lexerReports ▸ h.lexerReports), ?_⟩
  rw [← h.isAborted (hs.reports.trans hreports.symm), hs.isAborted]

/-- A change of what no token depends on. -/
theorem State.Sound.of_eq (h : s.Sound text) (hlexer : s'.lexer = s.lexer)
    (hend : s'.previousEnd = s.previousEnd) (htokens : s'.tokens = s.tokens) : s'.Sound text where
  lexer := hlexer ▸ h.lexer
  gap := by
    rw [State.offset, hlexer, hend]
    exact h.gap
  trace := by
    rw [htokens, hend]
    exact h.trace

theorem sound_ofText (text : String) : (State.ofText text).Sound text := by
  have hhere := (within_ofText text).skipShebang.here
  obtain ⟨gap, hgap, hsep, -⟩ := exists_gap hhere
  exact ⟨onToken_scan hhere, ⟨gap, hgap, hsep⟩, .nil⟩

theorem State.Sound.advanced (h : s.Sound text) : s.advanced.Sound text where
  lexer := h.lexer.scan
  gap := by
    obtain ⟨gap, hgap, hsep, -⟩ := exists_gap h.lexer.toWithin.here
    exact ⟨gap, hgap, hsep⟩
  trace := by
    obtain ⟨gap, hgap, hsep⟩ := h.gap
    exact .cons h.trace hgap hsep h.lexer.toWithin.covers fun hkind =>
      h.lexer.reaches.offset_lt (h.lexer.width hkind)

/-- Reading the end of the text leads to the end of the text. -/
theorem State.Sound.kind_advanced (h : s.Sound text) (hkind : s.lexer.kind = .endOfFile) :
    s.advanced.lexer.kind = .endOfFile := by
  have hrest : s.lexer.here.rest.length ≤ s.lexer.start.rest.length := h.lexer.reaches.length_le
  rw [h.lexer.ends hkind] at hrest
  exact (kind_scan_of_rest_eq_nil (List.length_eq_zero_iff.1 (Nat.le_zero.1 hrest))).1

theorem heeds_advanced (h : s.Sound text) : Heeds 0 s s.advanced where
  unwinds haborted hkind := by
    have hkind' := h.kind_advanced hkind
    refine ⟨[], ⟨haborted, hkind', ⟨[s.lexer.token], rfl, ?_⟩, ?_, ?_⟩, Nat.le_refl _⟩
    · simpa [token] using hkind
    · simp [State.advanced]
    · simp
  proceeds haborted := .inl ⟨haborted, [], by simp [State.advanced], by simp⟩

theorem beyond_advanced (h : s.Sound text) : Beyond s s.advanced where
  tokens := ⟨[s.lexer.token], rfl, by simp [token, range, State.advanced, State.offset]⟩
  remaining := (here_le_scan_start s.lexer).2.trans h.lexer.reaches.length_le
  previousEnd := h.previousEnd_le.trans h.lexer.reaches.offset_le
  reports := List.prefix_rfl
  lexerReports := reports_prefix_scan _
  told h :=
    { tells_scan h.errors with
      tokens := fun hnil => by
        have hbefore : s.lexer.reports = [] :=
          List.prefix_nil.1 (hnil ▸ reports_prefix_scan _)
        exact List.forall_mem_cons.2 ⟨h.token hbefore, h.tokens hbefore⟩
      grammar := h.grammar }
  isAborted _ := rfl
  depth := rfl
  allowsIn := rfl

theorem later_advanced (h : s.Sound text) : Later s s.advanced :=
  ⟨beyond_advanced h, heeds_advanced h⟩

/-- A token takes a character. -/
theorem remaining_advanced_lt (h : s.Sound text) (hkind : s.lexer.kind ≠ .endOfFile) :
    s.advanced.remaining < s.remaining :=
  Nat.lt_of_le_of_lt (here_le_scan_start s.lexer).2 (h.lexer.width hkind)

/-- Reading a token again changes neither where it starts nor what was read before. -/
theorem later_reread (hkind : s.lexer.kind ≠ .endOfFile) {x : Lexeme} (hx : x.Tells) :
    Later s { s with lexer := s.lexer.reread x } where
  tokens := ⟨[], rfl, by simp⟩
  remaining := Nat.le_refl _
  previousEnd := Nat.le_refl _
  reports := List.prefix_rfl
  lexerReports := reports_prefix_reread ..
  told h :=
    { h.toTells.reread hx with
      tokens := fun hnil => h.tokens (List.append_eq_nil_iff.1 hnil).1
      grammar := h.grammar }
  isAborted _ := rfl
  depth := rfl
  allowsIn := rfl
  unwinds _ hend := absurd hend hkind
  proceeds haborted := .inl ⟨haborted, [], by simp, by simp⟩

theorem State.Sound.rescanSlash (h : s.Sound text) (hkind : s.lexer.kind ≠ .endOfFile) :
    ({ s with lexer := s.lexer.rescanSlash } : State).Sound text ∧
      Later s { s with lexer := s.lexer.rescanSlash } :=
  ⟨⟨h.lexer.rescanSlash hkind, h.gap, h.trace⟩, later_reread hkind (Quoted.tells_regex _)⟩

theorem State.Sound.rescanTemplate (h : s.Sound text) (hkind : s.lexer.kind ≠ .endOfFile) :
    ({ s with lexer := s.lexer.rescanTemplate } : State).Sound text ∧
      Later s { s with lexer := s.lexer.rescanTemplate } :=
  ⟨⟨h.lexer.rescanTemplate hkind, h.gap, h.trace⟩,
    later_reread hkind (Quoted.tells_templatePiece ..)⟩

end States

/-! ## Steps -/

section Steps

variable {α β : Type} {n : Nat} {p q : Parse α} {f : α → Parse β}

instance (priority := low) {kind : TokenKind} [Moves n p] : MovesAt n kind p where
  moves text s a s' hs _ h := Moves.moves n text s a s' hs h
  ends text s hs _ hn := Moves.ends text s hs hn

theorem Moves.of_at (h : ∀ kind, MovesAt n kind p) : Moves n p where
  moves text s a s' hs hp := (h _).moves text s a s' hs rfl hp
  ends text s hs hn := (h _).ends text s hs rfl hn

/-- A step is followed by another one, which need only come to an end for what the first one leaves
to be read. -/
theorem MovesAt.bind_of {kind : TokenKind} [hp : MovesAt n kind p] {m : α → Nat}
    (hf : ∀ a, Moves (m a) (f a)) (hm : ∀ text s a s₁, s.Sound text → s.lexer.kind = kind →
      s.remaining < n → p s = some (a, s₁) → s₁.remaining ≤ s.remaining → s₁.remaining < m a) :
    MovesAt n kind (p >>= f) where
  moves text s b s' hs hkind h := by
    obtain ⟨a, s₁, hp', hf'⟩ := bind_eq_some.1 h
    obtain ⟨hs₁, hlater⟩ := hp.moves text s a s₁ hs hkind hp'
    obtain ⟨hs', hlater'⟩ := (hf a).moves text s₁ b s' hs₁ hf'
    exact ⟨hs', hlater.trans hlater' hs hs₁⟩
  ends text s hs hkind hn := by
    obtain ⟨a, s₁, hp'⟩ := hp.ends text s hs hkind hn
    obtain ⟨hs₁, hlater⟩ := hp.moves text s a s₁ hs hkind hp'
    obtain ⟨b, s', hf'⟩ :=
      (hf a).ends text s₁ hs₁ (hm text s a s₁ hs hkind hn hp' hlater.remaining)
    exact ⟨b, s', bind_eq_some.2 ⟨a, s₁, hp', hf'⟩⟩

theorem MovesAt.bind {kind : TokenKind} [MovesAt n kind p] (hf : ∀ a, Moves n (f a)) :
    MovesAt n kind (p >>= f) :=
  .bind_of hf fun _ _ _ _ _ _ hn _ hle => Nat.lt_of_le_of_lt hle hn

theorem Moves.bind [Moves n p] (hf : ∀ a, Moves n (f a)) : Moves n (p >>= f) :=
  .of_at fun _ => .bind hf

instance [Moves n p] [hf : ∀ a, Moves n (f a)] : Moves n (p >>= f) :=
  .bind hf

/-- Where no character is left to count, nothing is said about an end. -/
theorem Moves.weaken (n : Nat) [Moves n p] : Moves 0 p :=
  ⟨Moves.moves n, fun _ _ _ hn => absurd hn (Nat.not_lt_zero _)⟩

theorem Moves.of_none (h : ∀ s, p s = none) : Moves 0 p where
  moves text s a s' hs hp := by
    rw [h] at hp
    cases hp
  ends text s _ hn := absurd hn (Nat.not_lt_zero _)

instance (g : α → β) [Moves n p] : Moves n (g <$> p) where
  moves text s b s' hs h := by
    obtain ⟨a, hp, -⟩ := map_eq_some.1 h
    exact Moves.moves n text s a s' hs hp
  ends text s hs hn := by
    obtain ⟨a, s', hp⟩ := Moves.ends (p := p) text s hs hn
    exact ⟨g a, s', map_eq_some.2 ⟨a, hp, rfl⟩⟩

instance [Moves n p] : Moves n (discard p) :=
  inferInstanceAs (Moves n (Function.const α PUnit.unit <$> p))

instance {c : Prop} [Decidable c] [Moves n p] [Moves n q] : Moves n (if c then p else q) := by
  split <;> infer_instance

/-- A step that always gives something and leaves the state as it is. -/
theorem Moves.of_eq {g : State → α} (h : ∀ s, p s = some (g s, s)) : Moves n p where
  moves text s a s' hs hp := by
    rw [h] at hp
    cases hp
    exact ⟨hs, .refl s⟩
  ends text s _ _ := ⟨_, _, h s⟩

instance (a : α) : Moves n (pure a : Parse α) := .of_eq fun _ => rfl
instance : Moves n (get : Parse State) := .of_eq fun _ => rfl
instance (g : Lexer → α) : Moves n (look g) := .of_eq fun _ => rfl
instance : Moves n current := .of_eq fun _ => rfl
instance : Moves n position := .of_eq fun _ => rfl
instance : Moves n tokenRange := .of_eq fun _ => rfl
instance (start : Nat) : Moves n (rangeFrom start) := .of_eq fun _ => rfl

instance : Moves n advance where
  moves text s a s' hs h := by
    cases h
    exact ⟨hs.advanced, later_advanced hs⟩
  ends _ _ _ _ := ⟨_, _, rfl⟩

theorem beyond_report (s : State) (span : Span) (fault : Fault) :
    Beyond s { s with reports := s.reports ++ [.ofFault span fault] } where
  tokens := ⟨[], rfl, by simp⟩
  remaining := Nat.le_refl _
  previousEnd := Nat.le_refl _
  reports := List.prefix_append ..
  lexerReports := List.prefix_rfl
  told h := { h with grammar := h.grammar.append (errors_ofFault span fault) }
  isAborted _ := rfl
  depth := rfl
  allowsIn := rfl

theorem State.Sound.report {text : String} {s s' : State} {fault : Fault} {u : Unit}
    (hs : s.Sound text) (h : report fault s = some (u, s')) : s'.Sound text := by
  obtain ⟨-, rfl⟩ | ⟨-, rfl⟩ := report_cases h
  · exact hs.of_eq rfl rfl rfl
  · exact hs

theorem report_ends (fault : Fault) (s : State) : ∃ s', report fault s = some ((), s') := by
  rw [report, get_bind]
  split <;> exact ⟨_, rfl⟩

instance (fault : Fault) [fault.Shallow] : Moves n (report fault) where
  moves text s a s' hs h := by
    refine ⟨hs.report h, ?_⟩
    obtain ⟨haborted, rfl⟩ | ⟨-, rfl⟩ := report_cases h
    · refine ⟨beyond_report s .., fun hskipped => ?_, fun _ => .inl (.report haborted ..)⟩
      rw [haborted] at hskipped
      cases hskipped
    · exact .refl _
  ends _ s _ _ := ⟨(), report_ends fault s⟩

instance (kind : TokenKind) : Moves n (accept? kind) := by unfold accept?; infer_instance
instance (kind : TokenKind) : Moves n (accept kind) := by unfold accept; infer_instance
instance (kind : TokenKind) : Moves n (expect kind) := by unfold expect; infer_instance
instance : Moves n semicolon := by unfold semicolon; infer_instance
instance (word : String) : Moves n (expectName word) := by unfold expectName; infer_instance
instance (a : α) : Moves n (turnAtComma a) := by unfold turnAtComma; infer_instance

end Steps

/-! ## Steps at a token of a known kind -/

section AtKind

variable {α β : Type} {n : Nat} {kind : TokenKind} {p q : Parse α} {f : α → Parse β}

theorem Moves.current_bind {f : TokenKind → Parse β} (hf : ∀ kind, MovesAt n kind (f kind)) :
    Moves n (current >>= f) where
  moves text s b s' hs h := (hf _).moves text s b s' hs rfl h
  ends text s hs hn := (hf _).ends text s hs rfl hn

instance {f : TokenKind → Parse β} [h : MovesAt n kind (f kind)] : MovesAt n kind (current >>= f) where
  moves text s b s' hs hkind hf := h.moves text s b s' hs hkind (hkind ▸ hf)
  ends text s hs hkind hn := by
    obtain ⟨b, s', hf⟩ := h.ends text s hs hkind hn
    exact ⟨b, s', by rw [Grammar.current_bind, hkind, hf]⟩

instance (g : Lexer → α) [h : ∀ a, MovesAt n kind (f a)] : MovesAt n kind (look g >>= f) where
  moves text s b s' hs hkind hf := (h _).moves text s b s' hs hkind hf
  ends text s hs hkind hn := (h _).ends text s hs hkind hn

theorem MovesAt.position_bind {f : Nat → Parse β} (_ : ∀ a, MovesAt n kind (f a)) :
    MovesAt n kind (position >>= f) :=
  inferInstanceAs (MovesAt n kind (look _ >>= f))

instance {f : Nat → Parse β} [hf : ∀ a, MovesAt n kind (f a)] : MovesAt n kind (position >>= f) :=
  .position_bind hf

instance {f : Range → Parse β} [∀ a, MovesAt n kind (f a)] : MovesAt n kind (tokenRange >>= f) :=
  inferInstanceAs (MovesAt n kind (look _ >>= f))

instance (priority := low) [MovesAt n kind p] [hf : ∀ a, Moves n (f a)] :
    MovesAt n kind (p >>= f) :=
  .bind hf

/-- After a token was read, fewer characters are left. -/
theorem MovesAt.bind_opens [hopens : Opens (n + 1) kind p] [MovesAt (n + 1) kind p]
    (hf : ∀ a, Moves n (f a)) : MovesAt (n + 1) kind (p >>= f) :=
  .bind_of hf fun text s a s₁ hs hkind hn hp _ =>
    Nat.lt_of_lt_of_le (hopens.takes text s a s₁ hs hkind hn hp rfl) (Nat.le_of_lt_succ hn)

instance [Opens (n + 1) kind p] [MovesAt (n + 1) kind p] [hf : ∀ a, Moves n (f a)] :
    MovesAt (n + 1) kind (p >>= f) :=
  .bind_opens hf

instance {c : Prop} [Decidable c] [MovesAt n kind p] [MovesAt n kind q] :
    MovesAt n kind (if c then p else q) := by
  split <;> infer_instance

instance [Present kind] : MovesAt n kind rescanSlash where
  moves text s a s' hs hkind h := by
    cases h
    exact hs.rescanSlash (hkind ▸ Present.ne)
  ends _ _ _ _ _ := ⟨_, _, rfl⟩

instance [Present kind] : MovesAt n kind rescanTemplate where
  moves text s a s' hs hkind h := by
    cases h
    exact hs.rescanTemplate (hkind ▸ Present.ne)
  ends _ _ _ _ _ := ⟨_, _, rfl⟩

theorem MovesAt.of_succ (h : MovesAt (n + 1) kind p) : MovesAt n kind p :=
  ⟨h.moves, fun text s hs hkind hn => h.ends text s hs hkind (Nat.lt_succ_of_lt hn)⟩

end AtKind

/-! ## Steps that may tell of an export -/

section Exports

variable {α β : Type} {n : Nat} {p q : Parse α} {f : α → Parse β}

instance (priority := high) [Moves n p] : Leads n p where
  leads text s a s' hs h := by
    obtain ⟨hs', hlater⟩ := Moves.moves n text s a s' hs h
    exact ⟨hs', hlater.toBeyond, hlater.toHeeds.mono (Nat.zero_le 1)⟩
  ends := Moves.ends

instance (span : Span) : Leads n (reportAt span .declarationExpected) where
  leads text s a s' hs h := by
    cases h
    refine ⟨hs.of_eq rfl rfl rfl, beyond_report s .., fun haborted hkind => ?_, fun haborted => ?_⟩
    · refine ⟨[_], ⟨haborted, hkind, ⟨[], rfl, by simp⟩, rfl, ?_⟩, Nat.le_refl _⟩
      exact List.forall_mem_singleton.2 ⟨span, rfl⟩
    · exact .inl (.report haborted ..)
  ends _ _ _ _ := ⟨_, _, rfl⟩

/-- Of two steps at most one may have a report on credit. -/
theorem Leads.bind_of [hp : Leads n p] [hf : ∀ a, Leads n (f a)]
    (hheeds : ∀ text s a s₁ b s', s.Sound text → s₁.Sound text → p s = some (a, s₁) →
      f a s₁ = some (b, s') → Beyond s s₁ → Heeds 1 s s') : Leads n (p >>= f) where
  leads text s b s' hs h := by
    obtain ⟨a, s₁, hp', hf'⟩ := bind_eq_some.1 h
    obtain ⟨hs₁, hbeyond, -⟩ := hp.leads text s a s₁ hs hp'
    obtain ⟨hs', hbeyond', -⟩ := (hf a).leads text s₁ b s' hs₁ hf'
    exact ⟨hs', hbeyond.trans hbeyond' hs hs₁,
      hheeds text s a s₁ b s' hs hs₁ hp' hf' hbeyond⟩
  ends text s hs hn := by
    obtain ⟨a, s₁, hp'⟩ := hp.ends text s hs hn
    obtain ⟨hs₁, hbeyond, -⟩ := hp.leads text s a s₁ hs hp'
    obtain ⟨b, s', hf'⟩ := (hf a).ends text s₁ hs₁ (Nat.lt_of_le_of_lt hbeyond.remaining hn)
    exact ⟨b, s', bind_eq_some.2 ⟨a, s₁, hp', hf'⟩⟩

theorem Leads.bind [Moves n p] (hf : ∀ a, Leads n (f a)) : Leads n (p >>= f) := by
  refine .bind_of fun text s a s₁ b s' hs hs₁ hp' hf' hbeyond => ?_
  have hlater := (Moves.moves n text s a s₁ hs hp').2
  exact hlater.toHeeds.trans ((hf a).leads text s₁ b s' hs₁ hf').2.2 hbeyond.exports_le

instance [Moves n p] [hf : ∀ a, Leads n (f a)] : Leads n (p >>= f) :=
  .bind hf

instance [hp : Leads n p] [hf : ∀ a, Moves n (f a)] : Leads n (p >>= f) := by
  refine .bind_of fun text s a s₁ b s' hs hs₁ hp' hf' hbeyond => ?_
  have hlater := ((hf a).moves text s₁ b s' hs₁ hf').2
  exact (hp.leads text s a s₁ hs hp').2.2.trans hlater.toHeeds hbeyond.exports_le

instance {c : Prop} [Decidable c] [Leads n p] [Leads n q] : Leads n (if c then p else q) := by
  split <;> infer_instance

/-- The word that begins an export pays for its report. -/
instance {f : Unit → Parse β} [hf : ∀ u, Leads n (f u)] :
    MovesAt (n + 1) (.keyword .export_) (expect (.keyword .export_) >>= f) where
  moves text s b s' hs hkind h := by
    rw [bind_of_some (expect_of_eq hkind)] at h
    obtain ⟨hs', hbeyond, hheeds⟩ := (hf ()).leads text _ b s' hs.advanced h
    exact ⟨hs', (beyond_advanced hs).trans hbeyond hs hs.advanced, hheeds.export hkind⟩
  ends text s hs hkind hn := by
    have hlt := remaining_advanced_lt hs (by simp [hkind])
    obtain ⟨b, s', h⟩ := (hf ()).ends text _ hs.advanced (by omega)
    exact ⟨b, s', by rw [bind_of_some (expect_of_eq hkind), h]⟩

end Exports

/-! ## Steps that read a token -/

section Takes

variable {α β : Type} {n : Nat} {kind : TokenKind} {isOver : α → Bool} {isOver' : β → Bool}
  {p q : Parse α} {f : α → Parse β}

instance : Takes n Turn.isOver (pure .stop : Parse (Turn α)) where
  takes text s a s' hs _ h hover := by
    cases h
    cases hover

instance : Takes n Option.isNone (pure none : Parse (Option α)) where
  takes text s a s' hs _ h hover := by
    cases h
    cases hover

theorem Takes.bind [Moves n p] (hf : ∀ a, Takes n isOver' (f a)) : Takes n isOver' (p >>= f) where
  takes text s b s' hs hn h hover := by
    obtain ⟨a, s₁, hp, h⟩ := bind_eq_some.1 h
    obtain ⟨hs₁, hlater⟩ := Moves.moves n text s a s₁ hs hp
    have hn₁ := Nat.lt_of_le_of_lt hlater.remaining hn
    exact Nat.lt_of_lt_of_le ((hf a).takes text s₁ b s' hs₁ hn₁ h hover) hlater.remaining

instance [Moves n p] [hf : ∀ a, Takes n isOver' (f a)] : Takes n isOver' (p >>= f) :=
  .bind hf

instance {c : Prop} [Decidable c] [Takes n isOver p] [Takes n isOver q] :
    Takes n isOver (if c then p else q) := by
  split <;> infer_instance

/-- A list goes on after a comma. -/
instance (a : α) : Takes n Turn.isOver (turnAtComma a) where
  takes text s t s' hs _ h hover := by
    by_cases hkind : s.lexer.kind = .punctuator .comma
    · rw [turnAtComma, bind_of_some (accept_of_eq hkind)] at h
      cases h
      exact remaining_advanced_lt hs (by simp [hkind])
    · rw [turnAtComma, bind_of_some (accept_of_ne hkind)] at h
      cases h
      cases hover

instance (priority := low) [Takes n isOver p] : TakesAt n kind isOver p where
  takes text s a s' hs _ hn h hover := Takes.takes text s a s' hs hn h hover

theorem Takes.current_bind {f : TokenKind → Parse β} (hf : ∀ kind, TakesAt n kind isOver' (f kind)) :
    Takes n isOver' (current >>= f) where
  takes text s b s' hs hn h hover := (hf _).takes text s b s' hs rfl hn h hover

instance {f : TokenKind → Parse β} [h : TakesAt n kind isOver' (f kind)] :
    TakesAt n kind isOver' (current >>= f) where
  takes text s b s' hs hkind hn hf hover := h.takes text s b s' hs hkind hn (hkind ▸ hf) hover

instance (g : Lexer → α) [h : ∀ a, TakesAt n kind isOver' (f a)] :
    TakesAt n kind isOver' (look g >>= f) where
  takes text s b s' hs hkind hn hf hover := (h _).takes text s b s' hs hkind hn hf hover

instance {f : Nat → Parse β} [∀ a, TakesAt n kind isOver' (f a)] :
    TakesAt n kind isOver' (position >>= f) :=
  inferInstanceAs (TakesAt n kind isOver' (look _ >>= f))

instance {f : Range → Parse β} [∀ a, TakesAt n kind isOver' (f a)] :
    TakesAt n kind isOver' (tokenRange >>= f) :=
  inferInstanceAs (TakesAt n kind isOver' (look _ >>= f))

instance {c : Prop} [Decidable c] [TakesAt n kind isOver p] [TakesAt n kind isOver q] :
    TakesAt n kind isOver (if c then p else q) := by
  split <;> infer_instance

theorem TakesAt.of_opens {m : Nat} [hopens : Opens n kind p] [MovesAt n kind p] (hf : ∀ a, Moves m (f a)) :
    TakesAt n kind isOver' (p >>= f) where
  takes text s b s' hs hkind hn h _ := by
    obtain ⟨a, s₁, hp, hf'⟩ := bind_eq_some.1 h
    obtain ⟨hs₁, -⟩ := MovesAt.moves n text s a s₁ hs hkind hp
    have htaken := hopens.takes text s a s₁ hs hkind hn hp rfl
    exact Nat.lt_of_le_of_lt ((hf a).moves text s₁ b s' hs₁ hf').2.remaining htaken

instance [Opens n kind p] [MovesAt n kind p] [hf : ∀ a, Moves n (f a)] :
    TakesAt n kind isOver' (p >>= f) :=
  .of_opens hf

instance [Opens (n + 1) kind p] [MovesAt (n + 1) kind p] [hf : ∀ a, Moves n (f a)] :
    TakesAt (n + 1) kind isOver' (p >>= f) :=
  .of_opens hf

instance [Present kind] : Opens n kind advance where
  takes text s a s' hs hkind _ h _ := by
    cases h
    exact remaining_advanced_lt hs (hkind ▸ Present.ne)

instance [Present kind] : Opens n kind (expect kind) where
  takes text s a s' hs hkind _ h _ := by
    rw [expect_of_eq hkind] at h
    cases h
    exact remaining_advanced_lt hs (hkind ▸ Present.ne)

/-- What follows a token that was read. -/
theorem Moves.bind_option {p : Parse (Option α)} {f : Option α → Parse β} [Moves (n + 1) p]
    [htakes : Takes (n + 1) Option.isNone p] (hnone : Moves (n + 1) (f none))
    (hsome : ∀ a, Moves n (f (some a))) : Moves (n + 1) (p >>= f) := by
  refine .of_at fun _ => .bind_of (m := fun o => o.elim (n + 1) fun _ => n)
    (fun o => ?_) fun text s o s₁ hs _ hn hp hle => ?_
  · cases o with
    | none => exact hnone
    | some a => exact hsome a
  · cases o with
    | none => exact Nat.lt_of_le_of_lt hle hn
    | some a =>
      have hlt := htakes.takes text s _ s₁ hs hn hp rfl
      exact Nat.lt_of_lt_of_le hlt (Nat.le_of_lt_succ hn)

/-- What follows a token that was accepted. -/
instance [Present kind] [hp : Moves n p] [hq : Moves (n + 1) q] :
    Moves (n + 1) (accept kind >>= fun b => if b = true then p else q) := by
  refine .of_at fun _ => .bind_of (m := fun b => if b = true then n else n + 1)
    (fun b => ?_) fun text s b s₁ hs _ hn h hle => ?_
  · cases b with
    | true => exact hp
    | false => exact hq
  · by_cases hkind : s.lexer.kind = kind
    · rw [accept_of_eq hkind] at h
      cases h
      have hlt := remaining_advanced_lt hs (hkind ▸ Present.ne)
      exact Nat.lt_of_lt_of_le hlt (Nat.le_of_lt_succ hn)
    · rw [accept_of_ne hkind] at h
      cases h
      exact hn

end Takes

/-! ## Loops -/

section Loops

variable {α : Type} {n : Nat}

theorem moves_manyWithin (turn : Parse (Turn α)) [Moves n turn] (bound : Nat) :
    Moves 0 (manyWithin turn bound) := by
  induction bound with
  | zero => exact .of_none fun _ => rfl
  | succ bound ih =>
    have hturn : Moves 0 turn := .weaken n
    refine .bind fun t => ?_
    cases t <;> infer_instance

/-- There are fewer turns than characters. -/
theorem manyWithin_ends (turn : Parse (Turn α)) [Moves n turn] [htakes : Takes n Turn.isOver turn]
    {text : String} {bound : Nat} {s : State} (hs : s.Sound text) (hn : s.remaining < n)
    (hbound : s.remaining < bound) : ∃ as s', manyWithin turn bound s = some (as, s') := by
  induction bound generalizing s with
  | zero => omega
  | succ bound ih =>
    obtain ⟨t, s₁, hturn⟩ := Moves.ends (p := turn) text s hs hn
    obtain ⟨hs₁, hlater⟩ := Moves.moves n text s t s₁ hs hturn
    cases t with
    | stop => exact ⟨[], s₁, bind_eq_some.2 ⟨_, s₁, hturn, rfl⟩⟩
    | last a => exact ⟨[a], s₁, bind_eq_some.2 ⟨_, s₁, hturn, rfl⟩⟩
    | next a =>
      have hlt := htakes.takes text s _ s₁ hs hn hturn rfl
      obtain ⟨as, s', hmore⟩ := ih hs₁ (by omega) (by omega)
      refine ⟨a :: as, s', bind_eq_some.2 ⟨_, s₁, hturn, ?_⟩⟩
      exact bind_eq_some.2 ⟨as, s', hmore, rfl⟩

instance (turn : Parse (Turn α)) [Moves n turn] [Takes n Turn.isOver turn] :
    Moves n (many turn) where
  moves text s as s' hs h := (moves_manyWithin (n := n) turn _).moves text s as s' hs h
  ends text s hs hn := manyWithin_ends (n := n) turn hs hn (by omega)

theorem moves_iterateWithin (step : α → Parse (Option α)) [∀ a, Moves n (step a)] (bound : Nat)
    (a : α) : Moves 0 (iterateWithin step bound a) := by
  induction bound generalizing a with
  | zero => exact .of_none fun _ => rfl
  | succ bound ih =>
    have hstep (a : α) : Moves 0 (step a) := .weaken n
    refine .bind fun next => ?_
    cases next <;> infer_instance

theorem iterateWithin_ends (step : α → Parse (Option α)) [∀ a, Moves n (step a)]
    [htakes : ∀ a, Takes n Option.isNone (step a)] {text : String} {bound : Nat} {s : State} (a : α)
    (hs : s.Sound text) (hn : s.remaining < n) (hbound : s.remaining < bound) :
    ∃ b s', iterateWithin step bound a s = some (b, s') := by
  induction bound generalizing s a with
  | zero => omega
  | succ bound ih =>
    obtain ⟨next, s₁, hstep⟩ := Moves.ends (p := step a) text s hs hn
    obtain ⟨hs₁, hlater⟩ := Moves.moves n text s next s₁ hs hstep
    cases next with
    | none => exact ⟨a, s₁, bind_eq_some.2 ⟨_, s₁, hstep, rfl⟩⟩
    | some b =>
      have hlt := (htakes a).takes text s _ s₁ hs hn hstep rfl
      obtain ⟨c, s', hmore⟩ := ih b hs₁ (by omega) (by omega)
      exact ⟨c, s', bind_eq_some.2 ⟨_, s₁, hstep, hmore⟩⟩

instance (step : α → Parse (Option α)) [∀ a, Moves n (step a)] [∀ a, Takes n Option.isNone (step a)]
    (a : α) : Moves n (iterate step a) where
  moves text s b s' hs h := (moves_iterateWithin (n := n) step _ a).moves text s b s' hs h
  ends text s hs hn := iterateWithin_ends (n := n) step a hs hn (by omega)

instance (stop : TokenKind → Bool) (u : Unit) : Moves n (skipStep stop u) := by
  unfold skipStep; infer_instance

/-- Skipping goes on up to the end of the text. -/
theorem moves_skipTo {stop : TokenKind → Bool} (hstop : stop .endOfFile = true) :
    Moves n (skipTo stop) := by
  have (u : Unit) : Takes n Option.isNone (skipStep stop u) := by
    refine .current_bind fun kind => ?_
    split
    · infer_instance
    · have : Present kind := ⟨by rintro rfl; contradiction⟩
      infer_instance
  unfold skipTo
  infer_instance

instance (start : Nat) : Moves n (recover start) := by
  have : Moves n (skipTo isRecoveryPoint) := moves_skipTo rfl
  unfold recover
  infer_instance

end Loops

/-! ## Nesting -/

section Nesting

variable {α : Type} {n : Nat} {kind : TokenKind} {text : String} {missing body : Parse α}

variable {s s₁ s' s₂ : State} {a : α}

theorem leave_eq_some (h : leave s = some ((), s')) :
    ∃ depth, s.depth = depth + 1 ∧ s' = { s with depth } := by
  cases hdepth : s.depth with
  | zero =>
    rw [leave, get_bind, hdepth] at h
    cases h
  | succ depth =>
    rw [leave_eq hdepth] at h
    cases h
    exact ⟨depth, rfl, rfl⟩

theorem nested_of_aborted (h : s.isAborted = true) :
    nested missing body s = missing s := by
  have henter : enter s = some (false, { s with depth := s.depth + 1 }) := by
    rw [enter, modify_bind, get_bind, if_pos h]
    rfl
  rw [nested, bind_of_some henter]
  rfl

theorem nested_of_deep (h : ¬ s.isAborted = true) (hdeep : nestingLimit < s.depth + 1)
    (habort : abort { s with depth := s.depth + 1 } = some ((), s₁))
    (hleave : leave s₁ = some ((), s₂)) : nested missing body s = missing s₂ := by
  have henter : enter s = some (false, s₁) := by
    rw [enter, modify_bind, get_bind, if_neg h, get_bind, if_pos hdeep, bind_of_some habort]
    rfl
  rw [nested, bind_of_some henter, if_neg (by simp), bind_of_some hleave]

theorem nested_of_entered (h : ¬ s.isAborted = true) (hdeep : ¬ nestingLimit < s.depth + 1)
    (hbody : body { s with depth := s.depth + 1 } = some (a, s₁))
    (hleave : leave s₁ = some ((), s₂)) : nested missing body s = some (a, s₂) := by
  have henter : enter s = some (true, { s with depth := s.depth + 1 }) := by
    rw [enter, modify_bind, get_bind, if_neg h, get_bind, if_neg hdeep]
    rfl
  rw [nested, bind_of_some henter, if_pos rfl, bind_of_some hbody, bind_of_some hleave]
  rfl

/-- A construct is read, or it is missing: the rest of the text was skipped before, or is skipped
now because the text nests too deep. -/
theorem nested_cases (h : nested missing body s = some (a, s')) :
    (∃ s₁, s.isAborted = false ∧ s.depth < nestingLimit ∧
      body { s with depth := s.depth + 1 } = some (a, s₁) ∧ leave s₁ = some ((), s')) ∨
    s.isAborted = true ∧ missing s = some (a, s') ∨
    ∃ s₁ s₂, s.isAborted = false ∧ nestingLimit ≤ s.depth ∧
      abort { s with depth := s.depth + 1 } = some ((), s₁) ∧ leave s₁ = some ((), s₂) ∧
      missing s₂ = some (a, s') := by
  obtain ⟨entered, s₁, henter, h⟩ := bind_eq_some.1 h
  rw [enter, modify_bind, get_bind] at henter
  split at henter
  · rename_i haborted
    obtain ⟨rfl, rfl⟩ := pure_eq_some.1 henter
    exact .inr (.inl ⟨haborted, h⟩)
  rename_i haborted
  rw [get_bind] at henter
  split at henter
  · rename_i hdeep
    obtain ⟨⟨⟩, s₁', habort, henter⟩ := bind_eq_some.1 henter
    obtain ⟨rfl, rfl⟩ := pure_eq_some.1 henter
    obtain ⟨⟨⟩, s₂, hleave, h⟩ := bind_eq_some.1 h
    exact .inr (.inr ⟨s₁, s₂, by simpa using haborted, Nat.lt_succ_iff.1 hdeep, habort, hleave, h⟩)
  · rename_i hdeep
    obtain ⟨rfl, rfl⟩ := pure_eq_some.1 henter
    obtain ⟨b, s₂, hbody, h⟩ := bind_eq_some.1 h
    obtain ⟨⟨⟩, s₃, hleave, h⟩ := bind_eq_some.1 h
    obtain ⟨rfl, rfl⟩ := pure_eq_some.1 h
    exact .inl ⟨s₂, by simpa using haborted, Nat.not_lt.1 hdeep, hbody, hleave⟩

/-- A construct that was entered and left again. -/
theorem Later.leave (h : Later { s with depth := s.depth + 1 } s₁)
    (hleave : Grammar.leave s₁ = some ((), s₂)) (hs₁ : s₁.Sound text) :
    s₂.Sound text ∧ Later s s₂ := by
  obtain ⟨depth, hdepth, rfl⟩ := leave_eq_some hleave
  refine ⟨hs₁.of_eq rfl rfl rfl, { h with depth := ?_ }, h.toHeeds.reset⟩
  have := h.depth
  simp only at this ⊢
  omega

/-- Skipping the rest of the text tells that it nests too deep. -/
theorem State.Sound.abort {s s' : State} (hs : s.Sound text) (haborted : s.isAborted = false)
    (hdeep : nestingLimit < s.depth) (h : abort s = some ((), s')) :
    s'.Sound text ∧ Later s s' := by
  obtain ⟨hisAborted, hkind, -⟩ := abort_eq_some h haborted
  have hheeds : Heeds 0 s s' := by
    refine ⟨fun hskipped => ?_, fun _ => ?_⟩
    · rw [haborted] at hskipped
      cases hskipped
    · exact .inr ⟨.refl haborted, hdeep, h, .refl hisAborted hkind, by simp⟩
  have hskip : Moves 0 (skipTo (· = .endOfFile)) := moves_skipTo rfl
  obtain ⟨⟨⟩, s₁, hreport, h⟩ := bind_eq_some.1 h
  obtain ⟨-, rfl⟩ | ⟨hskipped, -⟩ := report_cases hreport
  · have hs₂ : ({ s with
        reports := s.reports ++ [.ofFault s.lexer.range.span (.tooDeep nestingLimit)]
        isAborted := true } : State).Sound text := hs.of_eq rfl rfl rfl
    obtain ⟨hs', hlater⟩ := hskip.moves text _ _ s' hs₂ h
    refine ⟨hs', Beyond.trans ?_ hlater.toBeyond hs hs₂, hheeds⟩
    exact { beyond_report s _ _ with isAborted := fun heq => by simp at heq }
  · rw [haborted] at hskipped
    cases hskipped

theorem abort_ends (hs : s.Sound text) : ∃ s', abort s = some ((), s') := by
  have hskip : Moves (s.remaining + 1) (skipTo (· = .endOfFile)) := moves_skipTo rfl
  obtain ⟨s₁, hreport⟩ := report_ends (.tooDeep nestingLimit) s
  have hs₂ : ({ s₁ with isAborted := true } : State).Sound text :=
    (hs.report hreport).of_eq rfl rfl rfl
  have hremaining : s₁.remaining = s.remaining := by
    obtain ⟨-, rfl⟩ | ⟨-, rfl⟩ := report_cases hreport <;> rfl
  obtain ⟨⟨⟩, s', hskip⟩ := hskip.ends text _ hs₂ (Nat.lt_succ_of_le (Nat.le_of_eq hremaining))
  exact ⟨s', bind_eq_some.2 ⟨_, s₁, hreport, hskip⟩⟩

/-- A construct that was read can be left, as everything within it was left. -/
theorem leave_ends (h : Later { s with depth := s.depth + 1 } s₁) :
    ∃ s₂, leave s₁ = some ((), s₂) :=
  ⟨_, leave_eq h.depth⟩

theorem MovesAt.nested (hmissing : Moves n missing) (hbody : MovesAt n kind body) :
    MovesAt n kind (nested missing body) where
  moves text s a s' hs hkind h := by
    have hdeeper : ({ s with depth := s.depth + 1 } : State).Sound text := hs.of_eq rfl rfl rfl
    obtain ⟨s₁, -, -, hbody', hleave⟩ | ⟨-, hmissing'⟩ |
      ⟨s₁, s₂, hgo, hdeep, habort, hleave, hmissing'⟩ := nested_cases h
    · obtain ⟨hs₁, hlater⟩ := hbody.moves text _ a s₁ hdeeper hkind hbody'
      exact hlater.leave hleave hs₁
    · exact hmissing.moves text s a s' hs hmissing'
    · obtain ⟨hs₁, hlater⟩ := hdeeper.abort hgo (Nat.lt_succ_of_le hdeep) habort
      obtain ⟨hs₂, hlater⟩ := hlater.leave hleave hs₁
      obtain ⟨hs', hlater'⟩ := hmissing.moves text s₂ a s' hs₂ hmissing'
      exact ⟨hs', hlater.trans hlater' hs hs₂⟩
  ends text s hs hkind hn := by
    have hdeeper : ({ s with depth := s.depth + 1 } : State).Sound text := hs.of_eq rfl rfl rfl
    by_cases haborted : s.isAborted = true
    · obtain ⟨a, s', hmissing'⟩ := hmissing.ends text s hs hn
      exact ⟨a, s', by rw [nested_of_aborted haborted, hmissing']⟩
    by_cases hdeep : nestingLimit < s.depth + 1
    · obtain ⟨s₁, habort⟩ := abort_ends hdeeper
      obtain ⟨hs₁, hlater⟩ := hdeeper.abort (by simpa using haborted) hdeep habort
      obtain ⟨s₂, hleave⟩ := leave_ends hlater
      obtain ⟨hs₂, hlater⟩ := hlater.leave hleave hs₁
      obtain ⟨a, s', hmissing'⟩ :=
        hmissing.ends text s₂ hs₂ (Nat.lt_of_le_of_lt hlater.remaining hn)
      exact ⟨a, s', by rw [nested_of_deep haborted hdeep habort hleave, hmissing']⟩
    · obtain ⟨a, s₁, hbody'⟩ := hbody.ends text _ hdeeper hkind hn
      obtain ⟨hs₁, hlater⟩ := hbody.moves text _ a s₁ hdeeper hkind hbody'
      obtain ⟨s₂, hleave⟩ := leave_ends hlater
      exact ⟨a, s₂, nested_of_entered haborted hdeep hbody' hleave⟩

instance [hmissing : Moves n missing] [hbody : MovesAt n kind body] :
    MovesAt n kind (nested missing body) :=
  .nested hmissing hbody

theorem Moves.nested (hmissing : Moves n missing) (hbody : Moves n body) :
    Moves n (nested missing body) :=
  .of_at fun _ => .nested hmissing inferInstance

instance [hmissing : Moves n missing] [hbody : Moves n body] : Moves n (nested missing body) :=
  .nested hmissing hbody

theorem withIn_eq_some {allowed : Bool} (h : withIn allowed body s = some (a, s')) :
    ∃ s₁, body { s with allowsIn := allowed } = some (a, s₁) ∧
      s' = { s₁ with allowsIn := s.allowsIn } := by
  rw [withIn, get_bind, modify_bind] at h
  obtain ⟨b, s₁, hbody, h⟩ := bind_eq_some.1 h
  rw [modify_bind] at h
  obtain ⟨rfl, rfl⟩ := pure_eq_some.1 h
  exact ⟨s₁, hbody, rfl⟩

instance (allowed : Bool) [Moves n body] : Moves n (withIn allowed body) where
  moves text s a s' hs h := by
    obtain ⟨s₁, hbody, rfl⟩ := withIn_eq_some h
    have hs' : ({ s with allowsIn := allowed } : State).Sound text := hs.of_eq rfl rfl rfl
    obtain ⟨hs₁, hlater⟩ := Moves.moves n text _ a s₁ hs' hbody
    exact ⟨hs₁.of_eq rfl rfl rfl, { hlater with allowsIn := rfl }, hlater.toHeeds.reset⟩
  ends text s hs hn := by
    have hs' : ({ s with allowsIn := allowed } : State).Sound text := hs.of_eq rfl rfl rfl
    obtain ⟨a, s₁, hbody⟩ := Moves.ends (p := body) text _ hs' hn
    refine ⟨a, { s₁ with allowsIn := s.allowsIn }, ?_⟩
    rw [withIn, get_bind, modify_bind, bind_of_some hbody]
    rfl

end Nesting

end Grammar

end LambdaLift
