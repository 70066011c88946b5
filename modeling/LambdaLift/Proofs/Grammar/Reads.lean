import LambdaLift.Grammar.State
import LambdaLift.Proofs.Token.Stream
import LambdaLift.Proofs.Tree.Nesting
import Mathlib.Logic.Function.Iterate

/-!
# Productions on known tokens

What a production gives on a text whose tokens are known, said as triples.

* `Tape`: a text with its tokens, and `At`, that a state has read all of them but the given ones.
* `Aborted`: the rest of the text was skipped because it nests too deep.
* `Reads`: from some tokens on, a production reads up to others and gives a good result, if the
  levels of nesting that it takes are left, and otherwise finds the text to nest too deep.
* `Peeks`: a production that only looks ahead.
* `Safe`: when the rest of the text was skipped, the production comes to an end and reports nothing
  more.
* `Reads.bind`, `reads_nested`, `reads_many`, `reads_iterate`: how triples are put together.
-/

namespace LambdaLift

open List

namespace Grammar

/-- A text whose tokens are known. -/
structure Tape where
  start : Lexer
  tokens : List Tok
  streams : Streams start tokens

/-- All tokens but `ts` have been read, without a fault. -/
structure At (tape : Tape) (s : State) (ts : List Tok) : Prop where
  lexer : ∃ before, before ++ ts = tape.tokens ∧ s.lexer = Lexer.scan^[before.length] tape.start
  reports : s.reports = []
  isAborted : s.isAborted = false
  allowsIn : s.allowsIn = true

/-- The text nests too deep, which is all that was reported, and the rest of it was skipped. -/
structure Aborted (s : State) : Prop where
  isAborted : s.isAborted = true
  kind : s.lexer.kind = .endOfFile
  here : s.lexer.here.rest = []
  lexerReports : s.lexer.reports = []
  reports : ∃ span, s.reports = [.ofFault span (.tooDeep nestingLimit)]

/-- From the tokens `ts` on, `p` reads up to `rest` and gives a result that satisfies `R`, if there
is room for the levels of nesting that it takes. Otherwise the text is found to nest too deep. -/
def Reads {α : Type} (tape : Tape) (levels : Nat) (p : Parse α) (ts rest : List Tok)
    (R : α → Prop) : Prop :=
  ∀ s, At tape s ts → s.depth ≤ nestingLimit → ∃ a s', p s = some (a, s') ∧ s'.depth = s.depth ∧
    (R a ∧ At tape s' rest ∧ s.depth + levels ≤ nestingLimit ∨
      Aborted s' ∧ nestingLimit < s.depth + levels)

/-- At the tokens `ts`, `p` gives a result that satisfies `R` and leaves everything as it is. -/
def Peeks {α : Type} (tape : Tape) (p : Parse α) (ts : List Tok) (R : α → Prop) : Prop :=
  ∀ s, At tape s ts → ∃ a, p s = some (a, s) ∧ R a

/-- When the rest of the text was skipped, `p` gives a result that satisfies `R`, and nothing more
is reported. -/
def Safe {α : Type} (p : Parse α) (R : α → Prop) : Prop :=
  ∀ s, Aborted s → ∃ a s', p s = some (a, s') ∧ s'.depth = s.depth ∧ R a ∧ Aborted s'

/-! ## The place in the text -/

section Place

variable {tape : Tape} {s s' : State} {t : Tok} {ts ts' : List Tok}

theorem streams_iterate {l : Lexer} {before : List Tok} (h : Streams l (before ++ ts)) :
    Streams (Lexer.scan^[before.length] l) ts := by
  induction before generalizing l with
  | nil => exact h
  | cons t before ih =>
    cases h with
    | cons _ _ _ _ _ more => exact ih more

theorem At.streams (h : At tape s ts) : Streams s.lexer ts := by
  obtain ⟨before, hbefore, hlexer⟩ := h.lexer
  rw [hlexer]
  exact streams_iterate (hbefore ▸ tape.streams)

/-- Where the current token starts. -/
def State.offset (s : State) : Nat :=
  s.lexer.start.offset

/-- The state after the current token. -/
def State.advanced (s : State) : State :=
  { s with
    lexer := s.lexer.scan
    previousEnd := s.lexer.here.offset
    tokens := s.lexer.token :: s.tokens }

theorem At.advanced (h : At tape s (t :: ts)) : At tape s.advanced ts where
  lexer := by
    obtain ⟨before, hbefore, hlexer⟩ := h.lexer
    refine ⟨before ++ [t], by simpa using hbefore, ?_⟩
    rw [length_append, length_singleton, Function.iterate_succ_apply', ← hlexer]
    rfl
  reports := h.reports
  isAborted := h.isAborted
  allowsIn := h.allowsIn

/-- What a state says besides the place in the text does not matter. -/
theorem At.of_lexer (h : At tape s ts) (hlexer : s'.lexer = s.lexer)
    (hreports : s'.reports = s.reports) (haborted : s'.isAborted = s.isAborted)
    (hin : s'.allowsIn = s.allowsIn) : At tape s' ts where
  lexer := by rw [hlexer]; exact h.lexer
  reports := hreports.trans h.reports
  isAborted := haborted.trans h.isAborted
  allowsIn := hin.trans h.allowsIn

theorem offset_iterate_lt {l : Lexer} {before : List Tok} (h : Streams l (t :: before ++ ts)) :
    l.start.offset < (Lexer.scan^[before.length + 1] l).start.offset := by
  induction before generalizing l t with
  | nil =>
    cases h with
    | cons _ _ _ offset _ _ => exact offset
  | cons u before ih =>
    cases h with
    | cons _ _ _ offset _ more => exact offset.trans (ih more)

/-- Reading tokens moves on in the text. -/
theorem At.offset_lt (h : At tape s (t :: ts' ++ ts)) (h' : At tape s' ts) :
    s.lexer.start.offset < s'.lexer.start.offset := by
  obtain ⟨before, hbefore, hlexer⟩ := h.lexer
  obtain ⟨before', hbefore', hlexer'⟩ := h'.lexer
  have hsame : before' = before ++ t :: ts' := by
    rw [← hbefore] at hbefore'
    exact append_cancel_right (by simpa using hbefore')
  have hstreams := h.streams
  rw [hlexer', hsame, length_append, Nat.add_comm, Function.iterate_add_apply, ← hlexer]
  exact offset_iterate_lt hstreams

/-- There are at least as many characters as tokens. -/
theorem length_le_of_streams {l : Lexer} (h : Streams l ts) : ts.length ≤ l.start.rest.length := by
  induction h with
  | nil => exact Nat.zero_le _
  | cons _ _ _ _ length _ ih =>
    rw [length_cons]
    omega

theorem At.length_le (h : At tape s ts) : ts.length ≤ s.remaining :=
  length_le_of_streams h.streams

end Place

variable {α β : Type}

theorem bind_of_some {x : Parse α} {f : α → Parse β} {s s' : State} {a : α}
    (h : x s = some (a, s')) : (x >>= f) s = f a s' := by
  change ((x s).bind fun r => f r.1 r.2) = f a s'
  rw [h, Option.bind_some]

theorem get_bind (f : State → Parse β) (s : State) : (get >>= f) s = f s s := rfl

theorem modify_bind (g : State → State) (f : PUnit → Parse β) (s : State) :
    (modify g >>= f) s = f ⟨⟩ (g s) := rfl

/-! ## When the rest of the text is skipped -/

section Safe

variable {x : Parse α} {f : α → Parse β} {Q R : α → Prop} {S : β → Prop}

theorem Safe.pure {a : α} (h : R a) : Safe (pure a) R :=
  fun s hs => ⟨a, s, rfl, rfl, h, hs⟩

theorem Safe.bind (hx : Safe x Q) (hf : ∀ a, Q a → Safe (f a) S) : Safe (x >>= f) S := by
  intro s hs
  obtain ⟨a, s₁, hxs, hd₁, ha, hs₁⟩ := hx s hs
  obtain ⟨b, s₂, hfs, hd₂, hb, hs₂⟩ := hf a ha s₁ hs₁
  exact ⟨b, s₂, (bind_of_some hxs).trans hfs, hd₂.trans hd₁, hb, hs₂⟩

theorem Safe.mono (hx : Safe x Q) (h : ∀ a, Q a → R a) : Safe x R := by
  intro s hs
  obtain ⟨a, s', hxs, hd, ha, hs'⟩ := hx s hs
  exact ⟨a, s', hxs, hd, h a ha, hs'⟩

theorem Safe.any (hx : Safe x Q) : Safe x fun _ => True :=
  hx.mono fun _ _ => trivial

theorem Safe.map {g : α → β} (hx : Safe x Q) : Safe (g <$> x) fun _ => True := by
  rw [map_eq_pure_bind]
  exact hx.bind fun a _ => .pure trivial

theorem safe_look (g : Lexer → α) : Safe (look g) fun _ => True :=
  fun s hs => ⟨g s.lexer, s, rfl, rfl, trivial, hs⟩

/-- Only the end of the text is left. -/
theorem safe_current : Safe current (· = .endOfFile) :=
  fun s hs => ⟨s.lexer.kind, s, rfl, rfl, hs.kind, hs⟩

theorem safe_rangeFrom (start : Nat) : Safe (rangeFrom start) fun _ => True :=
  fun s hs => ⟨_, s, rfl, rfl, trivial, hs⟩

theorem safe_report (fault : Fault) : Safe (report fault) fun _ => True := by
  intro s hs
  refine ⟨(), s, ?_, rfl, trivial, hs⟩
  rw [report, get_bind, hs.isAborted]
  rfl

theorem safe_accept {kind : TokenKind} (hkind : kind ≠ .endOfFile) :
    Safe (accept kind) (· = false) := by
  have haccept? : Safe (accept? kind) (· = none) := by
    refine safe_current.bind fun k hk => ?_
    rw [if_neg (by rw [hk]; exact hkind.symm)]
    exact .pure rfl
  exact haccept?.bind fun r hr => .pure (by rw [hr]; rfl)

theorem safe_expect {kind : TokenKind} (hkind : kind ≠ .endOfFile) :
    Safe (expect kind) fun _ => True := by
  refine (safe_accept hkind).bind fun b hb => ?_
  rw [hb]
  exact safe_report _

theorem safe_semicolon : Safe semicolon fun _ => True :=
  (safe_accept (by decide)).map

theorem safe_turnAtComma (a : α) : Safe (turnAtComma a) (· = .last a) := by
  refine (safe_accept (by decide)).bind fun b hb => .pure ?_
  rw [hb]
  rfl

/-- At the end of the text the next token is the end again. -/
theorem Aborted.advanced {s : State} (hs : Aborted s) : Aborted s.advanced := by
  have hhere : s.lexer.here = ⟨s.lexer.here.offset, []⟩ := by rw [← hs.here]
  obtain ⟨hkind, hrest, hreports⟩ := Lexer.scan_end hhere (by simp)
  exact ⟨hs.isAborted, hkind, hrest, hreports.trans hs.lexerReports, hs.reports⟩

theorem safe_advance : Safe advance fun _ => True :=
  fun s hs => ⟨(), s.advanced, rfl, rfl, trivial, hs.advanced⟩

theorem safe_iterateWithin {step : α → Parse (Option α)} {a : α} (h : Safe (step a) (· = none))
    (bound : Nat) : Safe (iterateWithin step (bound + 1) a) (· = a) := by
  refine h.bind fun next hnext => ?_
  rw [hnext]
  exact .pure rfl

theorem safe_iterate {step : α → Parse (Option α)} {a : α} (h : Safe (step a) (· = none)) :
    Safe (iterate step a) (· = a) :=
  fun s hs => safe_iterateWithin h _ s hs

/-- The loop is over after this turn. -/
def Turn.isOver : Turn α → Bool
  | .stop | .last _ => true
  | .next _ => false

theorem safe_manyWithin {turn : Parse (Turn α)} (h : Safe turn (·.isOver = true)) (bound : Nat) :
    Safe (manyWithin turn (bound + 1)) fun _ => True := by
  refine h.bind fun t ht => ?_
  cases t with
  | stop | last a => exact .pure trivial
  | next a => cases ht

theorem safe_many {turn : Parse (Turn α)} (h : Safe turn (·.isOver = true)) :
    Safe (many turn) fun _ => True :=
  fun s hs => safe_manyWithin h _ s hs

theorem safe_skipTo {p : TokenKind → Bool} (hp : p .endOfFile = true) :
    Safe (skipTo p) fun _ => True := by
  refine (safe_iterate ?_).any
  refine safe_current.bind fun k hk => ?_
  rw [hk, if_pos hp]
  exact .pure rfl

theorem safe_recover (start : Nat) : Safe (recover start) fun _ => True := by
  refine (safe_look _).bind fun n _ => ?_
  split
  · refine (safe_skipTo rfl).bind fun _ _ => (safe_look _).bind fun m _ => ?_
    split
    · exact safe_advance
    · exact .pure trivial
  · exact .pure trivial

end Safe

/-! ## Triples -/

section Reads

variable {tape : Tape} {t : Tok} {ts mid rest : List Tok} {levels levels' : Nat}
variable {x : Parse α} {f : α → Parse β} {Q R : α → Prop} {S : β → Prop}

theorem Reads.pure {a : α} (h : R a) : Reads tape 0 (pure a) ts ts R :=
  fun s hs hdepth => ⟨a, s, rfl, rfl, .inl ⟨h, hs, hdepth⟩⟩

/-- One production after another. If the first one finds the text to nest too deep, the second one
must come to an end. -/
theorem Reads.bind (hx : Reads tape levels x ts mid Q)
    (hf : ∀ a, Q a → Reads tape levels' (f a) mid rest S)
    (hsafe : ∀ a, Safe (f a) fun _ => True) :
    Reads tape (max levels levels') (x >>= f) ts rest S := by
  intro s hs hdepth
  obtain ⟨a, s₁, hxs, hd₁, ⟨ha, hs₁, hroom⟩ | ⟨hs₁, hdeep⟩⟩ := hx s hs hdepth
  · obtain ⟨b, s₂, hfs, hd₂, hres⟩ := hf a ha s₁ hs₁ (hd₁ ▸ hdepth)
    refine ⟨b, s₂, (bind_of_some hxs).trans hfs, hd₂.trans hd₁, ?_⟩
    rw [hd₁] at hres
    refine hres.imp ?_ ?_
    · rintro ⟨hb, hs₂, hroom'⟩
      exact ⟨hb, hs₂, by omega⟩
    · rintro ⟨hs₂, hdeep⟩
      exact ⟨hs₂, by omega⟩
  · obtain ⟨b, s₂, hfs, hd₂, -, hs₂⟩ := hsafe a s₁ hs₁
    exact ⟨b, s₂, (bind_of_some hxs).trans hfs, hd₂.trans hd₁, .inr ⟨hs₂, by omega⟩⟩

/-- A production before one that takes no levels. -/
theorem Reads.bind_flat (hx : Reads tape levels x ts mid Q)
    (hf : ∀ a, Q a → Reads tape 0 (f a) mid rest S) (hsafe : ∀ a, Safe (f a) fun _ => True) :
    Reads tape levels (x >>= f) ts rest S :=
  Nat.max_zero levels ▸ hx.bind hf hsafe

/-- A production after one that takes no levels. -/
theorem Reads.flat_bind (hx : Reads tape 0 x ts mid Q)
    (hf : ∀ a, Q a → Reads tape levels (f a) mid rest S) (hsafe : ∀ a, Safe (f a) fun _ => True) :
    Reads tape levels (x >>= f) ts rest S :=
  Nat.zero_max levels ▸ hx.bind hf hsafe

theorem Reads.mono (hx : Reads tape levels x ts rest Q) (h : ∀ a, Q a → R a) :
    Reads tape levels x ts rest R := by
  intro s hs hdepth
  obtain ⟨a, s', hxs, hd, hres⟩ := hx s hs hdepth
  exact ⟨a, s', hxs, hd, hres.imp_left fun ⟨ha, hs'⟩ => ⟨h a ha, hs'⟩⟩

theorem Reads.map {g : α → β} (hx : Reads tape levels x ts rest Q) (h : ∀ a, Q a → S (g a)) :
    Reads tape levels (g <$> x) ts rest S := by
  rw [map_eq_pure_bind]
  exact hx.bind_flat (fun a ha => .pure (h a ha)) fun a => .pure trivial

theorem Peeks.pure {a : α} (h : R a) : Peeks tape (pure a) ts R :=
  fun _ _ => ⟨a, rfl, h⟩

theorem Peeks.bind (hx : Peeks tape x ts Q) (hf : ∀ a, Q a → Peeks tape (f a) ts S) :
    Peeks tape (x >>= f) ts S := by
  intro s hs
  obtain ⟨a, hxs, ha⟩ := hx s hs
  obtain ⟨b, hfs, hb⟩ := hf a ha s hs
  exact ⟨b, (bind_of_some hxs).trans hfs, hb⟩

theorem Peeks.reads (hx : Peeks tape x ts Q) (hf : ∀ a, Q a → Reads tape levels (f a) ts rest S) :
    Reads tape levels (x >>= f) ts rest S := by
  intro s hs hdepth
  obtain ⟨a, hxs, ha⟩ := hx s hs
  obtain ⟨b, s', hfs, hres⟩ := hf a ha s hs hdepth
  exact ⟨b, s', (bind_of_some hxs).trans hfs, hres⟩

theorem peeks_look (g : Lexer → α) :
    Peeks tape (look g) ts fun a => ∃ l, Streams l ts ∧ g l = a :=
  fun s hs => ⟨g s.lexer, rfl, s.lexer, hs.streams, rfl⟩

theorem peeks_current : Peeks tape current (t :: ts) (· = t.kind) := by
  intro s hs
  refine ⟨s.lexer.kind, rfl, ?_⟩
  cases hs.streams with
  | cons stands _ _ _ _ _ => exact stands.kind

/-- Looking at the tokens reads nothing. -/
theorem reads_look {g : Lexer → α} (h : ∀ l, Streams l ts → Reads tape levels (f (g l)) ts rest S) :
    Reads tape levels (look g >>= f) ts rest S :=
  fun s hs => h s.lexer hs.streams s hs

theorem reads_position {f : Nat → Parse β} (h : ∀ n, Reads tape levels (f n) ts rest S) :
    Reads tape levels (position >>= f) ts rest S :=
  reads_look fun l _ => h l.start.offset

theorem reads_tokenRange {f : Range → Parse β} (h : ∀ r, Reads tape levels (f r) ts rest S) :
    Reads tape levels (tokenRange >>= f) ts rest S :=
  reads_look fun l _ => h l.range

theorem reads_rangeFrom {f : Range → Parse β} {start : Nat}
    (h : ∀ r, Reads tape levels (f r) ts rest S) : Reads tape levels (rangeFrom start >>= f) ts rest S :=
  fun s hs => h ⟨start, s.previousEnd⟩ s hs

theorem reads_current {f : TokenKind → Parse β} (h : Reads tape levels (f t.kind) (t :: ts) rest S) :
    Reads tape levels (current >>= f) (t :: ts) rest S :=
  peeks_current.reads fun _ hk => hk ▸ h

theorem reads_current_nil {f : TokenKind → Parse β}
    (h : Reads tape levels (f .endOfFile) [] rest S) : Reads tape levels (current >>= f) [] rest S := by
  refine reads_look fun l hl => ?_
  cases hl with
  | nil kind _ _ => exact kind ▸ h

theorem reads_advance {f : Unit → Parse β} (h : Reads tape levels (f ()) ts rest S) :
    Reads tape levels (advance >>= f) (t :: ts) rest S :=
  fun s hs => h s.advanced hs.advanced

/-! ### Tokens -/

theorem accept_of_eq {kind : TokenKind} {s : State} (h : s.lexer.kind = kind) :
    accept kind s = some (true, s.advanced) := by
  have haccept? : accept? kind s = some (some s.lexer.range, s.advanced) := by
    rw [accept?, bind_of_some (show current s = some (s.lexer.kind, s) from rfl), if_pos h]
    rfl
  exact bind_of_some haccept?

theorem accept_of_ne {kind : TokenKind} {s : State} (h : s.lexer.kind ≠ kind) :
    accept kind s = some (false, s) := by
  have haccept? : accept? kind s = some (none, s) := by
    rw [accept?, bind_of_some (show current s = some (s.lexer.kind, s) from rfl), if_neg h]
    rfl
  exact bind_of_some haccept?

theorem expect_of_eq {kind : TokenKind} {s : State} (h : s.lexer.kind = kind) :
    expect kind s = some ((), s.advanced) := by
  rw [expect, bind_of_some (accept_of_eq h)]
  rfl

theorem At.kind {s : State} (h : At tape s (t :: ts)) : s.lexer.kind = t.kind := by
  cases h.streams with
  | cons stands _ _ _ _ _ => exact stands.kind

theorem reads_accept {kind : TokenKind} {f : Bool → Parse β} (h : t.kind = kind)
    (hf : Reads tape levels (f true) ts rest S) : Reads tape levels (accept kind >>= f) (t :: ts) rest S := by
  intro s hs
  rw [bind_of_some (accept_of_eq (hs.kind.trans h))]
  exact hf s.advanced hs.advanced

theorem reads_accept_ne {kind : TokenKind} {f : Bool → Parse β} (h : t.kind ≠ kind)
    (hf : Reads tape levels (f false) (t :: ts) rest S) :
    Reads tape levels (accept kind >>= f) (t :: ts) rest S := by
  intro s hs
  rw [bind_of_some (accept_of_ne (hs.kind ▸ h))]
  exact hf s hs

theorem reads_accept?_ne {kind : TokenKind} {f : Option Range → Parse β} (h : t.kind ≠ kind)
    (hf : Reads tape levels (f none) (t :: ts) rest S) :
    Reads tape levels (accept? kind >>= f) (t :: ts) rest S := by
  rw [accept?, bind_assoc]
  refine reads_current ?_
  rw [if_neg h, pure_bind]
  exact hf

theorem reads_expect {kind : TokenKind} {f : Unit → Parse β} (h : t.kind = kind)
    (hf : Reads tape levels (f ()) ts rest S) : Reads tape levels (expect kind >>= f) (t :: ts) rest S := by
  intro s hs
  rw [bind_of_some (expect_of_eq (hs.kind.trans h))]
  exact hf s.advanced hs.advanced

/-- What follows a leading token is on the same line. -/
theorem reads_expect_look {kind : TokenKind} {g : Lexer → α}
    (h : ∀ l, Streams l ts → l.lineBreakBefore = false → Reads tape levels (f (g l)) ts rest S) :
    Reads tape levels (do expect kind; f (← look g)) (.leading kind :: ts) rest S := by
  intro s hs
  rw [bind_of_some (expect_of_eq (show s.lexer.kind = kind from hs.kind))]
  refine h s.advanced.lexer hs.advanced.streams ?_ s.advanced hs.advanced
  cases hs.streams with
  | cons stands _ _ _ _ _ => exact stands.leading kind rfl

theorem reads_semicolon {f : Unit → Parse β} (h : t.kind = .punctuator .semicolon)
    (hf : Reads tape levels (f ()) ts rest S) : Reads tape levels (semicolon >>= f) (t :: ts) rest S := by
  intro s hs
  have hsemicolon : semicolon s = some ((), s.advanced) := by
    change ((accept _ s).bind fun r => some ((), r.2)) = _
    rw [accept_of_eq (hs.kind.trans h), Option.bind_some]
  rw [bind_of_some hsemicolon]
  exact hf s.advanced hs.advanced

/-- After an item a comma says that the list goes on. -/
theorem reads_turnAtComma (a : α) (h : t.kind = .punctuator .comma) :
    Reads tape 0 (turnAtComma a) (t :: ts) ts (· = .next a) :=
  reads_accept h (.pure rfl)

theorem reads_turnAtComma_last (a : α) (h : t.kind ≠ .punctuator .comma) :
    Reads tape 0 (turnAtComma a) (t :: ts) (t :: ts) (· = .last a) :=
  reads_accept_ne h (.pure rfl)

/-- In lifted code the word `in` is an operator everywhere. -/
theorem reads_withIn (hx : Reads tape levels x ts rest R) : Reads tape levels (withIn true x) ts rest R := by
  intro s hs hdepth
  rw [withIn, get_bind, modify_bind]
  have hs₁ : At tape { s with allowsIn := true } ts := hs.of_lexer rfl rfl rfl hs.allowsIn.symm
  obtain ⟨a, s', hxs, hd, hres⟩ := hx _ hs₁ hdepth
  refine ⟨a, { s' with allowsIn := s.allowsIn }, (bind_of_some hxs).trans rfl, hd, ?_⟩
  rcases hres with ⟨ha, hs', hroom⟩ | ⟨hs', hdeep⟩
  · exact .inl ⟨ha, hs'.of_lexer rfl rfl rfl (hs.allowsIn.trans hs'.allowsIn.symm), hroom⟩
  · exact .inr ⟨⟨hs'.isAborted, hs'.kind, hs'.here, hs'.lexerReports, hs'.reports⟩, hdeep⟩

/-! ### Nesting -/

theorem current_eq (s : State) : current s = some (s.lexer.kind, s) := rfl

theorem skip_to_end {l : Lexer} (h : Streams l ts) {s : State} (hl : s.lexer = l) {bound : Nat}
    (hbound : ts.length < bound) :
    ∃ s', iterateWithin (skipStep (· = .endOfFile)) bound () s = some ((), s') ∧
      Streams s'.lexer [] ∧ s'.depth = s.depth ∧ s'.reports = s.reports ∧
      s'.isAborted = s.isAborted := by
  induction h generalizing s bound with
  | nil kind here reports =>
    obtain ⟨bound, rfl⟩ := Nat.exists_eq_succ_of_ne_zero (Nat.ne_zero_of_lt hbound)
    have hstep : skipStep (· = .endOfFile) () s = some (none, s) := by
      rw [skipStep, bind_of_some (current_eq s), hl, if_pos (by simpa using kind)]
      rfl
    exact ⟨s, (bind_of_some hstep).trans rfl, hl ▸ .nil kind here reports, rfl, rfl, rfl⟩
  | cons stands valid reports offset length more ih =>
    obtain ⟨bound, rfl⟩ := Nat.exists_eq_succ_of_ne_zero (Nat.ne_zero_of_lt hbound)
    have hkind : s.lexer.kind ≠ .endOfFile := by
      rw [hl, stands.kind]
      exact (Tok.kind_ne valid).1
    have hstep : skipStep (· = .endOfFile) () s = some (some (), s.advanced) := by
      rw [skipStep, bind_of_some (current_eq s), if_neg (by simpa using hkind)]
      rfl
    obtain ⟨s', hs', hrest⟩ := ih (show s.advanced.lexer = _ by rw [← hl]; rfl)
      (Nat.lt_of_succ_lt_succ hbound)
    exact ⟨s', (bind_of_some hstep).trans hs', hrest⟩

/-- At a construct that nests too deep the rest of the text is skipped. -/
theorem abort_eq {s : State} (hs : At tape s ts) :
    ∃ s', abort s = some ((), s') ∧ s'.depth = s.depth ∧ Aborted s' := by
  have hreport : report (.tooDeep nestingLimit) s = some ((),
      { s with reports := [.ofFault s.lexer.range.span (.tooDeep nestingLimit)] }) := by
    rw [report, get_bind, if_pos (by simp [hs.isAborted])]
    change some ((), { s with reports := s.reports ++ _ }) = _
    rw [hs.reports]
    rfl
  have hlength := hs.length_le
  obtain ⟨s', hskip, hend, hdepth, hreports, haborted⟩ :=
    skip_to_end (s := { s with
      reports := [.ofFault s.lexer.range.span (.tooDeep nestingLimit)], isAborted := true })
      hs.streams rfl (Nat.lt_of_le_of_lt hlength (Nat.lt_add_of_pos_right Nat.two_pos))
  refine ⟨s', ?_, hdepth, ?_⟩
  · rw [abort, bind_of_some hreport, modify_bind, skipTo]
    exact hskip
  · cases hend with
    | nil kind here reports => exact ⟨haborted, kind, here, reports, _, hreports⟩

theorem leave_eq {s : State} {depth : Nat} (h : s.depth = depth + 1) :
    leave s = some ((), { s with depth }) := by
  rw [leave, get_bind, h]
  rfl

/-- Nesting costs a level, which is given back. -/
theorem reads_nested {missing body : Parse α} (hbody : Reads tape levels body ts rest R)
    (hmissing : Safe missing fun _ => True) :
    Reads tape (levels + 1) (nested missing body) ts rest R := by
  intro s hs _
  have hs₁ : At tape { s with depth := s.depth + 1 } ts := hs.of_lexer rfl rfl rfl rfl
  rw [nested]
  by_cases hdeep : nestingLimit < s.depth + 1
  · obtain ⟨s₂, habort, hdepth, hs₂⟩ := abort_eq hs₁
    have henter : enter s = some (false, s₂) := by
      rw [enter, modify_bind, get_bind, if_neg (by simp [hs.isAborted]), get_bind, if_pos hdeep,
        bind_of_some habort]
      rfl
    have hleft : Aborted { s₂ with depth := s.depth } :=
      ⟨hs₂.isAborted, hs₂.kind, hs₂.here, hs₂.lexerReports, hs₂.reports⟩
    obtain ⟨a, s', hmiss, hd, -, hs'⟩ := hmissing _ hleft
    refine ⟨a, s', ?_, hd, .inr ⟨hs', by omega⟩⟩
    rw [bind_of_some henter]
    exact (bind_of_some (leave_eq hdepth)).trans hmiss
  · have henter : enter s = some (true, { s with depth := s.depth + 1 }) := by
      rw [enter, modify_bind, get_bind, if_neg (by simp [hs.isAborted]), get_bind, if_neg hdeep]
      rfl
    obtain ⟨a, s₂, hb, hd, hres⟩ := hbody _ hs₁ (Nat.not_lt.1 hdeep)
    refine ⟨a, { s₂ with depth := s.depth }, ?_, rfl, ?_⟩
    · rw [bind_of_some henter]
      exact (bind_of_some hb).trans ((bind_of_some (leave_eq hd)).trans rfl)
    · rw [Nat.add_right_comm] at hres
      rcases hres with ⟨ha, hs₂, hroom⟩ | ⟨hs₂, hmore⟩
      · exact .inl ⟨ha, hs₂.of_lexer rfl rfl rfl rfl, hroom⟩
      · exact .inr ⟨⟨hs₂.isAborted, hs₂.kind, hs₂.here, hs₂.lexerReports, hs₂.reports⟩, hmore⟩

/-! ### Loops -/

section Loops

variable {turn : Parse (Turn α)} {R : List α → Prop} {bound : Nat}

section Turns

variable (hsafe : Safe turn (·.isOver = true)) (hbound : 0 < bound)

include hsafe hbound

theorem safe_afterTurn (t : Turn α) :
    Safe (match t with
      | .stop => return []
      | .last a => return [a]
      | .next a => return a :: (← manyWithin turn bound)) fun _ => True := by
  cases t with
  | stop | last a => exact .pure trivial
  | next a =>
    obtain ⟨bound, rfl⟩ := Nat.exists_eq_succ_of_ne_zero hbound.ne'
    exact (safe_manyWithin hsafe bound).bind fun _ _ => .pure trivial

theorem reads_stop (h : Reads tape 0 turn ts rest (· = .stop)) (hR : R []) :
    Reads tape 0 (manyWithin turn (bound + 1)) ts rest R := by
  refine h.bind_flat ?_ (safe_afterTurn hsafe hbound)
  rintro _ rfl
  exact .pure hR

theorem reads_last
    (h : Reads tape levels turn ts rest fun t => ∃ a, t = .last a ∧ Q a)
    (hR : ∀ a, Q a → R [a]) : Reads tape levels (manyWithin turn (bound + 1)) ts rest R := by
  refine h.bind_flat ?_ (safe_afterTurn hsafe hbound)
  rintro _ ⟨a, rfl, ha⟩
  exact .pure (hR a ha)

theorem reads_next
    (h : Reads tape levels turn ts mid fun t => ∃ a, t = .next a ∧ Q a)
    (hmore : ∀ a, Q a →
      Reads tape levels' (manyWithin turn bound) mid rest fun as => R (a :: as)) :
    Reads tape (max levels levels') (manyWithin turn (bound + 1)) ts rest R := by
  refine h.bind ?_ (safe_afterTurn hsafe hbound)
  rintro _ ⟨a, rfl, ha⟩
  exact (hmore a ha).bind_flat (fun as has => .pure has) fun as => .pure trivial

end Turns

/-- The bound of a loop is more than the number of tokens that are left. -/
theorem reads_many
    (h : ∀ bound, ts.length + 1 < bound → Reads tape levels (manyWithin turn bound) ts rest R) :
    Reads tape levels (many turn) ts rest R :=
  fun s hs => h _ (by have := hs.length_le; omega) s hs

/-! Lists with commas. -/

section Lists

variable {ι γ : Type} {toks : ι → List Tok} {f : α → γ} {g : ι → γ} {levelsOf : ι → Nat}

/-- The tokens of items that follow another one: a comma stands before each. -/
def moreTokens (toks : ι → List Tok) (items : List ι) : List Tok :=
  items.flatMap fun i => .fixed (.punctuator .comma) :: toks i

/-- The tokens of items with commas between them. -/
def listTokens (toks : ι → List Tok) : List ι → List Tok
  | [] => []
  | i :: items => toks i ++ moreTokens toks items

theorem length_le_moreTokens (toks : ι → List Tok) (items : List ι) :
    items.length ≤ (moreTokens toks items).length := by
  induction items with
  | nil => simp
  | cons i items ih =>
    simp only [moreTokens, flatMap_cons, length_append, length_cons] at ih ⊢
    omega

theorem length_le_listTokens {items : List ι} {i : ι} (hi : i ∈ items) :
    (toks i).length ≤ (listTokens toks items).length := by
  have hmore : ∀ items : List ι, i ∈ items → (toks i).length ≤ (moreTokens toks items).length := by
    intro items hi
    rw [moreTokens, flatMap_def]
    have hsub := sublist_flatten_of_mem
      (mem_map_of_mem (f := fun i => Tok.fixed (.punctuator .comma) :: toks i) hi)
    exact (sublist_cons_self _ _).trans hsub |>.length_le
  cases items with
  | nil => simp at hi
  | cons j items =>
    rw [listTokens, length_append]
    rcases mem_cons.1 hi with rfl | hi
    · omega
    · have := hmore items hi
      omega

/-- All items of a list from one on. -/
theorem reads_commaTurns (hsafe : Safe turn (·.isOver = true)) (i : ι) (items : List ι)
    (hnext : ∀ j ∈ i :: items, ∀ us,
      Reads tape (levelsOf j) turn (toks j ++ .fixed (.punctuator .comma) :: us) us
        fun t => ∃ a, t = .next a ∧ f a = g j)
    (hlast : ∀ j ∈ i :: items, Reads tape (levelsOf j) turn (toks j ++ rest) rest
      fun t => ∃ a, t = .last a ∧ f a = g j)
    (hbound : items.length + 1 < bound) :
    Reads tape (mostLevels levelsOf (i :: items)) (manyWithin turn bound)
      (toks i ++ (moreTokens toks items ++ rest)) rest
      fun as => as.map f = (i :: items).map g := by
  obtain ⟨bound, rfl⟩ := Nat.exists_eq_succ_of_ne_zero (Nat.ne_zero_of_lt hbound)
  induction items generalizing i bound with
  | nil =>
    rw [mostLevels, mostLevels, Nat.max_zero]
    exact reads_last hsafe (by omega) (hlast i (mem_cons_self ..)) fun a ha => by simp [ha]
  | cons j items ih =>
    obtain ⟨bound, rfl⟩ := Nat.exists_eq_succ_of_ne_zero (show bound ≠ 0 by simp at hbound; omega)
    have htokens : moreTokens toks (j :: items) ++ rest =
        .fixed (.punctuator .comma) :: (toks j ++ (moreTokens toks items ++ rest)) := by
      simp [moreTokens]
    rw [htokens]
    refine reads_next hsafe (by omega) (hnext i (mem_cons_self ..) _) fun a ha => ?_
    refine (ih j (fun k hk => hnext k (mem_cons_of_mem _ hk))
      (fun k hk => hlast k (mem_cons_of_mem _ hk)) bound ?_).mono fun as has => ?_
    · simp only [length_cons] at hbound ⊢
      omega
    · simp [ha, has]

/-- **Lists.** Every item of a list is read, up to the token that ends the list. -/
theorem reads_list (hsafe : Safe turn (·.isOver = true)) (items : List ι)
    (hstop : Reads tape 0 turn rest rest (· = .stop))
    (hnext : ∀ j ∈ items, ∀ us,
      Reads tape (levelsOf j) turn (toks j ++ .fixed (.punctuator .comma) :: us) us
        fun t => ∃ a, t = .next a ∧ f a = g j)
    (hlast : ∀ j ∈ items, Reads tape (levelsOf j) turn (toks j ++ rest) rest
      fun t => ∃ a, t = .last a ∧ f a = g j) :
    Reads tape (mostLevels levelsOf items) (many turn) (listTokens toks items ++ rest) rest
      fun as => as.map f = items.map g := by
  refine reads_many fun bound hbound => ?_
  cases items with
  | nil =>
    obtain ⟨bound, rfl⟩ := Nat.exists_eq_succ_of_ne_zero (Nat.ne_zero_of_lt hbound)
    exact reads_stop hsafe (by omega) hstop rfl
  | cons i items =>
    have hlength := length_le_moreTokens toks items
    rw [listTokens, append_assoc] at hbound ⊢
    refine reads_commaTurns hsafe i items hnext hlast ?_
    simp only [length_append] at hbound
    omega

end Lists

end Loops

section Iterate

variable {step : α → Parse (Option α)} {a : α} {bound : Nat}
  (hsafe : ∀ a, Safe (step a) (· = none))

include hsafe

theorem safe_afterStep (hbound : 0 < bound) (next : Option α) :
    Safe (match next with
      | some b => iterateWithin step bound b
      | none => return a) fun _ => True := by
  cases next with
  | none => exact .pure trivial
  | some b =>
    obtain ⟨bound, rfl⟩ := Nat.exists_eq_succ_of_ne_zero hbound.ne'
    exact (safe_iterateWithin (hsafe b) bound).any

/-- There is no next value. -/
theorem reads_done (hbound : 0 < bound) (h : Reads tape 0 (step a) ts rest (· = none)) (hR : R a) :
    Reads tape 0 (iterateWithin step (bound + 1) a) ts rest R := by
  refine h.bind_flat ?_ (safe_afterStep hsafe hbound)
  rintro _ rfl
  exact .pure hR

/-- There is a next value, and no other one after it. -/
theorem reads_step (hbound : 0 < bound)
    (h : Reads tape levels (step a) ts mid fun next => ∃ b, next = some b ∧ Q b)
    (hmore : ∀ b, Q b → Reads tape 0 (iterateWithin step bound b) mid rest R) :
    Reads tape levels (iterateWithin step (bound + 1) a) ts rest R := by
  refine h.bind_flat ?_ (safe_afterStep hsafe hbound)
  rintro _ ⟨b, rfl, hb⟩
  exact hmore b hb

/-- A loop that is over at once. -/
theorem reads_iterate_none (h : Reads tape 0 (step a) ts rest (· = none)) (hR : R a) :
    Reads tape 0 (iterate step a) ts rest R :=
  fun s hs => reads_done hsafe (Nat.succ_pos _) h hR s hs

/-- A loop of one turn. -/
theorem reads_iterate_once
    (h : Reads tape levels (step a) ts rest fun next => ∃ b, next = some b ∧ R b)
    (hend : ∀ b, R b → Reads tape 0 (step b) rest rest (· = none)) (hts : 0 < ts.length) :
    Reads tape levels (iterate step a) ts rest R := by
  intro s hs
  have hlength := hs.length_le
  obtain ⟨bound, hbound⟩ : ∃ bound, s.remaining = bound + 1 :=
    Nat.exists_eq_succ_of_ne_zero (by omega)
  have hread : Reads tape levels (iterateWithin step (bound + 1 + 2) a) ts rest R :=
    reads_step hsafe (by omega) h fun b hb => reads_done hsafe (by omega) (hend b hb) hb
  rw [← hbound] at hread
  exact hread s hs

end Iterate

end Reads

end Grammar

end LambdaLift
