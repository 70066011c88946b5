import LambdaLift.Proofs.Grammar.Order
import LambdaLift.Proofs.Grammar.Reads
import LambdaLift.Proofs.Token.LookAhead
import LambdaLift.Proofs.Token.Reach

/-!
# How reading moves on

A production that reads something that can be lifted moves on token by token and keeps all reports.

* `Follows s s'`: `s'` comes after `s` in this way.
* `Clean s`: nothing was reported up to `s`. Then nothing was reported before `s` either.
* `Passes p`: `p` moves on, whatever it gives.
* `Yields s₀ past p Sup Good marks`: after `s₀`, where `past` was read before, if `p` gives something
  that satisfies `Sup`, it has moved on, and the `marks` of what it gives are in order. Without a
  report and without an escape in a name, what it gives satisfies `Good`.
-/

namespace LambdaLift

/-- From `l` on no name is written with an escape. -/
def PlainNames (l : Lexer) : Prop :=
  ∀ k, (Lexer.scan^[k] l).flags.escapedName = false

namespace Grammar

/-- Reading moved on from `s` to `s'` by scanning. Reports stay, and the rest of a text is skipped
only with a report. -/
structure Follows (s s' : State) : Prop where
  lexer : ∃ k, s'.lexer = Lexer.scan^[k] s.lexer
  reports : s.reports <+: s'.reports
  isAborted : s'.reports = s.reports → s'.isAborted = s.isAborted

/-- Nothing was reported so far. -/
structure Clean (s : State) : Prop where
  reports : s.reports = []
  lexerReports : s.lexer.reports = []
  isAborted : s.isAborted = false

/-- `p` moves on. -/
class Passes {α : Type} (p : Parse α) : Prop where
  follows : ∀ {s a s'}, p s = some (a, s') → Follows s s'

/-- The state is reached from `s₀`, which is before the first token, and its lexer is on a token. -/
structure Reached (s₀ s : State) : Prop extends Follows s₀ s where
  source : s₀.lexer.kind = .unknown
  isOrdered : s.lexer.IsOrdered

/-- Nothing was reported so far, and from `s₀` on no name is written with an escape. -/
structure Faultless (s₀ s : State) : Prop extends Clean s where
  names : PlainNames s₀.lexer

/-- After `s₀` and `past`, a supported result of `p` comes with moving on and with `marks` in order,
and is good if there is no fault. -/
def Yields {α : Type} (s₀ : State) (past : List Landmark) (p : Parse α) (Sup Good : α → Prop)
    (marks : α → List Landmark) : Prop :=
  ∀ lo s a s', p s = some (a, s') → Reached s₀ s → InOrder lo s.offset past → Sup a →
    Follows s s' ∧ (Faultless s₀ s' → Good a) ∧ InOrder lo s'.offset (marks a)

section States

variable {s₀ s s' s₁ s₂ s₃ : State}

theorem Follows.refl (s : State) : Follows s s :=
  ⟨⟨0, rfl⟩, List.prefix_rfl, fun _ => rfl⟩

theorem Follows.trans (h : Follows s₁ s₂) (h' : Follows s₂ s₃) : Follows s₁ s₃ where
  lexer := by
    obtain ⟨k, hk⟩ := h.lexer
    obtain ⟨k', hk'⟩ := h'.lexer
    exact ⟨k' + k, by rw [hk', hk, Function.iterate_add_apply]⟩
  reports := h.reports.trans h'.reports
  isAborted := by
    intro heq
    -- Reports that stay the same over both steps stay the same over each.
    have hprefix : s₂.reports <+: s₁.reports := heq ▸ h'.reports
    have heq₁ : s₂.reports = s₁.reports :=
      hprefix.eq_of_length_le h.reports.length_le
    rw [h'.isAborted (heq.trans heq₁.symm), h.isAborted heq₁]

/-- A change of what no fault and no token depends on. -/
theorem Follows.of_eq (hlexer : s'.lexer = s.lexer) (hreports : s'.reports = s.reports)
    (hisAborted : s'.isAborted = s.isAborted) : Follows s s' :=
  ⟨⟨0, hlexer⟩, hreports ▸ List.prefix_rfl, fun _ => hisAborted⟩

theorem follows_advanced (s : State) : Follows s s.advanced :=
  ⟨⟨1, rfl⟩, List.prefix_rfl, fun _ => rfl⟩

theorem reports_prefix_iterate (l : Lexer) (k : Nat) : l.reports <+: (Lexer.scan^[k] l).reports := by
  induction k generalizing l with
  | zero => exact List.prefix_rfl
  | succ k ih => exact (Lexer.reports_prefix_scan l).trans (ih l.scan)

theorem Follows.clean (h : Follows s s') (hs : Clean s') : Clean s := by
  have hreports : s.reports = [] := List.prefix_nil.1 (hs.reports ▸ h.reports)
  refine ⟨hreports, ?_, ?_⟩
  · obtain ⟨k, hk⟩ := h.lexer
    have := reports_prefix_iterate s.lexer k
    rw [← hk, hs.lexerReports] at this
    exact List.prefix_nil.1 this
  · rw [← h.isAborted (hs.reports.trans hreports.symm), hs.isAborted]

theorem Follows.faultless (h : Follows s s') (hs : Faultless s₀ s') : Faultless s₀ s :=
  ⟨h.clean hs.toClean, hs.names⟩

theorem Reached.follow (h : Reached s₀ s) (h' : Follows s s') : Reached s₀ s' := by
  refine ⟨h.toFollows.trans h', h.source, ?_⟩
  obtain ⟨k, hk⟩ := h'.lexer
  rw [hk]
  exact h.isOrdered.iterate k

theorem Reached.offset_le (h : Reached s₀ s) (h' : Follows s s') : s.offset ≤ s'.offset := by
  obtain ⟨k, hk⟩ := h'.lexer
  rw [State.offset, State.offset, hk]
  exact h.isOrdered.start_le_iterate k

end States

/-! ## Opening a step -/

section Steps

variable {α β : Type} {p : Parse α} {f : α → Parse β} {s s' : State} {a : α} {b : β}

theorem bind_eq_some : (p >>= f) s = some (b, s') ↔
    ∃ a s₁, p s = some (a, s₁) ∧ f a s₁ = some (b, s') := by
  change ((p s).bind fun r => f r.1 r.2) = _ ↔ _
  rw [Option.bind_eq_some_iff]
  exact ⟨fun ⟨⟨a, s₁⟩, hp, hf⟩ => ⟨a, s₁, hp, hf⟩, fun ⟨a, s₁, hp, hf⟩ => ⟨⟨a, s₁⟩, hp, hf⟩⟩

theorem pure_eq_some {a' : α} : (pure a : Parse α) s = some (a', s') ↔ a' = a ∧ s' = s := by
  change some (a, s) = _ ↔ _
  rw [Option.some.injEq, Prod.mk.injEq]
  exact ⟨fun ⟨ha, hs⟩ => ⟨ha.symm, hs.symm⟩, fun ⟨ha, hs⟩ => ⟨ha.symm, hs.symm⟩⟩

theorem map_eq_some {g : α → β} : (g <$> p) s = some (b, s') ↔
    ∃ a, p s = some (a, s') ∧ g a = b := by
  rw [map_eq_pure_bind, bind_eq_some]
  constructor
  · rintro ⟨a, s₁, hp, hpure⟩
    obtain ⟨rfl, rfl⟩ := pure_eq_some.1 hpure
    exact ⟨a, hp, rfl⟩
  · rintro ⟨a, hp, rfl⟩
    exact ⟨a, s', hp, rfl⟩

theorem look_bind (g : Lexer → α) (f : α → Parse β) (s : State) :
    (look g >>= f) s = f (g s.lexer) s := rfl

theorem current_bind (f : TokenKind → Parse β) (s : State) :
    (current >>= f) s = f s.lexer.kind s := rfl

theorem position_bind (f : Nat → Parse β) (s : State) :
    (position >>= f) s = f s.lexer.start.offset s := rfl

theorem tokenRange_bind (f : Range → Parse β) (s : State) :
    (tokenRange >>= f) s = f s.lexer.range s := rfl

theorem rangeFrom_bind (start : Nat) (f : Range → Parse β) (s : State) :
    (rangeFrom start >>= f) s = f ⟨start, s.previousEnd⟩ s := rfl

theorem advance_bind (f : Unit → Parse β) (s : State) :
    (advance >>= f) s = f () s.advanced := rfl

end Steps

/-! ## Steps that move on -/

section Passes

variable {α β : Type} {p : Parse α} {f : α → Parse β}

instance Passes.pure (a : α) : Passes (pure a) := by
  constructor
  rintro s a s' ⟨⟩
  exact .refl _

instance Passes.bind [Passes p] [∀ a, Passes (f a)] : Passes (p >>= f) := by
  constructor
  intro s b s' h
  obtain ⟨a, s₁, hp, hf⟩ := bind_eq_some.1 h
  exact (follows hp).trans (follows hf)

instance Passes.map {g : α → β} [Passes p] : Passes (g <$> p) := by
  rw [map_eq_pure_bind]
  infer_instance

instance Passes.ite {c : Prop} [Decidable c] {q : Parse α} [Passes p] [Passes q] :
    Passes (if c then p else q) := by
  split <;> assumption

instance passes_look (g : Lexer → α) : Passes (look g) := by
  constructor
  rintro s a s' ⟨⟩
  exact .refl _

instance passes_current : Passes current :=
  passes_look _

instance passes_position : Passes position :=
  passes_look _

instance passes_tokenRange : Passes tokenRange :=
  passes_look _

instance passes_rangeFrom (start : Nat) : Passes (rangeFrom start) := by
  constructor
  rintro s a s' ⟨⟩
  exact .refl _

instance passes_advance : Passes advance := by
  constructor
  rintro s a s' ⟨⟩
  exact follows_advanced s

theorem report_cases {fault : Fault} {s s' : State} {a : Unit}
    (h : report fault s = some (a, s')) :
    s.isAborted = false ∧
        s' = { s with reports := s.reports ++ [.ofFault s.lexer.range.span fault] } ∨
      s.isAborted = true ∧ s' = s := by
  rw [report, get_bind] at h
  split at h
  · rename_i hgo
    cases h
    exact .inl ⟨by simpa using hgo, rfl⟩
  · rename_i haborted
    obtain ⟨-, rfl⟩ := pure_eq_some.1 h
    exact .inr ⟨by simpa using haborted, rfl⟩

instance passes_report (fault : Fault) : Passes (report fault) := by
  constructor
  intro s a s' h
  obtain ⟨-, rfl⟩ | ⟨-, rfl⟩ := report_cases h
  · exact ⟨⟨0, rfl⟩, List.prefix_append .., fun _ => rfl⟩
  · exact .refl _

/-- After a report the text is not clean. -/
theorem not_clean_of_report {fault : Fault} {s s' : State} {a : Unit}
    (h : report fault s = some (a, s')) : ¬ Clean s' := by
  intro hclean
  obtain ⟨-, rfl⟩ | ⟨haborted, rfl⟩ := report_cases h
  · simpa using hclean.reports
  · rw [hclean.isAborted] at haborted
    cases haborted

instance passes_accept? (kind : TokenKind) : Passes (accept? kind) := by
  unfold accept?
  infer_instance

instance passes_accept (kind : TokenKind) : Passes (accept kind) := by
  unfold accept
  infer_instance

instance passes_expect (kind : TokenKind) : Passes (expect kind) := by
  unfold expect
  infer_instance

instance passes_semicolon : Passes semicolon :=
  .map

instance passes_turnAtComma (a : α) : Passes (turnAtComma a) := by
  unfold turnAtComma
  infer_instance

theorem passes_iterateWithin {step : α → Parse (Option α)} [∀ a, Passes (step a)] (bound : Nat)
    (a : α) : Passes (iterateWithin step bound a) := by
  induction bound generalizing a with
  | zero =>
    constructor
    intro s a' s' h
    cases h
  | succ bound ih =>
    refine @Passes.bind _ _ _ _ inferInstance fun next => ?_
    cases next with
    | none => exact .pure a
    | some b => exact ih b

instance passes_iterate {step : α → Parse (Option α)} [∀ a, Passes (step a)] (a : α) :
    Passes (iterate step a) :=
  ⟨fun h => (passes_iterateWithin _ a).follows h⟩

instance passes_skipTo (stop : TokenKind → Bool) : Passes (skipTo stop) := by
  unfold skipTo skipStep
  infer_instance

instance passes_recover (start : Nat) : Passes (recover start) := by
  unfold recover
  infer_instance

end Passes

/-! ## Results -/

/-- All results of `p` satisfy `R`. -/
def Only {α : Type} (p : Parse α) (R : α → Prop) : Prop :=
  ∀ s a s', p s = some (a, s') → R a

section Results

variable {α β : Type} {p : Parse α} {f : α → Parse β} {R : α → Prop} {S : β → Prop}

theorem Only.pure {a : α} (h : R a) : Only (pure a) R := by
  intro s a' s' hs
  obtain ⟨rfl, -⟩ := pure_eq_some.1 hs
  exact h

theorem Only.bind (hf : ∀ a, Only (f a) S) : Only (p >>= f) S := by
  intro s b s' h
  obtain ⟨a, s₁, -, hfs⟩ := bind_eq_some.1 h
  exact hf a s₁ b s' hfs

theorem Only.bind_of (hp : Only p R) (hf : ∀ a, R a → Only (f a) S) : Only (p >>= f) S := by
  intro s b s' h
  obtain ⟨a, s₁, hps, hfs⟩ := bind_eq_some.1 h
  exact hf a (hp s a s₁ hps) s₁ b s' hfs

theorem Only.mono (hp : Only p R) {Q : α → Prop} (h : ∀ a, R a → Q a) : Only p Q :=
  fun s a s' hs => h a (hp s a s' hs)

end Results

section Yields

variable {α β : Type} {s₀ : State} {past : List Landmark} {p : Parse α} {f : α → Parse β}
  {Sup Good : α → Prop} {Sup' Good' : β → Prop} {marks : α → List Landmark}
  {marks' : β → List Landmark}

theorem Yields.pure {a : α} (h : Sup a → Good a ∧ marks a = past) :
    Yields s₀ past (pure a) Sup Good marks := by
  intro lo s a' s' hp _ hpast hsup
  obtain ⟨rfl, rfl⟩ := pure_eq_some.1 hp
  obtain ⟨hgood, hmarks⟩ := h hsup
  exact ⟨.refl _, fun _ => hgood, hmarks ▸ hpast⟩

/-- What is not supported does not matter. -/
theorem Yields.of_only (h : Only p (¬ Sup ·)) : Yields s₀ past p Sup Good marks :=
  fun _ s a s' hp _ _ hsup => absurd hsup (h s a s' hp)

/-- A step that only moves on. -/
theorem Passes.yields [Passes p] : Yields s₀ past p Sup (fun _ => True) fun _ => past :=
  fun _ _ _ _ h hs hpast _ => ⟨follows h, fun _ => trivial, hpast.widen (hs.offset_le (follows h))⟩

section

variable (hp : Yields s₀ past p Sup Good marks)
include hp

theorem Yields.mono {Q : α → Prop} (h : ∀ a, Sup a → Good a → Q a) :
    Yields s₀ past p Sup Q marks := by
  intro lo s a s' hps hs hpast hsup
  obtain ⟨hs', hgood, hmarks⟩ := hp lo s a s' hps hs hpast hsup
  exact ⟨hs', fun hclean => h a hsup (hgood hclean), hmarks⟩

/-- A part that is supported if the whole is. -/
theorem Yields.bind_of {R : α → Prop} (hR : Only p R)
    (hsup : ∀ a, R a → Only (f a) fun b => Sup' b → Sup a)
    (hf : ∀ a, R a → Yields s₀ (marks a) (f a) Sup' (fun b => Good a → Good' b) marks') :
    Yields s₀ past (p >>= f) Sup' Good' marks' := by
  intro lo s b s' h hs hpast hb
  obtain ⟨a, s₁, hps, hfs⟩ := bind_eq_some.1 h
  have ha := hR s a s₁ hps
  obtain ⟨hs₁, hgood, hmarks⟩ := hp lo s a s₁ hps hs hpast (hsup a ha s₁ b s' hfs hb)
  obtain ⟨hs', hgood', hmarks'⟩ := hf a ha lo s₁ b s' hfs (hs.follow hs₁) hmarks hb
  exact ⟨hs₁.trans hs', fun hclean => hgood' hclean (hgood (hs'.faultless hclean)), hmarks'⟩

theorem Yields.bind (hsup : ∀ a, Only (f a) fun b => Sup' b → Sup a)
    (hf : ∀ a, Yields s₀ (marks a) (f a) Sup' (fun b => Good a → Good' b) marks') :
    Yields s₀ past (p >>= f) Sup' Good' marks' :=
  hp.bind_of (R := fun _ => True) (fun _ _ _ _ => trivial) (fun a _ => hsup a) fun a _ => hf a

/-- The last part of a construct: only tokens follow it. -/
theorem Yields.last [∀ a, Passes (f a)]
    (h : ∀ a, Only (f a) fun b => Sup' b → Sup a ∧ (Good a → Good' b) ∧ marks' b = marks a) :
    Yields s₀ past (p >>= f) Sup' Good' marks' := by
  refine hp.bind (fun a => (h a).mono fun b hb hsup => (hb hsup).1) fun a => ?_
  intro lo s b s' hfs hs hpast hsup
  obtain ⟨-, hgood, hmarks⟩ := h a s b s' hfs hsup
  have hs' := Passes.follows hfs
  exact ⟨hs', fun _ => hgood, hmarks ▸ hpast.widen (hs.offset_le hs')⟩

theorem Yields.map {g : α → β}
    (h : ∀ a, Sup' (g a) → Sup a ∧ (Good a → Good' (g a)) ∧ marks' (g a) = marks a) :
    Yields s₀ past (g <$> p) Sup' Good' marks' := by
  rw [map_eq_pure_bind]
  exact hp.last fun a => .pure (h a)

/-- The marks of what is read need not be kept. -/
theorem Yields.unmarked : Yields s₀ past p Sup Good fun _ => past := by
  intro lo s a s' h hs hpast hsup
  obtain ⟨hs', hgood, -⟩ := hp lo s a s' h hs hpast hsup
  exact ⟨hs', hgood, hpast.widen (hs.offset_le hs')⟩

end

theorem Yields.after_of [Passes p] {R : α → Prop} (hR : Only p R)
    (hf : ∀ a, R a → Yields s₀ past (f a) Sup' Good' marks') :
    Yields s₀ past (p >>= f) Sup' Good' marks' := by
  have hp : Yields s₀ past p (fun _ => True) (fun _ => True) fun _ => past := Passes.yields
  exact hp.bind_of hR (fun _ _ _ _ _ _ _ => trivial) fun a ha =>
    (hf a ha).mono fun _ _ hgood _ => hgood

theorem Yields.after [Passes p] (hf : ∀ a, Yields s₀ past (f a) Sup' Good' marks') :
    Yields s₀ past (p >>= f) Sup' Good' marks' :=
  .after_of (R := fun _ => True) (fun _ _ _ _ => trivial) fun a _ => hf a

/-- What is read next comes after what was read before. -/
theorem Yields.frame (hp : Yields s₀ [] p Sup Good marks) (past : List Landmark) :
    Yields s₀ past p Sup Good fun a => past ++ marks a := by
  intro lo s a s' h hs hpast hsup
  obtain ⟨hs', hgood, hmarks⟩ := hp s.offset s a s' h hs (.nil (Nat.le_refl _)) hsup
  exact ⟨hs', hgood, hpast.append hmarks⟩

/-- After a report nothing has to be good. -/
theorem Yields.after_report {fault : Fault} {f : Unit → Parse β}
    (hf : Yields s₀ past (f ()) Sup' (fun _ => True) marks') :
    Yields s₀ past (report fault >>= f) Sup' Good' marks' := by
  intro lo s b s' h hs hpast hsup
  obtain ⟨_, s₁, hreport, hfs⟩ := bind_eq_some.1 h
  have hs₁ := Passes.follows hreport
  obtain ⟨hs', -, hmarks⟩ :=
    hf lo s₁ b s' hfs (hs.follow hs₁) (hpast.widen (hs.offset_le hs₁)) hsup
  refine ⟨hs₁.trans hs', fun hclean => ?_, hmarks⟩
  exact absurd (hs'.clean hclean.toClean) (not_clean_of_report hreport)

/-- `Yields` at one state. -/
def YieldsAt (s₀ : State) (past : List Landmark) (s : State) (p : Parse α) (Sup Good : α → Prop)
    (marks : α → List Landmark) : Prop :=
  ∀ lo a s', p s = some (a, s') → Reached s₀ s → InOrder lo s.offset past → Sup a →
    Follows s s' ∧ (Faultless s₀ s' → Good a) ∧ InOrder lo s'.offset (marks a)

theorem Yields.at (hp : Yields s₀ past p Sup Good marks) (s : State) :
    YieldsAt s₀ past s p Sup Good marks :=
  fun lo => hp lo s

theorem Yields.position {f : Nat → Parse β}
    (hf : ∀ s : State, YieldsAt s₀ past s (f s.offset) Sup' Good' marks') :
    Yields s₀ past (position >>= f) Sup' Good' marks' :=
  fun lo s => hf s lo

theorem YieldsAt.current {f : TokenKind → Parse β} {s : State}
    (hf : ∀ k, s.lexer.kind = k → YieldsAt s₀ past s (f k) Sup' Good' marks') :
    YieldsAt s₀ past s (current >>= f) Sup' Good' marks' :=
  hf _ rfl

theorem Yields.current {f : TokenKind → Parse β}
    (hf : ∀ s : State, ∀ k, s.lexer.kind = k → YieldsAt s₀ past s (f k) Sup' Good' marks') :
    Yields s₀ past (current >>= f) Sup' Good' marks' :=
  fun lo s => hf s _ rfl lo

/-- What is read next starts here. -/
theorem YieldsAt.mark {s : State} (h : YieldsAt s₀ [⟨s.offset, false⟩] s p Sup Good marks) :
    YieldsAt s₀ [] s p Sup Good marks :=
  fun lo a s' hp hs hpast => h lo a s' hp hs (.place hpast.le (Nat.le_refl _))

end Yields

/-! ## Nesting -/

section Nesting

variable {α : Type} {s₀ s s' : State} {past : List Landmark} {Sup Good : α → Prop}
  {marks : α → List Landmark}

instance passes_leave : Passes leave := by
  constructor
  intro s a s' h
  rw [leave, get_bind] at h
  cases hdepth : s.depth with
  | zero =>
    rw [hdepth] at h
    cases h
  | succ depth =>
    rw [hdepth] at h
    cases h
    exact .of_eq rfl rfl rfl

theorem abort_follows {a : Unit} (h : abort s = some (a, s')) (hs : s.isAborted = false) :
    Follows s s' ∧ ¬ Clean s' := by
  obtain ⟨_, s₁, hreport, h⟩ := bind_eq_some.1 h
  rw [modify_bind] at h
  have hskip := Passes.follows h
  obtain ⟨-, rfl⟩ | ⟨haborted, -⟩ := report_cases hreport
  · have hfollows : Follows s { s with
        reports := s.reports ++ [.ofFault s.lexer.range.span (.tooDeep nestingLimit)]
        isAborted := true } :=
      ⟨⟨0, rfl⟩, List.prefix_append .., fun heq => by simp at heq⟩
    exact ⟨hfollows.trans hskip, fun hclean => by simpa using (hskip.clean hclean).isAborted⟩
  · rw [hs] at haborted
    cases haborted

/-- A construct that is not read is one in a text with a report. -/
theorem enter_follows {b : Bool} (h : enter s = some (b, s')) :
    Follows s s' ∧ (b = false → ¬ Clean s') := by
  have hdeeper : Follows s { s with depth := s.depth + 1 } := .of_eq rfl rfl rfl
  rw [enter, modify_bind, get_bind] at h
  split at h
  · rename_i haborted
    obtain ⟨rfl, rfl⟩ := pure_eq_some.1 h
    refine ⟨hdeeper, fun _ hclean => ?_⟩
    rw [hclean.isAborted] at haborted
    cases haborted
  · rename_i hrunning
    rw [get_bind] at h
    split at h
    · obtain ⟨_, s₁, habort, h⟩ := bind_eq_some.1 h
      obtain ⟨rfl, rfl⟩ := pure_eq_some.1 h
      obtain ⟨hfollows, hclean⟩ := abort_follows habort (by simpa using hrunning)
      exact ⟨hdeeper.trans hfollows, fun _ => hclean⟩
    · obtain ⟨rfl, rfl⟩ := pure_eq_some.1 h
      exact ⟨hdeeper, by simp⟩

theorem yields_nested {missing body : Parse α} (hbody : Yields s₀ past body Sup Good marks)
    (hmissing : Yields s₀ past missing Sup (fun _ => True) marks) :
    Yields s₀ past (nested missing body) Sup Good marks := by
  intro lo s a s' h hs hpast hsup
  obtain ⟨b, s₁, henter, h⟩ := bind_eq_some.1 h
  obtain ⟨hs₁, hskipped⟩ := enter_follows henter
  have hpast₁ := hpast.widen (hs.offset_le hs₁)
  replace hs := hs.follow hs₁
  cases b with
  | true =>
    obtain ⟨a, s₂, hb, h⟩ := bind_eq_some.1 h
    obtain ⟨_, s₃, hleave, h⟩ := bind_eq_some.1 h
    obtain ⟨rfl, rfl⟩ := pure_eq_some.1 h
    have hs₃ := Passes.follows hleave
    obtain ⟨hs₂, hgood, hmarks⟩ := hbody lo _ _ _ hb hs hpast₁ hsup
    exact ⟨hs₁.trans (hs₂.trans hs₃), fun hclean => hgood (hs₃.faultless hclean),
      hmarks.widen ((hs.follow hs₂).offset_le hs₃)⟩
  | false =>
    obtain ⟨_, s₂, hleave, h⟩ := bind_eq_some.1 h
    have hs₂ := Passes.follows hleave
    obtain ⟨hs', -, hmarks⟩ :=
      hmissing lo _ _ _ h (hs.follow hs₂) (hpast₁.widen (hs.offset_le hs₂)) hsup
    have hrest := hs₂.trans hs'
    exact ⟨hs₁.trans hrest, fun hclean => absurd (hrest.clean hclean.toClean) (hskipped rfl), hmarks⟩

theorem yields_withIn {body : Parse α} (allowed : Bool) (hbody : Yields s₀ past body Sup Good marks) :
    Yields s₀ past (withIn allowed body) Sup Good marks := by
  intro lo s a s' h hs hpast hsup
  rw [withIn, get_bind, modify_bind] at h
  obtain ⟨a, s₁, hb, h⟩ := bind_eq_some.1 h
  rw [modify_bind] at h
  obtain ⟨rfl, rfl⟩ := pure_eq_some.1 h
  have hin : Follows s { s with allowsIn := allowed } := .of_eq rfl rfl rfl
  have hout : Follows s₁ { s₁ with allowsIn := s.allowsIn } := .of_eq rfl rfl rfl
  obtain ⟨hs₁, hgood, hmarks⟩ := hbody lo _ _ _ hb (hs.follow hin) hpast hsup
  exact ⟨hin.trans (hs₁.trans hout), fun hclean => hgood (hout.faultless hclean), hmarks⟩

end Nesting

/-! ## Loops -/

section Loops

variable {α : Type} {s₀ : State} {past : List Landmark} {Sup Good : α → Prop}
  {marks : α → List Landmark}

/-- What a turn of a loop gives. -/
def Turn.item? : Turn α → Option α
  | .stop => none
  | .last a | .next a => some a

/-- `Yields` for what may be missing. -/
abbrev Yields? (s₀ : State) (p : Parse (Option α)) (Sup Good : α → Prop)
    (marks : α → List Landmark) : Prop :=
  Yields s₀ [] p (fun o => ∀ a ∈ o, Sup a) (fun o => ∀ a ∈ o, Good a) fun o => o.elim [] marks

/-- `Yields` for lists. -/
abbrev YieldsList (s₀ : State) (p : Parse (List α)) (Sup Good : α → Prop)
    (marks : α → List Landmark) : Prop :=
  Yields s₀ [] p (fun as => ∀ a ∈ as, Sup a) (fun as => ∀ a ∈ as, Good a) fun as => as.flatMap marks

/-- `Yields` for a turn of a loop. -/
abbrev YieldsTurn (s₀ : State) (turn : Parse (Turn α)) (Sup Good : α → Prop)
    (marks : α → List Landmark) : Prop :=
  Yields s₀ [] turn (fun t => ∀ a ∈ t.item?, Sup a) (fun t => ∀ a ∈ t.item?, Good a)
    fun t => t.item?.elim [] marks

theorem yields_some {p : Parse α} (hp : Yields s₀ [] p Sup Good marks) :
    Yields? s₀ (some <$> p) Sup Good marks :=
  hp.map fun a hsup => ⟨hsup a rfl, fun ha _ hb => Option.some.inj hb ▸ ha, rfl⟩

theorem yields_stop : YieldsTurn s₀ (pure .stop) Sup Good marks :=
  .pure fun _ => ⟨by simp [Turn.item?], rfl⟩

theorem yields_manyWithin {turn : Parse (Turn α)} (h : YieldsTurn s₀ turn Sup Good marks)
    (bound : Nat) : YieldsList s₀ (manyWithin turn bound) Sup Good marks := by
  induction bound with
  | zero =>
    intro lo s as s' h
    cases h
  | succ bound ih =>
    intro lo s as s' hmany hs hpast hsup
    obtain ⟨t, s₁, hturn, hmany⟩ := bind_eq_some.1 hmany
    cases t with
    | stop =>
      obtain ⟨rfl, rfl⟩ := pure_eq_some.1 hmany
      obtain ⟨hs₁, -, hmarks⟩ := h lo _ _ _ hturn hs hpast (by simp [Turn.item?])
      exact ⟨hs₁, by simp, hmarks⟩
    | last a =>
      obtain ⟨rfl, rfl⟩ := pure_eq_some.1 hmany
      simpa [Turn.item?] using h lo _ _ _ hturn hs hpast (by simpa [Turn.item?] using hsup)
    | next a =>
      obtain ⟨as, s₂, hmore, hmany⟩ := bind_eq_some.1 hmany
      obtain ⟨rfl, rfl⟩ := pure_eq_some.1 hmany
      obtain ⟨ha, has⟩ := List.forall_mem_cons.1 hsup
      obtain ⟨hs₁, hgood, hmarks⟩ := h lo _ _ _ hturn hs hpast (by simpa [Turn.item?] using ha)
      obtain ⟨hs₂, hgoods, hmarks'⟩ := ih.frame _ lo _ _ _ hmore (hs.follow hs₁) hmarks has
      refine ⟨hs₁.trans hs₂, fun hclean => List.forall_mem_cons.2 ⟨?_, hgoods hclean⟩, ?_⟩
      · simpa [Turn.item?] using hgood (hs₂.faultless hclean)
      · simpa [Turn.item?] using hmarks'

theorem yields_many {turn : Parse (Turn α)} (h : YieldsTurn s₀ turn Sup Good marks) :
    YieldsList s₀ (many turn) Sup Good marks :=
  fun lo s as s' hmany => yields_manyWithin h _ lo s as s' hmany

/-- The items of a list are those that are read. -/
theorem yields_turnAtComma {p : Parse α} (h : Yields s₀ [] p Sup Good marks) :
    YieldsTurn s₀ (p >>= turnAtComma) Sup Good marks := by
  refine h.last fun a => .bind fun b => .pure fun hsup => ?_
  have hitem : (if b = true then Turn.next a else Turn.last a).item? = some a := by
    cases b <;> rfl
  simp only [hitem] at hsup ⊢
  exact ⟨hsup a rfl, fun ha _ hb => Option.some.inj hb ▸ ha, rfl⟩

/-- `Yields` for a step from one value to the next. -/
abbrev YieldsStep (s₀ : State) (step : α → Parse (Option α)) (Sup Good : α → Prop)
    (marks : α → List Landmark) (a : α) : Prop :=
  Yields s₀ (marks a) (step a) (fun o => ∀ b ∈ o, Sup b) (fun o => Good a → ∀ b ∈ o, Good b)
    fun o => o.elim (marks a) marks

theorem yields_none (a : α) : YieldsStep s₀ (fun _ => Pure.pure none) Sup Good marks a :=
  .pure fun _ => ⟨by simp, rfl⟩

/-- A step to what `p` gives. -/
theorem yields_next {p : Parse α} (a : α)
    (hp : Yields s₀ (marks a) p Sup (fun b => Good a → Good b) marks) :
    YieldsStep s₀ (fun _ => do return some (← p)) Sup Good marks a :=
  hp.last fun b => .pure fun hsup =>
    ⟨hsup b rfl, fun hb ha _ hc => Option.some.inj hc ▸ hb ha, rfl⟩

theorem iterateWithin_follows {step : α → Parse (Option α)}
    (hsup : ∀ a, Only (step a) fun o => ∀ b ∈ o, Sup b → Sup a)
    (hstep : ∀ a, YieldsStep s₀ step Sup Good marks a)
    (bound : Nat) {a b : α} {s s' : State} (h : iterateWithin step bound a s = some (b, s'))
    (hb : Sup b) : Sup a ∧ ∀ lo, Reached s₀ s → InOrder lo s.offset (marks a) →
      Follows s s' ∧ (Faultless s₀ s' → Good a → Good b) ∧ InOrder lo s'.offset (marks b) := by
  induction bound generalizing a s with
  | zero => cases h
  | succ bound ih =>
    obtain ⟨next, s₁, hnext, h⟩ := bind_eq_some.1 h
    cases next with
    | none =>
      obtain ⟨rfl, rfl⟩ := pure_eq_some.1 h
      refine ⟨hb, fun lo hs ha => ?_⟩
      obtain ⟨hs', -, hmarks⟩ := hstep _ lo _ _ _ hnext hs ha (by simp)
      exact ⟨hs', fun _ ha => ha, hmarks⟩
    | some c =>
      obtain ⟨hc, hmore⟩ := ih h
      refine ⟨hsup a s _ s₁ hnext c rfl hc, fun lo hs ha => ?_⟩
      obtain ⟨hs₁, hgood, hmarks⟩ := hstep a lo s _ s₁ hnext hs ha (by simpa using hc)
      obtain ⟨hs', hgood', hmarks'⟩ := hmore lo (hs.follow hs₁) hmarks
      exact ⟨hs₁.trans hs', fun hclean ha =>
        hgood' hclean (hgood (hs'.faultless hclean) ha c rfl), hmarks'⟩

/-- A loop that goes on from one value to the next, from a value that was read. What is supported at
the end was supported all along. -/
theorem yields_iterate {p : Parse α} {step : α → Parse (Option α)}
    (hp : Yields s₀ past p Sup Good marks) (hsup : ∀ a, Only (step a) fun o => ∀ b ∈ o, Sup b → Sup a)
    (hstep : ∀ a, YieldsStep s₀ step Sup Good marks a) :
    Yields s₀ past (p >>= iterate step) Sup Good marks := by
  refine hp.bind (fun a s b s' h hb => (iterateWithin_follows hsup hstep _ h hb).1) fun a => ?_
  exact fun lo s b s' h hs ha hb => (iterateWithin_follows hsup hstep _ h hb).2 lo hs ha

end Loops

end Grammar

end LambdaLift
