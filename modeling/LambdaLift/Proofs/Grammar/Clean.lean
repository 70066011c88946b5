import LambdaLift.Proofs.Grammar.Termination
import LambdaLift.Proofs.Tree.Placement

/-!
# Runs without reports

`Run text p s a t`: in a text, `p` leads from `s` to `t` and gives `a`, and nothing was reported up
to `t`. Where a production reports something or reads on after a mistake, there is no such run, so
what is left of it is the text that it is meant for. The lemmas open a run step by step.

`State.gap`: the gap between two tokens that a state stands in. The nodes that a run reads lie
between the gaps of its states (`Reading`, `Node.Fills`).
-/

namespace LambdaLift

namespace Grammar

/-- In a text, `p` leads from `s` to `t` and gives `a`, and nothing was reported up to `t`. -/
structure Run {α : Type} (text : String) (p : Parse α) (s : State) (a : α) (t : State) : Prop where
  eq : p s = some (a, t)
  sound : s.Sound text
  told : Told s.lexer s.tokens s.reports
  clean : Clean t

/-- The gap between the last token that was read and the current one. -/
def State.gap (s : State) : Range :=
  ⟨s.previousEnd, s.offset⟩

section States

variable {text : String} {s t : State}

theorem State.Sound.onward (hs : s.Sound text) (ht : t.Sound text) (h : Beyond s t) :
    Onward text s.gap t.gap where
  here := hs.previousEnd_le
  there := ht.previousEnd_le
  start_le := h.previousEnd
  stop_le := h.offset_le hs ht
  start := ⟨s.lexer.start, hs.lexer.start, rfl⟩
  stop := by
    obtain ⟨gap, hgap, -⟩ := ht.gap
    exact hgap.start

/-- A token that was read. -/
theorem State.Sound.past (hs : s.Sound text) (hkind : s.lexer.kind ≠ .endOfFile) :
    Past text s.gap s.advanced.gap where
  toOnward := hs.onward hs.advanced (beyond_advanced hs)
  lt := hs.lexer.reaches.offset_lt (hs.lexer.width hkind)

end States

/-! ## Steps of a run -/

section Steps

variable {α β : Type} {text : String} {p q : Parse α} {f : α → Parse β} {s t : State} {a : α}
  {b : β}

theorem Run.sound_stop [Leads 0 p] (h : Run text p s a t) : t.Sound text :=
  (Leads.leads 0 text s a t h.sound h.eq).1

theorem Run.beyond [Leads 0 p] (h : Run text p s a t) : Beyond s t :=
  (Leads.leads 0 text s a t h.sound h.eq).2.1

theorem Run.onward [Leads 0 p] (h : Run text p s a t) : Onward text s.gap t.gap :=
  h.sound.onward h.sound_stop h.beyond

theorem Run.stay (h : Run text p s a t) : Onward text s.gap s.gap :=
  h.sound.onward h.sound (.refl s)

theorem Run.bind_of [Leads 0 p] (h : Run text (p >>= f) s b t) (hf : ∀ a, Leads 0 (f a)) :
    ∃ a s₁, Run text p s a s₁ ∧ Run text (f a) s₁ b t := by
  obtain ⟨a, s₁, hp, hrest⟩ := bind_eq_some.1 h.eq
  obtain ⟨hs₁, hbeyond, -⟩ := Leads.leads 0 text s a s₁ h.sound hp
  obtain ⟨-, hbeyond', -⟩ := (hf a).leads text s₁ b t hs₁ hrest
  exact ⟨a, s₁, ⟨hp, h.sound, h.told, hbeyond'.clean h.clean⟩,
    ⟨hrest, hs₁, hbeyond.told h.told, h.clean⟩⟩

theorem Run.bind [Leads 0 p] [hf : ∀ a, Leads 0 (f a)] (h : Run text (p >>= f) s b t) :
    ∃ a s₁, Run text p s a s₁ ∧ Run text (f a) s₁ b t :=
  h.bind_of hf

/-- A step that only looks at the state. -/
theorem Run.bind_eq (h : Run text (p >>= f) s b t) (hp : p s = some (a, s)) :
    Run text (f a) s b t :=
  ⟨(bind_of_some hp).symm.trans h.eq, h.sound, h.told, h.clean⟩

theorem Run.map {g : α → β} (h : Run text (g <$> p) s b t) : ∃ a, Run text p s a t ∧ g a = b := by
  obtain ⟨a, hp, hb⟩ := map_eq_some.1 h.eq
  exact ⟨a, ⟨hp, h.sound, h.told, h.clean⟩, hb⟩

theorem Run.pure {a' : α} (h : Run text (pure a) s a' t) : a' = a ∧ t = s :=
  pure_eq_some.1 h.eq

/-- A last step, of which a result is made. -/
theorem Run.ret {g : α → β} (h : Run text (p >>= fun a => Pure.pure (g a)) s b t) :
    ∃ a, Run text p s a t ∧ b = g a := by
  obtain ⟨a, s₁, hp, hb⟩ := bind_eq_some.1 h.eq
  obtain ⟨rfl, rfl⟩ := pure_eq_some.1 hb
  exact ⟨a, ⟨hp, h.sound, h.told, h.clean⟩, rfl⟩

/-- A last step, of which a result with a place is made. -/
theorem Run.retFrom {start : Nat} {g : α → Range → β}
    (h : Run text (p >>= fun a => rangeFrom start >>= fun r => Pure.pure (g a r)) s b t) :
    ∃ a, Run text p s a t ∧ b = g a ⟨start, t.previousEnd⟩ := by
  obtain ⟨a, s₁, hp, hb⟩ := bind_eq_some.1 h.eq
  obtain ⟨rfl, rfl⟩ := pure_eq_some.1 hb
  exact ⟨a, ⟨hp, h.sound, h.told, h.clean⟩, rfl⟩

/-- A result without nodes, for which nothing was read. -/
theorem Run.nothing {ns : List Node} {a' : α} (h : Run text (Pure.pure a) s a' t)
    (hns : a' = a → ns = []) : Reading text s.gap ns t.gap :=
  hns h.pure.1 ▸ .nil h.onward

theorem Run.ite {c : Prop} [Decidable c] (h : Run text (if c then p else q) s a t) :
    c ∧ Run text p s a t ∨ ¬ c ∧ Run text q s a t := by
  split at h
  · exact .inl ⟨‹_›, h⟩
  · exact .inr ⟨‹_›, h⟩

theorem Run.pure_bind (h : Run text (Pure.pure a >>= f) s b t) : Run text (f a) s b t :=
  ⟨h.eq, h.sound, h.told, h.clean⟩

/-- A choice between two steps, before what follows both of them. -/
theorem Run.ite_bind {c : Prop} [Decidable c] [Leads 0 p] [Leads 0 q] [∀ a, Leads 0 (f a)]
    (h : Run text (if c then p >>= f else q >>= f) s b t) :
    ∃ a s₁, Run text (if c then p else q) s a s₁ ∧ Run text (f a) s₁ b t := by
  have heq : (if c then p >>= f else q >>= f) = (if c then p else q) >>= f := by
    split <;> rfl
  rw [heq] at h
  exact h.bind

theorem Run.look {g : Lexer → α} (h : Run text (look g >>= f) s b t) :
    Run text (f (g s.lexer)) s b t :=
  ⟨h.eq, h.sound, h.told, h.clean⟩

theorem Run.current {f : TokenKind → Parse β} (h : Run text (current >>= f) s b t) :
    Run text (f s.lexer.kind) s b t :=
  ⟨h.eq, h.sound, h.told, h.clean⟩

theorem Run.position {f : Nat → Parse β} (h : Run text (position >>= f) s b t) :
    Run text (f s.offset) s b t :=
  ⟨h.eq, h.sound, h.told, h.clean⟩

theorem Run.tokenRange {f : Range → Parse β} (h : Run text (tokenRange >>= f) s b t) :
    Run text (f s.lexer.range) s b t :=
  ⟨h.eq, h.sound, h.told, h.clean⟩

theorem Run.rangeFrom {start : Nat} {f : Range → Parse β}
    (h : Run text (rangeFrom start >>= f) s b t) : Run text (f ⟨start, s.previousEnd⟩) s b t :=
  ⟨h.eq, h.sound, h.told, h.clean⟩

theorem Run.report {fault : Fault} [fault.Shallow] {f : Unit → Parse β} [∀ u, Leads 0 (f u)]
    (h : Run text (report fault >>= f) s b t) : False := by
  obtain ⟨⟨⟩, s₁, hreport, -⟩ := h.bind
  exact not_clean_of_report hreport.eq hreport.clean

theorem Run.reportAt {span : Span} {f : Unit → Parse β} [∀ u, Leads 0 (f u)]
    (h : Run text (reportAt span .declarationExpected >>= f) s b t) : False := by
  obtain ⟨⟨⟩, s₁, hreport, -⟩ := h.bind
  have hclean := hreport.clean.reports
  cases hreport.eq
  simp at hclean

theorem Run.advance {f : Unit → Parse β} (h : Run text (advance >>= f) s b t)
    (hkind : s.lexer.kind ≠ .endOfFile) :
    Past text s.gap s.advanced.gap ∧ Run text (f ()) s.advanced b t :=
  ⟨h.sound.past hkind, h.eq, h.sound.advanced, (beyond_advanced h.sound).told h.told, h.clean⟩

theorem Run.bind_at {kind : TokenKind} [MovesAt 0 kind p] [∀ a, Moves 0 (f a)]
    (h : Run text (p >>= f) s b t) (hkind : s.lexer.kind = kind) :
    ∃ a s₁, Run text p s a s₁ ∧ Run text (f a) s₁ b t := by
  obtain ⟨a, s₁, hp, hrest⟩ := bind_eq_some.1 h.eq
  obtain ⟨hs₁, hlater⟩ := MovesAt.moves 0 text s a s₁ h.sound hkind hp
  have hlater' := (Moves.moves 0 text s₁ b t hs₁ hrest).2
  exact ⟨a, s₁, ⟨hp, h.sound, h.told, hlater'.clean h.clean⟩,
    ⟨hrest, hs₁, hlater.told h.told, h.clean⟩⟩

variable {kind : TokenKind} [Present kind]

/-- A token is read or left. -/
theorem Run.accept (h : Run text (accept kind >>= fun b => if b = true then p else q) s a t) :
    (∃ s₁, Past text s.gap s₁.gap ∧ Run text p s₁ a t) ∨ Run text q s a t := by
  by_cases hkind : s.lexer.kind = kind
  · have heq := h.eq
    rw [bind_of_some (accept_of_eq hkind)] at heq
    exact .inl ⟨s.advanced, h.sound.past (hkind ▸ Present.ne), heq, h.sound.advanced,
      (beyond_advanced h.sound).told h.told, h.clean⟩
  · have heq := h.eq
    rw [bind_of_some (accept_of_ne hkind)] at heq
    exact .inr ⟨heq, h.sound, h.told, h.clean⟩

theorem Run.expect_of {f : Unit → Parse β} (h : Run text (expect kind >>= f) s b t)
    (hf : ∀ u, Leads 0 (f u)) : ∃ s₁, Past text s.gap s₁.gap ∧ Run text (f ()) s₁ b t := by
  obtain ⟨⟨⟩, s₁, hexpect, h⟩ := h.bind
  by_cases hkind : s.lexer.kind = kind
  · have heq := hexpect.eq
    rw [expect_of_eq hkind] at heq
    cases heq
    exact ⟨s.advanced, hexpect.sound.past (hkind ▸ Present.ne), h⟩
  · have heq := hexpect.eq
    rw [Grammar.expect, bind_of_some (accept_of_ne hkind)] at heq
    exact absurd hexpect.clean (not_clean_of_report heq)

theorem Run.expect {f : Unit → Parse β} [hf : ∀ u, Leads 0 (f u)]
    (h : Run text (expect kind >>= f) s b t) :
    ∃ s₁, Past text s.gap s₁.gap ∧ Run text (f ()) s₁ b t :=
  h.expect_of hf

end Steps

/-! ## Constructs and loops -/

section Loops

variable {α : Type} {text : String} {missing body : Parse α} {s t : State} {a : α}

/-- A construct that is not missing. -/
theorem Run.nested [Moves 0 missing] (h : Run text (nested missing body) s a t) :
    ∃ s₁ t₁, s₁.lexer = s.lexer ∧ s₁.gap = s.gap ∧ t₁.gap = t.gap ∧ Run text body s₁ a t₁ := by
  have hdeeper : ({ s with depth := s.depth + 1 } : State).Sound text := h.sound.of_eq rfl rfl rfl
  obtain ⟨s₁, -, -, hbody, hleave⟩ | ⟨haborted, hmissing⟩ |
    ⟨s₁, s₂, hgo, hdeep, habort, hleave, hmissing⟩ := nested_cases h.eq
  · obtain ⟨depth, -, rfl⟩ := leave_eq_some hleave
    exact ⟨{ s with depth := s.depth + 1 }, s₁, rfl, rfl, rfl, hbody, hdeeper, h.told,
      h.clean.reports, h.clean.lexerReports, h.clean.isAborted⟩
  · have hlater := (Moves.moves 0 text s a t h.sound hmissing).2
    rw [(hlater.clean h.clean).isAborted] at haborted
    cases haborted
  · -- The rest of the text stays skipped.
    obtain ⟨hs₁, hlater⟩ := hdeeper.abort hgo (Nat.lt_succ_of_le hdeep) habort
    obtain ⟨hs₂, -⟩ := hlater.leave hleave hs₁
    have hclean := (Moves.moves 0 text s₂ a t hs₂ hmissing).2.clean h.clean
    obtain ⟨depth, -, rfl⟩ := leave_eq_some hleave
    exact absurd ((abort_eq_some habort hgo).1.symm.trans hclean.isAborted) (by simp)

theorem Run.withIn {allowed : Bool} (h : Run text (withIn allowed body) s a t) :
    ∃ s₁ t₁, s₁.lexer = s.lexer ∧ s₁.gap = s.gap ∧ t₁.gap = t.gap ∧ Run text body s₁ a t₁ := by
  obtain ⟨t₁, hbody, rfl⟩ := withIn_eq_some h.eq
  exact ⟨{ s with allowsIn := allowed }, t₁, rfl, rfl, rfl, hbody, h.sound.of_eq rfl rfl rfl,
    h.told, h.clean.reports, h.clean.lexerReports, h.clean.isAborted⟩

/-- The items of a turn. -/
def Turn.items : Turn α → List α
  | .stop => []
  | .last a | .next a => [a]

/-- What holds of every turn and of turns one after another holds of a loop. -/
theorem Run.many {turn : Parse (Turn α)} [Moves 0 turn] {as : List α}
    {P : State → List α → State → Prop} (hturn : ∀ {s x t}, Run text turn s x t → P s x.items t)
    (htrans : ∀ {s t u as bs}, P s as t → P t bs u → P s (as ++ bs) u)
    (h : Run text (many turn) s as t) : P s as t := by
  have hwithin (bound : Nat) {s : State} {as : List α}
      (h : Run text (manyWithin turn bound) s as t) : P s as t := by
    induction bound generalizing s as with
    | zero => cases h.eq
    | succ bound ih =>
      have hmore := moves_manyWithin (n := 0) turn bound
      obtain ⟨x, s₁, hx, h⟩ := Run.bind_of h fun x => by cases x <;> infer_instance
      cases x with
      | stop =>
        obtain ⟨rfl, rfl⟩ := h.pure
        exact hturn hx
      | last a =>
        obtain ⟨rfl, rfl⟩ := h.pure
        exact hturn hx
      | next a =>
        obtain ⟨as', s₂, has, h⟩ := h.bind
        obtain ⟨rfl, rfl⟩ := h.pure
        exact htrans (hturn hx) (ih has)
  exact hwithin _ ⟨h.eq, h.sound, h.told, h.clean⟩

/-- What every step of a loop keeps holds in the end. -/
theorem Run.iterate {step : α → Parse (Option α)} [∀ a, Moves 0 (step a)] {b : α}
    {P : α → State → Prop} (hstep : ∀ {a s x t}, P a s → Run text (step a) s x t → P (x.getD a) t)
    (h : Run text (iterate step a) s b t) (ha : P a s) : P b t := by
  have hwithin (bound : Nat) {s : State} {a : α} (ha : P a s)
      (h : Run text (iterateWithin step bound a) s b t) : P b t := by
    induction bound generalizing s a with
    | zero => cases h.eq
    | succ bound ih =>
      have hmore (a : α) := moves_iterateWithin (n := 0) step bound a
      obtain ⟨x, s₁, hx, h⟩ := Run.bind_of h fun x => by cases x <;> infer_instance
      cases x with
      | none =>
        obtain ⟨rfl, rfl⟩ := h.pure
        exact hstep ha hx
      | some c => exact ih (hstep ha hx) h
  exact hwithin _ ha ⟨h.eq, h.sound, h.told, h.clean⟩

end Loops

end Grammar

/-! ## Whole texts -/

namespace Parsed

variable {file text : String} {statements : List Stmt} {s : Grammar.State}

theorem ofText_of_run? (h : Grammar.run? text = some (statements, s)) :
    ofText file text = ofRun file text statements s := by
  rw [ofText, h]

theorem length_reports :
    (ofRun file text statements s).reports.length = (s.lexer.reports ++ s.reports).length := by
  rw [ofRun, Report.sort, List.length_mergeSort, List.length_map]

theorem reports_eq_nil :
    (ofRun file text statements s).reports = [] ↔ s.lexer.reports ++ s.reports = [] := by
  rw [← List.length_eq_zero_iff, length_reports, List.length_eq_zero_iff]

end Parsed

namespace Grammar

theorem told_ofText (text : String) :
    Told (State.ofText text).lexer (State.ofText text).tokens (State.ofText text).reports where
  toTells := by
    refine Lexer.tells_scan ?_
    unfold Lexer.skipShebang
    split <;> exact errors_nil
  tokens := by simp [State.ofText]
  grammar := errors_nil

/-- What is wrong with a token of a text is reported, and all reports are errors. -/
theorem told_of_run? {text : String} {statements : List Stmt} {s : State}
    (h : run? text = some (statements, s)) : Told s.lexer s.tokens s.reports :=
  (Moves.moves 0 text _ _ s (sound_ofText text) h).2.told (told_ofText text)

/-- A text without a report is read by a run. -/
theorem exists_run {file text : String} (h : (Parsed.ofText file text).reports = []) :
    ∃ statements s, run? text = some (statements, s) ∧ s.lexer.kind = .endOfFile ∧
      Run text (program (rules (recursionBound text))) (.ofText text) statements s := by
  obtain ⟨statements, s, hrun⟩ := program_ends (Nat.le_refl (recursionBound text))
  rw [Parsed.ofText_of_run? hrun, Parsed.reports_eq_nil, List.append_eq_nil_iff] at h
  have hlater := (Moves.moves 0 text _ _ s (sound_ofText text) hrun).2
  refine ⟨statements, s, hrun, by simpa using statements_over hrun, hrun, sound_ofText text,
    told_ofText text, ?_⟩
  exact ⟨h.2, h.1, hlater.isAborted h.2⟩

end Grammar

/-- Every report counts. -/
theorem Parsed.hasErrors_eq_false_iff (file text : String) :
    (ofText file text).hasErrors = false ↔ (ofText file text).reports = [] := by
  obtain ⟨statements, s, hrun⟩ := Grammar.program_ends (Nat.le_refl (Grammar.recursionBound text))
  have htold := Grammar.told_of_run? hrun
  rw [ofText_of_run? hrun]
  refine ⟨fun h => List.eq_nil_iff_forall_not_mem.2 fun r hr => ?_, fun h => by rw [hasErrors, h]; rfl⟩
  have hsorted := hr
  rw [ofRun, Report.sort, List.mem_mergeSort, List.mem_map] at hsorted
  obtain ⟨r', hr', rfl⟩ := hsorted
  have herror : r'.isError = true := (htold.errors.append htold.grammar) r' hr'
  exact List.any_eq_false.1 h _ hr herror

end LambdaLift
