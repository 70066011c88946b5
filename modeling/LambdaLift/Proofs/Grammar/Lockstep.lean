import LambdaLift.Proofs.Grammar.Termination
import LambdaLift.Proofs.Tree.Likeness
import Mathlib.Data.List.Forall2

/-!
# Two texts read in step

Two texts with the same tokens are read in step: what is decided by the tokens is decided alike, and
so is what is decided by comparing offsets.

* `InStep ts s t`: both states stand on the same token, with the same reports up to places.
* `Sync ts p q`: from states in step, `p` on the first text and `q` on the second give
  results that are alike and states in step. This is said only of runs on the first text that read
  no token again (`State.ReadsOnce`), since a token that is read again is none of the plain ones.

As a class, `Sync` goes through a production by its form. The results of a step are handed on as a
`Twin`, one value for each text with a proof that they are alike.
-/

namespace LambdaLift

/-- The report without its place. -/
def Report.unplaced (r : Report) : Report :=
  { r with span := ⟨0, 0⟩ }

instance : Placed Report := ⟨Report.unplaced, (·.span.start)⟩

/-- Tokens that only reading again gives. -/
def TokenKind.isReread : TokenKind → Bool
  | .regex | .templateMiddle | .templateTail => true
  | _ => false

theorem TokenKind.isReread_of_isWord {kind : TokenKind} (h : kind.isWord = true) :
    kind.isReread = false := by
  cases kind <;> first | rfl | cases h

theorem Quoted.isReread_templatePiece (first : Bool) (start c : Cursor) :
    (templatePiece first start c).kind.isReread = !first := by
  simp only [templatePiece, lexeme]
  split <;> rfl

/-- Moving on never gives a token that only reading again gives. -/
theorem Lexer.isReread_scan (l : Lexer) : l.scan.kind.isReread = false := by
  change (Lexeme.read _).kind.isReread = false
  unfold Lexeme.read
  split
  · rfl
  · split
    · rfl
    split
    · exact Quoted.isReread_templatePiece ..
    split
    · rw [Number.kind_read]
      rfl
    split
    · exact TokenKind.isReread_of_isWord (Name.kind_read _)
    split <;> rfl

theorem Lexer.isReread_nth (text : String) (k : Nat) : (nth text k).kind.isReread = false := by
  rw [nth, Function.iterate_succ_apply']
  exact isReread_scan _

namespace Grammar

open Lexer

/-- No token that was read had been read again. -/
def State.ReadsOnce (s : State) : Prop :=
  ∀ t ∈ s.tokens, t.kind.isReread = false

/-- Both states stand on the same token of their texts and agree in all but places. -/
structure InStep (ts : Texts) (s t : State) : Prop where
  sound : s.Sound ts.left
  lexer : ∃ k, s.lexer = nth ts.left k ∧ t.lexer = nth ts.right k
  readsOnce : t.ReadsOnce
  reports : List.Forall₂ (Related.Like ts) s.reports t.reports
  depth : s.depth = t.depth
  isAborted : s.isAborted = t.isAborted
  allowsIn : s.allowsIn = t.allowsIn

/-- `p` on the first text and `q` on the second keep in step. -/
class Sync {α : Type} [Related α] (ts : Texts) (p q : Parse α) : Prop where
  sync : ∀ s t a b s' t', InStep ts s t → p s = some (a, s') → q t = some (b, t') →
    s'.ReadsOnce → Related.Like ts a b ∧ InStep ts s' t'

/-- A result on each text, and that they are alike. -/
structure Twin (ts : Texts) (α : Type) [Related α] where
  left : α
  right : α
  like : Related.Like ts left right

/-- What is seen from a token is the same on both texts. -/
class Steady {α : Type} (f : Lexer → α) : Prop where
  eq (ts : Texts) (k : Nat) : f (nth ts.left k) = f (nth ts.right k)

instance {α : Type} {ts : Texts} [Related α] (x : Twin ts α) : Akin ts x.left x.right :=
  ⟨x.like⟩

/-! ## States in step -/

section States

variable {ts : Texts} {s s' t t' : State}

theorem Beyond.readsOnce (h : Beyond s s') (hs' : s'.ReadsOnce) : s.ReadsOnce := by
  obtain ⟨ts, hts, -⟩ := h.tokens
  intro t ht
  exact hs' t (hts ▸ List.mem_append_right ts ht)

theorem InStep.token (h : InStep ts s t) : SameToken s.lexer t.lexer := by
  obtain ⟨k, hs, ht⟩ := h.lexer
  rw [hs, ht]
  exact ts.same.token k

theorem InStep.samePlace (h : InStep ts s t) : SamePlace ts s.offset t.offset := by
  obtain ⟨k, hs, ht⟩ := h.lexer
  exact ⟨k, congrArg (·.start.offset) hs, congrArg (·.start.offset) ht⟩

theorem InStep.advanced (h : InStep ts s t) : InStep ts s.advanced t.advanced where
  sound := h.sound.advanced
  lexer := by
    obtain ⟨k, hs, ht⟩ := h.lexer
    refine ⟨k + 1, ?_, ?_⟩
    · rw [nth_succ, ← hs]
      rfl
    · rw [nth_succ, ← ht]
      rfl
  readsOnce := by
    obtain ⟨k, -, ht⟩ := h.lexer
    intro token htoken
    rcases List.mem_cons.1 htoken with rfl | htoken
    · rw [Lexer.token, ht]
      exact isReread_nth ts.right k
    · exact h.readsOnce token htoken
  reports := h.reports
  depth := h.depth
  isAborted := h.isAborted
  allowsIn := h.allowsIn

/-- A change of what no token depends on. -/
theorem InStep.of_eq (h : InStep ts s t) (hs : s'.lexer = s.lexer)
    (hend : s'.previousEnd = s.previousEnd) (htokens : s'.tokens = s.tokens)
    (hreports : s'.reports = s.reports) (ht : t'.lexer = t.lexer) (htokens' : t'.tokens = t.tokens)
    (hreports' : t'.reports = t.reports)
    (hdepth : s'.depth = t'.depth) (haborted : s'.isAborted = t'.isAborted)
    (hallows : s'.allowsIn = t'.allowsIn) : InStep ts s' t' where
  sound := h.sound.of_eq hs hend htokens
  lexer := by
    rw [hs, ht]
    exact h.lexer
  readsOnce := by
    rw [State.ReadsOnce, htokens']
    exact h.readsOnce
  reports := by
    rw [hreports, hreports']
    exact h.reports
  depth := hdepth
  isAborted := haborted
  allowsIn := hallows

/-- A fault is told at the same place on both texts. -/
theorem InStep.report (h : InStep ts s t) {r r' : Range} (hr : Related.Like ts r r')
    (fault : Fault) :
    InStep ts { s with reports := s.reports ++ [.ofFault r.span fault] }
      { t with reports := t.reports ++ [.ofFault r'.span fault] } where
  sound := h.sound.of_eq rfl rfl rfl
  lexer := h.lexer
  readsOnce := h.readsOnce
  reports := List.rel_append h.reports (.cons ⟨rfl, hr.2⟩ .nil)
  depth := h.depth
  isAborted := h.isAborted
  allowsIn := h.allowsIn

end States

/-! ## Steps -/

section Steps

variable {α β : Type} [Related α] [Related β] {ts : Texts} {p q p' q' : Parse α}
  {f g : α → Parse β}

theorem Sync.bind [hleads : Leads 0 p] [hp : Sync ts p q] (hf : ∀ a, Leads 0 (f a))
    (h : ∀ a b, Related.Like ts a b → Sync ts (f a) (g b)) :
    Sync ts (p >>= f) (q >>= g) where
  sync s t a b s' t' hst hs ht honce := by
    obtain ⟨c, s₁, hps, hs⟩ := bind_eq_some.1 hs
    obtain ⟨d, t₁, hqt, ht⟩ := bind_eq_some.1 ht
    obtain ⟨hs₁, -⟩ := hleads.leads ts.left s c s₁ hst.sound hps
    obtain ⟨-, hbeyond, -⟩ := (hf c).leads ts.left s₁ a s' hs₁ hs
    obtain ⟨hlike, hst₁⟩ := hp.sync s t c d s₁ t₁ hst hps hqt (hbeyond.readsOnce honce)
    exact (h c d hlike).sync s₁ t₁ a b s' t' hst₁ hs ht honce

instance [Leads 0 p] [Sync ts p q] [hf : ∀ a, Leads 0 (f a)]
    [h : ∀ x : Twin ts α, Sync ts (f x.left) (g x.right)] :
    Sync ts (p >>= f) (q >>= g) :=
  .bind hf fun a b hab => h ⟨a, b, hab⟩

/-- A result without a place is the same on both texts. -/
theorem Sync.bind_same [Placeless α] [Leads 0 p] [Sync ts p q] (hf : ∀ a, Leads 0 (f a))
    (h : ∀ a, Sync ts (f a) (g a)) : Sync ts (p >>= f) (q >>= g) :=
  .bind hf fun a b hab => (Placeless.like_iff ts a b).1 hab ▸ h a

instance (priority := high) [Placeless α] [Leads 0 p] [Sync ts p q]
    [hf : ∀ a, Leads 0 (f a)] [h : ∀ a, Sync ts (f a) (g a)] :
    Sync ts (p >>= f) (q >>= g) :=
  .bind_same hf h

theorem Sync.pure {a b : α} (h : Related.Like ts a b) : Sync ts (pure a) (pure b) where
  sync s t c d s' t' hst hs ht _ := by
    obtain ⟨rfl, rfl⟩ := pure_eq_some.1 hs
    obtain ⟨rfl, rfl⟩ := pure_eq_some.1 ht
    exact ⟨h, hst⟩

instance {a b : α} [h : Akin ts a b] : Sync ts (pure a) (pure b) :=
  .pure h.like

instance {f g : α → β} [hp : Sync ts p q] [h : ∀ x : Twin ts α, Akin ts (f x.left) (g x.right)] :
    Sync ts (f <$> p) (g <$> q) where
  sync s t c d s' t' hst hs ht honce := by
    obtain ⟨a, hps, rfl⟩ := map_eq_some.1 hs
    obtain ⟨b, hqt, rfl⟩ := map_eq_some.1 ht
    obtain ⟨hab, hst'⟩ := hp.sync s t a b s' t' hst hps hqt honce
    exact ⟨(h ⟨a, b, hab⟩).like, hst'⟩

instance [Sync ts p q] : Sync ts (discard p) (discard q) :=
  inferInstanceAs (Sync ts (Function.const α () <$> p) (Function.const α () <$> q))

/-! ### Decisions -/

theorem Sync.ite {c d : Prop} [Decidable c] [Decidable d] (hcd : c ↔ d) [hp : Sync ts p q]
    [hp' : Sync ts p' q'] :
    Sync ts (if c then p else p') (if d then q else q') where
  sync s t a b s' t' hst hs ht honce := by
    by_cases hc : c
    · rw [if_pos hc] at hs
      rw [if_pos (hcd.1 hc)] at ht
      exact hp.sync s t a b s' t' hst hs ht honce
    · rw [if_neg hc] at hs
      rw [if_neg (mt hcd.2 hc)] at ht
      exact hp'.sync s t a b s' t' hst hs ht honce

instance {c : Prop} [Decidable c] [Sync ts p q] [Sync ts p' q'] :
    Sync ts (if c then p else p') (if c then q else q') :=
  .ite .rfl

instance (priority := low) {b b' : Bool} [h : Akin ts b b'] [Sync ts p q] [Sync ts p' q'] :
    Sync ts (if b = true then p else p') (if b' = true then q else q') :=
  .ite (by rw [show b = b' from h.like])

/-- Offsets compare alike. -/
instance (priority := low) {o o' u u' : Nat} [ho : Akin ts o o']
    [hu : Akin ts u u'] [Sync ts p q] [Sync ts p' q'] :
    Sync ts (if o = u then p else p') (if o' = u' then q else q') :=
  .ite (SamePlace.eq_iff ho.like hu.like)

end Steps

/-! ## Tokens -/

section Tokens

variable {α β : Type} [Related α] [Related β] {ts : Texts}

theorem Sync.look_bind {α : Type} {f : Lexer → α} {g h : α → Parse β}
    (hgh : ∀ s t, InStep ts s t → Sync ts (g (f s.lexer)) (h (f t.lexer))) :
    Sync ts (look f >>= g) (look f >>= h) where
  sync s t a b s' t' hst hs ht honce :=
    (hgh s t hst).sync s t a b s' t' hst hs ht honce

theorem InStep.look_eq {α : Type} {s t : State} (h : InStep ts s t) (f : Lexer → α)
    [hf : Steady f] : f s.lexer = f t.lexer := by
  obtain ⟨k, hs, ht⟩ := h.lexer
  rw [hs, ht]
  exact hf.eq ts k

instance {α : Type} {f : Lexer → α} [Steady f] {g h : α → Parse β}
    [hgh : ∀ a, Sync ts (g a) (h a)] : Sync ts (look f >>= g) (look f >>= h) :=
  .look_bind fun s t hst => by
    rw [hst.look_eq f]
    infer_instance

instance : Steady Lexer.kind := ⟨fun ts k => (ts.same.token k).kind⟩
instance : Steady Lexer.value := ⟨fun ts k => (ts.same.token k).value⟩
instance : Steady Lexer.number := ⟨fun ts k => (ts.same.token k).number⟩
instance : Steady Lexer.text := ⟨fun ts k => (ts.same.token k).text⟩
instance : Steady Lexer.lineBreakBefore := ⟨fun ts k => (ts.same.token k).lineBreakBefore⟩

theorem Sync.current_bind {f g : TokenKind → Parse β} (h : ∀ k, Sync ts (f k) (g k)) :
    Sync ts (current >>= f) (current >>= g) :=
  inferInstanceAs (Sync ts (look _ >>= f) (look _ >>= g))

instance {f g : TokenKind → Parse β} [h : ∀ k, Sync ts (f k) (g k)] :
    Sync ts (current >>= f) (current >>= g) :=
  .current_bind h

theorem Sync.position_bind {f g : Nat → Parse β}
    (h : ∀ x : Twin ts Nat, Sync ts (f x.left) (g x.right)) :
    Sync ts (position >>= f) (position >>= g) :=
  .look_bind fun _ _ hst => h ⟨_, _, hst.samePlace⟩

instance {f g : Nat → Parse β} [h : ∀ x : Twin ts Nat, Sync ts (f x.left) (g x.right)] :
    Sync ts (position >>= f) (position >>= g) :=
  .position_bind h

instance {f g : Range → Parse β} [h : ∀ x : Twin ts Range, Sync ts (f x.left) (g x.right)] :
    Sync ts (tokenRange >>= f) (tokenRange >>= g) :=
  .look_bind fun s t hst => h ⟨s.lexer.range, t.lexer.range, rfl, hst.samePlace⟩

instance {start start' : Nat} [hstart : Akin ts start start'] {f g : Range → Parse β}
    [h : ∀ x : Twin ts Range, Sync ts (f x.left) (g x.right)] :
    Sync ts (rangeFrom start >>= f) (rangeFrom start' >>= g) where
  sync s t a b s' t' hst hs ht honce :=
    (h ⟨⟨start, s.previousEnd⟩, ⟨start', t.previousEnd⟩, rfl, hstart.like⟩).sync s t a b s' t' hst
      hs ht honce

instance : Sync ts advance advance where
  sync s t a b s' t' hst hs ht _ := by
    cases hs
    cases ht
    exact ⟨rfl, hst.advanced⟩

instance {r r' : Range} [h : Akin ts r r'] (fault : Fault) :
    Sync ts (reportAt r.span fault) (reportAt r'.span fault) where
  sync s t a b s' t' hst hs ht _ := by
    cases hs
    cases ht
    exact ⟨rfl, hst.report h.like fault⟩

instance (fault : Fault) : Sync ts (report fault) (report fault) where
  sync s t a b s' t' hst hs ht honce := by
    have hgo : Sync ts (tokenRange >>= fun r => reportAt r.span fault)
      (tokenRange >>= fun r => reportAt r.span fault) := inferInstance
    rw [report, get_bind] at hs ht
    rw [← hst.isAborted] at ht
    split at hs
    · rw [if_pos ‹_›] at ht
      exact hgo.sync s t a b s' t' hst hs ht honce
    · rw [if_neg ‹_›] at ht
      cases hs
      cases ht
      exact ⟨rfl, hst⟩

instance (kind : TokenKind) : Sync ts (accept? kind) (accept? kind) := by
  unfold accept?; infer_instance
instance (kind : TokenKind) : Sync ts (accept kind) (accept kind) := by
  unfold accept; infer_instance
instance (kind : TokenKind) : Sync ts (expect kind) (expect kind) := by
  unfold expect; infer_instance
instance : Sync ts semicolon semicolon := by unfold semicolon; infer_instance

end Tokens

/-! ## Loops -/

section Loops

variable {α : Type} {ts : Texts}

/-- The turn without positions. -/
def Turn.unplaced [Placed α] : Turn α → Turn α
  | .stop => .stop
  | .last a => .last (Placed.unplaced a)
  | .next a => .next (Placed.unplaced a)

instance [Placed α] : Related (Turn α) := ⟨fun _ t t' => t.unplaced = t'.unplaced⟩

section Turns

variable [Placed α] {a b : α} [h : Akin ts a b]

instance : Akin ts (Turn.stop : Turn α) .stop := ⟨rfl⟩
instance : Akin ts (Turn.last a) (.last b) := ⟨congrArg Turn.last h.unplaced_eq⟩
instance : Akin ts (Turn.next a) (.next b) := ⟨congrArg Turn.next h.unplaced_eq⟩

instance : Sync ts (turnAtComma a) (turnAtComma b) := by
  refine .bind_same inferInstance fun found => ?_
  cases found <;> infer_instance

end Turns

theorem sync_manyWithin [Placed α] (turn turn' : Parse (Turn α)) [Moves 0 turn]
    [hsync : Sync ts turn turn'] (bound bound' : Nat) :
    Sync ts (manyWithin turn bound) (manyWithin turn' bound') := by
  induction bound generalizing bound' with
  | zero => exact ⟨fun _ _ _ _ _ _ _ hs => by cases hs⟩
  | succ bound ih =>
    cases bound' with
    | zero => exact ⟨fun _ _ _ _ _ _ _ _ ht => by cases ht⟩
    | succ bound' =>
      have hmore := moves_manyWithin (n := 0) turn bound
      refine .bind (fun t => by cases t <;> infer_instance) fun t t' htt => ?_
      cases t with
      | stop =>
        cases t' with
        | stop => infer_instance
        | last _ | next _ => cases htt
      | last a =>
        cases t' with
        | last b => exact .pure (congrArg ([·]) (Turn.last.inj htt))
        | stop | next _ => cases htt
      | next a =>
        cases t' with
        | next b =>
          have := ih bound'
          exact .bind (fun _ => inferInstance) fun as bs hmore =>
            .pure (congrArg₂ List.cons (Turn.next.inj htt) hmore)
        | stop | last _ => cases htt

instance [Placed α] (turn turn' : Parse (Turn α)) [Moves 0 turn] [Sync ts turn turn'] :
    Sync ts (many turn) (many turn') where
  sync s t as bs s' t' hst hs ht honce :=
    (sync_manyWithin turn turn' _ _).sync s t as bs s' t' hst hs ht honce

theorem sync_iterateWithin [Related α] (step step' : α → Parse (Option α)) [∀ a, Moves 0 (step a)]
    (h : ∀ a b, Related.Like ts a b → Sync ts (step a) (step' b))
    (bound bound' : Nat) {a b : α} (hab : Related.Like ts a b) :
    Sync ts (iterateWithin step bound a) (iterateWithin step' bound' b) := by
  induction bound generalizing bound' a b with
  | zero => exact ⟨fun _ _ _ _ _ _ _ hs => by cases hs⟩
  | succ bound ih =>
    cases bound' with
    | zero => exact ⟨fun _ _ _ _ _ _ _ _ ht => by cases ht⟩
    | succ bound' =>
      have hmore := moves_iterateWithin (n := 0) step bound
      have := h a b hab
      refine .bind (fun next => by cases next <;> infer_instance) fun next next' hnext => ?_
      cases hnext with
      | none =>
        have : Akin ts a b := ⟨hab⟩
        infer_instance
      | some hcd => exact ih bound' hcd

instance [Related α] (step step' : α → Parse (Option α)) [∀ a, Moves 0 (step a)]
    [h : ∀ x : Twin ts α, Sync ts (step x.left) (step' x.right)] {a b : α}
    [hab : Akin ts a b] : Sync ts (iterate step a) (iterate step' b) where
  sync s t c d s' t' hst hs ht honce :=
    (sync_iterateWithin step step' (fun a b hab => h ⟨a, b, hab⟩) _ _ hab.like).sync s t c d s' t'
      hst hs ht honce

instance (stop : TokenKind → Bool) : Sync ts (skipTo stop) (skipTo stop) := by
  unfold skipTo skipStep; infer_instance

instance {start start' : Nat} [Akin ts start start'] :
    Sync ts (recover start) (recover start') := by
  have : Moves 0 (skipTo isRecoveryPoint) := moves_skipTo rfl
  unfold recover
  infer_instance

end Loops

/-! ## Nesting -/

section Nesting

variable {α : Type} [Related α] {ts : Texts} {missing missing' body body' : Parse α}

instance : Sync ts abort abort where
  sync s t a b s' t' hst hs ht honce := by
    have hskip : Moves 0 (skipTo (· = .endOfFile)) := moves_skipTo rfl
    obtain ⟨⟨⟩, s₁, hreport, hs₁⟩ := bind_eq_some.1 hs
    obtain ⟨⟨⟩, t₁, hreport', ht₁⟩ := bind_eq_some.1 ht
    rw [modify_bind] at hs₁ ht₁
    have hsound₁ : ({ s₁ with isAborted := true } : State).Sound ts.left :=
      (hst.sound.report hreport).of_eq rfl rfl rfl
    have hlater := (hskip.moves ts.left _ _ s' hsound₁ hs₁).2
    obtain ⟨-, hst₁⟩ := Sync.sync s t _ _ s₁ t₁ hst hreport hreport' (hlater.readsOnce honce)
    have hst₂ : InStep ts { s₁ with isAborted := true } { t₁ with isAborted := true } :=
      hst₁.of_eq rfl rfl rfl rfl rfl rfl rfl hst₁.depth rfl hst₁.allowsIn
    exact Sync.sync _ _ _ _ s' t' hst₂ hs₁ ht₁ honce

theorem InStep.entered {s t : State} (h : InStep ts s t) :
    InStep ts { s with depth := s.depth + 1 } { t with depth := t.depth + 1 } :=
  h.of_eq rfl rfl rfl rfl rfl rfl rfl (congrArg (· + 1) h.depth) h.isAborted h.allowsIn

theorem InStep.left {s s' t t' : State} (h : InStep ts s t)
    (hs : leave s = some ((), s')) (ht : leave t = some ((), t')) : InStep ts s' t' := by
  obtain ⟨d, hd, rfl⟩ := leave_eq_some hs
  obtain ⟨d', hd', rfl⟩ := leave_eq_some ht
  have hdepth := h.depth
  exact h.of_eq rfl rfl rfl rfl rfl rfl rfl (by simp only; omega) h.isAborted h.allowsIn

/-- Leaving a construct reads nothing. -/
theorem readsOnce_of_leave {s s' : State} (h : leave s = some ((), s')) (honce : s'.ReadsOnce) :
    s.ReadsOnce := by
  obtain ⟨d, -, rfl⟩ := leave_eq_some h
  exact honce

theorem Sync.nested (hmoves : Moves 0 missing) (hmissing : Sync ts missing missing')
    (hbody : Sync ts body body') :
    Sync ts (nested missing body) (nested missing' body') where
  sync s t a b s' t' hst hs ht honce := by
    have haborted := hst.isAborted
    have hdepth := hst.depth
    rcases nested_cases hs with ⟨s₁, hgo, hfits, hs₁, hleave⟩ | ⟨hgone, hs₁⟩ |
      ⟨s₁, s₂, hgo, hdeep, habort, hleave, hs₂⟩
    · -- The construct is read, on both texts.
      rcases nested_cases ht with ⟨t₁, -, -, ht₁, hleave'⟩ | ⟨hgone, -⟩ | ⟨-, -, -, hdeep, -⟩
      · obtain ⟨hab, hst₁⟩ := hbody.sync _ _ a b s₁ t₁ hst.entered hs₁ ht₁
          (readsOnce_of_leave hleave honce)
        exact ⟨hab, hst₁.left hleave hleave'⟩
      · rw [← haborted, hgo] at hgone
        cases hgone
      · omega
    · -- The rest of the text was skipped before.
      rcases nested_cases ht with ⟨-, hgo, -⟩ | ⟨-, ht₁⟩ | ⟨-, -, hgo, -⟩
      · rw [← haborted, hgone] at hgo
        cases hgo
      · exact hmissing.sync s t a b s' t' hst hs₁ ht₁ honce
      · rw [← haborted, hgone] at hgo
        cases hgo
    · -- The text nests too deep.
      rcases nested_cases ht with ⟨-, -, hfits, -⟩ | ⟨hgone, -⟩ | ⟨t₁, t₂, -, -, habort', hleave', ht₂⟩
      · omega
      · rw [← haborted, hgo] at hgone
        cases hgone
      · obtain ⟨hsound₁, hlater₁⟩ :=
          hst.entered.sound.abort hgo (Nat.lt_succ_of_le hdeep) habort
        obtain ⟨hsound₂, -⟩ := hlater₁.leave hleave hsound₁
        have honce₂ := (hmoves.moves ts.left s₂ a s' hsound₂ hs₂).2.readsOnce honce
        obtain ⟨-, hst₁⟩ := Sync.sync _ _ _ _ s₁ t₁ hst.entered habort habort'
          (readsOnce_of_leave hleave honce₂)
        exact hmissing.sync s₂ t₂ a b s' t' (hst₁.left hleave hleave') hs₂ ht₂ honce

instance [hmoves : Moves 0 missing] [hmissing : Sync ts missing missing']
    [hbody : Sync ts body body'] :
    Sync ts (nested missing body) (nested missing' body') :=
  .nested hmoves hmissing hbody

instance (allowed : Bool) [h : Sync ts body body'] :
    Sync ts (withIn allowed body) (withIn allowed body') where
  sync s t a b s' t' hst hs ht honce := by
    obtain ⟨s₁, hs₁, rfl⟩ := withIn_eq_some hs
    obtain ⟨t₁, ht₁, rfl⟩ := withIn_eq_some ht
    have hst' : InStep ts { s with allowsIn := allowed } { t with allowsIn := allowed } :=
      hst.of_eq rfl rfl rfl rfl rfl rfl rfl hst.depth hst.isAborted rfl
    obtain ⟨hab, hst₁⟩ := h.sync _ _ a b s₁ t₁ hst' hs₁ ht₁ honce
    exact ⟨hab, hst₁.of_eq rfl rfl rfl rfl rfl rfl rfl hst₁.depth hst₁.isAborted hst.allowsIn⟩

end Nesting

end Grammar

end LambdaLift
