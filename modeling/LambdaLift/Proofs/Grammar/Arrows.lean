import LambdaLift.Proofs.Grammar.Termination

/-!
# Where arrow functions start

Whether a name or a parenthesis starts an arrow function is decided before anything is read, once at
a word `async` and once more after it.

* `Balances l m`: between the tokens `l` and `m` every bracket that opens is closed.
* `arrowAfterBrackets_iff`: looking for an arrow finds the bracket that closes the first one.
* `StartsArrow l`: an arrow function starts at `l`, with or without the word `async`.
* `failed_arrow_reads_nothing`: an arrow function is read exactly if one starts here, and if not,
  nothing has changed.
-/

namespace LambdaLift

/-- A token that opens a bracket; the first piece of a template opens one with its last
character. -/
def TokenKind.opensBracket : TokenKind → Bool
  | .punctuator .openParen | .punctuator .openBracket | .punctuator .openBrace
  | .templateHead => true
  | _ => false

/-- A token that closes a bracket. -/
def TokenKind.closesBracket : TokenKind → Bool
  | .punctuator .closeParen | .punctuator .closeBracket | .punctuator .closeBrace => true
  | _ => false

namespace Grammar

/-! ## Brackets -/

/-- From `l` up to, and not including, `m` there are tokens with brackets that open and close. Which
kind of bracket closes one does not matter. -/
inductive Balances : Lexer → Lexer → Prop
  | nil (l : Lexer) : Balances l l
  | token {l m : Lexer} (hopen : l.kind.opensBracket = false) (hclose : l.kind.closesBracket = false)
      (hend : l.kind ≠ .endOfFile) (more : Balances l.scan m) : Balances l m
  | group {l k m : Lexer} (hopen : l.kind.opensBracket = true) (inside : Balances l.scan k)
      (hclose : k.kind.closesBracket = true) (more : Balances k.scan m) : Balances l m

/-- The bracket at `l` is closed, and an arrow follows on the line of the bracket that closes it. -/
def ArrowAfter (l : Lexer) : Prop :=
  ∃ m, Balances l.scan m ∧ m.kind.closesBracket = true ∧ arrowFollows m = true

variable {text : String} {l m : Lexer}

theorem ne_endOfFile_of_opensBracket (h : l.kind.opensBracket = true) : l.kind ≠ .endOfFile := by
  intro hend
  simp [hend, TokenKind.opensBracket] at h

theorem ne_endOfFile_of_closesBracket (h : l.kind.closesBracket = true) : l.kind ≠ .endOfFile := by
  intro hend
  simp [hend, TokenKind.closesBracket] at h

theorem opensBracket_of_closesBracket {kind : TokenKind} (h : kind.closesBracket = true) :
    kind.opensBracket = false := by
  rw [TokenKind.closesBracket.eq_def] at h
  split at h <;> simp_all [TokenKind.opensBracket]

theorem length_scan_lt_of_onToken (h : l.OnToken text) (hkind : l.kind ≠ .endOfFile) :
    l.scan.start.rest.length < l.start.rest.length :=
  Nat.lt_of_le_of_lt (Lexer.here_le_scan_start l).2 (h.width hkind)

theorem Balances.onToken (h : Balances l m) (hl : l.OnToken text) :
    m.OnToken text ∧ m.start.rest.length ≤ l.start.rest.length := by
  induction h with
  | nil => exact ⟨hl, Nat.le_refl _⟩
  | token _ _ hend _ ih =>
    obtain ⟨hm, hle⟩ := ih hl.scan
    exact ⟨hm, hle.trans (Nat.le_of_lt (length_scan_lt_of_onToken hl hend))⟩
  | group hopen _ hclose _ ih ih' =>
    obtain ⟨hk, hle⟩ := ih hl.scan
    obtain ⟨hm, hle'⟩ := ih' hk.scan
    have hlt := length_scan_lt_of_onToken hl (ne_endOfFile_of_opensBracket hopen)
    have hlt' := length_scan_lt_of_onToken hk (ne_endOfFile_of_closesBracket hclose)
    exact ⟨hm, by omega⟩

/-- Looking for an arrow with `depth` brackets open, as far as the text goes. -/
def arrowFrom (depth : Nat) (l : Lexer) : Bool :=
  arrowAfterBracketsWithin (l.start.rest.length + 1) depth l

/-- What looking for an arrow does at one token. -/
theorem arrowFrom_step (hl : l.OnToken text) (depth : Nat) :
    arrowFrom depth l =
      if l.kind.opensBracket then arrowFrom (depth + 1) l.scan
      else if l.kind.closesBracket then
        if depth ≤ 1 then arrowFollows l else arrowFrom (depth - 1) l.scan
      else if l.kind = .endOfFile then false
      else arrowFrom depth l.scan := by
  have hnext (hkind : l.kind ≠ .endOfFile) (d : Nat) :
      arrowAfterBracketsWithin l.start.rest.length d l.scan = arrowFrom d l.scan :=
    arrowAfterBracketsWithin_of_lt hl.scan (length_scan_lt_of_onToken hl hkind)
      (Nat.lt_succ_self _) d
  rw [arrowFrom, arrowAfterBracketsWithin]
  split <;> simp_all [TokenKind.opensBracket, TokenKind.closesBracket]

/-- Brackets that open and close do not change how many are open. -/
theorem Balances.arrowFrom_eq (h : Balances l m) (hl : l.OnToken text) (depth : Nat) :
    arrowFrom (depth + 1) l = arrowFrom (depth + 1) m := by
  induction h generalizing depth with
  | nil => rfl
  | token hopen hclose hend _ ih =>
    rw [arrowFrom_step hl]
    simp [hopen, hclose, hend, ih hl.scan depth]
  | group hopen inside hclose _ ih ih' =>
    have hk := (inside.onToken hl.scan).1
    rw [arrowFrom_step hl, if_pos hopen, ih hl.scan (depth + 1), arrowFrom_step hk]
    simp [opensBracket_of_closesBracket hclose, hclose, ih' hk.scan depth]

/-- If an arrow is found with brackets open, the last of them is closed. It was the only one and the
arrow follows, or the arrow is found from there on. -/
theorem exists_balances (hl : l.OnToken text) (depth : Nat) (h : arrowFrom (depth + 1) l = true) :
    ∃ m, Balances l m ∧ m.kind.closesBracket = true ∧
      if depth = 0 then arrowFollows m = true else arrowFrom depth m.scan = true := by
  induction hn : l.start.rest.length using Nat.strong_induction_on generalizing l depth with
  | _ n ih =>
    subst hn
    rw [arrowFrom_step hl] at h
    split at h
    · -- The bracket that opens here is closed first.
      rename_i hopen
      have hlt := length_scan_lt_of_onToken hl (ne_endOfFile_of_opensBracket hopen)
      obtain ⟨k, hk, hclose, hmore⟩ := ih _ hlt hl.scan (depth + 1) h rfl
      obtain ⟨hktoken, hle⟩ := hk.onToken hl.scan
      have hlt' := length_scan_lt_of_onToken hktoken (ne_endOfFile_of_closesBracket hclose)
      rw [if_neg (Nat.succ_ne_zero depth)] at hmore
      obtain ⟨m, hm, hm'⟩ := ih _ (by omega) hktoken.scan depth hmore rfl
      exact ⟨m, .group hopen hk hclose hm, hm'⟩
    · split at h
      · refine ⟨l, .nil l, ‹_›, ?_⟩
        by_cases hdepth : depth = 0
        · simpa [hdepth] using h
        · have : ¬ depth + 1 ≤ 1 := by omega
          simpa [hdepth, this] using h
      · rename_i hopen hclose
        split at h
        · cases h
        · rename_i hend
          have hlt := length_scan_lt_of_onToken hl hend
          obtain ⟨m, hm, hm'⟩ := ih _ hlt hl.scan depth h rfl
          exact ⟨m, .token (by simpa using hopen) (by simpa using hclose) hend hm, hm'⟩

/-- **Brackets.** Looking for an arrow from a bracket on finds the bracket that closes it, however
far away it is, and the arrow after that one. -/
theorem arrowAfterBrackets_iff (hl : l.OnToken text) (hopen : l.kind.opensBracket = true) :
    arrowAfterBrackets l = true ↔ ArrowAfter l := by
  have hfirst : arrowAfterBrackets l = arrowFrom 1 l.scan := by
    change arrowFrom 0 l = _
    rw [arrowFrom_step hl, if_pos hopen]
  rw [hfirst]
  constructor
  · intro h
    obtain ⟨m, hm, hclose, hfollows⟩ := exists_balances hl.scan 0 h
    exact ⟨m, hm, hclose, by simpa using hfollows⟩
  · rintro ⟨m, hm, hclose, hfollows⟩
    rw [hm.arrowFrom_eq hl.scan 0, arrowFrom_step (hm.onToken hl.scan).1]
    simp [opensBracket_of_closesBracket hclose, hclose, hfollows]

/-! ## Reading an arrow function -/

/-- An arrow function without the word `async` starts at `l`: a name or a parenthesis, with an arrow
after it on the same line. -/
def StartsParameters (l : Lexer) : Prop :=
  l.kind = .identifier ∧ arrowFollows l = true ∨
    l.kind = .punctuator .openParen ∧ ArrowAfter l

/-- An arrow function starts at `l`. A word `async` before it is on its line. -/
def StartsArrow (l : Lexer) : Prop :=
  StartsParameters l ∨
    isName "async" l = true ∧ l.scan.lineBreakBefore = false ∧ StartsParameters l.scan

/-- Looking ahead for the parameters of an arrow function. -/
def parametersFollow (l : Lexer) : Bool :=
  match l.kind with
  | .identifier => arrowFollows l
  | .punctuator .openParen => arrowAfterBrackets l
  | _ => false

theorem parametersFollow_iff (hl : l.OnToken text) :
    parametersFollow l = true ↔ StartsParameters l := by
  have hbrackets (hkind : l.kind = .punctuator .openParen) :
      arrowAfterBrackets l = true ↔ ArrowAfter l :=
    arrowAfterBrackets_iff hl (by rw [hkind]; rfl)
  unfold parametersFollow StartsParameters
  split <;> simp_all

/-- At the word `async` it is already asked what is asked again after it. -/
theorem asyncArrowFollows_eq_and (l : Lexer) :
    asyncArrowFollows l = (!l.scan.lineBreakBefore && parametersFollow l.scan) :=
  rfl

variable {g : Rules} {s t : State} {result : Option Expr}

theorem arrowModifier?_eq (s : State) :
    arrowModifier? s =
      if isName "async" s.lexer && !arrowFollows s.lexer then
        if asyncArrowFollows s.lexer then some (some true, s.advanced) else some (none, s)
      else some (some false, s) := by
  rw [arrowModifier?, look_bind, look_bind]
  split
  · rw [look_bind]
    split <;> rfl
  · rfl

/-- Parameters are read exactly if they are there, and else nothing is. -/
theorem arrowParameters?_eq_some {params : Option (List Param)}
    (h : arrowParameters? g s = some (params, t)) :
    params.isSome = parametersFollow s.lexer ∧ (params = none → t = s) := by
  rw [arrowParameters?, current_bind] at h
  unfold parametersFollow
  split
  · simp only [*] at h
    rw [look_bind] at h
    split at h
    · obtain ⟨id, s₁, -, h⟩ := bind_eq_some.1 h
      obtain ⟨rfl, -⟩ := pure_eq_some.1 h
      simp [*]
    · obtain ⟨rfl, rfl⟩ := pure_eq_some.1 h
      simp [*]
  · simp only [*] at h
    rw [look_bind] at h
    split at h
    · obtain ⟨ps, s₁, -, h⟩ := bind_eq_some.1 h
      obtain ⟨rfl, -⟩ := pure_eq_some.1 h
      simp [*]
    · obtain ⟨rfl, rfl⟩ := pure_eq_some.1 h
      simp [*]
  · generalize s.lexer.kind = kind at *
    split at h
    · contradiction
    · contradiction
    · obtain ⟨rfl, rfl⟩ := pure_eq_some.1 h
      simp

/-- An arrow function is read exactly if its parameters are there after the word `async`, and else
nothing is read after that word. -/
theorem arrowFunction?_eq_some (h : arrowFunction? g s = some (result, t)) :
    ∃ modifier u, arrowModifier? s = some (modifier, u) ∧
      result.isSome = (modifier.isSome && parametersFollow u.lexer) ∧ (result = none → t = u) := by
  rw [arrowFunction?, position_bind] at h
  obtain ⟨modifier, u, hmodifier, h⟩ := bind_eq_some.1 h
  refine ⟨modifier, u, hmodifier, ?_⟩
  cases modifier with
  | none =>
    obtain ⟨rfl, rfl⟩ := pure_eq_some.1 h
    exact ⟨rfl, fun _ => rfl⟩
  | some isAsync =>
    obtain ⟨params, v, hparams, h⟩ := bind_eq_some.1 h
    obtain ⟨hfollow, hnone⟩ := arrowParameters?_eq_some hparams
    rw [← hfollow]
    cases params with
    | none =>
      obtain ⟨rfl, rfl⟩ := pure_eq_some.1 h
      exact ⟨rfl, fun _ => hnone rfl⟩
    | some params =>
      obtain ⟨⟨⟩, s₁, -, h⟩ := bind_eq_some.1 h
      obtain ⟨body, s₂, -, h⟩ := bind_eq_some.1 h
      rw [rangeFrom_bind] at h
      obtain ⟨rfl, -⟩ := pure_eq_some.1 h
      exact ⟨rfl, by simp⟩

/-- After the word `async` was read there is an arrow function. -/
theorem isSome_of_async (h : arrowFunction? g s = some (result, t)) {u : State}
    (hasync : arrowModifier? s = some (some true, u)) : u = s.advanced ∧ result.isSome = true := by
  obtain ⟨modifier, v, hmodifier, hsome, -⟩ := arrowFunction?_eq_some h
  rw [hasync] at hmodifier
  cases hmodifier
  rw [arrowModifier?_eq] at hasync
  split at hasync
  · split at hasync
    · rename_i hfollows
      cases hasync
      rw [asyncArrowFollows_eq_and, Bool.and_eq_true] at hfollows
      exact ⟨rfl, by rw [hsome]; exact hfollows.2⟩
    · cases hasync
  · cases hasync

/-- Nothing is read before it shows that there is an arrow. -/
theorem eq_of_arrowFunction? (h : arrowFunction? g s = some (none, t)) : t = s := by
  obtain ⟨modifier, u, hmodifier, -, hu⟩ := arrowFunction?_eq_some h
  obtain rfl := hu rfl
  have hnot : modifier ≠ some true := by
    rintro rfl
    cases (isSome_of_async h hmodifier).2
  rw [arrowModifier?_eq] at hmodifier
  split at hmodifier
  · split at hmodifier
    · cases hmodifier
      exact absurd rfl hnot
    · cases hmodifier
      rfl
  · cases hmodifier
    rfl

theorem isSome_arrowFunction?_iff (hs : s.Sound text) (h : arrowFunction? g s = some (result, t)) :
    result.isSome = true ↔ StartsArrow s.lexer := by
  have hname (h : isName "async" s.lexer = true) : s.lexer.kind = .identifier := by
    simp only [isName, Bool.and_eq_true, decide_eq_true_eq] at h
    exact h.1
  have hhere := parametersFollow_iff hs.lexer
  have hnext := parametersFollow_iff hs.lexer.scan
  obtain ⟨modifier, u, hmodifier, hsome, -⟩ := arrowFunction?_eq_some h
  rw [hsome, StartsArrow, ← hhere, ← hnext]
  rw [arrowModifier?_eq, asyncArrowFollows_eq_and] at hmodifier
  split at hmodifier
  · -- At the word `async` alone there is a name, and no arrow after it.
    rename_i hasync
    rw [Bool.and_eq_true, Bool.not_eq_true'] at hasync
    have hkind := hname hasync.1
    split at hmodifier <;> cases hmodifier <;>
      simp_all [parametersFollow, State.advanced]
  · rename_i hasync
    cases hmodifier
    by_cases hfollow : isName "async" s.lexer = true
    · have hkind := hname hfollow
      simp_all [parametersFollow]
    · simp [hfollow]

/-- **Failed attempts.** In every state on a token of a text, reading an arrow function comes to an
end, and it gives one exactly if one starts there. If it gives none, the state is the same in every
respect, whatever was looked at: going back from any token after the current one leads to the
current one. If a word `async` was read, there is an arrow function. -/
theorem failed_arrow_reads_nothing {text : String} {s : State} (hs : s.Sound text) :
    (∀ g t, arrowFunction? g s = some (none, t) → t = s) ∧
    (∀ g result t u, arrowFunction? g s = some (result, t) →
      arrowModifier? s = some (some true, u) → u = s.advanced ∧ result.isSome = true) ∧
    (∀ bound, 2 * s.remaining < bound → ∃ result t,
      arrowFunction? (rules bound) s = some (result, t) ∧
        (result.isSome = true ↔ StartsArrow s.lexer)) ∧
    ∀ k, (Lexer.scan^[k] s.lexer).restore s.lexer.mark = s.lexer := by
  refine ⟨fun g t h => eq_of_arrowFunction? h, fun g result t u h hasync => isSome_of_async h hasync,
    fun bound hbound => ?_, fun k => Lexer.restore_mark (reports_prefix_iterate s.lexer k)⟩
  have : MovingRules s.remaining (rules bound) := movingRules_rules (by omega)
  obtain ⟨result, t, h⟩ : ∃ result t, arrowFunction? (rules bound) s = some (result, t) :=
    Moves.ends (n := s.remaining + 1) text s hs (Nat.lt_succ_self _)
  exact ⟨result, t, h, isSome_arrowFunction?_iff hs h⟩

/-- The word `async` is read before parameters with an arrow on the line of the last bracket. If the
arrow is on the next line, nothing is read, not even that word. -/
theorem failed_arrow_keeps_async :
    let s := State.ofText "async (a, [b], \x7bc\x7d) => a"
    let s' := State.ofText "async (a, [b])\n=> a"
    arrowModifier? s = some (some true, s.advanced) ∧
      (∃ e t, arrowFunction? (rules 70) s = some (some e, t)) ∧
      isName "async" s'.lexer = true ∧ arrowFunction? (rules 70) s' = some (none, s') := by
  intro s s'
  have hasync : arrowModifier? s = some (some true, s.advanced) := by
    have hname : (isName "async" s.lexer && !arrowFollows s.lexer) = true := by decide +kernel
    have hfollows : asyncArrowFollows s.lexer = true := by decide +kernel
    rw [arrowModifier?_eq, if_pos hname, if_pos hfollows]
  have hnone : (arrowFunction? (rules 70) s').map (·.1.isSome) = some false := by decide +kernel
  obtain ⟨-, hsome, hends, -⟩ := failed_arrow_reads_nothing (sound_ofText _ : s.Sound _)
  obtain ⟨hsame, -⟩ := failed_arrow_reads_nothing (sound_ofText _ : s'.Sound _)
  refine ⟨hasync, ?_, by decide +kernel, ?_⟩
  · obtain ⟨result, t, h, -⟩ := hends 70 (by decide +kernel)
    obtain ⟨e, rfl⟩ := Option.isSome_iff_exists.1 (hsome _ _ _ _ h hasync).2
    exact ⟨e, t, h⟩
  · obtain ⟨⟨result, t⟩, h, hresult⟩ := Option.map_eq_some_iff.1 hnone
    obtain rfl : result = none := by simpa using hresult
    rw [h, hsame _ _ h]

end Grammar

end LambdaLift
