import LambdaLift.Proofs.Grammar.Follows

/-!
# At the nesting limit

At the first construct that is nested too deep `abort` says so and skips the rest of the text. The
constructs around it are still to be read to their ends, which they are at the end of the text.

* `Proceeds s s'`: the limit is not reached between `s` and `s'`.
* `Unwinds rs s s'`: after the rest of the text was skipped nothing is read, and the only reports
  are `rs`, each of which says of an export that it exports no declaration.
* `Abandons k s s'`: the limit is reached once between `s` and `s'`. The reports after it are at
  most `k` more than the exports that were begun before it.
* `Heeds k s s'`: one of these is the case, as the rest of the text was skipped up to `s` or not.
-/

namespace LambdaLift

/-- Whether a report says that the text nests too deep. -/
def Report.isTooDeep (r : Report) : Bool :=
  r.code = (Fault.tooDeep Grammar.nestingLimit).template.code

/-- A fault that is not about how deep the text nests. -/
class Fault.Shallow (fault : Fault) : Prop where
  isTooDeep : ∀ span, (Report.ofFault span fault).isTooDeep = false

instance : Fault.Shallow .identifierExpected := ⟨fun _ => rfl⟩
instance : Fault.Shallow .functionNameExpected := ⟨fun _ => rfl⟩
instance (what : String) : Fault.Shallow (.expected what) := ⟨fun _ => rfl⟩
instance : Fault.Shallow .expressionExpected := ⟨fun _ => rfl⟩
instance : Fault.Shallow .declarationExpected := ⟨fun _ => rfl⟩
instance : Fault.Shallow .variableExpected := ⟨fun _ => rfl⟩
instance : Fault.Shallow .argumentExpected := ⟨fun _ => rfl⟩
instance : Fault.Shallow .propertyExpected := ⟨fun _ => rfl⟩
instance : Fault.Shallow .handlerExpected := ⟨fun _ => rfl⟩

namespace Grammar

/-- The number of exports that were begun. -/
def State.exports (s : State) : Nat :=
  s.tokens.countP (·.kind = .keyword .export_)

/-- The rest of the text was not skipped up to `s'`, and no report after `s` says that the text
nests too deep. -/
structure Proceeds (s s' : State) : Prop where
  isAborted : s'.isAborted = false
  reports : ∃ rs, s'.reports = s.reports ++ rs ∧ ∀ r ∈ rs, r.isTooDeep = false

/-- From `s` on, where the rest of the text was skipped, only the end of the text is read, and only
the reports `rs` are added. -/
structure Unwinds (rs : List Report) (s s' : State) : Prop where
  isAborted : s'.isAborted = true
  kind : s'.lexer.kind = .endOfFile
  tokens : ∃ ts, s'.tokens = ts ++ s.tokens ∧ ∀ t ∈ ts, t.kind = .endOfFile
  reports : s'.reports = s.reports ++ rs
  isExport : ∀ r ∈ rs, ∃ span, r = .ofFault span .declarationExpected

/-- From `s` reading proceeds to a state `t` that is nested too deep. There the rest of the text is
skipped, up to `u`, and what is left of the constructs around is read at its end. -/
inductive Abandons (k : Nat) (s s' : State) : Prop
  | mk {t u : State} {rs : List Report} (before : Proceeds s t) (deep : nestingLimit < t.depth)
      (stop : abort t = some ((), u)) (after : Unwinds rs u s')
      (length_le : rs.length + s.exports ≤ t.exports + k)

/-- Reading from `s` to `s'` respects the nesting limit, with `k` reports on credit: as many may be
added after the limit was reached for which no export was begun after `s`. -/
structure Heeds (k : Nat) (s s' : State) : Prop where
  unwinds : s.isAborted = true → s.lexer.kind = .endOfFile →
    ∃ rs, Unwinds rs s s' ∧ rs.length ≤ k
  proceeds : s.isAborted = false → Proceeds s s' ∨ Abandons k s s'

variable {s s' s₁ s₂ s₃ : State} {k k' : Nat} {rs rs' : List Report}

theorem Proceeds.refl (h : s.isAborted = false) : Proceeds s s :=
  ⟨h, [], by simp, by simp⟩

theorem Proceeds.trans (h : Proceeds s₁ s₂) (h' : Proceeds s₂ s₃) : Proceeds s₁ s₃ := by
  obtain ⟨rs, hrs, hshallow⟩ := h.reports
  obtain ⟨rs', hrs', hshallow'⟩ := h'.reports
  exact ⟨h'.isAborted, rs ++ rs', by rw [hrs', hrs, List.append_assoc],
    List.forall_mem_append.2 ⟨hshallow, hshallow'⟩⟩

theorem Proceeds.report (h : s.isAborted = false) (span : Span) (fault : Fault) [fault.Shallow] :
    Proceeds s { s with reports := s.reports ++ [.ofFault span fault] } :=
  ⟨h, [_], rfl, by simpa using Fault.Shallow.isTooDeep span⟩

theorem Unwinds.refl (haborted : s.isAborted = true) (hkind : s.lexer.kind = .endOfFile) :
    Unwinds [] s s :=
  ⟨haborted, hkind, ⟨[], rfl, by simp⟩, by simp, by simp⟩

theorem Unwinds.trans (h : Unwinds rs s₁ s₂) (h' : Unwinds rs' s₂ s₃) :
    Unwinds (rs ++ rs') s₁ s₃ where
  isAborted := h'.isAborted
  kind := h'.kind
  tokens := by
    obtain ⟨ts, hts, hend⟩ := h.tokens
    obtain ⟨ts', hts', hend'⟩ := h'.tokens
    exact ⟨ts' ++ ts, by rw [hts', hts, List.append_assoc], List.forall_mem_append.2 ⟨hend', hend⟩⟩
  reports := by rw [h'.reports, h.reports, List.append_assoc]
  isExport := List.forall_mem_append.2 ⟨h.isExport, h'.isExport⟩

theorem Heeds.refl (s : State) : Heeds 0 s s where
  unwinds haborted hkind := ⟨[], .refl haborted hkind, Nat.le_refl _⟩
  proceeds h := .inl (.refl h)

/-- The limit is reached in one of two steps. After that there is nothing but its reports. -/
theorem Heeds.trans (h : Heeds k s₁ s₂) (h' : Heeds k' s₂ s₃) (hexports : s₁.exports ≤ s₂.exports) :
    Heeds (k + k') s₁ s₃ where
  unwinds haborted hkind := by
    obtain ⟨rs, hrs, hlength⟩ := h.unwinds haborted hkind
    obtain ⟨rs', hrs', hlength'⟩ := h'.unwinds hrs.isAborted hrs.kind
    exact ⟨rs ++ rs', hrs.trans hrs', by rw [List.length_append]; omega⟩
  proceeds haborted := by
    obtain hbefore | ⟨hbefore, hdeep, hstop, hafter, hlength⟩ := h.proceeds haborted
    · obtain hnext | ⟨hnext, hdeep, hstop, hafter, hlength⟩ := h'.proceeds hbefore.isAborted
      · exact .inl (hbefore.trans hnext)
      · exact .inr ⟨hbefore.trans hnext, hdeep, hstop, hafter, by omega⟩
    · obtain ⟨rs', hrs', hlength'⟩ := h'.unwinds hafter.isAborted hafter.kind
      exact .inr ⟨hbefore, hdeep, hstop, hafter.trans hrs', by rw [List.length_append]; omega⟩

theorem Heeds.mono (h : Heeds k s s') (hk : k ≤ k') : Heeds k' s s' where
  unwinds haborted hkind := by
    obtain ⟨rs, hrs, hlength⟩ := h.unwinds haborted hkind
    exact ⟨rs, hrs, hlength.trans hk⟩
  proceeds haborted := by
    obtain hgo | ⟨hbefore, hdeep, hstop, hafter, hlength⟩ := h.proceeds haborted
    · exact .inl hgo
    · exact .inr ⟨hbefore, hdeep, hstop, hafter, by omega⟩

/-- An export that is begun pays for a report. -/
theorem Heeds.export (h : Heeds 1 s.advanced s') (hkind : s.lexer.kind = .keyword .export_) :
    Heeds 0 s s' where
  unwinds _ hend := by
    rw [hkind] at hend
    cases hend
  proceeds haborted := by
    have hexports : s.advanced.exports = s.exports + 1 := by
      simp [State.exports, State.advanced, Lexer.token, hkind]
    obtain hgo | ⟨hbefore, hdeep, hstop, hafter, hlength⟩ := h.proceeds haborted
    · exact .inl ⟨hgo.isAborted, hgo.reports⟩
    · exact .inr ⟨⟨hbefore.isAborted, hbefore.reports⟩, hdeep, hstop, hafter, by omega⟩

/-- Levels of nesting and words that are operators do not count. -/
theorem Heeds.reset {depth depth' : Nat} {allowsIn allowsIn' : Bool}
    (h : Heeds k { s with depth, allowsIn } s') :
    Heeds k s { s' with depth := depth', allowsIn := allowsIn' } where
  unwinds haborted hkind := by
    obtain ⟨rs, hrs, hlength⟩ := h.unwinds haborted hkind
    exact ⟨rs, ⟨hrs.isAborted, hrs.kind, hrs.tokens, hrs.reports, hrs.isExport⟩, hlength⟩
  proceeds haborted := by
    obtain hgo | ⟨hbefore, hdeep, hstop, hafter, hlength⟩ := h.proceeds haborted
    · exact .inl ⟨hgo.isAborted, hgo.reports⟩
    · exact .inr ⟨⟨hbefore.isAborted, hbefore.reports⟩, hdeep, hstop,
        ⟨hafter.isAborted, hafter.kind, hafter.tokens, hafter.reports, hafter.isExport⟩, hlength⟩

/-! ## Skipping the rest of a text -/

theorem skipTo_eq_some {stop : TokenKind → Bool} {u : Unit} (h : skipTo stop s = some (u, s')) :
    stop s'.lexer.kind = true ∧ s'.isAborted = s.isAborted ∧ s'.reports = s.reports := by
  have hwithin (bound : Nat) {s : State}
      (h : iterateWithin (skipStep stop) bound () s = some (u, s')) :
      stop s'.lexer.kind = true ∧ s'.isAborted = s.isAborted ∧ s'.reports = s.reports := by
    induction bound generalizing s with
    | zero => cases h
    | succ bound ih =>
      obtain ⟨x, s₁, hstep, h⟩ := bind_eq_some.1 h
      rw [skipStep, current_bind] at hstep
      split at hstep
      · rename_i hstop
        cases hstep
        cases h
        exact ⟨hstop, rfl, rfl⟩
      · cases hstep
        exact ih (s := s.advanced) h
  exact hwithin _ h

theorem abort_eq_some (h : abort s = some ((), s')) (haborted : s.isAborted = false) :
    s'.isAborted = true ∧ s'.lexer.kind = .endOfFile ∧
      s'.reports = s.reports ++ [.ofFault s.lexer.range.span (.tooDeep nestingLimit)] := by
  obtain ⟨⟨⟩, s₁, hreport, h⟩ := bind_eq_some.1 h
  obtain ⟨hkind, hisAborted, hreports⟩ := skipTo_eq_some h
  obtain ⟨-, rfl⟩ | ⟨hskipped, -⟩ := report_cases hreport
  · exact ⟨hisAborted, by simpa using hkind, hreports⟩
  · rw [haborted] at hskipped
    cases hskipped

end Grammar

end LambdaLift
