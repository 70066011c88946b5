import LambdaLift.Proofs.Grammar.Termination

/-!
# The nesting limit is reported once

* `tooDeep_reported_once`: where a text nests too deep, this is reported once and the rest of the
  text is skipped. Then the end of the text is all that is read, and the only reports are those of
  exports that were begun before. A text without the word `export` has none of them.
* `export_reported_beyond_limit`: there can be such a report.
-/

namespace LambdaLift

namespace Grammar

variable {s s' t u : State} {rs : List Report}

/-- Without reports before, none says that the text nests too deep. -/
theorem Proceeds.shallow (h : Proceeds s s') (hs : s.reports = []) :
    ∀ r ∈ s'.reports, r.isTooDeep = false := by
  obtain ⟨rs, hrs, hshallow⟩ := h.reports
  rw [hrs, hs]
  exact hshallow

theorem Unwinds.shallow (h : Unwinds rs s s') : ∀ r ∈ rs, r.isTooDeep = false := by
  intro r hr
  obtain ⟨span, rfl⟩ := h.isExport r hr
  exact Fault.Shallow.isTooDeep span

theorem countP_isTooDeep_eq_zero (h : ∀ r ∈ rs, r.isTooDeep = false) :
    rs.countP Report.isTooDeep = 0 :=
  List.countP_eq_zero.2 fun r hr => by simp [h r hr]

/-- Of the reports around the nesting limit one tells of it. -/
theorem Unwinds.countP_isTooDeep (h : Unwinds rs u s)
    (hu : u.reports = t.reports ++ [.ofFault t.lexer.range.span (.tooDeep nestingLimit)])
    (ht : ∀ r ∈ t.reports, r.isTooDeep = false) : s.reports.countP Report.isTooDeep = 1 := by
  rw [h.reports, hu, List.countP_append, List.countP_append, countP_isTooDeep_eq_zero ht,
    countP_isTooDeep_eq_zero h.shallow]
  rfl

/-- **The nesting limit.** Every text is read to its end, with at most one report that it nests too
deep. Such a report is made in a state `t` beyond the limit, and the rest of the text is skipped, up
to `u`. From there on the current token stays the end of the text, and the reports `rs` that are
still added are all of exports that export no declaration, at most one for each export that was
begun before `t`. So the report is the last one if no export was begun. -/
theorem tooDeep_reported_once (text : String) :
    ∃ statements s, run? text = some (statements, s) ∧
      s.reports.countP Report.isTooDeep ≤ 1 ∧
      ((∀ r ∈ s.reports, r.isTooDeep = false) ∨
        ∃ t u rs, nestingLimit < t.depth ∧ (∀ r ∈ t.reports, r.isTooDeep = false) ∧
          abort t = some ((), u) ∧ u.lexer.kind = .endOfFile ∧
          u.reports = t.reports ++ [.ofFault t.lexer.range.span (.tooDeep nestingLimit)] ∧
          Unwinds rs u s ∧ rs.length ≤ t.exports) := by
  obtain ⟨statements, s, hrun⟩ := program_ends (Nat.le_refl (recursionBound text))
  have hlater : Later (.ofText text) s := (Moves.moves 0 text _ _ s (sound_ofText text) hrun).2
  refine ⟨statements, s, hrun, ?_⟩
  obtain hgo | ⟨hbefore, hdeep, hstop, hafter, hlength⟩ := hlater.proceeds rfl
  · have hshallow := hgo.shallow rfl
    exact ⟨by simp [countP_isTooDeep_eq_zero hshallow], .inl hshallow⟩
  · have hshallow := hbefore.shallow rfl
    obtain ⟨-, hkind, hreports⟩ := abort_eq_some hstop hbefore.isAborted
    refine ⟨Nat.le_of_eq (hafter.countP_isTooDeep hreports hshallow), .inr ?_⟩
    exact ⟨_, _, _, hdeep, hshallow, hstop, hkind, hreports, hafter, by omega⟩

/-- An export that nests too deep is reported after the nesting limit: it exports no declaration. -/
theorem export_reported_beyond_limit :
    (run? ("export " ++ String.ofList (List.replicate 198 '!'))).map
      (·.2.reports.map Report.code) = some [1500, 1128] := by
  -- With its characters at hand the text is not decoded again at every token.
  have htext : ("export " ++ String.ofList (List.replicate 198 '!')).toList =
      "export ".toList ++ List.replicate 198 '!' := by
    rw [String.toList_append, String.toList_ofList, String.toList_ofList]
  rw [run?, recursionBound, ← String.length_toList, State.ofText, Lexer.ofText, Cursor.ofText,
    htext]
  decide +kernel

end Grammar

end LambdaLift
