import LambdaLift.Proofs.Grammar.Faults

/-!
# Names by their value

A name can be written with escapes, and lifted code has it by its value. So the value should be read
as the same name where it stands by itself.

* `Name.isNamePart_body`: however a name is written, its value consists of name characters.
* `Lexer.ReadsAsName x`: the text `x` is read as the name `x` and nothing else.
* `Lexer.value_reads_as_name_iff`: the value of a name is read as the name, unless it does not start
  as a name or is a keyword. Only escapes can bring that about, since the first character and the
  whole word are looked at where they are written without one.
-/

namespace LambdaLift

namespace Name

/-- The value of a name without a report consists of name characters. -/
theorem isNamePart_body (c : Cursor) (h : (body c).reports = []) :
    ∀ x ∈ (body c).value, Character.isNamePart x = true := by
  fun_induction body c with
  | case1 | case5 => simp
  | case2 c x xs hrest hesc cooked stop hread more y hcooked ih =>
    have hy := (Option.filter_eq_some_iff.1 hcooked).2
    intro z hz
    rcases List.mem_cons.1 hz with rfl | hz
    · exact hy
    · exact ih h z hz
  | case3 => cases h
  | case4 c x xs hrest hesc hx more ih =>
    intro z hz
    rcases List.mem_cons.1 hz with rfl | hz
    · exact hx
    · exact ih h z hz

/-- Without a backslash there are no escapes. -/
theorem escaped_body {c : Cursor} (h : '\\' ∉ c.rest) : (body c).escaped = false := by
  fun_induction body c with
  | case1 | case5 => rfl
  | case2 c _ _ _ hesc | case3 c _ _ _ hesc =>
    obtain ⟨rest, hrest⟩ := List.isPrefixOf_iff_prefix.1 hesc
    exact absurd (hrest ▸ by simp) h
  | case4 c x xs hrest _ _ _ ih =>
    refine ih fun hmem => h ?_
    have hskip : (c.skip 1).rest = xs := by simp [Cursor.skip, hrest]
    rw [hrest]
    exact List.mem_cons_of_mem x (hskip ▸ hmem)

end Name

namespace Lexer

/-- Read as a text of its own, `x` is one name with the value `x`, and nothing is reported. -/
structure ReadsAsName (x : String) : Prop where
  kind : (ofText x).scan.kind = .identifier
  value : (ofText x).scan.value = x
  ends : (ofText x).scan.scan.kind = .endOfFile
  reports : (ofText x).scan.scan.reports = []

/-- A text that starts and goes on as a name and is no keyword is read as that name. -/
theorem readsAsName_of_isName {x : String} (h : IsName x) : ReadsAsName x := by
  have hread := h.read delimits_nil 0
  rw [List.append_nil] at hread
  have hskip : Trivia.skip (ofText x).here = { stop := ⟨0, x.toList⟩ } := by
    obtain ⟨c, hc, hstart⟩ := h.start
    obtain ⟨cs, hcs⟩ := List.head?_eq_some_iff.1 hc
    refine Trivia.skip_of_stops ?_ 0
    rw [hcs]
    exact Tok.stops_of_isNameStart hstart
  have hscan : (ofText x).scan.here.rest = [] := by simp [scan, hskip, hread]
  have hhere : (ofText x).scan.here = ⟨(ofText x).scan.here.offset, []⟩ := by rw [← hscan]
  have hend := scan_end hhere (by simp)
  refine ⟨?_, ?_, hend.1, hend.2.2.trans ?_⟩
  · simp [scan, hskip, hread]
  · simp [scan, hskip, hread]
  · have hreports : (ofText x).reports = [] := rfl
    simp [scan, hskip, hread, hreports]

/-- A text of name characters that is read as a name starts as one and is no keyword. -/
theorem ReadsAsName.isName {x : String} (h : ReadsAsName x)
    (hparts : ∀ c ∈ x.toList, Character.isNamePart c = true) : IsName x := by
  have hkind : (Lexeme.read (Trivia.skip (Cursor.ofText x)).stop).kind = .identifier := h.kind
  obtain ⟨hstarts, hread⟩ := Lexeme.read_of_identifier hkind
  have hplain : '\\' ∉ (Trivia.skip (Cursor.ofText x)).stop.rest := by
    obtain ⟨gap, hgap, -, -⟩ := Trivia.separates_skip (Cursor.ofText x)
    intro hmem
    have hx : '\\' ∈ x.toList := by
      change x.toList = _ at hgap
      rw [hgap]
      exact List.mem_append_right gap hmem
    exact absurd (hparts _ hx) (by decide)
  rw [hread] at hkind
  have hvalue : String.ofList (Name.read (Trivia.skip (Cursor.ofText x)).stop).value = x := by
    rw [← hread]
    exact h.value
  rw [← hvalue]
  exact Name.isName_of_read hstarts hkind (Name.escaped_body hplain)

/-- **Names by their value.** For every name that is read without a report, the value is read as the
same name exactly if it starts as a name and is no keyword. That holds of every name that is written
without escapes. -/
theorem value_reads_as_name_iff (l : Lexer) (hkind : l.scan.kind = .identifier)
    (hreports : l.scan.reports = l.reports) :
    (ReadsAsName l.scan.value ↔
      (∃ c, l.scan.value.toList.head? = some c ∧ Character.isNameStart c = true) ∧
        Keyword.ofText? l.scan.value = none) ∧
    (l.scan.flags.escapedName = false → ReadsAsName l.scan.value) := by
  have hkind : (Lexeme.read (Trivia.skip l.here).stop).kind = .identifier := hkind
  obtain ⟨hstarts, hread⟩ := Lexeme.read_of_identifier hkind
  have hclean : (Name.body (Trivia.skip l.here).stop).reports = [] := by
    have hnone : (Trivia.skip l.here).reports ++
        (Lexeme.read (Trivia.skip l.here).stop).reports = [] := by
      simpa [scan, List.append_assoc] using hreports
    rw [hread] at hnone
    exact (List.append_eq_nil_iff.1 hnone).2
  have hvalue : l.scan.value = String.ofList (Name.body (Trivia.skip l.here).stop).value :=
    congrArg (fun x : Lexeme => String.ofList x.value) hread
  have hparts : ∀ c ∈ l.scan.value.toList, Character.isNamePart c = true := by
    rw [hvalue, String.toList_ofList]
    exact Name.isNamePart_body _ hclean
  refine ⟨⟨fun h => ?_, fun h => ?_⟩, fun hplain => ?_⟩
  · have hname := h.isName hparts
    exact ⟨hname.start, hname.plain⟩
  · exact readsAsName_of_isName ⟨h.1, hparts, h.2⟩
  · rw [hread] at hkind
    have hescaped : (Name.read (Trivia.skip l.here).stop).flags.escapedName = false := by
      simpa [scan, hread, TokenFlags.or] using hplain
    have hname := Name.isName_of_read hstarts hkind hescaped
    rw [hvalue]
    exact readsAsName_of_isName hname

/-- A name with an escape in its middle is read again by its value. -/
theorem value_reads_as_name_escaped :
    let l := ofText "a\\u0031 b"
    l.scan.kind = .identifier ∧ l.scan.reports = l.reports ∧ l.scan.value = "a1" ∧
      ReadsAsName "a1" := by
  intro l
  have hkind : l.scan.kind = .identifier := by decide +kernel
  have hreports : l.scan.reports = l.reports :=
    (List.isEmpty_iff.1 (by decide +kernel) : l.scan.reports = [])
  have hvalue : l.scan.value = "a1" := by decide +kernel
  refine ⟨hkind, hreports, hvalue, ?_⟩
  have hiff := (value_reads_as_name_iff l hkind hreports).1
  rw [hvalue] at hiff
  exact hiff.2 ⟨⟨'a', rfl, by decide⟩, by decide⟩

/-- An escape can put a digit at the start of a name, and it can spell a keyword. Both are names
without a report, but their values are no names. What a program with such a name is transformed to
is no program any more. -/
theorem escaped_values_not_names :
    ((ofText "\\u0031a").scan.kind = .identifier ∧ (ofText "\\u0031a").scan.reports = [] ∧
      (ofText "\\u0031a").scan.value = "1a" ∧ ¬ ReadsAsName "1a") ∧
    ((ofText "\\u0069f").scan.kind = .identifier ∧ (ofText "\\u0069f").scan.reports = [] ∧
      (ofText "\\u0069f").scan.value = "if" ∧ ¬ ReadsAsName "if") ∧
    transformText "a.js" "var \\u0069f;" = .ok "var if;\n" ∧
    (Parsed.ofText "a.js" "var if;\n").hasErrors = true := by
  refine ⟨⟨by decide +kernel, List.isEmpty_iff.1 (by decide +kernel), by decide +kernel, fun h => ?_⟩,
    ⟨by decide +kernel, List.isEmpty_iff.1 (by decide +kernel), by decide +kernel, fun h => ?_⟩,
    by decide +kernel, ?_⟩
  · exact absurd h.kind (by decide +kernel)
  · exact absurd h.kind (by decide +kernel)
  · -- The name after `var` is missing.
    have hmissing : ∃ n ∈ (Parsed.ofText "a.js" "var if;\n").program.node.parts,
        n.isStandIn = true := by decide +kernel
    obtain ⟨n, hn, hstandIn⟩ := hmissing
    by_contra hno
    have hreports := (Parsed.hasErrors_eq_false_iff _ _).1 (Bool.eq_false_iff.2 hno)
    simp [Grammar.isStandIn_of_reports hreports n hn] at hstandIn

end Lexer

end LambdaLift
