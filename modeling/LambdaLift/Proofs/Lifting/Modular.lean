import LambdaLift.Proofs.Code.Pieces
import LambdaLift.Proofs.Lifting.Acceptance
import LambdaLift.Proofs.Lifting.Captures

/-!
# Lifting in parts

Two lists of statements that do not share nested functions are lifted as if each were alone. What
is lifted with a log depends on the log only through the functions that are called
(`TreeLifting.stmts_congr`), so functions entered before that are never called do not matter.

* `TreeLifting.stmts_append`: lifting two lists of statements one after the other.
* `TreeLifting.lastOfEach_append`: functions with other names stay apart.
* `Code.programText_eq`: the text of a program, statement by statement.
* `Lifting.lifts_in_parts`: two programs lifted together and separately.
-/

namespace LambdaLift

open List

/-! ## What lifting reads of the log -/

namespace FreeNames

/-- The same is known about the calls of the given names. -/
structure Calls.SameOn (names : List String) (a b : Calls) : Prop where
  appended : ∀ x ∈ names, ∀ count, a.appended x count = b.appended x count
  self : a.self = b.self

variable {a b : Calls}

theorem Calls.SameOn.mono {names names' : List String} (h : a.SameOn names b)
    (hsub : ∀ x ∈ names', x ∈ names) : a.SameOn names' b :=
  ⟨fun x hx => h.appended x (hsub x hx), h.self⟩

mutual

theorem expr_congr (s : Finding) (e : Expr) (h : a.SameOn e.callees b) :
    expr a s e = expr b s e := by
  cases e with
  | ident _ | number _ | string _ | boolean _ _ | null _ | other _ => rfl
  | paren _ e | unary _ _ e | update _ _ e => exact expr_congr s e h
  | binary _ _ _ e₁ e₂ =>
    rw [expr, expr, expr_congr s e₁ (h.mono fun x hx => mem_append.2 (.inl hx)),
      expr_congr _ e₂ (h.mono fun x hx => mem_append.2 (.inr hx))]
  | call _ _ f args =>
    rw [expr, expr]
    cases hf : f.name? with
    | none => rfl
    | some callee =>
      simp only
      rw [exprs_congr _ args (h.mono fun x hx => mem_append.2 (.inr hx)), h.self,
        h.appended callee (by simp [Expr.callees, hf])]

theorem exprs_congr (s : Finding) (es : List Expr) (h : a.SameOn (Expr.calleesOfList es) b) :
    exprs a s es = exprs b s es := by
  cases es with
  | nil => rfl
  | cons e es =>
    rw [exprs, exprs, expr_congr s e (h.mono fun x hx => mem_append.2 (.inl hx)),
      exprs_congr _ es (h.mono fun x hx => mem_append.2 (.inr hx))]

end

theorem expr?_congr (s : Finding) (e : Option Expr) (h : a.SameOn (e.elim [] Expr.callees) b) :
    expr? a s e = expr? b s e := by
  cases e with
  | none => rfl
  | some e => exact expr_congr s e h

theorem declarators_congr (s : Finding) (ds : List Declarator)
    (h : a.SameOn (ds.flatMap fun d => d.init.elim [] Expr.callees) b) :
    ds.foldl (declarator a) s = ds.foldl (declarator b) s := by
  induction ds generalizing s with
  | nil => rfl
  | cons d ds ih =>
    rw [flatMap_cons] at h
    rw [foldl_cons, foldl_cons, ih _ (h.mono fun x hx => mem_append.2 (.inr hx)),
      declarator, declarator, expr?_congr _ d.init (h.mono fun x hx => mem_append.2 (.inl hx))]

mutual

theorem stmt_congr (s : Finding) (t : Stmt) (h : a.SameOn t.callees b) :
    stmt a s t = stmt b s t := by
  cases t with
  | vars _ _ _ ds => exact declarators_congr s ds h
  | function head body => rw [stmt, stmt, stmts_congr _ body h]
  | block _ body => rw [stmt, stmt, stmts_congr _ body h]
  | expression _ e => exact expr_congr s e h
  | return_ _ e => exact expr?_congr s e h
  | empty _ | other _ => rfl

theorem stmts_congr (s : Finding) (ts : List Stmt) (h : a.SameOn (Stmt.calleesOfList ts) b) :
    stmts a s ts = stmts b s ts := by
  cases ts with
  | nil => rfl
  | cons t ts =>
    rw [stmts, stmts, stmt_congr s t (h.mono fun x hx => mem_append.2 (.inl hx)),
      stmts_congr _ ts (h.mono fun x hx => mem_append.2 (.inr hx))]

end

end FreeNames

namespace TreeLifting

/-- Two logs have the same latest entries of the given names. -/
def SameOn (names : List String) (log log' : List Entry) : Prop :=
  ∀ x ∈ names, latest? log x = latest? log' x

section Congruence

variable {log log' : List Entry}

theorem SameOn.mono {names names' : List String} (h : SameOn names log log')
    (hsub : ∀ x ∈ names', x ∈ names) : SameOn names' log log' :=
  fun x hx => h x (hsub x hx)

theorem SameOn.append {names : List String} (h : SameOn names log log') (more : List Entry) :
    SameOn names (log ++ more) (log' ++ more) := by
  intro x hx
  rw [Captures.latest?_append, Captures.latest?_append, h x hx]

mutual

theorem expr_congr (e : Expr) (h : SameOn e.callees log log') : expr log e = expr log' e := by
  cases e with
  | ident _ | number _ | string _ | boolean _ _ | null _ | other _ => rfl
  | paren _ e | unary _ _ e | update _ _ e => rw [expr, expr, expr_congr e h]
  | binary _ op _ a b =>
    rw [expr, expr, expr_congr b (h.mono fun x hx => mem_append.2 (.inr hx)),
      expr_congr a (h.mono fun x hx => mem_append.2 (.inl hx))]
  | call _ _ f args =>
    rw [expr, expr, exprs_congr args (h.mono fun x hx => mem_append.2 (.inr hx))]
    cases hf : f.name? with
    | none => rfl
    | some callee =>
      have hcallee := h callee (by simp [Expr.callees, hf])
      simp only [Option.elim_some, arguments, hcallee]

theorem exprs_congr (es : List Expr) (h : SameOn (Expr.calleesOfList es) log log') :
    exprs log es = exprs log' es := by
  cases es with
  | nil => rfl
  | cons e es =>
    rw [exprs, exprs, expr_congr e (h.mono fun x hx => mem_append.2 (.inl hx)),
      exprs_congr es (h.mono fun x hx => mem_append.2 (.inr hx))]

end

theorem expr?_congr (e : Option Expr) (h : SameOn (e.elim [] Expr.callees) log log') :
    e.map (expr log) = e.map (expr log') := by
  cases e with
  | none => rfl
  | some e => rw [Option.map_some, Option.map_some, expr_congr e h]

theorem variables_congr (kind : VarKind) (ds : List Declarator)
    (h : SameOn (ds.flatMap fun d => d.init.elim [] Expr.callees) log log') :
    ds.map (variable_ log kind) = ds.map (variable_ log' kind) := by
  apply map_congr_left
  intro d hd
  rw [variable_, variable_, expr?_congr d.init (h.mono fun x hx =>
    mem_flatMap.2 ⟨d, hd, hx⟩)]

theorem entry_congr (head : FunctionHead) (body : List Stmt)
    (h : SameOn (Stmt.calleesOfList body) log log') : entry log head body = entry log' head body := by
  have hcalls : FreeNames.Calls.SameOn (Stmt.calleesOfList body) ⟨passed log, head.name?⟩
      ⟨passed log', head.name?⟩ := ⟨fun x hx count => by simp only [passed, h x hx], rfl⟩
  rw [entry, entry, FreeNames.ofFunction, FreeNames.ofFunction, FreeNames.stmts_congr _ body hcalls]

end Congruence

mutual

theorem stmt_congr {log log' : List Entry} (nested : Bool) (s : Stmt)
    (h : SameOn s.callees log log') : stmt nested log s = stmt nested log' s := by
  cases s with
  | vars _ _ kind ds => rw [stmt, stmt, variables_congr kind ds h]
  | function head body =>
    simp only [stmt, entry_congr head body h, stmts_congr true body (h.append _),
      stmts_congr true body h]
  | block _ body => rw [stmt, stmt, stmts_congr nested body h]
  | expression _ e => rw [stmt, stmt, expr_congr e h]
  | return_ _ e => rw [stmt, stmt, expr?_congr e h]
  | empty _ | other _ => rfl

/-- Lifting depends on the log only through the latest entries of the functions called. -/
theorem stmts_congr {log log' : List Entry} (nested : Bool) (ss : List Stmt)
    (h : SameOn (Stmt.calleesOfList ss) log log') : stmts nested log ss = stmts nested log' ss := by
  cases ss with
  | nil => rfl
  | cons s ss =>
    have hfirst : SameOn s.callees log log' := h.mono fun x hx => mem_append.2 (.inl hx)
    have hrest : SameOn (Stmt.calleesOfList ss) log log' :=
      h.mono fun x hx => mem_append.2 (.inr hx)
    rw [stmts, stmts, stmt_congr nested s hfirst, stmts_congr nested ss (hrest.append _)]

end

/-! ## Two lists of statements -/

/-- The second of two lists is lifted with the functions of the first in the log. -/
theorem stmts_append (nested : Bool) (log : List Entry) (as bs : List Stmt) :
    stmts nested log (as ++ bs) =
      ⟨(stmts nested log as).kept ++ (stmts nested (log ++ (stmts nested log as).log) bs).kept,
        (stmts nested log as).entered ++
          (stmts nested (log ++ (stmts nested log as).log) bs).entered⟩ := by
  induction as generalizing log with
  | nil => simp [stmts, Lifted.log]
  | cons a as ih =>
    rw [cons_append, stmts, ih]
    simp [stmts, Lifted.log]

/-- Functions entered before that are not called do not matter. -/
theorem stmts_of_not_called {log : List Entry} {ss : List Stmt}
    (h : ∀ e ∈ log, e.name ∉ Stmt.calleesOfList ss) (nested : Bool) :
    stmts nested log ss = stmts nested [] ss := by
  apply stmts_congr
  intro x hx
  have hlog : latest? log x = none := by
    rw [Captures.latest?_eq_none]
    rintro hmem
    obtain ⟨e, he, rfl⟩ := mem_map.1 hmem
    exact h e he hx
  rw [hlog]
  rfl

/-- Functions with other names stay apart. -/
theorem lastOfEach_append {fs gs : List (Entry × List Stmt)}
    (h : ∀ f ∈ fs, ∀ g ∈ gs, f.1.name ≠ g.1.name) :
    lastOfEach (fs ++ gs) = lastOfEach fs ++ lastOfEach gs := by
  have hfirst : ∀ x ∈ fs.map (·.1.name), x ∉ gs.map (·.1.name) := by
    intro x hx hx'
    obtain ⟨f, hf, rfl⟩ := mem_map.1 hx
    obtain ⟨g, hg, hname⟩ := mem_map.1 hx'
    exact h f hf g hg hname.symm
  have hremove : (gs.map (·.1.name)).removeAll (fs.map (·.1.name)) = gs.map (·.1.name) := by
    refine filter_eq_self.2 fun x hx => ?_
    simpa using fun f hf hname => hfirst x (mem_map.2 ⟨f, hf, hname⟩) hx
  rw [lastOfEach, map_append, eraseDups_append, filterMap_append, hremove]
  congr 1
  · apply filterMap_congr
    intro x hx
    have hother : gs.reverse.find? (·.1.name = x) = none := by
      rw [find?_eq_none]
      intro g hg hname
      exact hfirst x (mem_eraseDups.1 hx)
        (mem_map.2 ⟨g, mem_reverse.1 hg, by simpa using hname⟩)
    rw [reverse_append, find?_append, hother, Option.none_or]
  · apply filterMap_congr
    intro x hx
    have hother : fs.reverse.find? (·.1.name = x) = none := by
      rw [find?_eq_none]
      intro f hf hname
      exact hfirst x (mem_map.2 ⟨f, mem_reverse.1 hf, by simpa using hname⟩)
        (mem_eraseDups.1 hx)
    rw [reverse_append, find?_append, hother, Option.or_none]

/-- Functions with distinct names are all kept. -/
theorem lastOfEach_of_nodup {fs : List (Entry × List Stmt)} (h : (fs.map (·.1.name)).Nodup) :
    lastOfEach fs = fs := by
  induction fs with
  | nil => rfl
  | cons f fs ih =>
    rw [map_cons, nodup_cons] at h
    have hapart : ∀ f' ∈ [f], ∀ g ∈ fs, f'.1.name ≠ g.1.name :=
      forall_mem_singleton.2 fun g hg hname => h.1 (hname ▸ mem_map_of_mem hg)
    rw [← singleton_append, lastOfEach_append hapart, ih h.2]
    simp [lastOfEach, eraseDups_cons]

end TreeLifting

/-! ## Texts in parts -/

namespace Code

/-- The lines of a statement at the margin. -/
def Stmt.lines (layout : Layout) (s : Code.Stmt) : String :=
  (Stmt.write { layout } s).text

/-- The parts of a text, each on lines of its own. -/
def joinLines (layout : Layout) (parts : List String) : String :=
  layout.newline.intercalate parts ++
    if layout.endsWithNewline && !parts.isEmpty then layout.newline else ""

theorem toList_lines (layout : Layout) (s : Code.Stmt) :
    (s.lines layout).toList = Piece.spell (s.pieces layout 0) :=
  (Stmt.adds_write { layout } s).output

/-- The text of a program consists of the lines of its statements. -/
theorem programText_eq (layout : Layout) (program : List Code.Stmt) :
    programText layout program = joinLines layout (program.map (Stmt.lines layout)) := by
  have hjoin (s : Code.Stmt) (ss : List Code.Stmt) :
      Piece.spell (s.pieces layout 0) ++ Piece.spell (Stmt.linePieces layout 0 ss) =
        (layout.newline.intercalate ((s :: ss).map (Stmt.lines layout))).toList := by
    induction ss generalizing s with
    | nil => simp [Stmt.linePieces, toList_lines]
    | cons t ss ih =>
      have hmargin : margin layout 0 = layout.newline.toList := by
        simp [margin, Printer.indentationOf]
      have hrest := ih t
      rw [map_cons] at hrest
      simp [Stmt.linePieces, hmargin, hrest, toList_lines]
  rw [← String.toList_inj, ← spell_programPieces]
  cases program with
  | nil => simp [programPieces, joinLines]
  | cons s ss =>
    have hall := hjoin s ss
    rw [programPieces, Piece.spell_append, Piece.spell_append, ← append_assoc, hall, joinLines,
      String.toList_append]
    by_cases hend : layout.endsWithNewline = true <;> simp [hend]

end Code

/-! ## Programs in parts -/

namespace Lifting

/-- **Lifting in parts.** If no nested function of the first program is a nested function of the
second or is called there, lifting the two as one program gives what stays of the first, what stays
of the second, the lifted functions of the first, and those of the second. Each is the same as
when the programs are lifted on their own, and so are its lines in the text. -/
theorem lifts_in_parts {first second : Program} {r₁ r₂ s₁ s₂ : Functions}
    {code₁ code₂ : List Code.Stmt} (h₁ : program first r₁ = (.ok code₁, s₁))
    (h₂ : program second r₂ = (.ok code₂, s₂))
    (hnames : ∀ x ∈ Stmt.nestedNamesOfList false first.statements,
      x ∉ Stmt.nestedNamesOfList false second.statements ∧
        x ∉ Stmt.calleesOfList second.statements)
    (length : Nat) (r : Functions) (layout : Layout) :
    ∃ kept₁ kept₂ s,
      code₁ = kept₁ ++ s₁.functions.map declaration ∧
      code₂ = kept₂ ++ s₂.functions.map declaration ∧
      program ⟨length, first.statements ++ second.statements⟩ r =
        (.ok (kept₁ ++ kept₂ ++ s₁.functions.map declaration ++ s₂.functions.map declaration), s) ∧
      s.functions = s₁.functions ++ s₂.functions ∧
      text layout first r₁ = (.ok (Code.joinLines layout
        ((kept₁ ++ s₁.functions.map declaration).map (Code.Stmt.lines layout))), s₁) ∧
      text layout second r₂ = (.ok (Code.joinLines layout
        ((kept₂ ++ s₂.functions.map declaration).map (Code.Stmt.lines layout))), s₂) ∧
      text layout ⟨length, first.statements ++ second.statements⟩ r =
        (.ok (Code.joinLines layout
          ((kept₁ ++ kept₂ ++ s₁.functions.map declaration ++
            s₂.functions.map declaration).map (Code.Stmt.lines layout))), s) := by
  have hsup₁ := program_supported h₁
  have hsup₂ := program_supported h₂
  obtain ⟨rfl, hfunctions₁⟩ := program_determined h₁
  obtain ⟨rfl, hfunctions₂⟩ := program_determined h₂
  have hsup : Stmt.SupportedList (first.statements ++ second.statements) := by
    simp only [Stmt.supportedList_iff, List.mem_append] at hsup₁ hsup₂ ⊢
    exact fun s hs => hs.elim (hsup₁ s) (hsup₂ s)
  obtain ⟨code, s, h⟩ := exists_program_ok
    (p := ⟨length, first.statements ++ second.statements⟩) hsup r
  obtain ⟨rfl, hfunctions⟩ := program_determined h
  -- The functions of the first program are in the log of the second, but are not called.
  have hlog : ∀ e ∈ (TreeLifting.stmts false [] first.statements).log,
      e.name ∈ Stmt.nestedNamesOfList false first.statements := fun e he =>
    Captures.names_log_stmts false first.statements [] hsup₁ ▸ List.mem_map_of_mem he
  have hsecond := TreeLifting.stmts_of_not_called (fun e he => (hnames _ (hlog e he)).2) false
  have hboth := TreeLifting.stmts_append false [] first.statements second.statements
  rw [List.nil_append, hsecond] at hboth
  have happart : ∀ f ∈ (TreeLifting.stmts false [] first.statements).entered,
      ∀ g ∈ (TreeLifting.stmts false [] second.statements).entered, f.1.name ≠ g.1.name := by
    intro f hf g hg hname
    have hg' : g.1.name ∈ Stmt.nestedNamesOfList false second.statements :=
      Captures.names_log_stmts false second.statements [] hsup₂ ▸
        List.mem_map_of_mem (List.mem_map_of_mem hg)
    exact (hnames _ (hlog f.1 (List.mem_map_of_mem hf))).1 (hname ▸ hg')
  rw [hboth, TreeLifting.lastOfEach_append happart, List.map_append, ← hfunctions₁,
    ← hfunctions₂] at hfunctions
  have hkept : keptOf (TreeLifting.stmts false [] (first.statements ++ second.statements)) =
      keptOf (TreeLifting.stmts false [] first.statements) ++
        keptOf (TreeLifting.stmts false [] second.statements) := by
    rw [hboth, keptOf, keptOf, keptOf, List.map_append, Code.Stmt.ofTrees_append]
  rw [hkept, hfunctions, List.map_append, ← List.append_assoc] at h
  refine ⟨_, _, s, rfl, rfl, h, hfunctions, ?_, ?_, ?_⟩
  · rw [text, h₁, ← Code.programText_eq]
    rfl
  · rw [text, h₂, ← Code.programText_eq]
    rfl
  · rw [text, h, ← Code.programText_eq]
    rfl

/-- A program whose nested function captures a variable. -/
def counterProgram : Program where
  length := 0
  statements := Code.Stmt.trees
    [.function "outer" ["a"]
      [.function "step" ["b"] [.return_ (some (.binary .add (.name "a") (.name "b")))],
        .return_ (some (.call "step" [.number "1"]))]]

/-- A program with nested functions of other names, one of them called before its declaration. -/
def chainProgram : Program where
  length := 0
  statements := Code.Stmt.trees
    [.expression (.call "outer" [.number "2"]),
      .function "other" ["c"]
        [.function "far" [] [.return_ (some (.call "near" []))],
          .function "near" [] [.return_ (some (.name "c"))],
          .return_ (some (.call "far" []))]]

theorem lifts_in_parts_counter :
    ∃ code₁ s₁ code₂ s₂, program counterProgram {} = (.ok code₁, s₁) ∧
      program chainProgram {} = (.ok code₂, s₂) ∧
      ∃ kept₁ kept₂ s,
        code₁ = kept₁ ++ s₁.functions.map declaration ∧
        code₂ = kept₂ ++ s₂.functions.map declaration ∧
        program ⟨0, counterProgram.statements ++ chainProgram.statements⟩ {} =
          (.ok (kept₁ ++ kept₂ ++ s₁.functions.map declaration ++ s₂.functions.map declaration),
            s) ∧
        s.functions.map (·.name) = ["step", "far", "near"] := by
  refine ⟨_, _, _, _, rfl, rfl, ?_⟩
  obtain ⟨kept₁, kept₂, s, h₁, h₂, h, hfunctions, -⟩ := @lifts_in_parts counterProgram
    chainProgram {} {} _ _ _ _ rfl rfl (by decide) 0 {} {}
  exact ⟨kept₁, kept₂, s, h₁, h₂, h, by rw [hfunctions]; rfl⟩

end Lifting

end LambdaLift
