import LambdaLift.Proofs.Lifting.Acceptance
import LambdaLift.Proofs.Lifting.Captures

/-!
# The free names of lifted functions

In a program whose nested functions have names of their own and are called inside the lists of
statements that declare them, lifted functions need nothing but each other.

* `Lifting.functionsOfList_kept`: no function stays in a function.
* `Captures.outer_sufficient`: a function that stays has no free names besides those that it had
  and lifted functions.
* `Lifting.captured_lists_suffice`: the free names of all functions of a lifted program.
-/

namespace LambdaLift

open TreeLifting List Stmt

open TreeLifting (Entry latest?)

/-- The free names of a function as it stands: no call in it passes anything on. -/
def freeNames (f : FunctionHead × List Stmt) : List String :=
  FreeNames.ofFunction (fun _ _ => []) f.1 f.2

/-! ## Respelling keeps what is read -/

namespace FreeReads

variable {calls : FreeNames.Calls} {bound : List String}

theorem target_clear (b : Binding) : (b.clear .respelled).name? = b.name? := by
  cases b <;> rfl

theorem name_clear (e : Expr) : (e.clear .respelled).name? = e.name? := by
  cases e <;> rfl

theorem targets_clear (ds : List Declarator) :
    targets (ds.map (Declarator.clear .respelled)) = targets ds := by
  simp only [targets, filterMap_map, Function.comp_def, Declarator.clear, target_clear]

theorem paramNames_clear (ps : List Param) :
    paramNames (ps.map (Param.clear .respelled)) = paramNames ps := by
  simp only [paramNames, filterMap_map, Function.comp_def, Param.clear, target_clear]

theorem headName_clear (head : FunctionHead) : (head.clear .respelled).name? = head.name? := by
  simp only [FunctionHead.name?, FunctionHead.clear, Option.map_map]
  rfl

mutual

theorem ofExpr_clear (e : Expr) : ofExpr calls bound (e.clear .respelled) = ofExpr calls bound e := by
  cases e with
  | paren _ e | unary _ _ e | update _ _ e => exact ofExpr_clear e
  | binary _ _ _ a b => simp only [Expr.clear, ofExpr, ofExpr_clear a, ofExpr_clear b]
  | call _ _ f args =>
    have hlength : (Expr.clearList .respelled args).length = args.length := by
      simp [Expr.clearList_eq_map]
    simp only [Expr.clear, ofExpr, name_clear, ofExprs_clear args, hlength]
  | ident _ | number _ | string _ | boolean _ _ | null _ | other _ => rfl

theorem ofExprs_clear (es : List Expr) :
    ofExprs calls bound (Expr.clearList .respelled es) = ofExprs calls bound es := by
  cases es with
  | nil => rfl
  | cons e es => simp only [Expr.clearList, ofExprs, ofExpr_clear e, ofExprs_clear es]

end

theorem ofExpr?_clear (e : Option Expr) :
    ofExpr? calls bound (e.map (Expr.clear .respelled)) = ofExpr? calls bound e := by
  cases e with
  | none => rfl
  | some e => exact ofExpr_clear e

theorem ofDeclarators_clear (ds : List Declarator) :
    ofDeclarators calls bound (ds.map (Declarator.clear .respelled)) =
      ofDeclarators calls bound ds := by
  induction ds generalizing bound with
  | nil => rfl
  | cons d ds ih =>
    simp only [map_cons, ofDeclarators, Declarator.clear, target_clear, ofExpr?_clear, ih]

theorem binds_clear (s : Stmt) : binds (s.clear .respelled) = binds s := by
  cases s with
  | vars _ _ _ ds => exact targets_clear ds
  | function head body => simp only [clear, binds, headName_clear]
  | block _ _ | expression _ _ | return_ _ _ | empty _ | other _ => rfl

mutual

theorem ofStmt_clear (calls : FreeNames.Calls) (bound : List String) (s : Stmt) :
    ofStmt calls bound (s.clear .respelled) = ofStmt calls bound s := by
  cases s with
  | vars _ _ _ ds => exact ofDeclarators_clear ds
  | function head body =>
    simp only [clear, ofStmt, headName_clear]
    rw [ofStmts_clear, FunctionHead.clear, paramNames_clear]
  | block _ body => exact ofStmts_clear calls bound body
  | expression _ e => exact ofExpr_clear e
  | return_ _ e => exact ofExpr?_clear e
  | empty _ | other _ => rfl

theorem ofStmts_clear (calls : FreeNames.Calls) (bound : List String) (ss : List Stmt) :
    ofStmts calls bound (clearList .respelled ss) = ofStmts calls bound ss := by
  cases ss with
  | nil => rfl
  | cons s ss => simp only [clearList, ofStmts, ofStmt_clear, binds_clear, ofStmts_clear]

end

end FreeReads

/-- A function, respelled. -/
def respelledFunction (f : FunctionHead × List Stmt) : FunctionHead × List Stmt :=
  (f.1.clear .respelled, f.2.map respelled)

theorem mem_freeNames_respelled {f : FunctionHead × List Stmt} {x : String} :
    x ∈ freeNames (respelledFunction f) ↔ x ∈ freeNames f := by
  simp only [freeNames, respelledFunction, FreeNames.mem_ofFunction, FreeReads.headName_clear]
  rw [FunctionHead.clear, FreeReads.paramNames_clear]
  have hbody := FreeReads.ofStmts_clear ⟨fun _ _ => [], f.1.name?⟩
    (FreeReads.paramNames f.1.params) f.2
  rw [clearList_eq_map] at hbody
  exact hbody ▸ Iff.rfl

mutual

theorem Stmt.functions_clear (s : Stmt) :
    (s.clear .respelled).functions = s.functions.map respelledFunction := by
  cases s with
  | function head body =>
    rw [clear, functions, functionsOfList_clear body, functions, map_cons,
      clearList_eq_map]
    rfl
  | block _ body => exact functionsOfList_clear body
  | vars _ _ _ _ | expression _ _ | return_ _ _ | empty _ | other _ => rfl

theorem Stmt.functionsOfList_clear (ss : List Stmt) :
    functionsOfList (clearList .respelled ss) =
      (functionsOfList ss).map respelledFunction := by
  cases ss with
  | nil => rfl
  | cons s ss =>
    simp only [clearList, functionsOfList, functions_clear s,
      functionsOfList_clear ss, map_append]

end

/-! ## No function stays in a function -/

theorem Stmt.functionsOfList_append (as bs : List Stmt) :
    functionsOfList (as ++ bs) = functionsOfList as ++ functionsOfList bs := by
  induction as with
  | nil => rfl
  | cons a as ih => simp [functionsOfList, ih]

theorem TreeLifting.functionsOfList_variables (kind : VarKind) (ds : List Declarator)
    (log : List Entry) :
    functionsOfList (ds.map (variable_ log kind)) = [] := by
  induction ds with
  | nil => rfl
  | cons d ds ih => simpa [functionsOfList, variable_, functions] using ih

mutual

theorem TreeLifting.functions_kept (s : Stmt) (log : List Entry) :
    functionsOfList (TreeLifting.stmt true log s).kept = [] := by
  cases s with
  | vars _ _ kind ds => exact functionsOfList_variables kind ds log
  | block r body =>
    simpa [TreeLifting.stmt, functionsOfList, functions] using
      functionsOfList_kept body log
  | function head body | expression _ e | return_ _ e | empty _ | other _ => rfl

/-- No function stays in a function. -/
theorem TreeLifting.functionsOfList_kept (ss : List Stmt) (log : List Entry) :
    functionsOfList (TreeLifting.stmts true log ss).kept = [] := by
  cases ss with
  | nil => rfl
  | cons s ss =>
    simp only [TreeLifting.stmts, functionsOfList_append, functions_kept s,
      functionsOfList_kept ss, append_nil]

end

mutual

theorem TreeLifting.functions_entered (nested : Bool) (s : Stmt) (log : List Entry) :
    ∀ f ∈ (TreeLifting.stmt nested log s).entered, functionsOfList f.2 = [] := by
  cases s with
  | function head body =>
    cases nested with
    | true =>
      simp only [TreeLifting.stmt, ↓reduceIte, mem_cons, forall_eq_or_imp]
      exact ⟨functionsOfList_kept body _, functionsOfList_entered true body _⟩
    | false => exact functionsOfList_entered true body log
  | block r body => exact functionsOfList_entered nested body log
  | vars _ _ _ _ | expression _ e | return_ _ e | empty _ | other _ =>
    simp [TreeLifting.stmt]

/-- No function stays in a function that was entered. -/
theorem TreeLifting.functionsOfList_entered (nested : Bool) (ss : List Stmt) (log : List Entry) :
    ∀ f ∈ (TreeLifting.stmts nested log ss).entered, functionsOfList f.2 = [] := by
  cases ss with
  | nil => simp [TreeLifting.stmts]
  | cons s ss =>
    exact forall_mem_append.2
      ⟨functions_entered nested s log, functionsOfList_entered nested ss _⟩

end

/-! ## Functions that stay -/

namespace Captures

open FreeReads (ofStmts paramNames)

/-- Statements outside of functions that can be lifted, in which nested functions have names of
their own and are called in the lists that declare them. -/
structure Apart (lifted visible : List String) (log : List Entry) (ss : List Stmt) : Prop where
  supported : SupportedList ss
  calls : CallsInsideList lifted visible ss
  own : OwnNames lifted false ss
  new : ∀ m ∈ Stmt.nestedNamesOfList false ss, latest? log m = none
  shown : ∀ m ∈ visible, m ∉ lifted
  names : ∀ e ∈ log, e.name ∈ lifted

variable {lifted visible : List String} {log : List Entry}

variable {ss body : List Stmt}

/-- A whole program. -/
theorem Apart.program (hsupported : SupportedList ss)
    (hcalls : CallsInsideList lifted (Stmt.directFunctions ss) ss)
    (hown : OwnNames lifted false ss) : Apart lifted (Stmt.directFunctions ss) [] ss :=
  ⟨hsupported, hcalls, hown, by simp [latest?], hown.direct, forall_mem_nil _⟩

theorem Apart.tail {s : Stmt} (h : Apart lifted visible log (s :: ss)) :
    Apart lifted visible (log ++ (TreeLifting.stmt false log s).log) ss where
  supported := h.supported.2
  calls := h.calls.2
  own := h.own.tail
  new := latest?_after h.supported.1 h.own.distinct h.new
  shown := h.shown
  names := by
    refine forall_mem_append.2 ⟨h.names, fun e he => h.own.below e.name (mem_append.2 (.inl ?_))⟩
    exact names_log_stmt false s log h.supported.1 ▸ mem_map_of_mem he

theorem Apart.block {r : Range} (h : Apart lifted visible log (.block r body :: ss)) :
    Apart lifted (Stmt.directFunctions body ++ visible) log body where
  supported := h.supported.1
  calls := h.calls.1
  own := h.own.block
  new m hm := h.new m (mem_append.2 (.inl hm))
  shown := forall_mem_append.2 ⟨h.own.block.direct, h.shown⟩
  names := h.names

/-- The body of a function that stays. -/
theorem Apart.function {head : FunctionHead}
    (h : Apart lifted visible log (.function head body :: ss)) :
    Separate lifted (Stmt.directFunctions body ++ visible) log body where
  supported := h.supported.1.2
  calls := h.calls.1
  own := h.own.function
  new m hm := h.new m (mem_append.2 (.inl hm))
  hidden := not_visible_of_deep h.own.function fun m hm hshown =>
    h.shown m hshown (h.own.function.below m hm)

/-- In the body of a function that stays, its parameters are bound, and only the functions of the
body can be called with more than their arguments. -/
theorem Apart.supplies {head : FunctionHead}
    (h : Apart lifted visible log (.function head body :: ss)) :
    Supplies lifted (freeNames (head, body)) (noCalls head.name?) (paramNames head.params)
    (paramNames head.params) (Stmt.directFunctions body ++ visible) log where
  bound x hx := .inl hx
  names := h.names
  visible m hm e he := by
    obtain ⟨rfl, hmem⟩ := name_of_latest? he
    rcases mem_append.1 hm with hm | hm
    · have hnew := h.function.new e.name (mem_nestedNames_of_direct hm)
      simp [hnew] at he
    · exact absurd (h.names e hmem) (h.shown e.name hm)

/-- What a function reads after lifting it read before, or it is a lifted function. -/
def Sufficient (lifted : List String) (f f' : FunctionHead × List Stmt) : Prop :=
  ∀ x ∈ freeNames f', x ∈ freeNames f ∨ x ∈ lifted

mutual

theorem outer_stmt_sufficient {lifted visible : List String} {log : List Entry} (s : Stmt)
    (ss : List Stmt) (h : Apart lifted visible log (s :: ss)) :
    Forall₂ (Sufficient lifted) s.outerFunctions
        (functionsOfList (TreeLifting.stmt false log s).kept) ∧
      ∀ f ∈ (TreeLifting.stmt false log s).entered, Closed lifted f := by
  cases s with
  | vars _ _ kind ds =>
    rw [TreeLifting.stmt, functionsOfList_variables]
    exact ⟨.nil, by simp⟩
  | function head body =>
    obtain ⟨hkept, hentered⟩ := stmts_sufficient h.supplies head.name? body h.function
      fun x hx => FreeNames.mem_ofFunction.2 hx
    refine ⟨?_, hentered⟩
    have hfunctions : functionsOfList (TreeLifting.stmt false log (.function head body)).kept =
        [(head, (TreeLifting.stmts true log body).kept)] := by
      simp [TreeLifting.stmt, functionsOfList, functions,
        functionsOfList_kept]
    rw [hfunctions]
    refine .cons ?_ .nil
    intro x hx
    exact (hkept x (FreeNames.mem_ofFunction.1 hx)).symm
  | block r body =>
    obtain ⟨hkept, hentered⟩ := outer_sufficient body h.block
    refine ⟨?_, hentered⟩
    simpa [TreeLifting.stmt, functionsOfList, functions, outerFunctions] using hkept
  | expression _ e | return_ _ e => exact ⟨.nil, by simp [TreeLifting.stmt]⟩
  | empty _ | other _ => exact h.supported.1.elim

/-- A function that stays has no free names besides those that it had and lifted functions, and
the functions entered are closed. -/
theorem outer_sufficient {lifted visible : List String} {log : List Entry} (ss : List Stmt)
    (h : Apart lifted visible log ss) :
    Forall₂ (Sufficient lifted) (Stmt.outerFunctionsOfList ss)
    (functionsOfList (TreeLifting.stmts false log ss).kept) ∧
      ∀ f ∈ (TreeLifting.stmts false log ss).entered, Closed lifted f := by
  cases ss with
  | nil => exact ⟨.nil, by simp [TreeLifting.stmts]⟩
  | cons s ss =>
    obtain ⟨hkept, hentered⟩ := outer_stmt_sufficient s ss h
    obtain ⟨hkept', hentered'⟩ := outer_sufficient ss h.tail
    simp only [TreeLifting.stmts, functionsOfList_append, Stmt.outerFunctionsOfList]
    exact ⟨rel_append hkept hkept', forall_mem_append.2 ⟨hentered, hentered'⟩⟩

end

end Captures

/-! ## Lifted programs -/

namespace Lifting

/-- A lifted function as the declaration that is emitted for it. -/
def emitted (f : LiftedFunction (List Code.Stmt)) : FunctionHead × List Stmt :=
  (.ofNames f.name f.allParams, Code.Stmt.trees (f.body.getD []))

/-- The functions in the registry of a lifted program are functions that were entered. -/
theorem exists_entered {p : Program} {r' : Functions} {j : Registry.Journal (List Code.Stmt)}
    (hj : r'.Records j)
    (hentered : treesOf j = (TreeLifting.stmts false [] p.statements).entered.map respelledBody)
    {f : LiftedFunction (List Code.Stmt)} (hf : f ∈ r'.functions) :
    ∃ g ∈ (TreeLifting.stmts false [] p.statements).entered,
      respelledBody g = (entryOf f, Code.Stmt.trees (f.body.getD [])) := by
  have hmem : (entryOf f, Code.Stmt.trees (f.body.getD [])) ∈ lastOfEach (treesOf j) :=
    lastOfEach_treesOf hj ▸ mem_map_of_mem hf
  obtain ⟨x, -, hx⟩ := mem_filterMap.1 hmem
  have hin := mem_reverse.1 (mem_of_find?_eq_some hx)
  rw [hentered] at hin
  obtain ⟨g, hg, hgf⟩ := mem_map.1 hin
  exact ⟨g, hg, hgf⟩

/-- The declaration of a function that was entered holds no function but that one. -/
theorem functions_declaration {g : Entry × List Stmt} {f : LiftedFunction (List Code.Stmt)}
    (hflat : functionsOfList g.2 = [])
    (hgf : respelledBody g = (entryOf f, Code.Stmt.trees (f.body.getD []))) :
    (declaration f).tree.functions = [emitted f] ∧
      emitted f = respelledFunction (.ofNames g.1.name (g.1.params ++ g.1.captured), g.2) := by
  have htree : (declaration f).tree = (TreeLifting.declaration g).respelled := by
    rw [← declaration_respelledBody, hgf]
    rfl
  have hfunctions : (declaration f).tree.functions =
      [respelledFunction (.ofNames g.1.name (g.1.params ++ g.1.captured), g.2)] := by
    rw [htree, respelled, functions_clear, TreeLifting.declaration, functions, hflat]
    rfl
  have hcons : (declaration f).tree.functions =
      emitted f :: functionsOfList (Code.Stmt.trees (f.body.getD [])) := rfl
  rw [hcons, List.cons.injEq] at hfunctions
  rw [hcons, hfunctions.2]
  exact ⟨rfl, hfunctions.1⟩

theorem functionsOfList_declarations {fs : List (LiftedFunction (List Code.Stmt))}
    (h : ∀ f ∈ fs, (declaration f).tree.functions = [emitted f]) :
    functionsOfList (Code.Stmt.trees (fs.map declaration)) = fs.map emitted := by
  induction fs with
  | nil => rfl
  | cons f fs ih =>
    rw [map_cons, Code.Stmt.trees, functionsOfList, h f (mem_cons_self ..),
      ih fun g hg => h g (mem_cons_of_mem _ hg)]
    rfl

/-- The names in the registry of a lifted program are those of the nested functions. -/
theorem mem_functions_iff {p : Program} {r' : Functions} {j : Registry.Journal (List Code.Stmt)}
    (hj : r'.Records j)
    (hentered : treesOf j = (TreeLifting.stmts false [] p.statements).entered.map respelledBody)
    (hsupported : SupportedList p.statements) {x : String} :
    x ∈ r'.functions.map (·.name) ↔ x ∈ Stmt.nestedNamesOfList false p.statements := by
  have hnames : r'.functions.map (·.name) = (j.map (·.2.name)).eraseDups := by
    rw [Registry.functions, hj.entries, map_map, ← Registry.map_name_remaining]
    rfl
  have hjournal : j.map (·.2.name) = (treesOf j).map (·.1.name) := by
    simp [treesOf, entryOf, Function.comp_def]
  have hlog : (treesOf j).map (·.1.name) = Stmt.nestedNamesOfList false p.statements := by
    rw [hentered, ← Captures.names_log_stmts false p.statements [] hsupported, Lifted.log,
      map_map, map_map]
    rfl
  rw [hnames, mem_eraseDups, hjournal, hlog]

/-- **Captured names suffice.** In a lifted program whose nested functions have names of their own
and are called inside the lists of statements that declare them, the functions are those that
stayed and the lifted ones. A function that stayed has no free names besides those that it had
before and lifted functions, and a lifted function, with all its parameters, has no free names
besides lifted functions. -/
theorem captured_lists_suffice {p : Program} {r r' : Functions} {code : List Code.Stmt}
    (hok : program p r = (.ok code, r'))
    (hdistinct : (Stmt.nestedNamesOfList false p.statements).Nodup)
    (hvariables : ∀ x ∈ Stmt.nestedNamesOfList false p.statements,
      x ∉ Stmt.variablesOfList p.statements)
    (houter : ∀ x ∈ Stmt.nestedNamesOfList false p.statements,
      ∀ f ∈ Stmt.outerFunctionsOfList p.statements, f.1.name? ≠ some x)
    (hcalls : Stmt.CallsInsideList (Stmt.nestedNamesOfList false p.statements)
      (Stmt.directFunctions p.statements) p.statements) :
    ∃ stayed, Stmt.functionsOfList (Code.Stmt.trees code) = stayed ++ r'.functions.map emitted ∧
      List.Forall₂ (fun f f' => ∀ x ∈ freeNames f', x ∈ freeNames f ∨ x ∈ r'.functions.map (·.name))
    (Stmt.outerFunctionsOfList p.statements) stayed ∧
      ∀ f ∈ r'.functions, ∀ x ∈ freeNames (emitted f), x ∈ r'.functions.map (·.name) := by
  have hsupported := program_supported hok
  obtain ⟨kept, j, rfl, hj, hkept, hentered, -⟩ := program_ok hok
  have hnames (x : String) := mem_functions_iff hj hentered hsupported (x := x)
  have hown : OwnNames (Stmt.nestedNamesOfList false p.statements) false p.statements :=
    ⟨hdistinct, fun m hm => hm, fun x hx hn => hvariables x hn hx,
      fun _ f hf m hm hn => houter m hn f hf hm⟩
  obtain ⟨hstay, hclosed⟩ :=
    Captures.outer_sufficient p.statements (.program hsupported hcalls hown)
  have hemitted : ∀ f ∈ r'.functions, (declaration f).tree.functions = [emitted f] ∧
      ∃ g ∈ (TreeLifting.stmts false [] p.statements).entered,
        emitted f = respelledFunction (.ofNames g.1.name (g.1.params ++ g.1.captured), g.2) := by
    intro f hf
    obtain ⟨g, hg, hgf⟩ := exists_entered hj hentered hf
    have hflat := TreeLifting.functionsOfList_entered false p.statements [] g hg
    exact ⟨(functions_declaration hflat hgf).1, g, hg, (functions_declaration hflat hgf).2⟩
  refine ⟨(Stmt.functionsOfList (TreeLifting.stmts false [] p.statements).kept).map
    respelledFunction, ?_, ?_, ?_⟩
  · have hstayed : Stmt.functionsOfList (Code.Stmt.trees kept) =
        (Stmt.functionsOfList (TreeLifting.stmts false [] p.statements).kept).map
          respelledFunction := by
      rw [hkept, ← Stmt.functionsOfList_clear, Stmt.clearList_eq_map]
      rfl
    rw [Code.Stmt.trees_append, Stmt.functionsOfList_append, hstayed,
      functionsOfList_declarations fun f hf => (hemitted f hf).1]
  · rw [List.forall₂_map_right_iff]
    refine hstay.imp fun f f' hff x hx => ?_
    exact (hff x (mem_freeNames_respelled.1 hx)).imp_right (hnames x).2
  · intro f hf x hx
    obtain ⟨g, hg, hgf⟩ := (hemitted f hf).2
    rw [hgf, mem_freeNames_respelled] at hx
    exact (hnames x).2 (hclosed g hg x hx)

/-- A function with two functions nested in each other, the inner one called before it is
declared. -/
def chain : Program where
  length := 0
  statements := Code.Stmt.trees
    [.function "outer" ["a"]
      [.variable_ .var "b" (some (.name "a")),
        .function "inner" ["c"]
          [.return_ (some (.binary .add (.call "deep" [.name "c"]) (.name "a"))),
            .function "deep" ["d"] [.return_ (some (.binary .add (.name "d") (.name "b")))]],
        .return_ (some (.call "inner" [.name "b"]))]]

theorem captured_lists_suffice_chain :
    ∃ code r', program chain {} = (.ok code, r') ∧
      Stmt.nestedNamesOfList false chain.statements = ["inner", "deep"] ∧
      ∃ stayed, Stmt.functionsOfList (Code.Stmt.trees code) = stayed ++ r'.functions.map emitted ∧
        List.Forall₂
          (fun f f' => ∀ x ∈ freeNames f', x ∈ freeNames f ∨ x ∈ r'.functions.map (·.name))
    (Stmt.outerFunctionsOfList chain.statements) stayed ∧
        ∀ f ∈ r'.functions, ∀ x ∈ freeNames (emitted f), x ∈ r'.functions.map (·.name) := by
  exact ⟨_, _, rfl, by decide, captured_lists_suffice (r := {}) rfl (by decide) (by decide)
    (by decide) (by decide)⟩

end Lifting

end LambdaLift
