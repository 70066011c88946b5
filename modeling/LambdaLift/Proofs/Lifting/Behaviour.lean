import LambdaLift.Proofs.Lifting.Entry
import LambdaLift.Proofs.Lifting.Modular
import LambdaLift.Proofs.Lifting.Sufficiency
import LambdaLift.Proofs.Lifting.Unnested

/-!
# Lifting keeps the behaviour of well scoped programs

* `Behaviour.closed_entered`: lifted functions need nothing but each other.
* `Behaviour.static_program`, `Behaviour.rel_program`: the start of a program.
* `TreeLifting.run_program`: a well scoped program runs as the program that lifting from tree to tree
  gives.
* `Lifting.well_scoped_behaviour`: it runs as its lifted text does.
-/

namespace LambdaLift

open List Stmt

namespace TreeLifting

mutual

theorem heads_stmt (nested : Bool) (s : Stmt) (log : List Entry) :
    (stmt nested log s).entered.map (fun f => (f.1.name, f.1.params)) =
      (s.nestedFunctions nested).map
        fun f => (f.1.name?.getD "", f.1.params.filterMap Param.plainName?) := by
  cases s with
  | function head body =>
    cases nested with
    | true =>
      have ih := heads_stmts true body (log ++ [entry log head body])
      simpa [stmt, entry, nestedFunctions] using ih
    | false => simp [stmt, nestedFunctions, heads_stmts true body log]
  | block _ body => exact heads_stmts nested body log
  | vars _ _ _ _ | expression _ _ | return_ _ _ | empty _ | other _ => rfl

/-- The functions entered have the names and parameters of the nested functions. -/
theorem heads_stmts (nested : Bool) (ss : List Stmt) (log : List Entry) :
    (stmts nested log ss).entered.map (fun f => (f.1.name, f.1.params)) =
      (nestedFunctionsOfList nested ss).map
        fun f => (f.1.name?.getD "", f.1.params.filterMap Param.plainName?) := by
  cases ss with
  | nil => rfl
  | cons s ss =>
    rw [stmts, nestedFunctionsOfList, map_append, map_append,
      heads_stmt nested s log, heads_stmts nested ss _]

end

end TreeLifting

namespace Behaviour

open TreeLifting (Entry latest? passed)
open Execution

/-! ## Where a program starts -/

variable (ss : List Stmt)

/-- The functions of a program that are lifted. -/
def entered : LiftedFunctions :=
  (TreeLifting.stmts false [] ss).entered

/-- Outside of all functions. -/
def programScene : Scene where
  all := entered ss
  nested := false
  base := 0
  available _ := True
  self := none

/-- The start of a program. -/
def programSpot : Spot where
  context := (varNamesOfList ss).map (variableItem 1) ++ [⟨"print", 1, .print⟩]
  depth := 1
  log := []
  visible := { functions := ["print"] }
  bound := []

/-- The scope of a program. -/
def programPlace : Place where
  blocks := []
  scope := globalScope
  outer := []
  liftedOuter := []
  top := []
  top_suffix := suffix_rfl
  scope_le := forall_mem_nil _

variable {ss}

theorem names_entered (hs : SupportedList ss) :
    (entered ss).map (·.1.name) = nestedNamesOfList false ss := by
  rw [← Captures.names_log_stmts false ss [] hs, TreeLifting.Lifted.log, map_map]
  rfl

/-- Lifted functions need nothing but each other. -/
theorem closed_entered (hs : SupportedList ss) (h : WellScoped ss) :
    ∀ g ∈ entered ss, Captures.Closed ((entered ss).map (·.1.name)) g := by
  rw [names_entered hs]
  have hown : OwnNames (nestedNamesOfList false ss) false ss :=
    ⟨h.nodup_nested, fun m hm => hm, h.variables_not_nested, fun _ => h.outer_not_nested⟩
  exact (Captures.outer_sufficient ss (.program hs h.callsInside hown)).2

theorem fewArguments (hs : SupportedList ss) (h : WellScoped ss) :
    FewArguments (entered ss) (callsOfList ss) := by
  intro d hd f hf hname
  have hmem := mem_map_of_mem (f := fun f : Entry × List Stmt => (f.1.name, f.1.params)) hf
  rw [entered, TreeLifting.heads_stmts] at hmem
  obtain ⟨g, hg, hfg⟩ := mem_map.1 hmem
  obtain ⟨hgname, hgparams⟩ := Prod.mk.inj hfg
  have hsup := supported_of_nestedOfList false ss hs g hg
  obtain ⟨x, hx, -⟩ := hsup.name
  have hcount := h.arity g hg d hd (by rw [hx, ← hname, ← hgname, hx]; rfl)
  rwa [← hgparams, length_filterMap_eq_countP, countP_eq_length.2 hsup.params]

theorem distinct_program (h : WellScoped ss) :
    ((programSpot ss).context.names ++ introducedOfList ss).Nodup := by
  refine (Perm.nodup_iff ?_).1 h.distinct
  rw [programSpot, names_variables]
  refine .trans (.cons _ (perm_introducedOfList ss).symm) ?_
  rw [append_assoc]
  exact perm_middle.symm

theorem static_program (hs : SupportedList ss) (h : WellScoped ss) :
    Static (programScene ss) (programSpot ss) ss where
  supported := hs
  visible := h.visible
  arity := fewArguments hs h
  entered f hf := hf
  distinct := distinct_program h
  hoisted x hx := mem_append.2 (.inl (mem_map_of_mem hx))
  reads _ _ := trivial
  declared _ _ := trivial
  unlifted x hx := by
    rw [programScene, names_entered hs]
    exact h.variables_not_nested x hx
  outer _ f hf m hm := by
    rw [programScene, names_entered hs]
    exact h.outer_not_nested f hf m hm

/-- The items at the start of a program are its variables and the function that prints. -/
theorem forall_programSpot {P : Item → Prop} (hvar : ∀ x ∈ varNamesOfList ss, P (variableItem 1 x))
    (hprint : P ⟨"print", 1, .print⟩) : ∀ a ∈ (programSpot ss).context, P a := by
  refine forall_mem_append.2 ⟨fun a ha => ?_, forall_mem_singleton.2 hprint⟩
  obtain ⟨x, hx, rfl⟩ := mem_map.1 ha
  exact hvar x hx

theorem valid_program (hs : SupportedList ss) (h : WellScoped ss) :
    (programSpot ss).Valid (programScene ss) := by
  have hvars : ∀ x ∈ varNamesOfList ss, x ∉ (entered ss).map (·.1.name) := by
    rw [names_entered hs]
    exact fun x hx => h.variables_not_nested x (mem_variablesOfList_of_varNames ss hx)
  have hprint : WellFormed (entered ss) [⟨"print", 1, .print⟩] := by
    refine ⟨forall_mem_nil _, fun hlifted => ?_, fun f hf => (by cases hf), trivial⟩
    rw [names_entered hs] at hlifted
    exact absurd hlifted h.print_not_nested
  refine ⟨hprint.variables (by simp) hvars, (nodup_append.1 (distinct_program h)).1,
    forall_programSpot (fun _ _ => Nat.le_refl 1) (Nat.le_refl 1), Nat.zero_lt_one,
    forall_programSpot (fun _ _ => rfl) rfl, forall_mem_nil _,
    ⟨forall_mem_nil _, forall_mem_singleton.2 ?_⟩, forall_mem_nil _,
    forall_mem_nil _, fun _ => forall_programSpot (fun _ _ => ?_) ?_⟩
  · exact ⟨_, mem_append.2 (.inr (mem_singleton.2 rfl)), rfl, by simp⟩
  · simp [variableItem, Item.IsNested, Meaning.entry?]
  · simp [Item.IsNested, Meaning.entry?]

theorem fits_program : programPlace.Fits (programScene ss) (programSpot ss) where
  depth := rfl
  base := rfl
  global _ := ⟨rfl, rfl⟩
  last := rfl
  nested hnested := by cases hnested
  notNested hnested := by cases hnested

/-! ## The stores at the start -/

theorem lookup?_initial {x : String} (hx : x ≠ "print") :
    World.initial.store.lookup? globalScope x = none := by
  simp [World.initial, Store.lookup?, Store.scope, globalScope, Scope.get?, lookup_cons,
    beq_false_of_ne hx]

/-- What a program declares in its scope. -/
def programVariables (ss : List Stmt) : List (String × Variable) :=
  undefinedVariables (varNamesOfList ss) ++ declarations [globalScope] ss

/-- A program runs its statements after all that they declare was declared. -/
theorem body_program {calls : Calls} (hnames : ("print" :: varNamesOfList ss).Nodup) :
    body calls [globalScope] ss World.initial =
      stmts calls [globalScope] ss
        ⟨World.initial.store.declareAll globalScope (programVariables ss), ""⟩ := by
  obtain ⟨hprint, hvars⟩ := nodup_cons.1 hnames
  have hbody : body calls [globalScope] ss World.initial = stmts calls [globalScope] ss
      ⟨declareList [globalScope] ss (declareVars [globalScope] ss World.initial.store), ""⟩ := rfl
  rw [hbody, declareVars_eq hvars, declareList_eq, programVariables, Store.declareAll_append]
  · rfl
  · exact fun x hx => lookup?_initial fun hxp => hprint (hxp ▸ hx)

/-- The variable of a lifted function. -/
def liftedVariable (f : Entry × List Stmt) : String × Variable :=
  (f.1.name, .ofFunction (liftedClosure f))

section Declarations

variable (fs : LiftedFunctions)

theorem declarations_lifted :
    declarations [globalScope] (fs.map TreeLifting.declaration) = fs.map liftedVariable := by
  induction fs with
  | nil => rfl
  | cons f fs ih =>
    rw [map_cons, declarations, flatMap_cons, ← declarations, ih]
    rfl

theorem varNamesOfList_lifted : varNamesOfList (fs.map TreeLifting.declaration) = [] := by
  induction fs with
  | nil => rfl
  | cons f fs ih =>
    rw [map_cons, varNamesOfList, ih]
    rfl

theorem stmts_lifted (calls : Calls) (env : Environment) :
    stmts calls env (fs.map TreeLifting.declaration) = pure .normal := by
  induction fs with
  | nil => rw [map_nil, stmts]
  | cons f fs ih =>
    rw [map_cons, stmts_cons, TreeLifting.declaration, stmt, pure_bind, Completion.next, ih]

end Declarations

theorem program_eq (hs : SupportedList ss) (h : WellScoped ss) :
    TreeLifting.program ss =
      (TreeLifting.stmts false [] ss).kept ++ (entered ss).map TreeLifting.declaration := by
  have hnodup : ((entered ss).map (·.1.name)).Nodup := names_entered hs ▸ h.nodup_nested
  rw [TreeLifting.program, ← entered, TreeLifting.lastOfEach_of_nodup hnodup]

/-- What the lifted program declares in its scope. -/
theorem programVariables_program (hs : SupportedList ss) (h : WellScoped ss) :
    programVariables (TreeLifting.program ss) =
      undefinedVariables (varNamesOfList ss) ++
        (declarations [globalScope] (TreeLifting.stmts false [] ss).kept ++
          (entered ss).map liftedVariable) := by
  rw [programVariables, program_eq hs h, varNamesOfList_append, varNamesOfList_kept,
    varNamesOfList_lifted, append_nil, declarations_append, declarations_lifted]

theorem names_source (ss : List Stmt) :
    ((programVariables ss).map Prod.fst).Sublist (varNamesOfList ss ++ introducedOfList ss) := by
  rw [programVariables, map_append]
  refine .append ?_ (map_fst_declarations _ ss)
  simp [undefinedVariables, Function.comp_def]

theorem nodup_source (h : WellScoped ss) :
    ("print" :: (programVariables ss).map Prod.fst).Nodup := by
  refine ((Perm.nodup_iff (.cons _ (perm_introducedOfList ss))).2 h.distinct).sublist ?_
  exact (names_source ss).cons_cons _

theorem nodup_target (hs : SupportedList ss) (h : WellScoped ss) :
    ("print" :: (programVariables (TreeLifting.program ss)).map Prod.fst).Nodup := by
  have hlifted : ((entered ss).map liftedVariable).map Prod.fst = (entered ss).map (·.1.name) := by
    rw [map_map]
    rfl
  have hkept : ("print" :: (varNamesOfList ss ++
      (declarations [globalScope] (TreeLifting.stmts false [] ss).kept).map Prod.fst)).Nodup := by
    refine ((Perm.nodup_iff (.cons _ (perm_introducedOfList ss))).2 h.distinct).sublist ?_
    exact ((Sublist.refl _).append (map_fst_declarations_kept _ false ss [])).cons_cons _
  have hvars : (undefinedVariables (varNamesOfList ss)).map Prod.fst = varNamesOfList ss := by
    simp [undefinedVariables, Function.comp_def]
  rw [programVariables_program hs h, map_append, map_append, hlifted, hvars,
    ← append_assoc, ← cons_append]
  have hstatic := static_program hs h
  refine nodup_append.2 ⟨hkept, names_entered hs ▸ h.nodup_nested, ?_⟩
  rintro x hx _ hm rfl
  rcases mem_cons.1 hx with rfl | hx
  · exact h.print_not_nested (names_entered hs ▸ hm)
  · rcases mem_append.1 hx with hx | hx
    · exact hstatic.unlifted x (mem_variablesOfList_of_varNames ss hx) hm
    · exact hstatic.not_mem_kept _ hm hx

/-- The store before the first statement of a program. -/
def programStore (ss : List Stmt) : Store :=
  World.initial.store.declareAll globalScope (programVariables ss)

theorem next_programStore (ss : List Stmt) : (programStore ss).next = 1 :=
  Store.next_declareAll _

theorem lookup?_programStore {d : String × Variable}
    (hnames : ("print" :: (programVariables ss).map Prod.fst).Nodup)
    (hd : d ∈ programVariables ss) : (programStore ss).lookup? globalScope d.1 = some d.2 :=
  Store.lookup?_declareAll_of_mem Nat.zero_lt_one (nodup_cons.1 hnames).2 hd

theorem lookup?_print (hnames : ("print" :: (programVariables ss).map Prod.fst).Nodup) :
    (programStore ss).lookup? globalScope "print" = some { value := some .print, kind := .var } := by
  rw [programStore, Store.lookup?_declareAll_of_not_mem (nodup_cons.1 hnames).1]
  rfl

theorem rel_program (hs : SupportedList ss) (h : WellScoped ss) :
    Rel (programScene ss) programPlace (programSpot ss).context (programStore ss)
      (programStore (TreeLifting.program ss)) := by
  have hsource := nodup_source h
  have htarget := nodup_target hs h
  have hpaired : ∀ a ∈ (programSpot ss).context,
      a.depth = 1 ∧ a.Paired [globalScope] [] (programStore ss)
        (programStore (TreeLifting.program ss)) := by
    refine forall_programSpot (fun x hx => ?_) ?_
    · have hmem : (x, ({ value := some .undefined, kind := .var } : Variable)) ∈
          undefinedVariables (varNamesOfList ss) := mem_map.2 ⟨x, hx, rfl⟩
      have hmem' : (x, ({ value := some .undefined, kind := .var } : Variable)) ∈
          programVariables (TreeLifting.program ss) := by
        rw [programVariables_program hs h]
        exact mem_append.2 (.inl hmem)
      exact ⟨rfl, [globalScope], _, .undefined,
        .here (lookup?_programStore hsource (mem_append.2 (.inl hmem))),
        .here (lookup?_programStore htarget hmem'), rfl, rfl, rfl⟩
    · exact ⟨rfl, [globalScope], _, .print, .here (lookup?_print hsource),
        .here (lookup?_print htarget), rfl, rfl, rfl⟩
  have hplain := (valid_program hs h).outside rfl
  refine ⟨by rw [next_programStore, next_programStore], ?_, forall_mem_nil _, ?_, ?_, ?_, ?_, ?_,
    ?_, fun hnested => by cases hnested⟩
  · rw [next_programStore]
    exact forall_mem_singleton.2 Nat.zero_lt_one
  · intro a ha
    obtain ⟨v, hv, -⟩ := (hpaired a ha).2.denotes
    exact ⟨v, hv⟩
  · exact fun a ha _ _ => (hpaired a ha).2
  · intro a ha hle
    rw [(hpaired a ha).1] at hle
    exact absurd hle (Nat.not_succ_le_zero 0)
  · intro a ha hfree
    refine absurd hfree ?_
    rw [(hpaired a ha).1]
    rintro (hnested | ⟨hle, -⟩)
    · exact hplain a ha hnested
    · exact Nat.not_succ_le_zero 0 hle
  · intro f hf
    refine lookup?_programStore (d := liftedVariable f) htarget ?_
    rw [programVariables_program hs h]
    exact mem_append.2 (.inr (mem_append.2 (.inr (mem_map_of_mem hf))))
  · intro f _ j hj hne
    exact absurd (mem_singleton.1 hj) hne

theorem pending_program (hs : SupportedList ss) (h : WellScoped ss) :
    Pending (programScene ss) programPlace [] ss (programStore ss)
      (programStore (TreeLifting.program ss)) where
  source d hd := lookup?_programStore (nodup_source h) (mem_append.2 (.inr hd))
  target d hd := by
    refine lookup?_programStore (nodup_target hs h) ?_
    rw [programVariables_program hs h]
    exact mem_append.2 (.inr (mem_append.2 (.inl hd)))
  vacant hnested := by cases hnested

/-- **Lifting from tree to tree.** A well scoped program prints the same as the lifted program or
fails in the same way, whatever the number of calls that may nest. -/
theorem run_program {p : Program} (hs : SupportedList p.statements)
    (h : WellScoped p.statements) (limit length : Nat) :
    run limit ⟨length, TreeLifting.program p.statements⟩ = run limit p := by
  have hvars (ss : List Stmt) (hnames : ("print" :: (programVariables ss).map Prod.fst).Nodup) :
      ("print" :: varNamesOfList ss).Nodup := by
    refine hnames.sublist (.cons_cons _ ?_)
    rw [programVariables, map_append]
    simp [undefinedVariables, Function.comp_def]
  have hlifted : stmts (call limit) [globalScope] (TreeLifting.program p.statements) =
      stmts (call limit) [globalScope] (TreeLifting.stmts false [] p.statements).kept := by
    rw [program_eq hs h, stmts_append, stmts_lifted, Completion.next_normal, bind_pure]
  have hrun := stmts_alike (call_alike (closed_entered hs h) limit) p.statements
    (static_program hs h) (valid_program hs h) fits_program ⟨programStore p.statements, ""⟩
    ⟨programStore (TreeLifting.program p.statements), ""⟩ rfl (rel_program hs h)
    (pending_program hs h)
  rw [run_eq, run_eq, body_program (hvars _ (nodup_source h)),
    body_program (hvars _ (nodup_target hs h)), hlifted]
  exact outcome_eq hrun fun _ _ _ _ halike => halike.joined.output

end Behaviour

namespace Lifting

/-- **Lifting keeps the behaviour of well scoped programs.** Take a text without a fault in which no
name is written with an escape and whose program is well scoped, lift it, and write it with a layout
of blanks. Reading what was written finds that it nests too deep, or finds nothing wrong and gives a
program that prints the same or fails in the same way, whatever the number of calls that may
nest. -/
theorem well_scoped_behaviour {file text out : String} {layout : Layout} {r : Functions}
    (hclean : (Parsed.ofText file text).reports = [])
    (hnames : PlainNames (Lexer.ofText text).skipShebang)
    (hscoped : WellScoped (Parsed.ofText file text).program.statements)
    (hlayout : layout.IsBlank)
    (hout : (Lifting.text layout (Parsed.ofText file text).program r).1 = .ok out)
    (file' : String) :
    (Parsed.ofText file' out).NestsTooDeep ∨
      (Parsed.ofText file' out).reports = [] ∧
        ∀ limit, Execution.run limit (Parsed.ofText file' out).program =
          Execution.run limit (Parsed.ofText file text).program := by
  refine (run_reparsed hclean hnames hlayout hout file').imp_right ?_
  rintro ⟨hreports, hrun⟩
  refine ⟨hreports, fun limit => (hrun limit).trans ?_⟩
  exact Behaviour.run_program (supported_of_text hout) hscoped limit 0

/-- A function in which a nested function captures the parameter and is called twice with too few
arguments. -/
def makeText : String :=
  "function make(a)\x7bfunction add(c,d)\x7breturn c+a\x7dreturn add(add(a))\x7dprint(make(1))"

/-- What it is lifted to, without indentation and ends of lines. -/
def makeLifted : String :=
  "function make(a) \x7breturn add(add(a, void 0, a), void 0, a);\x7dprint(make(1));" ++
    "function add(c, d, a) \x7breturn (c) + (a);\x7d"

theorem well_scoped_behaviour_make :
    (Parsed.ofText "a" makeText).reports = [] ∧
      PlainNames (Lexer.ofText makeText).skipShebang ∧
      WellScoped (Parsed.ofText "a" makeText).program.statements ∧
      (Lifting.text ⟨"", "", false⟩ (Parsed.ofText "a" makeText).program {}).1 = .ok makeLifted ∧
      (Parsed.ofText "b" makeLifted).reports = [] ∧
      Execution.run 2 (Parsed.ofText "b" makeLifted).program =
        Execution.run 2 (Parsed.ofText "a" makeText).program := by
  have hnames : PlainNames (Lexer.ofText makeText).skipShebang :=
    .of_end 40 (by decide +kernel) (by decide +kernel)
  obtain ⟨hclean, hscoped, htext, hreparsed⟩ :
      (Parsed.ofText "a" makeText).reports = [] ∧
        WellScoped (Parsed.ofText "a" makeText).program.statements ∧
        (Lifting.text ⟨"", "", false⟩ (Parsed.ofText "a" makeText).program {}).1.toOption =
          some makeLifted ∧
        (Parsed.ofText "b" makeLifted).reports = [] := by
    decide +kernel
  have hout := ok_of_toOption htext
  refine ⟨hclean, hnames, hscoped, hout, hreparsed, ?_⟩
  obtain ⟨span, hspan⟩ | ⟨-, hrun⟩ :=
    well_scoped_behaviour hclean hnames hscoped ⟨by simp, by simp⟩ hout "b"
  · rw [hreparsed] at hspan
    cases hspan
  · exact hrun 2

end Lifting

end LambdaLift
