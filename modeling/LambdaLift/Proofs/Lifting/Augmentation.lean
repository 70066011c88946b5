import LambdaLift.Proofs.Grammar.Legible
import LambdaLift.Proofs.Lifting.Acceptance
import LambdaLift.Proofs.Lifting.Modular
import LambdaLift.Proofs.Scope.Declared
import Mathlib.Data.List.Find
import Mathlib.Data.List.Nodup

/-!
# What calls pass on, by the order of the text

While a program is lifted, a call is extended by what the registry holds at that moment. Here the
same is said by offsets alone: a call passes on what belongs to the nested function of its name that
starts before the call.

* `Augmentation.table`: the nested functions in the order of the text, with what they capture.
* `Augmentation.extras`: what a call that starts at an offset passes besides its arguments.
* `Stmt.codes`: the code of statements whose calls are extended by offsets.
* `Augmentation.stmts_code`: lifting gives this code, by induction on the statements. The log holds
  the functions that start before the place reached; those still to come start after it.
* `Lifting.extends_calls_by_offset`: the code and the functions of a program that was read from a
  text.
-/

namespace LambdaLift

open Lifting Option Stmt

namespace Augmentation

open TreeLifting (Entry)

/-- A nested function and the names it captures. -/
structure Nested where
  head : FunctionHead
  body : List Stmt
  captured : List String

namespace Nested

/-- The name of the function. -/
def name (g : Nested) : String :=
  g.head.name?.getD ""

/-- Where the function starts. -/
def start (g : Nested) : Nat :=
  g.head.range.start

/-- The number of parameters that the function is declared with. -/
def arity (g : Nested) : Nat :=
  g.head.params.length

/-- The names of these parameters. -/
def params (g : Nested) : List String :=
  g.head.params.filterMap Param.plainName?

/-- The function as an entry of a log. -/
def entry (g : Nested) : Entry :=
  ⟨g.name, g.params, g.captured⟩

end Nested

/-- The function of the given name that starts before `offset`. -/
def before? (table : List Nested) (offset : Nat) (name : String) : Option Nested :=
  table.find? fun g => g.name = name && g.start < offset

/-- What a call that starts at `offset` passes besides its own arguments: nothing if no function of
that name starts before it, and otherwise all but the first `count` of a value for each parameter
and the captured names. -/
def extras (table : List Nested) (offset : Nat) (callee : String) (count : Nat) : List Code.Expr :=
  (before? table offset callee).elim [] fun g =>
    (List.replicate g.arity Code.Expr.undefined ++ g.captured.map Code.Expr.name).drop count

/-- The captured names among them. -/
def captures (table : List Nested) (offset : Nat) (callee : String) (count : Nat) : List String :=
  (before? table offset callee).elim [] fun g => g.captured.drop (count - g.arity)

/-- The functions with what they capture, when those of `earlier` are known. -/
def collect (earlier : List Nested) : List (FunctionHead × List Stmt) → List Nested
  | [] => []
  | f :: fs =>
    let g : Nested := ⟨f.1, f.2, FreeNames.ofFunction (captures earlier f.1.range.start) f.1 f.2⟩
    g :: collect (earlier ++ [g]) fs

/-- The nested functions of a program with what they capture. -/
def table (statements : List Stmt) : List Nested :=
  collect [] (nestedFunctionsOfList false statements)

end Augmentation

/-! ## Code by offsets -/

mutual

/-- The code of an expression that can be lifted. `extras` tells what a call passes besides its
arguments, by where it starts, what it calls and how many arguments it has. -/
def Expr.code (extras : Nat → String → Nat → List Code.Expr) : Expr → Code.Expr
  | .ident id => .name id.name
  | .number lit => .number lit.raw
  | .string lit => .string lit.raw
  | .boolean _ b => .boolean b
  | .null _ | .other _ => .null
  | .paren _ e => .paren (e.code extras)
  | .unary _ op e => .unary op (e.code extras)
  | .update _ op e => .update op (e.code extras)
  | .binary _ op _ a b =>
    if op = .assign then .assign (a.name?.getD "") (b.code extras)
    else .binary op (a.code extras) (b.code extras)
  | .call range _ f args =>
    .call (f.name?.getD "")
      (Expr.codes extras args ++ extras range.start (f.name?.getD "") args.length)

/-- The code of expressions that can be lifted. -/
def Expr.codes (extras : Nat → String → Nat → List Code.Expr) : List Expr → List Code.Expr
  | [] => []
  | e :: es => e.code extras :: Expr.codes extras es

end

mutual

/-- The code of a statement that can be lifted, without the nested functions in it. -/
def Stmt.code (extras : Nat → String → Nat → List Code.Expr) (nested : Bool) :
    Stmt → List Code.Stmt
  | .vars _ _ kind ds =>
    ds.map fun d => .variable_ kind (d.target.name?.getD "") (d.init.map (Expr.code extras))
  | .function head body =>
    if nested then []
    else
      [.function (head.name?.getD "") (head.params.filterMap Param.plainName?)
        (codes extras true body)]
  | .block _ body => [.block (codes extras nested body)]
  | .expression _ e => [.expression (e.code extras)]
  | .return_ _ e => [.return_ (e.map (Expr.code extras))]
  | .empty _ | .other _ => []

/-- The code of statements that can be lifted, without the nested functions in them. -/
def Stmt.codes (extras : Nat → String → Nat → List Code.Expr) (nested : Bool) :
    List Stmt → List Code.Stmt
  | [] => []
  | s :: ss => s.code extras nested ++ codes extras nested ss

end

namespace Augmentation

open TreeLifting (Entry)

/-- The function at the top level, its body as code. -/
def Nested.lifted (extras : Nat → String → Nat → List Code.Expr) (g : Nested) :
    LiftedFunction (List Code.Stmt) :=
  ⟨g.name, g.params, g.captured, some (codes extras true g.body)⟩

/-! ## Expressions -/

section Expressions

variable {log : List Entry} {extras : Nat → String → Nat → List Code.Expr}

/-- Calls that start at one of the marks are extended by offset as by the log. -/
def ExtendsAt (log : List Entry) (extras : Nat → String → Nat → List Code.Expr)
    (ms : List Landmark) : Prop :=
  ∀ m ∈ ms, ∀ callee count,
    Code.Expr.trees (extras m.start callee count) = TreeLifting.arguments log callee count

theorem ExtendsAt.mono {ms ns : List Landmark} (h : ExtendsAt log extras ms)
    (hsub : ∀ m ∈ ns, m ∈ ms) : ExtendsAt log extras ns :=
  fun m hm => h m (hsub m hm)

theorem ExtendsAt.left {ms ns : List Landmark} (h : ExtendsAt log extras (ms ++ ns)) :
    ExtendsAt log extras ms :=
  h.mono fun _ hm => List.mem_append.2 (.inl hm)

theorem ExtendsAt.right {ms ns : List Landmark} (h : ExtendsAt log extras (ms ++ ns)) :
    ExtendsAt log extras ns :=
  h.mono fun _ hm => List.mem_append.2 (.inr hm)

mutual

theorem expr_code (e : Expr) (hs : e.Supported) (h : ExtendsAt log extras e.landmarks) :
    (e.code extras).tree = (TreeLifting.expr log e).respelled := by
  cases e with
  | ident id | number lit | string lit | boolean _ b | null _ => rfl
  | paren _ e | unary _ op e | update _ op e =>
    rw [Expr.code, Code.Expr.tree, expr_code e hs h]
    rfl
  | binary _ op opRange a b =>
    obtain ⟨-, hleft, hright⟩ := hs
    have hb := expr_code b hright h.right
    by_cases hop : op = .assign
    · subst hop
      obtain ⟨x, hx⟩ := isSome_iff_exists.1 (if_pos rfl ▸ hleft)
      obtain ⟨id, rfl, rfl⟩ := eq_ident_of_name? hx
      simp only [Expr.code, ↓reduceIte, Code.Expr.tree, hb]
      rfl
    · have ha := expr_code a (by rwa [if_neg hop] at hleft) h.left
      simp only [Expr.code, hop, ↓reduceIte, Code.Expr.tree, ha, hb, TreeLifting.expr]
      rfl
  | call range isOptional f args =>
    obtain ⟨rfl, hname, hargs⟩ := hs
    obtain ⟨x, hx⟩ := isSome_iff_exists.1 hname
    obtain ⟨id, rfl, rfl⟩ := eq_ident_of_name? hx
    have hcall := h ⟨range.start, false⟩ List.mem_cons_self id.name args.length
    have hmore := respelled_arguments log id.name args.length
    unfold Expr.respelled at hmore
    simp only [Expr.code, Code.Expr.tree, Code.Expr.trees_append, Expr.name?, getD_some, hcall,
      exprs_code args hargs (h.mono fun m hm => List.mem_cons_of_mem _ hm), TreeLifting.expr,
      elim_some, Expr.respelled, Expr.clear, Expr.clearList_eq_map, List.map_append, hmore]
    rfl
  | other n => exact hs.elim

theorem exprs_code (es : List Expr) (hs : Expr.SupportedList es)
    (h : ExtendsAt log extras (Expr.landmarksOfList es)) :
    Code.Expr.trees (Expr.codes extras es) =
      (TreeLifting.exprs log es).map Expr.respelled := by
  cases es with
  | nil => rfl
  | cons e es =>
    rw [Expr.codes, Code.Expr.trees, expr_code e hs.1 h.left, exprs_code es hs.2 h.right]
    rfl

end

theorem expr?_code (e : Option Expr) (hs : ∀ e' ∈ e, e'.Supported)
    (h : ExtendsAt log extras (Expr.landmarks? e)) :
    (e.map (Expr.code extras)).map Code.Expr.tree =
      (e.map (TreeLifting.expr log)).map Expr.respelled := by
  cases e with
  | none => rfl
  | some e => simp only [map_some, expr_code e (hs e rfl) h]

theorem declarators_code (kind : VarKind) (ds : List Declarator) (hs : ∀ d ∈ ds, d.Supported)
    (h : ExtendsAt log extras (ds.flatMap fun d => Expr.landmarks? d.init)) :
    Code.Stmt.trees (ds.map fun d =>
        .variable_ kind (d.target.name?.getD "") (d.init.map (Expr.code extras))) =
      (ds.map (TreeLifting.variable_ log kind)).map respelled := by
  rw [Code.Stmt.trees_eq_map, List.map_map, List.map_map]
  apply List.map_congr_left
  intro d hd
  have hinit := expr?_code d.init (hs d hd).2
    (h.mono fun m hm => List.mem_flatMap.2 ⟨d, hd, hm⟩)
  have hname := (hs d hd).1
  obtain ⟨r, target, init⟩ := d
  cases target with
  | pattern n => cases hname
  | name id =>
    simp only [Function.comp_apply, Code.Stmt.tree, hinit]
    rfl

end Expressions

/-! ## The log and the table -/

section Log

variable {T earlier later : List Nested} {name : String} {offset : Nat}

theorem collect_append (earlier : List Nested) (fs gs : List (FunctionHead × List Stmt)) :
    collect earlier (fs ++ gs) =
      collect earlier fs ++ collect (earlier ++ collect earlier fs) gs := by
  induction fs generalizing earlier with
  | nil => simp [collect]
  | cons f fs ih => simp [collect, ih]

/-- The functions that are collected are the given ones. -/
theorem map_collect (earlier : List Nested) (fs : List (FunctionHead × List Stmt)) :
    (collect earlier fs).map (fun g => (g.head, g.body)) = fs := by
  induction fs generalizing earlier with
  | nil => rfl
  | cons f fs ih => rw [collect, List.map_cons, ih]

/-- A table in which no name occurs twice, of functions with plain parameters only. -/
structure IsDistinct (T : List Nested) : Prop where
  names : (T.map Nested.name).Nodup
  params : ∀ g ∈ T, g.params.length = g.arity

theorem IsDistinct.left (h : IsDistinct (earlier ++ later)) : IsDistinct earlier := by
  refine ⟨?_, fun g hg => h.params g (List.mem_append.2 (.inl hg))⟩
  have hnames := h.names
  rw [List.map_append] at hnames
  exact hnames.of_append_left

theorem IsDistinct.eq_of_name (h : IsDistinct T) {f g : Nested} (hf : f ∈ T) (hg : g ∈ T)
    (hname : f.name = g.name) : f = g :=
  List.inj_on_of_nodup_map h.names hf hg hname

/-- Between the functions that start before an offset and those that do not, those before it are
found. -/
theorem before?_append (hlt : ∀ g ∈ earlier, g.start < offset) (hle : ∀ g ∈ later, offset ≤ g.start)
    (name : String) :
    before? (earlier ++ later) offset name = earlier.find? fun g => g.name = name := by
  have hlater : later.find? (fun g => g.name = name && g.start < offset) = none := by
    rw [List.find?_eq_none]
    intro g hg
    have := hle g hg
    simp [this]
  rw [before?, List.find?_append, hlater, or_none]
  apply List.find?_congr
  intro g hg
  simp [hlt g hg]

/-- The latest entry of a name is the only one. -/
theorem latest?_map_entry (h : IsDistinct T) (name : String) :
    TreeLifting.latest? (T.map Nested.entry) name =
      (T.find? fun g => g.name = name).map Nested.entry := by
  rw [TreeLifting.latest?, ← List.map_reverse, List.find?_map]
  congr 1
  cases hfirst : T.find? fun g => g.name = name with
  | none =>
    rw [List.find?_eq_none] at hfirst ⊢
    exact fun g hg => hfirst g (List.mem_reverse.1 hg)
  | some g =>
    have hg := List.find?_some hfirst
    have hmem := List.mem_of_find?_eq_some hfirst
    cases hlast : T.reverse.find? ((fun e : Entry => decide (e.name = name)) ∘ Nested.entry) with
    | none =>
      rw [List.find?_eq_none] at hlast
      exact absurd hg (hlast g (List.mem_reverse.2 hmem))
    | some f =>
      have hf := List.find?_some hlast
      have hmem' := List.mem_reverse.1 (List.mem_of_find?_eq_some hlast)
      simp only [Function.comp_apply, decide_eq_true_eq] at hf hg
      rw [h.eq_of_name hmem' hmem (hf.trans hg.symm)]

/-- The log gives the function of a name that starts before the place reached. -/
theorem latest?_eq (hT : IsDistinct earlier) (hlt : ∀ g ∈ earlier, g.start < offset)
    (hle : ∀ g ∈ later, offset ≤ g.start) (name : String) :
    TreeLifting.latest? (earlier.map Nested.entry) name =
      (before? (earlier ++ later) offset name).map Nested.entry := by
  rw [before?_append hlt hle, latest?_map_entry hT]

theorem trees_extras (hT : IsDistinct (earlier ++ later)) (hlt : ∀ g ∈ earlier, g.start < offset)
    (hle : ∀ g ∈ later, offset ≤ g.start) (callee : String) (count : Nat) :
    Code.Expr.trees (extras (earlier ++ later) offset callee count) =
      TreeLifting.arguments (earlier.map Nested.entry) callee count := by
  rw [TreeLifting.arguments, latest?_eq hT.left hlt hle, extras]
  cases hbefore : before? (earlier ++ later) offset callee with
  | none => rfl
  | some g =>
    have hparams : g.entry.params.length = g.arity :=
      hT.params g (List.mem_of_find?_eq_some hbefore)
    simp only [elim_some, map_some, TreeLifting.Entry.arguments, hparams,
      Code.Expr.trees_eq_map, List.map_drop, List.map_append, List.map_replicate, List.map_map]
    rfl

theorem passed_eq_captures (hT : IsDistinct earlier) (hlt : ∀ g ∈ earlier, g.start < offset) :
    TreeLifting.passed (earlier.map Nested.entry) = captures earlier offset := by
  funext callee count
  have hlatest := latest?_eq hT hlt (List.forall_mem_nil _) callee
  rw [List.append_nil] at hlatest
  rw [TreeLifting.passed, hlatest, captures]
  cases hbefore : before? earlier offset callee with
  | none => rfl
  | some g =>
    have hparams : g.entry.params.length = g.arity :=
      hT.params g (List.mem_of_find?_eq_some hbefore)
    simp only [elim_some, map_some, TreeLifting.Entry.passed, hparams]
    rfl

end Log

/-! ## Statements -/

/-- Where a function starts, as a mark. -/
def mark (f : FunctionHead × List Stmt) : Landmark :=
  ⟨f.1.range.start, true⟩

mutual

theorem marks_sublist (nested : Bool) (s : Stmt) :
    ((s.nestedFunctions nested).map mark).Sublist s.landmarks := by
  cases s with
  | function head body =>
    rw [nestedFunctions, List.map_append]
    cases nested with
    | true => exact (marksOfList_sublist true body).cons_cons _
    | false => exact (marksOfList_sublist true body).cons _
  | block _ body => exact marksOfList_sublist nested body
  | vars _ _ _ _ | expression _ _ | return_ _ _ | empty _ | other _ => exact List.nil_sublist _

/-- The functions of a text are among its marks, in the same order. -/
theorem marksOfList_sublist (nested : Bool) (ss : List Stmt) :
    ((nestedFunctionsOfList nested ss).map mark).Sublist (landmarksOfList ss) := by
  cases ss with
  | nil => exact List.nil_sublist _
  | cons s ss =>
    rw [nestedFunctionsOfList, List.map_append]
    exact (marks_sublist nested s).append (marksOfList_sublist nested ss)

end

/-- A function that was collected starts at a mark. -/
theorem exists_mark {earlier : List Nested} {fs : List (FunctionHead × List Stmt)}
    {ms : List Landmark} (hfs : (fs.map mark).Sublist ms) {g : Nested}
    (hg : g ∈ collect earlier fs) : ⟨g.start, true⟩ ∈ ms := by
  have hmem := List.mem_map_of_mem (f := fun g : Nested => (g.head, g.body)) hg
  rw [map_collect] at hmem
  exact hfs.subset (List.mem_map_of_mem hmem)

/-- Lifting has come to a part of the text with the functions `fs` and the marks `ms`. The functions
of the table before it have been met, and those after it have not. -/
structure Reached (T earlier later : List Nested) (fs : List (FunctionHead × List Stmt))
    (ms : List Landmark) : Prop where
  distinct : IsDistinct T
  table : T = earlier ++ collect earlier fs ++ later
  lt : ∀ g ∈ earlier, ∀ m ∈ ms, g.start < m.start
  le : ∀ g ∈ later, ∀ m ∈ ms, m.start ≤ g.start
  order : ms.Pairwise Landmark.Precedes

namespace Reached

variable {T earlier later : List Nested} {fs gs : List (FunctionHead × List Stmt)}
  {ms ns : List Landmark}

theorem mono (h : Reached T earlier later fs ms) (hsub : ns.Sublist ms) :
    Reached T earlier later fs ns where
  distinct := h.distinct
  table := h.table
  lt g hg m hm := h.lt g hg m (hsub.subset hm)
  le g hg m hm := h.le g hg m (hsub.subset hm)
  order := h.order.sublist hsub

theorem left (h : Reached T earlier later (fs ++ gs) (ms ++ ns))
    (hgs : (gs.map mark).Sublist ns) :
    Reached T earlier (collect (earlier ++ collect earlier fs) gs ++ later) fs ms where
  distinct := h.distinct
  table := by rw [h.table, collect_append]; simp
  lt g hg m hm := h.lt g hg m (List.mem_append.2 (.inl hm))
  le g hg m hm := by
    rcases List.mem_append.1 hg with hg | hg
    · exact ((List.pairwise_append.1 h.order).2.2 m hm _ (exists_mark hgs hg)).le rfl
    · exact h.le g hg m (List.mem_append.2 (.inl hm))
  order := (List.pairwise_append.1 h.order).1

theorem right (h : Reached T earlier later (fs ++ gs) (ms ++ ns))
    (hfs : (fs.map mark).Sublist ms) :
    Reached T (earlier ++ collect earlier fs) later gs ns where
  distinct := h.distinct
  table := by rw [h.table, collect_append]; simp
  lt g hg m hm := by
    rcases List.mem_append.1 hg with hg | hg
    · exact h.lt g hg m (List.mem_append.2 (.inr hm))
    · exact ((List.pairwise_append.1 h.order).2.2 _ (exists_mark hfs hg) m hm).lt rfl
  le g hg m hm := h.le g hg m (List.mem_append.2 (.inr hm))
  order := (List.pairwise_append.1 h.order).2.1

/-- Where no function is declared, the log and the offsets agree. -/
theorem extendsAt (h : Reached T earlier later [] ms) :
    ExtendsAt (earlier.map Nested.entry) (extras T) ms := by
  intro m hm
  have htable : T = earlier ++ later := by simpa [collect] using h.table
  rw [htable]
  exact trees_extras (htable ▸ h.distinct) (fun g hg => h.lt g hg m hm) fun g hg => h.le g hg m hm

end Reached

section Statements

variable {T : List Nested}

/-- A function of the table with the trees of its body. -/
def Nested.entered (T : List Nested) (g : Nested) : Entry × List Stmt :=
  (g.entry, Code.Stmt.trees (codes (extras T) true g.body))

/-- Entering functions of the table adds them to the log. -/
theorem log_append {l : TreeLifting.Lifted} {earlier added : List Nested}
    (h : added.map (Nested.entered T) = l.entered.map respelledBody) :
    earlier.map Nested.entry ++ l.log = (earlier ++ added).map Nested.entry := by
  have hlog := congrArg (List.map Prod.fst) h
  rw [List.map_map, List.map_map] at hlog
  rw [List.map_append, TreeLifting.Lifted.log]
  exact congrArg _ hlog.symm

mutual

theorem stmt_code {nested : Bool} {earlier later : List Nested} (s : Stmt) (hs : s.Supported)
    (h : Reached T earlier later (s.nestedFunctions nested) s.landmarks) :
    Code.Stmt.trees (s.code (extras T) nested) =
        (TreeLifting.stmt nested (earlier.map Nested.entry) s).kept.map respelled ∧
      (collect earlier (s.nestedFunctions nested)).map (Nested.entered T) =
        (TreeLifting.stmt nested (earlier.map Nested.entry) s).entered.map respelledBody := by
  cases s with
  | vars _ _ kind ds => exact ⟨declarators_code kind ds hs h.extendsAt, rfl⟩
  | function head body =>
    cases nested with
    | true =>
      have hpassed : TreeLifting.passed (earlier.map Nested.entry) =
          captures earlier head.range.start := by
        have hdistinct := h.distinct
        rw [h.table, List.append_assoc] at hdistinct
        exact passed_eq_captures hdistinct.left fun g hg => h.lt g hg _ List.mem_cons_self
      have hinner : Reached T (earlier ++ collect earlier [(head, body)]) later
          (nestedFunctionsOfList true body) (landmarksOfList body) :=
        Reached.right (show Reached T earlier later _ ([mark (head, body)] ++ _) from h) (.refl _)
      obtain ⟨hkept, hentered⟩ := stmts_code body hs.2 hinner
      have hlog : (earlier ++ collect earlier [(head, body)]).map Nested.entry =
          earlier.map Nested.entry ++
            [TreeLifting.entry (earlier.map Nested.entry) head body] := by
        rw [TreeLifting.entry, hpassed, List.map_append]
        rfl
      rw [hlog] at hkept hentered
      refine ⟨rfl, ?_⟩
      simp only [nestedFunctions, ↓reduceIte, List.singleton_append, collect, List.map_cons,
        TreeLifting.stmt, ← hentered, respelledBody, ← hkept]
      rw [TreeLifting.entry, hpassed]
      rfl
    | false =>
      obtain ⟨hkept, hentered⟩ := stmts_code body hs.2 (h.mono (List.sublist_cons_self _ _))
      refine ⟨?_, hentered⟩
      simp only [Stmt.code, Bool.false_eq_true, ↓reduceIte, Code.Stmt.trees, Code.Stmt.tree, hkept,
        TreeLifting.stmt, List.map_cons, List.map_nil, respelled, clear, clear_head hs.1,
        clearList_eq_map]
      rfl
  | block _ body =>
    obtain ⟨hkept, hentered⟩ := stmts_code body hs h
    refine ⟨?_, hentered⟩
    simp only [Stmt.code, Code.Stmt.trees, Code.Stmt.tree, hkept, TreeLifting.stmt, List.map_cons,
      List.map_nil, respelled, clear, clearList_eq_map]
    rfl
  | expression _ e =>
    refine ⟨?_, rfl⟩
    simp only [Stmt.code, Code.Stmt.trees, Code.Stmt.tree, expr_code e hs h.extendsAt]
    rfl
  | return_ _ e =>
    refine ⟨?_, rfl⟩
    simp only [Stmt.code, Code.Stmt.trees, Code.Stmt.tree, expr?_code e hs h.extendsAt]
    rfl
  | empty _ | other n => exact hs.elim

/-- Lifting gives the code by offsets, and enters the functions of the table one after another. -/
theorem stmts_code {nested : Bool} {earlier later : List Nested} (ss : List Stmt)
    (hs : SupportedList ss)
    (h : Reached T earlier later (nestedFunctionsOfList nested ss) (landmarksOfList ss)) :
    Code.Stmt.trees (codes (extras T) nested ss) =
        (TreeLifting.stmts nested (earlier.map Nested.entry) ss).kept.map respelled ∧
      (collect earlier (nestedFunctionsOfList nested ss)).map (Nested.entered T) =
        (TreeLifting.stmts nested (earlier.map Nested.entry) ss).entered.map respelledBody := by
  cases ss with
  | nil => exact ⟨rfl, rfl⟩
  | cons s ss =>
    obtain ⟨hkept, hentered⟩ := stmt_code s hs.1 (Reached.left h (marksOfList_sublist nested ss))
    obtain ⟨hkept', hentered'⟩ := stmts_code ss hs.2 (Reached.right h (marks_sublist nested s))
    rw [← log_append hentered] at hkept' hentered'
    constructor
    · rw [codes, Code.Stmt.trees_append, hkept, hkept', TreeLifting.stmts, List.map_append]
    · rw [nestedFunctionsOfList, collect_append, List.map_append, hentered, hentered',
        TreeLifting.stmts, List.map_append]

end

end Statements

/-! ## Tables -/

theorem mem_nestedFunctions {ss : List Stmt} {g : Nested} (hg : g ∈ table ss) :
    (g.head, g.body) ∈ nestedFunctionsOfList false ss := by
  have hmem := List.mem_map_of_mem (f := fun g : Nested => (g.head, g.body)) hg
  rwa [table, map_collect] at hmem

/-- The table of a program that can be lifted, whose nested functions have distinct names. -/
theorem isDistinct_table {ss : List Stmt} (hs : SupportedList ss)
    (hnames : (nestedNamesOfList false ss).Nodup) : IsDistinct (table ss) := by
  have hheads := supported_of_nestedOfList false ss hs
  refine ⟨?_, fun g hg => ?_⟩
  · have hall : nestedNamesOfList false ss = (table ss).map Nested.name := by
      rw [nestedNamesOfList_eq, ← map_collect [] (nestedFunctionsOfList false ss),
        List.filterMap_map, ← List.filterMap_eq_map]
      apply List.filterMap_congr
      intro g hg
      obtain ⟨x, hx, -⟩ := (hheads _ (mem_nestedFunctions hg)).name
      simp [Nested.name, hx]
    rwa [← hall]
  · have hparams := (hheads _ (mem_nestedFunctions hg)).params
    rw [Nested.params, Nested.arity, List.length_filterMap_eq_countP, List.countP_eq_length]
    exact hparams

/-- What a function captures depends only on the functions that start before it. -/
theorem captured_of_order (fs : List (FunctionHead × List Stmt)) (earlier : List Nested)
    (horder : (earlier ++ collect earlier fs).Pairwise (·.start < ·.start)) :
    ∀ g ∈ collect earlier fs, g.captured =
      FreeNames.ofFunction (captures (earlier ++ collect earlier fs) g.start) g.head g.body := by
  induction fs generalizing earlier with
  | nil => exact fun g hg => absurd hg (List.not_mem_nil)
  | cons f fs ih =>
    rw [collect] at horder ⊢
    generalize hfirst : (⟨f.1, f.2, FreeNames.ofFunction (captures earlier f.1.range.start) f.1 f.2⟩ :
      Nested) = first at horder ⊢
    have hrest := ih (earlier ++ [first])
    rw [List.append_assoc, List.singleton_append] at hrest
    rw [List.forall_mem_cons]
    refine ⟨?_, hrest horder⟩
    obtain ⟨-, hlater, hbetween⟩ := List.pairwise_append.1 horder
    have hlt : ∀ g ∈ earlier, g.start < first.start := fun g hg => hbetween g hg _ List.mem_cons_self
    have hle : ∀ g ∈ first :: collect (earlier ++ [first]) fs, first.start ≤ g.start := by
      intro g hg
      rcases List.mem_cons.1 hg with rfl | hg
      · exact Nat.le_refl _
      · exact Nat.le_of_lt ((List.pairwise_cons.1 hlater).1 g hg)
    have hcaptures : captures (earlier ++ first :: collect (earlier ++ [first]) fs) first.start =
        captures earlier first.start := by
      funext callee count
      have halone : before? earlier first.start callee = earlier.find? fun g => g.name = callee := by
        rw [← before?_append hlt (List.forall_mem_nil _) callee, List.append_nil]
      rw [captures, captures, before?_append hlt hle, halone]
    rw [hcaptures, ← hfirst]
    rfl

/-- A function is found under its name by the calls after it. -/
theorem before?_eq_self {T : List Nested} (hT : IsDistinct T) {g : Nested} (hg : g ∈ T) {offset : Nat}
    (hlt : g.start < offset) : before? T offset g.name = some g := by
  cases hfound : before? T offset g.name with
  | none =>
    rw [before?, List.find?_eq_none] at hfound
    exact absurd (by simp [hlt]) (hfound g hg)
  | some f =>
    have hname := List.find?_some hfound
    simp only [Bool.and_eq_true, decide_eq_true_eq] at hname
    rw [hT.eq_of_name (List.mem_of_find?_eq_some hfound) hg hname.1]

/-- A call with no more arguments than parameters fills the parameters left out, and passes the
captured names after them. -/
theorem captured_places {T : List Nested} (hT : IsDistinct T) {g : Nested} (hg : g ∈ T) {offset : Nat}
    (hlt : g.start < offset) {args : List Code.Expr} (hargs : args.length ≤ g.arity) :
    (args ++ extras T offset g.name args.length).length = g.arity + g.captured.length ∧
      ∀ (i : Nat) (x : String), g.captured[i]? = some x →
        (args ++ extras T offset g.name args.length)[g.arity + i]? = some (.name x) := by
  have hextras : extras T offset g.name args.length =
      List.replicate (g.arity - args.length) Code.Expr.undefined ++
        g.captured.map Code.Expr.name := by
    rw [extras, before?_eq_self hT hg hlt, elim_some, List.drop_append, List.drop_replicate,
      List.length_replicate, Nat.sub_eq_zero_of_le hargs, List.drop_zero]
  rw [hextras]
  constructor
  · simp only [List.length_append, List.length_replicate, List.length_map]
    omega
  · intro i x hx
    have hfilled : (args ++ List.replicate (g.arity - args.length) Code.Expr.undefined).length =
        g.arity := by
      simp only [List.length_append, List.length_replicate]
      omega
    rw [← List.append_assoc, List.getElem?_append_right (by omega), hfilled,
      Nat.add_sub_cancel_left, List.getElem?_map, hx, map_some]

end Augmentation

/-- The statements of a text are in order. -/
theorem Parsed.inOrder {file text : String}
    (hsup : SupportedList (Parsed.ofText file text).program.statements) :
    (landmarksOfList (Parsed.ofText file text).program.statements).Pairwise
      Landmark.Precedes := by
  cases hrun : Grammar.run? text with
  | none =>
    have hempty : (Parsed.ofText file text).program.statements = [] := by
      rw [Parsed.ofText, hrun]
      rfl
    rw [hempty]
    exact .nil
  | some result =>
    obtain ⟨statements, s⟩ := result
    have hread : (Parsed.ofText file text).program.statements = statements := by
      rw [Parsed.ofText, hrun]
      rfl
    rw [hread] at hsup ⊢
    exact (Grammar.inOrder_of_run? hrun hsup).order

namespace Lifting

open Augmentation

/-- The code and the functions of a lifted program, by where calls and functions start. -/
structure ExtendsByOffset (statements : List Stmt) (code : List Code.Stmt)
    (functions : List (LiftedFunction (List Code.Stmt))) : Prop where
  /-- Every call of the statements that stay is extended by its offset. -/
  code_eq : code = codes (extras (table statements)) false statements ++
    functions.map declaration
  /-- The functions are the nested ones in the order of the text, and so is every call in them. -/
  functions_eq : functions = (table statements).map (Nested.lifted (extras (table statements)))
  /-- What a function captures is found when it is met: calls in it pass on what belongs to the
  functions that start before it. -/
  captured : ∀ g ∈ table statements, g.captured =
    FreeNames.ofFunction (captures (table statements) g.start) g.head g.body
  /-- A call is written with its own arguments and those added, and commas only between them. -/
  text : ∀ range id args, ((Expr.call range false (.ident id) args).code
      (extras (table statements))).text =
    id.name ++ "(" ++ ", ".intercalate ((Expr.codes (extras (table statements)) args ++
      extras (table statements) range.start id.name args.length).map Code.Expr.text) ++ ")"
  /-- A call after the function with no more arguments than parameters passes all captured names,
  each in the place of its parameter. -/
  places : ∀ g ∈ table statements, ∀ (offset : Nat) (args : List Code.Expr), g.start < offset →
    args.length ≤ g.arity →
      (args ++ extras (table statements) offset g.name args.length).length =
          g.arity + g.captured.length ∧
        ∀ (i : Nat) (x : String), g.captured[i]? = some x →
          (args ++ extras (table statements) offset g.name args.length)[g.arity + i]? =
            some (.name x)

theorem texts_eq_map (es : List Code.Expr) : Code.Expr.texts es = es.map Code.Expr.text := by
  induction es with
  | nil => rfl
  | cons e es ih => rw [Code.Expr.texts, ih, List.map_cons]

/-- **Calls are extended by their offsets.** In a text that can be lifted and whose nested functions
have distinct names, a call passes what belongs to the nested function of its name that starts
before the call, and nothing more if there is none. -/
theorem extends_calls_by_offset {file text : String} {r r' : Functions} {code : List Code.Stmt}
    (h : program (Parsed.ofText file text).program r = (.ok code, r'))
    (hnames :
      (Stmt.nestedNamesOfList false (Parsed.ofText file text).program.statements).Nodup) :
    ExtendsByOffset (Parsed.ofText file text).program.statements code r'.functions := by
  have hsup := program_supported h
  have horder := Parsed.inOrder hsup
  generalize (Parsed.ofText file text).program = p at h hnames hsup horder ⊢
  have hT := isDistinct_table hsup hnames
  have hreached : Reached (table p.statements) [] []
      (Stmt.nestedFunctionsOfList false p.statements) (Stmt.landmarksOfList p.statements) :=
    ⟨hT, by simp [table], nofun, nofun, horder⟩
  obtain ⟨rfl, hfunctions⟩ := program_determined h
  obtain ⟨hkept, hentered⟩ := stmts_code p.statements hsup hreached
  rw [List.map_nil] at hkept hentered
  have hnodup :
      ((TreeLifting.stmts false [] p.statements).entered.map (·.1.name)).Nodup := by
    have hmap := congrArg (List.map (·.1.name)) hentered
    rw [List.map_map, List.map_map] at hmap
    exact hmap ▸ hT.names
  rw [TreeLifting.lastOfEach_of_nodup hnodup] at hfunctions
  refine ⟨?_, ?_, ?_, ?_, fun g hg offset args hlt hargs => captured_places hT hg hlt hargs⟩
  · rw [keptOf, ← hkept, Code.Stmt.ofTrees_trees]
  · have hback := congrArg (List.map fun f : TreeLifting.Entry × List Stmt =>
      (⟨f.1.name, f.1.params, f.1.captured, some (Code.Stmt.ofTrees f.2)⟩ :
        LiftedFunction (List Code.Stmt))) hentered
    simp only [List.map_map, Function.comp_def, Nested.entered, Code.Stmt.ofTrees_trees] at hback
    exact hfunctions.trans hback.symm
  · have hstarts : (table p.statements).Pairwise (·.start < ·.start) := by
      have hmarks := horder.sublist (marksOfList_sublist false p.statements)
      rw [← map_collect [] (Stmt.nestedFunctionsOfList false p.statements), List.map_map,
        List.pairwise_map] at hmarks
      exact hmarks.imp fun hlt => hlt.lt rfl
    have hcaptured := captured_of_order (Stmt.nestedFunctionsOfList false p.statements) []
    rw [List.nil_append] at hcaptured
    exact hcaptured hstarts
  · intro range id args
    rw [Expr.code, Code.Expr.text, texts_eq_map]
    rfl

/-- Calls before and after the functions they call, in and below them, and with too few and too many
arguments. -/
def orderText : String :=
  "function f(a)\x7bfunction g(b)\x7breturn a+b\x7dreturn g(h(),2)-g()*h(1);" ++
    "function h()\x7breturn g(a,a,a)+h()\x7d\x7dg(h(f(1)))"

/-- What it is lifted to, without indentation and ends of lines. -/
def orderLifted : String :=
  "function f(a) \x7breturn (g(h(), 2)) - ((g(void 0, a)) * (h(1)));\x7dg(h(f(1), a, h), a);" ++
    "function g(b, a) \x7breturn (a) + (b);\x7d" ++
    "function h(g, a, h) \x7breturn (g(a, a, a)) + (h(g, a, h));\x7d"

theorem extends_calls_by_offset_order :
    (∃ code r', program (Parsed.ofText "a" orderText).program {} = (.ok code, r') ∧
      ExtendsByOffset (Parsed.ofText "a" orderText).program.statements code r'.functions) ∧
    (Stmt.nestedNamesOfList false (Parsed.ofText "a" orderText).program.statements).Nodup ∧
    (Lifting.text ⟨"", "", false⟩ (Parsed.ofText "a" orderText).program {}).1 = .ok orderLifted := by
  have hnames :
      (Stmt.nestedNamesOfList false (Parsed.ofText "a" orderText).program.statements).Nodup := by
    decide +kernel
  have hsup : Stmt.SupportedList (Parsed.ofText "a" orderText).program.statements :=
    (Stmt.obstaclesOfList_eq_nil _).1 (by decide +kernel)
  obtain ⟨code, r', h⟩ := exists_program_ok hsup {}
  exact ⟨⟨code, r', h, extends_calls_by_offset h hnames⟩, hnames, ok_of_toOption (by decide +kernel)⟩

end Lifting

end LambdaLift
