import LambdaLift.Proofs.Lifting.Context

/-!
# Places in a program

* `Scene`, `Spot`: what is the same all over a function, and a place in it.
* `Static`: statements that can be run at a place. It passes from statements to the statements after
  the first one, and to those of a block.
* `Static.functionOk`: a declared function can be called.
* `FunctionOk.static_body`: the body of a function can be run at the place where it starts.
-/

namespace LambdaLift

open TreeLifting List

namespace Behaviour

open TreeLifting (Entry latest? passed)
open FreeReads (ofExpr ofExpr? ofDeclarators ofStmt ofStmts paramNames)
open Captures (noCalls)
open Execution (varNames varNamesOfList)

/-! ## Places -/

/-- What is the same at all places of one function, or outside of functions. -/
structure Scene where
  /-- The functions of the program that are lifted. -/
  all : LiftedFunctions
  /-- Whether the place is in a function. -/
  nested : Bool
  /-- The number of scopes around the function. -/
  base : Nat
  /-- The names that lifted code of the function may use. -/
  available : String → Prop
  /-- The name of the function. -/
  self : Option String

/-- A place. -/
structure Spot where
  context : Context
  depth : Nat
  log : List Entry
  visible : Visible
  /-- The names that are bound in the lifted function. -/
  bound : List String

/-- The item of a variable that is declared where `depth` scopes are open. -/
def variableItem (depth : Nat) (x : String) : Item :=
  ⟨x, depth, .variable_⟩

/-- A place at which the names mean what the context says. -/
structure Spot.Valid (c : Scene) (q : Spot) : Prop where
  wellFormed : WellFormed c.all q.context
  distinct : q.context.names.Nodup
  depth : ∀ a ∈ q.context, a.depth ≤ q.depth
  base : c.base < q.depth
  knows : Knows q.log q.context
  logged : ∀ e ∈ q.log, ∃ f ∈ c.all, f.1 = e
  covers : Covers q.context q.visible
  own : ∀ x ∈ q.visible.own, ∃ a ∈ q.context, a.name = x ∧ a.meaning = .variable_ ∧ c.base < a.depth
  bound : ∀ x ∈ q.bound, c.available x
  outside : c.nested = false → ∀ a ∈ q.context, ¬ a.IsNested

/-- Statements at a place. -/
structure Static (c : Scene) (q : Spot) (ss : List Stmt) : Prop where
  supported : Stmt.SupportedList ss
  visible : Stmt.ScopedList q.visible ss
  arity : FewArguments c.all (Stmt.callsOfList ss)
  entered : ∀ f ∈ (stmts c.nested q.log ss).entered, f ∈ c.all
  distinct : (q.context.names ++ introducedOfList ss).Nodup
  hoisted : ∀ x ∈ varNamesOfList ss, variableItem (c.base + 1) x ∈ q.context
  reads : ∀ x ∈ ofStmts (noCalls c.self) q.bound (stmts c.nested q.log ss).kept,
    c.available x
  declared : ∀ x ∈ varNamesOfList ss ++ introducedOfList ss, c.available x
  unlifted : ∀ x ∈ Stmt.variablesOfList ss, x ∉ c.all.map (·.1.name)
  outer : c.nested = false → ∀ f ∈ Stmt.outerFunctionsOfList ss, ∀ m ∈ f.1.name?,
    m ∉ c.all.map (·.1.name)

/-! ## From place to place -/

namespace Spot

/-- After the declaration of a variable. -/
def declare (q : Spot) (kind : VarKind) (x : String) : Spot :=
  { q with
    context := if kind.isBlockScoped then variableItem q.depth x :: q.context else q.context
    visible := q.visible.declare [x]
    bound := x :: q.bound }

/-- The function that is declared at a place. -/
def fn (q : Spot) (nested : Bool) (head : FunctionHead) (body : List Stmt) : Fn :=
  ⟨head, body, nested, q.log⟩

/-- The item of the function that is declared at a place. -/
def item (q : Spot) (nested : Bool) (head : FunctionHead) (body : List Stmt) : Item :=
  ⟨head.name?.getD "", q.depth, .function (q.fn nested head body)⟩

/-- After the declaration of a function. -/
def function (q : Spot) (nested : Bool) (head : FunctionHead) (body : List Stmt) : Spot :=
  { q with
    context := q.item nested head body :: q.context
    log := (q.fn nested head body).inner ++ (q.fn nested head body).lifted.log
    visible := q.visible.named head.name?.toList
    bound := if nested then q.bound else head.name?.toList ++ q.bound }

/-- In a block. -/
def deeper (q : Spot) : Spot :=
  { q with depth := q.depth + 1 }

/-- After a block. -/
def past (q : Spot) (nested : Bool) (body : List Stmt) : Spot :=
  { q with log := q.log ++ (stmts nested q.log body).log }

end Spot

section Steps

variable {c : Scene} {q : Spot}

theorem Spot.Valid.latest?_eq_none (h : q.Valid c) {x : String}
    (hx : x ∉ c.all.map (·.1.name)) : latest? q.log x = none := by
  rw [Captures.latest?_eq_none]
  intro hlog
  obtain ⟨e, he, rfl⟩ := mem_map.1 hlog
  obtain ⟨f, hf, rfl⟩ := h.logged e he
  exact hx (mem_map_of_mem hf)

theorem Covers.cons {Γ : Context} {v : Visible} (h : Covers Γ v) (a : Item) : Covers (a :: Γ) v where
  vars x hx := by
    obtain ⟨b, hb, hbx⟩ := h.vars x hx
    exact ⟨b, mem_cons_of_mem _ hb, hbx⟩
  functions x hx := by
    obtain ⟨b, hb, hbx⟩ := h.functions x hx
    exact ⟨b, mem_cons_of_mem _ hb, hbx⟩

theorem Covers.declare {Γ : Context} {v : Visible} (h : Covers Γ v) {a : Item} (ha : a ∈ Γ)
    (hmeaning : a.meaning = .variable_) : Covers Γ (v.declare [a.name]) where
  vars x hx := by
    rcases mem_cons.1 hx with rfl | hx
    · exact ⟨a, ha, rfl, hmeaning⟩
    · exact h.vars x hx
  functions := h.functions

/-- A block variable of the place is an item of its own. -/
theorem Spot.Valid.cons (h : q.Valid c) {x : String} (hnew : x ∉ q.context.names)
    (hunlifted : x ∉ c.all.map (·.1.name)) :
    Spot.Valid c { q with context := variableItem q.depth x :: q.context } where
  wellFormed := ⟨h.depth, fun hx => absurd hx hunlifted, fun _ hf => (by cases hf), h.wellFormed⟩
  distinct := nodup_cons.2 ⟨hnew, h.distinct⟩
  depth := forall_mem_cons.2 ⟨Nat.le_refl _, h.depth⟩
  base := h.base
  knows := forall_mem_cons.2 ⟨h.latest?_eq_none hunlifted, h.knows⟩
  logged := h.logged
  covers := h.covers.cons _
  own y hy := by
    obtain ⟨a, ha, hay⟩ := h.own y hy
    exact ⟨a, mem_cons_of_mem _ ha, hay⟩
  bound := h.bound
  outside hnested := forall_mem_cons.2 ⟨by simp [Item.IsNested, variableItem, Meaning.entry?],
    h.outside hnested⟩

/-- A variable of the function around a place may be named. -/
theorem Spot.Valid.show (h : q.Valid c) {a : Item} (ha : a ∈ q.context)
    (hmeaning : a.meaning = .variable_) (hdepth : c.base < a.depth)
    (havailable : c.available a.name) :
    Spot.Valid c { q with visible := q.visible.declare [a.name], bound := a.name :: q.bound } where
  wellFormed := h.wellFormed
  distinct := h.distinct
  depth := h.depth
  base := h.base
  knows := h.knows
  logged := h.logged
  covers := h.covers.declare ha hmeaning
  own y hy := by
    rcases mem_cons.1 hy with rfl | hy
    · exact ⟨a, ha, rfl, hmeaning, hdepth⟩
    · exact h.own y hy
  bound := forall_mem_cons.2 ⟨havailable, h.bound⟩
  outside := h.outside

theorem Spot.Valid.declare (h : q.Valid c) {kind : VarKind} {x : String}
    (hnew : kind.isBlockScoped = true → x ∉ q.context.names)
    (hold : kind.isBlockScoped = false → variableItem (c.base + 1) x ∈ q.context)
    (havailable : c.available x) (hunlifted : x ∉ c.all.map (·.1.name)) :
    (q.declare kind x).Valid c := by
  unfold Spot.declare
  cases hkind : kind.isBlockScoped with
  | true =>
    exact (h.cons (hnew hkind) hunlifted).show (mem_cons_self ..) rfl h.base havailable
  | false =>
    exact h.show (hold hkind) rfl (Nat.lt_succ_self _) havailable

theorem Spot.Valid.deeper (h : q.Valid c) : q.deeper.Valid c where
  wellFormed := h.wellFormed
  distinct := h.distinct
  depth a ha := Nat.le_succ_of_le (h.depth a ha)
  base := Nat.lt_succ_of_lt h.base
  knows := h.knows
  logged := h.logged
  covers := h.covers
  own := h.own
  bound := h.bound
  outside := h.outside

/-- Functions that were entered do not change what the names of a place mean. -/
theorem Spot.Valid.past (h : q.Valid c) {body : List Stmt} (hsup : Stmt.SupportedList body)
    (hentered : ∀ f ∈ (stmts c.nested q.log body).entered, f ∈ c.all)
    (hdistinct : (q.context.names ++ introducedOfList body).Nodup) :
    (q.past c.nested body).Valid c where
  wellFormed := h.wellFormed
  distinct := h.distinct
  depth := h.depth
  base := h.base
  knows := by
    refine h.knows.append fun e he hname => ?_
    have hnested : e.name ∈ Stmt.nestedNamesOfList c.nested body :=
      Captures.names_log_stmts c.nested body q.log hsup ▸ mem_map_of_mem he
    exact (nodup_append.1 hdistinct).2.2 e.name hname e.name
      (mem_introducedOfList_of_nested body hnested) rfl
  logged e he := by
    rcases mem_append.1 he with he | he
    · exact h.logged e he
    · obtain ⟨f, hf, rfl⟩ := mem_map.1 he
      exact ⟨f, hentered f hf, rfl⟩
  covers := h.covers
  own := h.own
  bound := h.bound
  outside := h.outside

/-! ## Statements after statements -/

/-- What an expression needs at a place in order to evaluate alike. -/
structure StaticExpr (c : Scene) (q : Spot) (bound : List String) (e : Expr) : Prop where
  supported : e.Supported
  visible : e.Scoped q.visible
  reads : ∀ x ∈ ofExpr (noCalls c.self) bound (expr q.log e), c.available x
  arity : FewArguments c.all e.calls

theorem FewArguments.mono {all : LiftedFunctions} {calls calls' : List (String × Nat)}
    (h : FewArguments all calls) (hsub : ∀ d ∈ calls', d ∈ calls) : FewArguments all calls' :=
  fun d hd => h d (hsub d hd)

/-- The variables of an empty declaration. -/
theorem Static.of_nil {r listRange : Range} {kind : VarKind} {ss : List Stmt}
    (h : Static c q (.vars r listRange kind [] :: ss)) : Static c q ss := by
  have hlifted : stmts c.nested q.log (.vars r listRange kind [] :: ss) =
      stmts c.nested q.log ss := by
    simp [stmts, stmt, Lifted.log]
  have hvarNames : varNames (.vars r listRange kind []) = [] := by cases kind <;> rfl
  have hintroduced : introduced (.vars r listRange kind []) = [] := by simp [introduced]
  refine ⟨h.supported.2, h.visible.2, h.arity, hlifted ▸ h.entered, ?_, ?_, hlifted ▸ h.reads, ?_,
    h.unlifted, h.outer⟩
  · simpa [introducedOfList, hintroduced] using h.distinct
  · simpa [varNamesOfList, hvarNames] using h.hoisted
  · simpa [varNamesOfList, introducedOfList, hvarNames, hintroduced] using h.declared

section Declarator

variable {r listRange : Range} {kind : VarKind} {d : Declarator} {ds : List Declarator}
  {ss : List Stmt} {x : String}

theorem varNamesOfList_declarator (hx : d.target.name? = some x) :
    varNamesOfList (.vars r listRange kind (d :: ds) :: ss) =
      (if kind.isBlockScoped then [] else [x]) ++
        varNamesOfList (.vars r listRange kind ds :: ss) := by
  cases kind <;> simp [varNamesOfList, varNames, VarKind.isBlockScoped, hx]

theorem introducedOfList_declarator (hx : d.target.name? = some x) :
    introducedOfList (.vars r listRange kind (d :: ds) :: ss) =
      (if kind.isBlockScoped then [x] else []) ++
        introducedOfList (.vars r listRange kind ds :: ss) := by
  cases kind <;> simp [introducedOfList, introduced, VarKind.isBlockScoped, hx]

theorem kept_declarator (nested : Bool) (log : List Entry) :
    (stmts nested log (.vars r listRange kind (d :: ds) :: ss)).kept =
      TreeLifting.variable_ log kind d ::
        (stmts nested log (.vars r listRange kind ds :: ss)).kept := by
  simp [stmts, stmt, Lifted.log]

theorem Static.declarator_available (h : Static c q (.vars r listRange kind (d :: ds) :: ss))
    (hx : d.target.name? = some x) : c.available x := by
  refine h.declared x ?_
  rw [varNamesOfList_declarator hx, introducedOfList_declarator hx]
  cases kind.isBlockScoped <;> simp

/-- The place after a variable is declared. -/
theorem Static.valid_declarator (h : Static c q (.vars r listRange kind (d :: ds) :: ss))
    (hq : q.Valid c) (hx : d.target.name? = some x) : (q.declare kind x).Valid c := by
  have hdistinct := h.distinct
  have hhoisted := h.hoisted
  rw [introducedOfList_declarator hx] at hdistinct
  rw [varNamesOfList_declarator hx] at hhoisted
  refine hq.declare ?_ ?_ (h.declarator_available hx) ?_
  · intro hkind hmem
    rw [hkind, if_pos rfl] at hdistinct
    exact (nodup_append.1 hdistinct).2.2 x hmem x (mem_append.2 (.inl (by simp))) rfl
  · intro hkind
    exact hhoisted x (by simp [hkind])
  · exact h.unlifted x (by simp [Stmt.variablesOfList, Stmt.variables, hx])

/-- The initial value of a variable. -/
theorem Static.init_declarator (h : Static c q (.vars r listRange kind (d :: ds) :: ss))
    (hx : d.target.name? = some x) {e : Expr} (he : d.init = some e) :
    StaticExpr c q (x :: q.bound) e where
  supported := (h.supported.1 d (mem_cons_self ..)).2 e he
  visible := h.visible.1.1 e he
  reads y hy := by
    refine h.reads y ?_
    rw [kept_declarator, ofStmts]
    refine mem_append.2 (.inl ?_)
    simpa [TreeLifting.variable_, ofStmt, ofDeclarators, hx, he, ofExpr?] using hy
  arity := h.arity.mono fun a ha => by
    simp [Stmt.callsOfList, Stmt.calls, he, ha]

/-- What follows a declared variable. -/
theorem Static.tail_declarator (h : Static c q (.vars r listRange kind (d :: ds) :: ss))
    (hx : d.target.name? = some x) :
    Static c (q.declare kind x) (.vars r listRange kind ds :: ss) where
  supported := ⟨fun d' hd' => h.supported.1 d' (mem_cons_of_mem _ hd'), h.supported.2⟩
  visible := by
    have hvisible := h.visible
    simp only [Stmt.ScopedList, Stmt.Scoped, Declarator.ScopedList, Visible.after, hx,
      Option.toList_some, foldl_cons] at hvisible
    exact ⟨hvisible.1.2, hvisible.2⟩
  arity := h.arity.mono fun a ha => by
    simp only [Stmt.callsOfList, Stmt.calls, flatMap_cons, mem_append] at ha ⊢
    exact ha.imp_left .inr
  entered := by
    simpa [stmts, stmt, Lifted.log, Spot.declare] using h.entered
  distinct := by
    have hdistinct := h.distinct
    rw [introducedOfList_declarator hx] at hdistinct
    unfold Spot.declare
    cases hkind : kind.isBlockScoped with
    | true =>
      simp only [hkind, if_true, singleton_append] at hdistinct
      exact perm_middle.nodup_iff.1 hdistinct
    | false => simpa [hkind] using hdistinct
  hoisted y hy := by
    have hold : variableItem (c.base + 1) y ∈ q.context := h.hoisted y (by
      rw [varNamesOfList_declarator hx]
      exact mem_append.2 (.inr hy))
    unfold Spot.declare
    cases kind.isBlockScoped with
    | true => exact mem_cons_of_mem _ hold
    | false => exact hold
  reads y hy := by
    refine h.reads y ?_
    rw [kept_declarator, ofStmts]
    refine mem_append.2 (.inr ?_)
    simpa [TreeLifting.variable_, FreeReads.binds, FreeReads.targets, hx, Spot.declare] using hy
  declared y hy := by
    refine h.declared y ?_
    rw [varNamesOfList_declarator hx, introducedOfList_declarator hx]
    simp only [mem_append] at hy ⊢
    exact hy.imp .inr .inr
  unlifted y hy := h.unlifted y (by
    simp only [Stmt.variablesOfList, Stmt.variables, filterMap_cons, hx, cons_append,
      mem_cons] at hy ⊢
    exact .inr hy)
  outer hnested f hf := h.outer hnested f hf

end Declarator

section Statement

variable {s : Stmt} {ss : List Stmt}

/-- The statements after a statement, at the place after it. -/
theorem Static.tail (h : Static c q (s :: ss)) {q' : Spot}
    (hlog : q'.log = q.log ++ (stmt c.nested q.log s).log)
    (hvisible : q'.visible = q.visible.after s)
    (hbound : q'.bound =
      FreeReads.bindsAll (stmt c.nested q.log s).kept ++ q.bound)
    (hcontext : ∀ a ∈ q.context, a ∈ q'.context)
    (hdistinct : (q'.context.names ++ introducedOfList ss).Nodup) : Static c q' ss := by
  have hreads := h.reads
  simp only [stmts, FreeReads.ofStmts_append] at hreads
  refine ⟨h.supported.2, hvisible ▸ h.visible.2,
    h.arity.mono fun a ha => mem_append.2 (.inr ha), fun f hf => h.entered f ?_, hdistinct,
    fun x hx => hcontext _ (h.hoisted x (mem_append.2 (.inr hx))), fun x hx => hreads x ?_,
    fun x hx => h.declared x ?_, fun x hx => h.unlifted x (mem_append.2 (.inr hx)),
    fun hnested f hf => h.outer hnested f (mem_append.2 (.inr hf))⟩
  · exact mem_append.2 (.inr (hlog ▸ hf))
  · exact mem_append.2 (.inr (hbound ▸ hlog ▸ hx))
  · simp only [varNamesOfList, introducedOfList, mem_append] at hx ⊢
    exact hx.imp .inr .inr

theorem Static.distinct_tail (h : Static c q (s :: ss)) :
    (q.context.names ++ introducedOfList ss).Nodup :=
  h.distinct.sublist (.append (.refl _) (sublist_append_right ..))

theorem Static.distinct_head (h : Static c q (s :: ss)) :
    (q.context.names ++ introduced s).Nodup :=
  h.distinct.sublist (.append (.refl _) (sublist_append_left ..))

theorem Static.expression {r : Range} {e : Expr} (h : Static c q (.expression r e :: ss)) :
    StaticExpr c q q.bound e ∧ Static c q ss := by
  refine ⟨⟨h.supported.1, h.visible.1, fun x hx => h.reads x (mem_append.2 (.inl hx)),
    h.arity.mono fun a ha => mem_append.2 (.inl ha)⟩, ?_⟩
  exact h.tail (append_nil _).symm rfl rfl (fun _ ha => ha) h.distinct_tail

theorem Static.return_ {r : Range} {e : Option Expr} (h : Static c q (.return_ r e :: ss)) :
    (∀ e' ∈ e, StaticExpr c q q.bound e') ∧ Static c q ss := by
  refine ⟨fun e' he' => ?_, h.tail (append_nil _).symm rfl rfl (fun _ ha => ha) h.distinct_tail⟩
  cases he'
  exact ⟨h.supported.1 e' rfl, h.visible.1 e' rfl,
    fun x hx => h.reads x (mem_append.2 (.inl hx)),
    h.arity.mono fun a ha => mem_append.2 (.inl ha)⟩

/-- The statements of a block. -/
theorem Static.block {r : Range} {body : List Stmt} (h : Static c q (.block r body :: ss)) :
    Static c q.deeper body where
  supported := h.supported.1
  visible := h.visible.1
  arity := h.arity.mono fun a ha => mem_append.2 (.inl ha)
  entered f hf := h.entered f (mem_append.2 (.inl hf))
  distinct := h.distinct_head
  hoisted x hx := h.hoisted x (mem_append.2 (.inl hx))
  reads x hx := h.reads x (mem_append.2 (.inl hx))
  declared x hx := h.declared x (by
    simp only [varNamesOfList, introducedOfList, varNames, introduced, mem_append] at hx ⊢
    exact hx.imp .inl .inl)
  unlifted x hx := h.unlifted x (mem_append.2 (.inl hx))
  outer hnested f hf := h.outer hnested f (mem_append.2 (.inl hf))

/-- The statements after a block. -/
theorem Static.past {r : Range} {body : List Stmt} (h : Static c q (.block r body :: ss))
    (hq : q.Valid c) :
    (q.past c.nested body).Valid c ∧ Static c (q.past c.nested body) ss :=
  ⟨hq.past h.block.supported h.block.entered h.block.distinct,
    h.tail rfl rfl rfl (fun _ ha => ha) h.distinct_tail⟩

end Statement

/-! ## Declared functions -/

section Function

variable {head : FunctionHead} {body ss : List Stmt}

theorem Fn.lifted_fn (q : Spot) (nested : Bool) :
    stmt nested q.log (.function head body) =
      let f := q.fn nested head body
      if nested then { entered := (f.entry, f.lifted.kept) :: f.lifted.entered }
      else { kept := [.function head f.lifted.kept], entered := f.lifted.entered } := by
  cases nested <;> rfl

/-- What calls of a visible name pass on is visible. -/
theorem Spot.Valid.passed_visible (hq : q.Valid c) {b : Item} (hb : b ∈ q.context) {y : String}
    {count : Nat} (hy : y ∈ passed q.log b.name count) : y ∈ q.context.names := by
  rw [TreeLifting.passed, hq.knows b hb] at hy
  obtain ⟨Γ, hsuffix, hwf⟩ := hq.wellFormed.exists_suffix hb
  cases hmeaning : b.meaning with
  | variable_ | print => simp [hmeaning, Meaning.entry?] at hy
  | function g =>
    cases hnested : g.nested with
    | false => simp [hmeaning, Meaning.entry?, hnested] at hy
    | true =>
      simp only [hmeaning, Meaning.entry?, hnested, if_true, Option.elim_some] at hy
      have hcaptured := (hwf.2.2.1 g hmeaning).captured hnested y (mem_of_mem_drop hy)
      exact (hsuffix.map Item.name).subset hcaptured

variable (h : Static c q (.function head body :: ss))
include h

theorem Static.entered_function :
    (∀ g ∈ (q.fn c.nested head body).lifted.entered, g ∈ c.all) ∧
      (c.nested = true →
        ((q.fn c.nested head body).entry, (q.fn c.nested head body).lifted.kept) ∈ c.all) := by
  have hentered : ∀ g ∈ (stmt c.nested q.log (.function head body)).entered, g ∈ c.all :=
    fun g hg => h.entered g (mem_append.2 (.inl hg))
  rw [Fn.lifted_fn] at hentered
  cases hnested : c.nested with
  | true =>
    simp only [hnested, if_true, mem_cons, forall_eq_or_imp] at hentered
    exact ⟨hentered.2, fun _ => hentered.1⟩
  | false =>
    simp only [hnested, Bool.false_eq_true, if_false] at hentered
    exact ⟨hentered, fun hfalse => absurd hfalse (by simp)⟩

theorem Static.distinct_function {name : String} (hname : head.name? = some name) :
    (name :: (q.context.names ++
      (head.paramNames ++ (varNamesOfList body ++ introducedOfList body)))).Nodup := by
  have hdistinct := h.distinct_head
  simp only [introduced, hname, Option.toList_some, singleton_append] at hdistinct
  exact perm_middle.nodup_iff.1 hdistinct

theorem Static.not_mem_function {name : String} (hname : head.name? = some name) :
    name ∉ q.context.names := fun hmem =>
  (nodup_cons.1 (h.distinct_function hname)).1 (mem_append.2 (.inl hmem))

theorem Static.unlifted_function {name : String} (hname : head.name? = some name)
    (hnested : c.nested = false) :
    name ∉ c.all.map (·.1.name) :=
  h.outer hnested (head, body) (mem_append.2 (.inl (mem_singleton.2 rfl))) name hname

theorem Static.knows_function (hq : q.Valid c) :
    Knows (q.fn c.nested head body).inner (q.item c.nested head body :: q.context) := by
  obtain ⟨name, hname, -⟩ := h.supported.1.1.name
  have hentry : (q.fn c.nested head body).entry.name = name := by
    simp [Fn.entry, Spot.fn, entry, hname]
  unfold Fn.inner
  refine forall_mem_cons.2 ⟨?_, ?_⟩
  · simp only [Spot.item, hname, Option.getD_some, Meaning.entry?]
    cases hnested : c.nested with
    | true =>
      rw [hnested] at hentry
      simp only [Spot.fn, if_true] at hentry ⊢
      simp [latest?, hentry]
    | false => exact hq.latest?_eq_none (h.unlifted_function hname hnested)
  · cases hnested : c.nested with
    | true =>
      refine hq.knows.append fun e he hmem => ?_
      rw [mem_singleton.1 he, ← hnested, hentry] at hmem
      exact h.not_mem_function hname hmem
    | false => exact hq.knows

/-- What a nested function captures is visible where it is declared. -/
theorem Static.captured_function (hq : q.Valid c) :
    ∀ x ∈ (q.fn c.nested head body).entry.captured,
      x ∈ Context.names (q.item c.nested head body :: q.context) := by
  obtain ⟨name, hname, -⟩ := h.supported.1.1.name
  have hitem : (q.item c.nested head body).name = name := by simp [Spot.item, hname]
  have hvisible := h.visible.1
  simp only [Stmt.Scoped, hname, Option.toList_some] at hvisible
  have hpassed : ∀ b ∈ q.context, PassedOn (Context.names (q.item c.nested head body :: q.context))
      ⟨passed q.log, head.name?⟩ b.name := fun b hb =>
    ⟨mem_cons_of_mem _ (mem_map_of_mem hb),
      fun _ count z hz => mem_cons_of_mem _ (hq.passed_visible hb hz)⟩
  intro x hx
  refine Seen.stmts ⟨?_, ?_⟩ body hvisible x (FreeNames.mem_ofFunction.1 hx)
  · intro y hy
    rcases mem_append.1 hy with hy | hy
    · exact .inl (mem_reverse.2 hy)
    · obtain ⟨b, hb, rfl, -⟩ := hq.covers.vars y hy
      exact .inr (hpassed b hb)
  · intro y hy
    right
    rcases mem_cons.1 hy with rfl | hy
    · exact ⟨mem_cons.2 (.inl hitem.symm), fun hself => absurd hname hself⟩
    · obtain ⟨b, hb, rfl, -⟩ := hq.covers.functions y hy
      exact hpassed b hb

theorem Static.covers_function (hq : q.Valid c) :
    Covers (q.item c.nested head body :: q.context) (q.visible.named head.name?.toList) := by
  obtain ⟨name, hname, -⟩ := h.supported.1.1.name
  refine ⟨(hq.covers.cons _).vars, fun x hx => ?_⟩
  rw [hname] at hx
  rcases mem_cons.1 hx with rfl | hx
  · exact ⟨_, mem_cons_self .., by simp [Spot.item, hname], by simp [Spot.item]⟩
  · exact (hq.covers.cons _).functions x hx

/-- A function can be called from its declaration on. -/
theorem Static.functionOk (hq : q.Valid c) :
    FunctionOk c.all (q.item c.nested head body) (q.fn c.nested head body) q.context := by
  obtain ⟨name, hname, -⟩ := h.supported.1.1.name
  have hitem : (q.item c.nested head body).name = name := by simp [Spot.item, hname]
  obtain ⟨hentered, hown⟩ := h.entered_function
  refine ⟨by rw [hitem]; exact hname, h.supported.1.1, h.supported.1.2,
    ⟨q.visible.named head.name?.toList, h.visible.1, h.covers_function hq⟩, ?_,
    fun x hx => h.unlifted x (mem_append.2 (.inl hx)),
    h.arity.mono fun a ha => mem_append.2 (.inl ha), hentered, ?_, h.knows_function hq, hown,
    fun _ => h.captured_function hq, hq.outside⟩
  · have hdistinct := h.distinct_function hname
    rw [← hitem] at hdistinct
    exact hdistinct
  · intro e he
    unfold Fn.inner at he
    split at he
    next hnested =>
      rcases mem_append.1 he with he | he
      · exact hq.logged e he
      · rw [mem_singleton.1 he]
        exact ⟨_, hown hnested, rfl⟩
    next => exact hq.logged e he

/-- The place after the declaration of a function. -/
theorem Static.valid_function (hq : q.Valid c) :
    (q.function c.nested head body).Valid c := by
  obtain ⟨name, hname, -⟩ := h.supported.1.1.name
  have hitem : (q.item c.nested head body).name = name := by simp [Spot.item, hname]
  have hok := h.functionOk hq
  have hnew : (q.item c.nested head body).name ∉ q.context.names :=
    hitem ▸ h.not_mem_function hname
  refine ⟨⟨hq.depth, fun hlifted => ?_, fun f hf => ?_, hq.wellFormed⟩,
    nodup_cons.2 ⟨hnew, hq.distinct⟩, forall_mem_cons.2 ⟨Nat.le_refl _, hq.depth⟩, hq.base,
    ?_, fun e he => ?_, h.covers_function hq, fun x hx => ?_, ?_, fun hnested => ?_⟩
  · cases hnested : c.nested with
    | true => simp [Item.IsNested, Spot.item, Meaning.entry?, Spot.fn]
    | false =>
      rw [hitem] at hlifted
      exact absurd hlifted (h.unlifted_function hname hnested)
  · cases hf
    exact hok
  · refine hok.knows.append fun e he hmem => ?_
    have hnested : e.name ∈ Stmt.nestedNamesOfList true body :=
      Captures.names_log_stmts true body _ h.supported.1.2 ▸ mem_map_of_mem he
    exact (nodup_append.1 hok.distinct).2.2 e.name hmem e.name (mem_append.2
      (.inr (mem_append.2 (.inr (mem_introducedOfList_of_nested body hnested))))) rfl
  · rcases mem_append.1 he with he | he
    · exact hok.logged e he
    · obtain ⟨f, hf, rfl⟩ := mem_map.1 he
      exact ⟨f, hok.entered f hf, rfl⟩
  · obtain ⟨a, ha, hax⟩ := hq.own x hx
    exact ⟨a, mem_cons_of_mem _ ha, hax⟩
  · unfold Spot.function
    cases hnested : c.nested with
    | true => exact hq.bound
    | false =>
      refine forall_mem_append.2 ⟨fun x hx => h.declared x ?_, hq.bound⟩
      simp only [introducedOfList, introduced, mem_append]
      exact .inr (.inl (.inl hx))
  · exact forall_mem_cons.2
      ⟨by simp [Item.IsNested, Spot.item, Meaning.entry?, Spot.fn, hnested], hq.outside hnested⟩

/-- The statements after the declaration of a function. -/
theorem Static.tail_function :
    Static c (q.function c.nested head body) ss := by
  obtain ⟨name, hname, -⟩ := h.supported.1.1.name
  have hdistinct : ((name :: q.context.names) ++ introducedOfList ss).Nodup := by
    have hall := h.distinct
    simp only [introducedOfList, introduced, hname, Option.toList_some, cons_append,
      nil_append] at hall
    refine (perm_middle.nodup_iff.1 hall).sublist (.cons_cons _ ?_)
    exact .append (.refl _) (sublist_append_right ..)
  refine h.tail ?_ rfl ?_ (fun _ ha => mem_cons_of_mem _ ha) ?_
  · cases hnested : c.nested <;>
      simp [Spot.function, Spot.fn, Fn.inner, stmt, Lifted.log, Fn.lifted,
        Fn.entry]
  · cases hnested : c.nested <;>
      simp [Spot.function, stmt, FreeReads.bindsAll, FreeReads.binds]
  · simpa [Spot.function, Context.names, Spot.item, hname] using hdistinct

end Function

end Steps

/-! ## Function bodies -/

namespace Fn

/-- The body of a function that the item `a` of the context `a :: Γ` refers to. A lifted function
has of the context only what it captures and the functions that are lifted as well. -/
def scene (f : Fn) (all : LiftedFunctions) (a : Item) (Γ : Context) : Scene where
  all := all
  nested := true
  base := a.depth
  available x := f.nested = true → x ∈ Context.names (a :: Γ) →
    x ∈ f.entry.captured ∨ x ∈ all.map (·.1.name)
  self := f.liftedHead.name?

/-- The variables of a function, its parameters included. -/
def locals (f : Fn) : List String :=
  varNamesOfList f.body ++ f.head.paramNames

/-- The place at the start of the body of a function. -/
def spot (f : Fn) (a : Item) (Γ : Context) (v : Visible) : Spot where
  context := f.locals.map (variableItem (a.depth + 1)) ++ (a :: Γ)
  depth := a.depth + 1
  log := f.inner
  visible := v.enter f.head.paramNames
  bound := paramNames f.liftedHead.params

end Fn

theorem WellFormed.variables {all : LiftedFunctions} {Γ : Context} {d : Nat} (h : WellFormed all Γ)
    (hdepth : ∀ b ∈ Γ, b.depth ≤ d) {xs : List String}
    (hunlifted : ∀ x ∈ xs, x ∉ all.map (·.1.name)) :
    WellFormed all (xs.map (variableItem d) ++ Γ) := by
  induction xs with
  | nil => exact h
  | cons x xs ih =>
    obtain ⟨hx, hxs⟩ := forall_mem_cons.1 hunlifted
    refine ⟨fun b hb => ?_, fun hlifted => absurd hlifted hx, fun _ hf => (by cases hf), ih hxs⟩
    rcases mem_append.1 hb with hb | hb
    · obtain ⟨y, -, rfl⟩ := mem_map.1 hb
      exact Nat.le_refl d
    · exact hdepth b hb

theorem names_variables (d : Nat) (xs : List String) (Γ : Context) :
    Context.names (xs.map (variableItem d) ++ Γ) = xs ++ Γ.names := by
  simp [Context.names, Function.comp_def, variableItem]

section Body

variable {all : LiftedFunctions} {a : Item} {f : Fn} {Γ : Context} {v : Visible}

variable (h : FunctionOk all a f Γ)
include h

theorem FunctionOk.distinct_body :
    ((f.locals ++ Context.names (a :: Γ)) ++ introducedOfList f.body).Nodup := by
  refine (Perm.nodup_iff ?_).1 h.distinct
  rw [perm_iff_count]
  intro x
  simp only [Fn.locals, count_append]
  omega

theorem FunctionOk.params_entry : f.entry.params = f.head.paramNames := by
  have hparams := Captures.paramNames_of_supported h.head
  rw [paramNames, reverse_inj] at hparams
  exact hparams.symm

/-- Names that a function declares are available in it. -/
theorem FunctionOk.available_of_mem {x : String}
    (hx : x ∈ f.head.paramNames ++ (varNamesOfList f.body ++ introducedOfList f.body)) :
    (f.scene all a Γ).available x := fun _ hmem =>
  absurd rfl ((nodup_append.1 h.distinct).2.2 x hmem x hx)

theorem FunctionOk.unlifted_locals :
    ∀ x ∈ f.locals, x ∉ all.map (·.1.name) := by
  intro x hx
  refine h.unlifted x ?_
  rcases mem_append.1 hx with hx | hx
  · exact mem_append.2 (.inr (mem_variablesOfList_of_varNames f.body hx))
  · exact mem_append.2 (.inl hx)

/-- The start of the body of a function. -/
theorem FunctionOk.valid_spot (hwf : WellFormed all (a :: Γ)) (hv : Covers (a :: Γ) v) :
    (f.spot a Γ v).Valid (f.scene all a Γ) := by
  have hdepth := hwf.depth_le
  have hparam : ∀ x ∈ f.head.paramNames, variableItem (a.depth + 1) x ∈ (f.spot a Γ v).context :=
    fun x hx => mem_append.2 (.inl (mem_map_of_mem (mem_append.2 (.inr hx))))
  refine ⟨hwf.variables (fun b hb => Nat.le_succ_of_le (hdepth b hb)) h.unlifted_locals, ?_, ?_,
    Nat.lt_succ_self _, ?_, h.logged, ⟨?_, ?_⟩, ?_, ?_, fun hnested => absurd hnested (by simp [Fn.scene])⟩
  · simp only [Fn.spot, names_variables]
    exact (nodup_append.1 h.distinct_body).1
  · refine forall_mem_append.2 ⟨fun b hb => ?_, fun b hb => Nat.le_succ_of_le (hdepth b hb)⟩
    obtain ⟨y, -, rfl⟩ := mem_map.1 hb
    exact Nat.le_refl _
  · refine forall_mem_append.2 ⟨fun b hb => ?_, h.knows⟩
    obtain ⟨y, hy, rfl⟩ := mem_map.1 hb
    refine Captures.latest?_eq_none.2 fun hlog => h.unlifted_locals y hy ?_
    obtain ⟨e, he, rfl⟩ := mem_map.1 hlog
    obtain ⟨g, hg, rfl⟩ := h.logged e he
    exact mem_map_of_mem hg
  · intro x hx
    rcases mem_append.1 hx with hx | hx
    · exact ⟨_, hparam x hx, rfl, rfl⟩
    · obtain ⟨b, hb, hbx⟩ := hv.vars x hx
      exact ⟨b, mem_append.2 (.inr hb), hbx⟩
  · intro x hx
    obtain ⟨b, hb, hbx⟩ := hv.functions x hx
    exact ⟨b, mem_append.2 (.inr hb), hbx⟩
  · intro x hx
    exact ⟨_, hparam x hx, rfl, rfl, Nat.lt_succ_self _⟩
  · intro x hx hnested hmem
    simp only [Fn.spot, Fn.liftedHead, hnested, if_true, Captures.paramNames_ofNames,
      mem_reverse, h.params_entry, mem_append] at hx
    rcases hx with hx | hx
    · exact h.available_of_mem (mem_append.2 (.inl hx)) hnested hmem
    · exact .inl hx

/-- The body of a function. -/
theorem FunctionOk.static_body (hclosed : ∀ g ∈ all, Captures.Closed (all.map (·.1.name)) g)
    (hv : Stmt.ScopedList (v.enter f.head.paramNames) f.body) :
    Static (f.scene all a Γ) (f.spot a Γ v) f.body where
  supported := h.supported
  visible := hv
  arity := h.arity
  entered := h.entered
  distinct := by
    simp only [Fn.spot, names_variables]
    exact h.distinct_body
  hoisted x hx := mem_append.2 (.inl (mem_map_of_mem (mem_append.2 (.inl hx))))
  reads x hx hnested _ := by
    refine .inr (hclosed _ (h.own hnested) x (FreeNames.mem_ofFunction.2 ?_))
    simpa [Fn.spot, Fn.scene, Fn.liftedHead, hnested, Fn.lifted, noCalls] using hx
  declared x hx := h.available_of_mem (mem_append.2 (.inr hx))
  unlifted x hx := h.unlifted x (mem_append.2 (.inr hx))
  outer hnested := absurd hnested (by simp [Fn.scene])

end Body

end Behaviour

end LambdaLift
