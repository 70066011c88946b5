import LambdaLift.Proofs.Execution.Sequence
import LambdaLift.Proofs.Lifting.Calls

/-!
# Lifted statements run alike

* `Pending`: what a list of statements declares and has not reached yet is in the store.
* `stmts_alike`: statements and those that stay of them run alike.
-/

namespace LambdaLift

namespace Behaviour

open TreeLifting (Entry latest? passed)
open Execution Store List

/-! ## What lifted statements declare -/

section Kept

variable (env : Environment) (log : List Entry)

theorem declarations_variables (kind : VarKind) (r listRange : Range) (ds : List Declarator) :
    declarations env (ds.map (TreeLifting.variable_ log kind)) =
      declarationsOf env (.vars r listRange kind ds) := by
  induction ds with
  | nil => cases hkind : kind.isBlockScoped <;> simp [declarations, declarationsOf, hkind]
  | cons d ds ih =>
    rw [map_cons, declarations, flatMap_cons, ← declarations, ih]
    cases hkind : kind.isBlockScoped <;> cases hx : d.target.name? <;>
      simp [declarationsOf, TreeLifting.variable_, hkind, hx]

theorem map_fst_declarationsOf (s : Stmt) :
    ((declarationsOf env s).map Prod.fst).Sublist (introduced s) := by
  cases s with
  | vars _ _ kind ds =>
    simp only [declarationsOf, introduced]
    split
    · simp [Function.comp_def]
    · exact .refl _
  | function head body =>
    simp only [declarationsOf, introduced, map_map, Function.comp_def, map_id_fun', id_eq]
    exact sublist_append_left ..
  | block _ _ | expression _ _ | return_ _ _ | empty _ | other _ => exact nil_sublist _

/-- What statements declare for their list they introduce. -/
theorem map_fst_declarations (ss : List Stmt) :
    ((declarations env ss).map Prod.fst).Sublist (introducedOfList ss) := by
  induction ss with
  | nil => exact .refl _
  | cons s ss ih =>
    rw [declarations, flatMap_cons, map_append]
    exact (map_fst_declarationsOf env s).append ih

theorem map_fst_declarationsOf_kept (nested : Bool) (s : Stmt) :
    ((declarations env (TreeLifting.stmt nested log s).kept).map Prod.fst).Sublist
      (introduced s) := by
  cases s with
  | vars r listRange kind ds =>
    rw [TreeLifting.stmt, declarations_variables env log kind r listRange]
    exact map_fst_declarationsOf env _
  | function head body =>
    cases nested with
    | true => exact nil_sublist _
    | false =>
      simp only [TreeLifting.stmt, Bool.false_eq_true, if_false, declarations, flatMap_cons,
        flatMap_nil, append_nil, declarationsOf, introduced, map_map,
        Function.comp_def, map_id_fun', id_eq]
      exact sublist_append_left ..
  | block _ _ | expression _ _ | return_ _ _ | empty _ | other _ => exact nil_sublist _

/-- What the statements that stay declare for their list was introduced. -/
theorem map_fst_declarations_kept (nested : Bool) (ss : List Stmt) (log : List Entry) :
    ((declarations env (TreeLifting.stmts nested log ss).kept).map Prod.fst).Sublist
      (introducedOfList ss) := by
  induction ss generalizing log with
  | nil => exact .refl _
  | cons s ss ih =>
    rw [TreeLifting.stmts, declarations_append, map_append]
    exact (map_fst_declarationsOf_kept env log nested s).append (ih _)

theorem mem_declarationsOf_kept {nested : Bool} {s : Stmt} {x : String}
    (h : x ∈ (declarations env (TreeLifting.stmt nested log s).kept).map Prod.fst) :
    x ∈ s.variables ∨ nested = false ∧ ∃ f ∈ s.outerFunctions, f.1.name? = some x := by
  cases s with
  | vars r listRange kind ds =>
    rw [TreeLifting.stmt, declarations_variables env log kind r listRange] at h
    have hmem := (map_fst_declarationsOf env _).subset h
    simp only [introduced] at hmem
    split at hmem
    · exact .inl hmem
    · cases hmem
  | function head body =>
    cases nested with
    | true => cases h
    | false =>
      simp only [TreeLifting.stmt, Bool.false_eq_true, if_false, declarations, flatMap_cons,
        flatMap_nil, append_nil, declarationsOf, map_map, Function.comp_def,
        map_id_fun', id_eq, Option.mem_toList] at h
      exact .inr ⟨rfl, (head, body), mem_singleton.2 rfl, h⟩
  | block _ _ | expression _ _ | return_ _ _ | empty _ | other _ => cases h

/-- Statements that stay in a function declare only variables for their list, outside of functions
they declare functions, too. -/
theorem mem_declarations_kept {nested : Bool} {ss : List Stmt} {x : String} (log : List Entry)
    (h : x ∈ (declarations env (TreeLifting.stmts nested log ss).kept).map Prod.fst) :
    x ∈ Stmt.variablesOfList ss ∨
      nested = false ∧ ∃ f ∈ Stmt.outerFunctionsOfList ss, f.1.name? = some x := by
  induction ss generalizing log with
  | nil => cases h
  | cons s ss ih =>
    rw [TreeLifting.stmts, declarations_append, map_append] at h
    rcases mem_append.1 h with h | h
    · rcases mem_declarationsOf_kept env log h with h | ⟨hnested, f, hf, hx⟩
      · exact .inl (mem_append.2 (.inl h))
      · exact .inr ⟨hnested, f, mem_append.2 (.inl hf), hx⟩
    · rcases ih _ h with h | ⟨hnested, f, hf, hx⟩
      · exact .inl (mem_append.2 (.inr h))
      · exact .inr ⟨hnested, f, mem_append.2 (.inr hf), hx⟩

end Kept

mutual

theorem varNames_kept (nested : Bool) (log : List Entry) (s : Stmt) :
    varNamesOfList (TreeLifting.stmt nested log s).kept = varNames s := by
  cases s with
  | vars r listRange kind ds =>
    exact varNamesOfList_variables kind noRange noRange r listRange
      (f := fun d => { d with init := d.init.map (TreeLifting.expr log) }) (fun _ => rfl) ds
  | function head body =>
    cases nested <;> rfl
  | block r body =>
    simp [TreeLifting.stmt, varNamesOfList, varNames, varNamesOfList_kept nested log body]
  | expression _ _ | return_ _ _ | empty _ | other _ => rfl

/-- The statements that stay have the variables of the function around them. -/
theorem varNamesOfList_kept (nested : Bool) (log : List Entry) (ss : List Stmt) :
    varNamesOfList (TreeLifting.stmts nested log ss).kept = varNamesOfList ss := by
  cases ss with
  | nil => rfl
  | cons s ss =>
    rw [TreeLifting.stmts, varNamesOfList_append, varNames_kept nested log s,
      varNamesOfList_kept nested _ ss, varNamesOfList]

end

/-! ## What has not been reached yet -/

/-- What statements declare for their list is in the innermost scope as it was declared, and the
names of the functions in them are not used in the scopes of the lifted function around them. -/
structure Pending (c : Scene) (p : Place) (log : List Entry) (ss : List Stmt) (s t : Store) :
    Prop where
  source : ∀ d ∈ declarations p.env ss, s.lookup? (innermost p.env) d.1 = some d.2
  target : ∀ d ∈ declarations p.liftedEnv (TreeLifting.stmts c.nested log ss).kept,
    t.lookup? (innermost p.env) d.1 = some d.2
  vacant : c.nested = true → ∀ m ∈ Stmt.nestedNamesOfList true ss, ∀ j ∈ p.own,
    t.lookup? j m = none

section Pending

variable {c : Scene} {p : Place} {log : List Entry} {s : Stmt} {ss : List Stmt}
  {store store' lifted lifted' : Store}

theorem Pending.tail (h : Pending c p log (s :: ss) store lifted) :
    Pending c p (log ++ (TreeLifting.stmt c.nested log s).log) ss store lifted where
  source d hd := h.source d (mem_append.2 (.inr hd))
  target d hd := h.target d (by
    rw [TreeLifting.stmts, declarations_append]
    exact mem_append.2 (.inr hd))
  vacant hnested m hm := h.vacant hnested m (mem_append.2 (.inr hm))

/-- What changes other names does not change what has not been reached. -/
theorem Pending.frame (h : Pending c p log ss store lifted) {names : List String}
    (hnames : ∀ x ∈ introducedOfList ss, x ∉ names) (hown : ∀ j ∈ p.own, j < store.next)
    (hsize : lifted.next = store.next) (hs : Frame p.scope names store store')
    (ht : Frame p.scope names lifted lifted') : Pending c p log ss store' lifted' where
  source d hd := by
    have hx := (map_fst_declarations p.env ss).subset (mem_map_of_mem hd)
    rw [hs.lookup? _ (hown _ p.innermost_mem_own) _ (.inr (hnames _ hx)), h.source d hd]
  target d hd := by
    have hx := (map_fst_declarations_kept p.liftedEnv c.nested ss log).subset
      (mem_map_of_mem hd)
    rw [ht.lookup? _ (hsize ▸ hown _ p.innermost_mem_own) _ (.inr (hnames _ hx)), h.target d hd]
  vacant hnested m hm j hj := by
    have hx := mem_introducedOfList_of_nested ss hm
    rw [ht.lookup? _ (hsize ▸ hown j hj) _ (.inr (hnames _ hx)), h.vacant hnested m hm j hj]

end Pending

/-! ## Places after statements -/

section After

variable {c : Scene} {p : Place} {q : Spot} {s : Stmt} {ss : List Stmt}

theorem Place.Fits.declare (h : p.Fits c q) (kind : VarKind) (x : String) :
    p.Fits c (q.declare kind x) := by
  have hitem : ∀ a ∈ (q.declare kind x).context, ∀ f, a.meaning = .function f → a ∈ q.context := by
    unfold Spot.declare
    cases kind.isBlockScoped with
    | true =>
      refine forall_mem_cons.2 ⟨fun f hf => ?_, fun a ha _ _ => ha⟩
      cases hf
    | false => exact fun a ha _ _ => ha
  exact ⟨h.depth, h.base, h.global, h.last,
    fun hc a ha f hf => h.nested hc a (hitem a ha f hf) f hf,
    fun hc a ha f hf => h.notNested hc a (hitem a ha f hf) f hf⟩

theorem Place.Fits.function (h : p.Fits c q) (head : FunctionHead) (body : List Stmt) :
    p.Fits c (q.function c.nested head body) := by
  refine ⟨h.depth, h.base, h.global, h.last, fun hc => ?_, fun hc => ?_⟩
  · refine forall_mem_cons.2 ⟨fun f _ _ => ?_, h.nested hc⟩
    have htop := p.top_suffix.length_le
    have henv := p.outer_lt_env
    show p.top.length < q.depth
    rw [← h.depth]
    omega
  · refine forall_mem_cons.2 ⟨fun f hf hnested => ?_, h.notNested hc⟩
    cases hf
    rw [Spot.fn, hc] at hnested
    cases hnested

theorem Place.Fits.past (h : p.Fits c q) (body : List Stmt) : p.Fits c (q.past c.nested body) :=
  ⟨h.depth, h.base, h.global, h.last, h.nested, h.notNested⟩

theorem Place.Fits.deeper (h : p.Fits c q) {j : Nat} (hj : p.scope ≤ j) :
    (p.push j hj).Fits c q.deeper where
  depth := congrArg (· + 1) h.depth
  base := h.base
  global := h.global
  last := by
    have hlast := h.last
    show (j :: p.env).getLast? = _
    rw [getLast?_cons, hlast]
    rfl
  nested := h.nested
  notNested := h.notNested

/-- What follows a statement, at the place after it. -/
structure Follows (c : Scene) (p : Place) (q q' : Spot) (s : Stmt) (ss : List Stmt) : Prop where
  valid : q'.Valid c
  static : Static c q' ss
  fits : p.Fits c q'
  log : q'.log = q.log ++ (TreeLifting.stmt c.nested q.log s).log
  context : ∀ a ∈ q.context, a ∈ q'.context
  names : ∀ x ∈ q'.context.names, x ∈ q.context.names ++ introduced s

end After

/-! ## Expressions and variables -/

section Variables

variable {c : Scene} {p : Place} {q : Spot} {calls : Calls} {w w' : World}

theorem During.start {Γ : Context} {names : List String} {s t : Store} (h : Rel c p Γ s t) :
    During c p Γ names s t s t :=
  ⟨h, .refl s, .refl t⟩

theorem During.mono {Γ Γ' : Context} {names names' : List String} {s₀ t₀ s t : Store}
    (h : During c p Γ names s₀ t₀ s t) (hcontext : ∀ a ∈ Γ', a ∈ Γ)
    (hnames : ∀ x ∈ names, x ∈ names') : During c p Γ' names' s₀ t₀ s t :=
  ⟨h.rel.mono hcontext, h.frame.mono hnames, h.liftedFrame.mono hnames⟩

theorem During.trans {Γ Γ' : Context} {names : List String} {s₀ t₀ s₁ t₁ s t : Store}
    (h : During c p Γ names s₀ t₀ s₁ t₁) (h' : During c p Γ' names s₁ t₁ s t) :
    During c p Γ' names s₀ t₀ s t :=
  ⟨h'.rel, h.frame.trans h'.frame, h.liftedFrame.trans h'.liftedFrame⟩

/-- An expression at a place. -/
theorem StaticExpr.alike (hcalls : CallsAlike c.all calls) (hq : q.Valid c) (hp : p.Fits c q)
    {bound : List String} {e : Expr} (he : StaticExpr c q bound e)
    (hbound : ∀ x ∈ bound, c.available x) (hout : w'.output = w.output)
    (hrel : Rel c p q.context w.store w'.store) :
    Agree (Alike Value.IsData (During c p q.context q.context.names w.store w'.store))
      (expr calls p.env e w) (expr calls p.liftedEnv (TreeLifting.expr q.log e) w') := by
  refine expr_alike (bridge hcalls hq hp (fun _ hx => hx) w.store w'.store) hbound e he.supported
    he.visible he.reads ?_ ⟨hout, .start hrel⟩
  intro d hd g hg
  obtain ⟨hname, hmem⟩ := Captures.name_of_latest? hg
  obtain ⟨f, hf, rfl⟩ := hq.logged g hmem
  exact he.arity d hd f hf hname

/-- The value of a block variable on both sides. -/
theorem modifyStore_setInitial {i : Nat} {x : String} {u : Variable} {v : Value}
    (h : w.store.lookup? i x = some u) :
    modifyStore (·.setInitial i x v) w =
      (.ok (), ⟨w.store.declare i x { u with value := some v }, w.output⟩) := by
  change (Except.ok (), { w with store := w.store.setInitial i x v }) = _
  rw [setInitial_of_some h]

section

variable {r listRange : Range} {kind : VarKind} {d : Declarator} {ds : List Declarator}
  {ss : List Stmt} {x : String}

/-- A block variable gets its value on both sides. -/
theorem initial_alike (hstatic : Static c q (.vars r listRange kind (d :: ds) :: ss))
    (hp : p.Fits c q) (hx : d.target.name? = some x) (hkind : kind.isBlockScoped = true)
    {s₀ t₀ : Store} (hpending : Pending c p q.log (.vars r listRange kind (d :: ds) :: ss) s₀ t₀)
    (hbound : ∀ j ∈ p.own, j < s₀.next) (hsize : t₀.next = s₀.next) {v : Value} (hv : v.IsData)
    (h : Joined (During c p q.context q.context.names s₀ t₀) w w') :
    Agree (Alike (fun _ => True) (During c p (q.declare kind x).context
        (q.context.names ++ [x]) s₀ t₀))
      (modifyStore (·.setInitial (innermost p.env) x v) w)
      (modifyStore (·.setInitial (innermost p.liftedEnv) x v) w') := by
  have hdistinct := hstatic.distinct
  rw [introducedOfList_declarator hx, hkind, if_pos rfl] at hdistinct
  have hnew : x ∉ q.context.names := fun hmem =>
    (nodup_append.1 hdistinct).2.2 x hmem x (mem_append.2 (.inl (by simp))) rfl
  have hunlifted : x ∉ c.all.map (·.1.name) :=
    hstatic.unlifted x (by simp [Stmt.variablesOfList, Stmt.variables, hx])
  have hdeclared : (x, ({ value := none, kind := kind.variableKind } : Variable)) ∈
      declarationsOf p.env (.vars r listRange kind (d :: ds)) := by
    simp [declarationsOf, hkind, hx]
  have hs := hpending.source _ (mem_append.2 (.inl hdeclared))
  have ht := hpending.target (x, { value := none, kind := kind.variableKind }) (by
    rw [TreeLifting.stmts, declarations_append, TreeLifting.stmt,
      declarations_variables _ _ kind r listRange]
    exact mem_append.2 (.inl (by simp [declarationsOf, hkind, hx])))
  rw [← h.store.frame.lookup? _ (hbound _ p.innermost_mem_own) x (.inr hnew)] at hs
  rw [← h.store.liftedFrame.lookup? _ (hsize ▸ hbound _ p.innermost_mem_own) x (.inr hnew)] at ht
  obtain ⟨-, -, hinnermost⟩ := p.exists_own
  rw [modifyStore_setInitial hs, hinnermost, modifyStore_setInitial ht]
  have hle : p.scope ≤ innermost p.env := p.scope_le_own _ p.innermost_mem_own
  have hmem : x ∈ q.context.names ++ [x] := mem_append.2 (.inr (mem_singleton.2 rfl))
  refine .ok ⟨rfl, trivial, h.output, ?_, ?_, ?_⟩
  · have hrel := h.store.rel.declare hnew hunlifted hs ht hv
    rw [hp.depth] at hrel
    simpa [Spot.declare, hkind] using hrel
  · exact (h.store.frame.mono fun y hy => mem_append.2 (.inl hy)).trans (.declare hle hmem _)
  · exact (h.store.liftedFrame.mono fun y hy => mem_append.2 (.inl hy)).trans
      (.declare hle hmem _)

/-- The declarator with its initial value lifted. -/
def liftDeclarator (log : List Entry) (d : Declarator) : Declarator :=
  { d with init := d.init.map (TreeLifting.expr log) }

/-- The declaration of one variable. -/
theorem declarator_alike (hcalls : CallsAlike c.all calls)
    (hstatic : Static c q (.vars r listRange kind (d :: ds) :: ss)) (hq : q.Valid c)
    (hp : p.Fits c q) (hx : d.target.name? = some x) (hout : w'.output = w.output)
    (hrel : Rel c p q.context w.store w'.store)
    (hpending : Pending c p q.log (.vars r listRange kind (d :: ds) :: ss) w.store w'.store) :
    Agree (Alike (fun _ => True) (During c p (q.declare kind x).context
        (q.context.names ++ if kind.isBlockScoped then [x] else []) w.store w'.store))
      (declarator calls p.env kind d w)
      (declarator calls p.liftedEnv kind (liftDeclarator q.log d) w') := by
  have hbound : ∀ j ∈ p.own, j < w.store.next := fun j hj => hrel.bound j (p.own_subset_env j hj)
  have hvalid := hstatic.valid_declarator hq hx
  obtain ⟨range, target, init⟩ := d
  cases target with
  | pattern n => cases hx
  | name id =>
    cases hx
    cases hkind : kind.isBlockScoped with
    | true =>
      have hinitial : ∀ {v : Value} {w₁ w₁' : World}, v.IsData →
          Joined (During c p q.context q.context.names w.store w'.store) w₁ w₁' → _ :=
        fun hv h => initial_alike hstatic hp rfl hkind hpending hbound hrel.size hv h
      cases init with
      | none =>
        simp only [declarator, liftDeclarator, Option.map_none, hkind, if_true]
        exact hinitial rfl ⟨hout, .start hrel⟩
      | some e =>
        simp only [declarator, liftDeclarator, Option.map_some, hkind, if_true]
        refine ((hstatic.init_declarator rfl rfl).alike hcalls hq hp hvalid.bound hout hrel).bind ?_
        rintro _ v w₁ w₁' ⟨rfl, hv, h₁⟩
        exact hinitial hv h₁
    | false =>
      have hcontext : (q.declare kind id.name).context = q.context := by
        simp [Spot.declare, hkind]
      rw [hcontext]
      cases init with
      | none =>
        simp only [declarator, liftDeclarator, Option.map_none, hkind, Bool.false_eq_true, if_false,
          append_nil]
        exact .pure ⟨rfl, trivial, hout, .start hrel⟩
      | some e =>
        simp only [declarator, liftDeclarator, Option.map_some, hkind, Bool.false_eq_true, if_false,
          append_nil]
        refine ((hstatic.init_declarator rfl rfl).alike hcalls hq hp hvalid.bound hout hrel).bind ?_
        rintro _ v w₁ w₁' ⟨rfl, hv, h₁⟩
        have hbridge := bridge hcalls hvalid (hp.declare kind id.name) (fun _ hx => hx) w.store
          w'.store
        rw [hcontext] at hbridge
        exact hbridge.write_alike (mem_cons_self ..) hv h₁

theorem introduced_declarator (hx : d.target.name? = some x) :
    introduced (.vars r listRange kind (d :: ds)) =
      (if kind.isBlockScoped then [x] else []) ++ introduced (.vars r listRange kind ds) := by
  cases kind <;> simp [introduced, VarKind.isBlockScoped, hx]

theorem mem_names_declare {y : String} :
    y ∈ (q.declare kind x).context.names ↔
      y ∈ q.context.names ++ if kind.isBlockScoped then [x] else [] := by
  unfold Spot.declare
  cases kind.isBlockScoped with
  | true => simp [Context.names, variableItem, or_comm]
  | false => simp

/-- The variables of a declaration after the first one. -/
theorem Pending.tail_declarator {s t : Store} (hx : d.target.name? = some x)
    (h : Pending c p q.log (.vars r listRange kind (d :: ds) :: ss) s t) :
    Pending c p q.log (.vars r listRange kind ds :: ss) s t where
  source e he := h.source e (by
    rcases mem_append.1 he with he | he
    · refine mem_append.2 (.inl ?_)
      cases hkind : kind.isBlockScoped with
      | true =>
        simp only [declarationsOf, hkind, if_true, filterMap_cons, hx, map_cons] at he ⊢
        exact mem_cons_of_mem _ he
      | false => simp [declarationsOf, hkind] at he
    · exact mem_append.2 (.inr he))
  target e he := h.target e (by
    rw [kept_declarator]
    exact mem_append.2 (.inr he))
  vacant := h.vacant

/-- The variables of a declaration, one after another. -/
theorem declarators_alike (hcalls : CallsAlike c.all calls) (ds : List Declarator) {q : Spot}
    (hstatic : Static c q (.vars r listRange kind ds :: ss)) (hq : q.Valid c) (hp : p.Fits c q) :
    ∃ q', Follows c p q q' (.vars r listRange kind ds) ss ∧ ∀ {w w' : World},
      w'.output = w.output → Rel c p q.context w.store w'.store →
      Pending c p q.log (.vars r listRange kind ds :: ss) w.store w'.store →
      Agree (Alike (fun _ => True) (During c p q'.context
          (q.context.names ++ introduced (.vars r listRange kind ds)) w.store w'.store))
        (declarators calls p.env kind ds w)
        (declarators calls p.liftedEnv kind (ds.map (liftDeclarator q.log)) w') := by
  induction ds generalizing q with
  | nil =>
    refine ⟨q, ⟨hq, hstatic.of_nil, hp, (append_nil _).symm, fun _ ha => ha,
      fun x hx => mem_append.2 (.inl hx)⟩, fun hout hrel _ => ?_⟩
    exact .pure ⟨rfl, trivial, hout, .start hrel⟩
  | cons d ds ih =>
    obtain ⟨x, hx⟩ := Option.isSome_iff_exists.1 (hstatic.supported.1 d (mem_cons_self ..)).1
    have htail := hstatic.tail_declarator hx
    obtain ⟨q', hfollows, hrun⟩ := ih htail (hstatic.valid_declarator hq hx) (hp.declare kind x)
    have hnames : ∀ y ∈ (q.declare kind x).context.names ++ introduced (.vars r listRange kind ds),
        y ∈ q.context.names ++ introduced (.vars r listRange kind (d :: ds)) := by
      intro y hy
      rw [introduced_declarator hx, ← append_assoc]
      rcases mem_append.1 hy with hy | hy
      · exact mem_append.2 (.inl (mem_names_declare.1 hy))
      · exact mem_append.2 (.inr hy)
    refine ⟨q', ⟨hfollows.valid, hfollows.static, hfollows.fits, hfollows.log,
      fun a ha => hfollows.context a ?_, fun y hy => hnames y (hfollows.names y hy)⟩,
      fun {w w'} hout hrel hpending => ?_⟩
    · unfold Spot.declare
      cases kind.isBlockScoped with
      | true => exact mem_cons_of_mem _ ha
      | false => exact ha
    · rw [declarators, map_cons, declarators]
      refine (declarator_alike hcalls hstatic hq hp hx hout hrel hpending).bind ?_
      rintro _ _ w₁ w₁' ⟨-, -, h₁⟩
      have hrest := (hpending.tail_declarator hx).frame (fun y hy hmem => ?_)
        (fun j hj => hrel.bound j (p.own_subset_env j hj)) hrel.size h₁.store.frame
        h₁.store.liftedFrame
      · refine (hrun h₁.output h₁.store.rel hrest).mono ?_
        rintro _ _ w₂ w₂' ⟨-, -, h₂⟩
        refine ⟨rfl, trivial, h₂.output, (h₁.store.mono (fun _ ha => ha) fun y hy => ?_).trans
          (h₂.store.mono (fun _ ha => ha) hnames)⟩
        exact hnames y (mem_append.2 (.inl (mem_names_declare.2 hy)))
      · exact (nodup_append.1 htail.distinct).2.2 y (mem_names_declare.2 hmem) y hy rfl

end

end Variables

/-! ## Statements -/

/-- A value that is returned is not a function. -/
def IsData : Completion → Prop
  | .normal => True
  | .returned v => v.IsData

section Statements

variable {c : Scene} {p : Place} {q : Spot} {calls : Calls} {ss : List Stmt}

/-- The declaration of a function makes it an item. -/
theorem Rel.function {head : FunctionHead} {body : List Stmt} {s t : Store}
    (hstatic : Static c q (.function head body :: ss)) (hp : p.Fits c q)
    (hrel : Rel c p q.context s t) (hpending : Pending c p q.log (.function head body :: ss) s t) :
    Rel c p (q.function c.nested head body).context s t := by
  obtain ⟨name, hname, -⟩ := hstatic.supported.1.1.name
  have hitem : (q.item c.nested head body).name = name := by simp [Spot.item, hname]
  have hs : s.lookup? (innermost p.env) name = some (.ofFunction ⟨p.env, head, body⟩) :=
    hpending.source (name, .ofFunction _) (mem_append.2 (.inl (by simp [declarationsOf, hname])))
  cases hc : c.nested with
  | true =>
    rw [hc] at hitem
    refine hrel.nestedFunction hc rfl rfl hp.depth.symm ?_ ?_ (hitem ▸ hs) ?_
    · simp [Spot.fn, Fn.entry, TreeLifting.entry, Spot.item]
    · have hall := hstatic.entered_function.2 hc
      rwa [hc] at hall
    · rw [hitem]
      refine hpending.vacant hc name ?_
      simp [Stmt.nestedNamesOfList, Stmt.nestedNames, hname]
  | false =>
    rw [hc] at hitem
    obtain ⟨houter, hlifted⟩ := hp.global hc
    have henv : p.liftedEnv = p.env := by rw [Place.liftedEnv, hlifted, Place.env, houter]
    refine hrel.outerFunction houter rfl rfl hp.depth.symm (hitem ▸ hs) ?_
    rw [hitem]
    refine hpending.target (name, .ofFunction _) ?_
    rw [TreeLifting.stmts, declarations_append, henv]
    refine mem_append.2 (.inl ?_)
    simp [TreeLifting.stmt, hc, declarations, declarationsOf, hname, Fn.target, Spot.fn,
      Fn.liftedHead, Fn.lifted, Fn.inner]

theorem function_alike {head : FunctionHead} {body : List Stmt}
    (hstatic : Static c q (.function head body :: ss)) (hq : q.Valid c) (hp : p.Fits c q) :
    ∃ q', Follows c p q q' (.function head body) ss ∧ ∀ {w w' : World},
      w'.output = w.output → Rel c p q.context w.store w'.store →
      Pending c p q.log (.function head body :: ss) w.store w'.store →
      Agree (Alike IsData (During c p q'.context
          (q.context.names ++ introduced (.function head body)) w.store w'.store))
        (stmt calls p.env (.function head body) w)
        (stmts calls p.liftedEnv (TreeLifting.stmt c.nested q.log (.function head body)).kept w') := by
  obtain ⟨name, hname, -⟩ := hstatic.supported.1.1.name
  refine ⟨q.function c.nested head body, ⟨hstatic.valid_function hq, hstatic.tail_function,
    hp.function head body, ?_, fun a ha => mem_cons_of_mem _ ha, fun x hx => ?_⟩,
    fun {w w'} hout hrel hpending => ?_⟩
  · cases hnested : c.nested <;>
      simp [Spot.function, Spot.fn, Fn.inner, TreeLifting.stmt, TreeLifting.Lifted.log, Fn.lifted,
        Fn.entry]
  · rcases mem_cons.1 hx with rfl | hx
    · exact mem_append.2 (.inr (by simp [Spot.item, introduced, hname]))
    · exact mem_append.2 (.inl hx)
  · have hrel' := hrel.function hstatic hp hpending
    have hkept : stmts calls p.liftedEnv
        (TreeLifting.stmt c.nested q.log (.function head body)).kept = pure .normal := by
      cases hnested : c.nested with
      | true => simp [TreeLifting.stmt, stmts]
      | false => simp [TreeLifting.stmt, stmts_singleton, stmt]
    rw [hkept, stmt]
    exact .pure ⟨rfl, trivial, hout, .start hrel'⟩

theorem Rel.scope_le_next {s t : Store} {Γ : Context} (h : Rel c p Γ s t) : p.scope ≤ s.next :=
  Nat.le_of_lt (h.bound _ (p.own_subset_env _ p.scope_mem_own))

/-- Functions that are lifted from a function are not declared by the statements that stay. -/
theorem Static.not_mem_kept (h : Static c q ss) (env : Environment) {m : String}
    (hm : m ∈ c.all.map (·.1.name)) :
    m ∉ (declarations env (TreeLifting.stmts c.nested q.log ss).kept).map Prod.fst := by
  intro hmem
  rcases mem_declarations_kept _ _ hmem with hmem | ⟨hnested, f, hf, hname⟩
  · exact h.unlifted _ hmem hm
  · exact h.outer hnested f hf _ hname hm

theorem Static.mem_all_of_nested (h : Static c q ss) {m : String}
    (hm : m ∈ Stmt.nestedNamesOfList c.nested ss) : m ∈ c.all.map (·.1.name) := by
  rw [← Captures.names_log_stmts _ ss q.log h.supported] at hm
  obtain ⟨e, he, rfl⟩ := mem_map.1 hm
  obtain ⟨f, hf, rfl⟩ := mem_map.1 he
  exact mem_map_of_mem (h.entered f hf)

/-- A block opens a scope on both sides. -/
theorem Rel.block {r : Range} {body : List Stmt} {s t : Store}
    (hstatic : Static c q (.block r body :: ss)) (hrel : Rel c p q.context s t)
    (hpending : Pending c p q.log (.block r body :: ss) s t) :
    let inner := p.push s.next hrel.scope_le_next
    let s' := s.pushWith (declarations inner.env body)
    let t' := t.pushWith
      (declarations inner.liftedEnv (TreeLifting.stmts c.nested q.log body).kept)
    Rel c inner q.deeper.context s' t' ∧ Pending c inner q.deeper.log body s' t' := by
  intro inner s' t'
  have hbody := hstatic.block
  obtain ⟨-, hnodup, hdisjoint⟩ := nodup_append.1 hbody.distinct
  have hds := map_fst_declarations inner.env body
  have hds' := map_fst_declarations_kept inner.liftedEnv c.nested body q.log
  have hbase : Rel c p q.context s' t' := by
    refine hrel.congr (by simp [s', t', hrel.size]) (by simp [s']) fun y _ j hj => ⟨?_, ?_⟩
    · exact lookup?_pushWith_of_lt _ hj y
    · exact lookup?_pushWith_of_lt _ (hrel.size ▸ hj) y
  refine ⟨hbase.push hrel.scope_le_next (by simp [s']) (fun a ha => ?_) (fun a ha => ?_)
    fun _ f hf => ?_, fun d hd => ?_, fun d hd => ?_, fun hnested m hm => ?_⟩
  · exact lookup?_pushWith_of_not_mem fun hmem =>
      hdisjoint _ (mem_map_of_mem ha) _ (hds.subset hmem) rfl
  · rw [← hrel.size]
    exact lookup?_pushWith_of_not_mem fun hmem =>
      hdisjoint _ (mem_map_of_mem ha) _ (hds'.subset hmem) rfl
  · rw [← hrel.size]
    exact lookup?_pushWith_of_not_mem (hbody.not_mem_kept _ (mem_map_of_mem hf))
  · exact lookup?_pushWith_of_mem (hds.nodup hnodup) hd
  · have hlookup := lookup?_pushWith_of_mem (s := t) (hds'.nodup hnodup) hd
    rwa [hrel.size] at hlookup
  · -- The functions of the block are not named in the scopes around it, nor in the new one.
    refine forall_mem_cons.2 ⟨?_, fun j hj => ?_⟩
    · rw [← hrel.size]
      refine lookup?_pushWith_of_not_mem (hbody.not_mem_kept _ (hbody.mem_all_of_nested ?_))
      rwa [hnested]
    · rw [lookup?_pushWith_of_lt _ (hrel.size ▸ hrel.bound j (p.own_subset_env j hj))]
      exact hpending.vacant hnested m (mem_append.2 (.inl hm)) j hj

theorem stmt_block (calls : Calls) (env : Environment) (r : Range) (body : List Stmt) (w : World) :
    stmt calls env (.block r body) w =
      stmts calls (w.store.next :: env) body
        ⟨w.store.pushWith (declarations (w.store.next :: env) body), w.output⟩ := by
  have hrun : stmt calls env (.block r body) w = stmts calls (w.store.next :: env) body
      ⟨declareList (w.store.next :: env) body w.store.push, w.output⟩ := by
    rw [stmt]
    rfl
  rw [hrun, declareList_eq]
  rfl

/-- A statement that declares nothing leaves the place as it is. -/
theorem Follows.same {s : Stmt} (hq : q.Valid c) (hstatic : Static c q ss) (hp : p.Fits c q)
    (hlog : (TreeLifting.stmt c.nested q.log s).log = []) : Follows c p q q s ss :=
  ⟨hq, hstatic, hp, by rw [hlog, append_nil], fun _ ha => ha,
    fun _ hx => mem_append.2 (.inl hx)⟩

theorem During.widen {Γ : Context} {names more : List String} {s₀ t₀ s t : Store}
    (h : During c p Γ names s₀ t₀ s t) : During c p Γ (names ++ more) s₀ t₀ s t :=
  h.mono (fun _ ha => ha) fun _ hx => mem_append.2 (.inl hx)

mutual

theorem stmt_alike (hcalls : CallsAlike c.all calls) {p : Place} {q : Spot} (s : Stmt)
    {ss : List Stmt} (hstatic : Static c q (s :: ss)) (hq : q.Valid c) (hp : p.Fits c q) :
    ∃ q', Follows c p q q' s ss ∧ ∀ {w w' : World}, w'.output = w.output →
      Rel c p q.context w.store w'.store → Pending c p q.log (s :: ss) w.store w'.store →
      Agree (Alike IsData
          (During c p q'.context (q.context.names ++ introduced s) w.store w'.store))
        (stmt calls p.env s w)
        (stmts calls p.liftedEnv (TreeLifting.stmt c.nested q.log s).kept w') := by
  cases s with
  | vars r listRange kind ds =>
    obtain ⟨q', hfollows, hrun⟩ := declarators_alike hcalls ds hstatic hq hp
    refine ⟨q', hfollows, fun {w w'} hout hrel hpending => ?_⟩
    have hkept : (TreeLifting.stmt c.nested q.log (.vars r listRange kind ds)).kept =
        (ds.map (liftDeclarator q.log)).map fun d => .vars noRange noRange kind [d] := by
      rw [map_map]
      rfl
    rw [hkept, stmts_variables, stmt]
    refine (hrun hout hrel hpending).bind ?_
    rintro _ _ w₁ w₁' ⟨-, -, h₁⟩
    exact .pure ⟨rfl, trivial, h₁⟩
  | function head body => exact function_alike hstatic hq hp
  | block r body =>
    obtain ⟨hvalid, hrest⟩ := hstatic.past hq
    refine ⟨q.past c.nested body, ⟨hvalid, hrest, hp.past body, rfl, fun _ ha => ha,
      fun _ hx => mem_append.2 (.inl hx)⟩, fun {w w'} hout hrel hpending => ?_⟩
    obtain ⟨hinner, hpending'⟩ := hrel.block hstatic hpending
    have hkept : (TreeLifting.stmt c.nested q.log (.block r body)).kept =
        [.block r (TreeLifting.stmts c.nested q.log body).kept] := rfl
    rw [hkept, stmts_singleton, stmt_block, stmt_block, hrel.size]
    refine (stmts_alike hcalls body hstatic.block hq.deeper (hp.deeper hrel.scope_le_next)
      ⟨w.store.pushWith _, w.output⟩ ⟨w'.store.pushWith _, w'.output⟩ hout hinner
      hpending').mono ?_
    rintro _ _ w₁ w₁' ⟨heq, hdata, h₁⟩
    refine ⟨heq, hdata, h₁.output, h₁.store.rel.pop fun a ha => ?_,
      (Frame.pushWith _ _).trans h₁.store.frame,
      (Frame.pushWith _ _).trans h₁.store.liftedFrame⟩
    rw [hp.depth]
    exact hq.depth a ha
  | expression r e =>
    obtain ⟨he, hrest⟩ := hstatic.expression
    refine ⟨q, .same hq hrest hp rfl, fun {w w'} hout hrel _ => ?_⟩
    have hkept : (TreeLifting.stmt c.nested q.log (.expression r e)).kept =
        [.expression r (TreeLifting.expr q.log e)] := rfl
    rw [hkept, stmts_singleton, stmt, stmt]
    refine (he.alike hcalls hq hp hq.bound hout hrel).bind ?_
    rintro _ _ w₁ w₁' ⟨-, -, h₁⟩
    exact .pure ⟨rfl, trivial, h₁.output, h₁.store.widen⟩
  | return_ r e =>
    obtain ⟨he, hrest⟩ := hstatic.return_
    refine ⟨q, .same hq hrest hp rfl, fun {w w'} hout hrel _ => ?_⟩
    have hkept : (TreeLifting.stmt c.nested q.log (.return_ r e)).kept =
        [.return_ r (e.map (TreeLifting.expr q.log))] := rfl
    rw [hkept, stmts_singleton]
    cases e with
    | none =>
      rw [Option.map_none, stmt, stmt]
      exact .pure ⟨rfl, rfl, hout, .start hrel⟩
    | some e =>
      rw [Option.map_some, stmt, stmt]
      refine ((he e rfl).alike hcalls hq hp hq.bound hout hrel).bind ?_
      rintro _ v w₁ w₁' ⟨rfl, hv, h₁⟩
      exact .pure ⟨rfl, hv, h₁.output, h₁.store.widen⟩
  | empty _ | other _ => exact absurd hstatic.supported.1 id

/-- **Statements at a place.** If calls run alike, then so do statements and those that stay of
them. -/
theorem stmts_alike (hcalls : CallsAlike c.all calls) {p : Place} {q : Spot} (ss : List Stmt)
    (hstatic : Static c q ss) (hq : q.Valid c) (hp : p.Fits c q) (w w' : World)
    (hout : w'.output = w.output) (hrel : Rel c p q.context w.store w'.store)
    (hpending : Pending c p q.log ss w.store w'.store) :
    Agree (Alike IsData
        (During c p q.context (q.context.names ++ introducedOfList ss) w.store w'.store))
      (stmts calls p.env ss w)
      (stmts calls p.liftedEnv (TreeLifting.stmts c.nested q.log ss).kept w') := by
  cases ss with
  | nil =>
    rw [TreeLifting.stmts, stmts]
    exact .pure ⟨rfl, trivial, hout, .start hrel⟩
  | cons s ss =>
    obtain ⟨q', hfollows, hrun⟩ := stmt_alike hcalls s hstatic hq hp
    have hhead : ∀ x ∈ q.context.names ++ introduced s,
        x ∈ q.context.names ++ introducedOfList (s :: ss) := by
      intro x hx
      rw [introducedOfList, ← append_assoc]
      exact mem_append.2 (.inl hx)
    rw [stmts_cons, TreeLifting.stmts, stmts_append]
    refine (hrun hout hrel hpending).bind ?_
    rintro _ completion w₁ w₁' ⟨rfl, hdata, h₁⟩
    have h₁' := h₁.store.mono hfollows.context hhead
    cases completion with
    | returned v => exact .pure ⟨rfl, hdata, h₁.output, h₁'⟩
    | normal =>
      have hrest := hpending.tail.frame (fun x hx hmem => ?_)
        (fun j hj => hrel.bound j (p.own_subset_env j hj)) hrel.size h₁.store.frame
        h₁.store.liftedFrame
      · rw [← hfollows.log] at hrest ⊢
        refine (stmts_alike hcalls ss hfollows.static hfollows.valid hfollows.fits w₁ w₁' h₁.output
          h₁.store.rel hrest).mono ?_
        rintro _ _ w₂ w₂' ⟨heq, hdata, h₂⟩
        refine ⟨heq, hdata, h₂.output, h₁'.trans (h₂.store.mono hfollows.context fun x hx => ?_)⟩
        rw [introducedOfList, ← append_assoc]
        rcases mem_append.1 hx with hx | hx
        · exact mem_append.2 (.inl (hfollows.names x hx))
        · exact mem_append.2 (.inr hx)
      · have hdistinct := hstatic.distinct
        rw [introducedOfList, ← append_assoc] at hdistinct
        exact (nodup_append.1 hdistinct).2.2 x hmem x hx rfl

end

end Statements

end Behaviour

end LambdaLift
