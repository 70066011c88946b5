import LambdaLift.Proofs.Lifting.Journal
import LambdaLift.Proofs.Lifting.Steps
import LambdaLift.Proofs.Lifting.Tree

/-!
# Lifting agrees with lifting from tree to tree

Lifting keeps a registry and gives code; `TreeLifting` keeps a log and gives trees. While the
registry records a journal, the log is that journal without tickets and bodies.

* `Lifting.expr_tree`: the tree of a lifted expression.
* `Lifting.stmts_tree`: the trees of lifted statements, and of the functions entered on the way.
* `Lifting.program_tree`: the tree of a lifted program.
-/

namespace LambdaLift

open TreeLifting List Stmt

namespace Lifting

open TreeLifting (Entry)

/-- The entry of a function, without its body. -/
def entryOf {β : Type} (f : LiftedFunction β) : Entry :=
  ⟨f.name, f.params, f.captured⟩

/-- The log of a journal. -/
def logOf {β : Type} (j : Registry.Journal β) : List Entry :=
  j.map fun e => entryOf e.2

/-- The functions of a journal with the trees of their bodies. -/
def treesOf (j : Registry.Journal (List Code.Stmt)) : List (Entry × List Stmt) :=
  j.map fun e => (entryOf e.2, Code.Stmt.trees (e.2.body.getD []))

theorem logOf_eq_treesOf (j : Registry.Journal (List Code.Stmt)) :
    logOf j = (treesOf j).map Prod.fst := by
  simp [logOf, treesOf, Function.comp_def]

variable {r : Functions} {j : Registry.Journal (List Code.Stmt)}

theorem latest?_logOf (j : Registry.Journal (List Code.Stmt)) (name : String) :
    latest? (logOf j) name = (Registry.last? j name).map fun e => entryOf e.2 := by
  unfold latest? logOf Registry.last?
  rw [← map_reverse, find?_map]
  rfl

/-- A call passes on what the log says. -/
theorem passed_eq (h : r.Records j) (callee : String) (count : Nat) :
    r.appendedCaptures callee count = passed (logOf j) callee count := by
  unfold Registry.appendedCaptures passed
  rw [h.get?, latest?_logOf]
  cases Registry.last? j callee with
  | none => rfl
  | some e => rfl

/-- The trees of the arguments that a call is extended with. -/
theorem arguments_eq (h : r.Records j) (callee : String) (count : Nat) :
    Code.Expr.trees (r.appendedArguments callee count) =
      arguments (logOf j) callee count := by
  unfold Registry.appendedArguments arguments
  rw [h.get?, latest?_logOf]
  cases Registry.last? j callee with
  | none => rfl
  | some e =>
    simp [LiftedFunction.appendedArguments, LiftedFunction.appendedCaptures, entryOf,
      TreeLifting.Entry.arguments, Code.Expr.trees_eq_map, drop_append, Code.Expr.tree,
      Function.comp_def]

/-- Arguments that a call is extended with have no position and spell their values. -/
theorem respelled_arguments (log : List Entry) (callee : String) (count : Nat) :
    (arguments log callee count).map Expr.respelled =
      arguments log callee count := by
  unfold arguments
  cases latest? log callee with
  | none => rfl
  | some e =>
    have hname (x : String) : (Expr.ident (.ofName x)).respelled = .ident (.ofName x) := rfl
    have hundefined : Code.Expr.undefined.tree.respelled = Code.Expr.undefined.tree := rfl
    simp only [Option.elim_some, TreeLifting.Entry.arguments, map_drop, map_append,
      map_replicate, hundefined, map_map, Function.comp_def, hname]

/-- An expression with a name is that name. -/
theorem eq_ident_of_name? {e : Expr} {x : String} (h : e.name? = some x) :
    ∃ id : Ident, e = .ident id ∧ id.name = x := by
  cases e with
  | ident id => exact ⟨id, rfl, by simpa [Expr.name?] using h⟩
  | _ => simp [Expr.name?] at h

mutual

/-- The tree of a lifted expression. -/
theorem expr_tree (h : r.Records j) (e : Expr) {c : Code.Expr} (hc : expr r e = .ok c) :
    c.tree = (TreeLifting.expr (logOf j) e).respelled := by
  cases e with
  | ident id | number lit | string lit | boolean _ b | null _ =>
    cases hc
    rfl
  | paren _ e | unary _ op e | update _ op e =>
    simp only [expr, except_bind_ok, except_pure_ok] at hc
    obtain ⟨c, hc, rfl⟩ := hc
    simp only [Code.Expr.tree, expr_tree h e hc]
    rfl
  | binary _ op opRange a b =>
    simp only [expr, except_bind_ok] at hc
    obtain ⟨-, -, hc⟩ := hc
    split at hc
    · rename_i hop
      subst hop
      split at hc
      · rename_i x hx
        obtain ⟨id, rfl, rfl⟩ := eq_ident_of_name? hx
        simp only [except_bind_ok, except_pure_ok] at hc
        obtain ⟨c, hc, rfl⟩ := hc
        simp only [Code.Expr.tree, expr_tree h b hc]
        rfl
      · cases hc
    · rename_i hop
      simp only [except_bind_ok, except_pure_ok] at hc
      obtain ⟨ca, ha, cb, hb, rfl⟩ := hc
      simp only [Code.Expr.tree, expr_tree h a ha, expr_tree h b hb, TreeLifting.expr, hop,
        ↓reduceIte]
      rfl
  | call _ isOptional f args =>
    simp only [expr] at hc
    split at hc
    · cases hc
    · rename_i hopt
      split at hc
      · cases hc
      · rename_i callee hx
        obtain ⟨id, rfl, rfl⟩ := eq_ident_of_name? hx
        simp only [except_bind_ok, except_pure_ok] at hc
        obtain ⟨cs, hcs, rfl⟩ := hc
        have hmore := respelled_arguments (logOf j) id.name args.length
        unfold Expr.respelled at hmore
        simp only [Code.Expr.tree, Code.Expr.trees_append, exprs_tree h args hcs,
          arguments_eq h, TreeLifting.expr, Expr.name?, Option.elim_some, Expr.respelled,
          Expr.clear, Expr.clearList_eq_map, map_append, hmore]
        simp only [Bool.not_eq_true] at hopt
        rw [hopt]
        rfl
  | other n => cases hc

theorem exprs_tree (h : r.Records j) (es : List Expr) {cs : List Code.Expr}
    (hcs : exprs r es = .ok cs) :
    Code.Expr.trees cs = (TreeLifting.exprs (logOf j) es).map Expr.respelled := by
  cases es with
  | nil =>
    cases hcs
    rfl
  | cons e es =>
    simp only [exprs, except_bind_ok, except_pure_ok] at hcs
    obtain ⟨c, hc, cs, hcs, rfl⟩ := hcs
    simp only [Code.Expr.trees, expr_tree h e hc, exprs_tree h es hcs, TreeLifting.exprs,
      map_cons]

end

theorem expr?_tree (h : r.Records j) (e : Option Expr) {c : Option Code.Expr}
    (hc : expr? r e = .ok c) :
    c.map Code.Expr.tree = (e.map (TreeLifting.expr (logOf j))).map Expr.respelled := by
  cases e with
  | none =>
    cases hc
    rfl
  | some e =>
    simp only [expr?, Functor.map, Except.map] at hc
    split at hc
    · cases hc
    · rename_i c' hc'
      cases hc
      simp [expr_tree h e hc']

theorem declarators_tree (h : r.Records j) (kind : VarKind) (ds : List Declarator)
    {cs : List Code.Stmt} (hcs : declarators r kind ds = .ok cs) :
    Code.Stmt.trees cs = (ds.map (variable_ (logOf j) kind)).map respelled := by
  unfold declarators at hcs
  induction ds generalizing cs with
  | nil =>
    cases hcs
    rfl
  | cons d ds ih =>
    simp only [mapM_cons, except_bind_ok, except_pure_ok] at hcs
    obtain ⟨c, hc, cs, hcs, rfl⟩ := hcs
    have hd : c.tree = (variable_ (logOf j) kind d).respelled := by
      unfold declarator at hc
      split at hc
      · rename_i id htarget
        simp only [except_bind_ok, except_pure_ok] at hc
        obtain ⟨init, hinit, rfl⟩ := hc
        simp only [Code.Stmt.tree, expr?_tree h _ hinit, variable_, respelled,
          clear, map_cons, map_nil, Declarator.clear, htarget, Binding.clear]
        rfl
      · cases hc
    rw [Code.Stmt.trees, hd, ih hcs, map_cons, map_cons]

/-! ## Statements -/

/-- An entered function, with the body respelled. -/
def respelledBody (f : Entry × List Stmt) : Entry × List Stmt :=
  (f.1, f.2.map respelled)

/-- The entry of a function with the signature of `head`. -/
theorem entry_eq (h : r.Records j) {head : FunctionHead} (body : List Stmt) {name : String}
    {params : List String} (hsig : signature head = .ok (name, params)) :
    entry (logOf j) head body =
      ⟨name, params, FreeNames.ofFunction r.appendedCaptures head body⟩ := by
  obtain ⟨-, hname, hparams⟩ := signature_ok hsig
  have happended : r.appendedCaptures = passed (logOf j) := by
    funext callee count
    exact passed_eq h callee count
  rw [entry, hname, hparams, happended]
  rfl

/-- A plain parameter is its name. -/
theorem clear_param {p : Param} {x : String} (h : p.plainName? = some x) :
    p.clear .respelled = .ofName x := by
  obtain ⟨range, ellipsis, target, init⟩ := p
  cases ellipsis <;> cases init <;> cases target <;> simp [Param.plainName?, Binding.name?] at h
  subst h
  rfl

/-- The head of a function that can be lifted is made of its names. -/
theorem clear_head {head : FunctionHead} (h : head.Supported) :
    head.clear .respelled =
      .ofNames (head.name?.getD "") (head.params.filterMap Param.plainName?) := by
  have hps (ps : List Param) (hplain : ∀ p ∈ ps, p.plainName?.isSome) :
      ps.map (Param.clear .respelled) = (ps.filterMap Param.plainName?).map .ofName := by
    induction ps with
    | nil => rfl
    | cons p ps ih =>
      rw [forall_mem_cons] at hplain
      obtain ⟨x, hx⟩ := Option.isSome_iff_exists.1 hplain.1
      rw [map_cons, clear_param hx, ih hplain.2, filterMap_cons_some hx, map_cons]
  obtain ⟨name, hname, -⟩ := h.name
  obtain ⟨id, hid, rfl⟩ := Option.map_eq_some_iff.1 hname
  rw [FunctionHead.clear, FunctionHead.ofNames, hname, hid, hps _ h.params, h.isAsync,
    h.isGenerator]
  rfl

mutual

/-- The trees of a lifted statement and of the functions entered in it, which have their bodies
when the statement has been lifted. -/
theorem stmt_tree {nested : Bool} {r r' : Functions} {j : Registry.Journal (List Code.Stmt)}
    (s : Stmt) {code : List Code.Stmt} (h : r.Records j)
    (hs : stmt nested s r = (.ok code, r')) :
    ∃ items, r'.Records (j ++ items) ∧
      Code.Stmt.trees code = (TreeLifting.stmt nested (logOf j) s).kept.map respelled ∧
      treesOf items = (TreeLifting.stmt nested (logOf j) s).entered.map respelledBody ∧
      ∀ e ∈ items, e.2.body.isSome := by
  cases s with
  | vars _ _ kind ds =>
    simp only [stmt, bind_ok, get_ok, liftM_ok] at hs
    obtain ⟨_, _, ⟨rfl, rfl⟩, hcs, rfl⟩ := hs
    exact ⟨[], by simpa using h, declarators_tree h kind ds hcs, rfl, by simp⟩
  | function head body =>
    simp only [stmt, bind_ok, liftM_ok] at hs
    obtain ⟨⟨name, params⟩, _, ⟨hsig, rfl⟩, hs⟩ := hs
    cases nested with
    | true =>
      simp only [↓reduceIte, bind_ok, get_ok, set_ok, modify_ok, pure_ok] at hs
      obtain ⟨_, _, ⟨rfl, rfl⟩, -, _, rfl, code, r₁, hbody, -, _, rfl, rfl, rfl⟩ := hs
      have hentry := entry_eq h body hsig
      have hreg := h.register ⟨name, params, FreeNames.ofFunction r.appendedCaptures head body, none⟩
      obtain ⟨items, hitems, hkept, hentered, hsome⟩ := stmts_tree body hreg hbody
      rw [append_assoc, singleton_append] at hitems
      refine ⟨_, hitems.setBody code, rfl, ?_, forall_mem_cons.2 ⟨rfl, hsome⟩⟩
      have hlog : logOf (j ++ [(r.nextTicket,
          (⟨name, params, FreeNames.ofFunction r.appendedCaptures head body, none⟩ :
            LiftedFunction (List Code.Stmt)))]) =
          logOf j ++ [entry (logOf j) head body] := by
        rw [hentry]
        simp [logOf, entryOf]
      rw [hlog] at hkept hentered
      simp only [TreeLifting.stmt, ↓reduceIte, map_cons, ← hentered, respelledBody, ← hkept]
      rw [hentry]
      rfl
    | false =>
      simp only [Bool.false_eq_true, ↓reduceIte, bind_ok, pure_ok] at hs
      obtain ⟨code, _, hbody, rfl, rfl⟩ := hs
      obtain ⟨items, hitems, hkept, hentered, hsome⟩ := stmts_tree body h hbody
      obtain ⟨hsup, hname, hparams⟩ := signature_ok hsig
      refine ⟨items, hitems, ?_, ?_, hsome⟩
      · simp only [Code.Stmt.trees, Code.Stmt.tree, hkept, TreeLifting.stmt, Bool.false_eq_true,
          ↓reduceIte, map_cons, map_nil, respelled, clear, clear_head hsup,
          hname, hparams, clearList_eq_map]
        rfl
      · simpa [TreeLifting.stmt] using hentered
  | block _ body =>
    simp only [stmt, bind_ok, pure_ok] at hs
    obtain ⟨code, _, hbody, rfl, rfl⟩ := hs
    obtain ⟨items, hitems, hkept, hentered, hsome⟩ := stmts_tree body h hbody
    refine ⟨items, hitems, ?_, hentered, hsome⟩
    simp only [Code.Stmt.trees, Code.Stmt.tree, hkept, TreeLifting.stmt, map_cons,
      map_nil, respelled, clear, clearList_eq_map]
    rfl
  | expression _ e =>
    simp only [stmt, bind_ok, get_ok, liftM_ok, pure_ok] at hs
    obtain ⟨_, _, ⟨rfl, rfl⟩, c, _, ⟨hc, rfl⟩, rfl, rfl⟩ := hs
    refine ⟨[], by simpa using h, ?_, rfl, by simp⟩
    simp only [Code.Stmt.trees, Code.Stmt.tree, expr_tree h e hc]
    rfl
  | return_ _ e =>
    simp only [stmt, bind_ok, get_ok, liftM_ok, pure_ok] at hs
    obtain ⟨_, _, ⟨rfl, rfl⟩, c, _, ⟨hc, rfl⟩, rfl, rfl⟩ := hs
    refine ⟨[], by simpa using h, ?_, rfl, by simp⟩
    simp only [Code.Stmt.trees, Code.Stmt.tree, expr?_tree h e hc]
    rfl
  | empty _ | other n => exact absurd hs throw_ok

/-- The trees of lifted statements and of the functions entered in them. -/
theorem stmts_tree {nested : Bool} {r r' : Functions} {j : Registry.Journal (List Code.Stmt)}
    (ss : List Stmt) {code : List Code.Stmt} (h : r.Records j)
    (hs : stmts nested ss r = (.ok code, r')) :
    ∃ items, r'.Records (j ++ items) ∧
      Code.Stmt.trees code = (TreeLifting.stmts nested (logOf j) ss).kept.map respelled ∧
      treesOf items = (TreeLifting.stmts nested (logOf j) ss).entered.map respelledBody ∧
      ∀ e ∈ items, e.2.body.isSome := by
  cases ss with
  | nil =>
    simp only [stmts, pure_ok] at hs
    obtain ⟨rfl, rfl⟩ := hs
    exact ⟨[], by simpa using h, rfl, rfl, by simp⟩
  | cons s ss =>
    simp only [stmts, bind_ok, pure_ok] at hs
    obtain ⟨code, r₁, hfirst, rest, r₂, hrest, rfl, rfl⟩ := hs
    obtain ⟨items, hitems, hkept, hentered, hsome⟩ := stmt_tree s h hfirst
    obtain ⟨more, hmore, hkept', hentered', hsome'⟩ := stmts_tree ss hitems hrest
    have hlog : logOf (j ++ items) = logOf j ++ (TreeLifting.stmt nested (logOf j) s).log := by
      have hmap : logOf (j ++ items) = logOf j ++ logOf items := by simp [logOf]
      rw [hmap, logOf_eq_treesOf items, hentered, Lifted.log, map_map]
      rfl
    rw [hlog] at hkept' hentered'
    refine ⟨items ++ more, by rwa [← append_assoc], ?_, ?_, forall_mem_append.2 ⟨hsome, hsome'⟩⟩
    · simp only [Code.Stmt.trees_append, hkept, hkept', TreeLifting.stmts, map_append]
    · simp only [treesOf, map_append] at hentered hentered' ⊢
      simp only [hentered, hentered', TreeLifting.stmts, map_append]

end

/-! ## Programs -/

/-- The functions of a registry, with the trees of their bodies, are the last ones of each name in
its journal. -/
theorem lastOfEach_treesOf {r : Functions} {j : Registry.Journal (List Code.Stmt)}
    (h : r.Records j) :
    lastOfEach (treesOf j) =
      r.functions.map fun f => (entryOf f, Code.Stmt.trees (f.body.getD [])) := by
  have hnames : (treesOf j).map (·.1.name) = j.map (·.2.name) := by
    simp [treesOf, entryOf, Function.comp_def]
  have hlast (x : String) : (treesOf j).reverse.find? (·.1.name = x) =
      (Registry.last? j x).map fun e => (entryOf e.2, Code.Stmt.trees (e.2.body.getD [])) := by
    unfold treesOf Registry.last?
    rw [← map_reverse, find?_map]
    rfl
  rw [lastOfEach, hnames, Registry.functions, h.entries_eq, map_map,
    map_filterMap]
  congr 1
  funext x
  exact hlast x

/-- Respelling bodies does not change which function of a name is the last one. -/
theorem lastOfEach_respelledBody (fs : List (Entry × List Stmt)) :
    lastOfEach (fs.map respelledBody) =
      (lastOfEach fs).map respelledBody := by
  have hnames : (fs.map respelledBody).map (·.1.name) = fs.map (·.1.name) := by
    simp [respelledBody, Function.comp_def]
  rw [lastOfEach, hnames, lastOfEach, map_filterMap]
  congr 1
  funext x
  rw [← map_reverse, find?_map]
  rfl

theorem declaration_respelledBody (f : Entry × List Stmt) :
    TreeLifting.declaration (respelledBody f) = (TreeLifting.declaration f).respelled := by
  have hparams (xs : List String) :
      (xs.map Param.ofName).map (Param.clear .respelled) = xs.map .ofName := by
    rw [map_map]
    rfl
  simp only [TreeLifting.declaration, respelledBody, respelled, clear,
    clearList_eq_map, FunctionHead.clear, FunctionHead.ofNames, hparams]
  rfl

/-- A lifted program consists of the statements that stay and of the functions in the registry,
which records all functions entered. -/
theorem program_ok {p : Program} {r r' : Functions} {code : List Code.Stmt}
    (h : program p r = (.ok code, r')) :
    ∃ kept j, code = kept ++ r'.functions.map declaration ∧ r'.Records j ∧
      Code.Stmt.trees kept =
        (TreeLifting.stmts false [] p.statements).kept.map respelled ∧
      treesOf j = (TreeLifting.stmts false [] p.statements).entered.map respelledBody ∧
      ∀ e ∈ j, e.2.body.isSome := by
  simp only [program, bind_ok, modify_ok, get_ok, pure_ok] at h
  obtain ⟨-, _, rfl, kept, r₁, hkept, _, _, ⟨rfl, rfl⟩, rfl, rfl⟩ := h
  obtain ⟨j, hj, hrest⟩ := stmts_tree p.statements (Registry.Records.clear r) hkept
  exact ⟨kept, j, rfl, by simpa using hj, hrest⟩

/-- **Lifting is lifting from tree to tree.** The code of a lifted program has the tree that
`TreeLifting` gives, with the literals spelled anew. -/
theorem program_tree {p : Program} {r r' : Functions} {code : List Code.Stmt}
    (h : program p r = (.ok code, r')) :
    Code.Stmt.trees code = (TreeLifting.program p.statements).map respelled := by
  obtain ⟨kept, j, rfl, hj, hkept, hentered, -⟩ := program_ok h
  have hfunctions : Code.Stmt.trees (r'.functions.map declaration) =
      (lastOfEach (treesOf j)).map TreeLifting.declaration := by
    rw [lastOfEach_treesOf hj, Code.Stmt.trees_eq_map, map_map, map_map]
    rfl
  rw [Code.Stmt.trees_append, hkept, hfunctions, hentered, lastOfEach_respelledBody,
    TreeLifting.program, map_append, map_map, map_map]
  congr 1
  apply map_congr_left
  intro f _
  exact declaration_respelledBody f

end Lifting

end LambdaLift
