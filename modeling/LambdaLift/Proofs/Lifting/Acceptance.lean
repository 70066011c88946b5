import LambdaLift.Proofs.Lifting.Determined
import LambdaLift.Proofs.Lifting.Supported

/-!
# What lifting accepts, and what it reports

`Stmt.obstacles` lists everything in a tree that cannot be lifted, in the order in which lifting
comes to it: statements and operands in the order of the text, an operator before its operands, the
signature of a function before its body.

* `Stmt.obstaclesOfList_eq_nil`: a supported tree is one without obstacles.
* `Lifting.failure?_stmts`: lifting stops at the first obstacle, whatever is in the registry.
* `Lifting.program_supported`: a program that is lifted is supported.
* `Lifting.accepts_exactly_supported`: a program is lifted exactly if it is supported, and
  otherwise its first obstacle is reported.
-/

namespace LambdaLift

open Option List

/-! ## Obstacles -/

/-- An expression in a place where only a name can stand. -/
def Expr.unlessName (e : Expr) : List Unsupported :=
  if e.name?.isSome then [] else [⟨e.kind, e.range⟩]

/-- An operator that cannot be lifted. -/
def BinaryOp.obstacles (op : BinaryOp) (opRange : Range) : List Unsupported :=
  if op.isLiftable then [] else [⟨.token op.token, opRange⟩]

mutual

/-- What cannot be lifted in an expression. -/
def Expr.obstacles : Expr → List Unsupported
  | .ident _ | .number _ | .string _ | .boolean .. | .null _ => []
  | .paren _ e | .unary _ _ e | .update _ _ e => e.obstacles
  | .binary _ op opRange a b =>
    op.obstacles opRange ++ (if op = .assign then a.unlessName else a.obstacles) ++ b.obstacles
  | .call range isOptional f args =>
    (if isOptional then [⟨.node .callExpression, range⟩] else []) ++ f.unlessName ++
      Expr.obstaclesOfList args
  | .other n => [⟨n.kind, n.range⟩]

/-- What cannot be lifted in expressions. -/
def Expr.obstaclesOfList : List Expr → List Unsupported
  | [] => []
  | e :: es => e.obstacles ++ Expr.obstaclesOfList es

end

/-- What cannot be lifted in an expression, if there is one. -/
def Expr.obstacles? (e : Option Expr) : List Unsupported :=
  e.elim [] Expr.obstacles

/-- What cannot be lifted in a declared variable: a pattern comes before the initial value. -/
def Declarator.obstacles (d : Declarator) : List Unsupported :=
  (match d.target with
    | .name _ => []
    | .pattern n => [⟨n.kind, n.range⟩]) ++ Expr.obstacles? d.init

/-- A parameter that is more than a name. -/
def Param.obstacles (p : Param) : List Unsupported :=
  if p.plainName?.isSome then [] else [⟨.node .parameter, p.range⟩]

/-- What cannot be lifted in the signature of a function: the function as such comes before its
parameters. -/
def FunctionHead.obstacles (h : FunctionHead) : List Unsupported :=
  (if h.isAsync || h.isGenerator || h.name?.all String.isEmpty then
    [⟨.node .functionDeclaration, h.range⟩] else []) ++ h.params.flatMap Param.obstacles

mutual

/-- What cannot be lifted in a statement. -/
def Stmt.obstacles : Stmt → List Unsupported
  | .vars _ _ _ ds => ds.flatMap Declarator.obstacles
  | .function head body => head.obstacles ++ Stmt.obstaclesOfList body
  | .block _ body => Stmt.obstaclesOfList body
  | .expression _ e => e.obstacles
  | .return_ _ e => Expr.obstacles? e
  | .empty range => [⟨.node .emptyStatement, range⟩]
  | .other n => [⟨n.kind, n.range⟩]

/-- What cannot be lifted in statements. -/
def Stmt.obstaclesOfList : List Stmt → List Unsupported
  | [] => []
  | s :: ss => s.obstacles ++ Stmt.obstaclesOfList ss

end

/-! ## Trees without obstacles -/

theorem Expr.unlessName_eq_nil {e : Expr} : e.unlessName = [] ↔ e.name?.isSome := by
  unfold unlessName
  split <;> simp_all

theorem BinaryOp.obstacles_eq_nil {op : BinaryOp} {opRange : Range} :
    op.obstacles opRange = [] ↔ op.isLiftable = true := by
  unfold obstacles
  split <;> simp_all

mutual

theorem Expr.obstacles_eq_nil (e : Expr) : e.obstacles = [] ↔ e.Supported := by
  cases e with
  | ident _ | number _ | string _ | boolean _ _ | null _ => simp [obstacles, Supported]
  | paren _ e | unary _ _ e | update _ _ e => exact Expr.obstacles_eq_nil e
  | binary _ op opRange a b =>
    simp only [obstacles, Supported, append_eq_nil_iff, BinaryOp.obstacles_eq_nil,
      Expr.obstacles_eq_nil b, and_assoc]
    split
    · rw [Expr.unlessName_eq_nil]
    · rw [Expr.obstacles_eq_nil a]
  | call _ isOptional f args =>
    simp only [obstacles, Supported, append_eq_nil_iff, Expr.unlessName_eq_nil,
      Expr.obstaclesOfList_eq_nil args, and_assoc]
    cases isOptional <;> simp
  | other n => simp [obstacles, Supported]

theorem Expr.obstaclesOfList_eq_nil (es : List Expr) :
    Expr.obstaclesOfList es = [] ↔ Expr.SupportedList es := by
  cases es with
  | nil => simp [obstaclesOfList, SupportedList]
  | cons e es =>
    simp only [obstaclesOfList, SupportedList, append_eq_nil_iff, Expr.obstacles_eq_nil e,
      Expr.obstaclesOfList_eq_nil es]

end

theorem Expr.obstacles?_eq_nil (e : Option Expr) :
    Expr.obstacles? e = [] ↔ ∀ e' ∈ e, e'.Supported := by
  cases e with
  | none => simp [obstacles?]
  | some e => simp [obstacles?, Expr.obstacles_eq_nil]

theorem Declarator.obstacles_eq_nil (d : Declarator) : d.obstacles = [] ↔ d.Supported := by
  unfold obstacles Supported
  rw [append_eq_nil_iff, Expr.obstacles?_eq_nil]
  cases d.target <;> simp [Binding.name?]

theorem Param.obstacles_eq_nil (p : Param) : p.obstacles = [] ↔ p.plainName?.isSome := by
  unfold obstacles
  split <;> simp_all

theorem FunctionHead.obstacles_eq_nil (h : FunctionHead) : h.obstacles = [] ↔ h.Supported := by
  have hparams : h.params.flatMap Param.obstacles = [] ↔ ∀ p ∈ h.params, p.plainName?.isSome := by
    simp [flatMap_eq_nil_iff, Param.obstacles_eq_nil]
  have hmarks : (h.isAsync || h.isGenerator || h.name?.all String.isEmpty) = false ↔
      h.isAsync = false ∧ h.isGenerator = false ∧ ∃ name, h.name? = some name ∧ name ≠ "" := by
    cases h.name? with
    | none => simp
    | some name => simp [and_assoc]
  unfold obstacles
  rw [append_eq_nil_iff, hparams]
  constructor
  · rintro ⟨hfirst, hps⟩
    split at hfirst
    · cases hfirst
    · rename_i hcond
      obtain ⟨hasync, hgen, hname⟩ := hmarks.1 (Bool.eq_false_iff.2 hcond)
      exact ⟨hasync, hgen, hname, hps⟩
  · rintro ⟨hasync, hgen, hname, hps⟩
    rw [hmarks.2 ⟨hasync, hgen, hname⟩]
    exact ⟨rfl, hps⟩

mutual

theorem Stmt.obstacles_eq_nil (s : Stmt) : s.obstacles = [] ↔ s.Supported := by
  cases s with
  | vars _ _ _ ds => simp [obstacles, Supported, Declarator.obstacles_eq_nil]
  | function head body =>
    simp only [obstacles, Supported, append_eq_nil_iff, FunctionHead.obstacles_eq_nil,
      Stmt.obstaclesOfList_eq_nil body]
  | block _ body => exact Stmt.obstaclesOfList_eq_nil body
  | expression _ e => exact Expr.obstacles_eq_nil e
  | return_ _ e => exact Expr.obstacles?_eq_nil e
  | empty _ | other _ => simp [obstacles, Supported]

/-- A tree has no obstacles exactly if it is supported. -/
theorem Stmt.obstaclesOfList_eq_nil (ss : List Stmt) :
    Stmt.obstaclesOfList ss = [] ↔ Stmt.SupportedList ss := by
  cases ss with
  | nil => simp [obstaclesOfList, SupportedList]
  | cons s ss =>
    simp only [obstaclesOfList, SupportedList, append_eq_nil_iff, Stmt.obstacles_eq_nil s,
      Stmt.obstaclesOfList_eq_nil ss]

end

namespace Lifting

/-! ## Where lifting stops -/

/-- The failure of a step, if it failed. -/
def failure? {ε α : Type} : Except ε α → Option ε
  | .ok _ => none
  | .error e => some e

variable {α ε β : Type} {x : Except ε α} {p : Program}

/-- A sequence fails as its first step does, or else as its second one. -/
theorem failure?_bind {f : α → Except ε β} {v : Option ε} (h : ∀ a, failure? (f a) = v) :
    failure? (x >>= f) = (failure? x).or v := by
  cases x with
  | error e => rfl
  | ok a => exact h a

theorem failure?_map (f : α → β) :
    failure? (x.map f) = failure? x := by
  cases x <;> rfl

theorem failure?_mapM {f : α → Except ε β} {g : α → List ε} {xs : List α}
    (h : ∀ x ∈ xs, failure? (f x) = (g x).head?) :
    failure? (xs.mapM f) = (xs.flatMap g).head? := by
  induction xs with
  | nil => rfl
  | cons x xs ih =>
    rw [mapM_cons, flatMap_cons, head?_append, ← h x (mem_cons_self ..),
      ← ih fun y hy => h y (mem_cons_of_mem _ hy)]
    refine failure?_bind fun a => ?_
    rw [failure?_bind (v := none) fun _ => rfl, or_none]

variable {r : Functions}

theorem failure?_operator (op : BinaryOp) (opRange : Range) :
    failure? (operator op opRange) = (op.obstacles opRange).head? := by
  unfold operator BinaryOp.obstacles
  split <;> rfl

mutual

theorem failure?_expr (e : Expr) : failure? (expr r e) = e.obstacles.head? := by
  cases e with
  | ident _ | number _ | string _ | boolean _ _ | null _ | other _ => rfl
  | paren _ e | unary _ op e | update _ op e =>
    rw [expr, failure?_bind (v := none) fun _ => rfl, or_none, failure?_expr e]
    rfl
  | binary _ op opRange a b =>
    rw [expr, Expr.obstacles, append_assoc, head?_append, ← failure?_operator]
    refine failure?_bind fun _ => ?_
    rw [head?_append]
    by_cases hop : op = .assign
    · simp only [hop, ↓reduceIte, Expr.unlessName]
      cases a.name? with
      | none => rfl
      | some x =>
        simp only [isSome_some, ↓reduceIte, head?_nil, none_or]
        rw [failure?_bind (v := none) fun _ => rfl, or_none, failure?_expr b]
    · simp only [hop, ↓reduceIte]
      rw [← failure?_expr a, ← failure?_expr b]
      refine failure?_bind fun _ => ?_
      rw [failure?_bind (v := none) fun _ => rfl, or_none]
  | call _ isOptional f args =>
    rw [expr, Expr.obstacles, Expr.unlessName]
    cases isOptional with
    | true => rfl
    | false =>
      cases f.name? with
      | none => rfl
      | some callee =>
        simp only [Bool.false_eq_true, ↓reduceIte, isSome_some, nil_append]
        rw [failure?_bind (v := none) fun _ => rfl, or_none, failure?_exprs args]

theorem failure?_exprs (es : List Expr) :
    failure? (exprs r es) = (Expr.obstaclesOfList es).head? := by
  cases es with
  | nil => rfl
  | cons e es =>
    rw [exprs, Expr.obstaclesOfList, head?_append, ← failure?_expr e, ← failure?_exprs es]
    refine failure?_bind fun _ => ?_
    rw [failure?_bind (v := none) fun _ => rfl, or_none]

end

theorem failure?_expr? (e : Option Expr) :
    failure? (expr? r e) = (Expr.obstacles? e).head? := by
  cases e with
  | none => rfl
  | some e => exact (failure?_map some).trans (failure?_expr e)

theorem failure?_declarators (kind : VarKind) (ds : List Declarator) :
    failure? (declarators r kind ds) = (ds.flatMap Declarator.obstacles).head? := by
  refine failure?_mapM fun d _ => ?_
  unfold declarator Declarator.obstacles
  cases d.target with
  | pattern n => rfl
  | name id =>
    rw [nil_append, ← failure?_expr?, failure?_bind (v := none) fun _ => rfl, or_none]

theorem failure?_signature (head : FunctionHead) :
    failure? (signature head) = head.obstacles.head? := by
  have hparams : failure? (head.params.mapM parameter) =
      (head.params.flatMap Param.obstacles).head? := by
    refine failure?_mapM fun p _ => ?_
    unfold parameter Param.obstacles
    cases p.plainName? <;> rfl
  unfold signature FunctionHead.obstacles
  cases head.name? with
  | none => simp [failure?]
  | some name =>
    simp only [all_some]
    split
    · rfl
    · rw [nil_append, ← hparams, failure?_bind (v := none) fun _ => rfl, or_none]

/-- A sequence of steps with a registry fails as its first step does, or else as its second one. -/
theorem failure?_bind_lift {x : Lift α} {f : α → Lift β} {v : Option Unsupported}
    (h : ∀ a q, failure? (f a q).1 = v) (r : Functions) :
    failure? ((x >>= f) r).1 = (failure? (x r).1).or v := by
  simp only [bind, ExceptT.bind, ExceptT.mk, StateT.bind, ExceptT.bindCont]
  rcases x r with ⟨_ | a, r₁⟩
  · rfl
  · exact h a r₁

mutual

theorem failure?_stmt (nested : Bool) (s : Stmt) (r : Functions) :
    failure? (stmt nested s r).1 = s.obstacles.head? := by
  cases s with
  | vars _ _ kind ds => exact failure?_declarators kind ds
  | function head body =>
    rw [stmt, Stmt.obstacles, head?_append, ← failure?_signature]
    refine failure?_bind_lift (fun sig q => ?_) r
    cases nested with
    | true =>
      refine (failure?_bind_lift (x := stmts true body) (v := none) (fun _ _ => rfl) _).trans ?_
      rw [or_none, failure?_stmts]
    | false =>
      refine (failure?_bind_lift (x := stmts true body) (v := none) (fun _ _ => rfl) _).trans ?_
      rw [or_none, failure?_stmts]
  | block _ body =>
    rw [stmt, failure?_bind_lift (v := none) (fun _ _ => rfl), or_none, failure?_stmts]
    rfl
  | expression _ e =>
    refine (failure?_bind_lift (x := liftM (expr r e)) (v := none) (fun _ _ => rfl) r).trans ?_
    rw [or_none]
    exact failure?_expr e
  | return_ _ e =>
    refine (failure?_bind_lift (x := liftM (expr? r e)) (v := none) (fun _ _ => rfl) r).trans ?_
    rw [or_none]
    exact failure?_expr? e
  | empty _ | other _ => rfl

/-- Lifting stops at the first obstacle. What is in the registry does not matter. -/
theorem failure?_stmts (nested : Bool) (ss : List Stmt) (r : Functions) :
    failure? (stmts nested ss r).1 = (Stmt.obstaclesOfList ss).head? := by
  cases ss with
  | nil => rfl
  | cons s ss =>
    rw [stmts, Stmt.obstaclesOfList, head?_append, ← failure?_stmt nested s r]
    refine failure?_bind_lift (fun _ q => ?_) r
    rw [← failure?_stmts nested ss q, failure?_bind_lift (v := none) fun _ _ => rfl, or_none]

end

theorem failure?_program (p : Program) (r : Functions) :
    failure? (program p r).1 = (Stmt.obstaclesOfList p.statements).head? := by
  refine (failure?_bind_lift (x := stmts false p.statements) (v := none) (fun _ _ => rfl)
    r.clear).trans ?_
  rw [or_none, failure?_stmts]

theorem stmt_supported {nested : Bool} {r r' : Functions} (s : Stmt) {code : List Code.Stmt}
    (h : stmt nested s r = (.ok code, r')) : s.Supported := by
  have hfailure := failure?_stmt nested s r
  rw [h] at hfailure
  exact (Stmt.obstacles_eq_nil s).1 (head?_eq_none_iff.1 hfailure.symm)

/-- The statements of a program that is lifted are supported. -/
theorem program_supported {r r' : Functions} {code : List Code.Stmt}
    (h : program p r = (.ok code, r')) : Stmt.SupportedList p.statements := by
  have hfailure := failure?_program p r
  rw [h] at hfailure
  exact (Stmt.obstaclesOfList_eq_nil _).1 (head?_eq_none_iff.1 hfailure.symm)

/-- A program with a lifted text is supported. -/
theorem supported_of_text {layout : Layout} {r : Functions} {out : String}
    (hout : (Lifting.text layout p r).1 = .ok out) : Stmt.SupportedList p.statements := by
  cases hprogram : program p r with
  | mk result r' =>
    cases result with
    | error u => simp [Lifting.text, hprogram, Except.map] at hout
    | ok code => exact program_supported hprogram

/-- Supported programs are lifted. -/
theorem exists_program_ok (h : Stmt.SupportedList p.statements) (r : Functions) :
    ∃ code r', program p r = (.ok code, r') := by
  have hfailure := failure?_program p r
  rw [(Stmt.obstaclesOfList_eq_nil _).2 h] at hfailure
  match hp : program p r with
  | (.ok code, r') => exact ⟨code, r', rfl⟩
  | (.error u, r') =>
    rw [hp] at hfailure
    cases hfailure

/-- What lifting a program gives does not depend on the registry that it starts with. -/
theorem program_result_eq (p : Program) (r q : Functions) : (program p r).1 = (program p q).1 := by
  have hr := failure?_program p r
  have hq := failure?_program p q
  match hp : program p r, hp' : program p q with
  | (.ok code, r'), (.ok code', q') =>
    obtain ⟨rfl, hfunctions⟩ := program_determined hp
    obtain ⟨rfl, hfunctions'⟩ := program_determined hp'
    rw [hfunctions, hfunctions']
  | (.error u, r'), (.error v, q') =>
    simp only [hp, hp', failure?] at hr hq
    rw [Option.some.inj (hr.trans hq.symm)]
  | (.ok code, r'), (.error v, q') | (.error v, r'), (.ok code, q') =>
    simp only [hp, hp', failure?] at hr hq
    cases hr.trans hq.symm

theorem eq_error_iff_failure? {u : ε} :
    x = .error u ↔ failure? x = some u := by
  cases x <;> simp [failure?]

theorem exists_ok_iff_failure? :
    (∃ a, x = .ok a) ↔ failure? x = none := by
  cases x <;> simp [failure?]

/-- **Exactly the supported programs are lifted.** For every tree, every layout and every registry:
there is a text exactly if the tree is supported; otherwise the first obstacle is reported. The
result is the same for all registries, and so is what stops a list of statements anywhere in a
program. -/
theorem accepts_exactly_supported (layout : Layout) (p : Program) (r : Functions) :
    ((∃ out, (text layout p r).1 = .ok out) ↔ Stmt.SupportedList p.statements) ∧
      (∀ u, (text layout p r).1 = .error u ↔
        (Stmt.obstaclesOfList p.statements).head? = some u) ∧
      (∀ q, (text layout p q).1 = (text layout p r).1) ∧
      ∀ nested q, failure? (stmts nested p.statements q).1 =
        (Stmt.obstaclesOfList p.statements).head? := by
  have hresult (q : Functions) : (text layout p q).1 =
      (program p q).1.map (Code.programText layout) := rfl
  have hfailure : failure? (text layout p r).1 =
      (Stmt.obstaclesOfList p.statements).head? := by
    rw [hresult, failure?_map, failure?_program]
  refine ⟨?_, ?_, ?_, fun nested q => failure?_stmts nested p.statements q⟩
  · rw [exists_ok_iff_failure?, hfailure, List.head?_eq_none_iff, Stmt.obstaclesOfList_eq_nil]
  · intro u
    rw [eq_error_iff_failure?, hfailure]
  · intro q
    rw [hresult, hresult, program_result_eq p q r]

end Lifting

end LambdaLift
