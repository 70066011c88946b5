import LambdaLift.Proofs.Execution.Agree
import LambdaLift.Proofs.Execution.Variables

/-!
# Declarations in a scope

Parameters, the variables of a function and what a list of statements declares are put into one
scope, one after another.

* `Store.declareAll`: puts variables into a scope. Distinct ones are all found there afterwards.
* `declarations`, `argumentsOf`: what statements and parameters declare.
* `declareList_eq`, `declareVars_eq`, `bindParams_eq`: the declarations of a program in these terms.
-/

namespace LambdaLift

open List

namespace Store

/-- Declares variables in one scope. -/
def declareAll (s : Store) (i : Nat) (ds : List (String × Variable)) : Store :=
  ds.foldl (fun s d => s.declare i d.1 d.2) s

variable {s : Store} {i : Nat}

@[simp] theorem declareAll_cons (d : String × Variable) (ds : List (String × Variable)) :
    s.declareAll i (d :: ds) = (s.declare i d.1 d.2).declareAll i ds := rfl

theorem declareAll_append (ds ds' : List (String × Variable)) :
    s.declareAll i (ds ++ ds') = (s.declareAll i ds).declareAll i ds' :=
  foldl_append

@[simp] theorem next_declareAll (ds : List (String × Variable)) :
    (s.declareAll i ds).next = s.next := by
  induction ds generalizing s with
  | nil => rfl
  | cons d ds ih => rw [declareAll_cons, ih, next_declare]

theorem lookup?_declareAll_of_ne_scope (ds : List (String × Variable)) {j : Nat} (hj : j ≠ i)
    (x : String) : (s.declareAll i ds).lookup? j x = s.lookup? j x := by
  induction ds generalizing s with
  | nil => rfl
  | cons d ds ih => rw [declareAll_cons, ih, lookup?_declare_of_ne_scope d.1 d.2 hj]

variable {ds : List (String × Variable)}

theorem lookup?_declareAll_of_not_mem {x : String} (hx : x ∉ ds.map Prod.fst) (j : Nat) :
    (s.declareAll i ds).lookup? j x = s.lookup? j x := by
  induction ds generalizing s with
  | nil => rfl
  | cons d ds ih =>
    rw [map_cons, mem_cons, not_or] at hx
    rw [declareAll_cons, ih hx.2, lookup?_declare_of_ne d.1 d.2 j hx.1]

/-- Variables with distinct names are found after they were declared. -/
theorem lookup?_declareAll_of_mem (hi : i < s.next) (hd : (ds.map Prod.fst).Nodup)
    {d : String × Variable} (hmem : d ∈ ds) :
    (s.declareAll i ds).lookup? i d.1 = some d.2 := by
  induction ds generalizing s with
  | nil => cases hmem
  | cons d' ds ih =>
    rw [map_cons, nodup_cons] at hd
    rw [declareAll_cons]
    rcases mem_cons.1 hmem with rfl | hmem
    · rw [lookup?_declareAll_of_not_mem hd.1, lookup?_declare_self hi]
    · exact ih (by simpa using hi) hd.2 hmem

/-! ## A new scope -/

/-- Opens a scope and declares variables in it. -/
def pushWith (s : Store) (ds : List (String × Variable)) : Store :=
  s.push.declareAll s.next ds

@[simp] theorem next_pushWith (ds : List (String × Variable)) :
    (s.pushWith ds).next = s.next + 1 := by
  simp [pushWith]

theorem lookup?_pushWith_of_lt (ds : List (String × Variable)) {j : Nat} (hj : j < s.next)
    (x : String) : (s.pushWith ds).lookup? j x = s.lookup? j x := by
  rw [pushWith, lookup?_declareAll_of_ne_scope ds (Nat.ne_of_lt hj), lookup?_push]

theorem lookup?_pushWith_of_not_mem {x : String} (hx : x ∉ ds.map Prod.fst) :
    (s.pushWith ds).lookup? s.next x = none := by
  rw [pushWith, lookup?_declareAll_of_not_mem hx, lookup?_push, lookup?_of_le (Nat.le_refl _)]

theorem lookup?_pushWith_of_mem (hd : (ds.map Prod.fst).Nodup) {d : String × Variable}
    (hmem : d ∈ ds) : (s.pushWith ds).lookup? s.next d.1 = some d.2 :=
  lookup?_declareAll_of_mem (by simp) hd hmem

theorem Frame.pushWith {base : Nat} {names : List String} (s : Store)
    (ds : List (String × Variable)) : Frame base names s (s.pushWith ds) where
  next := by simp
  lookup? _ hj y _ := lookup?_pushWith_of_lt ds hj y

end Store

namespace Execution

theorem store_initial : World.initial.store =
    (Store.push ⟨#[]⟩).declare globalScope "print" ⟨some .print, .var⟩ :=
  rfl

/-! ## Statements -/

/-- What a statement declares for the list of statements it stands in. -/
def declarationsOf (env : Environment) : Stmt → List (String × Variable)
  | .vars _ _ kind ds =>
    if kind.isBlockScoped then
      (ds.filterMap (·.target.name?)).map (·, { value := none, kind := kind.variableKind })
    else []
  | .function head body => head.name?.toList.map (·, .ofFunction ⟨env, head, body⟩)
  | .block .. | .expression .. | .return_ .. | .empty _ | .other _ => []

/-- What statements declare for the list they make up. -/
def declarations (env : Environment) (ss : List Stmt) : List (String × Variable) :=
  ss.flatMap (declarationsOf env)

theorem declarations_append (env : Environment) (ss ss' : List Stmt) :
    declarations env (ss ++ ss') = declarations env ss ++ declarations env ss' :=
  flatMap_append

theorem declareStmt_eq (env : Environment) (s : Stmt) (store : Store) :
    declareStmt env store s = store.declareAll (innermost env) (declarationsOf env s) := by
  cases s with
  | vars _ _ kind ds =>
    simp only [declareStmt, declarationsOf]
    split
    · rw [Store.declareAll, foldl_map]
    · rfl
  | function head body =>
    simp only [declareStmt, declarationsOf]
    cases head.name? <;> rfl
  | _ => rfl

theorem declareList_eq (env : Environment) (ss : List Stmt) (store : Store) :
    declareList env ss store = store.declareAll (innermost env) (declarations env ss) := by
  induction ss generalizing store with
  | nil => rfl
  | cons s ss ih =>
    rw [declarations, flatMap_cons, Store.declareAll_append, ← declareStmt_eq]
    exact ih _

/-- The variables of a function before they have a value. -/
def undefinedVariables (names : List String) : List (String × Variable) :=
  names.map (·, { value := some .undefined, kind := .var })

theorem declareVars_eq {env : Environment} {body : List Stmt} {store : Store}
    (hdistinct : (varNamesOfList body).Nodup)
    (hnew : ∀ x ∈ varNamesOfList body, store.lookup? (innermost env) x = none) :
    declareVars env body store =
      store.declareAll (innermost env) (undefinedVariables (varNamesOfList body)) := by
  unfold declareVars undefinedVariables
  generalize varNamesOfList body = xs at hdistinct hnew
  induction xs generalizing store with
  | nil => rfl
  | cons x xs ih =>
    rw [nodup_cons] at hdistinct
    rw [foldl_cons, Store.declareVar_of_none (hnew x (mem_cons_self ..)), map_cons,
      Store.declareAll_cons]
    refine ih hdistinct.2 fun y hy => ?_
    have hyx : y ≠ x := fun hyx => hdistinct.1 (hyx ▸ hy)
    rw [Store.lookup?_declare_of_ne _ _ _ hyx]
    exact hnew y (mem_cons_of_mem _ hy)

/-! ## Parameters -/

/-- The variables of parameters. A parameter without an argument is undefined. -/
def argumentsOf : List String → List Value → List (String × Variable)
  | [], _ => []
  | x :: xs, args =>
    (x, { value := some (args.headD .undefined), kind := .parameter }) :: argumentsOf xs args.tail

@[simp] theorem map_fst_argumentsOf (xs : List String) (args : List Value) :
    (argumentsOf xs args).map Prod.fst = xs := by
  induction xs generalizing args with
  | nil => rfl
  | cons x xs ih => rw [argumentsOf, map_cons, ih]

theorem bindParams_eq {env : Environment} {params : List Param}
    (h : ∀ p ∈ params, p.plainName?.isSome) (args : List Value) (w : World) :
    bindParams env params args w =
      (.ok (), ⟨w.store.declareAll (innermost env)
        (argumentsOf (params.filterMap Param.plainName?) args), w.output⟩) := by
  induction params generalizing args w with
  | nil => rfl
  | cons p params ih =>
    obtain ⟨x, hx⟩ := Option.isSome_iff_exists.1 (h p (mem_cons_self ..))
    rw [filterMap_cons_some hx]
    simp only [bindParams, hx, argumentsOf, Store.declareAll_cons]
    exact ih (fun p' hp' => h p' (mem_cons_of_mem _ hp')) args.tail _

theorem exists_mem_argumentsOf {x : String} {xs : List String} (hx : x ∈ xs) (args : List Value) :
    ∃ v, (v ∈ args ∨ v = .undefined) ∧
      (x, { value := some v, kind := .parameter }) ∈ argumentsOf xs args := by
  induction xs generalizing args with
  | nil => cases hx
  | cons y xs ih =>
    rcases mem_cons.1 hx with rfl | hx
    · refine ⟨args.headD .undefined, ?_, mem_cons_self ..⟩
      cases args with
      | nil => exact .inr rfl
      | cons v args => exact .inl (mem_cons_self ..)
    · obtain ⟨v, hv, hmem⟩ := ih hx args.tail
      exact ⟨v, hv.imp_left mem_of_mem_tail, mem_cons_of_mem _ hmem⟩

/-- Parameters that are not given are the same as those that are given as undefined. -/
theorem argumentsOf_append {xs : List String} {args : List Value} (h : args.length ≤ xs.length)
    (ys : List String) (more : List Value) :
    argumentsOf (xs ++ ys) (args ++ (replicate (xs.length - args.length) .undefined ++ more)) =
      argumentsOf xs args ++ argumentsOf ys more := by
  induction xs generalizing args with
  | nil =>
    rw [length_eq_zero_iff.1 (Nat.le_zero.1 h)]
    rfl
  | cons x xs ih =>
    cases args with
    | nil =>
      have ih := @ih [] (Nat.zero_le _)
      simpa [argumentsOf, replicate_succ] using ih
    | cons v args =>
      have ih := @ih args (Nat.le_of_succ_le_succ h)
      simpa [argumentsOf] using ih

/-! ## Calls -/

/-- The value of a call whose body ends so. -/
def Completion.value : Completion → Value
  | .normal => .undefined
  | .returned v => v

/-- What a call of a function declares in its scope `i`. -/
def callVariables (f : Closure) (args : List Value) (i : Nat) : List (String × Variable) :=
  argumentsOf (f.head.params.filterMap Param.plainName?) args ++
    (undefinedVariables (varNamesOfList f.body) ++ declarations (i :: f.environment) f.body)

/-- A call runs the body of the function in a new scope. -/
theorem call_succ {n : Nat} {f : Closure} {args : List Value} {w : World}
    (hparams : ∀ p ∈ f.head.params, p.plainName?.isSome)
    (hdistinct : (f.head.params.filterMap Param.plainName? ++ varNamesOfList f.body).Nodup) :
    call (n + 1) f args w =
      (do return (← stmts (call n) (w.store.next :: f.environment) f.body).value : Run Value)
        ⟨w.store.pushWith (callVariables f args w.store.next), w.output⟩ := by
  have hvars : ∀ x ∈ varNamesOfList f.body,
      (w.store.pushWith (argumentsOf (f.head.params.filterMap Param.plainName?) args)).lookup?
        w.store.next x = none := by
    intro x hx
    refine Store.lookup?_pushWith_of_not_mem ?_
    rw [map_fst_argumentsOf]
    exact fun hparam => (nodup_append.1 hdistinct).2.2 x hparam x hx rfl
  have hbody : w.store.pushWith (callVariables f args w.store.next) =
      declareList (w.store.next :: f.environment) f.body
        (declareVars (w.store.next :: f.environment) f.body
          (w.store.pushWith (argumentsOf (f.head.params.filterMap Param.plainName?) args))) := by
    rw [declareVars_eq (nodup_append.1 hdistinct).2.1 hvars, declareList_eq, callVariables,
      Store.pushWith, Store.declareAll_append, Store.declareAll_append]
    rfl
  have hcall : call (n + 1) f args = (do
      let env ← openScope f.environment
      bindParams env f.head.params args
      return (← body (call n) env f.body).value) := by
    rw [call]
    refine congrArg _ (funext fun env => congrArg _ (funext fun _ => congrArg _ (funext fun c => ?_)))
    cases c <;> rfl
  have hopen : openScope f.environment w =
      (.ok (w.store.next :: f.environment), ⟨w.store.push, w.output⟩) := rfl
  rw [hcall, bind_apply, hopen]
  simp only
  rw [bind_apply, bindParams_eq hparams, hbody]
  rfl

end Execution

end LambdaLift
