import LambdaLift.Proofs.Execution.Core
import LambdaLift.Proofs.Scope.Lexical
import Mathlib.Data.List.Nodup

/-!
# Function declarations may stand anywhere in their list

A function is declared when the list it stands in is entered, so it does not matter where in the
list it stands, unless the list declares its name more than once.

* `FunctionsMoved`: one list becomes the other by moving function declarations of distinct names.
* `Stmt.Rearranged`, `Stmt.RearrangedList`: functions are moved in any lists of a tree.
* `run_eq_of_rearranged`: that does not change what a program prints, nor how it fails.
-/

namespace LambdaLift

open List Stmt

open LexicalScope (listNames)

/-- Whether the statement is a function declaration. -/
def Stmt.isFunction : Stmt → Bool
  | .function .. => true
  | .vars .. | .block .. | .empty _ | .expression .. | .return_ .. | .other _ => false

/-- The function declarations among statements. -/
def Stmt.functionsOf (ss : List Stmt) : List Stmt :=
  ss.filter isFunction

/-- The statements that are no function declarations. -/
def Stmt.othersOf (ss : List Stmt) : List Stmt :=
  ss.filter (!·.isFunction)

/-- The function declarations of a list are moved, and the other statements keep their order. The
functions have distinct names, which no other statement declares in the list. -/
structure FunctionsMoved (ss ts : List Stmt) : Prop where
  functions : (functionsOf ss).Perm (functionsOf ts)
  others : othersOf ts = othersOf ss
  distinct : ((functionsOf ss).flatMap listNames).Nodup
  apart : ∀ x ∈ (functionsOf ss).flatMap listNames,
    x ∉ (othersOf ss).flatMap listNames

/-- In lists of statements within the statement, functions are moved. -/
inductive Stmt.Rearranged : Stmt → Stmt → Prop
  | same (s : Stmt) : Rearranged s s
  | block (r : Range) {ss ts us : List Stmt} (h : List.Forall₂ Rearranged ss ts)
      (hmoved : us = ts ∨ FunctionsMoved ts us) : Rearranged (.block r ss) (.block r us)
  | function (head : FunctionHead) {ss ts us : List Stmt} (h : List.Forall₂ Rearranged ss ts)
      (hmoved : us = ts ∨ FunctionsMoved ts us) : Rearranged (.function head ss) (.function head us)

/-- Functions are moved within statements, and then in the list itself. -/
def Stmt.RearrangedList (ss us : List Stmt) : Prop :=
  ∃ ts, List.Forall₂ Stmt.Rearranged ss ts ∧ (us = ts ∨ FunctionsMoved ts us)

theorem Stmt.forall₂_same (ss : List Stmt) : List.Forall₂ Stmt.Rearranged ss ss :=
  List.forall₂_same.2 fun s _ => .same s

theorem Stmt.RearrangedList.refl (ss : List Stmt) : Stmt.RearrangedList ss ss :=
  ⟨ss, forall₂_same ss, .inl rfl⟩

namespace Execution

open Stmt (RearrangedList)

/-! ## Functions are moved in one list -/

section Moved

variable {ss ts : List Stmt}

/-- Where it stands, a function declaration does nothing. -/
theorem stmts_othersOf (calls : Calls) (env : Environment) (ss : List Stmt) :
    stmts calls env (othersOf ss) = stmts calls env ss := by
  induction ss with
  | nil => rfl
  | cons s ss ih =>
    rw [stmts_cons, ← ih]
    by_cases hs : s.isFunction
    · cases s with
      | function head body =>
        rw [stmt, pure_bind]
        rfl
      | _ => cases hs
    · rw [othersOf, filter_cons_of_pos (by simpa using hs), stmts_cons]
      rfl

theorem varNamesOfList_othersOf (ss : List Stmt) :
    varNamesOfList (othersOf ss) = varNamesOfList ss := by
  induction ss with
  | nil => rfl
  | cons s ss ih =>
    rw [varNamesOfList, ← ih]
    by_cases hs : s.isFunction
    · cases s with
      | function head body => rfl
      | _ => cases hs
    · rw [othersOf, filter_cons_of_pos (by simpa using hs), varNamesOfList]
      rfl

theorem eq_of_perm_of_length_le_one {α : Type} {l l' : List α} (h : l.Perm l') (hl : l.length ≤ 1) :
    l' = l := by
  match l with
  | [] => exact h.nil_eq.symm
  | [a] => exact perm_singleton.1 h.symm

/-- What is declared under a name does not depend on what is declared under others. -/
theorem lookup?_declareAll_filter {s s' : Store} {i j : Nat} {x : String} (hnext : s'.next = s.next)
    (hx : s'.lookup? j x = s.lookup? j x) (ds : List (String × Variable)) :
    (s'.declareAll i (ds.filter (·.1 == x))).lookup? j x = (s.declareAll i ds).lookup? j x := by
  induction ds generalizing s s' with
  | nil => exact hx
  | cons d ds ih =>
    rw [Store.declareAll_cons]
    by_cases hd : d.1 = x
    · rw [filter_cons_of_pos (by simpa using hd), Store.declareAll_cons]
      refine ih (by simp [hnext]) ?_
      rw [Store.lookup?_declare_eq, Store.lookup?_declare_eq, hnext, hx]
    · rw [filter_cons_of_neg (by simpa using hd)]
      refine ih (by simp [hnext]) ?_
      rw [Store.lookup?_declare_of_ne d.1 d.2 j (Ne.symm hd), hx]

theorem map_fst_declarationsOf (env : Environment) (s : Stmt) :
    (declarationsOf env s).map Prod.fst = listNames s := by
  cases s with
  | vars _ _ kind ds =>
    simp only [declarationsOf, listNames]
    split <;> simp [Function.comp_def]
  | function head body => simp [declarationsOf, listNames, Function.comp_def]
  | _ => rfl

/-- What a list declares under a name that only some of its statements declare. -/
theorem filter_declarations (env : Environment) {x : String} {q : Stmt → Bool} {ss : List Stmt}
    (h : ∀ s ∈ ss, q s = false → x ∉ listNames s) :
    (declarations env ss).filter (·.1 == x) =
      (declarations env (ss.filter q)).filter (·.1 == x) := by
  induction ss with
  | nil => rfl
  | cons s ss ih =>
    obtain ⟨hs, hss⟩ := forall_mem_cons.1 h
    rw [declarations, flatMap_cons, filter_append]
    cases hq : q s with
    | true =>
      rw [filter_cons_of_pos hq, declarations, flatMap_cons, filter_append]
      exact congrArg _ (ih hss)
    | false =>
      have hnone : (declarationsOf env s).filter (·.1 == x) = [] := by
        refine filter_eq_nil_iff.2 fun d hd hx => hs hq ?_
        rw [← map_fst_declarationsOf env, ← of_decide_eq_true hx]
        exact mem_map_of_mem hd
      rw [filter_cons_of_neg (by simp [hq]), hnone]
      exact ih hss

/-- Statements that declare distinct names declare a name at most once. -/
theorem length_filter_declarations (env : Environment) {ss : List Stmt}
    (h : (ss.flatMap listNames).Nodup) (x : String) :
    ((declarations env ss).filter (·.1 == x)).length ≤ 1 := by
  have hnames : (declarations env ss).map Prod.fst = ss.flatMap listNames := by
    simp only [declarations, map_flatMap, map_fst_declarationsOf]
  have hcount := nodup_iff_count_le_one.1 h x
  rw [← hnames, count, countP_map] at hcount
  rwa [← countP_eq_length_filter]

/-- A name is declared by one function, or by other statements only. Either way all stays as it is
when functions are moved. -/
theorem filter_declarations_moved (h : FunctionsMoved ss ts) (env : Environment) (x : String) :
    (declarations env ts).filter (·.1 == x) =
      (declarations env ss).filter (·.1 == x) := by
  by_cases hx : x ∈ (functionsOf ss).flatMap listNames
  · have hnone {us : List Stmt} (hus : othersOf us = othersOf ss) :
        ∀ s ∈ us, s.isFunction = false → x ∉ listNames s := by
      intro s hs hq hmem
      refine h.apart x hx (hus ▸ mem_flatMap.2 ⟨s, mem_filter.2 ⟨hs, ?_⟩, hmem⟩)
      rw [hq]
      rfl
    rw [filter_declarations env (hnone rfl),
      filter_declarations env (hnone h.others)]
    exact eq_of_perm_of_length_le_one ((h.functions.flatMap_right _).filter _)
      (length_filter_declarations env h.distinct x)
  · have hnone {us : List Stmt} (hus : (functionsOf ss).Perm (functionsOf us)) :
        ∀ s ∈ us, (!s.isFunction) = false → x ∉ listNames s := by
      intro s hs hq hmem
      refine hx ((hus.flatMap_right listNames).mem_iff.2 ?_)
      exact mem_flatMap.2 ⟨s, mem_filter.2 ⟨hs, by simpa using hq⟩, hmem⟩
    rw [filter_declarations env (hnone (.refl _)),
      filter_declarations env (hnone h.functions)]
    exact congrArg _ (congrArg _ h.others)

/-- Moved functions are declared all the same, and where they stand they do nothing. -/
theorem interchangeable_of_moved (h : FunctionsMoved ss ts) : Interchangeable ss ts where
  varNames := by rw [← varNamesOfList_othersOf ts, h.others, varNamesOfList_othersOf]
  lookup? env s i x := by
    rw [declareList_eq, declareList_eq, ← lookup?_declareAll_filter rfl rfl,
      ← lookup?_declareAll_filter (s := s) rfl rfl (declarations env ss),
      filter_declarations_moved h env x]
  stmts calls env := by rw [← stmts_othersOf calls env ts, h.others, stmts_othersOf]

end Moved

/-! ## Statements within statements -/

/-- Bodies may be rearranged. -/
abbrev upToOrder : Leeway where
  bodies := RearrangedList

theorem matches_of_rearranged {s t : Stmt} (h : s.Rearranged t) : s.Matches upToOrder t := by
  cases h with
  | same s =>
    cases s with
    | block r ss => exact .block r (.refl ss)
    | function head ss => exact .function False.elim (.refl ss)
    | _ => exact .plain rfl False.elim
  | block r h hmoved => exact .block r ⟨_, h, hmoved⟩
  | function head h hmoved => exact .function False.elim ⟨_, h, hmoved⟩

theorem listsMatch_rearranged : ListsMatch upToOrder := by
  rintro ss us ⟨ts, hforall, hmoved⟩
  refine ⟨ts, hforall.imp fun _ _ => matches_of_rearranged, ?_⟩
  rcases hmoved with rfl | hmoved
  · exact .refl us
  · exact interchangeable_of_moved hmoved

/-- **Moved functions.** Moving function declarations in lists of statements, be it that of the
program, of a block or of a function, changes neither what a program prints nor how it fails. The
positions of what is moved do not matter. -/
theorem run_eq_of_rearranged {p q : Program} {ss : List Stmt}
    (hmoved : RearrangedList p.statements ss)
    (hcore : Stmt.coreList q.statements = Stmt.coreList ss) (limit : Nat) :
    run limit q = run limit p := by
  rw [run_eq_of_core (q := ⟨0, ss⟩) hcore]
  exact run_eq_of_bodies (tandem_body listsMatch_rearranged) hmoved limit

/-- A function without parameters. -/
def plainFunction (x : String) (body : List Stmt) : Stmt :=
  .function ⟨noRange, false, false, some ⟨noRange, x, false⟩, [], noRange⟩ body

/-- A call of a name. -/
def plainCall (x : String) (args : List Expr) : Expr :=
  .call noRange false (.ident ⟨noRange, x, false⟩) args

/-- Statements with a function that the first of them calls. -/
def calledEarly (s : Stmt) (x : String) (body : List Stmt) : List Stmt :=
  [s, plainFunction x body]

/-- The same with the function in front. -/
def calledLate (s : Stmt) (x : String) (body : List Stmt) : List Stmt :=
  [plainFunction x body, s]

/-- Prints what a function gives that gives what a function in it gives. -/
def printed (arrange : Stmt → String → List Stmt → List Stmt) : Program where
  length := 0
  statements := arrange (.expression noRange (plainCall "print" [plainCall "f" []])) "f"
    (arrange (.return_ noRange (some (plainCall "g" []))) "g"
      [.return_ noRange (some (.boolean noRange true))])

theorem printed_calledLate :
    RearrangedList (printed calledEarly).statements (printed calledLate).statements ∧
      run 2 (printed calledLate) = run 2 (printed calledEarly) ∧
      (run 2 (printed calledEarly)).toOption = some "true\n" := by
  have hmoved (s : Stmt) (x : String) (body : List Stmt) (hs : s.isFunction = false)
      (hx : x ∉ listNames s) : FunctionsMoved (calledEarly s x body) (calledLate s x body) := by
    have hfunction : (plainFunction x body).isFunction = true := rfl
    have hnames : listNames (plainFunction x body) = [x] := rfl
    constructor <;>
      simp [Stmt.functionsOf, Stmt.othersOf, calledEarly, calledLate, hfunction, hnames,
        hs, hx]
  have hrearranged :
      RearrangedList (printed calledEarly).statements (printed calledLate).statements :=
    ⟨_, .cons (.same _) (.cons (.function _ (Stmt.forall₂_same _)
      (.inr (hmoved _ "g" _ rfl (by decide)))) .nil), .inr (hmoved _ "f" _ rfl (by decide))⟩
  exact ⟨hrearranged, run_eq_of_rearranged hrearranged rfl 2, by decide +kernel⟩

end Execution

end LambdaLift
