import LambdaLift.Tree.Walk

/-!
# What a program declares and calls

* `Stmt.nestedFunctions`, `Stmt.nestedNames`: the functions that are declared in the body of
  another function.
* `Stmt.outerFunctions`: the functions that are not.
* `Stmt.variables`: the variables and parameters.
* `Stmt.CallsInside`: every call of a nested function stands in the list of statements that
  declares the function.
* `Stmt.CallsAfter`: moreover it comes after the declaration, or stands in the function itself.
-/

namespace LambdaLift

open Stmt

mutual

/-- The names that an expression calls. -/
def Expr.callees : Expr → List String
  | .paren _ e | .unary _ _ e | .update _ _ e => e.callees
  | .binary _ _ _ a b => a.callees ++ b.callees
  | .call _ _ f args => f.name?.toList ++ Expr.calleesOfList args
  | .ident _ | .number _ | .string _ | .boolean .. | .null _ | .other _ => []

/-- The names that expressions call. -/
def Expr.calleesOfList : List Expr → List String
  | [] => []
  | e :: es => e.callees ++ Expr.calleesOfList es

end

mutual

/-- The names that a statement calls anywhere in it. -/
def Stmt.callees : Stmt → List String
  | .vars _ _ _ ds => ds.flatMap fun d => d.init.elim [] Expr.callees
  | .function _ body | .block _ body => calleesOfList body
  | .expression _ e => e.callees
  | .return_ _ e => e.elim [] Expr.callees
  | .empty _ | .other _ => []

/-- The names that statements call anywhere in them. -/
def Stmt.calleesOfList : List Stmt → List String
  | [] => []
  | s :: ss => s.callees ++ calleesOfList ss

end

/-- The names of the functions that stand directly in a list of statements. -/
def Stmt.directFunctions : List Stmt → List String
  | [] => []
  | .function head _ :: ss => head.name?.toList ++ Stmt.directFunctions ss
  | _ :: ss => Stmt.directFunctions ss

mutual

/-- The names of the functions declared in function bodies, in the order of the text. The
statement itself stands in a function body if `nested`. -/
def Stmt.nestedNames (nested : Bool) : Stmt → List String
  | .function head body =>
    (if nested then head.name?.toList else []) ++ nestedNamesOfList true body
  | .block _ body => nestedNamesOfList nested body
  | .vars .. | .expression .. | .return_ .. | .empty _ | .other _ => []

/-- The names of the functions declared in function bodies, of a list of statements. -/
def Stmt.nestedNamesOfList (nested : Bool) : List Stmt → List String
  | [] => []
  | s :: ss => s.nestedNames nested ++ nestedNamesOfList nested ss

end

mutual

/-- The functions declared in function bodies, in the order of the text. The statement itself stands
in a function body if `nested`. -/
def Stmt.nestedFunctions (nested : Bool) : Stmt → List (FunctionHead × List Stmt)
  | .function head body =>
    (if nested then [(head, body)] else []) ++ nestedFunctionsOfList true body
  | .block _ body => nestedFunctionsOfList nested body
  | .vars .. | .expression .. | .return_ .. | .empty _ | .other _ => []

/-- The functions declared in function bodies, of a list of statements. -/
def Stmt.nestedFunctionsOfList (nested : Bool) : List Stmt → List (FunctionHead × List Stmt)
  | [] => []
  | s :: ss => s.nestedFunctions nested ++ nestedFunctionsOfList nested ss

end

mutual

theorem Stmt.nestedNames_eq (nested : Bool) (s : Stmt) :
    s.nestedNames nested = (s.nestedFunctions nested).filterMap (·.1.name?) := by
  cases s with
  | function head body =>
    rw [Stmt.nestedNames, nestedFunctions, List.filterMap_append,
      nestedNamesOfList_eq true body]
    congr 1
    cases nested with
    | true => cases hname : head.name? <;> simp [hname]
    | false => rfl
  | block _ body => exact nestedNamesOfList_eq nested body
  | vars _ _ _ _ | expression _ _ | return_ _ _ | empty _ | other _ => rfl

/-- The names of nested functions are those of the functions. -/
theorem Stmt.nestedNamesOfList_eq (nested : Bool) (ss : List Stmt) :
    nestedNamesOfList nested ss =
      (nestedFunctionsOfList nested ss).filterMap (·.1.name?) := by
  cases ss with
  | nil => rfl
  | cons s ss =>
    rw [nestedNamesOfList, nestedFunctionsOfList, List.filterMap_append,
      nestedNames_eq nested s, nestedNamesOfList_eq nested ss]

end

mutual

/-- The functions that are not declared in a function body. -/
def Stmt.outerFunctions : Stmt → List (FunctionHead × List Stmt)
  | .function head body => [(head, body)]
  | .block _ body => outerFunctionsOfList body
  | .vars .. | .expression .. | .return_ .. | .empty _ | .other _ => []

/-- The functions of a list of statements that are not declared in a function body. -/
def Stmt.outerFunctionsOfList : List Stmt → List (FunctionHead × List Stmt)
  | [] => []
  | s :: ss => s.outerFunctions ++ outerFunctionsOfList ss

end

mutual

/-- The variables and parameters that a statement declares anywhere in it. -/
def Stmt.variables : Stmt → List String
  | .vars _ _ _ ds => ds.filterMap (·.target.name?)
  | .function head body =>
    head.params.filterMap (·.target.name?) ++ variablesOfList body
  | .block _ body => variablesOfList body
  | .expression .. | .return_ .. | .empty _ | .other _ => []

/-- The variables and parameters that statements declare anywhere in them. -/
def Stmt.variablesOfList : List Stmt → List String
  | [] => []
  | s :: ss => s.variables ++ variablesOfList ss

end

/-- Names among `names` are called only if they are `visible`. -/
def Expr.CallsAmong (names visible : List String) (e : Expr) : Prop :=
  ∀ x ∈ e.callees, x ∈ names → x ∈ visible

mutual

/-- Names among `names` are called only where they are `visible`: a function is visible in all of
the list of statements that declares it, also before its declaration and in blocks and functions
of the list. -/
def Stmt.CallsInside (names visible : List String) : Stmt → Prop
  | .vars _ _ _ ds => ∀ d ∈ ds, ∀ e ∈ d.init, e.CallsAmong names visible
  | .function _ body | .block _ body =>
    CallsInsideList names (Stmt.directFunctions body ++ visible) body
  | .expression _ e => e.CallsAmong names visible
  | .return_ _ e => ∀ e' ∈ e, e'.CallsAmong names visible
  | .empty _ | .other _ => True

/-- Names among `names` are called in statements only where they are `visible`. -/
def Stmt.CallsInsideList (names visible : List String) : List Stmt → Prop
  | [] => True
  | s :: ss => s.CallsInside names visible ∧ CallsInsideList names visible ss

end

instance (names visible : List String) (e : Expr) : Decidable (e.CallsAmong names visible) :=
  inferInstanceAs (Decidable (∀ x ∈ e.callees, x ∈ names → x ∈ visible))

mutual

/-- Whether calls are inside can be decided. -/
def Stmt.decideCallsInside (names : List String) :
    (visible : List String) → (s : Stmt) → Decidable (s.CallsInside names visible)
  | visible, .vars _ _ _ ds =>
    inferInstanceAs (Decidable (∀ d ∈ ds, ∀ e ∈ d.init, e.CallsAmong names visible))
  | visible, .function _ body | visible, .block _ body =>
    decideCallsInsideList names (Stmt.directFunctions body ++ visible) body
  | visible, .expression _ e => inferInstanceAs (Decidable (e.CallsAmong names visible))
  | visible, .return_ _ e =>
    inferInstanceAs (Decidable (∀ e' ∈ e, Expr.CallsAmong names visible e'))
  | _, .empty _ | _, .other _ => inferInstanceAs (Decidable True)

/-- Whether calls in statements are inside can be decided. -/
def Stmt.decideCallsInsideList (names : List String) :
    (visible : List String) → (ss : List Stmt) → Decidable (CallsInsideList names visible ss)
  | _, [] => inferInstanceAs (Decidable True)
  | visible, s :: ss =>
    @instDecidableAnd _ _ (decideCallsInside names visible s)
      (decideCallsInsideList names visible ss)

end

instance (names visible : List String) (ss : List Stmt) :
    Decidable (CallsInsideList names visible ss) :=
  decideCallsInsideList names visible ss

mutual

/-- Names among `names` are called only where they are `visible`: a function is visible in the list
of statements that declares it from its own body on, also in blocks and functions there. -/
def Stmt.CallsAfter (names visible : List String) : Stmt → Prop
  | .vars _ _ _ ds => ∀ d ∈ ds, ∀ e ∈ d.init, e.CallsAmong names visible
  | .function _ body | .block _ body => CallsAfterList names visible body
  | .expression _ e => e.CallsAmong names visible
  | .return_ _ e => ∀ e' ∈ e, e'.CallsAmong names visible
  | .empty _ | .other _ => True

/-- Names among `names` are called in statements only where they are `visible`. -/
def Stmt.CallsAfterList (names visible : List String) : List Stmt → Prop
  | [] => True
  | s :: ss =>
    s.CallsAfter names (Stmt.directFunctions [s] ++ visible) ∧
      CallsAfterList names (Stmt.directFunctions [s] ++ visible) ss

end

mutual

/-- Whether calls come after the declarations can be decided. -/
def Stmt.decideCallsAfter (names : List String) :
    (visible : List String) → (s : Stmt) → Decidable (s.CallsAfter names visible)
  | visible, .vars _ _ _ ds =>
    inferInstanceAs (Decidable (∀ d ∈ ds, ∀ e ∈ d.init, e.CallsAmong names visible))
  | visible, .function _ body | visible, .block _ body =>
    decideCallsAfterList names visible body
  | visible, .expression _ e => inferInstanceAs (Decidable (e.CallsAmong names visible))
  | visible, .return_ _ e =>
    inferInstanceAs (Decidable (∀ e' ∈ e, Expr.CallsAmong names visible e'))
  | _, .empty _ | _, .other _ => inferInstanceAs (Decidable True)

/-- Whether calls in statements come after the declarations can be decided. -/
def Stmt.decideCallsAfterList (names : List String) :
    (visible : List String) → (ss : List Stmt) → Decidable (CallsAfterList names visible ss)
  | _, [] => inferInstanceAs (Decidable True)
  | visible, s :: ss =>
    @instDecidableAnd _ _
      (decideCallsAfter names (Stmt.directFunctions [s] ++ visible) s)
      (decideCallsAfterList names (Stmt.directFunctions [s] ++ visible) ss)

end

instance (names visible : List String) (ss : List Stmt) :
    Decidable (CallsAfterList names visible ss) :=
  decideCallsAfterList names visible ss

/-- The names of nested functions that are declared below the list a statement stands in. -/
def Stmt.deepNames : Stmt → List String
  | .function _ body | .block _ body => nestedNamesOfList true body
  | .vars .. | .expression .. | .return_ .. | .empty _ | .other _ => []

/-- In a function body, the nested functions of a statement are the one that it declares and those
below it. -/
theorem Stmt.nestedNames_true (s : Stmt) :
    s.nestedNames true = Stmt.directFunctions [s] ++ s.deepNames := by
  cases s <;> simp [nestedNames, directFunctions, deepNames]

theorem Stmt.directFunctions_cons (s : Stmt) (ss : List Stmt) :
    Stmt.directFunctions (s :: ss) = Stmt.directFunctions [s] ++ Stmt.directFunctions ss := by
  cases s <;> simp [directFunctions]

variable {ss : List Stmt} {x : String}

theorem Stmt.mem_nestedNames_of_direct (h : x ∈ Stmt.directFunctions ss) :
    x ∈ nestedNamesOfList true ss := by
  induction ss with
  | nil => cases h
  | cons s ss ih =>
    rw [directFunctions_cons, List.mem_append] at h
    rw [nestedNamesOfList, nestedNames_true, List.mem_append, List.mem_append]
    rcases h with h | h
    · exact .inl (.inl h)
    · exact .inr (ih h)

theorem Stmt.mem_nestedNames_of_deep {s : Stmt} (hs : s ∈ ss) (h : x ∈ s.deepNames) :
    x ∈ nestedNamesOfList true ss := by
  induction ss with
  | nil => cases hs
  | cons t ss ih =>
    rw [nestedNamesOfList, List.mem_append]
    rcases List.mem_cons.1 hs with rfl | hs
    · exact .inl (by simp [nestedNames_true, h])
    · exact .inr (ih hs)

/-- Where nested functions have distinct names, one that is declared below a statement of a list
does not have the name of one that stands in the list. -/
theorem Stmt.not_direct_of_deep (hd : (nestedNamesOfList true ss).Nodup) {s : Stmt}
    (hs : s ∈ ss) (h : x ∈ s.deepNames) :
    x ∉ Stmt.directFunctions ss := by
  induction ss with
  | nil => cases hs
  | cons t ss ih =>
    rw [nestedNamesOfList, List.nodup_append, nestedNames_true, List.nodup_append] at hd
    obtain ⟨⟨-, -, hfirst⟩, hrest, hboth⟩ := hd
    rw [directFunctions_cons, List.mem_append, not_or]
    rcases List.mem_cons.1 hs with rfl | hs
    · exact ⟨fun hx => hfirst x hx x h rfl, fun hx => hboth x (List.mem_append.2 (.inr h)) x
        (mem_nestedNames_of_direct hx) rfl⟩
    · exact ⟨fun hx => hboth x (List.mem_append.2 (.inl hx)) x
        (mem_nestedNames_of_deep hs h) rfl, ih hrest hs⟩

theorem Stmt.exists_outer_of_direct (h : x ∈ Stmt.directFunctions ss) :
    ∃ f ∈ Stmt.outerFunctionsOfList ss, x ∈ f.1.name? := by
  induction ss with
  | nil => cases h
  | cons s ss ih =>
    rw [directFunctions_cons, List.mem_append] at h
    rcases h with h | h
    · cases s with
      | function head body =>
        exact ⟨(head, body), List.mem_append.2 (.inl (List.mem_singleton.2 rfl)),
          by simpa [directFunctions] using h⟩
      | vars _ _ _ _ | block _ _ | expression _ _ | return_ _ _ | empty _ | other _ => cases h
    · obtain ⟨f, hf, hx⟩ := ih h
      exact ⟨f, List.mem_append.2 (.inr hf), hx⟩

/-! ## Nested functions with names of their own -/

/-- Nested functions have names of their own, which are among `lifted`: no variable and no function
that stays has such a name. The statements stand in a function body if `nested`. -/
structure Stmt.OwnNames (lifted : List String) (nested : Bool) (ss : List Stmt) : Prop where
  distinct : (nestedNamesOfList nested ss).Nodup
  below : ∀ m ∈ nestedNamesOfList nested ss, m ∈ lifted
  vars : ∀ x ∈ variablesOfList ss, x ∉ lifted
  outer : nested = false → ∀ f ∈ outerFunctionsOfList ss, ∀ m ∈ f.1.name?, m ∉ lifted

namespace Stmt.OwnNames

variable {lifted : List String} {nested : Bool} {s : Stmt} {body : List Stmt}

theorem tail (h : OwnNames lifted nested (s :: ss)) : OwnNames lifted nested ss where
  distinct := (List.nodup_append.1 h.distinct).2.1
  below m hm := h.below m (List.mem_append.2 (.inr hm))
  vars x hx := h.vars x (List.mem_append.2 (.inr hx))
  outer hn f hf := h.outer hn f (List.mem_append.2 (.inr hf))

theorem block {r : Range} (h : OwnNames lifted nested (.block r body :: ss)) :
    OwnNames lifted nested body where
  distinct := (List.nodup_append.1 h.distinct).1
  below m hm := h.below m (List.mem_append.2 (.inl hm))
  vars x hx := h.vars x (List.mem_append.2 (.inl hx))
  outer hn f hf := h.outer hn f (List.mem_append.2 (.inl hf))

theorem function {head : FunctionHead} (h : OwnNames lifted nested (.function head body :: ss)) :
    OwnNames lifted true body where
  distinct := (List.nodup_append.1 (List.nodup_append.1 h.distinct).1).2.1
  below m hm := h.below m (List.mem_append.2 (.inl (List.mem_append.2 (.inr hm))))
  vars x hx := h.vars x (List.mem_append.2 (.inl (List.mem_append.2 (.inr hx))))
  outer hn := Bool.noConfusion hn

/-- A nested function does not have the name of one in it. -/
theorem name_notMem {head : FunctionHead} (h : OwnNames lifted true (.function head body :: ss))
    (hname : head.name? = some x) : x ∉ nestedNamesOfList true body := fun hx =>
  (List.nodup_append.1 (List.nodup_append.1 h.distinct).1).2.2 x (by simp [hname]) x hx rfl

/-- A function that stays and stands in the list is not one of the nested functions. -/
theorem direct (h : OwnNames lifted false ss) : ∀ m ∈ directFunctions ss, m ∉ lifted := by
  intro m hm
  obtain ⟨f, hf, hname⟩ := exists_outer_of_direct hm
  exact h.outer rfl f hf m hname

end Stmt.OwnNames

end LambdaLift
