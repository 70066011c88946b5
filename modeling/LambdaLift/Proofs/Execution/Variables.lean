import LambdaLift.Execution.Basic

/-!
# Looking up variables

What changes of a store do to the variables in it.

* `Store.lookup?_declare`, `Store.lookup?_push`: the variables after a declaration and in an opened
  scope.
* `Store.Finds`: the search for a name in an environment, with the environment that is left where
  the search ends.
* `Store.Frame`: only some variables may have changed, and only in scopes from a given one on.
-/

namespace LambdaLift

open List

theorem Scope.get?_put (s : Scope) (x y : String) (v : Variable) :
    (s.put x v).get? y = if y = x then some v else s.get? y := by
  induction s with
  | nil =>
    by_cases hxy : y = x
    · simp [Scope.put, Scope.get?, hxy]
    · simp [Scope.put, Scope.get?, hxy, lookup_cons, beq_false_of_ne hxy]
  | cons p s ih =>
    obtain ⟨n, w⟩ := p
    simp only [Scope.get?, Scope.put] at ih ⊢
    by_cases hn : n = x
    · subst hn
      by_cases hy : y = n
      · simp [hy]
      · simp [lookup_cons, hy, beq_false_of_ne hy]
    · rw [if_neg hn, lookup_cons, lookup_cons, ih]
      by_cases hy : y = n
      · subst hy
        simp [hn]
      · simp [beq_false_of_ne hy]

namespace Store

/-! ## One scope -/

@[simp] theorem next_declare (s : Store) (i : Nat) (x : String) (v : Variable) :
    (s.declare i x v).next = s.next := by
  simp [declare, modify, next]

@[simp] theorem next_push (s : Store) : s.push.next = s.next + 1 := by
  simp [push, next]

variable {i : Nat} {inner : Environment}

theorem lookup?_of_le {s : Store} (h : s.next ≤ i) (x : String) :
    s.lookup? i x = none := by
  simp only [lookup?, scope, Array.getD_eq_getD_getElem?]
  rw [Array.getElem?_eq_none h]
  rfl

theorem lt_next_of_lookup? {s : Store} {x : String} {w : Variable} (h : s.lookup? i x = some w) :
    i < s.next := by
  rcases Nat.lt_or_ge i s.next with hlt | hle
  · exact hlt
  · rw [lookup?_of_le hle] at h
    cases h

theorem lookup?_declare {s : Store} (hi : i < s.next) (x : String) (v : Variable) (j : Nat)
    (y : String) :
    (s.declare i x v).lookup? j y = if j = i ∧ y = x then some v else s.lookup? j y := by
  simp only [lookup?, scope, declare, modify, Array.getD_eq_getD_getElem?, Array.getElem?_modify]
  by_cases hj : i = j
  · subst hj
    have hsome : s.scopes[i]? = some s.scopes[i] := Array.getElem?_eq_getElem hi
    simp only [hsome, if_true, Option.map_some, Option.getD_some, Scope.get?_put, true_and]
  · simp [hj, Ne.symm hj]

@[simp] theorem lookup?_declare_self {s : Store} (hi : i < s.next) (x : String) (v : Variable) :
    (s.declare i x v).lookup? i x = some v := by
  simp [lookup?_declare hi]

theorem lookup?_declare_of_ne {s : Store} (x : String) (v : Variable) (j : Nat) {y : String}
    (hy : y ≠ x) : (s.declare i x v).lookup? j y = s.lookup? j y := by
  simp only [lookup?, scope, declare, modify, Array.getD_eq_getD_getElem?, Array.getElem?_modify]
  split
  · cases s.scopes[j]? with
    | none => rfl
    | some scope => simp [Scope.get?_put, hy]
  · rfl

theorem lookup?_declare_of_ne_scope {s : Store} (x : String) (v : Variable) {j : Nat} (hj : j ≠ i)
    (y : String) : (s.declare i x v).lookup? j y = s.lookup? j y := by
  simp only [lookup?, scope, declare, modify, Array.getD_eq_getD_getElem?, Array.getElem?_modify,
    if_neg (Ne.symm hj)]

/-- A variable can be found if the scope it is declared in is open. -/
theorem lookup?_declare_eq (s : Store) (i : Nat) (x : String) (v : Variable) (j : Nat) (y : String)
    : (s.declare i x v).lookup? j y =
      if i < s.next ∧ j = i ∧ y = x then some v else s.lookup? j y := by
  rcases Nat.lt_or_ge i s.next with hi | hi
  · simp only [lookup?_declare hi, hi, true_and]
  · rw [if_neg fun h => Nat.not_lt.2 hi h.1]
    by_cases hj : j = i
    · subst hj
      rw [lookup?_of_le hi, lookup?_of_le (by simpa using hi)]
    · exact lookup?_declare_of_ne_scope x v hj y

@[simp] theorem lookup?_push (s : Store) (j : Nat) (y : String) :
    s.push.lookup? j y = s.lookup? j y := by
  simp only [lookup?, scope, push, Array.getD_eq_getD_getElem?, Array.getElem?_push]
  by_cases hj : j = s.scopes.size
  · simp [hj]
  · rw [if_neg hj]

theorem declareVar_of_none {s : Store} {x : String} (h : s.lookup? i x = none) (v : Value) :
    s.declareVar i x v = s.declare i x { value := some v, kind := .var } := by
  simp [declareVar, h]

theorem setInitial_of_some {s : Store} {x : String} {w : Variable} (h : s.lookup? i x = some w)
    (v : Value) :
    s.setInitial i x v = s.declare i x { w with value := some v } := by
  simp [setInitial, h]

/-! ## Environments -/

/-- The search for a name ends in the first scope of the environment `at`, at the variable `w`. -/
inductive Finds (s : Store) (x : String) : Environment → Environment → Variable → Prop
  | here {i : Nat} {env : Environment} {w : Variable} (h : s.lookup? i x = some w) :
    Finds s x (i :: env) (i :: env) w
  | there {i : Nat} {env at' : Environment} {w : Variable} (h : s.lookup? i x = none)
    (hrest : Finds s x env at' w) : Finds s x (i :: env) at' w

variable {s s' : Store} {x y : String} {env at' : Environment} {w : Variable}

theorem Finds.exists_cons (h : s.Finds x env at' w) :
    ∃ i rest, at' = i :: rest ∧ s.lookup? i x = some w ∧ s.resolve? x env = some (i, w) := by
  induction h with
  | @here i env w h => exact ⟨i, env, rfl, h, by simp [resolve?, h]⟩
  | there h _ ih =>
    obtain ⟨i, rest, hat, hi, hresolve⟩ := ih
    exact ⟨i, rest, hat, hi, by simpa [resolve?, h] using hresolve⟩

theorem Finds.suffix (h : s.Finds x env at' w) : at' <:+ env := by
  induction h with
  | here h => exact suffix_rfl
  | there _ _ ih => exact ih.trans (suffix_cons ..)

theorem Finds.eq_drop (h : s.Finds x env at' w) : at' = env.drop (env.length - at'.length) :=
  suffix_iff_eq_drop.1 h.suffix

theorem Finds.get (h : s.Finds x env at' w) {v : Value} (hv : w.value = some v) :
    s.get env x = .ok v := by
  obtain ⟨i, rest, -, -, hresolve⟩ := h.exists_cons
  simp [Store.get, hresolve, hv]

/-- A search does not depend on scopes that do not have the name. -/
theorem Finds.append (h : s.Finds x env at' w) (hinner : ∀ j ∈ inner, s.lookup? j x = none) :
    s.Finds x (inner ++ env) at' w := by
  induction inner with
  | nil => exact h
  | cons j inner ih =>
    exact .there (hinner j (mem_cons_self ..))
      (ih fun k hk => hinner k (mem_cons_of_mem _ hk))

/-- A search that ends in the outer part of an environment has passed the inner one. -/
theorem Finds.of_length_le (h : s.Finds x (inner ++ env) at' w)
    (hlength : at'.length ≤ env.length) :
    (∀ j ∈ inner, s.lookup? j x = none) ∧ s.Finds x env at' w := by
  induction inner with
  | nil => exact ⟨forall_mem_nil _, h⟩
  | cons j inner ih =>
    cases h with
    | here h =>
      rw [append_eq, length_cons, length_append] at hlength
      omega
    | there h hrest =>
      obtain ⟨hinner, hfinds⟩ := ih hrest
      exact ⟨forall_mem_cons.2 ⟨h, hinner⟩, hfinds⟩

theorem Finds.append_right (h : s.Finds x env at' w) (outer : Environment) :
    s.Finds x (env ++ outer) (at' ++ outer) w := by
  induction h with
  | here h => exact .here h
  | there h _ ih => exact .there h ih

/-- Searches end alike in stores in which the variables of the name are the same. -/
theorem Finds.congr (h : s.Finds x env at' w) (hsame : ∀ j ∈ env, s'.lookup? j x = s.lookup? j x) :
    s'.Finds x env at' w := by
  induction h with
  | here h => exact .here (hsame _ (mem_cons_self ..) ▸ h)
  | there h _ ih =>
    exact .there (hsame _ (mem_cons_self ..) ▸ h)
      (ih fun j hj => hsame j (mem_cons_of_mem _ hj))

theorem resolve?_congr (hsame : ∀ j ∈ env, s'.lookup? j x = s.lookup? j x) :
    s'.resolve? x env = s.resolve? x env := by
  induction env with
  | nil => rfl
  | cons i env ih =>
    simp only [resolve?, hsame i (mem_cons_self ..),
      ih fun j hj => hsame j (mem_cons_of_mem _ hj)]

theorem lookup?_of_resolve? (h : s.resolve? x env = some (i, w)) : s.lookup? i x = some w := by
  induction env with
  | nil => cases h
  | cons j env ih =>
    rw [resolve?] at h
    split at h
    · rename_i v hv
      obtain ⟨rfl, rfl⟩ := Prod.mk.inj (Option.some.inj h)
      exact hv
    · exact ih h

theorem get_congr (hsame : ∀ j ∈ env, s'.lookup? j x = s.lookup? j x) :
    s'.get env x = s.get env x := by
  simp only [Store.get, resolve?_congr hsame]

theorem get_append (hinner : ∀ j ∈ inner, s.lookup? j x = none) :
    s.get (inner ++ env) x = s.get env x := by
  induction inner with
  | nil => rfl
  | cons j inner ih =>
    rw [← ih fun k hk => hinner k (mem_cons_of_mem _ hk)]
    simp [Store.get, resolve?, hinner j (mem_cons_self ..)]

/-- A name that only one scope of an environment has is found there. -/
theorem get_of_absent {v : Value} {kind : Variable.Kind} (hi : i ∈ env)
    (habsent : ∀ j ∈ env, j ≠ i → s.lookup? j x = none)
    (h : s.lookup? i x = some { value := some v, kind }) : s.get env x = .ok v := by
  induction env with
  | nil => cases hi
  | cons j env ih =>
    obtain ⟨hj, henv⟩ := forall_mem_cons.1 habsent
    by_cases hji : j = i
    · rw [hji]
      exact (Finds.here h).get rfl
    · have hhead : ∀ k ∈ [j], s.lookup? k x = none := forall_mem_singleton.2 (hj hji)
      rw [← ih ((mem_cons.1 hi).resolve_left (Ne.symm hji)) henv]
      exact get_append hhead

/-- Changing a variable that was found. The scopes passed on the way do not have the name. -/
theorem Finds.declare {rest : Environment} (h : s.Finds x env (i :: rest) w) (w' : Variable) :
    (s.declare i x w').Finds x env (i :: rest) w' := by
  obtain ⟨_, _, hat, hi, -⟩ := h.exists_cons
  cases hat
  have hlt : i < s.next := lt_next_of_lookup? hi
  generalize hat : i :: rest = at' at h
  induction h with
  | here h =>
    cases hat
    exact .here (lookup?_declare_self hlt x w')
  | @there j _ _ _ hnone _ ih =>
    have hj : j ≠ i := by
      rintro rfl
      simp [hi] at hnone
    exact .there (by rw [lookup?_declare_of_ne_scope x w' hj, hnone]) (ih hi hat)

/-! ## What may have changed -/

/-- Scopes may have been opened, and variables may have changed that have one of the names and are
in scopes from `base` on. -/
structure Frame (base : Nat) (names : List String) (s s' : Store) : Prop where
  next : s.next ≤ s'.next
  lookup? : ∀ j < s.next, ∀ y, j < base ∨ y ∉ names → s'.lookup? j y = s.lookup? j y

namespace Frame

variable {base : Nat} {names : List String}

theorem refl (s : Store) : Frame base names s s :=
  ⟨Nat.le_refl _, fun _ _ _ _ => rfl⟩

theorem trans {s t u : Store} (h : Frame base names s t) (h' : Frame base names t u) :
    Frame base names s u where
  next := Nat.le_trans h.next h'.next
  lookup? j hj y hy :=
    (h'.lookup? j (Nat.lt_of_lt_of_le hj h.next) y hy).trans (h.lookup? j hj y hy)

theorem mono {names' : List String} {s t : Store} (h : Frame base names s t)
    (hnames : ∀ x ∈ names, x ∈ names') : Frame base names' s t where
  next := h.next
  lookup? j hj y hy := h.lookup? j hj y (hy.imp_right fun hy hmem => hy (hnames y hmem))

/-- What leaves all scopes as they were leaves them so from any scope on. -/
theorem of_next {names' : List String} {s t : Store} (h : Frame s.next names s t) :
    Frame base names' s t where
  next := h.next
  lookup? j hj y _ := h.lookup? j hj y (.inl hj)

theorem declare {i : Nat} (hi : base ≤ i) (hx : x ∈ names) (w : Variable) :
    Frame base names s (s.declare i x w) where
  next := by simp
  lookup? j hj y hy := by
    rcases hy with hlt | hy
    · exact lookup?_declare_of_ne_scope x w (by omega) y
    · exact lookup?_declare_of_ne x w j fun hyx => hy (hyx ▸ hx)

end Frame

end Store

end LambdaLift
