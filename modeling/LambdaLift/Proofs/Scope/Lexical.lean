import LambdaLift.Execution.Basic
import Mathlib.Data.List.Chain

/-!
# Lexical scopes

Every place of a program lies in a chain of scopes, the innermost first: those of the functions and
blocks around it, and that of the program. A name stands for the innermost scope of the chain that
declares it.

* `LexicalScope.ofFunction`, `LexicalScope.ofBlock`, `LexicalScope.ofProgram`: the scopes of a
  program. As in an execution, a function declares its parameters, the variables of its body and of
  the blocks in it, and the block variables and functions of its body.
* `LexicalScope.resolve?`: what a name stands for.
* `LexicalScope.resolve?_eq_iff`: when a name stands for the same at a place and in a function that
  is declared around the place.
-/

namespace LambdaLift

open List

/-- A scope of a program: where it stands, as the positions of statements from the inside outward,
and what it declares. -/
structure LexicalScope where
  path : List Nat
  names : List String
deriving DecidableEq

namespace LexicalScope

/-- What a statement declares for the list of statements it stands in. -/
def listNames : Stmt → List String
  | .vars _ _ kind ds => if kind.isBlockScoped then ds.filterMap (·.target.name?) else []
  | .function head _ => head.name?.toList
  | .block .. | .expression .. | .return_ .. | .empty _ | .other _ => []

/-- The scope of a function. -/
def ofFunction (path : List Nat) (head : FunctionHead) (body : List Stmt) : LexicalScope where
  path := path
  names := head.params.filterMap (·.target.name?) ++ Execution.varNamesOfList body ++
    body.flatMap listNames

/-- The scope of a block. -/
def ofBlock (path : List Nat) (body : List Stmt) : LexicalScope where
  path := path
  names := body.flatMap listNames

/-- The scope of a program. -/
def ofProgram (statements : List Stmt) : LexicalScope where
  path := []
  names := Execution.varNamesOfList statements ++ statements.flatMap listNames

/-- The path of the statement with the given number in the innermost of the scopes. -/
def pathIn (scopes : List LexicalScope) (index : Nat) : List Nat :=
  index :: scopes.head?.elim [] path

/-- The scope that a name stands for: the innermost one that declares it. A name that is declared
nowhere stands for none. -/
def resolve? (x : String) (scopes : List LexicalScope) : Option LexicalScope :=
  scopes.find? (x ∈ ·.names)

/-- Each scope stands in the one after it. -/
def IsNested (scopes : List LexicalScope) : Prop :=
  scopes.IsChain fun inner outer => ∃ index, inner.path = index :: outer.path

theorem isNested_cons {scopes : List LexicalScope} (h : IsNested scopes) {s : LexicalScope}
    {index : Nat} (hs : s.path = pathIn scopes index) : IsNested (s :: scopes) := by
  cases scopes with
  | nil => exact isChain_singleton s
  | cons t scopes => exact isChain_cons_cons.2 ⟨⟨index, hs⟩, h⟩

/-- Inner scopes have longer paths. -/
theorem IsNested.pairwise {scopes : List LexicalScope} (h : IsNested scopes) :
    scopes.Pairwise fun inner outer => outer.path.length < inner.path.length := by
  have hlt : scopes.IsChain fun inner outer => outer.path.length < inner.path.length := by
    refine h.imp fun s t hst => ?_
    obtain ⟨index, hpath⟩ := hst
    rw [hpath, length_cons]
    exact Nat.lt_succ_self _
  exact @List.IsChain.pairwise _ _ _ ⟨fun hab hbc => hbc.trans hab⟩ hlt

section Resolve

variable {inner outer : List LexicalScope} {own : LexicalScope} {x : String}

/-- A function around a place that is declared in `outer` is the outermost scope around the place
in `outer`. -/
theorem eq_concat_of_mem (hinner : IsNested (inner ++ outer)) (hown : IsNested (own :: outer))
    (houter : outer ≠ []) (hmem : own ∈ inner) : ∃ deeper, inner = deeper ++ [own] := by
  obtain ⟨t, rest, rfl⟩ := exists_cons_of_ne_nil houter
  obtain ⟨deeper, last, rfl⟩ : ∃ deeper last, inner = deeper ++ [last] :=
    ⟨_, _, (dropLast_concat_getLast (ne_nil_of_mem hmem)).symm⟩
  obtain ⟨i, hi⟩ := (isChain_cons_cons.1 hown).1
  have hlast : IsNested (last :: t :: rest) := by
    rw [append_assoc] at hinner
    exact (isChain_append.1 hinner).2.1
  obtain ⟨k, hk⟩ := (isChain_cons_cons.1 hlast).1
  rcases mem_append.1 hmem with hdeep | hsame
  · have hpairs := (pairwise_append.1 (pairwise_append.1 hinner.pairwise).1).2.2
    have hlt := hpairs own hdeep last (mem_singleton.2 rfl)
    rw [hi, hk, length_cons, length_cons] at hlt
    exact absurd hlt (Nat.lt_irrefl _)
  · rw [mem_singleton] at hsame
    exact ⟨deeper, by rw [hsame]⟩

theorem not_mem_of_pairwise {as bs : List LexicalScope} (h : IsNested (as ++ bs)) {s : LexicalScope}
    (hs : s ∈ as) : s ∉ bs :=
  fun hs' => Nat.lt_irrefl _ ((pairwise_append.1 h.pairwise).2.2 s hs s hs')

theorem resolve?_append (x : String) (as bs : List LexicalScope) :
    resolve? x (as ++ bs) = (resolve? x as).or (resolve? x bs) :=
  find?_append

theorem resolve?_eq_none {x : String} {scopes : List LexicalScope} :
    resolve? x scopes = none ↔ ∀ s ∈ scopes, x ∉ s.names := by
  simp [resolve?]

/-- A name stands for the same at a place and in a function that is declared in a list around the
place exactly if no scope between the two declares it, that of the function itself apart, and
neither does the function, unless the place lies in it. -/
theorem resolve?_eq_iff (hinner : IsNested (inner ++ outer)) (hown : IsNested (own :: outer))
    (houter : outer ≠ []) :
    resolve? x (inner ++ outer) = resolve? x (own :: outer) ↔
      (∀ s ∈ inner, x ∈ s.names → s = own) ∧ (x ∈ own.names → own ∈ inner) := by
  have hother : own ∉ outer := not_mem_of_pairwise hown (mem_singleton.2 rfl)
  by_cases hmem : own ∈ inner
  · -- The place lies in the function: what matters are the scopes deeper than the function.
    obtain ⟨deeper, rfl⟩ := eq_concat_of_mem hinner hown houter hmem
    rw [append_assoc, singleton_append] at hinner ⊢
    rw [resolve?_append]
    constructor
    · intro h
      refine ⟨fun s hs hx => ?_, fun _ => hmem⟩
      rcases mem_append.1 hs with hs | hs
      · cases hfirst : resolve? x deeper with
        | none => exact absurd hx (resolve?_eq_none.1 hfirst s hs)
        | some t =>
          rw [hfirst, Option.some_or] at h
          exact absurd (mem_of_find?_eq_some h.symm)
            (not_mem_of_pairwise hinner (mem_of_find?_eq_some hfirst))
      · exact mem_singleton.1 hs
    · rintro ⟨hnone, -⟩
      have hdeeper : resolve? x deeper = none := by
        refine resolve?_eq_none.2 fun s hs hx => ?_
        have hs' := hnone s (mem_append.2 (.inl hs)) hx
        exact not_mem_of_pairwise hinner hs (hs' ▸ mem_cons_self)
      rw [hdeeper, Option.none_or]
  · rw [resolve?_append]
    constructor
    · intro h
      refine ⟨fun s hs hx => ?_, fun hx => ?_⟩
      · cases hfirst : resolve? x inner with
        | none => exact absurd hx (resolve?_eq_none.1 hfirst s hs)
        | some t =>
          rw [hfirst, Option.some_or] at h
          have ht := mem_of_find?_eq_some hfirst
          rcases mem_cons.1 (mem_of_find?_eq_some h.symm) with rfl | ht'
          · exact absurd ht hmem
          · exact absurd ht' (not_mem_of_pairwise hinner ht)
      · have hsame : resolve? x (own :: outer) = some own := by simp [resolve?, hx]
        rw [hsame, ← resolve?_append] at h
        rcases mem_append.1 (mem_of_find?_eq_some h) with h | h
        · exact h
        · exact absurd h hother
    · rintro ⟨hnone, hnot⟩
      have hinner' : resolve? x inner = none := by
        refine resolve?_eq_none.2 fun s hs hx => ?_
        exact hmem (hnone s hs hx ▸ hs)
      have hown' : resolve? x (own :: outer) = resolve? x outer := by
        have hx : x ∉ own.names := fun hx => hmem (hnot hx)
        simp [resolve?, hx]
      rw [hinner', hown', Option.none_or]

end Resolve

end LexicalScope

end LambdaLift
