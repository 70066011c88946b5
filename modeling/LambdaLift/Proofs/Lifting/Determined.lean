import LambdaLift.Proofs.Lifting.Agreement

/-!
# The tree determines the code

Lifting from tree to tree (`TreeLifting`) gives trees, and the code is determined by its trees. So
what is shown about `TreeLifting` holds of the code and of the functions in the registry.

* `Lifting.body_isSome`: when a program has been lifted, every function in the registry has its
  body.
* `Lifting.kept_eq`, `Lifting.functions_eq`: the statements that stay and the lifted functions of a
  program, read off its trees.
-/

namespace LambdaLift

namespace Lifting

open TreeLifting (Entry)

/-! ## Bodies -/

variable {p : Program} {r r' : Functions} {code : List Code.Stmt}

/-- The functions of a program that has been lifted have their bodies. -/
theorem body_isSome (h : program p r = (.ok code, r')) : ∀ f ∈ r'.functions, f.body.isSome := by
  obtain ⟨kept, j, -, hj, -, -, hsome⟩ := program_ok h
  intro f hf
  obtain ⟨e, he, rfl⟩ := List.mem_map.1 hf
  rw [hj.entries_eq, List.mem_filterMap] at he
  obtain ⟨x, -, hx⟩ := he
  exact hsome e (by simpa using List.mem_of_find?_eq_some hx)

/-! ## Code read off trees -/

/-- A lifted function with the code of its body. -/
def functionOf (f : Entry × List Stmt) : LiftedFunction (List Code.Stmt) :=
  ⟨f.1.name, f.1.params, f.1.captured, some (Code.Stmt.ofTrees (f.2.map Stmt.respelled))⟩

/-- The statements that stay, as code. -/
def keptOf (l : TreeLifting.Lifted) : List Code.Stmt :=
  Code.Stmt.ofTrees (l.kept.map Stmt.respelled)

/-- A lifted program is the code of the trees that `TreeLifting` gives, and the registry holds the
functions among them. -/
theorem program_determined (h : program p r = (.ok code, r')) :
    code = keptOf (TreeLifting.stmts false [] p.statements) ++ r'.functions.map declaration ∧
      r'.functions =
        (TreeLifting.lastOfEach (TreeLifting.stmts false [] p.statements).entered).map
          functionOf := by
  obtain ⟨kept, j, rfl, hj, hkept, hentered, -⟩ := program_ok h
  have hfunctions := lastOfEach_treesOf hj
  rw [hentered, lastOfEach_respelledBody] at hfunctions
  constructor
  · rw [keptOf, ← hkept, Code.Stmt.ofTrees_trees]
  · have hback := congrArg (List.map fun f : Entry × List Stmt =>
      (⟨f.1.name, f.1.params, f.1.captured, some (Code.Stmt.ofTrees f.2)⟩ :
        LiftedFunction (List Code.Stmt))) hfunctions
    rw [List.map_map, List.map_map] at hback
    refine Eq.trans (Eq.symm ?_) hback.symm
    conv_rhs => rw [← List.map_id r'.functions]
    apply List.map_congr_left
    intro f hf
    obtain ⟨name, params, captured, body⟩ := f
    obtain ⟨code, rfl⟩ := Option.isSome_iff_exists.1 (body_isSome h _ hf)
    simp [entryOf, Code.Stmt.ofTrees_trees]

end Lifting

end LambdaLift
