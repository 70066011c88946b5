import LambdaLift.Grammar.Recursion
import LambdaLift.Proofs.Execution.Lockstep
import LambdaLift.Proofs.Lifting.Steps

/-!
# The limit on nested calls only cuts off

Two runs of a program with different limits go the same way until the smaller limit is reached.
No construct takes up a failure, so the run with the smaller limit then fails as a whole.

* `upToLimit`: the run with the smaller limit may be cut.
* `run_of_larger_limit`: what a program does within a limit, it does within every larger one.
-/

namespace LambdaLift

namespace Execution

/-- Both runs have the same bodies, and the first one may be cut. -/
abbrev upToLimit : Leeway where
  bodies := Eq
  cut := True

theorem listsMatch_limit : ListsMatch upToLimit := by
  rintro ss _ rfl
  refine ⟨ss, List.forall₂_same.2 fun s _ => ?_, .refl ss⟩
  cases s with
  | block r body => exact .block r rfl
  | function head body => exact .function False.elim rfl
  | _ => exact .plain rfl False.elim

theorem errorClass_eq_range {e : EvalError} : e.errorClass = .range ↔ e = .stackOverflow := by
  cases e <;> simp [EvalError.errorClass]

/-- **The limit only cuts off.** If a program that may nest `limit` calls does not fail because of
that limit, it prints the same or fails in the same way with every larger limit. -/
theorem run_of_larger_limit {limit larger : Nat} (hle : limit ≤ larger) (p : Program)
    (hcut : ∀ e, run limit p = .error e → e.errorClass ≠ .range) : run larger p = run limit p := by
  have hruns := run_of_bodies (tandem_body listsMatch_limit) (p := p) (q := p) rfl
    (.inr ⟨trivial, hle⟩)
  rcases hruns with ⟨-, hover⟩ | ⟨hsame, -⟩
  · -- The smaller limit was reached, which the hypothesis excludes.
    exact absurd (errorClass_eq_range.2 rfl) (hcut .stackOverflow hover)
  · exact hsame

/-- A function that calls itself once. -/
def callsItself : Program :=
  (Parsed.ofText "a" "function f(b)\x7breturn b&&f(false)\x7dprint(f(true))").program

theorem run_callsItself : run 2 callsItself = .ok "false\n" :=
  Lifting.ok_of_toOption (by decide +kernel)

theorem callsItself_of_larger_limit :
    (run 1 callsItself).toOption = none ∧
      (∀ e, run 2 callsItself = .error e → e.errorClass ≠ .range) ∧
      run defaultCallLimit callsItself = .ok "false\n" := by
  have hcut (e : EvalError) (h : run 2 callsItself = .error e) : e.errorClass ≠ .range := by
    rw [run_callsItself] at h
    cases h
  have hlarger : run defaultCallLimit callsItself = run 2 callsItself :=
    run_of_larger_limit (by decide) callsItself hcut
  exact ⟨by decide +kernel, hcut, hlarger.trans run_callsItself⟩

end Execution

end LambdaLift
