import LambdaLift.Grammar.Recursion
import LambdaLift.Proofs.Execution.Lockstep
import LambdaLift.Proofs.Lifting.Acceptance

/-!
# The functions that a program can reach

A function is called through a value, and values are kept in variables, given to other functions
and returned. All of them come from declarations, so in a program that can be lifted they can be
lifted too.

* `withinSupport`: a program is compared with itself, and all bodies that it reaches can be lifted.
* `accepted_never_unsupported`: a program that can be lifted can be run.
-/

namespace LambdaLift

open Stmt

namespace Execution

/-- All bodies can be lifted, and so nothing fails for want of support. -/
abbrev withinSupport : Leeway where
  bodies ss ts := ts = ss ∧ SupportedList ss
  strict := True

theorem listsMatch_supported : ListsMatch withinSupport := by
  rintro _ ss ⟨rfl, hss⟩
  refine ⟨ss, List.forall₂_same.2 fun s hs => ?_, .refl ss⟩
  have hsupported := supportedList_iff.1 hss s hs
  cases s with
  | block r body => exact .block r ⟨rfl, hsupported⟩
  | function head body => exact .function (fun _ => hsupported.1) ⟨rfl, hsupported.2⟩
  | _ => exact .plain rfl fun _ => hsupported

/-- **What is accepted can be run.** A program that can be lifted does not fail for want of support,
whatever the number of calls that may nest and whichever functions they reach. -/
theorem accepted_never_unsupported {layout : Layout} {p : Program} {r : Lifting.Functions}
    (haccepted : ∃ out, (Lifting.text layout p r).1 = .ok out) (limit : Nat) (kind : Kind) :
    run limit p ≠ .error (.unsupported kind) := by
  obtain ⟨out, hout⟩ := haccepted
  have hruns := run_of_bodies (tandem_body listsMatch_supported) (p := p) (q := p)
    ⟨rfl, Lifting.supported_of_text hout⟩ (.inl (rfl : limit = limit))
  rcases hruns with ⟨hcut, -⟩ | ⟨-, hsupported⟩
  · exact hcut.elim
  · exact hsupported trivial kind

/-- A function that is declared in another one, given back by it and called through a variable. -/
def givenText : String :=
  "function make(a)\x7bfunction add(c)\x7breturn c+a\x7dreturn add\x7dvar g=make(1);print(g(2))"

/-- What it is lifted to, without indentation and ends of lines. -/
def givenLifted : String :=
  "function make(a) \x7breturn add;\x7dvar g = make(1);print(g(2));" ++
    "function add(c, a) \x7breturn (c) + (a);\x7d"

theorem given_never_unsupported :
    (Lifting.text ⟨"", "", false⟩ (Parsed.ofText "a" givenText).program {}).1 = .ok givenLifted ∧
      run 2 (Parsed.ofText "a" givenText).program ≠
        .error (.unsupported (.node .functionDeclaration)) := by
  have hout : (Lifting.text ⟨"", "", false⟩ (Parsed.ofText "a" givenText).program {}).1 =
      .ok givenLifted := Lifting.ok_of_toOption (by decide +kernel)
  exact ⟨hout, accepted_never_unsupported ⟨_, hout⟩ 2 _⟩

end Execution

end LambdaLift
