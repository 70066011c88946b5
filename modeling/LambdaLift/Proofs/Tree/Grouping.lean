import LambdaLift.Tree.Expr
import Mathlib.Data.List.Basic

/-!
# Chains of operators and their trees

A chain is a row of operands with operators between them. It has many trees, but only one in which
operators group by how tightly they bind.

* `Chain`, and `Grouping`, a tree over a chain. `Grouping.yield` is the chain of a tree.
* `Grouping.Grouped`: an operator does not take operators that bind less tightly as its operands.
  Equal levels group to the left, powers to the right.
* `Grouping.Grouped.eq_of_yield`: a chain has at most one such tree.
* `Expr.grouping`: the tree of an expression. Its operands are the parts that are no operations, those
  in parentheses among them.
-/

namespace LambdaLift

/-- An operator of a chain, its place, and the operand after it. -/
structure Chain.Link where
  op : BinaryOp
  place : Range
  operand : Expr

/-- Operands with operators between them, in the order of the text. -/
@[ext]
structure Chain where
  first : Expr
  links : List Chain.Link := []

/-- Two chains with an operator between them. -/
def Chain.join (c : Chain) (op : BinaryOp) (place : Range) (d : Chain) : Chain :=
  ⟨c.first, c.links ++ ⟨op, place, d.first⟩ :: d.links⟩

theorem Chain.join_assoc (c d e : Chain) (op op' : BinaryOp) (place place' : Range) :
    (c.join op place d).join op' place' e = c.join op place (d.join op' place' e) := by
  simp [join]

/-- A tree over a chain. -/
inductive Grouping
  | operand (e : Expr)
  | node (op : BinaryOp) (place : Range) (left right : Grouping)

namespace Grouping

/-- The chain of a tree: its operands and operators in order. -/
def yield : Grouping → Chain
  | operand e => ⟨e, []⟩
  | node op place left right => left.yield.join op place right.yield

/-- How tightly the operator at the root binds. -/
def level? : Grouping → Option Nat
  | operand _ => none
  | node op .. => op.level?

/-- The levels that an operator of level `n` takes on its left: its own and those that bind tighter,
but not its own if it is a power. -/
def TakesLeft (op : BinaryOp) (n k : Nat) : Prop :=
  if op = .power then n < k else n ≤ k

/-- The levels that an operator of level `n` takes on its right: those that bind tighter, and its own
if it is a power. -/
def TakesRight (op : BinaryOp) (n k : Nat) : Prop :=
  if op = .power then n ≤ k else n < k

/-- Every operator has a level, and the levels of its operands are such that it takes them. -/
inductive Grouped : Grouping → Prop
  | operand (e : Expr) : Grouped (.operand e)
  | node {op : BinaryOp} {place : Range} {left right : Grouping} {n : Nat}
      (hlevel : op.level? = some n) (hleft : ∀ k ∈ left.level?, TakesLeft op n k)
      (hright : ∀ k ∈ right.level?, TakesRight op n k) (groupedLeft : left.Grouped)
      (groupedRight : right.Grouped) : Grouped (.node op place left right)

variable {op op' : BinaryOp} {n n' k k' : Nat}

theorem TakesLeft.le (h : TakesLeft op n k) : n ≤ k := by
  unfold TakesLeft at h
  split at h <;> omega

theorem TakesRight.le (h : TakesRight op n k) : n ≤ k := by
  unfold TakesRight at h
  split at h <;> omega

theorem TakesLeft.mono (h : TakesLeft op n k) (hk : k ≤ k') : TakesLeft op n k' := by
  unfold TakesLeft at h ⊢
  split at h <;> simp_all <;> omega

theorem TakesRight.mono (h : TakesRight op n k) (hk : k ≤ k') : TakesRight op n k' := by
  unfold TakesRight at h ⊢
  split at h <;> simp_all <;> omega

/-- Levels count from one, and nothing binds as tightly as a power. -/
theorem level?_bounds (hop : op.level? = some n) : 0 < n ∧ n ≤ 12 ∧ (op = .power ↔ n = 12) := by
  cases op <;> simp_all [BinaryOp.level?] <;> omega

/-- An operator is not taken on the left by one that it takes on its right. -/
theorem TakesRight.not_takesLeft (hop : op.level? = some n) (hop' : op'.level? = some n')
    (h : TakesRight op n n') : ¬ TakesLeft op' n' n := by
  obtain ⟨-, hle, hpower⟩ := level?_bounds hop
  obtain ⟨-, hle', hpower'⟩ := level?_bounds hop'
  unfold TakesRight at h
  unfold TakesLeft
  simp only [hpower, hpower'] at h ⊢
  split at h <;> split <;> omega

/-- What holds of the root of a tree and is kept by tighter operators holds of all its operators. -/
theorem Grouped.of_root {g : Grouping} (h : g.Grouped) {p : Nat → Prop}
    (hp : ∀ k k', p k → k ≤ k' → p k') (hroot : ∀ k ∈ g.level?, p k) :
    ∀ x ∈ g.yield.links, ∃ k, x.op.level? = some k ∧ p k := by
  induction h with
  | operand e => simp [yield]
  | @node op place left right n hlevel hleft hright _ _ ihleft ihright =>
    have hn : p n := hroot n hlevel
    intro x hx
    rcases List.mem_append.1 hx with hx | hx
    · exact ihleft (fun k hk => hp n k hn (hleft k hk).le) x hx
    · rcases List.mem_cons.1 hx with rfl | hx
      · exact ⟨n, hlevel, hn⟩
      · exact ihright (fun k hk => hp n k hn (hright k hk).le) x hx

/-- The root of a tree is no link before the root of another tree of the same chain: each of the two
would take the other. -/
theorem Grouped.root_not_before {left' right : Grouping} {place place' : Range} {e e' : Expr}
    {before between after : List Chain.Link} (hop : op.level? = some n)
    (hright : ∀ k ∈ right.level?, TakesRight op n k) (groupedRight : right.Grouped)
    (hop' : op'.level? = some n') (hleft' : ∀ k ∈ left'.level?, TakesLeft op' n' k)
    (groupedLeft' : left'.Grouped) (hl : left'.yield.links = before ++ between)
    (hr : ⟨op, place, e⟩ :: right.yield.links = between ++ ⟨op', place', e'⟩ :: after) :
    between = [] := by
  cases between with
  | nil => rfl
  | cons x between =>
    obtain ⟨rfl, hmore⟩ := List.cons.inj hr
    obtain ⟨k, hk, htakes⟩ := groupedRight.of_root (fun _ _ => TakesRight.mono) hright
      ⟨op', place', e'⟩ (by simp [hmore])
    obtain ⟨k', hk', htakes'⟩ := groupedLeft'.of_root (fun _ _ => TakesLeft.mono) hleft'
      ⟨op, place, e⟩ (by simp [hl])
    obtain rfl : n' = k := Option.some.inj (hop'.symm.trans hk)
    obtain rfl : n = k' := Option.some.inj (hop.symm.trans hk')
    exact absurd htakes' (htakes.not_takesLeft hop hop')

/-- A chain has at most one tree in which operators group by how tightly they bind. -/
theorem Grouped.eq_of_yield {g g' : Grouping} (h : g.Grouped) (h' : g'.Grouped)
    (heq : g.yield = g'.yield) : g = g' := by
  induction h generalizing g' with
  | operand e =>
    cases h' with
    | operand e' => exact congrArg Grouping.operand (congrArg Chain.first heq)
    | node => simp [yield, Chain.join] at heq
  | @node op place left right n hlevel hleft hright groupedLeft groupedRight ihleft ihright =>
    cases h' with
    | operand e' => simp [yield, Chain.join] at heq
    | @node op' place' left' right' n' hlevel' hleft' hright' groupedLeft' groupedRight' =>
      obtain ⟨hfirst, hlinks⟩ := Chain.mk.inj heq
      obtain ⟨hl, hr⟩ : left.yield.links = left'.yield.links ∧
          (⟨op, place, right.yield.first⟩ :: right.yield.links : List Chain.Link) =
            ⟨op', place', right'.yield.first⟩ :: right'.yield.links := by
        rcases List.append_eq_append_iff.1 hlinks with ⟨between, hl, hr⟩ | ⟨between, hl, hr⟩
        · obtain rfl := Grouped.root_not_before hlevel hright groupedRight hlevel' hleft'
            groupedLeft' hl hr
          exact ⟨by simpa using hl.symm, hr⟩
        · obtain rfl := Grouped.root_not_before hlevel' hright' groupedRight' hlevel hleft
            groupedLeft hl hr
          exact ⟨by simpa using hl, hr.symm⟩
      obtain ⟨hroot, hmore⟩ := List.cons.inj hr
      obtain ⟨rfl, rfl, hnext⟩ := Chain.Link.mk.inj hroot
      rw [ihleft groupedLeft' (Chain.ext hfirst hl),
        ihright groupedRight' (Chain.ext hnext hmore)]

end Grouping

/-- The tree of an expression. Operations without a level, that is, assignments and commas, are no
part of chains. -/
def Expr.grouping : Expr → Grouping
  | .binary range op place left right =>
    if op.level?.isSome then .node op place left.grouping right.grouping
    else .operand (.binary range op place left right)
  | e => .operand e

theorem Expr.grouping_binary {op : BinaryOp} (h : op.level?.isSome = true) (range place : Range)
    (left right : Expr) : (Expr.binary range op place left right).grouping =
      .node op place left.grouping right.grouping := by
  rw [Expr.grouping, if_pos h]

end LambdaLift
