import LambdaLift.Tree.Stmt
import Mathlib.Order.Nat

/-!
# The order of a text

Lifting meets expressions and functions in the order of the text. `Stmt.landmarks` lists where they
start, in the order in which lifting comes to them; for a tree that was read from a text, these
offsets increase wherever a function is concerned.

* `InOrder lo hi ms`: the marks lie between two offsets and are in order.
-/

namespace LambdaLift

/-! ## Landmarks -/

/-- Where an expression or a function starts. -/
structure Landmark where
  start : Nat
  isFunction : Bool
deriving DecidableEq

mutual

/-- Where the names and calls in an expression start. A call starts with its callee. -/
def Expr.landmarks : Expr → List Landmark
  | .ident id => [⟨id.range.start, false⟩]
  | .paren _ e | .unary _ _ e | .update _ _ e => e.landmarks
  | .binary _ _ _ a b => a.landmarks ++ b.landmarks
  | .call r _ _ args => ⟨r.start, false⟩ :: Expr.landmarksOfList args
  | .number _ | .string _ | .boolean .. | .null _ | .other _ => []

/-- Where the names and calls in expressions start. -/
def Expr.landmarksOfList : List Expr → List Landmark
  | [] => []
  | e :: es => e.landmarks ++ Expr.landmarksOfList es

end

/-- Where the names and calls in an expression start, if there is one. -/
def Expr.landmarks? (e : Option Expr) : List Landmark :=
  e.elim [] Expr.landmarks

mutual

/-- Where the names, calls and functions in a statement start. -/
def Stmt.landmarks : Stmt → List Landmark
  | .vars _ _ _ ds => ds.flatMap fun d => Expr.landmarks? d.init
  | .function head body => ⟨head.range.start, true⟩ :: Stmt.landmarksOfList body
  | .block _ body => Stmt.landmarksOfList body
  | .expression _ e => e.landmarks
  | .return_ _ e => Expr.landmarks? e
  | .empty _ | .other _ => []

/-- Where the names, calls and functions in statements start. -/
def Stmt.landmarksOfList : List Stmt → List Landmark
  | [] => []
  | s :: ss => s.landmarks ++ Stmt.landmarksOfList ss

end

theorem Expr.landmarksOfList_eq (es : List Expr) :
    Expr.landmarksOfList es = es.flatMap Expr.landmarks := by
  induction es with
  | nil => rfl
  | cons e es ih => rw [landmarksOfList, ih, List.flatMap_cons]

theorem Stmt.landmarksOfList_eq (ss : List Stmt) :
    Stmt.landmarksOfList ss = ss.flatMap Stmt.landmarks := by
  induction ss with
  | nil => rfl
  | cons s ss ih => rw [landmarksOfList, ih, List.flatMap_cons]

/-- A function starts before everything that comes after it, and nothing starts after a function
that comes later. -/
structure Landmark.Precedes (a b : Landmark) : Prop where
  lt : a.isFunction = true → a.start < b.start
  le : b.isFunction = true → a.start ≤ b.start

/-- The marks lie between two offsets and are in order. -/
structure InOrder (lo hi : Nat) (ms : List Landmark) : Prop where
  le : lo ≤ hi
  bounds : ∀ m ∈ ms, lo ≤ m.start ∧ m.start ≤ hi ∧ (m.isFunction = true → m.start < hi)
  order : ms.Pairwise Landmark.Precedes

namespace InOrder

variable {lo mid hi : Nat} {ms ns : List Landmark}

theorem nil (h : lo ≤ hi) : InOrder lo hi [] :=
  ⟨h, by simp, .nil⟩

theorem widen (h : InOrder lo mid ms) (hhi : mid ≤ hi) : InOrder lo hi ms where
  le := h.le.trans hhi
  bounds m hm := by
    obtain ⟨hlo, hmid, hlt⟩ := h.bounds m hm
    exact ⟨hlo, hmid.trans hhi, fun hf => (hlt hf).trans_le hhi⟩
  order := h.order

theorem append (h : InOrder lo mid ms) (h' : InOrder mid hi ns) : InOrder lo hi (ms ++ ns) where
  le := h.le.trans h'.le
  bounds m hm := by
    rcases List.mem_append.1 hm with hm | hm
    · exact (h.widen h'.le).bounds m hm
    · obtain ⟨hlo, hhi⟩ := h'.bounds m hm
      exact ⟨h.le.trans hlo, hhi⟩
  order := by
    refine List.pairwise_append.2 ⟨h.order, h'.order, fun m hm n hn => ?_⟩
    obtain ⟨-, hmid, hlt⟩ := h.bounds m hm
    obtain ⟨hlo, -⟩ := h'.bounds n hn
    exact ⟨fun hf => (hlt hf).trans_le hlo, fun _ => hmid.trans hlo⟩

theorem place (h : lo ≤ mid) (h' : mid ≤ hi) : InOrder lo hi [⟨mid, false⟩] := by
  refine ⟨h.trans h', ?_, List.pairwise_singleton ..⟩
  simp [h, h']

theorem function (h : lo ≤ mid) (h' : mid < hi) : InOrder lo hi [⟨mid, true⟩] := by
  refine ⟨h.trans h'.le, ?_, List.pairwise_singleton ..⟩
  simp [h, h', h'.le]

end InOrder

end LambdaLift
