import LambdaLift.Proofs.Token.Width
import LambdaLift.Tree.Stmt

/-!
# Trees in a text

* `Node.Exact text n`: the place of a node is a part of the text, its children lie in it one after
  another, and what the node holds is what the text has there.
* `Node.Fits text n`: the node is exact and stands for something in the text.
* `Onward text p q`: reading moved on from the gap `p` between two tokens to the gap `q`. If it read
  a token, `Past text p q`.
* `Reading text p ns q`: what was read from `p` to `q` are the nodes `ns`, one after another, and
  they fit with all nodes below them.
* `Node.Fills text p q n`: the node `n` goes from the first token after `p` to the last one before
  `q`, and it fits with all nodes below it.
-/

namespace LambdaLift

open List Node

namespace Node

/-- The place of a node. A hole has none. -/
def place? : Node → Option Range
  | node _ _ range .. => some range
  | hole => none

/-- The children of a node. -/
def children : Node → List Node
  | node _ _ _ _ _ children => children
  | hole => []

/-- What a node holds besides its children. -/
def detail : Node → Detail
  | node _ _ _ _ detail _ => detail
  | hole => .none

/-- What is said of a node besides its kind. -/
def marks : Node → Marks
  | node _ _ _ marks .. => marks
  | hole => {}

mutual

/-- A node and all nodes below it. -/
def parts : Node → List Node
  | node role kind range marks detail children =>
    node role kind range marks detail children :: partsOfList children
  | hole => []

/-- Several nodes and all nodes below them. -/
def partsOfList : List Node → List Node
  | [] => []
  | n :: ns => n.parts ++ partsOfList ns

end

theorem mem_partsOfList {m : Node} {ns : List Node} :
    m ∈ partsOfList ns ↔ ∃ n ∈ ns, m ∈ n.parts := by
  induction ns with
  | nil => simp [partsOfList]
  | cons n ns ih => simp [partsOfList, ih]

end Node

/-- Literals hold what the text has at their place, and so do names, unless they are written with an
escape. -/
def Detail.Spells (text : String) (r : Range) : Detail → Prop
  | .literal _ raw | .number _ raw => r.Covers text raw.toList
  | .name id => ∃ cs, r.Covers text cs ∧ (¬ ['\\', 'u'] <:+: cs → id.toList = cs)
  | _ => True

/-- A name or a literal without a character. -/
def Detail.isBlank : Detail → Bool
  | .name text | .literal _ text | .number _ text => text.isEmpty
  | _ => false

/-- What a node holds is not a part of the text. -/
class Detail.Silent (detail : Detail) : Prop where
  spells (text : String) (r : Range) : detail.Spells text r
  isBlank : detail.isBlank = false

instance : Detail.Silent .none := ⟨fun _ _ => trivial, rfl⟩
instance (kind : VarKind) : Detail.Silent (.vars kind) := ⟨fun _ _ => trivial, rfl⟩
instance (token : TokenKind) : Detail.Silent (.operator token) := ⟨fun _ _ => trivial, rfl⟩
instance (name : Option String) : Detail.Silent (.parameter name) := ⟨fun _ _ => trivial, rfl⟩
instance (name : Option String) : Detail.Silent (.callee name) := ⟨fun _ _ => trivial, rfl⟩
instance (hasArguments : Bool) : Detail.Silent (.construction hasArguments) :=
  ⟨fun _ _ => trivial, rfl⟩

/-- The marks of a node that is there. -/
class Marks.Whole (marks : Marks) : Prop where
  isMissing : marks.isMissing = false

instance {isAsync isGenerator isStatic isDefault isOptional : Bool} :
    Marks.Whole ⟨isAsync, isGenerator, isStatic, isDefault, isOptional, false⟩ := ⟨rfl⟩

/-- Ranges that lie between two offsets, one after another. -/
structure InLine (lo hi : Nat) (rs : List Range) : Prop where
  inside : ∀ r ∈ rs, lo ≤ r.start ∧ r.start ≤ r.stop ∧ r.stop ≤ hi
  order : rs.Pairwise fun a b => a.stop ≤ b.start

/-- The node is at its place: the place is a part of the text, not an empty one unless the node
stands for something that is left out, the end of the text or an empty text; the children lie in it
one after another; and the text has there what the node holds. -/
structure Node.Exact (text : String) (n : Node) : Prop where
  start_isValid : String.Pos.Raw.IsValid text ⟨n.range.start⟩
  stop_isValid : String.Pos.Raw.IsValid text ⟨n.range.stop⟩
  le : n.range.start ≤ n.range.stop
  stop_le : n.range.stop ≤ text.utf8ByteSize
  lt : n.kind ≠ .node .omittedExpression → n.kind ≠ .token .endOfFile →
    (n.kind = .node .sourceFile → text ≠ "") → n.range.start < n.range.stop
  children : InLine n.range.start n.range.stop (n.children.filterMap Node.place?)
  spells : n.detail.Spells text n.range

/-- The node is exact and stands for something in the text: it is not marked as missing, and it is
not a name or a literal without a character. -/
structure Node.Fits (text : String) (n : Node) : Prop extends n.Exact text where
  marks : n.marks.isMissing = false
  detail : n.detail.isBlank = false

/-- An offset between two characters of the text. -/
def Boundary (text : String) (o : Nat) : Prop :=
  ∃ c : Cursor, c.In text ∧ c.offset = o

/-- Reading moved on from one gap between tokens to another. A gap is the range from the end of the
last token that was read to the start of the next one. -/
structure Onward (text : String) (p q : Range) : Prop where
  here : p.start ≤ p.stop
  there : q.start ≤ q.stop
  start_le : p.start ≤ q.start
  stop_le : p.stop ≤ q.stop
  start : Boundary text p.stop
  stop : Boundary text q.start

/-- Reading moved on from one gap to another and read a token. -/
structure Past (text : String) (p q : Range) : Prop extends Onward text p q where
  lt : p.stop < q.start

/-- Reading moved on from one gap to another and read the nodes `ns`, one after another. They fit,
with all nodes below them. -/
structure Reading (text : String) (p : Range) (ns : List Node) (q : Range) : Prop
    extends Onward text p q where
  fits : ∀ n ∈ ns, ∀ m ∈ n.parts, m.Fits text
  inLine : InLine p.stop q.start (ns.filterMap Node.place?)

/-- Reading moved on from one gap to another, and all that was read is the node `n`. It fits, with all
nodes below it. -/
structure Node.Fills (text : String) (p q : Range) (n : Node) : Prop extends Past text p q where
  fits : ∀ m ∈ n.parts, m.Fits text
  place : n.place? = some ⟨p.stop, q.start⟩

/-! ## Gaps -/

section Gaps

variable {text : String} {p q r : Range}

theorem Boundary.isValid {o : Nat} (h : Boundary text o) : String.Pos.Raw.IsValid text ⟨o⟩ := by
  obtain ⟨c, hc, rfl⟩ := h
  exact hc.isValid

theorem Boundary.le {o : Nat} (h : Boundary text o) : o ≤ text.utf8ByteSize := by
  obtain ⟨c, hc, rfl⟩ := h
  have := hc.offset_add
  omega

theorem Range.Covers.start {cs : List Char} (h : r.Covers text cs) : Boundary text r.start := by
  obtain ⟨before, after, htext, hstart, -⟩ := h
  exact ⟨⟨r.start, cs ++ after⟩, ⟨before, by simpa using htext, hstart⟩, rfl⟩

theorem Onward.trans (h : Onward text p q) (h' : Onward text q r) : Onward text p r where
  here := h.here
  there := h'.there
  start_le := h.start_le.trans h'.start_le
  stop_le := h.stop_le.trans h'.stop_le
  start := h.start
  stop := h'.stop

theorem Past.trans (h : Past text p q) (h' : Onward text q r) : Past text p r where
  toOnward := h.toOnward.trans h'
  lt := Nat.lt_of_lt_of_le h.lt h'.start_le

theorem Onward.past (h : Onward text p q) (h' : Past text q r) : Past text p r where
  toOnward := h.trans h'.toOnward
  lt := Nat.lt_of_le_of_lt h.stop_le h'.lt

end Gaps

/-! ## Nodes one after another -/

namespace Reading

variable {text : String} {p q r : Range} {ns ns' : List Node}

theorem nil (h : Onward text p q) : Reading text p [] q :=
  ⟨h, by simp, by simp, .nil⟩

theorem hole (h : Onward text p q) : Reading text p [.hole] q :=
  ⟨h, by simp [Node.parts], by simp [Node.place?], .nil⟩

theorem append (h : Reading text p ns q) (h' : Reading text q ns' r) :
    Reading text p (ns ++ ns') r where
  toOnward := h.toOnward.trans h'.toOnward
  fits n hn := by
    rcases mem_append.1 hn with hn | hn
    · exact h.fits n hn
    · exact h'.fits n hn
  inLine := by
    have := h.there
    have := h.stop_le
    have := h'.start_le
    rw [filterMap_append]
    refine ⟨fun a ha => ?_, pairwise_append.2 ⟨h.inLine.order, h'.inLine.order, ?_⟩⟩
    · rcases mem_append.1 ha with ha | ha
      · have := h.inLine.inside a ha
        omega
      · have := h'.inLine.inside a ha
        omega
    · intro a ha b hb
      have := h.inLine.inside a ha
      have := h'.inLine.inside b hb
      omega

/-- Tokens before the nodes that are not nodes themselves. -/
theorem after (h : Reading text q ns r) (h' : Onward text p q) : Reading text p ns r :=
  (nil h').append h

/-- Tokens after the nodes that are not nodes themselves. -/
theorem before (h : Reading text p ns q) (h' : Onward text q r) : Reading text p ns r :=
  append_nil ns ▸ h.append (nil h')

/-- What was read as the children of a node that holds a part of the text. -/
theorem spelled {role : Role} {kind : Kind} {marks : Marks} {detail : Detail}
    (h : Reading text p ns q) (hpast : p.stop < q.start)
    (hdetail : detail.Spells text ⟨p.stop, q.start⟩) (hmarks : marks.isMissing = false)
    (hblank : detail.isBlank = false) :
    (Node.node role kind ⟨p.stop, q.start⟩ marks detail ns).Fills text p q where
  toOnward := h.toOnward
  lt := hpast
  fits m hm := by
    rw [Node.parts, mem_cons, Node.mem_partsOfList] at hm
    rcases hm with rfl | ⟨n, hn, hm⟩
    · exact ⟨⟨h.start.isValid, h.stop.isValid, hpast.le, h.stop.le, fun _ _ _ => hpast, h.inLine,
        hdetail⟩, hmarks, hblank⟩
    · exact h.fits n hn m hm
  place := rfl

/-- What was read as the children of a node. -/
theorem node {role : Role} {kind : Kind} {marks : Marks} [marks.Whole] {detail : Detail}
    [detail.Silent] (h : Reading text p ns q) (hpast : p.stop < q.start) :
    (Node.node role kind ⟨p.stop, q.start⟩ marks detail ns).Fills text p q :=
  h.spelled hpast (Detail.Silent.spells ..) Marks.Whole.isMissing Detail.Silent.isBlank

/-- An element that is left out has no width. -/
theorem omitted {role : Role} {marks : Marks} (h : Past text p q)
    (hmarks : marks.isMissing = false) :
    Reading text p [.node role (.node .omittedExpression) (.empty p.stop) marks .none []] q where
  toOnward := h.toOnward
  fits n hn m hm := by
    obtain rfl := mem_singleton.1 hn
    obtain rfl : m = _ := by simpa [Node.parts, Node.partsOfList] using hm
    exact ⟨⟨h.start.isValid, h.start.isValid, le_rfl, h.start.le, fun h => absurd rfl h,
      ⟨by simp [Node.children], .nil⟩, trivial⟩, hmarks, rfl⟩
  inLine := by
    have := h.lt
    exact ⟨by simp [Node.place?, Range.empty]; omega, pairwise_singleton ..⟩

end Reading

/-! ## Nodes -/

section Nodes

variable {text : String} {p q r : Range} {n : Node} {ns : List Node}

theorem Node.Fills.reading (h : n.Fills text p q) : Reading text p [n] q where
  toOnward := h.toOnward
  fits m hm := mem_singleton.1 hm ▸ h.fits
  inLine := by
    have := h.lt
    rw [filterMap_cons_some h.place]
    exact ⟨by simp; omega, pairwise_singleton ..⟩

theorem Node.place?_withRole (n : Node) (role : Role) : (n.withRole role).place? = n.place? := by
  cases n <;> rfl

/-- The role of a node does not matter for its place. -/
theorem Node.fits_withRole (h : ∀ m ∈ n.parts, m.Fits text) (role : Role) :
    ∀ m ∈ (n.withRole role).parts, m.Fits text := by
  cases n with
  | hole => exact h
  | node role' kind range marks detail children =>
    intro m hm
    rw [Node.withRole, Node.parts, mem_cons] at hm
    rcases hm with rfl | hm
    · obtain ⟨⟨h₁, h₂, h₃, h₄, h₅, h₆, h₇⟩, hmarks, hblank⟩ := h _ (mem_cons_self ..)
      exact ⟨⟨h₁, h₂, h₃, h₄, h₅, h₆, h₇⟩, hmarks, hblank⟩
    · exact h m (mem_cons_of_mem _ hm)

theorem Node.Fills.withRole (h : n.Fills text p q) (role : Role) :
    (n.withRole role).Fills text p q :=
  ⟨h.toPast, fits_withRole h.fits role, (n.place?_withRole role).trans h.place⟩

theorem Reading.withRole (h : Reading text p [n] q) (role : Role) :
    Reading text p [n.withRole role] q where
  toOnward := h.toOnward
  fits m hm := mem_singleton.1 hm ▸ Node.fits_withRole (h.fits n (mem_singleton_self n)) role
  inLine := by
    have := h.inLine
    simp only [filterMap_cons, place?_withRole] at this ⊢
    exact this

/-- A node with a token of its own in front of its children. -/
theorem Past.ofKind {role : Role} {kind : NodeKind} {marks : Marks} [marks.Whole] {detail : Detail}
    [detail.Silent] (h : Past text p q) (h' : Reading text q ns r) :
    (ofKind role kind ⟨p.stop, r.start⟩ ns marks detail).Fills text p r :=
  (h'.after h.toOnward).node (h.trans h'.toOnward).lt

end Nodes

/-! ## Typed trees -/

section Typed

variable {text : String} {p q : Range}

theorem Expr.node_eq_withRole (e : Expr) (role role' : Role) :
    e.node role' = (e.node role).withRole role' := by
  cases e with
  | other n => cases n <;> simp [Expr.node, Node.withRole]
  | _ => simp [Expr.node, Node.withRole, Ident.node, NumberLiteral.node, Literal.node, ofToken,
      ofKind]

theorem Stmt.node_eq_withRole (s : Stmt) (role role' : Role) :
    s.node role' = (s.node role).withRole role' := by
  cases s with
  | other n => cases n <;> simp [Stmt.node, Node.withRole]
  | _ => simp [Stmt.node, Node.withRole, ofKind]

theorem Expr.nodes_eq_map (role : Role) (es : List Expr) :
    Expr.nodes role es = es.map (Expr.node role) := by
  induction es with
  | nil => rfl
  | cons e es ih => rw [Expr.nodes, ih, map_cons]

theorem Stmt.nodes_eq_map (ss : List Stmt) : Stmt.nodes ss = ss.map (Stmt.node .statement) := by
  induction ss with
  | nil => rfl
  | cons s ss ih => rw [Stmt.nodes, ih, map_cons]

theorem Binding.node_eq_withRole (b : Binding) (role role' : Role) :
    b.node role' = (b.node role).withRole role' := by
  cases b with
  | name id => rfl
  | pattern n => cases n <;> rfl

/-- All that was read is the expression. -/
def Expr.Fills (text : String) (p q : Range) (e : Expr) : Prop :=
  (e.node .expression).Fills text p q

/-- All that was read is the statement. -/
def Stmt.Fills (text : String) (p q : Range) (s : Stmt) : Prop :=
  (s.node .statement).Fills text p q

/-- All that was read is the binding. -/
def Binding.Fills (text : String) (p q : Range) (b : Binding) : Prop :=
  (b.node .binding).Fills text p q

theorem Expr.Fills.node {e : Expr} (h : e.Fills text p q) (role : Role) :
    (e.node role).Fills text p q := by
  rw [e.node_eq_withRole .expression role]
  exact Fills.withRole h role

theorem Expr.Fills.reading {e : Expr} (h : e.Fills text p q) (role : Role) :
    Reading text p [e.node role] q :=
  (h.node role).reading

theorem Stmt.Fills.node {s : Stmt} (h : s.Fills text p q) (role : Role) :
    (s.node role).Fills text p q := by
  rw [s.node_eq_withRole .statement role]
  exact Fills.withRole h role

theorem Stmt.Fills.reading {s : Stmt} (h : s.Fills text p q) (role : Role) :
    Reading text p [s.node role] q :=
  (h.node role).reading

theorem Binding.Fills.node {b : Binding} (h : b.Fills text p q) (role : Role) :
    (b.node role).Fills text p q := by
  rw [b.node_eq_withRole .binding role]
  exact Fills.withRole h role

theorem Binding.Fills.reading {b : Binding} (h : b.Fills text p q) (role : Role) :
    Reading text p [b.node role] q :=
  (h.node role).reading

theorem Expr.Fills.range {e : Expr} (h : e.Fills text p q) : e.range = ⟨p.stop, q.start⟩ := by
  have hplace := h.place
  cases e with
  | other n =>
    cases n with
    | hole => simp [Expr.node, Node.withRole, Node.place?] at hplace
    | node role kind range marks detail children => exact Option.some.inj hplace
  | _ => exact Option.some.inj hplace

theorem Stmt.Fills.range {s : Stmt} (h : s.Fills text p q) : s.range = ⟨p.stop, q.start⟩ := by
  have hplace := h.place
  cases s with
  | other n =>
    cases n with
    | hole => simp [Stmt.node, Node.withRole, Node.place?] at hplace
    | node role kind range marks detail children => exact Option.some.inj hplace
  | _ => exact Option.some.inj hplace

/-- A node that starts with an expression. -/
theorem Expr.Fills.ofKind {e : Expr} {role role' : Role} {kind : NodeKind} {marks : Marks}
    [marks.Whole] {detail : Detail} [detail.Silent] {ns : List Node} {r : Range}
    (h : e.Fills text p q) (h' : Reading text q ns r) :
    (ofKind role kind ⟨e.range.start, r.start⟩ (e.node role' :: ns) marks detail).Fills
      text p r := by
  rw [h.range]
  exact ((h.reading role').append h').node (h.toPast.trans h'.toOnward).lt

end Typed

/-! ## Programs -/

section Programs

variable {text : String}

theorem boundary_zero (text : String) : Boundary text 0 :=
  ⟨.ofText text, Cursor.in_ofText text, rfl⟩

theorem boundary_stop (text : String) : Boundary text text.utf8ByteSize :=
  ⟨⟨text.utf8ByteSize, []⟩, ⟨text.toList, by simp, utf8ByteSize_eq text⟩, rfl⟩

/-- The tree of a text that was read as fitting statements one after another. -/
theorem Program.fits_node {p q : Range} {ss : List Stmt} (h : Reading text p (Stmt.nodes ss) q) :
    ∀ n ∈ (Program.node ⟨text.utf8ByteSize, ss⟩).parts, n.Fits text := by
  have hstop := boundary_stop text
  intro n hn
  rw [Program.node, ofKind, Node.parts, mem_cons, Node.mem_partsOfList] at hn
  rcases hn with rfl | ⟨m, hm, hn⟩
  · refine ⟨⟨(boundary_zero text).isValid, hstop.isValid, Nat.zero_le _, hstop.le, ?_, ?_, trivial⟩,
      rfl, rfl⟩
    · intro _ _ htext
      exact Nat.pos_of_ne_zero fun hzero => htext rfl (String.utf8ByteSize_eq_zero_iff.1 hzero)
    · have hq := h.stop.le
      rw [Node.children, filterMap_append]
      refine ⟨fun r hr => ?_, pairwise_append.2 ⟨h.inLine.order, pairwise_singleton .., ?_⟩⟩
      · rcases mem_append.1 hr with hr | hr
        · have := h.inLine.inside r hr
          simp only [Node.range]
          omega
        · obtain rfl : r = _ := by simpa [Node.place?, ofToken] using hr
          exact ⟨Nat.zero_le _, le_rfl, le_rfl⟩
      · intro a ha b hb
        obtain rfl : b = _ := by simpa [Node.place?, ofToken] using hb
        exact (h.inLine.inside a ha).2.2.trans hq
  · rcases mem_append.1 hm with hm | hm
    · exact h.fits m hm n hn
    · obtain rfl := mem_singleton.1 hm
      obtain rfl : n = _ := by simpa [Node.parts, Node.partsOfList, ofToken] using hn
      exact ⟨⟨hstop.isValid, hstop.isValid, le_rfl, le_rfl, fun _ h => absurd rfl h,
        ⟨by simp [Node.children], .nil⟩, trivial⟩, rfl, rfl⟩

theorem Program.exact_node {p q : Range} {ss : List Stmt} (h : Reading text p (Stmt.nodes ss) q) :
    ∀ n ∈ (Program.node ⟨text.utf8ByteSize, ss⟩).parts, n.Exact text :=
  fun n hn => (fits_node h n hn).toExact

end Programs

end LambdaLift
