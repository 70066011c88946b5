import LambdaLift.Grammar.Name
import LambdaLift.Proofs.Token.Agreement
import LambdaLift.Proofs.Tree.Placement

/-!
# Trees of texts with the same tokens

What two runs give for one part of a program, each in its own text.

* `Placed`: things that stand at a place, with the place taken away (`unplaced`) and its start.
* `Related.Like ts a b`: `a` and `b` stand for the same. Things with a place are the same
  without it and start at the same token; children of a node need only be the same without place.
* `Akin`: the same as a class, with an instance for each way to build a tree.
-/

namespace LambdaLift

open Stmt

/-! ## Nodes without positions -/

section Unplaced

theorem Node.unplacedList_eq_map (ns : List Node) : Node.unplacedList ns = ns.map Node.unplaced := by
  induction ns with
  | nil => rfl
  | cons n ns ih => rw [Node.unplacedList, ih, List.map_cons]

@[simp] theorem Node.unplaced_ofKind (role : Role) (kind : NodeKind) (r : Range) (ns : List Node)
    (marks : Marks) (detail : Detail) : (Node.ofKind role kind r ns marks detail).unplaced =
      .ofKind role kind noRange (ns.map Node.unplaced) marks detail := by
  simp [Node.ofKind, Node.unplaced, Node.unplacedList_eq_map]

@[simp] theorem Node.unplaced_ofToken (role : Role) (kind : TokenKind) (r : Range) :
    (Node.ofToken role kind r).unplaced = .ofToken role kind noRange := rfl

theorem Node.unplaced_withRole (role : Role) (n : Node) :
    (n.withRole role).unplaced = n.unplaced.withRole role := by
  cases n <;> rfl

mutual

theorem Expr.unplaced_node (role : Role) (e : Expr) :
    (e.node role).unplaced = e.unplaced.node role := by
  cases e with
  | ident _ | number _ | string _ | boolean _ _ | null _ => rfl
  | paren _ e | unary _ _ e | update _ _ e =>
    simp [Expr.unplaced, Expr.clear, Expr.node, Expr.unplaced_node _ e]
  | binary _ _ _ a b =>
    simp [Expr.unplaced, Expr.clear, Expr.node, Expr.unplaced_node _ a, Expr.unplaced_node _ b]
  | call _ _ f args =>
    have hname : (f.clear .unplaced).name? = f.name? := Expr.name?_unplaced f
    simp [Expr.unplaced, Expr.clear, Expr.node, Expr.unplaced_node _ f, Expr.unplaced_nodes _ args,
      hname]
  | other n => exact Node.unplaced_withRole role n

theorem Expr.unplaced_nodes (role : Role) (es : List Expr) :
    (Expr.nodes role es).map Node.unplaced = Expr.nodes role (Expr.clearList .unplaced es) := by
  cases es with
  | nil => rfl
  | cons e es =>
    simp [Expr.nodes, Expr.clearList, Expr.unplaced_node role e, Expr.unplaced_nodes role es,
      Expr.unplaced]

end

theorem Binding.unplaced_node (role : Role) (b : Binding) :
    (b.node role).unplaced = (b.clear .unplaced).node role := by
  cases b with
  | name _ => rfl
  | pattern n => exact Node.unplaced_withRole role n

theorem map_unplaced_initializerNodes (init : Option Expr) :
    (initializerNodes init).map Node.unplaced = initializerNodes (init.map (Expr.clear .unplaced)) := by
  cases init with
  | none => rfl
  | some e => exact congrArg ([·]) (Expr.unplaced_node .initializer e)

theorem map_unplaced_ellipsisNodes (dots : Option Range) :
    (ellipsisNodes dots).map Node.unplaced = ellipsisNodes (dots.map fun _ => noRange) := by
  cases dots <;> rfl

theorem Declarator.unplaced_node (d : Declarator) : d.node.unplaced = (d.clear .unplaced).node := by
  simp [Declarator.node, Declarator.clear, Binding.unplaced_node, map_unplaced_initializerNodes]

theorem Param.unplaced_node (p : Param) : p.node.unplaced = (p.clear .unplaced).node := by
  have hname : (p.clear .unplaced).plainName? = p.plainName? := by
    obtain ⟨_, dots, target, init⟩ := p
    cases target <;> cases dots <;> cases init <;> rfl
  simp only [Param.node, Node.unplaced_ofKind, List.map_append, List.map_cons, hname,
    Binding.unplaced_node, map_unplaced_initializerNodes, map_unplaced_ellipsisNodes]
  rfl

theorem map_unplaced_signatureNodes (name : Option Ident) (params : List Param) :
    (signatureNodes name params).map Node.unplaced =
      signatureNodes (name.map Leaves.unplaced.ident) (params.map (Param.clear .unplaced)) := by
  have hname : (name.map (Ident.node .name)).toList.map Node.unplaced =
      ((name.map Leaves.unplaced.ident).map (Ident.node .name)).toList := by
    cases name <;> rfl
  simp [signatureNodes, hname, Param.unplaced_node, Function.comp_def]

theorem unplaced_variablesNode (role : Role) (r : Range) (kind : VarKind) (ds : List Declarator) :
    (variablesNode role r kind ds).unplaced =
      variablesNode role noRange kind (ds.map (Declarator.clear .unplaced)) := by
  simp [variablesNode, Declarator.unplaced_node, Function.comp_def]

mutual

theorem Stmt.unplaced_node (role : Role) (s : Stmt) :
    (s.node role).unplaced = s.unplaced.node role := by
  cases s with
  | vars => simp [Stmt.unplaced, clear, node, unplaced_variablesNode]
  | function head body =>
    simp [Stmt.unplaced, clear, node, FunctionHead.clear, map_unplaced_signatureNodes,
      unplaced_nodes body]
  | block _ body => simp [Stmt.unplaced, clear, node, unplaced_nodes body]
  | empty _ => simp [Stmt.unplaced, clear, node]
  | expression _ e =>
    simp [Stmt.unplaced, clear, node, Expr.unplaced_node, Expr.unplaced]
  | return_ _ e =>
    cases e <;> simp [Stmt.unplaced, clear, node, Expr.unplaced_node, Expr.unplaced]
  | other n => exact Node.unplaced_withRole role n

theorem Stmt.unplaced_nodes (ss : List Stmt) :
    (nodes ss).map Node.unplaced = nodes (clearList .unplaced ss) := by
  cases ss with
  | nil => rfl
  | cons s ss =>
    simp [nodes, clearList, unplaced_node .statement s, unplaced_nodes ss,
      Stmt.unplaced]

end

end Unplaced

/-! ## Likeness -/

/-- Things that stand at a place in a text. -/
class Placed (α : Type) where
  /-- The thing without its place and those of its parts. -/
  unplaced : α → α
  /-- Where the thing starts. -/
  start : α → Nat

/-- The name of a property without positions. -/
def Grammar.PropertyName.unplaced : PropertyName → PropertyName
  | word id => word (Leaves.unplaced.ident id)
  | string lit => string (Leaves.unplaced.string lit)
  | number lit => number (Leaves.unplaced.number lit)
  | computed e => computed e.unplaced

instance : Placed Range := ⟨fun _ => noRange, (·.start)⟩
instance : Placed Ident := ⟨Leaves.unplaced.ident, (·.range.start)⟩
instance : Placed Literal := ⟨Leaves.unplaced.string, (·.range.start)⟩
instance : Placed NumberLiteral := ⟨Leaves.unplaced.number, (·.range.start)⟩
instance : Placed Node := ⟨Node.unplaced, (·.range.start)⟩
instance : Placed Expr := ⟨Expr.unplaced, (·.range.start)⟩
instance : Placed Grammar.PropertyName := ⟨Grammar.PropertyName.unplaced, (·.node.range.start)⟩
instance : Placed Binding := ⟨Binding.clear .unplaced, (·.range.start)⟩
instance : Placed Declarator := ⟨Declarator.clear .unplaced, (·.range.start)⟩
instance : Placed Param := ⟨Param.clear .unplaced, (·.range.start)⟩
instance : Placed Stmt := ⟨Stmt.unplaced, (·.range.start)⟩

/-- When results of reading, each from its own text, stand for the same. -/
class Related (α : Type) where
  Like : (ts : Texts) → α → α → Prop

/-- Results without a place. -/
class Placeless (α : Type) [Related α] : Prop where
  like_iff (ts : Texts) (a b : α) : Related.Like ts a b ↔ a = b

/-- `a` in the first text and `b` in the second stand for the same. -/
class Akin {α : Type} [Related α] (ts : Texts) (a b : α) : Prop where
  like : Related.Like ts a b

section Relations

variable {α β : Type}

instance [Placed α] : Related α where
  Like ts a b := Placed.unplaced a = Placed.unplaced b ∧
    SamePlace ts (Placed.start a) (Placed.start b)

/-- A number is an offset. -/
instance : Related Nat := ⟨SamePlace⟩

/-- Lists are lists of children, whose places do not matter. -/
instance [Placed α] : Related (List α) where
  Like _ as bs := as.map Placed.unplaced = bs.map Placed.unplaced

instance [Related α] : Related (Option α) where
  Like ts := Option.Rel (Related.Like ts)

instance [Related α] [Related β] : Related (α × β) where
  Like ts a b := Related.Like ts a.1 b.1 ∧ Related.Like ts a.2 b.2

/-- Results without a place are the same. -/
abbrev Related.ofEq (α : Type) : Related α := ⟨fun _ => Eq⟩

instance : Related Unit := .ofEq Unit
instance : Related Bool := .ofEq Bool
instance : Related TokenKind := .ofEq TokenKind
instance : Related NodeKind := .ofEq NodeKind
instance : Related VarKind := .ofEq VarKind
instance : Related Detail := .ofEq Detail

instance : Placeless Unit := ⟨fun _ _ _ => .rfl⟩
instance : Placeless Bool := ⟨fun _ _ _ => .rfl⟩
instance : Placeless TokenKind := ⟨fun _ _ _ => .rfl⟩
instance : Placeless NodeKind := ⟨fun _ _ _ => .rfl⟩
instance : Placeless VarKind := ⟨fun _ _ _ => .rfl⟩
instance : Placeless Detail := ⟨fun _ _ _ => .rfl⟩

instance [Related α] [Placeless α] : Placeless (Option α) where
  like_iff ts a b := by
    constructor
    · rintro (h | _)
      · rw [(Placeless.like_iff ..).1 h]
      · rfl
    · rintro rfl
      cases a with
      | none => exact .none
      | some a => exact .some ((Placeless.like_iff ..).2 rfl)

end Relations

/-! ## Ways to build trees -/

section Building

variable {α β : Type} {ts : Texts}

instance (priority := low) [Related α] [Placeless α] (a : α) : Akin ts a a :=
  ⟨(Placeless.like_iff ..).2 rfl⟩

instance [Related α] {c : Prop} [Decidable c] {a b a' b' : α} [Akin ts a b]
    [Akin ts a' b'] : Akin ts (if c then a else a') (if c then b else b') := by
  split <;> infer_instance

/-- What is built by `f` stands where its part stands, and is built alike without positions. -/
class Wraps [Placed α] [Placed β] (f : α → β) : Prop where
  unplaced (a : α) : Placed.unplaced (f a) = f (Placed.unplaced a)
  start (a : α) : Placed.start (f a) = Placed.start a

variable [Placed α] [Placed β] {f : α → β}

theorem Akin.unplaced_eq {a b : α} (h : Akin ts a b) : Placed.unplaced a = Placed.unplaced b :=
  h.like.1

theorem Akin.start {a b : α} (h : Akin ts a b) : SamePlace ts (Placed.start a) (Placed.start b) :=
  h.like.2

theorem Wraps.like [hf : Wraps f] {a b : α} (h : Related.Like ts a b) :
    Related.Like ts (f a) (f b) := by
  refine ⟨?_, ?_⟩
  · rw [hf.unplaced, hf.unplaced, h.1]
  · rw [hf.start, hf.start]
    exact h.2

instance (priority := low) [Wraps f] {a b : α} [h : Akin ts a b] : Akin ts (f a) (f b) :=
  ⟨Wraps.like h.like⟩

/-! ### Nodes -/

instance (role : Role) : Wraps (Node.withRole role) :=
  ⟨Node.unplaced_withRole role, fun n => by cases n <;> rfl⟩
instance (role : Role) (kind : TokenKind) : Wraps (Node.ofToken role kind) :=
  ⟨fun _ => rfl, fun _ => rfl⟩
instance (role : Role) : Wraps (Ident.node role) := ⟨fun _ => rfl, fun _ => rfl⟩
instance (role : Role) (kind : TokenKind) : Wraps (Literal.node role kind) :=
  ⟨fun _ => rfl, fun _ => rfl⟩

instance (role : Role) : Wraps (Expr.node role) where
  unplaced := Expr.unplaced_node role
  start e := by
    cases e with
    | other n => exact Wraps.start (f := Node.withRole role) n
    | _ => simp [Placed.start, Expr.node, Expr.range, Node.range, Node.ofKind, Node.ofToken,
        Ident.node, NumberLiteral.node, Literal.node]

instance (role : Role) : Wraps (node role) where
  unplaced := unplaced_node role
  start s := by
    cases s with
    | other n => exact Wraps.start (f := Node.withRole role) n
    | _ => simp [Placed.start, node, range, Node.range, Node.ofKind]

instance (role : Role) : Wraps (Binding.node role) where
  unplaced := Binding.unplaced_node role
  start b := by
    cases b with
    | name _ => rfl
    | pattern n => exact Wraps.start (f := Node.withRole role) n

instance : Wraps Declarator.node := ⟨Declarator.unplaced_node, fun _ => rfl⟩
instance : Wraps Param.node := ⟨Param.unplaced_node, fun _ => rfl⟩

instance : Wraps Grammar.PropertyName.node where
  unplaced n := by
    cases n with
    | computed e => exact Expr.unplaced_node .computedName e
    | _ => rfl
  start _ := rfl

/-! ### Expressions, bindings and statements that are single nodes -/

instance : Wraps Expr.ident := ⟨fun _ => rfl, fun _ => rfl⟩
instance : Wraps Expr.number := ⟨fun _ => rfl, fun _ => rfl⟩
instance : Wraps Expr.string := ⟨fun _ => rfl, fun _ => rfl⟩
instance : Wraps Expr.null := ⟨fun _ => rfl, fun _ => rfl⟩
instance (b : Bool) : Wraps (Expr.boolean · b) := ⟨fun _ => rfl, fun _ => rfl⟩
instance : Wraps Expr.other := ⟨fun _ => rfl, fun _ => rfl⟩
instance (kind : TokenKind) : Wraps fun r => Expr.other (.ofToken .expression kind r) :=
  ⟨fun _ => rfl, fun _ => rfl⟩
instance : Wraps Grammar.PropertyName.word := ⟨fun _ => rfl, fun _ => rfl⟩
instance : Wraps Grammar.PropertyName.string := ⟨fun _ => rfl, fun _ => rfl⟩
instance : Wraps Grammar.PropertyName.number := ⟨fun _ => rfl, fun _ => rfl⟩
instance : Wraps Grammar.PropertyName.computed :=
  ⟨fun _ => rfl, fun e => Wraps.start (f := Expr.node .computedName) e⟩
instance : Wraps Binding.name := ⟨fun _ => rfl, fun _ => rfl⟩
instance : Wraps Binding.pattern := ⟨fun _ => rfl, fun _ => rfl⟩
instance : Wraps Stmt.empty := ⟨fun _ => rfl, fun _ => rfl⟩
instance : Wraps Stmt.other := ⟨fun _ => rfl, fun _ => rfl⟩

end Building

/-! ### Lists, options and pairs -/

section Containers

variable {α β : Type} {ts : Texts}

instance [Related α] : Akin ts (none : Option α) none := ⟨.none⟩

instance [Related α] {a b : α} [h : Akin ts a b] : Akin ts (some a) (some b) :=
  ⟨.some h.like⟩

instance [Related α] [Related β] {a b : α} {c d : β} [h : Akin ts a b]
    [h' : Akin ts c d] : Akin ts (a, c) (b, d) :=
  ⟨h.like, h'.like⟩

instance [Related α] [Related β] {a b : α × β} [h : Akin ts a b] : Akin ts a.1 b.1 :=
  ⟨h.like.1⟩

instance [Related α] [Related β] {a b : α × β} [h : Akin ts a b] : Akin ts a.2 b.2 :=
  ⟨h.like.2⟩

section Options

variable [Related α] {a b : Option α} [h : Akin ts a b]

instance : Akin ts a.isSome b.isSome where
  like := by cases h.like <;> rfl

instance : Akin ts a.isNone b.isNone where
  like := by cases h.like <;> rfl

end Options

variable [Placed α] [Placed β] {f : α → β}

instance : Akin ts ([] : List α) [] := ⟨rfl⟩

instance {a b : α} {as bs : List α} [h : Akin ts a b] [hs : Akin ts as bs] :
    Akin ts (a :: as) (b :: bs) where
  like := by
    have hmore : as.map Placed.unplaced = bs.map Placed.unplaced := hs.like
    change List.map _ _ = List.map _ _
    rw [List.map_cons, List.map_cons, h.unplaced_eq, hmore]

instance {as bs as' bs' : List α} [h : Akin ts as bs] [h' : Akin ts as' bs'] :
    Akin ts (as ++ as') (bs ++ bs') where
  like := by
    have heq : as.map Placed.unplaced = bs.map Placed.unplaced := h.like
    have heq' : as'.map Placed.unplaced = bs'.map Placed.unplaced := h'.like
    change List.map _ _ = List.map _ _
    rw [List.map_append, List.map_append, heq, heq']

theorem map_unplaced_map [hf : Wraps f] (as : List α) :
    (as.map f).map Placed.unplaced = (as.map Placed.unplaced).map f := by
  simp [hf.unplaced, Function.comp_def]

instance [hf : Wraps f] {as bs : List α} [h : Akin ts as bs] : Akin ts (as.map f) (bs.map f) where
  like := by
    have heq : as.map Placed.unplaced = bs.map Placed.unplaced := h.like
    change List.map _ _ = List.map _ _
    rw [map_unplaced_map, map_unplaced_map, heq]

instance [hf : Wraps f] {a b : Option α} [h : Akin ts a b] : Akin ts (a.map f) (b.map f) where
  like := by
    cases h.like with
    | none => exact .none
    | some hab => exact .some (Wraps.like hab)

theorem Akin.map_unplaced_eq {a b : Option α} (h : Akin ts a b) :
    a.map Placed.unplaced = b.map Placed.unplaced := by
  cases h.like with
  | none => rfl
  | some hab => exact congrArg some hab.1

instance {a b : Option α} [h : Akin ts a b] : Akin ts a.toList b.toList where
  like := by
    cases h.like with
    | none => rfl
    | some hab => exact congrArg ([·]) hab.1

instance {a b : Option (List α)} [h : Akin ts a b] : Akin ts (a.getD []) (b.getD []) where
  like := by
    cases h.like with
    | none => rfl
    | some hab => exact hab

instance {a b : α} [h : Akin ts a b] : Akin ts (List.singleton a) (List.singleton b) :=
  inferInstanceAs (Akin ts [a] [b])

end Containers

/-! ### Parts and places -/

section Parts

variable {ts : Texts}

instance {o o' : Nat} [h : Akin ts o o'] : Akin ts (Range.empty o) (.empty o') :=
  ⟨rfl, h.like⟩

instance {e e' : Expr} [h : Akin ts e e'] : Akin ts e.range.start e'.range.start :=
  ⟨h.start⟩

instance {id id' : Ident} [h : Akin ts id id'] : Akin ts id.range id'.range :=
  ⟨rfl, h.start⟩

instance {s s' : Stmt} [h : Akin ts s s'] : Akin ts s.range s'.range :=
  ⟨rfl, h.start⟩

variable {r r' q q' : Range} [hr : Akin ts r r']

instance (name : String) (isMissing : Bool) :
    Akin ts (Ident.mk r name isMissing) (.mk r' name isMissing) :=
  ⟨rfl, hr.start⟩

instance (value raw : String) (isMissing : Bool) :
    Akin ts (Literal.mk r value raw isMissing) (.mk r' value raw isMissing) :=
  ⟨rfl, hr.start⟩

instance (value : Float) (raw : String) :
    Akin ts (NumberLiteral.mk r value raw) (.mk r' value raw) :=
  ⟨rfl, hr.start⟩

instance {b b' : Bool} [h : Akin ts b b'] : Akin ts (Detail.construction b) (.construction b') :=
  ⟨congrArg Detail.construction h.like⟩

instance {ns ns' : List Node} {detail detail' : Detail} (role : Role) (kind : NodeKind)
    (marks : Marks) [h : Akin ts ns ns'] [hdetail : Akin ts detail detail'] :
    Akin ts (Node.ofKind role kind r ns marks detail)
      (.ofKind role kind r' ns' marks detail') where
  like := by
    refine ⟨?_, hr.start⟩
    have hns : ns.map Node.unplaced = ns'.map Node.unplaced := h.like
    have heq : detail = detail' := hdetail.like
    change Node.unplaced _ = Node.unplaced _
    rw [Node.unplaced_ofKind, Node.unplaced_ofKind, hns, heq]

/-! ### Expressions -/

variable {a a' b b' : Expr} [ha : Akin ts a a'] [hb : Akin ts b b']

instance : Akin ts (Expr.paren r a) (.paren r' a') :=
  ⟨congrArg (Expr.paren noRange) ha.unplaced_eq, hr.start⟩

instance (op : PrefixOp) : Akin ts (Expr.unary r op a) (.unary r' op a') :=
  ⟨congrArg (Expr.unary noRange op) ha.unplaced_eq, hr.start⟩

instance (op : UpdateOp) : Akin ts (Expr.update r op a) (.update r' op a') :=
  ⟨congrArg (Expr.update noRange op) ha.unplaced_eq, hr.start⟩

instance (op : BinaryOp) : Akin ts (Expr.binary r op q a b) (.binary r' op q' a' b') :=
  ⟨congrArg₂ (Expr.binary noRange op noRange) ha.unplaced_eq hb.unplaced_eq, hr.start⟩

instance (isOptional : Bool) {args args' : List Expr} [h : Akin ts args args'] :
    Akin ts (Expr.call r isOptional a args) (.call r' isOptional a' args') where
  like := by
    refine ⟨?_, hr.start⟩
    have hargs : args.map (Expr.clear .unplaced) = args'.map (Expr.clear .unplaced) := h.like
    change Expr.call noRange isOptional a.unplaced (Expr.clearList .unplaced args) =
      .call noRange isOptional a'.unplaced (Expr.clearList .unplaced args')
    rw [Expr.clearList_eq_map, Expr.clearList_eq_map, hargs]
    exact congrArg (Expr.call noRange isOptional · _) ha.unplaced_eq

/-! ### Declarations and statements -/

variable {t t' : Binding} [ht : Akin ts t t'] {init init' : Option Expr}
  [hinit : Akin ts init init']

instance : Akin ts (Declarator.mk r t init) (.mk r' t' init') :=
  ⟨congrArg₂ (Declarator.mk noRange) ht.unplaced_eq hinit.map_unplaced_eq, hr.start⟩

instance {dots dots' : Option Range} [h : Akin ts dots dots'] :
    Akin ts (Param.mk r dots t init) (.mk r' dots' t' init') where
  like := by
    refine ⟨?_, hr.start⟩
    have hdots : (dots.map fun _ => noRange) = dots'.map fun _ => noRange := h.map_unplaced_eq
    change Param.mk noRange _ _ _ = .mk noRange _ _ _
    rw [hdots]
    exact congrArg₂ (Param.mk noRange _) ht.unplaced_eq hinit.map_unplaced_eq

instance {kind kind' : VarKind} {ds ds' : List Declarator} [hkind : Akin ts kind kind']
    [h : Akin ts ds ds'] :
    Akin ts (Stmt.vars r q kind ds) (.vars r' q' kind' ds') :=
  ⟨congrArg₂ (Stmt.vars noRange noRange) hkind.like h.like, hr.start⟩

theorem clearList_eq_of_akin {ss ss' : List Stmt} (h : Akin ts ss ss') :
    clearList .unplaced ss = clearList .unplaced ss' := by
  rw [clearList_eq_map, clearList_eq_map]
  exact h.like

instance {ss ss' : List Stmt} [h : Akin ts ss ss'] : Akin ts (Stmt.block r ss) (.block r' ss') :=
  ⟨congrArg (Stmt.block noRange) (clearList_eq_of_akin h), hr.start⟩

instance (isAsync isGenerator : Bool) {name name' : Option Ident} {params params' : List Param}
    {ss ss' : List Stmt} [hname : Akin ts name name'] [hparams : Akin ts params params']
    [h : Akin ts ss ss'] :
    Akin ts (Stmt.function ⟨r, isAsync, isGenerator, name, params, q⟩ ss)
      (.function ⟨r', isAsync, isGenerator, name', params', q'⟩ ss') where
  like := by
    refine ⟨congrArg₂ Stmt.function ?_ (clearList_eq_of_akin h), hr.start⟩
    exact congrArg₂ (FunctionHead.mk noRange isAsync isGenerator · · noRange)
      hname.map_unplaced_eq hparams.like

instance : Akin ts (Stmt.expression r a) (.expression r' a') :=
  ⟨congrArg (Stmt.expression noRange) ha.unplaced_eq, hr.start⟩

instance : Akin ts (Stmt.return_ r init) (.return_ r' init') :=
  ⟨congrArg (Stmt.return_ noRange) hinit.map_unplaced_eq, hr.start⟩

end Parts

/-! ### Nodes of several parts -/

section Nodes

variable {ts : Texts}

instance (role : Role) {es es' : List Expr} [Akin ts es es'] :
    Akin ts (Expr.nodes role es) (Expr.nodes role es') := by
  rw [Expr.nodes_eq_map, Expr.nodes_eq_map]
  infer_instance

instance {ss ss' : List Stmt} [Akin ts ss ss'] : Akin ts (nodes ss) (nodes ss') := by
  rw [nodes_eq_map, nodes_eq_map]
  infer_instance

instance {init init' : Option Expr} [Akin ts init init'] :
    Akin ts (initializerNodes init) (initializerNodes init') := by
  unfold initializerNodes; infer_instance

instance {dots dots' : Option Range} [Akin ts dots dots'] :
    Akin ts (ellipsisNodes dots) (ellipsisNodes dots') := by
  unfold ellipsisNodes; infer_instance

instance {name name' : Option Ident} {params params' : List Param} [Akin ts name name']
    [Akin ts params params'] :
    Akin ts (signatureNodes name params) (signatureNodes name' params') := by
  unfold signatureNodes; infer_instance

variable {r r' : Range} [Akin ts r r']

instance (role : Role) {kind kind' : VarKind} {ds ds' : List Declarator}
    [hkind : Akin ts kind kind'] [Akin ts ds ds'] :
    Akin ts (variablesNode role r kind ds) (variablesNode role r' kind' ds') := by
  obtain rfl : kind = kind' := hkind.like
  unfold variablesNode
  infer_instance

instance (role : Role) {b b' : Range × List Stmt} [Akin ts b b'] :
    Akin ts (Grammar.blockNode role b) (Grammar.blockNode role b') := by
  unfold Grammar.blockNode; infer_instance

instance {dots dots' : Option Range} {p p' : Option Grammar.PropertyName} {t t' : Binding}
    {init init' : Option Expr} [Akin ts dots dots'] [Akin ts p p']
    [Akin ts t t'] [Akin ts init init'] :
    Akin ts (Grammar.bindingElement r dots p t init)
      (Grammar.bindingElement r' dots' p' t' init') := by
  unfold Grammar.bindingElement; infer_instance

end Nodes

/-! ### What is asked of a result -/

section Questions

variable {ts : Texts}

instance {b b' c c' : Bool} [h : Akin ts b b'] [h' : Akin ts c c'] : Akin ts (b && c) (b' && c') :=
  ⟨congrArg₂ (· && ·) h.like h'.like⟩

instance {b b' : Bool} [h : Akin ts b b'] : Akin ts (!b) (!b') :=
  ⟨congrArg (! ·) h.like⟩

theorem Node.kind_unplaced (n : Node) : n.unplaced.kind = n.kind := by
  cases n <;> rfl

theorem Stmt.kind_unplaced (s : Stmt) : s.unplaced.kind = s.kind := by
  cases s with
  | other n => exact Node.kind_unplaced n
  | _ => rfl

theorem Stmt.kind_eq_of_akin {s s' : Stmt} (h : Akin ts s s') : s.kind = s'.kind := by
  rw [← s.kind_unplaced, ← s'.kind_unplaced]
  exact congrArg Stmt.kind h.unplaced_eq

end Questions

end LambdaLift
