import LambdaLift.Proofs.Code.Pieces

/-!
# Legible trees

A tree is legible if its leaves spell what they stand for and its operands bind as tightly as the
place they stand in asks for. Trees of texts without a fault are legible.

* `Stmt.Legible`: legible statements, of the kinds that can be lifted.
* `Stmt.respelled_eq_unplaced`: the literals of a legible statement have the values that their texts
  spell.
* `Code.Stmt.printable_of_legible`: code with a legible tree is printable.
-/

namespace LambdaLift

open Stmt

/-- How tightly an expression binds, as for `Code.Expr.rank`. -/
def Expr.rank : Expr → Nat
  | .unary .. | .update .. => 1
  | .binary _ op .. => if op = .comma then 4 else if op = .assign then 3 else 2
  | _ => 0

/-- A name that was read. -/
structure Ident.Legible (id : Ident) : Prop where
  isName : IsName id.name
  isMissing : id.isMissing = false

/-- A number that was read. -/
structure NumberLiteral.Legible (lit : NumberLiteral) : Prop where
  isNumber : IsNumber lit.raw
  value : lit.value = numberSpelled lit.raw

/-- A string that was read. -/
structure Literal.Legible (lit : Literal) : Prop where
  isString : IsString lit.raw
  value : lit.value = stringSpelled lit.raw
  isMissing : lit.isMissing = false

mutual

/-- An expression that can be lifted and whose text stands for it. -/
def Expr.Legible : Expr → Prop
  | .ident id => id.Legible
  | .number lit => lit.Legible
  | .string lit => lit.Legible
  | .boolean .. | .null _ => True
  | .paren _ e => e.Legible
  | .unary _ _ e => e.rank ≤ 1 ∧ e.Legible
  | .update _ _ e => e.rank = 0 ∧ e.Legible
  | .binary _ op _ a b =>
    op.isLiftable = true ∧ (op = .assign → a.name?.isSome ∧ b.rank ≤ 3) ∧ a.Legible ∧ b.Legible
  | .call _ isOptional f args =>
    isOptional = false ∧ f.name?.isSome ∧ f.Legible ∧ Expr.LegibleList args
  | .other _ => False

/-- Expressions that can stand in a list. -/
def Expr.LegibleList : List Expr → Prop
  | [] => True
  | e :: es => (e.rank ≤ 3 ∧ e.Legible) ∧ Expr.LegibleList es

end

/-- What is bound is a name that was read. -/
def Binding.Legible (b : Binding) : Prop :=
  ∃ id, b = .name id ∧ id.Legible

/-- A variable that can be lifted and whose text stands for it. -/
structure Declarator.Legible (d : Declarator) : Prop where
  target : d.target.Legible
  init : ∀ e ∈ d.init, e.rank ≤ 3 ∧ e.Legible

/-- A parameter that is a name and nothing else. -/
structure Param.Legible (p : Param) : Prop where
  ellipsis : p.ellipsis = none
  target : p.target.Legible
  init : p.init = none

/-- The head of a function that can be lifted and whose text stands for it. -/
structure FunctionHead.Legible (h : FunctionHead) : Prop where
  isAsync : h.isAsync = false
  isGenerator : h.isGenerator = false
  name : ∃ id, h.name = some id ∧ id.Legible
  params : ∀ p ∈ h.params, p.Legible

mutual

/-- A statement that can be lifted and whose text stands for it. -/
def Stmt.Legible : Stmt → Prop
  | .vars _ _ _ ds => ∀ d ∈ ds, d.Legible
  | .function head body => head.Legible ∧ LegibleList body
  | .block _ body => LegibleList body
  | .expression _ e => e.Legible
  | .return_ _ e => ∀ e' ∈ e, e'.Legible
  | .empty _ | .other _ => False

/-- Statements that can be lifted and whose texts stand for them. -/
def Stmt.LegibleList : List Stmt → Prop
  | [] => True
  | s :: ss => s.Legible ∧ LegibleList ss

end

theorem Expr.legibleList_iff {es : List Expr} :
    Expr.LegibleList es ↔ ∀ e ∈ es, e.rank ≤ 3 ∧ e.Legible := by
  induction es with
  | nil => simp [Expr.LegibleList]
  | cons e es ih => simp [Expr.LegibleList, ih]

theorem Stmt.legibleList_iff {ss : List Stmt} : LegibleList ss ↔ ∀ s ∈ ss, s.Legible := by
  induction ss with
  | nil => simp [LegibleList]
  | cons s ss ih => simp [LegibleList, ih]

/-! ## Respelling -/

theorem Ident.respelled_eq_unplaced {id : Ident} (h : id.Legible) :
    Leaves.respelled.ident id = Leaves.unplaced.ident id := by
  simp [Leaves.respelled, Leaves.unplaced, h.isMissing]

mutual

theorem Expr.respelled_eq_unplaced (e : Expr) (h : e.Legible) : e.respelled = e.unplaced := by
  cases e with
  | ident id => exact congrArg Expr.ident (Ident.respelled_eq_unplaced h)
  | number lit =>
    simp [Expr.respelled, Expr.unplaced, Expr.clear, Leaves.respelled, Leaves.unplaced, h.value]
  | string lit =>
    simp [Expr.respelled, Expr.unplaced, Expr.clear, Leaves.respelled, Leaves.unplaced, h.value,
      h.isMissing]
  | boolean _ b | null _ => rfl
  | paren _ e => exact congrArg (Expr.paren noRange) (Expr.respelled_eq_unplaced e h)
  | unary _ op e => exact congrArg (Expr.unary noRange op) (Expr.respelled_eq_unplaced e h.2)
  | update _ op e => exact congrArg (Expr.update noRange op) (Expr.respelled_eq_unplaced e h.2)
  | binary _ op _ a b =>
    have ha := Expr.respelled_eq_unplaced a h.2.2.1
    have hb := Expr.respelled_eq_unplaced b h.2.2.2
    simp only [Expr.respelled, Expr.unplaced] at ha hb
    simp [Expr.respelled, Expr.unplaced, Expr.clear, ha, hb]
  | call _ isOptional f args =>
    have hf := Expr.respelled_eq_unplaced f h.2.2.1
    have hargs := Expr.clearList_respelled args h.2.2.2
    simp only [Expr.respelled, Expr.unplaced] at hf
    simp [Expr.respelled, Expr.unplaced, Expr.clear, hf, hargs]
  | other n => exact h.elim

theorem Expr.clearList_respelled (es : List Expr) (h : Expr.LegibleList es) :
    Expr.clearList .respelled es = Expr.clearList .unplaced es := by
  cases es with
  | nil => rfl
  | cons e es =>
    have he := Expr.respelled_eq_unplaced e h.1.2
    have hes := Expr.clearList_respelled es h.2
    simp only [Expr.respelled, Expr.unplaced] at he
    simp [Expr.clearList, he, hes]

end

theorem Expr.map_respelled {e : Option Expr} (h : ∀ e' ∈ e, e'.Legible) :
    e.map (Expr.clear .respelled) = e.map (Expr.clear .unplaced) := by
  cases e with
  | none => rfl
  | some e => exact congrArg some (Expr.respelled_eq_unplaced e (h e rfl))

theorem Binding.clear_respelled {b : Binding} (h : b.Legible) :
    b.clear .respelled = b.clear .unplaced := by
  obtain ⟨id, rfl, hid⟩ := h
  exact congrArg Binding.name (Ident.respelled_eq_unplaced hid)

theorem Declarator.clear_respelled {d : Declarator} (h : d.Legible) :
    d.clear .respelled = d.clear .unplaced := by
  rw [Declarator.clear, Declarator.clear, Binding.clear_respelled h.target,
    Expr.map_respelled fun e he => (h.init e he).2]

theorem FunctionHead.clear_respelled {head : FunctionHead} (h : head.Legible) :
    head.clear .respelled = head.clear .unplaced := by
  obtain ⟨id, hname, hid⟩ := h.name
  have hparams : head.params.map (Param.clear .respelled) =
      head.params.map (Param.clear .unplaced) := by
    refine List.map_congr_left fun p hp => ?_
    have hp := h.params p hp
    simp [Param.clear, Binding.clear_respelled hp.target, hp.init]
  simp [FunctionHead.clear, hparams, hname, Ident.respelled_eq_unplaced hid]

mutual

/-- The values of literals are those that their texts spell. -/
theorem Stmt.respelled_eq_unplaced (s : Stmt) (h : s.Legible) : s.respelled = s.unplaced := by
  cases s with
  | vars _ _ kind ds =>
    have hds : ds.map (Declarator.clear .respelled) = ds.map (Declarator.clear .unplaced) :=
      List.map_congr_left fun d hd => Declarator.clear_respelled (h d hd)
    simp [respelled, unplaced, clear, hds]
  | function head body =>
    have hbody := clearList_respelled body h.2
    simp [respelled, unplaced, clear, FunctionHead.clear_respelled h.1, hbody]
  | block _ body => exact congrArg (Stmt.block noRange) (clearList_respelled body h)
  | expression _ e =>
    exact congrArg (Stmt.expression noRange) (Expr.respelled_eq_unplaced e h)
  | return_ _ e => exact congrArg (Stmt.return_ noRange) (Expr.map_respelled h)
  | empty _ | other n => exact h.elim

theorem Stmt.clearList_respelled (ss : List Stmt) (h : LegibleList ss) :
    clearList .respelled ss = clearList .unplaced ss := by
  cases ss with
  | nil => rfl
  | cons s ss =>
    have hs := respelled_eq_unplaced s h.1
    have hss := clearList_respelled ss h.2
    simp only [respelled, unplaced] at hs
    simp [clearList, hs, hss]

end

/-! ## Positions -/

theorem Expr.rank_unplaced (e : Expr) : e.unplaced.rank = e.rank := by
  cases e <;> rfl

mutual

theorem Expr.Legible.unplaced (e : Expr) (h : e.Legible) : e.unplaced.Legible := by
  cases e with
  | ident id => exact ⟨h.isName, h.isMissing⟩
  | number lit => exact ⟨h.isNumber, h.value⟩
  | string lit => exact ⟨h.isString, h.value, h.isMissing⟩
  | boolean _ b | null _ => trivial
  | paren _ e => exact Expr.Legible.unplaced e h
  | unary _ op e => exact ⟨(Expr.rank_unplaced e).trans_le h.1, Expr.Legible.unplaced e h.2⟩
  | update _ op e => exact ⟨(Expr.rank_unplaced e).trans h.1, Expr.Legible.unplaced e h.2⟩
  | binary _ op _ a b =>
    refine ⟨h.1, fun hop => ?_, Expr.Legible.unplaced a h.2.2.1, Expr.Legible.unplaced b h.2.2.2⟩
    obtain ⟨ha, hb⟩ := h.2.1 hop
    exact ⟨(congrArg Option.isSome (Expr.name?_unplaced a)).trans ha,
      (Expr.rank_unplaced b).trans_le hb⟩
  | call _ isOptional f args =>
    exact ⟨h.1, (congrArg Option.isSome (Expr.name?_unplaced f)).trans h.2.1,
      Expr.Legible.unplaced f h.2.2.1, Expr.LegibleList.unplaced args h.2.2.2⟩
  | other n => exact h.elim

theorem Expr.LegibleList.unplaced (es : List Expr) (h : Expr.LegibleList es) :
    Expr.LegibleList (Expr.clearList .unplaced es) := by
  cases es with
  | nil => trivial
  | cons e es =>
    exact ⟨⟨(Expr.rank_unplaced e).trans_le h.1.1, Expr.Legible.unplaced e h.1.2⟩,
      Expr.LegibleList.unplaced es h.2⟩

end

theorem Binding.Legible.unplaced {b : Binding} (h : b.Legible) : (b.clear .unplaced).Legible := by
  obtain ⟨id, rfl, hid⟩ := h
  exact ⟨_, rfl, hid.isName, hid.isMissing⟩

theorem Declarator.Legible.unplaced {d : Declarator} (h : d.Legible) :
    (d.clear .unplaced).Legible where
  target := h.target.unplaced
  init := by
    intro e he
    obtain ⟨e', he', rfl⟩ := Option.map_eq_some_iff.1 he
    exact ⟨(Expr.rank_unplaced e').trans_le (h.init e' he').1,
      Expr.Legible.unplaced e' (h.init e' he').2⟩

theorem FunctionHead.Legible.unplaced {head : FunctionHead} (h : head.Legible) :
    (head.clear .unplaced).Legible where
  isAsync := h.isAsync
  isGenerator := h.isGenerator
  name := by
    obtain ⟨id, hname, hid⟩ := h.name
    exact ⟨Leaves.unplaced.ident id, congrArg (Option.map _) hname, hid.isName, hid.isMissing⟩
  params := by
    intro p hp
    obtain ⟨p', hp', rfl⟩ := List.mem_map.1 hp
    have := h.params p' hp'
    exact ⟨congrArg (Option.map _) this.ellipsis, this.target.unplaced,
      congrArg (Option.map _) this.init⟩

mutual

theorem Stmt.Legible.unplaced (s : Stmt) (h : s.Legible) : s.unplaced.Legible := by
  cases s with
  | vars _ _ kind ds =>
    intro d hd
    obtain ⟨d', hd', rfl⟩ := List.mem_map.1 hd
    exact (h d' hd').unplaced
  | function head body => exact ⟨h.1.unplaced, LegibleList.unplaced body h.2⟩
  | block _ body => exact LegibleList.unplaced body h
  | expression _ e => exact Expr.Legible.unplaced e h
  | return_ _ e =>
    intro e' he'
    obtain ⟨e'', he'', rfl⟩ := Option.map_eq_some_iff.1 he'
    exact Expr.Legible.unplaced e'' (h e'' he'')
  | empty _ | other n => exact h.elim

theorem Stmt.LegibleList.unplaced (ss : List Stmt) (h : LegibleList ss) :
    LegibleList (clearList .unplaced ss) := by
  cases ss with
  | nil => trivial
  | cons s ss => exact ⟨Legible.unplaced s h.1, LegibleList.unplaced ss h.2⟩

end

/-! ## Code -/

namespace Code

theorem Expr.rank_tree (c : Code.Expr) (h : c.tree.Legible) : c.tree.rank = c.rank := by
  cases c with
  | binary op a b =>
    have hop : op ≠ .assign := fun hop => by simpa [LambdaLift.Expr.name?] using (h.2.1 hop).1
    simp [Expr.tree, LambdaLift.Expr.rank, Expr.rank, hop]
  | _ => rfl

mutual

/-- Code with a legible tree is printable. -/
theorem Expr.printable_of_legible (c : Code.Expr) (h : c.tree.Legible) : c.Printable := by
  cases c with
  | name x => exact h.isName
  | number raw => exact h.isNumber
  | string raw => exact h.isString
  | boolean b | null => trivial
  | paren e => exact Expr.printable_of_legible e h
  | unary op e =>
    exact ⟨(Expr.rank_tree e h.2).symm.trans_le h.1, Expr.printable_of_legible e h.2⟩
  | update op e => exact ⟨(Expr.rank_tree e h.2).symm.trans h.1, Expr.printable_of_legible e h.2⟩
  | binary op a b =>
    have hop : op ≠ .assign := fun hop => by simpa [LambdaLift.Expr.name?] using (h.2.1 hop).1
    exact ⟨h.1, hop, Expr.printable_of_legible a h.2.2.1, Expr.printable_of_legible b h.2.2.2⟩
  | assign x e =>
    obtain ⟨-, hassign, hx, he⟩ := h
    exact ⟨hx.isName, (Expr.rank_tree e he).symm.trans_le (hassign rfl).2,
      Expr.printable_of_legible e he⟩
  | call f args => exact ⟨h.2.2.1.isName, Expr.printableList_of_legible args h.2.2.2⟩

theorem Expr.printableList_of_legible (cs : List Code.Expr)
    (h : LambdaLift.Expr.LegibleList (Expr.trees cs)) : Expr.PrintableList cs := by
  cases cs with
  | nil => trivial
  | cons c cs =>
    exact ⟨⟨(Expr.rank_tree c h.1.2).symm.trans_le h.1.1, Expr.printable_of_legible c h.1.2⟩,
      Expr.printableList_of_legible cs h.2⟩

end

mutual

theorem Stmt.printable_of_legible (c : Code.Stmt) (h : c.tree.Legible) : c.Printable := by
  cases c with
  | variable_ kind x init =>
    have hd := h _ (List.mem_singleton_self _)
    obtain ⟨id, hid, hname⟩ := hd.target
    cases hid
    refine ⟨hname.isName, fun e he => ?_⟩
    obtain ⟨hrank, he⟩ := hd.init e.tree (Option.mem_map_of_mem _ he)
    exact ⟨(Expr.rank_tree e he).symm.trans_le hrank, Expr.printable_of_legible e he⟩
  | function name params body =>
    obtain ⟨id, hid, hname⟩ := h.1.name
    cases hid
    refine ⟨hname.isName, fun x hx => ?_, printableList_of_legible body h.2⟩
    obtain ⟨id, hid, hx⟩ := (h.1.params (.ofName x) (List.mem_map_of_mem hx)).target
    cases hid
    exact hx.isName
  | block body => exact printableList_of_legible body h
  | expression e => exact Expr.printable_of_legible e h
  | return_ e =>
    exact fun e' he' => Expr.printable_of_legible e' (h e'.tree (Option.mem_map_of_mem _ he'))

theorem Stmt.printableList_of_legible (cs : List Code.Stmt)
    (h : LambdaLift.Stmt.LegibleList (trees cs)) : PrintableList cs := by
  cases cs with
  | nil => trivial
  | cons c cs => exact ⟨printable_of_legible c h.1, printableList_of_legible cs h.2⟩

end

end Code

end LambdaLift
