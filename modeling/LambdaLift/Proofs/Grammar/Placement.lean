import LambdaLift.Proofs.Grammar.Arrows
import LambdaLift.Proofs.Grammar.Clean
import Mathlib.Data.List.Basic

/-!
# Where the nodes of a tree are

What a production reads without a report has exact places, for every production: the `fills_`
lemmas are about those that give one node from their first token to their last, the `reading_`
lemmas about those that give several nodes, none, or one among other tokens.

* `PlacingRules`: the productions that occur in themselves do so. Then everything that is put
  together from them does.
* `covered_statements`: every token lies in one of the statements that are read.
* `clean_tree_has_exact_places`: the tree of a text without a report.
-/

namespace LambdaLift

namespace Grammar

/-- What the productions read in a text without a report fills the place between the tokens around
it. -/
class PlacingRules (text : String) (g : Rules) : Prop where
  statement {s t : State} {x : Stmt} : Run text g.statement s x t → x.Fills text s.gap t.gap
  assignment {s t : State} {e : Expr} : Run text g.assignment s e t → e.Fills text s.gap t.gap
  chain {floor : Nat} {s t : State} {e : Expr} :
    Run text (g.chain floor) s e t → e.Fills text s.gap t.gap
  unary {s t : State} {e : Expr} : Run text g.unary s e t → e.Fills text s.gap t.gap
  access {s t : State} {e : Expr} : Run text g.access s e t → e.Fills text s.gap t.gap
  construction {s t : State} {e : Expr} : Run text g.construction s e t → e.Fills text s.gap t.gap
  binding {s t : State} {b : Binding} : Run text g.binding s b t → b.Fills text s.gap t.gap

-- A production has as many parts as the instance that it moves on.
set_option synthInstance.maxSize 512

variable {text : String} {s t : State}

/-! ## Tokens -/

section Tokens

theorem State.Sound.fills_token (hs : s.Sound text) (hkind : s.lexer.kind ≠ .endOfFile)
    {role : Role} {kind : Kind} {marks : Marks} {detail : Detail}
    (hdetail : detail.Spells text s.lexer.range) (hmarks : marks.isMissing = false)
    (hblank : detail.isBlank = false) :
    (Node.node role kind s.lexer.range marks detail []).Fills text s.gap s.advanced.gap :=
  have hpast := hs.past hkind
  (Reading.nil hpast.toOnward).spelled hpast.lt hdetail hmarks hblank

theorem State.Sound.fills_ofToken (hs : s.Sound text) (hkind : s.lexer.kind ≠ .endOfFile)
    {role : Role} {kind : TokenKind} :
    (Node.ofToken role kind s.lexer.range).Fills text s.gap s.advanced.gap :=
  hs.fills_token hkind trivial rfl rfl

theorem fills_word {id : Ident} (h : Run text word s id t) (role : Role) :
    (id.node role).Fills text s.gap t.gap := by
  obtain ⟨hword, -⟩ | ⟨-, h'⟩ := (Run.current h).ite
  · have heq := h.eq
    rw [word_of_isWord hword] at heq
    cases heq
    refine h.sound.fills_token ?_ ⟨s.lexer.text.toList, h.sound.lexer.toWithin.covers, ?_⟩ rfl ?_
    · intro hkind
      simp [hkind, TokenKind.isWord] at hword
    · exact fun hplain => congrArg String.toList (h.sound.lexer.spelled hword hplain)
    · have hvalue := h.told.word (h.beyond.clean h.clean).lexerReports hword
      simpa [Detail.isBlank] using hvalue
  · exact h'.report.elim

theorem fills_name {id : Ident} (h : Run text name s id t) (role : Role) :
    (id.node role).Fills text s.gap t.gap := by
  obtain ⟨-, h⟩ | ⟨-, h⟩ := (Run.current h).ite
  · exact fills_word h role
  · exact h.report.elim

theorem reading_name? {id : Option Ident} (h : Run text name? s id t) (role : Role) :
    Reading text s.gap (id.map (Ident.node role)).toList t.gap := by
  obtain ⟨-, h⟩ | ⟨-, h⟩ := (Run.current h).ite
  · obtain ⟨id, h₁, rfl⟩ := h.ret
    exact (fills_name h₁ role).reading
  · exact h.nothing (by rintro rfl; rfl)

theorem fills_literal {lit : Literal} (h : Run text literal s lit t)
    (hkind : s.lexer.kind ≠ .endOfFile) (role : Role) (kind : TokenKind) :
    (lit.node role kind).Fills text s.gap t.gap := by
  cases h.eq
  exact h.sound.fills_token hkind h.sound.lexer.toWithin.covers rfl
    (h.sound.lexer.isEmpty_text hkind)

theorem fills_numberLiteral {lit : NumberLiteral} (h : Run text numberLiteral s lit t)
    (hkind : s.lexer.kind ≠ .endOfFile) (role : Role) : (lit.node role).Fills text s.gap t.gap := by
  cases h.eq
  exact h.sound.fills_token hkind h.sound.lexer.toWithin.covers rfl
    (h.sound.lexer.isEmpty_text hkind)

theorem reading_accept? {dots : Option Range} {kind : TokenKind} [Present kind]
    (h : Run text (accept? kind) s dots t) : Reading text s.gap (ellipsisNodes dots) t.gap := by
  obtain ⟨hkind, h⟩ | ⟨-, h⟩ := (Run.current h).ite
  · cases h.eq
    exact (h.sound.fills_ofToken (hkind ▸ Present.ne)).reading
  · exact h.nothing (by rintro rfl; rfl)

end Tokens

variable {g : Rules} [PlacingRules text g]

/-! ## Parts with one production in them -/

section Parts

theorem fills_binary {p : Range} {left right : Expr} {op : BinaryOp} (hs : s.Sound text)
    (hkind : s.lexer.kind ≠ .endOfFile) (hleft : left.Fills text p s.gap)
    (hright : right.Fills text s.advanced.gap t.gap) :
    (Expr.binary ⟨left.range.start, t.previousEnd⟩ op s.lexer.range left right).Fills text p t.gap :=
  hleft.ofKind ((hs.fills_ofToken hkind).reading.append (hright.reading .right))

theorem fills_commaStep {p : Range} {left : Expr} {x : Option Expr}
    (hleft : left.Fills text p s.gap) (h : Run text (commaStep g left) s x t) :
    (x.getD left).Fills text p t.gap := by
  obtain ⟨hkind, h⟩ | ⟨-, h⟩ := (Run.current h).ite
  · have hs := h.sound
    obtain ⟨h₁, h⟩ := h.tokenRange.advance (by simp [hkind])
    obtain ⟨right, h₂, rfl⟩ := h.retFrom
    exact fills_binary hs (by simp [hkind]) hleft (PlacingRules.assignment h₂)
  · obtain ⟨rfl, rfl⟩ := h.pure
    exact hleft

theorem reading_initializer {init : Option Expr} (h : Run text (initializer g) s init t) :
    Reading text s.gap (initializerNodes init) t.gap := by
  obtain ⟨s₁, h₁, h⟩ | h := Run.accept h
  · obtain ⟨e, h₂, rfl⟩ := h.ret
    exact ((PlacingRules.assignment h₂).reading .initializer).after h₁.toOnward
  · exact h.nothing (by rintro rfl; rfl)

theorem reading_propertyTarget {p : Range} {x : PropertyName} {r : Option PropertyName × Binding}
    (hx : Reading text p [x.node] s.gap) (h : Run text (propertyTarget g x) s r t) :
    Reading text p ((r.1.map PropertyName.node).toList ++ [r.2.node .binding]) t.gap := by
  obtain ⟨s₁, h₁, h⟩ | h := Run.accept h
  · obtain ⟨b, h₂, rfl⟩ := h.ret
    exact hx.append (((PlacingRules.binding h₂).reading .binding).after h₁.toOnward)
  · cases x with
    | word id =>
      obtain ⟨rfl, rfl⟩ := h.pure
      exact hx.withRole .binding
    | _ => exact h.report.elim

theorem reading_heritage {e : Option Expr} (h : Run text (heritage g) s e t) :
    Reading text s.gap (e.map (Expr.node .heritage)).toList t.gap := by
  obtain ⟨s₁, h₁, h⟩ | h := Run.accept h
  · obtain ⟨e, h₂, rfl⟩ := h.ret
    exact ((PlacingRules.access h₂).reading .heritage).after h₁.toOnward
  · exact h.nothing (by rintro rfl; rfl)

theorem fills_listElement {e : Expr} (h : Run text (listElement g) s e t) :
    e.Fills text s.gap t.gap := by
  obtain ⟨s₁, h₁, h⟩ | h := (Run.position h).accept
  · obtain ⟨e, h₂, rfl⟩ := h.retFrom
    exact h₁.ofKind ((PlacingRules.assignment h₂).reading .expression)
  · obtain ⟨s₁, t₁, -, hs, ht, h⟩ := h.withIn
    exact hs ▸ ht ▸ PlacingRules.assignment h

theorem fills_propertyValue {p : Range} {property : PropertyName} {n : Node}
    (h : Run text (propertyValue g p.stop property) s n t) (hpast : Past text p s.gap)
    (hproperty : Reading text p [property.node] s.gap) : n.Fills text p t.gap := by
  obtain ⟨s₁, h₁, h⟩ | h := Run.accept h
  · obtain ⟨e, h₂, rfl⟩ := h.retFrom
    have hvalue := ((PlacingRules.assignment h₂).reading .initializer).after h₁.toOnward
    exact (hproperty.append hvalue).node (hpast.trans hvalue.toOnward).lt
  · cases property with
    | word id =>
      obtain ⟨init, h₁, rfl⟩ := h.retFrom
      have hinit := reading_initializer h₁
      exact (hproperty.append hinit).node (hpast.trans hinit.toOnward).lt
    | _ => exact h.report.elim

end Parts

variable [MovingRules 0 g]

/-! ## Lists of expressions and statements -/

section Lists

theorem fills_expression {e : Expr} (h : Run text (expression g) s e t) :
    e.Fills text s.gap t.gap := by
  obtain ⟨first, s₁, h₁, h⟩ := Run.bind h
  exact Run.iterate (P := fun e u => e.Fills text s.gap u.gap) fills_commaStep h
    (PlacingRules.assignment h₁)

/-- Items of a loop that are nodes one after another. -/
theorem reading_many {α : Type} {turn : Parse (Turn α)} [Moves 0 turn] {f : α → Node} {as : List α}
    (hturn : ∀ {s x t}, Run text turn s x t → Reading text s.gap (x.items.map f) t.gap)
    (h : Run text (many turn) s as t) : Reading text s.gap (as.map f) t.gap := by
  refine Run.many (P := fun s as t => Reading text s.gap (as.map f) t.gap) hturn ?_ h
  intro s t u as bs has hbs
  rw [List.map_append]
  exact has.append hbs

/-- Where something was read there is nothing to recover from. -/
theorem recover_of_past {u : Unit} {p : Range} (h : Run text (recover p.stop) s u t)
    (hpast : Past text p s.gap) : t = s := by
  obtain ⟨hstart, -⟩ | ⟨-, h⟩ := (Run.position h).ite
  · have := hpast.lt
    have := hpast.there
    simp only [State.gap] at *
    omega
  · exact h.pure.2

/-- From `s` to `t` the statements `ss` were read, and every token in between lies in one of
them. -/
structure Covered (text : String) (s : State) (ss : List Stmt) (t : State) : Prop where
  reading : Reading text s.gap (ss.map (Stmt.node .statement)) t.gap
  place : ∀ x ∈ ss, (x.node .statement).place? = some x.range
  tokens : ∀ k ∈ t.tokens, k ∈ s.tokens ∨
    ∃ x ∈ ss, x.range.start ≤ k.range.start ∧ k.range.stop ≤ x.range.stop

variable {ss : List Stmt} {isEnd : TokenKind → Bool}

theorem Covered.trans {u : State} {ss' : List Stmt} (h : Covered text s ss t)
    (h' : Covered text t ss' u) : Covered text s (ss ++ ss') u where
  reading := by
    rw [List.map_append]
    exact h.reading.append h'.reading
  place x hx := by
    rcases List.mem_append.1 hx with hx | hx
    · exact h.place x hx
    · exact h'.place x hx
  tokens k hk := by
    rcases h'.tokens k hk with hk | ⟨x, hx, hin⟩
    · rcases h.tokens k hk with hk | ⟨x, hx, hin⟩
      · exact .inl hk
      · exact .inr ⟨x, List.mem_append_left _ hx, hin⟩
    · exact .inr ⟨x, List.mem_append_right _ hx, hin⟩

theorem covered_statementTurn {x : Turn Stmt} (h : Run text (statementTurn g isEnd) s x t) :
    Covered text s x.items t := by
  obtain ⟨-, h⟩ | ⟨-, h⟩ := (Run.current h).ite
  · have honward := h.onward
    obtain ⟨rfl, rfl⟩ := h.pure
    exact ⟨.nil honward, by simp [Turn.items], fun k hk => .inl hk⟩
  · obtain ⟨x, s₁, h₁, h⟩ := h.position.bind
    obtain ⟨⟨⟩, s₂, h₂, h₃⟩ := h.bind
    have hx := PlacingRules.statement h₁
    obtain rfl := recover_of_past h₂ hx.toPast
    obtain ⟨rfl, rfl⟩ := h₃.pure
    refine ⟨hx.reading .statement, ?_, fun k hk => ?_⟩
    · simpa [Turn.items, hx.range] using hx.place
    · obtain ⟨ts, hts, hin⟩ := h₁.beyond.tokens
      rw [hts] at hk
      rcases List.mem_append.1 hk with hk | hk
      · exact .inr ⟨x, List.mem_singleton_self x, hx.range ▸ hin k hk⟩
      · exact .inl hk

theorem covered_statements (h : Run text (statements g isEnd) s ss t) : Covered text s ss t :=
  h.many covered_statementTurn .trans

theorem reading_statements (h : Run text (statements g isEnd) s ss t) :
    Reading text s.gap (Stmt.nodes ss) t.gap := by
  rw [Stmt.nodes_eq_map]
  exact (covered_statements h).reading

theorem fills_block {b : Range × List Stmt} (h : Run text (block g) s b t) (role : Role) :
    (blockNode role b).Fills text s.gap t.gap := by
  obtain ⟨s₁, h₁, h⟩ := (Run.position h).expect
  obtain ⟨body, s₂, h₂, h⟩ := h.bind
  obtain ⟨s₃, h₃, h⟩ := h.expect
  obtain ⟨rfl, rfl⟩ := h.rangeFrom.pure
  exact h₁.ofKind ((reading_statements h₂).before h₃.toOnward)

end Lists

/-! ## Names and patterns -/

section Names

theorem reading_propertyName {x : PropertyName} (h : Run text (propertyName g) s x t) :
    Past text s.gap t.gap ∧ Reading text s.gap [x.node] t.gap := by
  replace h := Run.current h
  split at h
  · rename_i hkind
    obtain ⟨lit, h₁, rfl⟩ := h.ret
    have hlit := fills_literal h₁ (by simp [hkind]) .name .string
    exact ⟨hlit.toPast, hlit.reading⟩
  · rename_i hkind
    obtain ⟨lit, h₁, rfl⟩ := h.ret
    have hlit := fills_numberLiteral h₁ (by simp [hkind]) .name
    exact ⟨hlit.toPast, hlit.reading⟩
  · rename_i hkind
    obtain ⟨h₁, h⟩ := h.advance (by simp [hkind])
    obtain ⟨e, s₂, h₂, h⟩ := h.bind
    obtain ⟨s₃, h₃, h⟩ := h.expect
    obtain ⟨rfl, rfl⟩ := h.pure
    have he := (PlacingRules.assignment h₂).reading .computedName
    exact ⟨h₁.trans (he.toOnward.trans h₃.toOnward), (he.after h₁.toOnward).before h₃.toOnward⟩
  · obtain ⟨id, h₁, rfl⟩ := h.ret
    have hid := fills_word h₁ .name
    exact ⟨hid.toPast, hid.reading⟩

theorem fills_objectPatternElement {n : Node} (h : Run text (objectPatternElement g) s n t) :
    n.Fills text s.gap t.gap := by
  obtain ⟨dots, s₁, h₁, h⟩ := (Run.position h).bind_of fun x => by cases x <;> infer_instance
  have hdots := reading_accept? h₁
  cases dots with
  | some dots =>
    obtain ⟨id, h₂, rfl⟩ := h.retFrom
    have hid := fills_name h₂ .binding
    exact (hdots.append hid.reading).node (hdots.toOnward.past hid.toPast).lt
  | none =>
    obtain ⟨x, s₂, h₂, h⟩ := h.bind
    obtain ⟨⟨property, target⟩, s₃, h₃, h⟩ := h.bind_of fun ⟨_, _⟩ => inferInstance
    obtain ⟨init, h₄, rfl⟩ := h.retFrom
    obtain ⟨hpast, hx⟩ := reading_propertyName h₂
    have hinit := reading_initializer h₄
    have hall := hdots.append ((reading_propertyTarget hx h₃).append hinit)
    have hlt := (hdots.toOnward.past hpast).trans (h₃.onward.trans hinit.toOnward)
    exact (List.append_assoc .. ▸ hall).node hlt.lt

/-- The turn that ends a list. -/
theorem Run.stops {α : Type} {f : α → Node} {x : Turn α} (h : Run text (Pure.pure .stop) s x t) :
    Reading text s.gap (x.items.map f) t.gap :=
  h.nothing (by rintro rfl; rfl)

theorem reading_turnAtComma {α : Type} {f : α → Node} {p : Range} {a : α} {x : Turn α}
    (ha : Reading text p [f a] s.gap) (h : Run text (turnAtComma a) s x t) :
    Reading text p (x.items.map f) t.gap := by
  obtain ⟨b, h₁, rfl⟩ := Run.ret h
  cases b <;> exact ha.before h₁.onward

theorem reading_objectPatternTurn {x : Turn Node} (h : Run text (objectPatternTurn g) s x t) :
    Reading text s.gap (x.items.map id) t.gap := by
  replace h := Run.current h
  split at h
  · exact h.stops
  · exact h.stops
  · obtain ⟨n, s₁, h₁, h⟩ := h.bind
    exact reading_turnAtComma (fills_objectPatternElement h₁).reading h

/-- Items of a loop that are nodes themselves. -/
theorem reading_nodes {turn : Parse (Turn Node)} [Moves 0 turn] {ns : List Node}
    (hturn : ∀ {s x t}, Run text turn s x t → Reading text s.gap (x.items.map id) t.gap)
    (h : Run text (many turn) s ns t) : Reading text s.gap ns t.gap := by
  simpa using reading_many hturn h

theorem fills_objectPattern {n : Node} (h : Run text (objectPattern g) s n t) :
    n.Fills text s.gap t.gap := by
  obtain ⟨s₁, h₁, h⟩ := (Run.position h).expect
  obtain ⟨elements, s₂, h₂, h⟩ := h.bind
  obtain ⟨s₃, h₃, h⟩ := h.expect
  obtain ⟨rfl, rfl⟩ := h.rangeFrom.pure
  exact h₁.ofKind ((reading_nodes reading_objectPatternTurn h₂).before h₃.toOnward)

theorem fills_arrayPatternElement {n : Node} (h : Run text (arrayPatternElement g) s n t) :
    n.Fills text s.gap t.gap := by
  obtain ⟨dots, s₁, h₁, h⟩ := (Run.position h).bind
  obtain ⟨target, s₂, h₂, h⟩ := h.bind
  obtain ⟨init, h₃, rfl⟩ := h.retFrom
  have hdots := reading_accept? h₁
  have htarget := PlacingRules.binding h₂
  have hinit := reading_initializer h₃
  have hall := hdots.append ((htarget.reading .binding).append hinit)
  have hlt := (hdots.toOnward.past htarget.toPast).trans hinit.toOnward
  refine Reading.node ?_ hlt.lt
  simpa using hall

theorem reading_arrayPatternTurn {x : Turn Node} (h : Run text (arrayPatternTurn g) s x t) :
    Reading text s.gap (x.items.map id) t.gap := by
  replace h := Run.current h
  split at h
  · exact h.stops
  · exact h.stops
  · rename_i hkind
    obtain ⟨h₁, h⟩ := h.advance (by simp [hkind])
    obtain ⟨rfl, rfl⟩ := h.pure
    exact .hole h₁.toOnward
  · obtain ⟨n, s₁, h₁, h⟩ := h.bind
    exact reading_turnAtComma (fills_arrayPatternElement h₁).reading h

theorem fills_arrayPattern {n : Node} (h : Run text (arrayPattern g) s n t) :
    n.Fills text s.gap t.gap := by
  obtain ⟨s₁, h₁, h⟩ := (Run.position h).expect
  obtain ⟨elements, s₂, h₂, h⟩ := h.bind
  obtain ⟨s₃, h₃, h⟩ := h.expect
  obtain ⟨rfl, rfl⟩ := h.rangeFrom.pure
  exact h₁.ofKind ((reading_nodes reading_arrayPatternTurn h₂).before h₃.toOnward)

theorem fills_binding {b : Binding} (h : Run text (binding g) s b t) : b.Fills text s.gap t.gap := by
  replace h := Run.current h
  split at h
  · obtain ⟨n, h₁, rfl⟩ := h.ret
    exact (fills_objectPattern h₁).withRole .binding
  · obtain ⟨n, h₁, rfl⟩ := h.ret
    exact (fills_arrayPattern h₁).withRole .binding
  · obtain ⟨id, h₁, rfl⟩ := h.ret
    exact fills_name h₁ .binding

end Names

/-! ## Functions -/

section Functions

theorem fills_parameter {x : Param} (h : Run text (parameter g) s x t) :
    x.node.Fills text s.gap t.gap := by
  obtain ⟨dots, s₁, h₁, h⟩ := (Run.position h).bind
  obtain ⟨target, s₂, h₂, h⟩ := h.bind
  obtain ⟨init, h₃, rfl⟩ := h.retFrom
  have hdots := reading_accept? h₁
  have htarget := PlacingRules.binding h₂
  have hinit := reading_initializer h₃
  have hlt := (hdots.toOnward.past htarget.toPast).trans hinit.toOnward
  exact (hdots.append ((htarget.reading .binding).append hinit)).node hlt.lt

theorem reading_parameterTurn {x : Turn Param} (h : Run text (parameterTurn g) s x t) :
    Reading text s.gap (x.items.map Param.node) t.gap := by
  replace h := Run.current h
  split at h
  · exact h.stops
  · exact h.stops
  · obtain ⟨x, s₁, h₁, h⟩ := h.bind
    exact reading_turnAtComma (fills_parameter h₁).reading h

theorem reading_parameters {params : List Param} (h : Run text (parameters g) s params t) :
    Past text s.gap t.gap ∧ Reading text s.gap (params.map Param.node) t.gap := by
  obtain ⟨s₁, h₁, h⟩ := Run.expect h
  obtain ⟨params, s₂, h₂, h⟩ := h.bind
  obtain ⟨s₃, h₃, h⟩ := h.expect
  obtain ⟨rfl, rfl⟩ := h.pure
  have hparams := (reading_many reading_parameterTurn h₂).before h₃.toOnward
  exact ⟨h₁.trans hparams.toOnward, hparams.after h₁.toOnward⟩

theorem past_functionWord {b : Bool} (h : Run text functionWord s b t) : Past text s.gap t.gap := by
  obtain ⟨s₁, h₁, h⟩ := Run.expect h
  exact h₁.trans h.onward

theorem fills_functionRest {p : Range} {isAsync isGenerator : Bool} {name : Option Ident} {x : Stmt}
    (h : Run text (functionRest g p.stop isAsync isGenerator name) s x t)
    (hname : Reading text p (name.map (Ident.node .name)).toList s.gap) :
    x.Fills text p t.gap := by
  obtain ⟨params, s₁, h₁, h⟩ := Run.bind_of h fun _ => .bind fun ⟨_, _⟩ => inferInstance
  obtain ⟨b, s₂, h₂, h⟩ := h.bind_of fun ⟨_, _⟩ => inferInstance
  obtain ⟨rfl, rfl⟩ := h.rangeFrom.pure
  obtain ⟨hpast, hparams⟩ := reading_parameters h₁
  have hbody := fills_block h₂ .body
  have hlt := (hname.toOnward.past hpast).trans hbody.toOnward
  exact ((hname.append hparams).append hbody.reading).node hlt.lt

theorem fills_functionDeclaration {p : Range} {isAsync mayBeNameless : Bool} {x : Stmt}
    (h : Run text (functionDeclaration g p.stop isAsync mayBeNameless) s x t)
    (hp : Onward text p s.gap) : x.Fills text p t.gap := by
  obtain ⟨isGenerator, s₁, h₁, h⟩ := Run.bind h
  have hs₁ := hp.trans h₁.onward
  obtain ⟨-, h⟩ | ⟨-, h⟩ := h.current.current.ite
  · exact fills_functionRest h.pure_bind (.nil hs₁)
  obtain ⟨-, h⟩ | ⟨-, h⟩ := h.ite
  · obtain ⟨name, s₂, h₂, h⟩ := h.bind
    obtain ⟨id, hid, rfl⟩ := h₂.map
    exact fills_functionRest h ((fills_name hid .name).reading.after hs₁)
  · exact h.report.elim

theorem fills_functionExpression {p : Range} {isAsync : Bool} {e : Expr}
    (h : Run text (functionExpression g p.stop isAsync) s e t) (hp : Onward text p s.gap) :
    e.Fills text p t.gap := by
  obtain ⟨isGenerator, s₁, h₁, h⟩ := Run.bind h
  obtain ⟨name, s₂, h₂, h⟩ := h.bind
  obtain ⟨params, s₃, h₃, h⟩ := h.bind
  obtain ⟨body, h₄, rfl⟩ := h.retFrom
  have hname := reading_name? h₂ .name
  have hparams := (reading_parameters h₃).2
  have hbody := fills_block h₄ .body
  exact (hp.past (past_functionWord h₁)).ofKind ((hname.append hparams).append hbody.reading)

theorem reading_arrowParameters? {params : List Param}
    (h : Run text (arrowParameters? g) s (some params) t) :
    Past text s.gap t.gap ∧ Reading text s.gap (params.map Param.node) t.gap := by
  replace h := Run.current h
  split at h
  · obtain ⟨-, h⟩ | ⟨-, h⟩ := h.look.ite
    · obtain ⟨id, s₁, h₁, h⟩ := h.bind
      obtain ⟨heq, rfl⟩ := h.pure
      cases heq
      have hid := fills_name h₁ .binding
      have hrange : id.range = ⟨s.gap.stop, t.gap.start⟩ := Option.some.inj hid.place
      have hparam : (Param.node ⟨id.range, none, .name id, none⟩).Fills text s.gap t.gap := by
        rw [hrange]
        exact hid.reading.node hid.lt
      exact ⟨hid.toPast, hparam.reading⟩
    · cases h.pure.1
  · obtain ⟨-, h⟩ | ⟨-, h⟩ := h.look.ite
    · obtain ⟨params, s₁, h₁, h⟩ := h.bind
      obtain ⟨heq, rfl⟩ := h.pure
      cases heq
      exact reading_parameters h₁
    · cases h.pure.1
  · cases h.pure.1

theorem fills_arrowBody {n : Node} (h : Run text (arrowBody g) s n t) :
    n.Fills text s.gap t.gap := by
  obtain ⟨-, h⟩ | ⟨-, h⟩ := (Run.current h).ite
  · obtain ⟨b, h₁, rfl⟩ := h.ret
    exact fills_block h₁ .body
  · obtain ⟨e, h₁, rfl⟩ := h.ret
    exact (PlacingRules.assignment h₁).node .body

theorem fills_arrowFunction? {e : Expr} (h : Run text (arrowFunction? g) s (some e) t) :
    e.Fills text s.gap t.gap := by
  obtain ⟨x, s₁, h₁, h⟩ := (Run.position h).bind_of fun x => by
    cases x
    · infer_instance
    · exact .bind fun y => by cases y <;> infer_instance
  cases x with
  | none => cases h.pure.1
  | some isAsync =>
    obtain ⟨y, s₂, h₂, h⟩ := h.bind_of fun y => by cases y <;> infer_instance
    cases y with
    | none => cases h.pure.1
    | some params =>
      obtain ⟨s₃, h₃, h⟩ := h.expect
      obtain ⟨body, s₄, h₄, h⟩ := h.bind
      obtain ⟨heq, rfl⟩ := h.rangeFrom.pure
      cases heq
      obtain ⟨hpast, hparams⟩ := reading_arrowParameters? h₂
      have hbody := (fills_arrowBody h₄).reading.after h₃.toOnward
      have hlt := (h₁.onward.past hpast).trans hbody.toOnward
      exact ((hparams.append hbody).after h₁.onward).node hlt.lt

end Functions

/-! ## Classes and object literals -/

section Members

theorem fills_method {p : Range} {words : MemberWords} {isStatic : Bool} {property : PropertyName}
    {n : Node} (h : Run text (method g p.stop words isStatic property) s n t)
    (hproperty : Reading text p [property.node] s.gap) : n.Fills text p t.gap := by
  obtain ⟨params, s₁, h₁, h⟩ := Run.bind h
  obtain ⟨body, h₂, rfl⟩ := h.retFrom
  obtain ⟨hpast, hparams⟩ := reading_parameters h₁
  have hbody := fills_block h₂ .body
  have hlt := (hproperty.toOnward.past hpast).trans hbody.toOnward
  exact (hproperty.append (hparams.append hbody.reading)).node hlt.lt

theorem fills_methodOrField {p : Range} {isStatic : Bool} {n : Node}
    (h : Run text (methodOrField g p.stop isStatic) s n t) (hp : Onward text p s.gap) :
    n.Fills text p t.gap := by
  obtain ⟨words, s₁, h₁, h⟩ := Run.bind h
  obtain ⟨property, s₂, h₂, h⟩ := h.bind
  obtain ⟨hpast, hread⟩ := reading_propertyName h₂
  have hproperty := hread.after (hp.trans h₁.onward)
  obtain ⟨-, h⟩ | ⟨-, h⟩ := h.current.ite
  · exact fills_method h hproperty
  · obtain ⟨init, s₃, h₃, h⟩ := h.bind
    obtain ⟨⟨⟩, h₄, rfl⟩ := h.retFrom
    have hinit := (reading_initializer h₃).before h₄.onward
    have hlt := ((hp.trans h₁.onward).past hpast).trans hinit.toOnward
    exact (hproperty.append hinit).node hlt.lt

theorem reading_classMember {n : Node} (h : Run text (classMember g) s n t) :
    Past text s.gap t.gap ∧ Reading text s.gap [n] t.gap := by
  obtain ⟨s₁, h₁, h⟩ | h := (Run.position h).accept
  · obtain ⟨rfl, rfl⟩ := h.rangeFrom.pure
    exact ⟨h₁.trans h.onward, Node.Fills.reading (h₁.ofKind (.nil h.onward))⟩
  obtain ⟨hstatic, h⟩ | ⟨-, h⟩ := h.look.ite
  · have hkind : s.lexer.kind = .identifier := by
      simp only [isName, Bool.and_eq_true, decide_eq_true_eq] at hstatic
      exact hstatic.1.1
    obtain ⟨h₁, h⟩ := h.advance (by simp [hkind])
    obtain ⟨-, h⟩ | ⟨-, h⟩ := h.current.ite
    · obtain ⟨b, h₂, rfl⟩ := h.ret
      have hblock := fills_block h₂ .staticBlock
      exact ⟨h₁.trans hblock.toOnward, hblock.reading.after h₁.toOnward⟩
    · have hn := fills_methodOrField (p := s.gap) h h₁.toOnward
      exact ⟨hn.toPast, hn.reading⟩
  · have hn := fills_methodOrField (p := s.gap) h h.stay
    exact ⟨hn.toPast, hn.reading⟩

theorem reading_memberTurn {x : Turn Node} (h : Run text (memberTurn g) s x t) :
    Reading text s.gap (x.items.map id) t.gap := by
  replace h := Run.current h
  split at h
  · exact h.stops
  · exact h.stops
  · obtain ⟨n, s₁, h₁, h⟩ := h.position.bind
    obtain ⟨hpast, hn⟩ := reading_classMember h₁
    obtain ⟨hstart, -⟩ | ⟨-, h⟩ := h.position.ite
    · have := hpast.lt
      have := hpast.there
      simp only [State.gap] at *
      omega
    · obtain ⟨rfl, rfl⟩ := h.pure
      exact hn

theorem fills_classLike {kind : NodeKind} {n : Node} (h : Run text (classLike g kind) s n t) :
    n.Fills text s.gap t.gap := by
  obtain ⟨s₁, h₁, h⟩ := (Run.position h).expect
  obtain ⟨name, s₂, h₂, h⟩ := h.bind
  obtain ⟨-, h⟩ | ⟨-, h⟩ := h.ite
  · exact h.report.elim
  obtain ⟨parent, s₃, h₃, h⟩ := h.bind
  obtain ⟨s₄, h₄, h⟩ := h.expect
  obtain ⟨members, s₅, h₅, h⟩ := h.bind
  obtain ⟨s₆, h₆, h⟩ := h.expect
  obtain ⟨rfl, rfl⟩ := h.rangeFrom.pure
  have hmembers : Reading text s₄.gap members s₅.gap := reading_nodes reading_memberTurn h₅
  have hhead := (reading_name? h₂ .name).append (reading_heritage h₃)
  exact h₁.ofKind (hhead.append ((hmembers.after h₄.toOnward).before h₆.toOnward))

theorem fills_objectProperty {n : Node} (h : Run text (objectProperty g) s n t) :
    n.Fills text s.gap t.gap := by
  obtain ⟨s₁, h₁, h⟩ | h := (Run.position h).accept
  · obtain ⟨e, h₂, rfl⟩ := h.retFrom
    exact h₁.ofKind ((PlacingRules.assignment h₂).reading .expression)
  obtain ⟨-, h⟩ | ⟨-, h⟩ := h.current.ite
  · exact h.report.elim
  obtain ⟨words, s₁, h₁, h⟩ := h.bind
  obtain ⟨property, s₂, h₂, h⟩ := h.bind
  obtain ⟨hpast, hread⟩ := reading_propertyName h₂
  have hproperty := hread.after h₁.onward
  obtain ⟨-, h⟩ | ⟨-, h⟩ := h.current.ite
  · exact fills_method (p := s.gap) h hproperty
  · exact fills_propertyValue (p := s.gap) h (h₁.onward.past hpast) hproperty

theorem reading_propertyTurn {x : Turn Node} (h : Run text (propertyTurn g) s x t) :
    Reading text s.gap (x.items.map id) t.gap := by
  replace h := Run.current h
  split at h
  · exact h.stops
  · exact h.stops
  · obtain ⟨n, s₁, h₁, h⟩ := h.bind
    exact reading_turnAtComma (fills_objectProperty h₁).reading h

theorem fills_objectLiteral {e : Expr} (h : Run text (objectLiteral g) s e t) :
    e.Fills text s.gap t.gap := by
  obtain ⟨s₁, h₁, h⟩ := (Run.position h).expect
  obtain ⟨properties, s₂, h₂, h⟩ := h.bind
  obtain ⟨s₃, h₃, h⟩ := h.expect
  obtain ⟨rfl, rfl⟩ := h.rangeFrom.pure
  exact h₁.ofKind ((reading_nodes reading_propertyTurn h₂).before h₃.toOnward)

end Members

/-! ## Expressions -/

section Expressions

theorem reading_argumentTurn {x : Turn Expr} (h : Run text (argumentTurn g) s x t) :
    Reading text s.gap (x.items.map (Expr.node .argument)) t.gap := by
  replace h := Run.current h
  split at h
  · exact h.stops
  · exact h.stops
  obtain ⟨-, h⟩ | ⟨-, h⟩ := h.ite
  · obtain ⟨e, s₁, h₁, h⟩ := h.bind
    exact reading_turnAtComma ((fills_listElement h₁).reading .argument) h
  · exact h.report.elim

theorem reading_arguments {args : List Expr} (h : Run text (arguments g) s args t) :
    Past text s.gap t.gap ∧ Reading text s.gap (Expr.nodes .argument args) t.gap := by
  obtain ⟨s₁, h₁, h⟩ := Run.expect h
  obtain ⟨args, s₂, h₂, h⟩ := h.bind
  obtain ⟨s₃, h₃, h⟩ := h.expect
  obtain ⟨rfl, rfl⟩ := h.pure
  rw [Expr.nodes_eq_map]
  have hargs := (reading_many reading_argumentTurn h₂).before h₃.toOnward
  exact ⟨h₁.trans hargs.toOnward, hargs.after h₁.toOnward⟩

theorem reading_elementTurn {x : Turn Node} (h : Run text (elementTurn g) s x t) :
    Reading text s.gap (x.items.map id) t.gap := by
  replace h := Run.current h
  split at h
  · exact h.stops
  · exact h.stops
  · rename_i hkind
    obtain ⟨h₁, h⟩ := h.position.advance (by simp [hkind])
    obtain ⟨rfl, rfl⟩ := h.pure
    exact .omitted h₁ rfl
  · obtain ⟨e, s₁, h₁, h⟩ := h.bind
    exact reading_turnAtComma ((fills_listElement h₁).reading .element) h

theorem fills_arrayLiteral {e : Expr} (h : Run text (arrayLiteral g) s e t) :
    e.Fills text s.gap t.gap := by
  obtain ⟨s₁, h₁, h⟩ := (Run.position h).expect
  obtain ⟨elements, s₂, h₂, h⟩ := h.bind
  obtain ⟨s₃, h₃, h⟩ := h.expect
  obtain ⟨rfl, rfl⟩ := h.rangeFrom.pure
  exact h₁.ofKind ((reading_nodes reading_elementTurn h₂).before h₃.toOnward)

theorem fills_templateRest {r : TokenKind × Literal} (h : Run text templateRest s r t) :
    (r.2.node .literal r.1).Fills text s.gap t.gap := by
  obtain ⟨hkind, h⟩ | ⟨-, h⟩ := (Run.current h).ite
  · have hne : s.lexer.kind ≠ .endOfFile := by simp [hkind]
    obtain ⟨hs₁, -⟩ := h.sound.rescanTemplate hne
    cases h.eq
    have hne₁ := hs₁.kind_ne (h.sound.remaining_pos hne)
    exact hs₁.fills_token hne₁ hs₁.lexer.toWithin.covers rfl (hs₁.lexer.isEmpty_text hne₁)
  · exact h.report.elim

theorem reading_templateSpan {x : Turn Node} (h : Run text (templateSpan g) s x t) :
    Reading text s.gap (x.items.map id) t.gap := by
  obtain ⟨e, s₁, h₁, h⟩ := (Run.position h).bind_of fun _ => .bind fun ⟨_, _⟩ => inferInstance
  obtain ⟨⟨kind, lit⟩, s₂, h₂, h⟩ := h.bind_of fun ⟨_, _⟩ => inferInstance
  obtain ⟨rfl, rfl⟩ := h.rangeFrom.pure
  have he := fills_expression h₁
  have hlit := fills_templateRest h₂
  have hall := (he.reading .expression).append hlit.reading
  have hlt := he.toPast.trans hlit.toOnward
  split <;> exact Node.Fills.reading (hall.node hlt.lt)

theorem fills_template {n : Node} (h : Run text (template g) s n t)
    (hkind : s.lexer.kind ≠ .endOfFile) : n.Fills text s.gap t.gap := by
  obtain ⟨-, h⟩ | ⟨-, h⟩ := (Run.position h).current.ite
  · obtain ⟨lit, h₁, rfl⟩ := h.ret
    exact fills_literal h₁ hkind .expression .template
  · obtain ⟨lit, s₁, h₁, h⟩ := h.bind
    obtain ⟨spans, h₂, rfl⟩ := h.retFrom
    have hlit := fills_literal h₁ hkind .head .templateHead
    have hspans := reading_nodes reading_templateSpan h₂
    exact (hlit.reading.append hspans).node (hlit.toPast.trans hspans.toOnward).lt

theorem fills_parenthesized {e : Expr} (h : Run text (parenthesized g) s e t) :
    e.Fills text s.gap t.gap := by
  obtain ⟨s₁, h₁, h⟩ := (Run.position h).expect
  obtain ⟨e, s₂, h₂, h⟩ := h.bind
  obtain ⟨s₃, h₃, h⟩ := h.expect
  obtain ⟨rfl, rfl⟩ := h.rangeFrom.pure
  obtain ⟨u, v, -, hu, hv, h₂⟩ := h₂.withIn
  have he : e.Fills text s₁.gap s₂.gap := hu ▸ hv ▸ fills_expression h₂
  exact h₁.ofKind ((he.reading .expression).before h₃.toOnward)

theorem fills_keywordExpression {make : Range → Expr} {e : Expr}
    (h : Run text (keywordExpression make) s e t) (hkind : s.lexer.kind ≠ .endOfFile)
    (hmake : ∀ r, ∃ kind, (make r).node .expression = .ofToken .expression kind r) :
    e.Fills text s.gap t.gap := by
  cases h.eq
  obtain ⟨kind, hnode⟩ := hmake s.lexer.range
  change (Expr.node .expression (make s.lexer.range)).Fills text s.gap s.advanced.gap
  rw [hnode]
  exact h.sound.fills_ofToken hkind

theorem fills_regex {e : Expr}
    (h : Run text (do rescanSlash; return .other ((← literal).node .expression .regex)) s e t)
    (hkind : s.lexer.kind ≠ .endOfFile) : e.Fills text s.gap t.gap := by
  obtain ⟨hs₁, -⟩ := h.sound.rescanSlash hkind
  cases h.eq
  have hne₁ := hs₁.kind_ne (h.sound.remaining_pos hkind)
  exact hs₁.fills_token hne₁ hs₁.lexer.toWithin.covers rfl (hs₁.lexer.isEmpty_text hne₁)

theorem fills_primary {e : Expr} (h : Run text (primary g) s e t) : e.Fills text s.gap t.gap := by
  replace h := (Run.position h).current
  split at h
  · obtain ⟨-, h⟩ | ⟨-, h⟩ := h.look.ite
    · obtain ⟨h₁, h⟩ := h.advance (by simp [*])
      exact fills_functionExpression (p := s.gap) h h₁.toOnward
    · obtain ⟨id, h₁, rfl⟩ := h.ret
      exact fills_name h₁ .expression
  · obtain ⟨lit, h₁, rfl⟩ := h.ret
    exact fills_numberLiteral h₁ (by simp [*]) .expression
  · obtain ⟨lit, h₁, rfl⟩ := h.ret
    exact fills_literal h₁ (by simp [*]) .expression .string
  · obtain ⟨n, h₁, rfl⟩ := h.ret
    exact (fills_template h₁ (by simp [*])).withRole .expression
  · obtain ⟨n, h₁, rfl⟩ := h.ret
    exact (fills_template h₁ (by simp [*])).withRole .expression
  · exact fills_regex h (by simp [*])
  · exact fills_regex h (by simp [*])
  · exact fills_parenthesized h
  · exact fills_arrayLiteral h
  · exact fills_objectLiteral h
  · exact fills_functionExpression (p := s.gap) h h.stay
  · obtain ⟨n, h₁, rfl⟩ := h.ret
    exact (fills_classLike h₁).withRole .expression
  · exact fills_keywordExpression h (by simp [*]) fun r => ⟨_, rfl⟩
  · exact fills_keywordExpression h (by simp [*]) fun r => ⟨_, rfl⟩
  · exact fills_keywordExpression h (by simp [*]) fun r => ⟨_, rfl⟩
  · exact fills_keywordExpression h (by simp [*]) fun r => ⟨_, rfl⟩
  · exact fills_keywordExpression h (by simp [*]) fun r => ⟨_, rfl⟩
  · exact h.position.report.elim

variable {p q : Range} {e e' : Expr}

theorem fills_memberAccess {isOptional : Bool} (h : Run text (memberAccess e isOptional) s e' t)
    (he : e.Fills text p q) (hq : Onward text q s.gap) : e'.Fills text p t.gap := by
  obtain ⟨id, h₁, rfl⟩ := Run.retFrom h
  exact he.ofKind ((fills_word h₁ .name).reading.after hq)

theorem fills_elementAccess {isOptional : Bool} (h : Run text (elementAccess g e isOptional) s e' t)
    (hkind : s.lexer.kind ≠ .endOfFile) (he : e.Fills text p q) (hq : Onward text q s.gap) :
    e'.Fills text p t.gap := by
  obtain ⟨h₁, h⟩ := Run.advance h hkind
  obtain ⟨index, s₂, h₂, h⟩ := h.ite_bind
  obtain ⟨s₃, h₃, h⟩ := h.expect
  obtain ⟨rfl, rfl⟩ := h.rangeFrom.pure
  have hindex : index.Fills text s.advanced.gap s₂.gap := by
    obtain ⟨-, h₂⟩ | ⟨-, h₂⟩ := h₂.ite
    · exact fills_expression h₂
    · obtain ⟨u, v, -, hu, hv, h₂⟩ := h₂.withIn
      exact hu ▸ hv ▸ fills_expression h₂
  have hargument := ((hindex.reading .argument).after h₁.toOnward).before h₃.toOnward
  exact he.ofKind (hargument.after hq)

theorem fills_call {isOptional : Bool} (h : Run text (call g e isOptional) s e' t)
    (he : e.Fills text p q) (hq : Onward text q s.gap) : e'.Fills text p t.gap := by
  obtain ⟨args, h₁, rfl⟩ := Run.retFrom h
  exact he.ofKind ((reading_arguments h₁).2.after hq)

theorem fills_taggedTemplate (h : Run text (taggedTemplate g e) s e' t)
    (hkind : s.lexer.kind ≠ .endOfFile) (he : e.Fills text p s.gap) : e'.Fills text p t.gap := by
  obtain ⟨n, h₁, rfl⟩ := Run.retFrom h
  exact he.ofKind ((fills_template h₁ hkind).withRole .template).reading

theorem fills_optionalLink (h : Run text (optionalLink g e) s e' t) (he : e.Fills text p q)
    (hq : Onward text q s.gap) : e'.Fills text p t.gap := by
  replace h := Run.current h
  split at h
  · exact fills_call h he hq
  · exact fills_elementAccess h (by simp [*]) he hq
  · exact fills_memberAccess h he hq

theorem fills_link? {allowsCalls : Bool} {x : Option Expr} (he : e.Fills text p s.gap)
    (h : Run text (link? g allowsCalls e) s x t) : (x.getD e).Fills text p t.gap := by
  have hstay := h.stay
  replace h := Run.current h
  split at h
  · obtain ⟨h₁, h⟩ := h.advance (by simp [*])
    obtain ⟨e', h₂, rfl⟩ := h.ret
    exact fills_memberAccess h₂ he h₁.toOnward
  · obtain ⟨-, h⟩ | ⟨-, h⟩ := h.ite
    · obtain ⟨h₁, h⟩ := h.advance (by simp [*])
      obtain ⟨e', h₂, rfl⟩ := h.ret
      exact fills_optionalLink h₂ he h₁.toOnward
    · obtain ⟨rfl, rfl⟩ := h.pure
      exact he
  · obtain ⟨e', h₁, rfl⟩ := h.ret
    exact fills_elementAccess h₁ (by simp [*]) he hstay
  · obtain ⟨-, h⟩ | ⟨-, h⟩ := h.ite
    · obtain ⟨e', h₁, rfl⟩ := h.ret
      exact fills_call h₁ he hstay
    · obtain ⟨rfl, rfl⟩ := h.pure
      exact he
  · obtain ⟨e', h₁, rfl⟩ := h.ret
    exact fills_taggedTemplate h₁ (by simp [*]) he
  · obtain ⟨e', h₁, rfl⟩ := h.ret
    exact fills_taggedTemplate h₁ (by simp [*]) he
  · obtain ⟨rfl, rfl⟩ := h.pure
    exact he

theorem fills_links {allowsCalls : Bool} (h : Run text (iterate (link? g allowsCalls) e) s e' t)
    (he : e.Fills text p s.gap) : e'.Fills text p t.gap :=
  h.iterate (P := fun e u => e.Fills text p u.gap) fills_link? he

theorem fills_constructed (h : Run text (constructed g) s e t) : e.Fills text s.gap t.gap := by
  obtain ⟨hkind, h⟩ | ⟨-, h⟩ := (Run.current h).ite
  · obtain ⟨e, s₁, h₁, h⟩ := h.bind_at hkind
    exact fills_links h (PlacingRules.construction h₁)
  · obtain ⟨e, s₁, h₁, h⟩ := h.bind
    exact fills_links h (fills_primary h₁)

theorem fills_construction (h : Run text (construction g) s e t) : e.Fills text s.gap t.gap := by
  obtain ⟨s₁, h₁, h⟩ := (Run.position h).expect_of fun _ =>
    .bind fun x => by cases x <;> infer_instance
  obtain ⟨callee?, s₂, h₂, h⟩ := h.bind_of fun x => by cases x <;> infer_instance
  obtain ⟨u, v, -, hu, hv, hnested⟩ := h₂.nested
  obtain ⟨callee, hconstructed, rfl⟩ := hnested.map
  have hcallee : callee.Fills text s₁.gap s₂.gap := hu ▸ hv ▸ fills_constructed hconstructed
  obtain ⟨args?, s₃, h₃, h⟩ := h.current.ite_bind
  obtain ⟨rfl, rfl⟩ := h.rangeFrom.pure
  have hargs : Reading text s₂.gap (Expr.nodes .argument (args?.getD [])) t.gap := by
    obtain ⟨-, h₃⟩ | ⟨-, h₃⟩ := h₃.ite
    · obtain ⟨args, hargs, rfl⟩ := h₃.map
      exact (reading_arguments hargs).2
    · exact h₃.nothing (by rintro rfl; rfl)
  exact h₁.ofKind ((hcallee.reading .callee).append hargs)

theorem fills_access (h : Run text (access g) s e t) : e.Fills text s.gap t.gap := by
  obtain ⟨hkind, h⟩ | ⟨-, h⟩ := (Run.current h).ite
  · obtain ⟨e, s₁, h₁, h⟩ := h.bind
    exact fills_links h (fills_construction h₁)
  · obtain ⟨e, s₁, h₁, h⟩ := h.bind
    exact fills_links h (fills_primary h₁)

theorem fills_updated (h : Run text (updated g) s e t) : e.Fills text s.gap t.gap := by
  obtain ⟨e, s₁, h₁, h⟩ := Run.bind_of h fun _ => .bind fun _ => by split <;> infer_instance
  have he := fills_access h₁
  replace h := h.current
  split at h
  · rename_i op hop
    obtain ⟨-, h⟩ | ⟨-, h⟩ := h.look.ite
    · obtain ⟨rfl, rfl⟩ := h.pure
      exact he
    · have hkind : s₁.lexer.kind ≠ .endOfFile := by
        intro hkind
        rw [hkind] at hop
        cases hop
      obtain ⟨h₂, h⟩ := h.advance hkind
      obtain ⟨rfl, rfl⟩ := h.rangeFrom.pure
      exact he.ofKind (.nil h₂.toOnward)
  · obtain ⟨rfl, rfl⟩ := h.pure
    exact he

theorem fills_unary (h : Run text (unary g) s e t) : e.Fills text s.gap t.gap := by
  replace h := Run.current h
  split at h
  · exact fills_updated h
  · rename_i op hop
    have hkind : s.lexer.kind ≠ .endOfFile := by
      intro hkind
      rw [hkind] at hop
      cases hop
    obtain ⟨u, v, hlexer, hu, hv, h⟩ := h.nested
    rw [← hu, ← hv]
    obtain ⟨h₁, h⟩ := h.position.advance (hlexer ▸ hkind)
    obtain ⟨e, h₂, rfl⟩ := h.retFrom
    exact h₁.ofKind ((PlacingRules.unary h₂).reading .operand)

theorem fills_operation {op : BinaryOp} {right : Parse Expr} [Moves 0 right]
    (hright : ∀ {s e t}, Run text right s e t → e.Fills text s.gap t.gap)
    (h : Run text (operation op e right) s e' t) (hkind : s.lexer.kind ≠ .endOfFile)
    (he : e.Fills text p s.gap) : e'.Fills text p t.gap := by
  have hs := h.sound
  obtain ⟨h₁, h⟩ := (Run.tokenRange h).advance hkind
  obtain ⟨r, h₂, rfl⟩ := h.retFrom
  exact fills_binary hs hkind he (hright h₂)

theorem fills_chainStep {floor : Nat} {x : Option Expr} (he : e.Fills text p s.gap)
    (h : Run text (chainStep g floor e) s x t) : (x.getD e).Fills text p t.gap := by
  obtain ⟨o, ho, hpresent⟩ := chainOperator?_eq s
  replace h := Run.bind_eq h ho
  cases o with
  | none =>
    obtain ⟨rfl, rfl⟩ := h.pure
    exact he
  | some o =>
    obtain ⟨-, h⟩ | ⟨-, h⟩ := Run.ite h
    · obtain ⟨e', h₁, rfl⟩ := h.ret
      exact fills_operation PlacingRules.chain h₁ (hpresent rfl).ne he
    · obtain ⟨rfl, rfl⟩ := h.pure
      exact he

theorem fills_chain {floor : Nat} (h : Run text (chain g floor) s e t) :
    e.Fills text s.gap t.gap := by
  obtain ⟨first, s₁, h₁, h⟩ := Run.bind h
  exact h.iterate (P := fun e u => e.Fills text s.gap u.gap) fills_chainStep (fills_unary h₁)

theorem fills_conditional (h : Run text (conditional g) s e t) : e.Fills text s.gap t.gap := by
  obtain ⟨e, s₁, h₁, h⟩ := Run.bind h
  have he := fills_chain h₁
  obtain ⟨s₂, h₂, h⟩ | h := h.accept
  · obtain ⟨a, s₃, h₃, h⟩ := h.bind
    obtain ⟨s₄, h₄, h⟩ := h.expect
    obtain ⟨b, h₅, rfl⟩ := h.retFrom
    obtain ⟨u, v, -, hu, hv, h₃⟩ := h₃.withIn
    have ha : a.Fills text s₂.gap s₃.gap := hu ▸ hv ▸ PlacingRules.assignment h₃
    have hb := PlacingRules.assignment h₅
    have hyes := (ha.reading .whenTrue).after h₂.toOnward
    have hno := (hb.reading .whenFalse).after h₄.toOnward
    exact he.ofKind (hyes.append hno)
  · obtain ⟨rfl, rfl⟩ := h.pure
    exact he

theorem fills_assignment (h : Run text (assignment g) s e t) : e.Fills text s.gap t.gap := by
  obtain ⟨u, v, -, hu, hv, hnested⟩ := Run.nested h
  rw [← hu, ← hv]
  obtain ⟨o, s₁, h₁, h₂⟩ := hnested.bind_of fun o => by
    cases o
    · exact .bind fun _ => .bind fun _ => by split <;> infer_instance
    · infer_instance
  cases o with
  | some e =>
    obtain ⟨rfl, rfl⟩ := h₂.pure
    exact fills_arrowFunction? h₁
  | none =>
    obtain rfl := eq_of_arrowFunction? h₁.eq
    obtain ⟨e, s₂, h₃, h₄⟩ := h₂.bind_of fun _ => .bind fun _ => by split <;> infer_instance
    have he := fills_conditional h₃
    replace h₄ := h₄.current
    split at h₄
    · rename_i op hop
      obtain ⟨-, h₅⟩ | ⟨-, h₅⟩ := h₄.ite
      · refine fills_operation PlacingRules.assignment h₅ (fun hkind => ?_) he
        rw [hkind] at hop
        cases hop
      · obtain ⟨rfl, rfl⟩ := h₅.pure
        exact he
    · obtain ⟨rfl, rfl⟩ := h₄.pure
      exact he

end Expressions

/-! ## Imports and exports -/

section Modules

variable {n : Node}

theorem fills_moduleName {lit : Literal} (h : Run text moduleName s lit t) :
    (moduleNode lit).Fills text s.gap t.gap := by
  obtain ⟨hkind, h⟩ | ⟨-, h⟩ := (Run.current h).ite
  · exact fills_literal h (by simp [hkind]) .moduleName .string
  · exact h.report.elim

theorem Run.expectName {α : Type} {a : α} {word : String} {f : Unit → Parse α} [∀ u, Moves 0 (f u)]
    (h : Run text (expectName word >>= f) s a t) :
    ∃ s₁, Past text s.gap s₁.gap ∧ Run text (f ()) s₁ a t := by
  obtain ⟨⟨⟩, s₁, h₁, h⟩ := h.bind
  obtain ⟨hname, h₁⟩ | ⟨-, h₁⟩ := (Run.look h₁).ite
  · cases h₁.eq
    simp only [isName, Bool.and_eq_true, decide_eq_true_eq] at hname
    exact ⟨s.advanced, h₁.sound.past (by simp [hname.1]), h⟩
  · exact absurd h₁.clean (not_clean_of_report h₁.eq)

variable {ns : List Node} {kind : NodeKind}

theorem fills_specifier (h : Run text (specifier kind) s n t) :
    n.Fills text s.gap t.gap := by
  obtain ⟨first, s₁, h₁, h⟩ := (Run.position h).bind
  obtain ⟨hname, h⟩ | ⟨-, h⟩ := h.look.ite
  · simp only [isName, Bool.and_eq_true, decide_eq_true_eq] at hname
    obtain ⟨h₂, h⟩ := h.advance (by simp [hname.1])
    obtain ⟨second, h₃, rfl⟩ := h.retFrom
    have hfirst := fills_word h₁ .propertyName
    have hsecond := (fills_word h₃ .name).reading.after h₂.toOnward
    exact (hfirst.reading.append hsecond).node (hfirst.toPast.trans hsecond.toOnward).lt
  · obtain ⟨rfl, rfl⟩ := h.rangeFrom.pure
    have hfirst := fills_word h₁ .name
    exact hfirst.reading.node hfirst.lt

theorem reading_specifierTurn {x : Turn Node} (h : Run text (specifierTurn kind) s x t) :
    Reading text s.gap (x.items.map id) t.gap := by
  obtain ⟨-, h⟩ | ⟨-, h⟩ := (Run.current h).ite
  · obtain ⟨n, s₁, h₁, h⟩ := h.bind
    exact reading_turnAtComma (fills_specifier h₁).reading h
  · exact h.stops

theorem reading_specifiers (h : Run text (specifiers kind) s ns t) :
    Reading text s.gap ns t.gap := by
  obtain ⟨s₁, h₁, h⟩ := Run.expect h
  obtain ⟨ns, s₂, h₂, h⟩ := h.bind
  obtain ⟨s₃, h₃, h⟩ := h.expect
  obtain ⟨rfl, rfl⟩ := h.pure
  exact ((reading_nodes reading_specifierTurn h₂).before h₃.toOnward).after h₁.toOnward

theorem reading_importedOthers (h : Run text importedOthers s ns t) :
    Reading text s.gap ns t.gap := by
  obtain ⟨s₁, h₁, h⟩ | h := Run.accept h
  · obtain ⟨s₂, h₂, h⟩ := h.expectName
    obtain ⟨id, h₃, rfl⟩ := h.ret
    exact ((fills_name h₃ .namespaceBinding).reading.after h₂.toOnward).after h₁.toOnward
  obtain ⟨-, h⟩ | ⟨-, h⟩ := h.current.ite
  · exact reading_specifiers h
  · exact h.nothing (by rintro rfl; rfl)

theorem reading_importedNames (h : Run text importedNames s ns t) :
    Reading text s.gap ns t.gap := by
  obtain ⟨whole, s₁, h₁, h⟩ := Run.bind h
  have hwhole := reading_name? h₁ .defaultBinding
  obtain ⟨-, h⟩ | ⟨-, h⟩ := h.ite
  · obtain ⟨⟨⟩, s₂, h₂, h⟩ := h.bind
    obtain ⟨others, h₃, rfl⟩ := h.ret
    exact hwhole.append ((reading_importedOthers h₃).after h₂.onward)
  · obtain ⟨others, h₂, rfl⟩ := h.ret
    exact hwhole.append (reading_importedOthers h₂)

theorem reading_importClause (h : Run text importClause s ns t) :
    Reading text s.gap ns t.gap := by
  obtain ⟨-, h⟩ | ⟨-, h⟩ := (Run.current h).ite
  · exact h.nothing (by rintro rfl; rfl)
  · obtain ⟨names, s₁, h₁, h⟩ := h.bind
    obtain ⟨s₂, h₂, h⟩ := h.expectName
    obtain ⟨rfl, rfl⟩ := h.pure
    exact (reading_importedNames h₁).before h₂.toOnward

theorem fills_importDeclaration (h : Run text importDeclaration s n t) :
    n.Fills text s.gap t.gap := by
  obtain ⟨s₁, h₁, h⟩ := (Run.position h).expect
  obtain ⟨names, s₂, h₂, h⟩ := h.bind
  obtain ⟨source, s₃, h₃, h⟩ := h.bind
  obtain ⟨⟨⟩, h₄, rfl⟩ := h.retFrom
  have hsource := (fills_moduleName h₃).reading.before h₄.onward
  exact h₁.ofKind ((reading_importClause h₂).append hsource)

theorem reading_exportedDefault (h : Run text (exportedDefault g) s n t) :
    Reading text s.gap [n] t.gap := by
  replace h := (Run.position h).current
  split at h
  · obtain ⟨x, h₁, rfl⟩ := h.ret
    have hx := fills_functionDeclaration (p := s.gap) h₁ h₁.stay
    exact hx.reading .declaration
  · obtain ⟨x, h₁, rfl⟩ := h.ret
    exact ((fills_classLike h₁).withRole .declaration).reading
  · obtain ⟨hname, h⟩ | ⟨-, h⟩ := h.look.ite
    · simp only [isAsyncFunction, isName, Bool.and_eq_true, decide_eq_true_eq] at hname
      obtain ⟨h₁, h⟩ := h.advance (by simp [hname.1.1.1])
      obtain ⟨x, h₂, rfl⟩ := h.position.ret
      have hx := fills_functionDeclaration (p := s.advanced.gap) h₂ h₂.stay
      exact (hx.reading .declaration).after h₁.toOnward
    · obtain ⟨e, s₁, h₁, h⟩ := h.bind
      obtain ⟨⟨⟩, h₂, rfl⟩ := h.ret
      exact ((PlacingRules.assignment h₁).reading .expression).before h₂.onward

theorem reading_exportedAlias (h : Run text exportedAlias s ns t) :
    Reading text s.gap ns t.gap := by
  obtain ⟨hname, h⟩ | ⟨-, h⟩ := (Run.look h).ite
  · simp only [isName, Bool.and_eq_true, decide_eq_true_eq] at hname
    obtain ⟨h₁, h⟩ := h.advance (by simp [hname.1])
    obtain ⟨id, h₂, rfl⟩ := h.ret
    have hid := fills_word h₂ .name
    have hrange : id.range = ⟨s.advanced.gap.stop, t.gap.start⟩ := Option.some.inj hid.place
    rw [hrange]
    refine Reading.after ?_ h₁.toOnward
    exact Node.Fills.reading (hid.reading.node hid.lt)
  · exact h.nothing (by rintro rfl; rfl)

theorem reading_exportedModule (h : Run text exportedModule s ns t) :
    Reading text s.gap ns t.gap := by
  obtain ⟨names, s₁, h₁, h⟩ := Run.bind h
  obtain ⟨s₂, h₂, h⟩ := h.expectName
  obtain ⟨source, s₃, h₃, h⟩ := h.bind
  obtain ⟨⟨⟩, h₄, rfl⟩ := h.ret
  have hsource := ((fills_moduleName h₃).reading.before h₄.onward).after h₂.toOnward
  exact (reading_exportedAlias h₁).append hsource

theorem reading_exportSource (h : Run text exportSource s ns t) :
    Reading text s.gap ns t.gap := by
  obtain ⟨hname, h⟩ | ⟨-, h⟩ := (Run.look h).ite
  · simp only [isName, Bool.and_eq_true, decide_eq_true_eq] at hname
    obtain ⟨h₁, h⟩ := h.advance (by simp [hname.1])
    obtain ⟨source, h₂, rfl⟩ := h.ret
    exact (fills_moduleName h₂).reading.after h₁.toOnward
  · exact h.nothing (by rintro rfl; rfl)

theorem reading_exportedNames (h : Run text exportedNames s ns t) :
    Reading text s.gap ns t.gap := by
  obtain ⟨names, s₁, h₁, h⟩ := Run.bind h
  obtain ⟨source, s₂, h₂, h⟩ := h.bind
  obtain ⟨⟨⟩, h₃, rfl⟩ := h.ret
  exact (reading_specifiers h₁).append ((reading_exportSource h₂).before h₃.onward)

theorem reading_exportedDeclaration (h : Run text (exportedDeclaration g) s n t) :
    Reading text s.gap [n] t.gap := by
  obtain ⟨x, s₁, h₁, h⟩ := Run.bind h
  obtain ⟨-, h⟩ | ⟨-, h⟩ := h.ite
  · exact h.reportAt.elim
  · obtain ⟨rfl, rfl⟩ := h.pure
    exact (PlacingRules.statement h₁).reading .declaration

theorem reading_exportedItems (h : Run text (exportedItems g) s ns t) :
    Reading text s.gap ns t.gap := by
  obtain ⟨s₁, h₁, h⟩ | h := Run.accept h
  · exact (reading_exportedModule h).after h₁.toOnward
  obtain ⟨-, h⟩ | ⟨-, h⟩ := h.current.ite
  · exact reading_exportedNames h
  · obtain ⟨item, h₁, rfl⟩ := h.ret
    exact reading_exportedDeclaration h₁

theorem fills_exportDeclaration (h : Run text (exportDeclaration g) s n t) :
    n.Fills text s.gap t.gap := by
  obtain ⟨s₁, h₁, h⟩ := (Run.position h).expect
  obtain ⟨isDefault, s₂, h₂, h⟩ := h.bind
  obtain ⟨children, s₃, h₃, h⟩ := h.ite_bind
  obtain ⟨rfl, rfl⟩ := h.rangeFrom.pure
  have hchildren : Reading text s₂.gap children t.gap := by
    obtain ⟨-, h₃⟩ | ⟨-, h₃⟩ := h₃.ite
    · obtain ⟨item, hitem, rfl⟩ := h₃.map
      exact reading_exportedDefault hitem
    · exact reading_exportedItems h₃
  exact h₁.ofKind (hchildren.after h₂.onward)

end Modules

/-! ## Statements -/

section Statements

variable {n : Node} {x : Stmt}

theorem fills_declarator {d : Declarator} (h : Run text (declarator g) s d t) :
    d.node.Fills text s.gap t.gap := by
  obtain ⟨target, s₁, h₁, h⟩ := (Run.position h).bind
  obtain ⟨init, h₂, rfl⟩ := h.retFrom
  have htarget := PlacingRules.binding h₁
  have hinit := reading_initializer h₂
  exact ((htarget.reading .binding).append hinit).node (htarget.toPast.trans hinit.toOnward).lt

theorem reading_variableTurn {y : Turn Declarator} (h : Run text (variableTurn g) s y t) :
    Reading text s.gap (y.items.map Declarator.node) t.gap := by
  replace h := Run.current h
  split at h
  case h_4 => exact h.report.elim
  all_goals
    obtain ⟨d, s₁, h₁, h⟩ := h.bind
    exact reading_turnAtComma (fills_declarator h₁).reading h

theorem fills_variableList {r : Range × VarKind × List Declarator}
    (h : Run text (variableList g) s r t) (hkind : s.lexer.kind ≠ .endOfFile) (role : Role) :
    (variablesNode role r.1 r.2.1 r.2.2).Fills text s.gap t.gap := by
  obtain ⟨h₁, h⟩ := (Run.position h).current.advance hkind
  obtain ⟨ds, h₂, rfl⟩ := h.retFrom
  exact h₁.ofKind (reading_many reading_variableTurn h₂)

theorem fills_variableStatement (h : Run text (variableStatement g) s x t)
    (hkind : s.lexer.kind ≠ .endOfFile) : x.Fills text s.gap t.gap := by
  obtain ⟨⟨range, kind, ds⟩, s₁, h₁, h⟩ := (Run.position h).bind_of fun ⟨_, _, _⟩ => inferInstance
  obtain ⟨⟨⟩, h₂, rfl⟩ := h.retFrom
  have hlist := fills_variableList h₁ hkind .declarations
  exact (hlist.reading.before h₂.onward).node (hlist.toPast.trans h₂.onward).lt

theorem fills_expressionStatement (h : Run text (expressionStatement g) s x t) :
    x.Fills text s.gap t.gap := by
  obtain ⟨e, s₁, h₁, h⟩ := (Run.position h).bind
  obtain ⟨⟨⟩, h₂, rfl⟩ := h.retFrom
  have he := fills_expression h₁
  exact ((he.reading .expression).before h₂.onward).node (he.toPast.trans h₂.onward).lt

theorem fills_returnStatement (h : Run text (returnStatement g) s x t) :
    x.Fills text s.gap t.gap := by
  obtain ⟨s₁, h₁, h⟩ := (Run.position h).expect
  obtain ⟨e, s₂, h₂, h⟩ := h.look.ite_bind
  obtain ⟨⟨⟩, h₃, rfl⟩ := h.retFrom
  have he : Reading text s₁.gap (e.map (Expr.node .expression)).toList s₂.gap := by
    obtain ⟨-, h₂⟩ | ⟨-, h₂⟩ := h₂.ite
    · exact h₂.nothing (by rintro rfl; rfl)
    · obtain ⟨e, h₂, rfl⟩ := h₂.map
      exact (fills_expression ‹_›).reading .expression
  exact h₁.ofKind (he.before h₃.onward)

theorem fills_throwStatement (h : Run text (throwStatement g) s n t) :
    n.Fills text s.gap t.gap := by
  obtain ⟨s₁, h₁, h⟩ := (Run.position h).expect
  obtain ⟨e, s₂, h₂, h⟩ := h.bind
  obtain ⟨⟨⟩, h₃, rfl⟩ := h.retFrom
  exact h₁.ofKind (((fills_expression h₂).reading .expression).before h₃.onward)

variable {kind : NodeKind} {p : Range}

theorem fills_jumpStatement (h : Run text (jumpStatement kind) s n t)
    (hkind : s.lexer.kind ≠ .endOfFile) : n.Fills text s.gap t.gap := by
  obtain ⟨h₁, h⟩ := (Run.position h).advance hkind
  obtain ⟨label, s₂, h₂, h⟩ := h.look.ite_bind
  obtain ⟨⟨⟩, h₃, rfl⟩ := h.retFrom
  have hlabel : Reading text s.advanced.gap (label.map (Ident.node .label)).toList s₂.gap := by
    obtain ⟨-, h₂⟩ | ⟨-, h₂⟩ := h₂.ite
    · exact h₂.nothing (by rintro rfl; rfl)
    · exact reading_name? h₂ .label
  exact h₁.ofKind (hlabel.before h₃.onward)

theorem fills_debuggerStatement (h : Run text debuggerStatement s n t)
    (hkind : s.lexer.kind ≠ .endOfFile) : n.Fills text s.gap t.gap := by
  obtain ⟨h₁, h⟩ := (Run.position h).advance hkind
  obtain ⟨⟨⟩, h₂, rfl⟩ := h.retFrom
  exact h₁.ofKind (.nil h₂.onward)

theorem fills_labeledStatement (h : Run text (labeledStatement g) s n t) :
    n.Fills text s.gap t.gap := by
  obtain ⟨label, s₁, h₁, h⟩ := (Run.position h).bind
  obtain ⟨s₂, h₂, h⟩ := h.expect
  obtain ⟨body, h₃, rfl⟩ := h.retFrom
  have hlabel := fills_name h₁ .label
  have hbody := ((PlacingRules.statement h₃).reading .body).after h₂.toOnward
  exact (hlabel.reading.append hbody).node (hlabel.toPast.trans hbody.toOnward).lt

theorem reading_parenthesizedCondition {e : Expr} (h : Run text (parenthesizedCondition g) s e t)
    (role : Role) : Reading text s.gap [e.node role] t.gap := by
  obtain ⟨s₁, h₁, h⟩ := Run.expect h
  obtain ⟨e, s₂, h₂, h⟩ := h.bind
  obtain ⟨s₃, h₃, h⟩ := h.expect
  obtain ⟨rfl, rfl⟩ := h.pure
  exact (((fills_expression h₂).reading role).before h₃.toOnward).after h₁.toOnward

theorem fills_ifStatement (h : Run text (ifStatement g) s n t) : n.Fills text s.gap t.gap := by
  obtain ⟨s₁, h₁, h⟩ := (Run.position h).expect
  obtain ⟨e, s₂, h₂, h⟩ := h.bind
  obtain ⟨yes, s₃, h₃, h⟩ := h.bind
  obtain ⟨hasElse, s₄, h₄, h⟩ := h.bind
  obtain ⟨no, s₅, h₅, h⟩ := h.ite_bind
  obtain ⟨rfl, rfl⟩ := h.rangeFrom.pure
  have hno : Reading text s₄.gap (no.map (Stmt.node .alternate)).toList t.gap := by
    obtain ⟨-, h₅⟩ | ⟨-, h₅⟩ := h₅.ite
    · obtain ⟨x, hx, rfl⟩ := h₅.map
      exact (PlacingRules.statement hx).reading .alternate
    · exact h₅.nothing (by rintro rfl; rfl)
  have hyes := (PlacingRules.statement h₃).reading .consequent
  have he := reading_parenthesizedCondition h₂ .condition
  exact h₁.ofKind (he.append (hyes.append (hno.after h₄.onward)))

theorem fills_whileStatement (h : Run text (whileStatement g) s n t) :
    n.Fills text s.gap t.gap := by
  obtain ⟨s₁, h₁, h⟩ := (Run.position h).expect
  obtain ⟨e, s₂, h₂, h⟩ := h.bind
  obtain ⟨body, h₃, rfl⟩ := h.retFrom
  have he := reading_parenthesizedCondition h₂ .condition
  exact h₁.ofKind (he.append ((PlacingRules.statement h₃).reading .body))

theorem fills_doStatement (h : Run text (doStatement g) s n t) : n.Fills text s.gap t.gap := by
  obtain ⟨s₁, h₁, h⟩ := (Run.position h).expect
  obtain ⟨body, s₂, h₂, h⟩ := h.bind
  obtain ⟨s₃, h₃, h⟩ := h.expect
  obtain ⟨e, s₄, h₄, h⟩ := h.bind
  obtain ⟨⟨⟩, h₅, rfl⟩ := h.retFrom
  have hbody := (PlacingRules.statement h₂).reading .body
  have he := (reading_parenthesizedCondition h₄ .condition).before h₅.onward
  exact h₁.ofKind (hbody.append (he.after h₃.toOnward))

theorem fills_withStatement (h : Run text (withStatement g) s n t) : n.Fills text s.gap t.gap := by
  obtain ⟨s₁, h₁, h⟩ := (Run.position h).expect
  obtain ⟨e, s₂, h₂, h⟩ := h.bind
  obtain ⟨body, h₃, rfl⟩ := h.retFrom
  have he := reading_parenthesizedCondition h₂ .expression
  exact h₁.ofKind (he.append ((PlacingRules.statement h₃).reading .body))

theorem fills_loopVariables {r : Range × VarKind × List Declarator}
    (h : Run text (withIn false (variableList g)) s r t) (hkind : s.lexer.kind ≠ .endOfFile)
    (role : Role) : (variablesNode role r.1 r.2.1 r.2.2).Fills text s.gap t.gap := by
  obtain ⟨u, v, hlexer, hu, hv, h⟩ := h.withIn
  rw [← hu, ← hv]
  exact fills_variableList h (hlexer ▸ hkind) role

theorem reading_loopStart {init : Option Node} (h : Run text (loopStart g) s init t) :
    Reading text s.gap init.toList t.gap := by
  replace h := Run.current h
  split at h
  case h_1 => exact h.nothing (by rintro rfl; rfl)
  case h_5 =>
    obtain ⟨e, h₁, rfl⟩ := h.ret
    obtain ⟨u, v, -, hu, hv, h₁⟩ := h₁.withIn
    have he : e.Fills text s.gap t.gap := hu ▸ hv ▸ fills_expression h₁
    exact he.reading .initializer
  all_goals
    obtain ⟨⟨range, kind, ds⟩, s₁, h₁, h⟩ := h.bind_of fun v => by cases v; infer_instance
    obtain ⟨rfl, rfl⟩ := h.pure
    exact (fills_loopVariables h₁ (by simp [*]) .initializer).reading

theorem memberLoop?_cases {kind : Option NodeKind} (h : Run text memberLoop? s kind t) :
    t = s ∧ (kind.isSome = true → s.lexer.kind ≠ .endOfFile) := by
  obtain ⟨hkind, h⟩ | ⟨-, h⟩ := (Run.current h).ite
  · obtain ⟨-, rfl⟩ := h.pure
    exact ⟨rfl, by simp [hkind]⟩
  obtain ⟨hname, h⟩ | ⟨-, h⟩ := h.look.ite
  · obtain ⟨-, rfl⟩ := h.pure
    simp only [isName, Bool.and_eq_true, decide_eq_true_eq] at hname
    exact ⟨rfl, by simp [hname.1]⟩
  · obtain ⟨rfl, rfl⟩ := h.pure
    exact ⟨rfl, by simp⟩

theorem fills_memberLoop {init : Node} (h : Run text (memberLoop g p.stop kind init) s n t)
    (hkind : s.lexer.kind ≠ .endOfFile) (hpast : Past text p s.gap)
    (hinit : Reading text p [init] s.gap) : n.Fills text p t.gap := by
  obtain ⟨h₁, h⟩ := Run.advance h hkind
  obtain ⟨e, s₂, h₂, h⟩ := h.ite_bind
  obtain ⟨s₃, h₃, h⟩ := h.expect
  obtain ⟨body, h₄, rfl⟩ := h.retFrom
  have he : e.Fills text s.advanced.gap s₂.gap := by
    obtain ⟨-, h₂⟩ | ⟨-, h₂⟩ := h₂.ite
    · exact fills_expression h₂
    · exact PlacingRules.assignment h₂
  have hhead := ((he.reading .expression).after h₁.toOnward).before h₃.toOnward
  have hrest := hhead.append ((PlacingRules.statement h₄).reading .body)
  exact (hinit.append hrest).node (hpast.trans hrest.toOnward).lt

theorem reading_expressionUnless {kind : TokenKind} {e : Option Expr}
    (h : Run text (expressionUnless g kind) s e t) (role : Role) :
    Reading text s.gap (e.map (Expr.node role)).toList t.gap := by
  obtain ⟨-, h⟩ | ⟨-, h⟩ := (Run.current h).ite
  · exact h.nothing (by rintro rfl; rfl)
  · obtain ⟨e, h₁, rfl⟩ := h.ret
    exact (fills_expression h₁).reading role

theorem fills_countingLoop {init : Option Node} (h : Run text (countingLoop g p.stop init) s n t)
    (hinit : Reading text p init.toList s.gap) : n.Fills text p t.gap := by
  obtain ⟨s₁, h₁, h⟩ := Run.expect h
  obtain ⟨condition, s₂, h₂, h⟩ := h.bind
  obtain ⟨s₃, h₃, h⟩ := h.expect
  obtain ⟨step, s₄, h₄, h⟩ := h.bind
  obtain ⟨s₅, h₅, h⟩ := h.expect
  obtain ⟨body, h₆, rfl⟩ := h.retFrom
  have hcondition := (reading_expressionUnless h₂ .condition).after h₁.toOnward
  have hstep := (reading_expressionUnless h₄ .incrementor).after h₃.toOnward
  have hbody := ((PlacingRules.statement h₆).reading .body).after h₅.toOnward
  have hlt := (hinit.toOnward.past h₁).trans
    ((h₂.onward.trans hstep.toOnward).trans hbody.toOnward)
  exact (((hinit.append hcondition).append hstep).append hbody).node hlt.lt

theorem fills_forStatement (h : Run text (forStatement g) s n t) : n.Fills text s.gap t.gap := by
  obtain ⟨s₁, h₁, h⟩ := (Run.position h).expect_of fun _ => .bind fun _ => .bind fun init => by
    cases init
    · infer_instance
    · exact .bind fun kind => by cases kind <;> infer_instance
  obtain ⟨s₂, h₂, h⟩ := h.expect_of fun _ => .bind fun init => by
    cases init
    · infer_instance
    · exact .bind fun kind => by cases kind <;> infer_instance
  obtain ⟨init, s₃, h₃, h⟩ := h.bind_of fun init => by
    cases init
    · infer_instance
    · exact .bind fun kind => by cases kind <;> infer_instance
  have hhead := h₁.toOnward.trans h₂.toOnward
  have hinit := (reading_loopStart h₃).after hhead
  cases init with
  | none => exact fills_countingLoop (p := s.gap) h hinit
  | some init =>
    obtain ⟨kind, s₄, h₄, h₅⟩ := h.bind_of fun kind => by cases kind <;> infer_instance
    obtain ⟨rfl, hkind⟩ := memberLoop?_cases h₄
    cases kind with
    | none => exact fills_countingLoop (p := s.gap) h₅ hinit
    | some kind =>
      have hpast := (h₁.trans h₂.toOnward).trans h₃.onward
      exact fills_memberLoop (p := s.gap) h₅ (hkind rfl) hpast hinit

theorem reading_clauseBody {e : List Node} {y : Turn Node}
    (h : Run text (clauseBody g p.stop kind e) s y t) (he : Reading text p e s.gap) :
    Reading text p (y.items.map id) t.gap := by
  obtain ⟨s₁, h₁, h⟩ := Run.expect h
  obtain ⟨body, h₂, rfl⟩ := h.retFrom
  have hbody := (reading_statements h₂).after h₁.toOnward
  have hlt := (he.toOnward.past h₁).trans h₂.onward
  exact Node.Fills.reading ((he.append hbody).node hlt.lt)

theorem reading_clauseTurn {y : Turn Node} (h : Run text (clauseTurn g) s y t) :
    Reading text s.gap (y.items.map id) t.gap := by
  replace h := (Run.position h).current
  split at h
  · obtain ⟨h₁, h⟩ := h.advance (by simp [*])
    obtain ⟨e, s₂, h₂, h⟩ := h.bind
    have he := ((fills_expression h₂).reading .expression).after h₁.toOnward
    exact reading_clauseBody (p := s.gap) h he
  · obtain ⟨h₁, h⟩ := h.advance (by simp [*])
    exact reading_clauseBody (p := s.gap) h (.nil h₁.toOnward)
  · exact h.nothing (by rintro rfl; rfl)

theorem fills_switchStatement (h : Run text (switchStatement g) s n t) :
    n.Fills text s.gap t.gap := by
  obtain ⟨s₁, h₁, h⟩ := (Run.position h).expect
  obtain ⟨e, s₂, h₂, h⟩ := h.bind
  obtain ⟨s₃, h₃, h⟩ := h.expect
  obtain ⟨clauses, s₄, h₄, h⟩ := h.bind
  obtain ⟨s₅, h₅, h⟩ := h.expect
  obtain ⟨rfl, rfl⟩ := h.rangeFrom.pure
  have hclauses := (reading_nodes reading_clauseTurn h₄).before h₅.toOnward
  have he := reading_parenthesizedCondition h₂ .expression
  exact h₁.ofKind (he.append (hclauses.after h₃.toOnward))

theorem reading_catchBinding {ns : List Node} (h : Run text (catchBinding g) s ns t) :
    Reading text s.gap ns t.gap := by
  obtain ⟨s₁, h₁, h⟩ | h := Run.accept h
  · obtain ⟨b, s₂, h₂, h⟩ := h.bind
    obtain ⟨s₃, h₃, h⟩ := h.expect
    obtain ⟨rfl, rfl⟩ := h.pure
    exact (((PlacingRules.binding h₂).reading .binding).before h₃.toOnward).after h₁.toOnward
  · exact h.nothing (by rintro rfl; rfl)

theorem reading_catchClause? {clause : Option Node} (h : Run text (catchClause? g) s clause t) :
    Reading text s.gap clause.toList t.gap := by
  obtain ⟨s₁, h₁, h⟩ | h := (Run.position h).accept
  · obtain ⟨target, s₂, h₂, h⟩ := h.bind
    obtain ⟨body, h₃, rfl⟩ := h.retFrom
    have hall := (reading_catchBinding h₂).append (fills_block h₃ .body).reading
    exact Node.Fills.reading (h₁.ofKind hall)
  · exact h.nothing (by rintro rfl; rfl)

theorem reading_finallyBlock? {clause : Option Node} (h : Run text (finallyBlock? g) s clause t) :
    Reading text s.gap clause.toList t.gap := by
  obtain ⟨s₁, h₁, h⟩ | h := Run.accept h
  · obtain ⟨body, h₂, rfl⟩ := h.ret
    exact (fills_block h₂ .finallyBlock).reading.after h₁.toOnward
  · exact h.nothing (by rintro rfl; rfl)

theorem fills_tryStatement (h : Run text (tryStatement g) s n t) : n.Fills text s.gap t.gap := by
  obtain ⟨s₁, h₁, h⟩ := (Run.position h).expect
  obtain ⟨body, s₂, h₂, h⟩ := h.bind
  obtain ⟨handler, s₃, h₃, h⟩ := h.bind
  obtain ⟨cleanup, s₄, h₄, h⟩ := h.bind
  obtain ⟨-, h⟩ | ⟨-, h⟩ := h.ite
  · exact h.report.elim
  obtain ⟨rfl, rfl⟩ := h.rangeFrom.pure
  have hbody := (fills_block h₂ .tryBlock).reading.append (reading_catchClause? h₃)
  exact h₁.ofKind (hbody.append (reading_finallyBlock? h₄))

theorem fills_keywordStatement {k : Keyword} (h : Run text (keywordStatement g k) s x t)
    (hkind : s.lexer.kind = .keyword k) : x.Fills text s.gap t.gap := by
  have hne : s.lexer.kind ≠ .endOfFile := by simp [hkind]
  have hother {p : Parse Node} [Leads 0 p] (h : Run text (do return .other (← p)) s x t)
      (hp : ∀ {n t}, Run text p s n t → n.Fills text s.gap t.gap) : x.Fills text s.gap t.gap := by
    obtain ⟨n, h₁, rfl⟩ := h.ret
    exact (hp h₁).withRole .statement
  unfold keywordStatement at h
  split at h
  · exact fills_variableStatement h hne
  · exact fills_variableStatement h hne
  · exact fills_variableStatement h hne
  · exact fills_functionDeclaration (p := s.gap) h.position h.stay
  · exact hother h fills_classLike
  · exact hother h fills_ifStatement
  · exact fills_returnStatement h
  · exact hother h fills_whileStatement
  · exact hother h fills_forStatement
  · exact hother h fills_doStatement
  · exact hother h (fills_jumpStatement · hne)
  · exact hother h (fills_jumpStatement · hne)
  · exact hother h fills_throwStatement
  · exact hother h fills_tryStatement
  · exact hother h fills_switchStatement
  · exact hother h fills_withStatement
  · exact hother h (fills_debuggerStatement · hne)
  · exact hother h fills_importDeclaration
  · exact hother h fills_exportDeclaration
  · exact fills_expressionStatement h

theorem fills_statementBody (h : Run text (statementBody g) s x t) : x.Fills text s.gap t.gap := by
  replace h := (Run.position h).current
  split at h
  · obtain ⟨h₁, h⟩ := h.advance (by simp [*])
    obtain ⟨rfl, rfl⟩ := h.rangeFrom.pure
    exact h₁.ofKind (.nil h.onward)
  · obtain ⟨b, s₁, h₁, h⟩ := h.bind_of fun v => by cases v; infer_instance
    obtain ⟨rfl, rfl⟩ := h.pure
    exact fills_block h₁ .statement
  · exact fills_keywordStatement h ‹_›
  · obtain ⟨-, h⟩ | ⟨-, h⟩ := h.look.ite
    · obtain ⟨h₁, h⟩ := h.advance (by simp [*])
      exact fills_functionDeclaration (p := s.gap) h h₁.toOnward
    obtain ⟨-, h⟩ | ⟨-, h⟩ := h.look.ite
    · obtain ⟨n, h₁, rfl⟩ := h.ret
      exact (fills_labeledStatement h₁).withRole .statement
    · exact fills_expressionStatement h
  · exact fills_expressionStatement h

theorem fills_statement (h : Run text (statement g) s x t) : x.Fills text s.gap t.gap := by
  obtain ⟨u, v, -, hu, hv, h⟩ := Run.nested h
  rw [← hu, ← hv]
  exact fills_statementBody h

end Statements

/-! ## Whole texts -/

instance placingRules_rules (text : String) (bound : Nat) : PlacingRules text (rules bound) := by
  induction bound with
  | zero => constructor <;> exact fun h => by cases h.eq
  | succ bound ih =>
    exact
      { statement := fun h => fills_statement ⟨h.eq, h.sound, h.told, h.clean⟩
        assignment := fun h => fills_assignment ⟨h.eq, h.sound, h.told, h.clean⟩
        chain := fun h => fills_chain ⟨h.eq, h.sound, h.told, h.clean⟩
        unary := fun h => fills_unary ⟨h.eq, h.sound, h.told, h.clean⟩
        access := fun h => fills_access ⟨h.eq, h.sound, h.told, h.clean⟩
        construction := fun h => fills_construction ⟨h.eq, h.sound, h.told, h.clean⟩
        binding := fun h => fills_binding ⟨h.eq, h.sound, h.told, h.clean⟩ }

/-- A token with a width lies in no more than one of the statements. -/
theorem Covered.existsUnique {ss : List Stmt} (h : Covered text s ss t) {k : Token}
    (hk : k ∈ t.tokens) (hnew : k ∉ s.tokens) (hwidth : k.range.start < k.range.stop) :
    ∃! i : Fin ss.length,
      (ss.get i).range.start ≤ k.range.start ∧ k.range.stop ≤ (ss.get i).range.stop := by
  have hplaces : (ss.map (Stmt.node .statement)).filterMap Node.place? = ss.map Stmt.range := by
    rw [List.filterMap_map]
    exact List.filterMap_eq_map_iff_forall_eq_some.2 h.place
  have horder := h.reading.inLine.order
  rw [hplaces, List.pairwise_map, List.pairwise_iff_getElem] at horder
  obtain ⟨x, hx, hin⟩ := (h.tokens k hk).resolve_left hnew
  obtain ⟨i, rfl⟩ := List.mem_iff_get.1 hx
  refine ⟨i, hin, fun j hj => ?_⟩
  rcases Nat.lt_trichotomy j i with hlt | heq | hlt
  · have hle : (ss.get j).range.stop ≤ (ss.get i).range.start := horder j i j.2 i.2 hlt
    omega
  · exact Fin.ext heq
  · have hle : (ss.get i).range.stop ≤ (ss.get j).range.start := horder i j i.2 j.2 hlt
    omega

end Grammar

end LambdaLift
