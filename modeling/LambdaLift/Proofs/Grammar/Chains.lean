import LambdaLift.Proofs.Grammar.Termination
import LambdaLift.Proofs.Tree.Grouping

/-!
# How chains of operators are read

* `State.Continues s op`: the operator `op` at the current token can continue a chain.
* `ReadsChain s c t`: the chain `c` is what the text has between `s` and `t`, read one operand after
  another, without regard to how tightly its operators bind.
* `Chained floor s e t`: the expression `e` is the tree of what the text has between `s` and `t`, and
  its operators bind tighter than `floor`.
* `chained_chain`: a chain of operators is read like this, and ends before an operator that does not
  bind tighter than the floor.
* `chain_builds_one_tree`: a chain is read to its end, and as the only tree in which operators group
  by how tightly they bind.
-/

namespace LambdaLift

namespace Grammar

/-- The operator at the current token can continue a chain: it is an operator between two operands,
it has a level, and it is not the word `in` where that is no operator. -/
structure State.Continues (s : State) (op : BinaryOp) : Prop where
  token : BinaryOp.ofToken? s.lexer.kind = some op
  level : op.level?.isSome = true
  allowed : op = .isIn → s.allowsIn = true

/-- The chain `c` is read from `s` to `t`: operands, and after each but the last one an operator that
can continue the chain. -/
inductive ReadsChain : State → Chain → State → Prop
  | operand {s t : State} {e : Expr} {bound : Nat} (h : unary (rules bound) s = some (e, t)) :
      ReadsChain s ⟨e, []⟩ t
  | link {s t t' : State} {c : Chain} {op : BinaryOp} {e : Expr} {bound : Nat}
      (before : ReadsChain s c t) (hop : t.Continues op)
      (h : unary (rules bound) t.advanced = some (e, t')) :
      ReadsChain s (c.join op t.lexer.range ⟨e, []⟩) t'

variable {s t : State} {floor : Nat}

theorem ReadsChain.join {t' : State} {c d : Chain} {op : BinaryOp} (h : ReadsChain s c t)
    (hop : t.Continues op) (h' : ReadsChain t.advanced d t') :
    ReadsChain s (c.join op t.lexer.range d) t' := by
  induction h' with
  | operand hread => exact .link h hop hread
  | link before hop' hread ih =>
    rw [← Chain.join_assoc]
    exact .link ih hop' hread

/-! ## Loops -/

/-- What one step of a loop keeps, the loop keeps up to its end. -/
theorem iterate_keeps {α : Type} {step : α → Parse (Option α)} {P Q : α → State → Prop} {a b : α}
    (hnext : ∀ a b s t, P a s → step a s = some (some b, t) → P b t)
    (hstop : ∀ a s t, P a s → step a s = some (none, t) → Q a t)
    (h : iterate step a s = some (b, t)) (ha : P a s) : Q b t := by
  have hwithin (bound : Nat) (a : α) (s : State) (ha : P a s)
      (h : iterateWithin step bound a s = some (b, t)) : Q b t := by
    induction bound generalizing a s with
    | zero => cases h
    | succ bound ih =>
      obtain ⟨next, s₁, hstep, h⟩ := bind_eq_some.1 h
      cases next with
      | none =>
        obtain ⟨rfl, rfl⟩ := pure_eq_some.1 h
        exact hstop _ _ _ ha hstep
      | some c => exact ih c s₁ (hnext _ _ _ _ ha hstep) h
  exact hwithin _ a s ha h

theorem Only.iterate {α : Type} {R : α → Prop} {step : α → Parse (Option α)}
    (h : ∀ a, Only (step a) fun x => ∀ b ∈ x, R b) {a : α} (ha : R a) : Only (iterate step a) R :=
  fun _ _ _ hrun => iterate_keeps (P := fun a _ => R a) (Q := fun a _ => R a)
    (fun a _ s t _ hstep => h a s _ t hstep _ rfl) (fun _ _ _ ha _ => ha) hrun ha

theorem Only.nested {α : Type} {R : α → Prop} {missing body : Parse α} (hmissing : Only missing R)
    (hbody : Only body R) : Only (nested missing body) R := by
  refine .bind fun mayEnter => ?_
  split
  · exact hbody.bind_of fun a ha => .bind fun _ => .pure ha
  · exact .bind fun _ => hmissing

/-! ## Operands -/

section Operands

/-- An expression that is no operation of a chain. -/
def IsOperand (e : Expr) : Prop :=
  e.grouping = .operand e

variable (g : Rules)

theorem isOperand_primary : Only (primary g) IsOperand := by
  have hother (p : Parse Node) : Only (do return .other (← p)) IsOperand := .bind fun _ => .pure rfl
  have hword {make : Range → Expr} (h : ∀ r, IsOperand (make r)) :
      Only (keywordExpression make) IsOperand :=
    .bind fun _ => .bind fun _ => .bind fun r => .pure (h r)
  have hfunction (start : Nat) (isAsync : Bool) :
      Only (functionExpression g start isAsync) IsOperand :=
    .bind fun _ => .bind fun _ => .bind fun _ => .bind fun _ => .bind fun _ => .pure rfl
  refine .bind fun start => .bind fun kind => ?_
  split
  · refine .bind fun isAsync => ?_
    split
    · exact .bind fun _ => hfunction start true
    · exact .bind fun _ => .pure rfl
  · exact .bind fun _ => .pure rfl
  · exact .bind fun _ => .pure rfl
  · exact hother _
  · exact hother _
  · exact .bind fun _ => .bind fun _ => .pure rfl
  · exact .bind fun _ => .bind fun _ => .pure rfl
  · exact .bind fun _ => .bind fun _ => .bind fun _ => .bind fun _ => .bind fun _ => .pure rfl
  · exact .bind fun _ => .bind fun _ => .bind fun _ => .bind fun _ => .bind fun _ => .pure rfl
  · exact .bind fun _ => .bind fun _ => .bind fun _ => .bind fun _ => .bind fun _ => .pure rfl
  · exact hfunction start false
  · exact hother _
  · exact hword fun _ => rfl
  · exact hword fun _ => rfl
  · exact hword fun _ => rfl
  · exact hword fun _ => rfl
  · exact hword fun _ => rfl
  · refine .bind fun _ => .bind fun _ => .bind fun stays => ?_
    split
    · exact .bind fun _ => .pure rfl
    · exact .pure rfl

theorem isOperand_link? (allowsCalls : Bool) (e : Expr) :
    Only (link? g allowsCalls e) fun x => ∀ a ∈ x, IsOperand a := by
  have hsome {p : Parse Expr} (hp : Only p IsOperand) :
      Only (do return some (← p)) fun x => ∀ a ∈ x, IsOperand a :=
    hp.bind_of fun a ha => .pure (by simpa using ha)
  have hnone : Only (pure (none : Option Expr)) fun x => ∀ a ∈ x, IsOperand a := .pure (by simp)
  have hmember (isOptional : Bool) : Only (memberAccess e isOptional) IsOperand :=
    .bind fun _ => .bind fun _ => .pure rfl
  have hcall (isOptional : Bool) : Only (call g e isOptional) IsOperand :=
    .bind fun _ => .bind fun _ => .pure rfl
  have helement (isOptional : Bool) : Only (elementAccess g e isOptional) IsOperand := by
    refine .bind fun _ => ?_
    split
    all_goals exact .bind fun _ => .bind fun _ => .bind fun _ => .pure rfl
  have hoptional : Only (optionalLink g e) IsOperand := by
    refine .bind fun kind => ?_
    split
    · exact hcall true
    · exact helement true
    · exact hmember true
  have htagged : Only (taggedTemplate g e) IsOperand := .bind fun _ => .bind fun _ => .pure rfl
  refine .bind fun kind => ?_
  split
  · exact .bind fun _ => hsome (hmember false)
  · split
    · exact .bind fun _ => hsome hoptional
    · exact hnone
  · exact hsome (helement false)
  · split
    · exact hsome (hcall false)
    · exact hnone
  · exact hsome htagged
  · exact hsome htagged
  · exact hnone

theorem isOperand_construction : Only (construction g) IsOperand := by
  refine .bind fun start => .bind fun _ => .bind fun callee? => ?_
  split
  · exact .bind fun _ => .pure rfl
  · refine .bind fun kind => ?_
    split
    · exact .bind fun _ => .bind fun _ => .pure rfl
    · exact .bind fun _ => .bind fun _ => .pure rfl

theorem isOperand_access : Only (access g) IsOperand := by
  have hlinks (e : Expr) (he : IsOperand e) : Only (iterate (link? g true) e) IsOperand :=
    .iterate (isOperand_link? g true) he
  refine .bind fun kind => ?_
  split
  · exact (isOperand_construction g).bind_of hlinks
  · exact (isOperand_primary g).bind_of hlinks

/-- What is read as an operand is no operation of a chain. -/
theorem isOperand_unary : Only (unary g) IsOperand := by
  have hupdated : Only (updated g) IsOperand := by
    refine (isOperand_access g).bind_of fun e he => .bind fun kind => ?_
    split
    · refine .bind fun breaks => ?_
      split
      · exact .pure he
      · exact .bind fun _ => .bind fun _ => .pure rfl
    · exact .pure he
  refine .bind fun kind => ?_
  split
  · exact hupdated
  · refine .nested ?_ (.bind fun _ => .bind fun _ => .bind fun _ => .bind fun _ => .pure rfl)
    intro s e t h
    obtain ⟨id, -, rfl⟩ := map_eq_some.1 h
    rfl

end Operands

/-! ## Chains -/

/-- No operator that can continue a chain here binds tighter than `floor`. -/
def State.EndsChain (s : State) (floor : Nat) : Prop :=
  ∀ op, s.Continues op → ∀ n ∈ op.level?, n ≤ floor

theorem chainOperator?_cases {x : Option (BinaryOp × Nat)} (h : chainOperator? s = some (x, t)) :
    t = s ∧ ∀ op n, x = some (op, n) ↔ s.Continues op ∧ op.level? = some n := by
  rw [chainOperator?, get_bind, current_bind] at h
  cases htoken : BinaryOp.ofToken? s.lexer.kind with
  | none =>
    rw [htoken] at h
    obtain ⟨rfl, rfl⟩ := pure_eq_some.1 h
    refine ⟨rfl, fun op n => ⟨by simp, fun hop => ?_⟩⟩
    rw [hop.1.token] at htoken
    cases htoken
  | some op' =>
    rw [htoken] at h
    obtain ⟨rfl, rfl⟩ := pure_eq_some.1 h
    refine ⟨rfl, fun op n => ⟨fun hx => ?_, ?_⟩⟩
    · split at hx
      · cases hx
      · rename_i hin
        obtain ⟨n', hn', heq⟩ := Option.map_eq_some_iff.1 hx
        obtain ⟨rfl, rfl⟩ := Prod.mk.inj heq
        exact ⟨⟨htoken, by simp [hn'], by simpa using hin⟩, hn'⟩
    · rintro ⟨⟨htoken', -, hallowed⟩, hn⟩
      obtain rfl : op' = op := Option.some.inj (htoken.symm.trans htoken')
      rw [if_neg (by simpa using hallowed), hn]
      rfl

/-- A step of a chain finds its end, or reads an operator and a chain of operators that bind
tighter. -/
theorem chainStep_cases {g : Rules} {left : Expr} {x : Option Expr}
    (h : chainStep g floor left s = some (x, t)) :
    (x = none ∧ t = s ∧ s.EndsChain floor) ∨
      ∃ op n right, x = some (.binary ⟨left.range.start, t.previousEnd⟩ op s.lexer.range left right) ∧
        s.Continues op ∧ op.level? = some n ∧ floor < n ∧
        g.chain (rightFloor op n) s.advanced = some (right, t) := by
  obtain ⟨y, s₁, hoperator, hstep⟩ := bind_eq_some.1 h
  obtain ⟨rfl, hy⟩ := chainOperator?_cases hoperator
  split at hstep
  · rename_i op n
    obtain ⟨hop, hlevel⟩ := (hy op n).1 rfl
    split at hstep
    · rename_i hfloor
      obtain ⟨e, s₂, hoperation, hstep⟩ := bind_eq_some.1 hstep
      obtain ⟨rfl, rfl⟩ := pure_eq_some.1 hstep
      rw [operation, tokenRange_bind, advance_bind] at hoperation
      obtain ⟨right, s₃, hright, hoperation⟩ := bind_eq_some.1 hoperation
      rw [rangeFrom_bind] at hoperation
      obtain ⟨rfl, rfl⟩ := pure_eq_some.1 hoperation
      exact .inr ⟨op, n, right, rfl, hop, hlevel, hfloor, hright⟩
    · rename_i hfloor
      obtain ⟨rfl, rfl⟩ := pure_eq_some.1 hstep
      refine .inl ⟨rfl, rfl, fun op' hop' n' hn' => ?_⟩
      obtain ⟨rfl, rfl⟩ := Prod.mk.inj (Option.some.inj ((hy op' n').2 ⟨hop', hn'⟩))
      omega
  · obtain ⟨rfl, rfl⟩ := pure_eq_some.1 hstep
    refine .inl ⟨rfl, rfl, fun op hop n hn => ?_⟩
    cases (hy op n).2 ⟨hop, hn⟩

/-- The expression `e` is the tree of the chain that is read from `s` to `t`, grouped by how tightly
its operators bind, and they all bind tighter than `floor`. -/
structure Chained (floor : Nat) (s : State) (e : Expr) (t : State) : Prop where
  reads : ReadsChain s e.grouping.yield t
  grouped : e.grouping.Grouped
  above : ∀ k ∈ e.grouping.level?, floor < k

/-- The next operator was left over by the right operand of `e`, if `e` is an operation. -/
def State.EndsRight (s : State) (e : Expr) : Prop :=
  ∀ op place left right n, e.grouping = .node op place left right → op.level? = some n →
    s.EndsChain (rightFloor op n)

section Levels

variable {op op' : BinaryOp} {n n' : Nat}

/-- An operator that the right operand of another one left over takes that other one on its left. -/
theorem takesLeft_of_le (hop : op.level? = some n) (hop' : op'.level? = some n')
    (h : n' ≤ rightFloor op n) : Grouping.TakesLeft op' n' n := by
  obtain ⟨-, hle, hpower⟩ := Grouping.level?_bounds hop
  obtain ⟨-, hle', hpower'⟩ := Grouping.level?_bounds hop'
  unfold rightFloor at h
  unfold Grouping.TakesLeft
  simp only [hpower, hpower'] at h ⊢
  split at h <;> split <;> omega

theorem takesRight_of_lt (h : rightFloor op n < n') : Grouping.TakesRight op n n' := by
  unfold rightFloor at h
  unfold Grouping.TakesRight
  split at h <;> simp_all
  omega

end Levels

/-- One more operator and its right operand. -/
theorem Chained.step {n : Nat} {t' : State} {left right : Expr} {op : BinaryOp}
    (hleft : Chained floor s left t) (hends : t.EndsRight left) (hop : t.Continues op)
    (hlevel : op.level? = some n) (hfloor : floor < n)
    (hright : Chained (rightFloor op n) t.advanced right t') (range : Range) :
    Chained floor s (.binary range op t.lexer.range left right) t' := by
  have htree := Expr.grouping_binary hop.level range t.lexer.range left right
  refine ⟨?_, ?_, ?_⟩
  · rw [htree]
    exact hleft.reads.join hop hright.reads
  · rw [htree]
    refine .node hlevel (fun k hk => ?_) (fun k hk => takesRight_of_lt (hright.above k hk))
      hleft.grouped hright.grouped
    cases hroot : left.grouping with
    | operand e =>
      rw [hroot] at hk
      cases hk
    | node op' place l r =>
      rw [hroot] at hk
      exact takesLeft_of_le hk hlevel (hends op' place l r k hroot hk op hop n hlevel)
  · intro k hk
    rw [htree] at hk
    obtain rfl : n = k := Option.some.inj (hlevel.symm.trans hk)
    exact hfloor

/-- A chain is read as its tree if the chains in its right operands are. -/
theorem chained_of_rules (bound : Nat) (hrules : ∀ floor s e t,
      (rules bound).chain floor s = some (e, t) → Chained floor s e t ∧ t.EndsChain floor)
    {e : Expr} (h : chain (rules bound) floor s = some (e, t)) :
    Chained floor s e t ∧ t.EndsChain floor := by
  obtain ⟨first, s₁, hfirst, hloop⟩ := bind_eq_some.1 h
  have htree : first.grouping = .operand first := isOperand_unary _ _ _ _ hfirst
  -- What was read so far is a tree, and the next operator takes it on its left.
  refine iterate_keeps (P := fun e t => Chained floor s e t ∧ t.EndsRight e)
    (Q := fun e t => Chained floor s e t ∧ t.EndsChain floor) ?_ ?_ hloop ⟨⟨?_, ?_, ?_⟩, ?_⟩
  · rintro left x s₂ s₃ ⟨hleft, hends⟩ hstep
    obtain ⟨hx, -⟩ | ⟨op, n, right, hx, hop, hlevel, hfloor, hright⟩ := chainStep_cases hstep
    · cases hx
    · obtain rfl := Option.some.inj hx
      obtain ⟨hright, hend⟩ := hrules _ _ _ _ hright
      refine ⟨hleft.step hends hop hlevel hfloor hright _, ?_⟩
      intro op' place l r n' hroot hlevel'
      rw [Expr.grouping_binary hop.level] at hroot
      cases hroot
      obtain rfl : n = n' := Option.some.inj (hlevel.symm.trans hlevel')
      exact hend
  · rintro left s₂ s₃ ⟨hleft, -⟩ hstep
    obtain ⟨-, rfl, hend⟩ | ⟨op, n, right, hx, -⟩ := chainStep_cases hstep
    · exact ⟨hleft, hend⟩
    · cases hx
  · rw [htree]
    exact .operand hfirst
  · rw [htree]
    exact .operand first
  · rw [htree]
    rintro k ⟨⟩
  · intro op place l r n hroot
    rw [htree] at hroot
    cases hroot

/-- A chain of operators is read as its tree, up to an operator that does not bind tighter than the
floor. -/
theorem chained_chain {bound : Nat} {e : Expr} (h : chain (rules bound) floor s = some (e, t)) :
    Chained floor s e t ∧ t.EndsChain floor := by
  induction bound generalizing floor s t e with
  | zero => exact chained_of_rules 0 (fun _ _ _ _ h => by cases h) h
  | succ bound ih => exact chained_of_rules (bound + 1) (fun _ _ _ _ h => ih h) h

/-- With enough recursion a chain is read in every text. -/
theorem chain_ends {text : String} {bound : Nat} (hs : s.Sound text)
    (hbound : 2 * s.remaining + 3 ≤ bound) (floor : Nat) :
    ∃ e t, chain (rules bound) floor s = some (e, t) := by
  have : MovingRules (s.remaining + 1) (rules bound) := movingRules_rules (by omega)
  exact Moves.ends (n := s.remaining + 1) text s hs (by omega)

/-- **Chains.** With enough recursion a chain of operators is read in every text. What is read are
operands with operators between them, up to a token that is no operator of a chain; and the tree that
comes of it is the only one with these operands and operators in this order in which operators group
by how tightly they bind. -/
theorem chain_builds_one_tree (bound : Nat) (s : State) :
    (∀ text, s.Sound text → 2 * s.remaining + 3 ≤ bound →
      ∃ e t, chain (rules bound) 0 s = some (e, t)) ∧
    ∀ e t, chain (rules bound) 0 s = some (e, t) →
      ∃ c, ReadsChain s c t ∧ (∀ op, ¬ t.Continues op) ∧
        ∀ tree : Grouping, tree.yield = c ∧ tree.Grouped ↔ tree = e.grouping := by
  refine ⟨fun text hs hbound => chain_ends hs hbound 0, fun e t h => ?_⟩
  obtain ⟨hchained, hend⟩ := chained_chain h
  refine ⟨e.grouping.yield, hchained.reads, fun op hop => ?_, fun tree => ⟨fun htree => ?_, ?_⟩⟩
  · obtain ⟨n, hn⟩ := Option.isSome_iff_exists.1 hop.level
    have hpos := (Grouping.level?_bounds hn).1
    have hzero := hend op hop n hn
    omega
  · exact htree.2.eq_of_yield hchained.grouped htree.1
  · rintro rfl
    exact ⟨rfl, hchained.grouped⟩

/-- A chain in which levels rise and fall, with equal levels next to each other. -/
theorem mixed_chain_builds_one_tree :
    let text := "a - b * c ** d ** e < f in g"
    (State.ofText text).Sound text ∧
      ∃ e t c, chain (rules 64) 0 (.ofText text) = some (e, t) ∧ ReadsChain (.ofText text) c t ∧
        c.links.map (·.op) = [.subtract, .multiply, .power, .power, .less, .isIn] ∧
        ∀ tree : Grouping, tree.yield = c ∧ tree.Grouped ↔ tree = e.grouping := by
  intro text
  have hs := sound_ofText text
  obtain ⟨hends, hone⟩ := chain_builds_one_tree 64 (.ofText text)
  obtain ⟨e, t, h⟩ := hends text hs (by decide +kernel)
  obtain ⟨c, hreads, -, hunique⟩ := hone e t h
  have hops : (chain (rules 64) 0 (.ofText text)).map (·.1.grouping.yield.links.map (·.op)) =
      some [.subtract, .multiply, .power, .power, .less, .isIn] := by decide +kernel
  rw [h, Option.map_some, Option.some.injEq, ((hunique _).2 rfl).1] at hops
  exact ⟨hs, e, t, c, h, hreads, hops, hunique⟩

end Grammar

end LambdaLift
