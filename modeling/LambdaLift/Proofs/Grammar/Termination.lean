import LambdaLift.Proofs.Grammar.Progress

/-!
# Every text is read to its end

* `MovingRules n g`: the productions come to an end where less than `n` characters are left. Then
  everything that is put together from them does.
* `movingRules_rules`: a production occurs in itself only after a token was read, except that a
  statement can be an expression. So two levels of recursion for each character are enough.
* `reads_to_the_end`: reading comes to an end for every text, at the end of the text and with every
  construct that was entered left again.
-/

namespace LambdaLift

namespace Grammar

/-- The productions move on, and come to an end where less than `n` characters are left. -/
class MovingRules (n : Nat) (g : Rules) : Prop where
  statement : Moves n g.statement
  assignment : Moves n g.assignment
  chain (floor : Nat) : Moves n (g.chain floor)
  unary : Moves n g.unary
  access : Moves n g.access
  construction : MovesAt n (.keyword .new_) g.construction
  binding : Moves n g.binding

attribute [instance] MovingRules.statement MovingRules.assignment MovingRules.chain
  MovingRules.unary MovingRules.access MovingRules.construction MovingRules.binding

-- A production has as many parts as its instance has steps.
set_option synthInstance.maxSize 512

/-! ## Progress in loops -/

section Recovery

variable {text : String} {s s' : State}

theorem State.Sound.remaining_pos (h : s.Sound text) (hkind : s.lexer.kind ≠ .endOfFile) :
    0 < s.remaining :=
  Nat.zero_lt_of_lt (h.lexer.width hkind)

theorem State.Sound.kind_ne (h : s.Sound text) (hpos : 0 < s.remaining) :
    s.lexer.kind ≠ .endOfFile := by
  intro hkind
  rw [State.remaining, h.lexer.ends hkind] at hpos
  simp at hpos

/-- The offset tells whether something was read. -/
theorem Later.remaining_lt (h : Later s s') (hs : s.Sound text) (hs' : s'.Sound text)
    (hne : s'.offset ≠ s.offset) : s'.remaining < s.remaining := by
  refine Nat.lt_of_le_of_ne h.remaining fun heq => hne ?_
  exact (hs'.lexer.start.offset_eq_iff hs.lexer.start).2 heq

/-- A token that is read where reading has not moved on. -/
theorem State.Sound.remaining_advanced_lt (hs : s.Sound text) (hs' : s'.Sound text)
    (hkind : s.lexer.kind ≠ .endOfFile) (heq : s'.offset = s.offset) :
    s'.advanced.remaining < s.remaining := by
  have hsame : s'.remaining = s.remaining := (hs'.lexer.start.offset_eq_iff hs.lexer.start).1 heq
  have hpos := hs.remaining_pos hkind
  rw [← hsame]
  exact Grammar.remaining_advanced_lt hs' (hs'.kind_ne (by omega))

/-- Recovery reads a token, if nothing else did. -/
theorem recover_remaining_lt {s₁ s₂ : State} {u : Unit} (h : Later s s₁) (hs : s.Sound text)
    (hs₁ : s₁.Sound text) (hkind : s.lexer.kind ≠ .endOfFile)
    (hrecover : recover s.offset s₁ = some (u, s₂)) : s₂.remaining < s.remaining := by
  rw [recover, position_bind] at hrecover
  split at hrecover
  · have : Moves 0 (skipTo isRecoveryPoint) := moves_skipTo rfl
    obtain ⟨⟨⟩, s₃, hskip, hrecover⟩ := bind_eq_some.1 hrecover
    obtain ⟨hs₃, hlater⟩ := this.moves text s₁ _ s₃ hs₁ hskip
    have hlater := h.trans hlater hs hs₁
    rw [position_bind] at hrecover
    split at hrecover
    · cases hrecover
      exact hs.remaining_advanced_lt hs₃ hkind ‹_›
    · cases hrecover
      exact hlater.remaining_lt hs hs₃ ‹_›
  · cases hrecover
    exact h.remaining_lt hs hs₁ ‹_›

end Recovery

/-! ## Everything that is put together from the productions -/

section Names

variable {n : Nat} {kind : TokenKind}

instance : Moves n missingName := by unfold missingName; infer_instance
instance : Moves n word := by unfold word; infer_instance
instance : Moves n name := by unfold name; infer_instance
instance : Moves n name? := by unfold name?; infer_instance
instance : Moves n literal := by unfold literal; infer_instance
instance : Moves n missingLiteral := by unfold missingLiteral; infer_instance
instance : Moves n numberLiteral := by unfold numberLiteral; infer_instance
instance : Moves n functionWord := by unfold functionWord; infer_instance
instance : Moves n arrowModifier? := by unfold arrowModifier?; infer_instance
instance : Moves n memberWords := by unfold memberWords; infer_instance
instance : Moves n missingExpression := by unfold missingExpression; infer_instance
instance : Moves n missingStatement := by unfold missingStatement; infer_instance

theorem word_of_isWord {s : State} (h : s.lexer.kind.isWord = true) :
    word s = some (⟨⟨s.offset, s.lexer.here.offset⟩, s.lexer.value, false⟩, s.advanced) := by
  rw [word, current_bind, if_pos h]
  rfl

theorem name_of_identifier {s : State} (h : s.lexer.kind = .identifier) : name s = word s := by
  rw [name, current_bind, if_pos h]

instance [Present kind] : Opens n kind literal := by unfold literal; infer_instance
instance : Opens n (.keyword .function_) functionWord := by unfold functionWord; infer_instance

instance : Opens n .identifier name where
  takes text s a s' hs hkind _ h _ := by
    rw [name_of_identifier hkind, word_of_isWord (by rw [hkind]; rfl)] at h
    cases h
    exact remaining_advanced_lt hs (by simp [hkind])

end Names

section Rules

variable {n : Nat} (g : Rules) [MovingRules n g]

/-! ### Lists -/

instance (left : Expr) : Takes n Option.isNone (commaStep g left) := by
  refine .current_bind fun kind => ?_
  split
  · subst kind
    infer_instance
  · infer_instance

instance (left : Expr) : Moves n (commaStep g left) := by unfold commaStep; infer_instance
instance (first : Expr) : Moves n (commaChain g first) := by unfold commaChain; infer_instance
instance : Moves n (expression g) := by unfold expression; infer_instance
instance : Moves n (initializer g) := by unfold initializer; infer_instance
instance (isEnd : TokenKind → Bool) : Moves n (statementTurn g isEnd) := by
  unfold statementTurn; infer_instance

instance (isEnd : TokenKind → Bool) : Takes n Turn.isOver (statementTurn g isEnd) := by
  refine .current_bind fun kind => ?_
  split
  · infer_instance
  · constructor
    intro text s a s' hs hkind hn h _
    rw [position_bind] at h
    obtain ⟨stmt, s₁, hstmt, h⟩ := bind_eq_some.1 h
    obtain ⟨⟨⟩, s₂, hrecover, h⟩ := bind_eq_some.1 h
    cases h
    obtain ⟨hs₁, hlater⟩ := Moves.moves n text s stmt s₁ hs hstmt
    exact recover_remaining_lt hlater hs hs₁ (by simp_all) hrecover

instance (isEnd : TokenKind → Bool) : Moves n (statements g isEnd) := by
  unfold statements; infer_instance
instance : Moves n (block g) := by unfold block; infer_instance

/-! ### Names and patterns -/

instance : Moves n (propertyName g) := by
  unfold propertyName
  refine .bind fun _ => ?_
  split <;> infer_instance

instance (property : PropertyName) : Moves n (propertyTarget g property) := by
  unfold propertyTarget
  refine .bind fun _ => ?_
  split
  · infer_instance
  · split <;> infer_instance

instance : Moves n (objectPatternElement g) := by
  unfold objectPatternElement
  refine .bind fun _ => .bind fun _ => ?_
  split <;> infer_instance

instance : Moves n (objectPatternTurn g) := by
  unfold objectPatternTurn
  refine .bind fun _ => ?_
  split <;> infer_instance

instance : Takes n Turn.isOver (objectPatternTurn g) := by
  refine .current_bind fun kind => ?_
  split <;> infer_instance

instance : Moves n (objectPattern g) := by unfold objectPattern; infer_instance
instance : Moves n (arrayPatternElement g) := by unfold arrayPatternElement; infer_instance

instance : Moves n (arrayPatternTurn g) := by
  unfold arrayPatternTurn
  refine .bind fun _ => ?_
  split <;> infer_instance

instance : Takes n Turn.isOver (arrayPatternTurn g) := by
  refine .current_bind fun kind => ?_
  split <;> infer_instance

instance : Moves n (arrayPattern g) := by unfold arrayPattern; infer_instance

instance : Moves n (binding g) := by
  unfold binding
  refine .bind fun _ => ?_
  split <;> infer_instance

/-! ### Functions -/

instance : Moves n (parameter g) := by unfold parameter; infer_instance

instance : Moves n (parameterTurn g) := by
  unfold parameterTurn
  refine .bind fun _ => ?_
  split <;> infer_instance

instance : Takes n Turn.isOver (parameterTurn g) := by
  refine .current_bind fun kind => ?_
  split <;> infer_instance

instance : Moves n (parameters g) := by unfold parameters; infer_instance

instance (start : Nat) (isAsync isGenerator : Bool) (name : Option Ident) :
    Moves n (functionRest g start isAsync isGenerator name) := by
  unfold functionRest
  refine .bind fun _ => .bind fun body => ?_
  cases body
  infer_instance

instance (start : Nat) (isAsync mayBeNameless : Bool) :
    Moves n (functionDeclaration g start isAsync mayBeNameless) := by
  unfold functionDeclaration; infer_instance
instance (start : Nat) (isAsync : Bool) : Moves n (functionExpression g start isAsync) := by
  unfold functionExpression; infer_instance

instance : Moves n (arrowParameters? g) := by
  unfold arrowParameters?
  refine .bind fun _ => ?_
  split <;> infer_instance

instance : Moves n (arrowBody g) := by unfold arrowBody; infer_instance

instance : Moves n (arrowFunction? g) := by
  unfold arrowFunction?
  refine .bind fun _ => .bind fun _ => ?_
  split
  · infer_instance
  · refine .bind fun _ => ?_
    split <;> infer_instance

/-! ### Classes and object literals -/

instance (start : Nat) (words : MemberWords) (isStatic : Bool) (property : PropertyName) :
    Moves n (method g start words isStatic property) := by
  unfold method; infer_instance
instance (start : Nat) (isStatic : Bool) : Moves n (methodOrField g start isStatic) := by
  unfold methodOrField; infer_instance
instance : Moves n (classMember g) := by unfold classMember; infer_instance

instance : Moves n (memberTurn g) := by
  unfold memberTurn
  refine .bind fun _ => ?_
  split <;> infer_instance

instance : Takes n Turn.isOver (memberTurn g) := by
  refine .current_bind fun kind => ?_
  split
  · infer_instance
  · infer_instance
  · constructor
    intro text s a s' hs hkind hn h _
    rw [position_bind] at h
    obtain ⟨m, s₁, hmember, h⟩ := bind_eq_some.1 h
    obtain ⟨hs₁, hlater⟩ := Moves.moves n text s m s₁ hs hmember
    rw [position_bind] at h
    split at h
    · cases h
      exact hs.remaining_advanced_lt hs₁ (by simp_all) ‹_›
    · cases h
      exact hlater.remaining_lt hs hs₁ ‹_›

instance : Moves n (classMembers g) := by unfold classMembers; infer_instance
instance : Moves n (heritage g) := by unfold heritage; infer_instance
instance (kind : NodeKind) : Moves n (classLike g kind) := by unfold classLike; infer_instance

instance (start : Nat) (property : PropertyName) : Moves n (propertyValue g start property) := by
  unfold propertyValue
  refine .bind fun _ => ?_
  split
  · infer_instance
  · split <;> infer_instance

instance : Moves n (objectProperty g) := by unfold objectProperty; infer_instance

instance : Moves n (propertyTurn g) := by
  unfold propertyTurn
  refine .bind fun _ => ?_
  split <;> infer_instance

instance : Takes n Turn.isOver (propertyTurn g) := by
  refine .current_bind fun kind => ?_
  split <;> infer_instance

instance : Moves n (objectLiteral g) := by unfold objectLiteral; infer_instance

/-! ### Expressions -/

instance : Moves n (listElement g) := by unfold listElement; infer_instance

instance : Moves n (argumentTurn g) := by
  unfold argumentTurn
  refine .bind fun _ => ?_
  split <;> infer_instance

instance : Takes n Turn.isOver (argumentTurn g) := by
  refine .current_bind fun kind => ?_
  split <;> infer_instance

instance : Moves n (arguments g) := by unfold arguments; infer_instance

instance : Moves n (elementTurn g) := by
  unfold elementTurn
  refine .bind fun _ => ?_
  split <;> infer_instance

instance : Takes n Turn.isOver (elementTurn g) := by
  refine .current_bind fun kind => ?_
  split <;> infer_instance

instance : Moves n (arrayLiteral g) := by unfold arrayLiteral; infer_instance

instance : Moves n templateRest := by
  unfold templateRest
  refine .current_bind fun kind => ?_
  split
  · subst kind
    infer_instance
  · infer_instance

instance : Moves n (templateSpan g) := by
  unfold templateSpan
  refine .bind fun _ => .bind fun _ => .bind fun tail => ?_
  cases tail
  infer_instance

/-- A template goes on after a brace. -/
theorem takes_templateRest : Takes n (fun r => r.1 = .templateTail) templateRest where
  takes text s a s' hs _ h hover := by
    rw [templateRest, current_bind] at h
    split at h
    · rename_i hkind
      have hne : s.lexer.kind ≠ .endOfFile := by simp [hkind]
      obtain ⟨hs₁, -⟩ := hs.rescanTemplate hne
      cases h
      refine remaining_advanced_lt hs₁ (hs₁.kind_ne ?_)
      exact hs.remaining_pos hne
    · obtain ⟨⟨⟩, s₁, -, h⟩ := bind_eq_some.1 h
      cases h
      simp at hover

instance : Takes n Turn.isOver (templateSpan g) where
  takes text s a s' hs hn h hover := by
    rw [templateSpan, position_bind] at h
    obtain ⟨e, s₁, hexpression, h⟩ := bind_eq_some.1 h
    obtain ⟨⟨kind, lit⟩, s₂, hrest, h⟩ := bind_eq_some.1 h
    obtain ⟨hs₁, hlater⟩ := Moves.moves n text s e s₁ hs hexpression
    have hle := hlater.remaining
    obtain ⟨rfl, rfl⟩ := pure_eq_some.1 h
    have hkind : decide (kind = .templateTail) = false := by
      by_contra hkind
      simp_all [Turn.isOver]
    have hlt := takes_templateRest.takes text s₁ _ s' hs₁ (Nat.lt_of_le_of_lt hle hn) hrest hkind
    omega

instance : Moves n (template g) := by unfold template; infer_instance
instance : Moves n (parenthesized g) := by unfold parenthesized; infer_instance
instance (make : Range → Expr) : Moves n (keywordExpression make) := by
  unfold keywordExpression; infer_instance

instance : Moves n (primary g) := by
  unfold primary
  refine .bind fun start => .current_bind fun kind => ?_
  split <;> infer_instance

instance (e : Expr) (isOptional : Bool) : Moves n (memberAccess e isOptional) := by
  unfold memberAccess; infer_instance
instance (e : Expr) (isOptional : Bool) : Moves n (elementAccess g e isOptional) := by
  unfold elementAccess; infer_instance
instance (e : Expr) (isOptional : Bool) : Moves n (call g e isOptional) := by
  unfold call; infer_instance
instance (e : Expr) : Moves n (taggedTemplate g e) := by unfold taggedTemplate; infer_instance

instance : Opens n (.punctuator .openParen) (arguments g) := by unfold arguments; infer_instance
variable {kind : TokenKind}

instance [Present kind] : Opens n kind (template g) := by
  unfold template; infer_instance
instance [Present kind] (e : Expr) (isOptional : Bool) :
    Opens n kind (elementAccess g e isOptional) := by
  unfold elementAccess; infer_instance
instance (e : Expr) (isOptional : Bool) : Opens n (.punctuator .openParen) (call g e isOptional) := by
  unfold call; infer_instance
instance [Present kind] (e : Expr) : Opens n kind (taggedTemplate g e) := by
  unfold taggedTemplate; infer_instance

instance (e : Expr) : Moves n (optionalLink g e) := by
  unfold optionalLink
  refine .bind fun _ => ?_
  split <;> infer_instance

instance (allowsCalls : Bool) (e : Expr) : Moves n (link? g allowsCalls e) := by
  unfold link?
  refine .bind fun _ => ?_
  split <;> infer_instance

instance (allowsCalls : Bool) (e : Expr) : Takes n Option.isNone (link? g allowsCalls e) := by
  refine .current_bind fun kind => ?_
  split <;> infer_instance

instance : Moves n (constructed g) := by
  unfold constructed
  refine .current_bind fun kind => ?_
  split
  · subst kind
    infer_instance
  · infer_instance

instance : Moves n (construction g) := by
  unfold construction
  refine .bind fun _ => .bind fun _ => .bind fun _ => ?_
  split <;> infer_instance

instance : Moves n (access g) := by unfold access; infer_instance

instance : Moves n (updated g) := by
  unfold updated
  refine .bind fun _ => .bind fun _ => ?_
  split <;> infer_instance

instance : Moves n (unary g) := by
  unfold unary
  refine .bind fun _ => ?_
  split <;> infer_instance

instance (op : BinaryOp) (left : Expr) (right : Parse Expr) [Moves n right] :
    Moves n (operation op left right) := by
  unfold operation; infer_instance

instance : Moves n chainOperator? := by
  unfold chainOperator?
  refine .bind fun _ => .bind fun _ => ?_
  split <;> infer_instance

instance [Present kind] (op : BinaryOp) (left : Expr) (right : Parse Expr) [Moves n right] :
    Opens n kind (operation op left right) := by
  unfold operation; infer_instance

/-- An operator is a token that can be read. -/
theorem chainOperator?_eq (s : State) :
    ∃ o, chainOperator? s = some (o, s) ∧ (o.isSome = true → Present s.lexer.kind) := by
  rw [chainOperator?, get_bind, current_bind]
  cases hop : BinaryOp.ofToken? s.lexer.kind with
  | none => exact ⟨none, rfl, by simp⟩
  | some op =>
    refine ⟨_, rfl, fun _ => ⟨fun hkind => ?_⟩⟩
    rw [hkind] at hop
    cases hop

theorem Takes.chainOperator {α : Type} {isOver : α → Bool} {f : Option (BinaryOp × Nat) → Parse α}
    (hf : ∀ kind o, (o.isSome = true → Present kind) → TakesAt n kind isOver (f o)) :
    Takes n isOver (chainOperator? >>= f) where
  takes text s a s' hs hn h hover := by
    obtain ⟨o, ho, hpresent⟩ := chainOperator?_eq s
    rw [bind_of_some ho] at h
    exact (hf _ o hpresent).takes text s a s' hs rfl hn h hover

theorem Moves.chainOperator {α : Type} {f : Option (BinaryOp × Nat) → Parse α}
    (hf : ∀ kind o, (o.isSome = true → Present kind) → MovesAt n kind (f o)) :
    Moves n (chainOperator? >>= f) where
  moves text s a s' hs h := by
    obtain ⟨o, ho, hpresent⟩ := chainOperator?_eq s
    rw [bind_of_some ho] at h
    exact (hf _ o hpresent).moves text s a s' hs rfl h
  ends text s hs hn := by
    obtain ⟨o, ho, hpresent⟩ := chainOperator?_eq s
    rw [bind_of_some ho]
    exact (hf _ o hpresent).ends text s hs rfl hn

instance (floor : Nat) (left : Expr) : Moves n (chainStep g floor left) := by
  unfold chainStep
  refine .bind fun _ => ?_
  split <;> infer_instance

instance (floor : Nat) (left : Expr) : Takes n Option.isNone (chainStep g floor left) := by
  refine .chainOperator fun kind o ho => ?_
  split
  · have := ho rfl
    infer_instance
  · infer_instance

instance (floor : Nat) : Moves n (chain g floor) := by unfold chain; infer_instance
instance : Moves n (conditional g) := by unfold conditional; infer_instance

instance : Moves n (assignment g) := by
  refine .nested inferInstance (.bind fun _ => ?_)
  split
  · infer_instance
  · refine .bind fun _ => .bind fun _ => ?_
    split <;> infer_instance

/-! ### Imports and exports -/

instance : Moves n moduleName := by unfold moduleName; infer_instance
instance (kind : NodeKind) : Moves n (specifier kind) := by unfold specifier; infer_instance
instance (kind : NodeKind) : Moves n (specifierTurn kind) := by unfold specifierTurn; infer_instance

instance (kind : NodeKind) : Takes n Turn.isOver (specifierTurn kind) := by
  unfold specifierTurn
  infer_instance

instance (kind : NodeKind) : Moves n (specifiers kind) := by unfold specifiers; infer_instance
instance : Moves n importedOthers := by unfold importedOthers; infer_instance
instance : Moves n importedNames := by unfold importedNames; infer_instance
instance : Moves n importClause := by unfold importClause; infer_instance
instance : Moves n importDeclaration := by unfold importDeclaration; infer_instance

instance : Moves n (exportedDefault g) := by
  unfold exportedDefault
  refine .bind fun _ => .bind fun _ => ?_
  split <;> infer_instance

instance : Moves n exportedAlias := by unfold exportedAlias; infer_instance
instance : Moves n exportedModule := by unfold exportedModule; infer_instance
instance : Moves n exportSource := by unfold exportSource; infer_instance
instance : Moves n exportedNames := by unfold exportedNames; infer_instance
instance : Leads n (exportedDeclaration g) := by unfold exportedDeclaration; infer_instance
instance : Leads n (exportedItems g) := by unfold exportedItems; infer_instance
instance : Leads n (exportDeclaration g) := by unfold exportDeclaration; infer_instance

instance : MovesAt (n + 1) (.keyword .export_) (exportDeclaration g) := by
  unfold exportDeclaration; infer_instance
instance : MovesAt n (.keyword .export_) (exportDeclaration g) := .of_succ inferInstance

/-! ### Statements -/

instance : Moves n (declarator g) := by unfold declarator; infer_instance

instance : Moves n (variableTurn g) := by
  unfold variableTurn
  refine .bind fun _ => ?_
  split <;> infer_instance

instance : Takes n Turn.isOver (variableTurn g) := by
  refine .current_bind fun kind => ?_
  split <;> infer_instance

instance : Moves n (variableList g) := by unfold variableList; infer_instance

instance : Moves n (variableStatement g) := by
  unfold variableStatement
  refine .bind fun _ => .bind fun list => ?_
  obtain ⟨_, _, _⟩ := list
  infer_instance

instance : Moves n (expressionStatement g) := by unfold expressionStatement; infer_instance
instance : Moves n (returnStatement g) := by unfold returnStatement; infer_instance
instance : Moves n (throwStatement g) := by unfold throwStatement; infer_instance
instance (kind : NodeKind) : Moves n (jumpStatement kind) := by unfold jumpStatement; infer_instance
instance : Moves n debuggerStatement := by unfold debuggerStatement; infer_instance
instance : Moves n (labeledStatement g) := by unfold labeledStatement; infer_instance
instance : Moves n (parenthesizedCondition g) := by unfold parenthesizedCondition; infer_instance
instance : Moves n (ifStatement g) := by unfold ifStatement; infer_instance
instance : Moves n (whileStatement g) := by unfold whileStatement; infer_instance
instance : Moves n (doStatement g) := by unfold doStatement; infer_instance
instance : Moves n (withStatement g) := by unfold withStatement; infer_instance

instance : Moves n (loopStart g) := by
  unfold loopStart
  refine .bind fun _ => ?_
  split <;> infer_instance

instance : Moves n memberLoop? := by unfold memberLoop?; infer_instance
instance (start : Nat) (kind : NodeKind) (init : Node) :
    Moves n (memberLoop g start kind init) := by
  unfold memberLoop; infer_instance
instance (kind : TokenKind) : Moves n (expressionUnless g kind) := by
  unfold expressionUnless; infer_instance
instance (start : Nat) (init : Option Node) : Moves n (countingLoop g start init) := by
  unfold countingLoop; infer_instance

instance : Moves n (forStatement g) := by
  unfold forStatement
  refine .bind fun _ => .bind fun _ => .bind fun _ => .bind fun _ => ?_
  split
  · refine .bind fun _ => ?_
    split <;> infer_instance
  · infer_instance

instance (start : Nat) (kind : NodeKind) (e : List Node) : Moves n (clauseBody g start kind e) := by
  unfold clauseBody; infer_instance

instance : Moves n (clauseTurn g) := by
  unfold clauseTurn
  refine .bind fun _ => .bind fun _ => ?_
  split <;> infer_instance

instance : Takes n Turn.isOver (clauseTurn g) := by
  refine .bind fun start => .current_bind fun kind => ?_
  split <;> infer_instance

instance : Moves n (switchStatement g) := by unfold switchStatement; infer_instance
instance : Moves n (catchBinding g) := by unfold catchBinding; infer_instance
instance : Moves n (catchClause? g) := by unfold catchClause?; infer_instance
instance : Moves n (finallyBlock? g) := by unfold finallyBlock?; infer_instance
instance : Moves n (tryStatement g) := by unfold tryStatement; infer_instance

instance (k : Keyword) : MovesAt n (.keyword k) (keywordStatement g k) := by
  unfold keywordStatement
  split <;> infer_instance

instance : Moves n (statementBody g) := by
  refine .bind fun _ => .current_bind fun kind => ?_
  split <;> infer_instance

instance : Moves n (statement g) := by unfold statement; infer_instance

instance : Moves n (program g) := by unfold program; infer_instance

end Rules

/-! ## Productions at a token of their own -/

section Fresh

variable {n : Nat} (g : Rules) [MovingRules n g]

instance : MovesAt (n + 1) (.punctuator .openParen) (arguments g) := by
  unfold arguments; infer_instance
instance : MovesAt (n + 1) (.punctuator .openParen) (parenthesized g) := by
  unfold parenthesized; infer_instance
instance : MovesAt (n + 1) (.punctuator .openParen) (parameters g) := by
  unfold parameters; infer_instance
instance : MovesAt (n + 1) (.punctuator .openBracket) (arrayLiteral g) := by
  unfold arrayLiteral; infer_instance
instance : MovesAt (n + 1) (.punctuator .openBracket) (arrayPattern g) := by
  unfold arrayPattern; infer_instance
instance : MovesAt (n + 1) (.punctuator .openBrace) (objectLiteral g) := by
  unfold objectLiteral; infer_instance
instance : MovesAt (n + 1) (.punctuator .openBrace) (objectPattern g) := by
  unfold objectPattern; infer_instance
instance : MovesAt (n + 1) (.punctuator .openBrace) (block g) := by unfold block; infer_instance
instance (start : Nat) (isAsync : Bool) :
    MovesAt (n + 1) (.keyword .function_) (functionExpression g start isAsync) := by
  unfold functionExpression; infer_instance
instance (start : Nat) (isAsync mayBeNameless : Bool) :
    MovesAt (n + 1) (.keyword .function_) (functionDeclaration g start isAsync mayBeNameless) := by
  unfold functionDeclaration; infer_instance
instance (kind : NodeKind) : MovesAt (n + 1) (.keyword .class_) (classLike g kind) := by
  unfold classLike; infer_instance
variable {kind : TokenKind}

instance [Present kind] : MovesAt (n + 1) kind (template g) := by
  unfold template; infer_instance
instance [Present kind] (e : Expr) (isOptional : Bool) :
    MovesAt (n + 1) kind (elementAccess g e isOptional) := by
  unfold elementAccess; infer_instance
instance (e : Expr) (isOptional : Bool) :
    MovesAt (n + 1) (.punctuator .openParen) (call g e isOptional) := by
  unfold call; infer_instance
instance [Present kind] (e : Expr) :
    MovesAt (n + 1) kind (taggedTemplate g e) := by
  unfold taggedTemplate; infer_instance

instance [Present kind] (op : BinaryOp) (left : Expr) (right : Parse Expr) [Moves n right] :
    MovesAt (n + 1) kind (operation op left right) := by
  unfold operation; infer_instance

instance [Present kind] (op : BinaryOp) (left : Expr) (right : Parse Expr) [Moves n right] :
    Opens (n + 1) kind (operation op left right) := by
  unfold operation; infer_instance
instance : Opens (n + 1) (.punctuator .openParen) (arguments g) := by
  unfold arguments; infer_instance
instance : Opens (n + 1) (.punctuator .openParen) (parameters g) := by
  unfold parameters; infer_instance
instance [Present kind] : Opens (n + 1) kind (template g) := by
  unfold template; infer_instance
instance [Present kind] (e : Expr) (isOptional : Bool) :
    Opens (n + 1) kind (elementAccess g e isOptional) := by
  unfold elementAccess; infer_instance
instance (e : Expr) (isOptional : Bool) :
    Opens (n + 1) (.punctuator .openParen) (call g e isOptional) := by
  unfold call; infer_instance
instance [Present kind] (e : Expr) : Opens (n + 1) kind (taggedTemplate g e) := by
  unfold taggedTemplate; infer_instance

instance : Moves (n + 1) (primary g) := by
  refine .bind fun start => .current_bind fun kind => ?_
  split <;> infer_instance

instance (allowsCalls : Bool) (e : Expr) : Moves (n + 1) (link? g allowsCalls e) := by
  refine .current_bind fun kind => ?_
  split <;> infer_instance

instance (allowsCalls : Bool) (e : Expr) : Takes (n + 1) Option.isNone (link? g allowsCalls e) := by
  refine .current_bind fun kind => ?_
  split <;> infer_instance

instance : MovesAt (n + 1) (.keyword .new_) (construction g) := by
  refine .position_bind fun start => .bind_opens fun _ => .bind fun _ => ?_
  split <;> infer_instance

instance : Moves (n + 1) (access g) := by
  refine .current_bind fun kind => ?_
  split
  · subst kind
    infer_instance
  · infer_instance

instance : Moves (n + 1) (updated g) := by
  refine .bind fun _ => .bind fun _ => ?_
  split <;> infer_instance

instance : Moves (n + 1) (unary g) := by
  refine .current_bind fun kind => ?_
  split
  · infer_instance
  · have : Present kind := ⟨by rintro rfl; contradiction⟩
    infer_instance

instance (floor : Nat) (left : Expr) : Moves (n + 1) (chainStep g floor left) := by
  refine .chainOperator fun kind o ho => ?_
  split
  · have := ho rfl
    infer_instance
  · infer_instance

instance (floor : Nat) (left : Expr) : Takes (n + 1) Option.isNone (chainStep g floor left) := by
  refine .chainOperator fun kind o ho => ?_
  split
  · have := ho rfl
    infer_instance
  · infer_instance

instance (floor : Nat) : Moves (n + 1) (chain g floor) := by unfold chain; infer_instance
instance : Moves (n + 1) (conditional g) := by unfold conditional; infer_instance

instance : Moves (n + 1) (binding g) := by
  refine .current_bind fun kind => ?_
  split <;> infer_instance

instance : Moves (n + 1) (arrowParameters? g) := by
  refine .current_bind fun kind => ?_
  split <;> infer_instance

instance : Takes (n + 1) Option.isNone (arrowParameters? g) := by
  refine .current_bind fun kind => ?_
  split <;> infer_instance

instance : Moves (n + 1) (arrowFunction? g) := by
  refine .bind fun start => .bind fun isAsync => ?_
  split
  · infer_instance
  · exact .bind_option inferInstance inferInstance

instance : Moves (n + 1) (assignment g) := by
  refine .nested inferInstance (.bind fun _ => ?_)
  split
  · infer_instance
  · refine .bind fun _ => .current_bind fun kind => ?_
    split
    · have : Present kind := ⟨by rintro rfl; contradiction⟩
      infer_instance
    · infer_instance

/-! ### Statements -/

instance (left : Expr) : Moves (n + 1) (commaStep g left) := by
  refine .current_bind fun kind => ?_
  split
  · subst kind
    infer_instance
  · infer_instance

instance (left : Expr) : Takes (n + 1) Option.isNone (commaStep g left) := by
  refine .current_bind fun kind => ?_
  split
  · subst kind
    infer_instance
  · infer_instance

instance (first : Expr) : Moves (n + 1) (commaChain g first) := by unfold commaChain; infer_instance

instance [Moves (n + 1) g.assignment] : Moves (n + 1) (expression g) := by
  unfold expression; infer_instance
instance [Moves (n + 1) g.assignment] : Moves (n + 1) (expressionStatement g) := by
  unfold expressionStatement; infer_instance

instance : MovesAt (n + 1) (.keyword .return_) (returnStatement g) := by
  unfold returnStatement; infer_instance
instance : MovesAt (n + 1) (.keyword .throw_) (throwStatement g) := by
  unfold throwStatement; infer_instance
instance : MovesAt (n + 1) .identifier (labeledStatement g) := by
  unfold labeledStatement; infer_instance
instance : MovesAt (n + 1) (.keyword .if_) (ifStatement g) := by unfold ifStatement; infer_instance
instance : MovesAt (n + 1) (.keyword .while_) (whileStatement g) := by
  unfold whileStatement; infer_instance
instance : MovesAt (n + 1) (.keyword .do_) (doStatement g) := by unfold doStatement; infer_instance
instance : MovesAt (n + 1) (.keyword .with_) (withStatement g) := by
  unfold withStatement; infer_instance
instance : MovesAt (n + 1) (.keyword .switch_) (switchStatement g) := by
  unfold switchStatement; infer_instance
instance : MovesAt (n + 1) (.keyword .try_) (tryStatement g) := by
  unfold tryStatement; infer_instance
instance [Present kind] : MovesAt (n + 1) kind (variableList g) := by
  unfold variableList; infer_instance

instance [Present kind] : MovesAt (n + 1) kind (variableStatement g) := by
  refine .position_bind fun _ => .bind fun list => ?_
  obtain ⟨_, _, _⟩ := list
  infer_instance

instance : MovesAt (n + 1) (.keyword .for_) (forStatement g) := by
  refine .position_bind fun start => .bind_opens fun _ => .bind fun _ => .bind fun _ => ?_
  split
  · refine .bind fun _ => ?_
    split <;> infer_instance
  · infer_instance

instance [Moves (n + 1) g.assignment] (k : Keyword) :
    MovesAt (n + 1) (.keyword k) (keywordStatement g k) := by
  unfold keywordStatement
  split <;> infer_instance

instance [Moves (n + 1) g.assignment] : Moves (n + 1) (statement g) := by
  refine .nested inferInstance (.bind fun start => .current_bind fun kind => ?_)
  split <;> infer_instance

end Fresh

/-! ## The grammar as a whole -/

instance (bound : Nat) : MovingRules 0 (rules bound) := by
  induction bound with
  | zero =>
    have hnone {α : Type} : Moves 0 (failure : Parse α) := .of_none fun _ => rfl
    exact ⟨hnone, hnone, fun _ => hnone, hnone, hnone, inferInstanceAs (MovesAt _ _ failure), hnone⟩
  | succ bound ih =>
    exact {
      statement := inferInstanceAs (Moves 0 (Grammar.statement (rules bound)))
      assignment := inferInstanceAs (Moves 0 (Grammar.assignment (rules bound)))
      chain := fun floor => inferInstanceAs (Moves 0 (Grammar.chain (rules bound) floor))
      unary := inferInstanceAs (Moves 0 (Grammar.unary (rules bound)))
      access := inferInstanceAs (Moves 0 (Grammar.access (rules bound)))
      construction := inferInstanceAs (MovesAt 0 _ (Grammar.construction (rules bound)))
      binding := inferInstanceAs (Moves 0 (Grammar.binding (rules bound))) }

/-- Two levels of recursion for each character are enough. -/
theorem movingRules_rules {n bound : Nat} (h : 2 * n + 1 ≤ bound) : MovingRules n (rules bound) := by
  induction n generalizing bound with
  | zero => infer_instance
  | succ n ih =>
    obtain ⟨b, rfl⟩ : ∃ b, bound = b + 2 := ⟨bound - 2, by omega⟩
    have := ih (show 2 * n + 1 ≤ b + 1 by omega)
    have := ih (show 2 * n + 1 ≤ b by omega)
    -- The expression that a statement can be is read one level below the statement.
    have : Moves (n + 1) (rules (b + 1)).assignment :=
      inferInstanceAs (Moves (n + 1) (Grammar.assignment (rules b)))
    exact {
      statement := inferInstanceAs (Moves (n + 1) (Grammar.statement (rules (b + 1))))
      assignment := inferInstanceAs (Moves (n + 1) (Grammar.assignment (rules (b + 1))))
      chain := fun floor => inferInstanceAs (Moves (n + 1) (Grammar.chain (rules (b + 1)) floor))
      unary := inferInstanceAs (Moves (n + 1) (Grammar.unary (rules (b + 1))))
      access := inferInstanceAs (Moves (n + 1) (Grammar.access (rules (b + 1))))
      construction := inferInstanceAs (MovesAt (n + 1) _ (Grammar.construction (rules (b + 1))))
      binding := inferInstanceAs (Moves (n + 1) (Grammar.binding (rules (b + 1)))) }

/-- Statements go on up to a token that ends them. -/
theorem statements_over {g : Rules} {isEnd : TokenKind → Bool} {s s' : State} {ss : List Stmt}
    (h : statements g isEnd s = some (ss, s')) :
    isEnd s'.lexer.kind = true ∨ s'.lexer.kind = .endOfFile := by
  have hmany (bound : Nat) (s : State) (ss : List Stmt)
      (h : manyWithin (statementTurn g isEnd) bound s = some (ss, s')) :
      isEnd s'.lexer.kind = true ∨ s'.lexer.kind = .endOfFile := by
    induction bound generalizing s ss with
    | zero => cases h
    | succ bound ih =>
      obtain ⟨t, s₁, hturn, h⟩ := bind_eq_some.1 h
      rw [statementTurn, current_bind] at hturn
      split at hturn
      · rename_i hend
        cases hturn
        cases h
        simpa using hend
      · rw [position_bind] at hturn
        obtain ⟨stmt, s₂, -, hturn⟩ := bind_eq_some.1 hturn
        obtain ⟨⟨⟩, s₃, -, hturn⟩ := bind_eq_some.1 hturn
        cases hturn
        obtain ⟨more, s₄, hmore, h⟩ := bind_eq_some.1 h
        cases h
        exact ih _ _ hmore
  exact hmany _ s ss h

/-- Looking for an arrow ends at the end of the text at the latest, so that how many tokens may be
looked at does not matter. -/
theorem arrowAfterBracketsWithin_of_lt {text : String} {l : Lexer} (hl : l.OnToken text)
    {bound bound' : Nat} (h : l.start.rest.length < bound) (h' : l.start.rest.length < bound')
    (depth : Nat) :
    arrowAfterBracketsWithin bound depth l = arrowAfterBracketsWithin bound' depth l := by
  induction bound generalizing bound' l depth with
  | zero => omega
  | succ bound ih =>
    obtain ⟨bound', rfl⟩ : ∃ b, bound' = b + 1 := ⟨bound' - 1, by omega⟩
    have hnext (hkind : l.kind ≠ .endOfFile) (depth : Nat) :
        arrowAfterBracketsWithin bound depth l.scan = arrowAfterBracketsWithin bound' depth l.scan := by
      have hwidth := hl.width hkind
      have hgap := (Lexer.here_le_scan_start l).2
      exact ih hl.scan (by omega) (by omega) depth
    rw [arrowAfterBracketsWithin, arrowAfterBracketsWithin]
    split <;> simp_all

/-- With enough recursion every text is read to its end. -/
theorem program_ends {text : String} {bound : Nat} (hbound : recursionBound text ≤ bound) :
    ∃ statements s, program (rules bound) (.ofText text) = some (statements, s) := by
  have hs := sound_ofText text
  have hlength : (State.ofText text).remaining ≤ text.length := hs.lexer.start.length_le
  have : MovingRules (text.length + 1) (rules bound) := by
    refine movingRules_rules ?_
    unfold recursionBound at hbound
    omega
  exact Moves.ends (n := text.length + 1) text _ hs (by omega)

/-- **Termination.** Every text is read to its end. Then the current token is the end of the text,
and every construct that was entered has been left: leaving one that was not entered would have
given nothing. The bounds on recursion and on looking ahead are never what stops reading. -/
theorem reads_to_the_end (text : String) :
    (∃ statements s, run? text = some (statements, s) ∧ s.lexer.kind = .endOfFile ∧ s.depth = 0 ∧
      ∀ file, Parsed.ofText file text = Parsed.ofRun file text statements s) ∧
    (∀ bound, recursionBound text ≤ bound →
      ∃ result, program (rules bound) (.ofText text) = some result) ∧
    ∀ l : Lexer, l.OnToken text → ∀ bound depth, l.start.rest.length < bound →
      arrowAfterBracketsWithin bound depth l =
        arrowAfterBracketsWithin (l.start.rest.length + 1) depth l := by
  refine ⟨?_, ?_, fun l hl bound depth hbound => arrowAfterBracketsWithin_of_lt hl hbound (by omega) depth⟩
  · obtain ⟨statements, s, hrun⟩ := program_ends (Nat.le_refl (recursionBound text))
    have hlater := (Moves.moves 0 text _ _ s (sound_ofText text) hrun).2
    refine ⟨statements, s, hrun, ?_, hlater.depth, fun file => ?_⟩
    · simpa using statements_over hrun
    · unfold Parsed.ofText run?
      rw [hrun]
  · intro bound hbound
    obtain ⟨statements, s, hrun⟩ := program_ends hbound
    exact ⟨_, hrun⟩

end Grammar

end LambdaLift
