import LambdaLift.Proofs.Grammar.Clean
import LambdaLift.Proofs.Grammar.Lockstep

/-!
# Reading depends on the tokens only

* `SyncRules ts g g'`: the productions keep in step. Then everything that is put together
  from them does.
* `reading_depends_on_tokens`: two texts with the same tokens have the same tree up to places, and
  the same reports in the same order, if no token is read again.
-/

namespace LambdaLift

namespace Grammar

open Lexer

-- A production has as many parts as its instance has steps.
set_option synthInstance.maxSize 4096

/-! ## What is seen from a token -/

section Looking

instance (word : String) : Steady (isName word) where
  eq ts k := by rw [isName, isName, (ts.same.token k).kind, (ts.same.token k).value]

instance : Steady arrowFollows where
  eq ts k := by
    rw [arrowFollows, arrowFollows, (ts.same.next k).kind, (ts.same.next k).lineBreakBefore]

instance : Steady isAsyncFunction where
  eq ts k := by
    simp only [isAsyncFunction, Steady.eq (f := isName "async") ts k, (ts.same.next k).kind,
      (ts.same.next k).lineBreakBefore]

instance : Steady isLabel where
  eq ts k := by rw [isLabel, isLabel, (ts.same.next k).kind]

instance : Steady modifiesMember where
  eq ts k := by rw [modifiesMember, modifiesMember, (ts.same.next k).kind]

instance : Steady endsStatement where
  eq ts k := by
    rw [endsStatement, endsStatement, (ts.same.token k).kind, (ts.same.token k).lineBreakBefore]

instance {f g : Lexer → Bool} [hf : Steady f] [hg : Steady g] : Steady fun l => f l && g l where
  eq ts k := by simp only [hf.eq ts k, hg.eq ts k]

instance : Steady fun l => !l.scan.lineBreakBefore where
  eq ts k := by simp only [(ts.same.next k).lineBreakBefore]

/-- The bracket that closes the first one is found alike, however far it is. -/
theorem arrowAfterBracketsWithin_same (ts : Texts) {bound bound' depth k : Nat}
    (hbound : (nth ts.left k).start.rest.length < bound)
    (hbound' : (nth ts.right k).start.rest.length < bound') :
    arrowAfterBracketsWithin bound depth (nth ts.left k) =
      arrowAfterBracketsWithin bound' depth (nth ts.right k) := by
  induction bound generalizing bound' depth k with
  | zero => omega
  | succ bound ih =>
    obtain ⟨bound', rfl⟩ : ∃ b, bound' = b + 1 := Nat.exists_eq_succ_of_ne_zero (by omega)
    have hkind := (ts.same.token k).kind
    by_cases hend : (nth ts.left k).kind = .endOfFile
    · rw [arrowAfterBracketsWithin, arrowAfterBracketsWithin, ← hkind, hend]
    · have hmore (depth : Nat) : arrowAfterBracketsWithin bound depth (nth ts.left k).scan =
          arrowAfterBracketsWithin bound' depth (nth ts.right k).scan := by
        have hlt := remaining_nth_succ_lt hend
        have hlt' := remaining_nth_succ_lt (hkind ▸ hend)
        rw [← nth_succ, ← nth_succ]
        exact ih (by omega) (by omega)
      simp only [arrowAfterBracketsWithin, ← hkind, hmore, Steady.eq (f := arrowFollows) ts k]

instance : Steady arrowAfterBrackets where
  eq ts _ := arrowAfterBracketsWithin_same ts (Nat.lt_succ_self _) (Nat.lt_succ_self _)

instance : Steady asyncArrowFollows where
  eq ts k := by
    have harrow : arrowFollows (nth ts.left k).scan = arrowFollows (nth ts.right k).scan := by
      rw [← nth_succ, ← nth_succ]
      exact Steady.eq ts (k + 1)
    have hbrackets : arrowAfterBrackets (nth ts.left k).scan = arrowAfterBrackets (nth ts.right k).scan := by
      rw [← nth_succ, ← nth_succ]
      exact Steady.eq ts (k + 1)
    simp only [asyncArrowFollows, (ts.same.next k).kind, (ts.same.next k).lineBreakBefore, harrow,
      hbrackets]

end Looking

/-! ## Results that are taken apart -/

section Results

variable {α β γ : Type} [Related α] [Related β] [Related γ] {ts : Texts}

theorem Sync.bind_option {p q : Parse (Option α)} {f g : Option α → Parse γ} [Leads 0 p]
    [Sync ts p q] (hf : ∀ a, Leads 0 (f a)) (hnone : Sync ts (f none) (g none))
    (hsome : ∀ x : Twin ts α, Sync ts (f (some x.left)) (g (some x.right))) :
    Sync ts (p >>= f) (q >>= g) :=
  .bind hf fun a b hab => by
    cases hab with
    | none => exact hnone
    | some hab => exact hsome ⟨_, _, hab⟩

end Results

/-! ## Everything that is put together from the productions -/

/-- The productions keep in step. -/
class SyncRules (ts : Texts) (g g' : Rules) : Prop where
  statement : Sync ts g.statement g'.statement
  assignment : Sync ts g.assignment g'.assignment
  chain (floor : Nat) : Sync ts (g.chain floor) (g'.chain floor)
  unary : Sync ts g.unary g'.unary
  access : Sync ts g.access g'.access
  construction : Sync ts g.construction g'.construction
  binding : Sync ts g.binding g'.binding

attribute [instance] SyncRules.statement SyncRules.assignment SyncRules.chain SyncRules.unary
  SyncRules.access SyncRules.construction SyncRules.binding

section Names

variable {ts : Texts}

instance (word : String) : Sync ts (expectName word) (expectName word) := by
  unfold expectName; infer_instance
instance : Sync ts missingName missingName := by unfold missingName; infer_instance
instance : Sync ts word word := by unfold word; infer_instance
instance : Sync ts name name := by unfold name; infer_instance
instance : Sync ts name? name? := by unfold name?; infer_instance
instance : Sync ts literal literal := by unfold literal; infer_instance
instance : Sync ts missingLiteral missingLiteral := by unfold missingLiteral; infer_instance
instance : Sync ts numberLiteral numberLiteral := by unfold numberLiteral; infer_instance
instance : Sync ts functionWord functionWord := by unfold functionWord; infer_instance
instance : Sync ts arrowModifier? arrowModifier? := by unfold arrowModifier?; infer_instance
instance : Sync ts missingStatement missingStatement := by unfold missingStatement; infer_instance

end Names

section Rules

variable {ts : Texts} (g g' : Rules) [MovingRules 0 g] [Moves 0 g.construction]
  [SyncRules ts g g']

/-! ### Lists -/

instance (x : Twin ts Expr) : Sync ts (commaStep g x.left) (commaStep g' x.right) := by
  unfold commaStep; infer_instance
variable {e e' : Expr} {start start' : Nat} {n n' : PropertyName} {α : Type}

instance [Akin ts e e'] : Sync ts (commaChain g e) (commaChain g' e') := by
  unfold commaChain; infer_instance
instance : Sync ts (expression g) (expression g') := by unfold expression; infer_instance
instance : Sync ts (initializer g) (initializer g') := by unfold initializer; infer_instance
instance (isEnd : TokenKind → Bool) : Sync ts (statementTurn g isEnd) (statementTurn g' isEnd) := by
  unfold statementTurn; infer_instance
instance (isEnd : TokenKind → Bool) : Sync ts (statements g isEnd) (statements g' isEnd) := by
  unfold statements; infer_instance
instance : Sync ts (block g) (block g') := by unfold block; infer_instance

/-! ### Names and patterns -/

instance : Sync ts (propertyName g) (propertyName g') := by
  unfold propertyName
  refine .current_bind fun _ => ?_
  split <;> infer_instance

/-- Names of properties that are alike are of the same form. -/
theorem PropertyName.like_cases (h : Akin ts n n') :
    (∃ x : Twin ts Ident, n = .word x.left ∧ n' = .word x.right) ∨
      (∀ id, n ≠ .word id) ∧ ∀ id, n' ≠ .word id := by
  have heq := h.unplaced_eq
  cases n with
  | word id =>
    cases n' with
    | word id' => exact .inl ⟨⟨id, id', PropertyName.word.inj heq, h.start⟩, rfl, rfl⟩
    | _ => cases heq
  | _ =>
    cases n' with
    | word id' => cases heq
    | _ => exact .inr ⟨by simp, by simp⟩

instance [h : Akin ts n n'] :
    Sync ts (propertyTarget g n) (propertyTarget g' n') := by
  unfold propertyTarget
  refine .bind_same (fun _ => ?_) fun _ => ?_
  · split
    · infer_instance
    · split <;> infer_instance
  · split
    · infer_instance
    · obtain ⟨x, rfl, rfl⟩ | ⟨hn, hn'⟩ := PropertyName.like_cases h
      · infer_instance
      · split
        · exact absurd rfl (hn _)
        · infer_instance

instance : Sync ts (objectPatternElement g) (objectPatternElement g') := by
  unfold objectPatternElement
  refine .position_bind fun _ => .bind_option (fun _ => ?_) inferInstance fun _ => inferInstance
  split <;> infer_instance

instance : Sync ts (objectPatternTurn g) (objectPatternTurn g') := by
  unfold objectPatternTurn
  refine .current_bind fun _ => ?_
  split <;> infer_instance

instance : Sync ts (objectPattern g) (objectPattern g') := by unfold objectPattern; infer_instance
instance : Sync ts (arrayPatternElement g) (arrayPatternElement g') := by
  unfold arrayPatternElement; infer_instance

instance : Akin ts (Turn.next Node.hole) (.next .hole) := ⟨rfl⟩

instance : Sync ts (arrayPatternTurn g) (arrayPatternTurn g') := by
  unfold arrayPatternTurn
  refine .current_bind fun _ => ?_
  split <;> infer_instance

instance : Sync ts (arrayPattern g) (arrayPattern g') := by unfold arrayPattern; infer_instance

instance : Sync ts (binding g) (binding g') := by
  unfold binding
  refine .current_bind fun _ => ?_
  split <;> infer_instance

/-! ### Functions -/

instance : Sync ts (parameter g) (parameter g') := by unfold parameter; infer_instance

instance : Sync ts (parameterTurn g) (parameterTurn g') := by
  unfold parameterTurn
  refine .current_bind fun _ => ?_
  split <;> infer_instance

instance : Sync ts (parameters g) (parameters g') := by unfold parameters; infer_instance

instance {name name' : Option Ident} [Akin ts start start'] [Akin ts name name']
    (isAsync isGenerator : Bool) :
    Sync ts (functionRest g start isAsync isGenerator name)
    (functionRest g' start' isAsync isGenerator name') := by
  unfold functionRest
  infer_instance

instance [Akin ts start start'] (isAsync mayBeNameless : Bool) :
    Sync ts (functionDeclaration g start isAsync mayBeNameless)
    (functionDeclaration g' start' isAsync mayBeNameless) := by
  unfold functionDeclaration; infer_instance

instance [Akin ts start start'] (isAsync : Bool) :
    Sync ts (functionExpression g start isAsync) (functionExpression g' start' isAsync) := by
  unfold functionExpression; infer_instance

instance : Sync ts (arrowParameters? g) (arrowParameters? g') := by
  unfold arrowParameters?
  refine .current_bind fun _ => ?_
  split <;> infer_instance

instance : Sync ts (arrowBody g) (arrowBody g') := by unfold arrowBody; infer_instance

instance : Sync ts (arrowFunction? g) (arrowFunction? g') := by
  unfold arrowFunction?
  refine .position_bind fun _ => .bind_same (fun _ => ?_) fun _ => ?_
  · split
    · infer_instance
    · refine .bind fun _ => ?_
      split <;> infer_instance
  · split
    · infer_instance
    · refine .bind_option (fun _ => ?_) inferInstance fun _ => inferInstance
      split <;> infer_instance

/-! ### Classes and object literals -/

instance : Related MemberWords := .ofEq MemberWords
instance : Placeless MemberWords := ⟨fun _ _ _ => .rfl⟩
instance : Sync ts memberWords memberWords := by unfold memberWords; infer_instance

instance [Akin ts start start'] [Akin ts n n'] (words : MemberWords) (isStatic : Bool) :
    Sync ts (method g start words isStatic n) (method g' start' words isStatic n') := by
  unfold method; infer_instance

instance [Akin ts start start'] (isStatic : Bool) :
    Sync ts (methodOrField g start isStatic) (methodOrField g' start' isStatic) := by
  unfold methodOrField; infer_instance

instance : Sync ts (classMember g) (classMember g') := by unfold classMember; infer_instance

instance : Sync ts (memberTurn g) (memberTurn g') := by
  unfold memberTurn
  refine .current_bind fun _ => ?_
  split <;> infer_instance

instance : Sync ts (classMembers g) (classMembers g') := by unfold classMembers; infer_instance
instance : Sync ts (heritage g) (heritage g') := by unfold heritage; infer_instance
instance (kind : NodeKind) : Sync ts (classLike g kind) (classLike g' kind) := by
  unfold classLike; infer_instance

instance [Akin ts start start'] [h : Akin ts n n'] :
    Sync ts (propertyValue g start n) (propertyValue g' start' n') := by
  unfold propertyValue
  refine .bind_same (fun _ => ?_) fun _ => ?_
  · split
    · infer_instance
    · split <;> infer_instance
  · split
    · infer_instance
    · obtain ⟨x, rfl, rfl⟩ | ⟨hn, hn'⟩ := PropertyName.like_cases h
      · infer_instance
      · split
        · exact absurd rfl (hn _)
        · infer_instance

instance : Sync ts (objectProperty g) (objectProperty g') := by
  unfold objectProperty; infer_instance

instance : Sync ts (propertyTurn g) (propertyTurn g') := by
  unfold propertyTurn
  refine .current_bind fun _ => ?_
  split <;> infer_instance

instance : Sync ts (objectLiteral g) (objectLiteral g') := by unfold objectLiteral; infer_instance

/-! ### Expressions -/

instance : Sync ts (listElement g) (listElement g') := by unfold listElement; infer_instance

instance : Sync ts (argumentTurn g) (argumentTurn g') := by
  unfold argumentTurn
  refine .current_bind fun _ => ?_
  split <;> infer_instance

instance : Sync ts (arguments g) (arguments g') := by unfold arguments; infer_instance

instance : Sync ts (elementTurn g) (elementTurn g') := by
  unfold elementTurn
  refine .current_bind fun _ => ?_
  split <;> infer_instance

instance : Sync ts (arrayLiteral g) (arrayLiteral g') := by unfold arrayLiteral; infer_instance

/-- Nothing is said of a step that reads a token again. -/
theorem Sync.of_reread [Related α] {p q : Parse α}
    (h : ∀ s a s', p s = some (a, s') → ¬ s'.ReadsOnce) : Sync ts p q where
  sync s _ a _ s' _ _ hs _ honce := absurd honce (h s a s' hs)

instance : Sync ts templateRest templateRest := by
  refine .current_bind fun kind => ?_
  split
  · refine .of_reread fun s a s' hs honce => ?_
    cases hs
    exact absurd (honce _ List.mem_cons_self) (by simp [Lexer.token, Lexer.rescanTemplate, Lexer.reread,
      Quoted.isReread_templatePiece])
  · infer_instance

instance : Sync ts (templateSpan g) (templateSpan g') := by
  unfold templateSpan
  refine .position_bind fun _ => .bind (fun _ => ?_) fun e e' he => ?_
  · infer_instance
  · have : Akin ts e e' := ⟨he⟩
    refine .bind (fun _ => inferInstance) fun r r' hr => ?_
    obtain ⟨kind, lit⟩ := r
    obtain ⟨kind', lit'⟩ := r'
    obtain rfl : kind = kind' := hr.1
    have : Akin ts lit lit' := ⟨hr.2⟩
    infer_instance

instance : Sync ts (template g) (template g') := by unfold template; infer_instance
instance : Sync ts (parenthesized g) (parenthesized g') := by unfold parenthesized; infer_instance
instance (make : Range → Expr) [Wraps make] :
    Sync ts (keywordExpression make) (keywordExpression make) := by
  unfold keywordExpression; infer_instance

instance : Sync ts missingExpression missingExpression := by
  unfold missingExpression
  have (p : TokenKind → Bool) : Steady fun l => p l.kind :=
    ⟨fun ts k => congrArg p (ts.same.token k).kind⟩
  have := this fun kind => isRecoveryPoint kind || kind = .punctuator .closeParen ||
    kind = .punctuator .closeBracket || kind = .punctuator .semicolon
  infer_instance

/-- A regular expression is read again. -/
theorem Sync.rescanSlash_bind [Related α] {f h : Literal → α} :
    Sync ts (do rescanSlash; return f (← literal)) (do rescanSlash; return h (← literal)) := by
  refine .of_reread fun s a s' hs honce => ?_
  cases hs
  exact absurd (honce _ List.mem_cons_self) (by simp [Lexer.token, Lexer.rescanSlash, Lexer.reread,
    Quoted.regex, Quoted.lexeme, TokenKind.isReread])

instance : Sync ts (primary g) (primary g') := by
  unfold primary
  refine .position_bind fun _ => .current_bind fun _ => ?_
  split <;> first | infer_instance | exact .rescanSlash_bind

instance [Akin ts e e'] (isOptional : Bool) :
    Sync ts (memberAccess e isOptional) (memberAccess e' isOptional) := by
  unfold memberAccess; infer_instance
instance [Akin ts e e'] (isOptional : Bool) :
    Sync ts (elementAccess g e isOptional) (elementAccess g' e' isOptional) := by
  unfold elementAccess; infer_instance
instance [Akin ts e e'] (isOptional : Bool) :
    Sync ts (call g e isOptional) (call g' e' isOptional) := by
  unfold call; infer_instance
instance [Akin ts e e'] : Sync ts (taggedTemplate g e) (taggedTemplate g' e') := by
  unfold taggedTemplate; infer_instance

instance [Akin ts e e'] : Sync ts (optionalLink g e) (optionalLink g' e') := by
  unfold optionalLink
  refine .current_bind fun _ => ?_
  split <;> infer_instance

instance [Akin ts e e'] (allowsCalls : Bool) :
    Sync ts (link? g allowsCalls e) (link? g' allowsCalls e') := by
  unfold link?
  refine .current_bind fun _ => ?_
  split <;> infer_instance

instance : Sync ts (constructed g) (constructed g') := by
  unfold constructed
  exact .current_bind fun _ => inferInstance

instance : Sync ts (construction g) (construction g') := by
  unfold construction
  refine .position_bind fun _ => .bind_same (fun _ => ?_) fun _ => ?_
  · refine .bind fun _ => ?_
    split <;> infer_instance
  · refine .bind_option (fun _ => ?_) inferInstance fun _ => ?_
    · split <;> infer_instance
    · infer_instance

instance : Sync ts (access g) (access g') := by unfold access; infer_instance

instance : Sync ts (updated g) (updated g') := by
  unfold updated
  refine .bind (fun _ => ?_) fun e e' he => ?_
  · refine .bind fun _ => ?_
    split <;> infer_instance
  · have : Akin ts e e' := ⟨he⟩
    refine .current_bind fun _ => ?_
    split <;> infer_instance

instance : Sync ts (unary g) (unary g') := by
  unfold unary
  refine .current_bind fun _ => ?_
  split <;> infer_instance

instance {p q : Parse Expr} [Akin ts e e'] [Moves 0 p] [Sync ts p q] (op : BinaryOp) :
    Sync ts (operation op e p) (operation op e' q) := by
  unfold operation; infer_instance

/-- The operator at the current token is the same on both texts. -/
theorem Sync.chainOperator_bind [Related α] {f h : Option (BinaryOp × Nat) → Parse α}
    (hfh : ∀ o, Sync ts (f o) (h o)) :
    Sync ts (chainOperator? >>= f) (chainOperator? >>= h) where
  sync s t a b s' t' hst hs ht honce := by
    obtain ⟨o, ho, ho'⟩ : ∃ o, chainOperator? s = some (o, s) ∧ chainOperator? t = some (o, t) := by
      simp only [chainOperator?, get_bind, Grammar.current_bind, ← hst.token.kind, ← hst.allowsIn]
      cases BinaryOp.ofToken? s.lexer.kind with
      | none => exact ⟨none, rfl, rfl⟩
      | some op => exact ⟨_, rfl, rfl⟩
    rw [bind_of_some ho] at hs
    rw [bind_of_some ho'] at ht
    exact (hfh o).sync s t a b s' t' hst hs ht honce

instance [Akin ts e e'] (floor : Nat) :
    Sync ts (chainStep g floor e) (chainStep g' floor e') := by
  refine .chainOperator_bind fun _ => ?_
  split <;> infer_instance

instance (floor : Nat) : Sync ts (chain g floor) (chain g' floor) := by unfold chain; infer_instance
instance : Sync ts (conditional g) (conditional g') := by unfold conditional; infer_instance

instance : Sync ts (assignment g) (assignment g') := by
  refine .nested inferInstance inferInstance (.bind_option (fun _ => ?_) ?_ fun _ => inferInstance)
  · split
    · infer_instance
    · refine .bind fun _ => .bind fun _ => ?_
      split <;> infer_instance
  · refine .bind (fun _ => ?_) fun e e' he => ?_
    · refine .bind fun _ => ?_
      split <;> infer_instance
    · have : Akin ts e e' := ⟨he⟩
      refine .current_bind fun _ => ?_
      split <;> infer_instance

/-! ### Imports and exports -/

instance : Sync ts moduleName moduleName := by unfold moduleName; infer_instance

instance {lit lit' : Literal} [Akin ts lit lit'] : Akin ts (moduleNode lit) (moduleNode lit') := by
  unfold moduleNode; infer_instance

instance (kind : NodeKind) : Sync ts (specifier kind) (specifier kind) := by
  unfold specifier; infer_instance
instance (kind : NodeKind) : Sync ts (specifierTurn kind) (specifierTurn kind) := by
  unfold specifierTurn; infer_instance
instance (kind : NodeKind) : Sync ts (specifiers kind) (specifiers kind) := by
  unfold specifiers; infer_instance
instance : Sync ts importedOthers importedOthers := by unfold importedOthers; infer_instance
instance : Sync ts importedNames importedNames := by unfold importedNames; infer_instance
instance : Sync ts importClause importClause := by unfold importClause; infer_instance
instance : Sync ts importDeclaration importDeclaration := by
  unfold importDeclaration; infer_instance

instance : Sync ts (exportedDefault g) (exportedDefault g') := by
  unfold exportedDefault
  refine .position_bind fun _ => .current_bind fun _ => ?_
  split <;> infer_instance

instance : Sync ts exportedAlias exportedAlias := by unfold exportedAlias; infer_instance
instance : Sync ts exportedModule exportedModule := by unfold exportedModule; infer_instance
instance : Sync ts exportSource exportSource := by unfold exportSource; infer_instance
instance : Sync ts exportedNames exportedNames := by unfold exportedNames; infer_instance

instance {s s' : Stmt} [h : Akin ts s s'] : Akin ts (isExportable s.kind) (isExportable s'.kind) :=
  ⟨congrArg isExportable (Stmt.kind_eq_of_akin h)⟩

instance : Sync ts (exportedDeclaration g) (exportedDeclaration g') := by
  unfold exportedDeclaration; infer_instance
instance : Sync ts (exportedItems g) (exportedItems g') := by unfold exportedItems; infer_instance
instance : Sync ts (exportDeclaration g) (exportDeclaration g') := by
  unfold exportDeclaration; infer_instance

/-! ### Statements -/

instance : Sync ts (declarator g) (declarator g') := by unfold declarator; infer_instance

instance : Sync ts (variableTurn g) (variableTurn g') := by
  unfold variableTurn
  refine .current_bind fun _ => ?_
  split <;> infer_instance

instance : Sync ts (variableList g) (variableList g') := by unfold variableList; infer_instance

instance : Sync ts (variableStatement g) (variableStatement g') := by
  unfold variableStatement
  infer_instance

instance : Sync ts (expressionStatement g) (expressionStatement g') := by
  unfold expressionStatement; infer_instance
instance : Sync ts (returnStatement g) (returnStatement g') := by
  unfold returnStatement; infer_instance
instance : Sync ts (throwStatement g) (throwStatement g') := by
  unfold throwStatement; infer_instance
instance (kind : NodeKind) : Sync ts (jumpStatement kind) (jumpStatement kind) := by
  unfold jumpStatement; infer_instance
instance : Sync ts debuggerStatement debuggerStatement := by
  unfold debuggerStatement; infer_instance
instance : Sync ts (labeledStatement g) (labeledStatement g') := by
  unfold labeledStatement; infer_instance
instance : Sync ts (parenthesizedCondition g) (parenthesizedCondition g') := by
  unfold parenthesizedCondition; infer_instance
instance : Sync ts (ifStatement g) (ifStatement g') := by unfold ifStatement; infer_instance
instance : Sync ts (whileStatement g) (whileStatement g') := by
  unfold whileStatement; infer_instance
instance : Sync ts (doStatement g) (doStatement g') := by unfold doStatement; infer_instance
instance : Sync ts (withStatement g) (withStatement g') := by unfold withStatement; infer_instance

instance : Sync ts (loopStart g) (loopStart g') := by
  unfold loopStart
  refine .current_bind fun _ => ?_
  split <;> infer_instance

instance : Sync ts memberLoop? memberLoop? := by unfold memberLoop?; infer_instance

instance {init init' : Node} [Akin ts start start'] [Akin ts init init'] (kind : NodeKind) :
    Sync ts (memberLoop g start kind init) (memberLoop g' start' kind init') := by
  unfold memberLoop; infer_instance

instance (kind : TokenKind) : Sync ts (expressionUnless g kind) (expressionUnless g' kind) := by
  unfold expressionUnless; infer_instance

instance {init init' : Option Node} [Akin ts start start'] [Akin ts init init'] :
    Sync ts (countingLoop g start init) (countingLoop g' start' init') := by
  unfold countingLoop; infer_instance

instance : Sync ts (forStatement g) (forStatement g') := by
  unfold forStatement
  refine .position_bind fun _ => .bind_same (fun _ => .bind fun _ => .bind fun init => ?_) fun _ =>
    .bind_same (fun _ => .bind fun init => ?_) fun _ => .bind_option (fun init => ?_) inferInstance
    fun _ => ?loop
  case loop =>
    refine .bind_same (fun _ => ?_) fun _ => ?_ <;> split <;> infer_instance
  all_goals
    split
    · refine .bind fun _ => ?_
      split <;> infer_instance
    · infer_instance

instance {ns ns' : List Node} [Akin ts start start'] [Akin ts ns ns'] (kind : NodeKind) :
    Sync ts (clauseBody g start kind ns) (clauseBody g' start' kind ns') := by
  unfold clauseBody; infer_instance

instance : Sync ts (clauseTurn g) (clauseTurn g') := by
  unfold clauseTurn
  refine .position_bind fun _ => .current_bind fun _ => ?_
  split <;> infer_instance

instance : Sync ts (switchStatement g) (switchStatement g') := by
  unfold switchStatement; infer_instance
instance : Sync ts (catchBinding g) (catchBinding g') := by unfold catchBinding; infer_instance
instance : Sync ts (catchClause? g) (catchClause? g') := by unfold catchClause?; infer_instance
instance : Sync ts (finallyBlock? g) (finallyBlock? g') := by unfold finallyBlock?; infer_instance
instance : Sync ts (tryStatement g) (tryStatement g') := by unfold tryStatement; infer_instance

instance (k : Keyword) : Sync ts (keywordStatement g k) (keywordStatement g' k) := by
  unfold keywordStatement
  split <;> infer_instance

instance : Sync ts (statementBody g) (statementBody g') := by
  unfold statementBody
  refine .position_bind fun _ => .current_bind fun _ => ?_
  split <;> infer_instance

instance : Sync ts (statement g) (statement g') := by unfold statement; infer_instance

instance : Sync ts (program g) (program g') := by unfold program; infer_instance

end Rules

/-! ## The grammar as a whole -/

instance (bound : Nat) : Moves 0 (rules bound).construction := by
  cases bound with
  | zero => exact .of_none fun _ => rfl
  | succ bound => exact inferInstanceAs (Moves 0 (construction (rules bound)))

/-- The productions keep in step, whatever the bounds on their recursion are. -/
theorem syncRules_rules (ts : Texts) (bound bound' : Nat) :
    SyncRules ts (rules bound) (rules bound') := by
  induction bound generalizing bound' with
  | zero =>
    have hnone {α : Type} [Related α] (q : Parse α) : Sync ts failure q :=
      ⟨fun _ _ _ _ _ _ _ hs => by cases hs⟩
    exact ⟨hnone _, hnone _, fun _ => hnone _, hnone _, hnone _, hnone _, hnone _⟩
  | succ bound ih =>
    cases bound' with
    | zero =>
      have hnone {α : Type} [Related α] (p : Parse α) : Sync ts p failure :=
        ⟨fun _ _ _ _ _ _ _ _ ht => by cases ht⟩
      exact ⟨hnone _, hnone _, fun _ => hnone _, hnone _, hnone _, hnone _, hnone _⟩
    | succ bound' =>
      have := ih bound'
      exact {
        statement := inferInstanceAs (Sync ts (statement (rules bound)) (statement (rules bound')))
        assignment :=
          inferInstanceAs (Sync ts (assignment (rules bound)) (assignment (rules bound')))
        chain := fun floor =>
          inferInstanceAs (Sync ts (chain (rules bound) floor) (chain (rules bound') floor))
        unary := inferInstanceAs (Sync ts (unary (rules bound)) (unary (rules bound')))
        access := inferInstanceAs (Sync ts (access (rules bound)) (access (rules bound')))
        construction :=
          inferInstanceAs (Sync ts (construction (rules bound)) (construction (rules bound')))
        binding := inferInstanceAs (Sync ts (binding (rules bound)) (binding (rules bound'))) }

theorem inStep_ofText (ts : Texts) : InStep ts (.ofText ts.left) (.ofText ts.right) where
  sound := sound_ofText ts.left
  lexer := ⟨0, rfl, rfl⟩
  readsOnce := by simp [State.ReadsOnce, State.ofText]
  reports := .nil
  depth := rfl
  isAborted := rfl
  allowsIn := rfl

/-- Reading the text reads no token again: no slash is the start of a regular expression, and no
brace ends a substitution in a template. -/
def ReadsOnce (text : String) : Prop :=
  ∀ statements s, run? text = some (statements, s) → s.ReadsOnce

end Grammar

/-! ## Reports in order -/

namespace Report

variable {ts : Texts}

instance (file : String) : Wraps (inFile file) := ⟨fun _ => rfl, fun _ => rfl⟩

theorem ordered_eq {a a' b b' : Report} (ha : Related.Like ts a a') (hb : Related.Like ts b b') :
    ordered a b = ordered a' b' := by
  obtain ⟨hfile, -⟩ := mk.inj ha.1
  obtain ⟨hfile', -⟩ := mk.inj hb.1
  have hle : a.span.start ≤ b.span.start ↔ a'.span.start ≤ b'.span.start :=
    SamePlace.le_iff ha.2 hb.2
  simp only [ordered, hfile, hfile', hle]

/-- Reports that are alike one by one are shown in the same order. -/
theorem map_unplaced_sort {rs rs' : List Report} (h : List.Forall₂ (Related.Like ts) rs rs') :
    (sort rs).map unplaced = (sort rs').map unplaced := by
  obtain ⟨hlength, hlike⟩ := List.forall₂_iff_zip.1 h
  -- Both lists are sorted by sorting the pairs of reports.
  have hleft : (rs.zip rs').map Prod.fst = rs := List.map_fst_zip (Nat.le_of_eq hlength)
  have hright : (rs.zip rs').map Prod.snd = rs' := List.map_snd_zip (Nat.le_of_eq hlength.symm)
  let before (a b : Report × Report) : Bool := ordered a.1 b.1
  have hsort : ((rs.zip rs').mergeSort before).map Prod.fst = sort rs :=
    (List.map_mergeSort (f := Prod.fst) fun _ _ _ _ => rfl).trans (congrArg sort hleft)
  have hsort' : ((rs.zip rs').mergeSort before).map Prod.snd = sort rs' :=
    (List.map_mergeSort fun a ha b hb => ordered_eq (hlike ha) (hlike hb)).trans
      (congrArg sort hright)
  rw [← hsort, ← hsort', List.map_map, List.map_map]
  exact List.map_congr_left fun a ha => (hlike (List.mem_mergeSort.1 ha)).1

end Report

namespace Parsed

/-- What was read, without places. -/
def unplaced (p : Parsed) : Parsed where
  file := p.file
  program := ⟨0, p.program.statements.map Stmt.unplaced⟩
  reports := p.reports.map Report.unplaced

/-- **Tokens only.** Of two texts with the same tokens, of which the first is read without reading a
token again, the trees are the same up to places, and so are the reports, in the same order. Both
texts are read to their ends, and no token is read again in the second one either. -/
theorem unplaced_eq_of_same_tokens (file : String) {text text' : String}
    (same : SameTokens text text') (honce : Grammar.ReadsOnce text) :
    (Grammar.run? text).isSome ∧ (Grammar.run? text').isSome ∧ Grammar.ReadsOnce text' ∧
      (ofText file text).unplaced = (ofText file text').unplaced := by
  obtain ⟨ss, s, hrun⟩ := Grammar.program_ends (Nat.le_refl (Grammar.recursionBound text))
  obtain ⟨ss', t, hrun'⟩ := Grammar.program_ends (Nat.le_refl (Grammar.recursionBound text'))
  change Grammar.run? text = some (ss, s) at hrun
  change Grammar.run? text' = some (ss', t) at hrun'
  let ts : Texts := ⟨text, text', same⟩
  have := Grammar.syncRules_rules ts (Grammar.recursionBound text)
    (Grammar.recursionBound text')
  obtain ⟨htrees, hst⟩ := Grammar.Sync.sync _ _ ss ss' s t (Grammar.inStep_ofText ts) hrun hrun'
    (honce ss s hrun)
  refine ⟨by rw [hrun]; rfl, by rw [hrun']; rfl, fun ss'' t' h => ?_, ?_⟩
  · obtain ⟨-, rfl⟩ : ss' = ss'' ∧ t = t' := by simpa [hrun'] using h
    exact hst.readsOnce
  · obtain ⟨k, hlexer, hlexer'⟩ := hst.lexer
    have hreports : List.Forall₂ (Related.Like ts) (s.reports.map (Report.inFile file))
        (t.reports.map (Report.inFile file)) :=
      List.rel_map (fun _ _ hr => Wraps.like hr) hst.reports
    rw [ofText_of_run? hrun, ofText_of_run? hrun', unplaced, unplaced]
    simp only [ofRun, hlexer, hlexer', ts.same.reports, ts.same.reports', List.nil_append,
      Report.map_unplaced_sort hreports, mk.injEq, Program.mk.injEq, true_and, and_true]
    exact htrees

/-- Comments and spaces change nothing about a text with two faults. -/
theorem unplaced_eq_of_spacing : SameTokens "f(a;\nexport 1" "f ( a /* b */; // c\n  export/**/ 1" ∧
      Grammar.ReadsOnce "f(a;\nexport 1" ∧
      (ofText "a.js" "f(a;\nexport 1").reports.length = 2 ∧
      (ofText "a.js" "f(a;\nexport 1").unplaced =
        (ofText "a.js" "f ( a /* b */; // c\n  export/**/ 1").unplaced := by
  have same : SameTokens "f(a;\nexport 1" "f ( a /* b */; // c\n  export/**/ 1" :=
    .of_end (n := 6) (by decide +kernel) (by decide +kernel) (by decide +kernel) (by decide +kernel)
  have hall : ((Grammar.run? "f(a;\nexport 1").all fun r =>
      r.2.tokens.all fun t => !t.kind.isReread) = true := by
    decide +kernel
  have honce : Grammar.ReadsOnce "f(a;\nexport 1" := by
    intro ss s hrun t ht
    rw [hrun] at hall
    simpa using List.all_eq_true.1 hall t ht
  have hfaults : ((Grammar.run? "f(a;\nexport 1").map fun r =>
      (r.2.lexer.reports ++ r.2.reports).length) = some 2 := by
    decide +kernel
  obtain ⟨⟨ss, s⟩, hrun, hlength⟩ := Option.map_eq_some_iff.1 hfaults
  refine ⟨same, honce, ?_, (unplaced_eq_of_same_tokens "a.js" same honce).2.2.2⟩
  rw [ofText_of_run? hrun, length_reports, hlength]

end Parsed

end LambdaLift
