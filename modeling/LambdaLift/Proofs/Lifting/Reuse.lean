import LambdaLift.Proofs.Lifting.Journal
import LambdaLift.Lifting.Basic

/-!
# Lifting one program after another

A lifter is used for many programs. It forgets the functions of a program before it goes on with
the next one, but it does not give out a ticket twice, and it may have stopped in the middle of a
function.

* `Registry.later k r`: the registry `r` if `k` more tickets had been given out before. Nothing but
  the tickets tells the two apart.
* `Lifting.Alongside φ m m'`: the step `m'` does with the state `φ s` what `m` does with `s`.
  `later_stmts`: lifting statements does so with all tickets given out later.
* `Lifter`: lifting with a counter in the state in place of the argument `nested`. It says how many
  functions the lifter is in. `Lifter.lift_eq`: the counter is as before after every step, also
  after one that failed, and the program and the registry are those of `Lifting.text`.
* `Lifter.lift_after_others`: a used lifter does what a new one does.
-/

namespace LambdaLift

/-! ## Tickets -/

namespace Registry

variable {β : Type}

/-- An entry with a ticket that was given out `k` tickets later. -/
def laterEntry (k : Nat) (e : Nat × LiftedFunction β) : Nat × LiftedFunction β :=
  (e.1 + k, e.2)

/-- The registry if `k` more tickets had been given out before. -/
def later (k : Nat) (r : Registry β) : Registry β :=
  ⟨r.entries.map (laterEntry k), r.issued + k⟩

variable (k : Nat) (r : Registry β)

/-- A registry without functions differs from a new one by the tickets that it gave out. -/
theorem clear_eq_later : r.clear = later r.issued {} := by
  simp [clear, later]

@[simp] theorem functions_later : (r.later k).functions = r.functions := by
  simp [functions, later, laterEntry, Function.comp_def]

@[simp] theorem get?_later (name : String) : (r.later k).get? name = r.get? name := by
  rw [get?, functions_later, get?]

@[simp] theorem appendedCaptures_later : (r.later k).appendedCaptures = r.appendedCaptures := by
  funext name count
  rw [appendedCaptures, get?_later, appendedCaptures]

@[simp] theorem appendedArguments_later :
    (r.later k).appendedArguments = r.appendedArguments := by
  funext name count
  rw [appendedArguments, get?_later, appendedArguments]

theorem nextTicket_later : (r.later k).nextTicket = r.nextTicket + k := rfl

theorem register_later (f : LiftedFunction β) :
    (r.later k).register f = (r.register f).later k := by
  have hplace : place (laterEntry k (r.issued, f)) (r.entries.map (laterEntry k)) =
      (place (r.issued, f) r.entries).map (laterEntry k) :=
    place_map (laterEntry k) (fun _ => rfl) (r.issued, f) r.entries
  simp only [register, later, Registry.mk.injEq]
  exact ⟨hplace, by omega⟩

/-- A body is taken with a ticket exactly if it is taken with the later ticket later. -/
theorem setBody_later (name : String) (ticket : Nat) (body : β) :
    (r.later k).setBody name (ticket + k) body = (r.setBody name ticket body).later k := by
  have hentry (e : Nat × LiftedFunction β) :
      giveBody name (ticket + k) body (laterEntry k e) =
        laterEntry k (giveBody name ticket body e) := by
    obtain ⟨t, f⟩ := e
    by_cases hname : f.name = name <;> by_cases hticket : t = ticket <;>
      simp [giveBody, laterEntry, hname, hticket]
  have hentries : ((r.later k).setBody name (ticket + k) body).entries =
      ((r.setBody name ticket body).later k).entries := by
    rw [setBody_entries, later, later, setBody_entries, List.map_map, List.map_map]
    exact List.map_congr_left fun e _ => hentry e
  exact congrArg (Registry.mk · (r.issued + k)) hentries

end Registry

namespace Lifting

open Registry (later)

/-! ## The same steps with later tickets -/

section

variable (k : Nat) (r : Functions)

mutual

theorem expr_later (e : Expr) : expr (later k r) e = expr r e := by
  cases e with
  | ident _ | number _ | string _ | boolean _ _ | null _ | other _ => rfl
  | paren _ e | unary _ _ e | update _ _ e => rw [expr, expr, expr_later e]
  | binary _ op _ a b => rw [expr, expr, expr_later a, expr_later b]
  | call _ _ f args =>
    rw [expr, expr, exprs_later args, Registry.appendedArguments_later]

theorem exprs_later (es : List Expr) : exprs (later k r) es = exprs r es := by
  cases es with
  | nil => rfl
  | cons e es => rw [exprs, exprs, expr_later e, exprs_later es]

end

theorem expr?_later (e : Option Expr) : expr? (later k r) e = expr? r e := by
  cases e with
  | none => rfl
  | some e => rw [expr?, expr?, expr_later]

theorem declarators_later (kind : VarKind) (ds : List Declarator) :
    declarators (later k r) kind ds = declarators r kind ds := by
  have hfirst : declarator (later k r) kind = declarator r kind := by
    funext d
    unfold declarator
    simp only [expr?_later]
  rw [declarators, hfirst, declarators]

end

/-- With the state `φ s`, the step `m'` does what `m` does with `s`, also if it fails. -/
def Alongside {σ τ α : Type} (φ : σ → τ) (m : ExceptT Unsupported (StateM σ) α)
    (m' : ExceptT Unsupported (StateM τ) α) : Prop :=
  ∀ s, m' (φ s) = ((m s).1, φ (m s).2)

namespace Alongside

variable {σ τ α β : Type} {φ : σ → τ}

theorem pure (a : α) : Alongside φ (pure a) (pure a) :=
  fun _ => rfl

/-- A check that does not look at the state. -/
theorem check (x : Except Unsupported α) : Alongside φ (liftM x) (liftM x) :=
  fun _ => rfl

theorem bind {m : ExceptT Unsupported (StateM σ) α} {m' : ExceptT Unsupported (StateM τ) α}
    {f : α → ExceptT Unsupported (StateM σ) β} {f' : α → ExceptT Unsupported (StateM τ) β}
    (hm : Alongside φ m m') (hf : ∀ a, Alongside φ (f a) (f' a)) :
    Alongside φ (m >>= f) (m' >>= f') := by
  intro s
  simp only [Bind.bind, ExceptT.bind, ExceptT.mk, StateT.bind, hm s]
  generalize m s = x
  obtain ⟨result, t⟩ := x
  cases result with
  | ok a => exact hf a t
  | error u => rfl

/-- Only `m'` looks at the state. -/
theorem look {m : ExceptT Unsupported (StateM σ) α} {f' : τ → ExceptT Unsupported (StateM τ) α}
    (hf : ∀ s, Alongside φ m (f' (φ s))) : Alongside φ m (get >>= f') :=
  fun s => hf s s

theorem get {f : σ → ExceptT Unsupported (StateM σ) α}
    {f' : τ → ExceptT Unsupported (StateM τ) α} (hf : ∀ s, Alongside φ (f s) (f' (φ s))) :
    Alongside φ (get >>= f) (get >>= f') :=
  fun s => hf s s

theorem set (s : σ) : Alongside φ (set s) (set (φ s)) :=
  fun _ => rfl

theorem modify {g : σ → σ} {g' : τ → τ} (hg : ∀ s, g' (φ s) = φ (g s)) :
    Alongside φ (modify g) (modify g') := by
  intro s
  change (Except.ok (), g' (φ s)) = (Except.ok (), φ (g s))
  rw [hg]

end Alongside

mutual

theorem later_stmt (k : Nat) (nested : Bool) (s : Stmt) :
    Alongside (later k) (stmt nested s) (stmt nested s) := by
  cases s with
  | vars _ _ kind ds =>
    refine .get fun r => ?_
    rw [declarators_later]
    exact .check _
  | function head body =>
    rw [stmt]
    refine (Alongside.check (signature head)).bind fun x => ?_
    obtain ⟨name, params⟩ := x
    cases nested with
    | true =>
      refine .get fun r => ?_
      simp only [Registry.appendedCaptures_later, Registry.register_later,
        Registry.nextTicket_later]
      refine (Alongside.set _).bind fun _ => (later_stmts k true body).bind fun code => ?_
      exact (Alongside.modify fun q => q.setBody_later k name r.nextTicket code).bind
        fun _ => .pure _
    | false => exact (later_stmts k true body).bind fun code => .pure _
  | block _ body => exact (later_stmts k nested body).bind fun code => .pure _
  | expression _ e =>
    refine .get fun r => ?_
    rw [expr_later]
    exact (Alongside.check _).bind fun code => .pure _
  | return_ _ e =>
    refine .get fun r => ?_
    rw [expr?_later]
    exact (Alongside.check _).bind fun code => .pure _
  | empty _ | other n => exact .check (.error _)

/-- Statements are lifted alike, whatever tickets have been given out. -/
theorem later_stmts (k : Nat) (nested : Bool) (ss : List Stmt) :
    Alongside (later k) (stmts nested ss) (stmts nested ss) := by
  cases ss with
  | nil => exact .pure _
  | cons s ss =>
    exact (later_stmt k nested s).bind fun first =>
      (later_stmts k nested ss).bind fun rest => .pure _

end

/-- The functions left from before do not matter for a program, and the tickets only for those
that it gives out itself. -/
theorem program_anew (p : Program) (r : Functions) :
    program p r = ((program p {}).1, later r.issued (program p {}).2) := by
  have hsteps : Alongside (later r.issued) (program p) (program p) := by
    refine Alongside.bind (.modify fun q => rfl) fun _ => ?_
    refine (later_stmts r.issued false p.statements).bind fun kept => .get fun q => ?_
    rw [Registry.functions_later]
    exact .pure _
  calc program p r = program p r.clear := rfl
    _ = program p (later r.issued {}) := by rw [Registry.clear_eq_later]
    _ = _ := hsteps {}

end Lifting

/-! ## A lifter that counts -/

open Lifting

/-- A lifter: the functions that it has entered, and the number of functions that it is in. -/
structure Lifter where
  registry : Functions := {}
  depth : Nat := 0

namespace Lifter

/-- A step of a lifter. It leaves a lifter also when it fails. -/
abbrev Step (α : Type) := ExceptT Unsupported (StateM Lifter) α

/-- A step that does not count. -/
def uncounted {α : Type} (m : Lift α) : Step α :=
  fun l => ((m l.registry).1, { l with registry := (m l.registry).2 })

/-- A step in a function. The lifter leaves the function also when the step fails. -/
def inFunction {α : Type} (m : Step α) : Step α :=
  fun l =>
    let r := m { l with depth := l.depth + 1 }
    (r.1, { r.2 with depth := r.2.depth - 1 })

mutual

/-- Lifts a statement. It is nested if the lifter is in a function. -/
def stmt : Stmt → Step (List Code.Stmt)
  | .vars _ _ kind ds => uncounted (do declarators (← get) kind ds)
  | .function head body => do
    let f ← signature head
    let l ← get
    if 0 < l.depth then
      let captured := FreeNames.ofFunction l.registry.appendedCaptures head body
      uncounted (set (l.registry.register { name := f.1, params := f.2, captured }))
      let code ← inFunction (stmts body)
      uncounted (modify (·.setBody f.1 l.registry.nextTicket code))
      return []
    else
      return [.function f.1 f.2 (← inFunction (stmts body))]
  | .block _ body => do return [.block (← stmts body)]
  | .expression _ e => uncounted (do return [.expression (← expr (← get) e)])
  | .return_ _ e => uncounted (do return [.return_ (← expr? (← get) e)])
  | .empty range => throw ⟨.node .emptyStatement, range⟩
  | .other n => throw ⟨n.kind, n.range⟩

/-- Lifts statements one after another. -/
def stmts : List Stmt → Step (List Code.Stmt)
  | [] => return []
  | s :: ss => do return (← stmt s) ++ (← stmts ss)

end

/-- Lifts a program. The lifter forgets the functions that it has entered, and is in none. -/
def program (p : Program) : Step (List Code.Stmt) := do
  modify fun l => ⟨l.registry.clear, 0⟩
  let code ← stmts p.statements
  return code ++ (← get).registry.functions.map declaration

/-- The text of a lifted program, and the lifter after it. -/
def lift (layout : Layout) (p : Program) (l : Lifter) : Except Unsupported String × Lifter :=
  let r := program p l
  (r.1.map (Code.programText layout), r.2)

/-- The lifter after it has been used for programs one after another. -/
def liftAll (layout : Layout) (ps : List Program) (l : Lifter) : Lifter :=
  ps.foldl (fun l p => (lift layout p l).2) l

/-- The lifter with a registry that is in `d` functions. -/
abbrev within (d : Nat) (r : Functions) : Lifter := ⟨r, d⟩

theorem alongside_uncounted {α : Type} (d : Nat) (m : Lift α) :
    Alongside (within d) m (uncounted m) :=
  fun _ => rfl

/-- The lifter is in one function more during the step, and then in as many as before, also if the
step failed. -/
theorem alongside_inFunction {α : Type} {d : Nat} {m : Lift α} {m' : Step α}
    (h : Alongside (within (d + 1)) m m') : Alongside (within d) m (inFunction m') := by
  intro r
  simp only [inFunction, h r, Nat.add_sub_cancel]

mutual

theorem within_stmt (d : Nat) (s : Stmt) :
    Alongside (within d) (Lifting.stmt (decide (0 < d)) s) (stmt s) := by
  cases s with
  | vars _ _ kind ds => exact alongside_uncounted d _
  | function head body =>
    have hbody : Alongside (within d) (Lifting.stmts true body) (inFunction (stmts body)) :=
      alongside_inFunction (within_stmts (d + 1) body)
    rw [Lifting.stmt, stmt]
    refine (Alongside.check (signature head)).bind fun f => ?_
    obtain ⟨name, params⟩ := f
    by_cases hd : 0 < d
    · simp only [hd, decide_true, ↓reduceIte]
      refine .get fun r => ?_
      simp only [hd, ↓reduceIte]
      refine (alongside_uncounted d _).bind fun _ => hbody.bind fun code => ?_
      exact (alongside_uncounted d _).bind fun _ => .pure _
    · simp only [hd, decide_false, Bool.false_eq_true, ↓reduceIte]
      refine .look fun r => ?_
      simp only [hd, ↓reduceIte]
      exact hbody.bind fun code => .pure _
  | block _ body => exact (within_stmts d body).bind fun code => .pure _
  | expression _ e | return_ _ e => exact alongside_uncounted d _
  | empty _ | other n => exact .check (.error _)

/-- The counter says what the argument `nested` says. -/
theorem within_stmts (d : Nat) (ss : List Stmt) :
    Alongside (within d) (Lifting.stmts (decide (0 < d)) ss) (stmts ss) := by
  cases ss with
  | nil => exact .pure _
  | cons s ss =>
    exact (within_stmt d s).bind fun first => (within_stmts d ss).bind fun rest => .pure _

end

/-- A lifter that counts does what lifting does with the argument `nested`, and is in no function
when a program is done, also if it failed. -/
theorem lift_eq (layout : Layout) (p : Program) (l : Lifter) :
    lift layout p l = ((text layout p l.registry).1, ⟨(text layout p l.registry).2, 0⟩) := by
  have hrest (kept : List Code.Stmt) :
      Alongside (within 0) (do return kept ++ (← get).functions.map declaration)
        (do return kept ++ (← get).registry.functions.map declaration) :=
    .get fun r => .pure _
  have hsteps := (within_stmts 0 p.statements).bind hrest
  have hprogram : program p l =
      ((Lifting.program p l.registry).1, ⟨(Lifting.program p l.registry).2, 0⟩) :=
    hsteps l.registry.clear
  rw [lift, hprogram, text]
  rfl

/-- A program that is lifted after others gives what it gives on its own, and leaves the same
functions. -/
theorem lift_anew (layout : Layout) (p : Program) (l : Lifter) :
    lift layout p l = ((lift layout p {}).1,
      ⟨(lift layout p {}).2.registry.later l.registry.issued, 0⟩) := by
  rw [lift_eq, lift_eq, text, program_anew p l.registry, text]
  rfl

/-- **A lifter can be used again.** After any programs, also such that could not be lifted, a lifter
gives for a program the text or the failure that a new one gives. It leaves the same functions in
the same order, with the same parameters, captured names and bodies, also if it fails, and then it
is in no function. In every state, it does what `Lifting.text` does with the registry. -/
theorem lift_after_others (layout : Layout) (before : List Program) (p : Program) :
    (lift layout p (liftAll layout before {})).1 = (lift layout p {}).1 ∧
      (lift layout p (liftAll layout before {})).2.registry.functions =
        (lift layout p {}).2.registry.functions ∧
      (lift layout p (liftAll layout before {})).2.depth = 0 ∧
      ∀ l, lift layout p l = ((text layout p l.registry).1, ⟨(text layout p l.registry).2, 0⟩) := by
  refine ⟨?_, ?_, ?_, lift_eq layout p⟩
  · rw [lift_anew]
  · rw [lift_anew layout p (liftAll layout before {}), Registry.functions_later]
  · rw [lift_anew]

end Lifter

end LambdaLift
