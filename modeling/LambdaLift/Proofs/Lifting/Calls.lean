import LambdaLift.Proofs.Execution.Declarations
import LambdaLift.Proofs.Lifting.Relation

/-!
# Calls

* `Ready`: what the body of a function needs of the stores when the function is called.
* `Rel.ready`: it is given at every place where the function is an item.
* `CallsAlike`: calls of a function and of the lifted one run alike.
* `bridge`: so do then expressions, at every place.
-/

namespace LambdaLift

namespace Behaviour

open TreeLifting (Entry latest? passed)
open Execution List

/-- The function `f` can be called, which the item `a` refers to and which was declared in the
environment `at'`, the last scopes of which are outside of all functions. -/
structure Ready (all : LiftedFunctions) (a : Item) (f : Fn) (Γ : Context) (at' top : Environment)
    (s t : Store) : Prop where
  meaning : a.meaning = .function f
  wellFormed : WellFormed all (a :: Γ)
  length : at'.length = a.depth
  suffix : top <:+ at'
  last : at'.getLast? = some globalScope
  size : t.next = s.next
  bound : ∀ j ∈ at', j < s.next
  denotes : ∀ b ∈ a :: Γ, ∃ v, b.Denotes at' s v
  paired : ∀ b ∈ a :: Γ, b.depth ≤ top.length → b.Paired top [] s t
  lifted : ∀ g ∈ all,
    t.lookup? globalScope g.1.name = some (.ofFunction (liftedClosure g))
  absent : ∀ g ∈ all, ∀ j ∈ top, j ≠ globalScope → t.lookup? j g.1.name = none
  outer : f.nested = false → top = at'
  nested : ∀ b ∈ a :: Γ, ∀ g, b.meaning = .function g → g.nested = true → top.length < b.depth
  notNested : ∀ b ∈ a :: Γ, ∀ g, b.meaning = .function g → g.nested = false →
    b.depth ≤ top.length

section Ready

variable {c : Scene} {p : Place} {q : Spot} {s t : Store} {a : Item} {f : Fn}

theorem Ready.ok {all : LiftedFunctions} {Γ : Context} {at' top : Environment}
    (h : Ready all a f Γ at' top s t) : FunctionOk all a f Γ :=
  h.wellFormed.2.2.1 f h.meaning

/-- A function that is an item of a place can be called there. -/
theorem Rel.ready (h : Rel c p q.context s t) (hq : q.Valid c) (hp : p.Fits c q)
    (ha : a ∈ q.context) (hmeaning : a.meaning = .function f) :
    ∃ Γ at' top, a :: Γ <:+ q.context ∧
      s.Finds a.name p.env at' (.ofFunction ⟨at', f.head, f.body⟩) ∧
      Ready c.all a f Γ at' top s t := by
  obtain ⟨Γ, hsuffix, hwf⟩ := hq.wellFormed.exists_suffix ha
  obtain ⟨v, at', w, hfinds, hlength, hrep⟩ := h.denotes a ha
  rw [hmeaning] at hrep
  obtain ⟨rfl, -⟩ := hrep
  obtain ⟨inner, henv⟩ := hfinds.suffix
  have hbound : ∀ j ∈ at', j < s.next := fun j hj => h.bound j (hfinds.suffix.subset hj)
  have hdepth : ∀ b ∈ a :: Γ, b.depth ≤ at'.length := by
    rw [hlength]
    exact hwf.depth_le
  have hdenotes : ∀ b ∈ a :: Γ, ∃ v, b.Denotes at' s v := by
    intro b hb
    obtain ⟨v, hv⟩ := h.denotes b (hsuffix.subset hb)
    rw [← henv] at hv
    exact ⟨v, (hv.of_append inner (hdepth b hb)).2⟩
  have hlast : at'.getLast? = some globalScope := by
    obtain ⟨i, rest, rfl, -, -⟩ := hfinds.exists_cons
    have hlast := hp.last
    rwa [← henv, getLast?_append_cons] at hlast
  cases hf : f.nested with
  | true =>
    have hc : c.nested = true := by
      cases hc : c.nested with
      | true => rfl
      | false =>
        refine absurd ?_ (hq.outside hc a ha)
        simp [Item.IsNested, hmeaning, Meaning.entry?, hf]
    have htop : p.top <:+ at' := by
      refine suffix_of_suffix_length_le (p.top_suffix.trans (suffix_append ..))
        hfinds.suffix ?_
      have hlt := hp.nested hc a ha f hmeaning hf
      omega
    refine ⟨Γ, at', p.top, hsuffix, hfinds, hmeaning, hwf, hlength, htop, hlast, h.size, hbound,
      hdenotes, fun b hb => h.top b (hsuffix.subset hb), h.lifted, ?_, fun hfalse => ?_,
      fun b hb => hp.nested hc b (hsuffix.subset hb),
      fun b hb => hp.notNested hc b (hsuffix.subset hb)⟩
    · intro g hg j hj
      exact h.absent g hg j (by rwa [Place.topScopes, hc, if_pos rfl])
    · rw [hf] at hfalse
      cases hfalse
  | false =>
    have hnone := (hwf.2.2.1 f hmeaning).outer hf
    have hplain : ∀ b ∈ a :: Γ, ¬ b.IsNested :=
      forall_mem_cons.2 ⟨by simp [Item.IsNested, hmeaning, Meaning.entry?, hf], hnone⟩
    have hpaired : (∀ b ∈ a :: Γ, b.Paired at' [] s t) ∧
        ∀ g ∈ c.all, ∀ j ∈ at', j ≠ globalScope → t.lookup? j g.1.name = none := by
      cases hc : c.nested with
      | true =>
        have hle := hp.notNested hc a ha f hmeaning hf
        obtain ⟨outside, htop⟩ : at' <:+ p.top :=
          suffix_of_suffix_length_le hfinds.suffix
            (p.top_suffix.trans (suffix_append ..)) (hlength ▸ hle)
        refine ⟨fun b hb => ?_, fun g hg j hj => h.absent g hg j ?_⟩
        · have hb' := h.top b (hsuffix.subset hb)
            (Nat.le_trans (hdepth b hb) (by rw [← htop]; simp))
          rw [← htop] at hb'
          exact (hb'.of_append outside (by simpa using hdepth b hb)).2
        · rw [Place.topScopes, hc, if_pos rfl, ← htop]
          exact mem_append.2 (.inr hj)
      | false =>
        have houter := (hp.global hc).1
        have hown : p.own = inner ++ at' := by
          rw [henv, Place.env, houter, append_nil]
        refine ⟨fun b hb => ?_, fun g hg j hj => h.absent g hg j ?_⟩
        · obtain ⟨_, hb₁⟩ := hdenotes b hb
          have hb' := h.own b (hsuffix.subset hb) (by rw [houter]; exact hb₁.depth_pos) (hplain b hb)
          rw [hown, houter] at hb'
          exact (hb'.of_append inner (by simpa using hdepth b hb)).2
        · rw [Place.topScopes, hc, if_neg (by simp), hown]
          exact mem_append.2 (.inr hj)
    refine ⟨Γ, at', at', hsuffix, hfinds, hmeaning, hwf, hlength, suffix_rfl, hlast, h.size,
      hbound, hdenotes, fun b hb _ => hpaired.1 b hb, h.lifted, hpaired.2, fun _ => rfl,
      fun b hb g hg hnested => ?_, fun b hb _ _ _ => hdepth b hb⟩
    exact absurd (by simp [Item.IsNested, hg, Meaning.entry?, hnested]) (hplain b hb)

end Ready

/-! ## Calls that run alike -/

/-- The values that a call passes in the lifted program. -/
def Fn.pass (f : Fn) (args captures : List Value) : List Value :=
  if f.nested then
    args ++ (replicate (f.head.paramNames.length - args.length) .undefined ++ captures)
  else args

/-- The names that the lifted function gets besides its own parameters. -/
def Fn.extra (f : Fn) : List String :=
  if f.nested then f.entry.captured else []

/-- The values that are passed are enough for the lifted function. -/
structure Supplied (a : Item) (f : Fn) (Γ : Context) (at' : Environment) (s : Store)
    (args captures : List Value) : Prop where
  data : ∀ v ∈ args, Value.IsData v
  count : f.nested = true → args.length ≤ f.head.paramNames.length
  captures : Forall₂ (fun x v => ∃ b ∈ a :: Γ, b.name = x ∧ b.Denotes at' s v) f.extra captures

/-- The stores have got new scopes, and nothing else has changed. -/
structure Untouched (s t s' t' : Store) : Prop where
  size : t'.next = s'.next
  frame : Store.Frame s.next [] s s'
  liftedFrame : Store.Frame t.next [] t t'

/-- A call of a function that is ready and the call of the lifted function, to which the values of
the captured names are passed, run alike. -/
def CallsAlike (all : LiftedFunctions) (calls : Calls) : Prop :=
  ∀ a f Γ at' top args captures w w', Ready all a f Γ at' top w.store w'.store →
    w'.output = w.output → Supplied a f Γ at' w.store args captures →
    Agree (Alike Value.IsData (Untouched w.store w'.store))
      (calls ⟨at', f.head, f.body⟩ args w) (calls (f.target at') (f.pass args captures) w')

/-- The stores at a place, in which nothing but the given names may have changed since `s₀` and
`t₀`. -/
structure During (c : Scene) (p : Place) (Γ : Context) (names : List String)
    (s₀ t₀ s t : Store) : Prop where
  rel : Rel c p Γ s t
  frame : Store.Frame p.scope names s₀ s
  liftedFrame : Store.Frame p.scope names t₀ t

theorem During.call {c : Scene} {p : Place} {Γ : Context} {names : List String}
    {s₀ t₀ s t s' t' : Store} (h : During c p Γ names s₀ t₀ s t) (h' : Untouched s t s' t') :
    During c p Γ names s₀ t₀ s' t' where
  rel := h.rel.congr h'.size h'.frame.next fun y _ j hj =>
    ⟨h'.frame.lookup? j hj y (.inl hj),
      h'.liftedFrame.lookup? j (h.rel.size ▸ hj) y (.inl (h.rel.size ▸ hj))⟩
  frame := h.frame.trans h'.frame.of_next
  liftedFrame := h.liftedFrame.trans h'.liftedFrame.of_next

theorem exists_forall₂ {α β : Type} {R : α → β → Prop} {xs : List α}
    (h : ∀ x ∈ xs, ∃ y, R x y) : ∃ ys, Forall₂ R xs ys := by
  induction xs with
  | nil => exact ⟨[], .nil⟩
  | cons x xs ih =>
    obtain ⟨⟨y, hy⟩, hxs⟩ := forall_mem_cons.1 h
    obtain ⟨ys, hys⟩ := ih hxs
    exact ⟨y :: ys, .cons hy hys⟩

section Arguments

variable {calls : Calls} {env : Environment} {w : World}

theorem exprs_undefined (count : Nat) :
    exprs calls env (replicate count Code.Expr.undefined.tree) w =
      (.ok (replicate count .undefined), w) := by
  induction count with
  | zero => rfl
  | succ count ih =>
    rw [replicate_succ, exprs, bind_apply]
    have hfirst : expr calls env Code.Expr.undefined.tree w = (.ok .undefined, w) := by
      simp [Code.Expr.undefined, Code.Expr.tree, expr]
      rfl
    rw [hfirst]
    simp only [bind_apply, ih]
    rfl

theorem exprs_names {xs : List String} {vs : List Value}
    (h : Forall₂ (fun x v => w.store.get env x = .ok v) xs vs) :
    exprs calls env (xs.map fun x => Expr.ident (.ofName x)) w = (.ok vs, w) := by
  induction h with
  | nil => rfl
  | @cons x v xs vs hx _ ih =>
    rw [map_cons, exprs, bind_apply]
    have hfirst : expr calls env (.ident (.ofName x)) w = (.ok v, w) := by
      rw [expr]
      exact read_of_get hx
    rw [hfirst]
    simp only [bind_apply, ih]
    rfl

/-- The values of the arguments that a call is extended with. -/
theorem exprs_arguments {e : Entry} {count : Nat} (hcount : count ≤ e.params.length)
    {vs : List Value} (h : Forall₂ (fun x v => w.store.get env x = .ok v) e.captured vs) :
    exprs calls env (e.arguments count) w =
      (.ok (replicate (e.params.length - count) .undefined ++ vs), w) := by
  rw [Entry.arguments, drop_append_of_le_length (by simpa using hcount), drop_replicate,
    exprs_append, bind_apply, exprs_undefined]
  simp only [bind_apply, exprs_names h]
  rfl

end Arguments

/-! ## Expressions at a place -/

section Bridge

variable {c : Scene} {p : Place} {q : Spot} {s t : Store} {a : Item}

theorem Item.Denotes.get_variable {env : Environment} {v : Value} (h : a.Denotes env s v)
    (hmeaning : a.meaning = .variable_) : v.IsData ∧ s.get env a.name = .ok v := by
  obtain ⟨at', w, hfinds, -, hrep⟩ := h
  rw [hmeaning] at hrep
  exact ⟨hrep.2, hfinds.get hrep.1⟩

/-- A function that was called at a place, and the lifted function. -/
theorem During.apply_alike {calls : Calls} (hcalls : CallsAlike c.all calls)
    {names : List String} {s₀ t₀ : Store} (hq : q.Valid c) (hp : p.Fits c q) (ha : a ∈ q.context)
    {f : Fn} (hmeaning : a.meaning = .function f) {args : List Value}
    (hargs : ∀ v ∈ args, Value.IsData v)
    (hcount : ∀ e ∈ latest? q.log a.name, args.length ≤ e.params.length)
    (havailable : ∀ x ∈ passed q.log a.name args.length, c.available x) {w w' : World}
    (h : Joined (During c p q.context names s₀ t₀) w w') :
    ∃ extra, exprs calls p.liftedEnv (TreeLifting.arguments q.log a.name args.length) w' =
        (.ok extra, w') ∧
      Agree (Alike Value.IsData (During c p q.context names s₀ t₀))
        (calls ⟨p.env.drop (p.env.length - a.depth), f.head, f.body⟩ args w)
        (calls (f.target (p.env.drop (p.env.length - a.depth))) (args ++ extra) w') := by
  obtain ⟨Γ, at', top, hsuffix, hfinds, hready⟩ := h.store.rel.ready hq hp ha hmeaning
  have hat : at' = p.env.drop (p.env.length - a.depth) := hready.length ▸ hfinds.eq_drop
  rw [← hat]
  have hentry := hq.knows a ha
  simp only [hmeaning, Meaning.entry?] at hentry
  have hfinish : ∀ captures, Supplied a f Γ at' w.store args captures →
      Agree (Alike Value.IsData (During c p q.context names s₀ t₀))
        (calls ⟨at', f.head, f.body⟩ args w) (calls (f.target at') (f.pass args captures) w') := by
    intro captures hsupplied
    refine (hcalls a f Γ at' top args captures w w' hready h.output hsupplied).mono ?_
    rintro v v' w₁ w₁' ⟨rfl, hv, hjoined⟩
    exact ⟨rfl, hv, hjoined.output, h.store.call hjoined.store⟩
  cases hf : f.nested with
  | false =>
    rw [hf, if_neg (by simp)] at hentry
    refine ⟨[], by rw [TreeLifting.arguments, hentry]; rfl, ?_⟩
    have hagree := hfinish [] ⟨hargs, fun hnested => absurd (hf.symm.trans hnested) (by simp),
      by rw [Fn.extra, hf, if_neg (by simp)]; exact .nil⟩
    rw [append_nil]
    rwa [Fn.pass, hf, if_neg (by simp)] at hagree
  | true =>
    rw [hf, if_pos rfl] at hentry
    have hparams := hready.ok.params_entry
    have hle := hcount f.entry hentry
    have hpassed : passed q.log a.name args.length = f.entry.captured := by
      simp [TreeLifting.passed, hentry, Entry.passed, Nat.sub_eq_zero_of_le hle]
    obtain ⟨inner, henv⟩ := hfinds.suffix
    obtain ⟨vs, hvs⟩ : ∃ vs, Forall₂ (fun x v =>
        (∃ b ∈ a :: Γ, b.name = x ∧ b.Denotes at' w.store v) ∧
          w'.store.get p.liftedEnv x = .ok v) f.entry.captured vs := by
      refine exists_forall₂ fun x hx => ?_
      obtain ⟨b, hb, rfl⟩ := mem_map.1 (hready.ok.captured hf x hx)
      obtain ⟨v, hv, hget⟩ := h.store.rel.read (hsuffix.subset hb) fun _ =>
        havailable _ (hpassed ▸ hx)
      rw [← henv] at hv
      have hdepth : b.depth ≤ at'.length := by
        rw [hready.length]
        exact hready.wellFormed.depth_le b hb
      exact ⟨v, ⟨b, hb, rfl, (hv.of_append inner hdepth).2⟩, hget⟩
    refine ⟨replicate (f.entry.params.length - args.length) .undefined ++ vs, ?_, ?_⟩
    · rw [TreeLifting.arguments, hentry, Option.elim_some]
      exact exprs_arguments hle (hvs.imp fun _ _ h => h.2)
    · have hagree := hfinish vs ⟨hargs, fun _ => hparams ▸ hle,
        by rw [Fn.extra, hf, if_pos rfl]; exact hvs.imp fun _ _ h => h.1⟩
      rwa [Fn.pass, hf, if_pos rfl, ← hparams] at hagree

/-- **Expressions at a place.** If calls run alike, then what expressions see at a place is the same
on both sides. -/
theorem bridge {calls : Calls} (hcalls : CallsAlike c.all calls) (hq : q.Valid c)
    (hp : p.Fits c q) {names : List String} (hnames : ∀ x ∈ q.context.names, x ∈ names)
    (s₀ t₀ : Store) :
    Bridge calls p.env p.liftedEnv q.visible q.log c.available
      (During c p q.context names s₀ t₀) where
  read x hx havailable s t h := by
    obtain ⟨a, ha, rfl, hmeaning⟩ := hq.covers.vars x hx
    obtain ⟨v, hv, hget⟩ := h.rel.read ha fun _ => havailable
    exact ⟨v, (hv.get_variable hmeaning).1, (hv.get_variable hmeaning).2, hget⟩
  assign x hx s t h := by
    obtain ⟨a, ha, rfl, hmeaning, hdepth⟩ := hq.own x hx
    have hunlifted : a.name ∉ c.all.map (·.1.name) := fun hlifted =>
      Meaning.Represents.not_nested hmeaning (hq.wellFormed.isNested ha hlifted)
    obtain ⟨i, w, hs, ht, hi, hset⟩ :=
      h.rel.assign hq.distinct ha hmeaning (hp.base ▸ hdepth) hunlifted
    have hname : a.name ∈ names := hnames _ (mem_map_of_mem ha)
    exact ⟨i, w, hs, ht, fun v hv => ⟨hset v hv, h.frame.trans (.declare hi hname _),
      h.liftedFrame.trans (.declare hi hname _)⟩⟩
  plain x hx := by
    obtain ⟨a, ha, rfl, hmeaning⟩ := hq.covers.vars x hx
    rw [hq.knows a ha, hmeaning]
    rfl
  call x hx havailable := by
    obtain ⟨a, ha, rfl, hmeaning⟩ := hq.covers.functions x hx
    cases hm : a.meaning with
    | variable_ => exact absurd hm hmeaning
    | print =>
      refine ⟨.print, .print, fun s t h => ?_, fun args hargs _ _ w w' h => ?_⟩
      · obtain ⟨v, ⟨at', w, hfinds, -, hrep⟩, hget⟩ := h.rel.read ha fun _ => havailable
        rw [hm] at hrep
        obtain ⟨rfl, rfl⟩ := hrep
        exact ⟨hfinds.get rfl, hget⟩
      · have hentry : latest? q.log a.name = none := by rw [hq.knows a ha, hm]; rfl
        refine ⟨[], by rw [TreeLifting.arguments, hentry]; rfl, ?_⟩
        rw [append_nil]
        refine .ok ⟨rfl, rfl, ?_, h.store⟩
        simp only [h.output]
    | function f =>
      refine ⟨.function ⟨p.env.drop (p.env.length - a.depth), f.head, f.body⟩,
        .function (f.target (p.env.drop (p.env.length - a.depth))), fun s t h => ?_,
        fun args hargs hcount hpassed w w' h =>
          During.apply_alike hcalls hq hp ha hm hargs hcount hpassed h⟩
      obtain ⟨v, ⟨at', w, hfinds, hlength, hrep⟩, hget⟩ := h.rel.read ha fun _ => havailable
      rw [hm] at hrep
      obtain ⟨rfl, rfl⟩ := hrep
      rw [← hlength, ← hfinds.eq_drop]
      exact ⟨hfinds.get rfl, hget⟩

end Bridge

end Behaviour

end LambdaLift
