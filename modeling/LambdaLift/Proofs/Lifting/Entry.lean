import LambdaLift.Proofs.Lifting.Statements

/-!
# Entering a function

A call of a function and the call of the lifted one open a scope with the same number. Both have the
parameters and the variables of the function in it, and the scope of a lifted function has the
captured names besides.

* `Ready.rel`, `Ready.pending`: the stores when the body of a function starts.
* `call_alike`: calls run alike, with any number of calls that may nest.
-/

namespace LambdaLift

namespace Behaviour

open TreeLifting (Entry latest? passed)
open Execution Store List

/-! ## What is declared in the new scope -/

theorem mem_argumentsOf_of_forall₂ {R : String → Value → Prop} {xs : List String}
    {vs : List Value} (h : Forall₂ R xs vs) {x : String} (hx : x ∈ xs) :
    ∃ v, R x v ∧ (x, { value := some v, kind := .parameter }) ∈ argumentsOf xs vs := by
  induction h with
  | nil => cases hx
  | cons hxv _ ih =>
    rcases mem_cons.1 hx with rfl | hx
    · exact ⟨_, hxv, mem_cons_self ..⟩
    · obtain ⟨v, hv, hmem⟩ := ih hx
      exact ⟨v, hv, mem_cons_of_mem _ hmem⟩

section Entry

variable {all : LiftedFunctions} {a : Item} {f : Fn} {Γ : Context} {at' top : Environment}

section FunctionOk

variable (h : FunctionOk all a f Γ)
include h

theorem FunctionOk.params_head :
    f.head.params.filterMap Param.plainName? = f.head.paramNames :=
  h.params_entry

theorem FunctionOk.extra_subset :
    ∀ x ∈ f.extra, x ∈ Context.names (a :: Γ) := by
  intro x hx
  cases hf : f.nested with
  | true => exact h.captured hf x (by simpa [Fn.extra, hf] using hx)
  | false => simp [Fn.extra, hf] at hx

/-- All names in the scope of the lifted function are distinct. -/
theorem FunctionOk.distinct_lifted :
    (f.head.paramNames ++
      (f.extra ++ (varNamesOfList f.body ++ introducedOfList f.body))).Nodup := by
  have hextra : f.extra.Nodup := by
    unfold Fn.extra
    split
    · exact FreeNames.nodup_ofFunction ..
    · exact nodup_nil
  have hall : (f.extra ++
      (f.head.paramNames ++ (varNamesOfList f.body ++ introducedOfList f.body))).Nodup := by
    obtain ⟨-, hown, hdisjoint⟩ := nodup_append.1 h.distinct
    exact nodup_append.2 ⟨hextra, hown, fun x hx => hdisjoint x (h.extra_subset x hx)⟩
  refine (Perm.nodup_iff ?_).1 hall
  rw [perm_iff_count]
  intro x
  simp only [count_append]
  omega

theorem FunctionOk.params_lifted :
    (∀ p ∈ f.liftedHead.params, p.plainName?.isSome) ∧
      f.liftedHead.params.filterMap Param.plainName? = f.head.paramNames ++ f.extra := by
  cases hf : f.nested with
  | true =>
    simp only [Fn.liftedHead, hf, if_true, Fn.extra, h.params_entry]
    refine ⟨?_, ?_⟩
    · intro p hp
      obtain ⟨x, -, rfl⟩ := mem_map.1 hp
      rfl
    · simp [FunctionHead.ofNames, Param.ofName, Param.plainName?, Binding.name?, Ident.ofName,
        filterMap_map, Function.comp_def]
  | false =>
    simp only [Fn.liftedHead, hf, Bool.false_eq_true, if_false, Fn.extra, append_nil]
    exact ⟨h.head.params, h.params_head⟩

/-- What is declared in the scope of the lifted function. -/
theorem FunctionOk.callVariables_target {args : List Value}
    (hcount : f.nested = true → args.length ≤ f.head.paramNames.length) (captures : List Value)
    (i : Nat) :
    callVariables (f.target at') (f.pass args captures) i =
      argumentsOf f.head.paramNames args ++ (argumentsOf f.extra captures ++
        (undefinedVariables (varNamesOfList f.body) ++
          declarations (i :: (f.target at').environment) f.lifted.kept)) := by
  have hvars : varNamesOfList f.lifted.kept = varNamesOfList f.body := varNamesOfList_kept ..
  have hargs : argumentsOf (f.head.paramNames ++ f.extra) (f.pass args captures) =
      argumentsOf f.head.paramNames args ++ argumentsOf f.extra captures := by
    cases hf : f.nested with
    | true => rw [Fn.pass, hf, if_pos rfl, argumentsOf_append (hcount hf)]
    | false => simp [Fn.pass, Fn.extra, hf, argumentsOf]
  rw [← append_assoc, ← hargs, ← h.params_lifted.2, ← hvars]
  rfl

theorem FunctionOk.names_source (args : List Value) (i : Nat) :
    ((callVariables ⟨at', f.head, f.body⟩ args i).map Prod.fst).Sublist
      (f.head.paramNames ++ (varNamesOfList f.body ++ introducedOfList f.body)) := by
  simp only [callVariables, map_append, map_fst_argumentsOf, h.params_head]
  refine (Sublist.refl _).append (.append ?_ (map_fst_declarations _ f.body))
  simp [undefinedVariables, Function.comp_def]

theorem FunctionOk.names_target {args : List Value}
    (hcount : f.nested = true → args.length ≤ f.head.paramNames.length) (captures : List Value)
    (i : Nat) :
    ((callVariables (f.target at') (f.pass args captures) i).map Prod.fst).Sublist
      (f.head.paramNames ++ (f.extra ++ (varNamesOfList f.body ++ introducedOfList f.body))) := by
  rw [h.callVariables_target hcount]
  simp only [map_append, map_fst_argumentsOf]
  refine (Sublist.refl _).append ((Sublist.refl _).append (.append ?_ ?_))
  · simp [undefinedVariables, Function.comp_def]
  · exact map_fst_declarations_kept _ true f.body f.inner

/-- The variables of a function have the same values in both scopes. -/
theorem FunctionOk.exists_local (at' : Environment) {args : List Value}
    (hargs : ∀ v ∈ args, Value.IsData v)
    (hcount : f.nested = true → args.length ≤ f.head.paramNames.length) (captures : List Value)
    (i : Nat) {x : String} (hx : x ∈ f.locals) :
    ∃ (v : Value) (kind : Variable.Kind), v.IsData ∧
      (x, { value := some v, kind }) ∈ callVariables ⟨at', f.head, f.body⟩ args i ∧
      (x, { value := some v, kind }) ∈ callVariables (f.target at') (f.pass args captures) i := by
  rw [h.callVariables_target hcount, callVariables, h.params_head]
  rcases mem_append.1 hx with hx | hx
  · have hmem : (x, ({ value := some .undefined, kind := .var } : Variable)) ∈
        undefinedVariables (varNamesOfList f.body) := mem_map.2 ⟨x, hx, rfl⟩
    refine ⟨.undefined, .var, rfl, ?_, ?_⟩
    · exact mem_append.2 (.inr (mem_append.2 (.inl hmem)))
    · exact mem_append.2 (.inr (mem_append.2 (.inr (mem_append.2 (.inl hmem)))))
  · obtain ⟨v, hv, hmem⟩ := exists_mem_argumentsOf hx args
    refine ⟨v, .parameter, ?_, mem_append.2 (.inl hmem), mem_append.2 (.inl hmem)⟩
    rcases hv with hv | rfl
    · exact hargs v hv
    · rfl

end FunctionOk

/-! ## The stores when the body starts -/

/-- The place at the start of the body of a function. -/
def startPlace (i : Nat) (f : Fn) (h : top <:+ at') : Place where
  blocks := []
  scope := i
  outer := at'
  liftedOuter := (f.target at').environment
  top := top
  top_suffix := h
  scope_le := forall_mem_nil _

/-- The store when the body of a function starts. -/
def Fn.enter (f : Fn) (at' : Environment) (args : List Value) (s : Store) : Store :=
  s.pushWith (callVariables ⟨at', f.head, f.body⟩ args s.next)

/-- The store when the body of the lifted function starts. -/
def Fn.enterLifted (f : Fn) (at' : Environment) (args captures : List Value) (t : Store) : Store :=
  t.pushWith (callVariables (f.target at') (f.pass args captures) t.next)

variable {s t : Store} {args captures : List Value} (h : Ready all a f Γ at' top s t)
include h

theorem Ready.lookup?_local (hsup : Supplied a f Γ at' s args captures) {x : String}
    (hx : x ∈ f.locals) :
    ∃ (v : Value) (kind : Variable.Kind), v.IsData ∧
      (f.enter at' args s).lookup? s.next x = some { value := some v, kind } ∧
      (f.enterLifted at' args captures t).lookup? s.next x = some { value := some v, kind } := by
  obtain ⟨v, kind, hv, hsource, htarget⟩ :=
    h.ok.exists_local at' hsup.data hsup.count captures s.next hx
  refine ⟨v, kind, hv, ?_, ?_⟩
  · exact lookup?_pushWith_of_mem
      ((h.ok.names_source ..).nodup (nodup_append.1 h.ok.distinct).2.1) hsource
  · rw [← h.size] at htarget ⊢
    exact lookup?_pushWith_of_mem
      ((h.ok.names_target hsup.count ..).nodup h.ok.distinct_lifted) htarget

/-- The items outside of a function stay what they are in its body. -/
theorem Ready.denotes_enter (args : List Value) {b : Item} (hb : b ∈ a :: Γ) {v : Value}
    (hv : b.Denotes at' s v) :
    b.Denotes (s.next :: at') (f.enter at' args s) v := by
  have hnew : ∀ j ∈ [s.next], (f.enter at' args s).lookup? j b.name = none := by
    refine forall_mem_singleton.2 (lookup?_pushWith_of_not_mem fun hmem => ?_)
    exact (nodup_append.1 h.ok.distinct).2.2 _ (mem_map_of_mem hb) _
      ((h.ok.names_source ..).subset hmem) rfl
  exact (hv.congr fun j hj => lookup?_pushWith_of_lt _ (h.bound j hj) _).append hnew

theorem Ready.globalScope_mem : globalScope ∈ at' :=
  mem_of_getLast? h.last

theorem Ready.environment_subset :
    ∀ j ∈ (f.target at').environment, j ∈ at' := by
  unfold Fn.target
  split
  · exact forall_mem_singleton.2 h.globalScope_mem
  · exact fun j hj => hj

/-- Lifted functions are found outside of all scopes of the lifted function. -/
theorem Ready.get_lifted {g : Entry × List Stmt} (hg : g ∈ all) :
    t.get (f.target at').environment g.1.name = .ok (.function (liftedClosure g)) := by
  refine get_of_absent (i := globalScope) ?_ ?_ (h.lifted g hg)
  · unfold Fn.target
    split
    · exact mem_singleton.2 rfl
    · exact h.globalScope_mem
  · intro j hj hne
    unfold Fn.target at hj
    split at hj
    · exact absurd (mem_singleton.1 hj) hne
    · next hnested =>
      rw [← h.outer (Bool.not_eq_true _ ▸ hnested)] at hj
      exact h.absent g hg j hj hne

/-- What the lifted function finds for the items that it may use. -/
theorem Ready.get_enterLifted (hsup : Supplied a f Γ at' s args captures) {b : Item}
    (hb : b ∈ a :: Γ) (hfree : b.IsNested ∨ (f.scene all a Γ).available b.name) :
    ∃ v, b.Denotes at' s v ∧
      (f.enterLifted at' args captures t).get (s.next :: (f.target at').environment) b.name =
        .ok v := by
  have hext : (f.enterLifted at' args captures t).get (f.target at').environment b.name =
      t.get (f.target at').environment b.name := get_congr fun j hj =>
    lookup?_pushWith_of_lt _ (h.size ▸ h.bound j (h.environment_subset j hj)) _
  by_cases hextra : b.name ∈ f.extra
  · -- The value was passed.
    obtain ⟨v, ⟨b', hb', hname, hv⟩, hmem⟩ := mem_argumentsOf_of_forall₂ hsup.captures hextra
    have hbb : b' = b := inj_on_of_nodup_map
      (nodup_append.1 h.ok.distinct).1 hb' hb hname
    rw [hbb] at hv
    refine ⟨v, hv, ?_⟩
    have hlookup : (f.enterLifted at' args captures t).lookup? t.next b.name =
        some { value := some v, kind := .parameter } := by
      refine lookup?_pushWith_of_mem
        ((h.ok.names_target hsup.count ..).nodup h.ok.distinct_lifted)
        (d := (b.name, { value := some v, kind := .parameter })) ?_
      rw [h.ok.callVariables_target hsup.count]
      exact mem_append.2 (.inr (mem_append.2 (.inl hmem)))
    rw [h.size] at hlookup
    exact (Finds.here hlookup).get rfl
  · have hnew : ∀ j ∈ [s.next], (f.enterLifted at' args captures t).lookup? j b.name = none := by
      refine forall_mem_singleton.2 ?_
      rw [← h.size]
      refine lookup?_pushWith_of_not_mem fun hmem => ?_
      have hname : b.name ∈ Context.names (a :: Γ) := mem_map_of_mem hb
      have hown := (h.ok.names_target hsup.count ..).subset hmem
      simp only [mem_append, hextra, false_or] at hown
      exact (nodup_append.1 h.ok.distinct).2.2 _ hname _ (by simpa using hown) rfl
    rw [show s.next :: (f.target at').environment = [s.next] ++ (f.target at').environment from rfl,
      get_append hnew, hext]
    cases hf : f.nested with
    | true =>
      -- It is a function that is lifted as well.
      have hnested : b.IsNested := hfree.elim id fun havailable => by
        refine h.wellFormed.isNested hb ((havailable hf (mem_map_of_mem hb)).resolve_left ?_)
        simpa [Fn.extra, hf] using hextra
      obtain ⟨Γ', -, hwf⟩ := h.wellFormed.exists_suffix hb
      cases hmeaning : b.meaning with
      | variable_ | print => simp [Item.IsNested, hmeaning, Meaning.entry?] at hnested
      | function g =>
        have hg : g.nested = true := by
          simpa [Item.IsNested, hmeaning, Meaning.entry?] using hnested
        have hok := hwf.2.2.1 g hmeaning
        obtain ⟨v, at'', w, hfinds, hlength, hrep⟩ := h.denotes b hb
        refine ⟨v, ⟨at'', w, hfinds, hlength, hrep⟩, ?_⟩
        rw [hmeaning] at hrep
        have hname : g.entry.name = b.name := by
          simp [Fn.entry, TreeLifting.entry, hok.name]
        rw [hrep.2, Fn.target_of_nested hg, ← hname]
        exact h.get_lifted (hok.own hg)
    | false =>
      have htop := h.outer hf
      have henv : (f.target at').environment = at' := by simp [Fn.target, hf]
      have hle : b.depth ≤ top.length := by
        rw [htop, h.length]
        exact h.wellFormed.depth_le b hb
      obtain ⟨v, hv, hget⟩ := (h.paired b hb hle).denotes
      rw [append_nil, htop] at hv
      exact ⟨v, hv, by rw [henv, ← htop, hget]⟩

/-- **The start of a body.** The stores of a call and of the call of the lifted function are related
when their bodies start. -/
theorem Ready.rel (hsup : Supplied a f Γ at' s args captures) (v : Visible) :
    Rel (f.scene all a Γ) (startPlace s.next f h.suffix) (f.spot a Γ v).context
      (f.enter at' args s) (f.enterLifted at' args captures t) := by
  have hdepth : ∀ b ∈ a :: Γ, b.depth ≤ at'.length := by
    rw [h.length]
    exact h.wellFormed.depth_le
  have htop := h.suffix.length_le
  have hlt : ∀ j ∈ at', j < t.next := fun j hj => h.size ▸ h.bound j hj
  refine ⟨by simp [Fn.enter, Fn.enterLifted, h.size], ?_, ?_, ?_, ?_, ?_, ?_, ?_, ?_, ?_⟩
  · refine forall_mem_cons.2 ⟨by simp [Fn.enter, startPlace], fun j hj => ?_⟩
    simpa [Fn.enter] using Nat.lt_succ_of_lt (h.bound j hj)
  · intro j hj
    simpa [Fn.enter] using Nat.lt_succ_of_lt (h.bound j (h.environment_subset j hj))
  · refine forall_mem_append.2 ⟨fun b hb => ?_, fun b hb => ?_⟩
    · obtain ⟨x, hx, rfl⟩ := mem_map.1 hb
      obtain ⟨u, kind, hu, hsource, -⟩ := h.lookup?_local hsup hx
      exact ⟨u, _, _, .here hsource, congrArg (· + 1) h.length, rfl, hu⟩
    · obtain ⟨u, hu⟩ := h.denotes b hb
      exact ⟨u, h.denotes_enter args hb hu⟩
  · refine forall_mem_append.2 ⟨fun b hb _ _ => ?_, fun b hb hown => ?_⟩
    · obtain ⟨x, hx, rfl⟩ := mem_map.1 hb
      obtain ⟨u, kind, hu, hsource, htarget⟩ := h.lookup?_local hsup hx
      exact ⟨[s.next], _, u, .here hsource, .here htarget,
        by simp [variableItem, startPlace, h.length, Nat.add_comm], rfl, hu⟩
    · exact absurd (hdepth b hb) (Nat.not_le.2 hown)
  · refine forall_mem_append.2 ⟨fun b hb hle => ?_, fun b hb hle => ?_⟩
    · obtain ⟨x, -, rfl⟩ := mem_map.1 hb
      have hlength := h.length
      simp only [variableItem, startPlace] at hle
      omega
    · refine (h.paired b hb hle).congr (fun j hj => ?_) fun j hj => ?_
      · exact lookup?_pushWith_of_lt _ (h.bound j (h.suffix.subset hj)) _
      · exact lookup?_pushWith_of_lt _ (hlt j (h.suffix.subset hj)) _
  · refine forall_mem_append.2 ⟨fun b hb hfree => ?_, fun b hb hfree => ?_⟩
    · obtain ⟨x, -, rfl⟩ := mem_map.1 hb
      rcases hfree with hnested | ⟨hle, -⟩
      · exact absurd hnested (Meaning.Represents.not_nested rfl)
      · have hlength := h.length
        simp only [variableItem, startPlace] at hle
        omega
    · obtain ⟨u, hu, hget⟩ := h.get_enterLifted hsup hb (hfree.imp_right And.right)
      exact ⟨forall_mem_nil _, u, h.denotes_enter args hb hu, hget⟩
  · intro g hg
    rw [Fn.enterLifted, lookup?_pushWith_of_lt _ (hlt _ h.globalScope_mem), h.lifted g hg]
  · intro g hg j hj hne
    rw [Fn.enterLifted, lookup?_pushWith_of_lt _ (hlt j (h.suffix.subset hj))]
    exact h.absent g hg j hj hne
  · intro _ g hg
    rw [← h.get_lifted hg]
    exact get_congr fun j hj =>
      lookup?_pushWith_of_lt _ (hlt j (h.environment_subset j hj)) _

theorem Ready.fits (v : Visible) :
    (startPlace s.next f h.suffix).Fits (f.scene all a Γ) (f.spot a Γ v) where
  depth := congrArg (· + 1) h.length
  base := h.length
  global := fun hfalse => absurd hfalse (by simp [Fn.scene])
  last := by
    show (s.next :: at').getLast? = _
    rw [getLast?_cons, h.last]
    rfl
  nested _ := by
    refine forall_mem_append.2 ⟨fun b hb g hg => ?_, h.nested⟩
    obtain ⟨x, -, rfl⟩ := mem_map.1 hb
    cases hg
  notNested _ := by
    refine forall_mem_append.2 ⟨fun b hb g hg => ?_, h.notNested⟩
    obtain ⟨x, -, rfl⟩ := mem_map.1 hb
    cases hg

theorem Ready.pending (hsup : Supplied a f Γ at' s args captures) {v : Visible}
    (hstatic : Static (f.scene all a Γ) (f.spot a Γ v) f.body) :
    Pending (f.scene all a Γ) (startPlace s.next f h.suffix) f.inner f.body
      (f.enter at' args s) (f.enterLifted at' args captures t) where
  source d hd := by
    refine lookup?_pushWith_of_mem
      ((h.ok.names_source ..).nodup (nodup_append.1 h.ok.distinct).2.1) ?_
    exact mem_append.2 (.inr (mem_append.2 (.inr hd)))
  target d hd := by
    have hlookup : (f.enterLifted at' args captures t).lookup? t.next d.1 = some d.2 := by
      refine lookup?_pushWith_of_mem
        ((h.ok.names_target hsup.count ..).nodup h.ok.distinct_lifted) ?_
      rw [h.ok.callVariables_target hsup.count, h.size]
      exact mem_append.2 (.inr (mem_append.2 (.inr (mem_append.2 (.inr hd)))))
    rwa [h.size] at hlookup
  vacant _ m hm := by
    refine forall_mem_singleton.2 ?_
    have hlookup : (f.enterLifted at' args captures t).lookup? t.next m = none := by
      refine lookup?_pushWith_of_not_mem fun hmem => ?_
      rw [h.ok.callVariables_target hsup.count] at hmem
      simp only [map_append, map_fst_argumentsOf, ← append_assoc] at hmem
      rcases mem_append.1 hmem with hmem | hmem
      · have hdistinct := h.ok.distinct_lifted
        simp only [← append_assoc] at hdistinct
        refine (nodup_append.1 hdistinct).2.2 m ?_ m
          (mem_introducedOfList_of_nested f.body hm) rfl
        simpa [undefinedVariables, Function.comp_def] using hmem
      · exact hstatic.not_mem_kept _ (hstatic.mem_all_of_nested hm) hmem
    rwa [h.size] at hlookup

end Entry

/-! ## Calls -/

/-- **Calls run alike.** A call of a function and the call of the lifted function print the same and
give the same value or fail in the same way, however many calls may nest in them. -/
theorem call_alike {all : LiftedFunctions}
    (hclosed : ∀ g ∈ all, Captures.Closed (all.map (·.1.name)) g) (n : Nat) :
    CallsAlike all (call n) := by
  induction n with
  | zero => exact fun _ _ _ _ _ _ _ _ _ _ _ _ => .throw _
  | succ n ih =>
    intro a f Γ at' top args captures w w' h hout hsup
    have hok := h.ok
    obtain ⟨v, hvisible, hcovers⟩ := hok.visible
    have hstatic := hok.static_body hclosed hvisible
    have hsource : call (n + 1) ⟨at', f.head, f.body⟩ args w =
        (do return (← stmts (call n) (startPlace w.store.next f h.suffix).env f.body).value)
          ⟨f.enter at' args w.store, w.output⟩ := by
      refine call_succ hok.head.params (hok.params_head ▸ ?_)
      exact (nodup_append.1 hok.distinct).2.1.sublist
        ((Sublist.refl _).append (sublist_append_left ..))
    have htarget : call (n + 1) (f.target at') (f.pass args captures) w' =
        (do return (← stmts (call n) (startPlace w.store.next f h.suffix).liftedEnv
          f.lifted.kept).value) ⟨f.enterLifted at' args captures w'.store, w'.output⟩ := by
      have henv : (startPlace w.store.next f h.suffix).liftedEnv =
          w'.store.next :: (f.target at').environment := by
        rw [h.size]
        rfl
      rw [henv]
      refine call_succ hok.params_lifted.1 ?_
      rw [show (f.target at').head.params = f.liftedHead.params from rfl, hok.params_lifted.2,
        show varNamesOfList (f.target at').body = varNamesOfList f.body from varNamesOfList_kept ..,
        append_assoc]
      exact hok.distinct_lifted.sublist ((Sublist.refl _).append
        ((Sublist.refl _).append (sublist_append_left ..)))
    rw [hsource, htarget]
    refine (stmts_alike ih f.body hstatic (hok.valid_spot h.wellFormed hcovers) (h.fits v)
      ⟨f.enter at' args w.store, w.output⟩
      ⟨f.enterLifted at' args captures w'.store, w'.output⟩ hout (h.rel hsup v)
      (h.pending hsup hstatic)).bind ?_
    rintro _ completion w₁ w₁' ⟨rfl, hdata, h₁⟩
    refine .pure ⟨rfl, ?_, h₁.output, h₁.store.rel.size, ?_, ?_⟩
    · cases completion with
      | normal => rfl
      | returned v => exact hdata
    · exact ((Frame.pushWith _ _).trans h₁.store.frame).of_next
    · have hframe := h₁.store.liftedFrame
      rw [show (startPlace w.store.next f h.suffix).scope = w'.store.next from h.size.symm] at hframe
      exact ((Frame.pushWith _ _).trans hframe).of_next

end Behaviour

end LambdaLift
