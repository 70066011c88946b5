import LambdaLift.Proofs.Lifting.Static
import Mathlib.Data.List.Nodup

/-!
# How the stores of a program and its lifted form relate

Both programs open their scopes at the same time, so that scopes have the same numbers. The own
scopes of the function that is running hold the same variables on both sides. What lies outside of
them the lifted function sees through its parameters.

* `Place`: the scopes that are open at a place, on both sides.
* `Item.Denotes`: what the lifted code must find for an item.
* `Rel`: the relation between the stores.
* `Rel.congr`, `Rel.assign`, `Rel.declare`, `Rel.function`, `Rel.push`, `Rel.pop`: how it is kept.
-/

namespace LambdaLift

namespace Behaviour

open TreeLifting (Entry latest? passed)
open Execution Store List

/-- What a name stands for is held by the variable `w`, which was found in the environment `at'`, and
lifted code has the value `v` for it. -/
def Meaning.Represents : Meaning → Environment → Variable → Value → Prop
  | .variable_, _, w, v => w.value = some v ∧ v.IsData
  | .function f, at', w, v =>
    w = .ofFunction ⟨at', f.head, f.body⟩ ∧ v = .function (f.target at')
  | .print, _, w, v => w = { value := some .print, kind := .var } ∧ v = .print

/-- The item is found in the environment, and lifted code has the value `v` for it. -/
def Item.Denotes (a : Item) (env : Environment) (s : Store) (v : Value) : Prop :=
  ∃ at' w, s.Finds a.name env at' w ∧ at'.length = a.depth ∧ a.meaning.Represents at' w v

/-- The item is found in the scopes `part` of both stores, outside of which `outer` is open. -/
def Item.Paired (a : Item) (part outer : Environment) (s t : Store) : Prop :=
  ∃ at' w v, s.Finds a.name part at' w ∧ t.Finds a.name part at' { w with value := some v } ∧
    at'.length + outer.length = a.depth ∧ a.meaning.Represents (at' ++ outer) w v

/-- The scopes that are open at a place: those of blocks, the one of the function or program, and
those outside of it in the program and in the lifted program. The last ones of them are outside of
all functions. -/
structure Place where
  blocks : Environment
  scope : Nat
  outer : Environment
  liftedOuter : Environment
  top : Environment
  top_suffix : top <:+ outer
  scope_le : ∀ j ∈ blocks, scope ≤ j

namespace Place

/-- The scopes of the function itself. -/
def own (p : Place) : Environment :=
  p.blocks ++ [p.scope]

/-- The environment of the program. -/
def env (p : Place) : Environment :=
  p.own ++ p.outer

/-- The environment of the lifted program. -/
def liftedEnv (p : Place) : Environment :=
  p.own ++ p.liftedOuter

/-- The scopes that are outside of all functions. -/
def topScopes (p : Place) (nested : Bool) : Environment :=
  if nested then p.top else p.own

end Place

/-- The value of a lifted function. -/
def liftedClosure (f : Entry × List Stmt) : Closure :=
  ⟨[globalScope], .ofNames f.1.name (f.1.params ++ f.1.captured), f.2⟩

/-- The stores of a program and its lifted form at a place with the context `Γ`. -/
structure Rel (c : Scene) (p : Place) (Γ : Context) (s t : Store) : Prop where
  size : t.next = s.next
  bound : ∀ j ∈ p.env, j < s.next
  liftedBound : ∀ j ∈ p.liftedOuter, j < s.next
  denotes : ∀ a ∈ Γ, ∃ v, a.Denotes p.env s v
  own : ∀ a ∈ Γ, p.outer.length < a.depth → ¬ a.IsNested → a.Paired p.own p.outer s t
  top : ∀ a ∈ Γ, a.depth ≤ p.top.length → a.Paired p.top [] s t
  free : ∀ a ∈ Γ, a.IsNested ∨ a.depth ≤ p.outer.length ∧ c.available a.name →
    (∀ j ∈ p.blocks, t.lookup? j a.name = none) ∧
      ∃ v, a.Denotes p.env s v ∧ t.get (p.scope :: p.liftedOuter) a.name = .ok v
  lifted : ∀ f ∈ c.all,
    t.lookup? globalScope f.1.name = some (.ofFunction (liftedClosure f))
  absent : ∀ f ∈ c.all, ∀ j ∈ p.topScopes c.nested, j ≠ globalScope → t.lookup? j f.1.name = none
  outside : c.nested = true → ∀ f ∈ c.all,
    t.get p.liftedOuter f.1.name = .ok (.function (liftedClosure f))

/-! ## Items in environments -/

section Items

variable {a : Item} {env part outer : Environment} {s s' t t' : Store} {v : Value}

theorem Item.Denotes.congr (h : a.Denotes env s v)
    (hsame : ∀ j ∈ env, s'.lookup? j a.name = s.lookup? j a.name) : a.Denotes env s' v := by
  obtain ⟨at', w, hfinds, hrest⟩ := h
  exact ⟨at', w, hfinds.congr hsame, hrest⟩

theorem Item.Denotes.depth_pos (h : a.Denotes env s v) : 0 < a.depth := by
  obtain ⟨at', w, hfinds, hlength, -⟩ := h
  obtain ⟨i, rest, rfl, -, -⟩ := hfinds.exists_cons
  exact hlength ▸ Nat.succ_pos _

theorem Item.Paired.congr (h : a.Paired part outer s t)
    (hs : ∀ j ∈ part, s'.lookup? j a.name = s.lookup? j a.name)
    (ht : ∀ j ∈ part, t'.lookup? j a.name = t.lookup? j a.name) : a.Paired part outer s' t' := by
  obtain ⟨at', w, v, hs', ht', hrest⟩ := h
  exact ⟨at', w, v, hs'.congr hs, ht'.congr ht, hrest⟩

/-- An item that was declared outside of some scopes is not in them. -/
theorem Item.Denotes.of_append (inner : Environment) (h : a.Denotes (inner ++ env) s v)
    (hdepth : a.depth ≤ env.length) :
    (∀ j ∈ inner, s.lookup? j a.name = none) ∧ a.Denotes env s v := by
  obtain ⟨at', w, hfinds, hlength, hrest⟩ := h
  obtain ⟨hinner, hfinds⟩ := hfinds.of_length_le (hlength ▸ hdepth)
  exact ⟨hinner, at', w, hfinds, hlength, hrest⟩

theorem Item.Denotes.append {inner : Environment} (h : a.Denotes env s v)
    (hinner : ∀ j ∈ inner, s.lookup? j a.name = none) : a.Denotes (inner ++ env) s v := by
  obtain ⟨at', w, hfinds, hrest⟩ := h
  exact ⟨at', w, hfinds.append hinner, hrest⟩

theorem Item.Paired.of_append (inner : Environment) (h : a.Paired (inner ++ part) outer s t)
    (hdepth : a.depth ≤ part.length + outer.length) :
    (∀ j ∈ inner, s.lookup? j a.name = none ∧ t.lookup? j a.name = none) ∧
      a.Paired part outer s t := by
  obtain ⟨at', w, v, hs, ht, hlength, hrest⟩ := h
  have hle : at'.length ≤ part.length := by omega
  obtain ⟨hinner, hs⟩ := hs.of_length_le hle
  obtain ⟨hinner', ht⟩ := ht.of_length_le hle
  exact ⟨fun j hj => ⟨hinner j hj, hinner' j hj⟩, at', w, v, hs, ht, hlength, hrest⟩

theorem Item.Paired.append {inner : Environment} (h : a.Paired part outer s t)
    (hs : ∀ j ∈ inner, s.lookup? j a.name = none) (ht : ∀ j ∈ inner, t.lookup? j a.name = none) :
    a.Paired (inner ++ part) outer s t := by
  obtain ⟨at', w, v, hs', ht', hrest⟩ := h
  exact ⟨at', w, v, hs'.append hs, ht'.append ht, hrest⟩

theorem Item.Paired.denotes (h : a.Paired part outer s t) :
    ∃ v, a.Denotes (part ++ outer) s v ∧ t.get part a.name = .ok v := by
  obtain ⟨at', w, v, hs, ht, hlength, hrest⟩ := h
  exact ⟨v, ⟨at' ++ outer, w, hs.append_right outer, by simpa using hlength, hrest⟩, ht.get rfl⟩

end Items

/-! ## Keeping the relation -/

namespace Place

/-- The place in a block that has the scope `j`. -/
def push (p : Place) (j : Nat) (hj : p.scope ≤ j) : Place :=
  { p with blocks := j :: p.blocks, scope_le := forall_mem_cons.2 ⟨hj, p.scope_le⟩ }

variable (p : Place)

theorem scope_mem_own : p.scope ∈ p.own :=
  mem_append.2 (.inr (mem_singleton.2 rfl))

theorem own_subset_env : ∀ j ∈ p.own, j ∈ p.env :=
  fun _ hj => mem_append.2 (.inl hj)

theorem outer_subset_env : ∀ j ∈ p.outer, j ∈ p.env :=
  fun _ hj => mem_append.2 (.inr hj)

theorem top_subset_env : ∀ j ∈ p.top, j ∈ p.env :=
  fun j hj => p.outer_subset_env j (p.top_suffix.subset hj)

theorem blocks_subset_env : ∀ j ∈ p.blocks, j ∈ p.env :=
  fun j hj => p.own_subset_env j (mem_append.2 (.inl hj))

theorem topScopes_subset_env (nested : Bool) : ∀ j ∈ p.topScopes nested, j ∈ p.env := by
  cases nested with
  | true => exact p.top_subset_env
  | false => exact p.own_subset_env

theorem mem_topScopes_push {p : Place} {nested : Bool} {j k : Nat} {hj : p.scope ≤ j} :
    k ∈ (p.push j hj).topScopes nested ↔ k ∈ p.topScopes nested ∨ nested = false ∧ k = j := by
  cases nested with
  | true => simp [topScopes, push]
  | false =>
    simp only [topScopes, own, push, Bool.false_eq_true, if_false, cons_append, mem_cons,
      true_and]
    exact or_comm

theorem scope_le_own : ∀ j ∈ p.own, p.scope ≤ j :=
  forall_mem_append.2 ⟨p.scope_le, forall_mem_singleton.2 (Nat.le_refl _)⟩

end Place

section Rel

variable {c : Scene} {p : Place} {Γ : Context} {s s' t t' : Store}

/-- The relation is kept when variables change that are not in the context and not lifted functions,
and when scopes are opened. -/
theorem Rel.congr (h : Rel c p Γ s t) (hsize : t'.next = s'.next) (hnext : s.next ≤ s'.next)
    (hsame : ∀ y, y ∈ Γ.names ∨ y ∈ c.all.map (·.1.name) → ∀ j < s.next,
      s'.lookup? j y = s.lookup? j y ∧ t'.lookup? j y = t.lookup? j y) : Rel c p Γ s' t' := by
  have hitem : ∀ a ∈ Γ, ∀ j ∈ p.env,
      s'.lookup? j a.name = s.lookup? j a.name ∧ t'.lookup? j a.name = t.lookup? j a.name :=
    fun a ha j hj => hsame a.name (.inl (mem_map_of_mem ha)) j (h.bound j hj)
  have hfunction : ∀ f ∈ c.all, ∀ j < s.next, t'.lookup? j f.1.name = t.lookup? j f.1.name :=
    fun f hf j hj => (hsame f.1.name (.inr (mem_map_of_mem hf)) j hj).2
  refine ⟨hsize, fun j hj => Nat.lt_of_lt_of_le (h.bound j hj) hnext,
    fun j hj => Nat.lt_of_lt_of_le (h.liftedBound j hj) hnext, ?_, ?_, ?_, ?_, ?_, ?_, ?_⟩
  · intro a ha
    obtain ⟨v, hv⟩ := h.denotes a ha
    exact ⟨v, hv.congr fun j hj => (hitem a ha j hj).1⟩
  · intro a ha hdepth hnested
    exact (h.own a ha hdepth hnested).congr
      (fun j hj => (hitem a ha j (p.own_subset_env j hj)).1)
      fun j hj => (hitem a ha j (p.own_subset_env j hj)).2
  · intro a ha hdepth
    exact (h.top a ha hdepth).congr (fun j hj => (hitem a ha j (p.top_subset_env j hj)).1)
      fun j hj => (hitem a ha j (p.top_subset_env j hj)).2
  · intro a ha hfree
    obtain ⟨hblocks, v, hv, hget⟩ := h.free a ha hfree
    refine ⟨fun j hj => (hitem a ha j (p.blocks_subset_env j hj)).2.trans (hblocks j hj), v,
      hv.congr fun j hj => (hitem a ha j hj).1, ?_⟩
    rw [← hget]
    refine get_congr (forall_mem_cons.2 ⟨?_, fun j hj => ?_⟩)
    · exact (hitem a ha p.scope (p.own_subset_env _ p.scope_mem_own)).2
    · exact (hsame a.name (.inl (mem_map_of_mem ha)) j (h.liftedBound j hj)).2
  · intro f hf
    have hzero : globalScope < s.next := h.size ▸ lt_next_of_lookup? (h.lifted f hf)
    rw [hfunction f hf _ hzero, h.lifted f hf]
  · intro f hf j hj hne
    rw [hfunction f hf j (h.bound j (p.topScopes_subset_env _ j hj)), h.absent f hf j hj hne]
  · intro hnested f hf
    rw [← h.outside hnested f hf]
    exact get_congr fun j hj => hfunction f hf j (h.liftedBound j hj)

theorem Rel.mono {Γ' : Context} (h : Rel c p Γ s t) (hsub : ∀ a ∈ Γ', a ∈ Γ) : Rel c p Γ' s t :=
  ⟨h.size, h.bound, h.liftedBound, fun a ha => h.denotes a (hsub a ha),
    fun a ha => h.own a (hsub a ha), fun a ha => h.top a (hsub a ha),
    fun a ha => h.free a (hsub a ha), h.lifted, h.absent, h.outside⟩

variable {a : Item} {f : Fn}

theorem Rel.cons (h : Rel c p Γ s t) (hdenotes : ∃ v, a.Denotes p.env s v)
    (hown : p.outer.length < a.depth → ¬ a.IsNested → a.Paired p.own p.outer s t)
    (htop : a.depth ≤ p.top.length → a.Paired p.top [] s t)
    (hfree : a.IsNested ∨ a.depth ≤ p.outer.length ∧ c.available a.name →
      (∀ j ∈ p.blocks, t.lookup? j a.name = none) ∧
        ∃ v, a.Denotes p.env s v ∧ t.get (p.scope :: p.liftedOuter) a.name = .ok v) :
    Rel c p (a :: Γ) s t :=
  ⟨h.size, h.bound, h.liftedBound, forall_mem_cons.2 ⟨hdenotes, h.denotes⟩,
    forall_mem_cons.2 ⟨hown, h.own⟩, forall_mem_cons.2 ⟨htop, h.top⟩,
    forall_mem_cons.2 ⟨hfree, h.free⟩, h.lifted, h.absent, h.outside⟩

/-- A scope that was opened and has none of the names is the scope of a block. -/
theorem Rel.push (h : Rel c p Γ s t) {j : Nat} (hj : p.scope ≤ j) (hbound : j < s.next)
    (hs : ∀ a ∈ Γ, s.lookup? j a.name = none) (ht : ∀ a ∈ Γ, t.lookup? j a.name = none)
    (hlifted : c.nested = false → ∀ f ∈ c.all, t.lookup? j f.1.name = none) :
    Rel c (p.push j hj) Γ s t := by
  have hsj : ∀ a ∈ Γ, ∀ k ∈ [j], s.lookup? k a.name = none := fun a ha =>
    forall_mem_singleton.2 (hs a ha)
  have htj : ∀ a ∈ Γ, ∀ k ∈ [j], t.lookup? k a.name = none := fun a ha =>
    forall_mem_singleton.2 (ht a ha)
  refine ⟨h.size, forall_mem_cons.2 ⟨hbound, h.bound⟩, h.liftedBound, ?_, ?_, h.top, ?_,
    h.lifted, ?_, h.outside⟩
  · intro a ha
    obtain ⟨v, hv⟩ := h.denotes a ha
    exact ⟨v, hv.append (hsj a ha)⟩
  · intro a ha hdepth hnested
    exact (h.own a ha hdepth hnested).append (hsj a ha) (htj a ha)
  · intro a ha hfree
    obtain ⟨hblocks, v, hv, hget⟩ := h.free a ha hfree
    exact ⟨forall_mem_cons.2 ⟨ht a ha, hblocks⟩, v, hv.append (hsj a ha), hget⟩
  · intro f hf k hk hne
    rcases Place.mem_topScopes_push.1 hk with hk | ⟨hnested, rfl⟩
    · exact h.absent f hf k hk hne
    · exact hlifted hnested f hf

/-- After a block, what was declared before it is as before. -/
theorem Rel.pop {j : Nat} {hj : p.scope ≤ j} (h : Rel c (p.push j hj) Γ s t)
    (hdepth : ∀ a ∈ Γ, a.depth ≤ p.env.length) : Rel c p Γ s t := by
  refine ⟨h.size, (forall_mem_cons.1 h.bound).2, h.liftedBound, ?_, ?_, h.top, ?_, h.lifted, ?_,
    h.outside⟩
  · intro a ha
    obtain ⟨v, hv⟩ := h.denotes a ha
    exact ⟨v, (Item.Denotes.of_append [j] hv (hdepth a ha)).2⟩
  · intro a ha hlt hnested
    refine (Item.Paired.of_append [j] (h.own a ha hlt hnested) ?_).2
    have hle := hdepth a ha
    rwa [Place.env, length_append] at hle
  · intro a ha hfree
    obtain ⟨hblocks, v, hv, hget⟩ := h.free a ha hfree
    exact ⟨(forall_mem_cons.1 hblocks).2, v,
      (Item.Denotes.of_append [j] hv (hdepth a ha)).2, hget⟩
  · intro f hf k hk
    exact h.absent f hf k (Place.mem_topScopes_push.2 (.inl hk))

/-! ## Variables of the function -/

theorem Place.outer_lt_env (p : Place) : p.outer.length < p.env.length := by
  simp only [Place.env, Place.own, length_append, length_singleton]
  omega

/-- The scopes of a function are not empty, and declarations go to the same one of them on both
sides. -/
theorem Place.exists_own (p : Place) : ∃ rest, p.own = innermost p.env :: rest ∧
    innermost p.liftedEnv = innermost p.env := by
  unfold Place.liftedEnv Place.env Place.own
  cases p.blocks with
  | nil => exact ⟨[], rfl, rfl⟩
  | cons j blocks => exact ⟨blocks ++ [p.scope], rfl, rfl⟩

theorem Place.innermost_mem_own (p : Place) : innermost p.env ∈ p.own := by
  obtain ⟨rest, hown, -⟩ := p.exists_own
  rw [hown]
  exact mem_cons_self ..

theorem Meaning.Represents.not_nested (h : a.meaning = .variable_) : ¬ a.IsNested := by
  simp [Item.IsNested, h, Meaning.entry?]

/-- What the lifted code finds for an item that it may use. -/
theorem Rel.read (h : Rel c p Γ s t) (ha : a ∈ Γ)
    (havailable : a.depth ≤ p.outer.length → c.available a.name) :
    ∃ v, a.Denotes p.env s v ∧ t.get p.liftedEnv a.name = .ok v := by
  have houter : a.IsNested ∨ a.depth ≤ p.outer.length ∧ c.available a.name →
      ∃ v, a.Denotes p.env s v ∧ t.get p.liftedEnv a.name = .ok v := by
    intro hfree
    obtain ⟨hblocks, v, hv, hget⟩ := h.free a ha hfree
    refine ⟨v, hv, ?_⟩
    rw [← hget, Place.liftedEnv, Place.own, append_assoc, get_append hblocks]
    rfl
  by_cases hnested : a.IsNested
  · exact houter (.inl hnested)
  · rcases Nat.lt_or_ge p.outer.length a.depth with hlt | hle
    · obtain ⟨at', w, v, hs, ht, hlength, hrep⟩ := h.own a ha hlt hnested
      exact ⟨v, ⟨at' ++ p.outer, w, hs.append_right _, by simpa using hlength, hrep⟩,
        (ht.append_right _).get rfl⟩
    · exact houter (.inr ⟨hle, havailable hle⟩)

/-- Setting a variable of the function on both sides. -/
theorem Rel.assign (h : Rel c p Γ s t) (hdistinct : Γ.names.Nodup) (ha : a ∈ Γ)
    (hmeaning : a.meaning = .variable_) (hdepth : p.outer.length < a.depth)
    (hunlifted : a.name ∉ c.all.map (·.1.name)) :
    ∃ i w, s.resolve? a.name p.env = some (i, w) ∧ t.resolve? a.name p.liftedEnv = some (i, w) ∧
      p.scope ≤ i ∧ ∀ v : Value, v.IsData →
        Rel c p Γ (s.declare i a.name { w with value := some v })
    (t.declare i a.name { w with value := some v }) := by
  obtain ⟨at', w, u, hs, ht, hlength, hrep⟩ :=
    h.own a ha hdepth (Meaning.Represents.not_nested hmeaning)
  rw [hmeaning] at hrep
  have hw : { w with value := some u } = w := by rw [← hrep.1]
  rw [hw] at ht
  obtain ⟨i, rest, rfl, -, -⟩ := hs.exists_cons
  obtain ⟨_, _, hi, -, hresolve⟩ := (hs.append_right p.outer).exists_cons
  obtain ⟨_, _, hi', -, hresolve'⟩ := (ht.append_right p.liftedOuter).exists_cons
  cases hi
  cases hi'
  refine ⟨i, w, hresolve, hresolve', ?_, fun v hv => ?_⟩
  · exact p.scope_le_own i (hs.suffix.subset (mem_cons_self ..))
  · -- All other names keep their variables.
    have hother : Rel c p (Γ.filter (·.name ≠ a.name)) (s.declare i a.name { w with value := some v })
        (t.declare i a.name { w with value := some v }) := by
      refine (h.mono fun b hb => (mem_filter.1 hb).1).congr (by simp [h.size]) (by simp) ?_
      intro y hy j _
      have hne : y ≠ a.name := by
        rcases hy with hy | hy
        · obtain ⟨b, hb, rfl⟩ := mem_map.1 hy
          simpa using (mem_filter.1 hb).2
        · exact fun hya => hunlifted (hya ▸ hy)
      exact ⟨lookup?_declare_of_ne _ _ j hne, lookup?_declare_of_ne _ _ j hne⟩
    have hs' := hs.declare { w with value := some v }
    have ht' := ht.declare { w with value := some v }
    refine (hother.cons (a := a) ⟨v, _, _, hs'.append_right p.outer, length_append ▸ hlength, ?_⟩
      (fun _ _ => ⟨_, _, v, hs', ht', hlength, ?_⟩) (fun htop => ?_) fun hfree => ?_).mono
      fun b hb => ?_
    · rw [hmeaning]
      exact ⟨rfl, hv⟩
    · rw [hmeaning]
      exact ⟨rfl, hv⟩
    · exact absurd (Nat.le_trans htop p.top_suffix.length_le) (Nat.not_le.2 hdepth)
    · exact (hfree.elim (Meaning.Represents.not_nested hmeaning) fun hfree =>
        absurd hfree.1 (Nat.not_le.2 hdepth)).elim
    · by_cases hba : b.name = a.name
      · rw [inj_on_of_nodup_map hdistinct hb ha hba]
        exact mem_cons_self ..
      · exact mem_cons_of_mem _ (mem_filter.2 ⟨hb, by simpa using hba⟩)

/-- A block variable of the place gets its value on both sides. -/
theorem Rel.declare (h : Rel c p Γ s t) {x : String} (hnew : x ∉ Γ.names)
    (hunlifted : x ∉ c.all.map (·.1.name)) {w : Variable}
    (hs : s.lookup? (innermost p.env) x = some w) (ht : t.lookup? (innermost p.env) x = some w)
    {v : Value} (hv : v.IsData) :
    Rel c p (variableItem p.env.length x :: Γ)
    (s.declare (innermost p.env) x { w with value := some v })
    (t.declare (innermost p.env) x { w with value := some v }) := by
  obtain ⟨rest, hown, -⟩ := p.exists_own
  have hother : Rel c p Γ (s.declare (innermost p.env) x { w with value := some v })
      (t.declare (innermost p.env) x { w with value := some v }) := by
    refine h.congr (by simp [h.size]) (by simp) fun y hy j _ => ?_
    have hne : y ≠ x := by
      rintro rfl
      exact hy.elim hnew hunlifted
    exact ⟨lookup?_declare_of_ne _ _ j hne, lookup?_declare_of_ne _ _ j hne⟩
  have hs' : (s.declare (innermost p.env) x { w with value := some v }).Finds x p.own p.own
      { w with value := some v } := by
    rw [hown]
    exact .here (lookup?_declare_self (lt_next_of_lookup? hs) _ _)
  have ht' : (t.declare (innermost p.env) x { w with value := some v }).Finds x p.own p.own
      { w with value := some v } := by
    rw [hown]
    exact .here (lookup?_declare_self (lt_next_of_lookup? ht) _ _)
  have hdepth := p.outer_lt_env
  refine hother.cons ⟨v, p.env, _, hs'.append_right p.outer, rfl, rfl, hv⟩
    (fun _ _ => ⟨p.own, _, v, hs', ht', by simp [Place.env, variableItem], rfl, hv⟩)
    (fun htop => ?_) fun hfree => ?_
  · exact absurd (Nat.le_trans htop p.top_suffix.length_le) (Nat.not_le.2 hdepth)
  · exact (hfree.elim (Meaning.Represents.not_nested rfl) fun hfree =>
      absurd hfree.1 (Nat.not_le.2 hdepth)).elim

/-! ## Functions of the place -/

/-- The scopes that are open at a place are those that the static side counts. -/
structure Place.Fits (p : Place) (c : Scene) (q : Spot) : Prop where
  depth : p.env.length = q.depth
  base : p.outer.length = c.base
  global : c.nested = false → p.outer = [] ∧ p.liftedOuter = []
  last : p.env.getLast? = some globalScope
  nested : c.nested = true → ∀ a ∈ q.context, ∀ f, a.meaning = .function f → f.nested = true →
    p.top.length < a.depth
  notNested : c.nested = true → ∀ a ∈ q.context, ∀ f, a.meaning = .function f → f.nested = false →
    a.depth ≤ p.top.length

theorem Fn.target_of_nested (h : f.nested = true) (env : Environment) :
    f.target env = liftedClosure (f.entry, f.lifted.kept) := by
  simp [Fn.target, Fn.liftedHead, liftedClosure, h]

/-- A function that is declared in a function is an item from its declaration on. -/
theorem Rel.nestedFunction (h : Rel c p Γ s t) (hnested : c.nested = true)
    (hmeaning : a.meaning = .function f) (hf : f.nested = true) (hdepth : a.depth = p.env.length)
    (hname : f.entry.name = a.name) (hall : (f.entry, f.lifted.kept) ∈ c.all)
    (hs : s.lookup? (innermost p.env) a.name =
      some (.ofFunction ⟨p.env, f.head, f.body⟩)) (ht : ∀ j ∈ p.own, t.lookup? j a.name = none) :
    Rel c p (a :: Γ) s t := by
  obtain ⟨rest, hown, -⟩ := p.exists_own
  have hfinds : s.Finds a.name p.env p.env
      (.ofFunction ⟨p.env, f.head, f.body⟩) := by
    have henv : p.env = innermost p.env :: (rest ++ p.outer) := by
      rw [← cons_append, ← hown, Place.env]
    rw [henv] at hs ⊢
    exact .here hs
  have hdenotes : a.Denotes p.env s (.function (f.target p.env)) :=
    ⟨p.env, _, hfinds, hdepth.symm, by rw [hmeaning]; exact ⟨rfl, rfl⟩⟩
  have hisNested : a.IsNested := by simp [Item.IsNested, hmeaning, Meaning.entry?, hf]
  refine h.cons ⟨_, hdenotes⟩ (fun _ hnot => absurd hisNested hnot) (fun htop => ?_) fun _ => ?_
  · have hle := Nat.le_trans htop p.top_suffix.length_le
    have hlt := p.outer_lt_env
    omega
  · refine ⟨fun j hj => ht j (mem_append.2 (.inl hj)), _, hdenotes, ?_⟩
    have hscope : ∀ j ∈ [p.scope], t.lookup? j a.name = none :=
      forall_mem_singleton.2 (ht _ p.scope_mem_own)
    rw [show p.scope :: p.liftedOuter = [p.scope] ++ p.liftedOuter from rfl,
      get_append hscope, Fn.target_of_nested hf, ← hname]
    exact h.outside hnested _ hall

/-- A function that is declared outside of functions is an item from its declaration on. -/
theorem Rel.outerFunction (h : Rel c p Γ s t) (houter : p.outer = [])
    (hmeaning : a.meaning = .function f) (hf : f.nested = false) (hdepth : a.depth = p.env.length)
    (hs : s.lookup? (innermost p.env) a.name =
      some (.ofFunction ⟨p.env, f.head, f.body⟩))
    (ht : t.lookup? (innermost p.env) a.name = some (.ofFunction (f.target p.env))) :
    Rel c p (a :: Γ) s t := by
  obtain ⟨rest, hown, -⟩ := p.exists_own
  have henv : p.env = p.own := by rw [Place.env, houter, append_nil]
  have hfinds : s.Finds a.name p.own p.own
      (.ofFunction ⟨p.env, f.head, f.body⟩) := by
    rw [hown]
    exact .here hs
  have hfinds' : t.Finds a.name p.own p.own (.ofFunction (f.target p.env)) := by
    rw [hown]
    exact .here ht
  have hrep : a.meaning.Represents p.env (.ofFunction ⟨p.env, f.head, f.body⟩)
      (.function (f.target p.env)) := by
    rw [hmeaning]
    exact ⟨rfl, rfl⟩
  have hlt := p.outer_lt_env
  refine h.cons ⟨_, p.env, _, henv ▸ hfinds, hdepth.symm, hrep⟩
    (fun _ _ => ⟨p.own, _, _, hfinds, hfinds', ?_, ?_⟩) (fun htop => ?_) fun hfree => ?_
  · rw [houter, hdepth, henv]
    rfl
  · rw [houter, append_nil, ← henv]
    exact hrep
  · have hle := Nat.le_trans htop p.top_suffix.length_le
    omega
  · rcases hfree with hnested | ⟨hle, -⟩
    · simp [Item.IsNested, hmeaning, Meaning.entry?, hf] at hnested
    · omega

end Rel

end Behaviour

end LambdaLift
