import LambdaLift.Lifting.Registry
import Mathlib.Data.List.Basic
import Mathlib.Data.List.Induction

/-!
# A registry as the journal of what was entered

Entering a name again replaces a function in its place, and a body is taken only with the right
ticket. `Registry.Records r j` says that `r` is what remains of the journal `j` of all functions
entered since the registry was last cleared, replaced ones included.

* `Records.register`, `Records.setBody`: entering a function adds it to the journal, and a body goes
  to the function in the journal that has the ticket.
* `Records.get?`: the function of a name is the last one of that name in the journal.
* `Records.entries_eq`: the registry lists every name of the journal once, in the order in which
  the names first occur, with the last function of that name.
-/

namespace LambdaLift

open List

namespace Registry

variable {β : Type}

/-- Functions with their tickets, in the order in which they were entered. -/
abbrev Journal (β : Type) := List (Nat × LiftedFunction β)

/-- The entries that remain of a journal. -/
def remaining (j : Journal β) : Journal β :=
  j.foldl (fun es e => place e es) []

/-- The last function of a name in a journal. -/
def last? (j : Journal β) (name : String) : Option (Nat × LiftedFunction β) :=
  j.reverse.find? (·.2.name = name)

/-- The registry is what remains of the journal, whose tickets are distinct and were given out. -/
structure Records (r : Registry β) (j : Journal β) : Prop where
  entries : r.entries = remaining j
  issued : ∀ e ∈ j, e.1 < r.issued
  distinct : (j.map Prod.fst).Nodup

theorem remaining_concat (j : Journal β) (e : Nat × LiftedFunction β) :
    remaining (j ++ [e]) = place e (remaining j) := by
  simp [remaining]

/-! ## Entering a function -/

theorem Records.clear (r : Registry β) : r.clear.Records [] where
  entries := rfl
  issued := by simp
  distinct := nodup_nil

variable {r : Registry β} {j : Journal β}

theorem Records.register (h : r.Records j) (f : LiftedFunction β) :
    (r.register f).Records (j ++ [(r.nextTicket, f)]) where
  entries := by rw [remaining_concat, ← h.entries]; rfl
  issued := by
    intro e he
    rcases mem_append.1 he with he | he
    · exact Nat.lt_succ_of_lt (h.issued e he)
    · rw [mem_singleton.1 he]; exact Nat.lt_succ_self _
  distinct := by
    rw [map_append, nodup_append]
    refine ⟨h.distinct, by simp, ?_⟩
    intro t ht t' ht'
    obtain ⟨e, he, rfl⟩ := mem_map.1 ht
    have hlt := h.issued e he
    rw [map_singleton, mem_singleton] at ht'
    subst ht'
    exact Nat.ne_of_lt hlt

/-! ## Giving a function its body -/

/-- Gives an entry its body if it has the name and the ticket. -/
def giveBody (name : String) (ticket : Nat) (body : β) (e : Nat × LiftedFunction β) :
    Nat × LiftedFunction β :=
  if e.2.name = name && e.1 = ticket then (e.1, { e.2 with body := some body }) else e

theorem giveBody_name (name : String) (ticket : Nat) (body : β) (e : Nat × LiftedFunction β) :
    (giveBody name ticket body e).2.name = e.2.name := by
  unfold giveBody
  split <;> rfl

theorem giveBody_ticket (name : String) (ticket : Nat) (body : β) (e : Nat × LiftedFunction β) :
    (giveBody name ticket body e).1 = e.1 := by
  unfold giveBody
  split <;> rfl

theorem setBody_entries (r : Registry β) (name : String) (ticket : Nat) (body : β) :
    (r.setBody name ticket body).entries = r.entries.map (giveBody name ticket body) := rfl

theorem place_map (g : Nat × LiftedFunction β → Nat × LiftedFunction β)
    (hg : ∀ e, (g e).2.name = e.2.name) (e : Nat × LiftedFunction β) (es : Journal β) :
    place (g e) (es.map g) = (place e es).map g := by
  induction es with
  | nil => rfl
  | cons d ds ih =>
    simp only [map_cons, place, hg]
    split
    · rfl
    · rw [ih, map_cons]

theorem remaining_map (g : Nat × LiftedFunction β → Nat × LiftedFunction β)
    (hg : ∀ e, (g e).2.name = e.2.name) (j : Journal β) :
    remaining (j.map g) = (remaining j).map g := by
  induction j using reverseRecOn with
  | nil => rfl
  | append_singleton j e ih =>
    rw [map_append, map_singleton, remaining_concat, ih, place_map g hg,
      remaining_concat]

/-- A body that is given to the registry is given to the journal. -/
theorem Records.map_giveBody (h : r.Records j) (name : String) (ticket : Nat) (body : β) :
    (r.setBody name ticket body).Records (j.map (giveBody name ticket body)) where
  entries := by rw [setBody_entries, h.entries, remaining_map _ (giveBody_name _ _ _)]
  issued := by
    intro e he
    obtain ⟨d, hd, rfl⟩ := mem_map.1 he
    rw [giveBody_ticket]
    exact h.issued d hd
  distinct := by
    have hfst : Prod.fst ∘ giveBody name ticket body = Prod.fst :=
      funext (giveBody_ticket name ticket body)
    rw [map_map, hfst]
    exact h.distinct

/-- A body goes to the function in the journal that has the ticket, and to no other one. -/
theorem Records.setBody {before after : Journal β} {ticket : Nat} {f : LiftedFunction β}
    (h : r.Records (before ++ (ticket, f) :: after)) (body : β) :
    (r.setBody f.name ticket body).Records
      (before ++ (ticket, { f with body := some body }) :: after) := by
  have hmap : (before ++ (ticket, f) :: after).map (giveBody f.name ticket body) =
      before ++ (ticket, { f with body := some body }) :: after := by
    have hd := h.distinct
    rw [map_append, map_cons, nodup_append, nodup_cons] at hd
    obtain ⟨-, ⟨hafter, -⟩, hbefore⟩ := hd
    have keep : ∀ es : Journal β, (∀ e ∈ es, e.1 ≠ ticket) →
        es.map (giveBody f.name ticket body) = es := by
      intro es hes
      rw [map_congr_left (g := id) (fun e he => by simp [giveBody, hes e he]), map_id]
    rw [map_append, map_cons, keep before, keep after]
    · simp [giveBody]
    · intro e he hticket
      exact hafter (mem_map.2 ⟨e, he, hticket⟩)
    · intro e he hticket
      exact hbefore e.1 (mem_map.2 ⟨e, he, rfl⟩) ticket (mem_cons_self ..) hticket
  rw [← hmap]
  exact h.map_giveBody f.name ticket body

/-! ## Reading a registry -/

theorem last?_concat (j : Journal β) (e : Nat × LiftedFunction β) (name : String) :
    last? (j ++ [e]) name = if e.2.name = name then some e else last? j name := by
  by_cases h : e.2.name = name <;> simp [last?, h]

theorem find?_place (e : Nat × LiftedFunction β) (es : Journal β) (name : String) :
    (place e es).find? (·.2.name = name) =
      if e.2.name = name then some e else es.find? (·.2.name = name) := by
  induction es with
  | nil => by_cases h : e.2.name = name <;> simp [place, h]
  | cons d ds ih =>
    by_cases hd : d.2.name = e.2.name <;> by_cases he : e.2.name = name <;>
      by_cases hn : d.2.name = name <;> simp_all [place]

theorem find?_remaining (j : Journal β) (name : String) :
    (remaining j).find? (·.2.name = name) = last? j name := by
  induction j using reverseRecOn with
  | nil => rfl
  | append_singleton j e ih => rw [remaining_concat, find?_place, ih, last?_concat]

/-- The function of a name is the last one that was entered under it. -/
theorem Records.get? (h : r.Records j) (name : String) :
    r.get? name = (last? j name).map Prod.snd := by
  rw [Registry.get?, functions, find?_map, h.entries, ← find?_remaining]
  rfl

theorem map_name_place (e : Nat × LiftedFunction β) (es : Journal β) :
    (place e es).map (·.2.name) =
      es.map (·.2.name) ++ if e.2.name ∈ es.map (·.2.name) then [] else [e.2.name] := by
  induction es with
  | nil => simp [place]
  | cons d ds ih =>
    by_cases hd : d.2.name = e.2.name
    · simp [place, hd]
    · have hd' : ¬ e.2.name = d.2.name := fun h => hd h.symm
      simp only [place, hd, ↓reduceIte, map_cons, ih, cons_append, mem_cons, hd',
        false_or]

/-- The names that remain are those of the journal, each once and in the place of the first. -/
theorem map_name_remaining (j : Journal β) :
    (remaining j).map (·.2.name) = (j.map (·.2.name)).eraseDups := by
  induction j using reverseRecOn with
  | nil => rfl
  | append_singleton j e ih =>
    rw [remaining_concat, map_name_place, ih, map_append, eraseDups_append,
      map_singleton]
    by_cases h : e.2.name ∈ j.map (·.2.name) <;>
      simp [removeAll, mem_eraseDups, h, eraseDups_cons]

theorem nodup_remaining (j : Journal β) : ((remaining j).map (·.2.name)).Nodup := by
  induction j using reverseRecOn with
  | nil => exact nodup_nil
  | append_singleton j e ih =>
    rw [remaining_concat, map_name_place]
    split
    · simpa using ih
    · rename_i h
      rw [nodup_append]
      refine ⟨ih, by simp, ?_⟩
      intro x hx y hy
      rw [mem_singleton.1 hy]
      exact fun heq => h (heq ▸ hx)

/-- A list without repeated names consists of what is found under its names. -/
theorem eq_filterMap_find? (es : Journal β) (h : (es.map (·.2.name)).Nodup) :
    es = (es.map (·.2.name)).filterMap fun x => es.find? (·.2.name = x) := by
  induction es with
  | nil => rfl
  | cons d ds ih =>
    rw [map_cons, nodup_cons] at h
    have hrest : (ds.map (·.2.name)).filterMap (fun x => (d :: ds).find? (·.2.name = x)) =
        (ds.map (·.2.name)).filterMap fun x => ds.find? (·.2.name = x) := by
      apply filterMap_congr
      intro x hx
      have hne : d.2.name ≠ x := fun heq => h.1 (heq ▸ hx)
      simp [hne]
    rw [map_cons, filterMap_cons, hrest, ← ih h.2]
    simp

/-- A registry lists each name of its journal once, in the order in which the names were first
entered, with the function that was entered last under the name. -/
theorem Records.entries_eq (h : r.Records j) :
    r.entries = (j.map (·.2.name)).eraseDups.filterMap (last? j) := by
  rw [h.entries, eq_filterMap_find? _ (nodup_remaining j), map_name_remaining]
  congr 1
  funext x
  exact find?_remaining j x

end Registry

end LambdaLift
