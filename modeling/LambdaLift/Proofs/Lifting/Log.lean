import LambdaLift.Proofs.Lifting.Journal
import Mathlib.Data.List.DropRight

/-!
# A registry and its log

A registry is entered into, given bodies and cleared in any order, with tickets that may be out of
date. What it then holds can be read off the log of these events alone.

* `Event`, `ofLog`: what can be done to a registry, and the registry that a log of events leads to.
* `enteredNames log`: the names that were entered since the log last cleared the registry.
* `Latest log ticket f after`: the last time that the name of `f` was entered since then, it was with
  `f`, which got the ticket `ticket`; the events `after` came later.
* `Follows log r j`: the registry `r` and its journal `j` agree with the log. Each event keeps this
  (`Follows.register`, `Follows.setBody`, `Follows.clear`), so every log leads to such a registry.
* `ofLog_holds_latest`: a registry holds what its log says.
-/

namespace LambdaLift

open List

namespace Registry

variable {β : Type}

/-- What can be done to a registry. -/
inductive Event (β : Type)
  | register (f : LiftedFunction β)
  | setBody (name : String) (ticket : Nat) (body : β)
  | clear

namespace Event

/-- The registry after an event. -/
def apply (r : Registry β) : Event β → Registry β
  | register f => r.register f
  | setBody name ticket body => r.setBody name ticket body
  | clear => r.clear

/-- The function that an event enters. -/
def entered? : Event β → Option (LiftedFunction β)
  | register f => some f
  | setBody .. | clear => none

/-- The body that an event gives under a name and with a ticket. -/
def bodyFor? (name : String) (ticket : Nat) : Event β → Option β
  | setBody n t body => if n = name ∧ t = ticket then some body else none
  | register _ | clear => none

/-- Whether an event clears the registry. -/
def isClear : Event β → Bool
  | clear => true
  | register _ | setBody .. => false

end Event

/-- The registry that a log of events leads to, from a new one. -/
def ofLog (log : List (Event β)) : Registry β :=
  log.foldl Event.apply {}

/-- The functions that a log enters. -/
def entered (log : List (Event β)) : List (LiftedFunction β) :=
  log.filterMap Event.entered?

/-- The events since the registry was last cleared. -/
def sinceClear (log : List (Event β)) : List (Event β) :=
  log.rtakeWhile (!·.isClear)

/-- The names that were entered since the registry was last cleared, each as often as it was. -/
def enteredNames (log : List (Event β)) : List String :=
  (entered (sinceClear log)).map (·.name)

/-- The last body that a log gives under a name and with a ticket. -/
def givenBody? (name : String) (ticket : Nat) (log : List (Event β)) : Option β :=
  log.reverse.findSome? (Event.bodyFor? name ticket)

/-- The log entered `f` with the ticket `ticket`, tickets being counted from the start of the log.
In the events `after` it, the registry was not cleared and the name was not entered again. -/
structure Latest (log : List (Event β)) (ticket : Nat) (f : LiftedFunction β)
    (after : List (Event β)) : Prop where
  split : ∃ before, log = before ++ .register f :: after ∧ ticket = (entered before).length
  kept : ∀ e ∈ after, e.isClear = false
  last : ∀ g ∈ entered after, g.name ≠ f.name

/-! ## One more event -/

section Concat

variable (log : List (Event β)) (e : Event β)

theorem ofLog_concat : ofLog (log ++ [e]) = e.apply (ofLog log) := by
  simp [ofLog]

theorem length_entered_concat :
    (entered (log ++ [e])).length = (entered log).length + e.entered?.toList.length := by
  cases e <;> simp [entered, Event.entered?]

theorem enteredNames_concat : enteredNames (log ++ [e]) =
    if e.isClear then [] else enteredNames log ++ e.entered?.toList.map (·.name) := by
  cases e <;>
    simp [enteredNames, sinceClear, entered, Event.isClear, Event.entered?]

theorem givenBody?_concat (name : String) (ticket : Nat) :
    givenBody? name ticket (log ++ [e]) =
      (e.bodyFor? name ticket).or (givenBody? name ticket log) := by
  rw [givenBody?, reverse_concat, findSome?_cons, givenBody?]
  cases e.bodyFor? name ticket <;> rfl

end Concat

namespace Latest

variable {log after : List (Event β)} {ticket : Nat} {f : LiftedFunction β} {e : Event β}

theorem of_register (log : List (Event β)) (f : LiftedFunction β) :
    Latest (log ++ [.register f]) (entered log).length f [] where
  split := ⟨log, rfl, rfl⟩
  kept := by simp
  last := by simp [entered]

theorem concat (h : Latest log ticket f after) (hclear : e.isClear = false)
    (hname : ∀ g, e.entered? = some g → g.name ≠ f.name) :
    Latest (log ++ [e]) ticket f (after ++ [e]) where
  split := by
    obtain ⟨before, rfl, hticket⟩ := h.split
    exact ⟨before, by simp, hticket⟩
  kept := by
    intro d hd
    rcases mem_append.1 hd with hd | hd
    · exact h.kept d hd
    · rwa [mem_singleton.1 hd]
  last := by
    intro g hg
    rw [entered, filterMap_append, mem_append] at hg
    rcases hg with hg | hg
    · exact h.last g hg
    · exact hname g (by simpa using hg)

/-- What was entered last was entered by the last event, or before it and not replaced by it. -/
theorem concat_cases (h : Latest (log ++ [e]) ticket f after) :
    (e = .register f ∧ ticket = (entered log).length ∧ after = []) ∨
      ∃ earlier, after = earlier ++ [e] ∧ Latest log ticket f earlier ∧ e.isClear = false ∧
        ∀ g, e.entered? = some g → g.name ≠ f.name := by
  obtain ⟨before, hsplit, hticket⟩ := h.split
  rcases eq_nil_or_concat' after with rfl | ⟨earlier, d, rfl⟩
  · obtain ⟨rfl, he⟩ := append_inj' hsplit rfl
    exact .inl ⟨by simpa using he, hticket, rfl⟩
  · rw [← cons_append, ← append_assoc] at hsplit
    obtain ⟨rfl, he⟩ := append_inj' hsplit rfl
    obtain rfl : e = d := by simpa using he
    refine .inr ⟨earlier, rfl, ⟨⟨before, rfl, hticket⟩, ?_, ?_⟩, h.kept e (by simp), ?_⟩
    · exact fun d hd => h.kept d (mem_append_left _ hd)
    · intro g hg
      exact h.last g (by rw [entered, filterMap_append]; exact mem_append_left _ hg)
    · intro g hg
      exact h.last g (by simp [entered, hg])

end Latest

/-- A name that was entered since the registry was last cleared was entered last at some event. -/
theorem exists_latest {log : List (Event β)} {name : String} (h : name ∈ enteredNames log) :
    ∃ ticket f after, f.name = name ∧ Latest log ticket f after := by
  induction log using reverseRecOn with
  | nil => simp [enteredNames, entered, sinceClear] at h
  | append_singleton log e ih =>
    rw [enteredNames_concat] at h
    cases e with
    | register g =>
      by_cases hname : g.name = name
      · exact ⟨_, g, [], hname, .of_register log g⟩
      · have hbefore : name ∈ enteredNames log := by
          simpa [Event.isClear, Event.entered?, Ne.symm hname] using h
        obtain ⟨ticket, f, after, rfl, hlatest⟩ := ih hbefore
        refine ⟨ticket, f, _, rfl, hlatest.concat rfl ?_⟩
        rintro _ ⟨⟩
        exact hname
    | setBody n t body =>
      obtain ⟨ticket, f, after, hf, hlatest⟩ :=
        ih (by simpa [Event.isClear, Event.entered?] using h)
      exact ⟨ticket, f, _, hf, hlatest.concat rfl (by simp [Event.entered?])⟩
    | clear => simp [Event.isClear] at h

/-! ## What a log leads to -/

/-- The registry and its journal are what the log says. -/
structure Follows (log : List (Event β)) (r : Registry β) (j : Journal β) : Prop where
  records : r.Records j
  issued : r.issued = (entered log).length
  names : j.map (·.2.name) = enteredNames log
  latest : ∀ ticket f after, Latest log ticket f after →
    last? j f.name = some (ticket, { f with body := (givenBody? f.name ticket after).or f.body })

namespace Follows

variable {log : List (Event β)} {r : Registry β} {j : Journal β}

theorem register (h : Follows log r j) (g : LiftedFunction β) :
    Follows (log ++ [.register g]) (r.register g) (j ++ [(r.nextTicket, g)]) where
  records := h.records.register g
  issued := by rw [length_entered_concat, ← h.issued]; rfl
  names := by rw [enteredNames_concat, ← h.names]; simp [Event.isClear, Event.entered?]
  latest ticket f after hlatest := by
    rw [last?_concat]
    rcases hlatest.concat_cases with ⟨⟨⟩, hticket, rfl⟩ | ⟨earlier, rfl, hlatest, -, hname⟩
    · rw [if_pos rfl, nextTicket, h.issued, hticket]
      rfl
    · rw [if_neg (hname g rfl), h.latest ticket f earlier hlatest, givenBody?_concat]
      rfl

theorem last?_map_giveBody (name n : String) (ticket : Nat) (body : β) (j : Journal β) :
    last? (j.map (giveBody n ticket body)) name = (last? j name).map (giveBody n ticket body) := by
  rw [last?, last?, ← map_reverse, find?_map]
  congr 2
  funext e
  simp [giveBody_name]

theorem setBody (h : Follows log r j) (n : String) (t : Nat) (body : β) :
    Follows (log ++ [.setBody n t body]) (r.setBody n t body) (j.map (giveBody n t body)) where
  records := h.records.map_giveBody n t body
  issued := by rw [length_entered_concat, ← h.issued]; rfl
  names := by
    rw [enteredNames_concat, ← h.names, map_map]
    simp [Event.isClear, Event.entered?, giveBody_name]
  latest ticket f after hlatest := by
    obtain ⟨⟨⟩, -⟩ | ⟨earlier, rfl, hlatest, -, -⟩ := hlatest.concat_cases
    rw [last?_map_giveBody, h.latest ticket f earlier hlatest, givenBody?_concat]
    by_cases hown : f.name = n ∧ ticket = t
    · obtain ⟨rfl, rfl⟩ := hown
      simp [giveBody, Event.bodyFor?]
    · have hother : ¬ (n = f.name ∧ t = ticket) := by
        rintro ⟨rfl, rfl⟩
        exact hown ⟨rfl, rfl⟩
      simp [giveBody, Event.bodyFor?, hown, hother]

theorem clear (h : Follows log r j) : Follows (log ++ [.clear]) r.clear [] where
  records := .clear r
  issued := by rw [length_entered_concat, ← h.issued]; rfl
  names := by rw [enteredNames_concat]; rfl
  latest ticket f after hlatest := by
    obtain ⟨⟨⟩, -⟩ | ⟨-, -, -, ⟨⟩, -⟩ := hlatest.concat_cases

end Follows

/-- Every log leads to a registry with a journal that agrees with the log. -/
theorem exists_follows (log : List (Event β)) : ∃ j, Follows log (ofLog log) j := by
  induction log using reverseRecOn with
  | nil => exact ⟨[], .clear {}, rfl, rfl, fun _ _ _ h => by simpa using h.split⟩
  | append_singleton log e ih =>
    obtain ⟨j, h⟩ := ih
    rw [ofLog_concat]
    cases e with
    | register f => exact ⟨_, h.register f⟩
    | setBody name ticket body => exact ⟨_, h.setBody name ticket body⟩
    | clear => exact ⟨_, h.clear⟩

/-! ## What a registry holds -/

/-- What remains of a journal under a name is what was entered last under it. -/
theorem last?_of_mem_remaining {j : Journal β} {e : Nat × LiftedFunction β}
    (he : e ∈ remaining j) : last? j e.2.name = some e := by
  rw [← find?_remaining]
  have hnodup := nodup_remaining j
  generalize remaining j = es at he hnodup
  induction es with
  | nil => cases he
  | cons d ds ih =>
    rw [map_cons, nodup_cons] at hnodup
    rcases mem_cons.1 he with rfl | he
    · simp
    · have hne : d.2.name ≠ e.2.name := fun heq =>
        hnodup.1 (heq ▸ mem_map_of_mem he)
      simpa [hne] using ih he hnodup.2

/-- **A registry holds what its log says.** Whatever was done to a registry, in any order and with
any tickets, it lists every name that was entered since it was last cleared, once and in the order
in which the names were first entered. Under such a name it holds the function that was entered
last, with the body that was last given under the name and with the ticket of that function, if one
was. A body that comes with any other ticket changes nothing. -/
theorem ofLog_holds_latest (log : List (Event β)) :
    (ofLog log).functions.map (·.name) = (enteredNames log).eraseDups ∧
    ((ofLog log).functions.map (·.name)).Nodup ∧
    (∀ f ∈ (ofLog log).functions, (ofLog log).get? f.name = some f) ∧
    (∀ name ∉ enteredNames log, (ofLog log).get? name = none) ∧
    (∀ name ∈ enteredNames log, ∃ ticket f after, f.name = name ∧ Latest log ticket f after) ∧
    (∀ ticket f after, Latest log ticket f after →
      (ofLog log).get? f.name =
        some { f with body := (givenBody? f.name ticket after).or f.body }) ∧
    ∀ name ticket body, (¬ ∃ f after, f.name = name ∧ Latest log ticket f after) →
      (ofLog log).setBody name ticket body = ofLog log := by
  obtain ⟨j, h⟩ := exists_follows log
  have hnames : (ofLog log).functions.map (·.name) = (remaining j).map (·.2.name) := by
    rw [functions, List.map_map, h.records.entries]
    rfl
  have hlast (name : String) (hname : name ∉ enteredNames log) : last? j name = none := by
    rw [← h.names] at hname
    rw [last?, List.find?_eq_none]
    intro e he heq
    exact hname (List.mem_map.2 ⟨e, List.mem_reverse.1 he, by simpa using heq⟩)
  refine ⟨?_, ?_, ?_, ?_, fun name => exists_latest, ?_, ?_⟩
  · rw [hnames, map_name_remaining, h.names]
  · rw [hnames]
    exact nodup_remaining j
  · intro f hf
    obtain ⟨e, he, rfl⟩ := List.mem_map.1 hf
    rw [h.records.entries] at he
    rw [h.records.get?, last?_of_mem_remaining he, Option.map_some]
  · intro name hname
    rw [h.records.get?, hlast name hname, Option.map_none]
  · intro ticket f after hlatest
    rw [h.records.get?, h.latest ticket f after hlatest]
    rfl
  · intro name ticket body hstale
    -- An entry with this name and ticket would be the latest one of the name.
    have hkeep : ∀ e ∈ (ofLog log).entries, giveBody name ticket body e = e := by
      intro e he
      rw [h.records.entries] at he
      have he := last?_of_mem_remaining he
      rw [giveBody, if_neg]
      simp only [Bool.and_eq_true, decide_eq_true_eq, not_and]
      rintro rfl rfl
      by_cases hname : e.2.name ∈ enteredNames log
      · obtain ⟨t, f, after, hf, hlatest⟩ := exists_latest hname
        rw [← hf, h.latest t f after hlatest] at he
        obtain rfl := Option.some.inj he
        exact hstale ⟨f, after, rfl, hlatest⟩
      · rw [hlast _ hname] at he
        cases he
    have hsame := setBody_entries (ofLog log) name ticket body
    rw [List.map_congr_left hkeep, List.map_id'] at hsame
    exact congrArg (Registry.mk · (ofLog log).issued) hsame

end Registry

end LambdaLift
