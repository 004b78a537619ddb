import StyleTree.Proofs.Sheet.Hoisting
import StyleTree.Proofs.Sheet.Building

/-! Writing again. A selector has what it had before, with what the facts about it put in one after the other.
    So the same facts once more, in the same order, change nothing, and neither do chains that have their
    buckets. -/

namespace StyleTree

open Selector (insertNew foldl_insertNew_of_subset mem_foldl_insertNew)

/-! ### Facts again -/

/-- The declarations of a selector behind facts about it. -/
def declared (ds? : Option (List (String × String))) (facts : List (String × String)) : Option (List (String × String)) :=
  if facts = [] then ds? else some (Assoc.putAll (ds?.getD []) facts)

@[simp] theorem declared_nil (ds? : Option (List (String × String))) : declared ds? [] = ds? := rfl

theorem declared_append (ds? : Option (List (String × String))) (facts facts' : List (String × String)) :
    declared ds? (facts ++ facts') = declared (declared ds? facts) facts' := by
  by_cases h : facts = []
  · simp [h]
  · by_cases h' : facts' = []
    · simp [h']
    · simp [declared, h, h', Assoc.putAll_append]

theorem declared_self (ds? : Option (List (String × String))) (facts : List (String × String)) :
    declared (declared ds? facts) facts = declared ds? facts := by
  by_cases h : facts = []
  · simp [h]
  · simp [declared, h, Assoc.putAll_putAll_self]

def Label.raw? : Label → Option String
  | .raw text => some text
  | .rule _ => none

namespace RuleTable

theorem declarations?_call (t : RuleTable) (c : TableCall) (selector : String) :
    (t.call c).declarations? selector = declared (t.declarations? selector) (c.write? selector).toList := by
  cases c with
  | raw text => exact declarations?_pushRaw t text selector
  | fact f =>
    rw [call, apply, declarations?_applyTo, TableCall.write?]
    split <;> rfl

theorem declarations?_foldl_call (t : RuleTable) (calls : List TableCall) (selector : String) :
    (calls.foldl call t).declarations? selector = declared (t.declarations? selector) (TableCall.writes selector calls) := by
  induction calls generalizing t with
  | nil => rfl
  | cons c calls ih =>
    have hwrites : TableCall.writes selector (c :: calls) =
        (c.write? selector).toList ++ TableCall.writes selector calls := by
      cases h : c.write? selector <;> simp [TableCall.writes, h]
    rw [List.foldl_cons, ih, declarations?_call, hwrites, declared_append]

/-- The raw texts of the table. -/
def texts (t : RuleTable) : List String := (t.entries.map Entry.label).filterMap Label.raw?

theorem texts_call (t : RuleTable) (c : TableCall) : (t.call c).texts = t.texts ++ c.label.raw?.toList := by
  cases c with
  | raw text => simp [texts, call, pushRaw, TableCall.label, Label.raw?, Entry.label]
  | fact f =>
    rw [texts, call, apply, map_label_applyTo]
    split
    · exact (List.append_nil _).symm
    · rw [List.filterMap_append]
      rfl

theorem texts_foldl_call (t : RuleTable) (calls : List TableCall) :
    (calls.foldl call t).texts = t.texts ++ calls.filterMap fun c => c.label.raw? := by
  induction calls generalizing t with
  | nil => exact (List.append_nil _).symm
  | cons c calls ih =>
    rw [List.foldl_cons, ih, texts_call, List.append_assoc]
    cases h : c.label.raw? <;> simp [h]

end RuleTable

/-! ### Chains again -/

/-- The two lists put the same new members in the same order behind any list. -/
def SameNew (l l' : List Chain) : Prop := ∀ seen, l.foldl insertNew seen = l'.foldl insertNew seen

theorem SameNew.flatMap {α : Type} {f g : α → List Chain} {l : List α} (h : ∀ a ∈ l, SameNew (f a) (g a)) :
    SameNew (l.flatMap f) (l.flatMap g) := by
  induction l with
  | nil => exact fun _ => rfl
  | cons a l ih =>
    intro seen
    rw [List.flatMap_cons, List.flatMap_cons, List.foldl_append, List.foldl_append, h a List.mem_cons_self,
      ih fun b hb => h b (List.mem_cons_of_mem _ hb)]

/-- One chain time and again is new once. -/
theorem foldl_insertNew_of_forall_eq {l : List Chain} {chain : Chain} (h : ∀ c ∈ l, c = chain) (hne : l ≠ [])
    (seen : List Chain) : l.foldl insertNew seen = insertNew seen chain := by
  obtain ⟨c, l, rfl⟩ := List.exists_cons_of_ne_nil hne
  obtain rfl := h c List.mem_cons_self
  rw [List.foldl_cons]
  refine foldl_insertNew_of_subset fun c' hc' => ?_
  rw [h c' (List.mem_cons_of_mem _ hc')]
  exact mem_foldl_insertNew [c] seen c List.mem_cons_self

theorem SameNew.of_forall_eq {l l' : List Chain} {chain : Chain} (h : ∀ c ∈ l, c = chain) (h' : ∀ c ∈ l', c = chain)
    (hnil : l = [] ↔ l' = []) : SameNew l l' := by
  intro seen
  by_cases hl : l = []
  · rw [hl, hnil.mp hl]
  · rw [foldl_insertNew_of_forall_eq h hl, foldl_insertNew_of_forall_eq h' fun hl' => hl (hnil.mpr hl')]

/-! ### Recorded events -/

namespace Event

/-- The fault that ends the walk. -/
def fault? : Event → Option Error
  | .malformed key path fault => some (.malformedKey key path fault)
  | .bucket _ | .fact _ _ | .raw _ _ | .dropped _ _ => none

/-- The facts about a selector that go to the table of a chain. -/
def facts (chain : Chain) (selector : String) (events : List Event) : List (String × String) :=
  TableCall.writes selector (TableCall.to chain (events.filterMap write?))

theorem facts_append (chain : Chain) (selector : String) (events events' : List Event) :
    facts chain selector (events ++ events') = facts chain selector events ++ facts chain selector events' := by
  simp only [facts, TableCall.writes, TableCall.to, List.filterMap_append]

theorem facts_raw (chain : Chain) (selector : String) (c : Chain) (text : String) :
    facts chain selector [.raw c text] = [] := by
  by_cases hc : c = chain <;> simp [facts, write?, TableCall.to, TableCall.writes, TableCall.write?, hc]

theorem facts_flatMap {α : Type} (chain : Chain) (selector : String) (f : α → List Event) (l : List α) :
    facts chain selector (l.flatMap f) = l.flatMap fun a => facts chain selector (f a) := by
  simp only [facts, TableCall.writes, TableCall.to, List.filterMap_flatMap]

end Event

theorem Place.fault?_declarationEvents (p : Place) (keepCamelCase : Bool) (name : String) (value : Json) :
    (p.declarationEvents keepCamelCase name value).filterMap Event.fault? = [] := by
  rw [declarationEvents]
  cases value.cssText? with
  | none => rfl
  | some text =>
    dsimp only
    split
    · rfl
    · simp [Event.fault?]

namespace Stylesheet
variable {s s' : Stylesheet} {events : List Event}

/-- The events are recorded, or the first fault among them ends the walk. -/
theorem recordAll_cases (s : Stylesheet) (events : List Event) :
    (∃ s', s.recordAll events = .ok s' ∧ events.filterMap Event.fault? = []) ∨
      ∃ fault, s.recordAll events = .error fault ∧ (events.filterMap Event.fault?).head? = some fault := by
  induction events generalizing s with
  | nil => exact .inl ⟨s, rfl, rfl⟩
  | cons e rest ih =>
    rw [recordAll, List.foldlM_cons]
    cases e with
    | malformed key path fault => exact .inr ⟨.malformedKey key path fault, rfl, rfl⟩
    | bucket c => exact ih (s.update c id)
    | fact c f => exact ih (s.update c (·.apply f))
    | raw c text => exact ih (s.update c (·.pushRaw text))
    | dropped property path => exact ih s

theorem declarations?_recordAll (h : s.recordAll events = .ok s') (chain : Chain) (selector : String) :
    (s'.table chain).declarations? selector =
      declared ((s.table chain).declarations? selector) (Event.facts chain selector events) := by
  rw [(recorded h).1, RuleTable.declarations?_foldl_call]
  rfl

theorem texts_recordAll (h : s.recordAll events = .ok s') (chain : Chain) : (s'.table chain).texts =
    (s.table chain).texts ++ (TableCall.to chain (events.filterMap Event.write?)).filterMap fun c => c.label.raw? := by
  rw [(recorded h).1, RuleTable.texts_foldl_call]

end Stylesheet

end StyleTree
