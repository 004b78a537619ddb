import Mathlib.Data.List.Induction
import StyleTree.Proofs.Document.Places
import StyleTree.Proofs.Selector.Distinct
import StyleTree.Proofs.Table

/-! What a table keeps of the calls that build it. Of the facts of a selector and a property it keeps the
    value of the last and the place of the first, and raw texts stay where they were met. Each call
    extends this by itself, so it holds of the table that any calls build. -/

namespace StyleTree

namespace Label

/-- The labels without the keys that were there before. Raw texts all stay. -/
def firsts : List Label → List Label
  | [] => []
  | .raw text :: rest => .raw text :: firsts rest
  | .rule key :: rest => .rule key :: (firsts rest).filter (· ≠ .rule key)

theorem firsts_concat_raw (l : List Label) (text : String) : firsts (l ++ [.raw text]) = firsts l ++ [.raw text] := by
  induction l with
  | nil => rfl
  | cons x l ih =>
    cases x with
    | raw t => rw [List.cons_append, firsts, firsts, ih, List.cons_append]
    | rule key =>
      rw [List.cons_append, firsts, firsts, ih, List.filter_append, List.cons_append]
      rfl

theorem firsts_concat_rule (l : List Label) (key : String) :
    firsts (l ++ [.rule key]) = if .rule key ∈ l then firsts l else firsts l ++ [.rule key] := by
  induction l with
  | nil => rfl
  | cons x l ih =>
    cases x with
    | raw t =>
      rw [List.cons_append, firsts, firsts, ih]
      simp only [List.mem_cons, reduceCtorEq, false_or]
      split <;> rfl
    | rule k =>
      rw [List.cons_append, firsts, firsts, ih]
      by_cases hk : key = k
      · simp only [hk, List.mem_cons, true_or, if_true]
        split <;> simp
      · simp only [List.mem_cons, Label.rule.injEq, hk, false_or]
        split <;> simp [hk]

theorem mem_firsts {x : Label} {l : List Label} : x ∈ firsts l ↔ x ∈ l := by
  induction l with
  | nil => exact Iff.rfl
  | cons y l ih =>
    cases y with
    | raw t => rw [firsts, List.mem_cons, List.mem_cons, ih]
    | rule key => by_cases hx : x = .rule key <;> simp [firsts, ih, hx]

end Label

/-! ### Histories -/

def Entry.label : Entry → Label
  | .rule selector _ => .rule selector
  | .raw text => .raw text

namespace TableCall

def label : TableCall → Label
  | .fact f => .rule f.selector
  | .raw text => .raw text

/-- The property and the value of a fact about the selector. -/
def write? (selector : String) : TableCall → Option (String × String)
  | .fact f => if f.selector = selector then some (f.property, f.value) else none
  | .raw _ => none

/-- The facts about a selector, as properties and values, in their order. -/
def writes (selector : String) (calls : List TableCall) : List (String × String) := calls.filterMap (write? selector)

theorem writes_concat (selector : String) (calls : List TableCall) (c : TableCall) :
    writes selector (calls ++ [c]) = writes selector calls ++ (c.write? selector).toList := by
  rw [writes, writes, List.filterMap_append]
  cases h : c.write? selector <;> simp [h]

end TableCall

namespace RuleTable

/-- The declarations of a selector, none for one that has no rule. -/
def declarations (t : RuleTable) (selector : String) : List (String × String) := (t.declarations? selector).getD []

/-- The table holds what the calls wrote last, in the order in which they wrote first. -/
structure Holds (t : RuleTable) (calls : List TableCall) : Prop where
  entries : t.entries.map Entry.label = Label.firsts (calls.map TableCall.label)
  properties : ∀ selector, (t.declarations selector).map (·.1) =
    Selector.distinct ((TableCall.writes selector calls).map (·.1))
  values : ∀ selector property, Assoc.get? (t.declarations selector) property =
    Assoc.get? (TableCall.writes selector calls).reverse property

/-! ### Look-ups -/

theorem declarations?_nil (selector : String) : declarations? ⟨[]⟩ selector = none := rfl

theorem declarations?_cons (e : Entry) (rest : List Entry) (selector : String) :
    declarations? ⟨e :: rest⟩ selector =
      if e.label = .rule selector then e.declarations? else declarations? ⟨rest⟩ selector := by
  have hlabel : (e.selector? == some selector) = true ↔ e.label = .rule selector := by
    cases e <;> simp [Entry.selector?, Entry.label]
  rw [declarations?, indexOf?, List.findIdx?_cons]
  by_cases h : e.label = .rule selector
  · rw [if_pos (hlabel.mpr h), if_pos h]
    rfl
  · rw [if_neg fun he => h (hlabel.mp he), if_neg h, declarations?, indexOf?, Option.bind_map]
    rfl

theorem declarations?_applyTo (f : Fact) (es : List Entry) (selector : String) :
    declarations? ⟨applyTo f es⟩ selector =
      if f.selector = selector then some (Assoc.put (declarations ⟨es⟩ selector) f.property f.value)
      else declarations? ⟨es⟩ selector := by
  simp only [declarations]
  induction es with
  | nil =>
    rw [applyTo, declarations?_cons]
    by_cases h : f.selector = selector <;> simp [h, Entry.label, Entry.declarations?, declarations?_nil, Assoc.put]
  | cons e rest ih =>
    cases e with
    | raw text => simpa [applyTo, declarations?_cons, Entry.label] using ih
    | rule s ds =>
      rw [applyTo]
      split
      · next hs =>
        by_cases h : f.selector = selector <;> simp [declarations?_cons, Entry.label, Entry.declarations?, hs, h]
      · next hs =>
        rw [declarations?_cons, declarations?_cons]
        by_cases h : s = selector
        · have hf : f.selector ≠ selector := fun hf => hs (h.trans hf.symm)
          simp [Entry.label, h, hf]
        · simpa [Entry.label, h] using ih

theorem declarations_applyTo (f : Fact) (es : List Entry) (selector : String) :
    declarations ⟨applyTo f es⟩ selector =
      if f.selector = selector then Assoc.put (declarations ⟨es⟩ selector) f.property f.value
      else declarations ⟨es⟩ selector := by
  rw [declarations, declarations?_applyTo]
  split <;> rfl

theorem declarations?_pushRaw (t : RuleTable) (text selector : String) :
    (t.pushRaw text).declarations? selector = t.declarations? selector := by
  obtain ⟨es⟩ := t
  rw [pushRaw]
  induction es with
  | nil => rfl
  | cons e rest ih =>
    rw [List.cons_append, declarations?_cons, declarations?_cons]
    split
    · rfl
    · exact ih

theorem declarations_pushRaw (t : RuleTable) (text selector : String) :
    (t.pushRaw text).declarations selector = t.declarations selector := by
  rw [declarations, declarations?_pushRaw, declarations]

theorem map_label_applyTo (f : Fact) (es : List Entry) :
    (applyTo f es).map Entry.label =
      if .rule f.selector ∈ es.map Entry.label then es.map Entry.label
      else es.map Entry.label ++ [.rule f.selector] := by
  induction es with
  | nil => rfl
  | cons e rest ih =>
    cases e with
    | raw text =>
      rw [applyTo, List.map_cons, List.map_cons, ih]
      simp only [Entry.label, List.mem_cons, reduceCtorEq, false_or]
      split <;> rfl
    | rule s ds =>
      rw [applyTo]
      by_cases hs : s = f.selector
      · simp [hs, Entry.label]
      · have hs' : f.selector ≠ s := fun h => hs h.symm
        rw [if_neg hs, List.map_cons, List.map_cons, ih]
        simp only [Entry.label, List.mem_cons, Label.rule.injEq, hs', false_or]
        split <;> rfl

/-! ### Calls -/

namespace Holds
variable {t : RuleTable} {calls : List TableCall}

theorem empty : Holds {} [] where
  entries := rfl
  properties _ := rfl
  values _ _ := rfl

theorem apply (h : t.Holds calls) (f : Fact) : (t.apply f).Holds (calls ++ [.fact f]) where
  entries := by
    rw [RuleTable.apply, map_label_applyTo, h.entries, List.map_append, List.map_singleton, TableCall.label,
      Label.firsts_concat_rule, if_congr Label.mem_firsts rfl rfl]
  properties selector := by
    rw [RuleTable.apply, declarations_applyTo, TableCall.writes_concat]
    by_cases hs : f.selector = selector
    · rw [if_pos hs, TableCall.write?, if_pos hs, Option.toList_some, List.map_append, List.map_singleton,
        Selector.distinct_concat, Assoc.map_fst_put, h.properties, if_congr Selector.mem_distinct rfl rfl]
    · rw [if_neg hs, TableCall.write?, if_neg hs, Option.toList_none, List.append_nil, h.properties]
  values selector property := by
    rw [RuleTable.apply, declarations_applyTo, TableCall.writes_concat]
    by_cases hs : f.selector = selector
    · rw [if_pos hs, TableCall.write?, if_pos hs, Option.toList_some, List.reverse_append, List.reverse_singleton,
        List.singleton_append, Assoc.get?_cons, Assoc.get?_put, h.values]
    · rw [if_neg hs, TableCall.write?, if_neg hs, Option.toList_none, List.append_nil, h.values]

theorem pushRaw (h : t.Holds calls) (text : String) : (t.pushRaw text).Holds (calls ++ [.raw text]) where
  entries := by
    rw [List.map_append, List.map_singleton, TableCall.label, Label.firsts_concat_raw, ← h.entries, RuleTable.pushRaw,
      List.map_append]
    rfl
  properties selector := by
    rw [declarations_pushRaw, TableCall.writes_concat, TableCall.write?, Option.toList_none, List.append_nil, h.properties]
  values selector property := by
    rw [declarations_pushRaw, TableCall.writes_concat, TableCall.write?, Option.toList_none, List.append_nil, h.values]

theorem call (h : t.Holds calls) (c : TableCall) : (t.call c).Holds (calls ++ [c]) := by
  cases c with
  | fact f => exact h.apply f
  | raw text => exact h.pushRaw text

/-- The table that calls build holds what they wrote. -/
theorem ofCalls (calls : List TableCall) : (ofCalls calls).Holds calls := by
  induction calls using List.reverseRecOn with
  | nil => exact empty
  | append_singleton calls c ih =>
    rw [RuleTable.ofCalls, List.foldl_append]
    exact ih.call c

end Holds

end RuleTable

end StyleTree
