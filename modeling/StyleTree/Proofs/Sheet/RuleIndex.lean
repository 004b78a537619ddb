import StyleTree.Proofs.Sheet.Writes

/-! Rule tables with an index. A look-up through a table of places, kept beside the entries, finds the rule that
    a search would find: the index is in step with the entries at every call, since rules are only added at
    the end and none is moved or overwritten. So both build the same table. -/

namespace StyleTree

/-- The entry with a declaration put in. A raw text takes in none. -/
def Entry.insert (property value : String) : Entry → Entry
  | .rule s ds => .rule s (Assoc.put ds property value)
  | .raw text => .raw text

/-- A rule table with the place of the rule of each selector. -/
structure IndexedTable extends RuleTable where
  bySelector : List (String × Nat) := []

namespace IndexedTable

/-- The table with a rule for the selector, and the place of that rule. -/
def openRule (t : IndexedTable) (selector : String) : IndexedTable × Nat :=
  match Assoc.get? t.bySelector selector with
  | some i => (t, i)
  | none => (⟨⟨t.entries ++ [.rule selector []]⟩, Assoc.put t.bySelector selector t.entries.length⟩, t.entries.length)

def apply (t : IndexedTable) (f : Fact) : IndexedTable :=
  let (u, i) := t.openRule f.selector
  ⟨⟨u.entries.modify i (Entry.insert f.property f.value)⟩, u.bySelector⟩

def pushRaw (t : IndexedTable) (text : String) : IndexedTable := ⟨t.toRuleTable.pushRaw text, t.bySelector⟩

/-- The declarations of the rule that the index has for the selector. -/
def declarations? (t : IndexedTable) (selector : String) : Option (List (String × String)) :=
  (Assoc.get? t.bySelector selector).bind t.declarationsAt?

def call (t : IndexedTable) : TableCall → IndexedTable
  | .fact f => t.apply f
  | .raw text => t.pushRaw text

/-- The table that calls build, one after the other, from the empty one. -/
def ofCalls (calls : List TableCall) : IndexedTable := calls.foldl call {}

end IndexedTable

/-! ### Entries that stay -/

theorem Entry.selector?_insert (property value : String) (e : Entry) :
    (e.insert property value).selector? = e.selector? := by
  cases e <;> rfl

namespace RuleTable
variable {f : Fact} {es : List Entry} {i : Nat} {s : String}

theorem selectorAt?_modify (es : List Entry) (i : Nat) (property value : String) (j : Nat) :
    selectorAt? ⟨es.modify i (Entry.insert property value)⟩ j = selectorAt? ⟨es⟩ j := by
  rw [selectorAt?, selectorAt?, List.getElem?_modify]
  cases es[j]? with
  | none => rfl
  | some e => by_cases h : i = j <;> simp [h, Entry.selector?_insert]

theorem selectorAt?_concat (es : List Entry) (e : Entry) :
    selectorAt? ⟨es ++ [e]⟩ i = some s ↔ selectorAt? ⟨es⟩ i = some s ∨ i = es.length ∧ e.selector? = some s := by
  rw [selectorAt?, selectorAt?]
  rcases Nat.lt_trichotomy i es.length with hlt | rfl | hlt
  · rw [List.getElem?_append_left hlt]
    exact (or_iff_left fun h => absurd h.1 (Nat.ne_of_lt hlt)).symm
  · simp
  · have hnone : es[i]? = none := List.getElem?_eq_none_iff.mpr (Nat.le_of_lt hlt)
    have hnone' : (es ++ [e])[i]? = none := List.getElem?_eq_none_iff.mpr (by rw [List.length_append]; exact hlt)
    rw [hnone, hnone']
    simp [Nat.ne_of_gt hlt]

/-- A fact about a selector that has a rule changes only the entry at the place of that rule. -/
theorem applyTo_of_ruleAt {ds : List (String × String)} (hi : es[i]? = some (.rule f.selector ds))
    (hfirst : ∀ (j : Nat) ds', es[j]? = some (.rule f.selector ds') → j = i) :
    applyTo f es = es.modify i (Entry.insert f.property f.value) := by
  induction es generalizing i with
  | nil => cases hi
  | cons e rest ih =>
    cases i with
    | zero =>
      cases hi
      rw [applyTo, if_pos rfl]
      rfl
    | succ i =>
      have hrest := ih hi fun j ds' hj => Nat.succ.inj (hfirst (j + 1) ds' hj)
      cases e with
      | raw text => rw [applyTo, hrest, List.modify_succ_cons]
      | rule s ds' =>
        have hs : s ≠ f.selector := fun hs => absurd (hfirst 0 ds' (hs ▸ rfl)) (Nat.succ_ne_zero i).symm
        rw [applyTo, if_neg hs, hrest, List.modify_succ_cons]

theorem applyTo_of_not_mem (h : ∀ ds, .rule f.selector ds ∉ es) :
    applyTo f es = es ++ [.rule f.selector [(f.property, f.value)]] := by
  induction es with
  | nil => rfl
  | cons e rest ih =>
    have hrest := ih fun ds hm => h ds (List.mem_cons_of_mem _ hm)
    cases e with
    | raw text => rw [applyTo, hrest, List.cons_append]
    | rule s ds =>
      have hs : s ≠ f.selector := fun hs => h ds (hs ▸ List.mem_cons_self)
      rw [applyTo, if_neg hs, hrest, List.cons_append]

theorem labels_prefix_call (t : RuleTable) (c : TableCall) :
    t.entries.map Entry.label <+: (t.call c).entries.map Entry.label := by
  cases c with
  | fact f =>
    rw [call, apply, map_label_applyTo]
    split
    · exact List.prefix_refl _
    · exact List.prefix_append ..
  | raw text =>
    rw [call, pushRaw, List.map_append]
    exact List.prefix_append ..

/-- Calls leave the labels of the entries that are there. -/
theorem labels_prefix_ofCalls (before after : List TableCall) :
    (ofCalls before).entries.map Entry.label <+: (ofCalls (before ++ after)).entries.map Entry.label := by
  induction after using List.reverseRecOn with
  | nil => simp only [List.append_nil, List.prefix_rfl]
  | append_singleton after c ih =>
    rw [← List.append_assoc, ofCalls, ofCalls, List.foldl_append]
    exact ih.trans (labels_prefix_call _ c)

theorem raw_stays {before after : List TableCall} {text : String}
    (h : (ofCalls before).entries[i]? = some (.raw text)) :
    (ofCalls (before ++ after)).entries[i]? = some (.raw text) := by
  have hlabel (es : List Entry) : (es.map Entry.label)[i]? = some (.raw text) ↔ es[i]? = some (.raw text) := by
    rw [List.getElem?_map]
    cases es[i]? with
    | none => simp
    | some e => cases e <;> simp [Entry.label]
  obtain ⟨rest, hrest⟩ := labels_prefix_ofCalls before after
  have hbefore := (hlabel _).mpr h
  rw [← hlabel, ← hrest, List.getElem?_append_left (List.getElem?_eq_some_iff.mp hbefore).1]
  exact hbefore

end RuleTable

/-! ### The index in step -/

namespace IndexedTable
variable {t : IndexedTable}

/-- The index has each selector of a rule at the place of the rule, and nothing else. -/
def InStep (t : IndexedTable) : Prop := ∀ s i, Assoc.get? t.bySelector s = some i ↔ t.selectorAt? i = some s

theorem InStep.get?_of_ruleAt (h : t.InStep) {i : Nat} {s : String} {ds : List (String × String)}
    (hi : t.RuleAt i s ds) : Assoc.get? t.bySelector s = some i := (h s i).mpr hi.selectorAt?

theorem InStep.exists_ruleAt (h : t.InStep) {i : Nat} {s : String} (hs : Assoc.get? t.bySelector s = some i) :
    ∃ ds, t.RuleAt i s ds := RuleTable.selectorAt?_eq_some_iff.mp ((h s i).mp hs)

/-- A fact goes into the rule that the index has for its selector, or into a new one at the end. -/
theorem apply_cases (t : IndexedTable) (f : Fact) :
    (∃ i, Assoc.get? t.bySelector f.selector = some i ∧
      t.apply f = ⟨⟨t.entries.modify i (Entry.insert f.property f.value)⟩, t.bySelector⟩) ∨
    (Assoc.get? t.bySelector f.selector = none ∧
      t.apply f = ⟨⟨t.entries ++ [.rule f.selector [(f.property, f.value)]]⟩,
        Assoc.put t.bySelector f.selector t.entries.length⟩) := by
  rw [apply, openRule]
  cases h : Assoc.get? t.bySelector f.selector with
  | some i => exact .inl ⟨i, rfl, rfl⟩
  | none =>
    have hmodify : (t.entries ++ [Entry.rule f.selector []]).modify t.entries.length (Entry.insert f.property f.value) =
        t.entries ++ [.rule f.selector [(f.property, f.value)]] := by
      simp [List.modify_eq_take_drop, Entry.insert, Assoc.put]
    exact .inr ⟨rfl, by simp only [hmodify]⟩

theorem InStep.apply (h : t.InStep) (f : Fact) : (t.apply f).InStep := by
  rcases t.apply_cases f with ⟨i, -, heq⟩ | ⟨hnone, heq⟩ <;> rw [heq] <;> intro s j
  · exact (h s j).trans (RuleTable.selectorAt?_modify .. ▸ Iff.rfl)
  · rw [Assoc.get?_put, RuleTable.selectorAt?_concat, ← h s j]
    by_cases hs : f.selector = s
    · rw [if_pos hs, ← hs, hnone]
      simp [Entry.selector?, eq_comm]
    · simp [hs, Entry.selector?]

theorem InStep.pushRaw (h : t.InStep) (text : String) : (t.pushRaw text).InStep := by
  intro s j
  rw [IndexedTable.pushRaw, RuleTable.pushRaw, RuleTable.selectorAt?_concat, ← h s j]
  simp [Entry.selector?]

theorem InStep.toRuleTable_apply (h : t.InStep) (f : Fact) : (t.apply f).toRuleTable = t.toRuleTable.apply f := by
  rw [RuleTable.apply]
  rcases t.apply_cases f with ⟨i, hi, heq⟩ | ⟨hnone, heq⟩ <;> rw [heq]
  · obtain ⟨ds, hds⟩ := h.exists_ruleAt hi
    rw [RuleTable.applyTo_of_ruleAt hds fun j ds' hj => ?_]
    exact Option.some.inj ((h.get?_of_ruleAt hj).symm.trans hi)
  · rw [RuleTable.applyTo_of_not_mem fun ds hm => ?_]
    obtain ⟨j, hj⟩ := List.getElem?_of_mem hm
    cases hnone.symm.trans (h.get?_of_ruleAt hj)

/-- What the index has is what a search finds. -/
theorem InStep.get?_eq_indexOf? (h : t.InStep) (wf : t.WellFormed) (s : String) :
    Assoc.get? t.bySelector s = t.indexOf? s := by
  refine Option.ext fun i => ⟨fun hi => ?_, fun hi => ?_⟩
  · obtain ⟨ds, hds⟩ := h.exists_ruleAt hi
    exact wf.indexOf?_eq hds
  · obtain ⟨hlt, hselector, -⟩ := List.findIdx?_eq_some_iff_getElem.mp hi
    refine (h s i).mpr ?_
    rw [RuleTable.selectorAt?, List.getElem?_eq_getElem hlt]
    exact beq_iff_eq.mp hselector

/-- At every call the index is in step, and the entries are those of the table without an index. -/
theorem inStep_ofCalls (calls : List TableCall) :
    (ofCalls calls).InStep ∧ (ofCalls calls).toRuleTable = RuleTable.ofCalls calls := by
  induction calls using List.reverseRecOn with
  | nil => exact ⟨fun s i => by simp [ofCalls, RuleTable.selectorAt?], rfl⟩
  | append_singleton calls c ih =>
    obtain ⟨hstep, htable⟩ := ih
    rw [ofCalls, RuleTable.ofCalls, List.foldl_append, List.foldl_append]
    cases c with
    | fact f => exact ⟨hstep.apply f, (hstep.toRuleTable_apply f).trans (congrArg (·.apply f) htable)⟩
    | raw text => exact ⟨hstep.pushRaw text, congrArg (·.pushRaw text) htable⟩

end IndexedTable

/-! ### Declarations by rule -/

namespace TableCall

/-- The selector and the property of a fact. -/
def target? : TableCall → Option (String × String)
  | .fact f => some (f.selector, f.property)
  | .raw _ => none

theorem mem_targets_iff {calls : List TableCall} {selector property : String} :
    (selector, property) ∈ calls.filterMap target? ↔ property ∈ (writes selector calls).map (·.1) := by
  rw [List.mem_filterMap, List.mem_map]
  constructor
  · rintro ⟨c, hc, htarget⟩
    cases c with
    | fact f =>
      cases htarget
      exact ⟨(f.property, f.value), List.mem_filterMap.mpr ⟨_, hc, if_pos rfl⟩, rfl⟩
    | raw text => cases htarget
  · rintro ⟨d, hd, rfl⟩
    obtain ⟨c, hc, hwrite⟩ := List.mem_filterMap.mp hd
    cases c with
    | fact f =>
      rw [write?, Option.ite_none_right_eq_some] at hwrite
      obtain ⟨rfl, heq⟩ := hwrite
      cases heq
      exact ⟨_, hc, rfl⟩
    | raw text => cases hwrite

end TableCall

namespace RuleTable
variable {t : RuleTable} {calls : List TableCall} {i : Nat} {s : String} {ds : List (String × String)}

theorem declarations?_of_ruleAt (wf : t.WellFormed) (hi : t.RuleAt i s ds) : t.declarations? s = some ds := by
  rw [declarations?, wf.indexOf?_eq hi, Option.bind_some, declarationsAt?, hi]
  rfl

theorem declarations_of_ruleAt (wf : t.WellFormed) (hi : t.RuleAt i s ds) : t.declarations s = ds := by
  rw [declarations, declarations?_of_ruleAt wf hi, Option.getD_some]

theorem exists_ruleAt_iff (h : t.Holds calls) : (∃ i ds, t.RuleAt i s ds) ↔ ∃ f, .fact f ∈ calls ∧ f.selector = s := by
  have hrules : (∃ i ds, t.RuleAt i s ds) ↔ .rule s ∈ t.entries.map Entry.label := by
    constructor
    · rintro ⟨i, ds, hi⟩
      exact List.mem_map.mpr ⟨_, hi.mem, rfl⟩
    · intro hm
      obtain ⟨e, he, hlabel⟩ := List.mem_map.mp hm
      cases e with
      | rule s' ds =>
        cases hlabel
        obtain ⟨i, hi⟩ := List.getElem?_of_mem he
        exact ⟨i, ds, hi⟩
      | raw text => cases hlabel
  rw [hrules, h.entries, Label.mem_firsts, List.mem_map]
  constructor
  · rintro ⟨c, hc, hlabel⟩
    cases c with
    | fact f => exact ⟨f, hc, Label.rule.inj hlabel⟩
    | raw text => cases hlabel
  · rintro ⟨f, hf, rfl⟩
    exact ⟨_, hf, rfl⟩

/-- The selectors of the rules with the properties they hold. -/
def targets (t : RuleTable) : List (String × String) := t.rules.flatMap fun r => r.2.map fun d => (r.1, d.1)

theorem declarationCount_eq (t : RuleTable) : t.declarationCount = t.targets.length := by
  rw [declarationCount, targets]
  induction t.rules with
  | nil => rfl
  | cons r rest ih => rw [List.foldr_cons, ih, List.flatMap_cons, List.length_append, List.length_map]

theorem map_fst_rules (t : RuleTable) : t.rules.map (·.1) = t.entries.filterMap Entry.selector? := by
  rw [rules, List.map_filterMap]
  refine List.filterMap_congr fun e _ => ?_
  cases e <;> rfl

theorem nodup_targets (wf : t.WellFormed) : t.targets.Nodup := by
  refine List.nodup_flatMap.mpr ⟨fun r hr => ?_, ?_⟩
  · obtain ⟨j, hj⟩ := mem_rules_iff.mp hr
    have hnodup : (r.2.map (·.1)).Nodup := wf.properties hj.mem
    have hpairs : r.2.map (fun d => (r.1, d.1)) = (r.2.map (·.1)).map (Prod.mk r.1) := by rw [List.map_map]; rfl
    rw [hpairs]
    exact hnodup.map fun _ _ heq => (Prod.ext_iff.mp heq).2
  · have hselectors : (t.rules.map (·.1)).Nodup := t.map_fst_rules ▸ wf.selectors
    refine (List.pairwise_map.mp hselectors).imp fun hne x hx hx' => hne ?_
    obtain ⟨d, -, rfl⟩ := List.mem_map.mp hx
    obtain ⟨d', -, heq⟩ := List.mem_map.mp hx'
    exact (Prod.ext_iff.mp heq).1.symm

/-- The rules hold the properties of all facts, and no others. -/
theorem mem_targets_iff (wf : t.WellFormed) (h : t.Holds calls) {x : String × String} :
    x ∈ t.targets ↔ x ∈ calls.filterMap TableCall.target? := by
  obtain ⟨s, property⟩ := x
  have hrule {i ds} (hi : t.RuleAt i s ds) :
      property ∈ ds.map (·.1) ↔ (s, property) ∈ calls.filterMap TableCall.target? := by
    rw [TableCall.mem_targets_iff, ← declarations_of_ruleAt wf hi, h.properties, Selector.mem_distinct]
  rw [targets, List.mem_flatMap]
  constructor
  · rintro ⟨r, hr, hx⟩
    obtain ⟨d, hd, heq⟩ := List.mem_map.mp hx
    cases heq
    obtain ⟨i, hi⟩ := mem_rules_iff.mp hr
    exact (hrule hi).mp (List.mem_map_of_mem hd)
  · intro hx
    obtain ⟨c, hc, htarget⟩ := List.mem_filterMap.mp hx
    cases c with
    | fact f =>
      cases htarget
      obtain ⟨i, ds, hi⟩ := (exists_ruleAt_iff h).mpr ⟨f, hc, rfl⟩
      obtain ⟨d, hd, hproperty⟩ := List.mem_map.mp ((hrule hi).mpr hx)
      exact ⟨(f.selector, ds), mem_rules_iff.mpr ⟨i, hi⟩, List.mem_map.mpr ⟨d, hd, by rw [hproperty]⟩⟩
    | raw text => cases htarget

end RuleTable

/-- What a table with an index has of the calls that built it. -/
structure IndexedTable.Accurate (t : IndexedTable) (calls : List TableCall) : Prop where
  selectors : ∀ s, (∃ i, Assoc.get? t.bySelector s = some i) ↔ ∃ f, .fact f ∈ calls ∧ f.selector = s
  place : ∀ s i, Assoc.get? t.bySelector s = some i → (∃ ds, t.RuleAt i s ds) ∧ ∀ j ds, t.RuleAt j s ds → j = i
  search : ∀ s, Assoc.get? t.bySelector s = t.indexOf? s
  lookUp : ∀ i s ds, t.RuleAt i s ds → t.declarations? s = some ds ∧ t.declarationsAt? i = some ds
  absent : ∀ s, (∀ i ds, ¬ t.RuleAt i s ds) → t.declarations? s = none
  rules : ∀ i s ds, t.RuleAt i s ds → ds ≠ [] ∧
    ds.map (·.1) = Selector.distinct ((TableCall.writes s calls).map (·.1)) ∧
    ∀ property, Assoc.get? ds property = Assoc.get? (TableCall.writes s calls).reverse property
  entries : t.entries.map Entry.label = Label.firsts (calls.map TableCall.label)
  count : t.declarationCount = (Selector.distinct (calls.filterMap TableCall.target?)).length

/-- Whatever the calls, the index finds every rule, and the rules hold the last of all facts in the order of the
    first. -/
theorem IndexedTable.accurate_ofCalls (calls : List TableCall) : (ofCalls calls).Accurate calls := by
  obtain ⟨hstep, htable⟩ := inStep_ofCalls calls
  have wf : (ofCalls calls).WellFormed := htable ▸ .ofCalls calls
  have holds : (ofCalls calls).Holds calls := htable ▸ .ofCalls calls
  constructor
  case selectors =>
    intro s
    rw [← RuleTable.exists_ruleAt_iff holds]
    exact exists_congr fun i => (hstep s i).trans RuleTable.selectorAt?_eq_some_iff
  case place =>
    intro s i hs
    exact ⟨hstep.exists_ruleAt hs, fun j ds hj => Option.some.inj ((hstep.get?_of_ruleAt hj).symm.trans hs)⟩
  case search => exact hstep.get?_eq_indexOf? wf
  case lookUp =>
    intro i s ds hi
    have hat : (ofCalls calls).declarationsAt? i = some ds := by
      rw [RuleTable.declarationsAt?, hi]
      rfl
    exact ⟨by rw [declarations?, hstep.get?_of_ruleAt hi, Option.bind_some, hat], hat⟩
  case absent =>
    intro s hs
    refine Option.bind_eq_none_iff.mpr fun i hi => ?_
    obtain ⟨ds, hds⟩ := hstep.exists_ruleAt hi
    exact absurd hds (hs i ds)
  case rules =>
    intro i s ds hi
    have hds := RuleTable.declarations_of_ruleAt wf hi
    exact ⟨wf.nonempty hi.mem, hds ▸ holds.properties s, hds ▸ holds.values s⟩
  case entries => exact holds.entries
  case count =>
    rw [RuleTable.declarationCount_eq]
    refine List.Perm.length_eq ?_
    refine (List.perm_ext_iff_of_nodup (RuleTable.nodup_targets wf) (Selector.nodup_distinct _)).mpr fun x => ?_
    rw [RuleTable.mem_targets_iff wf holds, Selector.mem_distinct]

/-- The table with an index has the entries of the one without. Its index finds every rule, its rules hold the last
    of all facts in the order of the first, and its raw texts stay. -/
theorem rule_index_stays_in_step (calls : List TableCall) :
    (IndexedTable.ofCalls calls).toRuleTable = RuleTable.ofCalls calls ∧
      (IndexedTable.ofCalls calls).Accurate calls ∧
      ∀ before after, calls = before ++ after → ∀ (i : Nat) (text : String),
        (IndexedTable.ofCalls before).entries[i]? = some (Entry.raw text) →
          (IndexedTable.ofCalls calls).entries[i]? = some (Entry.raw text) := by
  have htable (calls : List TableCall) := (IndexedTable.inStep_ofCalls calls).2
  refine ⟨htable calls, IndexedTable.accurate_ofCalls calls, ?_⟩
  rintro before after rfl i text h
  rw [htable] at h ⊢
  exact RuleTable.raw_stays h

/-- A raw text takes a place between two rules, and a fact about the first rule adds no place. -/
example : (IndexedTable.ofCalls [.fact ⟨"a", "x", "1"⟩, .raw "hr", .fact ⟨"b", "y", "2"⟩, .fact ⟨"a", "x", "3"⟩]).bySelector =
    [("a", 0), ("b", 2)] := by rfl

end StyleTree
