import StyleTree.Proofs.Assoc
import StyleTree.Sheet.RuleTable

/-! Tables as calls build them. A table starts empty and takes facts and raw texts, one after the other.
    Every table so built is well formed: a selector has one rule, a rule has one place for each of its
    properties, and no rule is empty. -/

namespace StyleTree

inductive TableCall where
  | fact (fact : Fact)
  | raw (text : String)
  deriving DecidableEq, Repr

namespace RuleTable

def call (t : RuleTable) : TableCall → RuleTable
  | .fact f => t.apply f
  | .raw text => t.pushRaw text

/-- The table that calls build, one after the other, from the empty one. -/
def ofCalls (calls : List TableCall) : RuleTable := calls.foldl call {}

/-- The entry at place `j` is the rule of `s` with the declarations `ds`. -/
def RuleAt (t : RuleTable) (j : Nat) (s : String) (ds : List (String × String)) : Prop :=
  t.entries[j]? = some (.rule s ds)

/-- What every table built by calls is. -/
structure WellFormed (t : RuleTable) : Prop where
  selectors : (t.entries.filterMap Entry.selector?).Nodup
  properties : ∀ {s ds}, .rule s ds ∈ t.entries → (ds.map (·.1)).Nodup
  nonempty : ∀ {s ds}, .rule s ds ∈ t.entries → ds ≠ []

/-! ### What a call changes -/

theorem filterMap_selector?_applyTo (f : Fact) (es : List Entry) :
    (applyTo f es).filterMap Entry.selector? =
      if f.selector ∈ es.filterMap Entry.selector? then es.filterMap Entry.selector?
      else es.filterMap Entry.selector? ++ [f.selector] := by
  induction es with
  | nil => rfl
  | cons e rest ih =>
    cases e with
    | raw text => rw [applyTo, List.filterMap_cons_none rfl, List.filterMap_cons_none rfl, ih]
    | rule s ds =>
      rw [applyTo]
      by_cases hs : s = f.selector
      · simp [hs, Entry.selector?]
      · have hs' : f.selector ≠ s := fun h => hs h.symm
        simp only [hs, if_false, List.filterMap_cons, Entry.selector?, ih, List.mem_cons, hs', false_or]
        split <;> rfl

/-- A rule after a fact is a rule from before, or the rule of the fact with its declaration put in. -/
theorem mem_applyTo {f : Fact} {es : List Entry} {s : String} {ds : List (String × String)}
    (h : .rule s ds ∈ applyTo f es) :
    .rule s ds ∈ es ∨ ∃ ds₀, (ds₀ = [] ∨ .rule s ds₀ ∈ es) ∧ ds = Assoc.put ds₀ f.property f.value := by
  induction es with
  | nil =>
    simp only [applyTo, List.mem_singleton, Entry.rule.injEq] at h
    exact .inr ⟨[], .inl rfl, h.2⟩
  | cons e rest ih =>
    have step (h : .rule s ds ∈ applyTo f rest) : .rule s ds ∈ e :: rest ∨
        ∃ ds₀, (ds₀ = [] ∨ .rule s ds₀ ∈ e :: rest) ∧ ds = Assoc.put ds₀ f.property f.value := by
      rcases ih h with h | ⟨ds₀, h₀, rfl⟩
      · exact .inl (List.mem_cons_of_mem _ h)
      · exact .inr ⟨ds₀, h₀.imp_right (List.mem_cons_of_mem _), rfl⟩
    cases e with
    | raw text =>
      rw [applyTo, List.mem_cons] at h
      rcases h with h | h
      · cases h
      · exact step h
    | rule s' ds' =>
      rw [applyTo] at h
      split at h
      · rcases List.mem_cons.mp h with h | h
        · cases h
          exact .inr ⟨ds', .inr List.mem_cons_self, rfl⟩
        · exact .inl (List.mem_cons_of_mem _ h)
      · rcases List.mem_cons.mp h with h | h
        · exact .inl (h ▸ List.mem_cons_self)
        · exact step h

theorem put_ne_nil (ds : List (String × String)) (p v : String) : Assoc.put ds p v ≠ [] := by
  cases ds with
  | nil => simp [Assoc.put]
  | cons d rest => rw [Assoc.put]; split <;> simp

namespace WellFormed
variable {t : RuleTable}

theorem empty : WellFormed {} where
  selectors := List.nodup_nil
  properties h := nomatch h
  nonempty h := nomatch h

theorem apply (h : t.WellFormed) (f : Fact) : (t.apply f).WellFormed where
  selectors := by
    rw [RuleTable.apply, filterMap_selector?_applyTo]
    split
    · exact h.selectors
    · next hs =>
      rw [← List.concat_eq_append]
      exact List.Nodup.concat hs h.selectors
  properties hm := by
    rcases mem_applyTo hm with hm | ⟨ds₀, rfl | hm₀, rfl⟩
    · exact h.properties hm
    · exact Assoc.nodup_put List.nodup_nil
    · exact Assoc.nodup_put (h.properties hm₀)
  nonempty hm := by
    rcases mem_applyTo hm with hm | ⟨ds₀, -, rfl⟩
    · exact h.nonempty hm
    · exact put_ne_nil _ _ _

theorem pushRaw (h : t.WellFormed) (text : String) : (t.pushRaw text).WellFormed where
  selectors := by
    rw [RuleTable.pushRaw, List.filterMap_append, List.filterMap_cons_none rfl, List.filterMap_nil, List.append_nil]
    exact h.selectors
  properties hm := h.properties (by simpa [RuleTable.pushRaw] using hm)
  nonempty hm := h.nonempty (by simpa [RuleTable.pushRaw] using hm)

theorem call (h : t.WellFormed) (c : TableCall) : (t.call c).WellFormed := by
  cases c with
  | fact f => exact h.apply f
  | raw text => exact h.pushRaw text

theorem ofCalls (calls : List TableCall) : (ofCalls calls).WellFormed := by
  suffices run : ∀ t : RuleTable, t.WellFormed → (calls.foldl RuleTable.call t).WellFormed from run {} empty
  induction calls with
  | nil => exact fun _ h => h
  | cons c rest ih => exact fun t h => ih (t.call c) (h.call c)

theorem place_eq (h : t.WellFormed) {j k : Nat} {s : String} {ds es : List (String × String)}
    (hj : t.RuleAt j s ds) (hk : t.RuleAt k s es) : j = k := by
  obtain ⟨hjl, hj⟩ := List.getElem?_eq_some_iff.mp hj
  obtain ⟨hkl, hk⟩ := List.getElem?_eq_some_iff.mp hk
  have hp := List.pairwise_iff_getElem.mp (List.pairwise_filterMap.mp h.selectors)
  rcases Nat.lt_trichotomy j k with hlt | heq | hlt
  · exact absurd rfl (hp j k hjl hkl hlt s (by rw [hj]; rfl) s (by rw [hk]; rfl))
  · exact heq
  · exact absurd rfl (hp k j hkl hjl hlt s (by rw [hk]; rfl) s (by rw [hj]; rfl))

/-- A selector is found at the place of its rule. -/
theorem indexOf?_eq (h : t.WellFormed) {j : Nat} {s : String} {ds : List (String × String)} (hj : t.RuleAt j s ds) :
    t.indexOf? s = some j := by
  obtain ⟨hlt, hentry⟩ := List.getElem?_eq_some_iff.mp hj
  rw [indexOf?, List.findIdx?_eq_some_iff_getElem]
  refine ⟨hlt, by simp [hentry, Entry.selector?], fun k hk hsel => ?_⟩
  cases he : t.entries[k] with
  | raw text => simp [he, Entry.selector?] at hsel
  | rule s' es =>
    simp only [he, Entry.selector?, beq_iff_eq, Option.some.injEq] at hsel
    subst hsel
    have hplace := h.place_eq (List.getElem?_eq_some_iff.mpr ⟨Nat.lt_trans hk hlt, he⟩) hj
    omega

end WellFormed

theorem RuleAt.mem {t : RuleTable} {j : Nat} {s : String} {ds : List (String × String)} (h : t.RuleAt j s ds) :
    .rule s ds ∈ t.entries := List.mem_of_getElem? h

theorem RuleAt.selectorAt? {t : RuleTable} {j : Nat} {s : String} {ds : List (String × String)}
    (h : t.RuleAt j s ds) : t.selectorAt? j = some s := by
  rw [RuleTable.selectorAt?, h]
  rfl

theorem selectorAt?_eq_some_iff {t : RuleTable} {j : Nat} {s : String} : t.selectorAt? j = some s ↔ ∃ ds, t.RuleAt j s ds := by
  constructor
  · intro h
    obtain ⟨e, he, hs⟩ := Option.bind_eq_some_iff.mp h
    cases e with
    | rule s' ds =>
      cases hs
      exact ⟨ds, he⟩
    | raw text => cases hs
  · rintro ⟨ds, h⟩
    exact h.selectorAt?

/-- The rules of a table are those at its places. -/
theorem mem_rules_iff {t : RuleTable} {s : String} {ds : List (String × String)} :
    (s, ds) ∈ t.rules ↔ ∃ j, t.RuleAt j s ds := by
  have hr (e : Entry) : e.rule? = some (s, ds) ↔ e = .rule s ds := by cases e <;> simp [Entry.rule?]
  simp only [rules, List.mem_filterMap, hr, exists_eq_right]
  exact List.mem_iff_getElem?

end RuleTable

end StyleTree
