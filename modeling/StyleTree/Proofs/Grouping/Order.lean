import StyleTree.Proofs.Grouping.Conservation

/-! The grouping keeps shorthands in their place: of two properties of a rule that overlap, the one authored
    first is emitted first. -/

namespace StyleTree.Grouping
open RuleTable

/-- What the units emit for a rule has its overlapping declarations in authored order. -/
theorem emission_units_ordered {t : RuleTable} (wf : t.WellFormed) (o : Options) {j : Nat} {s : String}
    {ds : List (String × String)} (hj : t.RuleAt j s ds) :
    ((emission (units t o) s).map (·.1)).Pairwise fun p q => overlaps p q = true → place ds p ≤ place ds q := by
  have h := reached_run wf o
  have hord := h.faithful.ordered hj
  rw [← h.units_eq] at hord
  exact List.pairwise_map.mpr hord

/-- Of two properties of a rule, one of which is the other followed by a hyphen and more, the one authored
    first is emitted first: in an earlier unit, or earlier in the same unit. -/
theorem units_keep_shorthand_order (calls : List TableCall) (o : Options) {s p q v w rest : String}
    {ds : List (String × String)} {m n : Nat} (hs : (s, ds) ∈ (ofCalls calls).rules)
    (hp : ds[m]? = some (p, v)) (hq : ds[n]? = some (q, w)) (hmn : m < n)
    (ho : q = p ++ "-" ++ rest ∨ p = q ++ "-" ++ rest) :
    (∃ k i, EmittedAt (units (ofCalls calls) o) s p k i) ∧ (∃ k i, EmittedAt (units (ofCalls calls) o) s q k i) ∧
      ∀ k i k' i', EmittedAt (units (ofCalls calls) o) s p k i → EmittedAt (units (ofCalls calls) o) s q k' i' →
        k < k' ∨ k = k' ∧ i < i' := by
  have wf := WellFormed.ofCalls calls
  obtain ⟨j, hj⟩ := mem_rules_iff.mp hs
  have hn := wf.properties hj.mem
  refine ⟨exists_emittedAt_units wf o hj (List.mem_of_getElem? hp),
    exists_emittedAt_units wf o hj (List.mem_of_getElem? hq), fun k i k' i' hpk hqk => ?_⟩
  have hpm : place ds p = m := place_getElem hn hp
  have hqn : place ds q = n := place_getElem hn hq
  rcases Nat.lt_trichotomy k k' with hlt | rfl | hlt
  · exact .inl hlt
  · rcases Nat.lt_trichotomy i i' with hlt | rfl | hlt
    · exact .inr ⟨rfl, hlt⟩
    · obtain rfl := hpk.property_eq hqk
      omega
    · have := rel_of_places (emission_units_ordered wf o hj) hqk hpk (.inr ⟨rfl, hlt⟩)
        (overlaps_of_shorthand ho.symm)
      omega
  · have := rel_of_places (emission_units_ordered wf o hj) hqk hpk (.inl hlt) (overlaps_of_shorthand ho.symm)
    omega

/-- A shorthand that goes out with a group of another rule, and the longhand behind it in a solo unit. -/
theorem units_keep_shorthand_order_led :
    let calls : List TableCall := [.fact ⟨"b", "margin", "0"⟩, .fact ⟨"a", "margin", "0"⟩,
      .fact ⟨"a", "color", "red"⟩, .fact ⟨"a", "margin-top", "5px"⟩]
    let ds := [("margin", "0"), ("color", "red"), ("margin-top", "5px")]
    ("a", ds) ∈ (ofCalls calls).rules ∧ ds[0]? = some ("margin", "0") ∧ ds[2]? = some ("margin-top", "5px") ∧ 0 < 2 ∧
      "margin-top" = "margin" ++ "-" ++ "top" ∧
      (∃ k i, EmittedAt (units (ofCalls calls) {}) "a" "margin" k i) ∧
      (∃ k i, EmittedAt (units (ofCalls calls) {}) "a" "margin-top" k i) ∧
      ∀ k i k' i', EmittedAt (units (ofCalls calls) {}) "a" "margin" k i →
        EmittedAt (units (ofCalls calls) {}) "a" "margin-top" k' i' → k < k' ∨ k = k' ∧ i < i' := by
  intro calls ds
  have hs : ("a", ds) ∈ (ofCalls calls).rules := by decide
  have hp : ds[0]? = some ("margin", "0") := rfl
  have hq : ds[2]? = some ("margin-top", "5px") := rfl
  have ho : "margin-top" = "margin" ++ "-" ++ "top" := by decide
  exact ⟨hs, hp, hq, by decide, ho, units_keep_shorthand_order calls {} hs hp hq (by decide) (.inl ho)⟩

end StyleTree.Grouping
