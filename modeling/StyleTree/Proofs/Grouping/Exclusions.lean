import StyleTree.Proofs.Grouping.TableOrder

/-! What is never grouped. The members of a group all share what it declares, so none of them stands for an at-rule and
    no property of it is one that the options keep apart. Where two rules share nothing else, or grouping is off, no
    group comes out, hence no second solo unit either: the units are the entries as they stand. -/

namespace StyleTree

/-- The entry as a unit of its own. -/
def Entry.plain : Entry → SheetUnit
  | .raw text => .raw text
  | .rule s ds => .solo ⟨[s], ds⟩

namespace Grouping
open RuleTable
variable {o : Options} {t : RuleTable} {i j : Nat} {s : String} {d : String × String} {ds : List (String × String)}
  {r : StyleRule} {turns : List Turn} {x : Turn}

/-- No two rules that may be grouped have a declaration in common whose property may be shared. -/
def Unshared (o : Options) (t : RuleTable) : Prop :=
  ∀ s ds s' ds', (s, ds) ∈ t.rules → (s', ds') ∈ t.rules → s ≠ s' → s.toList.head? ≠ some '@' →
    s'.toList.head? ≠ some '@' → ∀ d ∈ ds, d ∈ ds' → d.1 ∈ o.preventCombining

theorem SharedAt.exists_rule (h : SharedAt o t d j) : ∃ s ds, t.RuleAt j s ds ∧ d ∈ ds ∧ s.toList.head? ≠ some '@' ∧
    o.combineSelectors = true ∧ d.1 ∉ o.preventCombining := by
  obtain ⟨e, he, hc⟩ := h
  obtain ⟨s, ds, rfl, hd⟩ := carries_eq_true hc
  simp only [carries, Bool.and_eq_true, bne_iff_ne, Options.prevents, Bool.not_eq_true', List.contains_eq_mem,
    decide_eq_false_iff_not] at hc
  exact ⟨s, ds, he, hd, hc.1.1.2, hc.1.1.1, hc.1.2⟩

/-- A group has two members or more, and they all share what it declares. -/
theorem exists_members (wf : t.WellFormed) (hr : .group r ∈ units t o) : ∃ i members,
    members ≠ [] ∧ MadeOf o t (i :: members) r ∧ r.declarations ≠ [] := by
  obtain ⟨turns, h⟩ := exists_turns wf o
  obtain ⟨i, s, ds, -, hled⟩ := h.exists_ledBy hr rfl
  cases hled with
  | group hne hmade hexc => exact ⟨i, _, hne, hmade, hexc.nonempty⟩

theorem group_excludes (wf : t.WellFormed) (hr : .group r ∈ units t o) :
    2 ≤ r.selectors.length ∧ (∀ s ∈ r.selectors, s.toList.head? ≠ some '@') ∧
      ∀ d ∈ r.declarations, d.1 ∉ o.preventCombining := by
  obtain ⟨i, members, hne, hmade, hdecls⟩ := exists_members wf hr
  refine ⟨?_, fun s hs => ?_, fun d hd => ?_⟩
  · have hlength := congrArg List.length (hmade.places wf hdecls)
    have hpos := List.length_pos_of_ne_nil hne
    simp only [List.length_map, List.length_cons] at hlength
    omega
  · obtain ⟨d, hd⟩ := List.exists_mem_of_ne_nil _ hdecls
    rw [hmade.selectors] at hs
    obtain ⟨j, hj, hsel⟩ := List.mem_filterMap.mp hs
    obtain ⟨s', ds, hrule, -, hat, -⟩ := (hmade.shared d hd j hj).exists_rule
    cases hrule.selectorAt?.symm.trans hsel
    exact hat
  · obtain ⟨s, ds, -, -, -, -, hprevent⟩ := (hmade.shared d hd i List.mem_cons_self).exists_rule
    exact hprevent

/-! ### Without groups -/

theorem not_group_mem (wf : t.WellFormed) (h : o.combineSelectors = false ∨ Unshared o t) :
    ∀ r, .group r ∉ units t o := by
  intro r hr
  obtain ⟨i, members, hne, hmade, hdecls⟩ := exists_members wf hr
  obtain ⟨d, hd⟩ := List.exists_mem_of_ne_nil _ hdecls
  obtain ⟨j, hj⟩ := List.exists_mem_of_ne_nil _ hne
  have hij : i < j := List.rel_of_pairwise_cons hmade.sorted hj
  obtain ⟨s, ds, hi, hds, hat, hcombine, hprevent⟩ := (hmade.shared d hd i List.mem_cons_self).exists_rule
  obtain ⟨s', ds', hj', hds', hat', -, -⟩ := (hmade.shared d hd j (List.mem_cons_of_mem _ hj)).exists_rule
  rcases h with hoff | hunshared
  · rw [hoff] at hcombine
    cases hcombine
  · have hsel : s ≠ s' := by
      rintro rfl
      exact Nat.ne_of_lt hij (wf.place_eq hi hj')
    exact hprevent (hunshared s ds s' ds' (mem_rules_iff.mpr ⟨i, hi⟩) (mem_rules_iff.mpr ⟨j, hj'⟩) hsel hat hat' d hds hds')

/-- Where no group comes out, every declaration of a rule comes out in a solo unit of its turn. -/
theorem Turns.exists_solo (wf : t.WellFormed) (h : Turns o t turns) (hnone : ∀ r, .group r ∉ units t o) (hx : x ∈ turns)
    (hj : t.RuleAt x.place s ds) (hd : d ∈ ds) : ∃ r, .solo r ∈ x.units ∧ d ∈ r.declarations := by
  obtain ⟨u, hu, r, hr, hs, hdr⟩ := mem_emission_iff.mp ((emission_units_perm wf o hj).mem_iff.mpr hd)
  cases u with
  | group => exact absurd hu (hnone _)
  | raw => cases hr
  | solo =>
    cases hr
    have hmem : r ∈ solosOf (units t o) s := by
      refine List.mem_filter.mpr ⟨List.mem_filterMap.mpr ⟨_, hu, rfl⟩, ?_⟩
      simpa using hs
    rw [h.solosOf_units wf hx hj] at hmem
    obtain ⟨v, hv, hvr⟩ := List.mem_filterMap.mp (List.mem_filter.mp hmem).1
    cases v with
    | solo =>
      cases hvr
      exact ⟨r, hv, hdr⟩
    | group => cases hvr
    | raw => cases hvr

/-- Some of the declarations of a rule, in authored order, are all of them if none is missing. -/
theorem Excerpt.eq_of_subset (h : Excerpt ds r) (hn : (ds.map (·.1)).Nodup) (hsub : ds ⊆ r.declarations) :
    r.declarations = ds :=
  h.authored.eq_of_length_le (List.subperm_of_subset hn.of_map hsub).length_le

/-- Then the turn has that one unit, with all declarations of the rule. -/
theorem Turns.units_eq_plain (wf : t.WellFormed) (h : Turns o t turns) (hnone : ∀ r, .group r ∉ units t o)
    (hx : x ∈ turns) : x.units = [x.entry.plain] := by
  have hentry := h.entry_at hx
  have hsub : x.units ⊆ units t o := fun u hu => h.joined ▸ List.mem_flatMap.mpr ⟨x, hx, hu⟩
  have hall {s ds d} (hj : t.RuleAt x.place s ds) (hd : d ∈ ds) := h.exists_solo wf hnone hx hj hd
  cases h.fair x hx with
  | raw => rfl
  | @rule s ds i us hled honce =>
    have hsolo : ∀ u ∈ us, ∃ r, u = .solo r ∧ r.selectors = [s] ∧ Excerpt ds r := by
      intro u hu
      cases hled u hu with
      | solo hsel hexc => exact ⟨_, rfl, hsel, hexc⟩
      | group => exact absurd (hsub hu) (hnone _)
    have hsolos : (us.filterMap SheetUnit.solo?).length = us.length := by
      refine List.filterMap_length_eq_length.mpr fun u hu => ?_
      obtain ⟨r, rfl, -⟩ := hsolo u hu
      rfl
    have hone : us.length ≤ 1 := by
      rcases honce with hle | ⟨r, hr, -⟩
      · exact hsolos ▸ hle
      · exact absurd (hsub hr) (hnone r)
    -- The rule is not empty, so there is a unit, and since there is no other it holds all of the rule.
    obtain ⟨d, hd⟩ := List.exists_mem_of_ne_nil _ (wf.nonempty (RuleAt.mem hentry))
    obtain ⟨r, hr, -⟩ := hall hentry hd
    obtain ⟨u, rfl⟩ := List.length_eq_one_iff.mp (Nat.le_antisymm hone (List.length_pos_of_mem hr))
    obtain ⟨⟨selectors, declarations⟩, rfl, rfl, hexc⟩ := hsolo u List.mem_cons_self
    have hsubset : ds ⊆ declarations := by
      intro d hd
      obtain ⟨r, hr, hd⟩ := hall hentry hd
      cases List.mem_singleton.mp hr
      exact hd
    obtain rfl : declarations = ds := hexc.eq_of_subset (wf.properties (RuleAt.mem hentry)) hsubset
    rfl

/-- A group has two selectors or more, none of an at-rule, and no property that the options keep apart. Where grouping
    is off, or rules have nothing in common that may be shared, the units are the entries of the table as they
    stand. -/
theorem units_respect_options (calls : List TableCall) (o : Options) :
    (∀ r, .group r ∈ units (ofCalls calls) o → 2 ≤ r.selectors.length ∧
      (∀ s ∈ r.selectors, s.toList.head? ≠ some '@') ∧ ∀ d ∈ r.declarations, d.1 ∉ o.preventCombining) ∧
    (o.combineSelectors = false ∨ Unshared o (ofCalls calls) →
      units (ofCalls calls) o = (ofCalls calls).entries.map Entry.plain) := by
  have wf := WellFormed.ofCalls calls
  refine ⟨fun r hr => group_excludes wf hr, fun hplain => ?_⟩
  obtain ⟨turns, h⟩ := exists_turns wf o
  have hentries : (ofCalls calls).entries = turns.map Turn.entry := by
    rw [← List.zipIdx_map_fst 0 (ofCalls calls).entries, ← h.entries, List.map_map]
    rfl
  calc units (ofCalls calls) o = turns.flatMap Turn.units := h.joined
    _ = turns.flatMap fun x => [x.entry.plain] :=
      List.flatMap_congr fun x hx => h.units_eq_plain wf (not_group_mem wf hplain) hx
    _ = (ofCalls calls).entries.map Entry.plain := by rw [hentries, List.map_map, List.map_eq_flatMap]; rfl

end Grouping

end StyleTree
