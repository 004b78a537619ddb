import StyleTree.Proofs.Grouping.Run

/-! The grouping neither loses a declaration nor holds one twice: each declaration of a table stands in
    exactly one unit, once, and the raw texts stand in table order. -/

namespace StyleTree

def SheetUnit.Lists (u : SheetUnit) (s p : String) : Prop := ∃ r, u.rule? = some r ∧ s ∈ r.selectors ∧ p ∈ r.properties

namespace Grouping
open RuleTable
variable {us : List SheetUnit} {s p q : String}

/-! ### Places of declarations -/

/-- The property stands for the selector in unit `k`, as its declaration `m`. -/
def EmittedAt (us : List SheetUnit) (s p : String) (k m : Nat) : Prop :=
  ∃ u r, us[k]? = some u ∧ u.rule? = some r ∧ s ∈ r.selectors ∧ r.properties[m]? = some p

theorem exists_emittedAt {k : Nat} {u : SheetUnit} (hu : us[k]? = some u) (h : u.Lists s p) :
    ∃ m, EmittedAt us s p k m := by
  obtain ⟨r, hr, hs, hp⟩ := h
  obtain ⟨m, hm⟩ := List.mem_iff_getElem?.mp hp
  exact ⟨m, u, r, hu, hr, hs, hm⟩

theorem EmittedAt.property_eq {k m : Nat} (hp : EmittedAt us s p k m) (hq : EmittedAt us s q k m) : p = q := by
  obtain ⟨u, r, hu, hr, -, hm⟩ := hp
  obtain ⟨u', r', hu', hr', -, hm'⟩ := hq
  cases hu.symm.trans hu'
  cases hr.symm.trans hr'
  exact Option.some.inj (hm.symm.trans hm')

theorem mem_emission_iff {d : String × String} : d ∈ emission us s ↔
    ∃ u ∈ us, ∃ r, u.rule? = some r ∧ s ∈ r.selectors ∧ d ∈ r.declarations := by
  rw [emission, List.mem_flatMap]
  refine exists_congr fun u => and_congr_right fun _ => ?_
  cases u with
  | group r | solo r => simp [SheetUnit.emits, SheetUnit.rule?, StyleRule.emits]
  | raw text => simp [SheetUnit.emits, SheetUnit.rule?]

theorem map_emits {u : SheetUnit} {r : StyleRule} (hr : u.rule? = some r) (hs : s ∈ r.selectors) :
    (u.emits s).map (·.1) = r.properties := by
  rw [SheetUnit.emits_of_rule? hr, StyleRule.emits, if_pos hs, StyleRule.properties]

/-- What relates the properties emitted for a selector in order relates those of a unit. -/
theorem pairwise_properties {R : String → String → Prop} (h : ((emission us s).map (·.1)).Pairwise R)
    {u : SheetUnit} {r : StyleRule} (hu : u ∈ us) (hr : u.rule? = some r) (hs : s ∈ r.selectors) :
    r.properties.Pairwise R := by
  rw [emission, List.map_flatMap, List.pairwise_flatMap] at h
  exact map_emits hr hs ▸ h.1 u hu

/-- What relates the properties emitted for a selector in order relates them by their places. -/
theorem rel_of_places {R : String → String → Prop} (h : ((emission us s).map (·.1)).Pairwise R) {k m k' m' : Nat}
    (hp : EmittedAt us s p k m) (hq : EmittedAt us s q k' m') (hlt : k < k' ∨ k = k' ∧ m < m') : R p q := by
  obtain ⟨u, r, hu, hr, hs, hm⟩ := hp
  obtain ⟨u', r', hu', hr', hs', hm'⟩ := hq
  rcases hlt with hlt | ⟨rfl, hlt⟩
  · rw [emission, List.map_flatMap, List.pairwise_flatMap] at h
    obtain ⟨hk, rfl⟩ := List.getElem?_eq_some_iff.mp hu
    obtain ⟨hk', rfl⟩ := List.getElem?_eq_some_iff.mp hu'
    have hacross := List.pairwise_iff_getElem.mp h.2 k k' hk hk' hlt
    rw [map_emits hr hs, map_emits hr' hs'] at hacross
    exact hacross p (List.mem_of_getElem? hm) q (List.mem_of_getElem? hm')
  · cases hu.symm.trans hu'
    cases hr.symm.trans hr'
    have hin := pairwise_properties h (List.mem_of_getElem? hu) hr hs
    obtain ⟨hml, rfl⟩ := List.getElem?_eq_some_iff.mp hm
    obtain ⟨hml', rfl⟩ := List.getElem?_eq_some_iff.mp hm'
    exact List.pairwise_iff_getElem.mp hin m m' hml hml' hlt

/-- Where no property is emitted twice for a selector, each has one place. -/
theorem place_unique (h : ((emission us s).map (·.1)).Nodup) {k m k' m' : Nat} (hp : EmittedAt us s p k m)
    (hp' : EmittedAt us s p k' m') : k = k' ∧ m = m' := by
  have hne : ¬(k < k' ∨ k = k' ∧ m < m') := fun hlt => rel_of_places h hp hp' hlt rfl
  have hne' : ¬(k' < k ∨ k' = k ∧ m' < m) := fun hlt => rel_of_places h hp' hp hlt rfl
  omega

/-! ### What the units of a table hold -/

section
variable {o : Options} {t : RuleTable} {j : Nat} {ds : List (String × String)}

/-- For each rule the units emit a rearrangement of its declarations. -/
theorem emission_units_perm (wf : t.WellFormed) (o : Options) (hj : t.RuleAt j s ds) :
    (emission (units t o) s).Perm ds := by
  have h := reached_run wf o
  have hlt : j < t.entries.length := (List.getElem?_eq_some_iff.mp hj).1
  have hall : ds.filter (fun d => (t.entries.zipIdx.foldl (emitEntry o t) {}).emitted.contains (j, d.1)) = ds :=
    List.filter_eq_self.mpr fun d hd => by simpa using h.out hlt hj d hd
  have hperm := h.faithful.perm hj
  rw [hall, ← h.units_eq] at hperm
  exact hperm

theorem exists_emittedAt_units (wf : t.WellFormed) (o : Options) (hj : t.RuleAt j s ds) {d : String × String}
    (hd : d ∈ ds) : ∃ k m, EmittedAt (units t o) s d.1 k m := by
  obtain ⟨u, hu, r, hr, hs, hd⟩ := mem_emission_iff.mp ((emission_units_perm wf o hj).mem_iff.mpr hd)
  obtain ⟨k, hk⟩ := List.mem_iff_getElem?.mp hu
  exact ⟨k, exists_emittedAt hk ⟨r, hr, hs, List.mem_map_of_mem hd⟩⟩

theorem emission_units_nodup (wf : t.WellFormed) (o : Options) (hj : t.RuleAt j s ds) :
    ((emission (units t o) s).map (·.1)).Nodup :=
  ((emission_units_perm wf o hj).map (·.1)).nodup_iff.mpr (wf.properties hj.mem)

theorem selects_units (wf : t.WellFormed) (o : Options) : Selects t (units t o) := by
  have h := reached_run wf o
  have := h.faithful.selects
  rwa [← h.units_eq] at this

theorem raws_units_eq (wf : t.WellFormed) (o : Options) :
    (units t o).filterMap SheetUnit.raw? = t.entries.filterMap Entry.raw? := by
  have h := reached_run wf o
  have := h.raws
  rwa [← h.units_eq, List.take_length] at this

end

/-- Each declaration of a table stands in exactly one unit, which lists its selector and its property once
    and gives the property the value it has in the table. A unit holds nothing that the table lacks, and
    the raw units are the raw texts of the table in their order. -/
theorem units_conserve_declarations (calls : List TableCall) (o : Options) :
    (∀ s ds, (s, ds) ∈ (ofCalls calls).rules → ∀ p v, (p, v) ∈ ds →
      ∃ (k : Nat) (u : SheetUnit) (r : StyleRule), (units (ofCalls calls) o)[k]? = some u ∧ u.rule? = some r ∧
        r.selectors.count s = 1 ∧ r.properties.count p = 1 ∧ (p, v) ∈ r.declarations ∧
        ∀ (k' : Nat) (u' : SheetUnit), (units (ofCalls calls) o)[k']? = some u' → u'.Lists s p → k' = k) ∧
    (∀ u ∈ units (ofCalls calls) o, ∀ s p, u.Lists s p → ∃ ds v, (s, ds) ∈ (ofCalls calls).rules ∧ (p, v) ∈ ds) ∧
    (units (ofCalls calls) o).filterMap SheetUnit.raw? = (ofCalls calls).entries.filterMap Entry.raw? := by
  have wf := WellFormed.ofCalls calls
  refine ⟨fun s ds hr p v hpv => ?_, fun u hu s p ⟨r, hr, hs, hp⟩ => ?_, raws_units_eq wf o⟩
  · obtain ⟨j, hj⟩ := mem_rules_iff.mp hr
    have hn := emission_units_nodup wf o hj
    obtain ⟨u, hu, r, hr, hs, hd⟩ := mem_emission_iff.mp ((emission_units_perm wf o hj).mem_iff.mpr hpv)
    obtain ⟨k, hk⟩ := List.mem_iff_getElem?.mp hu
    have hp : p ∈ r.properties := List.mem_map_of_mem hd
    refine ⟨k, u, r, hk, hr, List.count_eq_one_of_mem (selects_units wf o u hu r hr).1 hs,
      List.count_eq_one_of_mem (pairwise_properties hn hu hr hs) hp, hd, fun k' u' hk' hl => ?_⟩
    obtain ⟨m, hm⟩ := exists_emittedAt hk ⟨r, hr, hs, hp⟩
    obtain ⟨m', hm'⟩ := exists_emittedAt hk' hl
    exact (place_unique hn hm' hm).1
  · obtain ⟨j, ds, hj⟩ := (selects_units wf o u hu r hr).2 s hs
    obtain ⟨⟨p, v⟩, hd, rfl⟩ := List.mem_map.mp hp
    have he : (p, v) ∈ emission (units (ofCalls calls) o) s := mem_emission_iff.mpr ⟨u, hu, r, hr, hs, hd⟩
    exact ⟨ds, v, mem_rules_iff.mpr ⟨j, hj⟩, (emission_units_perm wf o hj).mem_iff.mp he⟩

end Grouping

end StyleTree
