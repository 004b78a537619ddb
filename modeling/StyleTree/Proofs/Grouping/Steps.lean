import StyleTree.Proofs.Grouping.Members

/-! What a step of the grouping does. A declaration at hand is passed over if it is out already, goes to
    the solo unit of its rule, or opens a group, which then takes in others. Each of these keeps the units
    faithful to the marks, takes no mark back and leaves the raw texts alone. -/

namespace StyleTree.Grouping
open RuleTable
variable {o : Options} {t : RuleTable} {emitted : Emitted} {us a b : List SheetUnit} {members : List Nat}
  {d : String × String}

/-! ### Units that open and grow -/

/-- A unit that emits nothing changes nothing. -/
theorem Faithful.append_silent (h : Faithful t emitted us) {u : SheetUnit} (hu : ∀ s, u.emits s = [])
    (hsel : Selects t [u]) : Faithful t emitted (us ++ [u]) := by
  have he (s : String) : emission (us ++ [u]) s = emission us s := by
    rw [emission_append, emission_singleton, hu, List.append_nil]
  refine ⟨fun v hv r hr => ?_, fun hj => he _ ▸ h.perm hj, fun hj => he _ ▸ h.ordered hj, h.closed⟩
  rcases List.mem_append.mp hv with hv | hv
  · exact h.selects v hv r hr
  · exact hsel v hv r hr

theorem Faithful.openUnit (wf : t.WellFormed) (h : Faithful t emitted us) (hm : members.Nodup) {u : SheetUnit}
    (hu : u.rule? = some ⟨members.filterMap t.selectorAt?, []⟩) : Faithful t emitted (us ++ [u]) := by
  refine h.append_silent (fun s => ?_) fun v hv r hr => ?_
  · rw [SheetUnit.emits_of_rule? hu, StyleRule.emits, ite_self]
  · cases List.mem_singleton.mp hv
    cases hu.symm.trans hr
    refine ⟨wf.nodup_selectors hm, fun s hs => ?_⟩
    obtain ⟨j, -, hj⟩ := List.mem_filterMap.mp hs
    exact ⟨j, selectorAt?_eq_some_iff.mp hj⟩

/-- A unit takes in a declaration that is due for its rules, if no unit behind it holds one that overlaps. -/
theorem Faithful.push (wf : t.WellFormed) {u u' : SheetUnit} {r : StyleRule} (h : Faithful t emitted (a ++ u :: b))
    (hu : u.rule? = some r) (hu' : u'.rule? = some (r.push d.1 d.2))
    (hr : r.selectors = members.filterMap t.selectorAt?) (hdue : ∀ j ∈ members, Due t emitted j d)
    (hb : ∀ v ∈ b, ∀ g, v.rule? = some g → ∀ e ∈ g.declarations, overlaps e.1 d.1 = false) :
    Faithful t (emitted.mark members d.1) (a ++ u' :: b) := by
  have split (v : SheetUnit) (s : String) : emission (a ++ v :: b) s = emission a s ++ (v.emits s ++ emission b s) := by
    rw [← List.singleton_append, emission_append, emission_append, emission_singleton]
  refine h.emit wf hdue (fun v hv g hg => ?_) (fun {j s ds} hj hjm => ?_) (fun {j s ds} hj hjm => ?_)
  · rcases List.mem_append.mp hv with hv | hv
    · exact h.selects v (List.mem_append_left _ hv) g hg
    · rcases List.mem_cons.mp hv with rfl | hv
      · cases hu'.symm.trans hg
        exact h.selects u (by simp) r hu
      · exact h.selects v (List.mem_append_right _ (List.mem_cons_of_mem _ hv)) g hg
  · have hs : s ∈ r.selectors := hr ▸ (wf.mem_selectors_iff hj).mpr hjm
    refine ⟨emission a s ++ r.declarations, emission b s, ?_, ?_, fun e he => ?_⟩
    · rw [split, SheetUnit.emits_of_rule? hu, StyleRule.emits, if_pos hs, List.append_assoc]
    · rw [split, SheetUnit.emits_of_rule? hu', StyleRule.emits, StyleRule.push, if_pos hs]
      simp
    · obtain ⟨v, hv, he⟩ := List.mem_flatMap.mp he
      cases hg : v.rule? with
      | none => cases v <;> simp_all [SheetUnit.rule?, SheetUnit.emits]
      | some g =>
        rw [SheetUnit.emits_of_rule? hg, StyleRule.emits] at he
        split at he
        · exact hb v hv g hg e he
        · cases he
  · have hs : s ∉ r.selectors := hr ▸ (wf.mem_selectors_iff hj).not.mpr hjm
    rw [split, split, SheetUnit.emits_of_rule? hu, SheetUnit.emits_of_rule? hu', StyleRule.emits, StyleRule.emits,
      StyleRule.push, if_neg hs, if_neg hs]

/-! ### Groups -/

/-- A group is left as it is, or takes in a declaration that is due for its members. -/
theorem extendGroup_cases (o : Options) (t : RuleTable) (i : Nat) (members : List Nat) (s : Emitted × StyleRule)
    (d : String × String) : extendGroup o t i members s d = s ∨
      ((i, d.1) ∉ s.1 ∧ eligible o t s.1 i d.1 d.2 = members ∧
        extendGroup o t i members s d = (s.1.mark members d.1, s.2.push d.1 d.2)) := by
  rw [extendGroup]
  split
  · exact .inl rfl
  · next h =>
    simp only [List.contains_eq_mem, Bool.or_eq_true, decide_eq_true_eq, bne_iff_ne, ne_eq, not_or, not_not] at h
    exact .inr ⟨h.1, h.2, rfl⟩

/-- What holds of a group under construction, with the units before it. -/
structure Growing (t : RuleTable) (members : List Nat) (emitted : Emitted) (us : List SheetUnit)
    (s : Emitted × StyleRule) : Prop where
  faithful : Faithful t s.1 (us ++ [.group s.2])
  selectors : s.2.selectors = members.filterMap t.selectorAt?
  marks : emitted ⊆ s.1

theorem Growing.extendGroup (wf : t.WellFormed) {s : Emitted × StyleRule} (h : Growing t members emitted us s)
    (i : Nat) (d : String × String) : Growing t members emitted us (extendGroup o t i members s d) := by
  rcases extendGroup_cases o t i members s d with heq | ⟨-, hm, heq⟩ <;> rw [heq]
  · exact h
  · refine ⟨h.faithful.push wf rfl rfl h.selectors (fun j hj => ?_) (by simp), h.selectors,
      fun x hx => mem_mark_of_mem (h.marks hx)⟩
    exact due_of_mem_eligible wf (hm ▸ hj)

theorem Growing.foldl_extendGroup (wf : t.WellFormed) (i : Nat) (ds : List (String × String))
    {s : Emitted × StyleRule} (h : Growing t members emitted us s) :
    Growing t members emitted us (ds.foldl (Grouping.extendGroup o t i members) s) := by
  induction ds generalizing s with
  | nil => exact h
  | cons d rest ih => exact ih (h.extendGroup wf i d)

theorem makeGroup_growing (wf : t.WellFormed) (h : Faithful t emitted us) (i : Nat) (ds : List (String × String))
    (hm : members.Nodup) (hdue : ∀ j ∈ members, Due t emitted j d) :
    Growing t members (emitted.mark members d.1) us (makeGroup o t i ds emitted members d.1 d.2) := by
  have ho := h.openUnit wf hm (u := .group ⟨members.filterMap t.selectorAt?, []⟩) rfl
  exact Growing.foldl_extendGroup wf i ds
    ⟨ho.push wf rfl rfl rfl hdue (by simp), rfl, fun _ hx => hx⟩

/-! ### Solo units -/

namespace Progress

theorem units_of_solo {p : Progress} {r : StyleRule} (h : p.solo = some r) :
    p.units = p.settled ++ .solo r :: p.groups.map .group := by
  simp [units, h]

/-- A declaration goes to a solo unit that is there or just opened, with nothing behind it that overlaps. -/
theorem pushSolo_cases (p : Progress) (i : Nat) (s property value : String) : ∃ q r,
    p.pushSolo i s property value =
      { q with solo := some (r.push property value), emitted := p.emitted.mark [i] property } ∧
    q.solo = some r ∧ (∀ g ∈ q.groups, ∀ e ∈ g.declarations, overlaps e.1 property = false) ∧
    (p.needsSolo property = false ∧ q = p ∨
      p.needsSolo property = true ∧ q = { p.settle with solo := some ⟨[s], []⟩ }) := by
  cases hn : p.needsSolo property with
  | true =>
    refine ⟨{ p.settle with solo := some ⟨[s], []⟩ }, ⟨[s], []⟩, ?_, rfl, fun _ hg => absurd hg List.not_mem_nil, .inr ⟨rfl, rfl⟩⟩
    simp only [pushSolo, hn, if_true, Option.map_some]
    rfl
  | false =>
    have hn' := hn
    simp only [needsSolo, Bool.or_eq_false_iff, Option.isNone_eq_false_iff, Option.isSome_iff_exists] at hn'
    obtain ⟨⟨r, hr⟩, hg⟩ := hn'
    refine ⟨p, r, ?_, hr, fun g hm e he => ?_, .inl ⟨rfl, rfl⟩⟩
    · simp [pushSolo, hn, hr]
    · have := List.any_eq_false.mp hg g hm
      simp only [StyleRule.properties, List.any_map, List.any_eq_true, Function.comp_apply, not_exists, not_and,
        Bool.not_eq_true] at this
      exact this e he

end Progress

/-! ### One declaration -/

/-- A declaration is passed over, goes to the solo unit, or opens a group led by its rule. -/
theorem emitDeclaration_cases (o : Options) (t : RuleTable) (i : Nat) (s : String) (ds : List (String × String))
    (p : Progress) (d : String × String) :
    (i, d.1) ∈ p.emitted ∧ emitDeclaration o t i s ds p d = p ∨
    (i, d.1) ∉ p.emitted ∧
      ((eligible o t p.emitted i d.1 d.2).length < 2 ∨ (eligible o t p.emitted i d.1 d.2).head? ≠ some i) ∧
      emitDeclaration o t i s ds p d = p.pushSolo i s d.1 d.2 ∨
    (i, d.1) ∉ p.emitted ∧ ∃ members, eligible o t p.emitted i d.1 d.2 = i :: members ∧ members ≠ [] ∧
      emitDeclaration o t i s ds p d =
        p.pushGroup (makeGroup o t i ds p.emitted (i :: members) d.1 d.2).1
          (makeGroup o t i ds p.emitted (i :: members) d.1 d.2).2 := by
  rw [emitDeclaration]
  split
  · next h => exact .inl ⟨by simpa using h, rfl⟩
  · next h =>
    have hnew : (i, d.1) ∉ p.emitted := by simpa using h
    by_cases hm : (eligible o t p.emitted i d.1 d.2).length < 2 ∨ (eligible o t p.emitted i d.1 d.2).head? ≠ some i
    · refine .inr (.inl ⟨hnew, hm, if_pos ?_⟩)
      simpa using hm
    · have hm' := hm
      rw [not_or, not_not, Nat.not_lt] at hm'
      cases he : eligible o t p.emitted i d.1 d.2 with
      | nil => simp [he] at hm'
      | cons k members =>
        rw [he] at hm'
        obtain rfl : k = i := Option.some.inj hm'.2
        refine .inr (.inr ⟨hnew, members, rfl, fun h => ?_, if_neg ?_⟩)
        · simp [h] at hm'
        · simpa [he] using hm

end StyleTree.Grouping
