import Mathlib.Data.List.Sort
import StyleTree.Proofs.Grouping.Conservation

/-! Sharing is complete up to shorthand order. As long as it is not out, a declaration that nothing overlapping
    stands before can be emitted by its rule, since marks are closed. So when the first of two rules that share
    such a declaration emits it, both are eligible, and it goes out with a group that has both for members.
    Throughout a run a group lists the selectors of its members in table order, and they all share what it
    declares. -/

namespace StyleTree

def SheetUnit.group? : SheetUnit → Option StyleRule
  | .group r => some r
  | .solo _ | .raw _ => none

theorem SheetUnit.group?_eq_some_iff {u : SheetUnit} {r : StyleRule} : u.group? = some r ↔ u = .group r := by
  cases u <;> simp [group?]

namespace Grouping
open RuleTable
variable {o : Options} {t : RuleTable} {emitted : Emitted} {i j k : Nat} {d : String × String} {p : Progress}
  {members : List Nat} {groups : List StyleRule}

/-! ### Offers -/

/-- No declaration that overlaps the property stands before it. -/
def Unpreceded (ds : List (String × String)) (property : String) : Prop :=
  ∀ e ∈ ds, overlaps e.1 property = true → place ds property ≤ place ds e.1

instance (ds : List (String × String)) (property : String) : Decidable (Unpreceded ds property) :=
  inferInstanceAs (Decidable (∀ e ∈ ds, overlaps e.1 property = true → place ds property ≤ place ds e.1))

/-- The entry at place `j` shares the declaration. -/
def SharedAt (o : Options) (t : RuleTable) (d : String × String) (j : Nat) : Prop :=
  ∃ e, t.entries[j]? = some e ∧ carries o d.1 d.2 e = true

/-- The rule at place `j` shares the declaration and can emit it until it is out. -/
def Offers (o : Options) (t : RuleTable) (d : String × String) (j : Nat) : Prop :=
  ∃ s ds, t.RuleAt j s ds ∧ carries o d.1 d.2 (.rule s ds) = true ∧ Unpreceded ds d.1

theorem mem_of_carries {s : String} {ds : List (String × String)} (h : carries o d.1 d.2 (.rule s ds) = true) : d ∈ ds := by
  obtain ⟨s', ds', heq, hd⟩ := carries_eq_true h
  cases heq
  exact hd

/-- A rule shares one declaration of a property. -/
theorem SharedAt.unique (wf : t.WellFormed) {e : String × String} (hd : SharedAt o t d j) (he : SharedAt o t e j)
    (h : d.1 = e.1) : d = e := by
  obtain ⟨entry, hj, hd⟩ := hd
  obtain ⟨entry', hj', he⟩ := he
  cases hj.symm.trans hj'
  obtain ⟨s, ds, rfl, -⟩ := carries_eq_true hd
  exact List.inj_on_of_nodup_map (wf.properties (RuleAt.mem hj)) (mem_of_carries hd) (mem_of_carries he) h

theorem Offers.sharedAt (h : Offers o t d j) : SharedAt o t d j := by
  obtain ⟨s, ds, hj, hc, -⟩ := h
  exact ⟨_, hj, hc⟩

theorem sharedAt_of_mem_eligible (h : j ∈ eligible o t emitted i d.1 d.2) : SharedAt o t d j := by
  obtain ⟨-, e, hj, he⟩ := mem_eligible.mp h
  simp only [canEmit, Bool.and_eq_true] at he
  exact ⟨e, hj, he.1.1⟩

/-- The rules before are out, and so is nothing that overlaps the declaration before the declaration itself. -/
theorem Offers.mem_eligible (wf : t.WellFormed) (hclosed : Closed t emitted) (hout : OutBefore t i emitted)
    (h : Offers o t d j) (hnew : (j, d.1) ∉ emitted) : j ∈ eligible o t emitted i d.1 d.2 := by
  obtain ⟨s, ds, hj, hc, hfirst⟩ := h
  have hd := mem_of_carries hc
  have hn := wf.properties hj.mem
  have hij : i ≤ j := Nat.not_lt.mp fun hlt => hnew (hout hlt hj d hd)
  refine mem_eligible_of_due wf hij hj hc ⟨s, ds, hj, hd, hnew, fun e he hne ho => ?_⟩
  have hle := hfirst e he ho
  have hplace : place ds d.1 ≠ place ds e.1 := fun heq => hne (eq_of_place_eq hn he hd heq.symm)
  refine iff_of_false (fun hm => hnew ?_) (by omega)
  exact hclosed hj d hd e he (overlaps_comm e.1 d.1 ▸ ho) (by omega) hm

/-- The rule at hand is the first of those that are eligible, if it is one of them. -/
theorem head?_eligible (h : i ∈ eligible o t emitted i d.1 d.2) : (eligible o t emitted i d.1 d.2).head? = some i := by
  have hsorted := eligible_sorted o t emitted i d.1 d.2
  have hfrom : ∀ m ∈ eligible o t emitted i d.1 d.2, i ≤ m := fun m hm => (Grouping.mem_eligible.mp hm).1
  cases hel : eligible o t emitted i d.1 d.2 with
  | nil => simp [hel] at h
  | cons m rest =>
    rw [hel] at h hsorted hfrom
    rcases List.mem_cons.mp h with rfl | h
    · rfl
    · have hlt := List.rel_of_pairwise_cons hsorted h
      have hle := hfrom m List.mem_cons_self
      omega

/-! ### Groups -/

/-- The group lists the selectors of the members in table order, and they all share what it declares. -/
structure MadeOf (o : Options) (t : RuleTable) (members : List Nat) (r : StyleRule) : Prop where
  selectors : r.selectors = members.filterMap t.selectorAt?
  sorted : members.Pairwise (· < ·)
  nonempty : members ≠ []
  shared : ∀ d ∈ r.declarations, ∀ j ∈ members, SharedAt o t d j

theorem MadeOf.push {r : StyleRule} (h : MadeOf o t members r) (hd : ∀ j ∈ members, SharedAt o t d j) :
    MadeOf o t members (r.push d.1 d.2) := by
  refine ⟨h.selectors, h.sorted, h.nonempty, fun e he => ?_⟩
  rcases List.mem_append.mp he with he | he
  · exact h.shared e he
  · exact List.mem_singleton.mp he ▸ hd

/-- A group with the declaration for the rules at both places. -/
structure Joins (t : RuleTable) (d : String × String) (i j : Nat) (r : StyleRule) : Prop where
  declaration : d ∈ r.declarations
  left : ∀ s ∈ t.selectorAt? i, s ∈ r.selectors
  right : ∀ s ∈ t.selectorAt? j, s ∈ r.selectors

theorem Joins.symm {r : StyleRule} (h : Joins t d i j r) : Joins t d j i r := ⟨h.declaration, h.right, h.left⟩

theorem MadeOf.joins {r : StyleRule} (h : MadeOf o t members r) (hd : d ∈ r.declarations) (hi : i ∈ members)
    (hj : j ∈ members) : Joins t d i j r := by
  have mem {k : Nat} (hk : k ∈ members) : ∀ s ∈ t.selectorAt? k, s ∈ r.selectors := fun s hs => by
    rw [h.selectors]
    exact List.mem_filterMap.mpr ⟨k, hk, hs⟩
  exact ⟨hd, mem hi, mem hj⟩

/-- What two rules offer and one of them has emitted, a group has for both. -/
def Complete (o : Options) (t : RuleTable) (emitted : Emitted) (groups : List StyleRule) : Prop :=
  ∀ ⦃d i j⦄, Offers o t d i → Offers o t d j → i ≠ j → (i, d.1) ∈ emitted → ∃ r ∈ groups, Joins t d i j r

/-- The later groups hold at least what the earlier ones do. -/
def Extends (groups groups' : List StyleRule) : Prop :=
  ∀ r ∈ groups, ∃ r' ∈ groups', r'.selectors = r.selectors ∧ r.declarations ⊆ r'.declarations

theorem Joins.extends {groups' : List StyleRule} (h : Extends groups groups') (hr : ∃ r ∈ groups, Joins t d i j r) :
    ∃ r ∈ groups', Joins t d i j r := by
  obtain ⟨r, hr, hjoins⟩ := hr
  obtain ⟨r', hr', hsel, hsub⟩ := h r hr
  exact ⟨r', hr', hsub hjoins.declaration, hsel ▸ hjoins.left, hsel ▸ hjoins.right⟩

/-- A group of all that are eligible takes the declaration from each of them to all who offer it. -/
theorem Complete.mark (wf : t.WellFormed) (h : Complete o t emitted groups) (hclosed : Closed t emitted)
    (hout : OutBefore t i emitted) (he : eligible o t emitted i d.1 d.2 = members) {groups' : List StyleRule}
    (hext : Extends groups groups') {r : StyleRule} (hr : r ∈ groups') (hmade : MadeOf o t members r)
    (hd : d ∈ r.declarations) : Complete o t (emitted.mark members d.1) groups' := by
  intro e j k hj hk hne hm
  rcases mem_mark.mp hm with ⟨hjm, heq⟩ | hm
  · obtain rfl := hj.sharedAt.unique wf (sharedAt_of_mem_eligible (he ▸ hjm)) heq
    by_cases hkm : (k, e.1) ∈ emitted
    · -- The other rule has it in a group already, and that group has both.
      obtain ⟨r', hr', hjoins⟩ := Joins.extends hext (h hk hj hne.symm hkm)
      exact ⟨r', hr', hjoins.symm⟩
    · exact ⟨r, hr, hmade.joins hd hjm (he ▸ hk.mem_eligible wf hclosed hout hkm)⟩
  · exact Joins.extends hext (h hj hk hne hm)

/-- A rule that is not the first of two eligible ones offers nothing that another rule offers as well. -/
theorem Complete.mark_solo (wf : t.WellFormed) (h : Complete o t emitted groups) (hclosed : Closed t emitted)
    (hout : OutBefore t i emitted) {s : String} {ds : List (String × String)} (hi : t.RuleAt i s ds) (hd : d ∈ ds)
    (hnew : (i, d.1) ∉ emitted)
    (hfew : (eligible o t emitted i d.1 d.2).length < 2 ∨ (eligible o t emitted i d.1 d.2).head? ≠ some i) :
    Complete o t (emitted.mark [i] d.1) groups := by
  intro e j k hj hk hne hm
  rcases mem_mark.mp hm with ⟨hji, heq⟩ | hm
  · obtain rfl := List.mem_singleton.mp hji
    obtain ⟨s', ds', hrule, hc, -⟩ := id hj
    cases hi.symm.trans hrule
    obtain rfl := List.inj_on_of_nodup_map (wf.properties hi.mem) (mem_of_carries hc) hd heq
    by_cases hkm : (k, e.1) ∈ emitted
    · obtain ⟨r', hr', hjoins⟩ := h hk hj hne.symm hkm
      exact ⟨r', hr', hjoins.symm⟩
    · exfalso
      have hjm := hj.mem_eligible wf hclosed hout hnew
      have hkm := hk.mem_eligible wf hclosed hout hkm
      rcases hfew with hfew | hfew
      · -- One place alone would be that of both rules.
        obtain ⟨m, hm⟩ := List.length_eq_one_iff.mp (Nat.le_antisymm (Nat.le_of_lt_succ hfew) (List.length_pos_of_mem hjm))
        rw [hm] at hjm hkm
        exact hne ((List.mem_singleton.mp hjm).trans (List.mem_singleton.mp hkm).symm)
      · exact hfew (head?_eligible hjm)
  · exact h hj hk hne hm

/-! ### A run -/

/-- What holds of the groups throughout a run. -/
structure Sharing (o : Options) (t : RuleTable) (emitted : Emitted) (groups : List StyleRule) : Prop where
  complete : Complete o t emitted groups
  made : ∀ r ∈ groups, ∃ members, MadeOf o t members r

theorem Sharing.extendGroup (wf : t.WellFormed) {us : List SheetUnit} {s : Emitted × StyleRule} {emitted₀ : Emitted}
    (hgrow : Growing t members emitted₀ us s) (hout : OutBefore t i s.1) (hmade : MadeOf o t members s.2)
    (h : Sharing o t s.1 (groups ++ [s.2])) (d : String × String) :
    MadeOf o t members (extendGroup o t i members s d).2 ∧
      Sharing o t (Grouping.extendGroup o t i members s d).1 (groups ++ [(Grouping.extendGroup o t i members s d).2]) := by
  rcases extendGroup_cases o t i members s d with heq | ⟨-, he, heq⟩ <;> rw [heq]
  · exact ⟨hmade, h⟩
  · have hpush := hmade.push fun j hj => sharedAt_of_mem_eligible (he ▸ hj)
    have hext : Extends (groups ++ [s.2]) (groups ++ [s.2.push d.1 d.2]) := by
      intro r hr
      rcases List.mem_append.mp hr with hr | hr
      · exact ⟨r, List.mem_append_left _ hr, rfl, List.Subset.refl _⟩
      · cases List.mem_singleton.mp hr
        exact ⟨_, List.mem_append_right _ List.mem_cons_self, rfl, List.subset_append_left ..⟩
    refine ⟨hpush, h.complete.mark wf hgrow.faithful.closed hout he hext
      (List.mem_append_right _ List.mem_cons_self) hpush (List.mem_append_right _ List.mem_cons_self), fun r hr => ?_⟩
    rcases List.mem_append.mp hr with hr | hr
    · exact h.made r (List.mem_append_left _ hr)
    · exact ⟨members, List.mem_singleton.mp hr ▸ hpush⟩

theorem Sharing.foldl_extendGroup (wf : t.WellFormed) {us : List SheetUnit} {emitted₀ : Emitted}
    (ds : List (String × String)) {s : Emitted × StyleRule} (hgrow : Growing t members emitted₀ us s)
    (hout : OutBefore t i s.1) (hmade : MadeOf o t members s.2) (h : Sharing o t s.1 (groups ++ [s.2])) :
    Sharing o t (ds.foldl (Grouping.extendGroup o t i members) s).1
      (groups ++ [(ds.foldl (Grouping.extendGroup o t i members) s).2]) := by
  induction ds generalizing s with
  | nil => exact h
  | cons d rest ih =>
    obtain ⟨hmade', h'⟩ := h.extendGroup wf hgrow hout hmade d
    have hmarks : s.1 ⊆ (Grouping.extendGroup o t i members s d).1 := by
      rcases extendGroup_cases o t i members s d with heq | ⟨-, -, heq⟩ <;> rw [heq]
      · exact List.Subset.refl _
      · exact fun x hx => mem_mark_of_mem hx
    exact ih (hgrow.extendGroup wf i d) (fun hlt hj e he => hmarks (hout hlt hj e he)) hmade' h'

namespace Progress

/-- The groups among the units. -/
def groupUnits (p : Progress) : List StyleRule := p.units.filterMap SheetUnit.group?

theorem groupUnits_eq (p : Progress) : p.groupUnits = p.settled.filterMap SheetUnit.group? ++ p.groups := by
  have hsolo : (p.solo.toList.map SheetUnit.solo).filterMap SheetUnit.group? = [] := by
    cases p.solo <;> rfl
  have hgroups : (p.groups.map SheetUnit.group).filterMap SheetUnit.group? = p.groups := by
    rw [List.filterMap_map]
    exact List.filterMap_some
  rw [groupUnits, units, List.filterMap_append, List.filterMap_append, hsolo, hgroups, List.append_nil]

theorem groupUnits_settle (p : Progress) : p.settle.groupUnits = p.groupUnits := by
  rw [groupUnits_eq, settle, List.append_nil, groupUnits]

theorem groupUnits_pushRaw (p : Progress) (text : String) : (p.pushRaw text).groupUnits = p.groupUnits := by
  have hraw : [SheetUnit.raw text].filterMap SheetUnit.group? = [] := rfl
  rw [groupUnits_eq, groupUnits_eq, pushRaw, List.filterMap_append, hraw, List.append_nil]

theorem groupUnits_pushSolo (p : Progress) (i : Nat) (s property value : String) :
    (p.pushSolo i s property value).groupUnits = p.groupUnits := by
  obtain ⟨q, r, heq, -, -, ⟨-, rfl⟩ | ⟨-, rfl⟩⟩ := p.pushSolo_cases i s property value
  · rw [heq, groupUnits_eq, groupUnits_eq]
  · rw [heq, ← groupUnits_settle p, groupUnits_eq, groupUnits_eq p.settle]

theorem groupUnits_pushGroup (p : Progress) (emitted : Emitted) (r : StyleRule) :
    (p.pushGroup emitted r).groupUnits = p.groupUnits ++ [r] := by
  rw [groupUnits_eq, groupUnits_eq, pushGroup, List.append_assoc]

end Progress

theorem Sharing.emitDeclaration (wf : t.WellFormed) {s : String} {ds : List (String × String)} (hi : t.RuleAt i s ds)
    (hw : Working t s p) (hout : OutBefore t i p.emitted) (hd : d ∈ ds) (h : Sharing o t p.emitted p.groupUnits) :
    Sharing o t (emitDeclaration o t i s ds p d).emitted (Grouping.emitDeclaration o t i s ds p d).groupUnits := by
  have hclosed : Closed t p.emitted := hw.faithful.closed
  rcases emitDeclaration_cases o t i s ds p d with ⟨-, heq⟩ | ⟨hnew, hfew, heq⟩ | ⟨hnew, members, he, -, heq⟩ <;> rw [heq]
  · exact h
  · have hemitted : (p.pushSolo i s d.1 d.2).emitted = p.emitted.mark [i] d.1 := by
      obtain ⟨q, r, hq, -⟩ := p.pushSolo_cases i s d.1 d.2
      rw [hq]
    rw [hemitted, Progress.groupUnits_pushSolo]
    exact ⟨h.complete.mark_solo wf hclosed hout hi hd hnew hfew, h.made⟩
  · rw [Progress.groupUnits_pushGroup]
    have hshared : ∀ j ∈ i :: members, SharedAt o t d j := fun j hj => sharedAt_of_mem_eligible (he ▸ hj)
    have hmade : MadeOf o t (i :: members) ⟨(i :: members).filterMap t.selectorAt?, [(d.1, d.2)]⟩ := by
      refine ⟨rfl, he ▸ eligible_sorted o t p.emitted i d.1 d.2, List.cons_ne_nil _ _, fun e hmem => ?_⟩
      exact List.mem_singleton.mp hmem ▸ hshared
    have hext : Extends p.groupUnits (p.groupUnits ++ [⟨(i :: members).filterMap t.selectorAt?, [(d.1, d.2)]⟩]) :=
      fun r hr => ⟨r, List.mem_append_left _ hr, rfl, List.Subset.refl _⟩
    -- The group as it opens; what it takes in afterwards keeps what holds of it.
    refine Sharing.foldl_extendGroup wf ds (makeGroup_growing (o := o) wf hw.faithful i [] (he ▸ eligible_nodup ..)
      fun j hj => due_of_mem_eligible wf (he ▸ hj)) (fun hlt hj e he => mem_mark_of_mem (hout hlt hj e he)) hmade ?_
    refine ⟨h.complete.mark wf hclosed hout he hext (List.mem_append_right _ List.mem_cons_self) hmade
      List.mem_cons_self, fun r hr => ?_⟩
    rcases List.mem_append.mp hr with hr | hr
    · exact h.made r hr
    · cases List.mem_singleton.mp hr
      exact ⟨_, hmade⟩

theorem sharing_invariant (wf : t.WellFormed) (o : Options) :
    Invariant o t fun p => Sharing o t p.emitted p.groupUnits where
  start := ⟨fun _ _ _ _ _ _ h => (List.not_mem_nil h).elim, fun _ h => (List.not_mem_nil h).elim⟩
  raw {p} text h := p.groupUnits_pushRaw text ▸ h
  settle {p} h := p.groupUnits_settle ▸ h
  declaration hi hw hout hd _ h := h.emitDeclaration wf hi hw hout hd

theorem sharing_units (wf : t.WellFormed) (o : Options) :
    ∃ emitted, OutBefore t t.entries.length emitted ∧ Sharing o t emitted ((units t o).filterMap SheetUnit.group?) := by
  obtain ⟨hreached, hsharing⟩ := (sharing_invariant wf o).run wf
  exact ⟨_, hreached.out, hsharing⟩

/-! ### Sharers -/

/-- The selectors of the rules that share a declaration, in table order. Rules of at-rules do not. -/
def sharers (t : RuleTable) (d : String × String) : List String :=
  (t.rules.filter fun r => r.1.toList.head? != some '@' && r.2.contains d).map (·.1)

/-- The places of the rules that carry a declaration. -/
def carriers (o : Options) (t : RuleTable) (d : String × String) : List Nat :=
  t.entries.zipIdx.filterMap fun e => if carries o d.1 d.2 e.1 then some e.2 else none

theorem carriers_sorted : (carriers o t d).Pairwise (· < ·) := sorted_places t.entries fun e _ => carries o d.1 d.2 e

theorem mem_carriers : j ∈ carriers o t d ↔ SharedAt o t d j := by
  simp only [carriers, List.mem_filterMap, Option.ite_none_right_eq_some, Option.some.injEq, Prod.exists, SharedAt,
    List.mem_zipIdx_iff_getElem?]
  constructor
  · rintro ⟨e, k, he, hc, rfl⟩
    exact ⟨e, he, hc⟩
  · rintro ⟨e, he, hc⟩
    exact ⟨e, j, he, hc, rfl⟩

section
variable (wf : t.WellFormed) (hcombine : o.combineSelectors = true) (hshared : o.prevents d.1 = false)
include wf hcombine hshared

theorem carries_rule_iff {s : String} {ds : List (String × String)} (hr : .rule s ds ∈ t.entries) :
    carries o d.1 d.2 (.rule s ds) = true ↔ s.toList.head? ≠ some '@' ∧ d ∈ ds := by
  simp only [carries, hcombine, hshared, Bool.true_and, Bool.not_false, Bool.and_true, Bool.and_eq_true, bne_iff_ne,
    beq_iff_eq]
  exact and_congr_right fun _ => ⟨Assoc.mem_of_get?, Assoc.get?_of_mem (wf.properties hr)⟩

theorem sharers_eq : sharers t d = (t.entries.filter (carries o d.1 d.2)).filterMap Entry.selector? := by
  rw [sharers, RuleTable.rules, ← List.filterMap_eq_map, ← List.filterMap_eq_filter, ← List.filterMap_eq_filter,
    List.filterMap_filterMap, List.filterMap_filterMap, List.filterMap_filterMap]
  refine List.filterMap_congr fun e he => ?_
  cases e with
  | raw text => rfl
  | rule s ds =>
    have hiff := carries_rule_iff wf hcombine hshared he
    by_cases hc : carries o d.1 d.2 (.rule s ds) = true
    · have h := hiff.mp hc
      simp [Entry.rule?, Entry.selector?, Option.guard, hc, h.1, h.2]
    · have h := hiff.not.mp hc
      simp only [ne_eq, not_and] at h
      simpa [Entry.rule?, Option.guard, hc] using h

/-- A group that declares what all its sharers offer lists them all. -/
theorem MadeOf.selectors_eq {r : StyleRule} (h : MadeOf o t members r) (hd : d ∈ r.declarations)
    (hall : ∀ j, SharedAt o t d j → j ∈ members) : r.selectors = sharers t d := by
  have hplaces : members = carriers o t d := by
    refine h.sorted.eq_of_mem_iff carriers_sorted fun {j} => ?_
    exact ⟨fun hj => mem_carriers.mpr (h.shared d hd j hj), fun hj => hall j (mem_carriers.mp hj)⟩
  have hentries : t.entries = t.entries.zipIdx.map (·.1) := (List.zipIdx_map_fst 0 t.entries).symm
  rw [h.selectors, hplaces, carriers, sharers_eq wf hcombine hshared, List.filterMap_filterMap, ← List.filterMap_eq_filter,
    List.filterMap_filterMap]
  conv_rhs => rw [hentries, List.filterMap_map]
  refine List.filterMap_congr fun e he => ?_
  have hselector : t.selectorAt? e.2 = e.1.selector? := by
    rw [RuleTable.selectorAt?, List.mem_zipIdx_iff_getElem?.mp he]
    rfl
  by_cases hc : carries o d.1 d.2 e.1 = true <;> simp [hc, hselector, Option.guard]

theorem offers_of_rule {s : String} {ds : List (String × String)} (hj : t.RuleAt j s ds) (hat : s.toList.head? ≠ some '@')
    (hd : d ∈ ds) (hfirst : Unpreceded ds d.1) : Offers o t d j :=
  ⟨s, ds, hj, (carries_rule_iff wf hcombine hshared hj.mem).mpr ⟨hat, hd⟩, hfirst⟩

theorem sharedAt_of_mem_sharers {s : String} (h : s ∈ sharers t d) : ∃ j ds, t.RuleAt j s ds ∧ SharedAt o t d j := by
  obtain ⟨⟨s', ds⟩, hr, rfl⟩ := List.mem_map.mp h
  simp only [List.mem_filter, Bool.and_eq_true, bne_iff_ne, List.contains_iff_mem] at hr
  obtain ⟨j, hj⟩ := mem_rules_iff.mp hr.1
  exact ⟨j, ds, hj, _, hj, (carries_rule_iff wf hcombine hshared hj.mem).mpr hr.2⟩

theorem exists_two_sharers (h : 2 ≤ (sharers t d).length) : ∃ i j, SharedAt o t d i ∧ SharedAt o t d j ∧ i ≠ j := by
  have hn : (sharers t d).Nodup := by
    rw [sharers_eq wf hcombine hshared]
    exact wf.selectors.sublist (List.filter_sublist.filterMap _)
  match hl : sharers t d, h, hn with
  | s :: s' :: rest, _, hn =>
    obtain ⟨i, ds, hi, hs⟩ := sharedAt_of_mem_sharers wf hcombine hshared (hl ▸ List.mem_cons_self : s ∈ sharers t d)
    obtain ⟨j, ds', hj, hs'⟩ := sharedAt_of_mem_sharers wf hcombine hshared
      (hl ▸ List.mem_cons_of_mem _ List.mem_cons_self : s' ∈ sharers t d)
    refine ⟨i, j, hs, hs', fun heq => (List.nodup_cons.mp hn).1 ?_⟩
    cases heq
    cases hi.symm.trans hj
    exact List.mem_cons_self

end

/-! ### Groups of a table -/

section
variable (wf : t.WellFormed)
include wf

theorem exists_joins_units (hi : Offers o t d i) (hj : Offers o t d j) (hne : i ≠ j) :
    ∃ (k : Nat) (r : StyleRule), (units t o)[k]? = some (.group r) ∧ Joins t d i j r := by
  obtain ⟨emitted, hout, hsharing⟩ := sharing_units wf o
  obtain ⟨s, ds, hrule, hc, -⟩ := id hi
  have hlt : i < t.entries.length := (List.getElem?_eq_some_iff.mp hrule).1
  -- At the end of the run all declarations are out.
  obtain ⟨r, hr, hjoins⟩ := hsharing.complete hi hj hne (hout hlt hrule d (mem_of_carries hc))
  obtain ⟨u, hu, hur⟩ := List.mem_filterMap.mp hr
  obtain ⟨k, hk⟩ := List.mem_iff_getElem?.mp hu
  exact ⟨k, r, SheetUnit.group?_eq_some_iff.mp hur ▸ hk, hjoins⟩

theorem exists_madeOf_units {r : StyleRule} (hk : (units t o)[k]? = some (.group r)) : ∃ members, MadeOf o t members r := by
  obtain ⟨emitted, -, hsharing⟩ := sharing_units wf o
  exact hsharing.made r (List.mem_filterMap.mpr ⟨_, List.mem_of_getElem? hk, rfl⟩)

/-- A rule has a declaration in one group only. -/
theorem group_unique {r r' : StyleRule} (hk : (units t o)[k]? = some (.group r)) (hj : (units t o)[j]? = some (.group r'))
    {s : String} {ds : List (String × String)} (hi : t.RuleAt i s ds) (hs : s ∈ r.selectors) (hs' : s ∈ r'.selectors)
    (hd : d ∈ r.declarations) (hd' : d ∈ r'.declarations) : k = j ∧ r = r' := by
  obtain ⟨m, hm⟩ := exists_emittedAt hk ⟨r, rfl, hs, List.mem_map_of_mem hd⟩
  obtain ⟨m', hm'⟩ := exists_emittedAt hj ⟨r', rfl, hs', List.mem_map_of_mem hd'⟩
  obtain ⟨rfl, -⟩ := place_unique (emission_units_nodup wf o hi) hm hm'
  cases hk.symm.trans hj
  exact ⟨rfl, rfl⟩

/-- Where all that share a declaration offer it, they are together in the only group that has it. -/
theorem exists_group_of_sharers (hcombine : o.combineSelectors = true) (hshared : o.prevents d.1 = false)
    (hoffers : ∀ j, SharedAt o t d j → Offers o t d j) (htwo : 2 ≤ (sharers t d).length) :
    ∃ (k : Nat) (r : StyleRule), (units t o)[k]? = some (.group r) ∧ d ∈ r.declarations ∧ r.selectors = sharers t d ∧
      ∀ (k' : Nat) (r' : StyleRule), (units t o)[k']? = some (.group r') → d ∈ r'.declarations → k' = k := by
  obtain ⟨i, j, hi, hj, hij⟩ := exists_two_sharers wf hcombine hshared htwo
  obtain ⟨k, r, hk, hjoins⟩ := exists_joins_units wf (hoffers i hi) (hoffers j hj) hij
  obtain ⟨members, hmade⟩ := exists_madeOf_units wf hk
  obtain ⟨si, di, hirule, -⟩ := hoffers i hi
  have hsi := hjoins.left si hirule.selectorAt?
  -- Whoever else shares the declaration is in a group with the first rule, which can only be this one.
  have hall : ∀ m, SharedAt o t d m → m ∈ members := by
    intro m hm
    obtain ⟨sm, dm, hrule, -⟩ := hoffers m hm
    refine (wf.mem_selectors_iff hrule).mp (hmade.selectors ▸ ?_)
    by_cases him : i = m
    · cases him
      exact hjoins.left sm hrule.selectorAt?
    · obtain ⟨k', r', hk', hjoins'⟩ := exists_joins_units wf (hoffers i hi) (hoffers m hm) him
      obtain ⟨-, rfl⟩ := group_unique wf hk hk' hirule hsi (hjoins'.left si hirule.selectorAt?) hjoins.declaration
        hjoins'.declaration
      exact hjoins'.right sm hrule.selectorAt?
  refine ⟨k, r, hk, hjoins.declaration, hmade.selectors_eq wf hcombine hshared hjoins.declaration hall,
    fun k' r' hk' hd' => ?_⟩
  obtain ⟨members', hmade'⟩ := exists_madeOf_units wf hk'
  obtain ⟨m, hm⟩ := List.exists_mem_of_ne_nil _ hmade'.nonempty
  have hmshared := hmade'.shared d hd' m hm
  obtain ⟨sm, dm, hrule, -⟩ := hoffers m hmshared
  have hin : sm ∈ r.selectors := hmade.selectors ▸ (wf.mem_selectors_iff hrule).mpr (hall m hmshared)
  have hin' : sm ∈ r'.selectors := hmade'.selectors ▸ (wf.mem_selectors_iff hrule).mpr hm
  exact (group_unique wf hk' hk hrule hin' hin hd' hjoins.declaration).1

end

/-- Two rules that may be grouped and share a declaration, which no other that overlaps it stands before, have it
    in one group. So where no declarations of a rule overlap, what two rules or more share is in exactly one
    group, which lists all that share it in table order. -/
theorem units_share_declarations (calls : List TableCall) {o : Options} (hcombine : o.combineSelectors = true)
    {p v : String} (hp : o.prevents p = false) :
    (∀ s ds s' ds', (s, ds) ∈ (ofCalls calls).rules → (s', ds') ∈ (ofCalls calls).rules → s ≠ s' →
      s.toList.head? ≠ some '@' → s'.toList.head? ≠ some '@' → (p, v) ∈ ds → (p, v) ∈ ds' →
      Unpreceded ds p → Unpreceded ds' p →
      ∃ (k : Nat) (r : StyleRule), (units (ofCalls calls) o)[k]? = some (.group r) ∧
        s ∈ r.selectors ∧ s' ∈ r.selectors ∧ (p, v) ∈ r.declarations) ∧
    ((∀ s ds, (s, ds) ∈ (ofCalls calls).rules → ∀ d ∈ ds, ∀ e ∈ ds, d ≠ e → overlaps d.1 e.1 = false) →
      2 ≤ (sharers (ofCalls calls) (p, v)).length →
      ∃ (k : Nat) (r : StyleRule), (units (ofCalls calls) o)[k]? = some (.group r) ∧ (p, v) ∈ r.declarations ∧
        r.selectors = sharers (ofCalls calls) (p, v) ∧
        ∀ (k' : Nat) (r' : StyleRule), (units (ofCalls calls) o)[k']? = some (.group r') → (p, v) ∈ r'.declarations →
          k' = k) := by
  have wf := WellFormed.ofCalls calls
  refine ⟨fun s ds s' ds' hr hr' hne hat hat' hd hd' hfirst hfirst' => ?_, fun hfree htwo => ?_⟩
  · obtain ⟨i, hi⟩ := mem_rules_iff.mp hr
    obtain ⟨j, hj⟩ := mem_rules_iff.mp hr'
    have hij : i ≠ j := fun heq => by
      cases heq
      cases hi.symm.trans hj
      exact hne rfl
    obtain ⟨k, r, hk, hjoins⟩ := exists_joins_units wf (offers_of_rule wf hcombine hp hi hat hd hfirst)
      (offers_of_rule wf hcombine hp hj hat' hd' hfirst') hij
    exact ⟨k, r, hk, hjoins.left s hi.selectorAt?, hjoins.right s' hj.selectorAt?, hjoins.declaration⟩
  · refine exists_group_of_sharers wf hcombine hp (fun j ⟨e, hj, hc⟩ => ?_) htwo
    obtain ⟨s, ds, rfl, hd⟩ := carries_eq_true hc
    refine ⟨s, ds, hj, hc, fun e he ho => ?_⟩
    by_cases heq : e = (p, v)
    · rw [heq]
    · rw [hfree s ds (mem_rules_iff.mpr ⟨j, hj⟩) e he (p, v) hd heq] at ho
      cases ho

/-- A third rule leads the group of two rules whose longhand stands first, and a table where nothing overlaps. -/
theorem units_share_declarations_led :
    let calls : List TableCall := [.fact ⟨"c", "margin", "1px"⟩, .fact ⟨"c", "margin-top", "5px"⟩,
      .fact ⟨"a", "margin-top", "5px"⟩, .fact ⟨"a", "margin", "0"⟩, .fact ⟨"b", "margin-top", "5px"⟩]
    let free : List TableCall := [.fact ⟨"a", "margin", "0"⟩, .fact ⟨"a", "color", "red"⟩, .raw "hr",
      .fact ⟨"@page", "color", "red"⟩, .fact ⟨"b", "color", "red"⟩]
    (∃ (k : Nat) (r : StyleRule), (units (ofCalls calls) {})[k]? = some (.group r) ∧ "a" ∈ r.selectors ∧
      "b" ∈ r.selectors ∧ ("margin-top", "5px") ∈ r.declarations) ∧
    ∃ (k : Nat) (r : StyleRule), (units (ofCalls free) {})[k]? = some (.group r) ∧ ("color", "red") ∈ r.declarations ∧
      r.selectors = ["a", "b"] ∧
      ∀ (k' : Nat) (r' : StyleRule), (units (ofCalls free) {})[k']? = some (.group r') → ("color", "red") ∈ r'.declarations →
        k' = k := by
  intro calls free
  obtain ⟨hpair, -⟩ := units_share_declarations calls (o := {}) rfl (p := "margin-top") (v := "5px") rfl
  obtain ⟨-, hone⟩ := units_share_declarations free (o := {}) rfl (p := "color") (v := "red") rfl
  have hfree : ∀ r ∈ (ofCalls free).rules, ∀ d ∈ r.2, ∀ e ∈ r.2, d ≠ e → overlaps d.1 e.1 = false := by decide
  have hsharers : sharers (ofCalls free) ("color", "red") = ["a", "b"] := by decide
  rw [hsharers] at hone
  refine ⟨hpair "a" [("margin-top", "5px"), ("margin", "0")] "b" [("margin-top", "5px")] ?_ ?_ ?_ ?_ ?_ ?_ ?_ ?_ ?_,
    hone (fun s ds hr => hfree (s, ds) hr) (by decide)⟩
  all_goals decide

end Grouping

end StyleTree
