import StyleTree.Proofs.Grouping.Emission

/-! The members of a group: the places of the rules that can emit a declaration now, in table order. A
    declaration is due for each of them, and their selectors are distinct. -/

namespace StyleTree

namespace RuleTable
variable {t : RuleTable} {members : List Nat}

/-- A rule is a member exactly if its selector is among those of the members. -/
theorem WellFormed.mem_selectors_iff (wf : t.WellFormed) {j : Nat} {s : String} {ds : List (String × String)}
    (hj : t.RuleAt j s ds) : s ∈ members.filterMap t.selectorAt? ↔ j ∈ members := by
  rw [List.mem_filterMap]
  constructor
  · rintro ⟨k, hk, hs⟩
    obtain ⟨es, hk'⟩ := selectorAt?_eq_some_iff.mp hs
    exact wf.place_eq hj hk' ▸ hk
  · exact fun h => ⟨j, h, hj.selectorAt?⟩

theorem WellFormed.nodup_selectors (wf : t.WellFormed) (hm : members.Nodup) :
    (members.filterMap t.selectorAt?).Nodup := by
  refine List.pairwise_filterMap.mpr (hm.imp fun hne s hs s' hs' heq => hne ?_)
  obtain ⟨ds, hj⟩ := selectorAt?_eq_some_iff.mp hs
  obtain ⟨es, hk⟩ := selectorAt?_eq_some_iff.mp hs'
  exact wf.place_eq hj (heq ▸ hk)

end RuleTable

namespace Grouping
variable {o : Options} {t : RuleTable} {emitted : Emitted}

/-! ### Eligibility -/

theorem mem_eligible {i j : Nat} {property value : String} : j ∈ eligible o t emitted i property value ↔
    i ≤ j ∧ ∃ e, t.entries[j]? = some e ∧ canEmit o emitted property value j e = true := by
  simp only [eligible, List.mem_filterMap, Option.ite_none_right_eq_some, Bool.and_eq_true, decide_eq_true_eq]
  constructor
  · rintro ⟨⟨e, k⟩, hm, ⟨hik, he⟩, heq⟩
    cases heq
    exact ⟨hik, e, List.mem_zipIdx_iff_getElem?.mp hm, he⟩
  · rintro ⟨hij, e, hm, he⟩
    exact ⟨(e, j), List.mem_zipIdx_iff_getElem?.mpr hm, ⟨hij, he⟩, rfl⟩

/-- Places that are picked from the front are sorted. -/
theorem sorted_places {α : Type} (l : List α) (P : α → Nat → Bool) :
    (l.zipIdx.filterMap fun (e, j) => if P e j then some j else none).Pairwise (· < ·) := by
  have hs : l.zipIdx.Pairwise fun a b => a.2 < b.2 := by
    rw [← List.pairwise_map, List.zipIdx_map_snd]
    exact List.pairwise_lt_range'
  refine List.pairwise_filterMap.mpr (hs.imp fun hlt j hj k hk => ?_)
  simp only [Option.ite_none_right_eq_some, Option.some.injEq] at hj hk
  rw [← hj.2, ← hk.2]
  exact hlt

theorem eligible_sorted (o : Options) (t : RuleTable) (emitted : Emitted) (i : Nat) (property value : String) :
    (eligible o t emitted i property value).Pairwise (· < ·) :=
  sorted_places t.entries fun e j => i ≤ j && canEmit o emitted property value j e

theorem eligible_nodup (o : Options) (t : RuleTable) (emitted : Emitted) (i : Nat) (property value : String) :
    (eligible o t emitted i property value).Nodup :=
  (eligible_sorted o t emitted i property value).imp Nat.ne_of_lt

theorem carries_eq_true {property value : String} {e : Entry} (h : carries o property value e = true) :
    ∃ s ds, e = .rule s ds ∧ (property, value) ∈ ds := by
  cases e with
  | raw text => cases h
  | rule s ds =>
    simp only [carries, Bool.and_eq_true, beq_iff_eq] at h
    exact ⟨s, ds, rfl, Assoc.mem_of_get? h.2⟩

/-- A declaration is due for all that are eligible. -/
theorem due_of_mem_eligible (wf : t.WellFormed) {i j : Nat} {d : String × String}
    (h : j ∈ eligible o t emitted i d.1 d.2) : Due t emitted j d := by
  obtain ⟨-, e, hj, he⟩ := mem_eligible.mp h
  simp only [canEmit, Bool.and_eq_true, Bool.not_eq_true', List.contains_eq_mem, decide_eq_false_iff_not] at he
  obtain ⟨⟨hc, hnew⟩, hord⟩ := he
  obtain ⟨s, ds, rfl, hd⟩ := carries_eq_true hc
  refine ⟨s, ds, hj, hd, hnew, fun e he hne ho => ?_⟩
  have := (inOrder_iff (wf.properties (RuleTable.RuleAt.mem hj)) hd).mp hord e he hne ho
  simpa using this

/-- A rule for which a declaration is due is eligible, if it shares the declaration. -/
theorem mem_eligible_of_due (wf : t.WellFormed) {i j : Nat} {d : String × String} {s : String}
    {ds : List (String × String)} (hij : i ≤ j) (hj : t.RuleAt j s ds) (hc : carries o d.1 d.2 (.rule s ds) = true)
    (hdue : Due t emitted j d) : j ∈ eligible o t emitted i d.1 d.2 := by
  obtain ⟨hd, hnew, hord⟩ := hdue.of_ruleAt hj
  have hinOrder : inOrder (fun p => emitted.contains (j, p)) ds d.1 = true :=
    (inOrder_iff (wf.properties hj.mem) hd).mpr fun e he hne ho => by simpa using hord e he hne ho
  refine mem_eligible.mpr ⟨hij, _, hj, ?_⟩
  simpa [canEmit, hc, hnew, Entry.declarations?] using hinOrder

end Grouping

end StyleTree
