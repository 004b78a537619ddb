import StyleTree.Proofs.Grouping.Overlap
import StyleTree.Proofs.Table

/-! What units emit, against the marks of a run. At every moment the units hold for each rule exactly its
    marked declarations, each once, and of two that overlap the one authored first stands first. The marks
    of a rule are closed: with a declaration, all that overlap it and stand before it are marked. Marking
    a declaration that is due, and putting it behind all that overlaps it, keeps this. -/

namespace StyleTree

def Entry.raw? : Entry → Option String
  | .rule _ _ => none
  | .raw text => some text

def SheetUnit.raw? : SheetUnit → Option String
  | .group _ | .solo _ => none
  | .raw text => some text

def StyleRule.emits (r : StyleRule) (s : String) : List (String × String) :=
  if s ∈ r.selectors then r.declarations else []

def SheetUnit.emits (s : String) : SheetUnit → List (String × String)
  | .group r | .solo r => r.emits s
  | .raw _ => []

theorem SheetUnit.emits_of_rule? {u : SheetUnit} {r : StyleRule} (h : u.rule? = some r) (s : String) :
    u.emits s = r.emits s := by
  cases u <;> simp_all [SheetUnit.rule?, SheetUnit.emits]

namespace Grouping

/-- What units emit for a selector, in order. -/
def emission (us : List SheetUnit) (s : String) : List (String × String) := us.flatMap (SheetUnit.emits s)

theorem emission_append (us vs : List SheetUnit) (s : String) :
    emission (us ++ vs) s = emission us s ++ emission vs s := List.flatMap_append

theorem emission_singleton (u : SheetUnit) (s : String) : emission [u] s = u.emits s := by
  rw [emission, List.flatMap_cons, List.flatMap_nil, List.append_nil]

theorem mem_mark {emitted : Emitted} {members : List Nat} {property p : String} {j : Nat} :
    (j, p) ∈ emitted.mark members property ↔ j ∈ members ∧ p = property ∨ (j, p) ∈ emitted := by
  simp only [Emitted.mark, List.mem_append, List.mem_map, Prod.mk.injEq]
  refine or_congr_left ⟨?_, ?_⟩
  · rintro ⟨k, hk, rfl, rfl⟩
    exact ⟨hk, rfl⟩
  · rintro ⟨hj, rfl⟩
    exact ⟨j, hj, rfl, rfl⟩

theorem mem_mark_of_mem {emitted : Emitted} {members : List Nat} {property : String} {x : Nat × String}
    (h : x ∈ emitted) : x ∈ emitted.mark members property := mem_mark.mpr (.inr h)

/-! ### The invariant -/

/-- With a declaration, all that overlap it and stand before it are marked. -/
def Closed (t : RuleTable) (emitted : Emitted) : Prop :=
  ∀ {j s ds}, t.RuleAt j s ds → ∀ d ∈ ds, ∀ e ∈ ds, overlaps d.1 e.1 = true → place ds d.1 < place ds e.1 →
    (j, e.1) ∈ emitted → (j, d.1) ∈ emitted

/-- The selectors of the units are those of rules, each once in a unit. -/
def Selects (t : RuleTable) (us : List SheetUnit) : Prop :=
  ∀ u ∈ us, ∀ r, u.rule? = some r → r.selectors.Nodup ∧ ∀ s ∈ r.selectors, ∃ j ds, t.RuleAt j s ds

/-- The units agree with the marks: they hold each marked declaration once, in an order that keeps
    overlapping ones as authored. -/
structure Faithful (t : RuleTable) (emitted : Emitted) (us : List SheetUnit) : Prop where
  selects : Selects t us
  perm : ∀ {j s ds}, t.RuleAt j s ds → (emission us s).Perm (ds.filter fun d => emitted.contains (j, d.1))
  ordered : ∀ {j s ds}, t.RuleAt j s ds →
    (emission us s).Pairwise fun d e => overlaps d.1 e.1 = true → place ds d.1 ≤ place ds e.1
  closed : Closed t emitted

/-- The declaration `d` of the rule at place `j` can go out now: it is not out yet, and of those that
    overlap it exactly the ones before it are. -/
def Due (t : RuleTable) (emitted : Emitted) (j : Nat) (d : String × String) : Prop :=
  ∃ s ds, t.RuleAt j s ds ∧ d ∈ ds ∧ (j, d.1) ∉ emitted ∧
    ∀ e ∈ ds, e ≠ d → overlaps e.1 d.1 = true → ((j, e.1) ∈ emitted ↔ place ds e.1 < place ds d.1)

theorem Due.of_ruleAt {t : RuleTable} {emitted : Emitted} {j : Nat} {d : String × String} {s : String}
    {ds : List (String × String)} (h : Due t emitted j d) (hj : t.RuleAt j s ds) :
    d ∈ ds ∧ (j, d.1) ∉ emitted ∧
      ∀ e ∈ ds, e ≠ d → overlaps e.1 d.1 = true → ((j, e.1) ∈ emitted ↔ place ds e.1 < place ds d.1) := by
  obtain ⟨s', ds', hj', h⟩ := h
  cases hj.symm.trans hj'
  exact h

theorem Faithful.empty (t : RuleTable) : Faithful t [] [] where
  selects _ h := nomatch h
  perm _ := by rw [List.filter_eq_nil_iff.mpr (by simp)]; exact List.Perm.nil
  ordered _ := List.Pairwise.nil
  closed _ _ _ _ _ _ _ h := nomatch h

theorem filter_mark_perm {emitted : Emitted} {members : List Nat} {j : Nat} {d : String × String}
    {ds : List (String × String)} (hn : (ds.map (·.1)).Nodup) (hj : j ∈ members) (hd : d ∈ ds)
    (hnew : (j, d.1) ∉ emitted) :
    (ds.filter fun e => (emitted.mark members d.1).contains (j, e.1)).Perm
      (d :: ds.filter fun e => emitted.contains (j, e.1)) := by
  have hnd : ds.Nodup := hn.of_map
  refine (List.perm_ext_iff_of_nodup (hnd.filter _) (List.nodup_cons.mpr ⟨?_, hnd.filter _⟩)).mpr fun e => ?_
  · simp [hd, hnew]
  · simp only [List.mem_filter, List.contains_iff_mem, mem_mark, List.mem_cons, hj, true_and]
    constructor
    · rintro ⟨he, heq | hm⟩
      · exact .inl (List.inj_on_of_nodup_map hn he hd heq)
      · exact .inr ⟨he, hm⟩
    · rintro (rfl | ⟨he, hm⟩)
      · exact ⟨hd, .inl rfl⟩
      · exact ⟨he, .inr hm⟩

/-! ### One emission -/

section
variable {t : RuleTable} {emitted : Emitted} {us us' : List SheetUnit} {members : List Nat}
  {d : String × String}

theorem Closed.mark (wf : t.WellFormed) (h : Closed t emitted) (hdue : ∀ j ∈ members, Due t emitted j d) :
    Closed t (emitted.mark members d.1) := by
  intro j s ds hj x hx e he ho hlt hm
  rcases mem_mark.mp hm with ⟨hjm, heq⟩ | hm
  · obtain ⟨hd, -, hord⟩ := (hdue j hjm).of_ruleAt hj
    obtain rfl := List.inj_on_of_nodup_map (wf.properties hj.mem) he hd heq
    have hne : x ≠ e := fun h => Nat.lt_irrefl _ (h ▸ hlt)
    exact mem_mark_of_mem ((hord x hx hne ho).mpr hlt)
  · exact mem_mark_of_mem (h hj x hx e he ho hlt hm)

/-- Where a declaration is due for all members, and goes behind all that overlaps it in what each of them
    emits, the units still agree with the marks. -/
theorem Faithful.emit (wf : t.WellFormed) (h : Faithful t emitted us) (hdue : ∀ j ∈ members, Due t emitted j d)
    (hsel : Selects t us')
    (hmem : ∀ {j s ds}, t.RuleAt j s ds → j ∈ members → ∃ a b, emission us s = a ++ b ∧
      emission us' s = a ++ d :: b ∧ ∀ e ∈ b, overlaps e.1 d.1 = false)
    (hrest : ∀ {j s ds}, t.RuleAt j s ds → j ∉ members → emission us' s = emission us s) :
    Faithful t (emitted.mark members d.1) us' where
  selects := hsel
  perm := by
    intro j s ds hj
    by_cases hjm : j ∈ members
    · obtain ⟨a, b, hab, hab', -⟩ := hmem hj hjm
      obtain ⟨hd, hnew, -⟩ := (hdue j hjm).of_ruleAt hj
      have hperm := h.perm hj
      rw [hab] at hperm
      rw [hab']
      exact (List.perm_middle.trans (hperm.cons d)).trans
        (filter_mark_perm (wf.properties hj.mem) hjm hd hnew).symm
    · rw [hrest hj hjm]
      refine (h.perm hj).trans (List.Perm.of_eq (List.filter_congr fun e _ => ?_))
      simp [mem_mark, hjm]
  ordered := by
    intro j s ds hj
    by_cases hjm : j ∈ members
    · obtain ⟨a, b, hab, hab', hb⟩ := hmem hj hjm
      obtain ⟨hd, hnew, hord⟩ := (hdue j hjm).of_ruleAt hj
      have hpair := h.ordered hj
      rw [hab, List.pairwise_append] at hpair
      rw [hab', List.pairwise_append, List.pairwise_cons]
      refine ⟨hpair.1, ⟨fun e he ho => ?_, hpair.2.1⟩, fun x hx e he => ?_⟩
      · rw [overlaps_comm, hb e he] at ho
        cases ho
      · rcases List.mem_cons.mp he with rfl | he
        · -- What is out and overlaps `e` was authored before it.
          intro ho
          have hx' := (h.perm hj).mem_iff.mp (hab ▸ List.mem_append_left b hx)
          obtain ⟨hxd, hxm⟩ := List.mem_filter.mp hx'
          have hxm' : (j, x.1) ∈ emitted := by simpa using hxm
          have hne : x ≠ e := fun heq => hnew (heq ▸ hxm')
          exact Nat.le_of_lt ((hord x hxd hne ho).mp hxm')
        · exact hpair.2.2 x hx e he
    · rw [hrest hj hjm]
      exact h.ordered hj
  closed := Closed.mark wf h.closed hdue

end

end Grouping

end StyleTree
