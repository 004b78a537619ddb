import StyleTree.Proofs.Grouping.Turns

/-! Units come in table order. A unit is anchored at the place of its raw text, or of the rule of its first selector.
    Turns follow the entries, so anchors never go back; and since a turn without overlap opens one solo unit at most,
    so does the rule it belongs to. -/

namespace StyleTree

namespace RuleTable

/-- The places of the raw texts. -/
def rawPlaces (t : RuleTable) : List Nat := (t.entries.zipIdx.filter (·.1.raw?.isSome)).map (·.2)

/-- The unit stands for the entry at place `j`: for its raw text, or with its rule first. -/
inductive Anchored (t : RuleTable) : SheetUnit → Nat → Prop
  | raw {text : String} {j : Nat} : t.entries[j]? = some (.raw text) → Anchored t (.raw text) j
  | rule {u : SheetUnit} {r : StyleRule} {s : String} {j : Nat} : u.rule? = some r → r.selectors.head? = some s →
      t.indexOf? s = some j → Anchored t u j

/-- The selectors stand in table order, and the declarations as authored in the rule of the first. -/
structure InOrder (t : RuleTable) (r : StyleRule) : Prop where
  selectors : ∃ places : List Nat, r.selectors.map t.indexOf? = places.map some ∧ places.Pairwise (· < ·)
  declarations : ∃ s ds, r.selectors.head? = some s ∧ (s, ds) ∈ t.rules ∧ r.declarations.Sublist ds

end RuleTable

namespace Grouping
open RuleTable
variable {o : Options} {t : RuleTable} {i j : Nat} {s : String} {ds : List (String × String)} {members : List Nat}
  {r : StyleRule} {u : SheetUnit} {turns : List Turn} {x : Turn}

/-! ### The order inside a unit -/

theorem MadeOf.places (wf : t.WellFormed) (h : MadeOf o t members r) (hne : r.declarations ≠ []) :
    r.selectors.map t.indexOf? = members.map some := by
  obtain ⟨d, hd⟩ := List.exists_mem_of_ne_nil _ hne
  rw [h.selectors, List.map_filterMap, ← List.filterMap_eq_map]
  refine List.filterMap_congr fun j hj => ?_
  obtain ⟨e, he, hc⟩ := h.shared d hd j hj
  obtain ⟨s, ds, rfl, -⟩ := carries_eq_true hc
  rw [RuleAt.selectorAt? he, Option.map_some, wf.indexOf?_eq he]
  rfl

theorem LedBy.exists_rule (h : LedBy o t i s ds u) (hi : t.RuleAt i s ds) :
    ∃ r, u.rule? = some r ∧ r.selectors.head? = some s ∧ Excerpt ds r := by
  cases h with
  | solo hsel hexc => exact ⟨_, rfl, by rw [hsel]; rfl, hexc⟩
  | group _ hmade hexc =>
    refine ⟨_, rfl, ?_, hexc⟩
    rw [hmade.selectors, List.filterMap_cons_some hi.selectorAt?]
    rfl

theorem LedBy.inOrder (wf : t.WellFormed) (h : LedBy o t i s ds u) (hi : t.RuleAt i s ds) (hr : u.rule? = some r) :
    t.InOrder r := by
  obtain ⟨r', hr', hhead, hexc⟩ := h.exists_rule hi
  cases hr.symm.trans hr'
  refine ⟨?_, s, ds, hhead, mem_rules_iff.mpr ⟨i, hi⟩, hexc.authored⟩
  cases h with
  | solo hsel _ =>
    cases hr
    exact ⟨[i], by rw [hsel, List.map_singleton, wf.indexOf?_eq hi, List.map_singleton], List.pairwise_singleton ..⟩
  | group _ hmade _ =>
    cases hr
    exact ⟨_, hmade.places wf hexc.nonempty, hmade.sorted⟩

/-! ### Anchors -/

/-- The units of the turn with its place as their anchor. -/
def Turn.anchored (x : Turn) : List (SheetUnit × Nat) := x.units.map (·, x.place)

theorem Turns.anchored (wf : t.WellFormed) (h : Turns o t turns) (hx : x ∈ turns) :
    ∀ a ∈ x.anchored, t.Anchored a.1 a.2 := by
  intro a ha
  obtain ⟨u, hu, rfl⟩ := List.mem_map.mp ha
  have hentry := h.entry_at hx
  cases h.fair x hx with
  | raw =>
    cases List.mem_singleton.mp hu
    exact .raw hentry
  | rule hled _ =>
    obtain ⟨r, hr, hhead, -⟩ := (hled u hu).exists_rule hentry
    exact .rule hr hhead (wf.indexOf?_eq hentry)

/-- A turn has a raw unit exactly if its entry is a raw text. -/
theorem Turn.Fair.raws (h : x.Fair o t) :
    (x.anchored.filter (·.1.raw?.isSome)).map (·.2) = if x.entry.raw?.isSome then [x.place] else [] := by
  cases h with
  | raw => rfl
  | @rule s ds i us hled _ =>
    have hnone : ∀ a ∈ Turn.anchored ⟨.rule s ds, i, us⟩, ¬a.1.raw?.isSome := by
      intro a ha
      obtain ⟨u, hu, rfl⟩ := List.mem_map.mp ha
      cases hled u hu <;> simp [SheetUnit.raw?]
    rw [List.filter_eq_nil_iff.mpr hnone]
    rfl

theorem Turns.raws (h : Turns o t turns) :
    ((turns.flatMap Turn.anchored).filter (·.1.raw?.isSome)).map (·.2) = t.rawPlaces := by
  have hturn : ∀ x ∈ turns, ((x.anchored.filter (·.1.raw?.isSome)).map (·.2)) =
      if x.entry.raw?.isSome then [x.place] else [] := fun x hx => (h.fair x hx).raws
  rw [RuleTable.rawPlaces, ← h.entries, List.filter_flatMap, List.map_flatMap, List.filter_map, List.map_map]
  clear h
  induction turns with
  | nil => rfl
  | cons x rest ih =>
    rw [List.flatMap_cons, hturn x List.mem_cons_self, ih fun y hy => hturn y (List.mem_cons_of_mem _ hy)]
    cases hx : x.entry.raw?.isSome <;> simp [hx]

theorem Turns.anchors_sorted (h : Turns o t turns) :
    (turns.flatMap Turn.anchored).Pairwise fun a b => a.2 ≤ b.2 := by
  have hplace {x : Turn} {a : SheetUnit × Nat} (ha : a ∈ x.anchored) : a.2 = x.place := by
    obtain ⟨u, -, rfl⟩ := List.mem_map.mp ha
    rfl
  refine List.pairwise_flatMap.mpr ⟨fun x _ => ?_, h.sorted.imp fun hlt a ha b hb => ?_⟩
  · refine List.pairwise_of_forall_mem_list fun a ha b hb => ?_
    rw [hplace ha, hplace hb]
  · rw [hplace ha, hplace hb]
    exact Nat.le_of_lt hlt

/-! ### Solo units -/

/-- The solo units that list a selector. -/
def solosOf (us : List SheetUnit) (s : String) : List StyleRule := (us.filterMap SheetUnit.solo?).filter (s ∈ ·.selectors)

/-- Only the turn of its own rule has a solo unit of a selector. -/
theorem Turns.solosOf_eq_nil (wf : t.WellFormed) (h : Turns o t turns) (hj : t.RuleAt j s ds) (hx : x ∈ turns)
    (hne : x.place ≠ j) : solosOf x.units s = [] := by
  have hentry := h.entry_at hx
  refine List.filter_eq_nil_iff.mpr fun r hr hs => hne ?_
  obtain ⟨u, hu, hur⟩ := List.mem_filterMap.mp hr
  cases h.fair x hx with
  | raw =>
    cases List.mem_singleton.mp hu
    cases hur
  | rule hled _ =>
    cases hled u hu with
    | solo hsel _ =>
      cases hur
      simp only [hsel, List.mem_singleton, decide_eq_true_eq] at hs
      subst hs
      exact wf.place_eq hentry hj
    | group => cases hur

theorem Turns.solosOf_units (wf : t.WellFormed) (h : Turns o t turns) (hx : x ∈ turns) (hj : t.RuleAt x.place s ds) :
    solosOf (units t o) s = solosOf x.units s := by
  obtain ⟨pre, post, hsplit⟩ := List.append_of_mem hx
  have hsorted := h.sorted
  rw [hsplit, List.pairwise_append, List.pairwise_cons] at hsorted
  have hpre : pre.flatMap (fun y => solosOf y.units s) = [] := by
    refine List.flatMap_eq_nil_iff.mpr fun y hy => h.solosOf_eq_nil wf hj (by simp [hsplit, hy]) ?_
    have := hsorted.2.2 y hy x List.mem_cons_self
    omega
  have hpost : post.flatMap (fun y => solosOf y.units s) = [] := by
    refine List.flatMap_eq_nil_iff.mpr fun y hy => h.solosOf_eq_nil wf hj (by simp [hsplit, hy]) ?_
    have := hsorted.2.1.1 y hy
    omega
  have hflat : solosOf (units t o) s = turns.flatMap fun y => solosOf y.units s := by
    rw [h.joined, solosOf, List.filterMap_flatMap, List.filter_flatMap]
    rfl
  rw [hflat, hsplit, List.flatMap_append, List.flatMap_cons, hpre, hpost, List.nil_append, List.append_nil]

theorem Turns.length_solosOf_le (wf : t.WellFormed) (h : Turns o t turns) (hj : t.RuleAt j s ds)
    (hfree : ∀ d ∈ ds, ∀ e ∈ ds, d ≠ e → overlaps d.1 e.1 = false) : (solosOf (units t o) s).length ≤ 1 := by
  obtain ⟨x, hx, hentry, rfl⟩ := h.exists_of_entry hj
  rw [h.solosOf_units wf hx hj]
  refine (List.length_filter_le _ _).trans ?_
  cases h.fair x hx with
  | raw => cases hentry
  | rule hled honce =>
    cases hentry
    rcases honce with hle | ⟨r, hr, e, he, d, hd, hne, hover⟩
    · exact hle
    · -- A group holds declarations of the rule only, and these do not overlap.
      cases hled _ hr with
      | group _ _ hexc =>
        rw [hfree e (hexc.authored.subset he) d hd hne] at hover
        cases hover

/-- Each unit has an anchor, and anchors never go back from a unit to the next; the raw units stand for the raw texts
    of the table one by one. A unit lists its selectors in table order, and its declarations as authored in the rule
    it is anchored at. A rule whose declarations do not overlap has one solo unit at most. -/
theorem units_follow_table_order (calls : List TableCall) (o : Options) :
    (∃ anchored : List (SheetUnit × Nat), anchored.map (·.1) = units (ofCalls calls) o ∧
      (∀ a ∈ anchored, (ofCalls calls).Anchored a.1 a.2) ∧
      (anchored.filter (·.1.raw?.isSome)).map (·.2) = (ofCalls calls).rawPlaces ∧
      anchored.Pairwise fun a b => a.2 ≤ b.2) ∧
    (∀ u ∈ units (ofCalls calls) o, ∀ r, u.rule? = some r → (ofCalls calls).InOrder r) ∧
    (∀ s ds, (s, ds) ∈ (ofCalls calls).rules → (∀ d ∈ ds, ∀ e ∈ ds, d ≠ e → overlaps d.1 e.1 = false) →
      (solosOf (units (ofCalls calls) o) s).length ≤ 1) := by
  have wf := WellFormed.ofCalls calls
  obtain ⟨turns, h⟩ := exists_turns wf o
  refine ⟨⟨turns.flatMap Turn.anchored, ?_, fun a ha => ?_, h.raws, h.anchors_sorted⟩, fun u hu r hr => ?_,
    fun s ds hs hfree => ?_⟩
  · rw [h.joined, List.map_flatMap]
    simp [Turn.anchored, Function.comp_def]
  · obtain ⟨x, hx, ha⟩ := List.mem_flatMap.mp ha
    exact h.anchored wf hx a ha
  · obtain ⟨i, s, ds, hi, hled⟩ := h.exists_ledBy hu hr
    exact hled.inOrder wf hi hr
  · obtain ⟨j, hj⟩ := mem_rules_iff.mp hs
    exact h.length_solosOf_le wf hj hfree

end Grouping

end StyleTree
