import StyleTree.Proofs.Grouping.Sharing

/-! The turns of a run. The grouping takes the entries of a table one by one, and the units that come out in the turn
    of an entry stand together: a raw text alone, or the units of a rule. A unit of a rule holds declarations of that
    rule in authored order, and if it is a group then with the rule as its first member. The solo unit of a rule is
    left for a new one only behind a group that holds a declaration overlapping the one at hand. -/

namespace StyleTree

def SheetUnit.solo? : SheetUnit → Option StyleRule
  | .solo r => some r
  | .group _ | .raw _ => none

namespace Grouping
open RuleTable
variable {o : Options} {t : RuleTable} {emitted : Emitted} {i : Nat} {s : String} {d : String × String}
  {ds pre post : List (String × String)} {members : List Nat} {p : Progress} {before front us vs : List SheetUnit}

/-! ### The units of a rule -/

/-- Some declarations of a rule in authored order, at least one. -/
structure Excerpt (ds : List (String × String)) (r : StyleRule) : Prop where
  nonempty : r.declarations ≠ []
  authored : r.declarations.Sublist ds

/-- A unit of the rule of `s` at place `i`, with some of its declarations `ds`. -/
inductive LedBy (o : Options) (t : RuleTable) (i : Nat) (s : String) (ds : List (String × String)) : SheetUnit → Prop
  | solo {r : StyleRule} : r.selectors = [s] → Excerpt ds r → LedBy o t i s ds (.solo r)
  | group {r : StyleRule} {members : List Nat} : members ≠ [] → MadeOf o t (i :: members) r → Excerpt ds r →
      LedBy o t i s ds (.group r)

/-- One of the groups holds a declaration that overlaps another of the rule. -/
def Reopened (ds : List (String × String)) (us : List SheetUnit) : Prop :=
  ∃ r, .group r ∈ us ∧ ∃ e ∈ r.declarations, ∃ d ∈ ds, e ≠ d ∧ overlaps e.1 d.1 = true

theorem Reopened.mono (h : Reopened ds us) (hsub : us ⊆ vs) : Reopened ds vs := by
  obtain ⟨r, hr, hover⟩ := h
  exact ⟨r, hsub hr, hover⟩

theorem filterMap_solo?_groups (groups : List StyleRule) :
    (groups.map SheetUnit.group).filterMap SheetUnit.solo? = [] := by
  simp [List.filterMap_map, Function.comp_def, SheetUnit.solo?]

/-! ### Groups -/

theorem foldl_extendGroup_of_emitted {x : Emitted × StyleRule} (h : ∀ e ∈ ds, (i, e.1) ∈ x.1) :
    ds.foldl (extendGroup o t i members) x = x := by
  induction ds with
  | nil => rfl
  | cons d rest ih =>
    have hd : extendGroup o t i members x d = x := by
      rcases extendGroup_cases o t i members x d with heq | ⟨hnew, -, -⟩
      · exact heq
      · exact absurd (h d List.mem_cons_self) hnew
    rw [List.foldl_cons, hd]
    exact ih fun e he => h e (List.mem_cons_of_mem _ he)

/-- What a group takes in from a row of declarations stands behind what it has, in their order. -/
theorem exists_taken (o : Options) (t : RuleTable) (i : Nat) (members : List Nat) (ds : List (String × String))
    (x : Emitted × StyleRule) : ∃ taken,
    (ds.foldl (extendGroup o t i members) x).2.declarations = x.2.declarations ++ taken ∧ taken.Sublist ds := by
  induction ds generalizing x with
  | nil => exact ⟨[], by simp, .slnil⟩
  | cons d rest ih =>
    obtain ⟨taken, htaken, hsub⟩ := ih (extendGroup o t i members x d)
    rcases extendGroup_cases o t i members x d with heq | ⟨-, -, heq⟩
    · exact ⟨taken, by rw [List.foldl_cons, htaken, heq], hsub.cons d⟩
    · refine ⟨d :: taken, ?_, hsub.cons_cons d⟩
      rw [List.foldl_cons, htaken, heq]
      simp [StyleRule.push]

theorem MadeOf.foldl_extendGroup {x : Emitted × StyleRule} (h : MadeOf o t members x.2) (ds : List (String × String)) :
    MadeOf o t members (ds.foldl (extendGroup o t i members) x).2 := by
  induction ds generalizing x with
  | nil => exact h
  | cons d rest ih =>
    rw [List.foldl_cons]
    rcases extendGroup_cases o t i members x d with heq | ⟨-, he, heq⟩ <;> rw [heq]
    · exact ih h
    · exact ih (h.push fun j hj => sharedAt_of_mem_eligible (he ▸ hj))

/-- A group takes in later declarations only: those before the one at hand are out. -/
theorem ledBy_makeGroup (hds : ds = pre ++ d :: post) (hpre : ∀ e ∈ pre, (i, e.1) ∈ emitted)
    (he : eligible o t emitted i d.1 d.2 = i :: members) (hne : members ≠ []) :
    LedBy o t i s ds (.group (makeGroup o t i ds emitted (i :: members) d.1 d.2).2) := by
  have hmade : MadeOf o t (i :: members) ⟨(i :: members).filterMap t.selectorAt?, [(d.1, d.2)]⟩ := by
    refine ⟨rfl, he ▸ eligible_sorted o t emitted i d.1 d.2, List.cons_ne_nil _ _, fun e hmem j hj => ?_⟩
    cases List.mem_singleton.mp hmem
    exact sharedAt_of_mem_eligible (he ▸ hj)
  have hskip : ∀ e ∈ pre ++ [d], (i, e.1) ∈ emitted.mark (i :: members) d.1 := by
    intro e hmem
    rcases List.mem_append.mp hmem with hmem | hmem
    · exact mem_mark_of_mem (hpre e hmem)
    · cases List.mem_singleton.mp hmem
      exact mem_mark.mpr (.inl ⟨List.mem_cons_self, rfl⟩)
  have hgroup : makeGroup o t i ds emitted (i :: members) d.1 d.2 = post.foldl (extendGroup o t i (i :: members))
      (emitted.mark (i :: members) d.1, ⟨(i :: members).filterMap t.selectorAt?, [(d.1, d.2)]⟩) := by
    rw [makeGroup, hds, List.append_cons, List.foldl_append]
    exact congrArg (post.foldl _) (foldl_extendGroup_of_emitted hskip)
  rw [hgroup]
  obtain ⟨taken, htaken, hsub⟩ := exists_taken o t i (i :: members) post
    (emitted.mark (i :: members) d.1, ⟨(i :: members).filterMap t.selectorAt?, [(d.1, d.2)]⟩)
  refine .group hne (hmade.foldl_extendGroup post) ⟨?_, ?_⟩ <;> rw [htaken]
  · simp
  · rw [hds]
    exact (hsub.cons_cons d).trans (List.sublist_append_right pre _)

/-! ### Within a turn -/

/-- The turn of the rule of `s` at place `i`, with the declarations `pre` taken: behind the units `before` of earlier
    turns stand those in `front`, and the solo unit and the groups that may still change. -/
structure OnTurn (o : Options) (t : RuleTable) (i : Nat) (s : String) (ds : List (String × String))
    (before front : List SheetUnit) (pre : List (String × String)) (p : Progress) : Prop where
  settled : p.settled = before ++ front
  led : ∀ u ∈ front, LedBy o t i s ds u
  groups : ∀ r ∈ p.groups, LedBy o t i s ds (.group r)
  solo : ∀ r, p.solo = some r → r.selectors = [s] ∧ Excerpt pre r
  first : p.solo = none → front.filterMap SheetUnit.solo? = []
  once : front.filterMap SheetUnit.solo? = [] ∨ Reopened ds front

/-- The units of the turn so far. -/
def turnUnits (front : List SheetUnit) (p : Progress) : List SheetUnit :=
  front ++ p.solo.toList.map SheetUnit.solo ++ p.groups.map SheetUnit.group

namespace OnTurn

theorem units_eq (h : OnTurn o t i s ds before front pre p) : p.units = before ++ turnUnits front p := by
  simp [Progress.units, turnUnits, h.settled]

theorem ledBy (h : OnTurn o t i s ds before front pre p) (hpre : pre.Sublist ds) :
    ∀ u ∈ turnUnits front p, LedBy o t i s ds u := by
  intro u hu
  rw [turnUnits, List.mem_append, List.mem_append] at hu
  rcases hu with (hu | hu) | hu
  · exact h.led u hu
  · obtain ⟨r, hr, rfl⟩ := List.mem_map.mp hu
    obtain ⟨hsel, hexc⟩ := h.solo r (Option.mem_toList.mp hr)
    exact .solo hsel ⟨hexc.nonempty, hexc.authored.trans hpre⟩
  · obtain ⟨r, hr, rfl⟩ := List.mem_map.mp hu
    exact h.groups r hr

theorem solos_turnUnits (front : List SheetUnit) (p : Progress) :
    (turnUnits front p).filterMap SheetUnit.solo? = front.filterMap SheetUnit.solo? ++ p.solo.toList := by
  have hsolo : (p.solo.toList.map SheetUnit.solo).filterMap SheetUnit.solo? = p.solo.toList := by
    cases p.solo <;> rfl
  rw [turnUnits, List.filterMap_append, List.filterMap_append, hsolo, filterMap_solo?_groups, List.append_nil]

/-- A turn has one solo unit at most, unless a group has a declaration that overlaps. -/
theorem solos (h : OnTurn o t i s ds before front pre p) :
    ((turnUnits front p).filterMap SheetUnit.solo?).length ≤ 1 ∨ Reopened ds (turnUnits front p) := by
  rcases h.once with hnone | hover
  · refine .inl ?_
    rw [solos_turnUnits, hnone]
    cases p.solo <;> simp
  · refine .inr (hover.mono ?_)
    intro u hu
    simp [turnUnits, hu]

/-- What a group of the turn holds is out. -/
theorem emitted_of_group (h : OnTurn o t i s ds before front pre p) (hi : t.RuleAt i s ds) (hw : Working t s p)
    {g : StyleRule} (hg : g ∈ p.groups) {e : String × String} (he : e ∈ g.declarations) : (i, e.1) ∈ p.emitted := by
  have hs : s ∈ g.selectors := by
    cases h.groups g hg with
    | group _ hmade _ =>
      rw [hmade.selectors]
      exact List.mem_filterMap.mpr ⟨i, List.mem_cons_self, hi.selectorAt?⟩
  have hu : SheetUnit.group g ∈ p.units := by simp [Progress.units, hg]
  have hmem := (hw.faithful.perm hi).mem_iff.mp (mem_emission_iff.mpr ⟨_, hu, g, rfl, hs, he⟩)
  simpa using (List.mem_filter.mp hmem).2

theorem pushSolo (h : OnTurn o t i s ds before front pre p) (hi : t.RuleAt i s ds) (hw : Working t s p)
    (hds : ds = pre ++ d :: post) (hnew : (i, d.1) ∉ p.emitted) :
    ∃ front', OnTurn o t i s ds before front' (pre ++ [d]) (p.pushSolo i s d.1 d.2) := by
  have hprefix : pre.Sublist ds := hds ▸ List.sublist_append_left pre _
  obtain ⟨q, r, heq, hr, -, ⟨-, rfl⟩ | ⟨hneeds, rfl⟩⟩ := p.pushSolo_cases i s d.1 d.2
  · -- The solo unit at hand takes the declaration.
    obtain ⟨hsel, hexc⟩ := h.solo r hr
    refine ⟨front, ?_⟩
    rw [heq]
    refine ⟨h.settled, h.led, h.groups, fun r' hr' => ?_, fun hnone => absurd hnone (Option.some_ne_none _), h.once⟩
    cases hr'
    exact ⟨hsel, by simp [StyleRule.push], hexc.authored.append (List.Sublist.refl [d])⟩
  · -- A new one opens behind all units so far.
    cases hr
    refine ⟨turnUnits front p, ?_⟩
    rw [heq]
    refine ⟨h.units_eq, h.ledBy hprefix, fun g hg => absurd hg List.not_mem_nil, fun r' hr' => ?_,
      fun hnone => absurd hnone (Option.some_ne_none _), ?_⟩
    · cases hr'
      exact ⟨rfl, by simp [StyleRule.push], List.sublist_append_right pre [d]⟩
    · rw [Progress.needsSolo, Bool.or_eq_true, Option.isNone_iff_eq_none] at hneeds
      rcases hneeds with hnone | hover
      · rw [solos_turnUnits, h.first hnone, hnone]
        exact .inl rfl
      · obtain ⟨g, hg, hany⟩ := List.any_eq_true.mp hover
        obtain ⟨property, hmem, hover⟩ := List.any_eq_true.mp hany
        obtain ⟨e, he, rfl⟩ := List.mem_map.mp hmem
        refine .inr ⟨g, by simp [turnUnits, hg], e, he, d, by simp [hds], fun hed => ?_, hover⟩
        exact hnew (hed ▸ h.emitted_of_group hi hw hg he)

theorem emitDeclaration (h : OnTurn o t i s ds before front pre p) (hi : t.RuleAt i s ds) (hw : Working t s p)
    (hds : ds = pre ++ d :: post) (hpre : ∀ e ∈ pre, (i, e.1) ∈ p.emitted) :
    ∃ front', OnTurn o t i s ds before front' (pre ++ [d]) (emitDeclaration o t i s ds p d) := by
  have hgrow : ∀ r, p.solo = some r → r.selectors = [s] ∧ Excerpt (pre ++ [d]) r := by
    intro r hr
    obtain ⟨hsel, hexc⟩ := h.solo r hr
    exact ⟨hsel, hexc.nonempty, hexc.authored.trans (List.sublist_append_left pre [d])⟩
  rcases emitDeclaration_cases o t i s ds p d with ⟨-, heq⟩ | ⟨hnew, -, heq⟩ | ⟨-, members, he, hne, heq⟩ <;> rw [heq]
  · exact ⟨front, h.settled, h.led, h.groups, hgrow, h.first, h.once⟩
  · exact h.pushSolo hi hw hds hnew
  · refine ⟨front, h.settled, h.led, fun r hr => ?_, hgrow, h.first, h.once⟩
    rcases List.mem_append.mp hr with hr | hr
    · exact h.groups r hr
    · cases List.mem_singleton.mp hr
      exact ledBy_makeGroup hds hpre he hne

end OnTurn

/-! ### Turn by turn -/

/-- The units that came out in the turn of an entry. -/
structure Turn where
  entry : Entry
  place : Nat
  units : List SheetUnit

/-- What the grouping makes of an entry. -/
inductive Turn.Fair (o : Options) (t : RuleTable) : Turn → Prop
  | raw {text : String} {i : Nat} : Fair o t ⟨.raw text, i, [.raw text]⟩
  | rule {s : String} {ds : List (String × String)} {i : Nat} {us : List SheetUnit} :
      (∀ u ∈ us, LedBy o t i s ds u) → (us.filterMap SheetUnit.solo?).length ≤ 1 ∨ Reopened ds us →
      Fair o t ⟨.rule s ds, i, us⟩

theorem exists_fair_turn (wf : t.WellFormed) {n : Nat} {e : Entry} (h : Reached t n p) (he : t.entries[n]? = some e) :
    ∃ us, (emitEntry o t p (e, n)).settled = p.settled ++ us ∧ Turn.Fair o t ⟨e, n, us⟩ := by
  cases e with
  | raw text => exact ⟨_, rfl, .raw⟩
  | rule s ds =>
    have hstart : OnTurn o t n s ds p.settled [] [] p := by
      obtain ⟨hsolo, hgroups⟩ := h.settled
      refine ⟨by simp, by simp, by simp [hgroups], fun r hr => ?_, fun _ => rfl, .inl rfl⟩
      rw [hsolo] at hr
      cases hr
    obtain ⟨-, -, -, front, hturn⟩ := (h.working s).foldl_emitDeclaration (o := o)
      (I := fun pre q => ∃ front, OnTurn o t n s ds p.settled front pre q) wf he
      (fun hds hw _ hpre ⟨front, hturn⟩ => hturn.emitDeclaration he hw hds hpre) h.out ⟨[], hstart⟩
      (show ds = [] ++ ds from rfl) (by simp)
    exact ⟨_, hturn.units_eq, .rule (hturn.ledBy (List.Sublist.refl ds)) hturn.solos⟩

/-- The units of a table are those of the turns of its entries, one turn after the other. -/
structure Turns (o : Options) (t : RuleTable) (turns : List Turn) : Prop where
  entries : turns.map (fun x => (x.entry, x.place)) = t.entries.zipIdx
  joined : units t o = turns.flatMap Turn.units
  fair : ∀ x ∈ turns, x.Fair o t

theorem exists_turns (wf : t.WellFormed) (o : Options) : ∃ turns, Turns o t turns := by
  obtain ⟨hreached, turns, hentries, hsettled, hfair⟩ := run_of_steps (o := o)
    (J := fun n p => ∃ turns : List Turn, turns.map (fun x => (x.entry, x.place)) = t.entries.zipIdx.take n ∧
      p.settled = turns.flatMap Turn.units ∧ ∀ x ∈ turns, x.Fair o t) wf ⟨[], rfl, rfl, by simp⟩ <| by
    rintro n p e he hreached ⟨turns, hentries, hsettled, hfair⟩
    obtain ⟨us, hus, hturn⟩ := exists_fair_turn (o := o) wf hreached he
    refine ⟨turns ++ [⟨e, n, us⟩], ?_, ?_, ?_⟩
    · rw [List.map_append, hentries, List.take_add_one, List.getElem?_zipIdx, he]
      simp
    · rw [hus, hsettled]
      simp
    · intro x hx
      rcases List.mem_append.mp hx with hx | hx
      · exact hfair x hx
      · cases List.mem_singleton.mp hx
        exact hturn
  refine ⟨turns, hentries.trans (List.take_of_length_le (by simp)), ?_, hfair⟩
  rw [units, hreached.units_eq, hsettled]

namespace Turns
variable {turns : List Turn} {x : Turn} {u : SheetUnit}

theorem entry_at (h : Turns o t turns) (hx : x ∈ turns) : t.entries[x.place]? = some x.entry := by
  have hmem : (x.entry, x.place) ∈ t.entries.zipIdx := h.entries ▸ List.mem_map_of_mem hx
  exact List.mem_zipIdx_iff_getElem?.mp hmem

theorem exists_of_entry (h : Turns o t turns) {e : Entry} (he : t.entries[i]? = some e) :
    ∃ x ∈ turns, x.entry = e ∧ x.place = i := by
  have hmem : (e, i) ∈ turns.map fun x => (x.entry, x.place) := h.entries ▸ List.mem_zipIdx_iff_getElem?.mpr he
  obtain ⟨x, hx, heq⟩ := List.mem_map.mp hmem
  cases heq
  exact ⟨x, hx, rfl, rfl⟩

theorem sorted (h : Turns o t turns) : turns.Pairwise fun x y => x.place < y.place := by
  have hplaces : turns.map Turn.place = t.entries.zipIdx.map (·.2) := by
    rw [← h.entries, List.map_map]
    rfl
  rw [← List.pairwise_map, hplaces, List.zipIdx_map_snd]
  exact List.pairwise_lt_range'

theorem exists_of_unit (h : Turns o t turns) (hu : u ∈ units t o) : ∃ x ∈ turns, u ∈ x.units := by
  rw [h.joined] at hu
  exact List.mem_flatMap.mp hu

/-- A unit that is no raw text came out in the turn of a rule. -/
theorem exists_ledBy (h : Turns o t turns) (hu : u ∈ units t o) {r : StyleRule} (hr : u.rule? = some r) :
    ∃ i s ds, t.RuleAt i s ds ∧ LedBy o t i s ds u := by
  obtain ⟨x, hx, hux⟩ := h.exists_of_unit hu
  have hentry := h.entry_at hx
  cases h.fair x hx with
  | raw =>
    cases List.mem_singleton.mp hux
    cases hr
  | rule hled _ => exact ⟨_, _, _, hentry, hled u hux⟩

end Turns

end Grouping

end StyleTree
