import StyleTree.Proofs.Grouping.Steps

/-! A whole run of the grouping. Within a rule the declarations are taken in authored order, so one that is
    still in its place when it is taken is due. After a rule all its declarations are out, and after the
    last entry the units hold every declaration of the table. What else each step keeps holds there too. -/

namespace StyleTree.Grouping
open RuleTable
variable {o : Options} {t : RuleTable} {i : Nat} {s : String} {ds : List (String × String)} {d : String × String}
  {p q : Progress}

/-! ### What a step keeps -/

/-- No mark is taken back, and the raw texts stay. -/
structure Kept (p q : Progress) : Prop where
  marks : p.emitted ⊆ q.emitted
  raws : q.settled.filterMap SheetUnit.raw? = p.settled.filterMap SheetUnit.raw?

theorem Kept.refl (p : Progress) : Kept p p := ⟨fun _ h => h, rfl⟩

theorem Kept.trans {r : Progress} (h₁ : Kept p q) (h₂ : Kept q r) : Kept p r :=
  ⟨fun _ h => h₂.marks (h₁.marks h), h₂.raws.trans h₁.raws⟩

/-- Only settled units are raw texts. -/
theorem raws_units (p : Progress) :
    p.units.filterMap SheetUnit.raw? = p.settled.filterMap SheetUnit.raw? := by
  have hs : (p.solo.toList.map SheetUnit.solo).filterMap SheetUnit.raw? = [] := by
    rw [List.filterMap_eq_nil_iff]
    intro u hu
    obtain ⟨r, -, rfl⟩ := List.mem_map.mp hu
    rfl
  have hg : (p.groups.map SheetUnit.group).filterMap SheetUnit.raw? = [] := by
    rw [List.filterMap_eq_nil_iff]
    intro u hu
    obtain ⟨r, -, rfl⟩ := List.mem_map.mp hu
    rfl
  rw [Progress.units, List.filterMap_append, List.filterMap_append, hs, hg, List.append_nil, List.append_nil]

/-! ### Within a rule -/

/-- Progress on the rule of `s`: the units agree with the marks, and the solo unit is its own. -/
structure Working (t : RuleTable) (s : String) (p : Progress) : Prop where
  faithful : Faithful t p.emitted p.units
  solo : ∀ r, p.solo = some r → r.selectors = [s]

theorem Working.pushSolo (wf : t.WellFormed) (hi : t.RuleAt i s ds) (h : Working t s p)
    (hdue : Due t p.emitted i d) :
    Working t s (p.pushSolo i s d.1 d.2) ∧ Kept p (p.pushSolo i s d.1 d.2) ∧
      (i, d.1) ∈ (p.pushSolo i s d.1 d.2).emitted := by
  obtain ⟨q, r, heq, hr, hg, hq⟩ := p.pushSolo_cases i s d.1 d.2
  have hsel : [i].filterMap t.selectorAt? = [s] := by simp [hi.selectorAt?]
  -- The units with the solo unit, which may be a new one, before it takes the declaration.
  obtain ⟨hrs, hf, hraws⟩ : r.selectors = [s] ∧ Faithful t p.emitted q.units ∧
      q.settled.filterMap SheetUnit.raw? = p.settled.filterMap SheetUnit.raw? := by
    rcases hq with ⟨-, rfl⟩ | ⟨-, rfl⟩
    · exact ⟨h.solo r hr, h.faithful, rfl⟩
    · cases hr
      refine ⟨rfl, ?_, raws_units p⟩
      have := h.faithful.openUnit wf (List.nodup_singleton i) (u := .solo ⟨[s], []⟩) (by rw [hsel]; rfl)
      simpa [Progress.units, Progress.settle] using this
  rw [Progress.units_of_solo hr] at hf
  have hpush : Faithful t (p.emitted.mark [i] d.1) (q.settled ++ .solo (r.push d.1 d.2) :: q.groups.map .group) := by
    refine hf.push wf rfl rfl (hrs.trans hsel.symm) (fun j hj => List.mem_singleton.mp hj ▸ hdue) fun v hv g hvg => ?_
    obtain ⟨g', hg', rfl⟩ := List.mem_map.mp hv
    cases hvg
    exact hg g hg'
  rw [heq]
  refine ⟨⟨?_, fun r' hr' => ?_⟩, ⟨fun _ hx => mem_mark_of_mem hx, hraws⟩, mem_mark.mpr (.inl ⟨by simp, rfl⟩)⟩
  · rw [Progress.units_of_solo rfl]
    exact hpush
  · cases hr'
    exact hrs

theorem Working.pushGroup (h : Working t s p) {members : List Nat} {g : Emitted × StyleRule}
    (hg : Growing t members (p.emitted.mark members d.1) p.units g) (hi : i ∈ members) :
    Working t s (p.pushGroup g.1 g.2) ∧ Kept p (p.pushGroup g.1 g.2) ∧ (i, d.1) ∈ (p.pushGroup g.1 g.2).emitted := by
  refine ⟨⟨?_, h.solo⟩, ⟨fun x hx => hg.marks (mem_mark_of_mem hx), rfl⟩, hg.marks (mem_mark.mpr (.inl ⟨hi, rfl⟩))⟩
  simpa [Progress.units, Progress.pushGroup] using hg.faithful

/-- Where all declarations before it are out, a declaration that is still in its place is due. -/
theorem Working.due (wf : t.WellFormed) (hi : t.RuleAt i s ds) (h : Working t s p) (hd : d ∈ ds)
    (hbefore : ∀ e ∈ ds, place ds e.1 < place ds d.1 → (i, e.1) ∈ p.emitted) (hnew : (i, d.1) ∉ p.emitted) :
    Due t p.emitted i d := by
  refine ⟨s, ds, hi, hd, hnew, fun e he hne ho => ⟨fun hm => ?_, hbefore e he⟩⟩
  rcases Nat.lt_trichotomy (place ds e.1) (place ds d.1) with hlt | heq | hlt
  · exact hlt
  · exact absurd (eq_of_place_eq (wf.properties hi.mem) he hd heq) hne
  · -- Marks are closed, so `d` would be out with `e`.
    exact absurd (h.faithful.closed hi d hd e he (overlaps_comm e.1 d.1 ▸ ho) hlt hm) hnew

theorem Working.emitDeclaration (wf : t.WellFormed) (hi : t.RuleAt i s ds) (h : Working t s p) (hd : d ∈ ds)
    (hbefore : ∀ e ∈ ds, place ds e.1 < place ds d.1 → (i, e.1) ∈ p.emitted) :
    Working t s (emitDeclaration o t i s ds p d) ∧ Kept p (emitDeclaration o t i s ds p d) ∧
      (i, d.1) ∈ (emitDeclaration o t i s ds p d).emitted := by
  rcases emitDeclaration_cases o t i s ds p d with ⟨hm, heq⟩ | ⟨hnew, -, heq⟩ | ⟨-, members, he, -, heq⟩ <;> rw [heq]
  · exact ⟨h, .refl p, hm⟩
  · exact h.pushSolo wf hi (h.due wf hi hd hbefore hnew)
  · refine h.pushGroup (makeGroup_growing wf h.faithful i ds ?_ fun j hj => ?_) List.mem_cons_self
    · exact he ▸ eligible_nodup o t p.emitted i d.1 d.2
    · exact due_of_mem_eligible wf (he ▸ hj)

/-- The rules before place `i` are out. -/
def OutBefore (t : RuleTable) (i : Nat) (emitted : Emitted) : Prop :=
  ∀ {j s ds}, j < i → t.RuleAt j s ds → ∀ d ∈ ds, (j, d.1) ∈ emitted

theorem OutBefore.kept (h : OutBefore t i p.emitted) (hk : Kept p q) : OutBefore t i q.emitted :=
  fun hlt hj d hd => hk.marks (h hlt hj d hd)

/-- The declarations of the rule are taken in authored order. What the step for each of them keeps, with those taken so
    far, holds at the end for all. -/
theorem Working.foldl_emitDeclaration {I : List (String × String) → Progress → Prop} (wf : t.WellFormed)
    (hi : t.RuleAt i s ds)
    (hstep : ∀ {p pre d post}, ds = pre ++ d :: post → Working t s p → OutBefore t i p.emitted →
      (∀ e ∈ pre, (i, e.1) ∈ p.emitted) → I pre p → I (pre ++ [d]) (Grouping.emitDeclaration o t i s ds p d))
    (h : Working t s p) (hout : OutBefore t i p.emitted) {pre post : List (String × String)} (hp : I pre p)
    (hds : ds = pre ++ post) (hpre : ∀ e ∈ pre, (i, e.1) ∈ p.emitted) :
    Working t s (post.foldl (Grouping.emitDeclaration o t i s ds) p) ∧
      Kept p (post.foldl (Grouping.emitDeclaration o t i s ds) p) ∧
      (∀ e ∈ ds, (i, e.1) ∈ (post.foldl (Grouping.emitDeclaration o t i s ds) p).emitted) ∧
      I ds (post.foldl (Grouping.emitDeclaration o t i s ds) p) := by
  induction post generalizing pre p with
  | nil =>
    rw [List.append_nil] at hds
    subst hds
    exact ⟨h, .refl p, hpre, hp⟩
  | cons d rest ih =>
    have hn := wf.properties hi.mem
    have hd : d ∈ ds := by simp [hds]
    have hbefore : ∀ e ∈ ds, place ds e.1 < place ds d.1 → (i, e.1) ∈ p.emitted := fun e he hlt => by
      subst hds
      exact hpre e ((place_lt_iff hn he).mp hlt)
    obtain ⟨hw, hk, hm⟩ := h.emitDeclaration (o := o) wf hi hd hbefore
    obtain ⟨hw', hk', hm', hI'⟩ := ih hw (hout.kept hk) (hstep hds h hout hpre hp)
      (show ds = (pre ++ [d]) ++ rest by simp [hds]) fun e he => by
        rcases List.mem_append.mp he with he | he
        · exact hk.marks (hpre e he)
        · exact List.mem_singleton.mp he ▸ hm
    exact ⟨hw', hk.trans hk', hm', hI'⟩

/-! ### From entry to entry -/

/-- The run after the first `n` entries: their rules and raw texts are out, and all units are settled. -/
structure Reached (t : RuleTable) (n : Nat) (p : Progress) : Prop where
  faithful : Faithful t p.emitted p.settled
  settled : p.solo = none ∧ p.groups = []
  out : ∀ {j s ds}, j < n → t.RuleAt j s ds → ∀ d ∈ ds, (j, d.1) ∈ p.emitted
  raws : p.settled.filterMap SheetUnit.raw? = (t.entries.take n).filterMap Entry.raw?

theorem Reached.units_eq {n : Nat} (h : Reached t n p) : p.units = p.settled := by
  simp [Progress.units, h.settled.1, h.settled.2]

theorem Reached.working {n : Nat} (h : Reached t n p) (s : String) : Working t s p := by
  refine ⟨h.units_eq ▸ h.faithful, fun r hr => ?_⟩
  rw [h.settled.1] at hr
  cases hr

theorem Reached.emitEntry (wf : t.WellFormed) {n : Nat} {e : Entry} (h : Reached t n p) (he : t.entries[n]? = some e) :
    Reached t (n + 1) (emitEntry o t p (e, n)) := by
  have htake : t.entries.take (n + 1) = t.entries.take n ++ [e] := by rw [List.take_add_one, he]; rfl
  cases e with
  | raw text =>
    refine ⟨?_, h.settled, fun {j s ds} hlt hj => ?_, ?_⟩
    · refine h.faithful.append_silent (fun _ => rfl) fun u hu r hr => ?_
      cases List.mem_singleton.mp hu
      cases hr
    · rcases Nat.lt_succ_iff_lt_or_eq.mp hlt with hlt | rfl
      · exact h.out hlt hj
      · cases he.symm.trans hj
    · rw [htake, List.filterMap_append, ← h.raws]
      exact List.filterMap_append
  | rule s ds =>
    obtain ⟨hw, hk, hm, -⟩ := (h.working s).foldl_emitDeclaration (o := o) (I := fun _ _ => True) wf he
      (fun _ _ _ _ _ => trivial) h.out trivial (show ds = [] ++ ds from rfl) (by simp)
    refine ⟨hw.faithful, ⟨rfl, rfl⟩, fun {j s' ds'} hlt hj => ?_, ?_⟩
    · rcases Nat.lt_succ_iff_lt_or_eq.mp hlt with hlt | rfl
      · exact fun d hd => hk.marks (h.out hlt hj d hd)
      · cases he.symm.trans hj
        exact hm
    · have hraws := (raws_units _).trans (hk.raws.trans h.raws)
      rw [htake, List.filterMap_append]
      exact hraws.trans (List.append_nil _).symm

theorem Reached.foldl_emitEntry {J : Nat → Progress → Prop} (wf : t.WellFormed)
    (hstep : ∀ {n p e}, t.entries[n]? = some e → Reached t n p → J n p → J (n + 1) (Grouping.emitEntry o t p (e, n)))
    {pre post : List Entry} (ht : t.entries = pre ++ post) (h : Reached t pre.length p) (hp : J pre.length p) :
    Reached t t.entries.length ((post.zipIdx pre.length).foldl (Grouping.emitEntry o t) p) ∧
      J t.entries.length ((post.zipIdx pre.length).foldl (Grouping.emitEntry o t) p) := by
  induction post generalizing pre p with
  | nil => simpa [ht] using And.intro h hp
  | cons e rest ih =>
    have he : t.entries[pre.length]? = some e := by simp [ht]
    have := ih (show t.entries = (pre ++ [e]) ++ rest by simp [ht]) (by simpa using h.emitEntry (o := o) wf he)
      (by simpa using hstep he h hp)
    simpa using this

/-- At the end of a run all entries are out, and what each entry keeps, with the number of those taken, holds for all. -/
theorem run_of_steps {J : Nat → Progress → Prop} (wf : t.WellFormed) (hstart : J 0 {})
    (hstep : ∀ {n p e}, t.entries[n]? = some e → Reached t n p → J n p → J (n + 1) (emitEntry o t p (e, n))) :
    Reached t t.entries.length (t.entries.zipIdx.foldl (emitEntry o t) {}) ∧
      J t.entries.length (t.entries.zipIdx.foldl (emitEntry o t) {}) :=
  Reached.foldl_emitEntry wf hstep (show t.entries = [] ++ t.entries from rfl)
    ⟨.empty t, ⟨rfl, rfl⟩, fun hlt => absurd hlt (Nat.not_lt_zero _), rfl⟩ hstart

theorem reached_run (wf : t.WellFormed) (o : Options) :
    Reached t t.entries.length (t.entries.zipIdx.foldl (emitEntry o t) {}) :=
  (run_of_steps (J := fun _ _ => True) wf trivial fun _ _ _ => trivial).1

/-- What holds at the start of a run and is kept by each of its steps. -/
structure Invariant (o : Options) (t : RuleTable) (I : Progress → Prop) : Prop where
  start : I {}
  raw : ∀ {p} text, I p → I (p.pushRaw text)
  settle : ∀ {p}, I p → I p.settle
  declaration : ∀ {p i s ds d}, t.RuleAt i s ds → Working t s p → OutBefore t i p.emitted → d ∈ ds →
    (∀ e ∈ ds, place ds e.1 < place ds d.1 → (i, e.1) ∈ p.emitted) → I p → I (emitDeclaration o t i s ds p d)

theorem Invariant.entry {I : Progress → Prop} (hI : Invariant o t I) (wf : t.WellFormed) {n : Nat} {e : Entry}
    (he : t.entries[n]? = some e) (h : Reached t n p) (hp : I p) : I (emitEntry o t p (e, n)) := by
  cases e with
  | raw text => exact hI.raw text hp
  | rule s ds =>
    have hn : (ds.map (·.1)).Nodup := wf.properties (RuleAt.mem he)
    obtain ⟨-, -, -, hp'⟩ := (h.working s).foldl_emitDeclaration (o := o) (I := fun _ => I) wf he
      (fun {p pre d post} hds hw hout hpre hp => hI.declaration he hw hout (by simp [hds]) (fun e hmem hlt => by
        subst hds
        exact hpre e ((place_lt_iff hn hmem).mp hlt)) hp) h.out hp (show ds = [] ++ ds from rfl) (by simp)
    exact hI.settle hp'

theorem Invariant.run {I : Progress → Prop} (hI : Invariant o t I) (wf : t.WellFormed) :
    Reached t t.entries.length (t.entries.zipIdx.foldl (emitEntry o t) {}) ∧
      I (t.entries.zipIdx.foldl (emitEntry o t) {}) :=
  run_of_steps (J := fun _ => I) wf hI.start fun he h hp => hI.entry wf he h hp

end StyleTree.Grouping
