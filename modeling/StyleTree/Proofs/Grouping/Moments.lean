import StyleTree.Proofs.Grouping.Sharing

/-! Every moment of a run. The marks grow one by one: between the declarations of a rule, while the members of a
    new group are marked, and while the group takes in further declarations. At each of these moments the
    marks are closed, since what is marked is due for every member. So a declaration that the run comes to in
    its own rule, and that is not out yet, is due there. -/

namespace StyleTree.Grouping
open RuleTable

/-! ### Moments -/

section
variable (o : Options) (t : RuleTable) (n : Nat) (s : String) (ds : List (String × String)) (m : Nat)

/-- The run as it comes to the entry at place `n`. -/
def runTo : Progress := (t.entries.zipIdx.take n).foldl (emitEntry o t) {}

/-- The run as it comes to the declaration at place `m` of the rule at place `n`. -/
def ruleTo : Progress := (ds.take m).foldl (emitDeclaration o t n s ds) (runTo o t n)

/-- The run comes to a declaration that is not out, and opens a group for it. -/
structure Opens (d : String × String) (members : List Nat) : Prop where
  rule : t.RuleAt n s ds
  declaration : ds[m]? = some d
  new : (n, d.1) ∉ (ruleTo o t n s ds m).emitted
  eligible : eligible o t (ruleTo o t n s ds m).emitted n d.1 d.2 = members
  several : 2 ≤ members.length ∧ members.head? = some n

/-- The group that the run opens for a declaration, as it comes to the declaration at place `k` that it may take in. -/
def groupTo (d : String × String) (members : List Nat) (k : Nat) : Emitted × StyleRule :=
  makeGroup o t n (ds.take k) (ruleTo o t n s ds m).emitted members d.1 d.2

end

/-- The marks at a moment of the run. The members of a group are marked one after the other. -/
inductive Moment (o : Options) (t : RuleTable) : Emitted → Prop
  | entry {n : Nat} : n ≤ t.entries.length → Moment o t (runTo o t n).emitted
  | declaration {n m : Nat} {s : String} {ds : List (String × String)} : t.RuleAt n s ds →
      Moment o t (ruleTo o t n s ds m).emitted
  | opening {n m : Nat} {s : String} {ds : List (String × String)} {d : String × String} {members : List Nat}
      (marked : Nat) : Opens o t n s ds m d members →
      Moment o t ((ruleTo o t n s ds m).emitted.mark (members.take marked) d.1)
  | scanning {n m : Nat} {s : String} {ds : List (String × String)} {d : String × String} {members : List Nat}
      (k : Nat) : Opens o t n s ds m d members → Moment o t (groupTo o t n s ds m d members k).1
  | extending {n m : Nat} {s : String} {ds : List (String × String)} {d : String × String} {members : List Nat}
      {k : Nat} {e : String × String} (marked : Nat) : Opens o t n s ds m d members → ds[k]? = some e →
      (n, e.1) ∉ (groupTo o t n s ds m d members k).1 →
      eligible o t (groupTo o t n s ds m d members k).1 n e.1 e.2 = members →
      Moment o t ((groupTo o t n s ds m d members k).1.mark (members.take marked) e.1)

variable {o : Options} {t : RuleTable} {n m : Nat} {s : String} {ds : List (String × String)} {d : String × String}
  {members : List Nat}

theorem runTo_succ {e : Entry} (he : t.entries[n]? = some e) :
    runTo o t (n + 1) = emitEntry o t (runTo o t n) (e, n) := by
  have hz : t.entries.zipIdx[n]? = some (e, n) := by simp [he]
  rw [runTo, List.take_add_one, hz, List.foldl_append]
  rfl

theorem ruleTo_succ (hd : ds[m]? = some d) :
    ruleTo o t n s ds (m + 1) = emitDeclaration o t n s ds (ruleTo o t n s ds m) d := by
  rw [ruleTo, List.take_add_one, hd, List.foldl_append]
  rfl

/-- The moments of a run end with its units. -/
theorem units_eq_runTo (o : Options) (t : RuleTable) : units t o = (runTo o t t.entries.length).units := by
  rw [units, runTo, ← List.length_zipIdx (l := t.entries), List.take_length]

/-! ### What holds at each of them -/

theorem reached_runTo (wf : t.WellFormed) (hn : n ≤ t.entries.length) : Reached t n (runTo o t n) := by
  induction n with
  | zero => exact ⟨.empty t, ⟨rfl, rfl⟩, fun hlt => absurd hlt (Nat.not_lt_zero _), rfl⟩
  | succ n ih =>
    have he := List.getElem?_eq_getElem (Nat.lt_of_succ_le hn)
    rw [runTo_succ he]
    exact (ih (Nat.le_of_succ_le hn)).emitEntry wf he

/-- What holds within a rule as the run comes to a declaration of it. -/
structure Within (t : RuleTable) (n : Nat) (s : String) (ds : List (String × String)) (m : Nat) (p : Progress) :
    Prop where
  working : Working t s p
  out : OutBefore t n p.emitted
  taken : ∀ e ∈ ds.take m, (n, e.1) ∈ p.emitted

/-- The declarations before one are those that the run has taken when it comes to it. -/
theorem mem_take_of_place_lt (hn : (ds.map (·.1)).Nodup) (hd : ds[m]? = some d) {e : String × String} (he : e ∈ ds)
    (hlt : place ds e.1 < place ds d.1) : e ∈ ds.take m := by
  obtain ⟨j, hj⟩ := List.getElem?_of_mem he
  rw [place_getElem hn hj, place_getElem hn hd] at hlt
  exact List.mem_of_getElem? ((List.getElem?_take_of_lt hlt).trans hj)

theorem Within.before {p : Progress} (wf : t.WellFormed) (hi : t.RuleAt n s ds) (h : Within t n s ds m p)
    (hd : ds[m]? = some d) : ∀ e ∈ ds, place ds e.1 < place ds d.1 → (n, e.1) ∈ p.emitted := fun e he hlt =>
  h.taken e (mem_take_of_place_lt (wf.properties hi.mem) hd he hlt)

theorem within_ruleTo (wf : t.WellFormed) (hi : t.RuleAt n s ds) (m : Nat) :
    Within t n s ds m (ruleTo o t n s ds m) := by
  have hreached : Reached t n (runTo o t n) := reached_runTo wf (Nat.le_of_lt (List.getElem?_eq_some_iff.mp hi).1)
  induction m with
  | zero => exact ⟨hreached.working s, hreached.out, fun e he => by simp at he⟩
  | succ m ih =>
    cases hd : ds[m]? with
    | none =>
      have htake : ds.take (m + 1) = ds.take m := by rw [List.take_add_one, hd, Option.toList_none, List.append_nil]
      have hto : ruleTo o t n s ds (m + 1) = ruleTo o t n s ds m := by rw [ruleTo, ruleTo, htake]
      rw [hto]
      exact ⟨ih.working, ih.out, fun e he => ih.taken e (htake ▸ he)⟩
    | some d =>
      rw [ruleTo_succ hd]
      have hbefore := ih.before wf hi hd
      obtain ⟨hworking, hkept, hm⟩ := ih.working.emitDeclaration (o := o) wf hi (List.mem_of_getElem? hd) hbefore
      refine ⟨hworking, OutBefore.kept ih.out hkept, fun e he => ?_⟩
      rw [List.take_add_one, hd, Option.toList_some, List.mem_append, List.mem_singleton] at he
      rcases he with he | rfl
      · exact hkept.marks (ih.taken e he)
      · exact hm

/-- A declaration that the run comes to in its own rule is due there, unless it is out. -/
theorem due_ruleTo (wf : t.WellFormed) (hi : t.RuleAt n s ds) (hd : ds[m]? = some d)
    (hnew : (n, d.1) ∉ (ruleTo o t n s ds m).emitted) : Due t (ruleTo o t n s ds m).emitted n d :=
  have h := within_ruleTo wf hi m
  h.working.due wf hi (List.mem_of_getElem? hd) (h.before wf hi hd) hnew

theorem Opens.growing (wf : t.WellFormed) (h : Opens o t n s ds m d members) (k : Nat) :
    Growing t members ((ruleTo o t n s ds m).emitted.mark members d.1) (ruleTo o t n s ds m).units
      (groupTo o t n s ds m d members k) := by
  have hnodup : members.Nodup := h.eligible ▸ eligible_nodup o t _ n d.1 d.2
  exact makeGroup_growing wf (within_ruleTo wf h.rule m).working.faithful n (ds.take k) hnodup fun j hj =>
    due_of_mem_eligible wf (h.eligible ▸ hj)

theorem Moment.closed (wf : t.WellFormed) {emitted : Emitted} (h : Moment o t emitted) : Closed t emitted := by
  cases h with
  | entry hn => exact (reached_runTo wf hn).faithful.closed
  | declaration hi => exact (within_ruleTo wf hi _).working.faithful.closed
  | opening marked h =>
    refine Closed.mark wf (within_ruleTo wf h.rule _).working.faithful.closed fun j hj => ?_
    exact due_of_mem_eligible wf (h.eligible ▸ List.mem_of_mem_take hj)
  | scanning k h => exact (h.growing wf k).faithful.closed
  | extending marked h _ _ heligible =>
    refine Closed.mark wf (h.growing wf _).faithful.closed fun j hj => ?_
    exact due_of_mem_eligible wf (heligible ▸ List.mem_of_mem_take hj)

theorem pushGroup_ne_pushSolo (p : Progress) (emitted : Emitted) (rule : StyleRule) (n : Nat)
    (selector property value : String) : p.pushGroup emitted rule ≠ p.pushSolo n selector property value := by
  intro h
  have hgroups := congrArg (fun q => q.groups.length) h
  obtain ⟨q, r, heq, -, -, hq⟩ := p.pushSolo_cases n selector property value
  rw [heq] at hgroups
  rcases hq with ⟨-, rfl⟩ | ⟨-, rfl⟩ <;> simp [Progress.pushGroup, Progress.settle] at hgroups

/-- At every moment of a run the marks of a rule are closed under earlier overlap. So a declaration that its rule
    shares, and that is not out when the run comes to it there, has this rule for the first that can emit it,
    and goes to a solo unit exactly if no other rule can. -/
theorem units_mark_in_order (o : Options) (calls : List TableCall) :
    let t := RuleTable.ofCalls calls
    (∀ emitted, Moment o t emitted → Closed t emitted) ∧
      ∀ n m s ds d, t.RuleAt n s ds → ds[m]? = some d →
        let p := ruleTo o t n s ds m
        (n, d.1) ∉ p.emitted → carries o d.1 d.2 (.rule s ds) = true →
          (eligible o t p.emitted n d.1 d.2).head? = some n ∧
            (emitDeclaration o t n s ds p d = p.pushSolo n s d.1 d.2 ↔ eligible o t p.emitted n d.1 d.2 = [n]) := by
  intro t
  have wf : t.WellFormed := .ofCalls calls
  refine ⟨fun emitted h => h.closed wf, ?_⟩
  intro n m s ds d hi hd p hnew hcarries
  have hhead := head?_eligible (mem_eligible_of_due wf (le_refl n) hi hcarries (due_ruleTo wf hi hd hnew))
  refine ⟨hhead, ?_⟩
  rcases emitDeclaration_cases o t n s ds p d with ⟨hm, -⟩ | ⟨-, hfew, heq⟩ | ⟨-, members, heligible, hne, heq⟩
  · exact absurd hm hnew
  · -- The first of them is there, so there are too few for a group only if it is the only one.
    refine iff_of_true heq ?_
    have hlength := hfew.resolve_right (not_not.mpr hhead)
    obtain ⟨rest, hrest⟩ := List.head?_eq_some_iff.mp hhead
    rw [hrest, List.length_cons, Nat.succ_lt_succ_iff, Nat.lt_one_iff, List.length_eq_zero_iff] at hlength
    rw [hrest, hlength]
  · rw [heq, heligible]
    refine iff_of_false ?_ fun h => hne (List.cons.inj h).2
    exact pushGroup_ne_pushSolo p _ _ n s d.1 d.2

end StyleTree.Grouping
