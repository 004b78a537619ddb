import StyleTree.Proofs.Sheet.Visits

/-! Building a stylesheet. Recording an event calls the table of its chain and leaves the others alone, and
    puts the bucket of its chain behind those that are there, if it is new. So each table is the one that
    the calls of the walk build, and the buckets are the chains that the walk opens. -/

namespace StyleTree

open Selector (distinct insertNew)

namespace Stylesheet
variable {s s' : Stylesheet} {chain : Chain}

/-- The chains of the buckets, in their order. -/
def chains (s : Stylesheet) : List Chain := s.buckets.map (·.1)

/-! ### Updates -/

theorem get?_updateBuckets (c : Chain) (f : RuleTable → RuleTable) (bs : List (Chain × RuleTable)) (chain : Chain) :
    Assoc.get? (updateBuckets c f bs) chain =
      if c = chain then some (f ((Assoc.get? bs chain).getD {})) else Assoc.get? bs chain := by
  induction bs with
  | nil => rw [updateBuckets, Assoc.get?_cons]; rfl
  | cons b rest ih =>
    obtain ⟨c', t⟩ := b
    rw [updateBuckets]
    split
    · next h =>
      subst h
      rw [Assoc.get?_cons, Assoc.get?_cons]
      split <;> rfl
    · next h =>
      rw [Assoc.get?_cons, Assoc.get?_cons, ih]
      by_cases hc : c' = chain
      · have hne : c ≠ chain := fun he => h (hc.trans he.symm)
        rw [if_pos hc, if_pos hc, if_neg hne]
      · rw [if_neg hc, if_neg hc]

theorem map_fst_updateBuckets (c : Chain) (f : RuleTable → RuleTable) (bs : List (Chain × RuleTable)) :
    (updateBuckets c f bs).map (·.1) = insertNew (bs.map (·.1)) c := by
  induction bs with
  | nil => rfl
  | cons b rest ih =>
    obtain ⟨c', t⟩ := b
    rw [updateBuckets, insertNew]
    by_cases h : c' = c
    · rw [if_pos h, if_pos (h ▸ List.mem_cons_self), List.map_cons, List.map_cons]
    · rw [if_neg h, List.map_cons, ih, insertNew]
      simp only [List.map_cons, List.mem_cons, Ne.symm h, false_or]
      split <;> rfl

/-- Only the table of its own chain is changed. -/
theorem table_update (s : Stylesheet) (c : Chain) (f : RuleTable → RuleTable) (chain : Chain) :
    (s.update c f).table chain = if c = chain then f (s.table chain) else s.table chain := by
  by_cases hc : c = []
  · rw [update, if_pos hc, hc]
    by_cases hchain : chain = []
    · rw [table, if_pos hchain, table, if_pos hchain, if_pos hchain.symm]
    · rw [table, if_neg hchain, table, if_neg hchain, if_neg (Ne.symm hchain)]
      rfl
  · rw [update, if_neg hc]
    by_cases hchain : chain = []
    · rw [table, if_pos hchain, table, if_pos hchain, if_neg fun he => hc (he.trans hchain)]
    · rw [table, if_neg hchain, table, if_neg hchain, bucket?, get?_updateBuckets]
      split <;> rfl

theorem chains_update (s : Stylesheet) (c : Chain) (f : RuleTable → RuleTable) :
    (s.update c f).chains = if c = [] then s.chains else insertNew s.chains c := by
  rw [update]
  split
  · rfl
  · exact map_fst_updateBuckets c f s.buckets

/-! ### Recording -/

theorem table_record {e : Event} (h : s.record e = .ok s') (chain : Chain) :
    s'.table chain = (TableCall.to chain e.write?.toList).foldl RuleTable.call (s.table chain) := by
  cases e with
  | bucket c =>
    cases h
    rw [table_update]
    split <;> rfl
  | fact c f =>
    cases h
    rw [table_update]
    by_cases hc : c = chain <;> simp [hc, Event.write?, TableCall.to, RuleTable.call]
  | raw c text =>
    cases h
    rw [table_update]
    by_cases hc : c = chain <;> simp [hc, Event.write?, TableCall.to, RuleTable.call]
  | dropped property path =>
    cases h
    rfl
  | malformed key path fault => cases h

theorem chains_record {e : Event} (h : s.record e = .ok s') :
    s'.chains = e.bucket?.toList.foldl insertNew s.chains := by
  cases e with
  | bucket c | fact c f | raw c text =>
    cases h
    rw [chains_update, Event.bucket?]
    split <;> rfl
  | dropped property path =>
    cases h
    rfl
  | malformed key path fault => cases h

/-- What one event does, all events do in their order. -/
theorem recorded {events : List Event} (h : s.recordAll events = .ok s') :
    (∀ chain, s'.table chain =
        (TableCall.to chain (events.filterMap Event.write?)).foldl RuleTable.call (s.table chain)) ∧
      s'.chains = (events.filterMap Event.bucket?).foldl insertNew s.chains := by
  induction events generalizing s with
  | nil =>
    cases h
    exact ⟨fun _ => rfl, rfl⟩
  | cons e rest ih =>
    rw [recordAll, List.foldlM_cons] at h
    cases he : s.record e with
    | error fault =>
      rw [he] at h
      cases h
    | ok t =>
      rw [he] at h
      obtain ⟨htable, hchains⟩ := ih h
      have hwrites : (e :: rest).filterMap Event.write? = e.write?.toList ++ rest.filterMap Event.write? := by
        cases hw : e.write? <;> simp [hw]
      have hbuckets : (e :: rest).filterMap Event.bucket? = e.bucket?.toList ++ rest.filterMap Event.bucket? := by
        cases hb : e.bucket? <;> simp [hb]
      refine ⟨fun chain => ?_, ?_⟩
      · rw [htable, table_record he, hwrites, TableCall.to, TableCall.to, TableCall.to, List.filterMap_append,
          List.foldl_append]
      · rw [hchains, chains_record he, hbuckets, List.foldl_append]

end Stylesheet

/-- The tables of a built sheet hold the last writes of the walk in the order of the first ones, each table
    those of its chain, and the buckets are the chains that conditions and `@keyframes` open, in the order
    of the walk. -/
theorem build_holds_last_writes {d : Document} {o : Options} {s : Stylesheet}
    (h : (Stylesheet.build d o).result = .ok s) :
    (∀ chain, (s.table chain).Holds (d.calls o.keepCamelCase chain)) ∧
      s.chains = distinct (d.visits.filterMap Visit.opened?) := by
  obtain ⟨htable, hchains⟩ := Stylesheet.recorded h
  refine ⟨fun chain => ?_, ?_⟩
  · have hempty : Stylesheet.table {} chain = {} := by
      rw [Stylesheet.table]
      split <;> rfl
    rw [htable, hempty, Block.write?_events]
    exact .ofCalls _
  · have hnone : Stylesheet.chains {} = [] := rfl
    rw [hchains, hnone, Block.bucket?_events]
    exact Selector.foldl_insertNew _

/-- Two spellings of a property, written under two keys with a path in common, and a condition without
    declarations. -/
def Document.spellings : Document where
  children := [
    .rule "a" [("marginTop", .str "1px"), ("color", .str "red")] [.rule "@media print" [] []],
    .raw "hr",
    .rule "b, a" [("color", .str "blue"), ("margin-top", .str "2px")] []]

theorem build_holds_last_writes_spellings :
    ∃ s, (Stylesheet.build Document.spellings {}).result = .ok s ∧
      s.root.entries.map Entry.label = [.rule "a", .raw "hr", .rule "b"] ∧
      (s.root.declarations "a").map (·.1) = ["margin-top", "color"] ∧
      Assoc.get? (s.root.declarations "a") "margin-top" = some "2px" ∧ s.chains = [["@media print"]] := by
  obtain ⟨s, hs⟩ : ∃ s, (Stylesheet.build Document.spellings {}).result = .ok s := ⟨_, rfl⟩
  obtain ⟨hholds, hchains⟩ := build_holds_last_writes hs
  have hroot : s.root.Holds (Document.spellings.calls false []) := hholds []
  exact ⟨s, hs, hroot.entries.trans (by decide), (hroot.properties "a").trans (by decide),
    (hroot.values "a" "margin-top").trans (by decide), hchains.trans (by decide)⟩

end StyleTree
