import StyleTree.Compiler
import StyleTree.Proofs.Document.Lookup
import StyleTree.Proofs.Resolution.Fixpoint
import StyleTree.Proofs.Selector.Kinds
import StyleTree.Proofs.Sheet.SelectorPaths
import StyleTree.Proofs.Text.Joining

/-! What a snapshot holds. A sheet has a bucket for each chain of headers, but a snapshot has one for each name,
    the headers joined by blanks. Chains with names of their own all stand in it with their rules. Of those
    that share a name only the last one does. -/

namespace StyleTree

open Selector (distinct distinct_concat mem_distinct)
open Text (Borderless Marked)

/-! ### Entries as a map -/

namespace Assoc
variable {α β : Type} [DecidableEq α]

theorem ofEntries_concat (es : List (α × β)) (e : α × β) : ofEntries (es ++ [e]) = put (ofEntries es) e.1 e.2 := by
  rw [ofEntries, putAll, List.foldl_append]
  rfl

/-- The keys are in the order of their first entries. -/
theorem map_fst_ofEntries (es : List (α × β)) : (ofEntries es).map (·.1) = distinct (es.map (·.1)) := by
  induction es using List.reverseRecOn with
  | nil => rfl
  | append_singleton es e ih =>
    rw [ofEntries_concat, map_fst_put, ih, List.map_append, List.map_singleton, distinct_concat,
      if_congr mem_distinct rfl rfl]

/-- The value of a key is that of its last entry. -/
theorem get?_ofEntries (es : List (α × β)) (k : α) : get? (ofEntries es) k = get? es.reverse k := by
  induction es using List.reverseRecOn with
  | nil => rfl
  | append_singleton es e ih =>
    rw [ofEntries_concat, get?_put, ih, List.reverse_append, List.reverse_singleton, List.singleton_append, get?_cons]

theorem ofEntries_of_nodup {es : List (α × β)} (h : (es.map (·.1)).Nodup) : ofEntries es = es := by
  induction es using List.reverseRecOn with
  | nil => rfl
  | append_singleton es e ih =>
    rw [List.map_append, List.nodup_append] at h
    obtain ⟨hes, -, hnew⟩ := h
    have hnot : e.1 ∉ es.map (·.1) := fun hmem => hnew _ hmem _ List.mem_cons_self rfl
    rw [ofEntries_concat, ih hes, put_of_not_mem hnot]

end Assoc

/-! ### Names -/

/-- The name that a snapshot gives to the bucket of a chain. -/
def Chain.name (chain : Chain) : String := Text.joinWith " " chain

/-- Different chains have different names. -/
def Chain.Named (chains : List Chain) : Prop := ∀ a ∈ chains, ∀ b ∈ chains, Chain.name a = Chain.name b → a = b

/-- Headers stand in the chain, and each begins with its mark. -/
structure Chain.Headed (chain : Chain) : Prop where
  nonempty : chain ≠ []
  header : ∀ header ∈ chain, ['@'] <+: header.toList

/-- Every header of the chain of the place begins with its mark. -/
def Place.Headed (p : Place) : Prop := ∀ header ∈ p.chain, ['@'] <+: header.toList

theorem Place.Headed.enter {p q : Place} {key : String} (hp : p.Headed) (h : p.enter key = .ok q) : q.Headed := by
  have hchain := chain_enter h
  unfold Place.Headed
  split at hchain
  · next header hkind =>
    rw [hchain]
    exact List.forall_mem_append.mpr ⟨hp, List.forall_mem_singleton.mpr (Selector.marked_header (.inl hkind))⟩
  · next header hkind =>
    rw [hchain]
    exact List.forall_mem_append.mpr ⟨hp, List.forall_mem_singleton.mpr (Selector.marked_header (.inr hkind))⟩
  · exact hchain ▸ hp
  · exact hchain ▸ hp

theorem Block.headed_visits (d : Document) : ∀ v ∈ d.visits, v.place.Headed := by
  have hroot : Place.Headed {} := fun _ hmem => nomatch hmem
  rw [visits]
  exact List.forall_mem_cons.mpr ⟨hroot, Node.forall_listVisits (fun _ _ _ h hq => h.enter hq) d.children hroot⟩

theorem Visit.place_of_opened? {v : Visit} {chain : Chain} (h : v.opened? = some chain) : v.place.chain = chain := by
  unfold opened? at h
  split at h
  · split at h <;> simp_all [place]
  · cases h
  · cases h

theorem Event.bucket?_ne_nil {e : Event} {chain : Chain} (h : e.bucket? = some chain) : chain ≠ [] := by
  cases e with
  | bucket c | fact c f | raw c text =>
    rw [bucket?] at h
    split at h
    · cases h
    · next hne => exact Option.some.inj h ▸ hne
  | _ => cases h

namespace Stylesheet
variable {d : Document} {o : Options} {s : Stylesheet}

theorem chains_build (h : (build d o).result = .ok s) :
    s.chains = distinct ((d.events o.keepCamelCase {}).filterMap Event.bucket?) :=
  (recorded h).2.trans (Selector.foldl_insertNew _)

theorem nodup_chains (h : (build d o).result = .ok s) : s.chains.Nodup := by
  rw [chains_build h]
  exact Selector.nodup_distinct _

/-- The chains of a built sheet are those of places below conditions. -/
theorem headed_chains (h : (build d o).result = .ok s) : ∀ chain ∈ s.chains, Chain.Headed chain := by
  intro chain hchain
  rw [chains_build h] at hchain
  refine ⟨?_, ?_⟩
  · obtain ⟨e, -, he⟩ := List.mem_filterMap.mp (mem_distinct.mp hchain)
    exact Event.bucket?_ne_nil he
  · rw [← Selector.foldl_insertNew, Block.bucket?_events, Selector.foldl_insertNew] at hchain
    obtain ⟨v, hv, hopened⟩ := List.mem_filterMap.mp (mem_distinct.mp hchain)
    exact Visit.place_of_opened? hopened ▸ d.headed_visits v hv

end Stylesheet

namespace Chain
variable {chain : Chain} {chains : List Chain}

theorem Headed.name_ne_rootName (h : Headed chain) : name chain ≠ Stylesheet.rootName := by
  obtain ⟨header, rest, rfl⟩ := List.exists_cons_of_ne_nil h.nonempty
  obtain ⟨cs, hcs⟩ := h.header header List.mem_cons_self
  intro heq
  have heq := congrArg String.toList heq
  rw [name, Text.toList_joinWith_cons, ← hcs] at heq
  exact absurd (congrArg List.head? heq) (by simp [Stylesheet.rootName])

theorem Named.mono {chains' : List Chain} (h : Named chains) (hs : chains' ⊆ chains) : Named chains' :=
  fun a ha b hb => h a (hs ha) b (hs hb)

theorem borderless_mark : Borderless [' ', '@'] := by
  intro x y h hx hy hprefix
  obtain ⟨c, x, rfl⟩ := List.exists_cons_of_ne_nil hx
  obtain ⟨c', y, rfl⟩ := List.exists_cons_of_ne_nil hy
  obtain ⟨rfl, -⟩ := List.cons_prefix_cons.mp hprefix
  cases x <;> simp at h

theorem Headed.marked (h : Headed chain) (hfree : ∀ header ∈ chain, ¬[' ', '@'] <:+: header.toList) :
    Marked [' ', '@'] " " chain where
  lacks := hfree
  begins header hmem := List.cons_prefix_cons.mpr ⟨rfl, h.header header hmem⟩

/-- Where no header holds a blank with a mark behind it, a name can be taken apart again. -/
theorem Named.ofHeaders (h : ∀ chain ∈ chains, Headed chain)
    (hfree : ∀ chain ∈ chains, ∀ header ∈ chain, ¬[' ', '@'] <:+: header.toList) : Named chains :=
  fun a ha b hb => Text.joinWith_inj borderless_mark ((h a ha).marked (hfree a ha)) ((h b hb).marked (hfree b hb))
    (h a ha).nonempty (h b hb).nonempty

end Chain

/-! ### Snapshots -/

theorem RuleTable.toJson_inj {t t' : RuleTable} : t.toJson = t'.toJson ↔ t.rules = t'.rules := by
  have hdeclaration : Function.Injective fun d : String × String => (d.1, Json.str d.2) := fun d d' h => by
    simp_all [Prod.ext_iff]
  have hrule : Function.Injective fun r : String × List (String × String) =>
      (r.1, Json.obj (r.2.map fun d => (d.1, .str d.2))) := fun r r' h => by
    obtain ⟨hselector, hdeclarations⟩ := Prod.mk.inj h
    exact Prod.ext hselector (List.map_injective_iff.mpr hdeclaration (Json.obj.inj hdeclarations))
  exact ⟨fun h => List.map_injective_iff.mpr hrule (Json.obj.inj h), fun h => by rw [toJson, h, toJson]⟩

theorem map_eq_map_iff_of_mem {α β γ : Type} {f : α → β} {g : α → γ} {l l' : List α}
    (h : ∀ a ∈ l, ∀ b ∈ l', f a = f b ↔ g a = g b) : l.map f = l'.map f ↔ l.map g = l'.map g := by
  induction l generalizing l' with
  | nil => cases l' <;> simp
  | cons a l ih =>
    cases l' with
    | nil => simp
    | cons b l' =>
      rw [List.map_cons, List.map_cons, List.map_cons, List.map_cons, List.cons.injEq, List.cons.injEq,
        h a List.mem_cons_self b List.mem_cons_self,
        ih fun a ha b hb => h a (List.mem_cons_of_mem _ ha) b (List.mem_cons_of_mem _ hb)]

namespace Stylesheet
variable {s s' : Stylesheet}

/-- The chains of the sheet, each with the rules of its bucket. -/
def bucketRules (s : Stylesheet) : List (Chain × List (String × List (String × String))) :=
  s.buckets.map fun b => (b.1, b.2.rules)

theorem fields_eq (s : Stylesheet) :
    s.fields = (rootName, s.root.toJson) :: s.buckets.map fun b => (Chain.name b.1, b.2.toJson) := rfl

theorem map_fst_fields (s : Stylesheet) : s.fields.map (·.1) = rootName :: s.chains.map Chain.name := by
  rw [fields_eq, List.map_cons, List.map_map, chains, List.map_map]
  rfl

theorem nodup_fields (hn : s.chains.Nodup) (hh : ∀ chain ∈ s.chains, Chain.Headed chain) (h : Chain.Named s.chains) :
    (s.fields.map (·.1)).Nodup := by
  rw [map_fst_fields, List.nodup_cons]
  refine ⟨fun hmem => ?_, hn.map_on fun a ha b hb => h a ha b hb⟩
  obtain ⟨chain, hchain, hname⟩ := List.mem_map.mp hmem
  exact (hh chain hchain).name_ne_rootName hname

/-- Where names are told apart, so are fields. -/
theorem fields_inj (h : Chain.Named (s.chains ++ s'.chains)) :
    s.fields = s'.fields ↔ s.root.rules = s'.root.rules ∧ s.bucketRules = s'.bucketRules := by
  have hfield : ∀ b ∈ s.buckets, ∀ b' ∈ s'.buckets,
      (Chain.name b.1, b.2.toJson) = (Chain.name b'.1, b'.2.toJson) ↔ (b.1, b.2.rules) = (b'.1, b'.2.rules) := by
    intro b hb b' hb'
    have hname : Chain.name b.1 = Chain.name b'.1 ↔ b.1 = b'.1 :=
      ⟨h _ (List.mem_append_left _ (List.mem_map_of_mem hb)) _ (List.mem_append_right _ (List.mem_map_of_mem hb')),
        congrArg Chain.name⟩
    rw [Prod.mk.injEq, Prod.mk.injEq, hname, RuleTable.toJson_inj]
  rw [fields_eq, fields_eq, List.cons.injEq, Prod.mk.injEq, RuleTable.toJson_inj, map_eq_map_iff_of_mem hfield]
  exact and_congr_left fun _ => and_iff_right rfl

/-- The entries of a snapshot: each name in its first place, with the rules that come last under it. -/
structure Snapshot (s : Stylesheet) (fields : List (String × Json)) : Prop where
  names : fields.map (·.1) = rootName :: distinct (s.chains.map Chain.name)
  root : Assoc.get? fields rootName = some s.root.toJson
  bucket : ∀ name, name ≠ rootName →
    Assoc.get? fields name = Assoc.get? (s.buckets.map fun b => (Chain.name b.1, b.2.toJson)).reverse name

theorem snapshot_ofEntries (hh : ∀ chain ∈ s.chains, Chain.Headed chain) : s.Snapshot (Assoc.ofEntries s.fields) := by
  have hnot : rootName ∉ s.chains.map Chain.name := fun hmem => by
    obtain ⟨chain, hchain, hname⟩ := List.mem_map.mp hmem
    exact (hh chain hchain).name_ne_rootName hname
  have hget (name : String) : Assoc.get? (Assoc.ofEntries s.fields) name =
      Assoc.get? ((s.buckets.map fun b => (Chain.name b.1, b.2.toJson)).reverse ++ [(rootName, s.root.toJson)]) name := by
    rw [Assoc.get?_ofEntries, fields_eq, List.reverse_cons]
  have hkeys : (s.buckets.map fun b => (Chain.name b.1, b.2.toJson)).reverse.map (·.1) =
      (s.chains.map Chain.name).reverse := by
    rw [List.map_reverse, List.map_map, chains, List.map_map]
    rfl
  refine ⟨?_, ?_, fun name hname => ?_⟩
  · rw [Assoc.map_fst_ofEntries, map_fst_fields, distinct, List.filter_eq_self.mpr]
    exact fun name hname => decide_eq_true fun heq => hnot (heq ▸ mem_distinct.mp hname)
  · have hnone : Assoc.get? (s.buckets.map fun b => (Chain.name b.1, b.2.toJson)).reverse rootName = none :=
      Assoc.get?_eq_none_iff.mpr (by rwa [hkeys, List.mem_reverse])
    rw [hget, Assoc.get?_append, hnone, Option.none_or, Assoc.get?_cons, if_pos rfl]
  · rw [hget, Assoc.get?_append, Assoc.get?_cons, if_neg (Ne.symm hname), Assoc.get?_nil, Option.or_none]

end Stylesheet

namespace Compiler
variable {c : Compiler} {s : Stylesheet}

/-- The sheet of a compiler is that of its resolved document. -/
theorem build_of_rules {o : Options} (h : (c.rules o).result = .ok s) : ∃ d, (Stylesheet.build d o).result = .ok s := by
  rw [rules, Report.result_bind] at h
  cases hd : c.resolved.result with
  | error e =>
    rw [hd] at h
    cases h
  | ok d =>
    rw [hd] at h
    exact ⟨d, h⟩

theorem snapshot_of_rules (h : (c.rules c.options).result = .ok s) :
    c.snapshot.result = .ok (.obj (Assoc.ofEntries s.fields)) := by
  rw [snapshot, Report.result_bind, h]
  rfl

theorem snapshot_of_named (h : (c.rules c.options).result = .ok s) (hnamed : Chain.Named s.chains) :
    c.snapshot.result = .ok (.obj s.fields) := by
  obtain ⟨d, hd⟩ := build_of_rules h
  have hnodup := Stylesheet.nodup_fields (Stylesheet.nodup_chains hd) (Stylesheet.headed_chains hd) hnamed
  rw [snapshot_of_rules h, Assoc.ofEntries_of_nodup hnodup]

end Compiler

/-- A compiler that makes a sheet makes a snapshot. Where different chains have different names, there is an entry for
    each, and the snapshots tell the sheets apart; and they have, unless a header holds a blank with a mark behind it. -/
theorem snapshot_holds_named_buckets {c : Compiler} {s : Stylesheet} (h : (c.rules c.options).result = .ok s) :
    (∃ fields, c.snapshot.result = .ok (.obj fields) ∧ s.Snapshot fields) ∧
    (Chain.Named s.chains → c.snapshot.result = .ok (.obj ((Stylesheet.rootName, s.root.toJson) ::
      s.buckets.map fun b => (Chain.name b.1, b.2.toJson)))) ∧
    ∀ (c' : Compiler) (s' : Stylesheet), (c'.rules c'.options).result = .ok s' →
      (Chain.Named (s.chains ++ s'.chains) →
        (c.snapshot.result = c'.snapshot.result ↔ s.root.rules = s'.root.rules ∧ s.bucketRules = s'.bucketRules)) ∧
      ((∀ chain ∈ s.chains ++ s'.chains, ∀ header ∈ chain, ¬[' ', '@'] <:+: header.toList) →
        Chain.Named (s.chains ++ s'.chains)) := by
  obtain ⟨d, hd⟩ := Compiler.build_of_rules h
  have hheaded := Stylesheet.headed_chains hd
  refine ⟨⟨_, Compiler.snapshot_of_rules h, Stylesheet.snapshot_ofEntries hheaded⟩, Compiler.snapshot_of_named h,
    fun c' s' h' => ?_⟩
  obtain ⟨d', hd'⟩ := Compiler.build_of_rules h'
  have hheaded' := Stylesheet.headed_chains hd'
  refine ⟨fun hnamed => ?_, Chain.Named.ofHeaders (List.forall_mem_append.mpr ⟨hheaded, hheaded'⟩)⟩
  rw [Compiler.snapshot_of_named h (hnamed.mono (List.subset_append_left ..)),
    Compiler.snapshot_of_named h' (hnamed.mono (List.subset_append_right ..)), Except.ok.injEq, Json.obj.injEq,
    Stylesheet.fields_inj hnamed]

/-- A compiler without extensions makes the sheet of its document. -/
theorem Compiler.rules_of_build {c : Compiler} (hc : c.registry = {}) {o : Options} {s : Stylesheet}
    (h : (Stylesheet.build c.document o).result = .ok s) : (c.rules o).result = .ok s := by
  have hquiet : Registry.Quiet {} c.document := fun _ _ _ _ => rfl
  rw [rules, resolved, hc, Registry.resolve, Registry.resolveBlock_of_quiet hquiet, pure_bind, h]

/-- A compiler with a bucket for one condition inside another, and one for a condition by itself. -/
def Compiler.conditions (outer inner alone color : String) : Compiler where
  document := {
    children := [
      .rule "p" [("margin", .str "0")] [],
      .rule outer [] [.rule inner [] [.rule "p" [("color", .str color)] []]],
      .rule alone [] [.rule "p" [("color", .str "blue")] []]] }

theorem snapshot_holds_named_buckets_media :
    let c := Compiler.conditions "@media a" "@supports b" "@media a and b" "red"
    let c' := Compiler.conditions "@media a" "@supports b" "@media a and b" "green"
    ∃ fields, c.snapshot.result = .ok (.obj fields) ∧ fields.length = 4 ∧ c.snapshot.result ≠ c'.snapshot.result := by
  intro c c'
  obtain ⟨s, hs⟩ : ∃ s, (Stylesheet.build c.document c.options).result = .ok s := ⟨_, rfl⟩
  obtain ⟨s', hs'⟩ : ∃ s', (Stylesheet.build c'.document c'.options).result = .ok s' := ⟨_, rfl⟩
  have hrules := Compiler.rules_of_build rfl hs
  have hrules' := Compiler.rules_of_build rfl hs'
  obtain ⟨-, hstream, hother⟩ := snapshot_holds_named_buckets hrules
  obtain ⟨hdiffer, hheaders⟩ := hother c' s' hrules'
  have hnamed : Chain.Named (s.chains ++ s'.chains) := hheaders (by cases hs; cases hs'; decide)
  refine ⟨_, hstream (hnamed.mono (List.subset_append_left ..)), by cases hs; rfl, fun heq => ?_⟩
  obtain ⟨-, hbuckets⟩ := (hdiffer hnamed).mp heq
  cases hs
  cases hs'
  exact absurd hbuckets (by decide)

/-- Two conditions, one inside the other, have the name of one condition that is written like both. -/
theorem nested_conditions_lose_bucket :
    let c := Compiler.conditions "@media a" "@media b" "@media a @media b" "red"
    let c' := Compiler.conditions "@media a" "@media b" "@media a @media b" "green"
    ∃ s s' fields, (c.rules c.options).result = .ok s ∧ (c'.rules c'.options).result = .ok s' ∧
      s.chains = [["@media a"], ["@media a", "@media b"], ["@media a @media b"]] ∧ s'.chains = s.chains ∧
      (s.table ["@media a", "@media b"]).rules = [("p", [("color", "red")])] ∧
      (s'.table ["@media a", "@media b"]).rules = [("p", [("color", "green")])] ∧
      c.snapshot.result = .ok (.obj fields) ∧ c'.snapshot.result = .ok (.obj fields) ∧
      fields.map (·.1) = ["mainstream", "@media a", "@media a @media b"] := by
  intro c c'
  obtain ⟨s, hs⟩ : ∃ s, (Stylesheet.build c.document c.options).result = .ok s := ⟨_, rfl⟩
  obtain ⟨s', hs'⟩ : ∃ s', (Stylesheet.build c'.document c'.options).result = .ok s' := ⟨_, rfl⟩
  have hrules := Compiler.rules_of_build rfl hs
  have hrules' := Compiler.rules_of_build rfl hs'
  refine ⟨s, s', _, hrules, hrules', ?_, ?_, ?_, ?_, Compiler.snapshot_of_rules hrules,
    (Compiler.snapshot_of_rules hrules').trans ?_, ?_⟩
  all_goals
    cases hs
    cases hs'
    rfl

end StyleTree
