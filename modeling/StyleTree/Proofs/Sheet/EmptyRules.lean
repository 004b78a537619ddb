import StyleTree.Proofs.Document.Texts
import StyleTree.Proofs.Grouping.Turns
import StyleTree.Proofs.Sheet.Accounting
import StyleTree.Proofs.Sheet.RuleIndex
import StyleTree.Proofs.Sheet.Snapshot
import StyleTree.Sheet.Css

/-! Empty rules leave no trace. A subtree of which no declaration has a text and no key opens a bucket gives no
    events, so a sheet is built the same without it. In the tables of a sheet every rule holds a declaration, so
    does every unit, and a bucket without facts is left out of the text. -/

namespace StyleTree

/-! ### Bare subtrees -/

/-- No declaration of the block or below it has a text, and no key below it opens a bucket. -/
inductive Block.Bare : Block → Prop
  | intro {b : Block} : (∀ d ∈ b.declarations, d.2.cssText? = none) →
      (∀ key c, .ofBlock key c ∈ b.children → Selector.header? key = none) →
      (∀ key c, .ofBlock key c ∈ b.children → Bare c) → Bare b

section
variable {keepCamelCase : Bool} {p q : Place} {key : String}

theorem Place.bucketEvents_of_enter (hkey : Selector.header? key = none) (hq : p.enter key = .ok q) :
    p.bucketEvents q = [] := by
  have hchain := chain_enter hq
  rw [Selector.header?] at hkey
  split at hkey
  · cases hkey
  · cases hkey
  · next hkind => rw [hkind] at hchain; exact if_pos hchain
  · next hkind => rw [hkind] at hchain; exact if_pos hchain

theorem Node.events_ofBlock (hq : p.enter key = .ok q) (c : Block) :
    (ofBlock key c).events keepCamelCase p = p.bucketEvents q ++ c.events keepCamelCase q := by
  rw [ofBlock, events, hq]
  exact List.append_assoc ..

theorem Node.mem_listEvents_iff {nodes : List Node} {e : Event} :
    e ∈ listEvents keepCamelCase p nodes ↔ ∃ n ∈ nodes, e ∈ n.events keepCamelCase p := by
  induction nodes with
  | nil => simp [listEvents]
  | cons n rest ih => rw [listEvents, List.mem_append, ih, List.exists_mem_cons_iff]

/-- A bare subtree without raw texts gives no events, if all its keys split. -/
theorem Block.Bare.events_eq_nil {b : Block} (hb : b.Bare) (ht : b.Textless)
    (hsplit : ∀ position path n, b.Leads position path n → ∃ q, path.foldlM Place.enter p = .ok q) :
    b.events keepCamelCase p = [] := by
  induction hb generalizing p with
  | @intro b hdeclarations hkeys _ ih =>
    obtain ⟨hraw, hbelow⟩ := Block.textless_iff.mp ht
    refine List.append_eq_nil_iff.mpr ⟨List.flatMap_eq_nil_iff.mpr fun d hd => ?_, ?_⟩
    · rw [Place.declarationEvents, hdeclarations d hd]
    · refine List.eq_nil_iff_forall_not_mem.mpr fun e he => ?_
      obtain ⟨n, hn, he⟩ := Node.mem_listEvents_iff.mp he
      cases n with
      | raw text => exact hraw text hn
      | rule key ds cs =>
        obtain ⟨i, hi⟩ := List.getElem?_of_mem hn
        have hleads {position path n} (h : Block.Leads ⟨ds, cs⟩ position path n) :
            b.Leads (i :: position) (key :: path) n := .child (c := ⟨ds, cs⟩) hi h
        cases hq : p.enter key with
        | error fault =>
          obtain ⟨q, hplace⟩ := hsplit _ _ _ (hleads (.here _))
          rw [List.foldlM_cons, hq] at hplace
          cases hplace
        | ok q =>
          have hnil : Block.events ⟨ds, cs⟩ keepCamelCase q = [] := by
            refine ih key ⟨ds, cs⟩ hn (hbelow key ⟨ds, cs⟩ hn) fun position path n h => ?_
            obtain ⟨q', hplace⟩ := hsplit _ _ _ (hleads h)
            rw [List.foldlM_cons, hq] at hplace
            exact ⟨q', hplace⟩
          have hevents : (Node.ofBlock key ⟨ds, cs⟩).events keepCamelCase p = [] := by
            rw [Node.events_ofBlock hq, Place.bucketEvents_of_enter (hkeys key ⟨ds, cs⟩ hn) hq, hnil, List.nil_append]
          exact List.not_mem_nil (hevents ▸ he)

/-! ### Detaching -/

theorem Node.listEvents_filter {nodes : List Node} {keep : Node → Bool}
    (h : ∀ n ∈ nodes, keep n = false → n.events keepCamelCase p = []) :
    listEvents keepCamelCase p (nodes.filter keep) = listEvents keepCamelCase p nodes := by
  induction nodes with
  | nil => rfl
  | cons n rest ih =>
    obtain ⟨hn, hrest⟩ := List.forall_mem_cons.mp h
    cases hkeep : keep n with
    | true => rw [List.filter_cons_of_pos hkeep, listEvents, listEvents, ih hrest]
    | false => rw [List.filter_cons_of_neg (by simp [hkeep]), listEvents, hn hkeep, List.nil_append, ih hrest]

theorem Block.listEvents_mapChild {b c : Block} {f : Block → Block} (hc : b.child? key = some c)
    (hf : ∀ q, p.enter key = .ok q → (f c).events keepCamelCase q = c.events keepCamelCase q) :
    Node.listEvents keepCamelCase p (mapChild key f b.children) = Node.listEvents keepCamelCase p b.children := by
  obtain ⟨ds, children⟩ := b
  induction children with
  | nil => rfl
  | cons n rest ih =>
    cases n with
    | raw text => rw [mapChild, Node.listEvents, Node.listEvents, ih (child?_raw ds text rest key ▸ hc)]
    | rule k ds' cs =>
      rw [child?_rule] at hc
      rw [mapChild]
      split at hc
      · next hk =>
        cases hc
        rw [if_pos hk, Node.listEvents, Node.listEvents]
        congr 1
        subst hk
        cases hq : p.enter k with
        | error fault => rw [Node.ofBlock, Node.events, Node.events, hq]
        | ok q =>
          have hrule : Node.rule k ds' cs = .ofBlock k ⟨ds', cs⟩ := rfl
          rw [hrule, Node.events_ofBlock hq, Node.events_ofBlock hq, hf q hq]
      · next hk => rw [if_neg hk, Node.listEvents, Node.listEvents, ih hc]

/-- A change of one block that keeps its events keeps those of the document. -/
theorem Block.events_modifyAt {d n : Block} {path : KeyPath} {f : Block → Block} (h : d.at? path = some n)
    (hf : ∀ q, path.foldlM Place.enter p = .ok q → (f n).events keepCamelCase q = n.events keepCamelCase q) :
    (modifyAt f path d).events keepCamelCase p = d.events keepCamelCase p := by
  induction path generalizing d p with
  | nil =>
    cases h
    exact hf p rfl
  | cons key rest ih =>
    obtain ⟨c, hc, hn⟩ := Option.bind_eq_some_iff.mp h
    rw [modifyAt, events, events, Block.listEvents_mapChild hc]
    intro q hq
    refine ih hn fun q' hq' => hf q' ?_
    rw [List.foldlM_cons, hq]
    exact hq'

end

theorem Block.Textless.of_leads {b n : Block} {position : List Nat} {path : KeyPath} (hb : b.Textless)
    (h : b.Leads position path n) : n.Textless := by
  induction h with
  | here b => exact hb
  | child hi _ ih => exact ih ((Block.textless_iff.mp hb).2 _ _ (List.mem_of_getElem? hi))

theorem Block.TextlessBelow.of_leads {b n : Block} {position : List Nat} {path : KeyPath} (hb : b.TextlessBelow)
    (h : b.Leads position path n) (hpath : path ≠ []) : n.Textless := by
  cases h with
  | here => exact absurd rfl hpath
  | child hi h => exact (hb _ _ (List.mem_of_getElem? hi)).of_leads h

namespace Stylesheet
variable {d : Document} {n : Block} {o : Options} {s : Stylesheet} {position : List Nat} {path : KeyPath} {key : String}

/-- A bare block below the root of a document that is built gives no events where the walk meets it. -/
theorem events_of_bare (hd : d.Reached) (h : (build d o).result = .ok s) (hn : d.Leads position (path ++ [key]) n)
    (hkey : Selector.header? key = none) (hbare : n.Bare) {p : Place} (hp : KeyPath.place path = .ok p) :
    (Node.ofBlock key n).events o.keepCamelCase p = [] := by
  obtain ⟨q, hq⟩ := exists_place_of_build h hn
  have henter : p.enter key = .ok q := by
    rw [KeyPath.place_concat, hp] at hq
    exact hq
  have htextless : n.Textless := hd.textlessBelow.of_leads hn (by simp)
  rw [Node.events_ofBlock henter, Place.bucketEvents_of_enter hkey henter, List.nil_append]
  refine hbare.events_eq_nil htextless fun position' path' n' hn' => ?_
  obtain ⟨q', hq'⟩ := exists_place_of_build h (hn.append hn')
  rw [KeyPath.place, List.foldlM_append, ← KeyPath.place, hq] at hq'
  exact ⟨q', hq'⟩

theorem events_detach_of_bare (hd : d.Reached) (h : (build d o).result = .ok s)
    (hn : d.Leads position (path ++ [key]) n) (hkey : Selector.header? key = none) (hbare : n.Bare) :
    (d.modifyAt (·.detach key) path).events o.keepCamelCase {} = d.events o.keepCamelCase {} := by
  obtain ⟨position', m, hm, hmem⟩ := hn.parent
  obtain ⟨hwf, hat⟩ := hm.at?_eq hd.wellFormed
  refine Block.events_modifyAt hat fun p hp => ?_
  rw [Block.events, Block.events]
  refine congrArg _ (Node.listEvents_filter fun n' hn' hkeep => ?_)
  have hhas : n'.hasKey key = true := by simpa using hkeep
  cases n' with
  | raw text => cases hhas
  | rule k ds cs =>
    obtain rfl : k = key := Option.some.inj (Node.hasKey_iff.mp hhas)
    have hchild := Block.child?_of_mem hwf.childKeys_nodup hmem
    have hchild' := Block.child?_of_mem hwf.childKeys_nodup (c := ⟨ds, cs⟩) hn'
    obtain rfl : n = ⟨ds, cs⟩ := Option.some.inj (hchild.symm.trans hchild')
    exact events_of_bare hd h hn hkey hbare hp

end Stylesheet

/-! ### Empty buckets -/

section
variable {keepCamelCase : Bool} {p : Place} {chain : Chain} {text : String}

theorem Block.exists_raw_event {b : Block} (h : .raw chain text ∈ b.events keepCamelCase p) :
    ∃ n ∈ b.children, .raw chain text ∈ n.events keepCamelCase p := by
  rcases List.mem_append.mp h with h | h
  · obtain ⟨d, -, hd⟩ := List.mem_flatMap.mp h
    rw [← Place.filter_declarationEvents] at hd
    cases (List.mem_filter.mp hd).2
  · exact Node.mem_listEvents_iff.mp h

theorem Node.exists_raw_event {key : String} {c : Block}
    (h : .raw chain text ∈ (ofBlock key c).events keepCamelCase p) :
    ∃ q, .raw chain text ∈ c.events keepCamelCase q := by
  cases hq : p.enter key with
  | error fault =>
    rw [ofBlock, events, hq] at h
    cases List.mem_singleton.mp h
  | ok q =>
    rw [events_ofBlock hq, List.mem_append] at h
    refine ⟨q, h.resolve_left fun hbucket => ?_⟩
    rw [Place.bucketEvents] at hbucket
    split at hbucket
    · cases hbucket
    · cases List.mem_singleton.mp hbucket

theorem Block.Textless.raw_not_mem_events {b : Block} (hb : b.Textless) :
    .raw chain text ∉ b.events keepCamelCase p := by
  induction hb generalizing p with
  | intro hraw _ ih =>
    intro h
    obtain ⟨n, hn, h⟩ := Block.exists_raw_event h
    cases n with
    | raw text => exact hraw text hn
    | rule key ds cs =>
      obtain ⟨q, h⟩ := Node.exists_raw_event (c := ⟨ds, cs⟩) h
      exact ih key ⟨ds, cs⟩ hn h

/-- Where raw texts stand at the root only, they go to the table of the root. -/
theorem Block.TextlessBelow.chain_of_raw_event {d : Document} (hd : d.TextlessBelow)
    (h : .raw chain text ∈ d.events keepCamelCase {}) : chain = [] := by
  obtain ⟨n, hn, h⟩ := Block.exists_raw_event h
  cases n with
  | raw text' =>
    cases List.mem_singleton.mp h
    rfl
  | rule key ds cs =>
    obtain ⟨q, h⟩ := Node.exists_raw_event (c := ⟨ds, cs⟩) h
    exact absurd h (hd key ⟨ds, cs⟩ hn).raw_not_mem_events

theorem Block.calls_eq_nil {d : Document} (hd : d.TextlessBelow) (hchain : chain ≠ [])
    (hfacts : ∀ f, .fact f ∉ d.calls keepCamelCase chain) : d.calls keepCamelCase chain = [] := by
  refine List.eq_nil_iff_forall_not_mem.mpr fun c hc => ?_
  cases c with
  | fact f => exact hfacts f hc
  | raw text =>
    rw [Block.calls, ← Block.write?_events] at hc
    obtain ⟨x, hx, hto⟩ := List.mem_filterMap.mp hc
    obtain ⟨e, he, hwrite⟩ := List.mem_filterMap.mp hx
    rw [Option.ite_none_right_eq_some] at hto
    obtain ⟨rfl, hx⟩ := hto
    cases e with
    | raw chain' text' =>
      cases hwrite
      exact hchain (hd.chain_of_raw_event he)
    | fact chain' f =>
      cases hwrite
      cases hx
    | bucket _ | dropped _ _ | malformed _ _ _ => cases hwrite

end

namespace Stylesheet
variable {d : Document} {o : Options} {s : Stylesheet} {chain : Chain} {table : RuleTable}

theorem table_of_mem_buckets (h : (build d o).result = .ok s) (hb : (chain, table) ∈ s.buckets) :
    chain ≠ [] ∧ s.table chain = table := by
  have hne := (headed_chains h chain (List.mem_map_of_mem hb)).nonempty
  refine ⟨hne, ?_⟩
  rw [Stylesheet.table, if_neg hne, bucket?, Assoc.get?_of_mem (nodup_chains h) hb, Option.getD_some]

/-- Every table of a built sheet is one that calls build. -/
theorem wellFormed_tables (h : (build d o).result = .ok s) : ∀ t ∈ s.root :: s.buckets.map (·.2), t.WellFormed := by
  have htable (chain : Chain) : (s.table chain).WellFormed := table_build h chain ▸ .ofCalls _
  refine List.forall_mem_cons.mpr ⟨htable [], fun t ht => ?_⟩
  obtain ⟨⟨chain, t⟩, hb, rfl⟩ := List.mem_map.mp ht
  exact (table_of_mem_buckets h hb).2 ▸ htable chain

/-- A bucket without rules is empty, since every fact makes a rule and raw texts go to the root. -/
theorem table_eq_empty (hd : d.Reached) (h : (build d o).result = .ok s) (hb : (chain, table) ∈ s.buckets)
    (hrules : table.rules = []) : table = {} := by
  obtain ⟨hne, rfl⟩ := table_of_mem_buckets h hb
  rw [table_build h] at hrules ⊢
  have hfacts : ∀ f, .fact f ∉ d.calls o.keepCamelCase chain := by
    intro f hf
    obtain ⟨i, ds, hi⟩ := (RuleTable.exists_ruleAt_iff (.ofCalls _)).mpr ⟨f, hf, rfl⟩
    have hrule := RuleTable.mem_rules_iff.mpr ⟨i, hi⟩
    rw [hrules] at hrule
    cases hrule
  rw [Block.calls_eq_nil hd.textlessBelow hne hfacts]
  rfl

end Stylesheet

namespace Grouping
variable {o : Options} {s : Stylesheet}

theorem exists_table_of_unit {u : SheetUnit} (hu : u ∈ (sheet s o).root ++ (sheet s o).atRules.flatMap AtRule.units) :
    ∃ t ∈ s.root :: s.buckets.map (·.2), u ∈ units t o := by
  rcases List.mem_append.mp hu with hu | hu
  · exact ⟨s.root, List.mem_cons_self, hu⟩
  · obtain ⟨a, ha, hu⟩ := List.mem_flatMap.mp hu
    obtain ⟨b, hb, rfl⟩ := List.mem_map.mp ha
    exact ⟨b.2, List.mem_cons_of_mem _ (List.mem_map_of_mem hb), hu⟩

theorem declarations_ne_nil {t : RuleTable} (wf : t.WellFormed) {u : SheetUnit} (hu : u ∈ units t o) {r : StyleRule}
    (hr : u.rule? = some r) : r.declarations ≠ [] := by
  obtain ⟨turns, hturns⟩ := exists_turns wf o
  obtain ⟨i, selector, ds, -, hled⟩ := hturns.exists_ledBy hu hr
  cases hled with
  | solo _ hexcerpt | group _ _ hexcerpt =>
    cases hr
    exact hexcerpt.nonempty

/-- An empty bucket adds nothing to the text of a sheet. -/
theorem css_sheet_of_empty {before after : List (Chain × RuleTable)} {chain : Chain}
    (hb : s.buckets = before ++ (chain, {}) :: after) (minify : Bool) :
    (sheet s o).css minify = (sheet { s with buckets := before ++ after } o).css minify := by
  have hempty (style : CssStyle) : AtRule.css style ⟨chain, units {} o⟩ = "" := rfl
  simp only [GroupedSheet.css, sheet, hb, List.map_append, List.map_cons, String.join_append, String.join_cons, hempty,
    String.empty_append]

end Grouping

/-- Empty rules leave no trace in a sheet. It is the same without a block on which, and below which, no declaration has
    a text and no key opens a bucket. None of its rules and none of its units is without declarations, and a bucket
    without rules adds nothing to its text. -/
theorem empty_rules_leave_no_trace {d : Document} (hd : d.Reached) {o : Options} {s : Stylesheet}
    (h : (Stylesheet.build d o).result = .ok s) :
    (∀ position path key n, d.Leads position (path ++ [key]) n → Selector.header? key = none → n.Bare →
        Stylesheet.build (d.modifyAt (·.detach key) path) o = Stylesheet.build d o) ∧
      (∀ t ∈ s.root :: s.buckets.map (·.2), ∀ selector ds, .rule selector ds ∈ t.entries → ds ≠ []) ∧
      (∀ u ∈ (Grouping.sheet s o).root ++ (Grouping.sheet s o).atRules.flatMap AtRule.units,
        ∀ r, u.rule? = some r → r.declarations ≠ []) ∧
      ∀ before chain table after, s.buckets = before ++ (chain, table) :: after →
        table.rules = [] → ∀ minify,
          (Grouping.sheet s o).css minify = (Grouping.sheet { s with buckets := before ++ after } o).css minify := by
  have htables := Stylesheet.wellFormed_tables h
  refine ⟨fun position path key n hn hkey hbare => ?_, fun t ht selector ds hrule => (htables t ht).nonempty hrule,
    fun u hu r hr => ?_, fun before chain table after hb hrules minify => ?_⟩
  · simp only [Stylesheet.build, Stylesheet.events_detach_of_bare hd h hn hkey hbare]
  · obtain ⟨t, ht, hut⟩ := Grouping.exists_table_of_unit hu
    exact Grouping.declarations_ne_nil (htables t ht) hut hr
  · have hmem : (chain, table) ∈ s.buckets := hb ▸ List.mem_append_right _ List.mem_cons_self
    cases Stylesheet.table_eq_empty hd h hmem hrules
    exact Grouping.css_sheet_of_empty hb minify

/-- A block with an empty value and an empty block below it, and a condition without declarations. -/
theorem empty_rules_leave_no_trace_nested :
    let m : List (String × Json) := [
      ("a", .obj [("color", .str "red"), ("b", .obj [("top", .null), ("c", .obj [])])]), ("@media print", .obj [])]
    let n : Block := ⟨[("top", .null)], [.rule "c" [] []]⟩
    let d : Document := ⟨[], [.rule "a" [("color", .str "red")] [.ofBlock "b" n], .rule "@media print" [] []]⟩
    ∃ s, ({} : Document).merge (.obj m) = .ok d ∧ (Json.obj m).WellFormed ∧ (Stylesheet.build d {}).result = .ok s ∧
      d.Leads [0, 0] ["a", "b"] n ∧ Selector.header? "b" = none ∧ n.Bare ∧
      Stylesheet.build (d.modifyAt (·.detach "b") ["a"]) {} = Stylesheet.build d {} ∧
      s.buckets = [(["@media print"], {})] ∧
      (Grouping.sheet s {}).css false = (Grouping.sheet { s with buckets := [] } {}).css false := by
  intro m n d
  have hm : (Json.obj m).WellFormed := by decide
  have hmerge : ({} : Document).merge (.obj m) = .ok d := by cbv
  have hd : d.Reached := .merge .new hm hmerge
  obtain ⟨s, hs⟩ : ∃ s, (Stylesheet.build d {}).result = .ok s := ⟨_, rfl⟩
  have hn : d.Leads [0, 0] ["a", "b"] n :=
    .child (c := ⟨[("color", .str "red")], [.ofBlock "b" n]⟩) rfl (.child rfl (.here n))
  have hkey : Selector.header? "b" = none := by decide
  have hc : Block.Bare {} := .intro (by simp) (by simp) (by simp)
  have hchild : ∀ key c, .ofBlock key c ∈ n.children → key = "c" ∧ c = {} := fun key c h =>
    Node.ofBlock_inj.mp (List.mem_singleton.mp h)
  have hbare : n.Bare := .intro (by decide) (fun key c h => (hchild key c h).1 ▸ by decide) fun key c h =>
    (hchild key c h).2 ▸ hc
  have hbuckets : s.buckets = [(["@media print"], {})] := by
    cases hs
    rfl
  obtain ⟨hsame, -, -, hcss⟩ := empty_rules_leave_no_trace hd hs
  exact ⟨s, hmerge, hm, hs, hn, hkey, hbare, hsame [0, 0] ["a"] "b" n hn hkey hbare, hbuckets,
    hcss [] _ _ [] hbuckets rfl false⟩

end StyleTree
