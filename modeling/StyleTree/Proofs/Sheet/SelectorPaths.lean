import StyleTree.Proofs.Selector.Crossing
import StyleTree.Proofs.Sheet.Building

/-! Where the selectors of a built sheet come from. Each rule is written at a place of the walk, and each path
    of a place that no at-rule of its own stands over descends through one alternative of every selector
    key above. So what holds of alternatives one below the other holds of the selectors of a sheet. -/

namespace StyleTree

open Selector (alternatives descend)

/-! ### Selector keys -/

namespace Selector

/-- The selector keys that the paths below a key are made of, given those above it. Below an at-rule that is a
    path of its own there are none to give. -/
def below? (keys? : Option (List String)) (key : String) : Option (List String) :=
  match keyKind key with
  | .conditional _ => keys?
  | .keyframes _ => some []
  | .standalone _ => none
  | .selector text => keys?.map (· ++ [text])

/-- One alternative of each key. -/
def Chosen (as keys : List String) : Prop := List.Forall₂ (fun a key => a ∈ alternatives key) as keys

theorem Chosen.concat {as keys : List String} {a key : String} (h : Chosen as keys) (ha : a ∈ alternatives key) :
    Chosen (as ++ [a]) (keys ++ [key]) :=
  List.rel_append h (.cons ha .nil)

theorem Chosen.mem {as keys : List String} (h : Chosen as keys) : ∀ a ∈ as, Complete a.toList ∧ Solid a.toList := by
  induction h with
  | nil => exact fun _ ha => nomatch ha
  | cons ha _ ih => exact List.forall_mem_cons.mpr ⟨mem_alternatives ha, ih⟩

end Selector

/-- The selector keys that the paths at a place are made of: those from the last `@keyframes` on. -/
def Place.selectors? (p : Place) : Option (List String) := p.keys.foldl Selector.below? (some [])

/-- The paths at the place are those of the alternatives of the keys. -/
structure Place.Traced (p : Place) (keys : List String) : Prop where
  empty : p.paths = [] → keys = []
  path : ∀ path ∈ p.paths, ∃ as, Selector.Chosen as keys ∧ descend none as = some path

/-- The paths of a place that no at-rule of its own stands over come from its selector keys. -/
def Place.Sourced (p : Place) : Prop := ∀ keys, p.selectors? = some keys → p.Traced keys

/-- What a key does to the paths. -/
theorem Place.enter_cases {p q : Place} {key : String} (h : p.enter key = .ok q) : q.keys = p.keys ++ [key] ∧
    ((∃ header, Selector.keyKind key = .conditional header ∧ q.paths = p.paths) ∨
      (∃ header, Selector.keyKind key = .keyframes header ∧ q.paths = []) ∨
      (∃ header, Selector.keyKind key = .standalone header ∧ q.paths = [header]) ∨
      ∃ text as, Selector.keyKind key = .selector text ∧ Selector.splitAlternatives text = .ok as ∧
        q.paths = Selector.combine p.paths as) := by
  rw [enter] at h
  cases hkind : Selector.keyKind key with
  | conditional header =>
    rw [hkind] at h
    cases h
    exact ⟨rfl, .inl ⟨header, rfl, rfl⟩⟩
  | keyframes header =>
    rw [hkind] at h
    cases h
    exact ⟨rfl, .inr (.inl ⟨header, rfl, rfl⟩)⟩
  | standalone header =>
    rw [hkind] at h
    cases h
    exact ⟨rfl, .inr (.inr (.inl ⟨header, rfl, rfl⟩))⟩
  | selector text =>
    rw [hkind] at h
    dsimp only at h
    cases hs : Selector.splitAlternatives text with
    | error fault =>
      rw [hs] at h
      cases h
    | ok as =>
      rw [hs] at h
      cases h
      exact ⟨rfl, .inr (.inr (.inr ⟨text, as, rfl, hs, rfl⟩))⟩

theorem Place.Sourced.enter {p q : Place} {key : String} (h : p.Sourced) (hq : p.enter key = .ok q) : q.Sourced := by
  intro keys hkeys
  obtain ⟨hpath, hcases⟩ := Place.enter_cases hq
  have hbelow : q.selectors? = Selector.below? p.selectors? key := by
    rw [selectors?, hpath, List.foldl_concat]
    rfl
  rw [hbelow, Selector.below?] at hkeys
  rcases hcases with ⟨header, hkind, hpaths⟩ | ⟨header, hkind, hpaths⟩ | ⟨header, hkind, -⟩ | ⟨text, as, hkind, hs, hpaths⟩
  · rw [hkind] at hkeys
    obtain ⟨hempty, hpath⟩ := h keys hkeys
    exact ⟨hpaths ▸ hempty, hpaths ▸ hpath⟩
  · rw [hkind] at hkeys
    cases hkeys
    exact ⟨fun _ => rfl, by simp [hpaths]⟩
  · rw [hkind] at hkeys
    cases hkeys
  · rw [hkind] at hkeys
    obtain ⟨above, habove, rfl⟩ := Option.map_eq_some_iff.mp hkeys
    have has : alternatives text = as := by
      rw [alternatives, hs]
      rfl
    have hne := (Selector.splitAlternatives_cases hs).1
    refine ⟨fun hnil => absurd (hpaths.symm.trans hnil) (Selector.combine_ne_nil hne), fun path hpath => ?_⟩
    rw [hpaths] at hpath
    obtain ⟨a, ha, ⟨hroot, rfl⟩ | ⟨parent, hparent, rfl⟩⟩ := Selector.mem_combine_iff.mp hpath
    · obtain rfl := (h above habove).empty hroot
      have hchosen : Selector.Chosen [] [] := .nil
      exact ⟨[a], hchosen.concat (has ▸ ha), rfl⟩
    · obtain ⟨above', hchosen, hdescend⟩ := (h above habove).path parent hparent
      refine ⟨above' ++ [a], hchosen.concat (has ▸ ha), ?_⟩
      rw [Selector.descend_concat, hdescend]
      rfl

/-! ### Places of a walk -/

def Visit.place : Visit → Place
  | .block _ p _ => p
  | .raw p _ => p

section
variable {P : Place → Prop}

mutual

/-- What every key keeps below it holds at all places that the walk meets. -/
theorem Node.forall_visits (henter : ∀ p key q, P p → p.enter key = .ok q → P q) : {p : Place} → (n : Node) → P p →
    ∀ v ∈ n.visits p, P v.place
  | p, .raw text, h => by
    rw [visits]
    exact List.forall_mem_singleton.mpr h
  | p, .rule key ds cs, h => by
    rw [visits]
    cases hq : p.enter key with
    | error fault => exact fun _ hv => nomatch hv
    | ok q =>
      have hq := henter p key q h hq
      exact List.forall_mem_cons.mpr ⟨hq, Node.forall_listVisits henter cs hq⟩

theorem Node.forall_listVisits (henter : ∀ p key q, P p → p.enter key = .ok q → P q) : {p : Place} →
    (nodes : List Node) → P p → ∀ v ∈ listVisits p nodes, P v.place
  | p, [], _ => fun _ hv => nomatch hv
  | p, n :: rest, h => by
    rw [listVisits]
    exact List.forall_mem_append.mpr ⟨Node.forall_visits henter n h, Node.forall_listVisits henter rest h⟩

end

end

theorem Block.sourced_visits (d : Document) : ∀ v ∈ d.visits, v.place.Sourced := by
  have hroot : Place.Sourced {} := by
    intro keys hkeys
    cases hkeys
    exact ⟨fun _ => rfl, fun _ hpath => nomatch hpath⟩
  rw [visits]
  exact List.forall_mem_cons.mpr ⟨hroot, Node.forall_listVisits (fun _ _ _ h hq => h.enter hq) d.children hroot⟩

/-! ### Rules -/

/-- A block at the place writes the rule of the selector to the table of the chain. -/
structure Block.WritesRule (d : Document) (chain : Chain) (selector : String) (p : Place) : Prop where
  chain : p.chain = chain
  path : selector ∈ p.paths
  block : ∃ key? ds, .block key? p ds ∈ d.visits ∧ ∃ e ∈ ds, e.2.cssText? ≠ none

theorem Block.exists_writesRule {d : Document} {keepCamelCase : Bool} {chain : Chain} {f : Fact}
    (h : .fact f ∈ d.calls keepCamelCase chain) : ∃ p, d.WritesRule chain f.selector p := by
  obtain ⟨⟨chain', call⟩, hcall, hto⟩ := List.mem_filterMap.mp h
  split at hto
  · next hchain =>
    cases hto
    obtain ⟨v, hv, hcall⟩ := List.mem_flatMap.mp hcall
    cases v with
    | raw p text => cases List.mem_singleton.mp hcall
    | block key? p ds =>
      rw [Visit.calls] at hcall
      obtain ⟨e, he, hcall⟩ := List.mem_flatMap.mp hcall
      obtain ⟨text, htext, hcall⟩ := List.mem_flatMap.mp hcall
      obtain ⟨path, hpath, hfact⟩ := List.mem_map.mp hcall
      cases hfact
      have hsome : e.2.cssText? ≠ none := fun hnone => by
        rw [hnone] at htext
        cases htext
      exact ⟨p, hchain, hpath, key?, ds, hv, e, he, hsome⟩
  · cases hto

theorem Stylesheet.table_build {d : Document} {o : Options} {s : Stylesheet} (h : (build d o).result = .ok s) (chain : Chain) :
    s.table chain = RuleTable.ofCalls (d.calls o.keepCamelCase chain) := by
  have hempty : table {} chain = {} := by
    rw [table]
    split <;> rfl
  rw [(recorded h).1, hempty, Block.write?_events]
  rfl

/-- A rule is there because some block writes it. -/
theorem Stylesheet.exists_writesRule {d : Document} {o : Options} {s : Stylesheet} (h : (build d o).result = .ok s)
    {chain : Chain} {selector : String} {ds : List (String × String)} (hr : .rule selector ds ∈ (s.table chain).entries) :
    ∃ p, d.WritesRule chain selector p := by
  have hholds := RuleTable.Holds.ofCalls (d.calls o.keepCamelCase chain)
  rw [← table_build h] at hholds
  have hlabel : Label.rule selector ∈ (s.table chain).entries.map Entry.label := List.mem_map_of_mem hr
  rw [hholds.entries, Label.mem_firsts] at hlabel
  obtain ⟨c, hc, hlabel⟩ := List.mem_map.mp hlabel
  cases c with
  | raw text => cases hlabel
  | fact f =>
    cases hlabel
    exact Block.exists_writesRule hc

/-- Every rule of a built sheet is written at a place, and where its selector is made of selector keys only, it
    descends through one alternative of each. Such a selector is not blank, if there is more to the topmost
    alternative than marks and blanks, and it is one selector if the path above fits in the place of each mark. -/
theorem selectors_descend_through_alternatives {d : Document} {o : Options} {s : Stylesheet}
    (h : (Stylesheet.build d o).result = .ok s) {chain : Chain} {selector : String} {ds : List (String × String)}
    (hr : .rule selector ds ∈ (s.table chain).entries) :
    (∃ p, d.WritesRule chain selector p) ∧ ∀ p keys, d.WritesRule chain selector p → p.selectors? = some keys →
      (∃ as, Selector.Chosen as keys ∧ descend none as = some selector) ∧
      ∀ as, Selector.Chosen as keys → descend none as = some selector → (∀ a ∈ as.head?, Selector.top a ≠ "") →
        (selector ≠ "" ∧ Text.trim selector = selector) ∧
        (Selector.AllMarksFit none as → Selector.splitAlternatives selector = .ok [selector]) := by
  refine ⟨Stylesheet.exists_writesRule h hr, fun p keys hp hkeys => ⟨?_, fun as hchosen hdescend htop => ?_⟩⟩
  · obtain ⟨key?, ds', hv, -⟩ := hp.block
    have htraced := d.sourced_visits _ hv keys hkeys
    exact htraced.path selector hp.path
  · have hmem := hchosen.mem
    have hsolid := Selector.solid_descend (by simp) (fun a ha => (hmem a ha).2) (fun _ => htop) selector hdescend
    refine ⟨⟨fun hnil => hsolid.nonempty (String.toList_eq_nil_iff.mpr hnil), ?_⟩, fun hfit => ?_⟩
    · rw [Text.trim, hsolid.trimChars_eq, String.ofList_toList]
    · have hcomplete := Selector.complete_descend (by simp) (fun a ha => (hmem a ha).1) hfit selector hdescend
      exact Selector.splitAlternatives_of_complete hcomplete hsolid

/-- Two marks, one of them in quotes, below a key of two alternatives and a condition. -/
def Document.marked : Document where
  children := [.rule "a, b" [] [.rule "@media print" [] [.rule ".x &[title='&']" [("color", .str "red")] []]]]

theorem selectors_descend_through_alternatives_marked :
    ∃ s, (Stylesheet.build Document.marked {}).result = .ok s ∧
      .rule ".x a[title='a']" [("color", "red")] ∈ (s.table ["@media print"]).entries ∧
      Selector.splitAlternatives ".x a[title='a']" = .ok [".x a[title='a']"] := by
  obtain ⟨s, hs⟩ : ∃ s, (Stylesheet.build Document.marked {}).result = .ok s := ⟨_, rfl⟩
  have hrule : .rule ".x a[title='a']" [("color", "red")] ∈ (s.table ["@media print"]).entries := by
    cases hs
    decide
  obtain ⟨-, hmade⟩ := selectors_descend_through_alternatives hs hrule
  have hp : Document.marked.WritesRule ["@media print"] ".x a[title='a']"
      ⟨[".x a[title='a']", ".x b[title='b']"], ["@media print"], ["a, b", "@media print", ".x &[title='&']"]⟩ := by
    refine ⟨rfl, List.mem_cons_self, some ".x &[title='&']", [("color", .str "red")], ?_, _, List.mem_cons_self, by decide⟩
    exact .tail _ (.tail _ (.tail _ (.head _)))
  obtain ⟨-, hsplit⟩ := hmade _ ["a, b", ".x &[title='&']"] hp (by decide)
  have hchosen : Selector.Chosen ["a", ".x &[title='&']"] ["a, b", ".x &[title='&']"] :=
    .cons (by decide) (.cons (by decide) .nil)
  exact ⟨s, hs, hrule, (hsplit _ hchosen (by decide) (by decide)).2 (by decide)⟩

/-- A mark behind a backslash takes the bracket that the path begins with from the one that closes it. -/
def Document.escapedMark : Document where
  children := [.rule "[a]" [] [.rule "\\&" [("color", .str "red")] []]]

theorem escapedMark_breaks_selector :
    ∃ s p, (Stylesheet.build Document.escapedMark {}).result = .ok s ∧
      .rule "\\[a]" [("color", "red")] ∈ (s.table []).entries ∧ Document.escapedMark.WritesRule [] "\\[a]" p ∧
      p.selectors? = some ["[a]", "\\&"] ∧ Selector.splitAlternatives "\\[a]" = .error (.unbalanced ']') := by
  refine ⟨_, ⟨["\\[a]"], [], ["[a]", "\\&"]⟩, rfl, by decide, ?_, by decide, by decide⟩
  refine ⟨rfl, List.mem_cons_self, some "\\&", [("color", .str "red")], ?_, _, List.mem_cons_self, by decide⟩
  exact .tail _ (.tail _ (.head _))

end StyleTree
