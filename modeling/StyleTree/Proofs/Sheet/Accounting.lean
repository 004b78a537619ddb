import StyleTree.Proofs.Sheet.MalformedKeys
import StyleTree.Proofs.Sheet.Outline

/-! Every declaration of a built document is accounted for. Whether it is stated or dropped is read off the keys
    above it: it is stated if a selector or an at-rule of its own stands between it and the next `@keyframes`
    above. What is stated goes to the table of the at-rules above, once for each path, and what is dropped is
    warned of. -/

namespace StyleTree

/-! ### Keys -/

namespace Selector

/-- The header that a condition or `@keyframes` adds to the chain. -/
def header? (key : String) : Option String :=
  match keyKind key with
  | .conditional header | .keyframes header => some header
  | .standalone _ | .selector _ => none

/-- Whether declarations below the key have paths on its account: a selector, or an at-rule of its own. -/
def givesPaths (key : String) : Bool :=
  match keyKind key with
  | .standalone _ | .selector _ => true
  | .conditional _ | .keyframes _ => false

end Selector

namespace KeyPath

/-- The chain of the at-rules on the way. -/
def chain (path : KeyPath) : Chain := path.filterMap Selector.header?

/-- A key gives paths that is not above the last `@keyframes`. -/
def Anchored (path : KeyPath) : Prop :=
  ∃ key ∈ path.reverse.takeWhile fun key => !Selector.isFrame key, Selector.givesPaths key = true

/-- The place that the keys lead to from the root. -/
def place (path : KeyPath) : Except KeyFault Place := path.foldlM Place.enter {}

variable {path : KeyPath} {key : String}

theorem chain_concat (path : KeyPath) (key : String) : chain (path ++ [key]) = chain path ++ (Selector.header? key).toList := by
  rw [chain, List.filterMap_append]
  cases h : Selector.header? key <;> simp [chain, h]

theorem anchored_concat_iff : Anchored (path ++ [key]) ↔
    Selector.isFrame key = false ∧ (Selector.givesPaths key = true ∨ Anchored path) := by
  rw [Anchored, List.reverse_append, List.reverse_singleton, List.singleton_append, List.takeWhile_cons]
  cases h : Selector.isFrame key <;> simp [Anchored]

theorem place_concat (path : KeyPath) (key : String) : place (path ++ [key]) = (place path).bind fun p => p.enter key := by
  rw [place, List.foldlM_append]
  simp only [List.foldlM_cons, List.foldlM_nil, bind_pure]
  rfl

/-- There is no place below keys that lead to none. -/
theorem place_append_of_error {fault : KeyFault} (h : place path = .error fault) (rest : KeyPath) :
    place (path ++ rest) = .error fault := by
  rw [place] at h
  rw [place, List.foldlM_append, h]
  rfl

end KeyPath

/-- What the keys on the way to a place say about it. -/
structure Place.Below (path : KeyPath) (p : Place) : Prop where
  keys : p.keys = path
  chain : p.chain = KeyPath.chain path
  paths : p.paths ≠ [] ↔ KeyPath.Anchored path
  nodup : p.paths.Nodup

theorem Place.Below.root : Place.Below [] {} where
  keys := rfl
  chain := rfl
  paths := by simp [KeyPath.Anchored]
  nodup := .nil

theorem Place.Below.enter {path : KeyPath} {key : String} {p q : Place} (h : p.Below path) (hq : p.enter key = .ok q) :
    q.Below (path ++ [key]) := by
  have hchain : q.chain = KeyPath.chain (path ++ [key]) := by
    rw [p.chain_enter hq, KeyPath.chain_concat, ← h.chain, Selector.header?]
    cases Selector.keyKind key <;> simp
  have hpaths : KeyPath.Anchored (path ++ [key]) ↔
      Selector.isFrame key = false ∧ (Selector.givesPaths key = true ∨ p.paths ≠ []) := by
    rw [KeyPath.anchored_concat_iff, h.paths]
  obtain ⟨hkeys, hcases⟩ := Place.enter_cases hq
  have hkeys : q.keys = path ++ [key] := hkeys.trans (congrArg (· ++ [key]) h.keys)
  rw [Selector.isFrame, Selector.givesPaths] at hpaths
  rcases hcases with ⟨header, hkind, hq⟩ | ⟨header, hkind, hq⟩ | ⟨header, hkind, hq⟩ | ⟨text, as, hkind, hs, hq⟩
  · rw [hkind] at hpaths
    exact ⟨hkeys, hchain, by simp [hpaths, hq], hq ▸ h.nodup⟩
  · rw [hkind] at hpaths
    exact ⟨hkeys, hchain, by simp [hpaths, hq], by simp [hq]⟩
  · rw [hkind] at hpaths
    exact ⟨hkeys, hchain, by simp [hpaths, hq], by simp [hq]⟩
  · rw [hkind] at hpaths
    have hne : q.paths ≠ [] := hq ▸ Selector.combine_ne_nil (Selector.splitAlternatives_cases hs).1
    exact ⟨hkeys, hchain, by simp [hpaths, hne], hq ▸ Selector.nodup_distinct _⟩

theorem KeyPath.below_of_place {path : KeyPath} {p : Place} (h : KeyPath.place path = .ok p) : p.Below path := by
  induction path using List.reverseRecOn generalizing p with
  | nil =>
    cases h
    exact .root
  | append_singleton path key ih =>
    rw [place_concat] at h
    cases hpath : KeyPath.place path with
    | error fault =>
      rw [hpath] at h
      cases h
    | ok q =>
      rw [hpath] at h
      exact (ih hpath).enter h

/-! ### Events of declarations -/

namespace Event

/-- Whether the event is about a declaration. -/
def isDeclared : Event → Bool
  | .fact _ _ | .dropped _ _ => true
  | .bucket _ | .raw _ _ | .malformed _ _ _ => false

def fact? : Event → Option (Chain × Fact)
  | .fact chain f => some (chain, f)
  | .bucket _ | .raw _ _ | .dropped _ _ | .malformed _ _ _ => none

theorem filterMap_filter_isDeclared {α : Type} {f : Event → Option α} (hf : ∀ e, isDeclared e = false → f e = none)
    (events : List Event) : (events.filter isDeclared).filterMap f = events.filterMap f := by
  rw [List.filterMap_filter]
  refine List.filterMap_congr fun e _ => ?_
  split
  · rfl
  · next h => exact (hf e (by simpa using h)).symm

end Event

/-- The events of the declaration at the place that its keys lead to. -/
def Declaration.events (keepCamelCase : Bool) (x : Declaration) : List Event :=
  match KeyPath.place x.path with
  | .error _ => []
  | .ok p => p.declarationEvents keepCamelCase x.name x.value

theorem Place.filter_declarationEvents (p : Place) (keepCamelCase : Bool) (name : String) (value : Json) :
    (p.declarationEvents keepCamelCase name value).filter Event.isDeclared = p.declarationEvents keepCamelCase name value := by
  rw [declarationEvents]
  cases value.cssText? with
  | none => rfl
  | some text =>
    dsimp only
    split
    · rfl
    · rw [List.filter_map]
      exact congrArg _ (List.filter_eq_self.mpr fun _ _ => rfl)

/-- The events of the declarations of a block that stands below the keys `above`. -/
def Located.events (keepCamelCase : Bool) (above : KeyPath) (l : Located) : List Event :=
  l.block.declarations.flatMap fun d => Declaration.events keepCamelCase ⟨above ++ l.path, d.1, d.2⟩

section
variable (keepCamelCase : Bool)

theorem Located.events_under (above : KeyPath) (i : Nat) (key : String) (l : Located) :
    (l.under i key).events keepCamelCase above = l.events keepCamelCase (above ++ [key]) := by
  rw [events, events, under, List.append_assoc, List.singleton_append]

theorem Located.events_of_place {above : KeyPath} {p : Place} (h : KeyPath.place above = .ok p) (b : Block) :
    Located.events keepCamelCase above ⟨[], [], b⟩ =
      b.declarations.flatMap fun d => p.declarationEvents keepCamelCase d.1 d.2 := by
  simp only [events, Declaration.events, List.append_nil, h]

theorem Located.events_of_error {above : KeyPath} {fault : KeyFault} (h : KeyPath.place above = .error fault) (l : Located) :
    l.events keepCamelCase above = [] := by
  simp [events, Declaration.events, KeyPath.place_append_of_error h]

mutual

theorem Node.filter_events (i : Nat) : {p : Place} → KeyPath.place p.keys = .ok p → (n : Node) →
    (n.events keepCamelCase p).filter Event.isDeclared = (n.located i).flatMap (Located.events keepCamelCase p.keys)
  | p, _, .raw text => rfl
  | p, hp, .rule key ds cs => by
    have hplace : KeyPath.place (p.keys ++ [key]) = p.enter key := by
      rw [KeyPath.place_concat, hp]
      rfl
    have hlocated : ((Node.rule key ds cs).located i).flatMap (Located.events keepCamelCase p.keys) =
        (⟨[], [], ⟨ds, cs⟩⟩ :: listLocated 0 cs).flatMap (Located.events keepCamelCase (p.keys ++ [key])) := by
      rw [located, List.flatMap_map]
      simp only [Located.events_under]
    rw [hlocated, events]
    cases hq : p.enter key with
    | error fault =>
      exact (List.flatMap_eq_nil_iff.mpr fun l _ => Located.events_of_error keepCamelCase (hplace.trans hq) l).symm
    | ok q =>
      have hkeys : p.keys ++ [key] = q.keys := (Place.enter_cases hq).1.symm
      have hq' : KeyPath.place q.keys = .ok q := hkeys ▸ hplace.trans hq
      have hbucket : (p.bucketEvents q).filter Event.isDeclared = [] := by
        rw [Place.bucketEvents]
        split <;> rfl
      simp only [List.filter_append, hbucket, List.nil_append, List.filter_flatMap, Place.filter_declarationEvents,
        Node.filter_listEvents 0 hq' cs, hkeys, List.flatMap_cons, Located.events_of_place keepCamelCase hq']

theorem Node.filter_listEvents (i : Nat) : {p : Place} → KeyPath.place p.keys = .ok p → (nodes : List Node) →
    (listEvents keepCamelCase p nodes).filter Event.isDeclared =
      (listLocated i nodes).flatMap (Located.events keepCamelCase p.keys)
  | p, _, [] => rfl
  | p, hp, n :: rest => by
    rw [listEvents, listLocated, List.filter_append, List.flatMap_append, Node.filter_events i hp n,
      Node.filter_listEvents (i + 1) hp rest]

end

/-- What a walk does about declarations it does one after the other, in pre-order. -/
theorem Block.filter_events (d : Document) :
    (d.events keepCamelCase {}).filter Event.isDeclared = d.allDeclarations.flatMap (Declaration.events keepCamelCase) := by
  have hroot : KeyPath.place ({} : Place).keys = .ok {} := rfl
  have hlocated (l : Located) : l.declarations.flatMap (Declaration.events keepCamelCase) =
      l.events keepCamelCase ({} : Place).keys := List.flatMap_map ..
  rw [events, List.filter_append, List.filter_flatMap, Node.filter_listEvents keepCamelCase 0 hroot, allDeclarations,
    List.flatMap_assoc]
  simp only [hlocated, Place.filter_declarationEvents, located, List.flatMap_cons, Located.events_of_place keepCamelCase hroot]

end

/-! ### Treatments -/

/-- What becomes of a declaration: the facts it states, each with the chain of its table, and the warnings. -/
structure Treatment where
  facts : List (Chain × Fact)
  warnings : List Warning

def Treatment.ofEvents (events : List Event) : Treatment := ⟨events.filterMap Event.fact?, events.filterMap Event.warning?⟩

/-- The facts that go to the table of a chain. -/
def Treatment.factsTo (chain : Chain) (treatments : List Treatment) : List Fact :=
  (treatments.flatMap Treatment.facts).filterMap fun f => if f.1 = chain then some f.2 else none

/-- The two ways of treating a declaration that has a text. One that is anchored states one fact for each path of
    its place, and any other is dropped with a warning. -/
inductive Declaration.Treated (keepCamelCase : Bool) (x : Declaration) : Treatment → Prop
  | textless : x.value.cssText? = none → Treated keepCamelCase x ⟨[], []⟩
  | stated {text : String} {p : Place} : x.value.cssText? = some text → KeyPath.Anchored x.path →
      KeyPath.place x.path = .ok p → p.paths ≠ [] → p.paths.Nodup → Treated keepCamelCase x
        ⟨p.paths.map fun path => (KeyPath.chain x.path, ⟨path, propertyName x.name keepCamelCase, text⟩), []⟩
  | dropped {text : String} : x.value.cssText? = some text → ¬ KeyPath.Anchored x.path →
      Treated keepCamelCase x ⟨[], [.droppedDeclaration x.name x.path]⟩

/-- What a walk does about a declaration at its place is one of the two. -/
theorem Declaration.treated_ofEvents {x : Declaration} {p : Place} (hp : KeyPath.place x.path = .ok p)
    (keepCamelCase : Bool) : x.Treated keepCamelCase (.ofEvents (x.events keepCamelCase)) := by
  have hbelow := KeyPath.below_of_place hp
  rw [events, hp]
  dsimp only
  rw [Place.declarationEvents]
  cases htext : x.value.cssText? with
  | none => exact .textless htext
  | some text =>
    dsimp only
    split
    · next hnil =>
      have hanchored : ¬ KeyPath.Anchored x.path := fun ha => hbelow.paths.mpr ha hnil
      rw [hbelow.keys]
      exact .dropped htext hanchored
    · next hne =>
      have hevents : Treatment.ofEvents
          (p.paths.map fun path => .fact p.chain ⟨path, propertyName x.name keepCamelCase, text⟩) =
            ⟨p.paths.map fun path => (p.chain, ⟨path, propertyName x.name keepCamelCase, text⟩), []⟩ := by
        simp [Treatment.ofEvents, List.filterMap_map, Function.comp_def, Event.fact?, Event.warning?]
      rw [hevents, hbelow.chain]
      exact .stated htext (hbelow.paths.mp hne) hp hne hbelow.nodup

/-! ### Built documents -/

namespace Stylesheet
variable {d : Document} {o : Options} {s : Stylesheet}

theorem not_malformed_of_build (h : (build d o).result = .ok s) {position : List Nat} {path : KeyPath} {key : String}
    {fault : KeyFault} : ¬ d.Malformed position path key fault := by
  intro hmalformed
  obtain ⟨error, herror⟩ := Block.exists_malformed_iff.mpr ⟨_, _, _, _, hmalformed⟩
  cases h.symm.trans (result_build_eq_error_iff.mpr herror)

/-- In a document that is built, the keys down to every block lead to a place. -/
theorem exists_place_of_build (h : (build d o).result = .ok s) {position : List Nat} {path : KeyPath} {n : Block}
    (hn : d.Leads position path n) : ∃ p, KeyPath.place path = .ok p := by
  induction path using List.reverseRecOn generalizing position n with
  | nil => exact ⟨{}, rfl⟩
  | append_singleton path key ih =>
    obtain ⟨position', m, hm, -⟩ := hn.parent
    obtain ⟨p, hp⟩ := ih hm
    rw [KeyPath.place_concat, hp]
    have henter := p.enter_fault? key
    cases hq : p.enter key with
    | error fault =>
      rw [hq] at henter
      exact absurd ⟨⟨n, hn⟩, Selector.fault?_eq_some_iff.mp henter⟩ (not_malformed_of_build h)
    | ok q => exact ⟨q, hq⟩

/-- The walk over a document that is built goes to its end, so all that it drops is warned of. -/
theorem warnings_of_build (h : (build d o).result = .ok s) :
    (build d o).warnings = (d.events o.keepCamelCase {}).filterMap Event.warning? := by
  have hnone : (d.events o.keepCamelCase {}).filterMap Event.fault? = [] := by
    rcases recordAll_cases {} (d.events o.keepCamelCase {}) with ⟨_, -, hnone⟩ | ⟨fault, hfault, -⟩
    · exact hnone
    · cases h.symm.trans hfault
  have hread : ∀ e ∈ d.events o.keepCamelCase {}, (!e.isMalformed) = true := by
    intro e he
    have := List.filterMap_eq_nil_iff.mp hnone e he
    cases e with
    | malformed key path fault => cases this
    | bucket _ | fact _ _ | raw _ _ | dropped _ _ => rfl
  rw [build]
  dsimp only
  rw [List.takeWhile_eq_self_iff.mpr hread]

end Stylesheet

/-! ### Tables -/

def TableCall.fact? : TableCall → Option Fact
  | .fact f => some f
  | .raw _ => none

theorem TableCall.filterMap_fact?_to (chain : Chain) (events : List Event) :
    (TableCall.to chain (events.filterMap Event.write?)).filterMap TableCall.fact? =
      (events.filterMap Event.fact?).filterMap fun f => if f.1 = chain then some f.2 else none := by
  rw [TableCall.to, List.filterMap_filterMap, List.filterMap_filterMap, List.filterMap_filterMap]
  refine List.filterMap_congr fun e _ => ?_
  cases e with
  | fact c f | raw c text => by_cases hc : c = chain <;> simp [Event.write?, Event.fact?, hc, TableCall.fact?]
  | bucket _ | dropped _ _ | malformed _ _ _ => rfl

/-- What a walk does about the declarations of a document, in pre-order. -/
def Block.treatments (d : Document) (keepCamelCase : Bool) : List Treatment :=
  d.allDeclarations.map fun x => .ofEvents (x.events keepCamelCase)

theorem Stylesheet.treated_of_build {d : Document} {o : Options} {s : Stylesheet} (h : (build d o).result = .ok s) :
    List.Forall₂ (Declaration.Treated o.keepCamelCase) d.allDeclarations (d.treatments o.keepCamelCase) := by
  rw [Block.treatments, List.forall₂_map_right_iff, List.forall₂_same]
  intro x hx
  obtain ⟨position, n, hn, -⟩ := Block.mem_allDeclarations_iff.mp hx
  obtain ⟨p, hp⟩ := exists_place_of_build h hn
  exact Declaration.treated_ofEvents hp o.keepCamelCase

theorem Block.facts_calls (d : Document) (keepCamelCase : Bool) (chain : Chain) :
    (d.calls keepCamelCase chain).filterMap TableCall.fact? = Treatment.factsTo chain (d.treatments keepCamelCase) := by
  have hfact : ∀ e, Event.isDeclared e = false → e.fact? = none := by
    rintro (_ | _) <;> simp [Event.isDeclared, Event.fact?]
  rw [calls, ← write?_events, TableCall.filterMap_fact?_to, ← Event.filterMap_filter_isDeclared hfact, filter_events,
    List.filterMap_flatMap, Treatment.factsTo, treatments, List.flatMap_map]
  rfl

/-- Where a document is built, each of its declarations that has a text is treated in one of two ways. If a key gives
    it paths, it states one fact for each of them, in the table of the at-rules above it, and else it is warned
    of. The tables are built of these facts and of raw texts alone, and facts and warnings come in pre-order. -/
theorem build_accounts_for_declarations {d : Document} {o : Options} {s : Stylesheet}
    (h : (Stylesheet.build d o).result = .ok s) : ∃ treatments,
      List.Forall₂ (Declaration.Treated o.keepCamelCase) d.allDeclarations treatments ∧
      (Stylesheet.build d o).warnings = treatments.flatMap Treatment.warnings ∧
      ∀ chain, ∃ calls, s.table chain = RuleTable.ofCalls calls ∧
        calls.filterMap TableCall.fact? = Treatment.factsTo chain treatments := by
  refine ⟨d.treatments o.keepCamelCase, Stylesheet.treated_of_build h, ?_, fun chain => ?_⟩
  · have hwarning : ∀ e, Event.isDeclared e = false → e.warning? = none := by
      rintro (_ | _) <;> simp [Event.isDeclared, Event.warning?]
    rw [Stylesheet.warnings_of_build h, ← Event.filterMap_filter_isDeclared hwarning, Block.filter_events,
      List.filterMap_flatMap, Block.treatments, List.flatMap_map]
    rfl
  · exact ⟨d.calls o.keepCamelCase chain, Stylesheet.table_build h chain, d.facts_calls o.keepCamelCase chain⟩

/-- Declarations at the root and directly below `@keyframes`, which are dropped, and around them such that are
    stated. -/
def Document.unanchored : Document where
  declarations := [("color", .str "red")]
  children := [
    .rule "a, b" [("top", .null), ("color", .str "blue")] [
      .rule "@media print" [("color", .str "black")] [],
      .rule "@keyframes turn" [("left", .str "1px")] [.rule "from" [("left", .str "2px")] []]],
    .rule "@font-face" [("src", .str "u")] []]

/-- The rule below `@media print` is in its table with the fact that it states for each of its two selectors. -/
theorem build_accounts_for_declarations_unanchored :
    ∃ s treatments, (Stylesheet.build Document.unanchored {}).result = .ok s ∧
      List.Forall₂ (Declaration.Treated false) Document.unanchored.allDeclarations treatments ∧
      treatments.flatMap Treatment.warnings =
        [.droppedDeclaration "color" [], .droppedDeclaration "left" ["a, b", "@keyframes turn"]] ∧
      (∃ calls, s.table ["@media print"] = RuleTable.ofCalls calls ∧
        calls.filterMap TableCall.fact? = Treatment.factsTo ["@media print"] treatments) ∧
      s.table ["@media print"] = ⟨[.rule "a" [("color", "black")], .rule "b" [("color", "black")]]⟩ := by
  let s : Stylesheet := {
    root := ⟨[.rule "a" [("color", "blue")], .rule "b" [("color", "blue")], .rule "@font-face" [("src", "u")]]⟩
    buckets := [
      (["@media print"], ⟨[.rule "a" [("color", "black")], .rule "b" [("color", "black")]]⟩),
      (["@keyframes turn"], ⟨[.rule "from" [("left", "2px")]]⟩)] }
  have hs : (Stylesheet.build Document.unanchored {}).result = .ok s := rfl
  obtain ⟨treatments, htreated, hwarnings, htables⟩ := build_accounts_for_declarations hs
  exact ⟨s, treatments, hs, htreated, hwarnings.symm.trans rfl, htables _, rfl⟩

/-! ### What tables hold -/

theorem TableCall.get?_writes_reverse (selector property : String) (calls : List TableCall) :
    Assoc.get? (writes selector calls).reverse property =
      ((calls.filterMap fact?).reverse.find? fun f => f.selector = selector ∧ f.property = property).map Fact.value := by
  induction calls using List.reverseRecOn with
  | nil => rfl
  | append_singleton calls c ih =>
    rw [writes_concat, List.filterMap_append, List.reverse_append, List.reverse_append]
    cases c with
    | raw text => exact ih
    | fact f =>
      by_cases hs : f.selector = selector
      · by_cases hp : f.property = property <;> simp [write?, fact?, Assoc.get?_cons, hs, hp, ih]
      · simp [write?, fact?, hs, ih]

/-- The tables hold what the declarations state: a selector has a property in a table if a declaration states it
    there, with the value of the last one in pre-order that does. -/
theorem Stylesheet.tables_hold_facts {d : Document} {o : Options} {s : Stylesheet} (h : (build d o).result = .ok s) :
    ∃ treatments, List.Forall₂ (Declaration.Treated o.keepCamelCase) d.allDeclarations treatments ∧
      ∀ chain selector property, Assoc.get? ((s.table chain).declarations selector) property =
        ((Treatment.factsTo chain treatments).reverse.find? fun f =>
          f.selector = selector ∧ f.property = property).map Fact.value := by
  refine ⟨d.treatments o.keepCamelCase, treated_of_build h, fun chain selector property => ?_⟩
  rw [table_build h chain, (RuleTable.Holds.ofCalls _).values, TableCall.get?_writes_reverse, Block.facts_calls]

end StyleTree
