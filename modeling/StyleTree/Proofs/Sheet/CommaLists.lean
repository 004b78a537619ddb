import StyleTree.Proofs.Selector.Commas
import StyleTree.Proofs.Sheet.Outline
import StyleTree.Proofs.Sheet.Rewrites

/-! Keys of several selectors. A walk below such a key meets each node once, with the paths of all the selectors; walks
    below one selector after the other meet each node once for each. What either writes to a rule is the same, as
    long as no rule is written from two of the selectors, or from one of them and an at-rule of its own. -/

namespace StyleTree

open Selector (combine alternatives insertNew IsSelector)

/-! ### Events of an item -/

section
variable {keepCamelCase : Bool} {p q : Place} {chain : Chain} {selector : String}

theorem filterMap_ite_of_nodup {α β : Type} [DecidableEq α] {l : List α} (h : l.Nodup) (a : α) (e : β) :
    (l.filterMap fun x => if x = a then some e else none) = if a ∈ l then [e] else [] := by
  induction l with
  | nil => rfl
  | cons x l ih =>
    obtain ⟨hx, hl⟩ := List.nodup_cons.mp h
    by_cases hxa : x = a
    · subst hxa
      simp [ih hl, hx]
    · simp [ih hl, hxa, Ne.symm hxa]

/-- What a declaration says about one of the paths. -/
def declaredFacts (keepCamelCase : Bool) (d : String × Json) : List (String × String) :=
  d.2.cssText?.toList.map fun text => (propertyName d.1 keepCamelCase, text)

theorem Place.facts_declarationEvents (hp : p.paths.Nodup) (d : String × Json) :
    Event.facts chain selector (p.declarationEvents keepCamelCase d.1 d.2) =
      if p.chain = chain ∧ selector ∈ p.paths then declaredFacts keepCamelCase d else [] := by
  rw [Event.facts, Place.write?_declarationEvents, declaredFacts]
  cases d.2.cssText? with
  | none => simp [TableCall.writes, TableCall.to]
  | some text =>
    by_cases hc : p.chain = chain
    · have hone := filterMap_ite_of_nodup hp selector (propertyName d.1 keepCamelCase, text)
      simp [TableCall.writes, TableCall.to, hc, List.filterMap_map, Function.comp_def, TableCall.write?, hone]
    · simp [TableCall.writes, TableCall.to, hc, List.filterMap_map]

theorem Place.bucket?_declarationEvents_eq_nil_iff (p : Place) (keepCamelCase : Bool) (name : String) (value : Json) :
    (p.declarationEvents keepCamelCase name value).filterMap Event.bucket? = [] ↔
      value.cssText? = none ∨ p.paths = [] ∨ p.chain = [] := by
  rw [declarationEvents]
  cases value.cssText? with
  | none => simp
  | some text =>
    dsimp only
    split
    · next hp => simp [hp, Event.bucket?]
    · next hp =>
      obtain ⟨path, hpath⟩ := List.exists_mem_of_ne_nil _ hp
      simp only [List.filterMap_eq_nil_iff, List.forall_mem_map, Event.bucket?, hp, reduceCtorEq, false_or]
      by_cases hc : p.chain = []
      · simp [hc]
      · exact iff_of_false (fun h => absurd (h path hpath) (by simp [hc])) hc

theorem Place.sameNew_declarationEvents (hchain : p.chain = q.chain) (hpaths : p.paths = [] ↔ q.paths = []) (name : String)
    (value : Json) : SameNew ((p.declarationEvents keepCamelCase name value).filterMap Event.bucket?)
      ((q.declarationEvents keepCamelCase name value).filterMap Event.bucket?) := by
  refine SameNew.of_forall_eq (fun c hc => (bucket?_declarationEvents hc).2)
    (fun c hc => (bucket?_declarationEvents hc).2.trans hchain.symm) ?_
  rw [bucket?_declarationEvents_eq_nil_iff, bucket?_declarationEvents_eq_nil_iff, hpaths, hchain]

namespace Item
variable {i : Item}

/-- What a block says about each of its paths. -/
def facts (keepCamelCase : Bool) : Item → List (String × String)
  | .block _ ds => ds.flatMap (declaredFacts keepCamelCase)
  | .opened _ | .raw _ _ | .malformed _ _ _ => []

/-- The fault of a key that does not split, wherever the block stands. -/
def fault? : Item → Option Error
  | .malformed key _ fault => some (.malformedKey key [] fault)
  | .opened _ | .block _ _ | .raw _ _ => none

theorem facts_events (hp : (i.route.place p).paths.Nodup) : Event.facts chain selector (i.events keepCamelCase p) =
    if (i.route.place p).chain = chain ∧ selector ∈ (i.route.place p).paths then i.facts keepCamelCase else [] := by
  cases i with
  | opened r | malformed key r fault => exact (ite_self _).symm
  | raw r text => exact (Event.facts_raw chain selector (r.place p).chain text).trans (ite_self _).symm
  | block r ds =>
    have hfacts (d : String × Json) : Event.facts chain selector ((r.place p).declarationEvents keepCamelCase d.1 d.2) =
        if (r.place p).chain = chain ∧ selector ∈ (r.place p).paths then declaredFacts keepCamelCase d else [] :=
      Place.facts_declarationEvents hp d
    rw [events, Event.facts_flatMap]
    simp only [hfacts]
    change _ = if (r.place p).chain = chain ∧ selector ∈ (r.place p).paths then ds.flatMap (declaredFacts keepCamelCase) else []
    split
    · rfl
    · simp

theorem fault?_events (i : Item) (keepCamelCase : Bool) (p : Place) :
    ((i.events keepCamelCase p).filterMap Event.fault?).map Error.unplaced = i.fault?.toList := by
  cases i with
  | opened r | malformed key r fault | raw r text => rfl
  | block r ds =>
    simp [events, List.filterMap_flatMap, Place.fault?_declarationEvents, fault?]

/-- Places with or without paths open the same buckets, if they stand in one chain. -/
theorem sameNew_events (hchain : p.chain = q.chain) (hpaths : (i.route.place p).paths = [] ↔ (i.route.place q).paths = []) :
    SameNew ((i.events keepCamelCase p).filterMap Event.bucket?) ((i.events keepCamelCase q).filterMap Event.bucket?) := by
  have hplaces : (i.route.place p).chain = (i.route.place q).chain := congrArg (· ++ i.route.headers) hchain
  cases i with
  | opened r | raw r text =>
    have hplaces : (r.place p).chain = (r.place q).chain := hplaces
    rw [events, events, hplaces]
    exact fun _ => rfl
  | malformed key r fault => exact fun _ => rfl
  | block r ds =>
    simp only [events, List.filterMap_flatMap]
    exact SameNew.flatMap fun d _ => Place.sameNew_declarationEvents hplaces hpaths d.1 d.2

end Item

/-! ### Events of a block -/

namespace Block

theorem facts_events (b : Block) (hp : p.paths.Nodup) : Event.facts chain selector (b.events keepCamelCase p) =
    b.outline.flatMap fun i =>
      if (i.route.place p).chain = chain ∧ selector ∈ (i.route.place p).paths then i.facts keepCamelCase else [] := by
  rw [events_outline, Event.facts_flatMap]
  exact List.flatMap_congr fun i hi => Item.facts_events (Route.nodup_paths (b.sound_outline i hi) hp)

theorem fault?_events (b : Block) (keepCamelCase : Bool) (p : Place) :
    ((b.events keepCamelCase p).filterMap Event.fault?).map Error.unplaced = b.outline.filterMap Item.fault? := by
  rw [events_outline, List.filterMap_flatMap, List.map_flatMap, List.filterMap_eq_flatMap_toList]
  simp only [Item.fault?_events]

end Block

end

/-! ### Paths apart -/

/-- The routes to what has paths from above. -/
def Block.inherited (b : Block) : List Route := (b.outline.map Item.route).filter fun r => r.start?.isNone

/-- The routes to what has those of an at-rule of its own, and is not below `@keyframes`. -/
def Block.own (b : Block) : List Route := (b.outline.map Item.route).filter fun r => r.start?.isSome && !r.framed

/-- In each bucket the paths that the block has below the first ones, those it has below the others and those of at-rules
    of its own are pairwise disjoint. What is below `@keyframes` does not count. -/
structure Block.Apart (b : Block) (above above' : List String) : Prop where
  across : ∀ r ∈ b.inherited, ∀ r' ∈ b.inherited, r.headers = r'.headers → ∀ path ∈ r.paths above, path ∉ r'.paths above'
  left : ∀ r ∈ b.inherited, ∀ r' ∈ b.own, r.headers = r'.headers → ∀ path ∈ r.paths above, path ∉ r'.paths above
  right : ∀ r ∈ b.inherited, ∀ r' ∈ b.own, r.headers = r'.headers → ∀ path ∈ r.paths above', path ∉ r'.paths above'

theorem Block.Apart.symm {b : Block} {above above' : List String} (h : b.Apart above above') : b.Apart above' above where
  across r hr r' hr' heads path hpath hpath' := h.across r' hr' r hr heads.symm path hpath' hpath
  left := h.right
  right := h.left

/-- A place has the paths of two others in its chain. -/
structure Place.Joins (u p q : Place) : Prop where
  left : u.chain = p.chain
  right : u.chain = q.chain
  inhabited : p.paths ≠ [] ∧ q.paths ≠ []
  nodup : u.paths.Nodup ∧ p.paths.Nodup ∧ q.paths.Nodup
  mem : ∀ path, path ∈ u.paths ↔ path ∈ p.paths ∨ path ∈ q.paths

theorem Place.Joins.symm {u p q : Place} (h : u.Joins p q) : u.Joins q p where
  left := h.right
  right := h.left
  inhabited := h.inhabited.symm
  nodup := ⟨h.nodup.1, h.nodup.2.symm⟩
  mem path := (h.mem path).trans or_comm

/-- The item is about the selector in the table of the chain, if the block stands at the place. -/
def Item.About (chain : Chain) (selector : String) (p : Place) (i : Item) : Prop :=
  (i.route.place p).chain = chain ∧ selector ∈ (i.route.place p).paths

section
variable {keepCamelCase : Bool} {u p q : Place} {chain : Chain} {selector : String} {b : Block} {i j : Item}

theorem Block.facts_eq_of_about (hp : p.paths.Nodup) (hq : q.paths.Nodup)
    (h : ∀ i ∈ b.outline, i.About chain selector p ↔ i.About chain selector q) :
    Event.facts chain selector (b.events keepCamelCase p) = Event.facts chain selector (b.events keepCamelCase q) := by
  rw [facts_events b hp, facts_events b hq]
  exact List.flatMap_congr fun i hi => if_congr (h i hi) rfl rfl

theorem Block.facts_eq_nil (hp : p.paths.Nodup) (h : ∀ i ∈ b.outline, ¬i.About chain selector p) :
    Event.facts chain selector (b.events keepCamelCase p) = [] := by
  rw [facts_events b hp, List.flatMap_eq_nil_iff]
  exact fun i hi => if_neg (h i hi)

theorem Place.Joins.about_inherited (h : u.Joins p q) (hi : i ∈ b.outline) (hstart : i.route.start? = none) :
    i.About chain selector u ↔ i.About chain selector p ∨ i.About chain selector q := by
  have hpaths : selector ∈ (i.route.place u).paths ↔
      selector ∈ (i.route.place p).paths ∨ selector ∈ (i.route.place q).paths :=
    Route.mem_paths (b.sound_outline i hi) hstart h.inhabited.1 h.inhabited.2 h.mem selector
  simp only [Item.About, Route.place, ← h.left, ← h.right] at hpaths ⊢
  rw [hpaths, and_or_left]

theorem Place.Joins.about_own (h : u.Joins p q) (hstart : i.route.start? ≠ none) :
    (i.About chain selector u ↔ i.About chain selector p) ∧ (i.About chain selector q ↔ i.About chain selector p) := by
  obtain ⟨start, hstart⟩ := Option.ne_none_iff_exists'.mp hstart
  have hpaths : i.route.paths u.paths = i.route.paths p.paths := Route.paths_of_start hstart
  have hpaths' : i.route.paths q.paths = i.route.paths p.paths := Route.paths_of_start hstart
  simp only [Item.About, Route.place, hpaths, hpaths', ← h.left, ← h.right, and_self]

/-- Where something below the first place has the selector from above, nothing below the second has. -/
theorem Place.Joins.about_of_inherited (h : u.Joins p q) (hb : b.Apart p.paths q.paths) (hi : i ∈ b.outline)
    (hstart : i.route.start? = none) (habout : i.About chain selector p) (hj : j ∈ b.outline) :
    (j.About chain selector u ↔ j.About chain selector p) ∧ ¬j.About chain selector q := by
  have hroute (hj' : j.About chain selector q) : i.route.headers = j.route.headers :=
    List.append_cancel_left (habout.1.trans (hj'.1.symm.trans (congrArg (· ++ j.route.headers) (h.right.symm.trans h.left))))
  have hmem : i.route ∈ b.inherited := List.mem_filter.mpr ⟨List.mem_map_of_mem hi, by rw [hstart]; rfl⟩
  by_cases hjstart : j.route.start? = none
  · have hmem' : j.route ∈ b.inherited := List.mem_filter.mpr ⟨List.mem_map_of_mem hj, by rw [hjstart]; rfl⟩
    have hnot : ¬j.About chain selector q := fun hj' =>
      hb.across i.route hmem j.route hmem' (hroute hj') selector habout.2 hj'.2
    exact ⟨(h.about_inherited hj hjstart).trans (or_iff_left hnot), hnot⟩
  · obtain ⟨hu, hq⟩ : (j.About chain selector u ↔ j.About chain selector p) ∧
        (j.About chain selector q ↔ j.About chain selector p) := h.about_own hjstart
    refine ⟨hu, fun hj' => ?_⟩
    -- Headers of `@keyframes` do not stand in the bucket of what has its paths from above.
    have hframed : j.route.framed = false := by
      rw [Route.framed, ← hroute hj']
      exact (b.sound_outline i hi).framed hstart
    have hown : j.route ∈ b.own := List.mem_filter.mpr ⟨List.mem_map_of_mem hj, by
      rw [hframed, Bool.not_false, Bool.and_true]
      exact Option.isSome_iff_ne_none.mpr hjstart⟩
    exact hb.left i.route hmem j.route hown (hroute hj') selector habout.2 (hq.mp hj').2

/-- A rule is written from one of the places, from the other, or from neither but twice the same. -/
theorem Place.Joins.declared_events (h : u.Joins p q) (hb : b.Apart p.paths q.paths)
    (ds? : Option (List (String × String))) :
    declared ds? (Event.facts chain selector (b.events keepCamelCase u)) =
      declared (declared ds? (Event.facts chain selector (b.events keepCamelCase p)))
        (Event.facts chain selector (b.events keepCamelCase q)) := by
  obtain ⟨hu, hp, hq⟩ := h.nodup
  by_cases hleft : ∃ i ∈ b.outline, i.route.start? = none ∧ i.About chain selector p
  · obtain ⟨i, hi, hstart, habout⟩ := hleft
    have hother (j) (hj : j ∈ b.outline) := h.about_of_inherited hb hi hstart habout hj
    rw [Block.facts_eq_nil hq fun j hj => (hother j hj).2, declared_nil,
      Block.facts_eq_of_about hu hp fun j hj => (hother j hj).1]
  by_cases hright : ∃ i ∈ b.outline, i.route.start? = none ∧ i.About chain selector q
  · obtain ⟨i, hi, hstart, habout⟩ := hright
    have hother (j) (hj : j ∈ b.outline) := h.symm.about_of_inherited hb.symm hi hstart habout hj
    rw [Block.facts_eq_nil hp fun j hj => (hother j hj).2, declared_nil,
      Block.facts_eq_of_about hu hq fun j hj => (hother j hj).1]
  · have hsame (j) (hj : j ∈ b.outline) :
        (j.About chain selector u ↔ j.About chain selector p) ∧ (j.About chain selector q ↔ j.About chain selector p) := by
      by_cases hstart : j.route.start? = none
      · have hp : ¬j.About chain selector p := fun hj' => hleft ⟨j, hj, hstart, hj'⟩
        have hq : ¬j.About chain selector q := fun hj' => hright ⟨j, hj, hstart, hj'⟩
        simp only [h.about_inherited hj hstart, hp, hq, or_self, and_self]
      · exact h.about_own hstart
    rw [Block.facts_eq_of_about hu hp fun j hj => (hsame j hj).1, Block.facts_eq_of_about hq hp fun j hj => (hsame j hj).2,
      declared_self]

theorem Block.sameNew_events (b : Block) (hchain : p.chain = q.chain) (hp : p.paths ≠ []) (hq : q.paths ≠ []) :
    SameNew ((b.events keepCamelCase p).filterMap Event.bucket?) ((b.events keepCamelCase q).filterMap Event.bucket?) := by
  rw [events_outline, events_outline, List.filterMap_flatMap, List.filterMap_flatMap]
  refine SameNew.flatMap fun i hi => Item.sameNew_events hchain ?_
  cases hstart : i.route.start? with
  | none =>
    have hsound := b.sound_outline i hi
    exact iff_of_false (Route.paths_ne_nil hsound hstart hp) (Route.paths_ne_nil hsound hstart hq)
  | some start =>
    have hpaths : i.route.paths p.paths = i.route.paths q.paths := Route.paths_of_start hstart
    simp only [Route.place, hpaths]

end

/-! ### Walks -/

namespace Stylesheet

/-- The same buckets in the same order, each with the same rules, which may stand in another order. -/
structure SameRules (s s' : Stylesheet) : Prop where
  chains : s.chains = s'.chains
  declarations : ∀ chain selector, (s.table chain).declarations? selector = (s'.table chain).declarations? selector

/-- The same rules, or two failures that differ in the key path at most. -/
inductive SameUpToOrder : Except Error Stylesheet → Except Error Stylesheet → Prop
  | ok {s s' : Stylesheet} (rules : s.SameRules s') : SameUpToOrder (.ok s) (.ok s')
  | error {e e' : Error} (fault : e.unplaced = e'.unplaced) : SameUpToOrder (.error e) (.error e')

theorem walk_bind_walk (s : Stylesheet) (keepCamelCase : Bool) (p q : Place) (b : Block) :
    ((s.walk keepCamelCase p b).bind fun t => t.walk keepCamelCase q b) =
      s.recordAll (b.events keepCamelCase p ++ b.events keepCamelCase q) := by
  rw [recordAll, List.foldlM_append]
  rfl

end Stylesheet

section
variable {keepCamelCase : Bool} {u p q : Place} {b : Block} {s t t' : Stylesheet}

theorem Place.Joins.sameRules (h : u.Joins p q) (hb : b.Apart p.paths q.paths)
    (ht : s.recordAll (b.events keepCamelCase u) = .ok t)
    (ht' : s.recordAll (b.events keepCamelCase p ++ b.events keepCamelCase q) = .ok t') : t.SameRules t' where
  chains := by
    have hu : u.paths ≠ [] := by
      obtain ⟨path, hpath⟩ := List.exists_mem_of_ne_nil _ h.inhabited.1
      exact List.ne_nil_of_mem ((h.mem path).mpr (.inl hpath))
    rw [(Stylesheet.recorded ht).2, (Stylesheet.recorded ht').2, List.filterMap_append, List.foldl_append,
      ← b.sameNew_events h.left hu h.inhabited.1, ← b.sameNew_events h.right hu h.inhabited.2, Selector.foldl_insertNew_self]
  declarations chain selector := by
    rw [Stylesheet.declarations?_recordAll ht, Stylesheet.declarations?_recordAll ht', Event.facts_append,
      declared_append, h.declared_events hb]

/-- One walk with all paths is like two walks, one after the other. -/
theorem Place.Joins.walk (h : u.Joins p q) (hb : b.Apart p.paths q.paths) (s : Stylesheet) (keepCamelCase : Bool) :
    Stylesheet.SameUpToOrder (s.walk keepCamelCase u b)
      ((s.walk keepCamelCase p b).bind fun t => t.walk keepCamelCase q b) := by
  -- The faults of the block are those of its keys, and come twice or once in the same order.
  have hfaults : ((b.events keepCamelCase u).filterMap Event.fault?).head?.map Error.unplaced =
      ((b.events keepCamelCase p ++ b.events keepCamelCase q).filterMap Event.fault?).head?.map Error.unplaced := by
    rw [← List.head?_map, ← List.head?_map, List.filterMap_append, List.map_append, b.fault?_events, b.fault?_events,
      b.fault?_events, List.head?_append, Option.or_self]
  rw [Stylesheet.walk_bind_walk, Stylesheet.walk]
  rcases s.recordAll_cases (b.events keepCamelCase u) with ⟨t, ht, hnone⟩ | ⟨fault, ht, hhead⟩ <;>
    rcases s.recordAll_cases (b.events keepCamelCase p ++ b.events keepCamelCase q) with ⟨t', ht', hnone'⟩ | ⟨fault', ht', hhead'⟩ <;>
    rw [ht, ht']
  · exact .ok (h.sameRules hb ht ht')
  · rw [hnone, hhead'] at hfaults
    cases hfaults
  · rw [hhead, hnone'] at hfaults
    cases hfaults
  · rw [hhead, hhead'] at hfaults
    exact .error (Option.some.inj hfaults)

theorem Place.joins_combine (p : Place) {as bs : List String} (ha : as ≠ []) (hb : bs ≠ []) (keys keys' keys'' : KeyPath) :
    Place.Joins ⟨combine p.paths (as ++ bs), p.chain, keys⟩ ⟨combine p.paths as, p.chain, keys'⟩
      ⟨combine p.paths bs, p.chain, keys''⟩ where
  left := rfl
  right := rfl
  inhabited := ⟨Selector.combine_ne_nil ha, Selector.combine_ne_nil hb⟩
  nodup := ⟨Selector.nodup_distinct _, Selector.nodup_distinct _, Selector.nodup_distinct _⟩
  mem path := by simp only [Selector.mem_combine_iff, List.mem_append, or_and_right, exists_or]

theorem Stylesheet.walk_under (s : Stylesheet) (keepCamelCase : Bool) (p : Place) (b : Block) {key : String}
    (h : IsSelector key) :
    s.walk keepCamelCase p (b.under [key]) =
      s.walk keepCamelCase ⟨combine p.paths (alternatives key), p.chain, p.keys ++ [key]⟩ b := by
  rw [walk, Block.events_under_cons (p.enter_selector h), Place.bucketEvents, if_pos rfl]
  rfl

theorem Selector.IsSelector.join {x y : String} (hx : IsSelector x) (hy : IsSelector y)
    (hend : endsEscaping x.toList = false) :
    IsSelector (x ++ ", " ++ y) ∧ alternatives (x ++ ", " ++ y) = alternatives x ++ alternatives y := by
  obtain ⟨hxkind, as, has⟩ := hx
  obtain ⟨-, bs, hbs⟩ := hy
  have hjoin := splitAlternatives_join separates_comma_blank has hbs hend
  refine ⟨⟨keyKind_join hxkind, _, hjoin⟩, ?_⟩
  simp only [alternatives, has, hbs, hjoin, Except.toOption, Option.getD_some]

end

def Item.isRaw : Item → Bool
  | .raw _ _ => true
  | .opened _ | .block _ _ | .malformed _ _ _ => false

/-- No raw text stands in the block. -/
def Block.RawFree (b : Block) : Prop := ∀ i ∈ b.outline, i.isRaw = false

theorem Item.ne_raw_of_mem_events {i : Item} (hi : i.isRaw = false) {keepCamelCase : Bool} {p : Place} {e : Event}
    (he : e ∈ i.events keepCamelCase p) (chain : Chain) (text : String) : e ≠ .raw chain text := by
  rintro rfl
  cases i with
  | raw r text' => cases hi
  | opened r | malformed key r fault => cases List.mem_singleton.mp he
  | block r ds =>
    obtain ⟨d, -, hd⟩ := List.mem_flatMap.mp he
    rw [Place.declarationEvents] at hd
    split at hd
    · cases hd
    · split at hd
      · cases List.mem_singleton.mp hd
      · obtain ⟨path, -, hpath⟩ := List.mem_map.mp hd
        cases hpath

/-- Below a block without raw texts those of the sheet stay as they are. -/
theorem Block.RawFree.texts {b : Block} (hb : b.RawFree) {s t : Stylesheet} {keepCamelCase : Bool} {p : Place}
    (ht : s.walk keepCamelCase p b = .ok t) (chain : Chain) : (t.table chain).texts = (s.table chain).texts := by
  rw [Stylesheet.texts_recordAll ht, List.append_right_eq_self, List.filterMap_eq_nil_iff]
  intro c hc
  obtain ⟨⟨chain', c'⟩, hc', hto⟩ := List.mem_filterMap.mp hc
  obtain ⟨e, he, hwrite⟩ := List.mem_filterMap.mp hc'
  rw [events_outline] at he
  obtain ⟨i, hi, he⟩ := List.mem_flatMap.mp he
  have hraw := Item.ne_raw_of_mem_events (hb i hi) he
  cases e with
  | raw c text => exact (hraw c text rfl).elim
  | fact c f =>
    cases hwrite
    split at hto
    · cases hto
      rfl
    · cases hto
  | bucket c | dropped property path | malformed key path fault => cases hwrite

/-- A key of two selectors is like the two, one after the other. The same buckets come to be in the same order, every rule
    gets the same declarations in the same order, and raw texts stay where they are, as the blocks below keys have
    none. The walk fails below the one key just where it fails below the two. -/
theorem comma_list_walks_each_selector (s : Stylesheet) (keepCamelCase : Bool) (p : Place) (b : Block) {x y : String}
    (hx : IsSelector x) (hy : IsSelector y) (hend : Selector.endsEscaping x.toList = false)
    (hb : b.Apart (combine p.paths (alternatives x)) (combine p.paths (alternatives y))) :
    let once := s.walk keepCamelCase p (b.under [x ++ ", " ++ y])
    let twice := (s.walk keepCamelCase p (b.under [x])).bind fun t => t.walk keepCamelCase p (b.under [y])
    Stylesheet.SameUpToOrder once twice ∧
      (b.RawFree → ∀ t t', once = .ok t → twice = .ok t' → ∀ chain, (t.table chain).texts = (t'.table chain).texts) := by
  intro once twice
  obtain ⟨hxy, hjoin⟩ := hx.join hy hend
  have hne {key : String} (h : IsSelector key) : alternatives key ≠ [] := by
    obtain ⟨-, as, has⟩ := h
    have hne := (Selector.splitAlternatives_cases has).1
    rwa [alternatives, has]
  have honce : once =
      s.walk keepCamelCase ⟨combine p.paths (alternatives x ++ alternatives y), p.chain, p.keys ++ [x ++ ", " ++ y]⟩ b :=
    hjoin ▸ s.walk_under keepCamelCase p b hxy
  have htwice : twice = (s.walk keepCamelCase ⟨combine p.paths (alternatives x), p.chain, p.keys ++ [x]⟩ b).bind fun t =>
      t.walk keepCamelCase ⟨combine p.paths (alternatives y), p.chain, p.keys ++ [y]⟩ b := by
    simp only [twice, Stylesheet.walk_under _ _ _ _ hx, Stylesheet.walk_under _ _ _ _ hy]
  refine ⟨?_, fun hraw t t' ht ht' chain => ?_⟩
  · rw [honce, htwice]
    exact (p.joins_combine (hne hx) (hne hy) _ _ _).walk hb s keepCamelCase
  · rw [htwice] at ht'
    cases hu : s.walk keepCamelCase ⟨combine p.paths (alternatives x), p.chain, p.keys ++ [x]⟩ b with
    | error fault =>
      rw [hu] at ht'
      cases ht'
    | ok u =>
      rw [hu] at ht'
      rw [hraw.texts (honce ▸ ht) chain, hraw.texts (t := t') ht' chain, hraw.texts hu chain]

/-- Below two paths, one of which has a rule already, with a condition, `@keyframes` and an at-rule of its own. -/
theorem comma_list_walks_each_selector_nested :
    let b : Block := ⟨[("color", .str "red"), ("skip", .null)], [
      .rule "& + &:hover" [("margin", .str "0")] [.rule "@media print" [("color", .str "blue")] []],
      .rule "@keyframes spin" [] [.rule "from, to" [("top", .str "0")] []],
      .rule "@font-face" [("src", .str "u")] []]⟩
    let p : Place := ⟨["p", "q"], ["@layer base"], ["p, q"]⟩
    let s : Stylesheet := ⟨{}, [(["@layer base"], ⟨[.raw "hr", .rule "q b > i" [("color", "green"), ("top", "1px")]]⟩)]⟩
    let once := s.walk false p (b.under ["a, b > i"])
    let twice := (s.walk false p (b.under ["a"])).bind fun t => t.walk false p (b.under ["b > i"])
    Stylesheet.SameUpToOrder once twice ∧ once.toOption.isSome = true ∧ once.toOption ≠ twice.toOption ∧
      ∀ t t', once = .ok t → twice = .ok t' → (t.table ["@layer base"]).texts = (t'.table ["@layer base"]).texts := by
  intro b p s once twice
  have ha : IsSelector "a" := ⟨by decide, _, rfl⟩
  have hb : IsSelector "b > i" := ⟨by decide, _, rfl⟩
  have hapart : b.Apart (combine p.paths (alternatives "a")) (combine p.paths (alternatives "b > i")) :=
    ⟨by decide +kernel, by decide +kernel, by decide +kernel⟩
  have hraw : ∀ i ∈ b.outline, i.isRaw = false := by decide +kernel
  obtain ⟨hsame, htexts⟩ := comma_list_walks_each_selector s false p b ha hb (by decide) hapart
  exact ⟨hsame, by decide +kernel, by decide +kernel, fun t t' ht ht' => htexts hraw t t' ht ht' _⟩

/-- A backslash at the end of the first selector takes the comma. -/
theorem escaped_comma_stays_in_selector :
    let b : Block := ⟨[("color", .str "red")], []⟩
    let once := Stylesheet.walk {} false {} (b.under ["a\\, b"])
    let twice := (Stylesheet.walk {} false {} (b.under ["a\\"])).bind fun t => t.walk false {} (b.under ["b"])
    IsSelector "a\\" ∧ IsSelector "b" ∧ alternatives "a\\" = ["a\\"] ∧ alternatives "b" = ["b"] ∧
      b.Apart (combine [] ["a\\"]) (combine [] ["b"]) ∧ ¬Stylesheet.SameUpToOrder once twice := by
  intro b once twice
  refine ⟨⟨by decide, _, rfl⟩, ⟨by decide, _, rfl⟩, by decide, by decide, ⟨by decide, by decide, by decide⟩, fun h => ?_⟩
  have hrule : (once.toOption.bind fun t => (t.table []).declarations? "b") =
      twice.toOption.bind fun t => (t.table []).declarations? "b" := by
    clear_value once twice
    cases h with
    | ok rules => exact rules.declarations [] "b"
    | error _ => rfl
  exact absurd hrule (by decide)

end StyleTree
