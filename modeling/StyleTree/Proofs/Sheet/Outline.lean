import StyleTree.Proofs.Selector.Kinds
import StyleTree.Proofs.Sheet.SelectorPaths

/-! The outline of a block: what a walk does in it, apart from where it starts. Each node is reached by a route, which
    has the headers on the way, and the selectors that extend the paths from above or those of an at-rule that
    starts with paths of its own. So the walks over one block from different places go through one outline. -/

namespace StyleTree

open Selector (combine)

/-! ### Routes -/

/-- Whether the key is that of `@keyframes`. -/
def Selector.isFrame (key : String) : Bool :=
  match keyKind key with
  | .keyframes _ => true
  | .conditional _ | .standalone _ | .selector _ => false

/-- The way from a block to a node in it. -/
structure Route where
  headers : Chain := []
  /-- the paths that the last at-rule of its own starts with, if the route leads through one -/
  start? : Option (List String) := none
  /-- the alternatives of the selector keys from there on -/
  alternatives : List (List String) := []
  keys : KeyPath := []
  deriving DecidableEq, Repr

namespace Route

def paths (r : Route) (above : List String) : List String := r.alternatives.foldl combine (r.start?.getD above)

/-- Where the route leads to from a place. -/
def place (r : Route) (p : Place) : Place := ⟨r.paths p.paths, p.chain ++ r.headers, p.keys ++ r.keys⟩

/-- The route to what stands under a key. -/
def enter (r : Route) (key : String) : Except KeyFault Route :=
  let keys := r.keys ++ [key]
  match Selector.keyKind key with
  | .conditional header => .ok { r with headers := r.headers ++ [header], keys }
  | .keyframes header => .ok ⟨r.headers ++ [header], some [], [], keys⟩
  | .standalone header => .ok ⟨r.headers, some [header], [], keys⟩
  | .selector text => (Selector.splitAlternatives text).map fun as =>
    { r with alternatives := r.alternatives ++ [as], keys }

theorem enter_place (r : Route) (p : Place) (key : String) : (r.place p).enter key = (r.enter key).map (·.place p) := by
  rw [Place.enter, enter]
  cases Selector.keyKind key with
  | conditional header => simp [place, paths, Except.map]
  | keyframes header => simp [place, paths, Except.map]
  | standalone header => simp [place, paths, Except.map]
  | selector text =>
    dsimp only
    cases Selector.splitAlternatives text with
    | error fault => rfl
    | ok as => simp [place, paths, Except.map, List.foldl_append]

theorem enter_cases {r q : Route} {key : String} (h : r.enter key = .ok q) :
    (∃ header, Selector.keyKind key = .conditional header ∧
        q = { r with headers := r.headers ++ [header], keys := r.keys ++ [key] }) ∨
      (∃ header, Selector.keyKind key = .keyframes header ∧ q = ⟨r.headers ++ [header], some [], [], r.keys ++ [key]⟩) ∨
      (∃ header, Selector.keyKind key = .standalone header ∧ q = ⟨r.headers, some [header], [], r.keys ++ [key]⟩) ∨
      ∃ text as, Selector.keyKind key = .selector text ∧ Selector.splitAlternatives text = .ok as ∧
        q = { r with alternatives := r.alternatives ++ [as], keys := r.keys ++ [key] } := by
  rw [enter] at h
  cases hkind : Selector.keyKind key with
  | conditional header =>
    rw [hkind] at h
    cases h
    exact .inl ⟨header, rfl, rfl⟩
  | keyframes header =>
    rw [hkind] at h
    cases h
    exact .inr (.inl ⟨header, rfl, rfl⟩)
  | standalone header =>
    rw [hkind] at h
    cases h
    exact .inr (.inr (.inl ⟨header, rfl, rfl⟩))
  | selector text =>
    rw [hkind] at h
    dsimp only at h
    cases hs : Selector.splitAlternatives text with
    | error fault =>
      rw [hs] at h
      cases h
    | ok as =>
      rw [hs] at h
      cases h
      exact .inr (.inr (.inr ⟨text, as, rfl, hs, rfl⟩))

/-- Whether the route leads below `@keyframes`. -/
def framed (r : Route) : Bool := r.headers.any Selector.isFrame

theorem framed_enter {r q : Route} {key : String} (h : r.enter key = .ok q) :
    q.framed = (r.framed || Selector.isFrame key) := by
  obtain ⟨header, hkind, rfl⟩ | ⟨header, hkind, rfl⟩ | ⟨header, hkind, rfl⟩ | ⟨text, as, hkind, -, rfl⟩ := enter_cases h
  · have hheader := Selector.keyKind_header hkind (.inl rfl)
    simp [framed, Selector.isFrame, hkind, hheader]
  · have hheader := Selector.keyKind_header hkind (.inr rfl)
    simp [framed, Selector.isFrame, hkind, hheader]
  · simp [framed, Selector.isFrame, hkind]
  · simp [framed, Selector.isFrame, hkind]

/-- What the route to every node is. -/
structure Sound (r : Route) : Prop where
  start : ∀ paths ∈ r.start?, paths.Nodup
  alternatives : ∀ as ∈ r.alternatives, as ≠ []
  framed : r.start? = none → r.framed = false

theorem Sound.root : Sound {} where
  start _ h := nomatch h
  alternatives _ h := nomatch h
  framed _ := rfl

theorem Sound.enter {r q : Route} {key : String} (h : r.Sound) (hq : r.enter key = .ok q) : q.Sound := by
  have hframed := framed_enter hq
  obtain ⟨header, hkind, rfl⟩ | ⟨header, -, rfl⟩ | ⟨header, -, rfl⟩ | ⟨text, as, -, hs, rfl⟩ := enter_cases hq
  · refine ⟨h.start, h.alternatives, fun hstart => ?_⟩
    rw [hframed, h.framed hstart, Selector.isFrame, hkind]
    rfl
  · exact ⟨by simp, by simp, by simp⟩
  · exact ⟨by simp, by simp, by simp⟩
  · have hne := (Selector.splitAlternatives_cases hs).1
    exact ⟨h.start, List.forall_mem_append.mpr ⟨h.alternatives, List.forall_mem_singleton.mpr hne⟩, h.framed⟩

/-! ### Paths -/

variable {r : Route} {above above' : List String}

/-- Behind an at-rule of its own the paths above do not matter. -/
theorem paths_of_start {start : List String} (h : r.start? = some start) : r.paths above = r.paths above' := by
  rw [paths, paths, h, Option.getD_some, Option.getD_some]

theorem nodup_paths (hr : r.Sound) (h : above.Nodup) : (r.paths above).Nodup := by
  have hstart : (r.start?.getD above).Nodup := by
    cases hs : r.start? with
    | none => exact h
    | some start => exact hr.start start hs
  rw [paths]
  cases r.alternatives using List.reverseRecOn with
  | nil => exact hstart
  | append_singleton as a =>
    rw [List.foldl_append]
    exact Selector.nodup_distinct _

theorem foldl_combine_ne_nil {alternatives : List (List String)} (ha : ∀ as ∈ alternatives, as ≠ []) (h : above ≠ []) :
    alternatives.foldl combine above ≠ [] := by
  induction alternatives generalizing above with
  | nil => exact h
  | cons as rest ih =>
    exact ih (fun as has => ha as (List.mem_cons_of_mem _ has)) (Selector.combine_ne_nil (ha as List.mem_cons_self))

theorem paths_ne_nil (hr : r.Sound) (hstart : r.start? = none) (h : above ≠ []) : r.paths above ≠ [] := by
  rw [paths, hstart]
  exact foldl_combine_ne_nil hr.alternatives h

/-- Paths that are those of two places together stay so. -/
theorem mem_foldl_combine {alternatives : List (List String)} (ha : ∀ as ∈ alternatives, as ≠ []) {all : List String}
    (h : above ≠ []) (h' : above' ≠ []) (hall : ∀ path, path ∈ all ↔ path ∈ above ∨ path ∈ above') (path : String) :
    path ∈ alternatives.foldl combine all ↔
      path ∈ alternatives.foldl combine above ∨ path ∈ alternatives.foldl combine above' := by
  induction alternatives generalizing above above' all with
  | nil => exact hall path
  | cons as rest ih =>
    have has := ha as List.mem_cons_self
    refine ih (fun as has => ha as (List.mem_cons_of_mem _ has)) (Selector.combine_ne_nil has) (Selector.combine_ne_nil has)
      fun path => ?_
    have hne : all ≠ [] := by
      obtain ⟨p, hp⟩ := List.exists_mem_of_ne_nil _ h
      exact List.ne_nil_of_mem ((hall p).mpr (.inl hp))
    simp only [Selector.mem_combine_iff, h, h', hne, false_and, false_or, hall, or_and_right, and_or_left, exists_or]

theorem mem_paths (hr : r.Sound) {all : List String} (hstart : r.start? = none) (h : above ≠ []) (h' : above' ≠ [])
    (hall : ∀ path, path ∈ all ↔ path ∈ above ∨ path ∈ above') (path : String) :
    path ∈ r.paths all ↔ path ∈ r.paths above ∨ path ∈ r.paths above' := by
  rw [paths, paths, paths, hstart]
  exact mem_foldl_combine hr.alternatives h h' hall path

end Route

/-! ### Outlines -/

inductive Item where
  /-- the bucket of a condition -/
  | opened (route : Route)
  | block (route : Route) (declarations : List (String × Json))
  | raw (route : Route) (text : String)
  /-- a key that does not split -/
  | malformed (key : String) (route : Route) (fault : KeyFault)

def Item.route : Item → Route
  | .opened r | .block r _ | .raw r _ | .malformed _ r _ => r

def Item.events (keepCamelCase : Bool) (p : Place) : Item → List Event
  | .opened r => [.bucket (r.place p).chain]
  | .block r ds => ds.flatMap fun d => (r.place p).declarationEvents keepCamelCase d.1 d.2
  | .raw r text => [.raw (r.place p).chain text]
  | .malformed key r fault => [.malformed key ((r.place p).keys ++ [key]) fault]

mutual

def Node.outline (r : Route) : Node → List Item
  | .raw text => [.raw r text]
  | .rule key declarations children =>
    match r.enter key with
    | .error fault => [.malformed key r fault]
    | .ok q => (if q.headers = r.headers then [] else [.opened q]) ++ .block q declarations :: Node.listOutline q children

def Node.listOutline (r : Route) : List Node → List Item
  | [] => []
  | n :: rest => n.outline r ++ Node.listOutline r rest

end

def Block.outline (b : Block) : List Item := .block {} b.declarations :: Node.listOutline {} b.children

mutual

theorem Node.sound_outline : {r : Route} → (n : Node) → r.Sound → ∀ i ∈ n.outline r, i.route.Sound
  | r, .raw text, h => by
    rw [outline]
    exact List.forall_mem_singleton.mpr h
  | r, .rule key ds cs, h => by
    rw [outline]
    cases hq : r.enter key with
    | error fault => exact List.forall_mem_singleton.mpr h
    | ok q =>
      have hq := h.enter hq
      refine List.forall_mem_append.mpr ⟨?_, List.forall_mem_cons.mpr ⟨hq, Node.sound_listOutline cs hq⟩⟩
      split
      · exact fun _ hi => nomatch hi
      · exact List.forall_mem_singleton.mpr hq

theorem Node.sound_listOutline : {r : Route} → (nodes : List Node) → r.Sound → ∀ i ∈ listOutline r nodes, i.route.Sound
  | r, [], _ => fun _ hi => nomatch hi
  | r, n :: rest, h => by
    rw [listOutline]
    exact List.forall_mem_append.mpr ⟨Node.sound_outline n h, Node.sound_listOutline rest h⟩

end

theorem Block.sound_outline (b : Block) : ∀ i ∈ b.outline, i.route.Sound :=
  List.forall_mem_cons.mpr ⟨.root, Node.sound_listOutline b.children .root⟩

mutual

theorem Node.events_outline (keepCamelCase : Bool) (p : Place) : (r : Route) → (n : Node) →
    n.events keepCamelCase (r.place p) = (n.outline r).flatMap (Item.events keepCamelCase p)
  | r, .raw text => rfl
  | r, .rule key ds cs => by
    rw [events, outline, r.enter_place]
    cases r.enter key with
    | error fault => rfl
    | ok q =>
      have hbucket : (r.place p).bucketEvents (q.place p) =
          (if q.headers = r.headers then [] else [Item.opened q]).flatMap (Item.events keepCamelCase p) := by
        have hchain : (q.place p).chain = (r.place p).chain ↔ q.headers = r.headers := List.append_right_inj p.chain
        rw [Place.bucketEvents, if_congr hchain rfl rfl]
        split <;> rfl
      simp only [Except.map, List.flatMap_append, List.flatMap_cons, hbucket, Node.listEvents_outline keepCamelCase p q cs,
        Item.events, List.append_assoc]

theorem Node.listEvents_outline (keepCamelCase : Bool) (p : Place) : (r : Route) → (nodes : List Node) →
    listEvents keepCamelCase (r.place p) nodes = (listOutline r nodes).flatMap (Item.events keepCamelCase p)
  | r, [] => rfl
  | r, n :: rest => by
    rw [listEvents, listOutline, List.flatMap_append, Node.events_outline keepCamelCase p r n,
      Node.listEvents_outline keepCamelCase p r rest]

end

/-- A walk over a block goes through its outline. -/
theorem Block.events_outline (b : Block) (keepCamelCase : Bool) (p : Place) :
    b.events keepCamelCase p = b.outline.flatMap (Item.events keepCamelCase p) := by
  have hplace : ({} : Route).place p = p := by simp [Route.place, Route.paths]
  have hchildren := Node.listEvents_outline keepCamelCase p {} b.children
  rw [hplace] at hchildren
  rw [events, outline, List.flatMap_cons, Item.events, hplace, hchildren]

end StyleTree
