import StyleTree.Proofs.Selector.Scanning
import StyleTree.Sheet.Walk

/-! Hoisting. A condition extends the chain of at-rules and leaves the selector paths as they are, and a
    selector key does the opposite, so around the same body the two may stand in any order. `@keyframes` and
    the other at-rules start with paths of their own, so the selectors above them do not matter. What
    does differ is the key path, which a sheet does not hold. -/

namespace StyleTree

/-! ### Key paths -/

def Event.unplaced : Event → Event
  | .dropped property _ => .dropped property []
  | .malformed key _ fault => .malformed key [] fault
  | e => e

def Error.unplaced : Error → Error
  | .malformedKey key _ fault => .malformedKey key [] fault
  | e => e

namespace Stylesheet

/-- The sheet after the walk over a block at a place. -/
def walk (s : Stylesheet) (keepCamelCase : Bool) (p : Place) (b : Block) : Except Error Stylesheet :=
  s.recordAll (b.events keepCamelCase p)

/-- The same sheet, or two failures that differ in the key path at most. -/
def SameOutcome (r r' : Except Error Stylesheet) : Prop := r.mapError Error.unplaced = r'.mapError Error.unplaced

theorem record_unplaced (s : Stylesheet) (e : Event) : s.record e.unplaced = (s.record e).mapError Error.unplaced := by
  cases e <;> rfl

theorem recordAll_unplaced (s : Stylesheet) (events : List Event) :
    s.recordAll (events.map Event.unplaced) = (s.recordAll events).mapError Error.unplaced := by
  induction events generalizing s with
  | nil => rfl
  | cons e rest ih =>
    rw [recordAll, recordAll, List.map_cons, List.foldlM_cons, List.foldlM_cons, record_unplaced]
    cases s.record e with
    | error fault => rfl
    | ok s' => exact ih s'

end Stylesheet

/-- Two places that differ in the key path at most. -/
structure Place.Same (p p' : Place) : Prop where
  paths : p.paths = p'.paths
  chain : p.chain = p'.chain

section
variable {p p' : Place} {keepCamelCase : Bool}

theorem Place.Same.enter (h : p.Same p') (key : String) :
    (∃ q q', p.enter key = .ok q ∧ p'.enter key = .ok q' ∧ q.Same q') ∨
      ∃ fault, p.enter key = .error fault ∧ p'.enter key = .error fault := by
  obtain ⟨hpaths, hchain⟩ := h
  simp only [Place.enter]
  cases Selector.keyKind key with
  | conditional header | keyframes header | standalone header =>
    refine .inl ⟨_, _, rfl, rfl, ?_, ?_⟩ <;> simp [hpaths, hchain]
  | selector text =>
    dsimp only
    cases Selector.splitAlternatives text with
    | error fault => exact .inr ⟨fault, rfl, rfl⟩
    | ok alternatives => exact .inl ⟨_, _, rfl, rfl, congrArg (Selector.combine · alternatives) hpaths, hchain⟩

theorem Place.Same.declarationEvents (h : p.Same p') (name : String) (value : Json) :
    (p.declarationEvents keepCamelCase name value).map Event.unplaced =
      (p'.declarationEvents keepCamelCase name value).map Event.unplaced := by
  rw [Place.declarationEvents, Place.declarationEvents, h.paths, h.chain]
  cases value.cssText? with
  | none => rfl
  | some text =>
    dsimp only
    split <;> rfl

theorem Place.Same.declarations (h : p.Same p') (ds : List (String × Json)) :
    (ds.flatMap fun d => p.declarationEvents keepCamelCase d.1 d.2).map Event.unplaced =
      (ds.flatMap fun d => p'.declarationEvents keepCamelCase d.1 d.2).map Event.unplaced := by
  simp only [List.map_flatMap, h.declarationEvents]

mutual

theorem Node.unplaced_events {keepCamelCase : Bool} : {p p' : Place} → (n : Node) → p.Same p' →
    (n.events keepCamelCase p).map Event.unplaced = (n.events keepCamelCase p').map Event.unplaced
  | p, p', .raw text, h => by rw [events, events, h.chain]
  | p, p', .rule key ds cs, h => by
    rw [events, events]
    rcases h.enter key with ⟨q, q', hq, hq', hsame⟩ | ⟨fault, hq, hq'⟩
    · have hbucket : p.bucketEvents q = p'.bucketEvents q' := by
        rw [Place.bucketEvents, Place.bucketEvents, h.chain, hsame.chain]
      simp only [hq, hq', List.map_append, hbucket, hsame.declarations ds, Node.unplaced_listEvents cs hsame]
    · simp only [hq, hq']
      rfl

theorem Node.unplaced_listEvents {keepCamelCase : Bool} : {p p' : Place} → (nodes : List Node) → p.Same p' →
    (listEvents keepCamelCase p nodes).map Event.unplaced = (listEvents keepCamelCase p' nodes).map Event.unplaced
  | p, p', [], h => rfl
  | p, p', n :: rest, h => by
    rw [listEvents, listEvents, List.map_append, List.map_append, Node.unplaced_events n h,
      Node.unplaced_listEvents rest h]

end

theorem Block.unplaced_events (b : Block) (h : p.Same p') :
    (b.events keepCamelCase p).map Event.unplaced = (b.events keepCamelCase p').map Event.unplaced := by
  rw [events, events, List.map_append, List.map_append, h.declarations, Node.unplaced_listEvents _ h]

/-- Behind the same events, a walk over a block depends on the paths and the chain of its place only. -/
theorem Place.Same.recordAll (h : p.Same p') (s : Stylesheet) (before : List Event) (b : Block) :
    Stylesheet.SameOutcome (s.recordAll (before ++ b.events keepCamelCase p))
      (s.recordAll (before ++ b.events keepCamelCase p')) := by
  rw [Stylesheet.SameOutcome, ← Stylesheet.recordAll_unplaced, ← Stylesheet.recordAll_unplaced, List.map_append,
    List.map_append, b.unplaced_events h]

end

/-! ### Nestings -/

/-- The third list has the members of the first and of the second, each of the two in its order. -/
inductive Interleaved {α : Type} : List α → List α → List α → Prop
  | nil : Interleaved [] [] []
  | left {x : α} {l r m : List α} : Interleaved l r m → Interleaved (x :: l) r (x :: m)
  | right {x : α} {l r m : List α} : Interleaved l r m → Interleaved l (x :: r) (x :: m)

theorem Interleaved.left_only {α : Type} : (l : List α) → Interleaved l [] l
  | [] => .nil
  | _ :: rest => .left (left_only rest)

/-- A block that holds nothing but the keys, one below the other, around `b`. -/
def Block.under (keys : List String) (b : Block) : Block := keys.foldr (fun key b => ⟨[], [.ofBlock key b]⟩) b

namespace Selector

/-- A selector key that splits. -/
def IsSelector (key : String) : Prop :=
  keyKind key = .selector key ∧ ∃ alternatives, splitAlternatives key = .ok alternatives

def IsCondition (key : String) : Prop := ∃ header, keyKind key = .conditional header

/-- The key of an at-rule whose content starts with paths of its own. -/
def IsOwnRule (key : String) : Prop := ∃ header, keyKind key = .keyframes header ∨ keyKind key = .standalone header

/-- The paths below selector keys, one below the other. -/
def pathsBelow (paths : List String) (keys : List String) : List String :=
  keys.foldl (fun paths key => combine paths (alternatives key)) paths

def conditionHeader? (key : String) : Option String :=
  match keyKind key with
  | .conditional header => some header
  | .keyframes _ | .standalone _ | .selector _ => none

end Selector

/-- The buckets that conditions open, one inside the other. -/
def Chain.openings (chain : Chain) : List String → List Event
  | [] => []
  | header :: rest => .bucket (chain ++ [header]) :: Chain.openings (chain ++ [header]) rest

section
variable {p q : Place} {keepCamelCase : Bool} {b : Block} {key : String} {keys selectors conditions : List String}

theorem Place.enter_selector (h : Selector.IsSelector key) (p : Place) :
    p.enter key = .ok ⟨Selector.combine p.paths (Selector.alternatives key), p.chain, p.keys ++ [key]⟩ := by
  obtain ⟨hkind, alternatives, hsplit⟩ := h
  simp [enter, hkind, Selector.alternatives, hsplit, Except.map, Except.toOption]

theorem Place.enter_condition {header : String} (h : Selector.keyKind key = .conditional header) (p : Place) :
    p.enter key = .ok ⟨p.paths, p.chain ++ [header], p.keys ++ [key]⟩ := by
  simp [enter, h]

theorem Block.events_under_cons (h : p.enter key = .ok q) :
    (b.under (key :: keys)).events keepCamelCase p = p.bucketEvents q ++ (b.under keys).events keepCamelCase q := by
  have hchild : Node.events keepCamelCase p (.ofBlock key (b.under keys)) =
      p.bucketEvents q ++ (b.under keys).events keepCamelCase q := by
    simp only [Node.ofBlock, Node.events, h, Block.events, List.append_assoc]
  rw [← hchild]
  exact List.append_nil _

/-- Around a body, the conditions open their buckets one inside the other, and the selectors extend the paths,
    wherever the conditions stand among the selectors. -/
theorem Block.events_under (h : Interleaved selectors conditions keys) (hs : ∀ key ∈ selectors, Selector.IsSelector key)
    (hc : ∀ key ∈ conditions, Selector.IsCondition key) (keepCamelCase : Bool) (b : Block) (p : Place) :
    (b.under keys).events keepCamelCase p =
      Chain.openings p.chain (conditions.filterMap Selector.conditionHeader?) ++
        b.events keepCamelCase ⟨Selector.pathsBelow p.paths selectors,
          p.chain ++ conditions.filterMap Selector.conditionHeader?, p.keys ++ keys⟩ := by
  induction h generalizing p with
  | nil => simp [Block.under, Chain.openings, Selector.pathsBelow]
  | @left key selectors conditions keys _ ih =>
    have henter := p.enter_selector (hs key List.mem_cons_self)
    have hbucket : p.bucketEvents ⟨Selector.combine p.paths (Selector.alternatives key), p.chain, p.keys ++ [key]⟩ = [] :=
      if_pos rfl
    rw [events_under_cons henter, hbucket, List.nil_append, ih (fun k hk => hs k (List.mem_cons_of_mem _ hk)) hc]
    simp [Selector.pathsBelow]
  | @right key selectors conditions keys _ ih =>
    obtain ⟨header, hheader⟩ := hc key List.mem_cons_self
    have henter := p.enter_condition hheader
    have hsome : Selector.conditionHeader? key = some header := by rw [Selector.conditionHeader?, hheader]
    have hbucket : p.bucketEvents ⟨p.paths, p.chain ++ [header], p.keys ++ [key]⟩ = [.bucket (p.chain ++ [header])] :=
      if_neg (by simp)
    rw [events_under_cons henter, hbucket, ih hs fun k hk => hc k (List.mem_cons_of_mem _ hk)]
    simp [hsome, Chain.openings]

theorem Place.enter_ownRule (h : Selector.IsOwnRule key) : ∃ paths headers, ∀ p : Place,
    p.enter key = .ok ⟨paths, p.chain ++ headers, p.keys ++ [key]⟩ := by
  obtain ⟨header, hkind | hkind⟩ := h
  · exact ⟨[], [header], fun p => by simp only [enter, hkind]⟩
  · exact ⟨[header], [], fun p => by simp only [enter, hkind, List.append_nil]⟩

end

/-- Around the same body, the same selectors and the same conditions lead to the same sheet in whatever order
    the selectors stand to the conditions, and the selectors around `@keyframes` or an at-rule of its own
    change nothing. Where one walk fails, so does the other, with the same fault of the same key. -/
theorem hoisting_commutes_with_nesting (s : Stylesheet) (keepCamelCase : Bool) (p : Place) (b : Block) :
    (∀ selectors conditions keys keys', (∀ key ∈ selectors, Selector.IsSelector key) →
      (∀ key ∈ conditions, Selector.IsCondition key) → Interleaved selectors conditions keys →
      Interleaved selectors conditions keys' →
      Stylesheet.SameOutcome (s.walk keepCamelCase p (b.under keys)) (s.walk keepCamelCase p (b.under keys'))) ∧
    (∀ selectors key, (∀ key ∈ selectors, Selector.IsSelector key) → Selector.IsOwnRule key →
      Stylesheet.SameOutcome (s.walk keepCamelCase p (b.under (selectors ++ [key])))
        (s.walk keepCamelCase p (b.under [key]))) := by
  refine ⟨fun selectors conditions keys keys' hs hc hkeys hkeys' => ?_, fun selectors key hs hkey => ?_⟩
  · rw [Stylesheet.walk, Stylesheet.walk, Block.events_under hkeys hs hc,
      Block.events_under hkeys' hs hc]
    refine Place.Same.recordAll ?_ s _ b
    exact ⟨rfl, rfl⟩
  · obtain ⟨paths, headers, henter⟩ := Place.enter_ownRule hkey
    have hnest : b.under (selectors ++ [key]) = (b.under [key]).under selectors := List.foldr_append ..
    have hselectors := Block.events_under (.left_only selectors) hs (fun _ h => nomatch h) keepCamelCase (b.under [key]) p
    simp only [List.filterMap_nil, Chain.openings, List.nil_append, List.append_nil] at hselectors
    rw [Stylesheet.walk, Stylesheet.walk, hnest, hselectors, Block.events_under_cons (henter _),
      Block.events_under_cons (henter _)]
    refine Place.Same.recordAll ?_ s _ b
    exact ⟨rfl, rfl⟩

/-- A condition among selectors of several alternatives, and `@keyframes` below one. -/
theorem hoisting_commutes_with_nesting_print :
    let b : Block := ⟨[("color", .str "red"), ("skip", .null)], [.rule "&:hover" [("margin", .str "0")] [], .raw "hr"]⟩
    let p : Place := ⟨["p", "q"], ["@layer base"], ["p, q"]⟩
    Stylesheet.SameOutcome (Stylesheet.walk {} false p (b.under ["a, b", "@media print", ".x &"]))
        (Stylesheet.walk {} false p (b.under ["a, b", ".x &", "@media print"])) ∧
      Stylesheet.SameOutcome (Stylesheet.walk {} false p (b.under ["a, b", "@keyframes spin"]))
        (Stylesheet.walk {} false p (b.under ["@keyframes spin"])) := by
  intro b p
  have ha : Selector.IsSelector "a, b" := ⟨by decide, _, rfl⟩
  have hx : Selector.IsSelector ".x &" := ⟨by decide, _, rfl⟩
  have hprint : Selector.IsCondition "@media print" := ⟨_, rfl⟩
  have hspin : Selector.IsOwnRule "@keyframes spin" := ⟨_, .inl rfl⟩
  obtain ⟨hconditions, hown⟩ := hoisting_commutes_with_nesting {} false p b
  refine ⟨hconditions ["a, b", ".x &"] ["@media print"] _ _ ?_ ?_ (.left (.right (.left .nil))) (.left (.left (.right .nil))),
    hown ["a, b"] _ ?_ hspin⟩
  · exact List.forall_mem_cons.mpr ⟨ha, List.forall_mem_singleton.mpr hx⟩
  · exact List.forall_mem_singleton.mpr hprint
  · exact List.forall_mem_singleton.mpr ha

end StyleTree
