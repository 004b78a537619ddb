import StyleTree.Proofs.Sheet.Writes
import StyleTree.Sheet.Walk

/-! What a built stylesheet holds. The walk meets the blocks of a document from the root down, each at its
    place. Seen from the sheet, a table holds what the blocks at places of its chain write, and a bucket
    is there for every chain that the keys met open, whether anything is written to it or not. -/

namespace StyleTree

open Selector (distinct insertNew foldl_insertNew_of_subset)

/-! ### The nodes that a walk meets -/

/-- A node at its place: a block with its key, which the root has none of, or a raw text. -/
inductive Visit where
  | block (key? : Option String) (place : Place) (declarations : List (String × Json))
  | raw (place : Place) (text : String)

mutual

/-- A child and all below it, each block before its children. Nothing below a key that does not split is
    met. -/
def Node.visits (p : Place) : Node → List Visit
  | .raw text => [.raw p text]
  | .rule key declarations children =>
    match p.enter key with
    | .error _ => []
    | .ok q => .block key q declarations :: Node.listVisits q children

def Node.listVisits (p : Place) : List Node → List Visit
  | [] => []
  | n :: rest => n.visits p ++ Node.listVisits p rest

end

def Block.visits (d : Document) : List Visit := .block none {} d.declarations :: Node.listVisits {} d.children

namespace Visit

/-- The chain that a condition or `@keyframes` opens. -/
def opened? : Visit → Option Chain
  | .block (some key) p _ =>
    match Selector.keyKind key with
    | .conditional _ | .keyframes _ => some p.chain
    | .standalone _ | .selector _ => none
  | .block none _ _ | .raw _ _ => none

/-- What a node writes to the table of its chain: each declaration that has a text is a fact about each of
    the paths. -/
def calls (keepCamelCase : Bool) : Visit → List (Chain × TableCall)
  | .raw p text => [(p.chain, .raw text)]
  | .block _ p declarations => declarations.flatMap fun d => d.2.cssText?.toList.flatMap fun text =>
      p.paths.map fun path => (p.chain, .fact ⟨path, propertyName d.1 keepCamelCase, text⟩)

end Visit

/-- The calls to the table of one chain. -/
def TableCall.to (chain : Chain) (calls : List (Chain × TableCall)) : List TableCall :=
  calls.filterMap fun c => if c.1 = chain then some c.2 else none

/-- All that the document writes to the table of a chain, in the order of the walk. -/
def Block.calls (d : Document) (keepCamelCase : Bool) (chain : Chain) : List TableCall :=
  TableCall.to chain (d.visits.flatMap (Visit.calls keepCamelCase))

/-! ### Events -/

namespace Event

def write? : Event → Option (Chain × TableCall)
  | .fact chain f => some (chain, .fact f)
  | .raw chain text => some (chain, .raw text)
  | .bucket _ | .dropped _ _ | .malformed _ _ _ => none

/-- The chain of the bucket that the event needs. -/
def bucket? : Event → Option Chain
  | .bucket chain | .fact chain _ | .raw chain _ => if chain = [] then none else some chain
  | .dropped _ _ | .malformed _ _ _ => none

end Event

section
variable {keepCamelCase : Bool} {p q : Place}

theorem Place.chain_enter {key : String} (h : p.enter key = .ok q) :
    q.chain = match Selector.keyKind key with
      | .conditional header | .keyframes header => p.chain ++ [header]
      | .standalone _ | .selector _ => p.chain := by
  rw [enter] at h
  cases hk : Selector.keyKind key with
  | conditional header | keyframes header | standalone header =>
    rw [hk] at h
    cases h
    rfl
  | selector text =>
    rw [hk] at h
    dsimp only at h
    cases hs : Selector.splitAlternatives text with
    | error fault => rw [hs] at h; cases h
    | ok alternatives => rw [hs] at h; cases h; rfl

/-- The events open a bucket where the key does. -/
theorem Place.bucketEvents_enter {key : String} (h : p.enter key = .ok q) (ds : List (String × Json)) :
    (p.bucketEvents q).filterMap Event.bucket? = (Visit.opened? (.block key q ds)).toList := by
  have hchain := chain_enter h
  rw [bucketEvents, Visit.opened?]
  split at hchain
  all_goals simp [hchain, Event.bucket?]

theorem Place.write?_declarationEvents (p : Place) (keepCamelCase : Bool) (name : String) (value : Json) :
    (p.declarationEvents keepCamelCase name value).filterMap Event.write? = value.cssText?.toList.flatMap fun text =>
      p.paths.map fun path => (p.chain, .fact ⟨path, propertyName name keepCamelCase, text⟩) := by
  rw [declarationEvents]
  cases value.cssText? with
  | none => rfl
  | some text =>
    simp only [Option.toList_some, List.flatMap_singleton]
    split
    · next h => simp [h, Event.write?]
    · rw [List.filterMap_map]
      exact congrFun List.filterMap_eq_map p.paths

/-- A declaration writes to the table of the chain that its block stands in. -/
theorem Place.bucket?_declarationEvents {name : String} {value : Json} {chain : Chain}
    (h : chain ∈ (p.declarationEvents keepCamelCase name value).filterMap Event.bucket?) :
    p.chain ≠ [] ∧ chain = p.chain := by
  obtain ⟨e, he, hchain⟩ := List.mem_filterMap.mp h
  rw [declarationEvents] at he
  split at he
  · cases he
  · split at he
    · rw [List.mem_singleton.mp he] at hchain
      cases hchain
    · obtain ⟨path, -, rfl⟩ := List.mem_map.mp he
      rw [Event.bucket?] at hchain
      split at hchain
      · cases hchain
      · next hp => exact ⟨hp, (Option.some.inj hchain).symm⟩

end

/-! ### Events and visits -/

mutual

theorem Node.write?_events (keepCamelCase : Bool) : (p : Place) → (n : Node) →
    (n.events keepCamelCase p).filterMap Event.write? = (n.visits p).flatMap (Visit.calls keepCamelCase)
  | p, .raw text => rfl
  | p, .rule key ds cs => by
    rw [events, visits]
    cases p.enter key with
    | error fault => rfl
    | ok q =>
      have hbucket : (p.bucketEvents q).filterMap Event.write? = [] := by
        rw [Place.bucketEvents]
        split <;> rfl
      dsimp only
      rw [List.filterMap_append, List.filterMap_append, hbucket, List.nil_append, List.filterMap_flatMap,
        Node.write?_listEvents keepCamelCase q cs, List.flatMap_cons, Visit.calls]
      simp only [Place.write?_declarationEvents]

theorem Node.write?_listEvents (keepCamelCase : Bool) : (p : Place) → (nodes : List Node) →
    (listEvents keepCamelCase p nodes).filterMap Event.write? = (listVisits p nodes).flatMap (Visit.calls keepCamelCase)
  | p, [] => rfl
  | p, n :: rest => by
    rw [listEvents, listVisits, List.filterMap_append, List.flatMap_append, Node.write?_events keepCamelCase p n,
      Node.write?_listEvents keepCamelCase p rest]

end

theorem Block.write?_events (d : Document) (keepCamelCase : Bool) :
    (d.events keepCamelCase {}).filterMap Event.write? = d.visits.flatMap (Visit.calls keepCamelCase) := by
  rw [events, visits, List.filterMap_append, List.filterMap_flatMap, Node.write?_listEvents, List.flatMap_cons, Visit.calls]
  simp only [Place.write?_declarationEvents]

/-- The chain of a place is that of the root, or its bucket is open. -/
def Place.Open (seen : List Chain) (p : Place) : Prop := p.chain = [] ∨ p.chain ∈ seen

theorem Place.Open.mono {seen seen' : List Chain} {p : Place} (h : p.Open seen) (hs : seen ⊆ seen') : p.Open seen' :=
  h.imp_right (@hs _)

theorem Place.Open.declarations {seen : List Chain} {p : Place} (h : p.Open seen) (keepCamelCase : Bool)
    (ds : List (String × Json)) :
    ((ds.flatMap fun d => p.declarationEvents keepCamelCase d.1 d.2).filterMap Event.bucket?).foldl insertNew seen = seen := by
  refine foldl_insertNew_of_subset fun chain hchain => ?_
  rw [List.filterMap_flatMap] at hchain
  obtain ⟨d, -, hd⟩ := List.mem_flatMap.mp hchain
  obtain ⟨hp, rfl⟩ := p.bucket?_declarationEvents hd
  exact h.resolve_left hp

theorem Place.Open.enter {seen : List Chain} {p q : Place} (h : p.Open seen) {key : String} (hq : p.enter key = .ok q)
    (ds : List (String × Json)) : q.Open ((Visit.opened? (.block key q ds)).toList.foldl insertNew seen) := by
  have hchain := p.chain_enter hq
  have opened : q.chain ∈ insertNew seen q.chain := by
    rw [insertNew]
    split
    · assumption
    · exact List.mem_append_right _ List.mem_cons_self
  rw [Visit.opened?]
  split at hchain
  · exact .inr opened
  · exact .inr opened
  · exact h.imp hchain.trans (hchain ▸ ·)
  · exact h.imp hchain.trans (hchain ▸ ·)

mutual

/-- Where the place is open, only the keys that are met open further buckets. -/
theorem Node.bucket?_events (keepCamelCase : Bool) : (p : Place) → (n : Node) → {seen : List Chain} → p.Open seen →
    ((n.events keepCamelCase p).filterMap Event.bucket?).foldl insertNew seen =
      ((n.visits p).filterMap Visit.opened?).foldl insertNew seen
  | p, .raw text, seen, h => by
    refine foldl_insertNew_of_subset fun chain hchain => ?_
    obtain ⟨e, he, hchain⟩ := List.mem_filterMap.mp hchain
    rw [List.mem_singleton.mp he, Event.bucket?] at hchain
    split at hchain
    · cases hchain
    · next hp => exact Option.some.inj hchain ▸ h.resolve_left hp
  | p, .rule key ds cs, seen, h => by
    rw [events, visits]
    cases hq : p.enter key with
    | error fault => rfl
    | ok q =>
      -- Once the key has opened its bucket, the declarations open none, and the children start from there.
      have hopen := h.enter hq ds
      dsimp only
      rw [List.filterMap_append, List.filterMap_append, Place.bucketEvents_enter hq ds, List.foldl_append,
        List.foldl_append, hopen.declarations, Node.bucket?_listEvents keepCamelCase q cs hopen, ← List.foldl_append]
      cases hv : Visit.opened? (.block key q ds) <;> simp [hv]

theorem Node.bucket?_listEvents (keepCamelCase : Bool) : (p : Place) → (nodes : List Node) → {seen : List Chain} →
    p.Open seen → ((listEvents keepCamelCase p nodes).filterMap Event.bucket?).foldl insertNew seen =
      ((listVisits p nodes).filterMap Visit.opened?).foldl insertNew seen
  | p, [], seen, h => rfl
  | p, n :: rest, seen, h => by
    rw [listEvents, listVisits, List.filterMap_append, List.filterMap_append, List.foldl_append, List.foldl_append,
      Node.bucket?_events keepCamelCase p n h,
      Node.bucket?_listEvents keepCamelCase p rest (h.mono (Selector.subset_foldl_insertNew _ _))]

end

theorem Block.bucket?_events (d : Document) (keepCamelCase : Bool) :
    ((d.events keepCamelCase {}).filterMap Event.bucket?).foldl insertNew [] =
      (d.visits.filterMap Visit.opened?).foldl insertNew [] := by
  have hroot : Place.Open [] {} := .inl rfl
  rw [events, visits, List.filterMap_append, List.foldl_append, hroot.declarations, Node.bucket?_listEvents _ _ _ hroot]
  rfl

end StyleTree
