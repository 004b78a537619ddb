import StyleTree.Proofs.Document.Preorder
import StyleTree.Proofs.Sheet.Rewrites

/-! Keys that do not split. A walk ends at the first of them in pre-order, wherever it stands, and the error has
    the key, what is wrong with it, and all keys from the root down to it. Nothing else ends a walk. -/

namespace StyleTree

/-! ### Faults of keys -/

/-- What is wrong with a key of the selector kind that does not split. -/
def Selector.fault? (key : String) : Option KeyFault :=
  match keyKind key with
  | .conditional _ | .keyframes _ | .standalone _ => none
  | .selector text =>
    match splitAlternatives text with
    | .error fault => some fault
    | .ok _ => none

theorem Selector.fault?_eq_some_iff {key : String} {fault : KeyFault} :
    fault? key = some fault ↔ ∃ text, keyKind key = .selector text ∧ splitAlternatives text = .error fault := by
  rw [fault?]
  cases keyKind key with
  | conditional header | keyframes header | standalone header => simp
  | selector text => cases h : splitAlternatives text <;> simp [h]

/-- The error about the last key of a path. -/
def KeyPath.fault? (path : KeyPath) : Option Error :=
  path.getLast?.bind fun key => (Selector.fault? key).map (.malformedKey key path)

theorem KeyPath.fault?_concat (path : KeyPath) (key : String) :
    KeyPath.fault? (path ++ [key]) = (Selector.fault? key).map (.malformedKey key (path ++ [key])) := by
  rw [fault?, List.getLast?_concat]
  rfl

theorem KeyPath.fault?_eq_some_iff {path : KeyPath} {error : Error} : KeyPath.fault? path = some error ↔
    ∃ above key fault, path = above ++ [key] ∧ Selector.fault? key = some fault ∧ error = .malformedKey key path fault := by
  cases path using List.reverseRecOn with
  | nil => simp [fault?]
  | append_singleton above key =>
    rw [fault?_concat, Option.map_eq_some_iff]
    constructor
    · rintro ⟨fault, hfault, rfl⟩
      exact ⟨above, key, fault, rfl, hfault, rfl⟩
    · rintro ⟨above', key', fault, hpath, hfault, rfl⟩
      obtain ⟨-, hkey⟩ := List.append_inj' hpath rfl
      cases hkey
      exact ⟨fault, hfault, rfl⟩

theorem Place.enter_fault? (p : Place) (key : String) :
    match p.enter key with
    | .error fault => Selector.fault? key = some fault
    | .ok q => Selector.fault? key = none ∧ q.keys = p.keys ++ [key] := by
  rw [enter, Selector.fault?]
  cases Selector.keyKind key with
  | conditional header | keyframes header | standalone header => exact ⟨rfl, rfl⟩
  | selector text =>
    dsimp only
    cases Selector.splitAlternatives text with
    | error fault => rfl
    | ok alternatives => exact ⟨rfl, rfl⟩

/-! ### The first fault -/

section
variable (keepCamelCase : Bool)

theorem Place.findSome?_declarations (p : Place) (ds : List (String × Json)) :
    (ds.flatMap fun d => p.declarationEvents keepCamelCase d.1 d.2).findSome? Event.fault? = none := by
  rw [← List.head?_filterMap, List.filterMap_flatMap]
  simp [Place.fault?_declarationEvents]

mutual

/-- The first fault of a walk is that of the first block whose key does not split. -/
theorem Node.findSome?_events (i : Nat) : (p : Place) → (n : Node) →
    (n.events keepCamelCase p).findSome? Event.fault? = (n.located i).findSome? fun l => KeyPath.fault? (p.keys ++ l.path)
  | p, .raw text => rfl
  | p, .rule key ds cs => by
    have henter := p.enter_fault? key
    have hlocated : ((Node.rule key ds cs).located i).findSome? (fun l => KeyPath.fault? (p.keys ++ l.path)) =
        (KeyPath.fault? (p.keys ++ [key])).or
          ((listLocated 0 cs).findSome? fun l => KeyPath.fault? (p.keys ++ [key] ++ l.path)) := by
      simp only [located, List.map_cons, List.findSome?_cons, List.findSome?_map, Function.comp_def, Located.under,
        List.append_assoc, List.singleton_append]
      cases KeyPath.fault? (p.keys ++ [key]) <;> simp
    rw [hlocated, KeyPath.fault?_concat, events]
    cases hq : p.enter key with
    | error fault =>
      rw [hq] at henter
      rw [show Selector.fault? key = some fault from henter]
      rfl
    | ok q =>
      rw [hq] at henter
      obtain ⟨hfault, hkeys⟩ := henter
      have hbucket : (p.bucketEvents q).findSome? Event.fault? = none := by
        rw [Place.bucketEvents]
        split <;> rfl
      simp only [List.findSome?_append, hbucket, Place.findSome?_declarations, Node.findSome?_listEvents 0 q cs, hfault, hkeys,
        Option.map_none, Option.none_or]

theorem Node.findSome?_listEvents (i : Nat) : (p : Place) → (nodes : List Node) →
    (listEvents keepCamelCase p nodes).findSome? Event.fault? =
      (listLocated i nodes).findSome? fun l => KeyPath.fault? (p.keys ++ l.path)
  | p, [] => rfl
  | p, n :: rest => by
    rw [listEvents, listLocated, List.findSome?_append, List.findSome?_append, Node.findSome?_events i p n,
      Node.findSome?_listEvents (i + 1) p rest]

end

theorem Block.findSome?_events (d : Document) :
    (d.events keepCamelCase {}).findSome? Event.fault? = d.located.findSome? fun l => KeyPath.fault? l.path := by
  rw [events, located, List.findSome?_append, Place.findSome?_declarations, Node.findSome?_listEvents keepCamelCase 0]
  rfl

end

/-! ### Malformed blocks -/

/-- The keys down to a block end in one of the selector kind that does not split. -/
structure Block.Malformed (d : Document) (position : List Nat) (path : KeyPath) (key : String) (fault : KeyFault) :
    Prop where
  leads : ∃ n, d.Leads position (path ++ [key]) n
  rejected : ∃ text, Selector.keyKind key = .selector text ∧ Selector.splitAlternatives text = .error fault

namespace Block
variable {d : Document} {error : Error}

/-- The listing is searched for faults as the blocks are for malformed ones. -/
theorem fault?_located_iff {position : List Nat} :
    (∃ l ∈ d.located, l.position = position ∧ KeyPath.fault? l.path = some error) ↔
    ∃ path key fault, d.Malformed position path key fault ∧ error = .malformedKey key (path ++ [key]) fault := by
  constructor
  · rintro ⟨⟨_, path, n⟩, hl, rfl, hfault⟩
    obtain ⟨above, key, fault, rfl, hkey, rfl⟩ := KeyPath.fault?_eq_some_iff.mp hfault
    exact ⟨above, key, fault, ⟨⟨n, mem_located_iff.mp hl⟩, Selector.fault?_eq_some_iff.mp hkey⟩, rfl⟩
  · rintro ⟨path, key, fault, ⟨⟨n, hn⟩, hkey⟩, rfl⟩
    refine ⟨⟨position, path ++ [key], n⟩, mem_located_iff.mpr hn, rfl, ?_⟩
    rw [KeyPath.fault?_concat, Selector.fault?_eq_some_iff.mpr hkey]
    rfl

theorem exists_malformed_iff : (∃ error, (d.located.findSome? fun l => KeyPath.fault? l.path) = some error) ↔
    ∃ position path key fault, d.Malformed position path key fault := by
  constructor
  · rintro ⟨error, h⟩
    obtain ⟨l, hl, hfault⟩ := List.exists_of_findSome?_eq_some h
    obtain ⟨path, key, fault, hmalformed, -⟩ := fault?_located_iff.mp ⟨l, hl, rfl, hfault⟩
    exact ⟨_, path, key, fault, hmalformed⟩
  · rintro ⟨position, path, key, fault, h⟩
    obtain ⟨l, hl, -, hfault⟩ := fault?_located_iff.mpr ⟨path, key, fault, h, rfl⟩
    refine Option.ne_none_iff_exists'.mp fun hnone => ?_
    cases hfault.symm.trans (List.findSome?_eq_none_iff.mp hnone l hl)

/-- The first fault in the listing is that of the malformed block with the least position. -/
theorem findSome?_located_eq_some_iff : (d.located.findSome? fun l => KeyPath.fault? l.path) = some error ↔
    ∃ position path key fault, d.Malformed position path key fault ∧ error = .malformedKey key (path ++ [key]) fault ∧
      ∀ position' path' key' fault', d.Malformed position' path' key' fault' → position ≤ position' := by
  rw [Located.findSome?_eq_some_iff d.pairwise_located]
  constructor
  · rintro ⟨l, hl, hfault, hfirst⟩
    obtain ⟨path, key, fault, hmalformed, herror⟩ := fault?_located_iff.mp ⟨l, hl, rfl, hfault⟩
    refine ⟨_, path, key, fault, hmalformed, herror, fun position' path' key' fault' h' => ?_⟩
    obtain ⟨l', hl', rfl, hfault'⟩ := fault?_located_iff.mpr ⟨path', key', fault', h', rfl⟩
    exact hfirst l' hl' (Option.ne_none_iff_exists'.mpr ⟨_, hfault'⟩)
  · rintro ⟨position, path, key, fault, hmalformed, herror, hfirst⟩
    obtain ⟨l, hl, rfl, hfault⟩ := fault?_located_iff.mpr ⟨path, key, fault, hmalformed, herror⟩
    refine ⟨l, hl, hfault, fun l' hl' hsome => ?_⟩
    obtain ⟨error', hfault'⟩ := Option.ne_none_iff_exists'.mp hsome
    obtain ⟨path', key', fault', h', -⟩ := fault?_located_iff.mp ⟨l', hl', rfl, hfault'⟩
    exact hfirst _ path' key' fault' h'

end Block

theorem Stylesheet.result_build_eq_error_iff {d : Document} {o : Options} {error : Error} :
    (build d o).result = .error error ↔ (d.located.findSome? fun l => KeyPath.fault? l.path) = some error := by
  rw [← Block.findSome?_events o.keepCamelCase, ← List.head?_filterMap]
  rcases recordAll_cases {} (d.events o.keepCamelCase {}) with ⟨s, hs, hnone⟩ | ⟨fault, hs, hfault⟩
  · rw [build, hs, hnone]
    simp
  · rw [build, hs, hfault]
    simp

/-- A document is built unless the key of some block does not split, wherever the block stands and whatever is
    below it. The error is about the first such block in pre-order, and shows its key, what is wrong with it, and
    all keys that lead to it. -/
theorem build_reports_first_malformed_key (d : Document) (o : Options) :
    ((∃ error, (Stylesheet.build d o).result = .error error) ↔
      ∃ position path key fault, d.Malformed position path key fault) ∧
    ∀ error, (Stylesheet.build d o).result = .error error ↔ ∃ position path key fault,
      d.Malformed position path key fault ∧ error = .malformedKey key (path ++ [key]) fault ∧
        ∀ position' path' key' fault', d.Malformed position' path' key' fault' → position ≤ position' := by
  simp only [Stylesheet.result_build_eq_error_iff]
  exact ⟨Block.exists_malformed_iff, fun _ => Block.findSome?_located_eq_some_iff⟩

/-- Below `@keyframes` and without declarations, and in front of another. -/
example : (Stylesheet.build ⟨[], [.rule "@keyframes turn" [] [.rule "from, a[" [] []], .rule "b)" [] []]⟩ {}).result =
    .error (.malformedKey "from, a[" ["@keyframes turn", "from, a["] (.unclosedBracket '[')) := rfl

end StyleTree
