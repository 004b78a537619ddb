import StyleTree.Proofs.Document.Lookup

/-! Places in a document. A place is the list of keys that leads to a block. Changing the block at a place
    changes nothing at the places that are not below it. -/

namespace StyleTree

/-- What a child is without what is below it: a text, or a key. -/
inductive Label where
  | raw (text : String)
  | rule (key : String)
  deriving DecidableEq, Repr

def Node.label : Node → Label
  | .raw text => .raw text
  | .rule key _ _ => .rule key

namespace Block
variable {d n : Block} {f : Block → Block} {path : KeyPath}

def labels (b : Block) : List Label := b.children.map Node.label

/-- What a block is without what is below it. -/
def surface (b : Block) : List (String × Json) × List Label := (b.declarations, b.labels)

theorem mem_labels_iff {b : Block} {key : String} : .rule key ∈ b.labels ↔ key ∈ b.childKeys := by
  rw [labels, childKeys, List.mem_map, List.mem_filterMap]
  refine exists_congr fun c => and_congr_right fun _ => ?_
  cases c <;> simp [Node.label, Node.key?]

theorem map_label_mapChild (key : String) (f : Block → Block) (children : List Node) :
    (mapChild key f children).map Node.label = children.map Node.label := by
  induction children with
  | nil => rfl
  | cons m rest ih =>
    cases m with
    | raw text => rw [mapChild, List.map_cons, List.map_cons, ih]
    | rule k ds cs =>
      rw [mapChild]
      split
      · next h =>
        subst h
        rfl
      · rw [List.map_cons, List.map_cons, ih]

theorem mapChild_congr {b c : Block} {key : String} {f g : Block → Block} (hc : b.child? key = some c) (hfg : f c = g c) :
    mapChild key f b.children = mapChild key g b.children := by
  obtain ⟨ds, children⟩ := b
  induction children with
  | nil => rfl
  | cons m rest ih =>
    cases m with
    | raw text => rw [mapChild, mapChild, ih (child?_raw ds text rest key ▸ hc)]
    | rule k ds' cs =>
      rw [child?_rule] at hc
      rw [mapChild, mapChild]
      split at hc
      · next hk =>
        cases hc
        rw [if_pos hk, if_pos hk, hfg]
      · next hk => rw [if_neg hk, if_neg hk, ih hc]

theorem at?_cons (b : Block) (key : String) (path : KeyPath) :
    b.at? (key :: path) = (b.child? key).bind fun c => c.at? path := rfl

theorem child?_modifyAt_cons (d : Block) (key k : String) (path : KeyPath) :
    (modifyAt f (key :: path) d).child? k = if key = k then (d.child? k).map (modifyAt f path) else d.child? k :=
  child?_mapChild d key k (modifyAt f path)

theorem at?_modifyAt_self (h : d.at? path = some n) : (modifyAt f path d).at? path = some (f n) := by
  induction path generalizing d with
  | nil =>
    cases h
    rfl
  | cons key rest ih =>
    obtain ⟨c, hc, hn⟩ := Option.bind_eq_some_iff.mp h
    rw [at?_cons, child?_modifyAt_cons, if_pos rfl, hc, Option.map_some, Option.bind_some]
    exact ih hn

/-- A change at a place depends on the block there alone. -/
theorem modifyAt_congr {g : Block → Block} (h : d.at? path = some n) (hfg : f n = g n) :
    modifyAt f path d = modifyAt g path d := by
  induction path generalizing d with
  | nil =>
    cases h
    exact hfg
  | cons key rest ih =>
    obtain ⟨c, hc, hn⟩ := Option.bind_eq_some_iff.mp h
    rw [modifyAt, modifyAt, mapChild_congr hc (ih hn)]

theorem surface_at?_modifyAt {q : KeyPath} (h : ¬ path <+: q) :
    ((modifyAt f path d).at? q).map surface = (d.at? q).map surface := by
  induction path generalizing d q with
  | nil => exact absurd List.nil_prefix h
  | cons key rest ih =>
    cases q with
    | nil => exact congrArg (fun l => some (d.declarations, l)) (map_label_mapChild key (modifyAt f rest) d.children)
    | cons k q =>
      rw [at?_cons, at?_cons, child?_modifyAt_cons]
      split
      · next hk =>
        subst hk
        have hq : ¬ rest <+: q := fun hp => h ((List.prefix_cons_inj key).mpr hp)
        cases d.child? key with
        | none => rfl
        | some c => exact ih hq
      · rfl

end Block

end StyleTree
