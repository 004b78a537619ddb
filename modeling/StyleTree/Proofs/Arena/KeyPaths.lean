import StyleTree.Proofs.Arena.Reached
import StyleTree.Proofs.Document.KeyPaths
import StyleTree.Proofs.Document.Places
import StyleTree.Proofs.Document.Reached

/-! Key paths of an arena. The key path of a node is read off from the node upwards, through parents that no
    operation changes, and it is looked up from the root downwards, through children that every operation may
    change. In a sound arena the two meet: the key path of every node that can be reached leads back to it.

    So the key path of a node is also the one that the walk of the tree comes along, and a change below the node
    is a change of the tree at this place. -/

namespace StyleTree.Arena
variable {a a' : Arena} {id c k : Nat} {key : String}

/-! ### Up and down -/

/-- As parents stand in front of their children, the way up ends at the root. -/
theorem Linked.keyPath_eq (ha : a.Linked) (id : Nat) : a.keyPath id =
    match (a.node id).parent with
    | none => []
    | some p => a.keyPath p ++ [(a.node id).key] := by
  rw [keyPath]
  cases hp : (a.node id).parent with
  | none => rfl
  | some p => simp only [dif_pos (ha.parent_lt hp)]

theorem Linked.keyPath_root (ha : a.Linked) : a.keyPath root = [] := by rw [ha.keyPath_eq, ha.parent_root]

theorem Linked.keyPath_child (ha : a.Linked) (hc : c ∈ a.childIds id) : a.keyPath c = a.keyPath id ++ [(a.node c).key] := by
  rw [ha.keyPath_eq, (ha.owned hc).2]

theorem follow?_concat (a : Arena) (id : Nat) (path : KeyPath) (key : String) :
    a.follow? id (path ++ [key]) = (a.follow? id path).bind (a.child? · key) := by
  induction path generalizing id with
  | nil => cases h : a.child? id key <;> simp [follow?, h]
  | cons k path ih =>
    rw [List.cons_append, follow?, follow?]
    cases a.child? id k with
    | none => rfl
    | some c => exact ih c

/-- The way up from a node and the way down from the root are the same. -/
theorem Sound.follow?_keyPath (ha : a.Sound) (h : a.Reaches root id) : a.follow? root (a.keyPath id) = some id := by
  induction h with
  | here =>
    rw [ha.toLinked.keyPath_root]
    rfl
  | child _ hc ih =>
    rw [ha.toLinked.keyPath_child hc, follow?_concat, ih]
    exact child?_of_mem (ha.childKeys_nodup _) hc

/-- What every node of a document keeps to: no key twice among the children, none declared as well, and no
    declaration that ought to be a child. -/
structure Coherent (a : Arena) (id : Nat) : Prop where
  children : (a.childKeys id).Nodup
  disjoint : (a.declared id).Disjoint (a.childKeys id)
  leaves : ∀ d ∈ (a.node id).declarations, d.2.isFragment = false

theorem Sound.coherent (ha : a.Sound) (id : Nat) : a.Coherent id where
  children := ha.childKeys_nodup id
  disjoint := List.disjoint_of_nodup_append (ha.keys id)
  leaves := ha.leaves id

/-- Whatever operations build a document, in each of its nodes the children have distinct keys, none of them is
    declared as well, and what is declared is no map and no sequence of maps. The key path of a node that can be
    reached, followed from the root, leads back to this node and to no other. -/
theorem operations_keep_key_paths (h : a.Reached) :
    (∀ id, a.Coherent id) ∧ ∀ id, a.Reaches root id → a.follow? root (a.keyPath id) = some id :=
  ⟨h.sound.coherent, fun _ hid => h.sound.follow?_keyPath hid⟩

/-- An extension that styles the block where it is invoked, and one of its children. -/
def boxes : Registry where
  entries := [("box", fun _ => .obj [("width", .str "1px"), ("p", .obj [("color", .str "red")])])]

theorem boxes_sound : Registry.Sound boxes := by
  intro name f hf v _
  simp only [Registry.get?, boxes, Assoc.get?_cons] at hf
  split at hf
  · cases hf
    show (Json.obj [("width", .str "1px"), ("p", .obj [("color", .str "red")])]).WellFormed
    decide
  · cases hf

/-- A document with two boxes. Below `a` a leaf and a child changed places, so there are detached nodes. -/
def unboxed : Arena :=
  let authored := (mergeFields {} root none
    [("a", .obj [("p", .str "1"), ("q", .obj [("color", .str "blue")])]), ("b", .obj [("box", .str "")])]).1
  let swapped := (authored.mergeItems 1 (some 0) [.obj [("q", .str "2"), ("p", .obj [])], .arr [.obj [("p", .str "3")]]]).1
  ((swapped.pushRaw "hr").mergeFields 1 (some 1) [("box", .str "")]).1

def boxed : Arena where
  nodes := [
    { children := [.node 1, .node 3, .raw "hr"] },
    { key := "a", parent := some 0, declarations := [("q", .str "2"), ("width", .str "1px")], children := [.node 5] },
    { key := "q", parent := some 1, declarations := [("color", .str "blue")] },
    { key := "b", parent := some 0, declarations := [("width", .str "1px")], children := [.node 6] },
    { key := "p", parent := some 1 },
    { key := "p", parent := some 1, declarations := [("color", .str "red")] },
    { key := "p", parent := some 3, declarations := [("color", .str "red")] }]

theorem reached_unboxed : unboxed.Reached := by
  refine .mergeMap (some 1) (.pushRaw "hr" (.mergeSequence (some 0) (.merge (v := .obj _) .new ?_ rfl) ?_ ?_)) ?_ ?_
  all_goals decide

/-- The document with the first box expanded. -/
def halfBoxed : Arena where
  nodes := [
    { children := [.node 1, .node 3, .raw "hr"] },
    { key := "a", parent := some 0, declarations := [("q", .str "2"), ("width", .str "1px")], children := [.node 5] },
    { key := "q", parent := some 1, declarations := [("color", .str "blue")] },
    { key := "b", parent := some 0, declarations := [("box", .str "")] },
    { key := "p", parent := some 1 },
    { key := "p", parent := some 1, declarations := [("color", .str "red")] }]

theorem resolves_unboxed : unboxed.Resolves boxes (.ok boxed) := by
  have ha : Runs boxes (.node 0 1) unboxed (.ok halfBoxed) :=
    .expanded (.step rfl (by decide) (.done rfl)) (.next (.expanded (.done rfl) .done) .done)
  have hb : Runs boxes (.node 0 3) halfBoxed (.ok boxed) :=
    .expanded (.step rfl (by decide) (.done rfl)) (.next (.expanded (.done rfl) .done) .done)
  exact .run rfl (.expanded (.done rfl) (.next ha (.next hb .done)))

/-- The node that the box below `b` brought in, where other nodes with its key were there before it. -/
theorem operations_keep_key_paths_boxed :
    boxed.Reached ∧ boxed.Reaches root 6 ∧ boxed.keyPath 6 = ["b", "p"] ∧ boxed.Coherent 3 ∧
      boxed.follow? root (boxed.keyPath 6) = some 6 := by
  have h : boxed.Reached := .resolve reached_unboxed boxes_sound resolves_unboxed
  have hb : 3 ∈ boxed.childIds root := by decide
  have hp : 6 ∈ boxed.childIds 3 := by decide
  have hreaches : boxed.Reaches root 6 := .child (.child .here hb) hp
  have hlinked := h.sound.toLinked
  have hpath : boxed.keyPath 6 = ["b", "p"] := by
    rw [hlinked.keyPath_child hp, hlinked.keyPath_child hb, hlinked.keyPath_root]
    rfl
  obtain ⟨hcoherent, hfollow⟩ := operations_keep_key_paths h
  exact ⟨h, hreaches, hpath, hcoherent 3, hfollow 6 hreaches⟩

/-! ### Places of the tree -/

theorem view_eq_ofBlock {child : Child} {n : Block} (h : a.view child = .ofBlock key n) :
    ∃ c, child = .node c ∧ (a.node c).key = key ∧ a.block c = n := by
  cases child with
  | raw text => cases h
  | node c => exact ⟨c, rfl, Node.ofBlock_inj.mp h⟩

theorem Linked.leads_child (ha : a.Linked) (hc : c ∈ a.childIds id) :
    ∃ i, (a.block id).Leads [i] [(a.node c).key] (a.block c) := by
  obtain ⟨i, hi⟩ := List.mem_iff_getElem?.mp (mem_childIds.mp hc)
  refine ⟨i, .child ?_ (.here _)⟩
  rw [ha.block_eq id, List.getElem?_map, hi]
  rfl

theorem Linked.leads_keyPath (ha : a.Linked) (h : a.Reaches root id) :
    ∃ position, (a.block root).Leads position (a.keyPath id) (a.block id) := by
  induction h with
  | here =>
    rw [ha.keyPath_root]
    exact ⟨[], .here _⟩
  | child _ hc ih =>
    obtain ⟨position, hk⟩ := ih
    obtain ⟨i, hi⟩ := ha.leads_child hc
    rw [ha.keyPath_child hc]
    exact ⟨position ++ [i], hk.append hi⟩

theorem Linked.exists_of_leads (ha : a.Linked) (h : a.Reaches root id) {position : List Nat} {path : KeyPath} {n : Block}
    (hn : (a.block id).Leads position path n) :
    ∃ k, a.Reaches root k ∧ a.keyPath k = a.keyPath id ++ path ∧ a.block k = n := by
  generalize hb : a.block id = b at hn
  induction hn generalizing id with
  | here => exact ⟨id, h, (List.append_nil _).symm, hb⟩
  | child hi _ ih =>
    rw [← hb, ha.block_eq, List.getElem?_map, Option.map_eq_some_iff] at hi
    obtain ⟨child, hchild, hview⟩ := hi
    obtain ⟨c, rfl, rfl, hblock⟩ := view_eq_ofBlock hview
    have hc := mem_childIds.mpr (List.mem_of_getElem? hchild)
    obtain ⟨k, hk, hpath, hn⟩ := ih (h.child hc) hblock
    exact ⟨k, hk, by rw [hpath, ha.keyPath_child hc, List.append_assoc, List.singleton_append], hn⟩

/-- The keys on the way down to a block of the tree are the key path of its node. -/
theorem Linked.leads_iff (ha : a.Linked) {path : KeyPath} {n : Block} :
    (∃ position, (a.block root).Leads position path n) ↔ ∃ id, a.Reaches root id ∧ a.keyPath id = path ∧ a.block id = n := by
  constructor
  · rintro ⟨position, hn⟩
    obtain ⟨k, hk, hpath, hblock⟩ := ha.exists_of_leads .here hn
    rw [ha.keyPath_root] at hpath
    exact ⟨k, hk, hpath, hblock⟩
  · rintro ⟨id, hid, rfl, rfl⟩
    exact ha.leads_keyPath hid

/-! ### Changes at places -/

theorem modifyAt_concat (f : Block → Block) (path : KeyPath) (key : String) (b : Block) :
    Block.modifyAt f (path ++ [key]) b =
      Block.modifyAt (fun c => ⟨c.declarations, Block.mapChild key f c.children⟩) path b := by
  induction path generalizing b with
  | nil => rfl
  | cons k path ih => rw [List.cons_append, Block.modifyAt, Block.modifyAt, funext ih]

/-- A change below a node is a change of the tree at its key path. -/
theorem Grows.block_root (ha : a.Sound) (ha' : a'.Linked) (h : a.Reaches root id) (hgrows : a.Grows (a.Below id) a')
    {f : Block → Block} (hf : a'.block id = f (a.block id)) :
    a'.block root = (a.block root).modifyAt f (a.keyPath id) := by
  induction h generalizing f with
  | here =>
    rw [ha.toLinked.keyPath_root]
    exact hf
  | child _ hc ih =>
    have hparent := (ha.owned hc).2
    rw [ha.toLinked.keyPath_child hc, modifyAt_concat]
    exact ih (hgrows.mono fun _ hb => hb.of_parent hparent) (hgrows.block_parent ha ha' hc hf)

/-- A node above one that can be reached can be reached itself. -/
theorem Linked.reaches_of_below (ha : a.Linked) (h : a.Reaches root k) (hb : a.Below id k) : a.Reaches root id := by
  induction h with
  | here =>
    cases hb with
    | here => exact .here
    | child hp _ => cases ha.parent_root.symm.trans hp
  | child hk hc ih =>
    cases hb with
    | here => exact hk.child hc
    | child hp hb =>
      cases (ha.owned hc).2.symm.trans hp
      exact ih hb

/-- A change below a node that cannot be reached does not show in the tree. -/
theorem Grows.block_root_of_not_reaches (ha : a.Linked) (ha' : a'.Linked) (h : ¬ a.Reaches root id)
    (hgrows : a.Grows (a.Below id) a') : a'.block root = a.block root :=
  hgrows.block_eq ha ha' ha.nonempty fun _ hk hb => h (ha.reaches_of_below hk hb)

/-! ### Documents -/

theorem Sound.reached_of_change (ha : a.Sound) (ha' : a'.Linked) (hgrows : a.Grows (a.Below id) a') {f : Block → Block}
    (hf : a'.block id = f (a.block id)) (hd : Document.Reached (a.block root))
    (hchange : ∀ path, Document.Reached ((a.block root).modifyAt f path)) : Document.Reached (a'.block root) := by
  by_cases h : a.Reaches root id
  · rw [hgrows.block_root ha ha' h hf]
    exact hchange _
  · rw [hgrows.block_root_of_not_reaches ha.toLinked ha' h]
    exact hd

theorem Sound.reached_detach (ha : a.Sound) (hid : id < a.size) (hd : Document.Reached (a.block root)) (c : Nat) :
    Document.Reached ((a.detach id c).block root) := by
  by_cases hc : c ∈ a.childIds id
  · exact ha.reached_of_change (ha.detach hid c).toLinked (a.grows_detach id c).toBelow (ha.block_detach hc) hd
      fun path => .detach path _ hd
  · rw [detach_of_not_mem hc]
    exact hd

/-- The tree of a document that operations build in the arena is one that they build as a tree. -/
theorem Reached.document (h : a.Reached) : Document.Reached (a.block root) := by
  have hempty : block {} root = {} := by
    rw [Sound.new.toLinked.block_eq]
    rfl
  induction h with
  | new | clear => exact hempty ▸ .new
  | merge ha hv hm ih => exact .merge ih hv (ha.sound.merge hm).2
  | @mergeMap a id fields slot ha hid hv ih =>
    have hmerge := ha.sound.mergeFields hid slot fields
    exact ha.sound.reached_of_change hmerge.sound.toLinked hmerge.grows hmerge.block ih fun path => .mergeMap path slot ih hv
  | @mergeSequence a id items slot ha hid hv ih =>
    have hmerge := ha.sound.mergeItems hid slot items
    exact ha.sound.reached_of_change hmerge.sound.toLinked hmerge.grows hmerge.block ih fun path =>
      .mergeSequence path slot ih hv
  | pushRaw text ha ih => exact ha.sound.toLinked.block_pushRaw text ▸ ih.pushRaw text
  | detach child ha hid ih => exact ha.sound.reached_detach hid ih child
  | resolve ha hr hres ih => exact .resolve ih hr (ha.sound.resolve hres).2

theorem Reached.wellFormed (h : a.Reached) (hid : a.Reaches root id) : (a.block id).WellFormed := by
  obtain ⟨position, hleads⟩ := h.sound.toLinked.leads_keyPath hid
  exact (hleads.at?_eq h.document.wellFormed).1

/-- A map is merged deeply into the node it is merged into, and no node changes that is not below this one. -/
theorem Reached.deep_merge_at_node (h : a.Reached) (hid : a.Reaches root id) {m : List (String × Json)}
    (hm : (Json.obj m).WellFormed) : (a.block id).DeepMerge m ((a.mergeFields id none m).1.block id) ∧
      ∀ k < a.size, ¬ a.Below id k → (a.mergeFields id none m).1.node k = a.node k := by
  have hmerge := h.sound.mergeFields (hid.lt_size h.sound.toLinked) none m
  exact ⟨hmerge.block ▸ (h.wellFormed hid).deepMerge hm, fun k hk hnot => hmerge.grows.rest hk hnot⟩

end StyleTree.Arena
