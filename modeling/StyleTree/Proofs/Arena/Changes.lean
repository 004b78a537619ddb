import Mathlib.Data.List.Nodup
import StyleTree.Proofs.Arena.Links
import StyleTree.Proofs.Document.Commuting

/-! Changes of an arena. In a sound arena all keys of a node are distinct, so a child can be told by its key as well
    as by its number. Each change of a node keeps the arena sound, and does to the block of the node what the
    change of the same name does to a block that stands alone. -/

namespace StyleTree.Arena

/-- What every node of a document keeps to, also one that is detached: all its keys are distinct, and no
    declaration ought to be a child. -/
structure Sound (a : Arena) : Prop extends Linked a where
  keys : ∀ id, (a.declared id ++ a.childKeys id).Nodup
  leaves : ∀ id, ∀ d ∈ (a.node id).declarations, d.2.isFragment = false

section
variable {a a' : Arena} {id c k : Nat} {key : String}

theorem Sound.childKeys_nodup (ha : a.Sound) (id : Nat) : (a.childKeys id).Nodup := (List.nodup_append.mp (ha.keys id)).2.1

theorem Sound.keys_block (ha : a.Sound) (id : Nat) : (a.block id).keys.Nodup := ha.toLinked.keys_block id ▸ ha.keys id

/-! ### Children under their keys -/

theorem child?_eq_some (hc : a.child? id key = some c) : c ∈ a.childIds id ∧ (a.node c).key = key :=
  ⟨List.mem_of_find?_eq_some hc, beq_iff_eq.mp (List.find?_some (p := fun c => (a.node c).key == key) hc)⟩

theorem child?_eq_none (hc : a.child? id key = none) : key ∉ a.childKeys id := fun hm => by
  obtain ⟨c, hmem, hkey⟩ := List.mem_map.mp hm
  exact List.find?_eq_none.mp hc c hmem (beq_iff_eq.mpr hkey)

/-- Among distinct keys a child is the only one that has its key. -/
theorem eq_of_key_eq (hkeys : (a.childKeys id).Nodup) {d : Nat} (hc : c ∈ a.childIds id) (hd : d ∈ a.childIds id)
    (hkey : (a.node c).key = (a.node d).key) : c = d :=
  List.inj_on_of_nodup_map hkeys hc hd hkey

theorem child?_of_mem (hkeys : (a.childKeys id).Nodup) (hc : c ∈ a.childIds id) : a.child? id (a.node c).key = some c := by
  cases hd : a.child? id (a.node c).key with
  | none => exact absurd (List.mem_map_of_mem hc) (child?_eq_none hd)
  | some d =>
    obtain ⟨hmem, hkey⟩ := child?_eq_some hd
    rw [eq_of_key_eq hkeys hmem hc hkey]

theorem key?_view_node (a : Arena) (c : Nat) : (a.view (.node c)).key? = some (a.node c).key := rfl

/-- The children of a block after a change below one of them. -/
theorem map_view_eq_mapChild {children : List Child} {f : Block → Block}
    (hkeys : ((children.filterMap Child.id?).map fun c => (a.node c).key).Nodup) (hc : .node c ∈ children)
    (hkey : ∀ d, .node d ∈ children → (a'.node d).key = (a.node d).key)
    (hf : a'.block c = f (a.block c)) (hrest : ∀ d, .node d ∈ children → d ≠ c → a'.block d = a.block d) :
    children.map a'.view = Block.mapChild (a.node c).key f (children.map a.view) := by
  induction children with
  | nil => cases hc
  | cons child rest ih =>
    have ih (hkeys) (hc : .node c ∈ rest) := ih hkeys hc (fun d hd => hkey d (List.mem_cons_of_mem _ hd)) fun d hd =>
      hrest d (List.mem_cons_of_mem _ hd)
    cases child with
    | raw text => exact congrArg (_ :: ·) (ih hkeys ((List.mem_cons.mp hc).resolve_left nofun))
    | node d =>
      obtain ⟨hd, hrestkeys⟩ := List.nodup_cons.mp hkeys
      have hnot (hm : Child.node d ∈ rest) : False :=
        hd (List.mem_map.mpr ⟨d, List.mem_filterMap.mpr ⟨_, hm, rfl⟩, rfl⟩)
      have hkeyd := hkey d List.mem_cons_self
      rw [List.map_cons, List.map_cons]
      by_cases hdc : d = c
      · subst hdc
        have hmap : rest.map a'.view = rest.map a.view := List.map_congr_left fun child hchild => by
          cases child with
          | raw text => rfl
          | node e =>
            have he : e ≠ d := fun he => hnot (he ▸ hchild)
            rw [view, view, hkey e (List.mem_cons_of_mem _ hchild), hrest e (List.mem_cons_of_mem _ hchild) he]
        rw [view, view, hkeyd, hf, hmap, Block.mapChild_cons_ofBlock]
      · have hcrest : Child.node c ∈ rest := (List.mem_cons.mp hc).resolve_left fun he => hdc (Child.node.inj he).symm
        have hne : (a.view (.node d)).key? ≠ some (a.node c).key := fun he =>
          hd (List.mem_map.mpr ⟨c, List.mem_filterMap.mpr ⟨_, hcrest, rfl⟩, (Option.some.inj he).symm⟩)
        rw [ih hrestkeys hcrest, Block.mapChild_cons_of_ne hne, view, view, hkeyd, hrest d List.mem_cons_self hdc]

/-- A change below a child changes the block of the parent at this child. -/
theorem Grows.block_parent (ha : a.Sound) (ha' : a'.Linked) (hc : c ∈ a.childIds id) (h : a.Grows (a.Below c) a')
    {f : Block → Block} (hf : a'.block c = f (a.block c)) :
    a'.block id = ⟨(a.block id).declarations, Block.mapChild (a.node c).key f (a.block id).children⟩ := by
  have hchildren := map_view_eq_mapChild (ha.childKeys_nodup id) (mem_childIds.mp hc)
    (fun d hd => h.key (ha.child_lt (mem_childIds.mpr hd))) hf fun d hd hne =>
      h.block_sibling ha.toLinked ha' hc (mem_childIds.mpr hd) hne.symm
  rw [ha.block_eq, ha'.block_eq, h.node_parent ha.toLinked hc, hchildren]

end

/-! ### Changes of one node -/

section
variable {a a' : Arena} {id k : Nat} {f : Node → Node}

theorem Grows.childKeys (ha : a.Linked) {touched : Nat → Prop} (h : a.Grows touched a') (hnode : a'.node k = a.node k) :
    a'.childKeys k = a.childKeys k := by
  rw [Arena.childKeys, childIds, hnode]
  exact List.map_congr_left fun c hc => h.key (ha.child_lt hc)

/-- A change of one node leaves alone what its children stand for. -/
theorem Grows.map_view (ha : a.Linked) (ha' : a'.Linked) (h : a.Grows (· = id) a') {children : List Child}
    (hchildren : ∀ c, .node c ∈ children → c < a.size ∧ (a.node c).parent = some id) :
    children.map a'.view = children.map a.view := by
  refine List.map_congr_left fun child hchild => ?_
  cases child with
  | raw text => rfl
  | node c =>
    obtain ⟨hc, hp⟩ := hchildren c hchild
    have hblock := h.block_eq ha ha' hc fun k hk => by
      rintro rfl
      exact ha.not_below_parent hp (hk.toBelow ha)
    rw [view, view, h.key hc, hblock]

/-- A change of one node keeps an arena sound if it leaves this node as it should be, and new nodes are empty. -/
theorem Sound.of_grows (ha : a.Sound) (ha' : a'.Linked) (h : a.Grows (· = id) a')
    (hkeys : (a'.declared id ++ a'.childKeys id).Nodup)
    (hleaves : ∀ d ∈ (a'.node id).declarations, d.2.isFragment = false)
    (hnew : ∀ k, a.size ≤ k → k ≠ id → (a'.node k).declarations = [] ∧ (a'.node k).children = []) : a'.Sound := by
  refine ⟨ha', fun k => ?_, fun k => ?_⟩ <;> by_cases hk : k = id
  · exact hk ▸ hkeys
  · rcases Nat.lt_or_ge k a.size with hlt | hge
    · have hnode := h.rest hlt hk
      rw [Arena.declared, hnode, h.childKeys ha.toLinked hnode]
      exact ha.keys k
    · obtain ⟨hds, hcs⟩ := hnew k hge hk
      simp [Arena.declared, Arena.childKeys, childIds, hds, hcs]
  · exact hk ▸ hleaves
  · rcases Nat.lt_or_ge k a.size with hlt | hge
    · rw [h.rest hlt hk]
      exact ha.leaves k
    · simp [hnew k hge hk]

/-- A change of what a node holds, but not of its name and place. -/
def Local (f : Node → Node) : Prop := ∀ n, (f n).key = n.key ∧ (f n).parent = n.parent

theorem node_modify_cases (a : Arena) (id k : Nat) (f : Node → Node) :
    (a.modify id f).node k = a.node k ∨ k = id ∧ (a.modify id f).node k = f (a.node k) := by
  by_cases hk : k = id
  · subst hk
    rcases Nat.lt_or_ge k a.size with hlt | hge
    · exact .inr ⟨rfl, node_modify_self hlt⟩
    · exact .inl (by rw [node_of_size_le hge, node_of_size_le (size_modify.symm ▸ hge)])
  · exact .inl (node_modify_of_ne hk)

theorem Local.key_modify (hf : Local f) (k : Nat) : ((a.modify id f).node k).key = (a.node k).key := by
  rcases a.node_modify_cases id k f with h | ⟨-, h⟩ <;> rw [h]
  exact (hf _).1

theorem Local.parent_modify (hf : Local f) (k : Nat) : ((a.modify id f).node k).parent = (a.node k).parent := by
  rcases a.node_modify_cases id k f with h | ⟨-, h⟩ <;> rw [h]
  exact (hf _).2

theorem Local.grows (hf : Local f) : a.Grows (· = id) (a.modify id f) where
  size_le := Nat.le_of_eq size_modify.symm
  key _ := hf.key_modify _
  parent _ := hf.parent_modify _
  rest _ hk := node_modify_of_ne hk

/-- A node may be given children that have it as their parent. -/
theorem Linked.modify (ha : a.Linked) (hf : Local f)
    (hchildren : ∀ c, .node c ∈ (f (a.node id)).children → c < a.size ∧ (a.node c).parent = some id) :
    (a.modify id f).Linked where
  nonempty := size_modify.symm ▸ ha.nonempty
  parent_lt hp := ha.parent_lt (hf.parent_modify _ ▸ hp)
  owned {k c} hc := by
    rw [size_modify, hf.parent_modify]
    rw [mem_childIds] at hc
    rcases a.node_modify_cases id k f with h | ⟨rfl, h⟩ <;> rw [h] at hc
    · exact ha.owned (mem_childIds.mpr hc)
    · exact hchildren c hc

/-- The block of a node that was changed, over the blocks that its children have before and after. -/
theorem Linked.block_modify (ha : a.Linked) (hf : Local f)
    (hchildren : ∀ c, .node c ∈ (f (a.node id)).children → c < a.size ∧ (a.node c).parent = some id)
    (hid : id < a.size) :
    (a.modify id f).block id = ⟨(f (a.node id)).declarations, (f (a.node id)).children.map a.view⟩ := by
  have hlinked := ha.modify hf hchildren
  rw [hlinked.block_eq, node_modify_self hid]
  exact congrArg _ (hf.grows.map_view ha hlinked hchildren)

theorem Sound.modify (ha : a.Sound) (hf : Local f)
    (hchildren : ∀ c, .node c ∈ (f (a.node id)).children → c < a.size ∧ (a.node c).parent = some id)
    (hkeys : ((a.modify id f).block id).keys.Nodup)
    (hleaves : ∀ d ∈ ((a.modify id f).block id).declarations, d.2.isFragment = false) : (a.modify id f).Sound := by
  have hlinked := ha.toLinked.modify hf hchildren
  refine ha.of_grows hlinked hf.grows (hlinked.keys_block id ▸ hkeys) (declarations_block _ id ▸ hleaves) fun k hk _ => ?_
  rw [node_of_size_le (size_modify.symm ▸ hk)]
  exact ⟨rfl, rfl⟩

/-! ### Declarations -/

variable {g : List (String × Json) → List (String × Json)}

theorem local_declarations : Local fun n => { n with declarations := g n.declarations } := fun _ => ⟨rfl, rfl⟩

theorem Linked.owned_node (ha : a.Linked) {c : Nat} (hc : .node c ∈ (a.node id).children) :
    c < a.size ∧ (a.node c).parent = some id := ha.owned (mem_childIds.mpr hc)

theorem Linked.block_declarations (ha : a.Linked) (hid : id < a.size) :
    (a.modify id fun n => { n with declarations := g n.declarations }).block id =
      ⟨g (a.block id).declarations, (a.block id).children⟩ := by
  rw [ha.block_modify local_declarations (fun _ => ha.owned_node) hid, ha.block_eq]

theorem Sound.declarations (ha : a.Sound) (hid : id < a.size)
    (hkeys : (Block.mk (g (a.block id).declarations) (a.block id).children).keys.Nodup)
    (hleaves : ∀ d ∈ g (a.block id).declarations, d.2.isFragment = false) :
    (a.modify id fun n => { n with declarations := g n.declarations }).Sound := by
  have hblock := ha.toLinked.block_declarations (g := g) hid
  exact ha.modify local_declarations (fun _ => ha.toLinked.owned_node) (hblock ▸ hkeys) (hblock ▸ hleaves)

theorem Linked.block_erase (ha : a.Linked) (hid : id < a.size) (key : String) :
    (a.erase id key).block id = ⟨Assoc.erase (a.block id).declarations key, (a.block id).children⟩ :=
  ha.block_declarations hid

theorem grows_erase (a : Arena) (id : Nat) (key : String) : a.Grows (· = id) (a.erase id key) :=
  local_declarations.grows

theorem Sound.erase (ha : a.Sound) (hid : id < a.size) (key : String) : (a.erase id key).Sound := by
  refine ha.declarations hid ?_ fun d hd => ?_
  · exact (ha.keys_block id).sublist ((List.filter_sublist.map _).append (.refl _))
  · rw [declarations_block] at hd
    exact ha.leaves id d (List.mem_filter.mp hd).1

/-! ### Detachment -/

theorem local_children {h : List Child → List Child} : Local fun n => { n with children := h n.children } :=
  fun _ => ⟨rfl, rfl⟩

theorem grows_detach (a : Arena) (id c : Nat) : a.Grows (· = id) (a.detach id c) := local_children.grows

theorem Linked.owned_detach (ha : a.Linked) {c d : Nat}
    (hd : .node d ∈ (a.node id).children.filter fun child => child.id? ≠ some c) :
    d < a.size ∧ (a.node d).parent = some id :=
  ha.owned_node (List.mem_filter.mp hd).1

theorem detach_of_not_mem {c : Nat} (hc : c ∉ a.childIds id) : a.detach id c = a := by
  refine congrArg Arena.mk (List.ext_getElem? fun j => ?_)
  rw [List.getElem?_modify]
  cases hj : a.nodes[j]? with
  | none => rfl
  | some n =>
    by_cases h : id = j
    · subst h
      have hn : a.node id = n := by rw [node, List.getD_eq_getElem?_getD, hj, Option.getD_some]
      have hfilter : n.children.filter (fun child => child.id? ≠ some c) = n.children :=
        List.filter_eq_self.mpr fun child hchild => decide_eq_true fun he =>
          hc (List.mem_filterMap.mpr ⟨child, hn ▸ hchild, he⟩)
      simp only [if_true, Option.map_eq_map, Option.map_some, hfilter]
    · simp only [if_neg h, Option.map_eq_map, Option.map_some]

/-- Detaching a child takes the only block under its key away. -/
theorem Sound.block_detach (ha : a.Sound) {c : Nat} (hc : c ∈ a.childIds id) :
    (a.detach id c).block id = (a.block id).detach (a.node c).key := by
  have hid := ha.lt_size hc
  have hmap : ∀ child ∈ (a.node id).children,
      decide (child.id? ≠ some c) = !(a.view child).hasKey (a.node c).key := fun child hchild => by
    cases child with
    | raw text => rfl
    | node d =>
      have hiff : (a.view (.node d)).hasKey (a.node c).key = true ↔ d = c := by
        rw [Node.hasKey_iff, key?_view_node, Option.some.injEq]
        exact ⟨eq_of_key_eq (ha.childKeys_nodup id) (mem_childIds.mpr hchild) hc, fun h => h ▸ rfl⟩
      rw [Bool.eq_iff_iff, decide_eq_true_iff, Bool.not_eq_true', ← Bool.not_eq_true, hiff]
      exact not_congr Option.some_inj
  rw [detach, ha.toLinked.block_modify local_children (fun _ => ha.toLinked.owned_detach) hid, Block.detach,
    ha.toLinked.block_eq, List.filter_map, List.filter_congr hmap]
  rfl

theorem Sound.detach (ha : a.Sound) (hid : id < a.size) (c : Nat) : (a.detach id c).Sound := by
  have hlinked := ha.toLinked
  have hblock := hlinked.block_modify local_children (fun _ => hlinked.owned_detach (c := c)) hid
  refine ha.modify local_children (fun _ => hlinked.owned_detach) ?_ ?_ <;> rw [hblock]
  · have hsub : ((a.node id).children.filter fun child => child.id? ≠ some c).Sublist (a.node id).children :=
      List.filter_sublist
    have hkeys := ha.keys_block id
    rw [hlinked.block_eq] at hkeys
    exact hkeys.sublist ((List.Sublist.refl _).append ((hsub.map _).filterMap _))
  · exact ha.leaves id

/-! ### New nodes -/

variable {key : String}

@[simp] theorem size_addChild : (a.addChild id key).size = a.size + 1 := by
  rw [addChild, size_modify, size, List.length_append]
  rfl

theorem node_addChild_self (hid : id < a.size) :
    (a.addChild id key).node id = { a.node id with children := (a.node id).children ++ [.node a.size] } := by
  have hnode : node ⟨a.nodes ++ [{ key, parent := some id }]⟩ id = a.node id := by
    rw [node, List.getD_eq_getElem?_getD, List.getElem?_append_left hid]
    rfl
  rw [addChild, node_modify_self (Nat.lt_of_lt_of_le hid (by simp [size])), hnode]

theorem node_addChild_new (hid : id < a.size) : (a.addChild id key).node a.size = { key, parent := some id } := by
  rw [addChild, node_modify_of_ne (Nat.ne_of_gt hid), node, List.getD_eq_getElem?_getD, size, List.getElem?_concat_length,
    Option.getD_some]

theorem node_addChild_of_ne (hk : k ≠ id) (hnew : k ≠ a.size) : (a.addChild id key).node k = a.node k := by
  rw [addChild, node_modify_of_ne hk]
  rcases Nat.lt_or_gt_of_ne hnew with hlt | hgt
  · rw [node, List.getD_eq_getElem?_getD, List.getElem?_append_left hlt]
    rfl
  · rw [node_of_size_le (Nat.le_of_lt hgt), node_of_size_le]
    rw [size, List.length_append]
    exact hgt

theorem grows_addChild (hid : id < a.size) : a.Grows (· = id) (a.addChild id key) := by
  have hnode {k : Nat} (hk : k < a.size) : k ≠ id → (a.addChild id key).node k = a.node k :=
    fun hne => node_addChild_of_ne hne (Nat.ne_of_lt hk)
  refine ⟨by simp, fun {k} hk => ?_, fun {k} hk => ?_, hnode⟩ <;> by_cases h : k = id
  · rw [h, node_addChild_self hid]
  · rw [hnode hk h]
  · rw [h, node_addChild_self hid]
  · rw [hnode hk h]

theorem Linked.addChild (ha : a.Linked) (hid : id < a.size) : (a.addChild id key).Linked where
  nonempty := Nat.lt_of_lt_of_le ha.nonempty (by simp)
  parent_lt {k p} hp := by
    by_cases hnew : k = a.size
    · rw [hnew, node_addChild_new hid] at hp
      cases hp
      exact hnew ▸ hid
    · by_cases h : k = id
      · rw [h, node_addChild_self hid] at hp
        exact h ▸ ha.parent_lt hp
      · rw [node_addChild_of_ne h hnew] at hp
        exact ha.parent_lt hp
  owned {k c} hc := by
    have hold {k : Nat} (hc : .node c ∈ (a.node k).children) :
        c < (a.addChild id key).size ∧ ((a.addChild id key).node c).parent = some k := by
      obtain ⟨hlt, hp⟩ := ha.owned_node hc
      exact ⟨Nat.lt_of_lt_of_le hlt (by simp), ((grows_addChild hid).parent hlt).trans hp⟩
    rw [mem_childIds] at hc
    by_cases hnew : k = a.size
    · rw [hnew, node_addChild_new hid] at hc
      cases hc
    · by_cases h : k = id
      · rw [h, node_addChild_self hid] at hc
        rcases List.mem_append.mp hc with hc | hc
        · exact h ▸ hold hc
        · cases List.mem_singleton.mp hc
          exact ⟨by simp, by rw [node_addChild_new hid, h]⟩
      · rw [node_addChild_of_ne h hnew] at hc
        exact hold hc

theorem Linked.block_addChild (ha : a.Linked) (hid : id < a.size) :
    (a.addChild id key).block id = ⟨(a.block id).declarations, (a.block id).children ++ [.ofBlock key {}]⟩ := by
  have hlinked : (a.addChild id key).Linked := ha.addChild hid
  have hview := (grows_addChild hid).map_view ha hlinked fun _ => ha.owned_node
  have hempty : (a.addChild id key).view (.node a.size) = .ofBlock key {} := by
    rw [view, hlinked.block_eq, node_addChild_new hid]
    rfl
  rw [hlinked.block_eq, node_addChild_self hid, ha.block_eq, List.map_append, hview, List.map_singleton, hempty]

/-- A new child under a key that the node does not have. -/
theorem Sound.addChild (ha : a.Sound) (hid : id < a.size) (hkey : key ∉ (a.block id).keys) :
    (a.addChild id key).Sound := by
  have hlinked : (a.addChild id key).Linked := ha.toLinked.addChild hid
  refine ha.of_grows hlinked (grows_addChild hid) ?_ ?_ fun k hk hne => ?_
  · have hkeys : Block.keys ⟨(a.block id).declarations, (a.block id).children ++ [.ofBlock key {}]⟩ =
        (a.block id).keys ++ [key] := by
      simp [Block.keys, Block.declared, Block.childKeys]
    rw [← hlinked.keys_block, ha.toLinked.block_addChild hid, hkeys, ← List.concat_eq_append]
    exact (ha.keys_block id).concat hkey
  · rw [node_addChild_self hid]
    exact ha.leaves id
  · by_cases hnew : k = a.size
    · rw [hnew, node_addChild_new hid]
      exact ⟨rfl, rfl⟩
    · rw [node_addChild_of_ne hne hnew, node_of_size_le hk]
      exact ⟨rfl, rfl⟩

end

end StyleTree.Arena
