import StyleTree.Document.Arena
import StyleTree.Proofs.Document.Lookup

/-! Links of an arena. A node has its parent in front of it and is a child of no other node, so what stands below
    two children of one node has nothing in common. A change below a node leaves all other nodes as they are,
    and with them the blocks that do not reach it. -/

namespace StyleTree.Arena

/-! ### Nodes -/

section
variable {a : Arena} {id k c : Nat} {f : Node → Node}

theorem node_of_size_le (h : a.size ≤ id) : a.node id = {} := by
  rw [node, List.getD_eq_getElem?_getD, List.getElem?_eq_none_iff.mpr h, Option.getD_none]

@[simp] theorem size_modify : (a.modify id f).size = a.size := List.length_modify ..

theorem node_modify_self (h : id < a.size) : (a.modify id f).node id = f (a.node id) := by
  simp only [node, modify, List.getD_eq_getElem?_getD, List.getElem?_modify]
  rw [List.getElem?_eq_getElem h]
  rfl

theorem node_modify_of_ne (h : k ≠ id) : (a.modify id f).node k = a.node k := by
  simp only [node, modify, List.getD_eq_getElem?_getD, List.getElem?_modify, if_neg h.symm]
  cases a.nodes[k]? <;> rfl

theorem mem_childIds : c ∈ a.childIds id ↔ .node c ∈ (a.node id).children := by
  rw [childIds, List.mem_filterMap]
  constructor
  · rintro ⟨child, hchild, heq⟩
    cases child with
    | node c' =>
      cases heq
      exact hchild
    | raw text => cases heq
  · exact fun h => ⟨.node c, h, rfl⟩

end

/-- The links of an arena: a node comes after its parent, and its children have it as their parent. -/
structure Linked (a : Arena) : Prop where
  nonempty : root < a.size
  parent_lt : ∀ {id p}, (a.node id).parent = some p → p < id
  owned : ∀ {id c}, c ∈ a.childIds id → c < a.size ∧ (a.node c).parent = some id

namespace Linked
variable {a : Arena} {id c : Nat}

theorem lt_child (h : a.Linked) (hc : c ∈ a.childIds id) : id < c := h.parent_lt (h.owned hc).2

theorem child_lt (h : a.Linked) (hc : c ∈ a.childIds id) : c < a.size := (h.owned hc).1

theorem lt_size (h : a.Linked) (hc : c ∈ a.childIds id) : id < a.size :=
  Nat.lt_trans (h.lt_child hc) (h.child_lt hc)

theorem parent_root (h : a.Linked) : (a.node root).parent = none := by
  cases hp : (a.node root).parent with
  | none => rfl
  | some p => exact absurd (h.parent_lt hp) (Nat.not_lt_zero p)

end Linked

/-! ### Blocks -/

/-- What a child of a node stands for in its block. -/
def view (a : Arena) : Child → StyleTree.Node
  | .raw text => .raw text
  | .node c => .ofBlock (a.node c).key (a.block c)

section
variable {a : Arena} {id : Nat}

theorem Linked.block_eq (h : a.Linked) (id : Nat) :
    a.block id = ⟨(a.node id).declarations, (a.node id).children.map a.view⟩ := by
  rw [block]
  refine congrArg _ (List.map_congr_left fun child hchild => ?_)
  cases child with
  | raw text => rfl
  | node c =>
    have hc := mem_childIds.mpr hchild
    simp only [view, dif_pos (And.intro (h.lt_child hc) (h.child_lt hc))]

theorem declarations_block (a : Arena) (id : Nat) : (a.block id).declarations = (a.node id).declarations := by
  rw [block]

/-- The keys of child nodes are those of the blocks they stand for. -/
theorem filterMap_key?_map_view (a : Arena) (children : List Child) :
    (children.map a.view).filterMap StyleTree.Node.key? =
      (children.filterMap Child.id?).map fun c => (a.node c).key := by
  induction children with
  | nil => rfl
  | cons child rest ih =>
    cases child with
    | raw text => exact ih
    | node c => exact congrArg ((a.node c).key :: ·) ih

theorem Linked.childKeys_block (h : a.Linked) (id : Nat) : (a.block id).childKeys = a.childKeys id := by
  rw [h.block_eq, Block.childKeys, filterMap_key?_map_view]
  rfl

theorem Linked.keys_block (h : a.Linked) (id : Nat) : (a.block id).keys = a.declared id ++ a.childKeys id := by
  rw [Block.keys, h.childKeys_block, Block.declared, declarations_block]
  rfl

end

/-! ### Above and below -/

/-- The node is found from `id` on by going to children. -/
inductive Reaches (a : Arena) (id : Nat) : Nat → Prop
  | here : Reaches a id id
  | child {k c : Nat} : Reaches a id k → c ∈ a.childIds k → Reaches a id c

/-- The node finds `id` by going to parents. -/
inductive Below (a : Arena) (id : Nat) : Nat → Prop
  | here : Below a id id
  | child {k p : Nat} : (a.node k).parent = some p → Below a id p → Below a id k

section
variable {a : Arena} {id c d k l : Nat}

theorem Reaches.of_child (hc : c ∈ a.childIds id) (h : a.Reaches c k) : a.Reaches id k := by
  induction h with
  | here => exact .child .here hc
  | child _ hk ih => exact .child ih hk

theorem Reaches.toBelow (ha : a.Linked) (h : a.Reaches id k) : a.Below id k := by
  induction h with
  | here => exact .here
  | child _ hc ih => exact .child (ha.owned hc).2 ih

theorem Reaches.lt_size (ha : a.Linked) (h : a.Reaches root k) : k < a.size := by
  cases h with
  | here => exact ha.nonempty
  | child _ hc => exact ha.child_lt hc

theorem Below.le (ha : a.Linked) (h : a.Below id k) : id ≤ k := by
  induction h with
  | here => exact Nat.le_refl _
  | child hp _ ih => exact Nat.le_trans ih (Nat.le_of_lt (ha.parent_lt hp))

theorem Below.of_parent (hp : (a.node c).parent = some id) (h : a.Below c k) : a.Below id k := by
  induction h with
  | here => exact .child hp .here
  | child hk _ ih => exact .child hk ih

/-- Of two nodes above a third one is above the other. -/
theorem Below.connected (h : a.Below c k) (h' : a.Below d k) : a.Below c d ∨ a.Below d c := by
  induction h with
  | here => exact .inr h'
  | @child k p hp hc ih =>
    cases h' with
    | here => exact .inl (.child hp hc)
    | child hp' hd =>
      cases hp.symm.trans hp'
      exact ih hd

theorem Linked.not_below_parent (ha : a.Linked) (hp : (a.node c).parent = some id) : ¬ a.Below c id := fun h =>
  absurd (h.le ha) (Nat.not_le_of_lt (ha.parent_lt hp))

/-- What is below one child of a node is below no other. -/
theorem Linked.not_below_sibling (ha : a.Linked) (hc : (a.node c).parent = some id) (hd : (a.node d).parent = some id)
    (hne : c ≠ d) (h : a.Below d k) : ¬ a.Below c k := by
  have hnot {c d : Nat} (hc : (a.node c).parent = some id) (hd : (a.node d).parent = some id) (hne : c ≠ d) :
      ¬ a.Below c d := by
    intro h
    cases h with
    | here => exact hne rfl
    | child hp h =>
      cases hd.symm.trans hp
      exact ha.not_below_parent hc h
  intro h'
  rcases h'.connected h with h | h
  · exact hnot hc hd hne h
  · exact hnot hd hc hne.symm h

end

/-! ### Growth -/

/-- The arena `a'` has the nodes of `a`, changed where they are touched, and maybe more. -/
structure Grows (a : Arena) (touched : Nat → Prop) (a' : Arena) : Prop where
  size_le : a.size ≤ a'.size
  key : ∀ {k}, k < a.size → (a'.node k).key = (a.node k).key
  parent : ∀ {k}, k < a.size → (a'.node k).parent = (a.node k).parent
  rest : ∀ {k}, k < a.size → ¬ touched k → a'.node k = a.node k

namespace Grows
variable {a a' a'' : Arena} {touched touched' : Nat → Prop} {id c k : Nat}

theorem refl (a : Arena) (touched : Nat → Prop) : Grows a touched a :=
  ⟨Nat.le_refl _, fun _ => rfl, fun _ => rfl, fun _ _ => rfl⟩

theorem mono (h : Grows a touched a') (hto : ∀ k, touched k → touched' k) : Grows a touched' a' :=
  ⟨h.size_le, h.key, h.parent, fun hk hnot => h.rest hk fun ht => hnot (hto _ ht)⟩

theorem trans (h : Grows a touched a') (h' : Grows a' touched' a'') (hto : ∀ k < a.size, touched' k → touched k) :
    Grows a touched a'' where
  size_le := Nat.le_trans h.size_le h'.size_le
  key hk := (h'.key (Nat.lt_of_lt_of_le hk h.size_le)).trans (h.key hk)
  parent hk := (h'.parent (Nat.lt_of_lt_of_le hk h.size_le)).trans (h.parent hk)
  rest hk hnot :=
    (h'.rest (Nat.lt_of_lt_of_le hk h.size_le) fun ht => hnot (hto _ hk ht)).trans (h.rest hk hnot)

/-- A change of one node is one at and below it. -/
theorem toBelow (h : Grows a (· = id) a') : Grows a (a.Below id) a' := h.mono fun _ hk => hk ▸ .here

/-- What is below a node after a change was below it before, if it was there. -/
theorem below (ha : a.Linked) (h : Grows a touched a') (hk : k < a.size) (hb : a'.Below id k) : a.Below id k := by
  induction hb with
  | here => exact .here
  | child hp _ ih =>
    rw [h.parent hk] at hp
    exact .child hp (ih (Nat.lt_trans (ha.parent_lt hp) hk))

/-- Changes below a node, one after the other. -/
theorem trans_below (ha : a.Linked) (h : Grows a (a.Below id) a') (h' : Grows a' (a'.Below id) a'') :
    Grows a (a.Below id) a'' :=
  h.trans h' fun _ hk hb => h.below ha hk hb

/-- A block stays as it is if no node that it reaches is touched. -/
theorem block_eq (ha : a.Linked) (ha' : a'.Linked) (h : Grows a touched a') (hid : id < a.size)
    (hnot : ∀ k, a.Reaches id k → ¬ touched k) : a'.block id = a.block id := by
  induction hlt : a.size - id using Nat.strongRecOn generalizing id with
  | ind n ih =>
    have hnode := h.rest hid (hnot id .here)
    rw [ha.block_eq, ha'.block_eq, hnode]
    refine congrArg _ (List.map_congr_left fun child hchild => ?_)
    cases child with
    | raw text => rfl
    | node c =>
      have hc := mem_childIds.mpr hchild
      have hcs := ha.child_lt hc
      have hless : a.size - c < n := by
        have := ha.lt_child hc
        omega
      rw [view, view, h.key hcs, ih _ hless hcs (fun k hk => hnot k (hk.of_child hc)) rfl]

/-- A change below a child leaves the parent itself alone, and its other children. -/
theorem node_parent (ha : a.Linked) (hc : c ∈ a.childIds id) (h : Grows a (a.Below c) a') :
    a'.node id = a.node id :=
  h.rest (ha.lt_size hc) (ha.not_below_parent (ha.owned hc).2)

theorem block_sibling (ha : a.Linked) (ha' : a'.Linked) {d : Nat} (hc : c ∈ a.childIds id) (hd : d ∈ a.childIds id)
    (hne : c ≠ d) (h : Grows a (a.Below c) a') : a'.block d = a.block d :=
  h.block_eq ha ha' (ha.child_lt hd) fun _ hk =>
    ha.not_below_sibling (ha.owned hc).2 (ha.owned hd).2 hne (hk.toBelow ha)

end Grows

end StyleTree.Arena
