import Mathlib.Data.List.Nodup
import StyleTree.Proofs.Document.Lookup

/-! Well-formed documents. In a well-formed block no key occurs twice, neither among the declarations nor
    among the children nor in both, and what is declared is no fragment; and so in every block below. A
    merge keeps this, as do the smaller changes of a block, if the values that come in are maps with
    distinct keys at every depth. The map that a well-formed block reads back as is such a value. -/

namespace StyleTree

/-! ### Definitions -/

/-- A value in which no map has a key twice. -/
inductive Json.WellFormed : Json → Prop
  | null : WellFormed .null
  | bool (b : Bool) : WellFormed (.bool b)
  | num (n : Number) : WellFormed (.num n)
  | str (s : String) : WellFormed (.str s)
  | arr {items : List Json} : (∀ v ∈ items, WellFormed v) → WellFormed (.arr items)
  | obj {fields : List (String × Json)} : (fields.map (·.1)).Nodup → (∀ e ∈ fields, WellFormed e.2) →
      WellFormed (.obj fields)

/-- A value that a declaration may hold. -/
def Json.IsLeaf (v : Json) : Prop := v.WellFormed ∧ v.isFragment = false

inductive Block.WellFormed : Block → Prop
  | intro {b : Block} : b.keys.Nodup → (∀ d ∈ b.declarations, d.2.IsLeaf) →
      (∀ key c, .ofBlock key c ∈ b.children → WellFormed c) → WellFormed b

theorem Json.WellFormed.nodup {fields : List (String × Json)} (h : (Json.obj fields).WellFormed) :
    (fields.map (·.1)).Nodup := by
  cases h with
  | obj hn _ => exact hn

theorem Json.WellFormed.field {fields : List (String × Json)} (h : (Json.obj fields).WellFormed) :
    ∀ e ∈ fields, e.2.WellFormed := by
  cases h with
  | obj _ he => exact he

theorem Json.WellFormed.item {items : List Json} (h : (Json.arr items).WellFormed) : ∀ v ∈ items, v.WellFormed := by
  cases h with
  | arr hv => exact hv

mutual

def Json.isWellFormed : Json → Bool
  | .null | .bool _ | .num _ | .str _ => true
  | .arr items => Json.itemsWellFormed items
  | .obj fields => decide (fields.map (·.1)).Nodup && Json.fieldsWellFormed fields

def Json.itemsWellFormed : List Json → Bool
  | [] => true
  | v :: rest => v.isWellFormed && Json.itemsWellFormed rest

def Json.fieldsWellFormed : List (String × Json) → Bool
  | [] => true
  | (_, v) :: rest => v.isWellFormed && Json.fieldsWellFormed rest

end

mutual

theorem Json.isWellFormed_iff : (v : Json) → v.isWellFormed = true ↔ v.WellFormed
  | .null => iff_of_true rfl .null
  | .bool b => iff_of_true rfl (.bool b)
  | .num n => iff_of_true rfl (.num n)
  | .str s => iff_of_true rfl (.str s)
  | .arr items => by
    rw [isWellFormed, Json.itemsWellFormed_iff items]
    exact ⟨.arr, WellFormed.item⟩
  | .obj fields => by
    rw [isWellFormed, Bool.and_eq_true, decide_eq_true_iff, Json.fieldsWellFormed_iff fields]
    exact ⟨fun h => .obj h.1 h.2, fun h => ⟨h.nodup, h.field⟩⟩

theorem Json.itemsWellFormed_iff : (items : List Json) → itemsWellFormed items = true ↔ ∀ v ∈ items, v.WellFormed
  | [] => by simp [itemsWellFormed]
  | v :: rest => by
    rw [itemsWellFormed, Bool.and_eq_true, Json.isWellFormed_iff v, Json.itemsWellFormed_iff rest, List.forall_mem_cons]

theorem Json.fieldsWellFormed_iff :
    (fields : List (String × Json)) → fieldsWellFormed fields = true ↔ ∀ e ∈ fields, e.2.WellFormed
  | [] => by simp [fieldsWellFormed]
  | (_, v) :: rest => by
    rw [fieldsWellFormed, Bool.and_eq_true, Json.isWellFormed_iff v, Json.fieldsWellFormed_iff rest,
      List.forall_mem_cons]

end

instance : DecidablePred Json.WellFormed := fun v => decidable_of_iff _ v.isWellFormed_iff

/-! ### Keys, declarations and children of a changed block -/

namespace Block
variable {b : Block} {key : String} {n : Node}

theorem not_mem_childKeys_detach (b : Block) (key : String) : key ∉ (b.detach key).childKeys :=
  child?_eq_none_iff.mp (by rw [child?_detach, if_pos rfl])

/-- A child of the changed list is an old one, or an old one changed. -/
theorem eq_of_mem_mapChild {f : Block → Block} {children : List Node} (h : n ∈ mapChild key f children) :
    n ∈ children ∨ ∃ c, .ofBlock key c ∈ children ∧ n = .ofBlock key (f c) := by
  induction children with
  | nil => exact .inl h
  | cons m rest ih =>
    have later (h : n ∈ mapChild key f rest) :
        n ∈ m :: rest ∨ ∃ c, .ofBlock key c ∈ m :: rest ∧ n = .ofBlock key (f c) := by
      rcases ih h with h | ⟨c, hc, rfl⟩
      · exact .inl (List.mem_cons_of_mem _ h)
      · exact .inr ⟨c, List.mem_cons_of_mem _ hc, rfl⟩
    cases m with
    | raw text =>
      rw [mapChild, List.mem_cons] at h
      rcases h with rfl | h
      · exact .inl List.mem_cons_self
      · exact later h
    | rule k ds cs =>
      rw [mapChild] at h
      split at h
      · next hk =>
        subst hk
        rcases List.mem_cons.mp h with rfl | h
        · exact .inr ⟨⟨ds, cs⟩, List.mem_cons_self, rfl⟩
        · exact .inl (List.mem_cons_of_mem _ h)
      · rcases List.mem_cons.mp h with rfl | h
        · exact .inl List.mem_cons_self
        · exact later h

end Block

/-- A child that is opened is the old one, or a new one that stands last. -/
theorem Splice.keys_openChild (s : Splice) (key : String) (f : Block → Block) :
    (s.openChild key f).block.keys = s.block.keys ∨ key ∉ s.block.childKeys ∧
      (s.openChild key f).block.keys = Block.keys ⟨Assoc.erase s.block.declarations key, s.block.children⟩ ++ [key] := by
  unfold openChild
  split
  · exact .inl (by simp only [Block.keys, Block.declared, Block.childKeys, Block.filterMap_key?_mapChild])
  · next hc =>
    refine .inr ⟨fun hk => hc (Block.hasChild_iff.mpr hk), ?_⟩
    simp [Block.keys, Block.declared, Block.childKeys]

theorem Splice.declarations_openChild_subset (s : Splice) (key : String) (f : Block → Block) :
    (s.openChild key f).block.declarations ⊆ s.block.declarations := by
  unfold openChild
  split
  · exact List.Subset.refl _
  · exact List.filter_sublist.subset

theorem Splice.child_of_openChild {s : Splice} {key k : String} {f : Block → Block} {c : Block}
    (h : .ofBlock k c ∈ (s.openChild key f).block.children) :
    .ofBlock k c ∈ s.block.children ∨ c = f {} ∨ ∃ c', .ofBlock key c' ∈ s.block.children ∧ c = f c' := by
  unfold openChild at h
  split at h
  · rcases Block.eq_of_mem_mapChild h with h | ⟨c', hc', he⟩
    · exact .inl h
    · exact .inr (.inr ⟨c', hc', (Node.ofBlock_inj.mp he).2⟩)
  · rcases List.mem_append.mp h with h | h
    · exact .inl h
    · exact .inr (.inl (Node.ofBlock_inj.mp (List.mem_singleton.mp h)).2)

theorem Splice.mem_declarations_declare {s : Splice} {key : String} {v : Json} {d : String × Json}
    (h : d ∈ (s.declare key v).block.declarations) : d ∈ s.block.declarations ∨ d = (key, v) := by
  rcases s.declarations_declare key v with ⟨-, hd⟩ | ⟨-, i, hd⟩
  · exact Assoc.mem_put (hd ▸ h)
  · exact (Assoc.mem_insertAt.mp (hd ▸ h)).symm

/-- The name of a child that is opened is declared no more. -/
theorem Splice.declared_openChild {s : Splice} (h : s.block.keys.Nodup) (key : String) (f : Block → Block) :
    (s.openChild key f).block.declared = s.block.declared.filter (· ≠ key) := by
  unfold openChild
  split
  · next hc =>
    refine (List.filter_eq_self.mpr fun k hk => ?_).symm
    exact decide_eq_true ((List.nodup_append.mp h).2.2 k hk key (Block.hasChild_iff.mp hc))
  · rw [Block.declared, Block.declared, Assoc.erase, List.filter_map]
    rfl

/-- Opening a child keeps the keys of a block distinct: a new child takes its key from the declarations. -/
theorem Splice.nodup_keys_openChild {s : Splice} (h : s.block.keys.Nodup) (key : String) (f : Block → Block) :
    (s.openChild key f).block.keys.Nodup := by
  rcases s.keys_openChild key f with hk | ⟨hnew, hk⟩ <;> rw [hk]
  · exact h
  · have hrest : (Block.keys ⟨Assoc.erase s.block.declarations key, s.block.children⟩).Nodup :=
      h.sublist ((List.filter_sublist.map _).append (.refl _))
    rw [← List.concat_eq_append]
    refine List.Nodup.concat (fun hm => ?_) hrest
    rcases List.mem_append.mp hm with hm | hm
    · simp [Block.declared, Assoc.erase] at hm
    · exact hnew hm

theorem Splice.nodup_keys_declare {s : Splice} (h : s.block.keys.Nodup) (key : String) (v : Json) :
    (s.declare key v).block.keys.Nodup := by
  have hdetach : (s.block.declared ++ (s.block.detach key).childKeys).Nodup :=
    h.sublist ((List.Sublist.refl _).append (Block.childKeys_detach_sublist s.block key))
  have hchildren : (s.declare key v).block.childKeys = (s.block.detach key).childKeys :=
    congrArg (List.filterMap Node.key?) (s.children_declare key v)
  rw [Block.keys, hchildren]
  rcases s.declarations_declare key v with ⟨hk, hd⟩ | ⟨hk, i, hd⟩
  · have hdeclared : (s.declare key v).block.declared = s.block.declared := by
      rw [Block.declared, hd, Assoc.map_fst_put]
      exact if_pos hk
    rw [hdeclared]
    exact hdetach
  · -- The new name stands among the declared ones, and is the key of no child any more.
    have hperm : (s.declare key v).block.declared.Perm (key :: s.block.declared) := by
      rw [Block.declared, hd, Assoc.insertAt, List.map_append, List.map_cons]
      refine List.perm_middle.trans ?_
      rw [← List.map_append, List.take_append_drop]
      exact .refl _
    refine (hperm.append_right _).nodup_iff.mpr (List.nodup_cons.mpr ⟨fun hm => ?_, hdetach⟩)
    rcases List.mem_append.mp hm with hm | hm
    · exact hk hm
    · exact Block.not_mem_childKeys_detach s.block key hm

/-! ### What keeps a block well formed -/

namespace Block.WellFormed
variable {b c : Block} {key : String}

theorem empty : WellFormed {} :=
  .intro List.nodup_nil (fun _ h => nomatch h) (fun _ _ h => nomatch h)

theorem keys (h : b.WellFormed) : b.keys.Nodup := by
  cases h with
  | intro hk _ _ => exact hk

theorem leaf (h : b.WellFormed) : ∀ d ∈ b.declarations, d.2.IsLeaf := by
  cases h with
  | intro _ hd _ => exact hd

theorem child (h : b.WellFormed) (hc : .ofBlock key c ∈ b.children) : c.WellFormed := by
  cases h with
  | intro _ _ hb => exact hb key c hc

theorem childKeys_nodup (h : b.WellFormed) : b.childKeys.Nodup := (List.nodup_append.mp h.keys).2.1

/-- No name is declared and the key of a child at once. -/
theorem not_mem_declared (h : b.WellFormed) (hk : key ∈ b.childKeys) : key ∉ b.declared :=
  fun hd => (List.nodup_append.mp h.keys).2.2 key hd key hk rfl

theorem child? (h : b.WellFormed) (hc : b.child? key = some c) : c.WellFormed := h.child (mem_of_child? hc)

theorem at? (h : b.WellFormed) {path : KeyPath} (hc : b.at? path = some c) : c.WellFormed := by
  induction path generalizing b with
  | nil =>
    cases hc
    exact h
  | cons key rest ih =>
    obtain ⟨b', hb', hc⟩ := Option.bind_eq_some_iff.mp hc
    exact ih (h.child? hb') hc

/-- A block with fewer declarations and children. -/
theorem sublist (h : b.WellFormed) {ds : List (String × Json)} {cs : List Node} (hd : ds.Sublist b.declarations)
    (hc : cs.Sublist b.children) : WellFormed ⟨ds, cs⟩ :=
  .intro (h.keys.sublist ((hd.map _).append (hc.filterMap _))) (fun d hm => h.leaf d (hd.subset hm))
    (fun _ _ hm => h.child (hc.subset hm))

theorem detach (h : b.WellFormed) (key : String) : (b.detach key).WellFormed :=
  h.sublist (.refl _) List.filter_sublist

theorem pushRaw (h : b.WellFormed) (text : String) : (b.pushRaw text).WellFormed := by
  have hkeys : (b.pushRaw text).keys = b.keys := by simp [Block.pushRaw, Block.keys, declared, childKeys, Node.key?]
  refine .intro (hkeys ▸ h.keys) h.leaf fun key c hm => ?_
  rcases List.mem_append.mp hm with hm | hm
  · exact h.child hm
  · cases List.mem_singleton.mp hm

/-- A block with the first child under a key changed. -/
theorem mapChild (h : b.WellFormed) (key : String) {f : Block → Block} (hf : ∀ c : Block, c.WellFormed → (f c).WellFormed) :
    WellFormed ⟨b.declarations, Block.mapChild key f b.children⟩ := by
  refine .intro ?_ h.leaf fun k c hm => ?_
  · simpa only [Block.keys, declared, childKeys, filterMap_key?_mapChild] using h.keys
  · rcases eq_of_mem_mapChild hm with hm | ⟨c', hc', he⟩
    · exact h.child hm
    · obtain ⟨-, rfl⟩ := Node.ofBlock_inj.mp he
      exact hf c' (h.child hc')

theorem modifyAt (h : b.WellFormed) (path : KeyPath) {f : Block → Block}
    (hf : ∀ c : Block, c.WellFormed → (f c).WellFormed) : (Block.modifyAt f path b).WellFormed := by
  induction path generalizing b with
  | nil => exact hf b h
  | cons key rest ih => exact h.mapChild key fun c hc => ih hc

theorem openChild {s : Splice} (h : s.block.WellFormed) {f : Block → Block}
    (hf : ∀ c : Block, c.WellFormed → (f c).WellFormed) : (s.openChild key f).block.WellFormed := by
  refine .intro (Splice.nodup_keys_openChild h.keys key f)
    (fun d hd => h.leaf d (s.declarations_openChild_subset key f hd)) fun k c hc => ?_
  rcases Splice.child_of_openChild hc with hc | rfl | ⟨c', hc', rfl⟩
  · exact h.child hc
  · exact hf {} empty
  · exact hf c' (h.child hc')

theorem declare {s : Splice} (h : s.block.WellFormed) {v : Json} (hv : v.IsLeaf) :
    (s.declare key v).block.WellFormed := by
  refine .intro (Splice.nodup_keys_declare h.keys key v) (fun d hm => ?_)
    (fun k c hm => (h.detach key).child (s.children_declare key v ▸ hm))
  rcases Splice.mem_declarations_declare hm with hm | rfl
  · exact h.leaf d hm
  · exact hv

/-- A merge keeps a block well formed. -/
theorem mergeFields {v : Json} (hv : v.WellFormed) {m : List (String × Json)} (hm : m ∈ v.fragmentMaps) {s : Splice}
    (h : s.block.WellFormed) : (s.mergeFields m).block.WellFormed := by
  refine Splice.mergeFields_keeps Json.WellFormed (fun _ => True)
    (fun b b' => b.WellFormed → b'.WellFormed) (fun _ => id) (fun h h' => h' ∘ h) ?_ ?_ ?_ ?_ v hv m hm s h
  · exact fun hv e he => ⟨trivial, hv.field e he⟩
  · exact fun hv => hv.item
  · exact fun s key f _ hf h => h.openChild hf
  · exact fun s key v _ hv hl h => h.declare ⟨hv, hl⟩

theorem mergeFragment {v : Json} (hv : v.WellFormed) {s : Splice} (h : s.block.WellFormed) :
    (s.mergeFragment v).block.WellFormed := by
  rcases s.mergeFragment_eq v with he | he <;> rw [he]
  · exact List.foldlRecOn (motive := fun t : Splice => t.block.WellFormed) _ _ h fun t ht m hm => ht.mergeFields hv hm
  · exact h

end Block.WellFormed

/-! ### Reading back -/

theorem Node.map_fst_fields (children : List Node) : (Node.fields children).map (·.1) = children.filterMap Node.key? := by
  induction children with
  | nil => rfl
  | cons n rest ih =>
    cases n with
    | raw text => rw [Node.fields, Node.field?, List.filterMap_cons_none rfl, ← ih]; rfl
    | rule key ds cs => rw [Node.fields, Node.field?, List.map_append, ih]; rfl

theorem Node.mem_fields {children : List Node} {e : String × Json} (h : e ∈ Node.fields children) :
    ∃ key c, .ofBlock key c ∈ children ∧ e = (key, c.toValue) := by
  induction children with
  | nil => cases h
  | cons n rest ih =>
    rw [Node.fields, List.mem_append] at h
    rcases h with h | h
    · cases n with
      | raw text => cases h
      | rule key ds cs =>
        have he : e = (key, Block.toValue ⟨ds, cs⟩) := List.mem_singleton.mp h
        exact ⟨key, ⟨ds, cs⟩, List.mem_cons_self, he⟩
    · obtain ⟨key, c, hc, he⟩ := ih h
      exact ⟨key, c, List.mem_cons_of_mem _ hc, he⟩

theorem Block.WellFormed.toValue {b : Block} (h : b.WellFormed) : b.toValue.WellFormed := by
  induction h with
  | @intro b hkeys hleaf _ ih =>
    refine .obj ?_ fun e he => ?_
    · rw [List.map_append, Node.map_fst_fields]
      exact hkeys
    · rcases List.mem_append.mp he with he | he
      · exact (hleaf e he).1
      · obtain ⟨key, c, hc, rfl⟩ := Node.mem_fields he
        exact ih key c hc

end StyleTree
