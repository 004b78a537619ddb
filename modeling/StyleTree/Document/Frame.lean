import StyleTree.Document.Merge

/-! What a merge leaves alone. A merge only touches the keys of the maps it merges: it brings in no other
    key, and every child under another key was there before. -/

namespace StyleTree

/-! ### Sequences as lists of maps -/

namespace Splice

/-- A sequence is merged map by map. -/
theorem mergeItems_eq_foldl (s : Splice) : (items : List Json) →
    s.mergeItems items = (Json.maps items).foldl mergeFields s
  | [] => by rw [mergeItems, Json.maps, List.foldl_nil]
  | .obj fields :: rest => by
    rw [mergeItems, Json.maps, List.foldl_cons, mergeItems_eq_foldl (s.mergeFields fields) rest]
  | .arr inner :: rest => by
    rw [mergeItems, Json.maps, List.foldl_append, mergeItems_eq_foldl s inner, mergeItems_eq_foldl _ rest]
  | .null :: rest | .bool _ :: rest | .num _ :: rest | .str _ :: rest => by
    simpa [mergeItems, Json.maps] using mergeItems_eq_foldl s rest

/-- What is merged under one key either opens a child or declares the value. -/
theorem mergeField_eq (s : Splice) (key : String) (value : Json) :
    (∃ f, s.mergeField key value = s.openChild key f) ∨ s.mergeField key value = s.declare key value := by
  cases value with
  | obj fields => exact .inl ⟨_, by rw [mergeField]⟩
  | arr items =>
    rw [mergeField]
    split
    · exact .inl ⟨_, rfl⟩
    · exact .inr rfl
  | null | bool _ | num _ | str _ => exact .inr (by rw [mergeField])

end Splice

/-! ### Keys -/

namespace Block

theorem key?_mapChild (key : String) (f : Block → Block) (children : List Node) :
    (mapChild key f children).map Node.key? = children.map Node.key? := by
  induction children with
  | nil => rfl
  | cons n rest ih =>
    cases n with
    | raw text => simp [mapChild, ih]
    | rule k ds cs => by_cases h : k = key <;> simp [mapChild, h, ih, Node.ofBlock, Node.key?]

theorem filterMap_key?_mapChild (key : String) (f : Block → Block) (children : List Node) :
    (mapChild key f children).filterMap Node.key? = children.filterMap Node.key? := by
  have h (l : List Node) : l.filterMap Node.key? = (l.map Node.key?).filterMap id := by
    simp [List.filterMap_map]
  rw [h, h, key?_mapChild]

theorem mem_mapChild {key : String} {f : Block → Block} {n : Node} {children : List Node}
    (h : n ∈ mapChild key f children) : n ∈ children ∨ n.key? = some key := by
  induction children with
  | nil => exact .inl h
  | cons m rest ih =>
    cases m with
    | raw text =>
      rw [mapChild, List.mem_cons] at h
      rcases h with rfl | h
      · exact .inl List.mem_cons_self
      · exact (ih h).imp_left (List.mem_cons_of_mem _)
    | rule k ds cs =>
      rw [mapChild] at h
      split at h
      · rcases List.mem_cons.mp h with rfl | h
        · exact .inr rfl
        · exact .inl (List.mem_cons_of_mem _ h)
      · rcases List.mem_cons.mp h with rfl | h
        · exact .inl List.mem_cons_self
        · exact (ih h).imp_left (List.mem_cons_of_mem _)

theorem childKeys_detach_sublist (b : Block) (key : String) : (b.detach key).childKeys.Sublist b.childKeys :=
  List.Sublist.filterMap _ List.filter_sublist

theorem declared_erase_sublist (ds : List (String × Json)) (key : String) :
    ((Assoc.erase ds key).map (·.1)).Sublist (ds.map (·.1)) :=
  List.Sublist.map _ List.filter_sublist

end Block

/-- How many keys of a block satisfy `p`, counted among the declarations and among the children. -/
def Block.countKeys (b : Block) (p : String → Bool) : Nat := b.keys.countP p

namespace Splice
variable {p : String → Bool} {key : String}

theorem children_declare (s : Splice) (key : String) (value : Json) :
    (s.declare key value).block.children = (s.block.detach key).children := by
  simp only [declare]
  split
  · rfl
  · split <;> rfl

/-- A name already declared stays where it is, and a new one goes in somewhere. -/
theorem declared_declare (s : Splice) (key : String) (value : Json) :
    (s.declare key value).block.declared = s.block.declared ∨
      ∃ i, (s.declare key value).block.declared = s.block.declared.take i ++ key :: s.block.declared.drop i := by
  simp only [declare]
  split
  · next h =>
    have hk : key ∈ s.block.declarations.map (·.1) := Assoc.contains_iff.mp h
    exact .inl (by simp only [Block.declared, Block.detach, Assoc.map_fst_put, hk, if_true])
  · split
    · exact .inr ⟨s.block.declared.length, by
        rw [List.take_length, List.drop_length]; simp [Block.declared, Block.detach]⟩
    · next i _ =>
      exact .inr ⟨min i s.block.declarations.length, by
        simp only [Block.declared, Block.detach, Assoc.insertAt, List.map_append, List.map_cons, List.map_take,
          List.map_drop]⟩

theorem countKeys_openChild_le (s : Splice) (f : Block → Block) (hp : p key = false) :
    (s.openChild key f).block.countKeys p ≤ s.block.countKeys p := by
  unfold openChild
  split
  · simp [Block.countKeys, Block.keys, Block.declared, Block.childKeys, Block.filterMap_key?_mapChild]
  · have := (Block.declared_erase_sublist s.block.declarations key).countP_le (p := p)
    simpa only [Block.countKeys, Block.keys, Block.declared, Block.childKeys, List.countP_append,
      List.filterMap_append, List.filterMap_cons, Node.key?_ofBlock, List.filterMap_nil, List.countP_cons, hp,
      List.countP_nil, Bool.false_eq_true, if_false, Nat.add_zero, Nat.add_le_add_iff_right] using this

theorem countKeys_declare_le (s : Splice) (value : Json) (hp : p key = false) :
    (s.declare key value).block.countKeys p ≤ s.block.countKeys p := by
  have hc := (Block.childKeys_detach_sublist s.block key).countP_le (p := p)
  have hd : (s.declare key value).block.declared.countP p = s.block.declared.countP p := by
    rcases s.declared_declare key value with h | ⟨i, h⟩ <;> rw [h]
    rw [List.countP_append, List.countP_cons, hp, ← Nat.add_assoc, ← List.countP_append, List.take_append_drop]
    rfl
  rw [Block.countKeys, Block.keys, List.countP_append, hd, Block.childKeys, children_declare,
    Block.countKeys, Block.keys, List.countP_append]
  exact Nat.add_le_add_left hc _

theorem countKeys_mergeFields_le {fields : List (String × Json)} (s : Splice)
    (hp : ∀ k ∈ fields.map (·.1), p k = false) :
    (s.mergeFields fields).block.countKeys p ≤ s.block.countKeys p := by
  induction fields generalizing s with
  | nil => simp [mergeFields]
  | cons e rest ih =>
    obtain ⟨key, value⟩ := e
    rw [mergeFields]
    refine Nat.le_trans (ih _ fun k hk => hp k (by simp_all)) ?_
    have hk : p key = false := hp key (by simp)
    rcases s.mergeField_eq key value with ⟨f, h⟩ | h <;> rw [h]
    · exact s.countKeys_openChild_le f hk
    · exact s.countKeys_declare_le value hk

theorem countKeys_foldl_le {ms : List (List (String × Json))} (s : Splice)
    (hp : ∀ m ∈ ms, ∀ k ∈ m.map (·.1), p k = false) :
    (ms.foldl mergeFields s).block.countKeys p ≤ s.block.countKeys p := by
  induction ms generalizing s with
  | nil => exact Nat.le_refl _
  | cons m rest ih =>
    rw [List.foldl_cons]
    exact Nat.le_trans (ih _ fun m' h => hp m' (List.mem_cons_of_mem _ h))
      (s.countKeys_mergeFields_le (hp m List.mem_cons_self))

/-! ### Children -/

theorem mem_children_openChild {s : Splice} {f : Block → Block} {n : Node}
    (h : n ∈ (s.openChild key f).block.children) : n ∈ s.block.children ∨ n.key? = some key := by
  unfold openChild at h
  split at h
  · exact Block.mem_mapChild h
  · rcases List.mem_append.mp h with h | h
    · exact .inl h
    · exact .inr (by rw [List.mem_singleton.mp h, Node.key?_ofBlock])

theorem mem_children_declare {s : Splice} {value : Json} {n : Node}
    (h : n ∈ (s.declare key value).block.children) : n ∈ s.block.children := by
  rw [children_declare] at h
  exact (List.mem_filter.mp h).1

theorem mem_children_mergeFields {s : Splice} {fields : List (String × Json)} {n : Node}
    (h : n ∈ (s.mergeFields fields).block.children) :
    n ∈ s.block.children ∨ ∃ k ∈ fields.map (·.1), n.key? = some k := by
  induction fields generalizing s with
  | nil => exact .inl (by simpa [mergeFields] using h)
  | cons e rest ih =>
    obtain ⟨key, value⟩ := e
    rw [mergeFields] at h
    rcases ih h with h | ⟨k, hk, h⟩
    · rcases s.mergeField_eq key value with ⟨f, hf⟩ | hf <;> rw [hf] at h
      · exact (mem_children_openChild h).imp_right fun h => ⟨key, by simp, h⟩
      · exact .inl (mem_children_declare h)
    · exact .inr ⟨k, by simp_all, h⟩

theorem mem_children_foldl {s : Splice} {ms : List (List (String × Json))} {n : Node}
    (h : n ∈ (ms.foldl mergeFields s).block.children) :
    n ∈ s.block.children ∨ ∃ m ∈ ms, ∃ k ∈ m.map (·.1), n.key? = some k := by
  induction ms generalizing s with
  | nil => exact .inl h
  | cons m rest ih =>
    rcases ih h with h | ⟨m', hm, h⟩
    · exact (mem_children_mergeFields h).imp_right fun h => ⟨m, List.mem_cons_self, h⟩
    · exact .inr ⟨m', List.mem_cons_of_mem _ hm, h⟩

end Splice

end StyleTree
