import StyleTree.Proofs.Assoc
import StyleTree.Proofs.Document.Merging

/-! What a merge does under one key. Opening a child and declaring a value change what is found under
    their key and nothing else, so a map leaves alone what is found under the keys it does not have. -/

namespace StyleTree

theorem Node.ofBlock_inj {key key' : String} {c c' : Block} : ofBlock key c = ofBlock key' c' ↔ key = key' ∧ c = c' := by
  cases c
  cases c'
  simp [ofBlock]

theorem Node.hasKey_iff {key : String} {n : Node} : n.hasKey key = true ↔ n.key? = some key := beq_iff_eq

namespace Block
variable {b : Block} {key k : String}

theorem child?_nil (ds : List (String × Json)) (k : String) : child? ⟨ds, []⟩ k = none := rfl

theorem child?_raw (ds : List (String × Json)) (text : String) (rest : List Node) (k : String) :
    child? ⟨ds, .raw text :: rest⟩ k = child? ⟨ds, rest⟩ k := by
  rw [child?, child?, List.find?_cons_of_neg]
  exact Bool.false_ne_true

theorem child?_rule (ds : List (String × Json)) (key : String) (ds' : List (String × Json)) (cs rest : List Node)
    (k : String) :
    child? ⟨ds, .rule key ds' cs :: rest⟩ k = if key = k then some ⟨ds', cs⟩ else child? ⟨ds, rest⟩ k := by
  by_cases h : key = k
  · rw [if_pos h, child?, List.find?_cons_of_pos (Node.hasKey_iff.mpr (by rw [h]; rfl))]
    rfl
  · rw [if_neg h, child?, child?, List.find?_cons_of_neg]
    rw [Node.hasKey_iff]
    exact fun he => h (Option.some.inj he)

/-- A child that is found is among the children. -/
theorem mem_of_child? {c : Block} (h : b.child? key = some c) : .ofBlock key c ∈ b.children := by
  obtain ⟨n, hn, hc⟩ := Option.bind_eq_some_iff.mp h
  have hk := Node.hasKey_iff.mp (List.find?_some hn)
  cases n with
  | raw text => cases hk
  | rule k ds cs =>
    cases hk
    cases hc
    exact List.mem_of_find?_eq_some hn

theorem mem_childKeys_of_mem {c : Block} (h : .ofBlock key c ∈ b.children) : key ∈ b.childKeys :=
  List.mem_filterMap.mpr ⟨.ofBlock key c, h, rfl⟩

theorem child?_isSome_iff : (b.child? key).isSome = true ↔ key ∈ b.childKeys := by
  obtain ⟨ds, children⟩ := b
  induction children with
  | nil => simp [child?_nil, childKeys]
  | cons n rest ih =>
    cases n with
    | raw text => rw [child?_raw, ih, childKeys, childKeys, List.filterMap_cons_none rfl]
    | rule k ds' cs =>
      have hcons : childKeys ⟨ds, .rule k ds' cs :: rest⟩ = k :: childKeys ⟨ds, rest⟩ := rfl
      rw [child?_rule, hcons, List.mem_cons, ← ih]
      by_cases h : k = key
      · simp [h]
      · simp [h, Ne.symm h]

/-- Among distinct keys a child is found under its own. -/
theorem child?_of_mem {c : Block} (hb : b.childKeys.Nodup) (hc : .ofBlock key c ∈ b.children) : b.child? key = some c := by
  obtain ⟨ds, children⟩ := b
  induction children with
  | nil => cases hc
  | cons n rest ih =>
    cases n with
    | raw text =>
      rw [child?_raw]
      exact ih hb ((List.mem_cons.mp hc).resolve_left nofun)
    | rule k ds' cs =>
      obtain ⟨hk, hrest⟩ : k ∉ childKeys ⟨ds, rest⟩ ∧ (childKeys ⟨ds, rest⟩).Nodup := List.nodup_cons.mp hb
      rw [child?_rule]
      rcases List.mem_cons.mp hc with hc | hc
      · obtain ⟨rfl, rfl⟩ := Node.ofBlock_inj.mp (hc.trans (by rfl : Node.rule k ds' cs = .ofBlock k ⟨ds', cs⟩))
        exact if_pos rfl
      · have hne : k ≠ key := fun he => hk (he ▸ mem_childKeys_of_mem (b := ⟨ds, rest⟩) hc)
        rw [if_neg hne]
        exact ih hrest hc

theorem child?_eq_none_iff : b.child? key = none ↔ key ∉ b.childKeys := by
  rw [← child?_isSome_iff, Bool.not_eq_true, Option.isSome_eq_false_iff, Option.isNone_iff_eq_none]

theorem hasChild_iff : b.hasChild key = true ↔ key ∈ b.childKeys := by
  rw [hasChild, List.any_eq_true, childKeys, List.mem_filterMap]
  simp only [Node.hasKey_iff]

theorem child?_mapChild (b : Block) (key k : String) (f : Block → Block) :
    child? ⟨b.declarations, mapChild key f b.children⟩ k = if key = k then (b.child? k).map f else b.child? k := by
  obtain ⟨ds, children⟩ := b
  induction children with
  | nil => simp [mapChild, child?_nil]
  | cons n rest ih =>
    cases n with
    | raw text => rw [mapChild, child?_raw, child?_raw, ih]
    | rule k' ds' cs =>
      rw [mapChild, child?_rule]
      by_cases h : k' = key
      · rw [if_pos h, Node.ofBlock, child?_rule, h]
        split <;> rfl
      · rw [if_neg h, child?_rule, ih]
        by_cases hk : key = k
        · rw [if_pos hk, if_pos hk, if_neg fun he => h (he.trans hk.symm), if_neg fun he => h (he.trans hk.symm)]
        · rw [if_neg hk, if_neg hk]

theorem child?_append_ofBlock (b : Block) (ds : List (String × Json)) (key k : String) (c : Block) :
    child? ⟨ds, b.children ++ [.ofBlock key c]⟩ k = (b.child? k).or (if key = k then some c else none) := by
  obtain ⟨ds', children⟩ := b
  induction children with
  | nil => rw [List.nil_append, Node.ofBlock, child?_rule]; rfl
  | cons n rest ih =>
    cases n with
    | raw text => rw [List.cons_append, child?_raw, child?_raw, ih]
    | rule k' ds' cs =>
      rw [List.cons_append, child?_rule, child?_rule, ih]
      split <;> rfl

theorem child?_detach (b : Block) (key k : String) :
    (b.detach key).child? k = if k = key then none else b.child? k := by
  obtain ⟨ds, children⟩ := b
  rw [detach]
  induction children with
  | nil => simp [child?_nil]
  | cons n rest ih =>
    cases n with
    | raw text => rw [List.filter_cons_of_pos rfl, child?_raw, child?_raw, ih]
    | rule k' ds' cs =>
      by_cases h : k' = key
      · rw [List.filter_cons_of_neg (by simp [Node.hasKey, Node.key?, h]), ih, child?_rule, h]
        split
        · rfl
        · next hk => rw [if_neg (Ne.symm hk)]
      · rw [List.filter_cons_of_pos (by simp [Node.hasKey, Node.key?, h]), child?_rule, child?_rule, ih]
        split
        · next hk => rw [if_neg fun he => h (hk.trans he)]
        · rfl

end Block

/-! ### Steps of a merge -/

namespace Splice
variable {s : Splice} {key k : String} {fields : List (String × Json)}

/-- A child that is opened is the old one changed, or a new one. -/
theorem child?_openChild (s : Splice) (key k : String) (f : Block → Block) :
    (s.openChild key f).block.child? k =
      if key = k then some (f ((s.block.child? k).getD {})) else s.block.child? k := by
  unfold openChild
  split
  · next h =>
    rw [Block.child?_mapChild]
    split
    · next hk =>
      obtain ⟨c, hc⟩ := Option.isSome_iff_exists.mp (Block.child?_isSome_iff.mpr (Block.hasChild_iff.mp h))
      rw [← hk, hc]
      rfl
    · rfl
  · next h =>
    have hnone : s.block.child? key = none := Block.child?_eq_none_iff.mpr fun hk => h (Block.hasChild_iff.mpr hk)
    rw [Block.child?_append_ofBlock]
    split
    · next hk =>
      rw [← hk, hnone]
      rfl
    · rw [Option.or_none]

theorem get?_openChild_of_ne (f : Block → Block) (h : k ≠ key) :
    Assoc.get? (s.openChild key f).block.declarations k = Assoc.get? s.block.declarations k := by
  unfold openChild
  split
  · rfl
  · simp [Assoc.get?_erase, h]

theorem child?_declare (s : Splice) (key k : String) (value : Json) :
    (s.declare key value).block.child? k = if k = key then none else s.block.child? k := by
  rw [Block.child?, children_declare]
  exact Block.child?_detach s.block key k

/-- A name already declared takes the value where it stands, and a new one goes in at some place. -/
theorem declarations_declare (s : Splice) (key : String) (value : Json) :
    (key ∈ s.block.declared ∧
        (s.declare key value).block.declarations = Assoc.put s.block.declarations key value) ∨
      (key ∉ s.block.declared ∧
        ∃ i, (s.declare key value).block.declarations = Assoc.insertAt s.block.declarations i key value) := by
  unfold declare
  dsimp only [Block.detach]
  split
  · next h => exact .inl ⟨Assoc.contains_iff.mp h, rfl⟩
  · next h =>
    refine .inr ⟨fun hm => h (Assoc.contains_iff.mpr hm), ?_⟩
    split
    · exact ⟨s.block.declarations.length, by rw [Assoc.insertAt, List.take_length, List.drop_length]⟩
    · exact ⟨_, rfl⟩

theorem get?_declare (s : Splice) (key k : String) (value : Json) :
    Assoc.get? (s.declare key value).block.declarations k =
      if key = k then some value else Assoc.get? s.block.declarations k := by
  rcases s.declarations_declare key value with ⟨-, h⟩ | ⟨hk, i, h⟩
  · rw [h, Assoc.get?_put]
  · rw [h, Assoc.get?_insertAt hk]

/-! ### Maps -/

theorem child?_mergeFields_of_not_mem (s : Splice) (h : k ∉ fields.map (·.1)) :
    (s.mergeFields fields).block.child? k = s.block.child? k := by
  induction fields generalizing s with
  | nil => rw [mergeFields]
  | cons e rest ih =>
    obtain ⟨key, value⟩ := e
    obtain ⟨hne, hrest⟩ : k ≠ key ∧ k ∉ rest.map (·.1) := by simpa using h
    rw [mergeFields, ih _ hrest]
    rcases s.mergeField_eq key value with ⟨f, hf⟩ | hf <;> rw [hf]
    · rw [child?_openChild, if_neg hne.symm]
    · rw [child?_declare, if_neg hne]

theorem get?_mergeFields_of_not_mem (s : Splice) (h : k ∉ fields.map (·.1)) :
    Assoc.get? (s.mergeFields fields).block.declarations k = Assoc.get? s.block.declarations k := by
  induction fields generalizing s with
  | nil => rw [mergeFields]
  | cons e rest ih =>
    obtain ⟨key, value⟩ := e
    obtain ⟨hne, hrest⟩ : k ≠ key ∧ k ∉ rest.map (·.1) := by simpa using h
    rw [mergeFields, ih _ hrest]
    rcases s.mergeField_eq key value with ⟨f, hf⟩ | hf <;> rw [hf]
    · rw [get?_openChild_of_ne f hne]
    · rw [get?_declare, if_neg hne.symm]

/-- A field of a map is merged as if the others were not there. -/
theorem exists_mergeField {v : Json} (hn : (fields.map (·.1)).Nodup) (hkv : (k, v) ∈ fields) (s : Splice) :
    ∃ t : Splice, t.block.child? k = s.block.child? k ∧
      Assoc.get? t.block.declarations k = Assoc.get? s.block.declarations k ∧
      (s.mergeFields fields).block.child? k = (t.mergeField k v).block.child? k ∧
      Assoc.get? (s.mergeFields fields).block.declarations k = Assoc.get? (t.mergeField k v).block.declarations k := by
  obtain ⟨l₁, l₂, rfl⟩ := List.append_of_mem hkv
  obtain ⟨h₁, h₂⟩ : k ∉ l₁.map (·.1) ∧ k ∉ l₂.map (·.1) := by
    rw [List.map_append, List.map_cons, List.nodup_middle, List.nodup_cons, List.mem_append, not_or] at hn
    exact hn.1
  -- The fields before `k` leave what is found under `k` alone, and so do those behind it.
  have happend : s.mergeFields (l₁ ++ (k, v) :: l₂) = ((s.mergeFields l₁).mergeField k v).mergeFields l₂ := by
    rw [mergeFields_append, mergeFields]
  refine ⟨s.mergeFields l₁, s.child?_mergeFields_of_not_mem h₁, s.get?_mergeFields_of_not_mem h₁, ?_, ?_⟩
  · rw [happend, child?_mergeFields_of_not_mem _ h₂]
  · rw [happend, get?_mergeFields_of_not_mem _ h₂]

/-- The value of a fragment under a key is found in the child of that key. -/
theorem child?_mergeFields {v : Json} (hn : (fields.map (·.1)).Nodup) (hkv : (k, v) ∈ fields)
    (hv : v.isFragment = true) (s : Splice) : (s.mergeFields fields).block.child? k =
      some (v.fragmentMaps.foldl Block.mergeFields ((s.block.child? k).getD {})) := by
  obtain ⟨t, ht, -, hc, -⟩ := exists_mergeField hn hkv s
  rw [hc, mergeField_of_isFragment t k hv, child?_openChild, if_pos rfl, ht]

/-- A leaf is found among the declarations, and its name is the key of no child. -/
theorem get?_mergeFields {v : Json} (hn : (fields.map (·.1)).Nodup) (hkv : (k, v) ∈ fields)
    (hv : v.isFragment = false) (s : Splice) :
    Assoc.get? (s.mergeFields fields).block.declarations k = some v ∧
      k ∉ (s.mergeFields fields).block.childKeys := by
  obtain ⟨t, -, -, hc, hd⟩ := exists_mergeField hn hkv s
  rw [mergeField_of_leaf t k hv] at hc hd
  refine ⟨?_, Block.child?_eq_none_iff.mp ?_⟩
  · rw [hd, get?_declare, if_pos rfl]
  · rw [hc, child?_declare, if_pos rfl]

end Splice

end StyleTree
