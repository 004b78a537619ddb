import StyleTree.Extension.Expand

/-! A merge as a sequence of steps. A fragment is a list of maps, and a map is merged field by field: each
    field opens a child, into which its value is merged in turn, or declares its value. What every such
    step keeps is kept by the merge. -/

namespace StyleTree

/-- The values that stand directly in a list or a map. -/
def Json.children : Json → List Json
  | .arr items => items
  | .obj fields => fields.map (·.2)
  | .null | .bool _ | .num _ | .str _ => []

theorem Json.sizeOf_lt_of_mem_children {v c : Json} (h : c ∈ v.children) : sizeOf c < sizeOf v := by
  cases v with
  | arr items =>
    have := List.sizeOf_lt_of_mem (show c ∈ items from h)
    simp only [Json.arr.sizeOf_spec]
    omega
  | obj fields =>
    obtain ⟨⟨key, value⟩, he, rfl⟩ := List.mem_map.mp h
    have := List.sizeOf_lt_of_mem he
    simp only [Json.obj.sizeOf_spec, Prod.mk.sizeOf_spec] at this ⊢
    omega
  | null | bool _ | num _ | str _ => cases h

/-- What holds of a value wherever it holds of its children holds of all. -/
theorem Json.children_induction {motive : Json → Prop} (step : ∀ v : Json, (∀ c ∈ v.children, motive c) → motive v)
    (v : Json) : motive v :=
  step v fun c _ => children_induction step c
termination_by sizeOf v
decreasing_by exact sizeOf_lt_of_mem_children ‹_›

/-- What holds of a map or a list wherever it holds of all its values, and of every other value, holds of
    all. -/
theorem Json.parts_induction {motive : Json → Prop}
    (obj : ∀ fields, (∀ e ∈ fields, motive e.2) → motive (.obj fields))
    (arr : ∀ items, (∀ v ∈ items, motive v) → motive (.arr items))
    (leaf : ∀ v, v.fragmentMaps = [] → motive v) (v : Json) : motive v := by
  induction v using children_induction with
  | step v ih =>
    cases v with
    | obj fields => exact obj fields fun e he => ih e.2 (List.mem_map_of_mem he)
    | arr items => exact arr items ih
    | null | bool _ | num _ | str _ => exact leaf _ rfl

theorem Json.mem_maps_iff {items : List Json} {m : List (String × Json)} :
    m ∈ maps items ↔ ∃ v ∈ items, m ∈ v.fragmentMaps := by
  induction items with
  | nil => simp [maps]
  | cons v rest ih =>
    cases v with
    | obj fields => simp [maps, ih, fragmentMaps]
    | arr inner => simp [maps, ih, fragmentMaps]
    | null | bool _ | num _ | str _ => simp [maps, ih, fragmentMaps]

namespace Splice

theorem slot_mergeFields_none (b : Block) (fields : List (String × Json)) :
    (mergeFields ⟨b, none⟩ fields).slot = none := by
  suffices run : ∀ s : Splice, s.slot = none → (s.mergeFields fields).slot = none from run _ rfl
  induction fields with
  | nil => exact fun s h => by rw [mergeFields, h]
  | cons e rest ih =>
    obtain ⟨key, value⟩ := e
    intro s h
    rw [mergeFields]
    refine ih _ ?_
    rcases s.mergeField_eq key value with ⟨f, hf⟩ | hf <;> rw [hf]
    · unfold openChild
      split
      · exact h
      · rw [h]
        rfl
    · simp only [declare, h]
      split <;> rfl

theorem mergeFields_none (b : Block) (fields : List (String × Json)) :
    mergeFields ⟨b, none⟩ fields = ⟨b.mergeFields fields, none⟩ := by
  have h := slot_mergeFields_none b fields
  rw [Block.mergeFields]
  generalize mergeFields ⟨b, none⟩ fields = s at h ⊢
  cases s
  cases h
  rfl

/-- Without a slot, maps are merged into the block one after the other. -/
theorem foldl_mergeFields_none (b : Block) (ms : List (List (String × Json))) :
    ms.foldl mergeFields ⟨b, none⟩ = ⟨ms.foldl Block.mergeFields b, none⟩ := by
  induction ms generalizing b with
  | nil => rfl
  | cons m rest ih => rw [List.foldl_cons, List.foldl_cons, mergeFields_none, ih]

/-- A fragment is merged into the child of its key, map by map. -/
theorem mergeField_of_isFragment (s : Splice) (key : String) {value : Json} (h : value.isFragment = true) :
    s.mergeField key value = s.openChild key fun b => value.fragmentMaps.foldl Block.mergeFields b := by
  cases value with
  | obj fields => rw [mergeField]; rfl
  | arr items =>
    have hs : Json.isSequence items = true := h
    rw [mergeField, if_pos hs]
    congr 1
    funext b
    rw [mergeItems_eq_foldl, foldl_mergeFields_none]
    rfl
  | null | bool _ | num _ | str _ => cases h

theorem mergeField_of_leaf (s : Splice) (key : String) {value : Json} (h : value.isFragment = false) :
    s.mergeField key value = s.declare key value := by
  cases value with
  | obj fields => cases h
  | arr items =>
    have hs : Json.isSequence items = false := h
    rw [mergeField, hs, if_neg Bool.false_ne_true]
  | null | bool _ | num _ | str _ => rw [mergeField]

theorem mergeFields_eq_foldl (s : Splice) (fields : List (String × Json)) :
    s.mergeFields fields = fields.foldl (fun s e => s.mergeField e.1 e.2) s := by
  induction fields generalizing s with
  | nil => rw [mergeFields, List.foldl_nil]
  | cons e rest ih => rw [mergeFields, ih, List.foldl_cons]

theorem mergeFields_append (s : Splice) (l₁ l₂ : List (String × Json)) :
    s.mergeFields (l₁ ++ l₂) = (s.mergeFields l₁).mergeFields l₂ := by
  rw [mergeFields_eq_foldl, mergeFields_eq_foldl, mergeFields_eq_foldl, List.foldl_append]

/-- Maps merged one after the other are merged field by field. -/
theorem foldl_mergeFields (s : Splice) (ms : List (List (String × Json))) :
    ms.foldl mergeFields s = s.mergeFields ms.flatten := by
  induction ms generalizing s with
  | nil => rw [List.foldl_nil, List.flatten_nil, mergeFields]
  | cons m ms ih => rw [List.foldl_cons, ih, List.flatten_cons, mergeFields_append]

theorem mergeItems_eq_mergeFields (s : Splice) (items : List Json) :
    s.mergeItems items = s.mergeFields (Json.maps items).flatten := by
  rw [mergeItems_eq_foldl, foldl_mergeFields]

/-- What opening a child keeps, given that it is kept below, and what declaring keeps is kept by the merge
    of a good value. Goodness passes on to the parts of a value, and `name` holds of all its keys. -/
theorem mergeFields_keeps (good : Json → Prop) (name : String → Prop) (R : Block → Block → Prop)
    (refl : ∀ b, R b b) (trans : ∀ {a b c}, R a b → R b c → R a c)
    (ofObj : ∀ {fields}, good (.obj fields) → ∀ e ∈ fields, name e.1 ∧ good e.2)
    (ofArr : ∀ {items}, good (.arr items) → ∀ v ∈ items, good v)
    (opens : ∀ (s : Splice) (key : String) (f : Block → Block), name key → (∀ b, R b (f b)) →
      R s.block (s.openChild key f).block)
    (declares : ∀ (s : Splice) (key : String) (v : Json), name key → good v → v.isFragment = false →
      R s.block (s.declare key v).block)
    (v : Json) (hv : good v) : ∀ m ∈ v.fragmentMaps, ∀ s : Splice, R s.block (s.mergeFields m).block := by
  induction v using Json.parts_induction with
  | obj fields ih =>
    intro m hm s
    obtain rfl : m = fields := List.mem_singleton.mp hm
    rw [mergeFields_eq_foldl]
    refine List.foldlRecOn (motive := fun t : Splice => R s.block t.block) m _ (refl _) fun t ht e he => trans ht ?_
    obtain ⟨hname, hgood⟩ := ofObj hv e he
    cases hf : e.2.isFragment with
    | false =>
      rw [mergeField_of_leaf t e.1 hf]
      exact declares t e.1 e.2 hname hgood hf
    | true =>
      rw [mergeField_of_isFragment t e.1 hf]
      refine opens t e.1 _ hname fun b => ?_
      exact List.foldlRecOn (motive := fun c => R b c) _ _ (refl b) fun c hc m' hm' =>
        trans hc (ih e he hgood m' hm' ⟨c, none⟩)
  | arr items ih =>
    intro m hm s
    obtain ⟨v, hmem, hmv⟩ := Json.mem_maps_iff.mp hm
    exact ih v hmem (ofArr hv v hmem) m hmv s
  | leaf v hv' => simp [hv']

end Splice

end StyleTree
