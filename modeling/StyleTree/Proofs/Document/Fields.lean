import StyleTree.Proofs.Document.DeepMerge

/-! Fragments as fields. Maps that are merged one after the other are merged field by field, so all that matters
    of a fragment are the fields its maps give, in their order. A field with a leaf declares it, and one with
    a fragment opens a child and merges the fields of the fragment there. -/

namespace StyleTree

/-! ### Fields of a fragment -/

namespace Json

/-- The fields that a fragment gives, those of its maps one after the other. A leaf gives none. -/
def contents (v : Json) : List (String × Json) := if v.isFragment then v.fragmentMaps.flatten else []

/-- The fields that are given below the key `k`. -/
def contentsAt (l : List (String × Json)) (k : String) : List (String × Json) :=
  l.flatMap fun e => if e.1 = k then e.2.contents else []

variable {v : Json} {m l : List (String × Json)} {e : String × Json} {k : String}

theorem contents_of_isFragment (h : v.isFragment = true) : v.contents = v.fragmentMaps.flatten := if_pos h

theorem contents_of_leaf (h : v.isFragment = false) : v.contents = [] := if_neg (by simp [h])

theorem contents_obj (fields : List (String × Json)) : (Json.obj fields).contents = fields := by
  rw [contents_of_isFragment rfl, fragmentMaps, List.flatten_singleton]

theorem mem_contents (he : e ∈ v.contents) : v.isFragment = true ∧ ∃ m ∈ v.fragmentMaps, e ∈ m := by
  cases hv : v.isFragment with
  | false => simp [contents_of_leaf hv] at he
  | true => exact ⟨rfl, List.mem_flatten.mp (contents_of_isFragment hv ▸ he)⟩

theorem mem_contentsAt : e ∈ contentsAt l k ↔ ∃ v, (k, v) ∈ l ∧ e ∈ v.contents := by
  rw [contentsAt, List.mem_flatMap]
  constructor
  · rintro ⟨⟨k', v⟩, hd, he⟩
    split at he
    · next hk =>
      obtain rfl : k' = k := hk
      exact ⟨v, hd, he⟩
    · cases he
  · rintro ⟨v, hd, he⟩
    exact ⟨(k, v), hd, by rwa [if_pos rfl]⟩

theorem contentsAt_append (l l' : List (String × Json)) (k : String) :
    contentsAt (l ++ l') k = contentsAt l k ++ contentsAt l' k := List.flatMap_append

theorem contentsAt_cons (e : String × Json) (l : List (String × Json)) (k : String) :
    contentsAt (e :: l) k = (if e.1 = k then e.2.contents else []) ++ contentsAt l k := List.flatMap_cons

theorem contentsAt_singleton (e : String × Json) (k : String) :
    contentsAt [e] k = if e.1 = k then e.2.contents else [] := List.flatMap_singleton ..

theorem exists_of_mem_contentsAt (he : e ∈ contentsAt l k) : ∃ d ∈ l, e ∈ d.2.contents := by
  obtain ⟨v, hv, he⟩ := mem_contentsAt.mp he
  exact ⟨(k, v), hv, he⟩

theorem sizeOf_lt_of_mem_fragmentMaps (v : Json) : ∀ m ∈ v.fragmentMaps, ∀ e ∈ m, sizeOf e.2 < sizeOf v := by
  induction v using parts_induction with
  | obj fields =>
    intro m hm e he
    obtain rfl : m = fields := List.mem_singleton.mp hm
    have := List.sizeOf_lt_of_mem he
    obtain ⟨key, value⟩ := e
    simp only [Json.obj.sizeOf_spec, Prod.mk.sizeOf_spec] at this ⊢
    omega
  | arr items ih =>
    intro m hm e he
    obtain ⟨w, hw, hm⟩ := mem_maps_iff.mp hm
    have hlt := ih w hw m hm e he
    have := List.sizeOf_lt_of_mem hw
    simp only [Json.arr.sizeOf_spec]
    omega
  | leaf v hv => simp [hv]

theorem sizeOf_lt_of_mem_contents (he : e ∈ v.contents) : sizeOf e.2 < sizeOf v := by
  obtain ⟨-, m, hm, he⟩ := mem_contents he
  exact sizeOf_lt_of_mem_fragmentMaps v m hm e he

/-- What holds of fields wherever it holds of all lists of fields that are given below them holds of all. -/
theorem fields_induction {motive : List (String × Json) → Prop}
    (step : ∀ l, (∀ l', l ≠ [] → (∀ e ∈ l', ∃ d ∈ l, e ∈ d.2.contents) → motive l') → motive l)
    (l : List (String × Json)) : motive l := by
  suffices bounded : ∀ n l, (∀ e ∈ l, sizeOf e.2 < n) → motive l by
    refine bounded (sizeOf l) l fun e he => ?_
    have := List.sizeOf_lt_of_mem he
    obtain ⟨key, value⟩ := e
    simp only [Prod.mk.sizeOf_spec] at this ⊢
    omega
  intro n
  induction n with
  | zero =>
    refine fun l hl => step l fun l' hne _ => ?_
    obtain ⟨e, he⟩ := List.exists_mem_of_ne_nil l hne
    exact absurd (hl e he) (Nat.not_lt_zero _)
  | succ n ih =>
    refine fun l hl => step l fun l' _ hbelow => ih l' fun e he => ?_
    obtain ⟨d, hd, hed⟩ := hbelow e he
    exact Nat.lt_of_lt_of_le (sizeOf_lt_of_mem_contents hed) (Nat.le_of_lt_succ (hl d hd))

theorem WellFormed.of_mem_fragmentMaps (v : Json) (hv : v.WellFormed) : ∀ m ∈ v.fragmentMaps, (Json.obj m).WellFormed := by
  induction v using parts_induction with
  | obj fields =>
    intro m hm
    obtain rfl : m = fields := List.mem_singleton.mp hm
    exact hv
  | arr items ih =>
    intro m hm
    obtain ⟨w, hw, hm⟩ := mem_maps_iff.mp hm
    exact ih w hw (hv.item w hw) m hm
  | leaf v hv' => simp [hv']

theorem WellFormed.of_mem_contents (hv : v.WellFormed) (he : e ∈ v.contents) : e.2.WellFormed := by
  obtain ⟨-, m, hm, he⟩ := mem_contents he
  exact (of_mem_fragmentMaps v hv m hm).field e he

theorem WellFormed.of_mem_contentsAt (hl : ∀ e ∈ l, e.2.WellFormed) (he : e ∈ contentsAt l k) : e.2.WellFormed := by
  obtain ⟨d, hd, he⟩ := exists_of_mem_contentsAt he
  exact (hl d hd).of_mem_contents he

end Json

/-! ### Fields of a block -/

namespace Block
variable {b : Block} {k k' : String} {v : Json} {l : List (String × Json)} {f : Block → Block}

/-- The fields of the map that the block reads back as. -/
def fields (b : Block) : List (String × Json) := b.declarations ++ Node.fields b.children

theorem toValue_eq (b : Block) : b.toValue = .obj b.fields := rfl

/-- The block with a declaration, and without a child of its name. -/
def declare (b : Block) (k : String) (v : Json) : Block := ⟨Assoc.put b.declarations k v, (b.detach k).children⟩

/-- The block with the child under `k` changed by `f`, or with a new one instead of a declaration. -/
def openChild (b : Block) (k : String) (f : Block → Block) : Block := (Splice.openChild ⟨b, none⟩ k f).block

theorem openChild_of_mem (h : k ∈ b.childKeys) (f : Block → Block) :
    b.openChild k f = ⟨b.declarations, mapChild k f b.children⟩ := by
  rw [openChild, Splice.openChild, if_pos (hasChild_iff.mpr h)]

theorem openChild_of_not_mem (h : k ∉ b.childKeys) (f : Block → Block) :
    b.openChild k f = ⟨Assoc.erase b.declarations k, b.children ++ [.ofBlock k (f {})]⟩ := by
  rw [openChild, Splice.openChild, if_neg fun hc => h (hasChild_iff.mp hc)]

theorem child?_declare (b : Block) (k k' : String) (v : Json) :
    (b.declare k v).child? k' = if k' = k then none else b.child? k' := child?_detach b k k'

theorem child?_openChild (b : Block) (k k' : String) (f : Block → Block) :
    (b.openChild k f).child? k' = if k = k' then some (f ((b.child? k').getD {})) else b.child? k' :=
  Splice.child?_openChild ⟨b, none⟩ k k' f

theorem mem_childKeys_declare : k ∈ (b.declare k' v).childKeys ↔ k ≠ k' ∧ k ∈ b.childKeys := by
  rw [← child?_isSome_iff, child?_declare, ← child?_isSome_iff]
  split <;> simp [*]

theorem mem_childKeys_openChild : k ∈ (b.openChild k' f).childKeys ↔ k = k' ∨ k ∈ b.childKeys := by
  rw [← child?_isSome_iff, child?_openChild, ← child?_isSome_iff]
  split
  · next h => simp [h]
  · next h => simp [Ne.symm h]

theorem mem_declared_declare : k ∈ (b.declare k' v).declared ↔ k ∈ b.declared ∨ k = k' := Assoc.mem_keys_put

theorem mem_declared_openChild_of_ne (hne : k ≠ k') (f : Block → Block) :
    k ∈ (b.openChild k' f).declared ↔ k ∈ b.declared := by
  have h : Assoc.get? (b.openChild k' f).declarations k = Assoc.get? b.declarations k :=
    Splice.get?_openChild_of_ne f hne
  rw [declared, declared, ← not_iff_not, ← Assoc.get?_eq_none_iff, ← Assoc.get?_eq_none_iff, h]

theorem declared_openChild_subset : (b.openChild k f).declared ⊆ b.declared := by
  rw [declared, declared]
  exact List.map_subset _ (Splice.declarations_openChild_subset ⟨b, none⟩ k f)

theorem mergeFields_nil (b : Block) : b.mergeFields [] = b := by
  rw [mergeFields, Splice.mergeFields]

theorem mergeFields_cons (b : Block) (e : String × Json) (l : List (String × Json)) :
    b.mergeFields (e :: l) = (b.mergeFields [e]).mergeFields l := by
  rw [← mergeFields_append, List.singleton_append]

theorem mergeFields_of_leaf (b : Block) (k : String) (h : v.isFragment = false) : b.mergeFields [(k, v)] = b.declare k v := by
  rw [mergeFields_leaf b k h]
  simp only [Splice.declare]
  split
  · rfl
  · next hk =>
    have hnew : k ∉ b.declarations.map (·.1) := fun hm => hk (Assoc.contains_iff.mpr hm)
    rw [declare, Assoc.put_of_not_mem hnew]
    rfl

theorem foldl_mergeFields (b : Block) (ms : List (List (String × Json))) :
    ms.foldl mergeFields b = b.mergeFields ms.flatten := by
  have h := Splice.foldl_mergeFields ⟨b, none⟩ ms
  rw [Splice.foldl_mergeFields_none] at h
  exact congrArg Splice.block h

theorem mergeFields_of_isFragment (b : Block) (k : String) (h : v.isFragment = true) :
    b.mergeFields [(k, v)] = b.openChild k fun c => c.mergeFields v.contents := by
  rw [mergeFields_fragment b k h, openChild, Json.contents_of_isFragment h]
  congr 2
  funext c
  exact foldl_mergeFields c _

theorem merge_of_isFragment (d : Document) (h : v.isFragment = true) : d.merge v = .ok (d.mergeFields v.contents) := by
  cases v with
  | obj fields => rw [Json.contents_obj, merge]
  | arr items =>
    have hs : Json.isSequence items = true := h
    rw [Json.contents_of_isFragment h, ← foldl_mergeFields, merge, if_pos hs, mergeItems, Splice.mergeItems_eq_foldl,
      Splice.foldl_mergeFields_none]
    rfl
  | null | bool _ | num _ | str _ => cases h

theorem merge_nil (d : Document) : d.merge (.arr []) = .ok d := by
  rw [merge, Json.isSequence, Json.someMap, Bool.and_false, if_neg Bool.false_ne_true]
  rfl

theorem merge_of_leaf (d : Document) (h : v.isFragment = false) (hv : v ≠ .arr []) :
    d.merge v = .error (.invalidFragment (.notRules v)) := by
  cases v with
  | obj fields => cases h
  | arr items =>
    have hs : Json.isSequence items = false := h
    have hitems : items.isEmpty = false := List.isEmpty_eq_false_iff.mpr fun he => hv (congrArg Json.arr he)
    rw [merge, hs, hitems, if_neg Bool.false_ne_true, if_neg Bool.false_ne_true]
  | null | bool _ | num _ | str _ => rfl

/-- Fragments and the empty list are accepted, by every document, and merged field by field. -/
theorem merge_eq_ok_iff {d d' : Document} :
    d.merge v = .ok d' ↔ (v.isFragment = true ∨ v = .arr []) ∧ d' = d.mergeFields v.contents := by
  by_cases hv : v.isFragment = true
  · rw [merge_of_isFragment d hv, Except.ok.injEq]
    exact ⟨fun h => ⟨.inl hv, h.symm⟩, fun h => h.2.symm⟩
  · have hleaf : v.isFragment = false := Bool.not_eq_true _ ▸ hv
    rw [Json.contents_of_leaf hleaf, mergeFields_nil]
    by_cases hnil : v = .arr []
    · rw [hnil, merge_nil, Except.ok.injEq]
      exact ⟨fun h => ⟨.inr rfl, h.symm⟩, fun h => h.2.symm⟩
    · rw [merge_of_leaf d hleaf hnil]
      exact iff_of_false (by simp) fun h => h.1.elim hv hnil

/-! ### What is found under a key -/

/-- Under a key that is given fragments only, their fields are merged into the child, one after the other. -/
theorem child?_mergeFields_getD (hl : ∀ v, (k, v) ∈ l → v.isFragment = true) (b : Block) :
    ((b.mergeFields l).child? k).getD {} = ((b.child? k).getD {}).mergeFields (Json.contentsAt l k) := by
  induction l generalizing b with
  | nil => exact (mergeFields_nil _).symm
  | cons e l ih =>
    obtain ⟨key, v⟩ := e
    have hrest : ∀ w, (k, w) ∈ l → w.isFragment = true := fun w hw => hl w (List.mem_cons_of_mem _ hw)
    rw [mergeFields_cons, ih hrest, Json.contentsAt_cons, mergeFields_append]
    by_cases hk : key = k
    · subst hk
      rw [mergeFields_of_isFragment b key (hl v List.mem_cons_self), child?_openChild, if_pos rfl, if_pos rfl,
        Option.getD_some]
    · have hother : (b.mergeFields [(key, v)]).child? k = b.child? k :=
        Splice.child?_mergeFields_of_not_mem ⟨b, none⟩ (by simpa using Ne.symm hk)
      rw [hother, if_neg hk, mergeFields_nil]

theorem WellFormed.mergeAll (hb : b.WellFormed) (hl : ∀ e ∈ l, e.2.WellFormed) : (b.mergeFields l).WellFormed := by
  induction l generalizing b with
  | nil => exact hb
  | cons e l ih =>
    obtain ⟨he, hl⟩ := List.forall_mem_cons.mp hl
    rw [mergeFields_cons]
    exact ih (WellFormed.mergeObj (.obj (by simp) fun d hd => List.mem_singleton.mp hd ▸ he) hb) hl

end Block

end StyleTree
