import StyleTree.Proofs.Document.Fields

/-! Merges at a slot. What stood before the slot stays before the new declarations, and what stood behind it stays
    behind them, while names that become children leave on either side. So the slot moves with every step, and in
    the end it is where the next declaration would go in. -/

namespace StyleTree

/-! ### What the steps of a merge do to names -/

namespace Splice

/-- The names that a step of the merge turns from declarations into children. -/
def replaced (s : Splice) : List (String × Json) → List String
  | [] => []
  | (k, v) :: rest =>
    let t := s.mergeField k v
    (if k ∈ s.block.declared ∧ k ∈ t.block.childKeys then [k] else []) ++ t.replaced rest

/-- The names that a step of the merge declares anew and no later step turns into children, in the order of the
    steps. -/
def inserted (s : Splice) : List (String × Json) → List String
  | [] => []
  | (k, v) :: rest =>
    let t := s.mergeField k v
    (if k ∉ s.block.declared ∧ k ∈ t.block.declared ∧ k ∉ t.replaced rest then [k] else []) ++ t.inserted rest

/-- The slot stands between the new declarations and those behind it. -/
structure Around (s : Splice) (before fresh after : List String) : Prop where
  nodup : s.block.keys.Nodup
  declared : s.block.declared = before ++ fresh ++ after
  slot : s.slot = some (before ++ fresh).length

end Splice

/-- What merging the fields at the slot `i` makes of the block `n`, and where it leaves the slot. -/
structure Block.MergedInPlace (n : Block) (i : Nat) (l : List (String × Json)) (s : Splice) : Prop where
  declared : s.block.declared = (n.declared.take i).filter (· ∉ Splice.replaced ⟨n, some i⟩ l) ++
    Splice.inserted ⟨n, some i⟩ l ++ (n.declared.drop i).filter (· ∉ Splice.replaced ⟨n, some i⟩ l)
  slot : s.slot = some ((n.declared.take i).filter (· ∉ Splice.replaced ⟨n, some i⟩ l) ++
    Splice.inserted ⟨n, some i⟩ l).length
  inBounds : ∀ j ∈ s.slot, j ≤ s.block.declarations.length
  /-- a field that ends as a declaration has the value written last -/
  lastWritten : ∀ k v, Assoc.get? l.reverse k = some v → k ∈ s.block.declared →
    Assoc.get? s.block.declarations k = some v
  /-- what no field is about has the value it had -/
  unwritten : ∀ k ∉ l.map (·.1), Assoc.get? s.block.declarations k = Assoc.get? n.declarations k

/-! ### One step -/

/-- The end of `front` in a list, once a name is taken out of the list. -/
theorem length_filter_ne {front back : List String} (h : (front ++ back).Nodup) (k : String) :
    (front.filter (· ≠ k)).length = match (front ++ back).findIdx? (· == k) with
      | some j => if j < front.length then front.length - 1 else front.length
      | none => front.length := by
  have hfront : front.Nodup := (List.nodup_append.mp h).1
  rw [List.findIdx?_append]
  cases hj : front.findIdx? (· == k) with
  | some j =>
    obtain ⟨hlt, hget, -⟩ := List.findIdx?_eq_some_iff_getElem.mp hj
    have hk : k ∈ front := beq_iff_eq.mp hget ▸ List.getElem_mem hlt
    have herase : front.erase k = front.filter (· ≠ k) := by
      rw [hfront.erase_eq_filter]
      exact List.filter_congr fun x _ => by simp [bne, beq_eq_decide]
    rw [Option.some_or, ← herase, List.length_erase_of_mem hk]
    exact (if_pos hlt).symm
  | none =>
    have hk : ∀ x ∈ front, x ≠ k := by simpa [List.findIdx?_eq_none_iff] using hj
    have hall : front.filter (· ≠ k) = front := List.filter_eq_self.mpr fun x hx => decide_eq_true (hk x hx)
    rw [Option.none_or, hall]
    cases back.findIdx? (· == k) with
    | none => rfl
    | some j => exact (if_neg (Nat.not_lt_of_le (Nat.le_add_left _ j))).symm

namespace Splice
variable {s : Splice} {before fresh after : List String} {key k : String} {v : Json} {f : Block → Block}
  {l : List (String × Json)}

theorem Around.nodup_declared (h : s.Around before fresh after) : s.block.declared.Nodup :=
  (List.nodup_append.mp h.nodup).1

theorem Around.disjoint (h : s.Around before fresh after) (hk : key ∈ s.block.childKeys) : key ∉ s.block.declared :=
  fun hd => (List.nodup_append.mp h.nodup).2.2 key hd key hk rfl

/-- A merge at the slot `i` begins with nothing new between what stands before the slot and what stands behind it. -/
theorem Around.start {n : Block} (hn : n.keys.Nodup) {i : Nat} (hi : i ≤ n.declarations.length) :
    Around ⟨n, some i⟩ (n.declared.take i) [] (n.declared.drop i) where
  nodup := hn
  declared := by simp
  slot := by simp [Block.declared, hi]

/-- A name that becomes a child leaves wherever it stands. -/
theorem Around.openChild (h : s.Around before fresh after) (key : String) (f : Block → Block) :
    (s.openChild key f).Around (before.filter (· ≠ key)) (fresh.filter (· ≠ key)) (after.filter (· ≠ key)) where
  nodup := nodup_keys_openChild h.nodup key f
  declared := by rw [declared_openChild h.nodup, h.declared, List.filter_append, List.filter_append]
  slot := by
    have hlength := length_filter_ne (h.declared ▸ h.nodup_declared) key
    rw [← h.declared, Block.declared, List.findIdx?_map] at hlength
    rw [← List.filter_append, hlength, Splice.openChild]
    split
    · next hc =>
      -- Under the key of a child nothing is declared, so no name leaves.
      have hnone : s.block.declarations.findIdx? ((· == key) ∘ (·.1)) = none := by
        rw [List.findIdx?_eq_none_iff]
        intro d hd
        have hne : d.1 ≠ key := fun he => h.disjoint (Block.hasChild_iff.mp hc) (he ▸ List.mem_map_of_mem hd)
        exact beq_eq_false_iff_ne.mpr hne
      rw [hnone]
      exact h.slot
    · rw [h.slot]
      rfl

theorem declare_of_declared (hk : key ∈ s.block.declared) (v : Json) :
    s.declare key v = { s with block := s.block.declare key v } := by
  have hc : Assoc.contains (s.block.detach key).declarations key = true := Assoc.contains_iff.mpr hk
  unfold Splice.declare
  exact if_pos hc

theorem Around.declare_of_not_declared (h : s.Around before fresh after) (hk : key ∉ s.block.declared) (v : Json) :
    s.declare key v =
      ⟨⟨Assoc.insertAt s.block.declarations (before ++ fresh).length key v, (s.block.detach key).children⟩,
        some ((before ++ fresh).length + 1)⟩ := by
  have hc : ¬Assoc.contains (s.block.detach key).declarations key = true := fun hc => hk (Assoc.contains_iff.mp hc)
  have hbound : (before ++ fresh).length ≤ s.block.declarations.length := by
    have hlength := congrArg List.length h.declared
    simp only [Block.declared, List.length_map, List.length_append] at hlength ⊢
    omega
  unfold Splice.declare
  dsimp only
  rw [if_neg hc, h.slot]
  dsimp only [Block.detach]
  rw [Nat.min_eq_left hbound]

/-- A name that is declared stays where it is. -/
theorem Around.declare_again (h : s.Around before fresh after) (hk : key ∈ s.block.declared) (v : Json) :
    (s.declare key v).Around before fresh after := by
  refine ⟨nodup_keys_declare h.nodup key v, ?_, ?_⟩
  · rw [← h.declared, declare_of_declared hk]
    exact (Assoc.map_fst_put s.block.declarations key v).trans (if_pos hk)
  · rw [declare_of_declared hk]
    exact h.slot

/-- A name that is not declared goes in behind the others that are new. -/
theorem Around.declare_new (h : s.Around before fresh after) (hk : key ∉ s.block.declared) (v : Json) :
    (s.declare key v).Around before (fresh ++ [key]) after := by
  refine ⟨nodup_keys_declare h.nodup key v, ?_, ?_⟩
  · have htake : s.block.declared.take (before ++ fresh).length = before ++ fresh := by rw [h.declared, List.take_left]
    have hdrop : s.block.declared.drop (before ++ fresh).length = after := by rw [h.declared, List.drop_left]
    rw [h.declare_of_not_declared hk, Block.declared, Assoc.insertAt, List.map_append, List.map_cons, List.map_take,
      List.map_drop, ← Block.declared, htake, hdrop]
    simp
  · rw [h.declare_of_not_declared hk]
    simp [Nat.add_assoc]

/-! ### A run -/

theorem mem_childKeys_mergeField (hv : v.isFragment = true) (s : Splice) (key : String) :
    key ∈ (s.mergeField key v).block.childKeys := by
  rw [← Block.child?_isSome_iff, mergeField_of_isFragment s key hv, child?_openChild, if_pos rfl]
  rfl

theorem not_mem_childKeys_mergeField (hv : v.isFragment = false) (s : Splice) (key : String) :
    key ∉ (s.mergeField key v).block.childKeys := by
  rw [← Block.child?_eq_none_iff, mergeField_of_leaf s key hv, child?_declare, if_pos rfl]

/-- What is new and what was there stay apart from one field to the next. -/
theorem Around.mergeFields (h : s.Around before fresh after) (l : List (String × Json)) :
    (s.mergeFields l).Around (before.filter (· ∉ s.replaced l)) (fresh.filter (· ∉ s.replaced l) ++ s.inserted l)
      (after.filter (· ∉ s.replaced l)) := by
  induction l generalizing s before fresh after with
  | nil => simpa [Splice.mergeFields, replaced, inserted] using h
  | cons e rest ih =>
    obtain ⟨k, v⟩ := e
    rw [Splice.mergeFields]
    cases hv : v.isFragment with
    | true =>
      have hstep : (s.mergeField k v).Around (before.filter (· ≠ k)) (fresh.filter (· ≠ k)) (after.filter (· ≠ k)) :=
        mergeField_of_isFragment s k hv ▸ h.openChild k _
      have hchild := mem_childKeys_mergeField hv s k
      have hinserted : s.inserted ((k, v) :: rest) = (s.mergeField k v).inserted rest := by
        simp [inserted, hstep.disjoint hchild]
      -- The name leaves each of the three parts it may stand in; it is replaced if it stands in one.
      have hpart (names : List String) (hn : names ⊆ s.block.declared) :
          names.filter (· ∉ s.replaced ((k, v) :: rest)) =
            (names.filter (· ≠ k)).filter (· ∉ (s.mergeField k v).replaced rest) := by
        rw [List.filter_filter]
        refine List.filter_congr fun x hx => ?_
        by_cases hk : k ∈ s.block.declared
        · simp [replaced, hk, hchild, Bool.and_comm]
        · have hne : x ≠ k := fun he => hk (he ▸ hn hx)
          simp [replaced, hk, hne]
      rw [hinserted, hpart before (by simp [h.declared]), hpart fresh (by simp [h.declared]),
        hpart after (by simp [h.declared])]
      exact ih hstep
    | false =>
      have hleaf := mergeField_of_leaf s k hv
      have hchild := not_mem_childKeys_mergeField hv s k
      have hreplaced : s.replaced ((k, v) :: rest) = (s.mergeField k v).replaced rest := by simp [replaced, hchild]
      rw [hreplaced]
      by_cases hk : k ∈ s.block.declared
      · have hinserted : s.inserted ((k, v) :: rest) = (s.mergeField k v).inserted rest := by simp [inserted, hk]
        rw [hinserted]
        exact ih (hleaf ▸ h.declare_again hk v)
      · have hstep : (s.mergeField k v).Around before (fresh ++ [k]) after := hleaf ▸ h.declare_new hk v
        have hdeclared : k ∈ (s.mergeField k v).block.declared := by simp [hstep.declared]
        have hnext := ih hstep
        rw [List.filter_append, List.append_assoc] at hnext
        have hinserted : s.inserted ((k, v) :: rest) =
            [k].filter (· ∉ (s.mergeField k v).replaced rest) ++ (s.mergeField k v).inserted rest := by
          rw [inserted]
          simp only [hk, hdeclared, not_false_eq_true, true_and]
          congr 1
          simp [List.filter_cons]
        rw [hinserted]
        exact hnext

/-! ### Values -/

theorem nodup_keys_mergeField (h : s.block.keys.Nodup) (key : String) (v : Json) :
    (s.mergeField key v).block.keys.Nodup := by
  rcases s.mergeField_eq key v with ⟨f, hf⟩ | hf <;> rw [hf]
  · exact nodup_keys_openChild h key f
  · exact nodup_keys_declare h key v

theorem nodup_keys_mergeFields (h : s.block.keys.Nodup) (l : List (String × Json)) :
    (s.mergeFields l).block.keys.Nodup := by
  rw [mergeFields_eq_foldl]
  exact List.foldlRecOn (motive := fun t : Splice => t.block.keys.Nodup) _ _ h fun _ ht e _ =>
    nodup_keys_mergeField ht e.1 e.2

theorem get?_mergeField (h : s.block.keys.Nodup) (key : String) (v : Json) (k : String) :
    Assoc.get? (s.mergeField key v).block.declarations k =
      if key = k then (if v.isFragment then none else some v) else Assoc.get? s.block.declarations k := by
  cases hv : v.isFragment with
  | true =>
    rw [mergeField_of_isFragment s key hv]
    split
    · next he =>
      subst he
      have hdeclared := declared_openChild h key fun b => v.fragmentMaps.foldl Block.mergeFields b
      have hgone : key ∉ (s.openChild key fun b => v.fragmentMaps.foldl Block.mergeFields b).block.declared := by
        simp [hdeclared]
      exact Assoc.get?_eq_none_iff.mpr hgone
    · next hne => exact get?_openChild_of_ne _ (Ne.symm hne)
  | false => rw [mergeField_of_leaf s key hv, get?_declare, if_neg Bool.false_ne_true]

/-- What is declared under a key is what the last field of it gives. -/
theorem get?_mergeFields_last (h : s.block.keys.Nodup) (l : List (String × Json)) (k : String) :
    Assoc.get? (s.mergeFields l).block.declarations k =
      match Assoc.get? l.reverse k with
      | some v => if v.isFragment then none else some v
      | none => Assoc.get? s.block.declarations k := by
  induction l using List.reverseRecOn with
  | nil => rw [Splice.mergeFields]; rfl
  | append_singleton l e ih =>
    rw [mergeFields_append, Splice.mergeFields, Splice.mergeFields, get?_mergeField (nodup_keys_mergeFields h l),
      List.reverse_append, List.reverse_singleton, List.singleton_append, Assoc.get?_cons, ih]
    split <;> rfl

/-! ### A slot behind all declarations -/

/-- A field that goes in behind all declarations is merged as it is without a slot. -/
theorem Around.block_mergeField (h : s.Around before fresh []) (key : String) (v : Json) :
    (s.mergeField key v).block = s.block.mergeFields [(key, v)] := by
  cases hv : v.isFragment with
  | true =>
    rw [mergeField_of_isFragment s key hv, Block.mergeFields_fragment s.block key hv]
    unfold Splice.openChild
    split <;> rfl
  | false =>
    rw [mergeField_of_leaf s key hv, Block.mergeFields_of_leaf s.block key hv]
    by_cases hk : key ∈ s.block.declared
    · rw [declare_of_declared hk]
    · have hlength : (before ++ fresh).length = s.block.declarations.length := by
        simpa [Block.declared] using (congrArg List.length h.declared).symm
      rw [h.declare_of_not_declared hk, hlength, Assoc.insertAt, List.take_length, List.drop_length, Block.declare,
        Assoc.put_of_not_mem hk]

theorem Around.block_mergeFields (h : s.Around before fresh []) (l : List (String × Json)) :
    (s.mergeFields l).block = s.block.mergeFields l := by
  induction l generalizing s before fresh with
  | nil => rw [Splice.mergeFields, Block.mergeFields_nil]
  | cons e rest ih =>
    have hstep := h.mergeFields [e]
    rw [List.filter_nil, Splice.mergeFields, Splice.mergeFields] at hstep
    rw [Splice.mergeFields, ih hstep, h.block_mergeField, ← Block.mergeFields_cons]

end Splice

/-! ### Merges at a place -/

namespace Block
variable {n : Block} {i : Nat}

theorem mergedInPlace (hn : n.keys.Nodup) (hi : i ≤ n.declarations.length) (l : List (String × Json)) :
    n.MergedInPlace i l (Splice.mergeFields ⟨n, some i⟩ l) := by
  have haround := (Splice.Around.start hn hi).mergeFields l
  rw [List.filter_nil, List.nil_append] at haround
  have hvalues := Splice.get?_mergeFields_last (s := ⟨n, some i⟩) hn l
  refine ⟨haround.declared, haround.slot, fun j hj => ?_, fun k v hk hdeclared => ?_, fun k hk => ?_⟩
  · have hlength := congrArg List.length haround.declared
    rw [haround.slot] at hj
    cases hj
    simp only [declared, List.length_map, List.length_append] at hlength ⊢
    omega
  · have hvalue := hvalues k
    rw [hk] at hvalue
    dsimp only at hvalue
    split at hvalue
    · exact absurd hdeclared (Assoc.get?_eq_none_iff.mp hvalue)
    · exact hvalue
  · have hnone : Assoc.get? l.reverse k = none := Assoc.get?_eq_none_iff.mpr (by simpa using hk)
    rw [hvalues, hnone]

end Block

/-- Wherever the slot stands among the declarations of a block, a merge puts the new ones in there, one behind the
    other, and it leaves the rest in order but for the names that become children. With the slot behind all of them
    the document is that of a merge without a slot. -/
theorem slot_merge_inserts_in_place {d : Document} (hd : d.WellFormed) {path : KeyPath} {n : Block}
    (hn : d.at? path = some n) {i : Nat} (hi : i ≤ n.declarations.length) :
    (∀ fields, n.MergedInPlace i fields (Splice.mergeFields ⟨n, some i⟩ fields)) ∧
      (∀ items, n.MergedInPlace i (Json.maps items).flatten (Splice.mergeItems ⟨n, some i⟩ items)) ∧
      (∀ fields, d.modifyAt (fun b => (Splice.mergeFields ⟨b, some n.declarations.length⟩ fields).block) path =
        d.modifyAt (·.mergeFields fields) path) ∧
      ∀ items, d.modifyAt (fun b => (Splice.mergeItems ⟨b, some n.declarations.length⟩ items).block) path =
        d.modifyAt (·.mergeItems items) path := by
  have hkeys : n.keys.Nodup := (hd.at? hn).keys
  have hend : Splice.Around ⟨n, some n.declarations.length⟩ n.declared [] [] := by
    have hlength : n.declared.length ≤ n.declarations.length := Nat.le_of_eq (List.length_map ..)
    have hstart := Splice.Around.start hkeys (Nat.le_refl n.declarations.length)
    rwa [List.take_of_length_le hlength, List.drop_of_length_le hlength] at hstart
  refine ⟨Block.mergedInPlace hkeys hi, fun items => ?_, fun fields => ?_, fun items => ?_⟩
  · rw [Splice.mergeItems_eq_mergeFields]
    exact Block.mergedInPlace hkeys hi _
  · exact Block.modifyAt_congr hn (hend.block_mergeFields fields)
  · refine Block.modifyAt_congr hn ?_
    rw [Splice.mergeItems_eq_mergeFields, hend.block_mergeFields, Block.mergeItems, Splice.mergeItems_eq_mergeFields]
    rfl

/-- Of the names before the slot one becomes a child and then a declaration again, and so does a new name. -/
theorem slot_merge_inserts_in_place_returning :
    let n : Block :=
      ⟨[("margin", .str "0"), ("color", .str "red"), ("padding", .str "1px")], [.ofBlock "p" ⟨[("top", .null)], []⟩]⟩
    let d : Document := ⟨[], [.ofBlock "a" n]⟩
    let items : List Json := [.obj [("margin", .obj []), ("x", .str "1")], .arr [.obj [("x", .obj [])]],
      .obj [("x", .str "2"), ("margin", .str "3px"), ("p", .null), ("color", .str "blue")]]
    let s := Splice.mergeItems ⟨n, some 2⟩ items
    d.WellFormed ∧ d.at? ["a"] = some n ∧ 2 ≤ n.declarations.length ∧
      n.MergedInPlace 2 (Json.maps items).flatten s ∧
        s.block.declared = ["color", "x", "margin", "p", "padding"] ∧ s.slot = some 4 ∧
          Assoc.get? s.block.declarations "x" = some (.str "2") := by
  intro n d items s
  have hd : d.Reached := .merge (v := .obj [("a", n.toValue)]) .new (by decide) (by cbv)
  have hn : d.at? ["a"] = some n := rfl
  have hi : 2 ≤ n.declarations.length := by decide
  obtain ⟨-, hitems, -⟩ := slot_merge_inserts_in_place hd.wellFormed hn hi
  have hmerged : n.MergedInPlace 2 (Json.maps items).flatten s := hitems items
  have hreplaced : Splice.replaced ⟨n, some 2⟩ (Json.maps items).flatten = ["margin", "x"] := by cbv
  have hinserted : Splice.inserted ⟨n, some 2⟩ (Json.maps items).flatten = ["x", "margin", "p"] := by cbv
  have hdeclared := hmerged.declared
  have hslot := hmerged.slot
  rw [hreplaced, hinserted] at hdeclared hslot
  exact ⟨hd.wellFormed, hn, hi, hmerged, hdeclared, hslot,
    hmerged.lastWritten "x" (.str "2") (by cbv) (hdeclared ▸ by decide)⟩

end StyleTree
