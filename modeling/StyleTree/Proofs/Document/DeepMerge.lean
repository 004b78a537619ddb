import StyleTree.Proofs.Document.Places
import StyleTree.Proofs.Document.Reached

/-! Deep merge. A map that is merged into a block of a document sets the declarations of its leaves, merges
    its fragments into the children of their names, and turns a declaration into a child or a child into a
    declaration where the name was the other before. It leaves alone what stands under other keys, the order
    of what remains, and every place that is not below the block. -/

namespace StyleTree

/-- The names that a map gives a fragment, in order. -/
def Json.fragmentNames (m : List (String × Json)) : List String := (m.filter (·.2.isFragment)).map (·.1)

/-- The names that a map gives a value that stands for itself, in order. -/
def Json.leafNames (m : List (String × Json)) : List String := (m.filter (!·.2.isFragment)).map (·.1)

/-- What merging the map `m` makes of the block `n`. -/
structure Block.DeepMerge (n : Block) (m : List (String × Json)) (n' : Block) : Prop where
  leaf : ∀ k v, (k, v) ∈ m → v.isFragment = false → Assoc.get? n'.declarations k = some v ∧ k ∉ n'.childKeys
  fragment : ∀ k v, (k, v) ∈ m → v.isFragment = true →
    k ∉ n'.declared ∧ n'.childKeys.count k = 1 ∧
      n'.child? k = some (v.fragmentMaps.foldl Block.mergeFields ((n.child? k).getD {}))
  otherDeclaration : ∀ k ∉ m.map (·.1), Assoc.get? n'.declarations k = Assoc.get? n.declarations k
  otherChild : ∀ k ∉ m.map (·.1), n'.child? k = n.child? k
  declared : n'.declared = n.declared.filter (· ∉ Json.fragmentNames m) ++ (Json.leafNames m).filter (· ∉ n.declared)
  labels : n'.labels = n.labels.filter (fun l => ∀ k ∈ Json.leafNames m, l ≠ .rule k) ++
    ((Json.fragmentNames m).filter fun k => Label.rule k ∉ n.labels).map .rule

namespace Json
variable {k : String} {v : Json} {m : List (String × Json)}

theorem fragmentNames_cons_fragment (h : v.isFragment = true) : fragmentNames ((k, v) :: m) = k :: fragmentNames m := by
  simp [fragmentNames, h]

theorem fragmentNames_cons_leaf (h : v.isFragment = false) : fragmentNames ((k, v) :: m) = fragmentNames m := by
  simp [fragmentNames, h]

theorem leafNames_cons_fragment (h : v.isFragment = true) : leafNames ((k, v) :: m) = leafNames m := by
  simp [leafNames, h]

theorem leafNames_cons_leaf (h : v.isFragment = false) : leafNames ((k, v) :: m) = k :: leafNames m := by
  simp [leafNames, h]

theorem fragmentNames_subset (m : List (String × Json)) : fragmentNames m ⊆ m.map (·.1) :=
  (List.filter_sublist.map _).subset

theorem leafNames_subset (m : List (String × Json)) : leafNames m ⊆ m.map (·.1) := (List.filter_sublist.map _).subset

theorem WellFormed.cons (h : (Json.obj ((k, v) :: m)).WellFormed) :
    k ∉ m.map (·.1) ∧ v.WellFormed ∧ (Json.obj m).WellFormed := by
  obtain ⟨hk, hm⟩ := List.nodup_cons.mp h.nodup
  exact ⟨hk, h.field _ List.mem_cons_self, .obj hm fun e he => h.field e (List.mem_cons_of_mem _ he)⟩

end Json

namespace Block
variable {b : Block} {k : String} {v : Json} {m : List (String × Json)}

/-! ### One field -/

theorem mergeFields_append (b : Block) (l₁ l₂ : List (String × Json)) :
    b.mergeFields (l₁ ++ l₂) = (b.mergeFields l₁).mergeFields l₂ := by
  have h := Splice.mergeFields_append ⟨b, none⟩ l₁ l₂
  rw [Splice.mergeFields_none b l₁, Splice.mergeFields_none, Splice.mergeFields_none] at h
  exact (Splice.mk.inj h).1

theorem mergeFields_fragment (b : Block) (k : String) (h : v.isFragment = true) :
    b.mergeFields [(k, v)] =
      (Splice.openChild ⟨b, none⟩ k fun c => v.fragmentMaps.foldl Block.mergeFields c).block := by
  rw [mergeFields, Splice.mergeFields, Splice.mergeFields, Splice.mergeField_of_isFragment _ _ h]

theorem mergeFields_leaf (b : Block) (k : String) (h : v.isFragment = false) :
    b.mergeFields [(k, v)] = (Splice.declare ⟨b, none⟩ k v).block := by
  rw [mergeFields, Splice.mergeFields, Splice.mergeFields, Splice.mergeField_of_leaf _ _ h]

theorem labels_openChild (b : Block) (k : String) (f : Block → Block) :
    (Splice.openChild ⟨b, none⟩ k f).block.labels = if Label.rule k ∈ b.labels then b.labels else b.labels ++ [.rule k] := by
  unfold Splice.openChild
  split
  · next h =>
    rw [if_pos (mem_labels_iff.mpr (hasChild_iff.mp h))]
    exact map_label_mapChild k f b.children
  · next h =>
    rw [if_neg fun hk => h (hasChild_iff.mpr (mem_labels_iff.mp hk)), labels, List.map_append]
    rfl

theorem declared_declare (b : Block) (k : String) (v : Json) :
    (Splice.declare ⟨b, none⟩ k v).block.declared = if k ∈ b.declared then b.declared else b.declared ++ [k] := by
  unfold Splice.declare
  dsimp only [Block.detach]
  split
  · exact Assoc.map_fst_put b.declarations k v
  · next h =>
    have hk : k ∉ b.declared := fun hm => h (Assoc.contains_iff.mpr hm)
    rw [if_neg hk, declared, List.map_append]
    rfl

theorem labels_declare (b : Block) (k : String) (v : Json) :
    (Splice.declare ⟨b, none⟩ k v).block.labels = b.labels.filter (· ≠ .rule k) := by
  rw [labels, Splice.children_declare, detach, labels, List.filter_map]
  congr 1
  refine List.filter_congr fun c _ => ?_
  cases c <;> simp [Node.hasKey, Node.key?, Node.label, beq_eq_decide]

/-! ### The order of keys -/

theorem declared_mergeFields (hb : b.WellFormed) (hm : (Json.obj m).WellFormed) : (b.mergeFields m).declared =
    b.declared.filter (· ∉ Json.fragmentNames m) ++ (Json.leafNames m).filter (· ∉ b.declared) := by
  induction m generalizing b with
  | nil => simp [mergeFields, Splice.mergeFields, Json.fragmentNames, Json.leafNames]
  | cons e rest ih =>
    obtain ⟨k, v⟩ := e
    obtain ⟨hk, hv, hrest⟩ := hm.cons
    have hstep : (b.mergeFields [(k, v)]).WellFormed :=
      WellFormed.mergeObj (.obj (by simp) fun e he => List.mem_singleton.mp he ▸ hv) hb
    have hleaf : ∀ x ∈ Json.leafNames rest, x ≠ k := fun x hx he => hk (he ▸ Json.leafNames_subset rest hx)
    -- The first field is merged by itself, and the induction hypothesis is about the block it leaves.
    rw [← List.singleton_append, mergeFields_append, ih hstep hrest, List.singleton_append]
    cases hf : v.isFragment with
    | true =>
      rw [mergeFields_fragment b k hf, Splice.declared_openChild hb.keys, Json.fragmentNames_cons_fragment hf,
        Json.leafNames_cons_fragment hf, List.filter_filter]
      congr 1
      · refine List.filter_congr fun x _ => ?_
        simp [Bool.and_comm]
      · refine List.filter_congr fun x hx => ?_
        simp [hleaf x hx]
    | false =>
      have hfrag : k ∉ Json.fragmentNames rest := fun hm => hk (Json.fragmentNames_subset rest hm)
      rw [mergeFields_leaf b k hf, declared_declare, Json.fragmentNames_cons_leaf hf, Json.leafNames_cons_leaf hf]
      by_cases hd : k ∈ b.declared
      · rw [if_pos hd, List.filter_cons_of_neg (by simpa using hd)]
      · rw [if_neg hd, List.filter_cons_of_pos (by simpa using hd), List.filter_append,
          List.filter_cons_of_pos (by simpa using hfrag), List.filter_nil, List.append_assoc, List.singleton_append]
        congr 2
        refine List.filter_congr fun x hx => ?_
        simp [hleaf x hx]

theorem labels_mergeFields (hm : (Json.obj m).WellFormed) : (b.mergeFields m).labels =
    b.labels.filter (fun l => ∀ k ∈ Json.leafNames m, l ≠ .rule k) ++
      ((Json.fragmentNames m).filter fun k => Label.rule k ∉ b.labels).map .rule := by
  induction m generalizing b with
  | nil => simp [mergeFields, Splice.mergeFields, Json.fragmentNames, Json.leafNames]
  | cons e rest ih =>
    obtain ⟨k, v⟩ := e
    obtain ⟨hk, -, hrest⟩ := hm.cons
    have hfrag : ∀ x ∈ Json.fragmentNames rest, x ≠ k := fun x hx he => hk (he ▸ Json.fragmentNames_subset rest hx)
    rw [← List.singleton_append, mergeFields_append, ih hrest, List.singleton_append]
    cases hf : v.isFragment with
    | true =>
      have hleaf : k ∉ Json.leafNames rest := fun hm => hk (Json.leafNames_subset rest hm)
      rw [mergeFields_fragment b k hf, labels_openChild, Json.fragmentNames_cons_fragment hf,
        Json.leafNames_cons_fragment hf]
      by_cases hl : Label.rule k ∈ b.labels
      · rw [if_pos hl, List.filter_cons_of_neg (by simpa using hl)]
      · have hkeep : ∀ x ∈ Json.leafNames rest, Label.rule k ≠ .rule x :=
          fun x hx he => hleaf (Label.rule.inj he ▸ hx)
        rw [if_neg hl, List.filter_cons_of_pos (by simpa using hl), List.filter_append,
          List.filter_cons_of_pos (by simpa using hkeep), List.filter_nil, List.append_assoc, List.singleton_append,
          List.map_cons]
        congr 3
        refine List.filter_congr fun x hx => ?_
        simp [hfrag x hx]
    | false =>
      rw [mergeFields_leaf b k hf, labels_declare, Json.fragmentNames_cons_leaf hf, Json.leafNames_cons_leaf hf,
        List.filter_filter]
      congr 1
      · refine List.filter_congr fun l _ => ?_
        simp [Bool.and_comm]
      · congr 1
        refine List.filter_congr fun x hx => ?_
        simp [hfrag x hx]

/-! ### The whole map -/

theorem WellFormed.deepMerge (hb : b.WellFormed) (hm : (Json.obj m).WellFormed) : b.DeepMerge m (b.mergeFields m) where
  leaf k v hkv hf := Splice.get?_mergeFields hm.nodup hkv hf ⟨b, none⟩
  fragment k v hkv hf := by
    have hchild := Splice.child?_mergeFields hm.nodup hkv hf ⟨b, none⟩
    have hwf : (b.mergeFields m).WellFormed := WellFormed.mergeObj hm hb
    have hk : k ∈ (b.mergeFields m).childKeys := child?_isSome_iff.mp (by rw [Block.mergeFields, hchild]; rfl)
    exact ⟨hwf.not_mem_declared hk, List.count_eq_one_of_mem hwf.childKeys_nodup hk, hchild⟩
  otherDeclaration k hk := Splice.get?_mergeFields_of_not_mem _ hk
  otherChild k hk := Splice.child?_mergeFields_of_not_mem _ hk
  declared := declared_mergeFields hb hm
  labels := labels_mergeFields hm

end Block

/-- Merging a map into a block of a document merges it deeply, and changes no place that is not below the
    block. -/
theorem deep_merge_at_place {d : Document} (hd : d.Reached) {path : KeyPath} {n : Block} (hn : d.at? path = some n)
    {m : List (String × Json)} (hm : (Json.obj m).WellFormed) :
    (∃ n', (d.modifyAt (·.mergeFields m) path).at? path = some n' ∧ n.DeepMerge m n') ∧
      ∀ q, ¬ path <+: q →
        ((d.modifyAt (·.mergeFields m) path).at? q).map Block.surface = (d.at? q).map Block.surface := by
  have hwf : n.WellFormed := hd.wellFormed.at? hn
  exact ⟨⟨n.mergeFields m, Block.at?_modifyAt_self hn, hwf.deepMerge hm⟩, fun q hq => Block.surface_at?_modifyAt hq⟩

/-- A leaf takes the place of a child and a map that of a leaf, in a block below the root. -/
theorem deep_merge_at_place_swap :
    let n : Block := ⟨[("x", .str "1"), ("y", .str "2")], [.rule "p" [("color", .str "red")] []]⟩
    let d : Document := ⟨[], [.ofBlock "a" n]⟩
    let m : List (String × Json) := [("p", .str "3"), ("x", .obj [("margin", .null)])]
    d.Reached ∧ d.at? ["a"] = some n ∧ (Json.obj m).WellFormed ∧
      (∃ n', (d.modifyAt (·.mergeFields m) ["a"]).at? ["a"] = some n' ∧ n.DeepMerge m n') ∧
        ∀ q, ¬ ["a"] <+: q →
          ((d.modifyAt (·.mergeFields m) ["a"]).at? q).map Block.surface = (d.at? q).map Block.surface := by
  intro n d m
  have hd : d.Reached :=
    .merge (v := .obj [("a", .obj [("x", .str "1"), ("y", .str "2"), ("p", .obj [("color", .str "red")])])]) .new
      (by decide) rfl
  have hm : (Json.obj m).WellFormed := by decide
  exact ⟨hd, rfl, hm, deep_merge_at_place hd rfl hm⟩

end StyleTree
