import StyleTree.Proofs.Document.Fields

/-! Reading a document back. The map of a document holds its declarations and its children under their
    keys, so merging this map gives the document again, raw texts apart, and a document that has the map
    already does not change. A map whose values are maps and leaves only is read back as it was merged,
    its keys in another order. -/

namespace StyleTree

/-! ### The order of keys -/

namespace Json

/-- The values differ in nothing but the order of the keys of their maps. -/
inductive Reordered : Json → Json → Prop
  | same (v : Json) : Reordered v v
  | obj {xs ys : List (String × Json)} : (xs.map (·.1)).Perm (ys.map (·.1)) →
      (∀ k x y, (k, x) ∈ xs → (k, y) ∈ ys → Reordered x y) → Reordered (.obj xs) (.obj ys)

/-- Maps with distinct keys are reordered if they have the same keys, with reordered values under each. -/
theorem Reordered.of_get? {xs ys : List (String × Json)} (hxs : (xs.map (·.1)).Nodup) (hys : (ys.map (·.1)).Nodup)
    (h : ∀ k, Option.Rel Reordered (Assoc.get? xs k) (Assoc.get? ys k)) : Reordered (.obj xs) (.obj ys) := by
  refine .obj ((List.perm_ext_iff_of_nodup hxs hys).mpr fun k => ?_) fun k x y hx hy => ?_
  · rw [← Assoc.contains_iff, ← Assoc.contains_iff, Assoc.contains_eq_isSome, Assoc.contains_eq_isSome]
    have hk := h k
    generalize Assoc.get? xs k = x, Assoc.get? ys k = y at hk ⊢
    cases hk <;> rfl
  · have hk := h k
    rw [Assoc.get?_of_mem hxs hx, Assoc.get?_of_mem hys hy] at hk
    exact Option.rel_some_some.mp hk

theorem eqvFields_iff {xs ys : List (String × Json)} :
    eqvFields xs ys = true ↔ ∀ e ∈ xs, ∃ y, Assoc.get? ys e.1 = some y ∧ eqv e.2 y = true := by
  induction xs with
  | nil => simp [eqvFields]
  | cons e xs ih =>
    obtain ⟨k, x⟩ := e
    rw [eqvFields, Bool.and_eq_true, ih, List.forall_mem_cons]
    refine and_congr_left fun _ => ?_
    cases Assoc.get? ys k <;> simp

theorem eqvItems_self {items : List Json} (h : ∀ v ∈ items, v.eqv v = true) : eqvItems items items = true := by
  induction items with
  | nil => rw [eqvItems]
  | cons v items ih =>
    obtain ⟨hv, hitems⟩ := List.forall_mem_cons.mp h
    rw [eqvItems, hv, ih hitems, Bool.and_self]

theorem WellFormed.eqv_self {v : Json} (hv : v.WellFormed) : v.eqv v = true := by
  induction hv with
  | null => rw [eqv]
  | bool b => rw [eqv, beq_self_eq_true]
  | num n => cases n <;> simp [eqv, Number.eqv, Binary64.eqv]
  | str s => rw [eqv, beq_self_eq_true]
  | arr _ ih => rw [eqv, eqvItems_self ih]
  | obj hn _ ih =>
    rw [eqv, beq_self_eq_true, Bool.true_and, eqvFields_iff]
    exact fun e he => ⟨e.2, Assoc.get?_of_mem hn he, ih e he⟩

/-- Such values are equal as templates compare them. -/
theorem Reordered.eqv {v w : Json} (h : Reordered v w) (hv : v.WellFormed) (hw : w.WellFormed) : v.eqv w = true := by
  induction h with
  | same v => exact hv.eqv_self
  | @obj xs ys hkeys _ ih =>
    have hlength : xs.length = ys.length := by simpa using hkeys.length_eq
    rw [Json.eqv, hlength, beq_self_eq_true, Bool.true_and, eqvFields_iff]
    intro e he
    obtain ⟨d, hd, hk⟩ := List.mem_map.mp (hkeys.subset (List.mem_map_of_mem he))
    have hy : (e.1, d.2) ∈ ys := hk ▸ hd
    exact ⟨d.2, Assoc.get?_of_mem hw.nodup hy, ih e.1 e.2 d.2 he hy (hv.field e he) (hw.field d hd)⟩

/-- The value `w` is `v`, or is reached from it through maps. -/
inductive Through : Json → Json → Prop
  | here (v : Json) : Through v v
  | field {fields : List (String × Json)} {k : String} {v w : Json} : (k, v) ∈ fields → Through v w → Through (.obj fields) w

theorem through_obj_iff {fields : List (String × Json)} {w : Json} :
    Through (.obj fields) w ↔ w = .obj fields ∨ ∃ e ∈ fields, Through e.2 w := by
  constructor
  · intro h
    cases h with
    | here => exact .inl rfl
    | field hv h => exact .inr ⟨_, hv, h⟩
  · rintro (rfl | ⟨e, he, h⟩)
    · exact .here _
    · exact .field he h

theorem through_iff_of_ne {v w : Json} (h : ∀ fields, v ≠ .obj fields) : Through v w ↔ w = v := by
  constructor
  · intro hw
    cases hw with
    | here => rfl
    | field => exact absurd rfl (h _)
  · rintro rfl
    exact .here _

end Json

/-! ### The fields of a block -/

namespace Node

theorem fields_append (cs cs' : List Node) : fields (cs ++ cs') = fields cs ++ fields cs' := by
  induction cs with
  | nil => rfl
  | cons n cs ih => rw [List.cons_append, fields, fields, ih, List.append_assoc]

theorem fields_cons_ofBlock (k : String) (c : Block) (cs : List Node) :
    fields (ofBlock k c :: cs) = (k, c.toValue) :: fields cs := by
  rw [fields, field?_ofBlock]
  rfl

theorem fields_singleton (k : String) (c : Block) : fields [ofBlock k c] = [(k, c.toValue)] := fields_cons_ofBlock k c []

end Node

namespace Block
variable {b c : Block} {k : String} {v : Json} {l : List (String × Json)} {f : Block → Block}

theorem get?_fields (b : Block) (k : String) :
    Assoc.get? b.fields k = (Assoc.get? b.declarations k).or ((b.child? k).map toValue) := by
  obtain ⟨ds, children⟩ := b
  rw [fields, Assoc.get?_append]
  congr 1
  induction children with
  | nil => rfl
  | cons n rest ih =>
    rw [Node.fields, Assoc.get?_append, ih]
    cases n with
    | raw text => rw [child?_raw]; rfl
    | rule key ds' cs =>
      rw [child?_rule, Node.field?, Option.toList_some, Assoc.get?_cons]
      split <;> rfl

theorem mapChild_of_fixed {children : List Node} (h : ∀ c, .ofBlock k c ∈ children → f c = c) :
    mapChild k f children = children := by
  induction children with
  | nil => rfl
  | cons n rest ih =>
    have hrest := ih fun c hc => h c (List.mem_cons_of_mem _ hc)
    cases n with
    | raw text => rw [mapChild, hrest]
    | rule key ds cs =>
      rw [mapChild, hrest]
      split
      · next hk =>
        have hfixed : f ⟨ds, cs⟩ = ⟨ds, cs⟩ := h ⟨ds, cs⟩ (hk ▸ List.mem_cons_self)
        rw [hfixed, Node.ofBlock, hk]
      · rfl

theorem detach_of_not_mem (h : k ∉ b.childKeys) : b.detach k = b := by
  have hother : ∀ n ∈ b.children, (!n.hasKey k) = true := fun n hn => by
    rw [Bool.not_eq_true', ← Bool.not_eq_true, Node.hasKey_iff]
    exact fun he => h (List.mem_filterMap.mpr ⟨n, hn, he⟩)
  rw [detach, List.filter_eq_self.mpr hother]

theorem mergeFields_of_fixed (h : ∀ e ∈ l, b.mergeFields [e] = b) : b.mergeFields l = b := by
  induction l with
  | nil => exact mergeFields_nil b
  | cons e l ih =>
    obtain ⟨he, hl⟩ := List.forall_mem_cons.mp h
    rw [mergeFields_cons, he, ih hl]

/-- A block does not change by the fields it has. -/
theorem WellFormed.mergeFields_fields (hb : b.WellFormed) : b.mergeFields b.fields = b := by
  induction hb with
  | @intro b hkeys hleaf hchild ih =>
    have hb : b.WellFormed := .intro hkeys hleaf hchild
    refine mergeFields_of_fixed fun e he => ?_
    rcases List.mem_append.mp he with he | he
    · have hdistinct : (b.declarations.map (·.1)).Nodup := (List.nodup_append.mp hkeys).1
      have hnew : e.1 ∉ b.childKeys := fun hk => hb.not_mem_declared hk (List.mem_map_of_mem he)
      rw [mergeFields_of_leaf b e.1 (hleaf e he).2, Block.declare, detach_of_not_mem hnew,
        Assoc.put_of_get? (Assoc.get?_of_mem hdistinct he)]
    · obtain ⟨k, c, hc, rfl⟩ := Node.mem_fields he
      have hk : k ∈ b.childKeys := mem_childKeys_of_mem hc
      have hfound := child?_of_mem hb.childKeys_nodup hc
      rw [mergeFields_of_isFragment b k rfl, toValue_eq, Json.contents_obj, openChild_of_mem hk, mapChild_of_fixed]
      intro c' hc'
      obtain rfl : c = c' := Option.some.inj (hfound.symm.trans (child?_of_mem hb.childKeys_nodup hc'))
      exact ih k c hc

/-- The block holds no raw text, at any depth. -/
inductive Textless : Block → Prop
  | intro {b : Block} : (∀ text, .raw text ∉ b.children) → (∀ key c, .ofBlock key c ∈ b.children → Textless c) →
      Textless b

theorem mergeFields_declarations {ds : List (String × Json)} (hn : (ds.map (·.1)).Nodup)
    (hl : ∀ e ∈ ds, e.2.isFragment = false) : mergeFields {} ds = ⟨ds, []⟩ := by
  induction ds using List.reverseRecOn with
  | nil => exact mergeFields_nil {}
  | append_singleton ds e ih =>
    rw [List.map_append, List.map_singleton, ← List.concat_eq_append, List.nodup_concat] at hn
    obtain ⟨hds, he⟩ := List.forall_mem_append.mp hl
    rw [mergeFields_append, ih hn.2 hds, mergeFields_of_leaf _ e.1 (he e List.mem_cons_self), declare,
      Assoc.put_of_not_mem hn.1]
    rfl

theorem mergeFields_children {ds : List (String × Json)} {children : List Node} (hb : WellFormed ⟨ds, children⟩)
    (hc : ∀ n ∈ children, ∃ k c, n = .ofBlock k c ∧ mergeFields {} c.fields = c) :
    mergeFields ⟨ds, []⟩ (Node.fields children) = ⟨ds, children⟩ := by
  induction children using List.reverseRecOn with
  | nil => exact mergeFields_nil _
  | append_singleton children n ih =>
    obtain ⟨hchildren, hn⟩ := List.forall_mem_append.mp hc
    obtain ⟨k, c, rfl, hfields⟩ := hn n List.mem_cons_self
    have hk : k ∉ keys ⟨ds, children⟩ := by
      have hkeys : keys ⟨ds, children ++ [.ofBlock k c]⟩ = (keys ⟨ds, children⟩).concat k := by
        simp [keys, declared, childKeys]
      exact ((List.nodup_concat _ _).mp (hkeys ▸ hb.keys)).1
    rw [Node.fields_append, Node.fields_singleton, mergeFields_append,
      ih (hb.sublist (.refl _) (List.sublist_append_left _ _)) hchildren, mergeFields_of_isFragment _ k rfl,
      openChild_of_not_mem fun h => hk (List.mem_append_right _ h), toValue_eq, Json.contents_obj, hfields,
      Assoc.erase_of_not_mem fun h => hk (List.mem_append_left _ h)]

/-- A block without raw texts is what its fields make of the empty block. -/
theorem WellFormed.mergeFields_empty (hb : b.WellFormed) (ht : b.Textless) : Block.mergeFields {} b.fields = b := by
  induction hb with
  | @intro b hkeys hleaf hchild ih =>
    obtain ⟨hraw, hbelow⟩ := ht
    rw [fields, mergeFields_append, mergeFields_declarations (List.nodup_append.mp hkeys).1 fun e he => (hleaf e he).2,
      mergeFields_children (.intro hkeys hleaf hchild)]
    intro n hn
    cases n with
    | raw text => exact absurd hn (hraw text)
    | rule k ds cs => exact ⟨k, ⟨ds, cs⟩, rfl, ih k ⟨ds, cs⟩ hn (hbelow k ⟨ds, cs⟩ hn)⟩

/-- A map is read back from the empty block with its keys in another order, if no sequence of maps is reached from it
    through maps. -/
theorem reordered_mergeFields_empty (m : List (String × Json)) (hm : (Json.obj m).WellFormed)
    (hplain : ∀ items, (Json.obj m).Through (.arr items) → Json.isSequence items = false) :
    Json.Reordered (Block.mergeFields {} m).toValue (.obj m) := by
  induction m using Json.fields_induction with
  | step m ih =>
    have hwf : (Block.mergeFields {} m).WellFormed := WellFormed.mergeObj hm .empty
    rw [toValue_eq]
    refine .of_get? hwf.toValue.nodup hm.nodup fun k => ?_
    rw [get?_fields]
    cases hk : Assoc.get? m k with
    | none =>
      have hnot : k ∉ m.map (·.1) := Assoc.get?_eq_none_iff.mp hk
      rw [Block.mergeFields, Splice.get?_mergeFields_of_not_mem _ hnot, Splice.child?_mergeFields_of_not_mem _ hnot]
      exact .none
    | some v =>
      have hv : (k, v) ∈ m := Assoc.mem_of_get? hk
      cases hf : v.isFragment with
      | false =>
        obtain ⟨hleaf, -⟩ := Splice.get?_mergeFields hm.nodup hv hf ⟨{}, none⟩
        rw [Block.mergeFields, hleaf]
        exact .some (.same v)
      | true =>
        obtain ⟨fields, rfl⟩ : ∃ fields, v = .obj fields := by
          cases v with
          | obj fields => exact ⟨fields, rfl⟩
          | arr items => exact absurd hf (Bool.not_eq_true _ ▸ hplain items (.field hv (.here _)))
          | null | bool _ | num _ | str _ => cases hf
        have hchild : (Block.mergeFields {} m).child? k = some (Block.mergeFields {} fields) :=
          Splice.child?_mergeFields hm.nodup hv hf ⟨{}, none⟩
        have hkey : k ∉ (Block.mergeFields {} m).declared :=
          hwf.not_mem_declared (child?_isSome_iff.mp (Option.isSome_of_eq_some hchild))
        have hbelow : Json.Reordered (Block.mergeFields {} fields).toValue (.obj fields) :=
          ih fields (List.ne_nil_of_mem hv) (fun e he => ⟨(k, .obj fields), hv, by rwa [Json.contents_obj]⟩)
            (hm.field _ hv) fun items h => hplain items (.field hv h)
        rw [hchild, Assoc.get?_eq_none_iff.mpr hkey]
        exact .some hbelow

end Block

/-- The map that a document without raw texts is read back as makes the document again of the empty one. A map
    from which no sequence of maps is reached through maps is accepted by the empty document, and read back
    with at most its keys in another order. -/
theorem reading_back_is_lossless :
    (∀ d : Document, d.Reached → d.Textless → ({} : Document).merge d.toValue = .ok d) ∧
      ∀ m : List (String × Json), (Json.obj m).WellFormed →
        (∀ items, (Json.obj m).Through (.arr items) → Json.isSequence items = false) →
        ∃ d, ({} : Document).merge (.obj m) = .ok d ∧ Json.Reordered d.toValue (.obj m) := by
  constructor
  · intro d hd ht
    rw [Block.merge_of_isFragment {} rfl, Block.toValue_eq, Json.contents_obj, hd.wellFormed.mergeFields_empty ht]
  · intro m hm hplain
    refine ⟨Block.mergeFields {} m, ?_, Block.reordered_mergeFields_empty m hm hplain⟩
    rw [Block.merge_of_isFragment {} rfl, Json.contents_obj]

/-- Lists that hold maps and other values, or nothing, are declared, and the children come last. -/
theorem reading_back_is_lossless_lists :
    let m : List (String × Json) :=
      [("p", .obj [("q", .obj []), ("w", .arr [.arr []])]), ("x", .arr [.null, .obj [("y", .null)]]), ("z", .arr [])]
    let p : Block := ⟨[("w", .arr [.arr []])], [.ofBlock "q" {}]⟩
    let d : Document := ⟨[("x", .arr [.null, .obj [("y", .null)]]), ("z", .arr [])], [.ofBlock "p" p]⟩
    d.Reached ∧ d.Textless ∧ ({} : Document).merge d.toValue = .ok d ∧ (Json.obj m).WellFormed ∧
      (∀ items, (Json.obj m).Through (.arr items) → Json.isSequence items = false) ∧
        ∃ e, ({} : Document).merge (.obj m) = .ok e ∧ Json.Reordered e.toValue (.obj m) := by
  intro m p d
  have hm : (Json.obj m).WellFormed := by decide
  have hmerge : ({} : Document).merge (.obj m) = .ok d := by cbv
  have hd : d.Reached := .merge .new hm hmerge
  have hq : Block.Textless {} := .intro (by simp) (by simp)
  have hp : p.Textless := .intro (by simp [p, Node.ofBlock]) fun key c h =>
    (Node.ofBlock_inj.mp (List.mem_singleton.mp h)).2 ▸ hq
  have ht : d.Textless := .intro (by simp [d, Node.ofBlock]) fun key c h =>
    (Node.ofBlock_inj.mp (List.mem_singleton.mp h)).2 ▸ hp
  have hplain : ∀ items, (Json.obj m).Through (.arr items) → Json.isSequence items = false := by
    intro items h
    have hitems : items = [.arr []] ∨ items = [.null, .obj [("y", .null)]] ∨ items = [] := by
      simpa [m, Json.through_obj_iff, Json.through_iff_of_ne] using h
    rcases hitems with rfl | rfl | rfl <;> cbv
  exact ⟨hd, ht, reading_back_is_lossless.1 d hd ht, hm, hplain, reading_back_is_lossless.2 m hm hplain⟩

end StyleTree
