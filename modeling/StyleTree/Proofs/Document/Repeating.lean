import StyleTree.Proofs.Document.Folding

/-! Merging a fragment again. A key that is given a leaf has in the end what the fragment makes of it,
    whatever stood there before, and under any other key the fields below it are merged again. So the second
    merge changes at most the order of keys, and it changes nothing if the fragment agrees on where the
    leaves are. -/

namespace StyleTree

/-! ### Fields that agree within each sequence -/

namespace Json
variable {l : List (String × Json)} {k : String} {v : Json}

theorem contentsAt_subset (hn : (l.map (·.1)).Nodup) (hv : (k, v) ∈ l) : contentsAt l k ⊆ v.contents := by
  intro e he
  obtain ⟨w, hw, he⟩ := mem_contentsAt.mp he
  obtain rfl : v = w := Option.some.inj ((Assoc.get?_of_mem hn hv).symm.trans (Assoc.get?_of_mem hn hw))
  exact he

/-- The fields of a fragment agree if those of each sequence in it do: a map alone gives a key one value. -/
theorem Consistent.of_through (v : Json) (hv : v.WellFormed)
    (h : ∀ items, v.Through (.arr items) → Consistent (Json.arr items).contents) : Consistent v.contents := by
  induction v using parts_induction with
  | obj fields ih =>
    rw [contents_obj]
    refine consistent_of_contentsAt (fun d hd e he hk => ?_) fun e he => ?_
    · have hvalue : d.2 = e.2 :=
        Option.some.inj ((Assoc.get?_of_mem hv.nodup hd).symm.trans (hk ▸ Assoc.get?_of_mem hv.nodup he))
      rw [hvalue]
    · exact (ih e he (hv.field e he) fun items hi => h items (.field he hi)).mono (contentsAt_subset hv.nodup he)
  | arr items => exact h items (.here _)
  | leaf v hparts =>
    have hnone : v.contents = [] := by
      rw [contents, hparts, List.flatten_nil, ite_self]
    rw [hnone]
    exact consistent_of_leaves (List.forall_mem_nil _)

end Json

namespace Block
variable {b b' : Block} {k : String} {v : Json} {l : List (String × Json)}

/-! ### What is found under a key -/

/-- The declared value and the child under a key. -/
def found (b : Block) (k : String) : Option Json × Option Block := (Assoc.get? b.declarations k, b.child? k)

theorem get?_fields_eq (h : b.found k = b'.found k) : Assoc.get? b.fields k = Assoc.get? b'.fields k := by
  obtain ⟨hdeclared, hchild⟩ := Prod.mk.inj h
  rw [get?_fields, get?_fields, hdeclared, hchild]

theorem found_mergeFields_of_not_mem (h : k ∉ l.map (·.1)) (b : Block) : (b.mergeFields l).found k = b.found k :=
  Prod.ext (Splice.get?_mergeFields_of_not_mem _ h) (Splice.child?_mergeFields_of_not_mem _ h)

theorem found_declare (b : Block) (k : String) (v : Json) : (b.declare k v).found k = (some v, none) := by
  rw [found, child?_declare, if_pos rfl, declare, Assoc.get?_put, if_pos rfl]

theorem WellFormed.found_openChild (hb : b.WellFormed) (k : String) (f : Block → Block) :
    (b.openChild k f).found k = (none, some (f ((b.child? k).getD {}))) := by
  have hdeclared : Assoc.get? (b.openChild k f).declarations k = none := by
    by_cases hk : k ∈ b.childKeys
    · rw [openChild_of_mem hk]
      exact Assoc.get?_eq_none_iff.mpr (hb.not_mem_declared hk)
    · rw [openChild_of_not_mem hk, Assoc.get?_erase, if_pos rfl]
  rw [found, hdeclared, child?_openChild, if_pos rfl]

theorem WellFormed.child?_getD (hb : b.WellFormed) : ((b.child? k).getD {}).WellFormed := by
  cases hc : b.child? k with
  | none => exact .empty
  | some c => exact hb.child? hc

/-- Under a key that is given a leaf nothing remains of what stood there before. -/
theorem found_mergeFields_of_leaf (hb : b.WellFormed) (hb' : b'.WellFormed) (hl : ∀ e ∈ l, e.2.WellFormed)
    (h : ∃ v, (k, v) ∈ l ∧ v.isFragment = false) : (b.mergeFields l).found k = (b'.mergeFields l).found k := by
  induction l using List.reverseRecOn with
  | nil =>
    obtain ⟨v, hv, -⟩ := h
    cases hv
  | append_singleton l e ih =>
    obtain ⟨key, w⟩ := e
    obtain ⟨hl, -⟩ := List.forall_mem_append.mp hl
    rw [mergeFields_append, mergeFields_append]
    by_cases hlast : key = k ∧ w.isFragment = false
    · obtain ⟨rfl, hw⟩ := hlast
      rw [mergeFields_of_leaf _ key hw, mergeFields_of_leaf _ key hw, found_declare, found_declare]
    · have hfound : (b.mergeFields l).found k = (b'.mergeFields l).found k := by
        obtain ⟨v, hv, hf⟩ := h
        refine ih hl ⟨v, (List.mem_append.mp hv).resolve_right fun he => hlast ?_, hf⟩
        obtain ⟨rfl, rfl⟩ := Prod.mk.inj (List.mem_singleton.mp he)
        exact ⟨rfl, hf⟩
      by_cases hk : key = k
      · subst hk
        have hw : w.isFragment = true := by simpa using hlast
        have hchild := (Prod.mk.inj hfound).2
        rw [mergeFields_of_isFragment _ key hw, mergeFields_of_isFragment _ key hw,
          (WellFormed.mergeAll hb hl).found_openChild, (WellFormed.mergeAll hb' hl).found_openChild, hchild]
      · have hnot : k ∉ [(key, w)].map (·.1) := by simpa using Ne.symm hk
        rw [found_mergeFields_of_not_mem hnot, found_mergeFields_of_not_mem hnot, hfound]

/-- A key that is given fragments only has a child, into which their fields are merged. -/
theorem WellFormed.found_mergeFields (hb : b.WellFormed) (hl : ∀ e ∈ l, e.2.WellFormed) (hk : k ∈ l.map (·.1))
    (hfragments : ∀ v, (k, v) ∈ l → v.isFragment = true) :
    (b.mergeFields l).found k = (none, some (((b.child? k).getD {}).mergeFields (Json.contentsAt l k))) := by
  induction l using List.reverseRecOn with
  | nil => cases hk
  | append_singleton l e ih =>
    obtain ⟨key, w⟩ := e
    obtain ⟨hl, -⟩ := List.forall_mem_append.mp hl
    have hrest : ∀ v, (k, v) ∈ l → v.isFragment = true := fun v hv => hfragments v (List.mem_append_left _ hv)
    rw [mergeFields_append, Json.contentsAt_append, Json.contentsAt_singleton, mergeFields_append]
    by_cases hkey : key = k
    · subst hkey
      have hw : w.isFragment = true := hfragments w (List.mem_append_right _ List.mem_cons_self)
      rw [mergeFields_of_isFragment _ key hw, (WellFormed.mergeAll hb hl).found_openChild,
        child?_mergeFields_getD hrest, if_pos rfl]
    · have hnot : k ∉ [(key, w)].map (·.1) := by simpa using Ne.symm hkey
      have hkl : k ∈ l.map (·.1) := by simpa [Ne.symm hkey] using hk
      rw [found_mergeFields_of_not_mem hnot, ih hl hkl hrest, if_neg hkey, mergeFields_nil]

/-! ### Once more -/

/-- Fields that are merged again change at most the order of keys. -/
theorem WellFormed.reordered_mergeFields (l : List (String × Json)) (hl : ∀ e ∈ l, e.2.WellFormed) {b : Block}
    (hb : b.WellFormed) : Json.Reordered ((b.mergeFields l).mergeFields l).toValue (b.mergeFields l).toValue := by
  induction l using Json.fields_induction generalizing b with
  | step l ih =>
    have honce : (b.mergeFields l).WellFormed := .mergeAll hb hl
    have htwice : ((b.mergeFields l).mergeFields l).WellFormed := .mergeAll honce hl
    rw [toValue_eq, toValue_eq]
    refine .of_get? htwice.toValue.nodup honce.toValue.nodup fun k => ?_
    have same {b₁ b₂ : Block} (h : b₁.found k = b₂.found k) :
        Option.Rel Json.Reordered (Assoc.get? b₁.fields k) (Assoc.get? b₂.fields k) := by
      rw [get?_fields_eq h]
      cases Assoc.get? b₂.fields k with
      | none => exact .none
      | some v => exact .some (.same v)
    by_cases hk : k ∈ l.map (·.1)
    · by_cases hleaf : ∃ v, (k, v) ∈ l ∧ v.isFragment = false
      · exact same (found_mergeFields_of_leaf honce hb hl hleaf)
      · have hfragments : ∀ v, (k, v) ∈ l → v.isFragment = true := by simpa using hleaf
        have hfound := hb.found_mergeFields hl hk hfragments
        have hagain := honce.found_mergeFields hl hk hfragments
        rw [(Prod.mk.inj hfound).2, Option.getD_some] at hagain
        rw [get?_fields, get?_fields, (Prod.mk.inj hfound).1, (Prod.mk.inj hfound).2, (Prod.mk.inj hagain).1,
          (Prod.mk.inj hagain).2]
        obtain ⟨d, hd, -⟩ := List.mem_map.mp hk
        exact .some (ih _ (List.ne_nil_of_mem hd) (fun e he => Json.exists_of_mem_contentsAt he)
          (fun e he => .of_mem_contentsAt hl he) hb.child?_getD)
    · exact same (found_mergeFields_of_not_mem hk _)

/-- Fields that agree change nothing when they are merged again. -/
theorem mergeFields_again (hl : ∀ e ∈ l, e.2.WellFormed) (hc : Json.Consistent l) (x : Block) :
    (x.mergeFields l).mergeFields l = x.mergeFields l := by
  have hwf : (Block.mergeFields {} l).WellFormed := .mergeAll .empty hl
  have hl' : ∀ e ∈ l ++ l, e.2.WellFormed := List.forall_mem_append.mpr ⟨hl, hl⟩
  have hc' : Json.Consistent (l ++ l) := hc.mono (List.append_subset.mpr ⟨List.Subset.refl l, List.Subset.refl l⟩)
  -- In the empty block the second merge is a merge of what is there already.
  have hempty : Block.mergeFields {} (l ++ l) = Block.mergeFields {} l := by
    rw [mergeFields_append, ← mergeFields_fold l hl hc, hwf.mergeFields_fields]
  calc (x.mergeFields l).mergeFields l
      = x.mergeFields (l ++ l) := (mergeFields_append x l l).symm
    _ = x.mergeFields (Block.mergeFields {} (l ++ l)).fields := (mergeFields_fold (l ++ l) hl' hc' x).symm
    _ = x.mergeFields (Block.mergeFields {} l).fields := by rw [hempty]
    _ = x.mergeFields l := mergeFields_fold l hl hc x

end Block

/-- Merging a fragment that was accepted once more is accepted again, and changes at most the order of keys. It
    changes nothing if no sequence in the fragment gives a key path a leaf in one place and a fragment in
    another. -/
theorem merging_twice_is_merging_once {d d' : Document} (hd : d.Reached) {v : Json} (hv : v.WellFormed)
    (h : d.merge v = .ok d') : ∃ d'', d'.merge v = .ok d'' ∧ Json.Reordered d''.toValue d'.toValue ∧
      ((∀ items, v.Through (.arr items) → Json.Consistent (Json.arr items).contents) → d'' = d') := by
  obtain ⟨haccepted, rfl⟩ := Block.merge_eq_ok_iff.mp h
  have hl : ∀ e ∈ v.contents, e.2.WellFormed := fun e he => hv.of_mem_contents he
  refine ⟨_, Block.merge_eq_ok_iff.mpr ⟨haccepted, rfl⟩, hd.wellFormed.reordered_mergeFields _ hl, fun hc => ?_⟩
  exact Block.mergeFields_again hl (.of_through v hv hc) d

/-- A sequence that takes the place of a declaration, and a declaration that takes the place of a child. -/
theorem merging_twice_is_merging_once_swap :
    let p : List Json := [.obj [("x", .str "1")], .obj [("x", .str "2"), ("y", .obj [])]]
    let v : Json := .obj [("p", .arr p), ("a", .str "3")]
    let d : Document := ⟨[("p", .str "0")], [.ofBlock "a" {}]⟩
    let d' : Document := ⟨[("a", .str "3")], [.ofBlock "p" ⟨[("x", .str "2")], [.ofBlock "y" {}]⟩]⟩
    d.Reached ∧ v.WellFormed ∧ d.merge v = .ok d' ∧
      (∀ items, v.Through (.arr items) → Json.Consistent (Json.arr items).contents) ∧
        ∃ d'', d'.merge v = .ok d'' ∧ Json.Reordered d''.toValue d'.toValue ∧ d'' = d' := by
  intro p v d d'
  have hd : d.Reached := .merge (v := .obj [("p", .str "0"), ("a", .obj [])]) .new (by decide) rfl
  have hv : v.WellFormed := by decide
  have hmerge : d.merge v = .ok d' := by cbv
  have hconsistent : Json.Consistent (Json.arr p).contents := by
    have hfields : (Json.arr p).contents = [("x", .str "1"), ("x", .str "2"), ("y", .obj [])] := by cbv
    rw [hfields]
    refine Json.consistent_of_contentsAt (by simp [Json.isFragment]) ?_
    simp only [List.forall_mem_cons]
    refine ⟨?_, ?_, ?_, List.forall_mem_nil _⟩ <;> refine Json.consistent_of_leaves ?_ <;>
      simp [Json.contentsAt, Json.contents, Json.isFragment, Json.fragmentMaps]
  have hc : ∀ items, v.Through (.arr items) → Json.Consistent (Json.arr items).contents := by
    intro items h
    have hitems : items = p := by simpa [v, Json.through_obj_iff, Json.through_iff_of_ne] using h
    exact hitems ▸ hconsistent
  obtain ⟨d'', hagain, hsame, hequal⟩ := merging_twice_is_merging_once hd hv hmerge
  exact ⟨hd, hv, hmerge, hc, d'', hagain, hsame, hequal hc⟩

end StyleTree
