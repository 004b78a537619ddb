import StyleTree.Proofs.Document.Commuting
import StyleTree.Proofs.Document.ReadingBack

/-! Sequences that fold into one map. What maps make of the empty block is read back as one map, and this map
    does to every block what the maps do one after the other, if they agree on where the leaves are. -/

namespace StyleTree

/-! ### Fields that agree -/

namespace Json

/-- The fields give a fragment at the key path, or a leaf if `fragment` is false. -/
inductive Gives : List (String × Json) → KeyPath → Bool → Prop
  | here {l : List (String × Json)} {k : String} {v : Json} {fragment : Bool} : (k, v) ∈ l → v.isFragment = fragment →
      Gives l [k] fragment
  | inside {l : List (String × Json)} {k : String} {v : Json} {path : KeyPath} {fragment : Bool} : (k, v) ∈ l →
      Gives v.contents path fragment → Gives l (k :: path) fragment

/-- No key path is given a leaf in one place and a fragment in another. -/
def Consistent (l : List (String × Json)) : Prop := ∀ path, ¬ (Gives l path true ∧ Gives l path false)

variable {l l' : List (String × Json)} {k : String} {v w : Json} {path : KeyPath} {fragment : Bool}

theorem Gives.mono (h : Gives l path fragment) (hl : l ⊆ l') : Gives l' path fragment := by
  cases h with
  | here hv hf => exact .here (hl hv) hf
  | inside hv h => exact .inside (hl hv) h

theorem Gives.of_contentsAt (h : Gives (contentsAt l k) path fragment) : Gives l (k :: path) fragment := by
  cases h with
  | here hv hf =>
    obtain ⟨w, hw, hv⟩ := mem_contentsAt.mp hv
    exact .inside hw (.here hv hf)
  | inside hv h =>
    obtain ⟨w, hw, hv⟩ := mem_contentsAt.mp hv
    exact .inside hw (.inside hv h)

theorem Consistent.mono (h : Consistent l') (hl : l ⊆ l') : Consistent l :=
  fun path hp => h path ⟨hp.1.mono hl, hp.2.mono hl⟩

theorem Consistent.contentsAt (h : Consistent l) (k : String) : Consistent (contentsAt l k) :=
  fun path hp => h (k :: path) ⟨hp.1.of_contentsAt, hp.2.of_contentsAt⟩

theorem Consistent.isFragment_eq (h : Consistent l) (hv : (k, v) ∈ l) (hw : (k, w) ∈ l) : v.isFragment = w.isFragment := by
  cases hf : v.isFragment <;> cases hf' : w.isFragment
  · rfl
  · exact absurd ⟨.here hw hf', .here hv hf⟩ (h [k])
  · exact absurd ⟨.here hv hf, .here hw hf'⟩ (h [k])
  · rfl

/-- Fields agree if their values do under each key, and the fields that they give below it. -/
theorem consistent_of_contentsAt (hvalues : ∀ d ∈ l, ∀ e ∈ l, d.1 = e.1 → d.2.isFragment = e.2.isFragment)
    (hbelow : ∀ e ∈ l, Consistent (Json.contentsAt l e.1)) : Consistent l := by
  rintro path ⟨hfragment, hleaf⟩
  cases hfragment with
  | here hv hf =>
    cases hleaf with
    | here hw hf' => exact Bool.false_ne_true (hf'.symm.trans ((hvalues _ hw _ hv rfl).trans hf))
    | inside _ h => cases h
  | @inside _ k v path _ hv h =>
    have hgives (w : Json) (hw : (k, w) ∈ l) {fragment : Bool} (h : Gives w.contents path fragment) :
        Gives (Json.contentsAt l k) path fragment := h.mono fun e he => mem_contentsAt.mpr ⟨w, hw, he⟩
    cases hleaf with
    | here => cases h
    | inside hw h' => exact hbelow (k, v) hv path ⟨hgives v hv h, hgives _ hw h'⟩

theorem consistent_of_leaves (hl : ∀ e ∈ l, e.2.isFragment = false) : Consistent l := by
  refine consistent_of_contentsAt (fun d hd e he _ => (hl d hd).trans (hl e he).symm) fun d _ => ?_
  have hnone : Json.contentsAt l d.1 = [] := List.eq_nil_iff_forall_not_mem.mpr fun e he => by
    obtain ⟨w, hw, he⟩ := mem_contentsAt.mp he
    rw [contents_of_leaf (hl _ hw)] at he
    cases he
  rw [hnone]
  rintro path ⟨h, -⟩
  cases h <;> contradiction

end Json

namespace Block
variable {b : Block} {k : String} {v : Json} {l : List (String × Json)} {f g : Block → Block}

theorem exists_leaf_of_mem_declared (h : k ∈ (b.mergeFields l).declared) :
    k ∈ b.declared ∨ ∃ v, (k, v) ∈ l ∧ v.isFragment = false := by
  induction l generalizing b with
  | nil => exact .inl (mergeFields_nil b ▸ h)
  | cons e l ih =>
    obtain ⟨key, w⟩ := e
    rw [mergeFields_cons] at h
    rcases ih h with h | ⟨v, hv, hf⟩
    · cases hw : w.isFragment with
      | false =>
        rw [mergeFields_of_leaf b key hw] at h
        rcases mem_declared_declare.mp h with h | rfl
        · exact .inl h
        · exact .inr ⟨w, List.mem_cons_self, hw⟩
      | true =>
        rw [mergeFields_of_isFragment b key hw] at h
        exact .inl (declared_openChild_subset h)
    · exact .inr ⟨v, List.mem_cons_of_mem _ hv, hf⟩

theorem exists_fragment_of_mem_childKeys (h : k ∈ (b.mergeFields l).childKeys) :
    k ∈ b.childKeys ∨ ∃ v, (k, v) ∈ l ∧ v.isFragment = true := by
  induction l generalizing b with
  | nil => exact .inl (mergeFields_nil b ▸ h)
  | cons e l ih =>
    obtain ⟨key, w⟩ := e
    rw [mergeFields_cons] at h
    rcases ih h with h | ⟨v, hv, hf⟩
    · cases hw : w.isFragment with
      | false =>
        rw [mergeFields_of_leaf b key hw] at h
        exact .inl (mem_childKeys_declare.mp h).2
      | true =>
        rw [mergeFields_of_isFragment b key hw] at h
        rcases mem_childKeys_openChild.mp h with rfl | h
        · exact .inr ⟨w, List.mem_cons_self, hw⟩
        · exact .inl h
    · exact .inr ⟨v, List.mem_cons_of_mem _ hv, hf⟩

/-! ### One more field -/

/-- A declaration that is read back with others does what they do before it does. -/
theorem mergeFields_put {ds : List (String × Json)} (hn : (ds.map (·.1)).Nodup) (hds : ∀ e ∈ ds, e.2.isFragment = false)
    (hv : v.isFragment = false) (x : Block) : x.mergeFields (Assoc.put ds k v) = (x.mergeFields ds).declare k v := by
  induction ds generalizing x with
  | nil => rw [Assoc.put, mergeFields_of_leaf x k hv, mergeFields_nil]
  | cons e ds ih =>
    obtain ⟨key, w⟩ := e
    obtain ⟨hw, hds⟩ := List.forall_mem_cons.mp hds
    obtain ⟨hkey, hn⟩ := List.nodup_cons.mp hn
    rw [Assoc.put, mergeFields_cons x (key, w), mergeFields_of_leaf x key hw]
    split
    · next hk =>
      obtain rfl : key = k := hk
      have hdeclared : key ∈ (x.declare key w).declared := mem_declared_declare.mpr (.inr rfl)
      rw [mergeFields_cons, mergeFields_of_leaf x key hv, declare_mergeFields hkey (.inr hdeclared), declare_declare]
    · rw [mergeFields_cons, mergeFields_of_leaf x key hw, ih hn hds]

theorem WellFormed.mergeFields_declare {e : Block} (he : e.WellFormed) (hk : k ∉ e.childKeys) (hv : v.isFragment = false)
    (x : Block) : x.mergeFields (e.declare k v).fields = (x.mergeFields e.fields).declare k v := by
  have hfragments : ∀ d ∈ Node.fields e.children, d.2.isFragment = true := fun d hd => by
    obtain ⟨key, c, -, rfl⟩ := Node.mem_fields hd
    rfl
  have hkeys : k ∉ (Node.fields e.children).map (·.1) := by
    rw [Node.map_fst_fields]
    exact hk
  have hdeclare : (e.declare k v).fields = Assoc.put e.declarations k v ++ Node.fields e.children := by
    rw [Block.declare, detach_of_not_mem hk]
    rfl
  rw [hdeclare, fields, mergeFields_append, mergeFields_append,
    mergeFields_put (List.nodup_append.mp he.keys).1 (fun d hd => (he.leaf d hd).2) hv,
    declare_mergeFields hkeys (.inl hfragments)]

theorem mergeFields_cons_toValue (x : Block) (k : String) (c : Block) (l : List (String × Json)) :
    x.mergeFields ((k, c.toValue) :: l) = (x.openChild k fun y => y.mergeFields c.fields).mergeFields l := by
  rw [mergeFields_cons, mergeFields_of_isFragment x k rfl, toValue_eq, Json.contents_obj]

/-- Children that are read back with one of them changed do what they do unchanged before the change. -/
theorem mergeFields_mapChild {children : List Node} (hn : (children.filterMap Node.key?).Nodup) {c : Block}
    (hc : .ofBlock k c ∈ children) (hfg : ∀ y : Block, y.mergeFields (f c).fields = g (y.mergeFields c.fields)) (x : Block) :
    x.mergeFields (Node.fields (mapChild k f children)) = (x.mergeFields (Node.fields children)).openChild k g := by
  induction children generalizing x with
  | nil => cases hc
  | cons n rest ih =>
    by_cases hkey : n.key? = some k
    · obtain ⟨c', rfl⟩ := Node.key?_eq_some_iff.mp hkey
      obtain ⟨hnew, -⟩ : k ∉ rest.filterMap Node.key? ∧ (rest.filterMap Node.key?).Nodup := List.nodup_cons.mp hn
      obtain rfl : c = c' := by
        rcases List.mem_cons.mp hc with h | h
        · exact (Node.ofBlock_inj.mp h).2
        · exact absurd (mem_childKeys_of_mem (b := ⟨[], rest⟩) h) hnew
      have hrest : k ∉ (Node.fields rest).map (·.1) := by rwa [Node.map_fst_fields]
      rw [mapChild_cons_ofBlock, Node.fields_cons_ofBlock, Node.fields_cons_ofBlock, mergeFields_cons_toValue,
        mergeFields_cons_toValue, openChild_mergeFields hrest (mem_childKeys_openChild.mpr (.inl rfl)),
        openChild_openChild]
      simp only [hfg]
    · have hrest : (rest.filterMap Node.key?).Nodup := hn.sublist ((List.sublist_cons_self n rest).filterMap _)
      have hc : .ofBlock k c ∈ rest := (List.mem_cons.mp hc).resolve_left fun he => hkey (he ▸ rfl)
      rw [mapChild_cons_of_ne hkey, Node.fields, Node.fields, mergeFields_append, mergeFields_append, ih hrest hc]

/-- A child that is opened in what is read back is opened with what the change does to its fields. -/
theorem WellFormed.mergeFields_openChild {e : Block} (he : e.WellFormed) (hk : k ∉ e.declared)
    (hfg : ∀ y : Block, y.mergeFields (f ((e.child? k).getD {})).fields = g (y.mergeFields ((e.child? k).getD {}).fields))
    (x : Block) : x.mergeFields (e.openChild k f).fields = (x.mergeFields e.fields).openChild k g := by
  by_cases hc : k ∈ e.childKeys
  · obtain ⟨c, hfound⟩ := Option.isSome_iff_exists.mp (child?_isSome_iff.mpr hc)
    rw [hfound, Option.getD_some] at hfg
    rw [openChild_of_mem hc, fields, mergeFields_append, fields, mergeFields_append,
      mergeFields_mapChild he.childKeys_nodup (mem_of_child? hfound) hfg]
  · have hg : g = fun y => y.mergeFields (f {}).fields := funext fun y => by
      rw [child?_eq_none_iff.mpr hc, Option.getD_none] at hfg
      rw [hfg y, fields, Node.fields, List.append_nil, mergeFields_nil]
    rw [openChild_of_not_mem hc, Assoc.erase_of_not_mem hk, fields, Node.fields_append, Node.fields_singleton,
      ← List.append_assoc, mergeFields_append, mergeFields_cons_toValue, mergeFields_nil, hg]
    rfl

/-! ### The whole list -/

/-- The step to one more field, if what is given below its key is read back as fields that do the same. -/
theorem mergeFields_fold_concat {r : List (String × Json)} (hr : ∀ e ∈ r, e.2.WellFormed)
    (hc : Json.Consistent (r ++ [(k, v)]))
    (hbelow : ∀ l', l' = r ∨ l' = r ++ [(k, v)] → ∀ y : Block,
      y.mergeFields (Block.mergeFields {} (Json.contentsAt l' k)).fields = y.mergeFields (Json.contentsAt l' k))
    (x : Block) : x.mergeFields ((Block.mergeFields {} r).mergeFields [(k, v)]).fields =
      (x.mergeFields (Block.mergeFields {} r).fields).mergeFields [(k, v)] := by
  have hwf : (Block.mergeFields {} r).WellFormed := .mergeAll .empty hr
  have hsame (w : Json) (hw : (k, w) ∈ r) : w.isFragment = v.isFragment :=
    hc.isFragment_eq (List.mem_append_left _ hw) (List.mem_append_right _ List.mem_cons_self)
  cases hf : v.isFragment with
  | false =>
    have hk : k ∉ (Block.mergeFields {} r).childKeys := fun hk => by
      obtain ⟨w, hw, hfragment⟩ := (exists_fragment_of_mem_childKeys hk).resolve_left List.not_mem_nil
      exact Bool.false_ne_true (hf.symm.trans ((hsame w hw).symm.trans hfragment))
    rw [mergeFields_of_leaf _ k hf, mergeFields_of_leaf _ k hf, hwf.mergeFields_declare hk hf]
  | true =>
    have hk : k ∉ (Block.mergeFields {} r).declared := fun hk => by
      obtain ⟨w, hw, hleaf⟩ := (exists_leaf_of_mem_declared hk).resolve_left List.not_mem_nil
      exact Bool.false_ne_true (hleaf.symm.trans ((hsame w hw).trans hf))
    have hchild : ((Block.mergeFields {} r).child? k).getD {} = Block.mergeFields {} (Json.contentsAt r k) :=
      child?_mergeFields_getD (fun w hw => (hsame w hw).trans hf) {}
    have hlast : Json.contentsAt (r ++ [(k, v)]) k = Json.contentsAt r k ++ v.contents := by
      rw [Json.contentsAt_append, Json.contentsAt_singleton, if_pos rfl]
    rw [mergeFields_of_isFragment _ k hf, mergeFields_of_isFragment _ k hf, hwf.mergeFields_openChild hk]
    intro y
    calc y.mergeFields ((((Block.mergeFields {} r).child? k).getD {}).mergeFields v.contents).fields
        = y.mergeFields (Block.mergeFields {} (Json.contentsAt (r ++ [(k, v)]) k)).fields := by
          rw [hchild, hlast, mergeFields_append]
      _ = y.mergeFields (Json.contentsAt (r ++ [(k, v)]) k) := hbelow _ (.inr rfl) y
      _ = (y.mergeFields (Json.contentsAt r k)).mergeFields v.contents := by rw [hlast, mergeFields_append]
      _ = (y.mergeFields (((Block.mergeFields {} r).child? k).getD {}).fields).mergeFields v.contents := by
          rw [hchild, hbelow _ (.inl rfl)]

/-- What fields make of the empty block is read back as fields that do the same to every block. -/
theorem mergeFields_fold (l : List (String × Json)) (hl : ∀ e ∈ l, e.2.WellFormed) (hc : Json.Consistent l) (x : Block) :
    x.mergeFields (Block.mergeFields {} l).fields = x.mergeFields l := by
  induction l using Json.fields_induction generalizing x with
  | step l ih =>
    -- What some of the fields give below a key is given below the whole list.
    have hbelow (r : List (String × Json)) (k : String) (hr : r ⊆ l) (hne : l ≠ []) (y : Block) :
        y.mergeFields (Block.mergeFields {} (Json.contentsAt r k)).fields = y.mergeFields (Json.contentsAt r k) := by
      refine ih _ hne (fun e he => ?_) (fun e he => ?_) ((hc.mono hr).contentsAt k) y
      · obtain ⟨d, hd, he⟩ := Json.exists_of_mem_contentsAt he
        exact ⟨d, hr hd, he⟩
      · exact .of_mem_contentsAt (fun e he => hl e (hr he)) he
    suffices run : ∀ r ⊆ l, x.mergeFields (Block.mergeFields {} r).fields = x.mergeFields r from
      run l (List.Subset.refl l)
    intro r hr
    induction r using List.reverseRecOn with
    | nil =>
      rw [mergeFields_nil]
      rfl
    | append_singleton r e ihr =>
      obtain ⟨hsub, he⟩ := List.append_subset.mp hr
      have hne : l ≠ [] := List.ne_nil_of_mem (he List.mem_cons_self)
      rw [mergeFields_append, mergeFields_append, ← ihr hsub]
      refine mergeFields_fold_concat (fun d hd => hl d (hsub hd)) (hc.mono hr) ?_ x
      rintro l' (rfl | rfl)
      · exact hbelow l' e.1 hsub hne
      · exact hbelow _ e.1 hr hne

end Block

/-! ### Maps in lists -/

/-- The list holds the maps in their order, one by one or in lists of their own, at any depth. -/
inductive Json.Nests : List Json → List (List (String × Json)) → Prop
  | nil : Nests [] []
  | map {m : List (String × Json)} {items : List Json} {ms : List (List (String × Json))} : Nests items ms →
      Nests (.obj m :: items) (m :: ms)
  | list {inner items : List Json} {ms ms' : List (List (String × Json))} : Nests inner ms → Nests items ms' →
      Nests (.arr inner :: items) (ms ++ ms')

namespace Json.Nests
variable {items : List Json} {ms : List (List (String × Json))}

theorem maps_eq (h : Nests items ms) : maps items = ms := by
  induction h with
  | nil => rw [maps]
  | map _ ih => rw [maps, ih]
  | list _ _ ih ih' => rw [maps, ih, ih']

theorem onlyMaps (h : Nests items ms) : onlyMaps items = true := by
  induction h with
  | nil => rw [Json.onlyMaps]
  | map _ ih => rw [Json.onlyMaps, ih]
  | list _ _ ih ih' => rw [Json.onlyMaps, ih, ih', Bool.and_self]

theorem someMap (h : Nests items ms) (hms : ms ≠ []) : someMap items = true := by
  induction h with
  | nil => exact absurd rfl hms
  | map => rw [Json.someMap]
  | @list inner items ms ms' _ _ ih ih' =>
    rw [Json.someMap, Bool.or_eq_true]
    by_cases hinner : ms = []
    · exact .inr (ih' fun he => hms (by rw [hinner, he, List.nil_append]))
    · exact .inl (ih hinner)

/-- Such a list is a fragment, and its fields are those of the maps. -/
theorem isFragment (h : Nests items ms) (hms : ms ≠ []) :
    (Json.arr items).isFragment = true ∧ (Json.arr items).contents = ms.flatten := by
  have hf : (Json.arr items).isFragment = true := by
    rw [Json.isFragment, isSequence, h.onlyMaps, h.someMap hms, Bool.and_self]
  exact ⟨hf, by rw [contents_of_isFragment hf, fragmentMaps, h.maps_eq]⟩

end Json.Nests

namespace Block

/-- The document with the maps merged in, one submission after the other. -/
def mergeEach (d : Document) (ms : List (List (String × Json))) : Except Error Document :=
  ms.foldlM (fun d m => d.merge (.obj m)) d

theorem mergeEach_eq (d : Document) (ms : List (List (String × Json))) : mergeEach d ms = .ok (d.mergeFields ms.flatten) := by
  induction ms generalizing d with
  | nil =>
    rw [mergeEach, List.foldlM_nil, List.flatten_nil, mergeFields_nil]
    rfl
  | cons m ms ih =>
    rw [mergeEach, List.foldlM_cons, merge_of_isFragment d rfl, Json.contents_obj]
    show mergeEach (d.mergeFields m) ms = _
    rw [ih, List.flatten_cons, mergeFields_append]

end Block

/-- Merging maps one after the other and merging a sequence of them, however they are nested in it, leave the
    same document. If no key path is given a leaf in one place and a fragment in another, so does merging
    the one map that the maps make of the empty document. -/
theorem sequence_folds_into_map (d : Document) {ms : List (List (String × Json))} (hms : ms ≠ [])
    (hwf : ∀ m ∈ ms, (Json.obj m).WellFormed) {items : List Json} (hn : Json.Nests items ms) :
    ∃ d', d.mergeEach ms = .ok d' ∧ d.merge (.arr items) = .ok d' ∧
      (Json.Consistent ms.flatten → ∃ e, ({} : Document).mergeEach ms = .ok e ∧ d.merge e.toValue = .ok d') := by
  obtain ⟨hf, hcontents⟩ := hn.isFragment hms
  refine ⟨d.mergeFields ms.flatten, Block.mergeEach_eq d ms, ?_, fun hc => ⟨_, Block.mergeEach_eq {} ms, ?_⟩⟩
  · rw [Block.merge_of_isFragment d hf, hcontents]
  · have hfields : ∀ e ∈ ms.flatten, e.2.WellFormed := fun e he => by
      obtain ⟨m, hm, he⟩ := List.mem_flatten.mp he
      exact (hwf m hm).field e he
    rw [Block.merge_of_isFragment d rfl, Block.toValue_eq, Json.contents_obj, Block.mergeFields_fold _ hfields hc]

/-- A map that takes the place of a declaration, given in two maps, once as a sequence. -/
theorem sequence_folds_into_map_nested :
    let m₁ : List (String × Json) := [("a", .obj [("x", .str "1")])]
    let m₂ : List (String × Json) := [("a", .arr [.obj [("x", .str "2")], .obj [("y", .null)]]), ("b", .str "3")]
    let items : List Json := [.arr [.obj m₁, .arr []], .obj m₂]
    let d : Document := ⟨[("a", .str "0")], [.ofBlock "b" {}, .raw "hr"]⟩
    [m₁, m₂] ≠ [] ∧ (∀ m ∈ [m₁, m₂], (Json.obj m).WellFormed) ∧ Json.Nests items [m₁, m₂] ∧
      Json.Consistent [m₁, m₂].flatten ∧
        ∃ d', d.mergeEach [m₁, m₂] = .ok d' ∧ d.merge (.arr items) = .ok d' ∧
          ∃ e, ({} : Document).mergeEach [m₁, m₂] = .ok e ∧ d.merge e.toValue = .ok d' := by
  intro m₁ m₂ items d
  have hwf : ∀ m ∈ [m₁, m₂], (Json.obj m).WellFormed := by decide
  have hn : Json.Nests items [m₁, m₂] := .list (.map (.list .nil .nil)) (.map .nil)
  have hseq : Json.isSequence [.obj [("x", .str "2")], .obj [("y", .null)]] = true := by cbv
  have hc : Json.Consistent [m₁, m₂].flatten := by
    refine Json.consistent_of_contentsAt (by simp [m₁, m₂, Json.isFragment, hseq]) ?_
    simp only [m₁, m₂, List.flatten_cons, List.flatten_nil, List.cons_append, List.nil_append, List.forall_mem_cons]
    refine ⟨?_, ?_, ?_, List.forall_mem_nil _⟩ <;> refine Json.consistent_of_leaves ?_ <;>
      simp [Json.contentsAt, Json.contents, Json.isFragment, hseq, Json.fragmentMaps, Json.maps]
  obtain ⟨d', hone, hall, hfold⟩ := sequence_folds_into_map d (List.cons_ne_nil m₁ [m₂]) hwf hn
  exact ⟨List.cons_ne_nil m₁ [m₂], hwf, hn, hc, d', hone, hall, hfold hc⟩

end StyleTree
