import StyleTree.Proofs.Document.ReadingBack

/-! Raw texts stand at the root. They come in there only, and whatever a merge, a detachment or a resolution makes
    of a block, it brings no raw text in. So the blocks below the root of a document are free of them. -/

namespace StyleTree

namespace Block
variable {b b' : Block}

/-- No raw text stands below a child of the block. -/
def TextlessBelow (b : Block) : Prop := ∀ key c, .ofBlock key c ∈ b.children → c.Textless

theorem textless_iff : b.Textless ↔ (∀ text, .raw text ∉ b.children) ∧ b.TextlessBelow :=
  ⟨fun ⟨hhere, hbelow⟩ => ⟨hhere, hbelow⟩, fun ⟨hhere, hbelow⟩ => .intro hhere hbelow⟩

/-- The block `b'` has no raw text that `b` does not have, and none below it if `b` has none there. -/
structure NoNewTexts (b b' : Block) : Prop where
  here : ∀ text, .raw text ∈ b'.children → .raw text ∈ b.children
  below : b.TextlessBelow → b'.TextlessBelow

namespace NoNewTexts

theorem refl (b : Block) : NoNewTexts b b := ⟨fun _ h => h, fun h => h⟩

theorem trans {b'' : Block} (h : NoNewTexts b b') (h' : NoNewTexts b' b'') : NoNewTexts b b'' :=
  ⟨fun text ht => h.here text (h'.here text ht), fun hb => h'.below (h.below hb)⟩

theorem textless (h : NoNewTexts b b') (hb : b.Textless) : b'.Textless := by
  obtain ⟨hhere, hbelow⟩ := textless_iff.mp hb
  exact textless_iff.mpr ⟨fun text ht => hhere text (h.here text ht), h.below hbelow⟩

theorem of_subset (h : b'.children ⊆ b.children) : NoNewTexts b b' :=
  ⟨fun _ ht => h ht, fun hb key c hc => hb key c (h hc)⟩

theorem detach (b : Block) (key : String) : NoNewTexts b (b.detach key) :=
  of_subset fun _ hn => (List.mem_filter.mp hn).1

/-! ### Merges -/

theorem openChild (s : Splice) (key : String) {f : Block → Block} (hf : ∀ c, NoNewTexts c (f c)) :
    NoNewTexts s.block (s.openChild key f).block := by
  refine ⟨fun text ht => (Splice.mem_children_openChild ht).resolve_right nofun, fun hb k c hc => ?_⟩
  rcases Splice.child_of_openChild hc with hc | rfl | ⟨c', hc', rfl⟩
  · exact hb k c hc
  · exact (hf {}).textless (.intro (by simp) (by simp))
  · exact (hf c').textless (hb key c' hc')

theorem declare (s : Splice) (key : String) (value : Json) : NoNewTexts s.block (s.declare key value).block :=
  of_subset fun _ hn => Splice.mem_children_declare hn

theorem mergeFields (s : Splice) (fields : List (String × Json)) : NoNewTexts s.block (s.mergeFields fields).block :=
  Splice.mergeFields_keeps (fun _ => True) (fun _ => True) NoNewTexts refl trans (fun _ _ _ => ⟨trivial, trivial⟩)
    (fun _ _ _ => trivial) (fun s key _ _ hf => openChild s key hf) (fun s key v _ _ _ => declare s key v)
    (.obj fields) trivial fields (List.mem_singleton.mpr rfl) s

theorem foldl_mergeFields (s : Splice) (ms : List (List (String × Json))) :
    NoNewTexts s.block (ms.foldl Splice.mergeFields s).block :=
  List.foldlRecOn (motive := fun t : Splice => NoNewTexts s.block t.block) _ _ (refl _) fun t ht m _ =>
    ht.trans (mergeFields t m)

theorem mergeItems (s : Splice) (items : List Json) : NoNewTexts s.block (s.mergeItems items).block :=
  s.mergeItems_eq_foldl items ▸ foldl_mergeFields s _

theorem mergeFragment (s : Splice) (v : Json) : NoNewTexts s.block (s.mergeFragment v).block := by
  rcases s.mergeFragment_eq v with h | h <;> rw [h]
  · exact foldl_mergeFields s _
  · exact refl _

theorem merge {v : Json} (h : b.merge v = .ok b') : NoNewTexts b b' := by
  cases v with
  | obj fields =>
    cases h
    exact mergeFields ⟨b, none⟩ fields
  | arr items =>
    rw [Block.merge] at h
    split at h
    · cases h
      exact mergeItems ⟨b, none⟩ items
    · split at h
      · cases h
        exact refl b
      · cases h
  | null | bool _ | num _ | str _ => cases h

/-! ### Changes at a place -/

theorem modifyAt {f : Block → Block} (hf : ∀ c, NoNewTexts c (f c)) (path : KeyPath) (b : Block) :
    NoNewTexts b (b.modifyAt f path) := by
  induction path generalizing b with
  | nil => exact hf b
  | cons key rest ih =>
    refine ⟨fun text ht => (mem_mapChild ht).resolve_right nofun, fun hb k c hc => ?_⟩
    rcases eq_of_mem_mapChild hc with hc | ⟨c', hc', heq⟩
    · exact hb k c hc
    · obtain ⟨rfl, rfl⟩ := Node.ofBlock_inj.mp heq
      exact (ih c').textless (hb k c' hc')

/-! ### Resolution -/

variable {r : Registry} {base : Nat}

theorem expands {e : Expansion} {out : Except Error Expansion} (h : Expands r base e out) :
    ∀ e', out = .ok e' → NoNewTexts e.block e'.block := by
  induction h with
  | done _ =>
    rintro e' ⟨⟩
    exact refl _
  | step hi _ _ ih =>
    intro e' ho
    refine trans ?_ (trans (mergeFragment _ _) (ih e' ho))
    obtain ⟨-, ⟨-, hrest⟩ | ⟨c, -, -, hrest⟩⟩ := Registry.invocation?_cases hi <;> rw [hrest]
    · exact of_subset (List.Subset.refl _)
    · exact detach _ _
  | tooDeep => exact nofun

theorem resolves (h : Resolves r base b (.ok b')) : NoNewTexts b b' := by
  induction base, b using Registry.resolve_induction (r := r) generalizing b' with
  | step base b ih =>
    obtain ⟨e, hres, he, nodes, hall, rfl⟩ := h.exists_of_ok
    refine trans (expands he e rfl) ⟨fun text ht => ?_, fun hb key c hc => ?_⟩
    · obtain ⟨n, hn, hto⟩ := exists_resolvesTo hall ht
      cases hto
      exact hn
    · obtain ⟨n, hn, hto⟩ := exists_resolvesTo hall hc
      generalize hn' : Node.ofBlock key c = n' at hto
      cases hto with
      | raw => cases hn'
      | @rule key' ds cs c' hc' =>
        obtain ⟨-, rfl⟩ := Node.ofBlock_inj.mp hn'
        exact (ih e hres key' ds cs hn hc').textless (hb key' ⟨ds, cs⟩ hn)

end NoNewTexts

end Block

/-- In a document that operations build, raw texts stand at the root only. -/
theorem Document.Reached.textlessBelow {d : Document} (h : Reached d) : d.TextlessBelow := by
  induction h with
  | new => simp [Block.TextlessBelow]
  | merge _ _ hd ih => exact (Block.NoNewTexts.merge hd).below ih
  | mergeMap path slot _ _ ih => exact (Block.NoNewTexts.modifyAt (fun c => .mergeFields ⟨c, slot⟩ _) path _).below ih
  | mergeSequence path slot _ _ ih => exact (Block.NoNewTexts.modifyAt (fun c => .mergeItems ⟨c, slot⟩ _) path _).below ih
  | pushRaw text _ ih =>
    intro key c hc
    refine ih key c ((List.mem_append.mp hc).resolve_right fun hraw => ?_)
    cases List.mem_singleton.mp hraw
  | detach path key _ ih =>
    exact (Block.NoNewTexts.modifyAt (fun c => .detach c key) path _).below ih
  | @resolve d d' r _ _ hd ih => exact (Block.NoNewTexts.resolves (hd ▸ r.resolves_resolveBlock 0 d)).below ih

end StyleTree
