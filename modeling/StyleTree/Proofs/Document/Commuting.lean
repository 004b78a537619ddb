import StyleTree.Proofs.Document.Fields

/-! Fields that commute. A field changes what stands under its own key, and what it puts at an end: a new
    declaration or a new child. So a field may be merged before fields of other keys instead of behind
    them, if it puts nothing at an end where they put something too. -/

namespace StyleTree

/-! ### Lists of children -/

namespace Node
variable {n : Node} {k : String}

theorem key?_eq_some_iff : n.key? = some k ↔ ∃ c, n = .ofBlock k c := by
  cases n with
  | raw text => simp [key?, ofBlock]
  | rule key ds cs =>
    constructor
    · intro h
      exact ⟨⟨ds, cs⟩, by rw [ofBlock, Option.some.inj h]⟩
    · rintro ⟨c, hc⟩
      exact congrArg Node.key? hc

end Node

namespace Block
variable {b : Block} {n : Node} {children children' : List Node} {k k' : String} {v w : Json} {f g : Block → Block}
  {l : List (String × Json)}

theorem mapChild_cons_ofBlock (k : String) (f : Block → Block) (c : Block) (rest : List Node) :
    mapChild k f (.ofBlock k c :: rest) = .ofBlock k (f c) :: rest := by
  rw [Node.ofBlock, mapChild, if_pos rfl]

theorem mapChild_cons_of_ne (h : n.key? ≠ some k) (f : Block → Block) (rest : List Node) :
    mapChild k f (n :: rest) = n :: mapChild k f rest := by
  cases n with
  | raw text => rw [mapChild]
  | rule key ds cs => rw [mapChild, if_neg fun he => h (congrArg some he)]

theorem mapChild_mapChild (k : String) (f g : Block → Block) (children : List Node) :
    mapChild k f (mapChild k g children) = mapChild k (fun c => f (g c)) children := by
  induction children with
  | nil => rfl
  | cons n rest ih =>
    by_cases hn : n.key? = some k
    · obtain ⟨c, rfl⟩ := Node.key?_eq_some_iff.mp hn
      rw [mapChild_cons_ofBlock, mapChild_cons_ofBlock, mapChild_cons_ofBlock]
    · rw [mapChild_cons_of_ne hn, mapChild_cons_of_ne hn, mapChild_cons_of_ne hn, ih]

theorem mapChild_comm (hne : k ≠ k') (f g : Block → Block) (children : List Node) :
    mapChild k f (mapChild k' g children) = mapChild k' g (mapChild k f children) := by
  induction children with
  | nil => rfl
  | cons n rest ih =>
    by_cases hn : n.key? = some k
    · obtain ⟨c, rfl⟩ := Node.key?_eq_some_iff.mp hn
      have hother (c : Block) : (Node.ofBlock k c).key? ≠ some k' := fun he => hne (Option.some.inj he)
      rw [mapChild_cons_of_ne (hother c), mapChild_cons_ofBlock, mapChild_cons_ofBlock, mapChild_cons_of_ne (hother _)]
    · by_cases hn' : n.key? = some k'
      · obtain ⟨c, rfl⟩ := Node.key?_eq_some_iff.mp hn'
        have hother (c : Block) : (Node.ofBlock k' c).key? ≠ some k := fun he => hne (Option.some.inj he).symm
        rw [mapChild_cons_ofBlock, mapChild_cons_of_ne (hother _), mapChild_cons_of_ne (hother c), mapChild_cons_ofBlock]
      · rw [mapChild_cons_of_ne hn', mapChild_cons_of_ne hn, mapChild_cons_of_ne hn, mapChild_cons_of_ne hn', ih]

theorem mapChild_append (hk : k ∈ children.filterMap Node.key?) (f : Block → Block) (children' : List Node) :
    mapChild k f (children ++ children') = mapChild k f children ++ children' := by
  induction children with
  | nil => cases hk
  | cons n rest ih =>
    by_cases hn : n.key? = some k
    · obtain ⟨c, rfl⟩ := Node.key?_eq_some_iff.mp hn
      rw [List.cons_append, mapChild_cons_ofBlock, mapChild_cons_ofBlock, List.cons_append]
    · obtain ⟨m, hm, hmk⟩ := List.mem_filterMap.mp hk
      have hrest : k ∈ rest.filterMap Node.key? := by
        rcases List.mem_cons.mp hm with rfl | hm
        · exact absurd hmk hn
        · exact List.mem_filterMap.mpr ⟨m, hm, hmk⟩
      rw [List.cons_append, mapChild_cons_of_ne hn, mapChild_cons_of_ne hn, List.cons_append, ih hrest]

theorem mapChild_append_of_not_mem (hk : k ∉ children.filterMap Node.key?) (f : Block → Block) (children' : List Node) :
    mapChild k f (children ++ children') = children ++ mapChild k f children' := by
  induction children with
  | nil => rfl
  | cons n rest ih =>
    have hn : n.key? ≠ some k := fun he => hk (List.mem_filterMap.mpr ⟨n, List.mem_cons_self, he⟩)
    have hrest : k ∉ rest.filterMap Node.key? := fun hm => by
      obtain ⟨m, hm, hmk⟩ := List.mem_filterMap.mp hm
      exact hk (List.mem_filterMap.mpr ⟨m, List.mem_cons_of_mem _ hm, hmk⟩)
    rw [List.cons_append, mapChild_cons_of_ne hn, ih hrest, List.cons_append]

theorem mapChild_filter (hne : k ≠ k') (f : Block → Block) (children : List Node) :
    (mapChild k f children).filter (fun n => !n.hasKey k') = mapChild k f (children.filter fun n => !n.hasKey k') := by
  induction children with
  | nil => rfl
  | cons n rest ih =>
    by_cases hn : n.key? = some k
    · obtain ⟨c, rfl⟩ := Node.key?_eq_some_iff.mp hn
      have hkept (c : Block) : (!(Node.ofBlock k c).hasKey k') = true := by simp [Node.hasKey, hne]
      rw [mapChild_cons_ofBlock, List.filter_cons, List.filter_cons, if_pos (hkept _), if_pos (hkept c),
        mapChild_cons_ofBlock]
    · rw [mapChild_cons_of_ne hn, List.filter_cons, List.filter_cons, ih]
      split
      · rw [mapChild_cons_of_ne hn]
      · rfl

/-! ### Two fields -/

theorem declare_declare (b : Block) (k : String) (v w : Json) : (b.declare k v).declare k w = b.declare k w := by
  simp only [declare, detach, Assoc.put_put, List.filter_filter, Bool.and_self]

/-- Two declarations commute if the later one is a new value in an old place. -/
theorem declare_comm (hne : k ≠ k') (hk : k ∈ b.declared) (v w : Json) :
    (b.declare k' w).declare k v = (b.declare k v).declare k' w := by
  simp only [declare, detach, Assoc.put_comm hne.symm hk]
  rw [List.filter_comm]

theorem declare_openChild (hne : k ≠ k') (v : Json) (f : Block → Block) :
    (b.openChild k' f).declare k v = (b.declare k v).openChild k' f := by
  by_cases hk' : k' ∈ b.childKeys
  · rw [openChild_of_mem hk', openChild_of_mem (mem_childKeys_declare.mpr ⟨hne.symm, hk'⟩)]
    simp only [declare, detach, mapChild_filter hne.symm]
  · have hkept (c : Block) : (!(Node.ofBlock k' c).hasKey k) = true := by simp [Node.hasKey, hne.symm]
    rw [openChild_of_not_mem hk', openChild_of_not_mem fun h => hk' (mem_childKeys_declare.mp h).2]
    simp only [declare, detach, Assoc.erase_put_of_ne hne, List.filter_append, List.filter_singleton, hkept,
      cond_true]

theorem openChild_openChild (b : Block) (k : String) (f g : Block → Block) :
    (b.openChild k g).openChild k f = b.openChild k fun c => f (g c) := by
  rw [openChild_of_mem (mem_childKeys_openChild.mpr (.inl rfl))]
  by_cases hk : k ∈ b.childKeys
  · rw [openChild_of_mem hk, openChild_of_mem hk, mapChild_mapChild]
  · rw [openChild_of_not_mem hk, openChild_of_not_mem hk, mapChild_append_of_not_mem hk, mapChild_cons_ofBlock]

/-- Two children that are opened commute if the later one is an old child. -/
theorem openChild_comm (hne : k ≠ k') (hk : k ∈ b.childKeys) (f g : Block → Block) :
    (b.openChild k' g).openChild k f = (b.openChild k f).openChild k' g := by
  rw [openChild_of_mem (mem_childKeys_openChild.mpr (.inr hk))]
  by_cases hk' : k' ∈ b.childKeys
  · rw [openChild_of_mem (mem_childKeys_openChild.mpr (.inr hk')), openChild_of_mem hk', openChild_of_mem hk,
      mapChild_comm hne]
  · have hnew : k' ∉ (b.openChild k f).childKeys := fun h =>
      (mem_childKeys_openChild.mp h).elim (fun he => hne he.symm) hk'
    rw [openChild_of_not_mem hnew, openChild_of_not_mem hk', openChild_of_mem hk, mapChild_append hk]

/-! ### A field before others -/

/-- A declaration may come before fields of other keys, if it takes an old place or these fields open children
    only. -/
theorem declare_mergeFields (hl : k ∉ l.map (·.1)) (h : (∀ e ∈ l, e.2.isFragment = true) ∨ k ∈ b.declared) (v : Json) :
    (b.mergeFields l).declare k v = (b.declare k v).mergeFields l := by
  induction l generalizing b with
  | nil => rw [mergeFields_nil, mergeFields_nil]
  | cons e l ih =>
    obtain ⟨hne, hl⟩ : k ≠ e.1 ∧ k ∉ l.map (·.1) := by simpa using hl
    rw [mergeFields_cons, mergeFields_cons (b.declare k v)]
    cases he : e.2.isFragment with
    | true =>
      rw [mergeFields_of_isFragment b e.1 he, mergeFields_of_isFragment _ e.1 he, ih hl ?_, declare_openChild hne]
      exact h.imp (fun h e he => h e (List.mem_cons_of_mem _ he)) (mem_declared_openChild_of_ne hne _).mpr
    | false =>
      have hk : k ∈ b.declared := h.resolve_left fun h => Bool.false_ne_true (he.symm.trans (h e List.mem_cons_self))
      rw [mergeFields_of_leaf b e.1 he, mergeFields_of_leaf _ e.1 he, ih hl (.inr (mem_declared_declare.mpr (.inl hk))),
        declare_comm hne hk]

/-- A child that is there may be opened before fields of other keys. -/
theorem openChild_mergeFields (hl : k ∉ l.map (·.1)) (hk : k ∈ b.childKeys) (f : Block → Block) :
    (b.mergeFields l).openChild k f = (b.openChild k f).mergeFields l := by
  induction l generalizing b with
  | nil => rw [mergeFields_nil, mergeFields_nil]
  | cons e l ih =>
    obtain ⟨hne, hl⟩ : k ≠ e.1 ∧ k ∉ l.map (·.1) := by simpa using hl
    rw [mergeFields_cons, mergeFields_cons (b.openChild k f)]
    cases he : e.2.isFragment with
    | true =>
      rw [mergeFields_of_isFragment b e.1 he, mergeFields_of_isFragment _ e.1 he,
        ih hl (mem_childKeys_openChild.mpr (.inr hk)), openChild_comm hne hk]
    | false =>
      rw [mergeFields_of_leaf b e.1 he, mergeFields_of_leaf _ e.1 he, ih hl (mem_childKeys_declare.mpr ⟨hne, hk⟩),
        declare_openChild hne.symm]

end Block

end StyleTree
