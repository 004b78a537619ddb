import StyleTree.Proofs.Document.WellFormed
import StyleTree.Proofs.Resolution.Run

/-! Documents as operations build them. A document starts empty and takes submissions, merges into any of
    its blocks with or without a slot, raw texts, detachments and resolutions, in any order. Every document
    so built is well formed. -/

namespace StyleTree

/-! ### Resolution -/

namespace Registry
variable {r : Registry} {b : Block} {inv : Invocation}

/-- Extensions give values in which no map has a key twice, if their arguments are such values. -/
def Sound (r : Registry) : Prop :=
  ∀ name f, r.get? name = some f → ∀ v : Json, v.WellFormed → (f v).WellFormed

theorem exists_child_of_firstChild? {children : List Node} {name : String} {value : Json} {f : Extension}
    (h : r.firstChild? children = some (name, value, f)) : ∃ c, .ofBlock name c ∈ children ∧ value = c.toValue := by
  induction children with
  | nil => cases h
  | cons n rest ih =>
    have later (h : r.firstChild? rest = some (name, value, f)) :
        ∃ c, .ofBlock name c ∈ n :: rest ∧ value = c.toValue := by
      obtain ⟨c, hc, hv⟩ := ih h
      exact ⟨c, List.mem_cons_of_mem _ hc, hv⟩
    cases n with
    | raw text => exact later h
    | rule key ds cs =>
      rw [firstChild?] at h
      split at h
      · cases h
        exact ⟨⟨ds, cs⟩, List.mem_cons_self, rfl⟩
      · exact later h

/-- An invocation calls the extension of its name, on the value of a declaration or on the map of a child,
    and takes it away. -/
theorem invocation?_cases (h : r.invocation? b = some inv) :
    r.get? inv.name = some inv.extension ∧
      (((inv.name, inv.argument) ∈ b.declarations ∧
          inv.rest.block = ⟨Assoc.erase b.declarations inv.name, b.children⟩) ∨
        (∃ c, .ofBlock inv.name c ∈ b.children ∧ inv.argument = c.toValue ∧ inv.rest.block = b.detach inv.name)) := by
  rw [invocation?] at h
  split at h
  · next hd =>
    cases h
    obtain ⟨hm, hf⟩ := firstDeclared?_eq_some hd
    exact ⟨hf, .inl ⟨hm, rfl⟩⟩
  · split at h
    · next hc =>
      cases h
      obtain ⟨c, hm, hv⟩ := exists_child_of_firstChild? hc
      exact ⟨(firstChild?_eq_some hc).2, .inr ⟨c, hm, hv, rfl⟩⟩
    · cases h

end Registry

section
variable {r : Registry} {base : Nat}

theorem Block.WellFormed.argument {b : Block} (h : b.WellFormed) {inv : Invocation} (hi : r.invocation? b = some inv) :
    inv.argument.WellFormed := by
  obtain ⟨-, ⟨hm, -⟩ | ⟨c, hc, hv, -⟩⟩ := Registry.invocation?_cases hi
  · exact (h.leaf _ hm).1
  · exact hv ▸ (h.child hc).toValue

theorem Registry.Sound.fragment (hr : r.Sound) {b : Block} (hb : b.WellFormed) {inv : Invocation}
    (hi : r.invocation? b = some inv) : inv.fragment.WellFormed :=
  hr _ _ (invocation?_cases hi).1 _ (hb.argument hi)

/-- An expansion whose result is such a value keeps a block well formed. -/
theorem Block.WellFormed.apply {e : Expansion} (h : e.block.WellFormed) {inv : Invocation}
    (hi : r.invocation? e.block = some inv) (hf : inv.fragment.WellFormed) (d : Nat) :
    (e.apply d inv).block.WellFormed := by
  refine WellFormed.mergeFragment hf ?_
  obtain ⟨-, ⟨-, hr⟩ | ⟨c, -, -, hr⟩⟩ := Registry.invocation?_cases hi <;> rw [hr]
  · exact h.sublist List.filter_sublist (.refl _)
  · exact h.detach _

theorem Expands.wellFormed (hr : r.Sound) {e e' : Expansion} {out : Except Error Expansion}
    (h : Expands r base e out) (hb : e.block.WellFormed) (ho : out = .ok e') : e'.block.WellFormed := by
  induction h with
  | done _ =>
    cases ho
    exact hb
  | step hi _ _ ih => exact ih (hb.apply hi (hr.fragment hb hi) _) ho
  | tooDeep => cases ho

/-- Resolution keeps a block well formed: its expansions keep its keys distinct, and resolving the children
    does not change their keys. -/
theorem Resolves.wellFormed (hr : r.Sound) {b b' : Block} (h : Resolves r base b (.ok b')) (hb : b.WellFormed) :
    b'.WellFormed := by
  induction base, b using Registry.resolve_induction (r := r) generalizing b' with
  | step base b ih =>
    obtain ⟨e, hres, he, nodes, hall, rfl⟩ := h.exists_of_ok
    have hwf : e.block.WellFormed := he.wellFormed hr hb rfl
    refine .intro ?_ hwf.leaf fun key c hn => ?_
    · rw [keys_of_resolvesTo e.block.declarations hall]
      exact hwf.keys
    · obtain ⟨n, hm, hto⟩ := exists_resolvesTo hall hn
      generalize hn' : Node.ofBlock key c = n' at hto
      cases hto with
      | raw => cases hn'
      | @rule key' ds cs c' hc' =>
        obtain ⟨-, rfl⟩ := Node.ofBlock_inj.mp hn'
        exact ih e hres key' ds cs hm hc' (hwf.child hm)

end

/-! ### Operations -/

/-- The documents that operations build. -/
inductive Document.Reached : Document → Prop
  | new : Reached {}
  | merge {d d' : Document} {v : Json} : Reached d → v.WellFormed → d.merge v = .ok d' → Reached d'
  | mergeMap {d : Document} {fields : List (String × Json)} (path : KeyPath) (slot : Option Nat) : Reached d →
      (Json.obj fields).WellFormed → Reached (d.modifyAt (fun b => (Splice.mergeFields ⟨b, slot⟩ fields).block) path)
  | mergeSequence {d : Document} {items : List Json} (path : KeyPath) (slot : Option Nat) : Reached d →
      (Json.arr items).WellFormed → Reached (d.modifyAt (fun b => (Splice.mergeItems ⟨b, slot⟩ items).block) path)
  | pushRaw {d : Document} (text : String) : Reached d → Reached (d.pushRaw text)
  | detach {d : Document} (path : KeyPath) (key : String) : Reached d → Reached (d.modifyAt (·.detach key) path)
  | resolve {d d' : Document} {r : Registry} : Reached d → r.Sound → (r.resolve d).result = .ok d' → Reached d'

theorem Block.WellFormed.mergeObj {fields : List (String × Json)} (hv : (Json.obj fields).WellFormed) {s : Splice}
    (h : s.block.WellFormed) : (s.mergeFields fields).block.WellFormed :=
  h.mergeFields hv (List.mem_singleton.mpr rfl)

theorem Block.WellFormed.mergeItems {items : List Json} (hv : (Json.arr items).WellFormed) {s : Splice}
    (h : s.block.WellFormed) : (s.mergeItems items).block.WellFormed := by
  rw [Splice.mergeItems_eq_foldl]
  exact List.foldlRecOn (motive := fun t : Splice => t.block.WellFormed) _ _ h fun t ht m hm => ht.mergeFields hv hm

theorem Block.WellFormed.merge {d d' : Document} (h : d.WellFormed) {v : Json} (hv : v.WellFormed)
    (hd : d.merge v = .ok d') : d'.WellFormed := by
  cases v with
  | obj fields =>
    cases hd
    exact WellFormed.mergeObj hv h
  | arr items =>
    rw [Block.merge] at hd
    split at hd
    · cases hd
      exact WellFormed.mergeItems hv h
    · split at hd
      · cases hd
        exact h
      · cases hd
  | null | bool _ | num _ | str _ => cases hd

/-- Every document that operations build is well formed. -/
theorem Document.Reached.wellFormed {d : Document} (h : Reached d) : d.WellFormed := by
  induction h with
  | new => exact .empty
  | merge _ hv hd ih => exact ih.merge hv hd
  | mergeMap path slot _ hv ih => exact ih.modifyAt path fun c hc => .mergeObj hv hc
  | mergeSequence path slot _ hv ih => exact ih.modifyAt path fun c hc => .mergeItems hv hc
  | pushRaw text _ ih => exact ih.pushRaw text
  | detach path key _ ih => exact ih.modifyAt path fun c hc => hc.detach key
  | @resolve d d' r _ hr hd ih => exact Resolves.wellFormed hr (hd ▸ r.resolves_resolveBlock 0 d) ih

end StyleTree
