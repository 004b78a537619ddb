import StyleTree.Extension.Expand

/-! Resolving a document: the invocations of the root are expanded first, then those of each child, and so
    on down. A child is resolved at the depth of its key, so the keys below a child that an expansion has
    touched count as deep as the expansion.

    This ends because a child is either one that no expansion touched, and then a part of the block as it
    was, or its depth is greater than that of its block, which cannot go on beyond the greatest depth. -/

namespace StyleTree

/-! ### What an expansion leaves -/

namespace Expansion

/-- How far a block under expansion can be from the block `b` it came from: the keys touched are deeper
    than the block, and the children under other keys are those of `b`. -/
structure From (base : Nat) (b : Block) (e : Expansion) : Prop where
  depth : ∀ {k d}, Assoc.get? e.depths k = some d → base < d ∧ d ≤ maxDepth
  child : ∀ {n k}, n ∈ e.block.children → n.key? = some k → Assoc.get? e.depths k = none → n ∈ b.children

variable {r : Registry} {base : Nat} {b : Block} {e : Expansion} {inv : Invocation}

theorem From.start (base : Nat) (b : Block) : From base b ⟨b, []⟩ where
  depth h := nomatch h
  child h _ _ := h

theorem From.le_depthOf (h : From base b e) (k : String) : base ≤ e.depthOf base k := by
  rw [depthOf]
  cases hk : Assoc.get? e.depths k with
  | none => exact Nat.le_refl _
  | some d => exact Nat.le_of_lt (h.depth hk).1

theorem mem_children_rest (h : r.invocation? b = some inv) {n : Node} (hn : n ∈ inv.rest.block.children) :
    n ∈ b.children := by
  rw [Registry.invocation?] at h
  split at h
  · rw [← Option.some.inj h] at hn
    exact hn
  · split at h
    · rw [← Option.some.inj h] at hn
      exact (List.mem_filter.mp hn).1
    · cases h

theorem mem_children_mergeFragment {s : Splice} {v : Json} {n : Node} {k : String}
    (hn : n ∈ (s.mergeFragment v).block.children) (hk : n.key? = some k) (hv : k ∉ v.fragmentKeys) :
    n ∈ s.block.children := by
  rcases s.mergeFragment_eq v with h | h <;> rw [h] at hn
  · rcases Splice.mem_children_foldl hn with hn | ⟨m, hm, k', hk', hn⟩
    · exact hn
    · cases hk.symm.trans hn
      exact absurd (List.mem_flatMap.mpr ⟨m, hm, hk'⟩) hv
  · exact hn

theorem From.apply (h : From base b e) (hi : r.invocation? e.block = some inv)
    (hd : e.depthOf base inv.name < maxDepth) : From base b (e.apply (e.depthOf base inv.name) inv) where
  depth := by
    intro k d hk
    rw [Expansion.apply, get?_map_append] at hk
    split at hk
    · cases hk
      exact ⟨Nat.lt_succ_of_le (h.le_depthOf _), hd⟩
    · exact h.depth hk
  child := by
    intro n k hn hkey hk
    rw [Expansion.apply, get?_map_append] at hk
    split at hk
    · cases hk
    · next hv => exact h.child (mem_children_rest hi (mem_children_mergeFragment hn hkey hv)) hkey hk

end Expansion

/-- What an expansion leaves of the block is not far from it. -/
theorem Registry.from_of_expand {r : Registry} {base : Nat} {b : Block} {e e' : Expansion}
    (hf : e.From base b) (h : (r.expand base e).result = .ok e') : e'.From base b := by
  fun_induction Registry.expand r base e with
  | case1 e hi => cases h; exact hf
  | case2 e inv hi hd ih =>
    rw [Report.result_bind] at h
    exact ih (hf.apply hi hd) h
  | case3 e inv hi hd => cases h

/-- A child that is resolved is less than its block: deeper, or a part of it. -/
theorem Expansion.From.child_lt {base : Nat} {b : Block} {e : Expansion} (hf : e.From base b) {key : String}
    {declarations : List (String × Json)} {children : List Node}
    (hn : Node.rule key declarations children ∈ e.block.children) :
    maxDepth - e.depthOf base key < maxDepth - base ∨
      e.depthOf base key = base ∧ sizeOf (Block.mk declarations children) < sizeOf b := by
  rw [depthOf]
  cases hk : Assoc.get? e.depths key with
  | some d => exact .inl (by have := hf.depth hk; simp only [Option.getD_some]; omega)
  | none =>
    refine .inr ⟨rfl, ?_⟩
    have hlt := List.sizeOf_lt_of_mem (hf.child hn rfl hk)
    cases b
    simp only [Node.rule.sizeOf_spec, Block.mk.sizeOf_spec] at hlt ⊢
    omega

/-! ### Resolution -/

/-- Resolves a block at depth `base`: its own invocations and then its children, in order. -/
def Registry.resolveBlock (r : Registry) (base : Nat) (b : Block) : Report Block :=
  match _ : r.expand base ⟨b, []⟩ with
  | ⟨warnings, .error fault⟩ => ⟨warnings, .error fault⟩
  | ⟨warnings, .ok e⟩ => do
    Report.warnAll warnings
    let children ← e.block.children.attach.mapM fun
      | ⟨.raw text, _⟩ => pure (.raw text)
      | ⟨.rule key declarations children, _⟩ => do
        return .ofBlock key (← r.resolveBlock (e.depthOf base key) ⟨declarations, children⟩)
    return ⟨e.block.declarations, children⟩
termination_by (maxDepth - base, sizeOf b)
decreasing_by
  have hf : e.From base b := from_of_expand (.start base b) (congrArg Report.result ‹r.expand base ⟨b, []⟩ = _›)
  rcases hf.child_lt ‹_› with h | ⟨h, h'⟩
  · exact Prod.Lex.left _ _ h
  · rw [h]; exact Prod.Lex.right _ h'

/-- Resolves a child at the depth of its key. -/
def Registry.resolveNode (r : Registry) (depthOf : String → Nat) : Node → Report Node
  | .raw text => pure (.raw text)
  | .rule key declarations children => do
    return .ofBlock key (← r.resolveBlock (depthOf key) ⟨declarations, children⟩)

theorem Registry.resolveBlock_eq (r : Registry) (base : Nat) (b : Block) :
    r.resolveBlock base b = (do
      let e ← r.expand base ⟨b, []⟩
      let children ← e.block.children.mapM (r.resolveNode (e.depthOf base))
      return ⟨e.block.declarations, children⟩) := by
  rw [resolveBlock]
  split
  · next h => rw [h]; rfl
  · next warnings e h =>
    have hc : (e.block.children.attach.mapM fun
        | ⟨.raw text, _⟩ => pure (.raw text)
        | ⟨.rule key declarations children, _⟩ => do
          return .ofBlock key (← r.resolveBlock (e.depthOf base key) ⟨declarations, children⟩)) =
        e.block.children.mapM (r.resolveNode (e.depthOf base)) := by
      rw [List.mapM_subtype (g := r.resolveNode (e.depthOf base)) (by rintro (_ | _) _ <;> rfl), List.unattach_attach]
    rw [h, hc]
    rfl

/-- Resolves a document: every invocation at every depth is expanded. -/
def Registry.resolve (r : Registry) (d : Document) : Report Document := r.resolveBlock 0 d

end StyleTree
