import StyleTree.Proofs.Resolution.Run

/-! How a resolution ends: with a document, or with a registered name that is still expanding at the
    greatest depth. No key is deeper than that, since an expansion takes a key of a lesser depth. -/

namespace StyleTree

/-- A result, or the error that a registered name is still expanding at the greatest depth. -/
def OkOrCyclic (r : Registry) {α : Type} (out : Except Error α) : Prop :=
  (∃ a, out = .ok a) ∨ ∃ name, r.contains name = true ∧ out = .error (.cyclicExtension name maxDepth)

section
variable {r : Registry} {α β : Type}

theorem OkOrCyclic.map {out : Except Error α} (h : OkOrCyclic r out) (f : α → β) : OkOrCyclic r (out.map f) := by
  rcases h with ⟨a, rfl⟩ | ⟨name, hn, rfl⟩
  · exact .inl ⟨f a, rfl⟩
  · exact .inr ⟨name, hn, rfl⟩

/-- A fault that ends a run ends the run around it. -/
theorem OkOrCyclic.of_error {fault : Error} (h : OkOrCyclic r (.error fault : Except Error α)) :
    OkOrCyclic r (.error fault : Except Error β) := by
  rcases h with ⟨a, ha⟩ | ⟨name, hn, ha⟩
  · cases ha
  · cases ha
    exact .inr ⟨name, hn, rfl⟩

theorem Expansion.From.depthOf_le {base : Nat} {b : Block} {e : Expansion} (h : e.From base b)
    (hb : base ≤ maxDepth) (k : String) : e.depthOf base k ≤ maxDepth := by
  rw [depthOf]
  cases hk : Assoc.get? e.depths k with
  | none => exact hb
  | some d => exact (h.depth hk).2

theorem Expands.okOrCyclic {base : Nat} {b : Block} {e : Expansion} {out : Except Error Expansion}
    (h : Expands r base e out) (hf : e.From base b) (hb : base ≤ maxDepth) : OkOrCyclic r out := by
  induction h with
  | done _ => exact .inl ⟨_, rfl⟩
  | step hi hd _ ih => exact ih (hf.apply hi hd)
  | @tooDeep e inv hi hd =>
    have heq : e.depthOf base inv.name = maxDepth := Nat.le_antisymm (hf.depthOf_le hb inv.name) hd
    exact .inr ⟨inv.name, Registry.contains_invocation hi, by rw [heq]⟩

theorem ResolvesAll.okOrCyclic {depthOf : String → Nat} {nodes : List Node} {out : Except Error (List Node)}
    (hc : ∀ key declarations children, Node.rule key declarations children ∈ nodes → ∀ {out},
      Resolves r (depthOf key) ⟨declarations, children⟩ out → OkOrCyclic r out)
    (h : ResolvesAll r depthOf nodes out) : OkOrCyclic r out := by
  cases out with
  | ok nodes' => exact .inl ⟨nodes', rfl⟩
  | error fault =>
    obtain ⟨key, ds, cs, hm, hb⟩ := h.exists_of_error
    exact (hc key ds cs hm hb).of_error

theorem Resolves.okOrCyclic {base : Nat} {b : Block} {out : Except Error Block} (h : Resolves r base b out)
    (hb : base ≤ maxDepth) : OkOrCyclic r out := by
  induction base, b using Registry.resolve_induction (r := r) generalizing out with
  | step base b ih =>
    cases h with
    | stuck he => exact (he.okOrCyclic (.start base b) hb).of_error
    | @expanded _ _ e _ he hc =>
      have hr : (r.expand base ⟨b, []⟩).result = .ok e := (r.expands_expand base ⟨b, []⟩).unique he
      have hf : e.From base b := Registry.from_of_expand (.start base b) hr
      have := hc.okOrCyclic fun key declarations children hn _ h =>
        ih e hr key declarations children hn h (hf.depthOf_le hb key)
      exact this.map _

end

/-- Whatever the document and the extensions, resolution has exactly one run. Its outcome is the one that is
    computed, and is a document or the error that a registered name is still expanding at the greatest
    depth. -/
theorem resolve_ends (r : Registry) (d : Document) :
    ∃ out, Resolves r 0 d out ∧ (∀ out', Resolves r 0 d out' → out' = out) ∧ (r.resolve d).result = out ∧
      ((∃ d', out = .ok d') ∨
        ∃ name, r.contains name = true ∧ out = .error (.cyclicExtension name maxDepth)) := by
  have h := r.resolves_resolveBlock 0 d
  exact ⟨(r.resolveBlock 0 d).result, h, fun out' h' => h'.unique h, rfl, h.okOrCyclic (Nat.zero_le _)⟩

end StyleTree
