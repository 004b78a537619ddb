import StyleTree.Proofs.Resolution.Run

/-! Resolution reaches a fixpoint: where it succeeds, no block of the result invokes an extension, and a
    document without invocations is left as it is. The keys of a block are settled before its children
    are resolved, and resolving a child changes neither its key nor anything beside or above it. -/

namespace StyleTree

/-- The blocks of a tree: its root, and the blocks below. -/
inductive Block.Reaches : Block → Block → Prop
  | refl (b : Block) : Reaches b b
  | child {b c : Block} {key : String} {declarations : List (String × Json)} {children : List Node} :
      .rule key declarations children ∈ b.children → Reaches ⟨declarations, children⟩ c → Reaches b c

namespace Registry
variable {r : Registry}

/-- No block of the tree has a registered name among its declaration keys and child keys. -/
def Quiet (r : Registry) (b : Block) : Prop := ∀ c, b.Reaches c → ∀ key ∈ c.keys, r.contains key = false

theorem Quiet.child {b : Block} (h : r.Quiet b) {key : String} {declarations : List (String × Json)}
    {children : List Node} (hn : .rule key declarations children ∈ b.children) : r.Quiet ⟨declarations, children⟩ :=
  fun c hc => h c (.child hn hc)

theorem Quiet.of_children {b : Block} (hb : ∀ key ∈ b.keys, r.contains key = false)
    (hc : ∀ key declarations children, .rule key declarations children ∈ b.children →
      r.Quiet ⟨declarations, children⟩) : r.Quiet b := by
  intro c hr
  cases hr with
  | refl => exact hb
  | child hn hr => exact hc _ _ _ hn c hr

/-! ### Invocations -/

theorem firstDeclared?_eq_none_iff {i : Nat} {ds : List (String × Json)} :
    r.firstDeclared? i ds = none ↔ ∀ key ∈ ds.map (·.1), r.contains key = false := by
  induction ds generalizing i with
  | nil => simp [firstDeclared?]
  | cons d rest ih =>
    obtain ⟨key, value⟩ := d
    rw [firstDeclared?, List.map_cons, List.forall_mem_cons, contains]
    cases hk : r.get? key with
    | none => simpa using ih
    | some f => simp

theorem firstChild?_eq_none_iff {children : List Node} :
    r.firstChild? children = none ↔ ∀ key ∈ children.filterMap Node.key?, r.contains key = false := by
  induction children with
  | nil => simp [firstChild?]
  | cons n rest ih =>
    cases n with
    | raw text => rw [firstChild?, ih, List.filterMap_cons_none rfl]
    | rule key declarations children =>
      have hkey : (Node.rule key declarations children).key? = some key := rfl
      rw [firstChild?, List.filterMap_cons_some hkey, List.forall_mem_cons, contains]
      cases hk : r.get? key with
      | none => simpa using ih
      | some f => simp

theorem invocation?_eq_none_iff {b : Block} : r.invocation? b = none ↔ ∀ key ∈ b.keys, r.contains key = false := by
  rw [Block.keys, List.forall_mem_append, Block.declared, Block.childKeys, ← firstDeclared?_eq_none_iff (i := 0),
    ← firstChild?_eq_none_iff, invocation?]
  cases hd : r.firstDeclared? 0 b.declarations with
  | some x => simp
  | none => cases hc : r.firstChild? b.children <;> simp

/-- Expansion goes on until no key of the block is registered. -/
theorem invocation?_of_expands {base : Nat} {e e' : Expansion} {out : Except Error Expansion}
    (h : Expands r base e out) (ho : out = .ok e') : r.invocation? e'.block = none := by
  induction h with
  | done hi =>
    cases ho
    exact hi
  | step _ _ _ ih => exact ih ho
  | tooDeep => cases ho

theorem expand_of_invocation?_eq_none {base : Nat} {e : Expansion} (h : r.invocation? e.block = none) :
    r.expand base e = pure e := by
  rw [expand]
  split
  · rfl
  · next hi => cases h.symm.trans hi

/-- Where no key of a block is registered, only its children are resolved, all at its depth. -/
theorem resolveBlock_of_not_contains {base : Nat} {b : Block} (h : ∀ key ∈ b.keys, r.contains key = false) :
    r.resolveBlock base b = (do return ⟨b.declarations, ← b.children.mapM (r.resolveNode fun _ => base)⟩) := by
  have he : r.expand base ⟨b, []⟩ = pure ⟨b, []⟩ := expand_of_invocation?_eq_none (invocation?_eq_none_iff.mpr h)
  rw [resolveBlock_eq, he, pure_bind]
  rfl

/-! ### Resolved blocks -/

/-- A resolved block is quiet: its keys are those that its expansion left, and its children are resolved. -/
theorem quiet_of_resolves {base : Nat} {b b' : Block} (h : Resolves r base b (.ok b')) : r.Quiet b' := by
  induction base, b using resolve_induction (r := r) generalizing b' with
  | step base b ih =>
    obtain ⟨e, hres, he, nodes, hall, rfl⟩ := h.exists_of_ok
    have hkeys := keys_of_resolvesTo e.block.declarations hall
    refine .of_children (hkeys ▸ invocation?_eq_none_iff.mp (invocation?_of_expands he rfl)) ?_
    intro key declarations children hn
    obtain ⟨n, hm, hto⟩ := exists_resolvesTo hall hn
    cases hto with
    | rule hb => exact ih e hres _ _ _ hm hb

theorem mapM_eq_pure {α : Type} {f : α → Report α} {l : List α} (h : ∀ a ∈ l, f a = pure a) : l.mapM f = pure l := by
  induction l with
  | nil => rfl
  | cons a rest ih =>
    rw [List.mapM_cons, h a List.mem_cons_self, ih fun b hb => h b (List.mem_cons_of_mem _ hb)]
    rfl

theorem resolveBlock_of_quiet {base : Nat} {b : Block} (h : r.Quiet b) : r.resolveBlock base b = pure b := by
  induction base, b using resolve_induction (r := r) with
  | step base b ih =>
    have hexpand : (r.expand base ⟨b, []⟩).result = .ok ⟨b, []⟩ :=
      congrArg Report.result (expand_of_invocation?_eq_none (invocation?_eq_none_iff.mpr (h b (.refl b))))
    have hc : ∀ n ∈ b.children, r.resolveNode (fun _ => base) n = pure n := by
      intro n hn
      cases n with
      | raw text => rfl
      | rule key declarations children =>
        have hchild := ih ⟨b, []⟩ hexpand key declarations children hn (h.child hn)
        rw [resolveNode, show r.resolveBlock base ⟨declarations, children⟩ = _ from hchild]
        rfl
    rw [resolveBlock_of_not_contains (h b (.refl b)), mapM_eq_pure hc, pure_bind]

end Registry

/-- Where resolution succeeds, no block of the result has a registered name among its keys, and resolving
    it again gives it back. A document without a registered name among the keys of its blocks is given
    back as it is. -/
theorem resolve_reaches_fixpoint (r : Registry) (d : Document) :
    (∀ d', (r.resolve d).result = .ok d' → r.Quiet d' ∧ r.resolve d' = pure d') ∧
      (r.Quiet d → r.resolve d = pure d) := by
  refine ⟨fun d' h => ?_, Registry.resolveBlock_of_quiet⟩
  have hq : r.Quiet d' := Registry.quiet_of_resolves (h ▸ r.resolves_resolveBlock 0 d)
  exact ⟨hq, Registry.resolveBlock_of_quiet hq⟩

end StyleTree
