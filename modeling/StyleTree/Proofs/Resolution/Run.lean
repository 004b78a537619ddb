import Mathlib.Data.List.Forall2
import StyleTree.Extension.Resolve

/-! Runs of the resolution as derivations. A derivation lists the expansions of a block one after the other
    and then the derivations of its children. It knows of no measure, so that there is one for every
    document is what makes a run end. -/

namespace StyleTree

namespace Report
variable {α β : Type}

theorem result_mapM_cons (f : α → Report β) (a : α) (l : List α) :
    ((a :: l).mapM f).result = (f a).result.bind fun b => (l.mapM f).result.map (b :: ·) := by
  rw [List.mapM_cons, result_bind]
  refine congrArg _ (funext fun b => ?_)
  rw [result_bind]
  cases (l.mapM f).result <;> rfl

end Report

/-! ### Derivations -/

/-- A run of the expansions of one block, and its outcome. -/
inductive Expands (r : Registry) (base : Nat) : Expansion → Except Error Expansion → Prop
  | done {e} : r.invocation? e.block = none → Expands r base e (.ok e)
  | step {e inv out} : r.invocation? e.block = some inv → e.depthOf base inv.name < maxDepth →
      Expands r base (e.apply (e.depthOf base inv.name) inv) out → Expands r base e out
  | tooDeep {e inv} : r.invocation? e.block = some inv → maxDepth ≤ e.depthOf base inv.name →
      Expands r base e (.error (.cyclicExtension inv.name (e.depthOf base inv.name)))

mutual

/-- A run of the resolution of a block at a depth, and its outcome. -/
inductive Resolves (r : Registry) : Nat → Block → Except Error Block → Prop
  | stuck {base b fault} : Expands r base ⟨b, []⟩ (.error fault) → Resolves r base b (.error fault)
  | expanded {base b e out} : Expands r base ⟨b, []⟩ (.ok e) →
      ResolvesAll r (e.depthOf base) e.block.children out → Resolves r base b (out.map (⟨e.block.declarations, ·⟩))

/-- A run over the children of a block, each at the depth of its key. It stops at the first failure. -/
inductive ResolvesAll (r : Registry) : (String → Nat) → List Node → Except Error (List Node) → Prop
  | nil {depthOf} : ResolvesAll r depthOf [] (.ok [])
  | raw {depthOf text rest out} : ResolvesAll r depthOf rest out →
      ResolvesAll r depthOf (.raw text :: rest) (out.map (.raw text :: ·))
  | stuck {depthOf key declarations children rest fault} :
      Resolves r (depthOf key) ⟨declarations, children⟩ (.error fault) →
      ResolvesAll r depthOf (.rule key declarations children :: rest) (.error fault)
  | rule {depthOf key declarations children rest b out} :
      Resolves r (depthOf key) ⟨declarations, children⟩ (.ok b) → ResolvesAll r depthOf rest out →
      ResolvesAll r depthOf (.rule key declarations children :: rest) (out.map (.ofBlock key b :: ·))

end

/-- What a child becomes that is resolved at the depth of its key. -/
inductive ResolvesTo (r : Registry) (depthOf : String → Nat) : Node → Node → Prop
  | raw {text} : ResolvesTo r depthOf (.raw text) (.raw text)
  | rule {key declarations children b} : Resolves r (depthOf key) ⟨declarations, children⟩ (.ok b) →
      ResolvesTo r depthOf (.rule key declarations children) (.ofBlock key b)

theorem ResolvesTo.key? {r : Registry} {depthOf : String → Nat} {n n' : Node} (h : ResolvesTo r depthOf n n') :
    n'.key? = n.key? := by
  cases h <;> rfl

/-- A run over children succeeds with what each of them becomes. -/
theorem ResolvesAll.forall₂ {r : Registry} {depthOf : String → Nat} {nodes nodes' : List Node}
    (h : ResolvesAll r depthOf nodes (.ok nodes')) : List.Forall₂ (ResolvesTo r depthOf) nodes nodes' := by
  induction nodes generalizing nodes' with
  | nil =>
    cases h
    exact .nil
  | cons n rest ih =>
    generalize ho : Except.ok nodes' = out at h
    cases h with
    | @raw _ _ _ out h =>
      cases out with
      | error fault => cases ho
      | ok rest' =>
        cases ho
        exact .cons .raw (ih h)
    | stuck => cases ho
    | @rule _ _ _ _ _ b out hb h =>
      cases out with
      | error fault => cases ho
      | ok rest' =>
        cases ho
        exact .cons (.rule hb) (ih h)

section
variable {r : Registry} {depthOf : String → Nat} {nodes nodes' : List Node}

theorem filterMap_key?_of_resolvesTo (h : List.Forall₂ (ResolvesTo r depthOf) nodes nodes') :
    nodes'.filterMap Node.key? = nodes.filterMap Node.key? := by
  induction h with
  | nil => rfl
  | cons hn _ ih => rw [List.filterMap_cons, List.filterMap_cons, hn.key?, ih]

theorem keys_of_resolvesTo (declarations : List (String × Json)) (h : List.Forall₂ (ResolvesTo r depthOf) nodes nodes') :
    (Block.mk declarations nodes').keys = (Block.mk declarations nodes).keys := by
  rw [Block.keys, Block.childKeys, filterMap_key?_of_resolvesTo h]
  rfl

theorem exists_resolvesTo (h : List.Forall₂ (ResolvesTo r depthOf) nodes nodes') {n' : Node} (hn : n' ∈ nodes') :
    ∃ n ∈ nodes, ResolvesTo r depthOf n n' := by
  induction h with
  | nil => cases hn
  | cons hb _ ih =>
    rcases List.mem_cons.mp hn with rfl | hn
    · exact ⟨_, List.mem_cons_self, hb⟩
    · obtain ⟨n, hm, h⟩ := ih hn
      exact ⟨n, List.mem_cons_of_mem _ hm, h⟩

theorem exists_resolved (h : List.Forall₂ (ResolvesTo r depthOf) nodes nodes') {n : Node} (hn : n ∈ nodes) :
    ∃ n' ∈ nodes', ResolvesTo r depthOf n n' := by
  induction h with
  | nil => cases hn
  | cons hb _ ih =>
    rcases List.mem_cons.mp hn with rfl | hn
    · exact ⟨_, List.mem_cons_self, hb⟩
    · obtain ⟨n', hm, h⟩ := ih hn
      exact ⟨n', List.mem_cons_of_mem _ hm, h⟩

end

namespace Registry
variable {r : Registry}

/-! ### Existence -/

/-- What holds of a block wherever it holds of all children that its expansion leaves holds of every
    block. -/
theorem resolve_induction {motive : Nat → Block → Prop}
    (step : ∀ base b, (∀ e, (r.expand base ⟨b, []⟩).result = .ok e → ∀ key declarations children,
      Node.rule key declarations children ∈ e.block.children →
        motive (e.depthOf base key) ⟨declarations, children⟩) → motive base b)
    (base : Nat) (b : Block) : motive base b :=
  step base b fun e _ key declarations children _ => resolve_induction step (e.depthOf base key) ⟨declarations, children⟩
termination_by (maxDepth - base, sizeOf b)
decreasing_by
  have hf : e.From base b := from_of_expand (.start base b) ‹_›
  rcases hf.child_lt ‹_› with h | ⟨h, h'⟩
  · exact Prod.Lex.left _ _ h
  · rw [h]
    exact Prod.Lex.right _ h'

theorem expands_expand (r : Registry) (base : Nat) (e : Expansion) : Expands r base e (r.expand base e).result := by
  fun_induction Registry.expand r base e with
  | case1 e hi => exact .done hi
  | case2 e inv hi hd ih =>
    rw [Report.result_bind]
    exact .step hi hd ih
  | case3 e inv hi hd => exact .tooDeep hi (Nat.le_of_not_lt hd)

theorem result_resolveBlock (r : Registry) (base : Nat) (b : Block) : (r.resolveBlock base b).result =
    (r.expand base ⟨b, []⟩).result.bind fun e =>
      (e.block.children.mapM (r.resolveNode (e.depthOf base))).result.map (⟨e.block.declarations, ·⟩) := by
  rw [resolveBlock_eq, Report.result_bind]
  refine congrArg _ (funext fun e => ?_)
  rw [Report.result_bind]
  cases (e.block.children.mapM (r.resolveNode (e.depthOf base))).result <;> rfl

theorem result_resolveNode_rule (r : Registry) (depthOf : String → Nat) (key : String)
    (declarations : List (String × Json)) (children : List Node) :
    (r.resolveNode depthOf (.rule key declarations children)).result =
      (r.resolveBlock (depthOf key) ⟨declarations, children⟩).result.map (.ofBlock key) := by
  rw [resolveNode, Report.result_bind]
  cases (r.resolveBlock (depthOf key) ⟨declarations, children⟩).result <;> rfl

theorem resolvesAll_mapM {depthOf : String → Nat} {nodes : List Node}
    (h : ∀ key declarations children, Node.rule key declarations children ∈ nodes →
      Resolves r (depthOf key) ⟨declarations, children⟩ (r.resolveBlock (depthOf key) ⟨declarations, children⟩).result) :
    ResolvesAll r depthOf nodes (nodes.mapM (r.resolveNode depthOf)).result := by
  induction nodes with
  | nil => exact .nil
  | cons n rest ih =>
    have hrest := ih fun key declarations children hm => h key declarations children (List.mem_cons_of_mem _ hm)
    rw [Report.result_mapM_cons]
    cases n with
    | raw text => exact .raw hrest
    | rule key declarations children =>
      have hn := h key declarations children List.mem_cons_self
      rw [result_resolveNode_rule]
      cases hb : (r.resolveBlock (depthOf key) ⟨declarations, children⟩).result with
      | error fault => exact .stuck (hb ▸ hn)
      | ok b => exact .rule (hb ▸ hn) hrest

/-- Every block has a run, with the outcome that is computed. -/
theorem resolves_resolveBlock (r : Registry) (base : Nat) (b : Block) :
    Resolves r base b (r.resolveBlock base b).result := by
  induction base, b using resolve_induction (r := r) with
  | step base b ih =>
    have he := expands_expand r base ⟨b, []⟩
    rw [result_resolveBlock]
    cases hr : (r.expand base ⟨b, []⟩).result with
    | error fault => exact .stuck (hr ▸ he)
    | ok e => exact .expanded (hr ▸ he) (resolvesAll_mapM (ih e hr))

end Registry

/-! ### Uniqueness -/

theorem Expands.unique {r : Registry} {base : Nat} {e : Expansion} {out out' : Except Error Expansion}
    (h : Expands r base e out) (h' : Expands r base e out') : out = out' := by
  induction h with
  | done hi =>
    cases h' with
    | done => rfl
    | step hi' | tooDeep hi' => cases hi.symm.trans hi'
  | step hi hd _ ih =>
    cases h' with
    | done hi' => cases hi.symm.trans hi'
    | step hi' _ h' =>
      cases hi.symm.trans hi'
      exact ih h'
    | tooDeep hi' hd' =>
      cases hi.symm.trans hi'
      exact absurd hd (Nat.not_lt_of_le hd')
  | tooDeep hi hd =>
    cases h' with
    | done hi' => cases hi.symm.trans hi'
    | step hi' hd' =>
      cases hi.symm.trans hi'
      exact absurd hd' (Nat.not_lt_of_le hd)
    | tooDeep hi' =>
      cases hi.symm.trans hi'
      rfl

theorem ResolvesAll.unique {r : Registry} {depthOf : String → Nat} {nodes : List Node}
    (hu : ∀ key declarations children, Node.rule key declarations children ∈ nodes → ∀ {out out'},
      Resolves r (depthOf key) ⟨declarations, children⟩ out → Resolves r (depthOf key) ⟨declarations, children⟩ out' →
        out = out')
    {out out' : Except Error (List Node)} (h : ResolvesAll r depthOf nodes out)
    (h' : ResolvesAll r depthOf nodes out') : out = out' := by
  induction nodes generalizing out out' with
  | nil =>
    cases h
    cases h'
    rfl
  | cons n rest ih =>
    have hrest {out out'} := @ih (fun key declarations children hm => hu key declarations children
      (List.mem_cons_of_mem _ hm)) out out'
    cases h with
    | raw h => cases h' with | raw h' => rw [hrest h h']
    | stuck hb =>
      have hb_eq {out} := @hu _ _ _ List.mem_cons_self _ out hb
      cases h' with
      | stuck hb' =>
        cases hb_eq hb'
        rfl
      | rule hb' => cases hb_eq hb'
    | rule hb h =>
      have hb_eq {out} := @hu _ _ _ List.mem_cons_self _ out hb
      cases h' with
      | stuck hb' => cases hb_eq hb'
      | rule hb' h' =>
        cases hb_eq hb'
        rw [hrest h h']

theorem Resolves.unique {r : Registry} {base : Nat} {b : Block} {out out' : Except Error Block}
    (h : Resolves r base b out) (h' : Resolves r base b out') : out = out' := by
  induction base, b using Registry.resolve_induction (r := r) generalizing out out' with
  | step base b ih =>
    cases h with
    | stuck he =>
      cases h' with
      | stuck he' =>
        cases he.unique he'
        rfl
      | expanded he' => cases he.unique he'
    | @expanded _ _ e _ he hc =>
      cases h' with
      | stuck he' => cases he.unique he'
      | expanded he' hc' =>
        cases he.unique he'
        have hr : (r.expand base ⟨b, []⟩).result = .ok e := (r.expands_expand base ⟨b, []⟩).unique he
        rw [hc.unique (fun key declarations children hn _ _ => ih e hr key declarations children hn) hc']

/-! ### Success and failure -/

/-- A run over children that fails does so in one of them. -/
theorem ResolvesAll.exists_of_error {r : Registry} {depthOf : String → Nat} {nodes : List Node} {fault : Error}
    (h : ResolvesAll r depthOf nodes (.error fault)) : ∃ key declarations children,
      Node.rule key declarations children ∈ nodes ∧ Resolves r (depthOf key) ⟨declarations, children⟩ (.error fault) := by
  induction nodes with
  | nil => cases h
  | cons n rest ih =>
    have later (h : ResolvesAll r depthOf rest (.error fault)) : ∃ key declarations children,
        Node.rule key declarations children ∈ n :: rest ∧
          Resolves r (depthOf key) ⟨declarations, children⟩ (.error fault) := by
      obtain ⟨key, ds, cs, hm, hb⟩ := ih h
      exact ⟨key, ds, cs, List.mem_cons_of_mem _ hm, hb⟩
    generalize ho : Except.error fault = out at h
    cases h with
    | @raw _ _ _ out h =>
      cases out with
      | error fault' => cases ho; exact later h
      | ok nodes => cases ho
    | stuck hb => cases ho; exact ⟨_, _, _, List.mem_cons_self, hb⟩
    | @rule _ _ _ _ _ b out hb h =>
      cases out with
      | error fault' => cases ho; exact later h
      | ok nodes => cases ho

/-- A block that is resolved was expanded, and its children are resolved at the depths of their keys. -/
theorem Resolves.exists_of_ok {r : Registry} {base : Nat} {b b' : Block} (h : Resolves r base b (.ok b')) :
    ∃ e, (r.expand base ⟨b, []⟩).result = .ok e ∧ Expands r base ⟨b, []⟩ (.ok e) ∧
      ∃ nodes, List.Forall₂ (ResolvesTo r (e.depthOf base)) e.block.children nodes ∧
        b' = ⟨e.block.declarations, nodes⟩ := by
  generalize ho : Except.ok b' = out at h
  cases h with
  | stuck => cases ho
  | @expanded _ _ e out he hc =>
    cases out with
    | error fault => cases ho
    | ok nodes =>
      cases ho
      exact ⟨e, (r.expands_expand base ⟨b, []⟩).unique he, he, nodes, hc.forall₂, rfl⟩

end StyleTree
