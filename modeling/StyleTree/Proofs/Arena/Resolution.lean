import StyleTree.Extension.Arena
import StyleTree.Proofs.Arena.Merging
import StyleTree.Proofs.Resolution.Fixpoint

/-! Resolution in an arena and of a tree. Runs from different arenas number their nodes differently, and nodes of other
    subtrees and nodes that are detached stand in between. It makes no difference: every run in a sound arena
    ends with one outcome, and it makes of the block of a node what becomes of this block in a document of its own. -/

namespace StyleTree.Arena

/-! ### Uniqueness -/

section
variable {r : Registry}

theorem Expands.unique {base id : Nat} {a : Arena} {depths : Depths} {out out' : Except Error (Arena × Depths)}
    (h : Expands r base id a depths out) (h' : Expands r base id a depths out') : out = out' := by
  induction h with
  | done hi =>
    cases h' with
    | done => rfl
    | step hi' | tooDeep hi' => cases hi.symm.trans hi'
  | step hi hd _ ih =>
    cases h' with
    | done hi' => cases hi.symm.trans hi'
    | step hi' _ h' =>
      cases hi.symm.trans hi'
      exact ih h'
    | tooDeep hi' hd' =>
      cases hi.symm.trans hi'
      exact absurd hd (Nat.not_lt_of_le hd')
  | tooDeep hi hd =>
    cases h' with
    | done hi' => cases hi.symm.trans hi'
    | step hi' hd' =>
      cases hi.symm.trans hi'
      exact absurd hd' (Nat.not_lt_of_le hd)
    | tooDeep hi' =>
      cases hi.symm.trans hi'
      rfl

theorem Runs.unique {task : Task} {a : Arena} {out out' : Except Error Arena} (h : Runs r task a out)
    (h' : Runs r task a out') : out = out' := by
  induction h generalizing out' with
  | stuck he =>
    cases h' with
    | stuck he' =>
      cases he.unique he'
      rfl
    | expanded he' => cases he.unique he'
  | expanded he _ ih =>
    cases h' with
    | stuck he' => cases he.unique he'
    | expanded he' h' =>
      cases he.unique he'
      exact ih h'
  | done =>
    cases h'
    rfl
  | failed _ ih =>
    cases h' with
    | failed h' => exact ih h'
    | next h' =>
      cases ih h'
  | next _ _ ih ihrest =>
    cases h' with
    | failed h' => cases ih h'
    | next h' hrest =>
      cases ih h'
      exact ihrest hrest

theorem Resolves.unique {a : Arena} {out out' : Except Error Arena} (h : a.Resolves r out) (h' : a.Resolves r out') :
    out = out' := by
  cases h with
  | unregistered he =>
    cases h' with
    | unregistered => rfl
    | run he' => cases he.symm.trans he'
  | run he h =>
    cases h' with
    | unregistered he' => cases he.symm.trans he'
    | run _ h' => exact h.unique h'

end

/-! ### Invocations -/

section
variable {a : Arena} {id : Nat} {r : Registry}

theorem fields_map_view (a : Arena) (children : List Child) : Node.fields (children.map a.view) =
    (children.filterMap Child.id?).map fun c => ((a.node c).key, (a.block c).toValue) := by
  induction children with
  | nil => rfl
  | cons child rest ih =>
    rw [List.map_cons, Node.fields, ih]
    cases child with
    | raw text => rfl
    | node c => rw [view, Node.field?_ofBlock]; rfl

theorem foldl_put_eq_append {ids : List Nat} {key : Nat → String} {value : Nat → Json} {fields : List (String × Json)}
    (h : (fields.map (·.1) ++ ids.map key).Nodup) :
    ids.foldl (fun m c => Assoc.put m (key c) (value c)) fields = fields ++ ids.map fun c => (key c, value c) := by
  induction ids generalizing fields with
  | nil => rw [List.foldl_nil, List.map_nil, List.append_nil]
  | cons c rest ih =>
    have hnot : key c ∉ fields.map (·.1) := fun hm =>
      (List.nodup_append.mp h).2.2 _ hm _ (List.mem_map_of_mem List.mem_cons_self) rfl
    rw [List.foldl_cons, Assoc.put_of_not_mem hnot, ih]
    · rw [List.append_assoc, List.map_cons, List.singleton_append]
    · rwa [List.map_append, List.append_assoc]

/-- The map of a node is that of its block. -/
theorem Sound.toValue_eq (ha : a.Sound) (id : Nat) : a.toValue id = (a.block id).toValue := by
  induction hlt : a.size - id using Nat.strongRecOn generalizing id with
  | ind n ih =>
    have hvalue : ∀ (fields : List (String × Json)), ∀ c ∈ a.childIds id,
        Assoc.put fields (a.node c).key (if _ : id < c ∧ c < a.size then a.toValue c else .obj []) =
          Assoc.put fields (a.node c).key (a.block c).toValue := fun fields c hc => by
      have hless := ha.lt_child hc
      have hc := ha.child_lt hc
      rw [dif_pos ⟨hless, hc⟩, ih _ (by omega) c rfl]
    rw [toValue, List.foldl_ext _ _ _ hvalue, foldl_put_eq_append (ha.keys id), Block.toValue, ha.toLinked.block_eq,
      fields_map_view]
    rfl

/-- The first child with a registered key, as a node and as a part of the block. -/
theorem Sound.firstChild?_eq (ha : a.Sound) (r : Registry) (children : List Child) :
    r.firstChild? (children.map a.view) =
      (a.firstInvoked? r (children.filterMap Child.id?)).map fun i => ((a.node i.1).key, a.toValue i.1, i.2) := by
  induction children with
  | nil => rfl
  | cons child rest ih =>
    cases child with
    | raw text => exact ih
    | node c =>
      have hids : (Child.node c :: rest).filterMap Child.id? = c :: rest.filterMap Child.id? := rfl
      rw [List.map_cons, view, Node.ofBlock, Registry.firstChild?, ih, hids, firstInvoked?]
      cases r.get? (a.node c).key with
      | some f => rw [Option.map_some, ha.toValue_eq]
      | none => rfl

theorem firstInvoked?_mem {ids : List Nat} {c : Nat} {f : Extension} (h : a.firstInvoked? r ids = some (c, f)) :
    c ∈ ids := by
  induction ids with
  | nil => cases h
  | cons d rest ih =>
    rw [firstInvoked?] at h
    split at h
    · cases h
      exact List.mem_cons_self
    · exact List.mem_cons_of_mem _ (ih h)

/-- An invocation of the block, for one of a node. -/
def Invocation.ofBlock (inv : Invocation) (id : Nat) : StyleTree.Invocation :=
  ⟨inv.name, inv.extension, inv.argument, ⟨inv.rest.block id, inv.slot⟩⟩

/-- A node and its block invoke the same. -/
theorem Sound.invocation?_eq (ha : a.Sound) (hid : id < a.size) (r : Registry) :
    r.invocation? (a.block id) = (a.invocation? r id).map (·.ofBlock id) := by
  have hlinked := ha.toLinked
  rw [Registry.invocation?, Arena.invocation?, declarations_block]
  cases hd : r.firstDeclared? 0 (a.node id).declarations with
  | some found =>
    obtain ⟨i, name, value, f⟩ := found
    simp only [Option.map_some, Invocation.ofBlock, hlinked.block_erase hid, declarations_block]
  | none =>
    have hchildren : (a.block id).children = (a.node id).children.map a.view := by rw [hlinked.block_eq]
    rw [hchildren, ha.firstChild?_eq]
    dsimp only
    rw [← childIds]
    cases hc : a.firstInvoked? r (a.childIds id) with
    | some found =>
      obtain ⟨c, f⟩ := found
      simp only [Option.map_some, Invocation.ofBlock, ha.block_detach (firstInvoked?_mem hc)]
    | none => rfl

/-- Without its invocation an arena is still sound, and only the node has changed. -/
theorem Sound.rest (ha : a.Sound) (hid : id < a.size) {inv : Invocation} (hi : a.invocation? r id = some inv) :
    inv.rest.Sound ∧ a.Grows (· = id) inv.rest := by
  rw [Arena.invocation?] at hi
  split at hi
  · cases hi
    exact ⟨ha.erase hid _, a.grows_erase ..⟩
  · split at hi
    · cases hi
      exact ⟨ha.detach hid _, a.grows_detach ..⟩
    · cases hi

theorem Sound.mergeFragment (ha : a.Sound) (hid : id < a.size) (slot : Option Nat) (v : Json) :
    (a.mergeFragment id slot v).Sound ∧ a.Grows (a.Below id) (a.mergeFragment id slot v) ∧
      (a.mergeFragment id slot v).block id = (Splice.mergeFragment ⟨a.block id, slot⟩ v).block := by
  have hsame : a.Sound ∧ a.Grows (a.Below id) a ∧ a.block id = a.block id := ⟨ha, .refl _ _, rfl⟩
  cases v with
  | obj fields =>
    have h := ha.mergeFields hid slot fields
    exact ⟨h.sound, h.grows, h.block⟩
  | arr items =>
    have h := ha.mergeItems hid slot items
    rw [Arena.mergeFragment, Splice.mergeFragment]
    split
    · exact ⟨h.sound, h.grows, h.block⟩
    · exact hsame
  | null | bool _ | num _ | str _ => exact hsame

/-- An expansion in the arena is one of the block. -/
theorem Sound.apply (ha : a.Sound) (hid : id < a.size) {inv : Invocation} (hi : a.invocation? r id = some inv)
    (depths : Depths) (d : Nat) :
    let a' := inv.rest.mergeFragment id inv.slot inv.fragment
    a'.Sound ∧ a.Grows (a.Below id) a' ∧
      Expansion.apply ⟨a.block id, depths⟩ d (inv.ofBlock id) = ⟨a'.block id, depths.mark inv.fragment (d + 1)⟩ := by
  obtain ⟨hrest, hgrows⟩ := ha.rest hid hi
  obtain ⟨hsound, hmerge, hblock⟩ :=
    hrest.mergeFragment (Nat.lt_of_lt_of_le hid hgrows.size_le) inv.slot inv.fragment
  refine ⟨hsound, hgrows.toBelow.trans_below ha.toLinked hmerge, ?_⟩
  rw [hblock]
  rfl

end

/-! ### Runs -/

/-- The outcomes of a run in the arena and of one of the tree: the same failure, or a sound arena, changed where it is
    touched, that reads as what the other run gives. -/
inductive Agrees (a : Arena) (touched : Nat → Prop) {α β : Type} (arena : α → Arena) (read : α → β) :
    Except Error α → Except Error β → Prop
  | error (fault : Error) : Agrees a touched arena read (.error fault) (.error fault)
  | ok {x : α} : (arena x).Sound → a.Grows touched (arena x) → Agrees a touched arena read (.ok x) (.ok (read x))

theorem Agrees.map_eq {a : Arena} {touched : Nat → Prop} {α β : Type} {arena : α → Arena} {read : α → β}
    {out : Except Error α} {result : Except Error β} (h : Agrees a touched arena read out result) : out.map read = result := by
  cases h <;> rfl

/-- The outcomes agree about more of what the arena says. -/
theorem Agrees.map {a b : Arena} {touched touched' : Nat → Prop} {α β γ : Type} {arena : α → Arena} {read : α → β}
    {read' : α → γ} {out : Except Error α} {result : Except Error β} {g : β → γ} (h : Agrees a touched arena read out result)
    (hok : ∀ x, (arena x).Sound → a.Grows touched (arena x) → b.Grows touched' (arena x) ∧ read' x = g (read x)) :
    Agrees b touched' arena read' out (result.map g) := by
  cases h with
  | error fault => exact .error fault
  | @ok x hsound hgrows =>
    obtain ⟨hgrows', hread⟩ := hok x hsound hgrows
    rw [Except.map, ← hread]
    exact .ok hsound hgrows'

section
variable {a a' : Arena} {r : Registry} {id : Nat}

/-- The expansions of a block can be followed in an arena. -/
theorem Sound.expands {base : Nat} {e : Expansion} {out : Except Error Expansion} (h : StyleTree.Expands r base e out)
    {a : Arena} (ha : a.Sound) (hid : id < a.size) {depths : Depths} (he : e = ⟨a.block id, depths⟩) :
    ∃ out', Expands r base id a depths out' ∧
      Agrees a (a.Below id) Prod.fst (fun s => Expansion.mk (s.1.block id) s.2) out' out := by
  induction h generalizing a depths with
  | done hi =>
    subst he
    rw [ha.invocation?_eq hid, Option.map_eq_none_iff] at hi
    exact ⟨_, .done hi, .ok (x := (a, depths)) ha (.refl _ _)⟩
  | @step _ inv _ hi hd _ ih =>
    subst he
    rw [ha.invocation?_eq hid, Option.map_eq_some_iff] at hi
    obtain ⟨inv, hi, rfl⟩ := hi
    obtain ⟨hsound, hgrows, happly⟩ := ha.apply hid hi depths (depths.depthOf base inv.name)
    obtain ⟨out', hrun, hagrees⟩ := ih hsound (Nat.lt_of_lt_of_le hid hgrows.size_le) happly
    refine ⟨out', .step hi hd hrun, ?_⟩
    cases hagrees with
    | error fault => exact .error fault
    | ok hsound' hgrows' => exact .ok hsound' (hgrows.trans_below ha.toLinked hgrows')
  | tooDeep hi hd =>
    subst he
    rw [ha.invocation?_eq hid, Option.map_eq_some_iff] at hi
    obtain ⟨inv, hi, rfl⟩ := hi
    exact ⟨_, .tooDeep hi hd, .error _⟩

/-- A node that has this block is resolved as the block is, whatever the arena and its number there. -/
def Resolvable (r : Registry) (depth : Nat) (b : Block) : Prop :=
  ∀ (a : Arena) (c : Nat), a.Sound → c < a.size → a.block c = b →
    ∃ out, Runs r (.node depth c) a out ∧
      Agrees a (a.Below c) (fun a' => a') (·.block c) out (r.resolveBlock depth b).result

/-- Some of the children of one node. -/
structure Siblings (a : Arena) (id : Nat) (children : List Child) : Prop where
  owned : ∀ c, .node c ∈ children → c < a.size ∧ (a.node c).parent = some id
  nodup : (children.filterMap Child.id?).Nodup

/-- The node is at or below one of these children. -/
def BelowOne (a : Arena) (children : List Child) (k : Nat) : Prop := ∃ c, .node c ∈ children ∧ a.Below c k

theorem Sound.siblings (ha : a.Sound) (id : Nat) : a.Siblings id (a.node id).children :=
  ⟨fun _ => ha.toLinked.owned_node, (ha.childKeys_nodup id).of_map _⟩

namespace Siblings
variable {c : Nat} {child : Child} {rest : List Child}

theorem tail (h : a.Siblings id (child :: rest)) : a.Siblings id rest where
  owned c hc := h.owned c (List.mem_cons_of_mem _ hc)
  nodup := h.nodup.sublist ((List.sublist_cons_self ..).filterMap _)

theorem not_mem (h : a.Siblings id (.node c :: rest)) : .node c ∉ rest := fun hm =>
  (List.nodup_cons.mp h.nodup).1 (List.mem_filterMap.mpr ⟨_, hm, rfl⟩)

/-- A change below one of them leaves what the others stand for. -/
theorem view_tail (h : a.Siblings id (.node c :: rest)) (ha : a.Linked) (ha' : a'.Linked) (hgrows : a.Grows (a.Below c) a') :
    ∀ child ∈ rest, a'.view child = a.view child := by
  intro child hchild
  cases child with
  | raw text => rfl
  | node d =>
    obtain ⟨hd, hp⟩ := h.tail.owned d hchild
    have hne : c ≠ d := fun he => h.not_mem (he ▸ hchild)
    have hblock := hgrows.block_eq ha ha' hd fun k hk =>
      ha.not_below_sibling (h.owned c List.mem_cons_self).2 hp hne (hk.toBelow ha)
    rw [view, view, hgrows.key hd, hblock]

/-- Changes below the others leave what the first of them stands for. -/
theorem view_head (h : a.Siblings id (.node c :: rest)) (ha : a.Linked) (ha' : a'.Linked)
    (hgrows : a.Grows (a.BelowOne rest) a') : a'.view (.node c) = a.view (.node c) := by
  obtain ⟨hc, hp⟩ := h.owned c List.mem_cons_self
  have hblock := hgrows.block_eq ha ha' hc fun k hk => by
    rintro ⟨d, hd, hb⟩
    have hne : c ≠ d := fun he => h.not_mem (he ▸ hd)
    exact ha.not_below_sibling hp (h.tail.owned d hd).2 hne hb (hk.toBelow ha)
  rw [view, view, hgrows.key hc, hblock]

/-- Changes below the first and then below the others are changes below one of them. -/
theorem grows_cons {a₁ a₂ : Arena} (ha : a.Linked) (h : a.Grows (a.Below c) a₁) (h' : a₁.Grows (a₁.BelowOne rest) a₂) :
    a.Grows (a.BelowOne (.node c :: rest)) a₂ := by
  refine (h.mono fun k hb => ⟨c, List.mem_cons_self, hb⟩).trans h' fun k hk => ?_
  rintro ⟨d, hd, hb⟩
  exact ⟨d, List.mem_cons_of_mem _ hd, h.below ha hk hb⟩

theorem grows (h : a.Siblings id rest) {touched : Nat → Prop} (hgrows : a.Grows touched a') : a'.Siblings id rest where
  owned c hc := by
    obtain ⟨hlt, hp⟩ := h.owned c hc
    exact ⟨Nat.lt_of_lt_of_le hlt hgrows.size_le, (hgrows.parent hlt).trans hp⟩
  nodup := h.nodup

end Siblings

/-- The children of a node are resolved one after the other as their blocks are. -/
theorem Sound.runs_each {a : Arena} (ha : a.Sound) (depthOf : String → Nat) {children : List Child}
    (hc : a.Siblings id children)
    (hruns : ∀ c, .node c ∈ children → Resolvable r (depthOf (a.node c).key) (a.block c)) :
    ∃ out, Runs r (.each depthOf (children.filterMap Child.id?)) a out ∧
      Agrees a (a.BelowOne children) (fun a' => a') (fun a' => children.map a'.view) out
        ((children.map a.view).mapM (r.resolveNode depthOf)).result := by
  induction children generalizing a with
  | nil => exact ⟨_, .done, .ok (x := a) ha (.refl _ _)⟩
  | cons child rest ih =>
    have hrunsrest c (hm : .node c ∈ rest) := hruns c (List.mem_cons_of_mem _ hm)
    rw [List.map_cons, Report.result_mapM_cons]
    cases child with
    | raw text =>
      obtain ⟨out, hrun, hagrees⟩ := ih ha hc.tail hrunsrest
      refine ⟨out, hrun, hagrees.map fun a' _ hgrows => ⟨hgrows.mono ?_, rfl⟩⟩
      exact fun k ⟨c, hm, hb⟩ => ⟨c, List.mem_cons_of_mem _ hm, hb⟩
    | node c =>
      obtain ⟨out, hrun, hagrees⟩ := hruns c List.mem_cons_self a c ha (hc.owned c List.mem_cons_self).1 rfl
      rw [view, Node.ofBlock, Registry.result_resolveNode_rule]
      generalize (r.resolveBlock (depthOf (a.node c).key) (a.block c)).result = result at hagrees
      cases hagrees with
      | error fault => exact ⟨_, .failed hrun, .error fault⟩
      | @ok a₁ hsound₁ hgrows₁ =>
        -- The others stand for the same after this run, so they are resolved as if it had not been.
        have hview := hc.view_tail ha.toLinked hsound₁.toLinked hgrows₁
        have hc₁ : a₁.Siblings id (.node c :: rest) := hc.grows hgrows₁
        obtain ⟨out, hrunrest, hagrees⟩ := ih hsound₁ hc₁.tail fun d hd => by
          obtain ⟨hkey, hblock⟩ := Node.ofBlock_inj.mp (hview _ hd)
          rw [hkey, hblock]
          exact hrunsrest d hd
        rw [List.map_congr_left hview] at hagrees
        refine ⟨out, .next hrun hrunrest, hagrees.map fun a₂ hsound₂ hgrows₂ => ?_⟩
        refine ⟨Siblings.grows_cons ha.toLinked hgrows₁ hgrows₂, ?_⟩
        rw [List.map_cons, hc₁.view_head hsound₁.toLinked hsound₂.toLinked hgrows₂, view,
          hgrows₁.key (hc.owned c List.mem_cons_self).1]

/-- The children of a node are resolved below it, which leaves the node itself alone. -/
theorem Linked.node_of_belowOne (ha : a.Linked) {c : Nat} (hc : c < a.size)
    (h : a.Grows (a.BelowOne (a.node c).children) a') : a'.node c = a.node c :=
  h.rest hc fun ⟨_, hd, hbelow⟩ => ha.not_below_parent (ha.owned_node hd).2 hbelow

/-- Every block can be resolved in every sound arena, with the outcome that is computed for it. -/
theorem resolvable (r : Registry) (base : Nat) (b : Block) : Resolvable r base b := by
  induction base, b using Registry.resolve_induction (r := r) with
  | step base b ih =>
    intro a c ha hc hb
    have hstart : Expansion.mk b [] = ⟨a.block c, []⟩ := by rw [hb]
    obtain ⟨out, hrun, hagrees⟩ := ha.expands (r.expands_expand base ⟨b, []⟩) hc hstart
    rw [Registry.result_resolveBlock]
    generalize hres : (r.expand base ⟨b, []⟩).result = result at hagrees
    cases hagrees with
    | error fault => exact ⟨_, .stuck hrun, .error fault⟩
    | @ok x hsound hgrows =>
      obtain ⟨a₁, depths⟩ := x
      have hchildren : (a₁.block c).children = (a₁.node c).children.map a₁.view := by rw [hsound.toLinked.block_eq]
      obtain ⟨out, hruneach, hagrees⟩ := hsound.runs_each (r := r) (depths.depthOf base) (hsound.siblings c) fun d hd =>
        ih _ hres (a₁.node d).key _ _ (hchildren ▸ List.mem_map_of_mem hd)
      rw [← hchildren] at hagrees
      refine ⟨out, .expanded hrun hruneach, hagrees.map fun a₂ hsound₂ hgrows₂ => ⟨?_, ?_⟩⟩
      · refine hgrows.trans hgrows₂ fun k hk => ?_
        rintro ⟨d, hd, hbelow⟩
        exact hgrows.below ha.toLinked hk (hbelow.of_parent (hsound.toLinked.owned_node hd).2)
      · have hnode := hsound.toLinked.node_of_belowOne (Nat.lt_of_lt_of_le hc hgrows.size_le) hgrows₂
        rw [hsound₂.toLinked.block_eq, hnode, declarations_block]

/-- Runs from different arenas: nodes with the same block, whatever their numbers and whatever stands around them,
    are resolved alike. -/
theorem Sound.runs_alike {a b : Arena} (ha : a.Sound) (hb : b.Sound) {c d depth : Nat} (hc : c < a.size) (hd : d < b.size)
    (hblock : a.block c = b.block d) {out out' : Except Error Arena} (h : Runs r (.node depth c) a out)
    (h' : Runs r (.node depth d) b out') : out.map (·.block c) = out'.map (·.block d) := by
  obtain ⟨_, hrun, hagrees⟩ := resolvable r depth _ a c ha hc rfl
  obtain ⟨_, hrun', hagrees'⟩ := resolvable r depth _ b d hb hd rfl
  cases h.unique hrun
  cases h'.unique hrun'
  exact hagrees.map_eq.trans (hblock ▸ hagrees'.map_eq.symm)

end

/-! ### Documents -/

section
variable {a : Arena} {r : Registry}

theorem result_resolve_of_isEmpty (hr : r.isEmpty = true) (b : Block) : (r.resolve b).result = .ok b := by
  have hquiet : r.Quiet b := fun c _ key _ => by
    rw [Registry.contains, Registry.get?, List.isEmpty_iff.mp hr]
    rfl
  rw [Registry.resolve, Registry.resolveBlock_of_quiet hquiet, Report.result_pure]

/-- Every resolution ends, with the outcome that the block of the root has. -/
theorem Sound.exists_resolves (ha : a.Sound) (r : Registry) : ∃ out, a.Resolves r out ∧
    Agrees a (a.Below root) (fun a' => a') (·.block root) out (r.resolve (a.block root)).result := by
  cases hr : r.isEmpty with
  | true =>
    rw [result_resolve_of_isEmpty hr]
    exact ⟨_, .unregistered hr, .ok (x := a) ha (.refl _ _)⟩
  | false =>
    obtain ⟨out, hrun, hagrees⟩ := resolvable r 0 _ a root ha ha.nonempty rfl
    exact ⟨out, .run hr hrun, hagrees⟩

theorem Sound.agrees (ha : a.Sound) {out : Except Error Arena} (h : a.Resolves r out) :
    Agrees a (a.Below root) (fun a' => a') (·.block root) out (r.resolve (a.block root)).result := by
  obtain ⟨out', h', hagrees⟩ := ha.exists_resolves r
  exact h.unique h' ▸ hagrees

end

end StyleTree.Arena
