import StyleTree.Proofs.Arena.KeyPaths
import StyleTree.Proofs.Resolution.Locality

/-! Resolution in an arena is local. Every expansion below one child of the root takes the next free numbers and leaves
    detached nodes behind, so the next child is resolved in an arena that it would not meet alone, and gets other
    numbers than it would get there. What becomes of it is the same: a document whose root invokes no extension is
    resolved child by child, and the first child that fails alone gives the failure of the whole. -/

namespace StyleTree.Arena
variable {a a' b : Arena} {r : Registry} {c : Nat}

/-! ### Children alone -/

/-- The document `b` holds this child of the root of `a` and nothing else. -/
structure Alone (a : Arena) (c : Nat) (b : Arena) : Prop where
  sound : b.Sound
  block : b.block root = ⟨[], [.ofBlock (a.node c).key (a.block c)]⟩

/-- The arena in which this child is all that the root holds. -/
def only (a : Arena) (c : Nat) : Arena := a.modify root fun n => { n with declarations := [], children := [.node c] }

theorem Sound.alone_only (ha : a.Sound) (hc : c ∈ a.childIds root) : a.Alone c (a.only c) := by
  have hchildren : ∀ d, .node d ∈ [Child.node c] → d < a.size ∧ (a.node d).parent = some root := fun d hd => by
    cases List.mem_singleton.mp hd
    exact ha.owned hc
  have hlocal : Local fun n => { n with declarations := [], children := [.node c] } := fun _ => ⟨rfl, rfl⟩
  have hblock := ha.toLinked.block_modify hlocal hchildren ha.nonempty
  have honly : (a.only c).block root = ⟨[], [.ofBlock (a.node c).key (a.block c)]⟩ := hblock
  refine ⟨ha.modify hlocal hchildren ?_ ?_, honly⟩
  · rw [hblock]
    exact List.nodup_singleton _
  · rw [hblock]
    exact List.forall_mem_nil _

section
variable {fault : Error}

theorem Alone.error?_eq_some_iff (h : a.Alone c b) :
    Report.error? (r.resolve (StyleTree.Node.ofBlock (a.node c).key (a.block c)).alone).result = some fault ↔
      b.Resolves r (.error fault) := by
  rw [Report.error?_eq_some_iff, h.sound.resolves_error_iff, h.block]
  rfl

theorem Alone.error?_eq_none_iff (h : a.Alone c b) :
    Report.error? (r.resolve (StyleTree.Node.ofBlock (a.node c).key (a.block c)).alone).result = none ↔
      ∃ b', b.Resolves r (.ok b') := by
  rw [Report.error?_eq_none_iff, h.sound.exists_resolves_ok_iff, h.block]
  rfl

end

/-! ### The root -/

section
variable (ha : a.Sound) (hroot : ∀ key ∈ a.declared root ++ a.childKeys root, r.contains key = false)
include ha hroot

/-- A root that invokes nothing keeps what it holds, and its children keep their keys. -/
theorem Sound.node_root_of_resolves (h : a.Resolves r (.ok a')) :
    a'.node root = a.node root ∧ ∀ c ∈ a.childIds root, (a'.node c).key = (a.node c).key := by
  have hinvoked : a.invocation? r root = none := by
    have hblock := Registry.invocation?_eq_none_iff.mpr (ha.toLinked.keys_block root ▸ hroot)
    rwa [ha.invocation?_eq ha.nonempty, Option.map_eq_none_iff] at hblock
  cases h with
  | unregistered => exact ⟨rfl, fun _ _ => rfl⟩
  | run _ hrun =>
    cases hrun with
    | expanded he hrun =>
      cases he.unique (.done hinvoked)
      obtain ⟨out, hrun', hagrees⟩ := ha.runs_each (r := r) (Depths.depthOf [] 0) (ha.siblings root) fun c _ =>
        resolvable r _ (a.block c)
      cases hrun.unique hrun'
      generalize (((a.node root).children.map a.view).mapM (r.resolveNode (Depths.depthOf [] 0))).result = result
        at hagrees
      cases hagrees with
      | ok hsound hgrows =>
        exact ⟨ha.toLinked.node_of_belowOne ha.nonempty hgrows, fun c hc => hgrows.key (ha.child_lt hc)⟩

/-- A child of a root that invokes nothing becomes what its block becomes alone. -/
theorem Sound.result_resolve_view (h : a.Resolves r (.ok a')) {child : Child} (hchild : child ∈ (a.node root).children) :
    (r.resolve (a.view child).alone).result = .ok (a'.view child).alone := by
  obtain ⟨hsound, hresult⟩ := ha.resolve h
  have hall := Registry.children_of_resolve (ha.toLinked.keys_block root ▸ hroot) hresult
  rw [ha.toLinked.block_eq, hsound.toLinked.block_eq, (ha.node_root_of_resolves hroot h).1, List.forall₂_map_left_iff,
    List.forall₂_map_right_iff, List.forall₂_same] at hall
  exact hall child hchild

/-- The document fails as the first of its children does that fails alone. Texts do not fail. -/
theorem Sound.error?_resolve : Report.error? (r.resolve (a.block root)).result = (a.childIds root).findSome? fun c =>
    Report.error? (r.resolve (StyleTree.Node.ofBlock (a.node c).key (a.block c)).alone).result := by
  have hchildren : (a.block root).children = (a.node root).children.map a.view := by rw [ha.toLinked.block_eq]
  have hraw (text : String) : Report.error? (r.resolve (StyleTree.Node.raw text).alone).result = none := by
    have hkeys : ∀ key ∈ (StyleTree.Node.raw text).alone.keys, r.contains key = false := fun key hkey => nomatch hkey
    rw [Registry.result_resolve_of_not_contains hkeys]
    rfl
  rw [Registry.error?_resolve_of_not_contains (ha.toLinked.keys_block root ▸ hroot), hchildren, childIds]
  induction (a.node root).children with
  | nil => rfl
  | cons child rest ih =>
    rw [List.map_cons, List.findSome?_cons, ih]
    cases child with
    | raw text =>
      rw [view, hraw]
      rfl
    | node c => rfl

end

/-- Every resolution has one outcome. A document whose root invokes nothing is resolved if each of its children is
    in a document of its own, whatever numbers the nodes have there. The root keeps its declarations, its texts and
    the order of its children then, and each child becomes what it becomes alone. Else the document fails as the
    first child does that fails alone. -/
theorem resolution_is_local (ha : a.Sound)
    (hroot : ∀ key ∈ a.declared root ++ a.childKeys root, r.contains key = false) {alone : Nat → Arena}
    (halone : ∀ c ∈ a.childIds root, a.Alone c (alone c)) :
    (∃! out, a.Resolves r out) ∧
      ((∃ a', a.Resolves r (.ok a')) ↔ ∀ c ∈ a.childIds root, ∃ b, (alone c).Resolves r (.ok b)) ∧
      (∀ a', a.Resolves r (.ok a') → a'.node root = a.node root ∧ ∀ c ∈ a.childIds root,
        (a'.node c).key = (a.node c).key ∧ ∃ b, (alone c).Resolves r (.ok b) ∧ a'.Alone c b) ∧
      (∀ fault, a.Resolves r (.error fault) ↔ ∃ before c after, a.childIds root = before ++ c :: after ∧
        (∀ d ∈ before, ∃ b, (alone d).Resolves r (.ok b)) ∧ (alone c).Resolves r (.error fault)) := by
  have herror := ha.error?_resolve hroot
  refine ⟨?_, ?_, fun a' ha' => ?_, fun fault => ?_⟩
  · obtain ⟨out, hout, -⟩ := ha.exists_resolves r
    exact ⟨out, hout, fun out' hout' => hout'.unique hout⟩
  · rw [ha.exists_resolves_ok_iff, ← Report.error?_eq_none_iff, herror, List.findSome?_eq_none_iff]
    exact forall₂_congr fun c hc => (halone c hc).error?_eq_none_iff
  · obtain ⟨hnode, hkeys⟩ := ha.node_root_of_resolves hroot ha'
    refine ⟨hnode, fun c hc => ⟨hkeys c hc, ?_⟩⟩
    have hresult : (r.resolve ((alone c).block root)).result = .ok (a'.view (.node c)).alone := by
      rw [(halone c hc).block]
      exact ha.result_resolve_view hroot ha' (mem_childIds.mp hc)
    obtain ⟨b, hb, hsound, hblock⟩ := (halone c hc).sound.exists_resolves_of_result hresult
    exact ⟨b, hb, hsound, hblock⟩
  · rw [ha.resolves_error_iff, ← Report.error?_eq_some_iff, herror, List.findSome?_eq_some_iff]
    refine exists₃_congr fun before c after => and_congr_right fun hsplit => ?_
    have hmem : ∀ d ∈ before ++ c :: after, a.Alone d (alone d) := fun d hd => halone d (hsplit ▸ hd)
    rw [(hmem c (by simp)).error?_eq_some_iff, and_comm]
    exact and_congr_left fun _ => forall₂_congr fun d hd => (hmem d (by simp [hd])).error?_eq_none_iff

/-- The second box in a document of its own, where its nodes have other numbers. -/
def lone : Arena := (mergeFields {} root none [("b", .obj [("box", .str "")])]).1

theorem alone_lone : unboxed.Alone 3 lone := by
  have hlone : lone.Reached := .mergeMap none .new (by decide) (by decide)
  have hunboxed := reached_unboxed.sound.toLinked
  refine ⟨hlone.sound, ?_⟩
  rw [hlone.sound.block_eq, hunboxed.block_eq]
  show (⟨[], [.ofBlock "b" (lone.block 1)]⟩ : Block) = _
  rw [hlone.sound.block_eq]
  rfl

/-- The second box becomes what it becomes in its own document, where the node that it brings in is the third one and not
    the seventh. -/
theorem resolution_is_local_boxed :
    let alone : Nat → Arena := fun c => if c = 3 then lone else unboxed.only c
    unboxed.Sound ∧ (∀ key ∈ unboxed.declared root ++ unboxed.childKeys root, boxes.contains key = false) ∧
      (∀ c ∈ unboxed.childIds root, unboxed.Alone c (alone c)) ∧ unboxed.Resolves boxes (.ok boxed) ∧
      boxed.node root = unboxed.node root ∧
      ∃ b, lone.Resolves boxes (.ok b) ∧ boxed.Alone 3 b := by
  intro alone
  have hsound := reached_unboxed.sound
  have hroot : ∀ key ∈ unboxed.declared root ++ unboxed.childKeys root, boxes.contains key = false := by decide
  have halone : ∀ c ∈ unboxed.childIds root, unboxed.Alone c (alone c) := by
    intro c hc
    by_cases h : c = 3
    · simp only [alone, h, if_true]
      exact alone_lone
    · simp only [alone, h, if_false]
      exact hsound.alone_only hc
  obtain ⟨-, -, hok, -⟩ := resolution_is_local hsound hroot halone
  obtain ⟨hnode, hchildren⟩ := hok boxed resolves_unboxed
  exact ⟨hsound, hroot, halone, resolves_unboxed, hnode, (hchildren 3 (by decide)).2⟩

end StyleTree.Arena
