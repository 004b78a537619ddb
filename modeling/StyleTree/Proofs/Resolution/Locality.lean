import StyleTree.Proofs.Resolution.Fixpoint

/-! Resolution of a tree is local. A document whose root invokes no extension is resolved child by child, and what
    becomes of a child is what becomes of it in a document that holds nothing else. -/

namespace StyleTree

namespace Report
variable {α β : Type}

/-! ### Runs over lists -/

/-- The error of a result that is none. -/
def error? : Except Error α → Option Error
  | .error fault => some fault
  | .ok _ => none

theorem error?_eq_some_iff {x : Except Error α} {fault : Error} : error? x = some fault ↔ x = .error fault := by
  cases x <;> simp [error?]

theorem error?_eq_none_iff {x : Except Error α} : error? x = none ↔ ∃ a, x = .ok a := by
  cases x <;> simp [error?]

theorem error?_map (x : Except Error α) (g : α → β) : error? (x.map g) = error? x := by
  cases x <;> rfl

variable {f : α → Report β} {l : List α}

/-- A run over a list fails as the first item does that fails. -/
theorem error?_mapM : error? (l.mapM f).result = l.findSome? fun a => error? (f a).result := by
  induction l with
  | nil => rfl
  | cons a rest ih =>
    rw [result_mapM_cons, List.findSome?_cons, ← ih]
    cases (f a).result with
    | error fault => rfl
    | ok b => exact error?_map ..

theorem result_mapM_eq_ok_iff {l' : List β} :
    (l.mapM f).result = .ok l' ↔ List.Forall₂ (fun a b => (f a).result = .ok b) l l' := by
  induction l generalizing l' with
  | nil =>
    rw [List.mapM_nil, result_pure, List.forall₂_nil_left_iff, Except.ok.injEq]
    exact eq_comm
  | cons a rest ih =>
    rw [result_mapM_cons, List.forall₂_cons_left_iff]
    cases ha : (f a).result with
    | error fault => simp [Except.bind]
    | ok b => simp [Except.bind, map_eq_ok_iff, ih, @eq_comm _ l']

end Report

/-! ### Children alone -/

/-- The document that holds nothing but this child. -/
def Node.alone (n : Node) : Document := ⟨[], [n]⟩

theorem Node.alone_inj {n m : Node} : n.alone = m.alone ↔ n = m := by simp [alone]

namespace Registry
variable {r : Registry} {d : Document} {n n' : Node}

theorem result_resolve_of_not_contains (h : ∀ key ∈ d.keys, r.contains key = false) :
    (r.resolve d).result = (d.children.mapM (r.resolveNode fun _ => 0)).result.map (⟨d.declarations, ·⟩) := by
  rw [resolve, resolveBlock_of_not_contains h, Report.result_bind]
  cases (d.children.mapM (r.resolveNode fun _ => 0)).result <;> rfl

/-- A child alone is resolved as it is below a root that invokes nothing. -/
theorem result_resolve_alone (h : ∀ key ∈ d.keys, r.contains key = false) (hn : n ∈ d.children) :
    (r.resolve n.alone).result = (r.resolveNode (fun _ => 0) n).result.map Node.alone := by
  have hkeys : ∀ key ∈ n.alone.keys, r.contains key = false := by
    intro key hkey
    obtain ⟨m, hm, hmkey⟩ := List.mem_filterMap.mp (show key ∈ n.alone.childKeys from hkey)
    cases List.mem_singleton.mp hm
    exact h key (List.mem_append_right _ (List.mem_filterMap.mpr ⟨n, hn, hmkey⟩))
  rw [result_resolve_of_not_contains hkeys, Node.alone, Report.result_mapM_cons]
  cases (r.resolveNode (fun _ => 0) n).result <;> rfl

theorem result_resolve_alone_eq_ok_iff (h : ∀ key ∈ d.keys, r.contains key = false) (hn : n ∈ d.children) :
    (r.resolve n.alone).result = .ok n'.alone ↔ (r.resolveNode (fun _ => 0) n).result = .ok n' := by
  simp only [result_resolve_alone h hn, Report.map_eq_ok_iff, Node.alone_inj, exists_eq_right]

/-- The document fails as the first child does that fails alone. -/
theorem error?_resolve_of_not_contains (h : ∀ key ∈ d.keys, r.contains key = false) :
    Report.error? (r.resolve d).result = d.children.findSome? fun n => Report.error? (r.resolve n.alone).result := by
  have halone : ∀ n ∈ d.children,
      Report.error? (r.resolveNode (fun _ => 0) n).result = Report.error? (r.resolve n.alone).result := fun n hn => by
    rw [result_resolve_alone h hn, Report.error?_map]
  rw [result_resolve_of_not_contains h, Report.error?_map, Report.error?_mapM, ← List.head?_filterMap,
    List.filterMap_congr halone, List.head?_filterMap]

/-- Each child becomes what it becomes alone. -/
theorem children_of_resolve (h : ∀ key ∈ d.keys, r.contains key = false) {d' : Document}
    (hd' : (r.resolve d).result = .ok d') :
    List.Forall₂ (fun n n' => (r.resolve n.alone).result = .ok n'.alone) d.children d'.children := by
  rw [result_resolve_of_not_contains h, Report.map_eq_ok_iff] at hd'
  obtain ⟨nodes, hnodes, rfl⟩ := hd'
  rw [Report.result_mapM_eq_ok_iff, List.forall₂_iff_zip] at hnodes
  refine List.forall₂_iff_zip.mpr ⟨hnodes.1, fun hm => ?_⟩
  exact (result_resolve_alone_eq_ok_iff h (List.of_mem_zip hm).1).mpr (hnodes.2 hm)

end Registry

end StyleTree
