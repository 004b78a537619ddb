import Mathlib.Data.List.Forall2
import Mathlib.Data.List.Nodup
import Mathlib.Logic.Relation
import StyleTree.Files.Import

/-! Loading as a walk over the graph of files and imports. The files in progress import one another and at
    last the file at hand, so to come to one of them again is to go round in a cycle. The files that are done
    have all that they import in front of them, so among them there is none. -/

namespace StyleTree

namespace Import

/-! ### The import key -/

/-- Imports are read off one key of a map. It holds the path of one, or a list in which what is no text is passed
    over. -/
theorem mem_targets_iff {document : Json} {target : String} : target ∈ targets document ↔ ∃ fields, document = .obj fields ∧
    (Assoc.get? fields importKey = some (.str target) ∨
      ∃ items, Assoc.get? fields importKey = some (.arr items) ∧ .str target ∈ items) := by
  cases document with
  | obj fields =>
    simp only [targets, Json.obj.injEq, exists_eq_left']
    cases Assoc.get? fields importKey with
    | none => simp
    | some v =>
      cases v with
      | str text => simp [eq_comm]
      | arr items =>
        simp only [List.mem_filterMap, Option.some.injEq, Json.arr.injEq, reduceCtorEq, false_or, exists_eq_left']
        constructor
        · rintro ⟨item, hitem, heq⟩
          cases item <;> cases heq
          exact hitem
        · exact fun h => ⟨.str target, h, rfl⟩
      | null | bool _ | num _ | obj _ => simp
  | null | bool _ | num _ | str _ | arr _ => simp [targets]

/-- The paths of a list are taken in its order. -/
theorem targets_sublist {fields : List (String × Json)} {items : List Json}
    (h : Assoc.get? fields importKey = some (.arr items)) : ((targets (.obj fields)).map Json.str).Sublist items := by
  simp only [targets, h]
  clear h
  induction items with
  | nil => exact .refl _
  | cons item rest ih =>
    cases item with
    | str text => exact ih.cons_cons _
    | null | bool _ | num _ | arr _ | obj _ => exact ih.cons _

/-- Only the import key is taken from a map: all other fields are left, in their order. -/
theorem withoutTargets_obj (fields : List (String × Json)) : ∃ rest, withoutTargets (.obj fields) = .obj rest ∧
    importKey ∉ rest.map (·.1) ∧ rest.Sublist fields ∧ ∀ field ∈ fields, field.1 ≠ importKey → field ∈ rest := by
  refine ⟨Assoc.erase fields importKey, rfl, fun h => ?_, List.filter_sublist, fun field hfield hkey => ?_⟩
  · obtain ⟨field, hfield, hkey⟩ := List.mem_map.mp h
    exact of_decide_eq_true (List.mem_filter.mp hfield).2 hkey
  · exact List.mem_filter.mpr ⟨hfield, decide_eq_true hkey⟩

theorem withoutTargets_of_ne_obj {document : Json} (h : ∀ fields, document ≠ .obj fields) :
    withoutTargets document = document := by
  cases document with
  | obj fields => exact absurd rfl (h fields)
  | null | bool _ | num _ | str _ | arr _ => rfl

/-! ### The graph of imports -/

section
variable (t : FileTree) (cwd : Location) (start : String)

/-- The document in the file at a location, if there is a file, and it can be read and parsed. -/
def documentAt? (l : Location) : Option Json :=
  match t.textAt l with
  | .ok text => Json.read? text
  | .error _ => none

/-- An import of the file at `l` gives the path. -/
def Names (l : Location) (path : String) : Prop :=
  ∃ document, documentAt? t l = some document ∧ path ∈ (targets document).map (FileTree.join l.dropLast)

def Imports (l l' : Location) : Prop := ∃ path, Names t l path ∧ t.locate cwd path = .ok l'

/-- The paths that imports lead to, one after the other. -/
inductive Reaches : String → Prop
  | start : Reaches start
  | next {path path' : String} {l : Location} : Reaches path → t.locate cwd path = .ok l → Names t l path' → Reaches path'

def ReachesFile (l : Location) : Prop := ∃ path, Reaches t cwd start path ∧ t.locate cwd path = .ok l

/-- The path leads to a file that holds a document. -/
def Present (path : String) : Prop := ∃ l document, t.locate cwd path = .ok l ∧ documentAt? t l = some document

def Cyclic (l : Location) : Prop := Relation.TransGen (Imports t cwd) l l

/-! ### Invariants -/

/-- What is loaded so far: files that are reached, each once, with their documents, and before each of them
    all that it imports. -/
structure Sound (s : Loaded) : Prop where
  nodup : s.visited.Nodup
  reached : ∀ l ∈ s.visited, ReachesFile t cwd start l
  documents : List.Forall₂ (fun l d => (documentAt? t l).map withoutTargets = some d) s.visited s.documents
  closed : ∀ l ∈ s.visited, ∀ path, Names t l path →
    ∃ l' ∈ s.visited, t.locate cwd path = .ok l' ∧ s.visited.idxOf l' < s.visited.idxOf l

/-- Every file in progress leads by imports to the path at hand. -/
def OnWay (stack : List Location) (path : String) : Prop :=
  ∀ l ∈ stack, ∃ l', Relation.ReflTransGen (Imports t cwd) l l' ∧ Names t l' path

/-- How the loading of paths goes on from `s`. -/
structure Loads (stack : List Location) (s : Loaded) (paths : List String) (s' : Loaded) : Prop where
  sound : Sound t cwd start s'
  subset : s.visited ⊆ s'.visited
  fresh : ∀ l ∈ s'.visited, l ∈ s.visited ∨ l ∉ stack
  loaded : ∀ path ∈ paths, ∃ l ∈ s'.visited, t.locate cwd path = .ok l

/-- What an error of a loading is about. -/
inductive Faulty : Error → Prop
  | absent {path : String} {e : Error} : Reaches t cwd start path → ¬ Present t cwd path →
      (∀ p, e ≠ .recursiveImport p) → Faulty e
  | cyclic {l : Location} : ReachesFile t cwd start l → Cyclic t cwd l → Faulty (.recursiveImport l.path)

def Outcome (stack : List Location) (s : Loaded) (paths : List String) : Except Error Loaded → Prop
  | .ok s' => Loads t cwd start stack s paths s'
  | .error e => Faulty t cwd start e

end

section
variable {t : FileTree} {cwd : Location} {start : String} {stack : List Location} {s s' s'' : Loaded} {path : String}
  {paths : List String} {l : Location} {document : Json}

theorem Sound.empty : Sound t cwd start {} where
  nodup := List.nodup_nil
  reached := fun _ h => nomatch h
  documents := .nil
  closed := fun _ h => nomatch h

/-- A file whose imports are all loaded comes behind them. -/
theorem Sound.concat (h : Sound t cwd start s) (hl : l ∉ s.visited) (hr : ReachesFile t cwd start l)
    (hd : documentAt? t l = some document)
    (hn : ∀ path, Names t l path → ∃ l' ∈ s.visited, t.locate cwd path = .ok l') :
    Sound t cwd start ⟨s.visited ++ [l], s.documents ++ [withoutTargets document]⟩ where
  nodup := by
    rw [← List.concat_eq_append]
    exact List.Nodup.concat hl h.nodup
  reached := by
    intro l' hl'
    rcases List.mem_append.mp hl' with hl' | hl'
    · exact h.reached l' hl'
    · exact List.mem_singleton.mp hl' ▸ hr
  documents := List.rel_append h.documents (.cons (by rw [hd, Option.map_some]) .nil)
  closed := by
    intro l' hl' path hpath
    rcases List.mem_append.mp hl' with hl' | hl'
    · obtain ⟨l'', hl'', hlocate, hlt⟩ := h.closed l' hl' path hpath
      refine ⟨l'', List.mem_append_left _ hl'', hlocate, ?_⟩
      rwa [List.idxOf_append_of_mem hl'', List.idxOf_append_of_mem hl']
    · obtain rfl := List.mem_singleton.mp hl'
      obtain ⟨l'', hl'', hlocate⟩ := hn path hpath
      refine ⟨l'', List.mem_append_left _ hl'', hlocate, ?_⟩
      rw [List.idxOf_append_of_mem hl'', List.idxOf_append_of_notMem hl]
      exact Nat.lt_of_lt_of_le (List.idxOf_lt_length_of_mem hl'') (Nat.le_add_right ..)

theorem Loads.cons (h : Loads t cwd start stack s [path] s') (h' : Loads t cwd start stack s' paths s'') :
    Loads t cwd start stack s (path :: paths) s'' where
  sound := h'.sound
  subset := List.Subset.trans h.subset h'.subset
  fresh := by
    intro l hl
    rcases h'.fresh l hl with hl | hl
    · exact h.fresh l hl
    · exact .inr hl
  loaded := by
    refine List.forall_mem_cons.mpr ⟨?_, h'.loaded⟩
    obtain ⟨l, hl, hlocate⟩ := h.loaded path List.mem_cons_self
    exact ⟨l, h'.subset hl, hlocate⟩

/-- A file is done when its imports are loaded. -/
theorem Loads.finish (h : Loads t cwd start (l :: stack) s ((targets document).map (FileTree.join l.dropLast)) s')
    (hr : Reaches t cwd start path) (hl : t.locate cwd path = .ok l) (hd : documentAt? t l = some document)
    (hstack : l ∉ stack) (hvisited : l ∉ s.visited) :
    Loads t cwd start stack s [path] ⟨s'.visited ++ [l], s'.documents ++ [withoutTargets document]⟩ where
  sound := by
    have hnew : l ∉ s'.visited := fun hm => (h.fresh l hm).elim hvisited fun hm => hm List.mem_cons_self
    refine h.sound.concat hnew ⟨path, hr, hl⟩ hd ?_
    rintro path' ⟨document', hd', hp⟩
    cases hd.symm.trans hd'
    exact h.loaded path' hp
  subset := fun l' hl' => List.mem_append_left _ (h.subset hl')
  fresh := by
    intro l' hl'
    rcases List.mem_append.mp hl' with hl' | hl'
    · exact (h.fresh l' hl').imp_right fun hm hm' => hm (List.mem_cons_of_mem _ hm')
    · exact .inr (List.mem_singleton.mp hl' ▸ hstack)
  loaded := List.forall_mem_singleton.mpr ⟨l, List.mem_append_right _ List.mem_cons_self, hl⟩

theorem Faulty.of_absent (hr : Reaches t cwd start path) (hl : t.locate cwd path = .ok l) (hd : documentAt? t l = none)
    {e : Error} (he : ∀ p, e ≠ .recursiveImport p) : Faulty t cwd start e := by
  refine .absent hr ?_ he
  rintro ⟨l', document, hl', hd'⟩
  cases hl.symm.trans hl'
  cases hd.symm.trans hd'

/-! ### Runs -/

/-- A file in progress that is come to again lies on a cycle. -/
theorem OnWay.cyclic (h : OnWay t cwd stack path) (hl : t.locate cwd path = .ok l) (hm : l ∈ stack) : Cyclic t cwd l := by
  obtain ⟨l', hway, hnames⟩ := h l hm
  exact Relation.TransGen.tail' hway ⟨path, hnames, hl⟩

theorem OnWay.cons (h : OnWay t cwd stack path) (hl : t.locate cwd path = .ok l) {path' : String} (hp : Names t l path') :
    OnWay t cwd (l :: stack) path' := by
  refine List.forall_mem_cons.mpr ⟨⟨l, .refl, hp⟩, fun l₀ hl₀ => ?_⟩
  obtain ⟨l', hway, hnames⟩ := h l₀ hl₀
  exact ⟨l, hway.tail ⟨path, hnames, hl⟩, hp⟩

/-- A loading of several paths is as good as that of each. -/
theorem outcome_loadFiles (paths : List String) (hs : Sound t cwd start s)
    (h : ∀ path ∈ paths, ∀ s, Sound t cwd start s → Outcome t cwd start stack s [path] (loadFile t cwd stack s path)) :
    Outcome t cwd start stack s paths (loadFiles t cwd stack s paths) := by
  induction paths generalizing s with
  | nil =>
    rw [loadFiles]
    exact ⟨hs, List.Subset.refl _, fun _ hl => .inl hl, List.forall_mem_nil _⟩
  | cons path rest ih =>
    have hfile := h path List.mem_cons_self s hs
    rw [loadFiles]
    cases hload : loadFile t cwd stack s path with
    | error e =>
      rw [hload] at hfile
      exact hfile
    | ok s' =>
      rw [hload] at hfile
      have hrest := ih hfile.sound fun p hp => h p (List.mem_cons_of_mem _ hp)
      show Outcome t cwd start stack s (path :: rest) (loadFiles t cwd stack s' rest)
      cases hloads : loadFiles t cwd stack s' rest with
      | error e =>
        rw [hloads] at hrest
        exact hrest
      | ok s'' =>
        rw [hloads] at hrest
        exact Loads.cons hfile hrest

/-- Loading a file either goes well or fails for a reason. The files in progress are different ones of the tree,
    so imports are loaded with fewer of them left. -/
theorem outcome_loadFile (hs : Sound t cwd start s) (hr : Reaches t cwd start path) (hw : OnWay t cwd stack path) :
    Outcome t cwd start stack s [path] (loadFile t cwd stack s path) := by
  induction hn : remaining t stack using Nat.strongRecOn generalizing stack s path with
  | _ n ih =>
    rw [loadFile]
    split
    · next fault hl =>
      refine .absent hr ?_ (by simp)
      rintro ⟨l, document, hl', -⟩
      cases hl.symm.trans hl'
    · next l hl =>
      split
      · next hstack => exact .cyclic ⟨path, hr, hl⟩ (hw.cyclic hl hstack)
      · next hstack =>
        split
        · next hvisited =>
          exact ⟨hs, List.Subset.refl _, fun _ hm => .inl hm, List.forall_mem_singleton.mpr ⟨l, hvisited, hl⟩⟩
        · next hvisited =>
          split
          · next fault htext => exact .of_absent hr hl (by rw [documentAt?, htext]) (by simp)
          · next text htext =>
            have hread : documentAt? t l = Json.read? text := by rw [documentAt?, htext]
            split
            · next hnone => exact .of_absent hr hl (hread.trans hnone) (by simp)
            · next document hsome =>
              have hd := hread.trans hsome
              have himports := outcome_loadFiles ((targets document).map (FileTree.join l.dropLast)) hs
                fun path' hp s hs => ih _ (hn ▸ remaining_cons_lt htext hstack) hs (.next hr hl ⟨document, hd, hp⟩)
                    (hw.cons hl ⟨document, hd, hp⟩) rfl
              generalize loadFiles t cwd (l :: stack) s _ = out at himports ⊢
              cases out with
              | error e => exact himports
              | ok s' => exact himports.finish hr hl hd hstack hvisited

/-! ### What is loaded -/

theorem Sound.documentAt? (h : Sound t cwd start s) (hl : l ∈ s.visited) : ∃ document, Import.documentAt? t l = some document := by
  have hall : List.Forall₂ (fun l _ => (∃ document, Import.documentAt? t l = some document) ∧ True) s.visited s.documents :=
    h.documents.imp fun _ _ hd => ⟨(Option.map_eq_some_iff.mp hd).imp fun _ h => h.1, trivial⟩
  exact ((List.forall₂_and_left _ _).mp hall).1 l hl

end

theorem outcome_start (t : FileTree) (cwd : Location) (start : String) :
    Outcome t cwd start [] {} [start] (loadFile t cwd [] {} start) :=
  outcome_loadFile .empty .start fun _ h => nomatch h

/-- No document that is loaded has an import key. -/
theorem importKey_not_mem_of_load {t : FileTree} {cwd : Location} {start : String} {documents : List Json}
    (h : load t cwd start = .ok documents) {fields : List (String × Json)} (hm : .obj fields ∈ documents) :
    importKey ∉ fields.map (·.1) := by
  have houtcome := outcome_start t cwd start
  rw [load, Report.map_eq_ok_iff] at h
  obtain ⟨s, hs, rfl⟩ := h
  rw [hs] at houtcome
  have hall : List.Forall₂ (fun d _ => (∃ document, withoutTargets document = d) ∧ True) s.documents s.visited :=
    houtcome.sound.documents.flip.imp fun _ _ hd => ⟨(Option.map_eq_some_iff.mp hd).imp fun _ h => h.2, trivial⟩
  obtain ⟨document, hdocument⟩ := ((List.forall₂_and_left _ _).mp hall).1 _ hm
  cases document with
  | obj fields' =>
    obtain ⟨rest, hrest, hnot, -⟩ := withoutTargets_obj fields'
    cases hdocument.symm.trans hrest
    exact hnot
  | null | bool _ | num _ | str _ | arr _ => cases hdocument

/-- A file that is named twice is read once, behind the files it imports. -/
example : load ⟨[(["a"], some "\x7b\"@import\":[\"b\",\"c\"]\x7d"), (["b"], some "\x7b\"@import\":\"./c\"\x7d"),
    (["c"], some "[]")], []⟩ [] "a" = .ok [.arr [], .obj [], .obj []] := by
  cbv

example : load ⟨[(["a"], some "\x7b\"@import\":\"b\"\x7d"), (["b"], some "\x7b\"@import\":\"./b\"\x7d")], []⟩ [] "a" =
    .error (.recursiveImport "/b") := by
  cbv

end Import

end StyleTree
