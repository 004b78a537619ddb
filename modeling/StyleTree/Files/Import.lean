import StyleTree.Files.Tree
import StyleTree.Json.Reader
import StyleTree.Options
import StyleTree.Storage

/-! Loading documents from files. A document names the files it imports under one key of its top-level
    map; they are loaded before it, each file once. A file that imports itself, directly or through
    others, is an error. Loading ends because every import in progress is a different file of the tree. -/

namespace StyleTree

namespace FileTree

def readJson (t : FileTree) (cwd : Location) (path : String) : Except Error Json :=
  match t.read cwd path with
  | .error fault => .error (.unreadable path fault)
  | .ok text =>
    match Json.read? text with
    | some v => .ok v
    | none => .error (.invalidJson path)

def readOptions (t : FileTree) (cwd : Location) (path : String) : Except Error Options := do
  Options.ofValue (← t.readJson cwd path)

/-- Stored values from a file, which holds one map. -/
def readStorage (t : FileTree) (cwd : Location) (path : String) : Except Error Storage := do
  Storage.setMany {} (← t.readJson cwd path)

end FileTree

namespace Import

def importKey : String := "@import"

def targets : Json → List String
  | .obj fields =>
    match Assoc.get? fields importKey with
    | some (.str target) => [target]
    | some (.arr items) => items.filterMap fun
      | .str target => some target
      | _ => none
    | _ => []
  | _ => []

def withoutTargets : Json → Json
  | .obj fields => .obj (Assoc.erase fields importKey)
  | v => v

/-- What is loaded so far: the files, and their documents in order. -/
structure Loaded where
  visited : List Location := []
  documents : List Json := []

/-- How many files of the tree are not in progress. -/
def remaining (t : FileTree) (stack : List Location) : Nat := (t.files.filter fun f => f.1 ∉ stack).length

/-- A file that is read is a file of the tree, so taking it in hand leaves fewer. -/
theorem remaining_cons_lt {t : FileTree} {stack : List Location} {l : Location} {text : String}
    (h : t.textAt l = .ok text) (hl : l ∉ stack) : remaining t (l :: stack) < remaining t stack := by
  have hm : ∃ f ∈ t.files, f.1 = l := by
    rw [FileTree.textAt] at h
    split at h
    · next hg =>
      have := Assoc.contains_iff (m := t.files) (k := l) |>.mp (by rw [Assoc.contains_eq_isSome, hg]; rfl)
      exact List.mem_map.mp this
    · cases h
    · cases h
  obtain ⟨f, hf, rfl⟩ := hm
  have hs : t.files.filter (fun g => g.1 ∉ f.1 :: stack) =
      (t.files.filter fun g => g.1 ∉ stack).filter fun g => g.1 ≠ f.1 := by
    rw [List.filter_filter]
    exact List.filter_congr fun g _ => by simp
  rw [remaining, remaining, hs, List.length_filter_lt_length_iff_exists]
  exact ⟨f, List.mem_filter.mpr ⟨hf, by simpa using hl⟩, by simp⟩

mutual

/-- Loads the file that a path leads to, after the files it imports. The files in progress are on the
    stack. -/
def loadFile (t : FileTree) (cwd : Location) (stack : List Location) (s : Loaded) (path : String) :
    Except Error Loaded :=
  match t.locate cwd path with
  | .error fault => .error (.unreadable path fault)
  | .ok l =>
    if _ : l ∈ stack then .error (.recursiveImport l.path)
    else if l ∈ s.visited then .ok s
    else
      match _ : t.textAt l with
      | .error fault => .error (.unreadable l.path fault)
      | .ok text =>
        match Json.read? text with
        | none => .error (.invalidJson l.path)
        | some document => do
          let s ← loadFiles t cwd (l :: stack) s ((targets document).map (FileTree.join l.dropLast))
          return ⟨s.visited ++ [l], s.documents ++ [withoutTargets document]⟩
termination_by (remaining t stack, 0)
decreasing_by exact Prod.Lex.left _ _ (remaining_cons_lt ‹_› ‹_›)

/-- Loads the files that the paths lead to, in order. -/
def loadFiles (t : FileTree) (cwd : Location) (stack : List Location) (s : Loaded) :
    List String → Except Error Loaded
  | [] => .ok s
  | path :: rest => do loadFiles t cwd stack (← loadFile t cwd stack s path) rest
termination_by paths => (remaining t stack, paths.length + 1)
decreasing_by
  · exact Prod.Lex.right _ (by omega)
  · exact Prod.Lex.right _ (by simp)

end

/-- The documents of a file and of all it imports, in the order in which they are added. -/
def load (t : FileTree) (cwd : Location) (path : String) : Except Error (List Json) :=
  (loadFile t cwd [] {} path).map Loaded.documents

end Import

end StyleTree
