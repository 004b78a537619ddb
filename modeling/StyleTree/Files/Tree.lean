import StyleTree.Error

/-! Trees of files. A path is resolved name by name from a starting directory: every name but the last
    has to lead to a directory, a dot stays where it is, and two dots go one directory up. So each file
    has one location, whatever path leads to it.

    There are no symbolic links in a tree. That several paths lead to one file is only for the dots in them, for
    doubled slashes, and for the directory that a relative path starts from. -/

namespace StyleTree

/-- The names from the root down to a file or directory. -/
abbrev Location := List String

def Location.path (l : Location) : String := "/" ++ Text.joinWith "/" l

/-- Files by location, and directories beyond those the files are in. A file holds a text, or bytes that
    are no text. -/
structure FileTree where
  files : List (Location × Option String) := []
  directories : List Location := []

namespace FileTree

def isFile (t : FileTree) (l : Location) : Bool := Assoc.contains t.files l

/-- Whether the location is a directory: the root, or one on the way to a directory or a file. -/
def isDirectory (t : FileTree) (l : Location) : Bool :=
  l.isEmpty || t.directories.any (l.isPrefixOf ·) || t.files.any fun f => f.1 != l && l.isPrefixOf f.1

/-! ### Paths -/

/-- The names of a path, which stand between slashes. -/
def names : List Char → List (List Char)
  | [] => [[]]
  | c :: rest =>
    if c = '/' then [] :: names rest
    else
      match names rest with
      | [] => [[c]]
      | n :: ns => (c :: n) :: ns

/-- Where a name leads from a location that exists. -/
def enter (t : FileTree) (l : Location) (name : String) : Except FileFault Location :=
  if t.isFile l then .error .notDirectory
  else if name = "" ∨ name = "." then .ok l
  else if name = ".." then .ok l.dropLast
  else if t.isFile (l ++ [name]) || t.isDirectory (l ++ [name]) then .ok (l ++ [name])
  else .error .missing

def isAbsolute (path : String) : Bool := path.toList.head? == some '/'

def locate (t : FileTree) (cwd : Location) (path : String) : Except FileFault Location :=
  if path.toList.contains '\x00' then .error .nulInName
  else if path = "" then .error .missing
  else ((names path.toList).map String.ofList).foldlM t.enter (if isAbsolute path then [] else cwd)

/-- The path `target` seen from the directory at `base`. -/
def join (base : Location) (target : String) : String :=
  if isAbsolute target then target
  else if base.isEmpty then base.path ++ target
  else base.path ++ "/" ++ target

/-! ### Contents -/

def textAt (t : FileTree) (l : Location) : Except FileFault String :=
  match Assoc.get? t.files l with
  | some (some text) => .ok text
  | some none => .error .notText
  | none => .error .isDirectory

def read (t : FileTree) (cwd : Location) (path : String) : Except FileFault String := do
  t.textAt (← t.locate cwd path)

/-- The tree with a text in the file that a path names. Its directory has to exist. -/
def write (t : FileTree) (cwd : Location) (path text : String) : Except FileFault FileTree := do
  let ns := (names path.toList).map String.ofList
  let directory ← t.locate cwd (Text.joinWith "/" (ns.dropLast ++ ["."]))
  let name := ns.getLastD ""
  if name ∈ ["", ".", ".."] ∨ t.isDirectory (directory ++ [name]) then .error .isDirectory
  else .ok { t with files := Assoc.put t.files (directory ++ [name]) (some text) }

end FileTree

end StyleTree
