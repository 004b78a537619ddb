import StyleTree.Command.Run

/-! The program. It reads the files that a request names and those they import, and leaves the rest to
    `Build`. -/

namespace StyleTree.Command

/-- Where a path leads from a location, name by name, without a look at the files. -/
def trail (l : Location) : List String → List Location
  | [] => [l]
  | n :: ns => l :: trail (if n = "" ∨ n = "." then l else if n = ".." then l.dropLast else l ++ [n]) ns

/-- The tree with the file at a path, and with the files it imports in turn. -/
partial def gather (cwd : Location) (t : FileTree) (path : String) : IO FileTree := do
  let ns := (FileTree.names path.toList).map String.ofList
  let ls := trail (if FileTree.isAbsolute path then [] else cwd) ns
  let l := ls.getLastD []
  if t.isFile l then return t
  let bytes ← try some <$> IO.FS.readBinFile path catch _ => pure none
  match bytes with
  | none => return t
  | some bytes =>
    let content := String.fromUTF8? bytes
    let t := { files := Assoc.put t.files l content, directories := t.directories ++ ls.dropLast }
    match content.bind Json.read? with
    | none => return t
    | some document => ((Import.targets document).map (FileTree.join l.dropLast)).foldlM (gather cwd) t

def Build.gather (b : Build) (cwd : Location) : IO FileTree :=
  (b.config.toList ++ b.storage.toList ++ b.inputs).foldlM (Command.gather cwd) { directories := [cwd] }

def warningLine (w : Warning) : String :=
  "WARN " ++ w.message ++ String.join (w.details.map fun d => " " ++ d.1 ++ "=" ++ Text.quote d.2)

def Build.perform (b : Build) : IO UInt32 := do
  let cwd := ((FileTree.names (← IO.currentDir).toString.toList).map String.ofList).filter (· ≠ "")
  match b.compiler (← b.gather cwd) cwd with
  | .error failure =>
    IO.eprintln ("Error: " ++ failure.message)
    return 1
  | .ok c =>
    let r := b.report c
    for w in r.warnings do IO.eprintln (warningLine w)
    match r.result with
    | .error e =>
      IO.eprintln ("Error: " ++ e.message)
      return 1
    | .ok text =>
      match b.output with
      | none =>
        IO.print text
        return 0
      | some path =>
        try
          IO.FS.writeFile path text
          return 0
        catch _ =>
          IO.eprintln ("Error: " ++ (Failure.output path).message)
          return 1

def usage : String :=
  "usage: build INPUT... [-o FILE] [--minify] [--keep-camel-case] [--no-combine] [--config FILE]\n" ++
    "       [--storage FILE] [--json] [-v]"

end StyleTree.Command

open StyleTree.Command in
def main (arguments : List String) : IO UInt32 := do
  match Request.parse arguments with
  | .error fault =>
    IO.eprintln ("error: " ++ fault.message ++ "\n\n" ++ usage)
    return 2
  | .ok .help =>
    IO.println usage
    return 0
  | .ok (.build b) => b.perform
