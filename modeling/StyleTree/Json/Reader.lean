import StyleTree.Json.Token

/-! Reading JSON texts. The reader holds the lists and maps that are still open on a stack and takes one
    token at a time. A key that comes again in a map takes the last value and keeps its first place. -/

namespace StyleTree.Json

/-- A list or map that is still open, with its last part first where that is a list. -/
inductive Frame where
  | list (items : List Json)
  | map (fields : List (String × Json))
  /-- a map behind one of its keys -/
  | entry (fields : List (String × Json)) (key : String)

inductive Expect where
  | value
  /-- a value, or the end of the list just begun -/
  | firstItem
  | key
  /-- a key, or the end of the map just begun -/
  | firstKey
  | colon
  /-- a comma or a closing bracket -/
  | next
  /-- nothing but the end of the text -/
  | nothing (result : Json)

/-- The reader: the open lists and maps, innermost first, and what may come next. -/
structure Reader where
  frames : List Frame
  expect : Expect

namespace Reader

/-- A whole value in the innermost open list or map. -/
def place? (frames : List Frame) (v : Json) : Option Reader :=
  match frames with
  | [] => some ⟨[], .nothing v⟩
  | .list items :: rest => some ⟨.list (v :: items) :: rest, .next⟩
  | .entry fields key :: rest => some ⟨.map (Assoc.put fields key v) :: rest, .next⟩
  | .map _ :: _ => none

def close? (frames : List Frame) (bracket : Token) : Option Reader :=
  match frames, bracket with
  | .list items :: rest, .endList => place? rest (.arr items.reverse)
  | .map fields :: rest, .endMap => place? rest (.obj fields)
  | _, _ => none

/-- A new list or map, unless `limit` of them are open. -/
def begin? (limit : Nat) (r : Reader) (frame : Frame) (expect : Expect) : Option Reader :=
  if r.frames.length < limit then some ⟨frame :: r.frames, expect⟩ else none

def value? (limit : Nat) (r : Reader) (t : Token) : Option Reader :=
  match t with
  | .beginList => begin? limit r (.list []) .firstItem
  | .beginMap => begin? limit r (.map []) .firstKey
  | .text s => place? r.frames (.str s)
  | .atom v => place? r.frames v
  | _ => none

def key? (r : Reader) (t : Token) : Option Reader :=
  match r.frames, t with
  | .map fields :: rest, .text s => some ⟨.entry fields s :: rest, .colon⟩
  | _, _ => none

/-- One more token; `none` where no JSON text goes on like this. -/
def step? (limit : Nat) (r : Reader) (t : Token) : Option Reader :=
  match r.expect with
  | .value => value? limit r t
  | .firstItem => if t = .endList then close? r.frames t else value? limit r t
  | .key => key? r t
  | .firstKey => if t = .endMap then close? r.frames t else key? r t
  | .colon => if t = .colon then some ⟨r.frames, .value⟩ else none
  | .next =>
    if t = .comma then
      match r.frames with
      | .list _ :: _ => some ⟨r.frames, .value⟩
      | _ => some ⟨r.frames, .key⟩
    else close? r.frames t
  | .nothing _ => none

def result? (r : Reader) : Option Json :=
  match r.expect with
  | .nothing v => some v
  | _ => none

end Reader

/-- The value of a text in which at most `limit` lists and maps stand inside each other. -/
def readWithin? (limit : Nat) (s : String) : Option Json := do
  (← (← Token.scan? s).foldlM (Reader.step? limit) ⟨[], .value⟩).result?

/-- The greatest nesting of lists and maps that is read. -/
def nestingLimit : Nat := 127

/-- The value of a text. -/
def read? (s : String) : Option Json := readWithin? nestingLimit s

end StyleTree.Json
