import StyleTree.Json.Basic
import StyleTree.Text.Join
import StyleTree.Text.Quoted

/-! The texts of JSON values: without spaces, in indented lines, and as a listing that names the kind of
    each value. -/

namespace StyleTree.Json

/-- A character of a text: escaped where JSON asks for it, and itself otherwise. -/
def escapeChar (c : Char) : String :=
  if c = '"' then "\\\""
  else if c = '\\' then "\\\\"
  else if c = '\x08' then "\\b"
  else if c = '\x0c' then "\\f"
  else if c = '\n' then "\\n"
  else if c = '\r' then "\\r"
  else if c = '\t' then "\\t"
  else if c.toNat < 32 then "\\u" ++ String.ofList (List.replicate (4 - (Nat.toDigits 16 c.toNat).length) '0') ++ Text.hexadecimal c.toNat
  else c.toString

def quoted (s : String) : String := "\"" ++ String.join (s.toList.map escapeChar) ++ "\""

mutual

def text : Json → String
  | .null => "null"
  | .bool true => "true"
  | .bool false => "false"
  | .num n => n.text
  | .str s => quoted s
  | .arr items => "[" ++ Text.joinWith "," (itemTexts items) ++ "]"
  | .obj fields => "\x7b" ++ Text.joinWith "," (fieldTexts fields) ++ "\x7d"

def itemTexts : List Json → List String
  | [] => []
  | v :: rest => text v :: itemTexts rest

def fieldTexts : List (String × Json) → List String
  | [] => []
  | (k, v) :: rest => (quoted k ++ ":" ++ text v) :: fieldTexts rest

end

/-! ### Indented lines -/

/-- The parts on lines of their own, indented one step further than the brackets around them. -/
def block (opening closing margin : String) (parts : List String) : String :=
  if parts.isEmpty then opening ++ closing
  else opening ++ "\n" ++ Text.joinWith ",\n" (parts.map (margin ++ "  " ++ ·)) ++ "\n" ++ margin ++ closing

mutual

/-- The value in lines behind `margin`. -/
def lines (margin : String) : Json → String
  | .arr items => block "[" "]" margin (itemLines (margin ++ "  ") items)
  | .obj fields => block "\x7b" "\x7d" margin (fieldLines (margin ++ "  ") fields)
  | .null => "null"
  | .bool true => "true"
  | .bool false => "false"
  | .num n => n.text
  | .str s => quoted s

def itemLines (margin : String) : List Json → List String
  | [] => []
  | v :: rest => lines margin v :: itemLines margin rest

def fieldLines (margin : String) : List (String × Json) → List String
  | [] => []
  | (k, v) :: rest => (quoted k ++ ": " ++ lines margin v) :: fieldLines margin rest

end

/-- The value in lines, indented by two spaces for each list or map around them. -/
def prettyText (v : Json) : String := lines "" v

/-! ### Listing -/

mutual

/-- The value with the name of its kind. -/
def listing : Json → String
  | .null => "Null"
  | .bool true => "Bool(true)"
  | .bool false => "Bool(false)"
  | .num n => "Number(" ++ n.text ++ ")"
  | .str s => "String(" ++ Text.quote s ++ ")"
  | .arr items => "Array [" ++ Text.joinWith ", " (itemListings items) ++ "]"
  | .obj fields => "Object \x7b" ++ Text.joinWith ", " (fieldListings fields) ++ "\x7d"

def itemListings : List Json → List String
  | [] => []
  | v :: rest => listing v :: itemListings rest

def fieldListings : List (String × Json) → List String
  | [] => []
  | (k, v) :: rest => (Text.quote k ++ ": " ++ listing v) :: fieldListings rest

end

end StyleTree.Json
