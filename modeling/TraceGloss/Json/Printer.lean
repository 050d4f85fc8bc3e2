import TraceGloss.Hex
import TraceGloss.Json.Basic

/-
  Writing JSON.
  `compact` writes without blanks; `pretty` indents by two blanks and puts a blank behind a colon.
  Strings escape the quote, the backslash and control characters below the blank, and nothing else.
-/
namespace TraceGloss.Json

/-- The text of one character inside a string. -/
def escape (c : Char) : String :=
  match c with
  | '"' => "\\\""
  | '\\' => "\\\\"
  | '\x08' => "\\b"
  | '\x0c' => "\\f"
  | '\n' => "\\n"
  | '\r' => "\\r"
  | '\t' => "\\t"
  | c =>
    if c.toNat < 32 then
      "\\u00" ++ String.ofList [Hex.digit (c.toNat / 16), Hex.digit (c.toNat % 16)]
    else String.singleton c

def quote (s : String) : String :=
  "\"" ++ s.foldl (fun text c => text ++ escape c) "" ++ "\""

mutual

/-- The text of a value without blanks; a fault has no text. -/
def compact : Json → String
  | .null => "null"
  | .bool true => "true"
  | .bool false => "false"
  | .natural n => toString n
  | .decimal n => n.text
  | .string s => quote s
  | .array items => "[" ++ ",".intercalate (compactItems items) ++ "]"
  | .object members _ => "\x7b" ++ ",".intercalate (compactMembers members) ++ "\x7d"
  | .fault _ => ""

def compactItems : List Json → List String
  | [] => []
  | item :: rest => item.compact :: compactItems rest

def compactMembers : List (String × Json) → List String
  | [] => []
  | (key, value) :: rest => (quote key ++ ":" ++ value.compact) :: compactMembers rest

end

/-- A line break and the indentation of a nesting depth. -/
def lineBreak (depth : Nat) : String := "\n" ++ String.ofList (List.replicate (2 * depth) ' ')

mutual

/-- The indented text of a value that stands at a nesting depth. -/
def prettyAt (depth : Nat) : Json → String
  | .array (item :: items) =>
    "[" ++ lineBreak (depth + 1) ++
      ("," ++ lineBreak (depth + 1)).intercalate (prettyItems (depth + 1) (item :: items)) ++
      lineBreak depth ++ "]"
  | .object (member :: members) _ =>
    "\x7b" ++ lineBreak (depth + 1) ++
      ("," ++ lineBreak (depth + 1)).intercalate (prettyMembers (depth + 1) (member :: members)) ++
      lineBreak depth ++ "\x7d"
  | value => value.compact

def prettyItems (depth : Nat) : List Json → List String
  | [] => []
  | item :: rest => prettyAt depth item :: prettyItems depth rest

def prettyMembers (depth : Nat) : List (String × Json) → List String
  | [] => []
  | (key, value) :: rest => (quote key ++ ": " ++ prettyAt depth value) :: prettyMembers depth rest

end

/-- The indented text of a value. -/
def pretty (value : Json) : String := value.prettyAt 0

end TraceGloss.Json
