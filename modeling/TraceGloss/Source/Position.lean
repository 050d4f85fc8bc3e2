/-
  Positions in a source file: a line counted from one and a column counted in characters from zero.
  `locate` turns a byte offset into a position. A character counts as soon as the offset lies behind
  its first byte, and an offset behind the end of the text is its end.
-/
namespace TraceGloss

structure Position where
  line : Nat
  column : Nat
deriving DecidableEq, Inhabited

namespace Position

/-- The start of a file. -/
def start : Position := ⟨1, 0⟩

/-- The position behind one more character. -/
def advance (p : Position) (c : Char) : Position :=
  if c = '\n' then ⟨p.line + 1, 0⟩ else ⟨p.line, p.column + 1⟩

end Position

namespace Text

/-- The position behind the characters of a text that begin before a byte offset, counted from `p`. -/
def locateFrom (p : Position) : Nat → List Char → Position
  | 0, _ => p
  | _ + 1, [] => p
  | offset + 1, c :: rest => locateFrom (p.advance c) (offset + 1 - c.utf8Size) rest

/-- The position of a byte offset. -/
def locate (text : List Char) (offset : Nat) : Position := locateFrom .start offset text

/-- Puts a character in front of a list of lines. -/
def prependToLines (c : Char) (found : List (List Char)) : List (List Char) :=
  if c = '\n' then [] :: found
  else
    match found with
    | [] => [[c]]
    | line :: others => (c :: line) :: others

/-- The lines of a text, without their line feeds. -/
def lines (text : List Char) : List (List Char) := text.foldr prependToLines [[]]

end Text

/-- A span of a source file. -/
structure SourceRange where
  file : String
  start : Position
  stop : Position
deriving DecidableEq, Inhabited

namespace SourceRange

/-- Written `file:line[column-column]` on one line, `file:line[column]-line[column]` across lines. -/
def label (r : SourceRange) : String :=
  let head := r.file ++ ":" ++ toString r.start.line ++ "[" ++ toString r.start.column
  if r.start.line = r.stop.line then head ++ "-" ++ toString r.stop.column ++ "]"
  else head ++ "]-" ++ toString r.stop.line ++ "[" ++ toString r.stop.column ++ "]"

end SourceRange

end TraceGloss
