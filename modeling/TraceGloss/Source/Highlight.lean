import TraceGloss.Source.Position
import TraceGloss.Text.Colour

/-
  Marking a span inside the lines of a file. Each line the span touches is cut in three: what stands
  before the span, the part inside it, which is marked, and what stands behind it.
-/
namespace TraceGloss

/-- How the part of a line inside a span is marked. -/
inductive Highlight
  /-- In bright blue, where colours are on. -/
  | ansi
  /-- Between two strings. -/
  | delimited (opening closing : String)
  | plain
deriving DecidableEq, Inhabited

namespace Highlight

def apply (colour : Bool) : Highlight → String → String
  | ansi, text => Text.Colour.brightBlue.paint colour text
  | delimited opening closing, text => opening ++ text ++ closing
  | plain, text => text

/-- A line whose part behind `skip` characters is marked, up to `width` characters if given. -/
def markLine (mark : String → String) (skip : Nat) (width : Option Nat) (line : String) : String :=
  let text := line.toList
  let rest := text.drop skip
  let body := match width with
    | some n => rest.take n
    | none => rest
  let tail := match width with
    | some n => rest.drop n
    | none => []
  String.ofList (text.take skip) ++ mark (String.ofList body) ++ String.ofList tail

/-- The lines after the first one of a span that ends in the last line before `column`. -/
def markRest (mark : String → String) (column : Nat) : List String → List String
  | [] => []
  | [last] => [markLine mark 0 (some column) last]
  | line :: rest => markLine mark 0 none line :: markRest mark column rest

/-- The lines of a span that starts in the first line at column `first` and ends in the last one
before column `stop`. -/
def markLines (mark : String → String) (first stop : Nat) : List String → List String
  | [] => []
  | [line] => [markLine mark first (some (stop - first)) line]
  | line :: rest => markLine mark first none line :: markRest mark stop rest

end Highlight

end TraceGloss
