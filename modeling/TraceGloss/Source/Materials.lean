import Std.Data.HashMap
import TraceGloss.Opcode
import TraceGloss.Source.Highlight
import TraceGloss.Source.Map

/-
  From program counters to source.
  `Materials` hold, for one contract, the source range of each program counter and the lines of each
  file. `Materials.compile` pairs the entries of a source map with the instructions of the code, in
  order; `Materials.resolve` shows the lines behind a program counter with the range marked.
-/
namespace TraceGloss

structure SourceFile where
  path : String
  content : String
deriving DecidableEq, Inhabited

/-- The source behind one program counter. -/
structure SourceContext where
  snippet : String
  label : String
deriving DecidableEq, Inhabited

namespace SourceContext

/-- The context on one line, without blanks around the snippet. -/
def text (c : SourceContext) : String := c.label ++ " " ++ Text.trim c.snippet

end SourceContext

structure Materials where
  ranges : Std.HashMap Nat SourceRange := {}
  sources : Std.HashMap String (List String) := {}

instance : Inhabited Materials := ⟨{}⟩

namespace Materials

/-- The range of an entry, unless it names no file with content. -/
def rangeOf? (files : List SourceFile) (entry : SourceEntry) : Option SourceRange :=
  match entry.file with
  | .negSucc _ => none
  | .ofNat index =>
    match files[index]? with
    | none => none
    | some file =>
      if file.content.isEmpty then none
      else
        let text := file.content.toList
        some ⟨file.path, Text.locate text entry.offset,
          Text.locate text (entry.offset + entry.length)⟩

/-- The width of the instruction that a byte starts, immediate bytes included. -/
def instructionWidth (byte : UInt8) : Nat :=
  match Opcode.ofCode? byte with
  | some op => 1 + op.immediateWidth
  | none => 1

/-- The mapped program counters of code that starts at `pc`: each entry belongs to the next
instruction, as long as there is one. -/
def mapEntries (files : List SourceFile) (pc : Nat) (code : List UInt8) :
    List SourceEntry → List (Nat × SourceRange)
  | [] => []
  | entry :: rest =>
    match code with
    | [] => []
    | byte :: _ =>
      let width := instructionWidth byte
      let others := mapEntries files (pc + width) (code.drop width) rest
      match rangeOf? files entry with
      | some range => (pc, range) :: others
      | none => others

/-- The lines of each file; of files with one path the last stands. -/
def linesOf (files : List SourceFile) : Std.HashMap String (List String) :=
  files.foldl (fun found file =>
    found.insert file.path ((Text.lines file.content.toList).map String.ofList)) {}

/-- The materials of code, its source map and the files that the map counts. -/
def compile (code : List UInt8) (sourceMap : String) (files : List SourceFile) :
    Except SourceMapError Materials := do
  let entries ← SourceMap.parse sourceMap
  return {
    ranges := (mapEntries files 0 code entries).foldl (fun found e => found.insert e.1 e.2) {}
    sources := linesOf files }

def range? (m : Materials) (pc : Nat) : Option SourceRange := m.ranges[pc]?

def lines? (m : Materials) (file : String) : Option (List String) := m.sources[file]?

/-- The number of mapped program counters. -/
def mapped (m : Materials) : Nat := m.ranges.size

/-- The lines of a file that a range touches, if it touches any. -/
def selected? (lines : List String) (r : SourceRange) : Option (List String) :=
  let stop := min r.stop.line lines.length
  if 1 ≤ r.start.line ∧ r.start.line ≤ stop then
    some ((lines.drop (r.start.line - 1)).take (stop + 1 - r.start.line))
  else none

/-- The source behind a program counter, with its range marked. -/
def resolve (m : Materials) (pc : Nat) (mark : String → String) : Option SourceContext := do
  let range ← m.range? pc
  let lines ← m.lines? range.file
  let selected ← selected? lines range
  return {
    snippet := "\n".intercalate
      (Highlight.markLines mark range.start.column range.stop.column selected)
    label := range.label }

end Materials

end TraceGloss
