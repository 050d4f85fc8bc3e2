import TraceGloss.Json.Printer
import TraceGloss.Json.Reading
import TraceGloss.Provenance.Session
import TraceGloss.Source.Highlight

/-
  Settings of a tracer, and their JSON form. A setting that is left out has its default.
-/
namespace TraceGloss

open Json

namespace Highlight

def toJson : Highlight → Json
  | ansi => .string "ansi"
  | plain => .string "none"
  | delimited opening closing =>
    record [("delimited", record [("open", .string opening), ("close", .string closing)])]

/-- The two delimiters while they are being read. -/
structure Draft where
  opening : Option String := none
  closing : Option String := none

def fields : List (RecordField Draft) :=
  [.part "open" readString Draft.opening fun d v => { d with opening := some v },
    .part "close" readString Draft.closing fun d v => { d with closing := some v }]

def ofDraft (missing : String → ReadError) (d : Draft) : Read Highlight := do
  let opening ← required missing "open" d.opening
  let closing ← required missing "close" d.closing
  return .delimited opening closing

/-- A style without delimiters is written with `null`, if not as a string. -/
def readUnit (style : Highlight) : Json → Read Highlight
  | .null => .ok style
  | value => .error value.unfit

/-- The delimiters of a style. From a whole value they are read by name only. -/
def readDelimiters (manner : Manner) : Json → Read Highlight
  | .array items =>
    match manner with
    | .streamed => readRecord fields {} .streamed ofDraft (.array items)
    | .whole => .error (.mismatch .kind)
  | value => readRecord fields {} manner ofDraft value

/-- The style with a name, and what is written with it. -/
def readNamed (manner : Manner) (name : String) (value : Json) : Read Highlight :=
  if name = "ansi" then readUnit ansi value
  else if name = "none" then readUnit plain value
  else if name = "delimited" then readDelimiters manner value
  else .error (.mismatch .kind)

/-- A style: its name, or an object of that name alone. -/
def read (manner : Manner) : Json → Read Highlight
  | .string "ansi" => .ok ansi
  | .string "none" => .ok plain
  | .string _ => .error (.mismatch .kind)
  | .object ((name, value) :: rest) stop =>
    match manner with
    | .streamed => do
      let style ← readNamed .streamed name value
      if rest.isEmpty ∧ stop.isNone then return style else .error .malformed
    | .whole => if rest.isEmpty then readNamed .whole name value else .error (.mismatch .kind)
  | _ => .error manner.surplus

end Highlight

structure Config where
  /-- Values below this are shown as literals. -/
  threshold : UInt64 := defaultThreshold
  highlight : Highlight := .ansi
  /-- Whether each sink runs on its own. -/
  concurrentSinks : Bool := true
deriving DecidableEq, Inhabited

namespace Config

def toJson (c : Config) : Json :=
  record [("small_value_threshold", .natural c.threshold.toNat),
    ("highlight", c.highlight.toJson), ("concurrent_sinks", .bool c.concurrentSinks)]

/-- Settings while they are being read. -/
structure Draft where
  threshold : Option UInt64 := none
  highlight : Option Highlight := none
  concurrentSinks : Option Bool := none

def fields : List (RecordField Draft) :=
  [.part "small_value_threshold" readUInt64 Draft.threshold
      fun d v => { d with threshold := some v },
    .part "highlight" (Highlight.read .streamed) Draft.highlight fun d v => { d with highlight := some v },
    .part "concurrent_sinks" readBool Draft.concurrentSinks
      fun d v => { d with concurrentSinks := some v }]

def ofDraft (_ : String → ReadError) (d : Draft) : Read Config :=
  .ok {
    threshold := d.threshold.getD defaultThreshold
    highlight := d.highlight.getD .ansi
    concurrentSinks := d.concurrentSinks.getD true }

def read (value : Json) : Read Config := readRecord fields {} .streamed ofDraft value

end Config

/-- A table of named constants. -/
abbrev Constants := Table String Word

namespace Constants

def read (value : Json) : Read Constants := readTable (fun name => .ok name) readWord value

end Constants

end TraceGloss
