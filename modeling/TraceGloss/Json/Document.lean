import TraceGloss.Json.Lexeme

/-
  Reading a JSON text.
  A `Scan` holds the arrays and objects that are still open and what may come next; `Scan.step` takes
  one lexeme. Where a lexeme does not fit, or the text ends, everything open is closed with a fault in
  the innermost place. `Document.ofText` is total and keeps whether something follows the value.
-/
namespace TraceGloss.Json

/-- Containers nested deeper than this are not read. -/
def depthLimit : Nat := 127

/-- An array or object that is still open, its contents newest first. -/
inductive Opened
  | array (items : List Json)
  /-- An object and the key whose value is next. `unreadable` is set from its first unreadable key
  on, and its members are no longer kept. -/
  | object (members : List (String × Json)) (unreadable : Bool) (key : String)

namespace Opened

/-- Puts a finished value in its place. -/
def put (value : Json) : Opened → Opened
  | .array items => .array (value :: items)
  | .object members unreadable key =>
    .object (if unreadable then members else (key, value) :: members) unreadable key

/-- The value of a container that was closed properly. -/
def closed : Opened → Json
  | .array items => .array items.reverse
  | .object members unreadable _ =>
    .object members.reverse (if unreadable then some .unreadable else none)

/-- The value of a container in which the text breaks. -/
def cut : Opened → Json
  | .array items => .array items.reverse
  | .object members _ _ => .object members.reverse (some .broken)

end Opened

/-- What may come next. -/
inductive Expect
  /-- A value, or the bracket of an array just opened. -/
  | value (orBracket : Bool)
  /-- A key, or the brace of an object just opened. -/
  | key (orBrace : Bool)
  | colon
  /-- A comma or the end of the innermost container. -/
  | more
deriving DecidableEq

/-- A text read up to some place. -/
inductive Scan
  | inside (opened : List Opened) (expect : Expect)
  /-- The value is complete. -/
  | complete (root : Json)

/-- A JSON text: its value, and whether anything but blanks follows it. -/
structure Document where
  root : Json
  trailing : Bool
deriving DecidableEq

namespace Scan

def start : Scan := .inside [] (.value false)

/-- A value is complete. -/
def finish (value : Json) : List Opened → Scan
  | [] => .complete value
  | innermost :: outer => .inside (innermost.put value :: outer) .more

/-- A container is complete; one nested too deep has no value to read. -/
def close (innermost : Opened) (outer : List Opened) : Scan :=
  finish (if depthLimit ≤ outer.length then .fault .unreadable else innermost.closed) outer

/-- The scan after one more lexeme, or `none` if the lexeme does not fit. -/
def step (opened : List Opened) : Expect → Lexeme → Option Scan
  | .value _, .scalar v => some (finish v opened)
  | .value _, .text (some s) => some (finish (.string s) opened)
  | .value _, .text none => some (finish (.fault .unreadable) opened)
  | .value _, .openArray => some (.inside (.array [] :: opened) (.value true))
  | .value _, .openObject => some (.inside (.object [] false "" :: opened) (.key true))
  | .value true, .closeArray =>
    match opened with
    | .array items :: outer => some (close (.array items) outer)
    | _ => none
  | .key _, .text key =>
    match opened with
    | .object members unreadable _ :: outer =>
      some (.inside (.object members (unreadable || key.isNone) (key.getD "") :: outer) .colon)
    | _ => none
  | .key true, .closeObject =>
    match opened with
    | .object members unreadable key :: outer => some (close (.object members unreadable key) outer)
    | _ => none
  | .colon, .colon => some (.inside opened (.value false))
  | .more, .comma =>
    match opened with
    | .array _ :: _ => some (.inside opened (.value false))
    | .object .. :: _ => some (.inside opened (.key false))
    | [] => none
  | .more, .closeArray =>
    match opened with
    | .array items :: outer => some (close (.array items) outer)
    | _ => none
  | .more, .closeObject =>
    match opened with
    | .object members unreadable key :: outer => some (close (.object members unreadable key) outer)
    | _ => none
  | _, _ => none

/-- Whether a value may stand where the scan is, so that a fault takes its place. -/
def awaitsValue (opened : List Opened) : Expect → Bool
  | .value _ | .colon => true
  | .key _ => false
  | .more =>
    match opened with
    | .array _ :: _ => true
    | _ => false

/-- The value of a text that breaks inside open containers. -/
def abandon (opened : List Opened) (expect : Expect) : Json :=
  match opened with
  | [] => .fault .broken
  | innermost :: outer =>
    let place := if awaitsValue opened expect then innermost.put (.fault .broken) else innermost
    outer.foldl (fun value container => (container.put value).cut) place.cut

end Scan

/-- Blanks of JSON: space, tab, line feed and carriage return. -/
def isBlank (c : Char) : Bool := c = ' ' ∨ c = '\t' ∨ c = '\n' ∨ c = '\r'

namespace Document

/-- The document of a text, from a scan on. -/
def scanFrom (text : List Char) (scan : Scan) : Document :=
  match text with
  | [] =>
    match scan with
    | .inside opened expect => ⟨Scan.abandon opened expect, false⟩
    | .complete root => ⟨root, false⟩
  | c :: rest =>
    if isBlank c then scanFrom rest scan
    else
      match scan with
      | .complete root => ⟨root, true⟩
      | .inside opened expect =>
        match _ : lexeme? c rest with
        | none => ⟨Scan.abandon opened expect, false⟩
        | some (lexeme, behind) =>
          match Scan.step opened expect lexeme with
          | none => ⟨Scan.abandon opened expect, false⟩
          | some next => scanFrom behind next
termination_by text.length
decreasing_by
  · simp
  · have := length_lexeme? ‹_›; simp only [List.length_cons] at *; omega

def ofText (text : String) : Document := scanFrom text.toList Scan.start

end Document

end TraceGloss.Json
