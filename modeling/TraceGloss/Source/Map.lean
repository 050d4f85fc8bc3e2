import TraceGloss.Text.Blank
import TraceGloss.Text.Digits

/-
  Compressed source maps.
  A map is a list of entries separated by semicolons, and an entry a list of at most five fields
  separated by colons: offset, length, file, jump and modifier depth. Every field may be empty, and any
  number of last fields left out; an empty field repeats the entry before. `SourceMap.parse` first
  takes the whole text apart, and only then reads the numbers.
-/
namespace TraceGloss

/-- How an instruction moves between functions. -/
inductive Jump
  | into
  | out
  | regular
deriving DecidableEq, Inhabited

/-- One entry: the span of source behind one instruction. -/
structure SourceEntry where
  /-- Offset into the file, in bytes. -/
  offset : Nat := 0
  /-- Length in bytes. -/
  length : Nat := 0
  /-- Index of the file; negative for code without source. -/
  file : Int := -1
  jump : Jump := .regular
  modifierDepth : Nat := 0
deriving DecidableEq, Inhabited

inductive SourceMapError
  /-- The first character, counted from one, that fits nowhere. -/
  | malformed (column : Nat)
  | badNumber (entry : Nat) (value : String)
deriving DecidableEq

namespace SourceMapError

def message : SourceMapError → String
  | malformed column => "Malformed source map: 1:" ++ toString column
  | badNumber entry value =>
    "Source map entry " ++ toString entry ++ " has out-of-range value `" ++ value ++ "`"

end SourceMapError

namespace SourceMap

/-- The columns of an entry. -/
inductive Column
  | offset
  | length
  | file
  | jump
  | modifierDepth
deriving DecidableEq

/-- The columns in their order. -/
def columns : List Column := [.offset, .length, .file, .jump, .modifierDepth]

/-- The longest value of a column at the start of a text, and the rest. A minus sign belongs to a file
index only if a digit follows. -/
def Column.span : Column → List Char → List Char × List Char
  | .offset, text | .length, text | .modifierDepth, text => Digits.span text
  | .file, '-' :: text =>
    match Digits.span text with
    | ([], _) => ([], '-' :: text)
    | (digits, rest) => ('-' :: digits, rest)
  | .file, text => Digits.span text
  | .jump, 'i' :: text => (['i'], text)
  | .jump, 'o' :: text => (['o'], text)
  | .jump, '-' :: text => (['-'], text)
  | .jump, text => ([], text)

/-- The fields at the start of a text, each with its column, and the rest. -/
def spanFields : List Column → List Char → List (Column × List Char) × List Char
  | [], text => ([], text)
  | column :: columns, text =>
    match columns, column.span text with
    | _ :: _, (value, ':' :: rest) =>
      let others := spanFields columns rest
      ((column, value) :: others.1, others.2)
    | _, (value, rest) => ([(column, value)], rest)

theorem length_span (column : Column) (text : List Char) :
    (column.span text).1.length + (column.span text).2.length = text.length := by
  unfold Column.span
  split
  · exact Digits.length_span _
  · exact Digits.length_span _
  · exact Digits.length_span _
  · rename_i rest
    have h := Digits.length_span rest
    split
    · simp
    · rename_i heq
      rw [heq] at h
      simp only [List.length_cons] at *
      omega
  · exact Digits.length_span _
  · simp [Nat.add_comm]
  · simp [Nat.add_comm]
  · simp [Nat.add_comm]
  · simp

theorem length_spanFields (columns : List Column) (text : List Char) :
    (spanFields columns text).2.length ≤ text.length := by
  induction columns generalizing text with
  | nil => exact Nat.le_refl _
  | cons column columns ih =>
    have h := length_span column text
    unfold spanFields
    split
    · rename_i rest heq
      have := ih rest
      rw [heq] at h
      simp only [List.length_cons] at *
      omega
    · rename_i heq
      rw [heq] at h
      simp only at *
      omega

/-- The entries of a text; or what is left where an entry should have ended. -/
def spanEntries (text : List Char) : Except (List Char) (List (List (Column × List Char))) :=
  match _h : spanFields columns text with
  | (fields, []) => .ok [fields]
  | (fields, ';' :: rest) => (spanEntries rest).map (fields :: ·)
  | (_, rest) => .error rest
termination_by text.length
decreasing_by
  have hle := length_spanFields columns text
  rw [_h] at hle
  exact hle

/-- The number that digits denote, if it is below `limit`. -/
def number? (limit : Nat) (digits : List Char) : Option Nat :=
  if Digits.value digits < limit then some (Digits.value digits) else none

/-- The least natural number that is no signed 32-bit integer. -/
def halfRange : Nat := 2147483648

/-- The 32-bit integer that digits with an optional minus sign denote. -/
def integer? : List Char → Option Int
  | '-' :: digits => (number? (halfRange + 1) digits).map Int.negOfNat
  | digits => (number? halfRange digits).map Int.ofNat

/-- The entry with a field set; an empty field sets nothing. -/
def setField? (entry : SourceEntry) : Column × List Char → Option SourceEntry
  | (_, []) => some entry
  | (.offset, digits) => (number? UInt32.size digits).map fun n => { entry with offset := n }
  | (.length, digits) => (number? UInt32.size digits).map fun n => { entry with length := n }
  | (.file, digits) => (integer? digits).map fun n => { entry with file := n }
  | (.jump, c :: _) =>
    some { entry with jump := if c = 'i' then .into else if c = 'o' then .out else .regular }
  | (.modifierDepth, digits) =>
    (number? UInt32.size digits).map fun n => { entry with modifierDepth := n }

/-- The entry with fields set from left to right, or the text of the first number out of range. -/
def setFields (entry : SourceEntry) : List (Column × List Char) → Except (List Char) SourceEntry
  | [] => .ok entry
  | field :: rest =>
    match setField? entry field with
    | some entry => setFields entry rest
    | none => .error field.2

/-- The entries of fields, each starting from the one before; `index` numbers the first. -/
def readEntries (index : Nat) (before : SourceEntry) :
    List (List (Column × List Char)) → Except SourceMapError (List SourceEntry)
  | [] => .ok []
  | fields :: rest =>
    match setFields before fields with
    | .error value => .error (.badNumber index (String.ofList value))
    | .ok entry => (readEntries (index + 1) entry rest).map (entry :: ·)

/-- Reads a compressed source map. -/
def parse (text : String) : Except SourceMapError (List SourceEntry) :=
  let trimmed := Text.trimmed text.toList
  match spanEntries trimmed with
  | .error rest => .error (.malformed (trimmed.length - rest.length + 1))
  | .ok entries => readEntries 0 {} entries

end SourceMap

end TraceGloss
