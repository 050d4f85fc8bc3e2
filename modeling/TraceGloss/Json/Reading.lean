import TraceGloss.Json.Document
import TraceGloss.Table
import TraceGloss.Text.Digits

/-
  Reading typed content from JSON values.
  Content is read in the order of the text, and the first thing wrong is the error: a place where the
  text is no JSON, or a value that does not fit. A record is read from an object by its field names,
  unknown ones being skipped, or from an array by position.
-/
namespace TraceGloss.Json

/-- How a value fails to fit. -/
inductive Mismatch
  | hex (error : HexError)
  | digits (error : DigitsError)
  | missingField (name : String)
  | duplicateField (name : String)
  | noQuantity
  | noTrace
  /-- Another kind of value than the one expected. -/
  | kind
deriving DecidableEq

/-- Why content cannot be read. -/
inductive ReadError
  /-- The text is no JSON, or a value in it cannot be read. -/
  | malformed
  /-- The text is JSON of other content. -/
  | mismatch (cause : Mismatch)
deriving DecidableEq

namespace Mismatch

/-- The wording, where there is one. -/
def message? : Mismatch → Option String
  | hex error => some error.message
  | digits error => some error.message
  | missingField name => some ("missing field `" ++ name ++ "`")
  | duplicateField name => some ("duplicate field `" ++ name ++ "`")
  | noQuantity => some "data did not match any variant of untagged enum Quantity"
  | noTrace => some "data did not match any variant of untagged enum TraceDocument"
  | kind => none

end Mismatch

/-- The result of reading content. -/
abbrev Read (α : Type) := Except ReadError α

/-- The error of a value of the wrong kind. -/
def unfit : Json → ReadError
  | .fault _ => .malformed
  | _ => .mismatch .kind

/-- A value that is not looked at, but has to be JSON. -/
def skip (value : Json) : Read Unit := if value.intact then .ok () else .error .malformed

def readBool : Json → Read Bool
  | .bool b => .ok b
  | value => .error value.unfit

def readString : Json → Read String
  | .string s => .ok s
  | value => .error value.unfit

def readUInt64 : Json → Read UInt64
  | .natural n => if n < UInt64.size then .ok (UInt64.ofNat n) else .error (.mismatch .kind)
  | value => .error value.unfit

def readUInt32 : Json → Read UInt32
  | .natural n => if n < UInt32.size then .ok (UInt32.ofNat n) else .error (.mismatch .kind)
  | value => .error value.unfit

/-- A gas quantity: a number, or text in decimal or hex. -/
def readQuantity : Json → Read UInt64
  | .natural n => (Json.natural n).readUInt64
  | .string s =>
    match Digits.quantity s with
    | .ok n => .ok n
    | .error e => .error (.mismatch (.digits e))
  | value => if value.readable then .error (.mismatch .noQuantity) else .error .malformed

/-- A hex string. -/
def readHex {α : Type} (parse : String → Except HexError α) (value : Json) : Read α := do
  let s ← value.readString
  match parse s with
  | .ok a => .ok a
  | .error e => .error (.mismatch (.hex e))

def readWord (value : Json) : Read Word := value.readHex Word.parse

def readAddress (value : Json) : Read Address := value.readHex FixedBytes.parse

def readTxHash (value : Json) : Read TxHash := value.readHex FixedBytes.parse

/-- A value that may be `null`. -/
def readOption {α : Type} (read : Json → Read α) : Json → Read (Option α)
  | .null => .ok none
  | value => (read value).map some

def readItems {α : Type} (read : Json → Read α) : List Json → Read (List α)
  | [] => .ok []
  | item :: rest => do
    let a ← read item
    let as ← readItems read rest
    return a :: as

def readList {α : Type} (read : Json → Read α) : Json → Read (List α)
  | .array items => readItems read items
  | value => .error value.unfit

/-- The error at the end of an object, if there is one. -/
def ending : Option Fault → Read Unit
  | none => .ok ()
  | some _ => .error .malformed

section Bindings

variable {κ ν : Type} [LT κ] [DecidableLT κ] [LinearKey κ]

/-- Adds members to a table, the last one of a key standing. -/
def readBindings (key : String → Read κ) (read : Json → Read ν) :
    List (String × Json) → Table κ ν → Read (Table κ ν)
  | [], table => .ok table
  | (k, value) :: rest, table => do
    let k ← key k
    let v ← read value
    readBindings key read rest (table.insert k v)

/-- An object as a table. -/
def readTable (key : String → Read κ) (read : Json → Read ν) : Json → Read (Table κ ν)
  | .object members stop => do
    let table ← readBindings key read members Table.empty
    ending stop
    return table
  | value => .error value.unfit

end Bindings

/-- A table key in hex. -/
def hexKey {α : Type} (parse : String → Except HexError α) (key : String) : Read α :=
  match parse key with
  | .ok a => .ok a
  | .error e => .error (.mismatch (.hex e))

/-- Values of every kind, in order, without repeated keys. -/
def readAnyMembers : List (String × Json) → Read Unit
  | [] => .ok ()
  | (_, value) :: rest => if value.readable then readAnyMembers rest else .error .malformed

/-- An object of values of every kind; each key has its first place and its last value. -/
def readObject : Json → Read (List (String × Json))
  | .object members stop => do
    readAnyMembers members
    ending stop
    return distinct (collapseMembers members)
  | value => .error value.unfit

/-- A field of a record that is read in any order into a draft. -/
structure RecordField (δ : Type) where
  name : String
  filled : δ → Bool
  fill : Json → δ → Read δ

namespace RecordField

/-- A field whose value is one part of the draft. -/
def part {δ α : Type} (name : String) (read : Json → Read α) (get : δ → Option α)
    (set : δ → α → δ) : RecordField δ where
  name := name
  filled draft := (get draft).isSome
  fill value draft := (read value).map (set draft)

end RecordField

/-- How content is come by. -/
inductive Manner
  /-- As the text goes: where a value should have ended and has not, the text is at fault. -/
  | streamed
  /-- From a whole value that was read before. -/
  | whole
deriving DecidableEq

namespace Manner

/-- The error of a value that goes on behind its content. -/
def surplus : Manner → ReadError
  | streamed => .malformed
  | whole => .mismatch .kind

end Manner

section Records

variable {δ α : Type}

/-- Fills a draft from members. -/
def fillNamed (fields : List (RecordField δ)) : List (String × Json) → δ → Read δ
  | [], draft => .ok draft
  | (key, value) :: rest, draft =>
    match fields.find? (·.name == key) with
    | none => do
      value.skip
      fillNamed fields rest draft
    | some field =>
      if field.filled draft then .error (.mismatch (.duplicateField key))
      else do
        let draft ← field.fill value draft
        fillNamed fields rest draft

/-- Fills a draft from items, field by field. -/
def fillPlaced (manner : Manner) : List (RecordField δ) → List Json → δ → Read δ
  | _, [], draft => .ok draft
  | [], _ :: _, _ => .error manner.surplus
  | field :: fields, item :: items, draft => do
    let draft ← field.fill item draft
    fillPlaced manner fields items draft

/-- Reads a record: from an object by name, or from an array by place. `finish` completes the draft,
given the error of a field that is missing. -/
def readRecord (fields : List (RecordField δ)) (blank : δ) (manner : Manner)
    (finish : (String → ReadError) → δ → Read α) : Json → Read α
  | .object members stop => do
    let draft ← fillNamed fields members blank
    ending stop
    finish (fun name => .mismatch (.missingField name)) draft
  | .array items => do
    let draft ← fillPlaced manner fields items blank
    finish (fun _ => .mismatch .kind) draft
  | value => .error value.unfit

end Records

/-- A part of a draft that has to be there. -/
def required {α : Type} (missing : String → ReadError) (name : String) : Option α → Read α
  | some a => .ok a
  | none => .error (missing name)

namespace Document

/-- Reads the content of a document; nothing may follow it. -/
def read {α : Type} (content : Json → Read α) (document : Document) : Read α := do
  let a ← content document.root
  if document.trailing then .error .malformed else return a

end Document

/-- Reads the content of a text. -/
def readText {α : Type} (content : Json → Read α) (text : String) : Read α :=
  (Document.ofText text).read content

end TraceGloss.Json
