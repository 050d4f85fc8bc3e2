import TraceGloss.Json.Reading

/-
  Deployed code by address. An account whose code is empty counts as one without code.
-/
namespace TraceGloss

open Json

/-- The code of each address. -/
abbrev CodeTable := Table Address (List UInt8)

inductive CodeTableError
  | document (error : ReadError)
  /-- The code of an address is no hex text. -/
  | badCode (address : Address)
deriving DecidableEq

namespace CodeTableError

/-- The wording; the one of an unreadable document is not fixed. -/
def message : CodeTableError → String
  | document _ => "Invalid code table JSON"
  | badCode address => "code of " ++ address.text

end CodeTableError

namespace CodeTable

/-- The code deployed at an address. -/
def code? (table : CodeTable) (address : Address) : Option (List UInt8) :=
  (table.get? address).filter (!·.isEmpty)

/-- Reads codes in the order of their addresses. -/
def ofTexts : List (Address × String) → CodeTable → Except CodeTableError CodeTable
  | [], table => .ok table
  | (address, text) :: rest, table =>
    match Hex.readCode? text with
    | some code => ofTexts rest (table.insert address code)
    | none => .error (.badCode address)

/-- The table of a JSON text; a bad code is reported for the lowest address that has one. -/
def ofText (text : String) : Except CodeTableError CodeTable :=
  match readText (readTable (hexKey FixedBytes.parse) readString) text with
  | .ok table => ofTexts (Table.entries table) Table.empty
  | .error error => .error (.document error)

end CodeTable

end TraceGloss
