import TraceGloss.Step.Basic
import TraceGloss.Json.Reading
import TraceGloss.Json.Printer

/-
  Traces as JSON.
  `Step.toJson` and `RawTrace.toJson` write every column that is present; `Step.read` and
  `RawTrace.read` take the dialects of debuggers: quantities as numbers or text, `null` for an empty
  stack or storage, and a trace that stands alone or as the `result` of a call.
-/
namespace TraceGloss

open Json

namespace Step

def words (ws : List Word) : Json := .array (ws.map fun w => .string w.fullText)

/-- The columns of a step in their order; memory and error only if present. -/
def members (s : Step) : List (String × Json) :=
  [("depth", .natural s.depth.toNat), ("op", .string s.op), ("pc", .natural s.pc.toNat),
    ("gas", .natural s.gas.toNat), ("gasCost", .natural s.gasCost.toNat),
    ("stack", words s.stack)] ++
  (s.memory.map fun ws => ("memory", words ws)).toList ++
  [("storage", record (s.storage.entries.map fun e => (e.1.fullText, .string e.2.fullText)))] ++
  (s.error.map fun e => ("error", .string e)).toList

def toJson (s : Step) : Json := record s.members

/-- A step whose columns are still being read. -/
structure Draft where
  depth : Option UInt32 := none
  op : Option String := none
  pc : Option UInt64 := none
  gas : Option UInt64 := none
  gasCost : Option UInt64 := none
  stack : Option (Option (List Word)) := none
  memory : Option (Option (List Word)) := none
  storage : Option (Option (Table Word Word)) := none
  error : Option (Option String) := none

def fields : List (RecordField Draft) :=
  [.part "depth" readUInt32 Draft.depth fun d v => { d with depth := some v },
    .part "op" readString Draft.op fun d v => { d with op := some v },
    .part "pc" readUInt64 Draft.pc fun d v => { d with pc := some v },
    .part "gas" readQuantity Draft.gas fun d v => { d with gas := some v },
    .part "gasCost" readQuantity Draft.gasCost fun d v => { d with gasCost := some v },
    .part "stack" (readOption (readList readWord)) Draft.stack
      fun d v => { d with stack := some v },
    .part "memory" (readOption (readList readWord)) Draft.memory
      fun d v => { d with memory := some v },
    .part "storage" (readOption (readTable (hexKey Word.parse) readWord)) Draft.storage
      fun d v => { d with storage := some v },
    .part "error" (readOption readString) Draft.error fun d v => { d with error := some v }]

/-- The step of a draft; the first five columns have to be there. -/
def ofDraft (missing : String → ReadError) (d : Draft) : Read Step := do
  return {
    depth := ← required missing "depth" d.depth
    op := ← required missing "op" d.op
    pc := ← required missing "pc" d.pc
    gas := ← required missing "gas" d.gas
    gasCost := ← required missing "gasCost" d.gasCost
    stack := (d.stack.getD none).getD []
    memory := d.memory.getD none
    storage := (d.storage.getD none).getD Table.empty
    error := d.error.getD none }

def read (manner : Manner) (value : Json) : Read Step :=
  readRecord fields {} manner ofDraft value

end Step

namespace RawTrace

def toJson (t : RawTrace) : Json :=
  record [("gas", .natural t.gas.toNat), ("failed", .bool t.failed),
    ("returnValue", .string t.returnValue), ("structLogs", .array (t.steps.map Step.toJson))]

/-- A trace whose columns are still being read. -/
structure Draft where
  gas : Option UInt64 := none
  failed : Option Bool := none
  returnValue : Option String := none
  steps : Option (List Step) := none

def fields : List (RecordField Draft) :=
  [.part "gas" readQuantity Draft.gas fun d v => { d with gas := some v },
    .part "failed" readBool Draft.failed fun d v => { d with failed := some v },
    .part "returnValue" readString Draft.returnValue fun d v => { d with returnValue := some v },
    .part "structLogs" (readList (Step.read .whole)) Draft.steps
      fun d v => { d with steps := some v }]

/-- The trace of a draft; gas and steps have to be there. -/
def ofDraft (missing : String → ReadError) (d : Draft) : Read RawTrace := do
  let gas ← required missing "gas" d.gas
  let steps ← required missing "structLogs" d.steps
  return { gas, failed := d.failed.getD false, returnValue := d.returnValue.getD "", steps }

/-- A trace that stands alone. -/
def readBare (value : Json) : Read RawTrace := readRecord fields {} .whole ofDraft value

/-- An answer whose only field that counts is `result`. -/
def envelope : List (RecordField (Option RawTrace)) :=
  [.part "result" readBare id fun _ trace => some trace]

/-- A trace inside the answer to a call. -/
def readEnvelope : Json → Read RawTrace
  | .object members stop =>
    readRecord envelope none .whole (required · "result") (.object members stop)
  | value => .error value.unfit

/-- A trace inside an answer, or else one that stands alone. The whole value has to be JSON. -/
def read (value : Json) : Read RawTrace :=
  if value.readable then
    match readEnvelope value with
    | .ok trace => .ok trace
    | .error _ =>
      match readBare value with
      | .ok trace => .ok trace
      | .error _ => .error (.mismatch .noTrace)
  else .error .malformed

def readText (text : String) : Read RawTrace := Json.readText read text

end RawTrace

end TraceGloss
