import TraceGloss.Json.Reading

/-
  Transaction receipts, as far as they say where execution starts: in the contract that the
  transaction creates, or else in the one it calls.
-/
namespace TraceGloss

open Json

structure Receipt where
  transactionHash : TxHash := .zero
  recipient : Option Address := none
  contractAddress : Option Address := none
deriving DecidableEq, Inhabited

/-- Where the execution of a transaction starts. -/
structure EntryPoint where
  address : Address
  isCreation : Bool := false
deriving DecidableEq, Inhabited

namespace Receipt

/-- The created contract if there is one, else the recipient. -/
def entry? (r : Receipt) : Option EntryPoint :=
  match r.contractAddress, r.recipient with
  | some address, _ => some ⟨address, true⟩
  | none, some address => some ⟨address, false⟩
  | none, none => none

def toJson (r : Receipt) : Json :=
  let address : Option Address → Json
    | some a => .string a.text
    | none => .null
  record [("transactionHash", .string r.transactionHash.text), ("to", address r.recipient),
    ("contractAddress", address r.contractAddress)]

/-- A receipt while it is being read. -/
structure Draft where
  transactionHash : Option TxHash := none
  recipient : Option (Option Address) := none
  contractAddress : Option (Option Address) := none

def fields : List (RecordField Draft) :=
  [.part "transactionHash" readTxHash Draft.transactionHash
      fun d v => { d with transactionHash := some v },
    .part "to" (readOption readAddress) Draft.recipient
      fun d v => { d with recipient := some v },
    .part "contractAddress" (readOption readAddress) Draft.contractAddress
      fun d v => { d with contractAddress := some v }]

def ofDraft (missing : String → ReadError) (d : Draft) : Read Receipt := do
  let transactionHash ← required missing "transactionHash" d.transactionHash
  return {
    transactionHash, recipient := d.recipient.getD none, contractAddress := d.contractAddress.getD none }

def read (value : Json) : Read Receipt := readRecord fields {} .streamed ofDraft value

end Receipt

end TraceGloss
