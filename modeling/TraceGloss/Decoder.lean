import TraceGloss.Provenance.Session
import TraceGloss.Step.Basic

/-
  Decoding one step after another.
  `reading` finds the operands on the stack before an instruction and the results on the stack after
  it; `Decoder.decode` describes the step with what is known so far, and then records what the step
  produced. Steps that cannot be modelled keep their mnemonic as description and change nothing.
-/
namespace TraceGloss

/-- The longest memory window that is read for a hash. -/
def maxPreimageBytes : Nat := 1048576

/-- What is known about a decoded step. -/
structure Decoded where
  description : String
  operands : List Word := []
  results : List Word := []
  /-- Whether the step is more than its mnemonic. -/
  modelled : Bool := true
deriving DecidableEq, Inhabited

namespace Step

/-- The memory window of a hash: its offset on top of the stack, its size below. Bytes behind the end
of memory are zero. -/
def hashWindow? (s : Step) : Option Word := do
  let offset ← (← fromTop? s.stack 0).toUInt64?
  let size ← (← fromTop? s.stack 1).toUInt64?
  if size.toNat ≤ maxPreimageBytes ∧ offset.toNat + size.toNat < UInt64.size then
    let found := (s.memoryImage.drop offset.toNat).take size.toNat
    some (Word.ofBytes (found ++ List.replicate (size.toNat - found.length) 0))
  else none

end Step

/-- What an instruction reads and produces, as far as the stacks show it. -/
structure Reading where
  op : Opcode
  operands : List Word
  results : List Word
  /-- What the results are recorded to come from. -/
  origin : Option Origin
  /-- Whether the operand is the preimage of the result. -/
  hashes : Bool := false

/-- The reading of a step before the stack `next`; none of one that is shown by name only. -/
def reading? (s : Step) (next : List Word) : Option Reading := do
  let op ← s.opcode?
  match op.stackEffect with
  | .fixed inputs outputs derives =>
    some { op, operands := topWords s.stack inputs, results := topWords next outputs,
           origin := if derives then some (.computed op) else none }
  | .push _ => some { op, operands := [], results := topWords next 1, origin := some (.pushed op) }
  | .dup n => some { op, operands := topWords next n, results := topWords next n, origin := none }
  | .swap n =>
    some { op, operands := (fromTop? next 0).toList, results := (fromTop? next n).toList,
           origin := none }
  | .log topics => some { op, operands := topWords s.stack topics, results := [], origin := none }
  | .hash =>
    let window ← s.hashWindow?
    some { op, operands := [window], results := topWords next 1, origin := some (.computed op),
           hashes := true }
  | .unmodelled => none

/-- What a run has shown so far. -/
structure Decoder where
  provenance : Provenance := Provenance.empty
  preimages : Std.HashMap Word Word := {}
  session : Session := {}

instance : Inhabited Decoder := ⟨{}⟩

namespace Decoder

def new (constants : List (String × Word)) (threshold : UInt64) : Decoder where
  provenance := Provenance.ofConstants constants
  session := { threshold }

def preimage? (d : Decoder) (digest : Word) : Option Word := d.preimages[digest]?

/-- The text of a word, and the decoder afterwards. -/
def render (d : Decoder) (w : Word) : String × Decoder :=
  let found := d.provenance.render w d.session
  (found.1, { d with session := found.2 })

/-- The texts of several words, and the decoder afterwards. -/
def renderAll (d : Decoder) : List Word → List String × Decoder
  | [] => ([], d)
  | w :: rest =>
    let first := d.render w
    let others := first.2.renderAll rest
    (first.1 :: others.1, others.2)

/-- The description of a reading: mnemonic, operands as they are known, and the results' literals. -/
def describe (d : Decoder) (r : Reading) : String × Decoder :=
  let operands := d.renderAll r.operands
  let results :=
    match r.results with
    | [] => ""
    | results => " -> " ++ ",".intercalate (results.map Word.literal)
  (r.op.mnemonic ++ Expression.listed operands.1 ++ results, operands.2)

/-- Records what a reading produced. -/
def learn (d : Decoder) (r : Reading) : Decoder where
  provenance :=
    match r.origin with
    | some origin => d.provenance.register r.results origin r.operands
    | none => d.provenance
  preimages :=
    match r.hashes, r.operands, r.results with
    | true, [window], [digest] => d.preimages.insert digest window
    | _, _, _ => d.preimages
  session := d.session

/-- Decodes a step before the stack `next`, which is empty at the end of a trace. -/
def decode (d : Decoder) (s : Step) (next : List Word) : Decoded × Decoder :=
  match reading? s next with
  | none => ({ description := s.op, modelled := false }, d)
  | some r =>
    let described := d.describe r
    ({ description := described.1, operands := r.operands, results := r.results },
      described.2.learn r)

end Decoder

end TraceGloss
