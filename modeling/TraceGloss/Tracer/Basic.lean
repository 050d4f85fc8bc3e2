import TraceGloss.Annotation.Sink
import TraceGloss.Config
import TraceGloss.Receipt
import TraceGloss.Supply
import TraceGloss.Tracer.Frames

/-
  Annotating a recorded trace.
  `annotate` goes through the steps once: it decodes each, follows the frames, attributes gas and looks
  up source, and then selects and links the steps that are kept. `Tracer.traceRaw` finds the materials
  of the entry first and serves the sinks last; `Tracer.trace` starts from a receipt. A failed run
  leaves the supply of materials as it was at the failure.
-/
namespace TraceGloss

inductive EndpointError
  | notRecorded (tx : TxHash)
  | failed (message : String)
deriving DecidableEq

namespace EndpointError

def message : EndpointError → String
  | notRecorded tx => "no recorded trace for " ++ tx.text
  | failed message => message

end EndpointError

/-- Why a transaction cannot be annotated. -/
inductive TraceError
  | missingEntry
  /-- The step leaves the outermost frame. -/
  | frameUnderflow (step : Nat) (pc : UInt64) (op : String)
  | materialsFailed (address : Address) (cause : FetchError)
  | endpoint (cause : EndpointError)
  | sink (cause : SinkError)
deriving DecidableEq

namespace TraceError

def message : TraceError → String
  | missingEntry => "Receipt has neither a created contract nor a recipient"
  | frameUnderflow step pc op =>
    "Step " ++ toString step ++ " (pc=" ++ toString pc.toNat ++ ", op=" ++ op ++
      ") leaves a call frame that was never entered"
  | materialsFailed address _ => "Failed to fetch decode materials for " ++ address.text
  | endpoint _ => "Debugger endpoint failed"
  | sink _ => "Trace sink failed"

/-- The text of what is behind the error. -/
def cause? : TraceError → Option String
  | materialsFailed _ cause => some cause.message
  | endpoint cause => some cause.message
  | sink cause => some cause.message
  | _ => none

end TraceError

/-- What a caller asks of one run. -/
structure Options (τ : Type) where
  constants : Constants := Table.empty
  /-- Which recorded steps are kept; those that enter or leave a frame always are. -/
  keepStep : Step → Bool := fun _ => true
  /-- Which annotated steps are kept. -/
  keepAnnotated : AnnotatedStep → Bool := fun _ => true
  sinks : List (Sink τ × τ) := []

/-- What stays the same in all runs. -/
structure Tracer (σ : Type) where
  endpoint : TxHash → Except EndpointError RawTrace
  source : MaterialsSource σ
  config : Config := {}
  /-- Whether colours are on. -/
  colour : Bool := false

/-- A computation that may ask for materials and may fail. -/
abbrev Tracing (σ : Type) := ExceptT TraceError (StateM (Supply σ))

/-- A run part way through the steps. -/
structure Run where
  decoder : Decoder
  frames : Frames
  steps : Array AnnotatedStep := #[]
  diagnostics : Array Diagnostic := #[]

namespace Tracer

variable {σ τ : Type} (tracer : Tracer σ)

/-- Asks for the materials of a contract; that there are none is noted. -/
def materialsFor (address : Address) (isCreation : Bool) (step : Option Nat)
    (diagnostics : Array Diagnostic) : Tracing σ (Option Materials × Array Diagnostic) := do
  match ← modifyGet (Supply.get tracer.source address isCreation) with
  | .ok (some materials) => return (some materials, diagnostics)
  | .ok none => return (none, diagnostics.push (.materialsUnavailable address step))
  | .error cause => throw (.materialsFailed address cause)

/-- The frame that a step opens. -/
def openFrame (index : Nat) (s next : Step) (run : Run) : Tracing σ (Frame × Array Diagnostic) := do
  let (materials, diagnostics) ←
    match s.callee? with
    | some address => tracer.materialsFor address false (some index) run.diagnostics
    | none => pure (none, run.diagnostics)
  return ({ address := s.callee?, materials, gasAtEntry := next.gas, opener := run.steps.size },
    diagnostics)

/-- Moves between frames. -/
def move (index : Nat) (s : Step) (run : Run) : Move → Tracing σ Run
  | .stop | .stay _ => return run
  | .into gap next => do
    let (frame, diagnostics) ← tracer.openFrame index s next run
    return { run with frames := run.frames.enter gap frame, diagnostics }
  | .out levels next =>
    match Frames.leave? next.gas levels run.frames run.steps with
    | some (frames, steps) => return { run with frames, steps }
    | none => throw (.frameUnderflow index s.pc s.op)

/-- Takes the step at a place of the trace, before the step `next`. -/
def take (keep : Step → Bool) (index : Nat) (s : Step) (next : Option Step) (run : Run) :
    Tracing σ Run := do
  let (decoded, decoder) := run.decoder.decode s ((next.map Step.stack).getD [])
  let diagnostics :=
    if decoded.modelled then run.diagnostics else run.diagnostics.push (.unmodelled index s.op)
  let move := s.moveTo next
  let frame := run.frames.current
  let depthIndex := run.frames.depth
  let run ← tracer.move index s { run with decoder, diagnostics } move
  if move.isBoundary || keep s then
    let source := frame.materials.bind fun found =>
      found.resolve s.pc.toNat (tracer.config.highlight.apply tracer.colour)
    return { run with steps := run.steps.push {
      index, step := s, description := decoded.description, operands := decoded.operands,
      results := decoded.results, cost := move.cost, address := frame.address, depthIndex,
      snippet := source.map (·.snippet), label := source.map (·.label) } }
  else return run

/-- Takes the steps of a trace from a place on. -/
def takeAll (keep : Step → Bool) : Nat → List Step → Run → Tracing σ Run
  | _, [], run => return run
  | index, s :: rest, run => do
    let run ← tracer.take keep index s rest.head? run
    takeAll keep (index + 1) rest run

end Tracer

/-- Links each step to the one before it. -/
def relink (previous : Option Nat) : List AnnotatedStep → List AnnotatedStep
  | [] => []
  | s :: rest => { s with previous } :: relink (some s.index) rest

/-- What came of a run. -/
structure Outcome (σ τ : Type) where
  answer : Except TraceError AnnotatedTrace
  supply : Supply σ
  /-- The states of the sinks afterwards. -/
  sinks : List τ
  /-- The recorded trace, if the run came as far as looking at it. -/
  accepted : Option RawTrace

namespace Tracer

variable {σ τ : Type} (tracer : Tracer σ)

/-- A run before the first step. -/
def startRun (constants : Constants) (entry : EntryPoint) (materials : Option Materials)
    (diagnostics : Array Diagnostic) : Run where
  decoder := Decoder.new constants.entries tracer.config.threshold
  frames := { current := { address := some entry.address, materials } }
  diagnostics

/-- The annotated trace of a run that took all steps. -/
def annotated (keep : AnnotatedStep → Bool) (raw : RawTrace) (run : Run) : AnnotatedTrace where
  steps := (relink none (run.steps.toList.filter keep)).toArray
  gas := raw.gas
  failed := raw.failed
  returnValue := raw.returnValue
  info := {
    provenance := run.decoder.provenance
    preimages := run.decoder.preimages
    diagnostics := run.diagnostics.toList
    threshold := tracer.config.threshold }

/-- Annotates a recorded trace, with the materials of its entry at hand. -/
def annotate (options : Options τ) (entry : EntryPoint) (raw : RawTrace)
    (found : Option Materials × Array Diagnostic) : Tracing σ AnnotatedTrace := do
  let run ← tracer.takeAll options.keepStep 0 raw.steps
    (tracer.startRun options.constants entry found.1 found.2)
  return tracer.annotated options.keepAnnotated raw run

/-- Annotates a recorded trace that starts at `entry`, and serves the sinks. -/
def traceRaw (options : Options τ) (entry : EntryPoint) (raw : RawTrace) (supply : Supply σ) :
    Outcome σ τ :=
  let idle := options.sinks.map (·.2)
  match (tracer.materialsFor entry.address entry.isCreation none #[]).run supply with
  | (.error error, supply) => ⟨.error error, supply, idle, none⟩
  | (.ok found, supply) =>
    match (tracer.annotate options entry raw found).run supply with
    | (.error error, supply) => ⟨.error error, supply, idle, some raw⟩
    | (.ok trace, supply) =>
      let served := deliver trace tracer.config.concurrentSinks options.sinks
      let answer :=
        match served.1 with
        | .ok _ => .ok trace
        | .error cause => .error (.sink cause)
      ⟨answer, supply, served.2, some raw⟩

/-- Annotates the transaction of a receipt. -/
def trace (options : Options τ) (receipt : Receipt) (supply : Supply σ) : Outcome σ τ :=
  let idle := options.sinks.map (·.2)
  match receipt.entry? with
  | none => ⟨.error .missingEntry, supply, idle, none⟩
  | some entry =>
    match tracer.endpoint receipt.transactionHash with
    | .error cause => ⟨.error (.endpoint cause), supply, idle, none⟩
    | .ok raw => tracer.traceRaw options entry raw supply

end Tracer

/-- Traces recorded ahead, by transaction. -/
abbrev Recorded := Table TxHash RawTrace

namespace Recorded

/-- The endpoint that knows these traces. -/
def endpoint (recorded : Recorded) (tx : TxHash) : Except EndpointError RawTrace :=
  match recorded.get? tx with
  | some raw => .ok raw
  | none => .error (.notRecorded tx)

end Recorded

end TraceGloss
