import TraceGloss.Annotation.Profile
import TraceGloss.CommandLine.Flags
import TraceGloss.Text.Uppercase
import TraceGloss.Tracer.Basic

/-
  The program behind the command line, as a function of its flags and of the files they name. The
  first input that cannot be read ends it, and nothing is printed then.
-/
namespace TraceGloss.CommandLine

open Json

/-- Why the program prints nothing. -/
inductive Failure
  | unreadable (path : String)
  | document (path : String) (error : ReadError)
  | codeTable (error : CodeTableError)
  | artifacts (error : ArtifactError)
  | noEntry
  | trace (error : TraceError)

namespace Failure

def message : Failure → String
  | unreadable path => "reading " ++ path
  | document path .malformed => "parsing " ++ path
  | document path (.mismatch cause) =>
    "parsing " ++ path ++ ((cause.message?.map (": " ++ ·)).getD "")
  | codeTable error => error.message
  | artifacts error => error.message
  | noEntry => "one of --receipt or --entry is required"
  | trace error => error.message ++ ((error.cause?.map (": " ++ ·)).getD "")

end Failure

/-- The content of files; `none` for a path that cannot be read. -/
abbrev Files := String → Option String

section Inputs

variable (files : Files)

/-- The text of a file. -/
def readFile (path : String) : Except Failure String :=
  match files path with
  | some text => .ok text
  | none => .error (.unreadable path)

/-- The content of a JSON file. -/
def readDocument {α : Type} (read : Json → Read α) (path : String) : Except Failure α := do
  match readText read (← readFile files path) with
  | .ok content => return content
  | .error error => throw (.document path error)

def configOf (f : Flags) : Except Failure Config := do
  let config ←
    match f.config with
    | some path => readDocument files Config.read path
    | none => pure {}
  return { config with threshold := f.threshold.getD config.threshold }

/-- The receipt that was given, or one that names the entry that was given. -/
def receiptOf (f : Flags) : Except Failure Receipt :=
  match f.receipt, f.entry with
  | some path, _ => readDocument files Receipt.read path
  | none, some address =>
    if f.creation then .ok { contractAddress := some address } else .ok { recipient := some address }
  | none, none => .error .noEntry

/-- The source of materials: with artifacts the contracts of a build, and none without. -/
def sourceOf (f : Flags) : Except Failure (MaterialsSource Unit) := do
  match f.artifacts, f.code with
  | some artifacts, some code =>
    match CodeTable.ofText (← readFile files code) with
    | .error error => throw (.codeTable error)
    | .ok table =>
      match ArtifactStore.ofText (← readFile files artifacts) with
      | .error error => throw (.artifacts error)
      | .ok store => return .ofFunction (artifactMaterials table store)
  | _, _ => return .ofFunction noMaterials

def constantsOf (f : Flags) : Except Failure Constants :=
  match f.constants with
  | some path => readDocument files Constants.read path
  | none => .ok Table.empty

end Inputs

/-- What is printed of a trace, behind what its sinks printed. -/
def report (f : Flags) (t : AnnotatedTrace) : String :=
  let steps :=
    if f.json then (Json.array (t.steps.toList.map AnnotatedStep.toJson)).pretty ++ "\n" else ""
  let summary :=
    if f.gasSummary then
      (GasProfile.ofSteps t.steps.toList).text ++ "\n" ++
        "Reported gas used: " ++ toString t.gas.toNat ++ "\n"
    else ""
  let reverted := if t.failed then "Transaction reverted: " ++ t.returnValue ++ "\n" else ""
  steps ++ summary ++ reverted

/-- The options of a run: the steps with the given mnemonics, those with source, and a printer unless
the steps are printed as JSON. -/
def optionsOf (f : Flags) (colour : Bool) (constants : Constants) : Options String where
  constants := constants
  keepStep s := f.ops.isEmpty || (f.ops.map Text.upper).contains s.op
  keepAnnotated s := !f.sourceOnly || s.hasSource
  sinks := if f.json then [] else [(Sink.printer colour, "")]

/-- What the program prints; `colour` says whether the terminal would have colours. -/
def execute (files : Files) (colour : Bool) (f : Flags) : Except Failure String := do
  let colour := colour && !f.noColour
  let config ← configOf files f
  let path := f.trace.getD ""
  let raw ← readDocument files RawTrace.read path
  let receipt ← receiptOf files f
  let source ← sourceOf files f
  let constants ← constantsOf files f
  let recorded : Recorded := Table.empty.insert receipt.transactionHash raw
  let tracer : Tracer Unit := { endpoint := recorded.endpoint, source, config, colour }
  let outcome := tracer.trace (optionsOf f colour constants) receipt { state := () }
  match outcome.answer with
  | .error error => throw (.trace error)
  | .ok trace => return String.join outcome.sinks ++ report f trace

/-- Exit code, standard output and standard error of a program. -/
structure Exit where
  code : UInt8
  output : String := ""
  complaint : String := ""
deriving DecidableEq, Inhabited

def usage : String :=
  "Annotate a recorded transaction trace\n\n" ++
  "Usage: tracegloss [OPTIONS] --trace <TRACE>\n\n" ++
  "Options:\n" ++
  "      --trace <TRACE>          Debugger output, alone or inside the answer to a call\n" ++
  "      --receipt <RECEIPT>      Transaction receipt that names the entry contract\n" ++
  "      --entry <ENTRY>          Entry contract, in place of a receipt\n" ++
  "      --creation               The transaction creates the entry contract\n" ++
  "      --artifacts <ARTIFACTS>  Compiler output in combined JSON\n" ++
  "      --code <CODE>            Table of deployed code by address\n" ++
  "      --constants <CONSTANTS>  Table of named constants\n" ++
  "      --config <CONFIG>        Settings\n" ++
  "      --op <OP>                Only annotate steps with this mnemonic; repeatable\n" ++
  "      --source-only            Only keep steps with source\n" ++
  "      --threshold <THRESHOLD>  Values below this are shown as literals\n" ++
  "      --no-color               No colours\n" ++
  "      --json                   Print steps as JSON\n" ++
  "      --gas-summary            Print gas by mnemonic\n" ++
  "  -h, --help                   Print this text\n"

/-- The program: two for arguments that are not accepted, one for a failure, and nought otherwise. -/
def run (files : Files) (colour : Bool) (arguments : List String) : Exit :=
  match parse arguments with
  | .error .help => { code := 0, output := usage }
  | .error error => { code := 2, complaint := "error: " ++ error.message ++ "\n" }
  | .ok flags =>
    match execute files colour flags with
    | .error failure => { code := 1, complaint := "Error: " ++ failure.message ++ "\n" }
    | .ok output => { code := 0, output }

/-- The paths of the files that flags name. -/
def Flags.paths (f : Flags) : List String :=
  [f.config, f.trace, f.receipt, f.code, f.artifacts, f.constants].filterMap id

end TraceGloss.CommandLine
