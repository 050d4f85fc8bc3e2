import TraceGloss.Decoder
import TraceGloss.Source.Materials
import TraceGloss.Step.Json

/-
  Annotated traces.
  An `AnnotatedStep` is a recorded step with what was found out about it; an `AnnotatedTrace` holds
  those that were kept, in order, with what the whole run showed. `stepAt?` finds a step by its place
  in the recorded trace, by bisection.
-/
namespace TraceGloss

open Json

structure AnnotatedStep where
  /-- Place of the step in the recorded trace. -/
  index : Nat := 0
  step : Step := {}
  description : String := ""
  operands : List Word := []
  results : List Word := []
  /-- The gas the step consumed, with the whole frame that it opened. -/
  cost : Nat := 0
  /-- The contract that executes the step; unknown while it is being created. -/
  address : Option Address := none
  /-- The number of frames around the one that executes the step. -/
  depthIndex : Nat := 0
  snippet : Option String := none
  label : Option String := none
  /-- Place in the recorded trace of the annotated step before this one. -/
  previous : Option Nat := none
deriving DecidableEq, Inhabited

namespace AnnotatedStep

def hasSource (s : AnnotatedStep) : Bool := s.snippet.isSome

/-- What a reader is shown: the description, below its source if there is any. -/
def text (colour : Bool) (s : AnnotatedStep) : String :=
  let description := Text.Colour.brightBlue.paint colour s.description
  match s.snippet, s.label with
  | some snippet, some label =>
    Text.Colour.brightBlack.paint colour "Log" ++ "       pc=" ++ toString s.step.pc.toNat ++
      " op=" ++ s.step.op ++ " source=" ++ label ++ "\n" ++
      "Solidity  " ++ Text.trim snippet ++ "\n" ++
      "          ↓\n" ++
      "EVM Asm   " ++ description
  | _, _ => description

def optional (name : String) (value : Option Json) : List (String × Json) :=
  (value.map fun v => (name, v)).toList

def toJson (s : AnnotatedStep) : Json :=
  record ([("index", .natural s.index)] ++ s.step.members ++
    [("description", .string s.description), ("operandWords", Step.words s.operands),
      ("resultWords", Step.words s.results), ("correctedGasCost", .natural s.cost),
      ("contractAddress", (s.address.map fun a => Json.string a.text).getD .null),
      ("callDepthIndex", .natural s.depthIndex)] ++
    optional "sourceSnippet" (s.snippet.map .string) ++
    optional "sourceLocationLabel" (s.label.map .string) ++
    [("previous", (s.previous.map Json.natural).getD .null)])

end AnnotatedStep

/-- A shortcoming that did not stop the run. -/
inductive Diagnostic
  /-- A contract without source. `step` entered it, or it is the entry of the transaction. -/
  | materialsUnavailable (address : Address) (step : Option Nat)
  /-- A step that is shown by its mnemonic only. -/
  | unmodelled (step : Nat) (op : String)
deriving DecidableEq

namespace Diagnostic

def text : Diagnostic → String
  | materialsUnavailable address (some step) =>
    "no source materials for " ++ address.text ++ " (entered at step " ++ toString step ++ ")"
  | materialsUnavailable address none =>
    "no source materials for entry contract " ++ address.text
  | unmodelled step op =>
    "step " ++ toString step ++ ": " ++ op ++ " decoded as an opaque instruction"

def toJson : Diagnostic → Json
  | materialsUnavailable address step =>
    record [("kind", .string "materials_unavailable"), ("address", .string address.text),
      ("step", (step.map Json.natural).getD .null)]
  | unmodelled step op =>
    record [("kind", .string "decode_unmodeled"), ("step", .natural step), ("op", .string op)]

end Diagnostic

/-- What a whole run showed. -/
structure TraceInfo where
  provenance : Provenance := Provenance.empty
  preimages : Std.HashMap Word Word := {}
  diagnostics : List Diagnostic := []
  threshold : UInt64 := 0

instance : Inhabited TraceInfo := ⟨{}⟩

namespace TraceInfo

/-- The text of a word with everything that was learnt. -/
def render (info : TraceInfo) (w : Word) : String :=
  (info.provenance.render w { threshold := info.threshold }).1

def preimage? (info : TraceInfo) (digest : Word) : Option Word := info.preimages[digest]?

end TraceInfo

structure AnnotatedTrace where
  steps : Array AnnotatedStep := #[]
  /-- The gas used, as the recorded trace has it. -/
  gas : UInt64 := 0
  failed : Bool := false
  returnValue : String := ""
  info : TraceInfo := {}

instance : Inhabited AnnotatedTrace := ⟨{}⟩

namespace AnnotatedTrace

/-- The last place among `size` places from `low` on whose step is not behind `index`, by halving;
`low` if there is none. -/
def bisect (steps : Array AnnotatedStep) (index low size : Nat) : Nat :=
  if 1 < size then
    let half := size / 2
    let middle := low + half
    let isBehind : Bool := match steps[middle]? with
      | some step => index < step.index
      | none => true
    bisect steps index (if isBehind then low else middle) (size - half)
  else low
termination_by size
decreasing_by omega

/-- The step at a place of the recorded trace, if it was kept. -/
def stepAt? (t : AnnotatedTrace) (index : Nat) : Option AnnotatedStep :=
  (t.steps[bisect t.steps index 0 t.steps.size]?).filter (·.index == index)

/-- The annotated step before a step. -/
def previous? (t : AnnotatedTrace) (s : AnnotatedStep) : Option AnnotatedStep :=
  s.previous.bind t.stepAt?

/-- The sum of all costs. -/
def totalCost (t : AnnotatedTrace) : Nat := t.steps.toList.foldl (fun n s => n + s.cost) 0

end AnnotatedTrace

end TraceGloss
