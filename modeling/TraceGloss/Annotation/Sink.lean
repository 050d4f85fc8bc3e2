import TraceGloss.Annotation.Basic

/-
  Consumers of finished traces.
  A `Sink` is told every step in order and then the whole trace, until a call fails. A `Delivery` is a
  sink part way through a trace; `advance` makes its next call. Sinks do not see each other, so it
  does not matter whether one is served after the other or all take turns: both orders are here.
-/
namespace TraceGloss

/-- How a call to a sink goes wrong. -/
inductive SinkError
  | failed (message : String)
  /-- The sink gave up without a reason. -/
  | panicked
deriving DecidableEq

namespace SinkError

def message : SinkError → String
  | failed message => message
  | panicked => "trace sink panicked"

end SinkError

/-- A consumer with a state of type `τ`. -/
structure Sink (τ : Type) where
  onStep (step : AnnotatedStep) (info : TraceInfo) (state : τ) : Except SinkError Unit × τ
  onTrace (trace : AnnotatedTrace) (state : τ) : Except SinkError Unit × τ

namespace Sink

variable {τ : Type}

/-- A consumer that takes no notice. -/
def idle : Sink τ where
  onStep _ _ state := (.ok (), state)
  onTrace _ state := (.ok (), state)

/-- Appends each step's text to the state, and a line behind those with source. -/
def printer (colour : Bool) : Sink String where
  onStep step _ printed :=
    (.ok (), printed ++ step.text colour ++ "\n" ++ if step.hasSource then "\n" else "")
  onTrace _ printed := (.ok (), printed)

end Sink

/-- A sink part way through a trace. -/
structure Delivery (τ : Type) where
  sink : Sink τ
  state : τ
  pending : List AnnotatedStep
  /-- How it ended, once it has. -/
  outcome : Option (Except SinkError Unit) := none

namespace Delivery

variable {τ : Type}

/-- A sink before the first call. -/
def start (trace : AnnotatedTrace) (sink : Sink τ × τ) : Delivery τ where
  sink := sink.1
  state := sink.2
  pending := trace.steps.toList

/-- The next call: a step, or the trace behind the last one. Nothing follows a failure. -/
def advance (trace : AnnotatedTrace) (d : Delivery τ) : Delivery τ :=
  match d.outcome with
  | some _ => d
  | none =>
    match d.pending with
    | step :: rest =>
      match d.sink.onStep step trace.info d.state with
      | (.ok _, state) => { d with state, pending := rest }
      | (.error error, state) => { d with state, outcome := some (.error error) }
    | [] =>
      let answer := d.sink.onTrace trace d.state
      { d with state := answer.2, outcome := some answer.1 }

/-- As many calls as there are steps, and one more. -/
def finish (trace : AnnotatedTrace) (d : Delivery τ) : Delivery τ :=
  Nat.repeat (advance trace) (trace.steps.size + 1) d

/-- The failure of a delivery, if it failed. -/
def failure? (d : Delivery τ) : Option SinkError :=
  match d.outcome with
  | some (.error error) => some error
  | _ => none

end Delivery

section Deliver

variable {τ : Type}

/-- One sink is served after the other. -/
def deliverInOrder (trace : AnnotatedTrace) (sinks : List (Delivery τ)) : List (Delivery τ) :=
  sinks.map (Delivery.finish trace)

/-- All sinks take turns. -/
def deliverInTurns (trace : AnnotatedTrace) (sinks : List (Delivery τ)) : List (Delivery τ) :=
  Nat.repeat (List.map (Delivery.advance trace)) (trace.steps.size + 1) sinks

/-- Hands a trace to every sink. The failure of the first sink in the list that failed is the error,
and all sinks are served whatever happens to one of them. -/
def deliver (trace : AnnotatedTrace) (concurrent : Bool) (sinks : List (Sink τ × τ)) :
    Except SinkError Unit × List τ :=
  let started := sinks.map (Delivery.start trace)
  let served := if concurrent then deliverInTurns trace started else deliverInOrder trace started
  let answer :=
    match served.findSome? Delivery.failure? with
    | some error => .error error
    | none => .ok ()
  (answer, served.map (·.state))

end Deliver

end TraceGloss
