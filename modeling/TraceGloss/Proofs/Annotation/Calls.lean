import TraceGloss.Annotation.Sink

/-
  Calls to sinks.
  `AnnotatedTrace.callbacks` are the calls that a trace has for a sink: one for each step in order, and
  the last for the whole trace. A sink refuses a call when it fails at it or panics. It receives the
  calls up to the first that it refuses (`Sink.received`), and fails by that one (`Sink.failure?`), so
  that it is told of the whole trace unless it refuses a step (`Sink.countP_received`). A sink that
  is `recorded` does the same and lists what it receives.
-/
namespace TraceGloss

/-! ## Calls -/

/-- A call to a sink. -/
inductive Callback
  | onStep (step : AnnotatedStep) (info : TraceInfo)
  | onTrace (trace : AnnotatedTrace)

def Callback.isOnTrace : Callback → Bool
  | onTrace _ => true
  | onStep .. => false

namespace AnnotatedTrace

/-- The calls that are due to a sink when it has been told all steps but these. -/
def callsFrom (trace : AnnotatedTrace) (pending : List AnnotatedStep) : List Callback :=
  pending.map (.onStep · trace.info) ++ [.onTrace trace]

/-- The calls that a trace has for a sink: one for each step in order, and one for the whole. -/
def callbacks (trace : AnnotatedTrace) : List Callback := trace.callsFrom trace.steps.toList

theorem length_callbacks (trace : AnnotatedTrace) :
    trace.callbacks.length = trace.steps.size + 1 := by
  rw [callbacks, callsFrom, List.length_append, List.length_map, List.length_singleton,
    Array.length_toList]

theorem countP_onStep (info : TraceInfo) (steps : List AnnotatedStep) :
    (steps.map (Callback.onStep · info)).countP Callback.isOnTrace = 0 := by
  rw [List.countP_map, List.countP_eq_zero]
  intro step _
  exact Bool.false_ne_true

theorem countP_callbacks (trace : AnnotatedTrace) :
    trace.callbacks.countP Callback.isOnTrace = 1 := by
  rw [callbacks, callsFrom, List.countP_append, countP_onStep]
  rfl

theorem countP_take_callbacks (trace : AnnotatedTrace) {k : Nat} (h : k < trace.steps.size) :
    (trace.callbacks.take (k + 1)).countP Callback.isOnTrace = 0 := by
  rw [callbacks, callsFrom, List.take_append_of_le_length (by rw [List.length_map]; exact h),
    ← List.map_take, countP_onStep]

end AnnotatedTrace

namespace SinkError

/-- The error in an answer. -/
def of? : Except SinkError Unit → Option SinkError
  | .ok _ => none
  | .error error => some error

/-- The answer with an error, if there is one. -/
def answer : Option SinkError → Except SinkError Unit
  | none => .ok ()
  | some error => .error error

theorem answer_eq_ok_iff {failure : Option SinkError} : answer failure = .ok () ↔ failure = none := by
  cases failure <;> simp [answer]

theorem answer_eq_error_iff {failure : Option SinkError} {error : SinkError} :
    answer failure = .error error ↔ failure = some error := by
  cases failure <;> simp [answer]

theorem answer_of? (given : Except SinkError Unit) : answer (of? given) = given := by
  cases given <;> rfl

end SinkError

namespace Sink

variable {τ : Type}

/-- What a sink answers to a call, and its state behind the call. -/
def receive (sink : Sink τ) (state : τ) : Callback → Except SinkError Unit × τ
  | .onStep step info => sink.onStep step info state
  | .onTrace trace => sink.onTrace trace state

/-- The state of a sink behind several calls, whatever it answers. -/
def after (sink : Sink τ) (state : τ) (calls : List Callback) : τ :=
  calls.foldl (fun state call => (sink.receive state call).2) state

/-- The error by which a sink refuses the call at a place, when it has received the calls before. -/
def refusal? (sink : Sink τ) (state : τ) (calls : List Callback) (k : Nat) : Option SinkError :=
  (calls[k]?).bind fun call =>
    SinkError.of? (sink.receive (sink.after state (calls.take k)) call).1

/-- The place of the first call that a sink refuses. -/
def firstRefused? (sink : Sink τ) (state : τ) (calls : List Callback) : Option Nat :=
  (List.range calls.length).find? fun k => (sink.refusal? state calls k).isSome

/-- The calls that a sink receives: all up to the first that it refuses. -/
def received (sink : Sink τ) (state : τ) (calls : List Callback) : List Callback :=
  match sink.firstRefused? state calls with
  | some k => calls.take (k + 1)
  | none => calls

/-- How a sink fails: by its first refusal. -/
def failure? (sink : Sink τ) (state : τ) (calls : List Callback) : Option SinkError :=
  (sink.firstRefused? state calls).bind (sink.refusal? state calls)

/-! ## One call and the rest -/

variable (sink : Sink τ) (state : τ) (call : Callback) (rest : List Callback)

theorem refusal?_cons_zero :
    sink.refusal? state (call :: rest) 0 = SinkError.of? (sink.receive state call).1 := rfl

theorem refusal?_cons_succ (k : Nat) :
    sink.refusal? state (call :: rest) (k + 1) =
      sink.refusal? (sink.receive state call).2 rest k := rfl

theorem firstRefused?_cons :
    sink.firstRefused? state (call :: rest) =
      match SinkError.of? (sink.receive state call).1 with
      | some _ => some 0
      | none => (sink.firstRefused? (sink.receive state call).2 rest).map (· + 1) := by
  rw [firstRefused?, List.length_cons, List.range_succ_eq_map, List.find?_cons, refusal?_cons_zero]
  cases SinkError.of? (sink.receive state call).1 with
  | some error => rfl
  | none =>
    rw [Option.isSome_none, List.find?_map]
    rfl

variable {sink state call}

theorem firstRefused?_of_refused {error : SinkError} {next : τ}
    (h : sink.receive state call = (.error error, next)) :
    sink.firstRefused? state (call :: rest) = some 0 := by
  rw [firstRefused?_cons, h]
  rfl

theorem firstRefused?_of_accepted {next : τ} (h : sink.receive state call = (.ok (), next)) :
    sink.firstRefused? state (call :: rest) = (sink.firstRefused? next rest).map (· + 1) := by
  rw [firstRefused?_cons, h]
  rfl

theorem received_of_refused {error : SinkError} {next : τ}
    (h : sink.receive state call = (.error error, next)) :
    sink.received state (call :: rest) = [call] := by
  rw [received, firstRefused?_of_refused rest h]
  rfl

theorem received_of_accepted {next : τ} (h : sink.receive state call = (.ok (), next)) :
    sink.received state (call :: rest) = call :: sink.received next rest := by
  rw [received, firstRefused?_of_accepted rest h, received]
  cases sink.firstRefused? next rest <;> rfl

theorem failure?_of_refused {error : SinkError} {next : τ}
    (h : sink.receive state call = (.error error, next)) :
    sink.failure? state (call :: rest) = some error := by
  rw [failure?, firstRefused?_of_refused rest h, Option.bind_some, refusal?_cons_zero, h]
  rfl

theorem failure?_of_accepted {next : τ} (h : sink.receive state call = (.ok (), next)) :
    sink.failure? state (call :: rest) = sink.failure? next rest := by
  rw [failure?, firstRefused?_of_accepted rest h, failure?]
  cases sink.firstRefused? next rest with
  | none => rfl
  | some k =>
    rw [Option.map_some, Option.bind_some, Option.bind_some, refusal?_cons_succ, h]

variable (sink state call)

theorem received_ne_nil : sink.received state (call :: rest) ≠ [] := by
  rcases hanswer : sink.receive state call with ⟨_ | _, next⟩
  · rw [received_of_refused rest hanswer]
    exact List.cons_ne_nil _ _
  · rw [received_of_accepted rest hanswer]
    exact List.cons_ne_nil _ _

theorem length_received_le (calls : List Callback) :
    (sink.received state calls).length ≤ calls.length := by
  unfold received
  split
  · exact (List.take_sublist _ _).length_le
  · exact Nat.le_refl _

theorem refusal?_of_length_le {calls : List Callback} {k : Nat} (h : calls.length ≤ k) :
    sink.refusal? state calls k = none := by
  rw [refusal?, List.getElem?_eq_none h]
  rfl

theorem firstRefused?_eq_none_iff (calls : List Callback) :
    sink.firstRefused? state calls = none ↔ ∀ k, sink.refusal? state calls k = none := by
  unfold firstRefused?
  rw [List.find?_range_eq_none]
  constructor
  · intro h k
    by_cases hk : k < calls.length
    · have hkept := h k hk
      simpa using hkept
    · exact sink.refusal?_of_length_le state (by omega)
  · intro h k _
    rw [h k]
    rfl

theorem failure?_eq_none_iff (calls : List Callback) :
    sink.failure? state calls = none ↔ ∀ k, sink.refusal? state calls k = none := by
  rw [← firstRefused?_eq_none_iff, failure?]
  cases hfirst : sink.firstRefused? state calls with
  | none => exact ⟨fun _ => rfl, fun _ => rfl⟩
  | some k =>
    have hrefused := (List.find?_range_eq_some.mp hfirst).1
    rw [Option.bind_some]
    constructor
    · intro h
      rw [h] at hrefused
      cases hrefused
    · intro h
      cases h

/-- A sink is told of the whole trace, once, unless it refuses a step. -/
theorem countP_received (trace : AnnotatedTrace) :
    (sink.received state trace.callbacks).countP Callback.isOnTrace =
      if ∃ k < trace.steps.size, (sink.refusal? state trace.callbacks k).isSome then 0 else 1 := by
  unfold received
  cases hfirst : sink.firstRefused? state trace.callbacks with
  | none =>
    have haccepted := (sink.firstRefused?_eq_none_iff state _).mp hfirst
    rw [if_neg]
    · exact trace.countP_callbacks
    · rintro ⟨k, -, hrefused⟩
      rw [haccepted k] at hrefused
      cases hrefused
  | some k =>
    obtain ⟨hrefused, -, haccepted⟩ := List.find?_range_eq_some.mp hfirst
    by_cases hk : k < trace.steps.size
    · rw [if_pos ⟨k, hk, hrefused⟩]
      exact trace.countP_take_callbacks hk
    · rw [if_neg]
      · have hwhole : trace.callbacks.take (k + 1) = trace.callbacks := by
          apply List.take_of_length_le
          rw [trace.length_callbacks]
          omega
        dsimp only
        rw [hwhole]
        exact trace.countP_callbacks
      · rintro ⟨j, hj, hbefore⟩
        have hnot := haccepted j (by omega)
        rw [hbefore] at hnot
        cases hnot

/-! ## Recording -/

/-- The sink that also lists the calls it receives. -/
def recorded (sink : Sink τ) : Sink (τ × List Callback) where
  onStep step info state :=
    let answer := sink.onStep step info state.1
    (answer.1, answer.2, state.2 ++ [.onStep step info])
  onTrace trace state :=
    let answer := sink.onTrace trace state.1
    (answer.1, answer.2, state.2 ++ [.onTrace trace])

variable (log : List Callback)

theorem receive_recorded :
    sink.recorded.receive (state, log) call =
      ((sink.receive state call).1, (sink.receive state call).2, log ++ [call]) := by
  cases call <;> rfl

theorem after_recorded (calls : List Callback) :
    sink.recorded.after (state, log) calls = (sink.after state calls, log ++ calls) := by
  induction calls generalizing state log with
  | nil => rw [List.append_nil]; rfl
  | cons call rest ih =>
    have h := ih (sink.receive state call).2 (log ++ [call])
    rw [List.append_assoc, List.singleton_append] at h
    rw [after, List.foldl_cons, receive_recorded]
    exact h

theorem refusal?_recorded (calls : List Callback) :
    sink.recorded.refusal? (state, log) calls = sink.refusal? state calls := by
  funext k
  rw [refusal?, refusal?, after_recorded]
  congr 1
  funext call
  rw [receive_recorded]

theorem received_recorded (calls : List Callback) :
    sink.recorded.received (state, log) calls = sink.received state calls := by
  simp only [received, firstRefused?, refusal?_recorded]

theorem failure?_recorded (calls : List Callback) :
    sink.recorded.failure? (state, log) calls = sink.failure? state calls := by
  simp only [failure?, firstRefused?, refusal?_recorded]

end Sink

end TraceGloss
